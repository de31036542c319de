import Lox.Text

/-!
# Lines and their history

Lines are read from a buffer of limited size, so a line that does not fit comes in parts. The history
of a prompt keeps the newest lines that were entered, a line that repeats the one before it only once.
-/

namespace Lox

/-- The size of the buffer that lines are read from. -/
def bufferSize : Nat := 4096

/-- A line read from an input: its content, whether it ended before the buffer was full, and the rest
of the input. -/
structure ReadLine where
  content : Text
  whole : Bool
  rest : Text
  deriving DecidableEq, Repr

namespace ReadLine

/-- A line without the carriage return at its end. -/
def withoutReturn (t : Text) : Text := if t.getLast? == some 13 then t.dropLast else t

/-- The next line of an input. A line ends with a line feed, or a carriage return and a line feed, or
with the input. A carriage return at the end of a full buffer is left for the next line, in case a
line feed follows. -/
def next? (input : Text) : Option ReadLine :=
  let buffer := input.take bufferSize
  let content := buffer.takeWhile (· != Text.newline)
  if input.isEmpty then none
  else if content.length < buffer.length then
    some ⟨withoutReturn content, true, input.drop (content.length + 1)⟩
  else if buffer.length < bufferSize then some ⟨buffer, true, []⟩
  else if buffer.getLast? == some 13 then
    some ⟨buffer.dropLast, false, input.drop (bufferSize - 1)⟩
  else some ⟨buffer, false, input.drop bufferSize⟩

/-- Reading a line makes the input shorter. -/
theorem rest_length_lt {input : Text} {line : ReadLine} (h : next? input = some line) :
    line.rest.length < input.length := by
  unfold next? at h
  have hsize : bufferSize = 4096 := rfl
  cases input with
  | nil => simp at h
  | cons b rest =>
    simp only [List.isEmpty_cons, Bool.false_eq_true, if_false] at h
    split at h
    · cases h; simp only [List.length_drop, List.length_cons]; omega
    · split at h
      · cases h; simp
      · split at h <;> cases h <;> simp only [List.length_drop, List.length_cons] <;> omega

end ReadLine

/-- The lines that were entered, the oldest first. -/
structure History where
  lines : List Text
  deriving DecidableEq, Repr

namespace History

def empty : History := ⟨[]⟩

/-- The largest number of lines that a history keeps. -/
def limit : Nat := 1000

/-- Adds a line; the oldest one goes if there are too many. -/
def push (h : History) (line : Text) : History :=
  let lines := h.lines ++ [line]
  ⟨lines.drop (lines.length - limit)⟩

/-- Adds a line that was entered, unless it repeats the one before it. -/
def enter (h : History) (line : Text) : History :=
  if h.lines.getLast? == some line then h else h.push line

/-- Adds the lines of a file, up to one that is too long or not valid UTF-8. -/
def addFile (h : History) (contents : Text) : History :=
  match _hn : ReadLine.next? contents with
  | none => h
  | some line =>
    if line.whole && line.content.isValid then (h.push line.content).addFile line.rest else h
termination_by contents.length
decreasing_by exact ReadLine.rest_length_lt _hn

/-- The history as the contents of a file. -/
def toContents (h : History) : Text := h.lines.flatMap (· ++ [Text.newline])

end History

end Lox
