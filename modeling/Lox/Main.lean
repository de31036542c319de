import Lox.Command

/-!
# The program

The host of a real command line: files, standard streams and the clock of the machine.
-/

namespace Lox

namespace Terminal

def bytes (t : Text) : ByteArray := ⟨t.toArray⟩

def path (t : Text) : String := (String.fromUTF8? (bytes t)).getD ""

/-- Why a file could not be read. -/
def fileError : IO.Error → FileError
  | .noFileOrDirectory _ _ _ => .missing
  | .inappropriateType _ code _ => if code = 21 then .isDirectory else .notDirectory
  | .invalidArgument _ code _ => if code = 36 then .nameTooLong else .invalidName
  | .permissionDenied _ _ _ => .denied
  | e => .other (text (toString e))

def contentsOf (t : Text) : IO (Except FileError Text) := do
  try
    let contents ← IO.FS.readBinFile (path t)
    return .ok contents.toList
  catch e => return .error (fileError e)

def save (t contents : Text) : IO Unit := do
  try IO.FS.writeBinFile (path t) (bytes contents)
  catch _ => pure ()

def write (stream : IO.FS.Stream) (t : Text) : IO Unit := do
  if !t.isEmpty then
    stream.write (bytes t)
    stream.flush

/-- Reads until a line is complete, the buffer is full or the input ends. -/
partial def fill (stream : IO.FS.Stream) (pending : IO.Ref Text) : IO Unit := do
  let buffer ← pending.get
  if buffer.contains Text.newline || bufferSize ≤ buffer.length then return
  let more ← stream.read bufferSize.toUSize
  if more.isEmpty then return
  pending.set (buffer ++ more.toList)
  fill stream pending

def readLine (stream : IO.FS.Stream) (pending : IO.Ref Text) : IO (Option Text) := do
  fill stream pending
  match ReadLine.next? (← pending.get) with
  | none => return none
  | some line =>
    pending.set line.rest
    return some line.content

/-- The second since the epoch at which the machine was started, as the system tells it. -/
def startSecond : IO Nat := do
  try
    let lines := (← IO.FS.readFile "/proc/stat").splitOn "\n"
    let starts := lines.filterMap fun line =>
      match line.splitOn " " with
      | ["btime", second] => second.toNat?
      | _ => none
    return starts.head?.getD 0
  catch _ => return 0

/-- The seconds since the epoch, by a clock that never goes back. -/
def now (start : Nat) : IO Number := do
  return .ofFloat (start.toFloat + (← IO.monoNanosNow).toFloat / 1000000000)

/-- Takes some steps of a machine, each with a reading of the clock of its own. -/
def advance (clock : IO Number) (maxDepth : Nat) : (steps : Nat) → Machine → IO Machine
  | 0, m => return m
  | steps + 1, m => do
    let reading ← clock
    advance clock maxDepth steps (m.run ⟨maxDepth, fun _ => reading⟩ 1)

/-- Runs a machine, with a pause after some thousand steps to show what it has printed. -/
partial def execute (clock : IO Number) (maxDepth : Nat) (handOn : Store → IO Store) (m : Machine) :
    IO Machine := do
  let m ← advance clock maxDepth 5000 m
  let m := { m with store := ← handOn m.store }
  if m.halted then return m else execute clock maxDepth handOn m

/-- The home directory, unless it is unknown or empty. -/
def home : IO (Option Text) := do
  match ← IO.getEnv "HOME" with
  | some h => return if h.isEmpty then none else some (text h)
  | none => return none

def host : IO (Host IO) := do
  let input ← IO.getStdin
  let pending ← IO.mkRef []
  return {
    home := ← home
    contentsOf
    save
    readLine := readLine input pending
    writeOut := write (← IO.getStdout)
    writeErr := write (← IO.getStderr)
    execute := execute (now (← startSecond))
    patience := 0x4000000000000000 }

end Terminal

end Lox

def main (arguments : List String) : IO UInt32 := do
  let exit ← Lox.Command.run (← Lox.Terminal.host) (arguments.map Lox.text)
  return exit.code.toUInt32
