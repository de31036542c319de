import Lox.Diagnostic
import Lox.Tree

/-!
# Cursors

Reading a tree goes over the tokens of a source with one token of lookahead. A cursor holds the
tokens still ahead, the site of the first of them, and the syntax errors noticed so far. The end of
the source is not a token of the list: when nothing is ahead, the current token is the end token.

A production returns `Parsed α n`: a value and a cursor with fewer than `n` tokens ahead, or a failure
that has been noted, with at most `n` tokens ahead. The bound lets productions call each other.
-/

namespace Lox

/-- A syntax error with the site of the current token at the moment when it was noticed. -/
structure Noticed where
  site : Site
  error : StaticError
  deriving DecidableEq, Repr

/-- Where a reader of tokens stands. -/
structure Cursor where
  ahead : List Token
  site : Site
  endLine : Nat
  /-- The errors noticed so far, the newest first. -/
  noticed : List Noticed
  deriving Repr

namespace Cursor

abbrev remaining (c : Cursor) : Nat := c.ahead.length

/-- The current token: the first one ahead, or the end of the source. -/
def current (c : Cursor) : Token :=
  match c.ahead with
  | [] => { kind := .endOfFile, lexeme := [], line := c.endLine }
  | t :: _ => t

def atEnd (c : Cursor) : Bool := c.ahead.isEmpty

def sees (c : Cursor) (k : Kind) : Bool :=
  match c.ahead with
  | [] => false
  | t :: _ => t.kind == k

/-- A token is ahead unless the source is at its end. -/
theorem remaining_pos {c : Cursor} (h : c.atEnd = false) : 0 < c.remaining := by
  unfold atEnd at h
  exact List.length_pos_iff.2 (by simpa using h)

section Bounds

variable {c c₁ c₂ : Cursor}

theorem remaining_lt_succ (c : Cursor) : c.remaining < c.remaining + 1 := Nat.lt_succ_self _

theorem remaining_le_succ (c : Cursor) : c.remaining ≤ c.remaining + 1 := Nat.le_succ _

theorem le_of_shorter (h : c₁.remaining < c.remaining) : c₁.remaining ≤ c.remaining :=
  Nat.le_of_lt h

theorem le_of_shorter_twice (h : c₂.remaining < c₁.remaining) (h' : c₁.remaining < c.remaining) :
    c₂.remaining ≤ c.remaining :=
  Nat.le_of_lt (Nat.lt_trans h h')

theorem le_succ_of_shorter (h : c₁.remaining < c.remaining) : c₁.remaining ≤ c.remaining + 1 :=
  Nat.le_succ_of_le (Nat.le_of_lt h)

theorem le_of_within (h : c₁.remaining < c.remaining + 1) : c₁.remaining ≤ c.remaining :=
  Nat.le_of_lt_succ h

theorem le_succ_of_within (h : c₁.remaining < c.remaining + 1) : c₁.remaining ≤ c.remaining + 1 :=
  Nat.le_of_lt h

theorem succ_le_succ_of_shorter (h : c₁.remaining < c.remaining) :
    c₁.remaining + 1 ≤ c.remaining + 1 :=
  Nat.succ_le_succ (Nat.le_of_lt h)

end Bounds

def note (c : Cursor) (t : Token) (e : SyntaxError) : Cursor :=
  { c with noticed := ⟨c.site, .ofGrammar t e⟩ :: c.noticed }

/-- Notes an error at the current token if a condition holds. -/
def noteIf (c : Cursor) (condition : Bool) (e : SyntaxError) : Cursor :=
  { c with noticed := if condition then ⟨c.site, .ofGrammar c.current e⟩ :: c.noticed else c.noticed }

/-- The kinds that start a statement, where reading resumes after an error. -/
def startsStatement : Kind → Bool
  | .classWord | .funWord | .varWord | .forWord | .ifWord | .whileWord | .printWord
  | .returnWord => true
  | _ => false

/-- Drops tokens after one of a kind until that kind is a semicolon, a statement starts, or the
source ends. -/
def skipAfter (previous : Kind) (ahead : List Token) (site : Site) : List Token × Site :=
  match ahead with
  | [] => ([], site)
  | t :: rest =>
    if previous == .semicolon || startsStatement t.kind then (t :: rest, site)
    else skipAfter t.kind rest (site + 1)

/-- Drops the token where an error was found, and then everything up to the next statement. -/
def synchronize (c : Cursor) : Cursor :=
  match c.ahead with
  | [] => c
  | t :: rest =>
    let (ahead, site) := skipAfter t.kind rest (c.site + 1)
    { c with ahead, site }

theorem length_skipAfter_le (previous : Kind) (ahead : List Token) (site : Site) :
    (skipAfter previous ahead site).1.length ≤ ahead.length := by
  induction ahead generalizing previous site with
  | nil => simp [skipAfter]
  | cons t rest ih =>
    unfold skipAfter
    split
    · simp
    · exact Nat.le_trans (ih _ _) (by simp)

/-- Recovery drops at least one token, if there is one. -/
theorem remaining_synchronize_le (c : Cursor) : c.synchronize.remaining ≤ c.remaining - 1 := by
  unfold synchronize remaining
  split
  · simp_all
  · next t rest h =>
    have := length_skipAfter_le t.kind rest (c.site + 1)
    simp_all

end Cursor

/-- What was taken from the front of the tokens, and the cursor after it. -/
structure Taken (α : Type) (n : Nat) where
  value : α
  next : Cursor
  shorter : next.remaining < n

/-- The outcome of a production with a bound on the tokens ahead. -/
inductive Parsed (α : Type) (n : Nat) where
  | done (value : α) (next : Cursor) (shorter : next.remaining < n)
  | failed (next : Cursor) (within : next.remaining ≤ n)

namespace Parsed

variable {α β : Type} {m n : Nat}

/-- A bound may be raised. -/
def weaken (p : Parsed α m) (h : m ≤ n) : Parsed α n :=
  match p with
  | .done value next shorter => .done value next (Nat.lt_of_lt_of_le shorter h)
  | .failed next within => .failed next (Nat.le_trans within h)

/-- Goes on with the value of a production; a failure stays. -/
def andThen (p : Parsed α n) (f : (value : α) → (next : Cursor) → next.remaining < n → Parsed β n) :
    Parsed β n :=
  match p with
  | .done value next shorter => f value next shorter
  | .failed next within => .failed next within

def map (p : Parsed α n) (f : α → β) : Parsed β n := p.andThen fun value next h => .done (f value) next h

end Parsed

namespace Cursor

/-- Fails at the current token. -/
def fail {α : Type} (c : Cursor) (what : Expected) : Parsed α c.remaining :=
  .failed (c.note c.current (.missing what)) (Nat.le_refl _)

/-- Takes the current token if a test gives a value for it. -/
def acceptBy? {α : Type} (c : Cursor) (test : Token → Option α) : Option (Taken α c.remaining) :=
  match h : c.ahead with
  | [] => none
  | t :: rest =>
    match test t with
    | some value => some ⟨value, { c with ahead := rest, site := c.site + 1 }, by simp [remaining, h]⟩
    | none => none

/-- Takes the current token if it is of a kind. -/
def accept? (c : Cursor) (k : Kind) : Option (Taken Token c.remaining) :=
  c.acceptBy? fun t => if t.kind = k then some t else none

/-- Takes a token of a kind, or fails. -/
def expect (c : Cursor) (k : Kind) (what : Expected) : Parsed Token c.remaining :=
  match c.accept? k with
  | some ⟨t, next, shorter⟩ => .done t next shorter
  | none => c.fail what

end Cursor

end Lox
