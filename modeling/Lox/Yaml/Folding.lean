import Lox.Yaml.Source

/-!
# Folding

Scalars that run over several lines are folded: blanks around a line break are dropped, a single line
break becomes a space, and of several line breaks the first is dropped. `Folding` gathers the content
of a scalar with the gap behind it, of which it is not known yet whether anything follows.
-/

namespace Lox.Yaml

/-- The content of a scalar so far. All lists hold the newest character first. -/
structure Folding where
  content : List Nat := []
  /-- The blanks of the gap, up to its first line break. -/
  blanks : List Nat := []
  /-- The line breaks of the gap. -/
  breaks : List Nat := []
  /-- The gap starts with a line break that was escaped. -/
  joined : Bool := false
  deriving Repr

namespace Folding

/-- There is no gap behind the content. -/
def closed (f : Folding) : Bool := f.blanks.isEmpty && f.breaks.isEmpty && !f.joined

/-- The gap as it stands between words. The line breaks after an escaped one are all kept. -/
def gap (f : Folding) : List Nat :=
  match f.breaks.reverse with
  | [] => f.blanks.reverse
  | b :: more =>
    if f.joined || b ≠ 10 then b :: more
    else if more.isEmpty then [32]
    else more

/-- Adds the gap to the content. -/
def flush (f : Folding) : Folding := { content := f.gap.reverse ++ f.content }

/-- Adds a character to the content, after the gap. -/
def add (f : Folding) (c : Nat) : Folding :=
  let f := f.flush
  { f with content := c :: f.content }

/-- Adds a blank to the gap; after a line break it is dropped. -/
def blank (f : Folding) (c : Nat) : Folding :=
  if f.breaks.isEmpty && !f.joined then { f with blanks := c :: f.blanks } else f

/-- Adds a line break to the gap. -/
def lineBreak (f : Folding) (c : Nat) : Folding :=
  { f with blanks := [], breaks := normalBreak c :: f.breaks }

/-- Starts a gap with an escaped line break. -/
def join (f : Folding) : Folding := { f.flush with joined := true }

/-- The text of the content, without the gap. -/
def toText (f : Folding) : Text := textOf f.content.reverse

end Folding

end Lox.Yaml
