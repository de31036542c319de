import Lox.Yaml.Folding
import Lox.Yaml.Malformed

/-!
# Scalars

Reading plain scalars, scalars in single quotes, where a doubled quote stands for one, scalars in
double quotes, with backslash escapes, and block scalars, which are literal or folded. Each reader
goes over the characters once, with their place.
-/

namespace Lox.Yaml

/-! ## Quoted scalars -/

/-- The text between single quotes. `start` is the place of the opening quote. -/
def singleQuoted (start : Place) : Place → Folding → List Nat → Except Failure (Text × Cursor)
  | p, _, [] => .error ⟨start, p, .unexpectedEnd⟩
  | p, f, 39 :: 39 :: rest => singleQuoted start (p.along 2) (f.add 39) rest
  | p, f, 13 :: 10 :: rest => singleQuoted start (p.nextLine 2) (f.lineBreak 10) rest
  | p, f, c :: rest =>
    if p.column = 0 && startsMarker (c :: rest) then .error ⟨start, p, .unexpectedMarker⟩
    else if c = 39 then .ok (f.flush.toText, ⟨rest, p.next⟩)
    else if isBlank c then singleQuoted start p.next (f.blank c) rest
    else if isBreak c then singleQuoted start (p.nextLine 1) (f.lineBreak c) rest
    else singleQuoted start p.next (f.add c) rest

/-- The character of an escape of one letter. -/
def shortEscape? (c : Nat) : Option Nat :=
  [(48, 0), (97, 7), (98, 8), (116, 9), (9, 9), (110, 10), (118, 11), (102, 12), (114, 13), (101, 27),
    (32, 32), (34, 34), (39, 39), (92, 92), (78, 0x85), (95, 0xA0), (76, 0x2028), (80, 0x2029)].lookup c

/-- The number of hexadecimal digits after an escape letter. -/
def escapeLength? (c : Nat) : Option Nat := [(120, 2), (117, 4), (85, 8)].lookup c

/-- What is being read between double quotes. -/
inductive QuoteMode where
  | text
  /-- The digits of an escape: how many more, and their value so far. -/
  | digits (more value : Nat)
  deriving DecidableEq, Repr

/-- The text between double quotes. `start` is the place of the opening quote. -/
def doubleQuoted (start : Place) :
    QuoteMode → Place → Folding → List Nat → Except Failure (Text × Cursor)
  | .digits _ _, p, _, [] => .error ⟨start, p, .badHexEscape⟩
  | .digits more value, p, f, c :: rest =>
    match hexValue? c with
    | none => .error ⟨start, p, .badHexEscape⟩
    | some d =>
      let value := 16 * value + d
      if 0 < more then doubleQuoted start (.digits (more - 1) value) p.next f rest
      else if (0xD800 ≤ value && value ≤ 0xDFFF) || 0x10FFFF < value then
        .error ⟨start, p, .badCharacterCode⟩
      else doubleQuoted start .text p.next (f.add value) rest
  | .text, p, _, [] => .error ⟨start, p, .unexpectedEnd⟩
  | .text, p, _, [92] => .error ⟨start, p, .unknownEscape⟩
  | .text, p, f, 92 :: 13 :: 10 :: rest => doubleQuoted start .text (p.next.nextLine 2) f.join rest
  | .text, p, f, 92 :: c :: rest =>
    if isBreak c then doubleQuoted start .text (p.next.nextLine 1) f.join rest
    else
      match shortEscape? c, escapeLength? c with
      | some code, _ => doubleQuoted start .text (p.along 2) (f.add code) rest
      | none, some n => doubleQuoted start (.digits (n - 1) 0) (p.along 2) f rest
      | none, none => .error ⟨start, p, .unknownEscape⟩
  | .text, p, f, 13 :: 10 :: rest => doubleQuoted start .text (p.nextLine 2) (f.lineBreak 10) rest
  | .text, p, f, c :: rest =>
    if p.column = 0 && startsMarker (c :: rest) then .error ⟨start, p, .unexpectedMarker⟩
    else if c = 34 then .ok (f.flush.toText, ⟨rest, p.next⟩)
    else if isBlank c then doubleQuoted start .text p.next (f.blank c) rest
    else if isBreak c then doubleQuoted start .text (p.nextLine 1) (f.lineBreak c) rest
    else doubleQuoted start .text p.next (f.add c) rest

/-! ## Plain scalars -/

/-- A plain scalar. -/
structure PlainScalar where
  content : Text
  /-- A line break follows it, and has been read with it. -/
  broken : Bool
  deriving DecidableEq, Repr

/-- The characters that end a plain scalar between brackets: `,`, `?`, `[`, `]` and braces. -/
def isFlowIndicator (c : Nat) : Bool := [44, 63, 91, 93, 123, 125].contains c

/-- A plain scalar ends before a character: a comment, a marker, a colon that ends a key, an indicator
between brackets, or a line that is not indented enough. -/
def plainEnds (flow : Bool) (margin : Nat) (p : Place) (f : Folding) (c : Nat) (rest : List Nat) :
    Bool :=
  (c = 35 && !f.closed) || (p.column = 0 && startsMarker (c :: rest)) || (c = 58 && endsWord rest) ||
    (flow && isFlowIndicator c) || (!flow && !f.breaks.isEmpty && p.column < margin)

/-- A plain scalar, with the gap behind it. `margin` is the least column of its further lines. -/
def plain (flow : Bool) (margin : Nat) (start : Place) :
    Place → Folding → List Nat → Except Failure (PlainScalar × Cursor)
  | p, f, [] => .ok (⟨f.toText, !f.breaks.isEmpty⟩, ⟨[], p⟩)
  | p, f, 13 :: 10 :: rest => plain flow margin start (p.nextLine 2) (f.lineBreak 10) rest
  | p, f, c :: rest =>
    if isBlank c then
      if c = 9 && !f.breaks.isEmpty && p.column < margin then .error ⟨start, p, .tabInPlain⟩
      else plain flow margin start p.next (f.blank c) rest
    else if isBreak c then plain flow margin start (p.nextLine 1) (f.lineBreak c) rest
    else if plainEnds flow margin p f c rest then
      .ok (⟨f.toText, !f.breaks.isEmpty⟩, ⟨c :: rest, p⟩)
    else plain flow margin start p.next (f.add c) rest

/-! ## Block scalars -/

/-- What becomes of the line breaks at the end of a block scalar. -/
inductive Chomping where
  | strip
  | clip
  | keep
  deriving DecidableEq, Repr

/-- The header of a block scalar: whether lines are kept, its end, and its indentation if it is given. -/
structure BlockHeader where
  literal : Bool
  chomping : Chomping
  indentation : Option Nat
  deriving DecidableEq, Repr

/-- A chomping indicator in front. -/
def chomping? : List Nat → Option Chomping
  | 43 :: _ => some .keep
  | 45 :: _ => some .strip
  | _ => none

/-- The indentation indicator in front, if there is one: a digit other than zero. -/
def indentationIndicator? (start : Place) (c : Cursor) : Except Failure (Option Nat) :=
  match c.rest with
  | d :: _ =>
    if !isDigit d then .ok none
    else if d = 48 then .error ⟨start, c.place, .zeroIndentation⟩
    else .ok (some (d - 48))
  | [] => .ok none

/-- The header of a block scalar after its first indicator, up to the end of the line. The indicators
for chomping and indentation come in either order. -/
def blockHeader (literal : Bool) (start : Place) (c : Cursor) :
    Except Failure (BlockHeader × Cursor) := do
  let (header, c) ← match chomping? c.rest with
    | some chomping => do
      let c := c.skip 1
      let indentation ← indentationIndicator? start c
      pure (BlockHeader.mk literal chomping indentation, if indentation.isSome then c.skip 1 else c)
    | none => do
      match ← indentationIndicator? start c with
      | none => pure (BlockHeader.mk literal .clip none, c)
      | some n =>
        let c := c.skip 1
        match chomping? c.rest with
        | some chomping => pure (BlockHeader.mk literal chomping (some n), c.skip 1)
        | none => pure (BlockHeader.mk literal .clip (some n), c)
  let c := c.skipWhile isBlank
  let c := if c.rest.head? = some 35 then c.skipWhile fun b => !isBreak b else c
  match c.rest with
  | [] => .ok (header, c)
  | b :: _ =>
    if isBreak b then .ok (header, c.skipBreak) else .error ⟨start, c.place, .textAfterHeader⟩

/-- The lines of a block scalar so far. All lists hold the newest character first. -/
structure BlockLines where
  content : List Nat := []
  /-- The line break after the last line. -/
  last : List Nat := []
  /-- The line breaks of empty lines after it. -/
  empty : List Nat := []
  /-- The last line starts with a blank. -/
  indented : Bool := false
  deriving Repr

namespace BlockLines

/-- Starts a line with a character. In a folded scalar a line break between two lines that are not
indented becomes a space, or nothing if empty lines follow. -/
def startLine (b : BlockLines) (literal : Bool) (c : Nat) : BlockLines :=
  let folds := !literal && !b.indented && !isBlank c && b.last = [10]
  let lead := if folds then if b.empty.isEmpty then [32] else [] else b.last
  { content := c :: (b.empty ++ lead ++ b.content), indented := isBlank c }

/-- The text of the scalar. -/
def toText (b : BlockLines) (chomping : Chomping) : Text :=
  let tail := match chomping with
    | .strip => []
    | .clip => b.last
    | .keep => b.empty ++ b.last
  textOf (tail ++ b.content).reverse

end BlockLines

/-- Where reading stands in a block scalar. -/
inductive BlockMode where
  /-- In the margin, at a place of the line; `widest` is the widest margin so far. -/
  | margin (widest : Nat)
  | line
  deriving DecidableEq, Repr

/-- The lines of a block scalar. Its indentation, if the header does not give it, is the widest margin
up to the first line that is not empty, but at least `least`. -/
def blockLines (h : BlockHeader) (least : Nat) (start : Place) :
    (indentation : Option Nat) → BlockMode → Place → BlockLines → List Nat →
      Except Failure (Text × Cursor)
  | _, _, p, b, [] => .ok (b.toText h.chomping, ⟨[], p⟩)
  | indentation, .line, p, b, 13 :: 10 :: rest =>
    blockLines h least start indentation (.margin 0) (p.nextLine 2) { b with last := [10] } rest
  | indentation, .line, p, b, c :: rest =>
    if isBreak c then
      blockLines h least start indentation (.margin 0) (p.nextLine 1) { b with last := [normalBreak c] }
        rest
    else blockLines h least start indentation .line p.next { b with content := c :: b.content } rest
  | indentation, .margin widest, p, b, 13 :: 10 :: rest =>
    blockLines h least start indentation (.margin (max widest p.column)) (p.nextLine 2)
      { b with empty := 10 :: b.empty } rest
  | indentation, .margin widest, p, b, c :: rest =>
    let widest := max widest p.column
    let inMargin := indentation.all fun n => p.column < n
    if c = 32 && inMargin then
      blockLines h least start indentation (.margin widest) p.next b rest
    else if c = 9 && inMargin then .error ⟨start, p, .tabInBlock⟩
    else if isBreak c then
      blockLines h least start indentation (.margin widest) (p.nextLine 1)
        { b with empty := normalBreak c :: b.empty } rest
    else
      let n := indentation.getD (max widest least)
      if p.column = n then
        blockLines h least start (some n) .line p.next (b.startLine h.literal c) rest
      else .ok (b.toText h.chomping, ⟨c :: rest, p⟩)

/-- A block scalar after its first indicator. `margin` is the least column of its lines. -/
def blockScalar (literal : Bool) (margin : Nat) (start : Place) (c : Cursor) :
    Except Failure (Text × Cursor) := do
  let (h, c) ← blockHeader literal start c
  let indentation := h.indentation.map fun n => (margin - 1) + n
  blockLines h (max margin 1) start indentation (.margin 0) c.place {} c.rest

end Lox.Yaml
