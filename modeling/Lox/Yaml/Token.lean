import Lox.Yaml.Scalar

/-!
# Tokens

The tokens of a document. Most are a character or a scalar of the document; the tokens that open and
close block collections stand for a change of the indentation.
-/

namespace Lox.Yaml

/-- What a token is. -/
inductive TokenKind where
  | version (major minor : Nat)
  | handle (name full : Text)
  | documentStart
  | documentEnd
  | streamEnd
  | blockSequence
  | blockMapping
  | blockEnd
  | openBracket
  | closeBracket
  | openBrace
  | closeBrace
  | dash
  | comma
  | key
  | colon
  | reference (name : Text)
  | anchor (name : Text)
  | tag (handle suffix : Text)
  | scalar (plain : Bool) (content : Text)
  deriving DecidableEq, Repr

/-- A token with its line, counted from zero. -/
structure Token where
  kind : TokenKind
  line : Nat
  deriving DecidableEq, Repr

/-- The bytes of characters that are all ASCII. -/
def asciiText (codes : List Nat) : Text := codes.map fun c => c.toUInt8

/-! ## Anchors and aliases -/

/-- The name of an anchor or alias after its indicator. -/
def anchorName (start : Place) (c : Cursor) : Except Failure (Text × Cursor) :=
  let (name, c) := c.span isNameCharacter
  let ends := endsWord c.rest ||
    c.rest.head?.any fun b => [63, 58, 44, 93, 125, 37, 64, 96].contains b
  if name.isEmpty || !ends then .error ⟨start, c.place, .badName⟩ else .ok (asciiText name, c)

/-! ## Tags -/

/-- A character of a tag besides letters, digits, `-` and `_`; percent signs start escapes. -/
def isUriCharacter (c : Nat) : Bool :=
  isNameCharacter c ||
    [59, 47, 63, 58, 64, 38, 61, 43, 36, 44, 46, 33, 126, 42, 39, 40, 41, 91, 93].contains c

/-- The characters of a tag, with percent escapes for the bytes of UTF-8 characters. `owed` is the
number of bytes that the last character still lacks. -/
def uri (start : Place) : (owed : Nat) → Place → List Nat → Except Failure (Text × Cursor)
  | 0, p, 37 :: a :: b :: rest =>
    match hexValue? a, hexValue? b with
    | some high, some low =>
      let byte := (16 * high + low).toUInt8
      match utf8Width? byte with
      | none => .error ⟨start, p, .badUriLead⟩
      | some width => do
        let (bytes, c) ← uri start (width - 1) (p.along 3) rest
        return (byte :: bytes, c)
    | _, _ => .error ⟨start, p, .badUriEscape⟩
  | owed + 1, p, 37 :: a :: b :: rest =>
    match hexValue? a, hexValue? b with
    | some high, some low =>
      let byte := (16 * high + low).toUInt8
      if Text.isTail byte then do
        let (bytes, c) ← uri start owed (p.along 3) rest
        return (byte :: bytes, c)
      else .error ⟨start, p, .badUriTail⟩
    | _, _ => .error ⟨start, p, .badUriEscape⟩
  | _ + 1, p, _ => .error ⟨start, p, .badUriEscape⟩
  | 0, p, [] => .ok ([], ⟨[], p⟩)
  | 0, p, b :: rest =>
    if b = 37 then .error ⟨start, p, .badUriEscape⟩
    else if isUriCharacter b then do
      let (bytes, c) ← uri start 0 p.next rest
      return (b.toUInt8 :: bytes, c)
    else .ok ([], ⟨b :: rest, p⟩)

/-- The characters of a tag, of which there is at least one. -/
def someUri (start : Place) (c : Cursor) : Except Failure (Text × Cursor) := do
  let (suffix, after) ← uri start 0 c.place c.rest
  if suffix.isEmpty then .error ⟨start, after.place, .noTagUri⟩ else return (suffix, after)

/-- A handle in front, whole or not: an exclamation mark, a name, and a second exclamation mark if
there is one. -/
def tagHandle (c : Cursor) : Text × Cursor :=
  let (name, after) := (c.skip 1).span isNameCharacter
  match after.rest with
  | 33 :: _ => (33 :: asciiText name ++ [33], after.skip 1)
  | _ => (33 :: asciiText name, after)

/-- A tag: verbatim between `!<` and `>`, with a handle, or local. It is a handle and a suffix; a tag
without a handle stands for itself. -/
def tag (start : Place) (c : Cursor) : Except Failure (TokenKind × Cursor) := do
  let (kind, c) ← match c.rest with
    | 33 :: 60 :: _ => do
      let (suffix, c) ← someUri start (c.skip 2)
      match c.rest with
      | 62 :: _ => pure (TokenKind.tag [] suffix, c.skip 1)
      | _ => .error ⟨start, c.place, .noTagEnd⟩
    | _ => do
      let (handle, c) := tagHandle c
      if 1 < handle.length && handle.getLast? = some 33 then
        let (suffix, c) ← someUri start c
        pure (TokenKind.tag handle suffix, c)
      else
        let (more, c) ← uri start 0 c.place c.rest
        match handle.drop 1 ++ more with
        | [] => pure (TokenKind.tag [] [33], c)
        | suffix => pure (TokenKind.tag [33] suffix, c)
  if endsWord c.rest then return (kind, c) else .error ⟨start, c.place, .noWhitespaceOrBreak⟩

/-! ## Directives -/

/-- A number of a version, of at most two digits. -/
def versionNumber (start : Place) (c : Cursor) : Except Failure (Nat × Cursor) :=
  let (digits, after) := c.span isDigit
  if digits.isEmpty then .error ⟨start, c.place, .noVersion⟩
  else if 2 < digits.length then .error ⟨start, c.place, .longVersion⟩
  else .ok (digits.foldl (fun n d => 10 * n + (d - 48)) 0, after)

/-- The version after `%YAML`. -/
def versionDirective (start : Place) (c : Cursor) : Except Failure (TokenKind × Cursor) := do
  let (major, c) ← versionNumber start (c.skipWhile isBlank)
  if c.rest.head? ≠ some 46 then .error ⟨start, c.place, .badVersion⟩
  let (minor, c) ← versionNumber start (c.skip 1)
  return (.version major minor, c)

/-- The handle and what it stands for after `%TAG`. -/
def handleDirective (start : Place) (c : Cursor) : Except Failure (TokenKind × Cursor) := do
  let c := c.skipWhile isBlank
  if c.rest.head? ≠ some 33 then .error ⟨start, c.place, .noHandleMark⟩
  let (handle, c) := tagHandle c
  if handle ≠ [33] && handle.getLast? ≠ some 33 then .error ⟨start, c.place, .noHandleMark⟩
  if !(c.rest.head?.any isBlank) then .error ⟨start, c.place, .noWhitespace⟩
  let (full, c) ← someUri start (c.skipWhile isBlank)
  if endsWord c.rest then return (.handle handle full, c)
  else .error ⟨start, c.place, .noWhitespaceOrBreak⟩

/-- A directive after its percent sign, up to the next line. -/
def directive (start : Place) (c : Cursor) : Except Failure (TokenKind × Cursor) := do
  let (name, c) := c.span isNameCharacter
  if name.isEmpty then .error ⟨start, c.place, .noDirectiveName⟩
  if !endsWord c.rest then .error ⟨start, c.place, .badDirectiveName⟩
  let (kind, c) ←
    if asciiText name = text "YAML" then versionDirective start c
    else if asciiText name = text "TAG" then handleDirective start c
    else .error ⟨start, c.place, .unknownDirective⟩
  let c := c.skipWhile isBlank
  let c := if c.rest.head? = some 35 then c.skipWhile fun b => !isBreak b else c
  match c.rest with
  | [] => return (kind, c)
  | b :: _ =>
    if isBreak b then return (kind, c.skipBreak) else .error ⟨start, c.place, .textAfterHeader⟩

end Lox.Yaml
