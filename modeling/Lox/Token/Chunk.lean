import Lox.Diagnostic

/-!
# Chunks

A source splits into chunks, in order and with nothing left over: blanks, comments, lexemes and
flawed pieces. Each chunk is the longest that the lexical grammar allows at its place.
-/

namespace Lox

/-- What a chunk is. -/
inductive Label where
  | blank
  | lineComment
  | blockComment
  | lexeme (kind : Kind)
  | flaw (error : LexicalError)
  deriving DecidableEq, Repr

/-- A piece of a source with its label. -/
structure Chunk where
  label : Label
  bytes : Text
  deriving DecidableEq, Repr

namespace Chunk

/-- Space, tab, carriage return, line feed and vertical tab. -/
def isBlank (b : UInt8) : Bool := b == 32 || b == 9 || b == 13 || b == 10 || b == 11

/-- A letter or an underscore. -/
def isWordStart (b : UInt8) : Bool := b == 95 || 97 ≤ b && b ≤ 122 || 65 ≤ b && b ≤ 90

/-- A letter, an underscore or a digit. -/
def isWordByte (b : UInt8) : Bool := isWordStart b || Text.isDigit b

/-- The number of bytes up to the first end of a block comment, that end included; all of them if
there is none. -/
def commentRest : Text → Nat
  | [] => 0
  | 42 :: 47 :: _ => 2
  | _ :: rest => commentRest rest + 1

/-- The number of bytes that a numeral has after its first digit: more digits, and a point if a
digit follows it. -/
def numeralRest (rest : Text) : Nat :=
  let whole := (rest.takeWhile Text.isDigit).length
  match rest.dropWhile Text.isDigit with
  | 46 :: after =>
    let places := (after.takeWhile Text.isDigit).length
    if places = 0 then whole else whole + 1 + places
  | _ => whole

/-- The decimal that a numeral denotes. -/
def numeralValue (numeral : Text) : Decimal :=
  Decimal.ofDigits (numeral.takeWhile Text.isDigit) ((numeral.dropWhile Text.isDigit).drop 1)

/-- An operator that another kind replaces if an equals sign follows. -/
def withEqual (rest : Text) (alone joined : Kind) : Label × Nat :=
  match rest with
  | 61 :: _ => (.lexeme joined, 1)
  | _ => (.lexeme alone, 0)

/-- The label of the chunk that starts with a byte, and the number of bytes that it takes from the
rest of the source. -/
def classify (first : UInt8) (rest : Text) : Label × Nat :=
  if isBlank first then (.blank, 0)
  else if isWordStart first then
    let tail := rest.takeWhile isWordByte
    (.lexeme (.ofWord (first :: tail)), tail.length)
  else if Text.isDigit first then
    let extra := numeralRest rest
    match (numeralValue (first :: rest.take extra)).nearest? with
    | some _ => (.lexeme .number, extra)
    | none => (.flaw .invalidNumber, extra)
  else match first with
    | 40 => (.lexeme .leftParen, 0)
    | 41 => (.lexeme .rightParen, 0)
    | 123 => (.lexeme .leftBrace, 0)
    | 125 => (.lexeme .rightBrace, 0)
    | 45 => (.lexeme .minus, 0)
    | 43 => (.lexeme .plus, 0)
    | 42 => (.lexeme .star, 0)
    | 44 => (.lexeme .comma, 0)
    | 46 => (.lexeme .dot, 0)
    | 59 => (.lexeme .semicolon, 0)
    | 58 => (.lexeme .colon, 0)
    | 63 => (.lexeme .question, 0)
    | 33 => withEqual rest .bang .bangEqual
    | 61 => withEqual rest .equal .equalEqual
    | 60 => withEqual rest .less .lessEqual
    | 62 => withEqual rest .greater .greaterEqual
    | 47 =>
      match rest with
      | 47 :: comment => (.lineComment, 1 + (comment.takeWhile (· != Text.newline)).length)
      | 42 :: comment => (.blockComment, 1 + commentRest comment)
      | _ => (.lexeme .slash, 0)
    | 34 =>
      let body := rest.takeWhile (· != 34)
      if body.length < rest.length then (.lexeme .string, body.length + 1)
      else (.flaw .unterminatedString, rest.length)
    | _ => (.flaw .unexpectedCharacter, Text.width (first :: rest) - 1)

def ofSource : Text → List Chunk
  | [] => []
  | first :: rest =>
    let (label, extra) := classify first rest
    ⟨label, first :: rest.take extra⟩ :: ofSource (rest.drop extra)
termination_by source => source.length
decreasing_by simp only [List.length_drop, List.length_cons]; omega

def literal? (c : Chunk) : Option Literal :=
  match c.label with
  | .lexeme .string => some (.string (c.bytes.drop 1).dropLast)
  | .lexeme .number => (numeralValue c.bytes).nearest?.map .number
  | _ => none

/-- The number of line breaks in a chunk. -/
def breaks (c : Chunk) : Nat := c.bytes.count Text.newline

end Chunk

end Lox
