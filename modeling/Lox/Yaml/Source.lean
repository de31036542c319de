import Lox.Text

/-!
# Characters of a document

A YAML document is a text in UTF-8, or in UTF-16 with a byte order mark. It is decoded in blocks of
bytes, so a fault is noticed when reading comes to the block that holds it, and the characters in
front of it in that block are never seen (`Source.ofText`).

The module also says which characters break lines and which separate words.
-/

namespace Lox.Yaml

/-- Why bytes are no characters of a document. -/
inductive EncodingError where
  | invalidLead
  | incomplete
  | invalidTail
  | overlong
  | noCharacter
  | control
  | incompleteUnit
  | incompletePair
  | unexpectedLow
  | missingLow
  deriving DecidableEq, Repr

def EncodingError.message : EncodingError → String
  | .invalidLead => "invalid leading UTF-8 octet"
  | .incomplete => "incomplete UTF-8 octet sequence"
  | .invalidTail => "invalid trailing UTF-8 octet"
  | .overlong => "invalid length of a UTF-8 sequence"
  | .noCharacter => "invalid Unicode character"
  | .control => "control characters are not allowed"
  | .incompleteUnit => "incomplete UTF-16 character"
  | .incompletePair => "incomplete UTF-16 surrogate pair"
  | .unexpectedLow => "unexpected low surrogate area"
  | .missingLow => "expected low surrogate area"

/-- What stands at the front of some bytes. -/
inductive Decoded where
  /-- A character, with the number of its bytes less one. -/
  | character (code more : Nat)
  /-- The bytes end before the character does; an error if no bytes follow. -/
  | cutOff (e : EncodingError)
  | fault (e : EncodingError)
  deriving DecidableEq, Repr

/-- The number of bytes of a UTF-8 character, by its first byte. -/
def utf8Width? (b : UInt8) : Option Nat :=
  if b < 0x80 then some 1
  else if 0xC0 ≤ b && b < 0xE0 then some 2
  else if 0xE0 ≤ b && b < 0xF0 then some 3
  else if 0xF0 ≤ b && b < 0xF8 then some 4
  else none

/-- A character that documents may hold. -/
def isAllowed (code : Nat) : Bool :=
  code == 0x09 || code == 0x0A || code == 0x0D || code == 0x85 ||
    (0x20 ≤ code && code ≤ 0x7E) || (0xA0 ≤ code && code ≤ 0xD7FF) ||
    (0xE000 ≤ code && code ≤ 0xFFFD) || (0x10000 ≤ code && code ≤ 0x10FFFF)

/-- A character of a number of bytes, if documents may hold it. -/
def Decoded.ofCode (code more : Nat) : Decoded :=
  if isAllowed code then .character code more else .fault .control

/-- The bits that the first byte of a UTF-8 character of some width carries. -/
def leadBits (width : Nat) (b : UInt8) : Nat :=
  if width == 1 then b.toNat else b.toNat % (1 <<< (7 - width))

/-- The smallest code point that needs a width. -/
def leastOfWidth : Nat → Nat
  | 2 => 0x80
  | 3 => 0x800
  | 4 => 0x10000
  | _ => 0

/-- The UTF-8 character at the front of some bytes. -/
def decodeUtf8 (first : UInt8) (rest : Text) : Decoded :=
  match utf8Width? first with
  | none => .fault .invalidLead
  | some width =>
    let tail := rest.take (width - 1)
    if tail.length < width - 1 then .cutOff .incomplete
    else if !tail.all Text.isTail then .fault .invalidTail
    else
      let code := tail.foldl (fun n b => 64 * n + Text.tailBits b) (leadBits width first)
      if code < leastOfWidth width then .fault .overlong
      else if (0xD800 ≤ code && code ≤ 0xDFFF) || 0x10FFFF < code then .fault .noCharacter
      else .ofCode code (width - 1)

/-- The UTF-16 character at the front of some bytes. -/
def decodeUtf16 (littleEndian : Bool) (first : UInt8) (rest : Text) : Decoded :=
  let unit (a b : UInt8) : Nat :=
    if littleEndian then b.toNat * 256 + a.toNat else a.toNat * 256 + b.toNat
  match rest with
  | [] => .cutOff .incompleteUnit
  | second :: rest =>
    let high := unit first second
    if high / 1024 == 0xDC00 / 1024 then .fault .unexpectedLow
    else if high / 1024 == 0xD800 / 1024 then
      match rest with
      | third :: fourth :: _ =>
        let low := unit third fourth
        if low / 1024 == 0xDC00 / 1024 then
          .ofCode (0x10000 + high % 1024 * 1024 + low % 1024) 3
        else .fault .missingLow
      | _ => .cutOff .incompletePair
    else .ofCode high 1

/-- The characters of a block of bytes, and the bytes at its end that are no whole character. -/
def decodeBlock (decode : UInt8 → Text → Decoded) (block : Text) :
    Except EncodingError (List Nat × Text) :=
  match block with
  | [] => .ok ([], [])
  | b :: rest =>
    match decode b rest with
    | .fault e => .error e
    | .cutOff _ => .ok ([], b :: rest)
    | .character code more => do
      let (codes, left) ← decodeBlock decode (rest.drop more)
      return (code :: codes, left)
termination_by block.length
decreasing_by simp only [List.length_cons, List.length_drop]; omega

def blockSize : Nat := 512

/-- The characters of bytes, block by block, and what ends them if it is not the end of the bytes.
`left` are bytes of the block before that are no whole character. -/
def decodeBlocks (decode : UInt8 → Text → Decoded) (room : Nat) (left bytes : Text) :
    List Nat × Option EncodingError :=
  if bytes.isEmpty || room == 0 then
    match left with
    | [] => ([], none)
    | b :: rest =>
      match decode b rest with
      | .cutOff e | .fault e => ([], some e)
      | .character _ _ => ([], none)
  else
    match decodeBlock decode (left ++ bytes.take room) with
    | .error e => ([], some e)
    | .ok (codes, left) =>
      let (more, e) := decodeBlocks decode (blockSize - left.length) left (bytes.drop room)
      (codes ++ more, e)
termination_by bytes.length
decreasing_by
  rename_i h
  simp only [Bool.or_eq_true, List.isEmpty_iff, beq_iff_eq, not_or] at h
  have := List.length_pos_iff.2 h.1
  simp only [List.length_drop]
  omega

/-- The characters of a document that can be read, and the encoding error that follows them, if one
does. -/
structure Source where
  characters : List Nat
  fault : Option EncodingError
  deriving DecidableEq, Repr

/-- The document of a text. A byte order mark tells the encoding and is no character. -/
def Source.ofText (t : Text) : Source :=
  let (characters, fault) := match t with
    | 0xFF :: 0xFE :: rest => decodeBlocks (decodeUtf16 true) (blockSize - 2) [] rest
    | 0xFE :: 0xFF :: rest => decodeBlocks (decodeUtf16 false) (blockSize - 2) [] rest
    | 0xEF :: 0xBB :: 0xBF :: rest => decodeBlocks decodeUtf8 (blockSize - 3) [] rest
    | t => decodeBlocks decodeUtf8 blockSize [] t
  ⟨characters, fault⟩

/-- The text of characters, in UTF-8. -/
def textOf (codes : List Nat) : Text := codes.flatMap fun code => text (Char.ofNat code).toString

/-! ## Kinds of characters -/

def isBlank (c : Nat) : Bool := c == 32 || c == 9

/-- A character that ends a line. A carriage return and a line feed together end one line. -/
def isBreak (c : Nat) : Bool := c == 10 || c == 13 || c == 0x85 || c == 0x2028 || c == 0x2029

/-- A line break as scalars hold it: the separators for lines and paragraphs are kept. -/
def normalBreak (c : Nat) : Nat := if c == 0x2028 || c == 0x2029 then c else 10

/-- A word ends here: a blank, a line break or the end follows. -/
def endsWord : List Nat → Bool
  | [] => true
  | c :: _ => isBlank c || isBreak c

def isDigit (c : Nat) : Bool := 48 ≤ c && c ≤ 57

/-- A letter, a digit, a hyphen or an underscore. -/
def isNameCharacter (c : Nat) : Bool :=
  isDigit c || (65 ≤ c && c ≤ 90) || (97 ≤ c && c ≤ 122) || c == 95 || c == 45

/-- The value of a hexadecimal digit. -/
def hexValue? (c : Nat) : Option Nat :=
  if isDigit c then some (c - 48)
  else if 97 ≤ c && c ≤ 102 then some (c - 87)
  else if 65 ≤ c && c ≤ 70 then some (c - 55)
  else none

/-- A marker of three equal characters at the front, as a word of its own. -/
def isMarker (mark : Nat) : List Nat → Bool
  | a :: b :: c :: rest => a == mark && b == mark && c == mark && endsWord rest
  | _ => false

/-- A marker for the start or the end of a document stands at the front. -/
def startsMarker (cs : List Nat) : Bool := isMarker 45 cs || isMarker 46 cs

/-! ## Places -/

/-- A place in a document. All three count from zero. -/
structure Place where
  index : Nat
  line : Nat
  column : Nat
  deriving DecidableEq, Repr

namespace Place

def start : Place := ⟨0, 0, 0⟩

/-- The place some characters further on the same line. -/
def along (p : Place) (n : Nat) : Place := { p with index := p.index + n, column := p.column + n }

/-- The place after one more character of the same line. -/
def next (p : Place) : Place := p.along 1

/-- The place after a line break of some characters. -/
def nextLine (p : Place) (width : Nat) : Place := ⟨p.index + width, p.line + 1, 0⟩

end Place

/-- Where reading stands: the characters ahead and their place. -/
structure Cursor where
  rest : List Nat
  place : Place
  deriving Repr

namespace Cursor

/-- Past some characters of the line. -/
def skip (c : Cursor) (n : Nat) : Cursor := ⟨c.rest.drop n, c.place.along n⟩

/-- The characters in front that satisfy a condition, which no line break does, and the cursor after
them. -/
def span (c : Cursor) (p : Nat → Bool) : List Nat × Cursor :=
  let taken := c.rest.takeWhile p
  (taken, c.skip taken.length)

/-- Past the characters in front that satisfy a condition, which no line break does. -/
def skipWhile (c : Cursor) (p : Nat → Bool) : Cursor := (c.span p).2

/-- Past a line break, if one stands in front. -/
def skipBreak (c : Cursor) : Cursor :=
  match c.rest with
  | 13 :: 10 :: rest => ⟨rest, c.place.nextLine 2⟩
  | b :: rest => if isBreak b then ⟨rest, c.place.nextLine 1⟩ else c
  | [] => c

end Cursor

end Lox.Yaml
