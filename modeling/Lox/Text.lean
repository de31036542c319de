/-!
# Text

A text is a sequence of bytes. Sources, names, strings and output are texts, and nothing requires
them to be valid UTF-8. This module reads characters off the front of a text (`Text.decode?`), splits
a text into characters and stray bytes (`Text.pieces`), and writes numbers in decimal.
-/

namespace Lox

/-- A text is a sequence of bytes. -/
abbrev Text := List UInt8

/-- The bytes of a string, in UTF-8. -/
def text (s : String) : Text := s.toUTF8.data.toList

namespace Text

/-- A continuation byte of a UTF-8 character. -/
def isTail (b : UInt8) : Bool := 0x80 ≤ b && b ≤ 0xBF

/-- The six bits that a continuation byte carries. -/
def tailBits (b : UInt8) : Nat := b.toNat % 64

/-- The second byte of a three-byte character: no overlong form and no surrogate. -/
def isSecondOfThree (a b : UInt8) : Bool :=
  isTail b && (a != 0xE0 || 0xA0 ≤ b) && (a != 0xED || b ≤ 0x9F)

/-- The second byte of a four-byte character: no overlong form and nothing above U+10FFFF. -/
def isSecondOfFour (a b : UInt8) : Bool :=
  isTail b && (a != 0xF0 || 0x90 ≤ b) && (a != 0xF4 || b ≤ 0x8F)

/-- The character at the front of a text, as its code point and its number of bytes; nothing if the
text is empty or starts with no valid character. -/
def decode? : Text → Option (Nat × Nat)
  | [] => none
  | a :: rest =>
    if a < 0x80 then some (a.toNat, 1)
    else if 0xC2 ≤ a && a ≤ 0xDF then
      match rest with
      | b :: _ => if isTail b then some (a.toNat % 32 * 64 + tailBits b, 2) else none
      | [] => none
    else if 0xE0 ≤ a && a ≤ 0xEF then
      match rest with
      | b :: c :: _ =>
        if isSecondOfThree a b && isTail c then
          some (a.toNat % 16 * 4096 + tailBits b * 64 + tailBits c, 3)
        else none
      | _ => none
    else if 0xF0 ≤ a && a ≤ 0xF4 then
      match rest with
      | b :: c :: d :: _ =>
        if isSecondOfFour a b && isTail c && isTail d then
          some (a.toNat % 8 * 262144 + tailBits b * 4096 + tailBits c * 64 + tailBits d, 4)
        else none
      | _ => none
    else none

/-- The number of bytes of the character at the front of a text; a byte that starts no valid
character counts as one. -/
def width (t : Text) : Nat :=
  match decode? t with
  | some (_, n) => n
  | none => 1

/-- A piece of a text: a whole character, with its bytes, or a byte that belongs to none. -/
inductive Piece where
  | character (code : Nat) (bytes : Text)
  | stray (byte : UInt8)
  deriving DecidableEq, Repr

/-- The pieces of a text, in order. -/
def pieces : Text → List Piece
  | [] => []
  | a :: rest =>
    match decode? (a :: rest) with
    | some (code, n) =>
      .character code (a :: rest.take (n - 1)) :: pieces (rest.drop (n - 1))
    | none => .stray a :: pieces rest
termination_by t => t.length
decreasing_by
  · simp only [List.length_drop, List.length_cons]; omega
  · simp

/-- Every byte belongs to a character. -/
def isValid (t : Text) : Bool :=
  (pieces t).all fun
    | .character _ _ => true
    | .stray _ => false

def digit (n : Nat) : UInt8 := 48 + (n % 10).toUInt8

def isDigit (b : UInt8) : Bool := 48 ≤ b && b ≤ 57

def ofNat (n : Nat) : Text := (Nat.toDigits 10 n).map fun c => c.val.toUInt8

/-- An integer in decimal, with a minus sign if it is negative. -/
def ofInt : Int → Text
  | .ofNat n => ofNat n
  | .negSucc n => 45 :: ofNat (n + 1)

/-- The number that a sequence of decimal digits denotes. -/
def toNat (digits : Text) : Nat :=
  digits.foldl (fun n b => 10 * n + (b.toNat - 48)) 0

def newline : UInt8 := 10

/-- Texts put one after the other, with a separator between neighbours. -/
def join (separator : Text) : List Text → Text
  | [] => []
  | [t] => t
  | t :: rest => t ++ separator ++ join separator rest

def times (n : Nat) (t : Text) : Text := (List.replicate n t).flatten

/-- The lines of a text, each without its line break; a text that ends in a line break has no
further line after it. -/
def lines (t : Text) : List Text :=
  match t.foldr (fun b (line, rest) => if b == newline then ([], line :: rest) else (b :: line, rest))
      (([], []) : Text × List Text) with
  | (first, rest) =>
    let all := first :: rest
    if all.getLast? == some [] then all.dropLast else all

end Text

end Lox
