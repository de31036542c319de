import Lox.Text

/-!
# Integers as text

An integer is written in decimal or with a base mark: `0x`, `0b`, `0o` or a leading zero. A sign may
stand in front, and underscores between digits; a base mark counts as a digit there. Integers have 64
bits, with or without a sign.
-/

namespace Lox

/-- What a text denotes as a natural number of 64 bits. -/
inductive NaturalReading where
  | malformed
  | tooLarge
  | value (n : Nat)
  deriving DecidableEq, Repr

/-- What a text denotes as an integer of 64 bits. -/
inductive IntegerReading where
  | malformed
  | tooLarge
  | value (n : Int)
  deriving DecidableEq, Repr

namespace Text

/-- A lowercase letter for an uppercase one, and any other byte as it is. -/
def lower (b : UInt8) : UInt8 := if 65 ≤ b && b ≤ 90 then b + 32 else b

def underscore : UInt8 := 95

/-- The value of a byte as a digit of a base of at most 36. -/
def digitValue? (b : UInt8) : Option Nat :=
  if isDigit b then some (b.toNat - 48)
  else if 97 ≤ lower b && lower b ≤ 122 then some ((lower b).toNat - 87)
  else none

/-- The base of a numeral, and its digits after the base mark. A mark without digits is none. -/
def splitBase : Text → Nat × Text
  | 48 :: mark :: digit :: rest =>
    if lower mark == 98 then (2, digit :: rest)
    else if lower mark == 111 then (8, digit :: rest)
    else if lower mark == 120 then (16, digit :: rest)
    else (8, mark :: digit :: rest)
  | 48 :: rest => (8, rest)
  | t => (10, t)

/-- Each underscore stands between two digits. `afterDigit` says whether a digit or a base mark stands
before the text. -/
def separates (afterDigit : Bool) : Text → Bool
  | [] => true
  | b :: rest =>
    if b == underscore then afterDigit && !rest.isEmpty && separates false rest
    else separates true rest

/-- The number that digits of a base denote after a number read so far. It is read from the left, so a
number that grows too large is noticed before a byte that is no digit. -/
def readDigits (base : Nat) : (sofar : Nat) → Text → NaturalReading
  | n, [] => .value n
  | n, b :: rest =>
    if b == underscore then readDigits base n rest
    else
      match digitValue? b with
      | none => .malformed
      | some d =>
        if base ≤ d then .malformed
        else if 0x10000000000000000 ≤ n * base + d then .tooLarge
        else readDigits base (n * base + d) rest

/-- The natural number that a text denotes. -/
def readNatural (t : Text) : NaturalReading :=
  match t with
  | [] => .malformed
  | _ =>
    let (base, digits) := splitBase t
    match readDigits base 0 digits with
    | .value n =>
      if separates (digits.length < t.length) digits then .value n else .malformed
    | r => r

/-- The integer that a text denotes. -/
def readInteger (t : Text) : IntegerReading :=
  let (negative, magnitude) := match t with
    | 45 :: rest => (true, rest)
    | 43 :: rest => (false, rest)
    | _ => (false, t)
  match readNatural magnitude with
  | .malformed => .malformed
  | .tooLarge => .tooLarge
  | .value n =>
    if negative then if n ≤ 0x8000000000000000 then .value (-n) else .tooLarge
    else if n < 0x8000000000000000 then .value n
    else .tooLarge

end Text

end Lox
