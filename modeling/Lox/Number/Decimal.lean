import Lox.Number

/-!
# Decimals

A decimal is a natural number times a power of ten. `Decimal.nearest?` is the double nearest to it:
the exact value is rounded once, a tie goes to the even neighbour, and a value too large for a double
has no nearest one.
-/

namespace Lox

/-- The decimal `digits · 10 ^ exponent`. -/
structure Decimal where
  digits : Nat
  exponent : Int
  deriving DecidableEq, Repr

/-- A quotient rounded to the nearest natural number, a tie to the even one. -/
def roundQuotient (num den : Nat) : Nat :=
  let q := num / den
  let r := num % den
  if 2 * r < den then q
  else if den < 2 * r then q + 1
  else q + q % 2

namespace Number

/-- The bits of the double nearest to a quotient, if it is not too large for one.

In units of the least positive double the quotient is `num * 2 ^ 1074 / den`. The shift leaves 53
bits of it, or all bits of a value with fewer; adding the rounded rest to the shifted exponent field
carries into the field exactly when the rest reaches the next power of two. -/
def nearestBits (num den : Nat) : Nat :=
  let scaled := num <<< 1074
  let shift := (scaled / den).log2 - 52
  shift <<< 52 + roundQuotient scaled (den <<< shift)

/-- The bits of the positive infinity, which bound those of the finite numbers. -/
def infinityBits : Nat := 0x7FF0000000000000

end Number

namespace Decimal

def num (d : Decimal) : Nat := d.digits * Nat.pow 10 d.exponent.toNat

def den (d : Decimal) : Nat := Nat.pow 10 (-d.exponent).toNat

/-- The double nearest to a decimal, or nothing if the decimal is too large. -/
def nearest? (d : Decimal) : Option Number :=
  let bits := Number.nearestBits d.num d.den
  if bits < Number.infinityBits then some ⟨bits.toUInt64⟩ else none

/-- The decimal that a numeral denotes: digits before the point and digits after it. -/
def ofDigits (whole fraction : Text) : Decimal :=
  ⟨Text.toNat (whole ++ fraction), -(fraction.length : Int)⟩

/-- A decimal in positional notation, without a point if it is whole by its exponent. -/
def toText (d : Decimal) : Text :=
  let digits := Text.ofNat d.digits
  if 0 ≤ d.exponent then digits ++ List.replicate d.exponent.toNat 48
  else
    let places := (-d.exponent).toNat
    -- At least one digit stands before the point.
    let padded := List.replicate (places + 1 - digits.length) 48 ++ digits
    padded.take (padded.length - places) ++ 46 :: padded.drop (padded.length - places)

end Decimal

end Lox
