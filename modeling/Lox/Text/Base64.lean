import Lox.Text

/-!
# Octets as letters

Three octets are written as four letters of six bits each. At the end one or two octets can be left,
which are written as two or three letters and filled up with equals signs.
-/

namespace Lox.Text

/-- The six bits that a letter stands for. -/
def sixBits? (b : UInt8) : Option Nat :=
  if 65 ≤ b && b ≤ 90 then some (b.toNat - 65)
  else if 97 ≤ b && b ≤ 122 then some (b.toNat - 71)
  else if isDigit b then some (b.toNat + 4)
  else if b = 43 then some 62
  else if b = 47 then some 63
  else none

/-- The octets that groups of four letters stand for. The bits that fill up the last letter are
ignored. -/
def ofSixBits? : Text → Option Text
  | [] => some []
  | [a, b, 61, 61] => do
    let x := (← sixBits? a) * 64 + (← sixBits? b)
    return [(x / 16).toUInt8]
  | [a, b, c, 61] => do
    let x := ((← sixBits? a) * 64 + (← sixBits? b)) * 64 + (← sixBits? c)
    return [(x / 1024).toUInt8, (x / 4).toUInt8]
  | a :: b :: c :: d :: rest => do
    let x := (((← sixBits? a) * 64 + (← sixBits? b)) * 64 + (← sixBits? c)) * 64 + (← sixBits? d)
    return (x / 65536).toUInt8 :: (x / 256).toUInt8 :: x.toUInt8 :: (← ofSixBits? rest)
  | _ => none

/-- The octets that a text of letters stands for; line breaks are ignored. -/
def ofBase64? (t : Text) : Option Text := ofSixBits? (t.filter fun b => b != 10 && b != 13)

end Lox.Text
