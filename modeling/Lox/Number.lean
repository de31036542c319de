import Lox.Text

/-!
# Numbers

The numbers of the language are IEEE 754 doubles, given by their bits. Two numbers with different
bits are different here; `Number.equals` is the comparison of the language, where a NaN differs from
itself and the two zeros are equal.
-/

namespace Lox

/-- A double, by its bits. -/
structure Number where
  bits : UInt64
  deriving DecidableEq, Repr, Inhabited

namespace Number

def ofFloat (x : Float) : Number := ⟨x.toBits⟩

def toFloat (x : Number) : Float := Float.ofBits x.bits

def add (x y : Number) : Number := ofFloat (x.toFloat + y.toFloat)

def sub (x y : Number) : Number := ofFloat (x.toFloat - y.toFloat)

def mul (x y : Number) : Number := ofFloat (x.toFloat * y.toFloat)

/-- The quotient; dividing by a zero gives an infinity or a NaN. -/
def div (x y : Number) : Number := ofFloat (x.toFloat / y.toFloat)

def neg (x : Number) : Number := ⟨x.bits ^^^ 0x8000000000000000⟩

/-- The order of the language; a NaN is not below anything. -/
def less (x y : Number) : Bool := x.toFloat < y.toFloat

/-- Below or equal; a NaN is not. -/
def lessEqual (x y : Number) : Bool := x.toFloat ≤ y.toFloat

/-- The equality of the language. -/
def equals (x y : Number) : Bool := x.toFloat == y.toFloat

def zero : Number := ⟨0⟩

def infinity : Number := ⟨0x7FF0000000000000⟩

def nan : Number := ⟨0x7FF8000000000000⟩

/-- One of the two zeros. -/
def isZero (x : Number) : Bool := x.equals zero

/-- The sign bit is set. -/
def isNegative (x : Number) : Bool := x.bits &&& 0x8000000000000000 != 0

def exponentField (x : Number) : Nat := x.bits.toNat >>> 52 % 0x800

def fractionField (x : Number) : Nat := x.bits.toNat % 0x10000000000000

def isNaN (x : Number) : Bool := x.exponentField == 2047 && x.fractionField != 0

def isInfinite (x : Number) : Bool := x.exponentField == 2047 && x.fractionField == 0

end Number

end Lox
