import Lox.Number.Decimal

/-!
# The shortest decimal of a number

A number is written with the fewest digits that read back as the same number, and among those with
the digits nearest to it. The search goes over grids of decimals, from coarse to fine. On each grid
only the two neighbours of the number can lie in the interval of reals that round to it; the first
grid with a hit gives the digits. The finest grid holds the number itself, so the search succeeds.
-/

namespace Lox

/-- The reals that round to a positive double, as quotients with a common denominator. The ends
belong to the interval if the double's last bit is even. -/
structure Neighbourhood where
  lower : Nat
  center : Nat
  upper : Nat
  den : Nat
  closed : Bool

namespace Neighbourhood

/-- The neighbourhood of `m · 2 ^ q`. Below a power of two the gap to the next double is half as
wide as above it. -/
def ofDyadic (m : Nat) (q : Int) (narrowBelow : Bool) : Neighbourhood :=
  let up := 1 <<< (q - 2).toNat
  { lower := (4 * m - if narrowBelow then 1 else 2) * up
    center := 4 * m * up
    upper := (4 * m + 2) * up
    den := 1 <<< (2 - q).toNat
    closed := m % 2 == 0 }

/-- The neighbour of the number on the grid of multiples of `10 ^ p` that rounds to it; the nearer
one if both do, the even one on a tie. -/
def onGrid? (n : Neighbourhood) (p : Int) : Option Nat :=
  let up := Nat.pow 10 (-p).toNat
  let unit := n.den * Nat.pow 10 p.toNat
  let below := n.center * up / unit
  let inLower := n.lower * up < below * unit || n.closed && n.lower * up == below * unit
  let inUpper := (below + 1) * unit < n.upper * up || n.closed && (below + 1) * unit == n.upper * up
  match inLower, inUpper with
  | true, true => some (roundQuotient (n.center * up) unit)
  | true, false => some below
  | false, true => some (below + 1)
  | false, false => none

/-- The decimal on the first of `k` grids with a hit, from `10 ^ p` downwards; the exact value on the
grid after the last of them. -/
def search (n : Neighbourhood) : (k : Nat) → (p : Int) → Decimal
  | 0, p => ⟨n.center * Nat.pow 10 (-p).toNat / (n.den * Nat.pow 10 p.toNat), p⟩
  | k + 1, p =>
    match n.onGrid? p with
    | some digits => ⟨digits, p⟩
    | none => search n k (p - 1)

end Neighbourhood

namespace Number

/-- The integer `m` and the exponent `q` with magnitude `m · 2 ^ q`. -/
def dyadic (x : Number) : Nat × Int :=
  if x.exponentField == 0 then (x.fractionField, -1074)
  else (0x10000000000000 + x.fractionField, (x.exponentField : Int) - 1075)

/-- The shortest decimal that reads back as the magnitude of a finite number that is not zero. The
search starts on a grid with no point in reach: `30103 / 100000` is the decimal logarithm of two, so
the grid's unit exceeds the number. -/
def shortest (x : Number) : Decimal :=
  let (m, q) := x.dyadic
  let narrowBelow := x.fractionField == 0 && 1 < x.exponentField
  let start := ((m.log2 : Int) + 1 + q) * 30103 / 100000 + 2
  let finest := min q 0
  (Neighbourhood.ofDyadic m q narrowBelow).search (start - finest).toNat start

/-- The printed form of a number: never with an exponent, and without a point if it is whole. -/
def toText (x : Number) : Text :=
  if x.isNaN then text "NaN"
  else if x.isInfinite then if x.isNegative then text "-Inf" else text "+Inf"
  else
    let magnitude :=
      if x.exponentField == 0 && x.fractionField == 0 then text "0" else x.shortest.toText
    if x.isNegative then 45 :: magnitude else magnitude

end Number

end Lox
