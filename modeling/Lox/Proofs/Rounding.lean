import Lox.Number.Decimal
import Mathlib.Tactic.Common
import Mathlib.Tactic.Ring

/-!
# Decimals too large for a double

The largest double is `(2 ^ 53 - 1) * 2 ^ 971`, and the next power of two above it is `2 ^ 1024`. A value
from the middle between the two on, which is `(2 ^ 54 - 1) * 2 ^ 970`, has no nearest double
(`Decimal.nearest?_eq_none_iff`); the middle itself would be rounded to the even neighbour, which is the power.

The proof goes by the shift of `Number.nearestBits`: below 2045 the bits stay below those of the
infinity, above 2045 they do not, and at 2045 it depends on whether the rounded quotient reaches the
next power of two (`roundQuotient_le_iff`).
-/

namespace Lox

/-- Rounding exceeds an odd number from the middle above it on. -/
theorem roundQuotient_le_iff (num : Nat) {den k : Nat} (hden : 0 < den) (hk : k % 2 = 1) :
    roundQuotient num den ≤ k ↔ 2 * num < (2 * k + 1) * den := by
  have hdiv := Nat.div_add_mod num den
  have hmod := Nat.mod_lt num hden
  generalize hq : num / den = q at hdiv
  generalize num % den = r at hdiv hmod
  subst hdiv
  have hround : roundQuotient (den * q + r) den =
      if 2 * r < den then q else if den < 2 * r then q + 1 else q + q % 2 := by
    have h1 : (den * q + r) / den = q := hq
    have h2 : (den * q + r) % den = r := by rw [Nat.mul_add_mod, Nat.mod_eq_of_lt hmod]
    simp only [roundQuotient, h1, h2]
  rw [hround]
  rcases Nat.lt_trichotomy q k with hlt | rfl | hgt
  · -- The quotient is below, and rounding adds at most one.
    have hle : den * (q + 1) ≤ den * k := Nat.mul_le_mul_left den hlt
    have hexpand : (2 * k + 1) * den = 2 * (den * k) + den := by ring
    have hsucc : den * (q + 1) = den * q + den := by ring
    constructor
    · intro _
      omega
    · intro _
      split_ifs <;> omega
  · have hexpand : (2 * q + 1) * den = 2 * (den * q) + den := by ring
    constructor
    · intro h
      split_ifs at h <;> omega
    · intro h
      rw [if_pos (by omega)]
  · have hle : den * (k + 1) ≤ den * q := Nat.mul_le_mul_left den hgt
    have hexpand : (2 * k + 1) * den = 2 * (den * k) + den := by ring
    have hsucc : den * (k + 1) = den * k + den := by ring
    constructor
    · intro h
      split_ifs at h <;> omega
    · intro _
      omega

theorem div_le_roundQuotient (num den : Nat) : num / den ≤ roundQuotient num den := by
  simp only [roundQuotient]
  split_ifs <;> omega

theorem roundQuotient_le_div_succ (num den : Nat) : roundQuotient num den ≤ num / den + 1 := by
  simp only [roundQuotient]
  split_ifs <;> omega

namespace Number

/-- A scaled quotient, compared with a power of two from the scale on. -/
theorem scaled_div_lt_iff (num scale k : Nat) {den : Nat} (hden : 0 < den) :
    num * 2 ^ scale / den < 2 ^ (k + scale) ↔ num < 2 ^ k * den := by
  rw [Nat.div_lt_iff_lt_mul hden, Nat.pow_add, Nat.mul_right_comm]
  exact Nat.mul_lt_mul_right (Nat.two_pow_pos scale)

/-- The shift leaves at most 53 bits of the quotient. -/
theorem div_shift_lt (scaled den : Nat) : scaled / (den * 2 ^ ((scaled / den).log2 - 52)) < 2 ^ 53 := by
  rw [← Nat.div_div_eq_div_mul, Nat.div_lt_iff_lt_mul (Nat.two_pow_pos _), ← Nat.pow_add]
  refine Nat.lt_of_lt_of_le Nat.lt_log2_self (Nat.pow_le_pow_right (by decide) ?_)
  omega

/-- The shift leaves 53 bits of a quotient that has as many. -/
theorem le_div_shift (scaled den : Nat) (h : 52 ≤ (scaled / den).log2) :
    2 ^ 52 ≤ scaled / (den * 2 ^ ((scaled / den).log2 - 52)) := by
  rw [← Nat.div_div_eq_div_mul, Nat.le_div_iff_mul_le (Nat.two_pow_pos _), ← Nat.pow_add,
    Nat.add_sub_cancel' h]
  refine Nat.log2_self_le fun h0 => ?_
  rw [h0] at h
  exact absurd h (by decide)

/-- A quotient with 53 bits is rounded up to the next power of two from the middle below it on. The
scale of the quotient plays no role. -/
theorem roundQuotient_scaled_lt_iff (num scale e : Nat) {den : Nat} (hden : 0 < den) :
    roundQuotient (num * 2 ^ scale) (den * 2 ^ (e + 1 + scale)) < 2 ^ 53 ↔
      num < (2 ^ 54 - 1) * (2 ^ e * den) := by
  have hmiddle := roundQuotient_le_iff (num * 2 ^ scale) (k := 2 ^ 53 - 1)
    (Nat.mul_pos hden (Nat.two_pow_pos (e + 1 + scale))) (by decide)
  have hodd : 2 * (2 ^ 53 - 1) + 1 = 2 ^ 54 - 1 := by decide
  have hsplit : (2 ^ 54 - 1) * (den * 2 ^ (e + 1 + scale)) =
      (2 ^ 54 - 1) * (2 ^ e * den) * (2 * 2 ^ scale) := by
    rw [Nat.pow_add, Nat.pow_add]
    ring
  rw [hodd, hsplit, Nat.mul_left_comm, Nat.mul_lt_mul_right
    (Nat.mul_pos (by decide) (Nat.two_pow_pos scale))] at hmiddle
  rw [← hmiddle]
  omega

/-- The bits of a quotient, by the shift that leaves 53 bits of it. -/
theorem nearestBits_shifted (num den : Nat) :
    nearestBits num den = ((num * 2 ^ 1074 / den).log2 - 52) * 2 ^ 52 +
      roundQuotient (num * 2 ^ 1074) (den * 2 ^ ((num * 2 ^ 1074 / den).log2 - 52)) := by
  -- The scale is a variable here, since the power is not to be computed.
  have hscale (scale : Nat) : ((num <<< scale / den).log2 - 52) <<< 52 +
      roundQuotient (num <<< scale) (den <<< ((num <<< scale / den).log2 - 52)) =
      ((num * 2 ^ scale / den).log2 - 52) * 2 ^ 52 +
        roundQuotient (num * 2 ^ scale) (den * 2 ^ ((num * 2 ^ scale / den).log2 - 52)) := by
    simp only [Nat.shiftLeft_eq]
  exact hscale 1074

/-- The bits of a quotient stay below those of the infinity up to the middle between the largest
double and the next power of two. -/
theorem nearestBits_lt_iff (num : Nat) {den : Nat} (hden : 0 < den) :
    nearestBits num den < infinityBits ↔ num < (2 ^ 54 - 1) * (2 ^ 970 * den) := by
  have hlow := scaled_div_lt_iff num 1074 (53 + 970) hden
  have hhigh := scaled_div_lt_iff num 1074 (54 + 970) hden
  have hmiddle := roundQuotient_scaled_lt_iff num 1074 970 hden
  have hpow (k j : Nat) : 2 ^ (k + j) * den = 2 ^ k * (2 ^ j * den) := by
    rw [Nat.pow_add, Nat.mul_assoc]
  rw [hpow] at hlow hhigh
  have hrest := div_shift_lt (num * 2 ^ 1074) den
  have hrest' := le_div_shift (num * 2 ^ 1074) den
  rw [nearestBits_shifted]
  generalize num * 2 ^ 1074 = scaled at *
  generalize 2 ^ 970 * den = unit at *
  have hround := div_le_roundQuotient scaled (den * 2 ^ ((scaled / den).log2 - 52))
  have hround' := roundQuotient_le_div_succ scaled (den * 2 ^ ((scaled / den).log2 - 52))
  unfold infinityBits
  rcases Nat.lt_trichotomy (scaled / den).log2 2097 with h | h | h
  · have hsmall (k : Nat) (hk : (scaled / den).log2 < k) : scaled / den < 2 ^ k :=
      Nat.lt_of_lt_of_le Nat.lt_log2_self (Nat.pow_le_pow_right (by decide) hk)
    have := hlow.1 (hsmall _ h)
    omega
  · rw [h] at hround hround' hrest hrest' ⊢
    rw [show 2097 - 52 = 970 + 1 + 1074 from rfl] at *
    omega
  · have hne : scaled / den ≠ 0 := by
      intro h0
      rw [h0] at h
      exact absurd h (by decide)
    have hlarge (k : Nat) (hk : k ≤ (scaled / den).log2) : ¬ scaled / den < 2 ^ k :=
      Nat.not_lt.2 (Nat.le_trans (Nat.pow_le_pow_right (by decide) hk) (Nat.log2_self_le hne))
    have hlarge := hhigh.not.1 (hlarge _ h)
    have := hrest' (by omega)
    omega

end Number

namespace Decimal

theorem den_pos (d : Decimal) : 0 < d.den := Nat.pow_pos (by decide)

/-- A decimal has no nearest double from the middle between the largest double and the next power of
two on. -/
theorem nearest?_eq_none_iff (d : Decimal) :
    d.nearest? = none ↔ (2 ^ 54 - 1) * (2 ^ 970 * d.den) ≤ d.num := by
  have h := Number.nearestBits_lt_iff d.num d.den_pos
  simp only [nearest?]
  split_ifs with hb
  · rw [h] at hb
    simp only [false_iff]
    omega
  · rw [h] at hb
    simp only [true_iff]
    omega

end Decimal

end Lox
