import Lox.Number.Shortest
import Lox.Proofs.LexicalGrammar
import Mathlib.Data.Nat.Bitwise

/-!
# Printed numbers read back

`Number.nearestBits` rounds a quotient to the bits of a double, and `Neighbourhood` describes the
quotients that should be rounded to a given one. `nearestBits_eq` says that they are: with the least
positive double as the unit, the double with the bits `shift * 2 ^ 52 + m` is `m * 2 ^ shift`, and every
quotient of its neighbourhood has that shift, or the next lower one if it lies below a power of two.

The search for the shortest decimal ends in the neighbourhood of its number on every grid, the last of
which holds the number itself. A decimal in positional notation is a numeral with the same value. So
the printed form of a number that is finite and not negative is a numeral whose nearest double is that
number (`Number.exists_numeral`), and no two such numbers are printed alike (`Number.toText_inj`).
-/

namespace Lox

/-! ## Decimal digits -/

namespace Text

theorem toNat_concat (t : Text) (b : UInt8) : toNat (t ++ [b]) = 10 * toNat t + (b.toNat - 48) := by
  simp [toNat]

/-- Zeros after the digits of a number multiply it by a power of ten. -/
theorem toNat_append_zeros (t : Text) (k : Nat) : toNat (t ++ List.replicate k 48) = toNat t * 10 ^ k := by
  induction k with
  | zero => simp
  | succ k ih =>
    rw [List.replicate_succ', ← List.append_assoc, toNat_concat, ih, Nat.pow_succ]
    have hzero : (48 : UInt8).toNat - 48 = 0 := rfl
    rw [hzero]
    ring

/-- Zeros before the digits of a number do not change it. -/
theorem toNat_zeros_append (k : Nat) (t : Text) : toNat (List.replicate k 48 ++ t) = toNat t := by
  induction k with
  | zero => rfl
  | succ k ih => exact ih

/-- The byte of a decimal digit has the value of the digit. -/
theorem toNat_toUInt8_of_isDigit {c : Char} (h : c.isDigit = true) : c.val.toUInt8.toNat = c.toNat := by
  have hc : c.toNat = c.val.toNat := rfl
  have hle : c.val.toNat ≤ 57 := by
    simp only [Char.isDigit, Bool.and_eq_true, decide_eq_true_eq] at h
    exact UInt32.le_iff_toNat_le.1 h.2
  rw [hc, UInt32.toNat_toUInt8]
  omega

theorem isDigit_toUInt8 {c : Char} (h : c.isDigit = true) : isDigit c.val.toUInt8 = true := by
  have hbyte := toNat_toUInt8_of_isDigit h
  have hc : c.toNat = c.val.toNat := rfl
  simp only [Char.isDigit, Bool.and_eq_true, decide_eq_true_eq, UInt32.le_iff_toNat_le, ge_iff_le] at h
  simp only [isDigit, Bool.and_eq_true, decide_eq_true_eq, UInt8.le_iff_toNat_le, hbyte, hc]
  exact h

/-- The digits of a natural number are read back. -/
theorem toNat_ofNat (n : Nat) : toNat (ofNat n) = n := by
  have hread : ∀ (cs : List Char) (k : Nat), (∀ c ∈ cs, c.isDigit = true) →
      (cs.map fun c => c.val.toUInt8).foldl (fun n b => 10 * n + (b.toNat - 48)) k =
        Nat.ofDigitChars 10 cs k := by
    intro cs
    induction cs with
    | nil => exact fun k _ => (Nat.ofDigitChars_nil ..).symm
    | cons c cs ih =>
      intro k h
      have hc := toNat_toUInt8_of_isDigit (h c (by simp))
      rw [List.map_cons, List.foldl_cons, Nat.ofDigitChars_cons, hc]
      exact ih _ fun c hc => h c (List.mem_cons_of_mem _ hc)
  rw [toNat, ofNat, hread _ _ fun c => Nat.isDigit_of_mem_toDigits (by decide) (by decide)]
  exact Nat.ofDigitChars_toDigits (by decide) (by decide)

theorem digits_ofNat (n : Nat) : Digits (ofNat n) := by
  refine ⟨by simp [ofNat, Nat.toDigits_ne_nil], fun b hb => ?_⟩
  obtain ⟨c, hc, rfl⟩ := List.mem_map.1 hb
  exact isDigit_toUInt8 (Nat.isDigit_of_mem_toDigits (by decide) (by decide) hc)

end Text

theorem Digits.append {t u : Text} (h : Digits t) (hu : ∀ b ∈ u, Text.isDigit b = true) :
    Digits (t ++ u) := by
  refine ⟨by simp [h.1], fun b hb => ?_⟩
  rcases List.mem_append.1 hb with hb | hb
  · exact h.2 b hb
  · exact hu b hb

theorem isDigit_of_mem_zeros {k : Nat} {b : UInt8} (h : b ∈ List.replicate k 48) : Text.isDigit b = true := by
  rw [(List.mem_replicate.1 h).2]
  decide

/-- A decimal in positional notation is a numeral with its value. -/
theorem Decimal.exists_numeral (d : Decimal) : ∃ whole fraction, Numeral whole fraction d.toText ∧
    (ofDigits whole fraction).num = d.num ∧ (ofDigits whole fraction).den = d.den := by
  obtain ⟨n, e⟩ := d
  have hdigits := Text.digits_ofNat n
  simp only [toText]
  split_ifs with he
  · -- A whole number: zeros stand for the power of ten.
    refine ⟨_, [], .whole (hdigits.append fun b hb => isDigit_of_mem_zeros hb), ?_, ?_⟩
    · simp [ofDigits, num, Text.toNat_append_zeros, Text.toNat_ofNat]
    · have hneg : (-e).toNat = 0 := by omega
      simp [ofDigits, den, hneg]
  · generalize hplaces : (-e).toNat = places
    generalize hpadded : List.replicate (places + 1 - (Text.ofNat n).length) 48 ++ Text.ofNat n = padded
    have hlength : places + 1 ≤ padded.length := by
      rw [← hpadded]
      simp
      omega
    have hall : ∀ b ∈ padded, Text.isDigit b = true := by
      intro b hb
      rw [← hpadded] at hb
      rcases List.mem_append.1 hb with hb | hb
      · exact isDigit_of_mem_zeros hb
      · exact hdigits.2 b hb
    have hvalue : Text.toNat padded = n := by
      rw [← hpadded, Text.toNat_zeros_append, Text.toNat_ofNat]
    have hdrop : (padded.drop (padded.length - places)).length = places := by
      rw [List.length_drop]
      omega
    have hsame : ofDigits (padded.take (padded.length - places))
        (padded.drop (padded.length - places)) = ⟨n, e⟩ := by
      rw [ofDigits, List.take_append_drop, hvalue, hdrop]
      congr
      omega
    refine ⟨_, _, .point ⟨?_, fun b hb => hall b (List.mem_of_mem_take hb)⟩
      ⟨?_, fun b hb => hall b (List.mem_of_mem_drop hb)⟩, by rw [hsame], by rw [hsame]⟩
    · rw [ne_eq, List.take_eq_nil_iff]
      rintro (h | h)
      · omega
      · rw [h] at hlength
        simp at hlength
    · rw [ne_eq, ← List.length_eq_zero_iff, hdrop]
      omega

/-! ## Rounding -/

/-- A quotient lies within one half of what it is rounded to; at exactly one half, that is even. -/
theorem roundQuotient_near (num : Nat) {den : Nat} (hden : 0 < den) :
    (4 * roundQuotient num den - 2) * den ≤ 4 * num ∧ 4 * num ≤ (4 * roundQuotient num den + 2) * den ∧
      (roundQuotient num den % 2 = 0 ∨ (4 * roundQuotient num den - 2) * den < 4 * num ∧
        4 * num < (4 * roundQuotient num den + 2) * den) := by
  have hdiv := Nat.div_add_mod num den
  have hmod := Nat.mod_lt num hden
  have hround : roundQuotient num den = if 2 * (num % den) < den then num / den
      else if den < 2 * (num % den) then num / den + 1 else num / den + num / den % 2 := rfl
  rw [hround]
  generalize num / den = q at hdiv
  generalize num % den = r at hdiv hmod
  subst hdiv
  have hlower (m : Nat) : (4 * m - 2) * den = 4 * (den * m) - 2 * den := by
    rw [Nat.sub_mul, Nat.mul_assoc, Nat.mul_comm m]
  have hupper (m : Nat) : (4 * m + 2) * den = 4 * (den * m) + 2 * den := by ring
  have hsucc : den * (q + 1) = den * q + den := by ring
  have hzero : q = 0 ∨ 0 < den * q := (Nat.eq_zero_or_pos q).imp_right (Nat.mul_pos hden)
  simp only [hlower, hupper]
  split_ifs
  · omega
  · omega
  · rcases Nat.mod_two_eq_zero_or_one q with hq | hq
    · rw [hq, Nat.add_zero]
      omega
    · rw [hq, hsucc]
      omega

/-- A quotient within one half of a number is rounded to it; at exactly one half, if it is even. -/
theorem roundQuotient_eq {num den m : Nat} (hden : 0 < den) (hlower : (4 * m - 2) * den ≤ 4 * num)
    (hupper : 4 * num ≤ (4 * m + 2) * den)
    (htie : m % 2 = 0 ∨ (4 * m - 2) * den < 4 * num ∧ 4 * num < (4 * m + 2) * den) :
    roundQuotient num den = m := by
  obtain ⟨hlower', hupper', htie'⟩ := roundQuotient_near num hden
  generalize roundQuotient num den = r at *
  have hunits (k : Nat) : (4 * k - 2) * den = 4 * (den * k) - 2 * den := by
    rw [Nat.sub_mul, Nat.mul_assoc, Nat.mul_comm k]
  have hunits' (k : Nat) : (4 * k + 2) * den = 4 * (den * k) + 2 * den := by ring
  simp only [hunits, hunits'] at hlower hupper htie hlower' hupper' htie'
  have hapart {a b : Nat} (hlt : a < b) (hle : den * b ≤ den * (a + 1)) : b = a + 1 :=
    Nat.le_antisymm (Nat.le_of_mul_le_mul_left hle hden) hlt
  have hsucc (k : Nat) : den * (k + 1) = den * k + den := by ring
  -- Within one half of two numbers lies only the middle between neighbours, one of which is odd.
  rcases Nat.lt_trichotomy r m with hlt | heq | hgt
  · have hnext := hapart hlt (by rw [hsucc]; omega)
    rw [hnext, hsucc] at hlower htie
    omega
  · exact heq
  · have hnext := hapart hgt (by rw [hsucc]; omega)
    rw [hnext, hsucc] at hlower' htie'
    omega

namespace Number

/-- The bits of a quotient, if it has 53 bits before the shift, or if there is no shift. -/
theorem nearestBits_of_shift {num den s : Nat} (hden : 0 < den)
    (hlower : s = 0 ∨ 2 ^ 52 * (2 ^ s * den) ≤ num * 2 ^ 1074)
    (hupper : num * 2 ^ 1074 < 2 ^ 53 * (2 ^ s * den)) :
    nearestBits num den = s * 2 ^ 52 + roundQuotient (num * 2 ^ 1074) (2 ^ s * den) := by
  have hbits := nearestBits_shifted num den
  generalize num * 2 ^ 1074 = scaled at *
  have hlt : scaled / den < 2 ^ (53 + s) := by
    rw [Nat.div_lt_iff_lt_mul hden, Nat.pow_add, Nat.mul_assoc]
    exact hupper
  have hlog : (scaled / den).log2 - 52 = s := by
    rcases Nat.eq_zero_or_pos (scaled / den) with hzero | hpos
    · rcases hlower with rfl | hlower
      · rw [hzero]
        rfl
      · rw [← Nat.mul_assoc, ← Nat.pow_add, ← Nat.le_div_iff_mul_le hden, hzero] at hlower
        exact absurd hlower (Nat.not_le.2 (Nat.two_pow_pos _))
    · have hupper := (Nat.log2_lt hpos.ne').2 hlt
      rcases hlower with rfl | hlower
      · omega
      · rw [← Nat.mul_assoc, ← Nat.pow_add, ← Nat.le_div_iff_mul_le hden] at hlower
        have hlower := (Nat.le_log2 hpos.ne').2 hlower
        omega
  rw [hbits, hlog, Nat.mul_comm den]

/-- A quotient near `m * 2 ^ shift`, in units of the least positive double, is rounded to the bits of
this number. Below it, near means half a unit, or a quarter if it is a power of two with a shift, since
the doubles below are closer. -/
theorem nearestBits_eq {num den m shift gap : Nat} (hden : 0 < den) (hm : m < 2 ^ 53)
    (hnormal : shift = 0 ∨ 2 ^ 52 ≤ m) (hgap : gap ≤ 2) (hnarrow : shift ≠ 0 → m = 2 ^ 52 → gap = 1)
    (hlower : (4 * m - gap) * (2 ^ shift * den) ≤ 4 * (num * 2 ^ 1074))
    (hupper : 4 * (num * 2 ^ 1074) ≤ (4 * m + 2) * (2 ^ shift * den))
    (htie : m % 2 = 0 ∨ (4 * m - gap) * (2 ^ shift * den) < 4 * (num * 2 ^ 1074) ∧
      4 * (num * 2 ^ 1074) < (4 * m + 2) * (2 ^ shift * den)) :
    nearestBits num den = shift * 2 ^ 52 + m := by
  have hround (k : Nat) := @nearestBits_of_shift num den k hden
  generalize num * 2 ^ 1074 = scaled at *
  have hbelow : scaled < 2 ^ 53 * (2 ^ shift * den) := by
    have hle : (4 * m + 2) * (2 ^ shift * den) ≤ (2 ^ 55 - 2) * (2 ^ shift * den) :=
      Nat.mul_le_mul_right _ (by omega)
    have hunit : 0 < 2 ^ shift * den := Nat.mul_pos (Nat.two_pow_pos shift) hden
    omega
  by_cases habove : shift = 0 ∨ 2 ^ 52 * (2 ^ shift * den) ≤ scaled
  · have hhalf : (4 * m - 2) * (2 ^ shift * den) ≤ (4 * m - gap) * (2 ^ shift * den) :=
      Nat.mul_le_mul_right _ (by omega)
    rw [hround shift habove hbelow, roundQuotient_eq (m := m)
      (Nat.mul_pos (Nat.two_pow_pos shift) hden) (by omega) hupper (by omega)]
  · -- The quotient lies just below a power of two, where the shift is one less.
    have hpower : m = 2 ^ 52 := by
      by_contra hne
      have hle : (2 ^ 54 + 2) * (2 ^ shift * den) ≤ (4 * m - gap) * (2 ^ shift * den) :=
        Nat.mul_le_mul_right _ (by omega)
      omega
    have hone := hnarrow (by omega) hpower
    subst hpower hone
    obtain ⟨k, rfl⟩ : ∃ k, shift = k + 1 := ⟨shift - 1, by omega⟩
    have hunit : 2 ^ (k + 1) * den = 2 * (2 ^ k * den) := by ring
    have hpos : 0 < 2 ^ k * den := Nat.mul_pos (Nat.two_pow_pos k) hden
    rw [hround k (.inr (by omega)) (by omega), roundQuotient_eq (m := 2 ^ 53) hpos (by omega)
      (by omega) (.inl (by decide))]
    omega

end Number

/-! ## The search -/

namespace Neighbourhood

variable {n : Neighbourhood}

/-- A quotient lies in a neighbourhood, and at an end of it only if the ends belong to it. -/
structure Holds (n : Neighbourhood) (num den : Nat) : Prop where
  lower : n.lower * den ≤ num * n.den
  upper : num * n.den ≤ n.upper * den
  ends : n.closed = true ∨ n.lower * den < num * n.den ∧ num * n.den < n.upper * den

/-- The center of a neighbourhood lies strictly inside it. -/
structure Centered (n : Neighbourhood) : Prop where
  lower : n.lower < n.center
  upper : n.center < n.upper
  den : 0 < n.den

/-- A decimal on a grid lies in the neighbourhood, with both sides in units of the grid. -/
theorem holds_iff_units {p : Int} {digits : Nat} :
    n.Holds (Decimal.num ⟨digits, p⟩) (Decimal.den ⟨digits, p⟩) ↔
      n.lower * 10 ^ (-p).toNat ≤ digits * (n.den * 10 ^ p.toNat) ∧
      digits * (n.den * 10 ^ p.toNat) ≤ n.upper * 10 ^ (-p).toNat ∧
      (n.closed = true ∨ n.lower * 10 ^ (-p).toNat < digits * (n.den * 10 ^ p.toNat) ∧
        digits * (n.den * 10 ^ p.toNat) < n.upper * 10 ^ (-p).toNat) := by
  have hnum : Decimal.num ⟨digits, p⟩ * n.den = digits * (n.den * 10 ^ p.toNat) := by
    rw [Nat.mul_comm n.den]
    exact Nat.mul_assoc ..
  rw [← hnum]
  exact ⟨fun h => ⟨h.lower, h.upper, h.ends⟩, fun ⟨hlower, hupper, hends⟩ => ⟨hlower, hupper, hends⟩⟩

/-- What is found on a grid is between the bounds. -/
theorem holds_of_onGrid? (hn : n.Centered) {p : Int} {digits : Nat} (h : n.onGrid? p = some digits) :
    n.Holds (Decimal.num ⟨digits, p⟩) (Decimal.den ⟨digits, p⟩) := by
  have hup : 0 < 10 ^ (-p).toNat := Nat.pow_pos (by decide)
  have hunit : 0 < n.den * 10 ^ p.toNat := Nat.mul_pos hn.den (Nat.pow_pos (by decide))
  have hlower := Nat.mul_lt_mul_of_pos_right hn.lower hup
  have hupper := Nat.mul_lt_mul_of_pos_right hn.upper hup
  rw [holds_iff_units]
  revert h
  simp only [onGrid?]
  have hpow (k : Nat) : Nat.pow 10 k = 10 ^ k := rfl
  rw [hpow, hpow]
  generalize 10 ^ (-p).toNat = up at *
  generalize n.den * 10 ^ p.toNat = unit at *
  -- The center lies between its two neighbours on the grid, so each of them has to be compared with
  -- one end of the neighbourhood only.
  have hbelow := Nat.div_mul_le_self (n.center * up) unit
  have habove : n.center * up < (n.center * up / unit + 1) * unit := by
    rw [Nat.mul_comm _ unit]
    exact Nat.lt_mul_div_succ _ hunit
  have hround := div_le_roundQuotient (n.center * up) unit
  have hround' := roundQuotient_le_div_succ (n.center * up) unit
  generalize hb : n.center * up / unit = below at *
  generalize roundQuotient (n.center * up) unit = rounded at *
  intro h
  have hwhich : (digits = below ∧
        (n.lower * up < below * unit ∨ n.closed = true ∧ n.lower * up = below * unit)) ∨
      (digits = below + 1 ∧
        ((below + 1) * unit < n.upper * up ∨ n.closed = true ∧ (below + 1) * unit = n.upper * up)) := by
    split at h <;>
      simp only [Option.some.injEq, reduceCtorEq, Bool.or_eq_true, Bool.and_eq_true, beq_iff_eq,
        decide_eq_true_eq] at * <;> grind
  rcases hwhich with ⟨rfl, hin⟩ | ⟨rfl, hin⟩
  · exact ⟨by omega, by omega, hin.symm.imp And.left fun hin => ⟨hin, by omega⟩⟩
  · exact ⟨by omega, by omega, hin.symm.imp And.left fun hin => ⟨by omega, hin⟩⟩

/-- The search ends in the neighbourhood, if the grid after the last one holds the center. -/
theorem holds_search (hn : n.Centered) {k : Nat} {p : Int}
    (hfinest : n.den * 10 ^ (p - k).toNat ∣ n.center * 10 ^ (-(p - k)).toNat) :
    n.Holds (n.search k p).num (n.search k p).den := by
  induction k generalizing p with
  | zero =>
    rw [Nat.cast_zero, Int.sub_zero] at hfinest
    have hup : 0 < 10 ^ (-p).toNat := Nat.pow_pos (by decide)
    have hlower := Nat.mul_lt_mul_of_pos_right hn.lower hup
    have hupper := Nat.mul_lt_mul_of_pos_right hn.upper hup
    have hexact : n.center * Nat.pow 10 (-p).toNat / (n.den * Nat.pow 10 p.toNat) *
        (n.den * 10 ^ p.toNat) = n.center * 10 ^ (-p).toNat := Nat.div_mul_cancel hfinest
    exact holds_iff_units.2 ⟨by omega, by omega, .inr ⟨by omega, by omega⟩⟩
  | succ k ih =>
    rw [search]
    split
    · next digits h => exact holds_of_onGrid? hn h
    · refine ih ?_
      have hlast : p - 1 - (k : Int) = p - ((k + 1 : Nat) : Int) := by omega
      rwa [hlast]

variable {m : Nat} {q : Int} {narrowBelow : Bool}

theorem centered_ofDyadic (hm : 0 < m) : (ofDyadic m q narrowBelow).Centered := by
  have hup : 0 < 2 ^ (q - 2).toNat := Nat.two_pow_pos _
  have hgap : 0 < if narrowBelow then 1 else 2 := by split <;> decide
  have hone (k : Nat) : 1 <<< k = 2 ^ k := by rw [Nat.shiftLeft_eq, Nat.one_mul]
  constructor <;> simp only [ofDyadic, hone]
  · exact Nat.mul_lt_mul_of_pos_right (by omega) hup
  · exact Nat.mul_lt_mul_of_pos_right (by omega) hup
  · exact Nat.two_pow_pos _

/-- The number itself stands on the grid of its own binary exponent, or of the units if that is
positive. -/
theorem dvd_center_ofDyadic : (ofDyadic m q narrowBelow).den * 10 ^ (min q 0).toNat ∣
    (ofDyadic m q narrowBelow).center * 10 ^ (-min q 0).toNat := by
  have hone (k : Nat) : 1 <<< k = 2 ^ k := by rw [Nat.shiftLeft_eq, Nat.one_mul]
  have hzero : (min q 0).toNat = 0 := by omega
  have hle : (2 - q).toNat ≤ 2 + (-min q 0).toNat := by omega
  simp only [ofDyadic, hone, hzero, Nat.pow_zero, Nat.mul_one]
  calc 2 ^ (2 - q).toNat ∣ 2 ^ (2 + (-min q 0).toNat) := Nat.pow_dvd_pow 2 hle
    _ ∣ 2 ^ (2 + (-min q 0).toNat) * (m * 2 ^ (q - 2).toNat * 5 ^ (-min q 0).toNat) :=
      Nat.dvd_mul_right ..
    _ = 4 * m * 2 ^ (q - 2).toNat * 10 ^ (-min q 0).toNat := by
      rw [show 10 = 2 * 5 from rfl, Nat.mul_pow, Nat.pow_add]
      ring

/-- The neighbourhood of a double, in units of the least positive one. -/
theorem holds_ofDyadic_iff {shift num den : Nat} (hq : q = (shift : Int) - 1074) :
    (ofDyadic m q narrowBelow).Holds num den ↔
      (4 * m - if narrowBelow then 1 else 2) * (2 ^ shift * den) ≤ 4 * (num * 2 ^ 1074) ∧
      4 * (num * 2 ^ 1074) ≤ (4 * m + 2) * (2 ^ shift * den) ∧
      (m % 2 = 0 ∨ (4 * m - if narrowBelow then 1 else 2) * (2 ^ shift * den) < 4 * (num * 2 ^ 1074) ∧
          4 * (num * 2 ^ 1074) < (4 * m + 2) * (2 ^ shift * den)) := by
  -- The two powers of two become those of the units by a common factor.
  obtain ⟨k, hup, hdown⟩ : ∃ k, 2 ^ (q - 2).toNat * 2 ^ k = 2 ^ shift ∧
      2 ^ (2 - q).toNat * 2 ^ k = 4 * 2 ^ 1074 := by
    refine ⟨min shift 1076, ?_, ?_⟩
    · have hsum : (q - 2).toNat + min shift 1076 = shift := by omega
      rw [← Nat.pow_add, hsum]
    · have hsum : (2 - q).toNat + min shift 1076 = 2 + 1074 := by omega
      have hfour (k : Nat) : 2 ^ (2 + k) = 4 * 2 ^ k := Nat.pow_add ..
      rw [← pow_add, hsum]
      exact hfour 1074
  have hscale (a : Nat) : a * 1 <<< (q - 2).toNat * den * 2 ^ k = a * (2 ^ shift * den) := by
    rw [← hup, Nat.shiftLeft_eq]
    ring
  have hscale' : num * 1 <<< (2 - q).toNat * 2 ^ k = 4 * (num * 2 ^ 1074) := by
    rw [Nat.shiftLeft_eq, Nat.one_mul, Nat.mul_assoc, hdown, Nat.mul_left_comm]
  have hle (a b : Nat) : a ≤ b ↔ a * 2 ^ k ≤ b * 2 ^ k :=
    (Nat.mul_le_mul_right_iff (Nat.two_pow_pos k)).symm
  have hlt (a b : Nat) : a < b ↔ a * 2 ^ k < b * 2 ^ k :=
    (Nat.mul_lt_mul_right (Nat.two_pow_pos k)).symm
  have hfields : (ofDyadic m q narrowBelow).Holds num den ↔ _ ∧ _ ∧ _ :=
    ⟨fun h => ⟨h.lower, h.upper, h.ends⟩, fun ⟨h, h', h''⟩ => ⟨h, h', h''⟩⟩
  rw [hfields, hle, hle (num * _), hlt, hlt (num * _)]
  simp only [ofDyadic, hscale, hscale', beq_iff_eq]

/-- The quotients in the neighbourhood of a double are rounded to it. -/
theorem Holds.nearestBits_eq {shift num den : Nat} (hq : q = (shift : Int) - 1074) (hden : 0 < den)
    (hm : m < 2 ^ 53) (hnormal : shift = 0 ∨ 2 ^ 52 ≤ m)
    (hnarrow : shift ≠ 0 → m = 2 ^ 52 → narrowBelow = true) (h : (ofDyadic m q narrowBelow).Holds num den) :
    Number.nearestBits num den = shift * 2 ^ 52 + m := by
  obtain ⟨hlower, hupper, hends⟩ := (holds_ofDyadic_iff hq).1 h
  refine Number.nearestBits_eq hden hm hnormal ?_ ?_ hlower hupper hends
  · split <;> decide
  · intro hshift hpower
    rw [hnarrow hshift hpower]
    rfl

end Neighbourhood

namespace Number

section

variable {x : Number} (hx : x.bits.toNat < infinityBits)

include hx

/-- The bits of a number that is finite and not negative, by its fields. -/
theorem bits_eq_fields :
    x.bits.toNat = x.exponentField * 2 ^ 52 + x.fractionField ∧ x.exponentField < 2047 ∧
      x.fractionField < 2 ^ 52 := by
  simp only [infinityBits] at hx
  simp only [exponentField, fractionField, Nat.shiftRight_eq_div_pow]
  omega

/-- A number that is finite and not negative is `m * 2 ^ shift` in units of the least positive double. -/
theorem exists_shift :
    ∃ m shift : Nat, x.dyadic = (m, (shift : Int) - 1074) ∧ x.bits.toNat = shift * 2 ^ 52 + m ∧
      m < 2 ^ 53 ∧ (shift = 0 ∨ 2 ^ 52 ≤ m) ∧
      ((x.fractionField == 0 && 1 < x.exponentField) = true ↔ shift ≠ 0 ∧ m = 2 ^ 52) := by
  obtain ⟨hbits, hexponent, hfraction⟩ := bits_eq_fields hx
  rw [dyadic]
  by_cases hzero : x.exponentField = 0
  · refine ⟨x.fractionField, 0, by simp [hzero], ?_⟩
    simp
    omega
  · refine ⟨0x10000000000000 + x.fractionField, x.exponentField - 1, ?_, ?_⟩
    · simp [hzero]
      omega
    · simp
      omega

/-- The shortest decimal of a number that is finite and positive reads back as that number. -/
theorem nearest?_shortest (hpos : 0 < x.bits.toNat) : x.shortest.nearest? = some x := by
  obtain ⟨m, shift, hdyadic, hvalue, hm, hnormal, hnarrow⟩ := exists_shift hx
  have hholds : (Neighbourhood.ofDyadic m ((shift : Int) - 1074)
      (x.fractionField == 0 && 1 < x.exponentField)).Holds x.shortest.num x.shortest.den := by
    rw [shortest, hdyadic]
    refine Neighbourhood.holds_search (Neighbourhood.centered_ofDyadic (by omega)) ?_
    have hlast : ((m.log2 : Int) + 1 + ((shift : Int) - 1074)) * 30103 / 100000 + 2 -
        ((((m.log2 : Int) + 1 + ((shift : Int) - 1074)) * 30103 / 100000 + 2 -
          min ((shift : Int) - 1074) 0).toNat : Int) = min ((shift : Int) - 1074) 0 := by
      omega
    rw [hlast]
    exact Neighbourhood.dvd_center_ofDyadic
  have hround : nearestBits x.shortest.num x.shortest.den = x.bits.toNat :=
    (hholds.nearestBits_eq rfl (Decimal.den_pos _) hm hnormal fun h h' => hnarrow.2 ⟨h, h'⟩).trans hvalue.symm
  rw [Decimal.nearest?, hround, if_pos hx]
  simp

theorem isNegative_eq_false : x.isNegative = false := by
  have hbit : x.bits.toNat.testBit 63 = false :=
    Nat.testBit_lt_two_pow (Nat.lt_trans hx (by decide))
  have hand : x.bits &&& 0x8000000000000000 = 0 := by
    rw [← UInt64.toNat_inj, UInt64.toNat_and]
    exact (Nat.and_two_pow x.bits.toNat 63).trans (by rw [hbit]; rfl)
  rw [isNegative, hand]
  rfl

/-- A number that is finite and positive is printed as its shortest decimal. -/
theorem toText_eq_shortest (hpos : 0 < x.bits.toNat) : x.toText = x.shortest.toText := by
  obtain ⟨hbits, hexponent, -⟩ := bits_eq_fields hx
  have hfinite : x.exponentField ≠ 2047 := by omega
  have htext : x.toText = if x.exponentField == 0 && x.fractionField == 0 then text "0"
      else x.shortest.toText := by
    simp [toText, isNaN, isInfinite, isNegative_eq_false hx, hfinite]
  rw [htext, if_neg (by simp; omega)]

/-- The printed form of a number that is finite and not negative is a numeral, and the number is the
nearest double to it. -/
theorem exists_numeral :
    ∃ whole fraction, Numeral whole fraction x.toText ∧
      (Decimal.ofDigits whole fraction).nearest? = some x := by
  by_cases hzero : x.bits.toNat = 0
  · have hx : x = zero := congrArg Number.mk (UInt64.toNat_inj.1 hzero)
    subst hx
    exact ⟨text "0", [], .whole ⟨by decide, List.all_eq_true.1 (by decide)⟩, by decide +kernel⟩
  · rw [toText_eq_shortest hx (Nat.pos_of_ne_zero hzero)]
    obtain ⟨whole, fraction, hnumeral, hnum, hden⟩ := x.shortest.exists_numeral
    refine ⟨whole, fraction, hnumeral, ?_⟩
    rw [← nearest?_shortest hx (Nat.pos_of_ne_zero hzero), Decimal.nearest?, Decimal.nearest?, hnum, hden]

end

/-- Numbers that are finite and not negative are printed differently. -/
theorem toText_inj {x y : Number} (hx : x.bits.toNat < infinityBits)
    (hy : y.bits.toNat < infinityBits) (h : x.toText = y.toText) : x = y := by
  obtain ⟨whole, fraction, hnumeral, hread⟩ := exists_numeral hx
  obtain ⟨whole', fraction', hnumeral', hread'⟩ := exists_numeral hy
  rw [h] at hnumeral
  have hwhole : whole = whole' := hnumeral.parts.1.symm.trans hnumeral'.parts.1
  have hfraction : fraction = fraction' := hnumeral.parts.2.symm.trans hnumeral'.parts.2
  rw [hwhole, hfraction, hread'] at hread
  exact (Option.some.inj hread).symm

end Number

/-- The double nearest to a decimal is finite and not negative. -/
theorem Decimal.bits_lt_of_nearest? {d : Decimal} {x : Number} (h : d.nearest? = some x) :
    x.bits.toNat < Number.infinityBits := by
  simp only [nearest?] at h
  split_ifs at h with hlt
  rw [← Option.some.inj h]
  simp [Number.infinityBits] at hlt ⊢
  omega

end Lox
