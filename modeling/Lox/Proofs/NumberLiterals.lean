import Lox.Proofs.Spacing

/-!
# Number literals

A number is printed with the fewest digits that read back as it: among all decimals that do, the one
that is printed has the largest power of ten (`Number.toText_shortest`). For this, a quotient that is
rounded to a double lies in the neighbourhood of the double (`Number.holds_of_nearestBits`), and a grid
that holds a point of a neighbourhood holds a neighbour of its center, so the search does not pass it
(`Neighbourhood.exponent_le_search`). The grid on which the search starts has its first point beyond
the neighbourhood or is hit itself, since `30103 / 100000` is close to the decimal logarithm of two.

A numeral is a source with one token. So the printed form of a number literal is scanned as that number
alone (`Scan.number_roundTrip`), and digits after its point do not end in a zero.
-/

namespace Lox

/-! ## Rounding a quotient -/

/-- What a quotient is rounded to does not depend on the terms of the quotient. -/
theorem roundQuotient_mul_left {k : Nat} (hk : 0 < k) (num den : Nat) :
    roundQuotient (k * num) (k * den) = roundQuotient num den := by
  have hbelow : 2 * (k * (num % den)) < k * den ↔ 2 * (num % den) < den := by
    rw [Nat.mul_left_comm]
    exact Nat.mul_lt_mul_left hk
  have habove : k * den < 2 * (k * (num % den)) ↔ den < 2 * (num % den) := by
    rw [Nat.mul_left_comm 2]
    exact Nat.mul_lt_mul_left hk
  simp only [roundQuotient, Nat.mul_div_mul_left _ _ hk, Nat.mul_mod_mul_left, hbelow, habove]

theorem Number.nearestBits_mul_left {k : Nat} (hk : 0 < k) (num den : Nat) :
    nearestBits (k * num) (k * den) = nearestBits num den := by
  simp only [nearestBits, Nat.shiftLeft_eq, Nat.mul_assoc, Nat.mul_div_mul_left _ _ hk,
    roundQuotient_mul_left hk]

/-! ## Grids -/

namespace Neighbourhood

variable {n : Neighbourhood}

/-- If a neighbourhood holds a point of a grid, it holds a neighbour of its center there. -/
theorem isSome_onGrid? (hn : n.Centered) {digits : Nat} {p : Int}
    (h : n.Holds (Decimal.num ⟨digits, p⟩) (Decimal.den ⟨digits, p⟩)) : (n.onGrid? p).isSome := by
  have hup : 0 < 10 ^ (-p).toNat := Nat.pow_pos (by decide)
  have hunit : 0 < n.den * 10 ^ p.toNat := Nat.mul_pos hn.den (Nat.pow_pos (by decide))
  have hlower := Nat.mul_lt_mul_of_pos_right hn.lower hup
  have hupper := Nat.mul_lt_mul_of_pos_right hn.upper hup
  obtain ⟨hin, hin', hends⟩ := holds_iff_units.1 h
  simp only [onGrid?]
  have hpow (k : Nat) : Nat.pow 10 k = 10 ^ k := rfl
  rw [hpow, hpow]
  generalize 10 ^ (-p).toNat = up at *
  generalize n.den * 10 ^ p.toNat = unit at *
  have hbelow := Nat.div_mul_le_self (n.center * up) unit
  have habove : n.center * up < (n.center * up / unit + 1) * unit := by
    rw [Nat.mul_comm _ unit]
    exact Nat.lt_mul_div_succ _ hunit
  generalize n.center * up / unit = below at *
  -- The point lies at or above the upper neighbour, or at or below the lower one.
  have hside : n.lower * up < below * unit ∨ n.closed = true ∧ n.lower * up = below * unit ∨
      (below + 1) * unit < n.upper * up ∨ n.closed = true ∧ (below + 1) * unit = n.upper * up := by
    rcases Nat.lt_or_ge below digits with hlt | hle
    · have hpoint : (below + 1) * unit ≤ digits * unit := Nat.mul_le_mul_right unit hlt
      rcases Nat.lt_or_eq_of_le (hpoint.trans hin') with hlt | heq
      · exact .inr (.inr (.inl hlt))
      · exact .inr (.inr (.inr ⟨hends.resolve_right (by omega), heq⟩))
    · have hpoint : digits * unit ≤ below * unit := Nat.mul_le_mul_right unit hle
      rcases Nat.lt_or_eq_of_le (hin.trans hpoint) with hlt | heq
      · exact .inl hlt
      · exact .inr (.inl ⟨hends.resolve_right (by omega), heq⟩)
  split
  · rfl
  · rfl
  · rfl
  · next hl hu =>
    simp only [Bool.or_eq_false_iff, Bool.and_eq_false_iff, decide_eq_false_iff_not, beq_eq_false_iff_ne] at hl hu
    grind

/-- The search ends on the coarsest grid that holds a point of the neighbourhood. -/
theorem exponent_le_search (hn : n.Centered) {d : Decimal} (hd : n.Holds d.num d.den) {k : Nat}
    {p : Int} (hp : d.exponent ≤ p) : d.exponent ≤ (n.search k p).exponent := by
  induction k generalizing p with
  | zero => exact hp
  | succ k ih =>
    rw [search]
    split
    · exact hp
    · next hnone =>
      refine ih (Int.le_sub_one_of_lt (lt_of_le_of_ne hp fun heq => ?_))
      subst heq
      have hsome := isSome_onGrid? hn hd
      rw [hnone] at hsome
      cases hsome

end Neighbourhood

namespace Number

/-- A power of two is at most a power of ten whose exponent is `30103 / 100000` of the other, rounded down and
raised by three. This is checked for all exponents of doubles, counted from the least one. -/
theorem two_pow_le_ten_pow {k : Nat} (hk : k < 2100) :
    2 ^ k * 10 ^ (-(((k : Int) - 1074) * 30103 / 100000 + 3)).toNat ≤
      10 ^ (((k : Int) - 1074) * 30103 / 100000 + 3).toNat * 2 ^ 1074 := by
  have key : ((List.range 2100).all fun k =>
      decide (2 ^ k * 10 ^ (-(((k : Int) - 1074) * 30103 / 100000 + 3)).toNat ≤
        10 ^ (((k : Int) - 1074) * 30103 / 100000 + 3).toNat * 2 ^ 1074)) = true := by
    decide +kernel
  exact of_decide_eq_true (List.all_eq_true.1 key k (List.mem_range.2 hk))

/-- The bits of a rounded quotient are those of the double with its shift and the rounded rest, or of the next
power of two if the rest has reached it. -/
theorem eq_of_bits {s rounded shift m : Nat} (hrounded : rounded ≤ 2 ^ 53) (hs : s = 0 ∨ 2 ^ 52 ≤ rounded)
    (hm : m < 2 ^ 53) (hnormal : shift = 0 ∨ 2 ^ 52 ≤ m) (h : s * 2 ^ 52 + rounded = shift * 2 ^ 52 + m) :
    shift = s ∧ m = rounded ∨ rounded = 2 ^ 53 ∧ shift = s + 1 ∧ m = 2 ^ 52 := by
  omega

/-- A quotient that is rounded to a double lies in the neighbourhood of the double. -/
theorem holds_of_nearestBits {num den m shift : Nat} {narrowBelow : Bool} (hden : 0 < den) (hm : m < 2 ^ 53)
    (hnormal : shift = 0 ∨ 2 ^ 52 ≤ m) (hnarrow : narrowBelow = true ↔ shift ≠ 0 ∧ m = 2 ^ 52)
    (h : nearestBits num den = shift * 2 ^ 52 + m) :
    (Neighbourhood.ofDyadic m ((shift : Int) - 1074) narrowBelow).Holds num den := by
  rw [Neighbourhood.holds_ofDyadic_iff rfl]
  have hrest := div_shift_lt (num * 2 ^ 1074) den
  have hrest' := le_div_shift (num * 2 ^ 1074) den
  rw [nearestBits_shifted] at h
  generalize num * 2 ^ 1074 = scaled at *
  generalize hs : (scaled / den).log2 - 52 = s at *
  have hunit : 0 < den * 2 ^ s := Nat.mul_pos hden (Nat.two_pow_pos s)
  have hfull : s = 0 ∨ 2 ^ 52 ≤ scaled / (den * 2 ^ s) :=
    (Nat.eq_zero_or_pos s).imp_right fun hpos => hrest' (by omega)
  have hround := div_le_roundQuotient scaled (den * 2 ^ s)
  have hround' := roundQuotient_le_div_succ scaled (den * 2 ^ s)
  have hcases := eq_of_bits (hround'.trans hrest) (hfull.imp_right fun h => h.trans hround) hm hnormal h
  obtain ⟨hlower, hupper, htie⟩ := roundQuotient_near scaled hunit
  rw [Nat.le_div_iff_mul_le hunit] at hfull
  generalize roundQuotient scaled (den * 2 ^ s) = rounded at hcases hlower hupper htie
  clear h hm hnormal hrest hrest' hround hround' hs
  rcases hcases with ⟨rfl, rfl⟩ | ⟨hrounded, rfl, rfl⟩
  · rw [Nat.mul_comm (2 ^ shift)]
    split
    · next hgap =>
      -- Below a power of two the gap is narrower, but the quotient does not lie below.
      obtain ⟨hshift, hpower⟩ := hnarrow.1 hgap
      have hfull := hfull.resolve_left hshift
      rw [hpower] at hupper ⊢
      generalize den * 2 ^ shift = unit at *
      exact ⟨by omega, hupper, .inl (by decide)⟩
    · exact ⟨hlower, hupper, htie⟩
  · have hnext : 2 ^ (s + 1) * den = 2 * (den * 2 ^ s) := by ring
    rw [hnarrow.2 ⟨Nat.succ_ne_zero s, rfl⟩, if_pos rfl, hnext]
    rw [hrounded] at hlower hupper
    generalize den * 2 ^ s = unit at *
    exact ⟨by omega, by omega, .inl (by decide)⟩

/-- A bound by a power of ten holds for larger powers. -/
theorem le_ten_pow_of_le {a b : Nat} {e e' : Int} (he : e ≤ e')
    (h : a * 10 ^ (-e).toNat ≤ 10 ^ e.toNat * b) : a * 10 ^ (-e').toNat ≤ 10 ^ e'.toNat * b := by
  obtain ⟨j, hj⟩ : ∃ j, e.toNat + (-e').toNat + j = e'.toNat + (-e).toNat :=
    ⟨(e' - e).toNat, by omega⟩
  refine Nat.le_of_mul_le_mul_right ?_ (Nat.pow_pos (n := (-e).toNat) (by decide : 0 < 10))
  calc a * 10 ^ (-e').toNat * 10 ^ (-e).toNat = a * 10 ^ (-e).toNat * 10 ^ (-e').toNat := by ring
    _ ≤ 10 ^ e.toNat * b * 10 ^ (-e').toNat := Nat.mul_le_mul_right _ h
    _ ≤ 10 ^ e.toNat * b * 10 ^ (-e').toNat * 10 ^ j :=
      Nat.le_mul_of_pos_right _ (Nat.pow_pos (by decide))
    _ = 10 ^ (e.toNat + (-e').toNat + j) * b := by ring
    _ = 10 ^ e'.toNat * b * 10 ^ (-e).toNat := by rw [hj]; ring

/-- No decimal in the neighbourhood of a double stands on a coarser grid than that on which the search
starts. -/
theorem exponent_le_start {d : Decimal} {m shift : Nat} {narrowBelow : Bool} (hpos : 0 < m)
    (hm : m < 2 ^ 53) (hshift : shift < 2047)
    (h : (Neighbourhood.ofDyadic m ((shift : Int) - 1074) narrowBelow).Holds d.num d.den) :
    d.exponent ≤ ((m.log2 : Int) + 1 + ((shift : Int) - 1074)) * 30103 / 100000 + 2 := by
  obtain ⟨hlower, hupper, -⟩ := (Neighbourhood.holds_ofDyadic_iff rfl).1 h
  have hlog : m.log2 < 53 := (Nat.log2_lt hpos.ne').2 hm
  have hnum : 10 ^ d.exponent.toNat ≤ d.num := by
    refine Nat.le_mul_of_pos_left _ (Nat.pos_of_ne_zero fun hzero => ?_)
    -- Zero lies in no neighbourhood.
    have hzero : d.num = 0 := by rw [Decimal.num, hzero, Nat.zero_mul]
    have hgap : 0 < 4 * m - if narrowBelow then 1 else 2 := by split <;> omega
    rw [hzero, Nat.zero_mul, Nat.mul_zero, Nat.le_zero] at hlower
    exact (Nat.mul_pos hgap (Nat.mul_pos (Nat.two_pow_pos shift) d.den_pos)).ne' hlower
  by_contra hlt
  have hstart := two_pow_le_ten_pow (k := m.log2 + 1 + shift) (by omega)
  have hlarge : 2 ^ (m.log2 + 1 + shift) * d.den ≤ 10 ^ d.exponent.toNat * 2 ^ 1074 :=
    le_ten_pow_of_le (by push_cast at hlt ⊢; omega) hstart
  have hsmall : 4 * (d.num * 2 ^ 1074) < 4 * (2 ^ (m.log2 + 1 + shift) * d.den) := by
    calc 4 * (d.num * 2 ^ 1074) ≤ (4 * m + 2) * (2 ^ shift * d.den) := hupper
      _ < 4 * 2 ^ (m.log2 + 1) * (2 ^ shift * d.den) := by
        refine Nat.mul_lt_mul_of_pos_right ?_ (Nat.mul_pos (Nat.two_pow_pos shift) d.den_pos)
        have := Nat.lt_log2_self (n := m)
        omega
      _ = 4 * (2 ^ (m.log2 + 1 + shift) * d.den) := by ring
  have hbound := Nat.mul_le_mul_right (2 ^ 1074) hnum
  generalize 2 ^ (m.log2 + 1 + shift) * d.den = bound at hlarge hsmall
  omega

end Number

/-! ## The shortest decimal -/

/-- Of all decimals that read back as a number, one with the largest power of ten, and so with the
fewest digits. -/
structure Decimal.Shortest (d : Decimal) (x : Number) : Prop where
  reads : d.nearest? = some x
  coarsest : ∀ d' : Decimal, d'.digits ≠ 0 → d'.nearest? = some x → d'.exponent ≤ d.exponent

theorem Decimal.nearestBits_of_nearest? {d : Decimal} {x : Number} (h : d.nearest? = some x) :
    Number.nearestBits d.num d.den = x.bits.toNat := by
  simp only [nearest?] at h
  split_ifs at h with hlt
  rw [← Option.some.inj h]
  simp [Number.infinityBits] at hlt ⊢
  omega

namespace Number

variable {x : Number}

/-- A decimal that reads back as a number lies in its neighbourhood. -/
theorem exists_holds (hx : x.bits.toNat < infinityBits) :
    ∃ m shift : Nat, x.dyadic = (m, (shift : Int) - 1074) ∧ x.bits.toNat = shift * 2 ^ 52 + m ∧
      m < 2 ^ 53 ∧ (shift = 0 ∨ 2 ^ 52 ≤ m) ∧ ∀ d : Decimal, d.nearest? = some x →
        (Neighbourhood.ofDyadic m ((shift : Int) - 1074)
          (x.fractionField == 0 && 1 < x.exponentField)).Holds d.num d.den := by
  obtain ⟨m, shift, hdyadic, hvalue, hm, hnormal, hnarrow⟩ := exists_shift hx
  exact ⟨m, shift, hdyadic, hvalue, hm, hnormal, fun d hd =>
    holds_of_nearestBits d.den_pos hm hnormal hnarrow (hvalue ▸ d.nearestBits_of_nearest? hd)⟩

/-- A number that is finite and not negative is printed as one of its shortest decimals. -/
theorem toText_shortest (hx : x.bits.toNat < infinityBits) :
    ∃ d : Decimal, d.Shortest x ∧ x.toText = d.toText := by
  obtain ⟨m, shift, hdyadic, hvalue, hm, hnormal, hholds⟩ := exists_holds hx
  by_cases hzero : x.bits.toNat = 0
  · obtain ⟨rfl, rfl⟩ : m = 0 ∧ shift = 0 := by omega
    have hx : x = zero := congrArg Number.mk (UInt64.toNat_inj.1 hzero)
    subst hx
    refine ⟨⟨0, 0⟩, ⟨by decide +kernel, fun d hd hreads => ?_⟩, by decide +kernel⟩
    -- A multiple of ten is not near zero.
    obtain ⟨-, hupper, -⟩ := (Neighbourhood.holds_ofDyadic_iff rfl).1 (hholds d hreads)
    by_contra hlt
    have hden : d.den = 1 := by
      have hneg : (-d.exponent).toNat = 0 := by simp at hlt; omega
      rw [Decimal.den, hneg]
    have hnum : 0 < d.num := Nat.mul_pos (Nat.pos_of_ne_zero hd) (Nat.pow_pos (by decide))
    have hscaled : 2 ^ 1074 ≤ d.num * 2 ^ 1074 := Nat.le_mul_of_pos_left _ hnum
    rw [hden] at hupper
    omega
  · refine ⟨x.shortest, ⟨nearest?_shortest hx (by omega), fun d _ hreads => ?_⟩,
      toText_eq_shortest hx (by omega)⟩
    have hd := hholds d hreads
    rw [infinityBits] at hx
    rw [shortest, hdyadic]
    exact Neighbourhood.exponent_le_search (Neighbourhood.centered_ofDyadic (by omega)) hd
      (exponent_le_start (by omega) hm (by omega) hd)

/-- The digits after the point of a printed number do not end in a zero. -/
theorem getLast?_fraction_ne (hx : x.bits.toNat < infinityBits) {whole fraction : Text}
    (hn : Numeral whole fraction x.toText) : fraction.getLast? ≠ some 48 := by
  intro hlast
  obtain ⟨places, rfl⟩ := List.getLast?_eq_some_iff.1 hlast
  obtain ⟨d, hshortest, htext⟩ := toText_shortest hx
  obtain ⟨whole', fraction', hn', hnum, hden⟩ := d.exists_numeral
  rw [← htext] at hn'
  obtain rfl : whole' = whole := hn'.parts.1.symm.trans hn.parts.1
  obtain rfl : fraction' = places ++ [48] := hn'.parts.2.symm.trans hn.parts.2
  -- Without the zero the value is the same, and the power of ten is larger.
  have hnum' : d.num = 10 * (Decimal.ofDigits whole' places).num := by
    rw [← hnum, Decimal.num_ofDigits, Decimal.num_ofDigits, ← List.append_assoc, Text.toNat_concat]
    rfl
  have hden' : d.den = 10 * (Decimal.ofDigits whole' places).den := by
    rw [← hden, Decimal.den_ofDigits, Decimal.den_ofDigits, List.length_append, List.length_singleton]
    ring
  have hreads : (Decimal.ofDigits whole' places).nearest? = some x := by
    rw [← hshortest.reads, Decimal.nearest?, Decimal.nearest?, hnum', hden', nearestBits_mul_left (by decide)]
  by_cases hzero : (Decimal.ofDigits whole' places).digits = 0
  · have hnil : (Decimal.ofDigits whole' places).num = 0 := by rw [Decimal.num, hzero, Nat.zero_mul]
    have hbits : x.bits.toNat = 0 := by
      rw [← Decimal.nearestBits_of_nearest? hreads, hnil]
      simp [nearestBits, roundQuotient]
    obtain rfl : x = zero := congrArg Number.mk (UInt64.toNat_inj.1 hbits)
    have htext : zero.toText = text "0" := by decide +kernel
    have hplaces : [] = places ++ [48] := by rw [← hn.parts.2, htext]; rfl
    simp at hplaces
  · have hle := hshortest.coarsest _ hzero hreads
    have hpow : 10 ^ (-d.exponent).toNat = 10 ^ (places ++ [48]).length :=
      hden.symm.trans (Decimal.den_ofDigits ..)
    have hplaces := Nat.pow_right_injective (by decide : 2 ≤ 10) hpow
    rw [List.length_append, List.length_singleton] at hplaces
    simp only [Decimal.ofDigits] at hle
    omega

end Number

/-! ## Scanning a printed number -/

theorem Numeral.lineAfter_eq {whole fraction t : Text} (h : Numeral whole fraction t) : lineAfter t = 1 := by
  obtain ⟨a, v, rfl, ha⟩ := h.exists_cons
  have hbreak : Text.newline ∉ a :: v := fun hmem => by
    have hblank := (Lexeme.number h).isBlank_of_mem (by rintro rfl; revert ha; decide) _ hmem
    revert hblank
    decide
  rw [lineAfter, List.count_eq_zero.2 hbreak]

namespace Scan

/-- A number literal that is printed and scanned again gives one token with the same number, and no error.
It is printed as a numeral whose digits after the point, if it has any, do not end in a zero; no decimal
with a larger power of ten reads back as the number. -/
theorem number_roundTrip {source : Text} {t : Token} (ht : t ∈ (ofSource source).tokens)
    (hk : t.kind = .number) :
    ∃ x : Number, t.literal = some (.number x) ∧
      ofSource x.toText = ⟨[.token ⟨.number, x.toText, some (.number x), 1⟩], 1⟩ ∧
      (∃ whole fraction, Numeral whole fraction x.toText ∧ fraction.getLast? ≠ some 48) ∧
      ∃ d : Decimal, d.Shortest x ∧ x.toText = d.toText := by
  obtain ⟨x, hx, hliteral⟩ : ∃ x, x.bits.toNat < Number.infinityBits ∧ t.literal = some (.number x) := by
    have hcarries := (proper source t ht).carries
    rw [hk] at hcarries
    generalize t.lexeme = w, t.literal = value at hcarries
    cases hcarries with
    | number _ hx => exact ⟨_, Decimal.bits_lt_of_nearest? hx, rfl⟩
    | other _ _ hne => exact absurd rfl hne
  obtain ⟨whole, fraction, hnumeral, hread⟩ := Number.exists_numeral hx
  have hproper : Token.Proper ⟨.number, x.toText, some (.number x), 1⟩ :=
    ⟨.number hnumeral, .number hnumeral hread⟩
  have hfindings := (hproper.scanned []).findings_eq
  rw [List.nil_append, hnumeral.lineAfter_eq] at hfindings
  have hend : (ofSource x.toText).endLine = 1 := (endLine_eq _).trans hnumeral.lineAfter_eq
  refine ⟨x, hliteral, ?_, ⟨whole, fraction, hnumeral, Number.getLast?_fraction_ne hx hnumeral⟩,
    Number.toText_shortest hx⟩
  rw [← hfindings, ← hend]

/-- A literal halfway between two doubles is printed as the even one, without the digits after its
point. -/
theorem number_roundTrip_tie :
    ∃ t ∈ (ofSource (text "9007199254740993.0;")).tokens, t.kind = .number ∧
      t.literal = some (.number ⟨0x4340000000000000⟩) ∧
      ofSource (text "9007199254740992") =
        ⟨[.token ⟨.number, text "9007199254740992", t.literal, 1⟩], 1⟩ := by
  have hmem : (⟨.number, text "9007199254740993.0", some (.number ⟨0x4340000000000000⟩), 1⟩ : Token) ∈
      (ofSource (text "9007199254740993.0;")).tokens := by decide +kernel
  obtain ⟨x, hx, hscan, -⟩ := number_roundTrip hmem rfl
  obtain rfl : ⟨0x4340000000000000⟩ = x := Literal.number.inj (Option.some.inj hx)
  have htext : Number.toText ⟨0x4340000000000000⟩ = text "9007199254740992" := by decide +kernel
  rw [htext] at hscan
  exact ⟨_, hmem, rfl, rfl, hscan⟩

end Scan

end Lox
