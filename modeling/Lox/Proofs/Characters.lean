import Lox.Text
import Mathlib.Tactic.Common

/-!
# Characters at the front of a text

`Text.decode?` reads a character off the front of a text by looking at its leading byte.
`String.utf8EncodeChar` is the encoding that it must undo. `decode?_utf8EncodeChar_append` and
`exists_char_of_decode?` say that the two agree on every text, valid or not, and
`firstPiece_width` and `FirstPiece.width_eq` turn this into a statement about `Text.width`: it cuts
off a whole character where one stands, and a single byte where none does.
-/

namespace Lox.Text

theorem toNat_ofNat_of_lt {n : Nat} (h : n < 256) : (UInt8.ofNat n).toNat = n := by
  rw [UInt8.toNat_ofNat', Nat.mod_eq_of_lt h]

theorem isTail_iff {b : UInt8} : isTail b = true ↔ 128 ≤ b.toNat ∧ b.toNat ≤ 191 := by
  simp [isTail, UInt8.le_iff_toNat_le]

theorem isSecondOfThree_iff {a b : UInt8} : isSecondOfThree a b = true ↔
    (128 ≤ b.toNat ∧ b.toNat ≤ 191) ∧ (a.toNat = 224 → 160 ≤ b.toNat) ∧ (a.toNat = 237 → b.toNat ≤ 159) := by
  simp [isSecondOfThree, isTail, UInt8.le_iff_toNat_le, ← UInt8.toNat_inj]
  tauto

theorem isSecondOfFour_iff {a b : UInt8} : isSecondOfFour a b = true ↔
    (128 ≤ b.toNat ∧ b.toNat ≤ 191) ∧ (a.toNat = 240 → 144 ≤ b.toNat) ∧ (a.toNat = 244 → b.toNat ≤ 143) := by
  simp [isSecondOfFour, isTail, UInt8.le_iff_toNat_le, ← UInt8.toNat_inj]
  tauto

theorem decode?_one {a : UInt8} (rest : Text) (ha : a.toNat < 128) :
    decode? (a :: rest) = some (a.toNat, 1) := by
  have h1 : a < 0x80 := by simpa [UInt8.lt_iff_toNat_lt] using ha
  simp [decode?, h1]

theorem decode?_two {a b : UInt8} (rest : Text) (ha : 194 ≤ a.toNat ∧ a.toNat ≤ 223) (hb : isTail b = true) :
    decode? (a :: b :: rest) = some (a.toNat % 32 * 64 + b.toNat % 64, 2) := by
  have h1 : ¬ a < 0x80 := by simp [UInt8.lt_iff_toNat_lt]; omega
  have h2 : (0xC2 ≤ a && a ≤ 0xDF) = true := by simpa [UInt8.le_iff_toNat_le] using ha
  simp [decode?, h1, h2, hb, tailBits]

theorem decode?_three {a b c : UInt8} (rest : Text) (ha : 224 ≤ a.toNat ∧ a.toNat ≤ 239)
    (hb : isSecondOfThree a b = true) (hc : isTail c = true) :
    decode? (a :: b :: c :: rest) = some (a.toNat % 16 * 4096 + b.toNat % 64 * 64 + c.toNat % 64, 3) := by
  have h1 : ¬ a < 0x80 := by simp [UInt8.lt_iff_toNat_lt]; omega
  have h2 : (0xC2 ≤ a && a ≤ 0xDF) = false := by simp [UInt8.le_iff_toNat_le]; omega
  have h3 : (0xE0 ≤ a && a ≤ 0xEF) = true := by simpa [UInt8.le_iff_toNat_le] using ha
  simp [decode?, h1, h2, h3, hb, hc, tailBits]

/-- The code point of a character of four bytes. -/
theorem decode?_four {a b c d : UInt8} (rest : Text) (ha : 240 ≤ a.toNat ∧ a.toNat ≤ 244)
    (hb : isSecondOfFour a b = true) (hc : isTail c = true) (hd : isTail d = true) :
    decode? (a :: b :: c :: d :: rest) = some (a.toNat % 8 * 262144 + b.toNat % 64 * 4096 +
      c.toNat % 64 * 64 + d.toNat % 64, 4) := by
  have h1 : ¬ a < 0x80 := by simp [UInt8.lt_iff_toNat_lt]; omega
  have h2 : (0xC2 ≤ a && a ≤ 0xDF) = false := by simp [UInt8.le_iff_toNat_le]; omega
  have h3 : (0xE0 ≤ a && a ≤ 0xEF) = false := by simp [UInt8.le_iff_toNat_le]; omega
  have h4 : (0xF0 ≤ a && a ≤ 0xF4) = true := by simpa [UInt8.le_iff_toNat_le] using ha
  simp [decode?, h1, h2, h3, h4, hb, hc, hd, tailBits]

/-- Decoding undoes encoding, whatever follows. -/
theorem decode?_utf8EncodeChar_append (c : Char) (rest : Text) :
    decode? (String.utf8EncodeChar c ++ rest) = some (c.toNat, (String.utf8EncodeChar c).length) := by
  have hv := c.valid
  have hc : c.toNat = c.val.toNat := rfl
  simp only [UInt32.isValidChar, Nat.isValidChar] at hv
  rw [hc]
  unfold String.utf8EncodeChar
  generalize c.val.toNat = v at hv ⊢
  dsimp only
  split_ifs with h1 h2 h3
  · have e := toNat_ofNat_of_lt (n := v) (by omega)
    rw [List.cons_append, decode?_one _ (by omega), e]
    rfl
  · have e1 := toNat_ofNat_of_lt (n := v / 64 % 32 + 192) (by omega)
    have e2 := toNat_ofNat_of_lt (n := v % 64 + 128) (by omega)
    rw [List.cons_append, List.cons_append, decode?_two _ (by omega) (isTail_iff.2 (by omega)), e1, e2]
    have hv' : (v / 64 % 32 + 192) % 32 * 64 + (v % 64 + 128) % 64 = v := by omega
    rw [hv']
    rfl
  · have e1 := toNat_ofNat_of_lt (n := v / 4096 % 16 + 224) (by omega)
    have e2 := toNat_ofNat_of_lt (n := v / 64 % 64 + 128) (by omega)
    have e3 := toNat_ofNat_of_lt (n := v % 64 + 128) (by omega)
    rw [List.cons_append, List.cons_append, List.cons_append, decode?_three _ (by omega)
      (isSecondOfThree_iff.2 (by omega)) (isTail_iff.2 (by omega)), e1, e2, e3]
    have hv' : (v / 4096 % 16 + 224) % 16 * 4096 + (v / 64 % 64 + 128) % 64 * 64 +
        (v % 64 + 128) % 64 = v := by omega
    rw [hv']
    rfl
  · have e1 := toNat_ofNat_of_lt (n := v / 262144 % 8 + 240) (by omega)
    have e2 := toNat_ofNat_of_lt (n := v / 4096 % 64 + 128) (by omega)
    have e3 := toNat_ofNat_of_lt (n := v / 64 % 64 + 128) (by omega)
    have e4 := toNat_ofNat_of_lt (n := v % 64 + 128) (by omega)
    rw [List.cons_append, List.cons_append, List.cons_append, List.cons_append,
      decode?_four _ (by omega) (isSecondOfFour_iff.2 (by omega)) (isTail_iff.2 (by omega))
      (isTail_iff.2 (by omega)), e1, e2, e3, e4]
    have hv' : (v / 262144 % 8 + 240) % 8 * 262144 + (v / 4096 % 64 + 128) % 64 * 4096 +
        (v / 64 % 64 + 128) % 64 * 64 + (v % 64 + 128) % 64 = v := by omega
    rw [hv']
    rfl

/-- The character with a code point and given bytes stands at the front of a text, if its encoding
is those bytes. -/
theorem exists_char_of_bytes (code : Nat) (bytes rest : Text) (hv : code.isValidChar)
    (he : ∀ c : Char, c.val.toNat = code → String.utf8EncodeChar c = bytes) :
    ∃ c : Char, String.utf8EncodeChar c <+: bytes ++ rest ∧
      (String.utf8EncodeChar c).length = bytes.length := by
  have hc : (Char.ofNat code).val.toNat = code := by
    rw [Char.ofNat, dif_pos hv]
    rfl
  refine ⟨Char.ofNat code, ?_, ?_⟩
  · rw [he _ hc]
    exact List.prefix_append ..
  · rw [he _ hc]

/-- A decoded character is one whose encoding stands at the front of the text. -/
theorem exists_char_of_decode? {t : Text} {code width : Nat} (h : decode? t = some (code, width)) :
    ∃ c : Char, String.utf8EncodeChar c <+: t ∧ (String.utf8EncodeChar c).length = width := by
  revert h
  fun_cases decode? t
  case case2 a rest ha =>
    rintro ⟨⟩
    have ha' : a.toNat < 128 := by simpa [UInt8.lt_iff_toNat_lt] using ha
    refine exists_char_of_bytes a.toNat [a] rest (.inl (by omega)) fun c hc => ?_
    rw [String.utf8EncodeChar, hc, if_pos (by omega), UInt8.ofNat_toNat]
  case case3 a _ ha b rest hb =>
    rintro ⟨⟩
    rw [isTail_iff] at hb
    simp only [Bool.and_eq_true, decide_eq_true_eq, UInt8.le_iff_toNat_le, UInt8.reduceToNat] at ha
    refine exists_char_of_bytes (a.toNat % 32 * 64 + b.toNat % 64) [a, b] rest
      (.inl (by omega)) fun c hc => ?_
    rw [String.utf8EncodeChar, hc, if_neg (by omega), if_pos (by omega)]
    simp only [List.cons.injEq, ← UInt8.toNat_inj, and_true]
    rw [toNat_ofNat_of_lt (by omega), toNat_ofNat_of_lt (by omega)]
    omega
  case case6 a _ _ ha b c rest hbc =>
    rintro ⟨⟩
    rw [Bool.and_eq_true, isSecondOfThree_iff, isTail_iff] at hbc
    simp only [Bool.and_eq_true, decide_eq_true_eq, UInt8.le_iff_toNat_le, UInt8.reduceToNat] at ha
    refine exists_char_of_bytes (a.toNat % 16 * 4096 + b.toNat % 64 * 64 + c.toNat % 64)
      [a, b, c] rest (by simp only [Nat.isValidChar]; omega) fun c' hc' => ?_
    rw [String.utf8EncodeChar, hc', if_neg (by omega), if_neg (by omega), if_pos (by omega)]
    simp only [List.cons.injEq, ← UInt8.toNat_inj, and_true]
    rw [toNat_ofNat_of_lt (by omega), toNat_ofNat_of_lt (by omega), toNat_ofNat_of_lt (by omega)]
    omega
  case case9 a _ _ _ ha b c d rest hbcd =>
    rintro ⟨⟩
    rw [Bool.and_eq_true, Bool.and_eq_true, isSecondOfFour_iff, isTail_iff, isTail_iff] at hbcd
    simp only [Bool.and_eq_true, decide_eq_true_eq, UInt8.le_iff_toNat_le, UInt8.reduceToNat] at ha
    refine exists_char_of_bytes (a.toNat % 8 * 262144 + b.toNat % 64 * 4096 +
      c.toNat % 64 * 64 + d.toNat % 64) [a, b, c, d] rest
      (by simp only [Nat.isValidChar]; omega) fun c' hc' => ?_
    rw [String.utf8EncodeChar, hc', if_neg (by omega), if_neg (by omega), if_neg (by omega)]
    simp only [List.cons.injEq, ← UInt8.toNat_inj, and_true]
    rw [toNat_ofNat_of_lt (by omega), toNat_ofNat_of_lt (by omega), toNat_ofNat_of_lt (by omega),
      toNat_ofNat_of_lt (by omega)]
    omega
  all_goals rintro ⟨⟩

/-- A piece of a text before the rest of it: a whole character, or one byte where no character
starts. -/
inductive FirstPiece : (piece rest : Text) → Prop where
  | character (c : Char) (rest : Text) : FirstPiece (String.utf8EncodeChar c) rest
  | stray (b : UInt8) (rest : Text) (h : ∀ c : Char, ¬ String.utf8EncodeChar c <+: b :: rest) :
    FirstPiece [b] rest

/-- The width of a text that is not empty cuts off its first piece. -/
theorem firstPiece_width (a : UInt8) (rest : Text) :
    FirstPiece ((a :: rest).take (width (a :: rest))) ((a :: rest).drop (width (a :: rest))) := by
  unfold width
  split
  · next code n h =>
    obtain ⟨c, ⟨after, hc⟩, rfl⟩ := exists_char_of_decode? h
    rw [← hc, List.take_left, List.drop_left]
    exact .character c after
  · next h =>
    refine .stray a rest ?_
    rintro c ⟨after, hc⟩
    rw [← hc, decode?_utf8EncodeChar_append] at h
    cases h

theorem width_pos (t : Text) : 0 < width t := by
  unfold width
  split
  · next h =>
    obtain ⟨c, -, rfl⟩ := exists_char_of_decode? h
    exact List.length_pos_iff.2 String.utf8EncodeChar_ne_nil
  · exact Nat.zero_lt_one

/-- The width of a text is that of its first piece. -/
theorem FirstPiece.width_eq {piece rest : Text} (h : FirstPiece piece rest) :
    width (piece ++ rest) = piece.length := by
  cases h with
  | character c => rw [width, decode?_utf8EncodeChar_append]
  | stray b _ h =>
    unfold width
    split
    · next code n hd =>
      obtain ⟨c, hc, -⟩ := exists_char_of_decode? hd
      exact absurd hc (h c)
    · rfl

end Lox.Text
