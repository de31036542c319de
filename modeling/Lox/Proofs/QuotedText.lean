import Lox.Text.Quoted
import Lox.Proofs.Characters
import Mathlib.Algebra.Group.Nat.Defs

/-!
# Quoted texts read back

`Text.readPiece` reads one piece off the front of what stands between quotes: an escape if a backslash
stands there, and a character else. It undoes `Piece.quoted` on every piece that a text can have, so
no two pieces are quoted alike, and none starts with the quote that ends the text. A quoted text is
therefore found again at the front of any text (`quoted_append_inj`).
-/

namespace Lox.Text

/-! ## Hexadecimal numbers -/

/-- The value of a hexadecimal digit in lower case. -/
def unhexDigit (b : UInt8) : Nat := if b < 58 then b.toNat - 48 else b.toNat - 87

/-- The number that hexadecimal digits denote. -/
def unhex (t : Text) : Nat := t.foldl (fun n b => 16 * n + unhexDigit b) 0

theorem unhexDigit_hexDigit (n : Nat) : unhexDigit (hexDigit n) = n % 16 := by
  have key : ∀ d < 16, unhexDigit (if d < 10 then 48 + d.toUInt8 else 87 + d.toUInt8) = d := by
    decide
  exact key _ (Nat.mod_lt n (by decide))

@[simp] theorem length_hex (k n : Nat) : (hex k n).length = k := by
  induction k generalizing n with
  | zero => rfl
  | succ k ih => simp [hex, ih]

/-- Hexadecimal digits denote the number that they were written for, as far as they reach. -/
theorem unhex_hex {k n : Nat} (h : n < 16 ^ k) : unhex (hex k n) = n := by
  induction k generalizing n with
  | zero => simp_all [hex, unhex]
  | succ k ih =>
    have hdiv : unhex (hex k (n / 16)) = n / 16 := by
      refine ih ?_
      rw [Nat.pow_succ] at h
      omega
    have hsplit : unhex (hex (k + 1) n) = 16 * unhex (hex k (n / 16)) + unhexDigit (hexDigit n) := by
      simp [hex, unhex]
    rw [hsplit, hdiv, unhexDigit_hexDigit]
    omega

/-! ## Pieces -/

/-- The character with a code, and its bytes. -/
def Piece.ofCode (code : Nat) : Piece := .character code (String.utf8EncodeChar (Char.ofNat code))

def Piece.bytes : Piece → Text
  | .character _ bytes => bytes
  | .stray byte => [byte]

/-- A piece that a text can have: a character with its own bytes, or a byte that is no character. -/
inductive Piece.Proper : Piece → Prop where
  | character (c : Char) : Proper (.character c.toNat (String.utf8EncodeChar c))
  | stray (byte : UInt8) (h : 128 ≤ byte.toNat) : Proper (.stray byte)

theorem Piece.ofCode_toNat (c : Char) :
    Piece.ofCode c.toNat = .character c.toNat (String.utf8EncodeChar c) := by
  rw [ofCode, Char.ofNat_toNat]

/-- The pieces of a text are proper, and put together they are the text. -/
theorem pieces_spec (t : Text) : (∀ p ∈ pieces t, p.Proper) ∧ (pieces t).flatMap Piece.bytes = t := by
  fun_induction pieces t with
  | case1 => exact ⟨by simp, rfl⟩
  | case2 a rest code n h ih =>
    obtain ⟨c, ⟨after, hc⟩, rfl⟩ := exists_char_of_decode? h
    rw [← hc, decode?_utf8EncodeChar_append] at h
    obtain ⟨rfl, -⟩ := Prod.mk.inj (Option.some.inj h)
    obtain ⟨b, tail, hbytes⟩ := List.exists_cons_of_ne_nil (String.utf8EncodeChar_ne_nil (c := c))
    rw [hbytes, List.cons_append] at hc
    obtain ⟨rfl, rfl⟩ := List.cons.inj hc
    have htake : b :: (tail ++ after).take ((String.utf8EncodeChar c).length - 1) =
        String.utf8EncodeChar c := by
      rw [hbytes, List.length_cons, Nat.add_sub_cancel, List.take_left]
    have hdrop : (tail ++ after).drop ((String.utf8EncodeChar c).length - 1) = after := by
      rw [hbytes, List.length_cons, Nat.add_sub_cancel, List.drop_left]
    rw [htake]
    rw [hdrop] at ih ⊢
    refine ⟨List.forall_mem_cons.2 ⟨.character c, ih.1⟩, ?_⟩
    rw [List.flatMap_cons, ih.2, Piece.bytes, hbytes, List.cons_append]
  | case3 a rest h ih =>
    refine ⟨List.forall_mem_cons.2 ⟨.stray a ?_, ih.1⟩, ?_⟩
    · by_contra hlt
      rw [decode?_one rest (Nat.not_le.1 hlt)] at h
      cases h
    · rw [List.flatMap_cons, ih.2, Piece.bytes, List.singleton_append]

/-! ## Reading a piece back -/

/-- The character that a letter after a backslash stands for. -/
def unescape? (letter : UInt8) : Option Nat :=
  [7, 8, 9, 10, 11, 12, 13, 34, 92].find? fun code => shortEscape? code == some letter

/-- The number of hexadecimal digits after the letter of an escape. -/
def escapeDigits? (letter : UInt8) : Option Nat :=
  if letter = 120 then some 2
  else if letter = 117 then some 4
  else if letter = 85 then some 8
  else none

/-- The piece that a number stands for in an escape; only the shortest form is used for bytes. -/
def Piece.ofNumber (letter : UInt8) (n : Nat) : Piece :=
  if letter = 120 ∧ 128 ≤ n then .stray n.toUInt8 else .ofCode n

/-- The piece of an escape, by the letter after the backslash, and what is left after it. -/
def readEscape (letter : UInt8) (rest : Text) : Piece × Text :=
  match escapeDigits? letter with
  | some k => (.ofNumber letter (unhex (rest.take k)), rest.drop k)
  | none => (.ofCode ((unescape? letter).getD 0), rest)

/-- The piece that is quoted at the front of a text, and what is left after it. -/
def readPiece (t : Text) : Piece × Text :=
  if t.head? = some 92 then readEscape (t.tail.headD 0) t.tail.tail
  else (.ofCode (((decode? t).map (·.1)).getD 0), t.drop (width t))

/-- A short escape stands for its character, and its letter starts no other escape. -/
theorem unescape?_of_shortEscape? {code : Nat} {letter : UInt8} (h : shortEscape? code = some letter) :
    unescape? letter = some code ∧ escapeDigits? letter = none := by
  revert h
  fun_cases shortEscape? code <;> first | (rintro ⟨⟩; decide) | exact nofun

theorem readPiece_short {code : Nat} {letter : UInt8} (h : shortEscape? code = some letter)
    (rest : Text) : readPiece (92 :: letter :: rest) = (.ofCode code, rest) := by
  obtain ⟨hcode, hdigits⟩ := unescape?_of_shortEscape? h
  have hescape : readPiece (92 :: letter :: rest) = readEscape letter rest := rfl
  rw [hescape, readEscape, hdigits, hcode]
  rfl

theorem readPiece_hex {letter : UInt8} {k n : Nat} (hk : escapeDigits? letter = some k) (hn : n < 16 ^ k)
    (rest : Text) : readPiece (92 :: letter :: (hex k n ++ rest)) = (.ofNumber letter n, rest) := by
  have hescape : readPiece (92 :: letter :: (hex k n ++ rest)) = readEscape letter (hex k n ++ rest) := rfl
  have htake : (hex k n ++ rest).take k = hex k n := List.take_left' (length_hex ..)
  have hdrop : (hex k n ++ rest).drop k = rest := List.drop_left' (length_hex ..)
  rw [hescape, readEscape, hk]
  dsimp only
  rw [htake, hdrop, unhex_hex hn]

/-- A character whose bytes start with a backslash is the backslash. -/
theorem toNat_eq_of_head? {c : Char} {b : UInt8} (hb : b.toNat < 128)
    (h : (String.utf8EncodeChar c).head? = some b) : c.toNat = b.toNat := by
  have hdecode := decode?_utf8EncodeChar_append c []
  obtain ⟨tail, htail⟩ := List.head?_eq_some_iff.1 h
  rw [htail, List.cons_append, decode?_one _ hb] at hdecode
  exact (Prod.mk.inj (Option.some.inj hdecode)).1.symm

theorem head?_utf8EncodeChar_append (c : Char) (rest : Text) :
    (String.utf8EncodeChar c ++ rest).head? = (String.utf8EncodeChar c).head? := by
  obtain ⟨b, tail, hbytes⟩ := List.exists_cons_of_ne_nil (String.utf8EncodeChar_ne_nil (c := c))
  rw [hbytes]
  rfl

theorem toNat_lt (c : Char) : c.toNat < 0x110000 := by
  have hv := c.valid
  have hc : c.toNat = c.val.toNat := rfl
  simp only [UInt32.isValidChar, Nat.isValidChar] at hv
  omega

/-- Reading a piece undoes quoting it, whatever follows. -/
theorem readPiece_quoted {p : Piece} (h : p.Proper) (rest : Text) :
    readPiece (p.quoted ++ rest) = (p, rest) := by
  cases h with
  | stray byte hbyte =>
    have hpiece : Piece.ofNumber 120 byte.toNat = .stray byte := by
      rw [Piece.ofNumber, if_pos ⟨rfl, hbyte⟩]
      simp
    have hdigits : escapeDigits? 120 = some 2 := rfl
    exact (readPiece_hex hdigits byte.toNat_lt rest).trans (by rw [hpiece])
  | character c =>
    have hlt := toNat_lt c
    rw [← Piece.ofCode_toNat, Piece.ofCode, Char.ofNat_toNat, Piece.quoted]
    cases hshort : shortEscape? c.toNat with
    | some letter => exact (readPiece_short hshort rest).trans (by rw [Piece.ofCode_toNat])
    | none =>
      have hnumber (letter : UInt8) (h : letter ≠ 120 ∨ c.toNat < 128) :
          Piece.ofNumber letter c.toNat = .character c.toNat (String.utf8EncodeChar c) := by
        rw [Piece.ofNumber, if_neg (by grind), Piece.ofCode_toNat]
      dsimp only
      split_ifs with hprintable hx hu
      · -- The character stands there itself; a backslash would have been escaped.
        have hhead : (String.utf8EncodeChar c ++ rest).head? ≠ some 92 := by
          rw [head?_utf8EncodeChar_append]
          intro hhead
          rw [toNat_eq_of_head? (by decide) hhead] at hshort
          exact absurd hshort (by decide)
        have hwidth := (FirstPiece.character c rest).width_eq
        rw [readPiece, if_neg hhead, hwidth, List.drop_left, decode?_utf8EncodeChar_append]
        exact congrArg (·, rest) (Piece.ofCode_toNat c)
      · rw [← hnumber 120 (.inr hx)]
        exact readPiece_hex rfl (by omega) rest
      · rw [← hnumber 117 (.inl (by decide))]
        exact readPiece_hex rfl (by omega) rest
      · rw [← hnumber 85 (.inl (by decide))]
        exact readPiece_hex rfl (by omega) rest

/-- No quoted piece starts with the quote that ends a text. -/
theorem quoted_append_ne {p : Piece} (h : p.Proper) (rest rest' : Text) : p.quoted ++ rest ≠ 34 :: rest' := by
  cases h with
  | stray byte =>
    intro heq
    exact absurd (List.cons.inj heq).1 (by decide)
  | character c =>
    rw [Piece.quoted]
    cases hshort : shortEscape? c.toNat with
    | some letter =>
      intro heq
      exact absurd (List.cons.inj heq).1 (by decide)
    | none =>
      dsimp only
      split_ifs with hprintable
      · intro heq
        have hhead := head?_utf8EncodeChar_append c rest
        rw [heq, List.head?_cons] at hhead
        rw [toNat_eq_of_head? (by decide) hhead.symm] at hshort
        exact absurd hshort (by decide)
      all_goals
        intro heq
        exact absurd (List.cons.inj heq).1 (by decide)

/-- Quoted pieces up to the closing quote determine the pieces and what follows. -/
theorem flatMap_quoted_inj {ps qs : List Piece} (hps : ∀ p ∈ ps, p.Proper) (hqs : ∀ q ∈ qs, q.Proper)
    {rest rest' : Text} (h : ps.flatMap Piece.quoted ++ 34 :: rest = qs.flatMap Piece.quoted ++ 34 :: rest') :
    ps = qs ∧ rest = rest' := by
  induction ps generalizing qs with
  | nil =>
    cases qs with
    | nil => exact ⟨rfl, (List.cons.inj h).2⟩
    | cons q qs =>
      rw [List.flatMap_cons, List.append_assoc] at h
      exact absurd h.symm (quoted_append_ne (hqs q (by simp)) _ _)
  | cons p ps ih =>
    have hp := hps p (by simp)
    rw [List.flatMap_cons, List.append_assoc] at h
    cases qs with
    | nil => exact absurd h (quoted_append_ne hp _ _)
    | cons q qs =>
      have hq := hqs q (by simp)
      rw [List.flatMap_cons, List.append_assoc] at h
      have hread := readPiece_quoted hp (ps.flatMap Piece.quoted ++ 34 :: rest)
      rw [h, readPiece_quoted hq] at hread
      obtain ⟨rfl, htail⟩ := Prod.mk.inj hread
      obtain ⟨rfl, rfl⟩ := ih (fun p h => hps p (List.mem_cons_of_mem _ h))
        (fun q h => hqs q (List.mem_cons_of_mem _ h)) htail.symm
      exact ⟨rfl, rfl⟩

/-- A quoted text at the front of a text determines the text that was quoted, and what follows. -/
theorem quoted_append_inj {t u rest rest' : Text} (h : t.quoted ++ rest = u.quoted ++ rest') :
    t = u ∧ rest = rest' := by
  simp only [quoted, List.cons_append, List.append_assoc, List.nil_append, List.cons.injEq, true_and] at h
  obtain ⟨hproper, hbytes⟩ := pieces_spec t
  obtain ⟨hproper', hbytes'⟩ := pieces_spec u
  obtain ⟨hpieces, hrest⟩ := flatMap_quoted_inj hproper hproper' h
  exact ⟨by rw [← hbytes, hpieces, hbytes'], hrest⟩

end Lox.Text
