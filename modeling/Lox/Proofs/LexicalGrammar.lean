import Lox.Token.Scan
import Lox.Proofs.Characters
import Lox.Proofs.Rounding
import Mathlib.Data.List.TakeWhile

/-!
# The lexical grammar

What may stand in a source, said without reference to how a source is scanned. `Lexeme k t` says that
`t` is written like a token of kind `k`. `Chunk.Fits c rest` says what a piece of a source must be to
be labelled as `c` is when `rest` follows it: a lexeme is the longest at its place, a comment runs to
its first end, and a flaw is a character that starts nothing, a string without an end, or a numeral
too large for a double. `Splits` cuts a whole source into such pieces.

The first byte of a lexeme says what kind of lexeme it is (`Lexeme.by_first`).
-/

namespace Lox

/-- The operators of one or two characters. -/
def Kind.operators : List (Text × Kind) :=
  [(text "(", .leftParen), (text ")", .rightParen), (text "\x7b", .leftBrace),
   (text "\x7d", .rightBrace), (text ",", .comma), (text ".", .dot), (text "-", .minus),
   (text "+", .plus), (text ";", .semicolon), (text "*", .star), (text "?", .question),
   (text ":", .colon), (text "!=", .bangEqual), (text "==", .equalEqual),
   (text ">=", .greaterEqual), (text "<=", .lessEqual), (text "!", .bang), (text "=", .equal),
   (text ">", .greater), (text "<", .less), (text "/", .slash)]

/-- One or more decimal digits. -/
def Digits (t : Text) : Prop := t ≠ [] ∧ ∀ b ∈ t, Text.isDigit b = true

/-- A numeral with the digits before and after its point; the point stands only between digits. -/
inductive Numeral : (whole fraction numeral : Text) → Prop where
  | whole {ds : Text} (h : Digits ds) : Numeral ds [] ds
  | point {ds es : Text} (h : Digits ds) (h' : Digits es) : Numeral ds es (ds ++ 46 :: es)

/-- The value of a numeral lies at or above the middle between the largest double and the next power
of two. -/
def TooLarge (whole fraction : Text) : Prop :=
  (2 ^ 54 - 1) * (2 ^ 970 * 10 ^ fraction.length) ≤ Text.toNat (whole ++ fraction)

/-- A letter or an underscore, then letters, underscores and digits. -/
inductive Word : Text → Prop where
  | mk {b : UInt8} {tail : Text} (h : Chunk.isWordStart b = true)
    (h' : ∀ c ∈ tail, Chunk.isWordByte c = true) : Word (b :: tail)

/-- How the tokens of a kind are written. -/
inductive Lexeme : Kind → Text → Prop where
  | operator {k : Kind} {t : Text} (h : (t, k) ∈ Kind.operators) : Lexeme k t
  | string {body : Text} (h : 34 ∉ body) : Lexeme .string (34 :: (body ++ [34]))
  | number {whole fraction t : Text} (h : Numeral whole fraction t) : Lexeme .number t
  | keyword {k : Kind} {t : Text} (h : (t, k) ∈ Kind.reserved) : Lexeme k t
  | identifier {t : Text} (h : Word t) (h' : ∀ k, (t, k) ∉ Kind.reserved) : Lexeme .identifier t

/-- The bytes of a comment start here. -/
def StartsComment (t : Text) : Prop := [47, 47] <+: t ∨ [47, 42] <+: t

/-- No lexeme at the front of a text is longer than a number of bytes. -/
def NoLongerLexeme (n : Nat) (t : Text) : Prop :=
  ∀ (k : Kind) (w : Text), Lexeme k w → w <+: t → w.length ≤ n

namespace Chunk

/-- A chunk is what its label says, before the rest of the source. -/
inductive Fits : Chunk → (rest : Text) → Prop where
  | blank {b : UInt8} {rest : Text} (h : b ∈ text " \t\r\n\x0b") : Fits ⟨.blank, [b]⟩ rest
  | lineComment {body rest : Text} (h : 10 ∉ body) (h' : rest = [] ∨ rest.head? = some 10) :
    Fits ⟨.lineComment, 47 :: 47 :: body⟩ rest
  /-- The first end of the comment closes it. -/
  | blockComment {body rest : Text} (h : ¬ [42, 47] <:+: body ++ [42]) :
    Fits ⟨.blockComment, 47 :: 42 :: (body ++ [42, 47])⟩ rest
  | openComment {body : Text} (h : ¬ [42, 47] <:+: body) :
    Fits ⟨.blockComment, 47 :: 42 :: body⟩ []
  | lexeme {k : Kind} {t rest : Text} (h : Lexeme k t) (longest : NoLongerLexeme t.length (t ++ rest))
    (hc : ¬ StartsComment (t ++ rest))
    (small : ∀ whole fraction, Numeral whole fraction t → ¬ TooLarge whole fraction) :
    Fits ⟨.lexeme k, t⟩ rest
  | unexpected {piece rest : Text} (h : Text.FirstPiece piece rest)
    (none : NoLongerLexeme 0 (piece ++ rest)) (hb : ∀ b ∈ text " \t\r\n\x0b\"", ¬ [b] <+: piece ++ rest) :
    Fits ⟨.flaw .unexpectedCharacter, piece⟩ rest
  | unterminated {body : Text} (h : 34 ∉ body) : Fits ⟨.flaw .unterminatedString, 34 :: body⟩ []
  | tooLarge {whole fraction t rest : Text} (h : Numeral whole fraction t)
    (longest : NoLongerLexeme t.length (t ++ rest)) (large : TooLarge whole fraction) :
    Fits ⟨.flaw .invalidNumber, t⟩ rest

end Chunk

/-- A source cut into chunks, in order and with nothing left over. -/
inductive Splits : (source : Text) → List Chunk → Prop where
  | done : Splits [] []
  | chunk {c : Chunk} {rest : Text} {cs : List Chunk} (h : c.Fits rest) (h' : Splits rest cs) :
    Splits (c.bytes ++ rest) (c :: cs)

namespace Decimal

theorem num_ofDigits (whole fraction : Text) :
    (ofDigits whole fraction).num = Text.toNat (whole ++ fraction) := by
  simp [ofDigits, num]

theorem den_ofDigits (whole fraction : Text) : (ofDigits whole fraction).den = 10 ^ fraction.length := by
  simp [ofDigits, den]

end Decimal

/-! ## What the first byte of a lexeme says -/

namespace Numeral

variable {whole fraction t : Text}

theorem exists_cons (h : Numeral whole fraction t) : ∃ a v, t = a :: v ∧ Text.isDigit a = true := by
  cases h with
  | whole h =>
    obtain ⟨a, v, rfl⟩ := List.exists_cons_of_ne_nil h.1
    exact ⟨a, v, rfl, h.2 a (by simp)⟩
  | point h h' =>
    obtain ⟨a, v, rfl⟩ := List.exists_cons_of_ne_nil h.1
    exact ⟨a, _, rfl, h.2 a (by simp)⟩

/-- The digits before the point are those at the front, and those after it are the rest. -/
theorem parts (h : Numeral whole fraction t) :
    t.takeWhile Text.isDigit = whole ∧ (t.dropWhile Text.isDigit).drop 1 = fraction := by
  cases h with
  | whole h =>
    rw [List.takeWhile_eq_self_iff.2 h.2, List.dropWhile_eq_nil_iff.2 h.2]
    exact ⟨rfl, rfl⟩
  | point h h' =>
    have hp : Text.isDigit 46 = false := by decide
    rw [List.takeWhile_append_of_pos h.2, List.dropWhile_append_of_pos h.2,
      List.takeWhile_cons_of_neg (by simp [hp]), List.dropWhile_cons_of_neg (by simp [hp])]
    exact ⟨List.append_nil _, rfl⟩

/-- A numeral has no nearest double exactly if it is too large for one. -/
theorem nearest?_eq_none_iff (h : Numeral whole fraction t) :
    (Chunk.numeralValue t).nearest? = none ↔ TooLarge whole fraction := by
  unfold Chunk.numeralValue
  rw [h.parts.1, h.parts.2, Decimal.nearest?_eq_none_iff, Decimal.den_ofDigits, Decimal.num_ofDigits,
    TooLarge]

end Numeral

theorem Word.of_reserved {k : Kind} {t : Text} (h : (t, k) ∈ Kind.reserved) : Word t := by
  have key : ∀ p ∈ Kind.reserved, (p.1.head?.map Chunk.isWordStart = some true) ∧
      ∀ c ∈ p.1.tail, Chunk.isWordByte c = true := by decide +kernel
  obtain ⟨hhead, htail⟩ := key _ h
  cases t with
  | nil => cases hhead
  | cons b tail => exact .mk (by simpa using hhead) htail

/-- A word has the kind of a reserved word exactly if it is that word, and else of an identifier. -/
theorem Word.lexeme {t : Text} (h : Word t) : Lexeme (.ofWord t) t := by
  unfold Kind.ofWord
  cases hl : Kind.reserved.lookup t with
  | none =>
    refine .identifier h fun k hk => ?_
    rw [List.lookup_eq_none_iff] at hl
    exact absurd (hl _ hk) (by simp)
  | some k =>
    obtain ⟨l₁, l₂, hsplit, -⟩ := List.lookup_eq_some_iff.1 hl
    refine .keyword ?_
    rw [hsplit]
    simp

namespace Lexeme

variable {k : Kind} {a : UInt8} {v : Text}

theorem first_of_operator (h : (a :: v, k) ∈ Kind.operators) :
    Chunk.isWordStart a = false ∧ Text.isDigit a = false ∧ a ≠ 34 := by
  have key : ∀ p ∈ Kind.operators, ∀ b ∈ p.1.head?,
      Chunk.isWordStart b = false ∧ Text.isDigit b = false ∧ b ≠ 34 := by decide +kernel
  exact key _ h a rfl

theorem isDigit_of_isWordStart (h : Chunk.isWordStart a = true) : Text.isDigit a = false := by
  simp only [Chunk.isWordStart, Text.isDigit, Bool.or_eq_true, Bool.and_eq_true, beq_iff_eq,
    decide_eq_true_eq, Bool.and_eq_false_iff, decide_eq_false_iff_not, UInt8.le_iff_toNat_le,
    ← UInt8.toNat_inj, UInt8.reduceToNat] at h ⊢
  omega

/-- A lexeme has a byte at least. -/
theorem ne_nil {t : Text} (h : Lexeme k t) : t ≠ [] := by
  cases h with
  | operator h =>
    have key : ∀ p ∈ Kind.operators, p.1 ≠ [] := by decide
    exact key _ h
  | string h => simp
  | number h =>
    obtain ⟨a, v, rfl, -⟩ := h.exists_cons
    simp
  | keyword h =>
    cases Word.of_reserved h
    simp
  | identifier h =>
    cases h
    simp

/-- The first byte of a lexeme decides between a word, a numeral, a string and an operator. -/
theorem by_first (h : Lexeme k (a :: v)) :
    (Chunk.isWordStart a = true ∧ ∀ c ∈ v, Chunk.isWordByte c = true) ∨
    (Text.isDigit a = true ∧ ∃ whole fraction, Numeral whole fraction (a :: v)) ∨
    (a = 34 ∧ ∃ body, v = body ++ [34] ∧ 34 ∉ body) ∨ (a :: v, k) ∈ Kind.operators := by
  generalize ht : a :: v = t at h ⊢
  have hword (hw : Word t) : Chunk.isWordStart a = true ∧ ∀ c ∈ v, Chunk.isWordByte c = true := by
    cases hw with
    | mk hb htail =>
      obtain ⟨rfl, rfl⟩ := List.cons.inj ht
      exact ⟨hb, htail⟩
  cases h with
  | operator h => exact .inr (.inr (.inr h))
  | @string body h =>
    obtain ⟨rfl, rfl⟩ := List.cons.inj ht
    exact .inr (.inr (.inl ⟨rfl, body, rfl, h⟩))
  | number h =>
    obtain ⟨b, w, rfl, hb⟩ := h.exists_cons
    rw [← (List.cons.inj ht).1] at hb
    exact .inr (.inl ⟨hb, _, _, h⟩)
  | keyword h => exact .inl (hword (.of_reserved h))
  | identifier h => exact .inl (hword h)

/-- A lexeme that begins like a word consists of bytes of words. -/
theorem tail_of_isWordStart (h : Lexeme k (a :: v)) (ha : Chunk.isWordStart a = true) :
    ∀ c ∈ v, Chunk.isWordByte c = true := by
  rcases h.by_first with ⟨-, h⟩ | ⟨hd, -⟩ | ⟨rfl, -⟩ | h
  · exact h
  · rw [isDigit_of_isWordStart ha] at hd
    cases hd
  · exact absurd ha (by decide)
  · rw [(first_of_operator h).1] at ha
    cases ha

/-- A lexeme that begins with a digit is a numeral. -/
theorem numeral_of_isDigit (h : Lexeme k (a :: v)) (ha : Text.isDigit a = true) :
    ∃ whole fraction, Numeral whole fraction (a :: v) := by
  rcases h.by_first with ⟨hw, -⟩ | ⟨-, h⟩ | ⟨rfl, -⟩ | h
  · rw [isDigit_of_isWordStart hw] at ha
    cases ha
  · exact h
  · exact absurd ha (by decide)
  · rw [(first_of_operator h).2.1] at ha
    cases ha

theorem string_of_quote (h : Lexeme k (34 :: v)) : ∃ body, v = body ++ [34] ∧ 34 ∉ body := by
  rcases h.by_first with ⟨hw, -⟩ | ⟨hd, -⟩ | ⟨-, h⟩ | h
  · exact absurd hw (by decide)
  · exact absurd hd (by decide)
  · exact h
  · exact absurd rfl (first_of_operator h).2.2

/-- A lexeme that begins otherwise, and not with a quote, is an operator. -/
theorem operator_of_other (h : Lexeme k (a :: v)) (hw : Chunk.isWordStart a = false)
    (hd : Text.isDigit a = false) (hq : a ≠ 34) : (a :: v, k) ∈ Kind.operators := by
  rcases h.by_first with ⟨hw', -⟩ | ⟨hd', -⟩ | ⟨rfl, -⟩ | h
  · rw [hw] at hw'
    cases hw'
  · rw [hd] at hd'
    cases hd'
  · exact absurd rfl hq
  · exact h

end Lexeme

end Lox
