import Lox.Proofs.Spelling

/-!
# Layout between tokens

Blanks and comments only keep tokens apart. A lexeme that stands before a blank or at the end of a
source is the longest at its place and starts no comment, whatever follows the blank
(`Token.Proper.fits`). A filler is a blank and then any blanks and comments, each with its own end, so
it is skipped whatever follows it (`Filling.scanned`). Lexemes with fillers between them are therefore
scanned as the tokens that they were taken from (`Scan.ofSource_spaced`).
-/

namespace Lox

/-- A comment that ends by itself: a line comment with its line break, or a block comment with its first
end. -/
inductive ClosedComment : Text → Prop where
  | line {body : Text} (h : 10 ∉ body) : ClosedComment (47 :: 47 :: (body ++ [10]))
  | block {body : Text} (h : ¬ [42, 47] <:+: body ++ [42]) :
    ClosedComment (47 :: 42 :: (body ++ [42, 47]))

/-- Any mix of blanks and closed comments. -/
inductive Filling : Text → Prop where
  | none : Filling []
  | blank {b : UInt8} {t : Text} (h : b ∈ text " \t\r\n\x0b") (h' : Filling t) : Filling (b :: t)
  | comment {c t : Text} (h : ClosedComment c) (h' : Filling t) : Filling (c ++ t)

/-- What may stand between two lexemes: a blank, then any mix of blanks and closed comments. -/
inductive Filler : Text → Prop where
  | mk {b : UInt8} {t : Text} (h : b ∈ text " \t\r\n\x0b") (h' : Filling t) : Filler (b :: t)

/-- The lexemes of tokens in their order, with a filler between neighbours. -/
inductive Spaced : List Token → Text → Prop where
  | none : Spaced [] []
  | one (t : Token) : Spaced [t] t.lexeme
  | more {t t' : Token} {ts : List Token} {gap rest : Text} (h : Filler gap)
    (h' : Spaced (t' :: ts) rest) : Spaced (t :: t' :: ts) (t.lexeme ++ (gap ++ rest))

/-! ## Lexemes before blanks -/

/-- A text that is empty or starts with a blank. -/
def BlankOrEnd (rest : Text) : Prop := ∀ b ∈ rest.head?, Chunk.isBlank b = true

theorem blankOrEnd_nil : BlankOrEnd [] := by
  rintro b ⟨⟩

namespace Lexeme

variable {k : Kind} {a : UInt8} {v t rest : Text}

/-- Only strings have blanks in them. -/
theorem isBlank_of_mem (h : Lexeme k (a :: v)) (ha : a ≠ 34) : ∀ b ∈ a :: v, Chunk.isBlank b = false := by
  have hdigits {ds : Text} (hds : Digits ds) : ∀ b ∈ ds, Chunk.isBlank b = false :=
    fun b hb => Chunk.isBlank_of_isDigit (hds.2 b hb)
  rcases h.by_first with ⟨hstart, htail⟩ | ⟨-, whole, fraction, hn⟩ | ⟨rfl, -⟩ | hop
  · refine List.forall_mem_cons.2 ⟨Chunk.isBlank_of_isWordStart hstart, fun b hb => ?_⟩
    have hword := htail b hb
    rw [Chunk.isWordByte, Bool.or_eq_true] at hword
    exact hword.elim Chunk.isBlank_of_isWordStart Chunk.isBlank_of_isDigit
  · generalize a :: v = t at hn ⊢
    cases hn with
    | whole hds => exact hdigits hds
    | point hds hes =>
      intro b hb
      rcases List.mem_append.1 hb with hb | hb
      · exact hdigits hds b hb
      · rcases List.mem_cons.1 hb with rfl | hb
        · decide
        · exact hdigits hes b hb
  · exact absurd rfl ha
  · have key : ∀ p ∈ Kind.operators, ∀ b ∈ p.1, Chunk.isBlank b = false := by decide +kernel
    exact key _ hop

/-- No lexeme goes on over a blank, unless it is a string that starts earlier. -/
theorem noLonger (h : Lexeme k t) (hrest : BlankOrEnd rest) : NoLongerLexeme t.length (t ++ rest) := by
  obtain ⟨a, v, rfl⟩ := List.exists_cons_of_ne_nil h.ne_nil
  by_cases ha : a = 34
  · subst ha
    obtain ⟨body, rfl, hbody⟩ := h.string_of_quote
    have hfits : Chunk.Fits ⟨.lexeme .string, 34 :: (body ++ [34])⟩ rest := Chunk.fits_string hbody
    cases hfits with
    | lexeme _ longest => exact longest
  intro k' w hw hprefix
  by_contra hlong
  -- A longer lexeme would go on with the blank, but it starts like this one and so is no string.
  obtain ⟨s, rfl⟩ : a :: v <+: w :=
    List.prefix_of_prefix_length_le (List.prefix_append _ rest) hprefix (by omega)
  have hs : s <+: rest := (List.prefix_append_right_inj _).1 hprefix
  cases s with
  | nil => exact hlong (by simp)
  | cons b s =>
    obtain ⟨after, rfl⟩ := hs
    have hblank : Chunk.isBlank b = true := hrest b rfl
    rw [isBlank_of_mem hw ha b (by simp)] at hblank
    cases hblank

/-- A lexeme and a blank start no comment. -/
theorem not_startsComment (h : Lexeme k t) (hrest : BlankOrEnd rest) : ¬ StartsComment (t ++ rest) := by
  obtain ⟨a, v, rfl⟩ := List.exists_cons_of_ne_nil h.ne_nil
  by_cases ha : a = 47
  · subst ha
    have key : ∀ p ∈ Kind.operators, p.1.head? = some 47 → p.1.tail = [] := by decide +kernel
    obtain rfl : v = [] := key _ (h.operator_of_other (by decide) (by decide) (by decide)) rfl
    rintro (⟨after, hafter⟩ | ⟨after, hafter⟩) <;> obtain rfl := (List.cons.inj hafter).2
    · exact absurd (hrest 47 rfl) (by decide)
    · exact absurd (hrest 42 rfl) (by decide)
  · exact Chunk.not_startsComment ha

end Lexeme

namespace Token.Proper

variable {t : Token} {rest : Text}

/-- The number of a proper token is not too large. -/
theorem not_tooLarge (h : t.Proper) {whole fraction : Text} (hn : Numeral whole fraction t.lexeme) :
    ¬ TooLarge whole fraction := by
  have hkind : t.kind = .number := h.written.kind_eq.trans (Lexeme.number hn).kind_eq.symm
  have hcarries := h.carries
  rw [hkind] at hcarries
  generalize t.lexeme = w at hn hcarries
  generalize t.literal = value at hcarries
  rw [← hn.nearest?_eq_none_iff]
  cases hcarries with
  | number hn' hx =>
    rw [hn'.value, hx]
    exact Option.some_ne_none _
  | other _ _ hne => exact absurd rfl hne

/-- A token of a scan can stand before any blank and at the end of a source. -/
theorem fits (h : t.Proper) (hrest : BlankOrEnd rest) : Chunk.Fits ⟨.lexeme t.kind, t.lexeme⟩ rest :=
  .lexeme h.written (h.written.noLonger hrest) (h.written.not_startsComment hrest)
    fun _ _ hn => h.not_tooLarge hn

/-- The lexeme of a token of a scan is scanned as this token alone. -/
theorem scanned (h : t.Proper) (before : Text) :
    Scanned before t.lexeme [.token { t with line := lineAfter (before ++ t.lexeme) }] := by
  have hscanned := Scanned.token (h.fits blankOrEnd_nil) h.carries (.done (before ++ t.lexeme))
  rwa [List.append_nil] at hscanned

end Token.Proper

/-! ## Fillers -/

theorem Filler.blankOrEnd {gap : Text} (h : Filler gap) (rest : Text) : BlankOrEnd (gap ++ rest) := by
  cases h with
  | mk hb => rintro b ⟨⟩; exact Chunk.isBlank_iff.2 hb

section Skipped

variable {before gap rest : Text} {fs : List Finding}

/-- A closed comment is skipped before any rest. -/
theorem ClosedComment.scanned (h : ClosedComment gap) (hs : Scanned (before ++ gap) rest fs) :
    Scanned before (gap ++ rest) fs := by
  cases h with
  | @line body hbody =>
    -- The line break is a blank of its own.
    have hbreak : Scanned (before ++ 47 :: 47 :: body) ([10] ++ rest) fs :=
      .skip (.blank (by decide)) (by simp) (by simpa using hs)
    have hcomment : Scanned before (47 :: 47 :: body ++ ([10] ++ rest)) fs :=
      .skip (.lineComment hbody (.inr rfl)) (by simp) hbreak
    simpa using hcomment
  | block hbody => exact .skip (.blockComment hbody) (by simp) hs

/-- Blanks and closed comments are skipped before any rest. -/
theorem Filling.scanned (h : Filling gap) (hs : Scanned (before ++ gap) rest fs) :
    Scanned before (gap ++ rest) fs := by
  induction h generalizing before with
  | none => simpa using hs
  | @blank b t hb _ ih =>
    have hrest : Scanned (before ++ [b]) (t ++ rest) fs := ih (by simpa using hs)
    have hblank : Scanned before ([b] ++ (t ++ rest)) fs := .skip (.blank hb) (by simp) hrest
    exact hblank
  | comment hc _ ih =>
    rw [List.append_assoc]
    exact hc.scanned (ih (by simpa using hs))

theorem Filler.scanned (h : Filler gap) (hs : Scanned (before ++ gap) rest fs) :
    Scanned before (gap ++ rest) fs := by
  cases h with
  | mk hb h => exact (Filling.blank hb h).scanned hs

end Skipped

/-! ## Spaced lexemes -/

/-- Spaced lexemes of tokens are scanned as these tokens, on other lines. -/
theorem Spaced.exists_scanned {ts : List Token} {source : Text} (h : Spaced ts source)
    (hp : ∀ t ∈ ts, t.Proper) (before : Text) :
    ∃ ts' : List Token, Scanned before source (ts'.map .token) ∧ ts'.map Token.bare = ts.map Token.bare := by
  induction h generalizing before with
  | none => exact ⟨[], .done before, rfl⟩
  | one t =>
    have ht := hp t (by simp)
    exact ⟨[{ t with line := lineAfter (before ++ t.lexeme) }], ht.scanned before, rfl⟩
  | @more t t' ts gap rest hgap _ ih =>
    have ht := hp t (by simp)
    obtain ⟨ts', hrest, hbare⟩ := ih (fun u hu => hp u (by simp [hu])) (before ++ t.lexeme ++ gap)
    refine ⟨{ t with line := lineAfter (before ++ t.lexeme) } :: ts',
      .token (ht.fits (hgap.blankOrEnd rest)) ht.carries (hgap.scanned hrest), ?_⟩
    rw [List.map_cons, hbare]
    rfl

/-- The findings of a scan are those that the lexical grammar gives. -/
theorem Scanned.findings_eq {source : Text} {fs : List Finding} (h : Scanned [] source fs) :
    (Scan.ofSource source).findings = fs := by
  obtain ⟨chunks, hsplits, hfs⟩ := h.exists_splits
  rw [Scan.ofSource, Chunk.ofSource_eq_of_splits hsplits]
  exact hfs

namespace Scan

theorem of_findings_tokens {s : Scan} {ts : List Token} (h : s.findings = ts.map .token) :
    s.errors = [] ∧ s.tokens = ts := by
  rw [errors, tokens, h]
  refine ⟨by simp, ?_⟩
  rw [List.filterMap_map]
  exact List.filterMap_some

/-- Layout carries no meaning. The lexemes of the tokens of a source, with any fillers between neighbours,
are scanned without an error, as tokens of the same kinds, lexemes and values. -/
theorem ofSource_spaced {source again : Text} (h : Spaced (ofSource source).tokens again) :
    (ofSource again).errors = [] ∧
      (ofSource again).tokens.map Token.bare = (ofSource source).tokens.map Token.bare := by
  obtain ⟨ts, hscanned, hbare⟩ := h.exists_scanned (proper source) []
  obtain ⟨herrors, htokens⟩ := of_findings_tokens hscanned.findings_eq
  exact ⟨herrors, by rw [htokens, hbare]⟩

/-- Slashes, equals signs and the dot after a numeral, which would merge without a filler between them, and
a string with a line break. -/
theorem ofSource_spaced_slashes :
    let source := text "/ /= =1.x\"\n\""
    let again := text "/ /**//\x0b//*\n=\r=\t1 . x /*/ */\"\n\""
    Spaced (ofSource source).tokens again ∧ (ofSource again).errors = [] ∧
      (ofSource again).tokens.map Token.bare = (ofSource source).tokens.map Token.bare := by
  intro source again
  have htokens : (ofSource source).tokens = [
      ⟨.slash, text "/", none, 1⟩, ⟨.slash, text "/", none, 1⟩, ⟨.equal, text "=", none, 1⟩,
      ⟨.equal, text "=", none, 1⟩, ⟨.number, text "1", some (.number ⟨0x3FF0000000000000⟩), 1⟩,
      ⟨.dot, text ".", none, 1⟩, ⟨.identifier, text "x", none, 1⟩,
      ⟨.string, text "\"\n\"", some (.string [10]), 2⟩] := by
    decide +kernel
  have hspaced : Spaced (ofSource source).tokens again := by
    rw [htokens]
    have hblank (b : UInt8) (h : b ∈ text " \t\r\n\x0b") : Filler [b] := .mk h .none
    have hblock : Filler (32 :: (47 :: 42 :: ([] ++ [42, 47]) ++ [])) :=
      .mk (by decide) (.comment (.block (by decide)) .none)
    have hline : Filler (11 :: (47 :: 47 :: ([42] ++ [10]) ++ [])) :=
      .mk (by decide) (.comment (.line (by decide)) .none)
    have hblock' : Filler (32 :: (47 :: 42 :: ([47, 32] ++ [42, 47]) ++ [])) :=
      .mk (by decide) (.comment (.block (by decide)) .none)
    exact .more hblock (.more hline (.more (hblank 13 (by decide)) (.more (hblank 9 (by decide))
      (.more (hblank 32 (by decide)) (.more (hblank 32 (by decide)) (.more hblock' (.one _)))))))
  exact ⟨hspaced, ofSource_spaced hspaced⟩

end Scan

end Lox
