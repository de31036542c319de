import Lox.Proofs.Chunks

/-!
# What scanning finds

`Scanned before rest fs` says by the lexical grammar alone what is found in `rest` when `before`
precedes it: nothing in blanks and comments, a token in each lexeme and an error in each flaw, with
the line on which the chunk ends. `scan_eq_iff` states that a scan of a source finds exactly this.
-/

namespace Lox

/-- The value that a lexeme carries: the text between the quotes of a string, the double nearest to
a numeral, and nothing for the other kinds. -/
inductive Carries : Kind → (lexeme : Text) → Option Literal → Prop where
  | string (body : Text) : Carries .string (34 :: (body ++ [34])) (some (.string body))
  | number {whole fraction t : Text} {x : Number} (h : Numeral whole fraction t)
    (hx : (Decimal.ofDigits whole fraction).nearest? = some x) :
    Carries .number t (some (.number x))
  | other {k : Kind} (t : Text) (hs : k ≠ .string) (hn : k ≠ .number) : Carries k t none

/-- The line that is reached after a text. -/
def lineAfter (t : Text) : Nat := 1 + t.count Text.newline

/-- What is found in a text after what precedes it. -/
inductive Scanned : (before rest : Text) → List Finding → Prop where
  | done (before : Text) : Scanned before [] []
  | skip {label : Label} {before bytes rest : Text} {fs : List Finding}
    (h : Chunk.Fits ⟨label, bytes⟩ rest) (hl : label ∈ [.blank, .lineComment, .blockComment])
    (h' : Scanned (before ++ bytes) rest fs) : Scanned before (bytes ++ rest) fs
  | token {k : Kind} {before bytes rest : Text} {value : Option Literal} {fs : List Finding}
    (h : Chunk.Fits ⟨.lexeme k, bytes⟩ rest) (hv : Carries k bytes value)
    (h' : Scanned (before ++ bytes) rest fs) :
    Scanned before (bytes ++ rest) (.token ⟨k, bytes, value, lineAfter (before ++ bytes)⟩ :: fs)
  | error {e : LexicalError} {before bytes rest : Text} {fs : List Finding}
    (h : Chunk.Fits ⟨.flaw e, bytes⟩ rest) (h' : Scanned (before ++ bytes) rest fs) :
    Scanned before (bytes ++ rest) (.error (lineAfter (before ++ bytes)) e :: fs)

/-- The line advances by the breaks of a chunk. -/
theorem lineAfter_append (before : Text) (c : Chunk) :
    lineAfter (before ++ c.bytes) = lineAfter before + c.breaks := by
  simp [lineAfter, Chunk.breaks, Nat.add_assoc]

/-- A string is a body between quotes. -/
theorem Lexeme.exists_body {t : Text} (h : Lexeme .string t) : ∃ body, t = 34 :: (body ++ [34]) := by
  cases h with
  | operator h =>
    have key : ∀ p ∈ Kind.operators, p.2 ≠ .string := by decide
    exact absurd rfl (key _ h)
  | string h => exact ⟨_, rfl⟩
  | keyword h =>
    have key : ∀ p ∈ Kind.reserved, p.2 ≠ .string := by decide
    exact absurd rfl (key _ h)

/-- A lexeme of a number is a numeral. -/
theorem Lexeme.exists_numeral {t : Text} (h : Lexeme .number t) :
    ∃ whole fraction, Numeral whole fraction t := by
  cases h with
  | operator h =>
    have key : ∀ p ∈ Kind.operators, p.2 ≠ .number := by decide
    exact absurd rfl (key _ h)
  | number h => exact ⟨_, _, h⟩
  | keyword h =>
    have key : ∀ p ∈ Kind.reserved, p.2 ≠ .number := by decide
    exact absurd rfl (key _ h)

/-- The digits around the point of a numeral give its value. -/
theorem Numeral.value {whole fraction t : Text} (h : Numeral whole fraction t) :
    Chunk.numeralValue t = Decimal.ofDigits whole fraction := by
  rw [Chunk.numeralValue, h.parts.1, h.parts.2]

namespace Chunk

/-- The value that a token carries is that of its lexeme. -/
theorem literal?_of_carries {k : Kind} {t : Text} {value : Option Literal} (h : Carries k t value) :
    literal? ⟨.lexeme k, t⟩ = value := by
  cases h with
  | string body => simp [literal?]
  | number h hx =>
    have hvalue : literal? ⟨.lexeme .number, t⟩ = (numeralValue t).nearest?.map .number := rfl
    rw [hvalue, h.value, hx]
    rfl
  | other _ hs hn =>
    unfold literal?
    split
    · next h => exact absurd (Label.lexeme.inj h) hs
    · next h => exact absurd (Label.lexeme.inj h) hn
    · rfl

/-- Every lexeme of a source carries a value, if only none. -/
theorem Fits.carries {k : Kind} {t rest : Text} (h : Fits ⟨.lexeme k, t⟩ rest) :
    Carries k t (literal? ⟨.lexeme k, t⟩) := by
  cases h with
  | lexeme h _ _ small =>
    by_cases hs : k = .string
    · subst hs
      obtain ⟨body, rfl⟩ := h.exists_body
      rw [literal?_of_carries (.string body)]
      exact .string body
    by_cases hn : k = .number
    · subst hn
      obtain ⟨whole, fraction, hnum⟩ := h.exists_numeral
      cases hx : (Decimal.ofDigits whole fraction).nearest? with
      | none =>
        rw [← hnum.value, hnum.nearest?_eq_none_iff] at hx
        exact absurd hx (small _ _ hnum)
      | some x =>
        rw [literal?_of_carries (.number hnum hx)]
        exact .number hnum hx
    rw [literal?_of_carries (.other t hs hn)]
    exact .other t hs hn

end Chunk

/-- The findings of a split source are those that the lexical grammar gives. -/
theorem Splits.scanned {source : Text} {chunks : List Chunk} (h : Splits source chunks)
    (before : Text) : Scanned before source (findings (lineAfter before) chunks) := by
  induction h generalizing before with
  | done => exact .done before
  | @chunk c rest cs hfits _ ih =>
    have ih := ih (before ++ c.bytes)
    rw [lineAfter_append] at ih
    obtain ⟨label, bytes⟩ := c
    cases label with
    | blank => exact .skip hfits (by simp) ih
    | lineComment => exact .skip hfits (by simp) ih
    | blockComment => exact .skip hfits (by simp) ih
    | lexeme k =>
      have h := Scanned.token hfits hfits.carries ih
      rwa [lineAfter_append before ⟨.lexeme k, bytes⟩] at h
    | flaw e =>
      have h := Scanned.error hfits ih
      rwa [lineAfter_append before ⟨.flaw e, bytes⟩] at h

/-- What the lexical grammar gives are the findings of a split. -/
theorem Scanned.exists_splits {before rest : Text} {fs : List Finding} (h : Scanned before rest fs) :
    ∃ chunks, Splits rest chunks ∧ findings (lineAfter before) chunks = fs := by
  induction h with
  | done => exact ⟨[], .done, rfl⟩
  | @skip label before bytes rest fs hfits hl _ ih =>
    obtain ⟨cs, hsplits, hfs⟩ := ih
    refine ⟨_, .chunk hfits hsplits, ?_⟩
    rw [lineAfter_append before ⟨label, bytes⟩] at hfs
    simp only [List.mem_cons, List.not_mem_nil, or_false] at hl
    rcases hl with rfl | rfl | rfl <;> exact hfs
  | @token k before bytes rest value fs hfits hv _ ih =>
    obtain ⟨cs, hsplits, hfs⟩ := ih
    refine ⟨_, .chunk hfits hsplits, ?_⟩
    rw [lineAfter_append before ⟨.lexeme k, bytes⟩] at hfs ⊢
    rw [← hfs, ← Chunk.literal?_of_carries hv]
    rfl
  | @error e before bytes rest fs hfits _ ih =>
    obtain ⟨cs, hsplits, hfs⟩ := ih
    refine ⟨_, .chunk hfits hsplits, ?_⟩
    rw [lineAfter_append before ⟨.flaw e, bytes⟩] at hfs ⊢
    rw [← hfs]
    rfl

/-- The lines that chunks pass are those of the source that they split. -/
theorem Splits.lineAtEnd_eq {source : Text} {chunks : List Chunk} (h : Splits source chunks)
    (before : Text) : lineAtEnd (lineAfter before) chunks = lineAfter (before ++ source) := by
  induction h generalizing before with
  | done => rw [List.append_nil, lineAtEnd]
  | @chunk c rest cs _ _ ih => rw [lineAtEnd, ← lineAfter_append, ih, List.append_assoc]

theorem Scan.endLine_eq (source : Text) : (Scan.ofSource source).endLine = lineAfter source :=
  (Chunk.splits_ofSource source).lineAtEnd_eq []

/-- A scan of a source finds what the lexical grammar gives and nothing else, and ends on the line
that is reached after the whole source. -/
theorem scan_eq_iff (source : Text) (s : Scan) :
    Scan.ofSource source = s ↔ Scanned [] source s.findings ∧ s.endToken.line = lineAfter source := by
  constructor
  · rintro rfl
    exact ⟨(Chunk.splits_ofSource source).scanned [], Scan.endLine_eq source⟩
  · rintro ⟨h, hline⟩
    obtain ⟨chunks, hsplits, hfs⟩ := h.exists_splits
    obtain ⟨fs, line⟩ := s
    have hline : line = lineAfter source := hline
    have hfs : findings 1 chunks = fs := hfs
    have hend : lineAtEnd 1 chunks = lineAfter source := hsplits.lineAtEnd_eq []
    rw [Scan.ofSource, Chunk.ofSource_eq_of_splits hsplits, hfs, hend, hline]

end Lox
