import Lox.Proofs.LexicalGrammar

/-!
# The chunks of a source

`Chunk.ofSource_eq_iff` is the main result: the chunks of a source are its one and only split by the
lexical grammar. Both directions go through `Chunk.classify`, which looks at the first byte of what
is left: the chunk that it cuts off fits (`classify_fits`), and a chunk that fits is the one that it
cuts off (`Fits.classify_eq`).
-/

namespace Lox

/-! ## Runs of bytes

The scanner takes the longest run of bytes of a class. -/

section Runs

variable {p : UInt8 → Bool} {v r : Text}

/-- A run at the front of a text is no longer than the longest one. -/
theorem length_le_takeWhile (h : v <+: r) (hv : ∀ c ∈ v, p c = true) : v.length ≤ (r.takeWhile p).length := by
  obtain ⟨rest, rfl⟩ := h
  rw [List.takeWhile_append_of_pos hv, List.length_append]
  omega

/-- A run is the longest one if what follows it does not belong to the class. -/
theorem takeWhile_append_of_stop (hv : ∀ c ∈ v, p c = true) (hr : ∀ b ∈ r.head?, p b = false) :
    (v ++ r).takeWhile p = v := by
  rw [List.takeWhile_append_of_pos hv]
  cases r with
  | nil => simp
  | cons b r => rw [List.takeWhile_cons_of_neg (by simp [hr b rfl]), List.append_nil]

/-- Every text is its longest run and a rest that does not go on with it. -/
theorem exists_run (p : UInt8 → Bool) (r : Text) :
    ∃ v rest, r = v ++ rest ∧ (∀ c ∈ v, p c = true) ∧ ∀ b ∈ rest.head?, p b = false := by
  refine ⟨r.takeWhile p, r.dropWhile p, List.takeWhile_append_dropWhile.symm,
    fun c hc => List.mem_takeWhile_imp hc, fun b hb => ?_⟩
  have h := List.head?_dropWhile_not p r
  rw [Option.mem_def.1 hb] at h
  simpa using h

/-- What is left after the longest run. -/
theorem dropWhile_append_of_stop (hv : ∀ c ∈ v, p c = true) (hr : ∀ b ∈ r.head?, p b = false) :
    (v ++ r).dropWhile p = r := by
  rw [List.dropWhile_append_of_pos hv]
  cases r with
  | nil => simp
  | cons b r => rw [List.dropWhile_cons_of_neg (by simp [hr b rfl])]

end Runs

namespace Chunk

variable {rest v body : Text} {a : UInt8}

/-- A numeral without a fraction goes on as far as there are digits. -/
theorem numeralRest_whole {ds : Text} (hds : ∀ b ∈ ds, Text.isDigit b = true)
    (hrest : ∀ b ∈ rest.head?, Text.isDigit b = false)
    (hpoint : ∀ b after, rest = 46 :: b :: after → Text.isDigit b = false) :
    numeralRest (ds ++ rest) = ds.length := by
  unfold numeralRest
  rw [takeWhile_append_of_stop hds hrest, dropWhile_append_of_stop hds hrest]
  dsimp only
  split
  · next after =>
    cases after with
    | nil => rfl
    | cons b after =>
      rw [List.takeWhile_cons_of_neg (by simp [hpoint b after rfl])]
      rfl
  · rfl

/-- A numeral goes on over a point and the digits after it. -/
theorem numeralRest_point {ds es : Text} (hds : ∀ b ∈ ds, Text.isDigit b = true) (hes : Digits es)
    (hrest : ∀ b ∈ rest.head?, Text.isDigit b = false) :
    numeralRest (ds ++ 46 :: (es ++ rest)) = ds.length + 1 + es.length := by
  have hp : ∀ b ∈ (46 :: (es ++ rest)).head?, Text.isDigit b = false := by
    rintro b ⟨⟩
    decide
  unfold numeralRest
  rw [takeWhile_append_of_stop hds hp, dropWhile_append_of_stop hds hp]
  simp [takeWhile_append_of_stop hes.2 hrest, hes.1]

/-- What follows the first digit of a numeral, with the two ways in which it can go on. -/
theorem numeral_split (r : Text) :
    (∃ ds rest, r = ds ++ rest ∧ (∀ b ∈ ds, Text.isDigit b = true) ∧
      (∀ b ∈ rest.head?, Text.isDigit b = false) ∧
      ∀ b after, rest = 46 :: b :: after → Text.isDigit b = false) ∨
    ∃ ds es rest, r = ds ++ 46 :: (es ++ rest) ∧ (∀ b ∈ ds, Text.isDigit b = true) ∧ Digits es ∧
      ∀ b ∈ rest.head?, Text.isDigit b = false := by
  obtain ⟨ds, rest, rfl, hds, hrest⟩ := exists_run Text.isDigit r
  by_cases h : ∃ b after, rest = 46 :: b :: after ∧ Text.isDigit b = true
  · obtain ⟨b, after, rfl, hb⟩ := h
    obtain ⟨es, rest, hes, hes', hrest'⟩ := exists_run Text.isDigit (b :: after)
    refine .inr ⟨ds, es, rest, by rw [hes], hds, ⟨?_, hes'⟩, hrest'⟩
    rintro rfl
    rw [← List.nil_append rest, ← hes] at hrest'
    rw [hrest' b rfl] at hb
    cases hb
  · refine .inl ⟨ds, rest, rfl, hds, hrest, fun b after hp => ?_⟩
    by_contra hb
    exact h ⟨b, after, hp, by simpa using hb⟩

/-- The bytes that `numeralRest` counts complete a numeral. -/
theorem numeral_take_numeralRest (ha : Text.isDigit a = true) (r : Text) :
    numeralRest r ≤ r.length ∧ ∃ whole fraction, Numeral whole fraction (a :: r.take (numeralRest r)) := by
  have hwhole {ds : Text} (hds : ∀ b ∈ ds, Text.isDigit b = true) : Digits (a :: ds) :=
    ⟨by simp, by simpa [ha] using hds⟩
  rcases numeral_split r with ⟨ds, rest, rfl, hds, hrest, hp⟩ | ⟨ds, es, rest, rfl, hds, hes, hrest⟩
  · rw [numeralRest_whole hds hrest hp, List.take_left]
    exact ⟨by simp, _, _, .whole (hwhole hds)⟩
  · have hlength : ds.length + 1 + es.length = (ds ++ 46 :: es).length := by simp; omega
    have hassoc : ds ++ 46 :: (es ++ rest) = (ds ++ 46 :: es) ++ rest := by simp
    rw [numeralRest_point hds hes hrest, hlength, hassoc, List.take_left]
    exact ⟨by simp, _, _, .point (hwhole hds) hes⟩

/-- No numeral at the front of a text is longer than that. -/
theorem numeral_length_le {r whole fraction : Text} (h : Numeral whole fraction (a :: v)) (hv : v <+: r) :
    v.length ≤ numeralRest r := by
  generalize ht : a :: v = t at h
  cases h with
  | whole h =>
    subst ht
    have hrun := length_le_takeWhile hv fun b hb => h.2 b (by simp [hb])
    refine Nat.le_trans hrun ?_
    unfold numeralRest
    dsimp only
    split
    · split_ifs <;> omega
    · omega
  | point h h' =>
    obtain ⟨b, ds, rfl⟩ := List.exists_cons_of_ne_nil h.1
    rw [List.cons_append] at ht
    obtain ⟨rfl, rfl⟩ := List.cons.inj ht
    obtain ⟨more, rfl⟩ := hv
    obtain ⟨es', rest, rfl, hes', hrest⟩ := exists_run Text.isDigit more
    have hassoc : ds ++ 46 :: fraction ++ (es' ++ rest) = ds ++ 46 :: ((fraction ++ es') ++ rest) := by simp
    have hlong : Digits (fraction ++ es') := by
      refine ⟨by simp [h'.1], fun b hb => ?_⟩
      rcases List.mem_append.1 hb with hb | hb
      · exact h'.2 b hb
      · exact hes' b hb
    rw [hassoc, numeralRest_point (fun b hb => h.2 b (by simp [hb])) hlong hrest]
    simp only [List.length_append, List.length_cons]
    omega

/-- The bytes up to the first end of a block comment, or all of them if there is none. -/
theorem commentRest_cases (t : Text) :
    (∃ body rest, t = body ++ [42, 47] ++ rest ∧ ¬ [42, 47] <:+: body ++ [42] ∧
      commentRest t = body.length + 2) ∨ (¬ [42, 47] <:+: t ∧ commentRest t = t.length) := by
  fun_induction commentRest t with
  | case1 => exact .inr ⟨by simp, rfl⟩
  | case2 rest => exact .inl ⟨[], rest, rfl, by decide, rfl⟩
  | case3 b rest hne ih =>
    have hfirst : ¬ [42, 47] <+: b :: rest := by
      rintro ⟨after, hafter⟩
      obtain ⟨rfl, rfl⟩ := List.cons.inj hafter
      exact hne _ rfl rfl
    rcases ih with ⟨body, after, rfl, hbody, hlen⟩ | ⟨hnone, hlen⟩
    · refine .inl ⟨b :: body, after, rfl, ?_, by rw [hlen]; simp⟩
      rw [List.cons_append, List.infix_cons_iff]
      rintro (h | h)
      · exact hfirst (h.trans ⟨47 :: after, by simp⟩)
      · exact hbody h
    · refine .inr ⟨?_, by rw [hlen]; rfl⟩
      rw [List.infix_cons_iff]
      rintro (h | h)
      · exact hfirst h
      · exact hnone h

/-! ## Classification by the first byte -/

section Classify

variable {a : UInt8} {r : Text}

theorem isBlank_iff : isBlank a = true ↔ a ∈ text " \t\r\n\x0b" := by
  have key : text " \t\r\n\x0b" = [32, 9, 13, 10, 11] := by decide
  rw [key]
  simp [isBlank, or_assoc]

theorem isBlank_of_isWordStart (h : isWordStart a = true) : isBlank a = false := by
  by_contra hb
  rw [Bool.not_eq_false, isBlank_iff] at hb
  have key : ∀ b ∈ text " \t\r\n\x0b", isWordStart b = false := by decide +kernel
  rw [key a hb] at h
  cases h

theorem isBlank_of_isDigit (h : Text.isDigit a = true) : isBlank a = false := by
  by_contra hb
  rw [Bool.not_eq_false, isBlank_iff] at hb
  have key : ∀ b ∈ text " \t\r\n\x0b", Text.isDigit b = false := by decide +kernel
  rw [key a hb] at h
  cases h

theorem isWordStart_of_isDigit (h : Text.isDigit a = true) : isWordStart a = false := by
  by_contra hw
  rw [Bool.not_eq_false] at hw
  rw [Lexeme.isDigit_of_isWordStart hw] at h
  cases h

theorem classify_blank (h : isBlank a = true) : classify a r = (.blank, 0) := by
  unfold classify
  rw [if_pos h]

theorem classify_word (h : isWordStart a = true) :
    classify a r = (.lexeme (.ofWord (a :: r.takeWhile isWordByte)), (r.takeWhile isWordByte).length) := by
  unfold classify
  rw [if_neg (by simp [isBlank_of_isWordStart h]), if_pos h]

theorem classify_number (h : Text.isDigit a = true) {x : Number}
    (hx : (numeralValue (a :: r.take (numeralRest r))).nearest? = some x) :
    classify a r = (.lexeme .number, numeralRest r) := by
  unfold classify
  rw [if_neg (by simp [isBlank_of_isDigit h]), if_neg (by simp [isWordStart_of_isDigit h]), if_pos h]
  simp only [hx]

theorem classify_tooLarge (h : Text.isDigit a = true)
    (hx : (numeralValue (a :: r.take (numeralRest r))).nearest? = none) :
    classify a r = (.flaw .invalidNumber, numeralRest r) := by
  unfold classify
  rw [if_neg (by simp [isBlank_of_isDigit h]), if_neg (by simp [isWordStart_of_isDigit h]), if_pos h]
  simp only [hx]

end Classify

/-! ## The chunk at the front of a source fits -/

section Front

variable {a : UInt8} {r : Text}

/-- To bound the lexemes at the front, look at those that start with the first byte. -/
theorem noLongerLexeme_cons {n : Nat}
    (h : ∀ (k : Kind) (v : Text), Lexeme k (a :: v) → v <+: r → v.length ≤ n) :
    NoLongerLexeme (n + 1) (a :: r) := by
  intro k w hw hprefix
  obtain ⟨b, v, rfl⟩ := List.exists_cons_of_ne_nil hw.ne_nil
  rw [List.cons_prefix_cons] at hprefix
  obtain ⟨rfl, hprefix⟩ := hprefix
  exact Nat.succ_le_succ (h k v hw hprefix)

theorem not_startsComment (h : a ≠ 47) : ¬ StartsComment (a :: r) := by
  rintro (⟨_, h'⟩ | ⟨_, h'⟩)
  · exact h (List.cons.inj h').1.symm
  · exact h (List.cons.inj h').1.symm

theorem not_numeral (h : Text.isDigit a = false) {whole fraction : Text} :
    ¬ Numeral whole fraction (a :: r) := by
  intro hn
  obtain ⟨b, v, hb, hd⟩ := hn.exists_cons
  rw [(List.cons.inj hb).1, hd] at h
  cases h

/-- An operator of one character fits unless an equals sign makes it one of two. -/
theorem fits_operator {k : Kind} (h : ([a], k) ∈ Kind.operators) (hc : ¬ StartsComment (a :: r))
    (hr : r.head? = some 61 → ∀ p ∈ Kind.operators, p.1 ≠ [a, 61]) : Fits ⟨.lexeme k, [a]⟩ r := by
  obtain ⟨hw, hd, hq⟩ := Lexeme.first_of_operator h
  refine .lexeme (.operator h) (noLongerLexeme_cons fun k' v hv hprefix => ?_) hc
    fun _ _ hn => (not_numeral hd hn).elim
  have hop := hv.operator_of_other hw hd hq
  have key : ∀ p ∈ Kind.operators, p.1.tail = [] ∨ p.1.tail = [61] := by decide
  rcases key _ hop with hv | hv
  · rw [show v = [] from hv]
  · obtain rfl : v = [61] := hv
    obtain ⟨s, rfl⟩ := hprefix
    exact absurd rfl (hr rfl _ hop)

/-- An operator that ends in an equals sign is a chunk. -/
theorem fits_operator_equal {k : Kind} (h : ([a, 61], k) ∈ Kind.operators) : Fits ⟨.lexeme k, [a, 61]⟩ r := by
  obtain ⟨hw, hd, hq⟩ := Lexeme.first_of_operator h
  have hslash : a ≠ 47 := by
    have key : ∀ p ∈ Kind.operators, p.1.tail = [61] → p.1.head? ≠ some 47 := by decide
    exact fun ha => key _ h rfl (by rw [ha]; rfl)
  refine .lexeme (.operator h) (noLongerLexeme_cons fun k' v hv hprefix => ?_)
    (not_startsComment hslash) fun _ _ hn => (not_numeral hd hn).elim
  have key : ∀ p ∈ Kind.operators, p.1.length ≤ 2 := by decide
  have hle := key _ (hv.operator_of_other hw hd hq)
  simpa using hle

/-- A word goes on as far as there are bytes of words. -/
theorem fits_word (ha : isWordStart a = true) :
    Fits ⟨.lexeme (.ofWord (a :: r.takeWhile isWordByte)), a :: r.takeWhile isWordByte⟩
      (r.dropWhile isWordByte) := by
  have hd := Lexeme.isDigit_of_isWordStart ha
  have hslash : a ≠ 47 := by
    rintro rfl
    exact absurd ha (by decide)
  refine .lexeme (Word.mk ha fun c hc => List.mem_takeWhile_imp hc).lexeme ?_ ?_
    fun _ _ hn => (not_numeral hd hn).elim
  · rw [List.cons_append, List.takeWhile_append_dropWhile]
    exact noLongerLexeme_cons fun k v hv hprefix =>
      length_le_takeWhile hprefix (hv.tail_of_isWordStart ha)
  · exact not_startsComment hslash

/-- No lexeme is longer than the longest numeral at the front. -/
theorem noLongerLexeme_numeral (ha : Text.isDigit a = true) :
    NoLongerLexeme (a :: r.take (numeralRest r)).length
      (a :: r.take (numeralRest r) ++ r.drop (numeralRest r)) := by
  rw [List.cons_append, List.take_append_drop, List.length_cons, List.length_take,
    Nat.min_eq_left (numeral_take_numeralRest ha r).1]
  refine noLongerLexeme_cons fun k v hv hprefix => ?_
  obtain ⟨_, _, hv⟩ := hv.numeral_of_isDigit ha
  exact numeral_length_le hv hprefix

/-- The longest numeral at the front fits as a number if it has a nearest double. -/
theorem fits_number (ha : Text.isDigit a = true) {x : Number}
    (hx : (numeralValue (a :: r.take (numeralRest r))).nearest? = some x) :
    Fits ⟨.lexeme .number, a :: r.take (numeralRest r)⟩ (r.drop (numeralRest r)) := by
  obtain ⟨-, whole, fraction, hn⟩ := numeral_take_numeralRest ha r
  have hslash : a ≠ 47 := by
    rintro rfl
    exact absurd ha (by decide)
  refine .lexeme (.number hn) (noLongerLexeme_numeral ha) (not_startsComment hslash)
    fun w f hn' hlarge => ?_
  rw [hn'.nearest?_eq_none_iff.2 hlarge] at hx
  cases hx

/-- The longest numeral at the front fits as a flaw if it has no nearest double. -/
theorem fits_tooLarge (ha : Text.isDigit a = true)
    (hx : (numeralValue (a :: r.take (numeralRest r))).nearest? = none) :
    Fits ⟨.flaw .invalidNumber, a :: r.take (numeralRest r)⟩ (r.drop (numeralRest r)) := by
  obtain ⟨-, whole, fraction, hn⟩ := numeral_take_numeralRest ha r
  exact .tooLarge hn (noLongerLexeme_numeral ha) (hn.nearest?_eq_none_iff.1 hx)

/-- A string goes on to the next quote. -/
theorem fits_string {body rest : Text} (h : 34 ∉ body) :
    Fits ⟨.lexeme .string, 34 :: (body ++ [34])⟩ rest := by
  refine .lexeme (.string h) (noLongerLexeme_cons fun k v hv hprefix => ?_)
    (not_startsComment (by decide)) fun _ _ hn => (not_numeral (by decide) hn).elim
  obtain ⟨body', rfl, h'⟩ := hv.string_of_quote
  -- The first closing quote is the same for both.
  have hne (t : Text) (ht : 34 ∉ t) : ∀ c ∈ t, (c != 34) = true := by
    intro c hc
    simpa using fun hc' : c = 34 => ht (hc' ▸ hc)
  have hstop (t : Text) : ∀ b ∈ (34 :: t).head?, (b != 34) = false := by
    rintro b ⟨⟩
    rfl
  obtain ⟨more, hmore⟩ := hprefix
  have hmore : body' ++ [34] ++ more = body ++ [34] ++ rest := hmore
  have htake := congrArg (List.takeWhile (· != 34)) hmore
  simp only [List.append_assoc, List.cons_append, List.nil_append] at htake
  rw [takeWhile_append_of_stop (hne _ h') (hstop _), takeWhile_append_of_stop (hne _ h) (hstop _)] at htake
  rw [htake]

/-- A line comment goes on to the end of the line. -/
theorem fits_lineComment (comment : Text) :
    Fits ⟨.lineComment, 47 :: 47 :: comment.takeWhile (· != Text.newline)⟩
      (comment.dropWhile (· != Text.newline)) := by
  refine .lineComment (fun h => ?_) ?_
  · exact absurd (List.mem_takeWhile_imp h) (by decide)
  · cases hd : comment.dropWhile (· != Text.newline) with
    | nil => exact .inl rfl
    | cons b after =>
      have h := List.head?_dropWhile_not (· != Text.newline) comment
      rw [hd] at h
      right
      simpa [Text.newline] using h

/-- A block comment goes on to its end, or to the end of the text. -/
theorem fits_blockComment (comment : Text) :
    Fits ⟨.blockComment, 47 :: 42 :: comment.take (commentRest comment)⟩
      (comment.drop (commentRest comment)) := by
  rcases commentRest_cases comment with ⟨body, rest, hsplit, h, hlen⟩ | ⟨h, hlen⟩
  · have hlen' : body.length + 2 = (body ++ [42, 47]).length := by simp
    rw [hlen, hlen', hsplit, List.take_left, List.drop_left]
    exact .blockComment h
  · rw [hlen, List.take_length, List.drop_length]
    exact .openComment h

/-- A character with which no token starts is a chunk of its own. -/
theorem fits_unexpected (hblank : isBlank a = false) (hw : isWordStart a = false)
    (hd : Text.isDigit a = false) (hq : a ≠ 34) (hop : ∀ p ∈ Kind.operators, p.1.head? ≠ some a) :
    Fits ⟨.flaw .unexpectedCharacter, a :: r.take (Text.width (a :: r) - 1)⟩
      (r.drop (Text.width (a :: r) - 1)) := by
  have hpiece := Text.firstPiece_width a r
  have hwidth : Text.width (a :: r) = Text.width (a :: r) - 1 + 1 := by
    have := Text.width_pos (a :: r)
    omega
  rw [hwidth, List.take_succ_cons, List.drop_succ_cons] at hpiece
  refine .unexpected hpiece (fun k w hlex hprefix => ?_) fun b hb hprefix => ?_
  · rw [List.cons_append, List.take_append_drop] at hprefix
    obtain ⟨b, v, rfl⟩ := List.exists_cons_of_ne_nil hlex.ne_nil
    obtain rfl := (List.cons_prefix_cons.1 hprefix).1
    exact absurd rfl (hop _ (hlex.operator_of_other hw hd hq))
  · rw [List.cons_append] at hprefix
    obtain rfl := (List.cons_prefix_cons.1 hprefix).1
    have key : ∀ b ∈ text " \t\r\n\x0b\"", isBlank b = true ∨ b = 34 := by decide +kernel
    rcases key b hb with h | h
    · rw [hblank] at h
      cases h
    · exact hq h

/-- An operator that an equals sign may join fits in either form. -/
theorem fits_withEqual {alone joined : Kind} (h : ([a], alone) ∈ Kind.operators)
    (h' : ([a, 61], joined) ∈ Kind.operators) (hslash : a ≠ 47) :
    Fits ⟨(withEqual r alone joined).1, a :: r.take (withEqual r alone joined).2⟩
      (r.drop (withEqual r alone joined).2) := by
  unfold withEqual
  split
  · exact fits_operator_equal h'
  · next hr =>
    refine fits_operator h (not_startsComment hslash) fun hhead => ?_
    cases r with
    | nil => cases hhead
    | cons b s =>
      obtain rfl : b = 61 := by simpa using hhead
      exact absurd rfl (hr s)

/-- The chunk at the front of a source fits. -/
theorem classify_fits (a : UInt8) (r : Text) :
    Fits ⟨(classify a r).1, a :: r.take (classify a r).2⟩ (r.drop (classify a r).2) := by
  have htake {p : UInt8 → Bool} (t : Text) : t.take (t.takeWhile p).length = t.takeWhile p :=
    (List.prefix_iff_eq_take.1 (List.takeWhile_prefix p)).symm
  have hdrop {p : UInt8 → Bool} (t : Text) : t.drop (t.takeWhile p).length = t.dropWhile p := by
    obtain ⟨v, rest, rfl, hv, hrest⟩ := exists_run p t
    rw [takeWhile_append_of_stop hv hrest, dropWhile_append_of_stop hv hrest, List.drop_left]
  by_cases hblank : isBlank a = true
  · rw [classify_blank hblank]
    exact .blank (isBlank_iff.1 hblank)
  by_cases hw : isWordStart a = true
  · rw [classify_word hw, htake, hdrop]
    exact fits_word hw
  by_cases hd : Text.isDigit a = true
  · cases hx : (numeralValue (a :: r.take (numeralRest r))).nearest? with
    | some x =>
      rw [classify_number hd hx]
      exact fits_number hd hx
    | none =>
      rw [classify_tooLarge hd hx]
      exact fits_tooLarge hd hx
  unfold classify
  rw [if_neg hblank, if_neg hw, if_neg hd]
  rw [Bool.not_eq_true] at hblank hw hd
  split
  case h_13 => exact fits_withEqual (by decide) (by decide) (by decide)
  case h_14 => exact fits_withEqual (by decide) (by decide) (by decide)
  case h_15 => exact fits_withEqual (by decide) (by decide) (by decide)
  case h_16 => exact fits_withEqual (by decide) (by decide) (by decide)
  case h_17 =>
    split
    · next comment =>
      rw [Nat.add_comm, List.take_succ_cons, List.drop_succ_cons, htake, hdrop]
      exact fits_lineComment comment
    · next comment =>
      rw [Nat.add_comm, List.take_succ_cons, List.drop_succ_cons]
      exact fits_blockComment comment
    · next h1 h2 =>
      refine fits_operator (by decide) ?_ fun _ => by decide
      rintro (⟨s, h⟩ | ⟨s, h⟩)
      · exact h1 s (List.cons.inj h).2.symm
      · exact h2 s (List.cons.inj h).2.symm
  case h_18 =>
    dsimp only
    obtain ⟨body, rest, rfl, hbody, hrest⟩ := exists_run (· != 34) r
    have hquote : 34 ∉ body := fun h => absurd (hbody 34 h) (by decide)
    rw [takeWhile_append_of_stop hbody hrest]
    cases rest with
    | nil =>
      rw [List.append_nil, if_neg (Nat.lt_irrefl _), List.take_length, List.drop_length]
      exact .unterminated hquote
    | cons b rest =>
      obtain rfl : b = 34 := by simpa using hrest b rfl
      have hassoc : body ++ 34 :: rest = (body ++ [34]) ++ rest := by simp
      have hlen : body.length + 1 = (body ++ [34]).length := by simp
      rw [if_pos (by simp), hassoc, hlen, List.take_left, List.drop_left]
      exact fits_string hquote
  case h_19 h1 h2 h3 h4 h5 h6 h7 h8 h9 h10 h11 h12 h13 h14 h15 h16 h17 h18 =>
    refine fits_unexpected hblank hw hd h18 ?_
    have key : ∀ p ∈ Kind.operators, ∀ b ∈ p.1.head?,
        b ∈ [40, 41, 123, 125, 45, 43, 42, 44, 46, 59, 58, 63, 33, 61, 60, 62, 47] := by decide +kernel
    intro p hp hhead
    have hmem := key p hp a hhead
    simp only [List.mem_cons, List.not_mem_nil, or_false] at hmem
    grind
  all_goals exact fits_operator (by decide) (not_startsComment (by decide)) fun _ => by decide

end Front

/-! ## A chunk that fits is the one at the front -/

/-- The first end of a block comment closes it. -/
theorem commentRest_closed (rest : Text) (h : ¬ [42, 47] <:+: body ++ [42]) :
    commentRest (body ++ [42, 47] ++ rest) = body.length + 2 := by
  induction body with
  | nil => rfl
  | cons b body ih =>
    rw [List.cons_append, List.infix_cons_iff, not_or] at h
    have hfirst : ∀ after, b = 42 → body ++ [42, 47] ++ rest = 47 :: after → False := by
      rintro after rfl hafter
      refine h.1 ?_
      cases body with
      | nil => cases hafter
      | cons c body =>
        obtain rfl : c = 47 := (List.cons.inj hafter).1
        exact ⟨_, rfl⟩
    rw [List.cons_append, List.cons_append, commentRest, ih h.2, List.length_cons]
    exact hfirst

/-- A block comment without an end runs to the end of the source. -/
theorem commentRest_open (h : ¬ [42, 47] <:+: body) : commentRest body = body.length := by
  rcases commentRest_cases body with ⟨b, rest, rfl, -, -⟩ | ⟨-, hlen⟩
  · exact absurd ⟨b, rest, rfl⟩ h
  · exact hlen

/-- The longest numeral at the front is as long as `numeralRest` says. -/
theorem numeralRest_eq_of_longest {whole fraction : Text} (h : Numeral whole fraction (a :: v))
    (longest : NoLongerLexeme (a :: v).length (a :: v ++ rest)) : numeralRest (v ++ rest) = v.length := by
  obtain ⟨b, w, hb, hd⟩ := h.exists_cons
  obtain ⟨rfl, rfl⟩ := List.cons.inj hb
  have hle := numeral_length_le h (List.prefix_append v rest)
  obtain ⟨hbound, whole', fraction', hn⟩ := numeral_take_numeralRest hd (v ++ rest)
  have hge := longest _ _ (.number hn) (List.cons_prefix_cons.2 ⟨rfl, List.take_prefix ..⟩)
  rw [List.length_cons, List.length_cons, List.length_take, Nat.min_eq_left hbound] at hge
  omega

/-- The longest word at the front is as long as its run of bytes. -/
theorem takeWhile_eq_of_longest (ha : isWordStart a = true) (hv : ∀ c ∈ v, isWordByte c = true)
    (longest : NoLongerLexeme (a :: v).length (a :: v ++ rest)) : (v ++ rest).takeWhile isWordByte = v := by
  have hword : Word (a :: (v ++ rest).takeWhile isWordByte) :=
    .mk ha fun c hc => List.mem_takeWhile_imp hc
  have hge := longest _ _ hword.lexeme (List.cons_prefix_cons.2 ⟨rfl, List.takeWhile_prefix isWordByte⟩)
  rw [List.takeWhile_append_of_pos hv] at hge ⊢
  simp only [List.length_cons, List.length_append] at hge
  have hnone : rest.takeWhile isWordByte = [] := List.eq_nil_of_length_eq_zero (by omega)
  rw [hnone, List.append_nil]

/-- An operator that could be joined stands alone if it is the longest lexeme. -/
theorem withEqual_alone (alone : Kind) {joined : Kind} (h : ([a, 61], joined) ∈ Kind.operators)
    (longest : NoLongerLexeme 1 (a :: rest)) : withEqual rest alone joined = (.lexeme alone, 0) := by
  unfold withEqual
  split
  · next after =>
    have hlen : 2 ≤ 1 := longest _ _ (.operator h) ⟨after, rfl⟩
    omega
  · rfl

theorem classify_slash_eq (rest : Text) :
    classify 47 rest = match rest with
      | 47 :: comment => (.lineComment, 1 + (comment.takeWhile (· != Text.newline)).length)
      | 42 :: comment => (.blockComment, 1 + commentRest comment)
      | _ => (.lexeme .slash, 0) := rfl

/-- A slash that starts no comment stands alone. -/
theorem classify_slash (rest : Text) :
    classify 47 rest = (.lexeme .slash, 0) ∨ StartsComment (47 :: rest) := by
  rw [classify_slash_eq]
  split
  · next comment => exact .inr (.inl ⟨comment, rfl⟩)
  · next comment => exact .inr (.inr ⟨comment, rfl⟩)
  · exact .inl rfl

/-- An operator that fits is the one at the front. -/
theorem classify_operator {k : Kind} {t : Text} (h : (t, k) ∈ Kind.operators)
    (longest : NoLongerLexeme t.length (t ++ rest)) (hc : ¬ StartsComment (t ++ rest)) :
    ∃ a bs, t = a :: bs ∧ classify a (bs ++ rest) = (.lexeme k, bs.length) := by
  have table : Kind.operators =
      [([40], .leftParen), ([41], .rightParen), ([123], .leftBrace), ([125], .rightBrace),
       ([44], .comma), ([46], .dot), ([45], .minus), ([43], .plus), ([59], .semicolon), ([42], .star),
       ([63], .question), ([58], .colon), ([33, 61], .bangEqual), ([61, 61], .equalEqual),
       ([62, 61], .greaterEqual), ([60, 61], .lessEqual)] ++
      [([33], .bang), ([61], .equal), ([62], .greater), ([60], .less), ([47], .slash)] := by
    decide
  rw [table, List.mem_append] at h
  simp only [List.mem_cons, Prod.mk.injEq, List.not_mem_nil, or_false] at h
  rcases h with h | h
  · -- These do not depend on what follows.
    casesm* _ ∨ _, _ ∧ _ <;> subst t k <;> exact ⟨_, _, rfl, rfl⟩
  · rcases h with ⟨rfl, rfl⟩ | ⟨rfl, rfl⟩ | ⟨rfl, rfl⟩ | ⟨rfl, rfl⟩ | ⟨rfl, rfl⟩
    · exact ⟨_, _, rfl, withEqual_alone .bang (by decide) longest⟩
    · exact ⟨_, _, rfl, withEqual_alone .equal (by decide) longest⟩
    · exact ⟨_, _, rfl, withEqual_alone .greater (by decide) longest⟩
    · exact ⟨_, _, rfl, withEqual_alone .less (by decide) longest⟩
    · exact ⟨_, _, rfl, (classify_slash rest).resolve_right hc⟩

/-- A lexeme that fits is the one at the front. -/
theorem classify_lexeme {k : Kind} {t : Text} (h : Lexeme k t) (longest : NoLongerLexeme t.length (t ++ rest))
    (hc : ¬ StartsComment (t ++ rest))
    (small : ∀ whole fraction, Numeral whole fraction t → ¬ TooLarge whole fraction) :
    ∃ a bs, t = a :: bs ∧ classify a (bs ++ rest) = (.lexeme k, bs.length) := by
  have hword (hw : Word t) (hk : Kind.ofWord t = k) :
      ∃ a bs, t = a :: bs ∧ classify a (bs ++ rest) = (.lexeme k, bs.length) := by
    cases hw with
    | mk ha hv =>
      refine ⟨_, _, rfl, ?_⟩
      rw [classify_word ha, takeWhile_eq_of_longest ha hv longest, hk]
  cases h with
  | operator h => exact classify_operator h longest hc
  | @string body h =>
    refine ⟨34, body ++ [34], rfl, ?_⟩
    have hbody : ∀ c ∈ body, (c != 34) = true := by
      intro c hc
      simpa using fun hc' : c = 34 => h (hc' ▸ hc)
    have htake : (body ++ [34] ++ rest).takeWhile (· != 34) = body := by
      rw [List.append_assoc, takeWhile_append_of_stop hbody (by rintro b ⟨⟩; rfl)]
    have hlt : body.length < (body ++ [34] ++ rest).length := by simp
    have hclass : classify 34 (body ++ [34] ++ rest) =
        let run := (body ++ [34] ++ rest).takeWhile (· != 34)
        if run.length < (body ++ [34] ++ rest).length then (.lexeme .string, run.length + 1)
        else (.flaw .unterminatedString, (body ++ [34] ++ rest).length) := rfl
    rw [hclass, htake]
    dsimp only
    rw [if_pos hlt, List.length_append]
    rfl
  | number h =>
    obtain ⟨a, v, rfl, hd⟩ := h.exists_cons
    have hrest := numeralRest_eq_of_longest h longest
    have htake : a :: (v ++ rest).take (numeralRest (v ++ rest)) = a :: v := by
      rw [hrest, List.take_left]
    refine ⟨a, v, rfl, ?_⟩
    cases hx : (numeralValue (a :: v)).nearest? with
    | none => exact absurd (h.nearest?_eq_none_iff.1 hx) (small _ _ h)
    | some x =>
      rw [← htake] at hx
      rw [classify_number hd hx, hrest]
  | keyword h =>
    have key : ∀ p ∈ Kind.reserved, Kind.ofWord p.1 = p.2 := by decide
    exact hword (.of_reserved h) (key _ h)
  | identifier h h' =>
    refine hword h ?_
    have hnone : Kind.reserved.lookup t = none := by
      rw [List.lookup_eq_none_iff]
      rintro ⟨w, k⟩ hp
      simpa using fun hw : t = w => h' k (hw ▸ hp)
    rw [Kind.ofWord, hnone]
    rfl

/-- A character that starts no lexeme, no string and is no blank is unexpected. -/
theorem classify_unexpected {r : Text} (none : NoLongerLexeme 0 (a :: r))
    (hb : ∀ b ∈ text " \t\r\n\x0b\"", a ≠ b) :
    classify a r = (.flaw .unexpectedCharacter, Text.width (a :: r) - 1) := by
  have hnot {k : Kind} : ¬ Lexeme k [a] := fun h => by
    have hlen : 1 ≤ 0 := none _ _ h ⟨r, rfl⟩
    omega
  have hblank : ¬ isBlank a = true := by
    rw [isBlank_iff]
    have key : ∀ b ∈ text " \t\r\n\x0b", b ∈ text " \t\r\n\x0b\"" := by decide +kernel
    exact fun h => hb a (key a h) rfl
  have hw : ¬ isWordStart a = true := fun h => hnot (Word.mk h (by simp)).lexeme
  have hd : ¬ Text.isDigit a = true := fun h => hnot (.number (.whole ⟨by simp, by simpa using h⟩))
  have hop : a ∉ [40, 41, 123, 125, 45, 43, 42, 44, 46, 59, 58, 63, 33, 61, 60, 62, 47] := by
    have key : ∀ b ∈ ([40, 41, 123, 125, 45, 43, 42, 44, 46, 59, 58, 63, 33, 61, 60, 62, 47] : Text),
        ∃ p ∈ Kind.operators, p.1 = [b] := by decide +kernel
    intro h
    obtain ⟨⟨_, k⟩, hp, rfl⟩ := key a h
    exact hnot (.operator hp)
  have hq : a ≠ 34 := hb 34 (by decide)
  simp only [List.mem_cons, List.not_mem_nil, or_false, not_or] at hop
  unfold classify
  rw [if_neg hblank, if_neg hw, if_neg hd]
  split
  case h_19 => rfl
  all_goals simp at hop hq

/-- A string without an end runs to the end of the source. -/
theorem classify_unterminated (h : 34 ∉ body) :
    classify 34 body = (.flaw .unterminatedString, body.length) := by
  have hclass : classify 34 body =
      if (body.takeWhile (· != 34)).length < body.length then
        (.lexeme .string, (body.takeWhile (· != 34)).length + 1)
      else (.flaw .unterminatedString, body.length) := rfl
  have htake : body.takeWhile (· != 34) = body := by
    rw [List.takeWhile_eq_self_iff]
    intro c hc
    simpa using fun hc' : c = 34 => h (hc' ▸ hc)
  rw [hclass, htake, if_neg (Nat.lt_irrefl _)]

/-- A line comment that fits is the chunk at the front. -/
theorem classify_lineComment (h : 10 ∉ body) (h' : rest = [] ∨ rest.head? = some 10) :
    classify 47 (47 :: (body ++ rest)) = (.lineComment, 1 + body.length) := by
  have hbody : ∀ c ∈ body, (c != Text.newline) = true := by
    intro c hc
    simpa [Text.newline] using fun hc' : c = 10 => h (hc' ▸ hc)
  have hrest : ∀ b ∈ rest.head?, (b != Text.newline) = false := by
    intro b hb
    rcases h' with rfl | h'
    · cases hb
    · rw [h'] at hb
      cases hb
      rfl
  have hclass : classify 47 (47 :: (body ++ rest)) =
      (.lineComment, 1 + ((body ++ rest).takeWhile (· != Text.newline)).length) := rfl
  rw [hclass, takeWhile_append_of_stop hbody hrest]

/-- A chunk that fits is the one at the front. -/
theorem Fits.classify_eq {c : Chunk} (h : c.Fits rest) :
    ∃ a bs, c.bytes = a :: bs ∧ classify a (bs ++ rest) = (c.label, bs.length) := by
  cases h with
  | blank h => exact ⟨_, _, rfl, classify_blank (isBlank_iff.2 h)⟩
  | @lineComment body _ h h' =>
    refine ⟨47, 47 :: body, rfl, ?_⟩
    rw [List.cons_append, classify_lineComment h h', List.length_cons, Nat.add_comm]
  | @blockComment body _ h =>
    refine ⟨47, 42 :: (body ++ [42, 47]), rfl, ?_⟩
    have hclass : classify 47 (42 :: (body ++ [42, 47] ++ rest)) =
        (.blockComment, 1 + commentRest (body ++ [42, 47] ++ rest)) := rfl
    rw [List.cons_append, hclass, commentRest_closed rest h]
    simp [Nat.add_comm]
  | @openComment body h =>
    refine ⟨47, 42 :: body, rfl, ?_⟩
    have hclass : classify 47 (42 :: body) = (.blockComment, 1 + commentRest body) := rfl
    rw [List.append_nil, hclass, commentRest_open h, List.length_cons, Nat.add_comm]
  | lexeme h longest hc small => exact classify_lexeme h longest hc small
  | @unexpected piece _ h none hb =>
    have hwidth := h.width_eq
    have hpos : 0 < piece.length := hwidth ▸ Text.width_pos (piece ++ rest)
    obtain ⟨a, bs, rfl⟩ := List.exists_cons_of_length_pos hpos
    have hclass : classify a (bs ++ rest) = _ :=
      classify_unexpected none fun b hmem hab => hb b hmem ⟨bs ++ rest, by rw [hab]; rfl⟩
    refine ⟨a, bs, rfl, ?_⟩
    rw [hclass, ← List.cons_append, hwidth]
    rfl
  | @unterminated body h =>
    refine ⟨34, body, rfl, ?_⟩
    rw [List.append_nil, classify_unterminated h]
  | tooLarge h longest large =>
    obtain ⟨a, v, rfl, hd⟩ := h.exists_cons
    have hrest := numeralRest_eq_of_longest h longest
    have hx : (numeralValue (a :: (v ++ rest).take (numeralRest (v ++ rest)))).nearest? = none := by
      rw [hrest, List.take_left, h.nearest?_eq_none_iff]
      exact large
    refine ⟨a, v, rfl, ?_⟩
    rw [classify_tooLarge hd hx, hrest]

theorem splits_ofSource (source : Text) : Splits source (ofSource source) := by
  fun_induction ofSource source with
  | case1 => exact .done
  | case2 first rest label extra hclass ih =>
    have hfits := classify_fits first rest
    rw [hclass] at hfits
    have h := Splits.chunk hfits ih
    rwa [List.cons_append, List.take_append_drop] at h

theorem ofSource_eq_of_splits {source : Text} {chunks : List Chunk} (h : Splits source chunks) :
    ofSource source = chunks := by
  induction h with
  | done => rw [ofSource]
  | @chunk c rest cs hfits _ ih =>
    obtain ⟨a, bs, hbytes, hclass⟩ := hfits.classify_eq
    rw [hbytes, List.cons_append, ofSource, hclass]
    simp only [List.take_left, List.drop_left, ih, ← hbytes]

/-- The chunks of a source are its one and only split. -/
theorem ofSource_eq_iff {source : Text} {chunks : List Chunk} :
    ofSource source = chunks ↔ Splits source chunks :=
  ⟨fun h => h ▸ splits_ofSource source, ofSource_eq_of_splits⟩

end Chunk

end Lox
