import Lox.Proofs.RenamedRun
import Mathlib.Data.List.Forall2

/-!
# Writing a renamed program

A program with a renamed variable is written like the old one, with the new name in the place of the old one
in some identifiers. Since identifiers end where no letter follows, the rest of the source splits as before
(`Splits.respell`), so the tokens are the same but for these names. The grammar does not look at names:
where it derives a tree with the old name given back from some tokens, it derives the tree itself from
tokens that differ in names (`Grammar.Declarations.respell`).
-/

namespace Lox

variable {t : Text} {σ : Renaming} {k : Nat}

/-! ## Texts that differ in words -/

/-- Two texts agree up to a place where both go on with a letter, or to their end. -/
inductive Alike : Text → Text → Prop where
  | nil : Alike [] []
  | word {b b' : UInt8} (t t' : Text) (hb : Chunk.isWordStart b = true) (hb' : Chunk.isWordStart b' = true) :
    Alike (b :: t) (b' :: t')
  | cons (b : UInt8) {t t' : Text} (h : Alike t t') : Alike (b :: t) (b :: t')

namespace Alike

variable {t t' : Text}

theorem symm (h : Alike t t') : Alike t' t := by
  induction h with
  | nil => exact .nil
  | word t t' hb hb' => exact .word t' t hb' hb
  | cons b _ ih => exact .cons b ih

theorem append (h : Alike t t') (v : Text) : Alike (v ++ t) (v ++ t') := by
  induction v with
  | nil => exact h
  | cons b v ih => exact .cons b ih

/-- What one text starts with the other one does too, unless there is a letter in it. -/
theorem starts (h : Alike t t') {v : Text} (hv : ∀ b ∈ v, Chunk.isWordStart b = false) (hstarts : v <+: t) :
    v <+: t' := by
  induction h generalizing v with
  | nil => exact hstarts
  | word t t' hb hb' =>
    cases v with
    | nil => exact List.nil_prefix
    | cons c v =>
      obtain ⟨rfl, -⟩ := List.cons_prefix_cons.1 hstarts
      rw [hv c (.head _)] at hb
      cases hb
  | cons b _ ih =>
    cases v with
    | nil => exact List.nil_prefix
    | cons c v =>
      obtain ⟨rfl, hrest⟩ := List.cons_prefix_cons.1 hstarts
      exact List.cons_prefix_cons.2 ⟨rfl, ih (fun b hb => hv b (.tail _ hb)) hrest⟩

/-- A word goes on in neither text or in both. -/
theorem head_isWordByte (h : Alike t t') (ht : ∀ b ∈ t.head?, Chunk.isWordByte b = false) :
    ∀ b ∈ t'.head?, Chunk.isWordByte b = false := by
  cases h with
  | nil => exact ht
  | word _ _ hb _ =>
    have hbyte := ht _ rfl
    rw [Chunk.isWordByte, hb] at hbyte
    cases hbyte
  | cons b _ => exact ht

theorem eq_nil (h : Alike t t') (ht : t = []) : t' = [] := by
  subst ht
  cases h
  rfl

end Alike

namespace Chunk

variable {a : UInt8} {v rest rest' : Text}

/-- A word is a chunk where no byte of a word follows. -/
theorem fits_of_word {k : Kind} (h : Lexeme k (a :: v)) (ha : isWordStart a = true)
    (hrest : ∀ b ∈ rest.head?, isWordByte b = false) : Fits ⟨.lexeme k, a :: v⟩ rest := by
  have hslash : a ≠ 47 := by
    rintro rfl
    exact absurd ha (by decide)
  have hrun := takeWhile_append_of_stop (h.tail_of_isWordStart ha) hrest
  refine .lexeme h (noLongerLexeme_cons fun k' w hw (hstarts : w <+: v ++ rest) => ?_)
    (not_startsComment hslash) fun _ _ hn => (not_numeral (Lexeme.isDigit_of_isWordStart ha) hn).elim
  have hle := length_le_takeWhile hstarts (hw.tail_of_isWordStart ha)
  rwa [hrun] at hle

/-- After a chunk that is a word no byte of a word follows. -/
theorem Fits.head_of_word {k : Kind} (h : Fits ⟨.lexeme k, a :: v⟩ rest) (ha : isWordStart a = true) :
    ∀ b ∈ rest.head?, isWordByte b = false := by
  cases h with
  | lexeme hlexeme longest =>
    have hv := hlexeme.tail_of_isWordStart ha
    have hrun := takeWhile_eq_of_longest ha hv longest
    cases rest with
    | nil => simp
    | cons b rest =>
      rintro c ⟨⟩
      by_contra hb
      have hlength := congrArg List.length hrun
      rw [List.takeWhile_append_of_pos hv, List.takeWhile_cons_of_pos (Bool.not_eq_false _ ▸ hb)] at hlength
      simp at hlength

/-- No byte of a numeral is a letter. -/
theorem isWordStart_of_numeral {whole fraction t : Text} (h : Numeral whole fraction t) :
    ∀ b ∈ t, isWordStart b = false := by
  intro b hb
  cases h with
  | whole h => exact isWordStart_of_isDigit (h.2 b hb)
  | point h h' =>
    rcases List.mem_append.1 hb with hb | hb
    · exact isWordStart_of_isDigit (h.2 b hb)
    · rcases List.mem_cons.1 hb with rfl | hb
      · decide
      · exact isWordStart_of_isDigit (h'.2 b hb)

theorem isWordStart_of_operator {k : Kind} {t : Text} (h : (t, k) ∈ Kind.operators) :
    ∀ b ∈ t, isWordStart b = false := by
  have key : ∀ p ∈ Kind.operators, ∀ b ∈ p.1, isWordStart b = false := by decide +kernel
  exact key _ h

/-- A lexeme without letters fits before a text that differs in words. -/
theorem fits_alike {k : Kind} (halike : Alike rest rest') (h : Fits ⟨.lexeme k, a :: v⟩ rest)
    (hletters : ∀ k' w, Lexeme k' (a :: w) → ∀ b ∈ a :: w, isWordStart b = false) :
    Fits ⟨.lexeme k, a :: v⟩ rest' := by
  have hback := (halike.append (a :: v)).symm
  cases h with
  | lexeme hlexeme longest hcomment small =>
    refine .lexeme hlexeme (fun k' w hw hstarts => ?_) ?_ small
    · -- A longer lexeme without letters would stand in front of the other text too.
      obtain ⟨b, w, rfl⟩ := List.exists_cons_of_ne_nil hw.ne_nil
      obtain ⟨rfl, -⟩ := List.cons_prefix_cons.1 hstarts
      exact longest k' _ hw (hback.starts (hletters k' w hw) hstarts)
    · have hplain : ∀ c, isWordStart c = false → ∀ b ∈ [47, c], isWordStart b = false := fun c hc =>
        List.forall_mem_cons.2 ⟨rfl, List.forall_mem_singleton.2 hc⟩
      rintro (hline | hblock)
      · exact hcomment (.inl (hback.starts (hplain _ rfl) hline))
      · exact hcomment (.inr (hback.starts (hplain _ rfl) hblock))

/-- What fits before a text fits before one that differs in words. -/
theorem Fits.alike {c : Chunk} (h : c.Fits rest) (hflaw : ∀ e, c.label ≠ .flaw e)
    (halike : Alike rest rest') : c.Fits rest' := by
  have hfits := h
  cases h with
  | blank hb => exact .blank hb
  | lineComment hbody hrest =>
    refine .lineComment hbody ?_
    rcases hrest with hrest | hrest
    · exact .inl (halike.eq_nil hrest)
    · obtain ⟨after, rfl⟩ := List.head?_eq_some_iff.1 hrest
      obtain ⟨after', rfl⟩ := halike.starts (v := [10]) (List.forall_mem_singleton.2 rfl) ⟨after, rfl⟩
      exact .inr rfl
  | blockComment hbody => exact .blockComment hbody
  | openComment hbody =>
    rw [halike.eq_nil rfl]
    exact .openComment hbody
  | @lexeme k t _ hlexeme =>
    obtain ⟨a, v, rfl⟩ := List.exists_cons_of_ne_nil hlexeme.ne_nil
    have hword : Word (a :: v) → Fits ⟨.lexeme k, a :: v⟩ rest' := by
      rintro ⟨ha, -⟩
      exact fits_of_word hlexeme ha (halike.head_isWordByte (hfits.head_of_word ha))
    cases hlexeme with
    | operator h =>
      obtain ⟨hw, hd, hq⟩ := Lexeme.first_of_operator h
      exact fits_alike halike hfits fun k' w hlex => isWordStart_of_operator (hlex.operator_of_other hw hd hq)
    | string h =>
      -- A string ends at its second quote, whatever follows.
      exact fits_string h
    | number h =>
      obtain ⟨_, _, heq, ha⟩ := h.exists_cons
      obtain ⟨rfl, rfl⟩ := List.cons.inj heq
      refine fits_alike halike hfits fun k' w hlex => ?_
      obtain ⟨_, _, hnumeral⟩ := hlex.numeral_of_isDigit ha
      exact isWordStart_of_numeral hnumeral
    | keyword h => exact hword (.of_reserved h)
    | identifier h => exact hword h
  | unexpected | unterminated | tooLarge => exact absurd rfl (hflaw _)

end Chunk

/-! ## Sources that differ in a name -/

namespace Renaming

/-- A token of the old source and the one in its place: the same, or an identifier that has the new name
instead of the old one. -/
def RespellsToken (σ : Renaming) (t t' : Token) : Prop :=
  t' = t ∨ t.kind = .identifier ∧ t.lexeme = σ.old ∧ t' = t.named σ.new

/-- A chunk of the old source and the one in its place. -/
def RespellsChunk (σ : Renaming) (c c' : Chunk) : Prop :=
  c' = c ∨ c = ⟨.lexeme .identifier, σ.old⟩ ∧ c' = ⟨.lexeme .identifier, σ.new⟩

/-- A source is another one with the new name in the place of the old one in some of its identifiers. Its
blanks and comments are the same. -/
def RespellsSource (σ : Renaming) (source source' : Text) : Prop :=
  List.Forall₂ σ.RespellsChunk (Chunk.ofSource source) (Chunk.ofSource source')

end Renaming

theorem Lexeme.word (h : Lexeme .identifier t) : Word t := by
  cases h with
  | operator h =>
    have key : ∀ p ∈ Kind.operators, p.2 ≠ .identifier := by decide
    exact absurd rfl (key _ h)
  | keyword h => exact .of_reserved h
  | identifier h => exact h

theorem Word.exists_cons (h : Word t) : ∃ a v, t = a :: v ∧ Chunk.isWordStart a = true := by
  cases h with
  | mk ha => exact ⟨_, _, rfl, ha⟩

/-- There is no line break in a word. -/
theorem Word.count_newline (h : Word t) : t.count Text.newline = 0 := by
  have key : Chunk.isWordStart Text.newline = false ∧ Chunk.isWordByte Text.newline = false := by decide
  obtain ⟨hb, htail⟩ := h
  refine List.count_eq_zero.2 fun hmem => ?_
  rcases List.mem_cons.1 hmem with heq | hmem
  · rw [← heq, key.1] at hb
    cases hb
  · have hbyte := htail _ hmem
    rw [key.2] at hbyte
    cases hbyte

/-- An identifier gets the new name before a text that differs in words. -/
theorem Chunk.Fits.respell (hnew : Lexeme .identifier σ.new) {rest rest' : Text}
    (h : Fits ⟨.lexeme .identifier, σ.old⟩ rest) (halike : Alike rest rest') :
    Fits ⟨.lexeme .identifier, σ.new⟩ rest' ∧ Alike (σ.old ++ rest) (σ.new ++ rest') ∧
      σ.old.count Text.newline = σ.new.count Text.newline := by
  have hold : Lexeme .identifier σ.old := by
    cases h with
    | lexeme h => exact h
  have hlines := hold.word.count_newline.trans hnew.word.count_newline.symm
  obtain ⟨a, v, hv, ha⟩ := hold.word.exists_cons
  obtain ⟨b, w, hw, hb⟩ := hnew.word.exists_cons
  rw [hv] at h
  have hrest := halike.head_isWordByte (h.head_of_word ha)
  rw [hw] at hnew
  refine ⟨?_, ?_, hlines⟩
  · rw [hw]
    exact fits_of_word hnew hb hrest
  · rw [hv, hw]
    exact .word _ _ ha hb

/-- A source splits as before when identifiers get the new name, and the tokens get it too. -/
theorem Splits.respell {σ : Renaming} (hnew : Lexeme .identifier σ.new) {source : Text} {chunks : List Chunk}
    (h : Splits source chunks) {line : Nat} {ts ts' : List Token}
    (hfindings : findings line chunks = ts.map .token) (hts : List.Forall₂ σ.RespellsToken ts ts') :
    ∃ source' chunks', Splits source' chunks' ∧ Alike source source' ∧
      List.Forall₂ σ.RespellsChunk chunks chunks' ∧ findings line chunks' = ts'.map .token := by
  -- The induction comes from the end of the source, since a chunk fits by what follows it.
  induction h generalizing line ts ts' with
  | done =>
    obtain rfl := List.map_eq_nil_iff.1 hfindings.symm
    cases hts
    exact ⟨[], [], .done, .nil, .nil, rfl⟩
  | @chunk c rest cs hfits _ ih =>
    obtain ⟨label, bytes⟩ := c
    cases label with
    | blank | lineComment | blockComment =>
      obtain ⟨source', chunks', hsplits, halike, hchunks, hfound⟩ := ih hfindings hts
      exact ⟨_, _, .chunk (hfits.alike nofun halike) hsplits, halike.append bytes,
        .cons (.inl rfl) hchunks, hfound⟩
    | lexeme k =>
      cases hts with
      | nil => cases hfindings
      | cons ht hts =>
        obtain ⟨htoken, hrest⟩ := List.cons.inj hfindings
        obtain rfl := Finding.token.inj htoken
        obtain ⟨source', chunks', hsplits, halike, hchunks, hfound⟩ := ih hrest hts
        rcases ht with rfl | ⟨hkind, hold, rfl⟩
        · exact ⟨_, _, .chunk (hfits.alike nofun halike) hsplits, halike.append bytes,
            .cons (.inl rfl) hchunks, congrArg (_ :: ·) hfound⟩
        · obtain rfl : k = .identifier := hkind
          obtain rfl : bytes = σ.old := hold
          obtain ⟨hfits', halike', hlines⟩ := hfits.respell hnew halike
          refine ⟨_, _, .chunk hfits' hsplits, halike', .cons (.inr ⟨rfl, rfl⟩) hchunks, ?_⟩
          -- Neither name breaks the line, so the tokens stay on their lines.
          have hbreaks : Chunk.breaks ⟨.lexeme .identifier, σ.old⟩ =
            Chunk.breaks ⟨.lexeme .identifier, σ.new⟩ := hlines
          rw [hbreaks] at hfound ⊢
          exact congrArg (_ :: ·) hfound
    | flaw e =>
      cases ts with
      | nil => cases hfindings
      | cons t ts => cases (List.cons.inj hfindings).1

/-! ## Trees that differ in a name -/

/-- A name that was given back, in the place of a token of the grammar. -/
theorem Renaming.back_declaration_eq {t t' : Token} (hkind : t.kind = .identifier)
    (h : σ.back.declaration k t' = t) : t'.kind = .identifier ∧ σ.RespellsToken t t' := by
  subst h
  refine ⟨hkind, ?_⟩
  rcases σ.respelled_back k t' with h | ⟨hold, hnew⟩
  · exact .inl h
  · exact .inr ⟨hkind, hold, hnew⟩

theorem Renaming.back_reference_eq {site : Site} {t : Token} {ref : Reference} (hkind : t.kind = .identifier)
    (h : σ.back.reference k ref = ⟨site, t⟩) :
    ∃ t', ref = ⟨site, t'⟩ ∧ t'.kind = .identifier ∧ σ.RespellsToken t t' := by
  obtain ⟨site', t'⟩ := ref
  obtain ⟨rfl, htoken⟩ := Reference.mk.inj h
  obtain ⟨hkind', hrespells⟩ := Renaming.back_declaration_eq (k := k) hkind htoken
  exact ⟨t', rfl, hkind', hrespells⟩

theorem Expr.length_renameAll (f : NameMap) (k : Nat) (es : List Expr) :
    (Expr.renameAll f k es).length = es.length := by
  induction es with
  | nil => rfl
  | cons e es ih => exact congrArg (· + 1) ih

/-- A statement and what a name map makes of it, by the form of both. -/
inductive Stmt.RenamesTo (f : NameMap) (k : Nat) : Stmt → Stmt → Prop where
  | expression {e e' : Expr} (h : e'.rename f k = e) : RenamesTo f k (.expression e') (.expression e)
  | print {e e' : Expr} (h : e'.rename f k = e) : RenamesTo f k (.print e') (.print e)
  | returns {keyword : Token} {value value' : Option Expr} (h : value'.map (Expr.rename f k) = value) :
    RenamesTo f k (.returns keyword value') (.returns keyword value)
  | branch {test test' : Expr} {yes yes' : Stmt} {no no' : Option Stmt} (h : test'.rename f k = test)
    (hyes : yes'.rename f k = yes) (hno : no'.map (·.rename f k) = no) :
    RenamesTo f k (.branch test' yes' no') (.branch test yes no)
  | loop {test test' : Expr} {body body' : Stmt} (h : test'.rename f k = test) (hbody : body'.rename f k = body) :
    RenamesTo f k (.loop test' body') (.loop test body)
  | block {body body' : List Stmt} (h : Stmt.renameAll f body' (k + 1) = body) :
    RenamesTo f k (.block body') (.block body)
  | variable {name name' : Token} {value value' : Option Expr} (h : f.declaration k name' = name)
    (hvalue : value'.map (Expr.rename f k) = value) :
    RenamesTo f k (.variable name' value') (.variable name value)
  | routine {r r' : Routine} (h : r'.rename f k = r) : RenamesTo f k (.routine r') (.routine r)
  | classOf {name : Token} {superclass superclass' : Option Reference} {methods methods' : List Routine}
    {j : Nat} (h : superclass'.map (f.reference k) = superclass)
    (hmethods : Routine.renameAll f methods' j = methods) :
    RenamesTo f k (.classOf name superclass' methods') (.classOf name superclass methods)

/-- A statement that a map of names changes to another one is related to it part by part. -/
theorem Stmt.renamesTo {f : NameMap} {s s' : Stmt} (h : s'.rename f k = s) : RenamesTo f k s' s := by
  subst h
  cases s' with
  | expression => exact .expression rfl
  | print => exact .print rfl
  | returns => exact .returns rfl
  | branch _ _ no => cases no <;> exact .branch rfl rfl rfl
  | loop => exact .loop rfl rfl
  | block => exact .block rfl
  | «variable» => exact .variable rfl rfl
  | routine => exact .routine rfl
  | classOf _ superclass => cases superclass <;> exact .classOf rfl rfl

theorem Stmt.renameAll_eq_map (f : NameMap) (ss : List Stmt) (k : Nat) :
    Stmt.renameAll f ss k = ss.map (·.rename f k) := by
  induction ss with
  | nil => rfl
  | cons s ss ih => rw [Stmt.renameAll, ih, List.map_cons]

/-- A list that a function maps to at most one element. -/
theorem exists_toList_of_map {α β : Type} {f : α → β} {l : List α} {o : Option β} (h : l.map f = o.toList) :
    ∃ o' : Option α, l = o'.toList ∧ o'.map f = o := by
  cases o with
  | none => exact ⟨none, List.map_eq_nil_iff.1 h, rfl⟩
  | some b =>
    obtain ⟨a, rest, rfl, hfirst, hrest⟩ := List.map_eq_cons_iff.1 h
    obtain rfl := List.map_eq_nil_iff.1 hrest
    exact ⟨some a, rfl, congrArg some hfirst⟩

/-- The parts of a `for` loop, from what a name map makes of it. -/
theorem Stmt.exists_forLoop {f : NameMap} {site : Site} {s' body : Stmt} {initializer : Option Stmt}
    {condition increment : Option Expr}
    (h : s'.rename f k = .forLoop site initializer condition increment body) :
    ∃ (initializer' : Option Stmt) (condition' increment' : Option Expr) (body' : Stmt),
      s' = .forLoop site initializer' condition' increment' body' ∧
      initializer'.map (·.rename f (k + 1)) = initializer ∧
      condition'.map (Expr.rename f (k + 1)) = condition ∧
      increment'.map (Expr.rename f (k + 2)) = increment ∧ body'.rename f (k + 2) = body := by
  cases Stmt.renamesTo h with
  | block hall =>
    rw [Stmt.renameAll_eq_map] at hall
    obtain ⟨first, last, rfl, hfirst, hlast⟩ := List.map_eq_append_iff.1 hall
    obtain ⟨initializer', rfl, hinitializer⟩ := exists_toList_of_map hfirst
    obtain ⟨loop, none, rfl, hloop, hnone⟩ := List.map_eq_cons_iff.1 hlast
    obtain rfl := List.map_eq_nil_iff.1 hnone
    cases Stmt.renamesTo hloop with
    | @loop _ test' _ inner' htest hinner =>
      cases Stmt.renamesTo hinner with
      | block hall =>
        rw [Stmt.renameAll_eq_map] at hall
        obtain ⟨body', rest, rfl, hbody, hrest⟩ := List.map_eq_cons_iff.1 hall
        obtain ⟨statement, rfl, hstatement⟩ := exists_toList_of_map hrest
        -- A condition that is absent is true in both trees.
        obtain ⟨condition', rfl, hcondition⟩ : ∃ condition' : Option Expr,
            test' = condition'.getD (.literal site (.bool true)) ∧
              condition'.map (Expr.rename f (k + 1)) = condition := by
          cases condition with
          | some e => exact ⟨some test', rfl, congrArg some htest⟩
          | none =>
            refine ⟨none, ?_, rfl⟩
            cases test' with
            | literal => exact htest
            | _ => cases htest
        obtain ⟨increment', rfl, hincrement⟩ : ∃ increment' : Option Expr,
            statement = increment'.map .expression ∧ increment'.map (Expr.rename f (k + 2)) = increment := by
          cases increment with
          | none => exact ⟨none, Option.map_eq_none_iff.1 hstatement, rfl⟩
          | some e =>
            obtain ⟨s, rfl, hs⟩ := Option.map_eq_some_iff.1 hstatement
            cases Stmt.renamesTo hs with
            | expression he => exact ⟨some _, rfl, congrArg some he⟩
        exact ⟨initializer', condition', increment', body', rfl, hinitializer, hcondition, hincrement, hbody⟩

/-- Tokens in the place of others, with a property. -/
def Renaming.RespellsTo (σ : Renaming) (ts : List Token) (P : List Token → Prop) : Prop :=
  ∃ ts', List.Forall₂ σ.RespellsToken ts ts' ∧ P ts'

theorem Renaming.RespellsTo.imp {ts : List Token} {P Q : List Token → Prop} (h : σ.RespellsTo ts P)
    (himp : ∀ ts', P ts' → Q ts') : σ.RespellsTo ts Q := by
  obtain ⟨ts', hts, hP⟩ := h
  exact ⟨ts', hts, himp ts' hP⟩

namespace Grammar

variable {σ : Renaming}

/-- An expression is derived from respelled tokens if its tree with the old name given back is derived from the
tokens. The tree is taken apart along the derivation. -/
theorem Expression.respell {f : Form} {site : Site} {ts : List Token} {e e' : Expr} {k : Nat}
    (h : Expression f site ts e) (he : e'.rename σ.back k = e) :
    σ.RespellsTo ts (Expression f site · e') := by
  induction h using @Expression.rec _ (fun site ts es _ => ∀ es', Expr.renameAll σ.back k es' = es →
    σ.RespellsTo ts (Arguments site · es')) generalizing e' with
  | @assign site name sign ts value hname hsign _ ih =>
    cases e' with
    | assign target value' =>
      obtain ⟨htarget, hvalue⟩ := Expr.assign.inj he
      obtain ⟨name', rfl, hname', hrespells⟩ := Renaming.back_reference_eq hname htarget
      obtain ⟨ts', hts, hderived⟩ := ih hvalue
      exact ⟨_, .cons hrespells (.cons (.inl rfl) hts), .assign hname' hsign hderived⟩
    | _ => cases he
  | @set site dot name sign ts us object value _ hdot hname hsign _ ih ih' =>
    cases e' with
    | set _ object' name' value' =>
      obtain ⟨rfl, hobject, rfl, hvalue⟩ := Expr.set.inj he
      obtain ⟨ts', hts, hderived⟩ := ih hobject
      obtain ⟨us', hus, hderived'⟩ := ih' hvalue
      rw [hts.length_eq] at hderived' ⊢
      exact ⟨_, List.rel_append hts (.cons (.inl rfl) (.cons (.inl rfl) (.cons (.inl rfl) hus))),
        .set hderived hdot hname hsign hderived'⟩
    | _ => cases he
  | unassigned _ ih => exact (ih he).imp fun _ => .unassigned
  | @joined l site t ts us left right e _ hjoin _ ih ih' =>
    obtain ⟨left', right', hleft, hright, hjoin'⟩ : ∃ left' right', left'.rename σ.back k = left ∧
        right'.rename σ.back k = right ∧ Joins l (site + ts.length) t left' right' e' := by
      cases hjoin with
      | or hkind | and hkind =>
        cases e' with
        | logical _ op' sign' left' right' =>
          obtain ⟨rfl, rfl, rfl, hleft, hright⟩ := Expr.logical.inj he
          first
            | exact ⟨left', right', hleft, hright, .or hkind⟩
            | exact ⟨left', right', hleft, hright, .and hkind⟩
        | _ => cases he
      | binary hkind =>
        cases e' with
        | binary _ op' sign' left' right' =>
          obtain ⟨rfl, rfl, rfl, hleft, hright⟩ := Expr.binary.inj he
          exact ⟨left', right', hleft, hright, .binary hkind⟩
        | _ => cases he
    obtain ⟨ts', hts, hderived⟩ := ih hleft
    obtain ⟨us', hus, hderived'⟩ := ih' hright
    rw [hts.length_eq] at hjoin' hderived'
    exact ⟨_, List.rel_append hts (.cons (.inl rfl) hus), .joined hderived hjoin' hderived'⟩
  | single _ ih => exact (ih he).imp fun _ => .single
  | conditional _ hquestion _ hcolon _ ih ihmiddle ihright =>
    cases e' with
    | conditional _ test question' yes colon' no =>
      obtain ⟨rfl, htest, rfl, hyes, rfl, hno⟩ := Expr.conditional.inj he
      obtain ⟨ts', hts, hderived⟩ := ih htest
      obtain ⟨us', hus, hderived'⟩ := ihmiddle hyes
      obtain ⟨vs', hvs, hderived''⟩ := ihright hno
      rw [hts.length_eq] at hderived' hderived'' ⊢
      rw [hus.length_eq] at hderived''
      exact ⟨_, List.rel_append (List.rel_append hts (.cons (.inl rfl) hus)) (.cons (.inl rfl) hvs),
        .conditional hderived hquestion hderived' hcolon hderived''⟩
    | _ => cases he
  | unconditional _ ih => exact (ih he).imp fun _ => .unconditional
  | not hkind _ ih =>
    cases e' with
    | unary _ op' sign' operand =>
      obtain ⟨rfl, rfl, rfl, hoperand⟩ := Expr.unary.inj he
      obtain ⟨ts', hts, hderived⟩ := ih hoperand
      exact ⟨_, .cons (.inl rfl) hts, .not hkind hderived⟩
    | _ => cases he
  | negate hkind _ ih =>
    cases e' with
    | unary _ op' sign' operand =>
      obtain ⟨rfl, rfl, rfl, hoperand⟩ := Expr.unary.inj he
      obtain ⟨ts', hts, hderived⟩ := ih hoperand
      exact ⟨_, .cons (.inl rfl) hts, .negate hkind hderived⟩
    | _ => cases he
  | unprefixed _ ih => exact (ih he).imp fun _ => .unprefixed
  | get _ hdot hname ih =>
    cases e' with
    | get _ object' name' =>
      obtain ⟨rfl, hobject, rfl⟩ := Expr.get.inj he
      obtain ⟨ts', hts, hderived⟩ := ih hobject
      rw [hts.length_eq]
      exact ⟨_, List.rel_append hts (.cons (.inl rfl) (.cons (.inl rfl) .nil)), .get hderived hdot hname⟩
    | _ => cases he
  | @call site opening closing ts us callee arguments _ hopening _ hmax hclosing ih ih' =>
    cases e' with
    | call _ callee' paren' arguments' =>
      obtain ⟨rfl, hcallee, rfl, harguments⟩ := Expr.call.inj he
      obtain ⟨ts', hts, hderived⟩ := ih hcallee
      obtain ⟨us', hus, hderived'⟩ := ih' arguments' harguments
      rw [hts.length_eq] at hderived' ⊢
      rw [← harguments, Expr.length_renameAll] at hmax
      exact ⟨_, List.rel_append (List.rel_append hts (.cons (.inl rfl) hus)) (.cons (.inl rfl) .nil),
        .call hderived hopening hderived' hmax hclosing⟩
    | _ => cases he
  | uncalled _ ih => exact (ih he).imp fun _ => .uncalled
  | constant hvalue =>
    cases e' with
    | literal _ value' =>
      obtain ⟨rfl, rfl⟩ := Expr.literal.inj he
      exact ⟨_, .cons (.inl rfl) .nil, .constant hvalue⟩
    | _ => cases he
  | named hname =>
    cases e' with
    | «variable» ref =>
      obtain ⟨name', rfl, hname', hrespells⟩ := Renaming.back_reference_eq hname (Expr.variable.inj he)
      exact ⟨_, .cons hrespells .nil, .named hname'⟩
    | _ => cases he
  | this hkind =>
    cases e' with
    | this ref =>
      obtain rfl := Expr.this.inj he
      exact ⟨_, .cons (.inl rfl) .nil, .this hkind⟩
    | _ => cases he
  | super hkind hdot hmethod =>
    cases e' with
    | super ref method' =>
      obtain ⟨rfl, rfl⟩ := Expr.super.inj he
      exact ⟨_, .cons (.inl rfl) (.cons (.inl rfl) (.cons (.inl rfl) .nil)), .super hkind hdot hmethod⟩
    | _ => cases he
  | grouping hopening _ hclosing ih =>
    cases e' with
    | grouping _ inner' =>
      obtain ⟨rfl, hinner⟩ := Expr.grouping.inj he
      obtain ⟨ts', hts, hderived⟩ := ih hinner
      exact ⟨_, .cons (.inl rfl) (List.rel_append hts (.cons (.inl rfl) .nil)),
        .grouping hopening hderived hclosing⟩
    | _ => cases he
  | none es' hes =>
    cases es' with
    | nil => exact ⟨[], .nil, .none⟩
    | cons => cases hes
  | one _ ih es' hes =>
    cases es' with
    | nil => cases hes
    | cons e' rest =>
      obtain ⟨he, hrest⟩ := List.cons.inj hes
      cases rest with
      | nil => exact (ih he).imp fun _ => .one
      | cons => cases hrest
  | more _ hcomma _ hne ih ih' es' hes =>
    cases es' with
    | nil => cases hes
    | cons e' rest =>
      obtain ⟨he, hrest⟩ := List.cons.inj hes
      obtain ⟨ts', hts, hderived⟩ := ih he
      obtain ⟨us', hus, hderived'⟩ := ih' rest hrest
      rw [hts.length_eq] at hderived'
      refine ⟨_, List.rel_append hts (.cons (.inl rfl) hus), .more hderived hcomma hderived' ?_⟩
      rintro rfl
      exact hne hrest.symm

variable {site : Site} {ts : List Token} {k : Nat}

/-- An expression that may be missing is spelled with the new name. -/
theorem Optional.respell {closing : Kind} {value value' : Option Expr} (h : Optional closing site ts value)
    (hvalue : value'.map (Expr.rename σ.back k) = value) : σ.RespellsTo ts (Optional closing site · value') := by
  cases h with
  | absent hkind =>
    obtain rfl := Option.map_eq_none_iff.1 hvalue
    exact ⟨_, .cons (.inl rfl) .nil, .absent hkind⟩
  | present h hkind =>
    obtain ⟨e', rfl, he⟩ := Option.map_eq_some_iff.1 hvalue
    obtain ⟨ts', hts, hderived⟩ := h.respell he
    exact ⟨_, List.rel_append hts (.cons (.inl rfl) .nil), .present hderived hkind⟩

/-- A declaration of a variable is spelled with the new name. -/
theorem Variable.respell {s s' : Stmt} (h : Variable site ts s) (hs : s'.rename σ.back k = s) :
    σ.RespellsTo ts (Variable site · s') := by
  cases h with
  | plain hname hending =>
    cases Stmt.renamesTo hs with
    | «variable» hfirst hvalue =>
      obtain rfl := Option.map_eq_none_iff.1 hvalue
      obtain ⟨hname', hrespells⟩ := Renaming.back_declaration_eq hname hfirst
      exact ⟨_, .cons hrespells (.cons (.inl rfl) .nil), .plain hname' hending⟩
  | initialized hname hsign h hending =>
    cases Stmt.renamesTo hs with
    | «variable» hfirst hvalue =>
      obtain ⟨e', rfl, he⟩ := Option.map_eq_some_iff.1 hvalue
      obtain ⟨hname', hrespells⟩ := Renaming.back_declaration_eq hname hfirst
      obtain ⟨ts', hts, hderived⟩ := h.respell he
      exact ⟨_, .cons hrespells (.cons (.inl rfl) (List.rel_append hts (.cons (.inl rfl) .nil))),
        .initialized hname' hsign hderived hending⟩

/-- The first part of a `for` is spelled with the new name. -/
theorem Initializer.respell {s s' : Option Stmt} (h : Initializer site ts s)
    (hs : s'.map (·.rename σ.back k) = s) : σ.RespellsTo ts (Initializer site · s') := by
  cases h with
  | absent hkind =>
    obtain rfl := Option.map_eq_none_iff.1 hs
    exact ⟨_, .cons (.inl rfl) .nil, .absent hkind⟩
  | declared hkeyword h =>
    obtain ⟨first, rfl, hfirst⟩ := Option.map_eq_some_iff.1 hs
    obtain ⟨ts', hts, hderived⟩ := h.respell hfirst
    exact ⟨_, .cons (.inl rfl) hts, .declared hkeyword hderived⟩
  | expression h hending =>
    obtain ⟨first, rfl, hfirst⟩ := Option.map_eq_some_iff.1 hs
    cases Stmt.renamesTo hfirst with
    | expression he =>
      obtain ⟨ts', hts, hderived⟩ := h.respell he
      exact ⟨_, List.rel_append hts (.cons (.inl rfl) .nil), .expression hderived hending⟩

/-- Parameters are spelled with the new name. -/
theorem Parameters.respell {names names' : List Token} (h : Parameters ts names)
    (hnames : names'.map (σ.back.declaration k) = names) : σ.RespellsTo ts (Parameters · names') := by
  induction h generalizing names' with
  | none =>
    obtain rfl := List.map_eq_nil_iff.1 hnames
    exact ⟨[], .nil, .none⟩
  | one hname =>
    obtain ⟨name', rest, rfl, hfirst, hrest⟩ := List.map_eq_cons_iff.1 hnames
    obtain rfl := List.map_eq_nil_iff.1 hrest
    obtain ⟨hname', hrespells⟩ := Renaming.back_declaration_eq hname hfirst
    exact ⟨_, .cons hrespells .nil, .one hname'⟩
  | more hname hcomma _ hne ih =>
    obtain ⟨name', rest, rfl, hfirst, hrest⟩ := List.map_eq_cons_iff.1 hnames
    obtain ⟨hname', hrespells⟩ := Renaming.back_declaration_eq hname hfirst
    obtain ⟨ts', hts, hderived⟩ := ih hrest
    refine ⟨_, .cons hrespells (.cons (.inl rfl) hts), .more hname' hcomma hderived ?_⟩
    rintro rfl
    exact hne hrest.symm

/-- A superclass is spelled with the new name. -/
theorem Superclass.respell {superclass superclass' : Option Reference} (h : Superclass site ts superclass)
    (hsuperclass : superclass'.map (σ.back.reference k) = superclass) :
    σ.RespellsTo ts (Superclass site · superclass') := by
  cases h with
  | absent =>
    obtain rfl := Option.map_eq_none_iff.1 hsuperclass
    exact ⟨[], .nil, .absent⟩
  | named hsign hname =>
    obtain ⟨ref, rfl, href⟩ := Option.map_eq_some_iff.1 hsuperclass
    obtain ⟨name', rfl, hname', hrespells⟩ := Renaming.back_reference_eq hname href
    exact ⟨_, .cons (.inl rfl) (.cons hrespells .nil), .named hsign hname'⟩

/-- Declarations are derived from respelled tokens if their trees with the old name given back are derived from
the tokens. -/
theorem Declarations.respell {ss ss' : List Stmt} (h : Declarations site ts ss)
    (hss : Stmt.renameAll σ.back ss' k = ss) : σ.RespellsTo ts (Declarations site · ss') := by
  induction h using @Declarations.rec (fun dangling site ts s _ => ∀ s' k, s'.rename σ.back k = s →
      σ.RespellsTo ts (Statement dangling site · s'))
    (fun site ts s _ => ∀ s' k, s'.rename σ.back k = s → σ.RespellsTo ts (Declaration site · s')) _
    (fun site ts r _ => ∀ r' k, r'.rename σ.back k = r → σ.RespellsTo ts (Function site · r'))
    (fun site ts rs _ => ∀ rs' k, Routine.renameAll σ.back rs' k = rs →
      σ.RespellsTo ts (Methods site · rs')) generalizing ss' k with
  | expression h hending s' k hs =>
    cases Stmt.renamesTo hs with
    | expression he =>
      obtain ⟨ts', hts, hderived⟩ := h.respell he
      exact ⟨_, List.rel_append hts (.cons (.inl rfl) .nil), .expression hderived hending⟩
  | print hkeyword h hending s' k hs =>
    cases Stmt.renamesTo hs with
    | print he =>
      obtain ⟨ts', hts, hderived⟩ := h.respell he
      exact ⟨_, .cons (.inl rfl) (List.rel_append hts (.cons (.inl rfl) .nil)),
        .print hkeyword hderived hending⟩
  | returns hkeyword h s' k hs =>
    cases Stmt.renamesTo hs with
    | returns hvalue =>
      obtain ⟨ts', hts, hderived⟩ := h.respell hvalue
      exact ⟨_, .cons (.inl rfl) hts, .returns hkeyword hderived⟩
  | branch hkeyword hopening h hclosing _ ih s' k hs =>
    cases Stmt.renamesTo hs with
    | branch htest hyes hno =>
      obtain rfl := Option.map_eq_none_iff.1 hno
      obtain ⟨ts', hts, hderived⟩ := h.respell htest
      obtain ⟨us', hus, hderived'⟩ := ih _ k hyes
      rw [hts.length_eq] at hderived'
      exact ⟨_, .cons (.inl rfl) (.cons (.inl rfl) (List.rel_append hts (.cons (.inl rfl) hus))),
        .branch hkeyword hopening hderived hclosing hderived'⟩
  | branches hkeyword hopening h hclosing _ hother _ ih ihno s' k hs =>
    cases Stmt.renamesTo hs with
    | branch htest hyes hno =>
      obtain ⟨no', rfl, hsecond⟩ := Option.map_eq_some_iff.1 hno
      obtain ⟨ts', hts, hderived⟩ := h.respell htest
      obtain ⟨us', hus, hderived'⟩ := ih _ k hyes
      obtain ⟨vs', hvs, hderived''⟩ := ihno no' k hsecond
      rw [hts.length_eq] at hderived' hderived''
      rw [hus.length_eq] at hderived''
      exact ⟨_, .cons (.inl rfl) (.cons (.inl rfl) (List.rel_append
        (List.rel_append hts (.cons (.inl rfl) hus)) (.cons (.inl rfl) hvs))),
        .branches hkeyword hopening hderived hclosing hderived' hother hderived''⟩
  | loop hkeyword hopening h hclosing _ ih s' k hs =>
    cases Stmt.renamesTo hs with
    | loop htest hbody =>
      obtain ⟨ts', hts, hderived⟩ := h.respell htest
      obtain ⟨us', hus, hderived'⟩ := ih _ k hbody
      rw [hts.length_eq] at hderived'
      exact ⟨_, .cons (.inl rfl) (.cons (.inl rfl) (List.rel_append hts (.cons (.inl rfl) hus))),
        .loop hkeyword hopening hderived hclosing hderived'⟩
  | forLoop hkeyword hopening hinitializer hcondition hincrement _ ih s' k hs =>
    -- The increment stands before the body and runs after it.
    obtain ⟨_, _, _, body', rfl, hfirst, htest, hnext, hbody⟩ := Stmt.exists_forLoop hs
    obtain ⟨ts', hts, hinitializer'⟩ := hinitializer.respell hfirst
    obtain ⟨us', hus, hcondition'⟩ := hcondition.respell htest
    obtain ⟨vs', hvs, hincrement'⟩ := hincrement.respell hnext
    obtain ⟨ws', hws, hbody'⟩ := ih body' (k + 2) hbody
    rw [hts.length_eq] at hcondition' hincrement' hbody'
    rw [hus.length_eq] at hincrement' hbody'
    rw [hvs.length_eq] at hbody'
    exact ⟨_, .cons (.inl rfl) (.cons (.inl rfl) (List.rel_append
      (List.rel_append (List.rel_append hts hus) hvs) hws)),
      .forLoop hkeyword hopening hinitializer' hcondition' hincrement' hbody'⟩
  | block hopening _ hclosing ih s' k hs =>
    cases Stmt.renamesTo hs with
    | block hbody =>
      obtain ⟨ts', hts, hderived⟩ := ih hbody
      exact ⟨_, .cons (.inl rfl) (List.rel_append hts (.cons (.inl rfl) .nil)),
        .block hopening hderived hclosing⟩
  | classOf hkeyword hname hsuper hopening _ hclosing ih s' k hs =>
    cases Stmt.renamesTo hs with
    | classOf hsuperclass hmethods =>
      obtain ⟨ts', hts, hderived⟩ := hsuper.respell hsuperclass
      obtain ⟨us', hus, hderived'⟩ := ih _ _ hmethods
      rw [hts.length_eq] at hderived'
      exact ⟨_, .cons (.inl rfl) (.cons (.inl rfl) (List.rel_append
        (List.rel_append hts (.cons (.inl rfl) hus)) (.cons (.inl rfl) .nil))),
        .classOf hkeyword hname hderived hopening hderived' hclosing⟩
  | routine hkeyword _ ih s' k hs =>
    cases Stmt.renamesTo hs with
    | routine hr =>
      obtain ⟨ts', hts, hderived⟩ := ih _ k hr
      exact ⟨_, .cons (.inl rfl) hts, .routine hkeyword hderived⟩
  | declared hkeyword h s' k hs =>
    obtain ⟨ts', hts, hderived⟩ := h.respell hs
    exact ⟨_, .cons (.inl rfl) hts, .declared hkeyword hderived⟩
  | statement _ ih s' k hs => exact (ih s' k hs).imp fun _ => .statement
  | nil =>
    cases ss' with
    | nil => exact ⟨[], .nil, .nil⟩
    | cons => cases hss
  | cons _ _ ih ih' =>
    cases ss' with
    | nil => cases hss
    | cons s' rest' =>
      obtain ⟨hs, hrest⟩ := List.cons.inj hss
      obtain ⟨ts', hts, hderived⟩ := ih s' k hs
      obtain ⟨us', hus, hderived'⟩ := ih' hrest
      rw [hts.length_eq] at hderived'
      exact ⟨_, List.rel_append hts hus, .cons hderived hderived'⟩
  | mk hname hopening hparams hmax hclosing hbrace _ hending ih r' k hr =>
    obtain ⟨name', params', body'⟩ := r'
    obtain ⟨rfl, hparameters, hbody⟩ := Routine.mk.inj hr
    obtain ⟨ts', hts, hderived⟩ := hparams.respell hparameters
    obtain ⟨us', hus, hderived'⟩ := ih hbody
    rw [hts.length_eq] at hderived'
    rw [← hparameters, List.length_map] at hmax
    exact ⟨_, .cons (.inl rfl) (.cons (.inl rfl) (List.rel_append
      (List.rel_append hts (.cons (.inl rfl) (.cons (.inl rfl) hus))) (.cons (.inl rfl) .nil))),
      .mk hname hopening hderived hmax hclosing hbrace hderived' hending⟩
  | none rs' k hrs =>
    cases rs' with
    | nil => exact ⟨[], .nil, .none⟩
    | cons => cases hrs
  | more _ _ ih ih' rs' k hrs =>
    cases rs' with
    | nil => cases hrs
    | cons r' rest' =>
      obtain ⟨hr, hrest⟩ := List.cons.inj hrs
      obtain ⟨ts', hts, hderived⟩ := ih r' k hr
      obtain ⟨us', hus, hderived'⟩ := ih' rest' k hrest
      rw [hts.length_eq] at hderived'
      exact ⟨_, List.rel_append hts hus, .more hderived hderived'⟩

end Grammar

/-! ## Sources of renamed programs -/

/-- A scan without errors finds tokens only. -/
theorem Scan.findings_eq_map {position : Nat} {fs : List Finding} (h : errorsWithPosition position fs = []) :
    fs = (Scan.tokens ⟨fs, 0⟩).map .token := by
  induction fs generalizing position with
  | nil => rfl
  | cons f fs ih =>
    cases f with
    | token t => exact congrArg (_ :: ·) (ih h)
    | error => cases h

/-- A program that is the one of a source when the old name is given back has a source of its own, which
differs from that one in names. -/
theorem Reading.respell {σ : Renaming} (hnew : Lexeme .identifier σ.new) {site : Site} {source : Text}
    {program' : Program} (herrors : (Reading.ofSource site source).errors = [])
    (hback : Stmt.renameAll σ.back program' 0 = (Reading.ofSource site source).program) :
    ∃ source', σ.RespellsSource source source' ∧
      Reading.ofSource site source' = ⟨program', [], (Reading.ofSource site source).nextSite⟩ := by
  obtain ⟨hlexical, -⟩ := (errors_eq_nil_iff site source).1 herrors
  obtain ⟨ts', hts, hprogram⟩ := (Reading.declarations herrors).respell hback
  obtain ⟨source', chunks', hsplits, -, hchunks, hfindings⟩ :=
    (Chunk.splits_ofSource source).respell hnew (Scan.findings_eq_map hlexical) hts
  have hsource : Chunk.ofSource source' = chunks' := Chunk.ofSource_eq_of_splits hsplits
  have hscan : (Scan.ofSource source').findings = ts'.map .token := by
    rw [Scan.ofSource, hsource]
    exact hfindings
  have hnext : site + ts'.length = (ofSource site source).nextSite := by rw [nextSite_eq, hts.length_eq]
  refine ⟨source', ?_, Reading.ofSource_of_findings hscan hprogram hnext⟩
  unfold Renaming.RespellsSource
  rw [hsource]
  exact hchunks

end Lox
