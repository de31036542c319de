import Lox.Proofs.Grammar
import Lox.Proofs.Production
import Mathlib.Tactic.Common

/-!
# Reading expressions follows the grammar
-/

namespace Lox

namespace Grammar

/-- The form of what is read at a level. -/
def levelForm : Level → Form
  | .equality => .conditional
  | l => .chain l

theorem operand_of_tighter? {l l' : Level} (h : l.tighter? = some l') : operand l = levelForm l' := by
  cases l <;> cases h <;> rfl

theorem operand_of_tightest {l : Level} (h : l.tighter? = none) : operand l = .prefixed := by
  cases l <;> cases h
  rfl

/-- The node of an operator joins its operands. -/
theorem joins_of_join? {l : Level} {site : Site} {t : Token} {build : Expr → Expr → Expr}
    (h : l.join? site t = some build) (left right : Expr) : Joins l site t left right (build left right) := by
  unfold Level.join? at h
  split at h <;> cases h
  case h_1 hk => exact .or hk
  case h_2 hk => exact .and hk
  all_goals
    next hk =>
    refine .binary ?_
    rw [hk]
    decide

/-- An expression that can be assigned to has the form of a call or property. -/
theorem Expression.called_of_assignTo? {f : Form} {site : Site} {ts : List Token} {e e' v : Expr}
    (h : Expression f site ts e) (he : assignTo? e v = some e') : Expression .called site ts e := by
  induction h using @Expression.rec _ (fun _ _ _ _ => True) with
  | unassigned _ ih => exact ih he
  | single _ ih => exact ih he
  | unconditional _ ih => exact ih he
  | unprefixed h => exact h
  | get h hdot hname => exact .get h hdot hname
  | uncalled h => exact .uncalled h
  | named h => exact .uncalled (.named h)
  | joined _ hjoin => cases hjoin <;> cases he
  | none => trivial
  | one => trivial
  | more => trivial
  | _ => cases he

/-- What follows the target of an assignment, if anything does. -/
inductive Assigned (target : Expr) : Site → List Token → Expr → Prop where
  | not {site : Site} : Assigned target site [] target
  | assigned {site : Site} {sign : Token} {ts : List Token} {value e : Expr} (hsign : sign.kind = .equal)
    (h : Expression .assignment (site + 1) ts value) (he : assignTo? target value = some e) :
    Assigned target site (sign :: ts) e

/-- What is assigned to an expression makes an assignment. -/
theorem Assigned.expression {site : Site} {ts us : List Token} {target e : Expr}
    (h : Expression (.chain .disjunction) site ts target) (h' : Assigned target (site + ts.length) us e) :
    Expression .assignment site (ts ++ us) e := by
  cases h' with
  | not => rw [List.append_nil]; exact .unassigned h
  | assigned hsign h' he =>
    have hc := h.called_of_assignTo? he
    cases hc with
    | uncalled hp =>
      cases hp with
      | named hname =>
        cases he
        exact .assign hname hsign h'
      | _ => cases he
    | get ho hdot hname =>
      cases he
      rw [List.append_assoc]
      exact .set ho hdot hname hsign (by simpa [Nat.add_assoc] using h')
    | call => cases he

/-- The arguments that follow one, if any do, when a number of arguments have been read. -/
inductive MoreArguments (count : Nat) (e : Expr) : Site → List Token → List Expr → Prop where
  | last {site : Site} : MoreArguments count e site [] [e]
  | comma {site : Site} {comma : Token} {ts : List Token} {es : List Expr}
    (hcomma : comma.kind = .comma) (h : Arguments (site + 1) ts es) (hes : es ≠ [])
    (hmax : count + es.length ≤ 255) : MoreArguments count e site (comma :: ts) (e :: es)

end Grammar

namespace Expr

open Grammar Parsed

/-- What follows an expression extends it to another of the same form. -/
def Extends (f : Form) (left : Expr) (site : Site) (us : List Token) (e : Expr) : Prop :=
  ∀ (site₀ : Site) (ts : List Token), site = site₀ + ts.length → Expression f site₀ ts left →
    Expression f site₀ (ts ++ us) e

namespace Extends

variable {f : Form} {site : Site} {us vs ws : List Token} {left e : Expr}

theorem refl : Extends f e site [] e := by
  intro _ ts _ h
  rwa [List.append_nil]

theorem joined {l : Level} {t : Token} {right e' : Expr} (hjoin : Joins l site t left right e')
    (h : Expression (operand l) (site + 1) us right)
    (hrest : Extends (.chain l) e' (site + 1 + us.length) vs e) :
    Extends (.chain l) left site (t :: (us ++ vs)) e := by
  rintro site₀ ts rfl hleft
  have h := hrest site₀ (ts ++ t :: us) (by grind) (.joined hleft hjoin h)
  simpa using h

/-- A question mark and a colon make a conditional, which may go on. -/
theorem conditional {question colon : Token} {middle right : Expr}
    (hquestion : question.kind = .question) (hcolon : colon.kind = .colon)
    (hmiddle : Expression (.chain .comparison) (site + 1) us middle)
    (hright : Expression (.chain .comparison) (site + 1 + us.length + 1) vs right)
    (hrest : Extends .conditional (.conditional site left question middle colon right)
      (site + 1 + us.length + 1 + vs.length) ws e) :
    Extends .conditional left site (question :: (us ++ (colon :: (vs ++ ws)))) e := by
  rintro site₀ ts rfl hleft
  have h := hrest site₀ (ts ++ question :: us ++ colon :: vs) (by grind)
    (.conditional hleft hquestion hmiddle hcolon (by grind))
  simpa using h

theorem get {dot name : Token} (hdot : dot.kind = .dot) (hname : name.kind = .identifier)
    (hrest : Extends .called (.get site left name) (site + 1 + 1) us e) :
    Extends .called left site (dot :: name :: us) e := by
  rintro site₀ ts rfl hleft
  have h := hrest site₀ (ts ++ [dot, name]) (by grind) (.get hleft hdot hname)
  simpa using h

theorem call {opening closing : Token} {arguments : List Expr}
    (hopening : opening.kind = .leftParen) (hclosing : closing.kind = .rightParen)
    (h : Arguments (site + 1) us arguments) (hmax : arguments.length ≤ 255)
    (hrest : Extends .called (.call site left closing arguments) (site + 1 + us.length + 1) vs e) :
    Extends .called left site (opening :: (us ++ closing :: vs)) e := by
  rintro site₀ ts rfl hleft
  have h := hrest site₀ (ts ++ opening :: us ++ [closing]) (by grind) (.call hleft hopening h hmax hclosing)
  simpa using h

end Extends

mutual

/-- What the reader takes for an expression is one. -/
theorem read_reads (c : Cursor) : (read c).Reads c (Expression .assignment) := by
  rw [read]
  refine ((readLevel_reads .disjunction c).andThen (S := Assigned) fun target c₁ h₁ => ?_).mono ?_
  · split
    · exact .done .not
    · next sign c₂ h₂ haccept =>
      obtain ⟨hkind, hsteps⟩ := Cursor.steps_of_accept? haccept
      refine ((((read_reads c₂).weaken (by omega)).andThen
        (S := fun value _ us e => us = [] ∧ assignTo? target value = some e) fun value c₃ h₃ => ?_).step hsteps).mono ?_
      · split
        · next he => exact .done ⟨rfl, he⟩
        · exact .note
      · rintro _ e ⟨_, rfl, ts, _, value, rfl, h, rfl, he⟩
        rw [List.append_nil]
        exact .assigned hkind h he
  · rintro _ e ⟨ts, us, target, rfl, h, h'⟩
    exact h'.expression h
termination_by c.remaining * 32 + 17
decreasing_by
  · have := Level.height_le .disjunction; omega
  · omega

/-- What the reader takes for a chain of operators is one. -/
theorem readLevel_reads (l : Level) (c : Cursor) : (readLevel l c).Reads c (Expression (levelForm l)) := by
  rw [readLevel]
  refine ((readTighter_reads l c).andThen (S := fun first => Then (Extends (.chain l) first)
    fun left site us e => if l = .equality then Extends .conditional left site us e else us = [] ∧ e = left)
    fun first c₁ h₁ => ((readChain_reads l first c₁).weaken _).andThen fun left c₂ h₂ => ?_).mono ?_
  · split
    · exact (readConditional_reads left c₂).weaken _
    · exact .done ⟨rfl, rfl⟩
  · rintro _ e ⟨ts, _, first, rfl, hfirst, us, vs, left, rfl, hleft, hlast⟩
    have h := hleft _ _ rfl (.single hfirst)
    split at hlast
    · next hl =>
      subst hl
      rw [← List.append_assoc]
      exact hlast _ _ (by rw [List.length_append, Nat.add_assoc]) (.unconditional h)
    · next hl =>
      obtain ⟨rfl, rfl⟩ := hlast
      have hform : levelForm l = .chain l := by cases l <;> first | rfl | exact absurd rfl hl
      rw [List.append_nil, hform]
      exact h
termination_by c.remaining * 32 + 2 * l.height + 5

/-- What the reader takes for an operand is one. -/
theorem readTighter_reads (l : Level) (c : Cursor) : (readTighter l c).Reads c (Expression (operand l)) := by
  rw [readTighter]
  split
  · next l' h =>
    have hheight := Level.height_tighter h
    rw [operand_of_tighter? h]
    exact readLevel_reads l' c
  · next h =>
    rw [operand_of_tightest h]
    exact readPrefix_reads c
termination_by c.remaining * 32 + 2 * l.height + 4

/-- The reader goes on with operators of the level. -/
theorem readChain_reads (l : Level) (left : Expr) (c : Cursor) :
    (readChain l left c).Reads c (Extends (.chain l) left) := by
  rw [readChain]
  split
  · exact .done .refl
  · next build c₁ h₁ haccept =>
    obtain ⟨t, hbuild, hsteps⟩ := Cursor.steps_of_acceptBy? haccept
    refine ((((readTighter_reads l c₁).andThen fun right c₂ h₂ =>
      (readChain_reads l (build left right) c₂).weaken _).step hsteps).weaken _).mono ?_
    rintro _ e ⟨_, rfl, us, vs, right, rfl, hright, hrest⟩
    exact .joined (joins_of_join? hbuild left right) hright hrest
termination_by c.remaining * 32
decreasing_by
  · have := l.height_le; omega
  · omega

/-- The reader goes on with question marks and colons. -/
theorem readConditional_reads (condition : Expr) (c : Cursor) :
    (readConditional condition c).Reads c (Extends .conditional condition) := by
  rw [readConditional]
  split
  · exact .done .refl
  · next question c₁ h₁ haccept =>
    obtain ⟨hquestion, hsteps⟩ := Cursor.steps_of_accept? haccept
    refine ((((readLevel_reads .comparison c₁).andThen fun middle c₂ h₂ =>
      ((Reads.expect .colon .colon).weaken _).oneThen fun colon c₃ h₃ =>
        ((readLevel_reads .comparison c₃).weaken _).andThen fun right c₄ h₄ =>
          (readConditional_reads (.conditional c.site condition question middle colon right) c₄).weaken
            _).step hsteps).weaken _).mono ?_
    rintro _ e ⟨_, rfl, us, _, middle, rfl, hmiddle, colon, _, rfl, hcolon, vs, ws, right, rfl, hright, hrest⟩
    exact .conditional hquestion hcolon hmiddle hright hrest
termination_by c.remaining * 32
decreasing_by
  · have := Level.height_le .comparison; omega
  · have := Level.height_le .comparison; omega
  · omega

/-- What the reader takes for signs with an operand is that. -/
theorem readPrefix_reads (c : Cursor) : (readPrefix c).Reads c (Expression .prefixed) := by
  rw [readPrefix]
  split
  · exact (readCall_reads c).mono fun _ _ h => .unprefixed h
  · next build c₁ h₁ haccept =>
    obtain ⟨t, hbuild, hsteps⟩ := Cursor.steps_of_acceptBy? haccept
    refine ((((readPrefix_reads c₁).weaken _).map build).step hsteps).mono ?_
    rintro _ _ ⟨ts, rfl, operand, h, rfl⟩
    unfold prefixNode? at hbuild
    split at hbuild <;> cases hbuild
    · next hk => exact .not hk h
    · next hk => exact .negate hk h
termination_by c.remaining * 32 + 3

theorem readCall_reads (c : Cursor) : (readCall c).Reads c (Expression .called) := by
  rw [readCall]
  refine ((readPrimary_reads c).andThen fun e c₁ h₁ => (readSuffixes_reads e c₁).weaken _).mono ?_
  rintro _ _ ⟨ts, us, e, rfl, h, hrest⟩
  exact hrest _ _ rfl (.uncalled h)
termination_by c.remaining * 32 + 2

/-- The reader goes on with calls and properties. -/
theorem readSuffixes_reads (e : Expr) (c : Cursor) : (readSuffixes e c).Reads c (Extends .called e) := by
  rw [readSuffixes]
  split
  · next dot c₁ h₁ haccept =>
    obtain ⟨hdot, hsteps⟩ := Cursor.steps_of_accept? haccept
    refine ((((Reads.expect .identifier .propertyName).oneThen fun name c₂ h₂ =>
      (readSuffixes_reads (.get c.site e name) c₂).weaken _).step hsteps).weaken _).mono ?_
    rintro _ _ ⟨_, rfl, name, us, rfl, hname, hrest⟩
    exact .get hdot hname hrest
  · split
    · exact .done .refl
    · next opening c₁ h₁ haccept =>
      obtain ⟨hopening, hsteps⟩ := Cursor.steps_of_accept? haccept
      refine ((((readArguments_reads c₁).andThen fun arguments c₂ h₂ =>
        ((Reads.expect .rightParen .argumentsClosing).weaken _).oneThen fun paren c₃ h₃ =>
          (readSuffixes_reads (.call c.site e paren arguments) c₃).weaken _).step hsteps).weaken _).mono ?_
      rintro _ _ ⟨_, rfl, us, _, arguments, rfl, ⟨h, hmax⟩, paren, vs, rfl, hparen, hrest⟩
      exact .call hopening hparen h hmax hrest
termination_by c.remaining * 32

theorem readArguments_reads (c : Cursor) :
    (readArguments c).Reads c fun site ts es => Arguments site ts es ∧ es.length ≤ 255 := by
  rw [readArguments]
  split
  · exact .done ⟨.none, Nat.zero_le _⟩
  · refine ((readArgumentList_reads 0 c).weaken _).mono ?_
    rintro _ _ ⟨h, -, hmax⟩
    exact ⟨h, by omega⟩
termination_by c.remaining * 32 + 19

/-- What the reader takes for arguments are at most as many as there may be. -/
theorem readArgumentList_reads (before : Nat) (c : Cursor) :
    (readArgumentList before c).Reads c fun site ts es =>
      Arguments site ts es ∧ es ≠ [] ∧ before + es.length ≤ 255 := by
  rw [readArgumentList]
  refine ((read_reads (c.noteIf (maxArguments ≤ before) .tooManyArguments)).noteIf.andThen
    (S := MoreArguments (before + 1)) fun e c₁ h₁ => ?_).mono ?_
  · have h₁ : c₁.remaining < c.remaining := h₁
    dsimp only
    split
    · exact .done .last
    · next comma c₂ h₂ haccept =>
      obtain ⟨hcomma, hsteps⟩ := Cursor.steps_of_accept? haccept
      refine ((((readArgumentList_reads (before + 1) c₂).weaken _).map (e :: ·)).step hsteps).mono ?_
      rintro _ _ ⟨ts, rfl, es, ⟨h, hes, hmax⟩, rfl⟩
      exact .comma hcomma h hes hmax
  · rintro _ _ ⟨ts, us, e, rfl, ⟨hbefore, h⟩, hrest⟩
    cases hrest with
    | last =>
      rw [List.append_nil]
      exact ⟨.one h, by simp, by have := of_decide_eq_false hbefore; simp [maxArguments] at this ⊢; omega⟩
    | comma hcomma h' hes hmax =>
      exact ⟨.more h hcomma h' hes, by simp, by simp; omega⟩
termination_by c.remaining * 32 + 18
decreasing_by
  · exact Nat.lt_succ_self (c.remaining * 32 + 17)
  · omega

/-- What the reader takes for a primary expression is one. -/
theorem readPrimary_reads (c : Cursor) : (readPrimary c).Reads c (Expression .primary) := by
  rw [readPrimary]
  split
  · exact .fail .expression
  · next t c₁ h₁ haccept =>
    obtain ⟨_, ⟨⟩, hsteps⟩ := Cursor.steps_of_acceptBy? haccept
    split
    · next hk => exact .stepDone hsteps (.constant (.false hk))
    · next hk => exact .stepDone hsteps (.constant (.true hk))
    · next hk => exact .stepDone hsteps (.constant (.nil hk))
    · next hk => exact .stepDone hsteps (.constant (.carried (.inl hk)))
    · next hk => exact .stepDone hsteps (.constant (.carried (.inr hk)))
    · next hk => exact .stepDone hsteps (.this hk)
    · next hk => exact .stepDone hsteps (.named hk)
    · next hk =>
      refine ((((Reads.expect .dot .superDot).weaken _).oneThen fun dot c₂ h₂ =>
        ((Reads.expect .identifier .superMethodName).weaken _).map _).step hsteps).mono ?_
      rintro _ _ ⟨_, rfl, dot, _, rfl, hdot, method, ⟨rfl, hmethod⟩, rfl⟩
      exact .super hk hdot hmethod
    · next hk =>
      refine ((((read_reads c₁).weaken _).andThen fun inner c₂ h₂ =>
        ((Reads.expect .rightParen .groupClosing).weaken _).map _).step hsteps).mono ?_
      rintro _ _ ⟨_, rfl, ts, _, inner, rfl, h, closing, ⟨rfl, hclosing⟩, rfl⟩
      exact .grouping hk h hclosing
    · exact .fail .expression
termination_by c.remaining * 32 + 1

end

end Expr

end Lox
