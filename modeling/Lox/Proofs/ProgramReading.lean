import Lox.Tree.Program
import Lox.Proofs.ExpressionReading
import Lox.Proofs.ExpressionAccepted

/-!
# Reading programs follows the grammar
-/

namespace Lox

open Grammar Parsed

namespace Grammar

/-- An expression and the semicolon that ends it. -/
def Ended (site : Site) (ts : List Token) (e : Expr) : Prop :=
  ∃ us ending, ts = us ++ [ending] ∧ ending.kind = .semicolon ∧ Expression .assignment site us e

/-- An expression in parentheses. -/
def Condition (site : Site) (ts : List Token) (e : Expr) : Prop :=
  ∃ opening us closing, ts = opening :: (us ++ [closing]) ∧ opening.kind = .leftParen ∧
    closing.kind = .rightParen ∧ Expression .assignment (site + 1) us e

/-- Declarations and the brace that closes them. -/
def Closed (site : Site) (ts : List Token) (body : List Stmt) : Prop :=
  ∃ us ending, ts = us ++ [ending] ∧ ending.kind = .rightBrace ∧ Declarations site us body

end Grammar

theorem readCondition_reads (keyword : String) (c : Cursor) :
    (readCondition keyword c).Reads c Condition := by
  unfold readCondition
  refine ((Reads.expect .leftParen _).oneThen fun opening c₁ h₁ =>
    ((Expr.read_reads c₁).weaken _).andThen fun condition c₂ h₂ =>
      ((Reads.expect .rightParen _).weaken _).map _).mono ?_
  rintro _ _ ⟨opening, _, rfl, hopening, us, _, e, rfl, h, closing, ⟨rfl, hclosing⟩, rfl⟩
  exact ⟨opening, us, closing, rfl, hopening, hclosing, h⟩

theorem readEnded_reads (what : Expected) (c : Cursor) : (readEnded what c).Reads c Ended := by
  unfold readEnded
  refine ((Expr.read_reads c).andThen fun e c₁ h₁ =>
    ((Reads.expect .semicolon _).weaken _).map _).mono ?_
  rintro _ _ ⟨us, _, e, rfl, h, ending, ⟨rfl, hending⟩, rfl⟩
  exact ⟨us, ending, rfl, hending, h⟩

/-- What the reader takes for a declaration of a variable is one. -/
theorem readVariable_reads (c : Cursor) : (readVariable c).Reads c Variable := by
  unfold readVariable
  refine ((Reads.expect .identifier _).oneThen
    (S := fun name site us s => ∀ site₀, site = site₀ + 1 → name.kind = .identifier →
      Variable site₀ (name :: us) s) fun name c₁ h₁ => ?_).mono ?_
  · split
    · refine (((Reads.expect .semicolon _).weaken _).map _).mono ?_
      rintro _ _ ⟨ending, ⟨rfl, hending⟩, rfl⟩ site _ hname
      exact .plain hname hending
    · next sign c₂ h₂ haccept =>
      obtain ⟨hsign, hsteps⟩ := Cursor.steps_of_accept? haccept
      refine ((((readEnded_reads _ c₂).weaken _).map _).step hsteps).mono ?_
      rintro _ _ ⟨_, rfl, e, ⟨us, ending, rfl, hending, h⟩, rfl⟩ site hsite hname
      rw [hsite] at h
      exact .initialized hname hsign h hending
  · rintro _ _ ⟨name, us, rfl, hname, h⟩
    exact h _ rfl hname

/-- What the reader takes for parameters are at most as many as there may be. -/
theorem readParameterList_reads (before : Nat) (c : Cursor) :
    (readParameterList before c).Reads c fun _ ts names =>
      Parameters ts names ∧ names ≠ [] ∧ before + names.length ≤ 255 := by
  rw [readParameterList]
  refine ((Reads.expect (c := c.noteIf (maxArguments ≤ before) .tooManyParameters) .identifier
    .parameterName).noteIf.andThen
    (S := fun name _ us names => name.kind = .identifier → before < 255 →
      Parameters (name :: us) names ∧ names ≠ [] ∧ before + names.length ≤ 255)
    fun name c₁ h₁ => ?_).mono ?_
  · have h₁ : c₁.remaining < c.remaining := h₁
    dsimp only
    split
    · exact .done fun hname hbefore => ⟨.one hname, by simp, by simp; omega⟩
    · next comma c₂ h₂ haccept =>
      obtain ⟨hcomma, hsteps⟩ := Cursor.steps_of_accept? haccept
      refine ((((readParameterList_reads (before + 1) c₂).weaken _).map _).step hsteps).mono ?_
      rintro _ _ ⟨us, rfl, names, ⟨h, hnames, hmax⟩, rfl⟩ hname hbefore
      exact ⟨.more hname hcomma h hnames, by simp, by simp; omega⟩
  · rintro _ names ⟨_, us, name, rfl, ⟨hbefore, rfl, hname⟩, h⟩
    exact h hname (by simpa [maxArguments] using of_decide_eq_false hbefore)
termination_by c.remaining

theorem readParameters_reads (c : Cursor) :
    (readParameters c).Reads c fun _ ts names => Parameters ts names ∧ names.length ≤ 255 := by
  unfold readParameters
  split
  · exact .done ⟨.none, Nat.zero_le _⟩
  · refine ((readParameterList_reads 0 c).weaken _).mono ?_
    rintro _ _ ⟨h, -, hmax⟩
    exact ⟨h, by omega⟩

/-- What the reader takes for a superclass is one, or nothing. -/
theorem readSuperclass_reads (c : Cursor) : (readSuperclass c).Reads c Superclass := by
  unfold readSuperclass
  split
  · exact .done .absent
  · next sign c₁ h₁ haccept =>
    obtain ⟨hsign, hsteps⟩ := Cursor.steps_of_accept? haccept
    refine ((((Reads.expect .identifier _).weaken _).map _).step hsteps).mono ?_
    rintro _ _ ⟨_, rfl, name, ⟨rfl, hname⟩, rfl⟩
    rw [hsteps.site]
    exact .named hsign hname

/-- What the reader takes for the first part of a `for` is one. -/
theorem readInitializer_reads (c : Cursor) : (readInitializer c).Reads c Initializer := by
  unfold readInitializer
  split
  · next t c₁ h₁ haccept =>
    obtain ⟨ht, hsteps⟩ := Cursor.steps_of_accept? haccept
    exact .stepDone hsteps (.absent ht)
  · split
    · next keyword c₁ h₁ haccept =>
      obtain ⟨hkeyword, hsteps⟩ := Cursor.steps_of_accept? haccept
      refine ((((readVariable_reads c₁).weaken _).map _).step hsteps).mono ?_
      rintro _ _ ⟨us, rfl, s, h, rfl⟩
      exact .declared hkeyword h
    · refine ((readEnded_reads _ c).map _).mono ?_
      rintro _ _ ⟨e, ⟨us, ending, rfl, hending, h⟩, rfl⟩
      exact .expression h hending

/-- What the reader takes for an expression that may be missing is one, or nothing. -/
theorem readOptional_reads (closing : Kind) (what : Expected) (c : Cursor) :
    (readOptional closing what c).Reads c (Optional closing) := by
  unfold readOptional
  split
  · next t c₁ h₁ haccept =>
    obtain ⟨ht, hsteps⟩ := Cursor.steps_of_accept? haccept
    exact .stepDone hsteps (.absent ht)
  · refine ((Expr.read_reads c).andThen fun e c₁ h₁ =>
      ((Reads.expect closing _).weaken _).map _).mono ?_
    rintro _ _ ⟨us, _, e, rfl, h, t, ⟨rfl, ht⟩, rfl⟩
    exact .present h ht

/-- If no error has been noticed at the end, the tokens passed since a cursor are related to the
value. -/
def Taken.Reads {α : Type} {n : Nat} (x : Taken α n) (c : Cursor)
    (R : Site → List Token → α → Prop) : Prop :=
  x.next.noticed = [] → ∃ ts, c.Passes ts x.next ∧ R c.site ts x.value

/-- What is read after something has been taken. -/
theorem Taken.Reads.andThen {α β : Type} {m n : Nat} {x : Taken α n} {c : Cursor} {p : Parsed β m}
    {R : Site → List Token → α → Prop} {S : Site → List Token → β → Prop} (h : x.Reads c R)
    (hp : p.Reads x.next S) : p.Reads c (Then R fun v site us w => v = x.value ∧ S site us w) := by
  cases p with
  | failed => exact hp
  | done w last =>
    intro hquiet
    obtain ⟨us, hpass', hS⟩ := hp hquiet
    obtain ⟨ts, hpass, hR⟩ := h hpass'.quiet
    exact ⟨ts ++ us, hpass.trans hpass', ts, us, _, rfl, hR, rfl, hpass.site ▸ hS⟩

theorem Cursor.noticed_synchronize (c : Cursor) : c.synchronize.noticed = c.noticed := by
  unfold synchronize
  split <;> rfl

namespace Stmt

/-- A statement and where it was found to end: before no `else` if it ends in an `if` without one. -/
def Ending (site : Site) (ts : List Token) (s : Stmt) (next : Cursor) : Prop :=
  ∃ dangling, Statement dangling site ts s ∧ (dangling = true → next.sees .elseWord = false)

/-- What follows the statement of an `if`, read up to a cursor. -/
inductive Otherwise (condition : Expr) (yes : Stmt) (before : Cursor) :
    Site → List Token → Stmt → Cursor → Prop where
  | absent {site : Site} (h : before.sees .elseWord = false) :
    Otherwise condition yes before site [] (.branch condition yes none) before
  | present {site : Site} {other : Token} {ts : List Token} {no : Stmt} {next : Cursor}
    (h : before.sees .elseWord = true) (hother : other.kind = .elseWord)
    (hno : Ending (site + 1) ts no next) :
    Otherwise condition yes before site (other :: ts) (.branch condition yes (some no)) next

mutual

/-- What the reader takes for a declaration at the top is one. -/
theorem readDeclaration_reads (c : Cursor) (h : 0 < c.remaining) :
    (readDeclaration c h).Reads c fun site ts s => ∃ t, s = some t ∧ Declaration site ts t := by
  have hdeclared := readDeclared_reads c
  rw [readDeclaration]
  split
  · next s next shorter heq =>
    rw [heq] at hdeclared
    intro hquiet
    obtain ⟨ts, hpass, h⟩ := hdeclared hquiet
    exact ⟨ts, hpass, s, rfl, h⟩
  · next next within heq =>
    rw [heq] at hdeclared
    intro hquiet
    exact absurd (next.noticed_synchronize ▸ hquiet) hdeclared
termination_by c.remaining * 8 + 2

/-- What the reader takes for a declaration is one. -/
theorem readDeclared_reads (c : Cursor) : (readDeclared c).Reads c Declaration := by
  have hstatement : (read c).Reads c Declaration := by
    refine ReadsTo.mono (read_reads c) ?_
    rintro _ _ _ ⟨_, h, -⟩
    exact .statement h
  rw [readDeclared]
  split
  · exact hstatement
  · next t c₁ h₁ haccept =>
    obtain ⟨_, ⟨⟩, hsteps⟩ := Cursor.steps_of_acceptBy? haccept
    split
    · next hk =>
      refine (((readClass_reads c₁).weaken _).step hsteps).mono ?_
      rintro _ _ ⟨us, rfl, h⟩
      exact h _ t rfl hk
    · next hk =>
      refine ((((readRoutine_reads .function c₁).weaken _).map _).step hsteps).mono ?_
      rintro _ _ ⟨us, rfl, r, h, rfl⟩
      exact .routine hk h
    · next hk =>
      refine (((readVariable_reads c₁).weaken _).step hsteps).mono ?_
      rintro _ _ ⟨us, rfl, h⟩
      exact .declared hk h
    · exact hstatement
termination_by c.remaining * 8 + 1

/-- What the reader takes for the rest of a class is one. -/
theorem readClass_reads (c : Cursor) :
    (readClass c).Reads c fun site ts s => ∀ site₀ keyword, site = site₀ + 1 →
      keyword.kind = .classWord → Declaration site₀ (keyword :: ts) s := by
  rw [readClass]
  refine ((Reads.expect .identifier _).oneThen fun name c₁ h₁ =>
    ((readSuperclass_reads c₁).weaken _).andThen fun superclass c₂ h₂ =>
      ((Reads.expect .leftBrace _).weaken _).oneThen fun opening c₃ h₃ =>
        ((readMethods_reads c₃).weaken _).andThen fun methods c₄ h₄ =>
          ((Reads.expect .rightBrace _).weaken _).map _).mono ?_
  rintro _ _ ⟨name, _, rfl, hname, ts, _, superclass, rfl, hsuperclass, opening, _, rfl, hopening, us,
    _, methods, rfl, h, closing, ⟨rfl, hclosing⟩, rfl⟩ site keyword hsite hkeyword
  have hsite' : c.site + 1 + ts.length + 1 = site + ts.length + 3 := by grind
  rw [hsite] at hsuperclass
  rw [hsite'] at h
  simpa using Declaration.classOf hkeyword hname hsuperclass hopening h hclosing
termination_by c.remaining * 8

theorem readMethods_reads (c : Cursor) : (readMethods c).Reads c Methods := by
  rw [readMethods]
  split
  · exact .done .none
  · refine (((readRoutine_reads .method c).andThen fun method c₁ h₁ =>
      ((readMethods_reads c₁).weaken _).map _).weaken _).mono ?_
    rintro _ _ ⟨ts, us, method, rfl, h, rest, h', rfl⟩
    exact .more h h'
termination_by c.remaining * 8 + 1

/-- What the reader takes for a function is one. -/
theorem readRoutine_reads (sort : RoutineSort) (c : Cursor) : (readRoutine sort c).Reads c Function := by
  rw [readRoutine]
  refine ((Reads.expect .identifier _).oneThen fun name c₁ h₁ =>
    ((Reads.expect .leftParen _).weaken _).oneThen fun opening c₂ h₂ =>
      ((readParameters_reads c₂).weaken _).andThen fun params c₃ h₃ =>
        ((Reads.expect .rightParen _).weaken _).oneThen fun closing c₄ h₄ =>
          ((Reads.expect .leftBrace _).weaken _).oneThen fun brace c₅ h₅ =>
            ((readBlock_reads c₅).weaken _).map _).mono ?_
  rintro _ _ ⟨name, _, rfl, hname, opening, _, rfl, hopening, ts, _, params, rfl, ⟨hparams, hmax⟩,
    closing, _, rfl, hclosing, brace, _, rfl, hbrace, body, ⟨us, ending, rfl, hending, h⟩, rfl⟩
  have hsite : c.site + 1 + 1 + ts.length + 1 + 1 = c.site + ts.length + 4 := by grind
  rw [hsite] at h
  simpa using Function.mk hname hopening hparams hmax hclosing hbrace h hending
termination_by c.remaining * 8

/-- What the reader takes for the rest of a block is one. -/
theorem readBlock_reads (c : Cursor) : (readBlock c).Reads c Closed := by
  have hbody := readBody_reads c
  rw [readBlock]
  split
  next body c₁ h₁ heq =>
  rw [heq] at hbody
  refine (hbody.andThen (((Reads.expect .rightBrace _).weaken _).map _)).mono ?_
  rintro _ _ ⟨ts, _, _, rfl, h, rfl, ending, ⟨rfl, hending⟩, rfl⟩
  exact ⟨ts, ending, rfl, hending, h⟩
termination_by c.remaining * 8 + 4

/-- What the reader takes for the body of a block are declarations. -/
theorem readBody_reads (c : Cursor) : (readBody c).Reads c Declarations := by
  rw [readBody]
  split
  · exact fun hquiet => ⟨[], ⟨hquiet, rfl, rfl⟩, .nil⟩
  · next h =>
    have hdeclaration := readDeclaration_reads c (Cursor.remaining_pos (by simp_all))
    split
    next s c₁ h₁ heq =>
    have hbody := readBody_reads c₁
    rw [heq] at hdeclaration
    split
    next rest c₂ h₂ heq' =>
    rw [heq'] at hbody
    intro hquiet
    obtain ⟨us, hpass', hrest⟩ := hbody hquiet
    obtain ⟨ts, hpass, t, rfl, ht⟩ := hdeclaration hpass'.quiet
    exact ⟨ts ++ us, hpass.trans hpass', .cons ht (hpass.site ▸ hrest)⟩
termination_by c.remaining * 8 + 3

/-- What the reader takes for a statement is one. -/
theorem read_reads (c : Cursor) : (read c).ReadsTo c Ending := by
  have hexpression : ((readEnded .expressionEnd c).map Stmt.expression).ReadsTo c Ending := by
    refine ReadsTo.mono ((readEnded_reads _ c).map _) ?_
    rintro _ _ _ ⟨e, ⟨us, ending, rfl, hending, h⟩, rfl⟩
    exact ⟨false, .expression h hending, by simp⟩
  rw [read]
  split
  · exact hexpression
  · next t c₁ h₁ haccept =>
    obtain ⟨_, ⟨⟩, hsteps⟩ := Cursor.steps_of_acceptBy? haccept
    split
    · next hk =>
      refine ReadsTo.mono ((((readEnded_reads _ c₁).weaken _).map _).step hsteps) ?_
      rintro _ _ _ ⟨_, rfl, e, ⟨us, ending, rfl, hending, h⟩, rfl⟩
      exact ⟨false, .print hk h hending, by simp⟩
    · next hk =>
      refine ReadsTo.mono ((((readOptional_reads _ _ c₁).weaken _).map _).step hsteps) ?_
      rintro _ _ _ ⟨us, rfl, value, h, rfl⟩
      exact ⟨false, .returns hk h, by simp⟩
    · next hk =>
      refine ReadsTo.mono (((((readCondition_reads _ c₁).weaken _).bind fun condition c₂ h₂ =>
        (((read_reads c₂).weaken _).bind (S := Otherwise condition) fun yes c₃ h₃ => ?_)).step hsteps)) ?_
      · split
        · next haccept => exact .done (.absent (Cursor.sees_eq_false haccept))
        · next other c₄ h₄ haccept =>
          obtain ⟨hother, hsteps⟩ := Cursor.steps_of_accept? haccept
          refine ReadsTo.mono (ReadsTo.step hsteps (((read_reads c₄).weaken _).map _)) ?_
          rintro _ _ _ ⟨vs, rfl, no, hno, rfl⟩
          exact .present (hsteps.sees hother) hother hno
      · rintro _ _ _ ⟨_, rfl, _, _, condition, _, rfl,
          ⟨opening, ts, closing, rfl, hopening, hclosing, h⟩, us, _, yes, c₃, rfl,
          ⟨dangling, hyes, hnext⟩, hrest⟩
        have hsite : c.site + 1 + (opening :: (ts ++ [closing])).length = c.site + ts.length + 3 := by grind
        rw [hsite] at hyes
        cases hrest with
        | absent hsees =>
          refine ⟨true, ?_, fun _ => hsees⟩
          simpa using Statement.branch hk hopening h hclosing hyes
        | present hsees hother hno =>
          cases dangling with
          | true => simp [hnext rfl] at hsees
          | false =>
            obtain ⟨dangling, hno, hlast⟩ := hno
            have hsite' : c.site + 1 + (opening :: (ts ++ [closing])).length + us.length + 1 =
                c.site + ts.length + us.length + 4 := by grind
            rw [hsite'] at hno
            refine ⟨dangling, ?_, hlast⟩
            simpa using Statement.branches hk hopening h hclosing hyes hother hno
    · next hk =>
      refine ReadsTo.mono (ReadsTo.step hsteps (((readCondition_reads _ c₁).weaken _).bind
        fun condition c₂ h₂ => ((read_reads c₂).weaken _).map _)) ?_
      rintro _ _ next ⟨_, rfl, _, us, condition, _, rfl,
        ⟨opening, ts, closing, rfl, hopening, hclosing, h⟩, body, ⟨dangling, hbody, hnext⟩, rfl⟩
      have hsite : c.site + 1 + (opening :: (ts ++ [closing])).length = c.site + ts.length + 3 := by grind
      rw [hsite] at hbody
      refine ⟨dangling, ?_, hnext⟩
      simpa using Statement.loop hk hopening h hclosing hbody
    · next hk =>
      refine ReadsTo.mono (ReadsTo.step hsteps (((Reads.expect .leftParen _).weaken _).bind
        fun opening c₂ h₂ => ((readInitializer_reads c₂).weaken _).bind fun initializer c₃ h₃ =>
          ((readOptional_reads _ _ c₃).weaken _).bind fun condition c₄ h₄ =>
            ((readOptional_reads _ _ c₄).weaken _).bind fun increment c₅ h₅ =>
              ((read_reads c₅).weaken _).map _)) ?_
      rintro _ _ next ⟨_, rfl, _, _, opening, _, rfl, ⟨rfl, hopening⟩, ts, _, initializer, _, rfl,
        hinitializer, us, _, condition, _, rfl, hcondition, vs, ws, increment, _, rfl, hincrement, body,
        ⟨dangling, hbody, hnext⟩, rfl⟩
      have hsite : c.site + 1 + [opening].length = c.site + 2 := by grind
      have hsite₁ : c.site + 2 + ts.length = c.site + ts.length + 2 := by grind
      have hsite₂ : c.site + ts.length + 2 + us.length = c.site + ts.length + us.length + 2 := by
        grind
      have hsite₃ : c.site + ts.length + us.length + 2 + vs.length =
          c.site + ts.length + us.length + vs.length + 2 := by grind
      rw [hsite] at hinitializer hcondition hincrement hbody
      rw [hsite₁] at hcondition hincrement hbody
      rw [hsite₂] at hincrement hbody
      rw [hsite₃] at hbody
      refine ⟨dangling, ?_, hnext⟩
      simpa [Stmt.forLoop] using Statement.forLoop hk hopening hinitializer hcondition hincrement hbody
    · next hk =>
      refine ReadsTo.mono ((((readBlock_reads c₁).weaken _).map _).step hsteps) ?_
      rintro _ _ _ ⟨_, rfl, body, ⟨us, closing, rfl, hclosing, h⟩, rfl⟩
      exact ⟨false, .block hk h hclosing, by simp⟩
    · exact hexpression
termination_by c.remaining * 8

end

/-- A program that is read without an error is one of the grammar. -/
theorem readAll_reads (c : Cursor) (h : (readAll c).2.noticed = []) :
    c.noticed = [] ∧ Declarations c.site c.ahead (readAll c).1 := by
  rw [readAll] at h ⊢
  split
  · next hend =>
    rw [dif_pos hend] at h
    rw [List.eq_nil_of_length_eq_zero hend]
    exact ⟨h, .nil⟩
  · next hend =>
    rw [dif_neg hend] at h
    have hdeclaration := readDeclaration_reads c (by omega)
    generalize readDeclaration c (by omega) = x at h hdeclaration ⊢
    obtain ⟨s, c₁, h₁⟩ := x
    obtain ⟨hquiet, hrest⟩ := readAll_reads c₁ h
    obtain ⟨ts, hpass, t, rfl, ht⟩ := hdeclaration hquiet
    refine ⟨hpass.quiet, ?_⟩
    rw [hpass.ahead]
    exact .cons ht (hpass.site ▸ hrest)
termination_by c.remaining

end Stmt

end Lox
