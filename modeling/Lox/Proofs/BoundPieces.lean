import Lox.Proofs.Walk

/-!
# Binding a program in pieces

What was bound and reported before a statement does not matter for it: a binder only ever adds to its
bindings and errors (`Stmt.bind_atop`). After a statement at the top no scope is open and the contexts are
those of the start. So a program binds as its pieces do, each on its own, one after the other
(`Bound.ofProgram_append`).
-/

namespace Lox

/-- What was bound and reported in one piece and then in another. -/
def Bound.append (first second : Bound) : Bound :=
  ⟨first.bindings ++ second.bindings, first.errors ++ second.errors⟩

namespace Binder

/-- A binder that had found bindings and errors before. -/
def atop (b : Binder) (bindings : List (Site × Nat)) (errors : List StaticError) : Binder :=
  { b with bindings := b.bindings ++ bindings, errors := b.errors ++ errors }

variable (b : Binder) (bindings : List (Site × Nat)) (errors : List StaticError)

theorem enter_atop (scope : Table Bool) :
    (b.atop bindings errors).enter scope = (b.enter scope).atop bindings errors := rfl

theorem enterWith_atop (name : Text) :
    (b.atop bindings errors).enterWith name = (b.enterWith name).atop bindings errors := rfl

theorem leave_atop : (b.atop bindings errors).leave = b.leave.atop bindings errors := rfl

theorem declare_atop (name : Token) :
    (b.atop bindings errors).declare name = (b.declare name).atop bindings errors := by
  cases h : b.scopes with
  | nil => rw [declare_nil h, declare_nil (b := b.atop bindings errors) h]
  | cons =>
    rw [declare_cons h, declare_cons (b := b.atop bindings errors) h]
    split <;> rfl

theorem define_atop (name : Token) :
    (b.atop bindings errors).define name = (b.define name).atop bindings errors := by
  cases h : b.scopes with
  | nil => rw [define_nil h, define_nil (b := b.atop bindings errors) h]
  | cons =>
    rw [define_cons h, define_cons (b := b.atop bindings errors) h]
    rfl

theorem bind_atop (ref : Reference) :
    (b.atop bindings errors).bind ref = (b.bind ref).atop bindings errors := by
  unfold bind
  rw [show (b.atop bindings errors).distance? ref.name = b.distance? ref.name from rfl]
  split <;> rfl

theorem checkDefined_atop (ref : Reference) :
    (b.atop bindings errors).checkDefined ref = (b.checkDefined ref).atop bindings errors := by
  by_cases h : b.scopes.head?.bind (·.get? ref.name) = some false
  · rw [checkDefined_pos h, checkDefined_pos (b := b.atop bindings errors) h]
    rfl
  · rw [checkDefined_neg h, checkDefined_neg (b := b.atop bindings errors) h]

theorem bindVariable_atop (ref : Reference) :
    (b.atop bindings errors).bindVariable ref = (b.bindVariable ref).atop bindings errors := by
  rw [bindVariable, checkDefined_atop, bind_atop, bindVariable]

theorem checkSuper_atop (ref : Reference) :
    (b.atop bindings errors).checkSuper ref = (b.checkSuper ref).atop bindings errors := by
  unfold checkSuper
  rw [show (b.atop bindings errors).inClass = b.inClass from rfl]
  split <;> rfl

/-- The check of a return does not look at what was recorded before. -/
theorem checkReturn_atop (keyword : Token) (hasValue : Bool) :
    (b.atop bindings errors).checkReturn keyword hasValue =
      (b.checkReturn keyword hasValue).atop bindings errors := by
  unfold checkReturn
  rw [show (b.atop bindings errors).inRoutine = b.inRoutine from rfl]
  split
  · rfl
  · split <;> rfl
  · rfl

theorem checkSuperclass_atop (name : Token) (superclass : Reference) :
    (b.atop bindings errors).checkSuperclass name superclass =
      (b.checkSuperclass name superclass).atop bindings errors := by
  unfold checkSuperclass
  split <;> rfl

theorem enterRoutine_atop (params : List Token) :
    (b.atop bindings errors).enterRoutine params = (b.enterRoutine params).atop bindings errors := by
  unfold enterRoutine
  rw [enter_atop]
  generalize b.enter .empty = b
  induction params generalizing b with
  | nil => rfl
  | cons p rest ih => rw [List.foldl_cons, declare_atop, define_atop, ih, List.foldl_cons]

theorem nameClass_atop (name : Token) :
    (b.atop bindings errors).nameClass name = (b.nameClass name).atop bindings errors := by
  unfold nameClass
  rw [← define_atop, ← declare_atop]
  rfl

theorem openClass_atop (name : Token) :
    (b.atop bindings errors).openClass name = (b.openClass name).atop bindings errors := by
  rw [openClass, nameClass_atop, enterWith_atop, openClass]

theorem derive_atop (name : Token) (superclass : Reference) :
    (b.atop bindings errors).derive name superclass = (b.derive name superclass).atop bindings errors := by
  rw [derive, nameClass_atop, checkSuperclass_atop]
  rfl

theorem openDerived_atop (name : Token) (superclass : Reference) :
    (b.atop bindings errors).openDerived name superclass =
      (b.openDerived name superclass).atop bindings errors := by
  rw [openDerived, derive_atop, bindVariable_atop, enterWith_atop, enterWith_atop, openDerived]

end Binder

section Over

variable (bindings : List (Site × Nat)) (errors : List StaticError)

/-- The walk over an expression only adds to what was recorded before. -/
theorem Expr.bind_atop (e : Expr) (b : Binder) :
    e.bind (b.atop bindings errors) = (e.bind b).atop bindings errors := by
  induction e using @Expr.rec _ (fun es => ∀ b : Binder, bindAll es (b.atop bindings errors) =
    (bindAll es b).atop bindings errors) generalizing b with
  | literal | nil => rfl
  | grouping _ _ ih | unary _ _ _ _ ih | get _ _ _ ih => exact ih b
  | «variable» ref => exact b.bindVariable_atop bindings errors ref
  | assign _ _ ih => rw [bind, ih, Binder.bind_atop, bind]
  | this ref =>
    unfold bind
    rw [show (b.atop bindings errors).inClass = b.inClass from rfl]
    split
    · rfl
    · rw [Binder.bind_atop]
  | super => rw [bind, Binder.checkSuper_atop, Binder.bind_atop, bind]
  | binary _ _ _ _ _ ih ih' | logical _ _ _ _ _ ih ih' | call _ _ _ _ ih ih' => rw [bind, ih, ih', bind]
  | set _ _ _ _ ih ih' => rw [bind, ih', ih, bind]
  | conditional _ _ _ _ _ _ ih ihmiddle ihright => rw [bind, ih, ihmiddle, ihright, bind]
  | cons _ _ ih ih' => rw [bindAll, ih, ih', bindAll]

theorem Expr.bindOption_atop (e : Option Expr) (b : Binder) :
    Expr.bindOption e (b.atop bindings errors) = (Expr.bindOption e b).atop bindings errors := by
  cases e with
  | none => rfl
  | some e => exact e.bind_atop bindings errors b

mutual

/-- Binding a statement adds to what was found before. -/
theorem Stmt.bind_atop : (s : Stmt) → (b : Binder) →
    s.bind (b.atop bindings errors) = (s.bind b).atop bindings errors
  | .expression e, b | .print e, b => e.bind_atop bindings errors b
  | .returns keyword value, b => by
    rw [Stmt.bind, Binder.checkReturn_atop, Expr.bindOption_atop, Stmt.bind]
  | .branch condition body none, b | .loop condition body, b => by
    rw [Stmt.bind, Expr.bind_atop, Stmt.bind_atop body, Stmt.bind]
  | .branch condition yes (some no), b => by
    rw [Stmt.bind, Expr.bind_atop, Stmt.bind_atop yes, Stmt.bind_atop no, Stmt.bind]
  | .block body, b => by
    rw [Stmt.bind, Binder.enter_atop, Stmt.bindAll_atop body, Binder.leave_atop, Stmt.bind]
  | .variable name initializer, b => by
    rw [Stmt.bind, Binder.declare_atop, Expr.bindOption_atop, Binder.define_atop, Stmt.bind]
  | .routine r, b => by
    rw [Stmt.bind, Binder.declare_atop, Binder.define_atop, Routine.bind_atop r, Stmt.bind]
  | .classOf name none methods, b => by
    -- The class is opened on both sides, and closing it gives back `inClass` on both.
    have hopen := b.openClass_atop bindings errors name
    have hmethods := Routine.bindMethods_atop methods (b.openClass name)
    rw [← hopen] at hmethods
    exact congrArg (fun bound : Binder => { bound.leave with inClass := b.inClass }) hmethods
  | .classOf name (some superclass) methods, b => by
    have hopen := b.openDerived_atop bindings errors name superclass
    have hmethods := Routine.bindMethods_atop methods (b.openDerived name superclass)
    rw [← hopen] at hmethods
    exact congrArg (fun bound : Binder => { bound.leave.leave with inClass := b.inClass }) hmethods

theorem Routine.bind_atop : (r : Routine) → (context : RoutineContext) → (b : Binder) →
    r.bind context (b.atop bindings errors) = (r.bind context b).atop bindings errors
  | .mk _ params body, context, b => by
    have hparams := Binder.enterRoutine_atop { b with inRoutine := context } bindings errors params
    have hbody := Stmt.bindAll_atop body (({ b with inRoutine := context }).enterRoutine params)
    rw [← hparams] at hbody
    exact congrArg (fun bound : Binder => { bound.leave with inRoutine := b.inRoutine }) hbody

theorem Stmt.bindAll_atop : (ss : List Stmt) → (b : Binder) →
    Stmt.bindAll ss (b.atop bindings errors) = (Stmt.bindAll ss b).atop bindings errors
  | [], _ => rfl
  | s :: rest, b => by rw [Stmt.bindAll, Stmt.bind_atop s, Stmt.bindAll_atop rest, Stmt.bindAll]

theorem Routine.bindMethods_atop : (rs : List Routine) → (b : Binder) →
    Routine.bindMethods rs (b.atop bindings errors) = (Routine.bindMethods rs b).atop bindings errors
  | [], _ => rfl
  | r :: rest, b => by
    rw [Routine.bindMethods, Routine.bind_atop r, Routine.bindMethods_atop rest, Routine.bindMethods]

end

end Over

theorem Stmt.bindAll_append (ss ss' : List Stmt) (b : Binder) :
    Stmt.bindAll (ss ++ ss') b = Stmt.bindAll ss' (Stmt.bindAll ss b) := by
  induction ss generalizing b with
  | nil => rfl
  | cons s rest ih => exact ih (s.bind b)

/-- After statements at the top no scope is open, and the contexts are what they were. -/
theorem Stmt.bindAll_alike_of_top {ss : List Stmt} (hss : Stmt.FormedAll ss) {b : Binder}
    (hb : b.scopes = []) : b.Alike (Stmt.bindAll ss b) := by
  induction ss generalizing b with
  | nil => exact .refl b
  | cons s rest ih =>
    have hfollows := s.bind_follows b hss.1
    have hscopes : (s.bind b).scopes = [] := by
      rw [hfollows.scopes, hb, Stmt.scopesAfter]
      split <;> rfl
    exact .trans ⟨hscopes.trans hb.symm, hfollows.inClass, hfollows.inRoutine, hfollows.underflows⟩
      (ih hss.2 hscopes)

/-- A program binds as its two pieces do, each on its own. -/
theorem Bound.ofProgram_append {first : Program} (hfirst : Stmt.FormedAll first) (second : Program) :
    Bound.ofProgram (first ++ second) = (Bound.ofProgram first).append (Bound.ofProgram second) := by
  have halike := Stmt.bindAll_alike_of_top hfirst (b := .start) rfl
  have hstart : Stmt.bindAll first .start = Binder.atop .start
      (Stmt.bindAll first .start).bindings (Stmt.bindAll first .start).errors := by
    generalize Stmt.bindAll first .start = b at halike
    obtain ⟨scopes, inClass, inRoutine, bindings, errors, underflows⟩ := b
    obtain ⟨hscopes, hclass, hroutine, hunderflows⟩ := halike
    dsimp only at hscopes hclass hroutine hunderflows
    subst hscopes hclass hroutine hunderflows
    rfl
  rw [Bound.ofProgram, Stmt.bindAll_append, hstart, Stmt.bindAll_atop]
  simp only [Binder.atop, List.reverse_append]
  rfl

end Lox
