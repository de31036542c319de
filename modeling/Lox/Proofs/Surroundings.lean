import Lox.Proofs.Running

/-!
# What a step does not look at

A step looks at the topmost task only, at the distance of at most one reference, and neither at what was
printed nor at the log. So a machine takes the same step whatever stands around it: further tasks below its
own, what was printed and logged before, and distances of other references (`Machine.step_within`). Only a
machine that has run out of its own tasks notices that there are others below.

So a step never changes the distances of the references, and it only adds to what has been printed
(`Store.Keeps`).
-/

namespace Lox

/-- What can stand around a machine: tasks below its own, a table of distances, and what was printed and
logged before. -/
structure Surroundings where
  below : List Task
  bindings : Std.TreeMap Site Nat
  printed : Array Text
  log : Array LogRecord

variable (c : Surroundings)

namespace Store

/-- A store in surroundings. -/
def within (s : Store) : Store :=
  { s with bindings := c.bindings, printed := c.printed ++ s.printed, log := c.log ++ s.log }

/-- The distance of a reference is the same in surroundings. -/
def AgreesAt (s : Store) (ref : Reference) : Prop := c.bindings[ref.site]? = s.bindings[ref.site]?

variable {c}

theorem lookUp_within {s : Store} {ref : Reference} (h : s.AgreesAt c ref) :
    (s.within c).lookUp ref = s.lookUp ref := by
  unfold lookUp
  rw [show (s.within c).bindings[ref.site]? = s.bindings[ref.site]? from h]
  rfl

theorem target_within {s : Store} {ref : Reference} (h : s.AgreesAt c ref) :
    (s.within c).target ref = s.target ref := by
  unfold target
  rw [show (s.within c).bindings[ref.site]? = s.bindings[ref.site]? from h]
  rfl

theorem makeMethods_within (s : Store) (methods : List Routine) :
    (s.within c).makeMethods methods = ((s.makeMethods methods).1.within c, (s.makeMethods methods).2) := by
  unfold makeMethods
  generalize Table.empty = table
  induction methods generalizing s table with
  | nil => rfl
  | cons m rest ih => exact ih (s.newFunction m (m.name.lexeme = initName)).1 _

/-- A class is declared alike in other surroundings. -/
theorem declareClass_within (s : Store) (name : Token) (superclass : Option ClassId)
    (methods : List Routine) :
    (s.within c).declareClass name superclass methods =
      (s.declareClass name superclass methods).within c := by
  unfold declareClass
  cases superclass with
  | none =>
    rw [show (s.within c).define name .nil = (s.define name .nil).within c from rfl]
    dsimp only
    rw [makeMethods_within]
    rfl
  | some k =>
    rw [show (s.within c).define name .nil = (s.define name .nil).within c from rfl]
    dsimp only
    generalize s.define name .nil = s'
    rw [show (s'.within c).openScope.put (s'.within c).openScope.scope superName (.classValue k) =
      (s'.openScope.put s'.openScope.scope superName (.classValue k)).within c from rfl,
      makeMethods_within]
    rfl

/-- A later store: the distances are the same, and what was printed is still there. -/
structure Keeps (s s' : Store) : Prop where
  bindings : s'.bindings = s.bindings
  printed : s.printed.toList <+: s'.printed.toList

namespace Keeps

variable {s s' s'' : Store}

theorem refl (s : Store) : s.Keeps s := ⟨rfl, List.prefix_rfl⟩

theorem trans (h : s.Keeps s') (h' : s'.Keeps s'') : s.Keeps s'' :=
  ⟨h'.bindings.trans h.bindings, h.printed.trans h'.printed⟩

end Keeps

end Store

namespace Machine

/-- A machine in surroundings. -/
def within (m : Machine) : Machine := ⟨m.control, m.tasks ++ c.below, m.store.within c⟩

/-- The reference whose distance the next step looks at. -/
def consulted? : Machine → Option Reference
  | ⟨.evaluate (.variable ref), _, _⟩ | ⟨.evaluate (.this ref), _, _⟩
  | ⟨.evaluate (.super ref _), _, _⟩ => some ref
  | ⟨.deliver _, .assign ref :: _, _⟩ => some ref
  | _ => none

/-- A machine with an outcome for which it has no task. -/
inductive Idle : Machine → Prop where
  | deliver (v : Value) (s : Store) : Idle ⟨.deliver v, [], s⟩
  | complete (completion : Completion) (s : Store) : Idle ⟨.complete completion, [], s⟩
  | unwind (f : Failure) (s : Store) : Idle ⟨.unwind f, [], s⟩

instance : DecidablePred Idle
  | ⟨.deliver v, [], s⟩ => isTrue (.deliver v s)
  | ⟨.complete completion, [], s⟩ => isTrue (.complete completion s)
  | ⟨.unwind f, [], s⟩ => isTrue (.unwind f s)
  | ⟨.evaluate _, _, _⟩ | ⟨.execute _, _, _⟩ | ⟨.fault _, _, _⟩ | ⟨_, _ :: _, _⟩ => isFalse nofun

variable {c} (tasks : List Task) (s : Store)

theorem raise_within (t : Token) (cause : RuntimeCause) :
    raise t cause (tasks ++ c.below) (s.within c) = (raise t cause tasks s).within c := rfl

theorem handOn_within (t : Token) (result : Except (Fault ⊕ RuntimeCause) Value) :
    handOn t result (tasks ++ c.below) (s.within c) = (handOn t result tasks s).within c := by
  unfold handOn
  split <;> rfl

theorem handOnApplied_within (t : Token) (result : Except RuntimeCause Value) :
    handOnApplied t result (tasks ++ c.below) (s.within c) = (handOnApplied t result tasks s).within c := by
  unfold handOnApplied
  split <;> rfl

/-- A method of the superclass is taken alike in other surroundings. -/
theorem superMethod_within {ref : Reference} (h : s.AgreesAt c ref) (method : Token) :
    superMethod ref method (tasks ++ c.below) (s.within c) = (superMethod ref method tasks s).within c := by
  unfold superMethod
  rw [show (s.within c).bindings[ref.site]? = s.bindings[ref.site]? from h,
    show (s.within c).heap = s.heap from rfl, show (s.within c).scope = s.scope from rfl]
  dsimp only
  split
  · split <;> rfl
  all_goals rfl

theorem evaluate_within (e : Expr) (h : ∀ ref ∈ consulted? ⟨.evaluate e, tasks, s⟩, s.AgreesAt c ref) :
    evaluate e (tasks ++ c.below) (s.within c) = (evaluate e tasks s).within c := by
  cases e with
  | «variable» ref | this ref =>
    have hlookUp := Store.lookUp_within (h ref rfl)
    exact (congrArg (handOn ref.token · _ _) hlookUp).trans (handOn_within tasks s ref.token _)
  | super ref method => exact superMethod_within tasks s (h ref rfl) method
  | _ => rfl

/-- A statement is executed alike in other surroundings. -/
theorem execute_within (stmt : Stmt) :
    execute stmt (tasks ++ c.below) (s.within c) = (execute stmt tasks s).within c := by
  cases stmt with
  | returns _ value => cases value <;> rfl
  | «variable» _ initializer => cases initializer <;> rfl
  | classOf name superclass methods =>
    cases superclass with
    | none =>
      unfold execute
      dsimp only
      rw [s.declareClass_within]
      rfl
    | some _ => rfl
  | _ => rfl

theorem pushFrame_within (name : Text) (paren : Token) :
    pushFrame name paren (s.within c) = (pushFrame name paren s).within c := by
  unfold pushFrame Store.within
  dsimp only
  rw [Array.append_push]

theorem popFrame_within (name : Text) : popFrame name (s.within c) = (popFrame name s).within c := by
  unfold popFrame Store.within
  dsimp only
  rw [Array.append_push]

theorem enterFunction_within (closure : Closure) (args : List Value) :
    enterFunction closure args (tasks ++ c.below) (s.within c) =
      (enterFunction closure args tasks s).within c := by
  unfold enterFunction
  split <;> rfl

/-- An instance is made alike in other surroundings. -/
theorem construct_within (k : ClassId) (args : List Value) :
    construct k args (tasks ++ c.below) (s.within c) = (construct k args tasks s).within c := by
  unfold construct
  rw [show (s.within c).newInstance k = ((s.newInstance k).1.within c, (s.newInstance k).2) from rfl]
  generalize s.newInstance k = made
  obtain ⟨s', o⟩ := made
  dsimp only
  rw [show (s'.within c).heap = s'.heap from rfl]
  split
  · rfl
  · next initializer _ =>
    rw [show (s'.within c).bind initializer o =
      ((s'.bind initializer o).1.within c, (s'.bind initializer o).2) from rfl]
    generalize s'.bind initializer o = bound
    obtain ⟨s'', f⟩ := bound
    dsimp only
    rw [show (s''.within c).heap = s''.heap from rfl]
    split
    · next closure _ => exact enterFunction_within (.construct o :: tasks) s'' closure args
    · rfl

/-- A built-in function is called alike in other surroundings. -/
theorem callNative_within (limits : Limits) (n : Native) (args : List Value) (paren : Token) :
    callNative limits n args paren (tasks ++ c.below) (s.within c) =
      (callNative limits n args paren tasks s).within c := by
  unfold callNative
  have hpush := pushFrame_within (c := c)
    { s with readings := if n = .clock then s.readings + 1 else s.readings } (text n.name) paren
  change pushFrame _ _ { s.within c with
    readings := if n = .clock then (s.within c).readings + 1 else (s.within c).readings } = _ at hpush
  dsimp only at hpush ⊢
  rw [hpush]
  generalize pushFrame (text n.name) paren _ = s'
  rw [show (s.within c).readings = s.readings from rfl, show (s'.within c).heap = s'.heap from rfl]
  split
  · next action _ =>
    generalize action.perform s'.heap = performed
    obtain ⟨heap, v⟩ := performed
    have hpop := popFrame_within (c := c) { s' with heap } (text n.name)
    exact congrArg (Machine.mk (.deliver v) (tasks ++ c.below)) hpop
  · rw [popFrame_within, raise_within]
  · rfl

/-- A value is called alike in other surroundings. -/
theorem apply_within (limits : Limits) (callee : Value) (args : List Value) (paren : Token) :
    apply limits callee args paren (tasks ++ c.below) (s.within c) =
      (apply limits callee args paren tasks s).within c := by
  unfold apply
  rw [show (s.within c).heap = s.heap from rfl, show (s.within c).frames = s.frames from rfl]
  split
  · rfl
  · split_ifs
    · rfl
    · rfl
    · dsimp only
      split
      · exact callNative_within tasks s limits _ args paren
      · split
        · next closure _ =>
          rw [pushFrame_within]
          exact enterFunction_within (.endCall _ paren :: tasks) _ closure args
        · rfl
      · rw [pushFrame_within]
        exact construct_within (.endCall _ paren :: tasks) _ _ args
      · rfl

theorem nextArgument_within (limits : Limits) (paren : Token) (callee : Value) (done : List Value)
    (rest : List Expr) :
    nextArgument limits paren callee done rest (tasks ++ c.below) (s.within c) =
      (nextArgument limits paren callee done rest tasks s).within c := by
  cases rest with
  | nil => exact apply_within tasks s limits callee done.reverse paren
  | cons e rest => rfl

/-- A task is resumed alike in other surroundings. -/
theorem resume_within (limits : Limits) (v : Value) (task : Task)
    (h : ∀ ref ∈ consulted? ⟨.deliver v, task :: tasks, s⟩, s.AgreesAt c ref) :
    resume limits v task (tasks ++ c.below) (s.within c) = (resume limits v task tasks s).within c := by
  cases task with
  | assign ref =>
    unfold resume
    dsimp only
    rw [Store.target_within (h ref rfl)]
    split <;> rfl
  | unary op sign | binaryRight op sign left => exact handOnApplied_within tasks s sign _
  | logical op right =>
    unfold resume
    dsimp only
    split_ifs <;> rfl
  | callee paren arguments => exact nextArgument_within tasks s limits paren v [] arguments
  | argument paren callee done rest => exact nextArgument_within tasks s limits paren callee _ rest
  | get name =>
    cases v with
    | instanceValue o =>
      unfold resume
      dsimp only
      rw [show (s.within c).heap = s.heap from rfl]
      split <;> rfl
    | _ => rfl
  | setObject name value => cases v <;> rfl
  | print =>
    unfold resume within Store.within
    dsimp only
    rw [Array.append_push]
  | branch yes no =>
    unfold resume
    dsimp only
    split
    · rfl
    · cases no <;> rfl
  | loopTest condition body =>
    unfold resume
    dsimp only
    split <;> rfl
  | superclass name superclass methods =>
    cases v with
    | classValue k =>
      unfold resume
      dsimp only
      rw [s.declareClass_within]
      rfl
    | _ => rfl
  | endCall name paren =>
    unfold resume
    dsimp only
    rw [popFrame_within]
    rfl
  | _ => rfl

theorem endBody_within (completion : Completion) (closure : Closure) (outer : ScopeId) :
    endBody completion closure outer (tasks ++ c.below) (s.within c) =
      (endBody completion closure outer tasks s).within c := by
  have hheap : (s.within c).heap = s.heap := rfl
  have hreturning : (s.within c).returning = s.returning := rfl
  cases completion <;> unfold endBody <;> simp only [hheap, hreturning] <;> split <;> rfl

/-- A statement is followed alike in other surroundings. -/
theorem proceed_within (completion : Completion) (task : Task) :
    proceed completion task (tasks ++ c.below) (s.within c) = (proceed completion task tasks s).within c := by
  cases task with
  | sequence rest =>
    cases completion with
    | normal => cases rest <;> rfl
    | returned => rfl
  | loopBody condition body => cases completion <;> rfl
  | endBody closure outer => exact endBody_within tasks s completion closure outer
  | _ => rfl

theorem giveUp_within (f : Failure) (task : Task) :
    giveUp f task (tasks ++ c.below) (s.within c) = (giveUp f task tasks s).within c := by
  cases task with
  | endCall name paren => cases f <;> rfl
  | _ => rfl

/-- A machine that is not idle takes the same step in every surroundings that agree on the reference at
which the step looks. With no tasks below the same holds of an idle machine. -/
theorem step_within (limits : Limits) (m : Machine) (hidle : c.below = [] ∨ ¬ m.Idle)
    (h : ∀ ref ∈ m.consulted?, m.store.AgreesAt c ref) :
    (m.within c).step limits = (m.step limits).within c := by
  obtain ⟨control, tasks, s⟩ := m
  cases tasks with
  | nil =>
    cases control with
    | evaluate e => exact evaluate_within [] s e h
    | execute stmt => exact execute_within [] s stmt
    | fault f => rfl
    | deliver v =>
      -- The machine has no task of its own left, and what is below would be the next to go on.
      obtain ⟨below, bindings, printed, log⟩ := c
      obtain rfl : below = [] := hidle.resolve_right (not_not_intro (.deliver v s))
      rfl
    | complete completion =>
      obtain ⟨below, bindings, printed, log⟩ := c
      obtain rfl : below = [] := hidle.resolve_right (not_not_intro (.complete completion s))
      cases completion <;> rfl
    | unwind f =>
      obtain ⟨below, bindings, printed, log⟩ := c
      obtain rfl : below = [] := hidle.resolve_right (not_not_intro (.unwind f s))
      rfl
  | cons task tasks =>
    cases control with
    | evaluate e => exact evaluate_within (task :: tasks) s e h
    | execute stmt => exact execute_within (task :: tasks) s stmt
    | deliver v => exact resume_within tasks s limits v task h
    | complete completion => exact proceed_within tasks s completion task
    | unwind f => exact giveUp_within tasks s f task
    | fault f => rfl

/-- A step prints after what was printed, in the surroundings of which it takes its course. -/
theorem keeps_step (limits : Limits) (m : Machine) : m.store.Keeps (m.step limits).store := by
  obtain ⟨control, tasks, s⟩ := m
  have hstep := step_within (c := ⟨[], s.bindings, s.printed, #[]⟩) limits
    ⟨control, tasks, { s with printed := #[] }⟩ (.inl rfl) fun _ _ => rfl
  have hstart : within ⟨[], s.bindings, s.printed, #[]⟩ ⟨control, tasks, { s with printed := #[] }⟩ =
      ⟨control, tasks, s⟩ := by
    simp [within, Store.within]
  rw [hstart] at hstep
  rw [hstep]
  refine ⟨rfl, ?_⟩
  rw [within, Store.within, Array.toList_append]
  exact List.prefix_append _ _

theorem keeps_run (limits : Limits) (n : Nat) (m : Machine) : m.store.Keeps (m.run limits n).store :=
  run_induction limits (P := fun m' => m.store.Keeps m'.store)
    (fun m' h => h.trans (keeps_step limits m')) (.refl _) n

end Machine

end Lox
