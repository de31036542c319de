import Lox.Proofs.Origins
import Lox.Proofs.Pieces

/-!
# What evaluating, executing and calling leave behind

A machine evaluates an expression, executes a statement or makes a call above the tasks that wait for the
outcome, and until it has finished it does not look at them. So it runs like a machine of its own, which comes
back to the scope and the calls that it started with (`Machine.Begins.restores`), and what waits below tells
in which ways it can finish.

A return goes on to the end of the nearest body and is handed to the caller there. The value that it carries is
that of a return statement which was executed in that body, after the call that has entered it
(`Machine.ReturnOf`).
-/

namespace Lox

/-- What a machine can be at: the value of an expression or of a call, or a statement. -/
inductive Activity where
  | value
  | statement

/-- The ways in which an activity can end. A failure can end both, a return only a statement. -/
def Activity.EndsIn : Activity → Control → Prop
  | .value, .deliver _ => True
  | .statement, .complete _ => True
  | _, .unwind _ => True
  | _, _ => False

/-- Tasks that wait for a value do not wait for the end of a statement. -/
theorem Stacked.ended_ne_value {walk : Walk} {recorded : Site → Option Nat} {h h' : Heap}
    {scope scope' : ScopeId} {scopes : List (Table Bool)} {context : RoutineContext} {tasks : List Task}
    (hended : Stacked walk recorded h scope (.ended scopes context) tasks) :
    ¬ Stacked walk recorded h' scope' .value tasks := by
  intro hvalue
  cases hvalue with
  | operates ht | finishes ht => cases hended <;> exact ht

/-- A return inside a routine has the end of a body below it, and up to there only what it leaves. -/
theorem Stacked.exists_endBody {walk : Walk} {recorded : Site → Option Nat} {h : Heap} {scope : ScopeId}
    {awaited : Awaited} {tasks : List Task} (ht : Stacked walk recorded h scope awaited tasks)
    {scopes : List (Table Bool)} {context : RoutineContext} (hawaited : awaited = .ended scopes context)
    (hcontext : context ≠ .outside) :
    ∃ inner closure outer kept, tasks = inner ++ .endBody closure outer :: kept ∧
      ∀ t ∈ inner, t.inBody = true := by
  have hcons : ∀ {task : Task} {tasks}, task.inBody = true →
      (∃ inner closure outer kept, tasks = inner ++ .endBody closure outer :: kept ∧
        ∀ t ∈ inner, t.inBody = true) →
      ∃ inner closure outer kept, task :: tasks = inner ++ .endBody closure outer :: kept ∧
        ∀ t ∈ inner, t.inBody = true := by
    rintro task tasks htask ⟨inner, closure, outer, kept, rfl, hinner⟩
    exact ⟨task :: inner, closure, outer, kept, rfl, List.forall_mem_cons.2 ⟨htask, hinner⟩⟩
  induction ht generalizing scopes context with
  | nil =>
    cases hawaited
    exact absurd rfl hcontext
  | operates | finishes => cases hawaited
  | sequence _ _ ih | loopBody _ _ ih | leaveScope _ _ ih =>
    cases hawaited
    exact hcons rfl (ih rfl hcontext)
  | endBody => exact ⟨[], _, _, _, rfl, List.forall_mem_nil _⟩

/-- The result of a function that is not an initializer is what was returned. -/
theorem Heap.result_some (h : Heap) {closure : Closure} (hclosure : closure.initializer = false) {w : Value}
    (hw : w ≠ .absent) : h.result closure (some w) = w := by
  unfold Heap.result
  rw [if_neg (by simp [hclosure])]
  cases w with
  | absent => exact absurd rfl hw
  | _ => rfl

namespace Machine

variable {k n : Nat} {below : List Task}

/-- A machine that begins an activity above the tasks that wait for its outcome. -/
inductive Begins : Machine → Activity → List Task → Prop where
  | evaluate (e : Expr) (below : List Task) (s : Store) : Begins ⟨.evaluate e, below, s⟩ .value below
  | execute (stmt : Stmt) (below : List Task) (s : Store) : Begins ⟨.execute stmt, below, s⟩ .statement below
  | call {m : Machine} {call : Call} (hcall : m.call? = some call) : Begins m .value m.tasks.tail

/-- The machine is at work above given tasks: it has tasks of its own, or has still something to do. -/
def Busy (below : List Task) (m : Machine) : Prop :=
  ∃ own, m.tasks = own ++ below ∧ ¬ Idle ⟨m.control, own, m.store⟩

/-- What the machine was at above given tasks has ended, and they are next. -/
def Done (below : List Task) (m : Machine) : Prop := m.tasks = below ∧ Idle ⟨m.control, [], m.store⟩

/-- What a machine is at above given tasks ends after a number of steps, and not before. -/
structure Finishes (limits : Limits) (m : Machine) (below : List Task) (steps : Nat) : Prop where
  busy : ∀ i < steps, (m.run limits i).Busy below
  done : (m.run limits steps).Done below

/-- An activity has ended and has left the scope, the calls and the value on its way out of a routine as they
were; only a return has left its value. -/
structure Restores (a : Activity) (m m' : Machine) : Prop where
  ending : a.EndsIn m'.control
  scope : m'.store.scope = m.store.scope
  frames : m'.store.frames = m.store.frames
  returning : m'.store.returning ≠ none ↔ m'.control = .complete .returned

variable {limits : Limits} {m m' : Machine}

/-- While a machine is at work above given tasks it runs as it would without them. -/
theorem run_under (limits : Limits) (m : Machine) (below : List Task)
    (hbusy : ∀ i < k, ((m.under below).run limits i).Busy below) :
    (m.under below).run limits k = (m.run limits k).under below := by
  induction k with
  | zero => rfl
  | succ k ih =>
    have hk := ih fun i hi => hbusy i (Nat.lt_succ_of_lt hi)
    obtain ⟨own, htasks, hown⟩ := hbusy k (Nat.lt_succ_self k)
    rw [hk] at htasks hown
    have hidle : ¬ (m.run limits k).Idle := by
      rwa [← List.append_cancel_right htasks] at hown
    rw [run_succ, run_succ, hk, step_under limits hidle]

/-- What a machine is at above given tasks finishes when, without them, it has an outcome and no task for it. -/
theorem Finishes.of_own {own : List Task} (htasks : m.tasks = own ++ below)
    (hbusy : ∀ i < k, ¬ (run limits i ⟨m.control, own, m.store⟩).Idle)
    (hidle : (run limits k ⟨m.control, own, m.store⟩).Idle) : Finishes limits m below k := by
  obtain ⟨control, tasks, s⟩ := m
  obtain rfl : tasks = own ++ below := htasks
  have hrun : ∀ i ≤ k, run limits i ⟨control, own ++ below, s⟩ = (run limits i ⟨control, own, s⟩).under below := by
    intro i hi
    induction i with
    | zero => rfl
    | succ i ih => rw [run_succ, run_succ, ih (Nat.le_of_succ_le hi), step_under limits (hbusy i hi)]
  refine ⟨fun i hi => ⟨(run limits i ⟨control, own, s⟩).tasks, ?_, ?_⟩, ?_⟩
  · rw [hrun i (Nat.le_of_lt hi), under]
  · rw [hrun i (Nat.le_of_lt hi)]
    exact hbusy i hi
  · rw [hrun k (Nat.le_refl k)]
    generalize run limits k ⟨control, own, s⟩ = last at hidle
    cases hidle with
    | deliver v s => exact ⟨rfl, .deliver v s⟩
    | complete c s => exact ⟨rfl, .complete c s⟩
    | unwind f s => exact ⟨rfl, .unwind f s⟩

/-- A machine of its own comes back to the scope and the calls that its tasks lead back to. -/
theorem Finishes.released {own below : List Task} (htasks : m.tasks = own ++ below)
    (hreturning : m.control ≠ .complete .returned → m.store.returning = none) {k : Nat}
    (h : Finishes limits m below k) :
    ((m.run limits k).store.scope, (m.run limits k).store.frames) =
        Machine.released own m.store.scope m.store.frames ∧
      ((m.run limits k).control ≠ .complete .returned → (m.run limits k).store.returning = none) := by
  obtain ⟨control, tasks, s⟩ := m
  obtain rfl : tasks = own ++ below := htasks
  obtain ⟨hbusy, hdone⟩ := h
  have hrun : run limits k ⟨control, own ++ below, s⟩ = (run limits k ⟨control, own, s⟩).under below :=
    run_under limits ⟨control, own, s⟩ below hbusy
  rw [hrun] at hdone ⊢
  have hlevel : Leveled (Machine.released own s.scope s.frames) (run limits k ⟨control, own, s⟩) :=
    Leveled.run (m := ⟨control, own, s⟩) (.inr ⟨rfl, hreturning⟩) limits k
  have hempty : (run limits k ⟨control, own, s⟩).tasks = [] := List.append_left_eq_self.1 hdone.1
  rcases hlevel with ⟨f, hf⟩ | ⟨hreleased, hreturned⟩
  · have hidle := hdone.2
    unfold under at hidle
    rw [hf] at hidle
    cases hidle
  · rw [hempty] at hreleased
    exact ⟨hreleased, hreturned⟩

theorem Begins.released {a : Activity} (h : m.Begins a below) :
    ∃ own, m.tasks = own ++ below ∧
      Machine.released own m.store.scope m.store.frames = (m.store.scope, m.store.frames) := by
  cases h with
  | evaluate | execute => exact ⟨[], rfl, rfl⟩
  | call hcall =>
    obtain ⟨v, below, s, ⟨rfl, -, -⟩ | ⟨done, rfl, -⟩⟩ := of_call? hcall <;> exact ⟨[_], rfl, rfl⟩

theorem Begins.control_ne {a : Activity} (h : m.Begins a below) : m.control ≠ .complete .returned := by
  cases h with
  | evaluate | execute => exact nofun
  | call hcall => obtain ⟨v, below, s, ⟨rfl, -, -⟩ | ⟨done, rfl, -⟩⟩ := of_call? hcall <;> exact nofun

section

variable {walk : Walk} {recorded : Site → Option Nat} (hm : m.Sound walk recorded)
  (hm' : m'.Sound walk recorded)

include hm hm'

/-- The tasks below tell how an activity ends. -/
theorem Begins.endsIn {a : Activity} {below : List Task} (h : m.Begins a below) (hdone : m'.Done below) :
    a.EndsIn m'.control := by
  obtain ⟨htasks, hidle⟩ := hdone
  have hsound := hm'.control
  -- What the tasks below wait for now, and what they waited for at the beginning.
  have hstacked : (∀ v, m'.control = .deliver v → ∃ h scope, Stacked walk recorded h scope .value below) ∧
      ∀ c, m'.control = .complete c →
        ∃ h scope scopes context, Stacked walk recorded h scope (.ended scopes context) below := by
    rw [htasks] at hsound
    refine ⟨fun v hv => ?_, fun c hc => ?_⟩
    · rw [hv] at hsound
      exact ⟨_, _, hsound.2⟩
    · rw [hc] at hsound
      cases c with
      | normal =>
        obtain ⟨scopes, context, -, hstacked⟩ := hsound
        exact ⟨_, _, scopes, context, hstacked⟩
      | returned =>
        obtain ⟨⟨scopes, context, -, hstacked⟩, -⟩ := hsound
        exact ⟨_, _, scopes, context, hstacked⟩
  have hvalue : (∃ h scope, Stacked walk recorded h scope .value below) →
      Activity.value.EndsIn m'.control := by
    rintro ⟨h, scope, hbelow⟩
    generalize m'.control = control at hidle hstacked
    cases hidle with
    | deliver | unwind => trivial
    | complete c =>
      obtain ⟨h', scope', scopes, context, hended⟩ := hstacked.2 c rfl
      exact absurd hbelow hended.ended_ne_value
  have hcontrol := hm.control
  cases h with
  | evaluate e => exact hvalue ⟨_, _, hcontrol.2⟩
  | execute stmt =>
    obtain ⟨b, -, -, hbelow⟩ := hcontrol
    generalize m'.control = control at hidle hstacked
    cases hidle with
    | complete | unwind => trivial
    | deliver v =>
      obtain ⟨h', scope', hvalue⟩ := hstacked.1 v rfl
      exact absurd hvalue hbelow.ended_ne_value
  | call hcall =>
    apply hvalue
    obtain ⟨v, below, s, ⟨rfl, -, -⟩ | ⟨done, rfl, -⟩⟩ := of_call? hcall
    all_goals
      rcases hcontrol.2 with _ | ⟨-, hrest⟩ | ⟨ht, -⟩
      · exact ⟨_, _, hrest⟩
      · exact ht.elim

/-- Whatever a machine evaluates, executes or calls, it leaves the scope, the calls and the value on its way out
of a routine as they were, however it finishes. -/
theorem Begins.restores {a : Activity} {below : List Task} (h : m.Begins a below)
    (hreturning : m.store.returning = none) {k : Nat} (hfinishes : Finishes limits m below k)
    (hlast : m' = m.run limits k) : Restores a m m' := by
  subst hlast
  obtain ⟨own, htasks, hown⟩ := h.released
  obtain ⟨hreleased, hreturned⟩ := hfinishes.released htasks fun _ => hreturning
  obtain ⟨hscope, hframes⟩ := Prod.mk.inj (hreleased.trans hown)
  refine ⟨h.endsIn hm hm' hfinishes.done, hscope, hframes, fun hsome => ?_, fun hcontrol => ?_⟩
  · by_contra hcontrol
    exact hsome (hreturned hcontrol)
  · have hsound := hm'.control
    rw [hcontrol] at hsound
    obtain ⟨-, v, hv, -⟩ := hsound
    rw [hv]
    exact nofun

end

/-! ## Returns -/

/-- A return leaves what is inside the body, and the end of the body hands it on. -/
theorem run_returned (limits : Limits) (inner : List Task) (hinner : ∀ t ∈ inner, t.inBody = true)
    (closure : Closure) (outer : ScopeId) (kept : List Task) (s : Store) :
    run limits (inner.length + 1) ⟨.complete .returned, inner ++ .endBody closure outer :: kept, s⟩ =
      endBody .returned closure outer kept s := by
  rw [Nat.add_comm, run_eq_iterate]
  induction inner generalizing s with
  | nil => rfl
  | cons task inner ih =>
    obtain ⟨htask, hrest⟩ := List.forall_mem_cons.1 hinner
    rw [List.length_cons, ← Nat.add_assoc, Function.iterate_succ_apply]
    cases task with
    | sequence rest => exact ih hrest s
    | loopBody condition body => exact ih hrest s
    | leaveScope scope => exact ih hrest { s with scope }
    | _ => cases htask

/-- The evaluation of the expression of a return statement finishes when its value is handed on. -/
theorem finishes_returnValue {w : Value} (hfault : ∀ n f, (m.run limits n).control ≠ .fault f)
    (hsince : ∀ i ≤ k, .returnValue :: below <:+ (m.run limits i).tasks)
    (htasks : (m.run limits k).tasks = .returnValue :: below)
    (hcontrol : (m.run limits k).control = .deliver w) : Finishes limits m (.returnValue :: below) k := by
  refine ⟨fun i hi => ?_, htasks, ?_⟩
  · obtain ⟨own, hown⟩ := hsince i (Nat.le_of_lt hi)
    refine ⟨own, hown.symm, fun hidle => ?_⟩
    -- With an outcome and no task of its own the machine would take the task away.
    have hnext := hsince (i + 1) hi
    have hfault := hfault (i + 1)
    rw [run_succ] at hnext hfault
    generalize m.run limits i = m' at hown hidle hnext hfault
    obtain ⟨control, tasks, s⟩ := m'
    have hshort : ¬ .returnValue :: below <:+ below := fun h => Nat.not_succ_le_self _ h.length_le
    cases hidle with
    | deliver v | unwind f =>
      obtain rfl : .returnValue :: below = tasks := hown
      exact hshort hnext
    | complete c =>
      obtain rfl : .returnValue :: below = tasks := hown
      exact hfault .strayResult rfl
  · rw [hcontrol]
    exact .deliver w _

/-- A return that is on its way carries the value of a return statement, which was executed with the same tasks
below and left only what is inside a body. -/
structure Carries (limits : Limits) (m : Machine) (n j : Nat) (below : List Task) (w : Value) : Prop where
  before : j < n
  value : (m.run limits n).store.returning = some w
  stays : ∀ l, j ≤ l → l ≤ n → below <:+ (m.run limits l).tasks
  /-- The tasks of the statement up to those below. -/
  inner : ∃ inner, (m.run limits j).tasks = inner ++ below ∧ ∀ t ∈ inner, t.inBody = true
  /-- Without an expression the statement returns nil, and else what its expression evaluates to. -/
  statement : ∃ keyword expression, (m.run limits j).control = .execute (.returns keyword expression) ∧
    (expression = none ∧ w = .nil ∨
      ∃ e k, expression = some e ∧ j + 1 + k < n ∧
        m.run limits (j + 1) =
          ⟨.evaluate e, .returnValue :: (m.run limits j).tasks, (m.run limits j).store⟩ ∧
        (m.run limits (j + 1)).Finishes limits (.returnValue :: (m.run limits j).tasks) k ∧
        (m.run limits (j + 1 + k)).control = .deliver w)

theorem unwinds_giveUp (f : Failure) (task : Task) (tasks : List Task) (s : Store) :
    (giveUp f task tasks s).control.unwinds = true := by
  cases task with
  | endCall name paren => cases f <;> rfl
  | _ => rfl

namespace Carries

variable {n j : Nat} {below : List Task} {w : Value}

/-- The tasks that the return leaves next may be counted to those of the statement. -/
theorem drop (inner : List Task) (h : Carries limits m n j (inner ++ below) w)
    (hinner : ∀ t ∈ inner, t.inBody = true) : Carries limits m n j below w := by
  obtain ⟨hj, hw, hstays, ⟨first, hfirst, hinBody⟩, hstatement⟩ := h
  refine ⟨hj, hw, fun l hl hl' => (List.suffix_append inner below).trans (hstays l hl hl'),
    ⟨first ++ inner, ?_, List.forall_mem_append.2 ⟨hinBody, hinner⟩⟩, hstatement⟩
  rw [hfirst, List.append_assoc]

/-- The value stays the same when the return goes on to the tasks below. -/
theorem later (h : Carries limits m n j below w)
    (hvalue : (m.run limits (n + 1)).store.returning = (m.run limits n).store.returning)
    (htasks : (m.run limits (n + 1)).tasks = below) : Carries limits m (n + 1) j below w := by
  obtain ⟨hj, hw, hstays, hinner, keyword, expression, hcontrol, hexpression⟩ := h
  refine ⟨Nat.lt_succ_of_lt hj, hvalue.trans hw, fun l hl hl' => ?_, hinner, keyword, expression, hcontrol,
    hexpression.imp_right ?_⟩
  · rcases Nat.lt_or_eq_of_le hl' with hl' | rfl
    · exact hstays l hl (Nat.le_of_lt_succ hl')
    · rw [htasks]
  · rintro ⟨e, k, he, hk, hrest⟩
    exact ⟨e, k, he, Nat.lt_succ_of_lt hk, hrest⟩

end Carries

/-- When a value is handed to a return, the return carries it from the statement that has added the task which
takes the value. -/
theorem exists_carries_of_deliver (hfault : ∀ n f, (m.run limits n).control ≠ .fault f)
    (hstart : Task.returnValue ∉ m.tasks) {w : Value} (hdeliver : (m.run limits n).control = .deliver w)
    (hleft : (m.run limits n).tasks = .returnValue :: (m.run limits (n + 1)).tasks)
    (hvalue : (m.run limits (n + 1)).store.returning = some w) :
    ∃ j, Carries limits m (n + 1) j (m.run limits (n + 1)).tasks w := by
  have htask : .returnValue :: (m.run limits (n + 1)).tasks <:+ (m.run limits n).tasks := by
    rw [hleft]
  obtain ⟨j, hj, hnot, ⟨keyword, e, hexecute, hnext⟩, hsince⟩ :=
    exists_made hfault rfl (fun h => hstart (h.subset (.head _))) htask
  have hbelow : (m.run limits j).tasks = (m.run limits (n + 1)).tasks := by
    have hadded := hsince (j + 1) (Nat.lt_succ_self j) hj
    rw [hnext] at hadded
    exact (List.cons.inj ((List.suffix_cons_iff.1 hadded).resolve_right hnot)).2.symm
  obtain ⟨k, hk⟩ := Nat.exists_eq_add_of_le (Nat.succ_le_of_lt hj)
  refine ⟨j, Nat.lt_succ_of_lt hj, hvalue, fun l hl hl' => ?_, ⟨[], hbelow, List.forall_mem_nil _⟩,
    keyword, some e, hexecute, .inr ⟨e, k, rfl, by omega, hnext, ?_, by rw [← hk, hdeliver]⟩⟩
  · -- The tasks below are there at the statement, while its value is evaluated, and afterwards.
    rcases Nat.lt_or_eq_of_le hl with hl | rfl
    · rcases Nat.lt_or_eq_of_le hl' with hl' | rfl
      · exact (List.suffix_cons _ _).trans (hsince l hl (Nat.le_of_lt_succ hl'))
      · exact List.suffix_rfl
    · rw [hbelow]
  · have hrun : ∀ i, (m.run limits (j + 1)).run limits i = m.run limits (j + 1 + i) :=
      fun i => (run_add limits (j + 1) i m).symm
    apply finishes_returnValue (w := w)
    · intro i f
      rw [hrun]
      exact hfault _ f
    · intro i hi
      rw [hrun, hbelow]
      exact hsince _ (by omega) (by omega)
    · rw [hrun, ← hk, hleft, hbelow]
    · rw [hrun, ← hk, hdeliver]

/-- The value that a return carries is that of a return statement. -/
theorem exists_carries (hfault : ∀ n f, (m.run limits n).control ≠ .fault f)
    (hstart : m.control ≠ .complete .returned) (hstart' : Task.returnValue ∉ m.tasks)
    (hcontrol : (m.run limits n).control = .complete .returned) (htasks : (m.run limits n).tasks ≠ []) :
    ∃ j w, Carries limits m n j (m.run limits n).tasks w := by
  induction n with
  | zero => exact absurd hcontrol hstart
  | succ n ih =>
    cases run_acts limits m n with
    | work hwork =>
      rw [hcontrol] at hwork
      cases hwork
    | call _ _ henters =>
      have hwork := henters.works
      rw [hcontrol] at hwork
      cases hwork
    | endCall _ _ hstep =>
      rw [hstep] at hcontrol
      cases hcontrol
    | raise _ hcontrol' | overflow _ _ hcontrol' | fault hcontrol' =>
      rw [hcontrol] at hcontrol'
      cases hcontrol'
    | @giveUp f task kept _ _ hstep =>
      have hunwinds := unwinds_giveUp f task kept (m.run limits n).store
      rw [← hstep, hcontrol] at hunwinds
      cases hunwinds
    | rest hempty hstep => exact absurd ((congrArg Machine.tasks hstep).trans hempty) htasks
    | leaves htask hreturned _ hleft hvalue _ =>
      obtain ⟨j, w, hcarries⟩ := ih hreturned (by rw [hleft]; exact List.cons_ne_nil _ _)
      rw [hleft] at hcarries
      exact ⟨j, w, (hcarries.drop [_] (List.forall_mem_singleton.2 htask)).later hvalue rfl⟩
    | @returns w _ hvalue hstatement _ =>
      rcases hstatement with ⟨keyword, hexecute, hnil, hsame⟩ | ⟨hdeliver, hleft⟩
      · refine ⟨n, w, Nat.lt_succ_self n, hvalue, fun l hl hl' => ?_, ⟨[], hsame.symm, List.forall_mem_nil _⟩,
          keyword, none, hexecute, .inl ⟨rfl, hnil⟩⟩
        rcases Nat.lt_or_eq_of_le hl' with hl' | rfl
        · obtain rfl : l = n := Nat.le_antisymm (Nat.le_of_lt_succ hl') hl
          rw [hsame]
        · exact List.suffix_rfl
      · obtain ⟨j, hcarries⟩ := exists_carries_of_deliver hfault hstart' hdeliver hleft hvalue
        exact ⟨j, w, hcarries⟩

/-- The end of a body hands on the result, unless a guarantee was broken. -/
theorem endBody_eq {c : Completion} {closure : Closure} {outer : ScopeId} {tasks : List Task} {s : Store}
    (hfault : ∀ f, (endBody c closure outer tasks s).control ≠ .fault f) :
    ∃ returned returning, (c = .returned → returned = s.returning ∧ returning = none) ∧
      endBody c closure outer tasks s =
        ⟨.deliver (s.heap.result closure returned), tasks, { s with scope := outer, returning }⟩ := by
  cases c <;> unfold endBody at hfault ⊢ <;> dsimp only at hfault ⊢ <;> split at hfault
  · exact absurd rfl (hfault _)
  · exact ⟨none, s.returning, nofun, rfl⟩
  · exact absurd rfl (hfault _)
  · exact ⟨s.returning, none, fun _ => ⟨rfl, rfl⟩, rfl⟩

/-- A return on its way at a moment `n` of a run, in a body that a call has entered at an earlier moment `i`. -/
structure ReturnOf (limits : Limits) (m : Machine) (n i j : Nat) (call : Call) (closure : Closure)
    (o : Option InstanceId) (inner : List Task) (w : Value) : Prop where
  /-- The call has entered the body, whose end is on the stack since. -/
  entered : (m.run limits i).EntersBody (m.run limits (i + 1)) call closure o
  since : ∀ l, i < l → l ≤ n → .endBody closure (m.run limits i).store.scope ::
    (m.run limits i).awaiting call o <:+ (m.run limits l).tasks
  /-- The value is that of a statement which was executed in the body, at the moment `j`. -/
  after : i < j
  carries : Carries limits m n j (.endBody closure (m.run limits i).store.scope ::
    (m.run limits i).awaiting call o) w
  /-- The return leaves the tasks inside the body, and its end catches it. -/
  tasks : (m.run limits n).tasks = inner ++ .endBody closure (m.run limits i).store.scope ::
    (m.run limits i).awaiting call o
  inBody : ∀ t ∈ inner, t.inBody = true
  caught : m.run limits (n + (inner.length + 1)) =
    ⟨.deliver ((m.run limits n).store.heap.result closure (some w)), (m.run limits i).awaiting call o,
      { (m.run limits n).store with scope := (m.run limits i).store.scope, returning := none }⟩
  /-- Only an initializer has another result. -/
  result : closure.initializer = false → (m.run limits n).store.heap.result closure (some w) = w
  /-- The caller gets the result, or the instance that was made. -/
  given : ∃ k, (m.run limits (n + k)).tasks = (m.run limits i).tasks.tail ∧
    (m.run limits (n + k)).control =
      .deliver (o.elim ((m.run limits n).store.heap.result closure (some w)) .instanceValue)

/-- What waits for a body hands its result to the caller, or the instance that was made. -/
theorem run_awaiting (limits : Limits) (m : Machine) (call : Call) (o : Option InstanceId) (v : Value)
    (s : Store) :
    ∃ k s', run limits k ⟨.deliver v, m.awaiting call o, s⟩ =
      ⟨.deliver (o.elim v .instanceValue), m.tasks.tail, s'⟩ := by
  cases o with
  | none => exact ⟨1, _, rfl⟩
  | some o => exact ⟨2, _, rfl⟩

/-- A body is entered above the tasks that wait for it, which are not among the earlier ones. -/
theorem EntersBody.kept_eq {call : Call} {closure : Closure} {o : Option InstanceId}
    (h : m.EntersBody m' call closure o) {kept : List Task}
    (hadded : .endBody closure m.store.scope :: kept <:+ m'.tasks)
    (hnot : ¬ .endBody closure m.store.scope :: kept <:+ m.tasks) : kept = m.awaiting call o := by
  rw [h.tasks] at hadded
  rcases List.suffix_cons_iff.1 hadded with heq | hlower
  · cases heq
  rcases List.suffix_cons_iff.1 hlower with heq | hlower
  · exact (List.cons.inj heq).2
  -- Further down there are only tasks that were there before.
  rcases suffix_append_cases hlower with hmem | hlower
  · cases o with
    | none => cases hmem
    | some o => cases List.mem_singleton.1 hmem
  rcases List.suffix_cons_iff.1 hlower with heq | hlower
  · cases heq
  · exact absurd (hlower.trans (List.tail_suffix _)) hnot

/-- A return is always inside a body that a call has entered, and carries the value of one of its return
statements. -/
theorem exists_returnOf {walk : Walk} {recorded : Site → Option Nat}
    (hsound : ∀ n, (m.run limits n).Sound walk recorded) (hstart : m.control ≠ .complete .returned)
    (hstart' : Task.returnValue ∉ m.tasks ∧ ∀ closure outer, Task.endBody closure outer ∉ m.tasks)
    (hcontrol : (m.run limits n).control = .complete .returned) :
    ∃ i j call closure o inner w, ReturnOf limits m n i j call closure o inner w := by
  have hfault : ∀ n f, (m.run limits n).control ≠ .fault f := fun n => (hsound n).ne_fault
  have hn := (hsound n).control
  rw [hcontrol] at hn
  obtain ⟨⟨scopes, context, hcontext, hstacked⟩, v, hv, hvalid⟩ := hn
  obtain ⟨inner, closure, outer, kept, htasks, hinner⟩ := hstacked.exists_endBody rfl hcontext
  obtain ⟨j, w, hcarries⟩ := exists_carries hfault hstart hstart'.1 hcontrol (by simp [htasks])
  obtain rfl : w = v := Option.some.inj (hcarries.value.symm.trans hv)
  rw [htasks] at hcarries
  replace hcarries := hcarries.drop inner hinner
  -- The step that has added the end of the body.
  obtain ⟨i, hi, hnot, ⟨rfl, call, o, henters⟩, hsince⟩ :=
    exists_made hfault rfl (fun h => hstart'.2 _ _ (h.subset (.head _)))
      (hcarries.stays n (Nat.le_of_lt hcarries.before) (Nat.le_refl n))
  obtain rfl := henters.kept_eq (hsince (i + 1) (Nat.lt_succ_self i) hi) hnot
  have hcaught : m.run limits (n + (inner.length + 1)) =
      ⟨.deliver ((m.run limits n).store.heap.result closure (some w)), (m.run limits i).awaiting call o,
        { (m.run limits n).store with scope := (m.run limits i).store.scope, returning := none }⟩ := by
    have hrun : m.run limits (n + (inner.length + 1)) = endBody .returned closure (m.run limits i).store.scope
        ((m.run limits i).awaiting call o) (m.run limits n).store := by
      rw [run_add, ← run_returned limits inner hinner, ← hcontrol, ← htasks]
    obtain ⟨returned, returning, hreturned, hend⟩ := endBody_eq fun f => hrun ▸ hfault _ f
    obtain ⟨rfl, rfl⟩ := hreturned rfl
    rw [hrun, hend, hv]
  obtain ⟨k, s, hk⟩ := run_awaiting limits (m.run limits i) call o
    ((m.run limits n).store.heap.result closure (some w)) _
  rw [← hcaught, ← run_add, Nat.add_assoc] at hk
  refine ⟨i, j, call, closure, o, inner, w, henters, hsince, ?_, hcarries, htasks, hinner, hcaught, ?_,
    _, congrArg Machine.tasks hk, congrArg Machine.control hk⟩
  · by_contra hij
    exact hnot (hcarries.stays i (Nat.not_lt.1 hij) (Nat.le_of_lt hi))
  · exact fun hinitializer => Heap.result_some _ hinitializer hvalid.ne_absent

end Machine

/-- Execution restores the control state. Whatever a session was asked before, at every moment of running an
accepted source, the evaluation of an expression, the execution of a statement and the call of a callable that
finishes, in whichever way, leaves the scope and the stack of calls as they were, and a value on its way out of
a routine only if it was a statement that returned. A return is always inside a body that a call has entered; it
goes no further than the end of that body, and what the caller gets is the value of a return statement that was
executed in the same body since. -/
theorem Session.run_restores (color showTrace : Bool) (requests : List Request) {source : Text}
    (hsource : (serveAll color showTrace requests).Accepts source) (limits : Limits) :
    ∃ m, ((serveAll color showTrace requests).prepare source).2.2 = some m ∧ ∀ n,
      (∀ a below k, (m.run limits n).Begins a below → (m.run limits n).Finishes limits below k →
        Machine.Restores a (m.run limits n) (m.run limits (n + k))) ∧
      ((m.run limits n).control = .complete .returned →
        ∃ i j call closure o inner w, m.ReturnOf limits n i j call closure o inner w) := by
  have hs := sound_serveAll color showTrace requests
  generalize serveAll color showTrace requests = s at hs hsource
  have hsound := hs.machine hsource limits
  refine ⟨_, (prepare_of_accepts hsource).2.2, fun n => ⟨fun a below k hbegins hfinishes => ?_, fun hn => ?_⟩⟩
  · have hlevel := ((Machine.leveled_start (s.program source) (s.opening source)).run limits n).resolve_left
      fun ⟨f, hf⟩ => (hsound n).ne_fault f hf
    exact hbegins.restores (hsound n) (hsound (n + k)) (hlevel.returning hbegins.control_ne) hfinishes
      (Machine.run_add limits n k _)
  · exact Machine.exists_returnOf hsound nofun ⟨by simp [Machine.start], by simp [Machine.start]⟩ hn

/-- A function that returns out of a loop and a block. -/
def returnSource : Text := text "fun f()\x7bwhile(true)\x7breturn true;\x7d\x7df();"

/-- After some steps the function is about to leave the loop with its value, whose evaluation has finished and has
restored what it found. -/
theorem Session.run_restores_return :
    (serveAll false false []).Accepts returnSource ∧
    ∃ m, ((serveAll false false []).prepare returnSource).2.2 = some m ∧
      (m.run ⟨10, fun _ => ⟨0⟩⟩ 17).control = .complete .returned ∧
      ∃ i j call closure o inner w, m.ReturnOf ⟨10, fun _ => ⟨0⟩⟩ 17 i j call closure o inner w ∧
        ∃ k below, (m.run ⟨10, fun _ => ⟨0⟩⟩ (j + 1)).Begins .value below ∧
          (m.run ⟨10, fun _ => ⟨0⟩⟩ (j + 1)).Finishes ⟨10, fun _ => ⟨0⟩⟩ below k ∧
          Machine.Restores .value (m.run ⟨10, fun _ => ⟨0⟩⟩ (j + 1)) (m.run ⟨10, fun _ => ⟨0⟩⟩ (j + 1 + k)) := by
  have haccepts : (serveAll false false []).Accepts returnSource := by decide +kernel
  obtain ⟨m, hm, hrun⟩ := run_restores false false [] haccepts ⟨10, fun _ => ⟨0⟩⟩
  have ⟨hcontrol, hvalue⟩ : (m.run ⟨10, fun _ => ⟨0⟩⟩ 17).control = .complete .returned ∧
      (m.run ⟨10, fun _ => ⟨0⟩⟩ 17).store.returning = some (.bool true) := by
    rw [eq_start haccepts hm]
    decide +kernel
  obtain ⟨i, j, call, closure, o, inner, w, hreturn⟩ := (hrun 17).2 hcontrol
  obtain ⟨keyword, expression, -, ⟨-, rfl⟩ | ⟨e, k, -, -, hnext, hfinishes, -⟩⟩ := hreturn.carries.statement
  · cases hreturn.carries.value.symm.trans hvalue
  · have hbegins : (m.run ⟨10, fun _ => ⟨0⟩⟩ (j + 1)).Begins .value
        (.returnValue :: (m.run ⟨10, fun _ => ⟨0⟩⟩ j).tasks) := by
      rw [hnext]
      exact .evaluate e _ _
    exact ⟨haccepts, m, hm, hcontrol, i, j, call, closure, o, inner, w, hreturn, k, _, hbegins, hfinishes,
      (hrun (j + 1)).1 _ _ _ hbegins hfinishes⟩

end Lox
