import Lox.Proofs.Running
import Mathlib.Tactic.SplitIfs

/-!
# What a step can do

`Machine.Acts` lists what one step of a machine can do to its tasks and to its stack of calls, each with what
it rests on: it goes on with the program, it makes or ends a call, it leaves a routine with a value, or it
fails. `Machine.step_acts` states that there is nothing else. What is true of the calls and of the returns
along a whole run is derived from this list.
-/

namespace Lox

namespace Heap

/-- Arguments are put into scopes only. -/
theorem defineAll_eq (h : Heap) (e : ScopeId) (params : List Token) (args : List Value) :
    h.defineAll e params args = { h with forest := (h.defineAll e params args).forest } := by
  induction params generalizing h args with
  | nil =>
    unfold defineAll
    rfl
  | cons p params ih =>
    cases args with
    | nil =>
      unfold defineAll
      rfl
    | cons v args => exact ih (h.define e p.lexeme v) args

theorem enter_eq (h : Heap) (c : Closure) (args : List Value) :
    (h.enter c args).1 = { h with forest := (h.enter c args).1.forest } :=
  defineAll_eq ..

end Heap

/-- The program goes on: there is something to do, a value, or a statement that has ended in order. -/
def Control.works : Control → Bool
  | .evaluate _ | .execute _ | .deliver _ | .complete .normal => true
  | _ => false

/-- A failure is on its way. -/
def Control.unwinds : Control → Bool
  | .unwind _ => true
  | _ => false

/-- The call that a task ends: its name and its closing parenthesis. -/
def Task.endCall? : Task → Option (Text × Token)
  | .endCall name paren => some (name, paren)
  | _ => none

/-- A task that gives back the scope or takes away the frame of what it ends. -/
def Task.givesBack : Task → Bool
  | .leaveScope _ | .endBody _ _ | .endCall _ _ => true
  | _ => false

theorem Task.endCall?_of_givesBack {t : Task} (h : t.givesBack = false) : t.endCall? = none := by
  cases t with
  | endCall => cases h
  | _ => rfl

/-- A task that waits for the end of a statement inside a body. -/
def Task.inBody : Task → Bool
  | .sequence _ | .loopBody _ _ | .leaveScope _ => true
  | _ => false

/-- What a call runs in the closure of a function: its body, or that of the initializer of a class, after which
the call gives the instance instead. -/
inductive Call.Runs (call : Call) (h : Heap) (closure : Closure) : Option InstanceId → Prop where
  | function {f : FunctionId} (hcallee : call.callee = .function f) (hclosure : h.functions[f]? = some closure) :
    Runs call h closure none
  | initializer {c : ClassId} (o : InstanceId) (hcallee : call.callee = .classValue c) :
    Runs call h closure (some o)

/-- The tasks that wait for the body which a call runs. -/
def Machine.awaiting (m : Machine) (call : Call) (o : Option InstanceId) : List Task :=
  (o.map Task.construct).toList ++ .endCall (m.store.heap.callName call.callee) call.paren :: m.tasks.tail

/-- A step that makes a call and enters the body of a function in the closure of which it is run. -/
structure Machine.EntersBody (m m' : Machine) (call : Call) (closure : Closure) (o : Option InstanceId) :
    Prop where
  made : m.call? = some call
  runs : call.Runs m.store.heap closure o
  held : ∃ f : FunctionId, m'.store.heap.functions[f]? = some closure
  tasks : m'.tasks =
    .sequence closure.routine.body :: .endBody closure m.store.scope :: m.awaiting call o

/-- What a step from one machine to another rests on if it adds a task. -/
def Task.MadeBy (m m' : Machine) : Task → Prop
  | .callee paren arguments => ∃ site callee, m.control = .evaluate (.call site callee paren arguments) ∧
      m' = ⟨.evaluate callee, .callee paren arguments :: m.tasks, m.store⟩
  | .argument paren called done rest => ∃ e v kept, m.control = .deliver v ∧
      m'.tasks = .argument paren called done rest :: kept ∧
      (m.tasks = .callee paren (e :: rest) :: kept ∧ called = v ∧ done = [] ∨
        ∃ earlier, m.tasks = .argument paren called earlier (e :: rest) :: kept ∧ done = v :: earlier)
  | .returnValue => ∃ keyword e, m.control = .execute (.returns keyword (some e)) ∧
      m' = ⟨.evaluate e, .returnValue :: m.tasks, m.store⟩
  | .leaveScope outer => outer = m.store.scope
  | .endBody closure outer => outer = m.store.scope ∧ ∃ call o, m.EntersBody m' call closure o
  | .endCall _ _ => False
  | _ => True

namespace Machine

/-- The current scope and the active calls after tasks are gone: blocks and bodies give back the scope
around them, and a call takes its frame away. -/
def released : List Task → ScopeId → Array Text → ScopeId × Array Text
  | [], e, frames => (e, frames)
  | .leaveScope outer :: rest, _, frames => released rest outer frames
  | .endBody _ outer :: rest, _, frames => released rest outer frames
  | .endCall _ _ :: rest, e, frames => released rest e frames.pop
  | _ :: rest, e, frames => released rest e frames

theorem released_cons {task : Task} (h : task.givesBack = false) (tasks : List Task) (e : ScopeId)
    (frames : Array Text) : released (task :: tasks) e frames = released tasks e frames := by
  cases task with
  | leaveScope | endBody | endCall => cases h
  | _ => rfl

/-- At most the first task is gone, unless it ends a call, the given tasks have been added, and the calls are
the same. The tasks lead back to the same scope as before, no value is on its way out of a routine unless a
return goes on, and only a call is logged. -/
structure Shifts (pushed : List Task) (m m' : Machine) : Prop where
  tasks : ∃ (taken : Option Task) (kept : List Task), (∀ t ∈ taken, t.endCall? = none) ∧
    m.tasks = taken.toList ++ kept ∧ m'.tasks = pushed ++ kept
  frames : m'.store.frames = m.store.frames
  level : ∀ frames, released m'.tasks m'.store.scope frames = released m.tasks m.store.scope frames
  returning : m'.control ≠ .complete .returned →
    (m.control ≠ .complete .returned → m.store.returning = none) → m'.store.returning = none
  log : m.call? = none → m'.store.log = m.store.log

/-- A call has added its frame and the task that takes it away, below the given ones. -/
structure Enters (m : Machine) (call : Call) (pushed : List Task) (m' : Machine) : Prop where
  works : m'.control.works = true
  tasks : m'.tasks = pushed ++ .endCall (m.store.heap.callName call.callee) call.paren :: m.tasks.tail
  madeBy : ∀ t ∈ pushed, t.MadeBy m m'
  frames : m'.store.frames = m.store.frames.push (m.store.heap.callName call.callee)
  level : ∀ frames, released m'.tasks m'.store.scope frames = released m.tasks m.store.scope frames.pop
  returning : m'.store.returning = m.store.returning

/-- What a step can do. -/
inductive Acts (limits : Limits) (m m' : Machine) : Prop where
  /-- It goes on in the same call. -/
  | work {pushed : List Task} (hwork : m'.control.works = true) (hshift : m.Shifts pushed m')
    (hpushed : ∀ t ∈ pushed, t.MadeBy m m')
  /-- It makes a call. -/
  | call {call : Call} {pushed : List Task} (hcall : m.call? = some call)
    (hdepth : m.store.frames.size ≤ limits.maxDepth) (henters : m.Enters call pushed m')
  /-- A call ends with a value. -/
  | endCall {v : Value} {name : Text} {paren : Token} {kept : List Task}
    (hcontrol : m.control = .deliver v) (htasks : m.tasks = .endCall name paren :: kept)
    (hstep : m' = ⟨.deliver v, kept, popFrame name m.store⟩)
  /-- A return statement leaves its routine with a value. -/
  | returns {v : Value} (hcontrol : m'.control = .complete .returned) (hvalue : m'.store.returning = some v)
    (hstatement : (∃ keyword, m.control = .execute (.returns keyword none) ∧ v = .nil ∧
        m'.tasks = m.tasks) ∨ m.control = .deliver v ∧ m.tasks = .returnValue :: m'.tasks)
    (hshift : m.Shifts [] m')
  /-- A return goes on out of a statement. -/
  | leaves {task : Task} (htask : task.inBody = true) (hcontrol : m.control = .complete .returned)
    (hcontrol' : m'.control = .complete .returned) (htasks : m.tasks = task :: m'.tasks)
    (hvalue : m'.store.returning = m.store.returning) (hshift : m.Shifts [] m')
  /-- An error is made in the innermost call. -/
  | raise {t : Token} {cause : RuntimeCause} (hgoing : m.control.unwinds = false)
    (hcontrol : m'.control = .unwind (.error ⟨t, cause, #[⟨m.store.frame, t.line⟩]⟩))
    (hshift : m.Shifts [] m')
    (hnative : ∀ e, cause = .native e → ∃ n args, m.call? = some ⟨.native n, args, t⟩ ∧
      n.call (limits.clock m.store.readings) m.store.heap args = .refused e)
  /-- There are too many calls for another one. -/
  | overflow {call : Call} (hcall : m.call? = some call) (hdepth : limits.maxDepth < m.store.frames.size)
    (hcontrol : m'.control = .unwind .overflow) (hshift : m.Shifts [] m')
  /-- A task is given up because of a failure. -/
  | giveUp {f : Failure} {task : Task} {kept : List Task} (hcontrol : m.control = .unwind f)
    (htasks : m.tasks = task :: kept) (hstep : m' = giveUp f task kept m.store)
  /-- There is nothing left to do. -/
  | rest (htasks : m.tasks = []) (hstep : m' = m)
  | fault {f : Fault} (hcontrol : m'.control = .fault f)

theorem unwinds_of_works {c : Control} (h : c.works = true) : c.unwinds = false := by
  cases c with
  | unwind => cases h
  | _ => rfl

/-- A machine whose step goes on with given tasks in its store. -/
structure Offers (m : Machine) (tasks : List Task) (s : Store) : Prop where
  going : m.control.works = true
  tasks : ∃ taken : Option Task, (∀ t ∈ taken, t.givesBack = false) ∧ m.tasks = taken.toList ++ tasks
  store : m.store = s

theorem offers_evaluate (e : Expr) (tasks : List Task) (s : Store) : Offers ⟨.evaluate e, tasks, s⟩ tasks s :=
  ⟨rfl, ⟨none, by simp, rfl⟩, rfl⟩

theorem offers_execute (stmt : Stmt) (tasks : List Task) (s : Store) :
    Offers ⟨.execute stmt, tasks, s⟩ tasks s :=
  ⟨rfl, ⟨none, by simp, rfl⟩, rfl⟩

theorem offers_deliver (v : Value) {task : Task} (htask : task.givesBack = false) (tasks : List Task)
    (s : Store) : Offers ⟨.deliver v, task :: tasks, s⟩ tasks s :=
  ⟨rfl, ⟨some task, by simp [htask], rfl⟩, rfl⟩

theorem offers_complete {task : Task} (htask : task.givesBack = false) (tasks : List Task) (s : Store) :
    Offers ⟨.complete .normal, task :: tasks, s⟩ tasks s :=
  ⟨rfl, ⟨some task, by simp [htask], rfl⟩, rfl⟩

theorem exists_tasks_of_call? {m : Machine} {call : Call} (h : m.call? = some call) :
    ∃ task, task.givesBack = false ∧ m.tasks = task :: m.tasks.tail := by
  obtain ⟨v, below, s, ⟨rfl, -, -⟩ | ⟨done, rfl, -⟩⟩ := of_call? h <;> exact ⟨_, rfl, rfl⟩

theorem offers_of_call? {m : Machine} {call : Call} (h : m.call? = some call) :
    m.Offers m.tasks.tail m.store := by
  obtain ⟨v, below, s, ⟨rfl, -, -⟩ | ⟨done, rfl, -⟩⟩ := of_call? h <;> exact offers_deliver v rfl below s

end Machine

/-- What a store tells of the call and the scope in which a machine is, and what it has logged. -/
def Store.standing (s : Store) : ScopeId × Array Text × Option Value × Array LogRecord :=
  (s.scope, s.frames, s.returning, s.log)

namespace Machine

namespace Offers

variable {m : Machine} {tasks : List Task} {s : Store} (limits : Limits)

section

variable (h : m.Offers tasks s)

include h

/-- Pushing tasks that lead back to the current scope and calls is a shift. -/
theorem shifts (control : Control) (pushed : List Task) {s' : Store}
    (hlevel : ∀ frames, released (pushed ++ tasks) s'.scope frames = released tasks s.scope frames)
    (hframes : s'.frames = s.frames) (hreturning : control = .complete .returned ∨ s'.returning = s.returning)
    (hlog : m.call? = none → s'.log = s.log) : m.Shifts pushed ⟨control, pushed ++ tasks, s'⟩ := by
  obtain ⟨hgoing, ⟨taken, htaken, htasks⟩, rfl⟩ := h
  have hreleased : ∀ e frames, released m.tasks e frames = released tasks e frames := by
    intro e frames
    rw [htasks]
    cases taken with
    | none => rfl
    | some task => exact released_cons (htaken task rfl) tasks e frames
  refine ⟨⟨taken, tasks, fun t ht => Task.endCall?_of_givesBack (htaken t ht), htasks, rfl⟩, hframes,
    fun frames => (hlevel frames).trans (hreleased _ frames).symm, fun hcontrol hnone => ?_, hlog⟩
  refine (hreturning.resolve_left hcontrol).trans (hnone fun hreturned => ?_)
  rw [hreturned] at hgoing
  cases hgoing

theorem go {control : Control} (hwork : control.works = true) {s' : Store}
    (hstanding : s'.standing = s.standing) : Acts limits m ⟨control, tasks, s'⟩ := by
  obtain ⟨hscope, hframes, hreturning, hlog⟩ := by simpa only [Store.standing, Prod.mk.injEq] using hstanding
  exact .work hwork (h.shifts control [] (fun _ => by rw [hscope]; rfl) hframes (.inr hreturning) fun _ => hlog)
    (List.forall_mem_nil _)

theorem push {control : Control} (hwork : control.works = true) {s' : Store}
    (hstanding : s'.standing = s.standing) {task : Task} (hback : task.givesBack = false)
    (htask : task.MadeBy m ⟨control, task :: tasks, s'⟩) : Acts limits m ⟨control, task :: tasks, s'⟩ := by
  obtain ⟨hscope, hframes, hreturning, hlog⟩ := by simpa only [Store.standing, Prod.mk.injEq] using hstanding
  refine .work hwork (h.shifts control [task] (fun frames => ?_) hframes (.inr hreturning) fun _ => hlog)
    (List.forall_mem_singleton.2 htask)
  rw [hscope]
  exact released_cons hback tasks _ frames

/-- An error is raised with the scope, the calls and the log as they were. -/
theorem fail {t : Token} {cause : RuntimeCause} {s' : Store} (hscope : s'.scope = s.scope)
    (hframes : s'.frames = s.frames) (hreturning : s'.returning = s.returning)
    (hlog : m.call? = none → s'.log = s.log)
    (hnative : ∀ e, cause = .native e → ∃ n args, m.call? = some ⟨.native n, args, t⟩ ∧
      n.call (limits.clock m.store.readings) m.store.heap args = .refused e) :
    Acts limits m (Machine.raise t cause tasks s') := by
  have hshift := h.shifts (.unwind (.error ⟨t, cause, #[⟨s'.frame, t.line⟩]⟩)) []
    (fun _ => by rw [hscope]; rfl) hframes (.inr hreturning) hlog
  obtain ⟨hgoing, -, rfl⟩ := h
  have hcontrol : (Machine.raise t cause tasks s').control =
      .unwind (.error ⟨t, cause, #[⟨m.store.frame, t.line⟩]⟩) := by
    rw [Store.frame, ← hframes]
    rfl
  exact .raise (unwinds_of_works hgoing) hcontrol hshift hnative

theorem raise (t : Token) {cause : RuntimeCause} (hcause : ∀ e, cause ≠ .native e) :
    Acts limits m (Machine.raise t cause tasks s) :=
  h.fail limits rfl rfl rfl (fun _ => rfl) fun e he => absurd he (hcause e)

theorem handOn (t : Token) {result : Except (Fault ⊕ RuntimeCause) Value}
    (hresult : ∀ cause, result = .error (.inr cause) → ∀ e, cause ≠ .native e) :
    Acts limits m (Machine.handOn t result tasks s) := by
  unfold Machine.handOn
  split
  · exact h.go limits rfl rfl
  · exact .fault rfl
  · exact h.raise limits t (hresult _ rfl)

theorem handOnApplied (t : Token) {result : Except RuntimeCause Value}
    (hresult : ∀ cause, result = .error cause → ∀ e, cause ≠ .native e) :
    Acts limits m (Machine.handOnApplied t result tasks s) := by
  unfold Machine.handOnApplied
  split
  · exact h.go limits rfl rfl
  · exact h.raise limits t (hresult _ rfl)

/-- A method of the superclass is taken, or an error raised. -/
theorem superMethod (ref : Reference) (method : Token) :
    Acts limits m (Machine.superMethod ref method tasks s) := by
  unfold Machine.superMethod
  dsimp only
  split
  · split
    · exact h.raise limits method nofun
    · exact h.go limits rfl rfl
  all_goals exact .fault rfl

end

end Offers

end Machine

/-- Only a built-in function refuses its arguments. -/
theorem Store.lookUp_cause {s : Store} {ref : Reference} {cause : RuntimeCause}
    (h : s.lookUp ref = .error (.inr cause)) (e : NativeError) : cause ≠ .native e := by
  unfold Store.lookUp at h
  split at h <;> split at h <;> cases h
  exact nofun

theorem Store.target_cause {s : Store} {ref : Reference} {cause : RuntimeCause}
    (h : s.target ref = .error (.inr cause)) (e : NativeError) : cause ≠ .native e := by
  unfold Store.target at h
  split at h <;> split at h <;> cases h
  exact nofun

namespace Machine

theorem applyUnary_cause {op : UnaryOp} {h : Heap} {v : Value} {cause : RuntimeCause}
    (heq : applyUnary op h v = .error cause) (e : NativeError) : cause ≠ .native e := by
  unfold applyUnary at heq
  split at heq
  · cases heq
  · split at heq <;> cases heq
    exact nofun

/-- An operator does not fail like a built-in function. -/
theorem applyBinary_cause {op : BinaryOp} {h : Heap} {left right : Value} {cause : RuntimeCause}
    (heq : applyBinary op h left right = .error cause) (e : NativeError) : cause ≠ .native e := by
  unfold applyBinary at heq
  dsimp only at heq
  split at heq
  case h_1 | h_2 => cases heq
  case h_4 =>
    split at heq
    · split at heq <;> cases heq
      exact nofun
    · cases heq
      exact nofun
  all_goals
    split at heq <;> cases heq
    exact nofun

variable (limits : Limits) (tasks : List Task) (s : Store)

theorem acts_evaluate (e : Expr) : Acts limits ⟨.evaluate e, tasks, s⟩ (evaluate e tasks s) := by
  have hoffers := offers_evaluate e tasks s
  cases e with
  | literal | grouping => exact hoffers.go limits rfl rfl
  | «variable» ref | this ref => exact hoffers.handOn limits ref.token fun _ => Store.lookUp_cause
  | super ref method => exact hoffers.superMethod limits ref method
  | call _ callee paren arguments => exact hoffers.push limits rfl rfl rfl ⟨_, callee, rfl, rfl⟩
  | _ => exact hoffers.push limits rfl rfl rfl trivial

/-- Executing a statement acts in one of these ways. -/
theorem acts_execute (stmt : Stmt) : Acts limits ⟨.execute stmt, tasks, s⟩ (execute stmt tasks s) := by
  have hoffers := offers_execute stmt tasks s
  cases stmt with
  | returns keyword value =>
    cases value with
    | none =>
      exact .returns rfl rfl (.inl ⟨keyword, rfl, rfl, rfl⟩)
        (hoffers.shifts _ [] (fun _ => rfl) rfl (.inl rfl) fun _ => rfl)
    | some e => exact hoffers.push limits rfl rfl rfl ⟨keyword, e, rfl, rfl⟩
  | block body =>
    -- The new scope is the one that the task of the block leaves again.
    refine .work rfl (hoffers.shifts (.complete .normal) [.sequence body, .leaveScope s.scope]
      (fun _ => rfl) rfl (.inr rfl) fun _ => rfl) ?_
    simp [Task.MadeBy]
  | «variable» name initializer =>
    cases initializer with
    | none => exact hoffers.go limits rfl rfl
    | some e => exact hoffers.push limits rfl rfl rfl trivial
  | routine r => exact hoffers.go limits rfl rfl
  | classOf name superclass methods =>
    cases superclass with
    | none =>
      obtain ⟨heap, hheap⟩ := s.declareClass_others name none methods
      unfold execute
      dsimp only
      rw [hheap]
      exact hoffers.go limits rfl rfl
    | some ref => exact hoffers.push limits rfl rfl rfl trivial
  | _ => exact hoffers.push limits rfl rfl rfl trivial

section

variable {m : Machine} {call : Call} {s : Store}

/-- The body of a function is run in the call that was made for it. -/
theorem enters_enterFunction {closure : Closure} {f : FunctionId} {o : Option InstanceId}
    (hcall : m.call? = some call) (hruns : call.Runs m.store.heap closure o)
    (hclosure : s.heap.functions[f]? = some closure) (hscope : s.scope = m.store.scope)
    (hframes : s.frames = m.store.frames.push (m.store.heap.callName call.callee))
    (hreturning : s.returning = m.store.returning) :
    let m' := enterFunction closure call.arguments (m.awaiting call o) s
    (∃ pushed, m.Enters call pushed m') ∨ ∃ f, m'.control = .fault f := by
  intro m'
  unfold m' enterFunction
  split
  · exact .inr ⟨_, rfl⟩
  · refine .inl ⟨.sequence closure.routine.body :: .endBody closure s.scope ::
      (o.map Task.construct).toList, rfl, rfl, ?_, hframes, fun frames => ?_, hreturning⟩
    · refine List.forall_mem_cons.2 ⟨trivial, List.forall_mem_cons.2
        ⟨⟨hscope, call, o, hcall, hruns, ?_, ?_⟩, ?_⟩⟩
      · dsimp only
        rw [Heap.enter_eq]
        exact ⟨f, hclosure⟩
      · rw [← hscope]
      · intro t ht
        cases o with
        | none => cases ht
        | some o =>
          obtain rfl := List.mem_singleton.1 ht
          trivial
    · obtain ⟨task, htask, htasks⟩ := exists_tasks_of_call? hcall
      rw [htasks, released_cons htask, ← hscope]
      cases o <;> rfl

/-- An instance is made and its initializer run in the one call of the class. -/
theorem enters_construct {c : ClassId} (hcall : m.call? = some call) (hcallee : call.callee = .classValue c)
    (hscope : s.scope = m.store.scope)
    (hframes : s.frames = m.store.frames.push (m.store.heap.callName call.callee))
    (hreturning : s.returning = m.store.returning) :
    let m' := construct c call.arguments
      (.endCall (m.store.heap.callName call.callee) call.paren :: m.tasks.tail) s
    (∃ pushed, m.Enters call pushed m') ∨ ∃ f, m'.control = .fault f := by
  intro m'
  unfold m' construct
  dsimp only
  split
  · refine .inl ⟨[], rfl, rfl, List.forall_mem_nil _, hframes, fun frames => ?_, hreturning⟩
    obtain ⟨task, htask, htasks⟩ := exists_tasks_of_call? hcall
    rw [htasks, released_cons htask, ← hscope]
    rfl
  · split
    · next bound hbound =>
      exact enters_enterFunction hcall (.initializer _ hcallee) hbound hscope hframes hreturning
    · exact .inr ⟨_, rfl⟩

/-- A built-in function runs within one step, in a frame that is gone again when an error is made. -/
theorem acts_callNative {n : Native} {args : List Value} {paren : Token}
    (hcall : m.call? = some ⟨.native n, args, paren⟩) :
    Acts limits m (callNative limits n args paren m.tasks.tail m.store) := by
  have hframes : ∀ name, (m.store.frames.push name).pop = m.store.frames := fun _ => Array.pop_push
  have hlog : ∀ {log}, m.call? = none → log = m.store.log := fun hnone => by rw [hcall] at hnone; cases hnone
  have hoffers := offers_of_call? hcall
  unfold callNative
  dsimp only
  split
  · exact .work rfl (hoffers.shifts _ [] (fun _ => rfl) (hframes _) (.inr rfl) hlog) (List.forall_mem_nil _)
  · next e he =>
    refine hoffers.fail limits rfl (hframes _) rfl hlog fun e' he' => ⟨n, args, hcall, ?_⟩
    cases he'
    exact he
  · exact .fault rfl

/-- A call acts in one of these ways. -/
theorem acts_apply (hcall : m.call? = some call) :
    Acts limits m (apply limits call.callee call.arguments call.paren m.tasks.tail m.store) := by
  have hoffers := offers_of_call? hcall
  unfold apply
  split
  · exact hoffers.raise limits call.paren nofun
  · split_ifs with hcount hdepth
    · exact hoffers.raise limits call.paren nofun
    · exact .overflow hcall hdepth rfl (hoffers.shifts _ [] (fun _ => rfl) rfl (.inr rfl) fun _ => rfl)
    · have henters : ∀ {m'}, ((∃ pushed, m.Enters call pushed m') ∨ ∃ f, m'.control = .fault f) →
          Acts limits m m' := by
        rintro m' (⟨pushed, henters⟩ | ⟨f, hcontrol⟩)
        · exact .call hcall (Nat.not_lt.1 hdepth) henters
        · exact .fault hcontrol
      obtain ⟨callee, args, paren⟩ := call
      dsimp only
      split
      · exact acts_callNative limits hcall
      · split
        · next closure hclosure =>
          exact henters (enters_enterFunction hcall (.function rfl hclosure) hclosure rfl rfl rfl)
        · exact .fault rfl
      · exact henters (enters_construct hcall rfl rfl rfl rfl)
      · exact .fault rfl

end

section

variable (tasks : List Task) (s : Store)

/-- Going on with the arguments acts in one of these ways. -/
theorem acts_nextArgument {v : Value} {task : Task} (htask : task.givesBack = false) {paren : Token}
    {callee : Value} {done : List Value} {rest : List Expr}
    (hcall : rest = [] → call? ⟨.deliver v, task :: tasks, s⟩ = some ⟨callee, done.reverse, paren⟩)
    (htasks : ∀ e rest', rest = e :: rest' → task = .callee paren (e :: rest') ∧ callee = v ∧ done = [] ∨
      ∃ earlier, task = .argument paren callee earlier (e :: rest') ∧ done = v :: earlier) :
    Acts limits ⟨.deliver v, task :: tasks, s⟩ (nextArgument limits paren callee done rest tasks s) := by
  cases rest with
  | nil => exact acts_apply limits (hcall rfl)
  | cons e rest =>
    refine (offers_deliver v htask tasks s).push limits rfl rfl rfl ⟨e, v, tasks, rfl, rfl, ?_⟩
    rcases htasks e rest rfl with ⟨rfl, hcallee, hdone⟩ | ⟨earlier, rfl, hdone⟩
    · exact .inl ⟨rfl, hcallee, hdone⟩
    · exact .inr ⟨earlier, rfl, hdone⟩

/-- Resuming a task acts in one of these ways. -/
theorem acts_resume (v : Value) (task : Task) :
    Acts limits ⟨.deliver v, task :: tasks, s⟩ (resume limits v task tasks s) := by
  have hoffers : task.givesBack = false → Offers ⟨.deliver v, task :: tasks, s⟩ tasks s :=
    fun htask => offers_deliver v htask tasks s
  cases task with
  | assign ref =>
    unfold resume
    dsimp only
    split
    · exact (hoffers rfl).go limits rfl rfl
    · exact .fault rfl
    · next cause hcause => exact (hoffers rfl).raise limits ref.token (Store.target_cause hcause)
  | unary op sign => exact (hoffers rfl).handOnApplied limits sign fun _ => applyUnary_cause
  | binaryRight op sign left => exact (hoffers rfl).handOnApplied limits sign fun _ => applyBinary_cause
  | logical op right =>
    unfold resume
    dsimp only
    split_ifs <;> exact (hoffers rfl).go limits rfl rfl
  | callee paren arguments =>
    refine acts_nextArgument limits tasks s rfl (fun harguments => ?_)
      (fun e rest hrest => .inl ⟨by rw [hrest], rfl, rfl⟩)
    rw [harguments]
    rfl
  | argument paren callee done rest =>
    refine acts_nextArgument limits tasks s rfl (fun hrest => ?_)
      (fun e rest' hrest => .inr ⟨done, by rw [hrest], rfl⟩)
    rw [hrest]
    rfl
  | get name =>
    cases v with
    | instanceValue o =>
      unfold resume
      dsimp only
      split
      · exact (hoffers rfl).go limits rfl rfl
      · exact (hoffers rfl).raise limits name nofun
    | _ => exact (hoffers rfl).raise limits name nofun
  | setObject name value =>
    cases v with
    | instanceValue o => exact (hoffers rfl).push limits rfl rfl rfl trivial
    | _ => exact (hoffers rfl).raise limits name nofun
  | returnValue =>
    exact .returns rfl rfl (.inr ⟨rfl, rfl⟩)
      ((hoffers rfl).shifts _ [] (fun _ => rfl) rfl (.inl rfl) fun _ => rfl)
  | branch yes no =>
    unfold resume
    dsimp only
    split_ifs
    · exact (hoffers rfl).go limits rfl rfl
    · cases no <;> exact (hoffers rfl).go limits rfl rfl
  | loopTest condition body =>
    unfold resume
    dsimp only
    split_ifs
    · exact (hoffers rfl).push limits rfl rfl rfl trivial
    · exact (hoffers rfl).go limits rfl rfl
  | superclass name superclass methods =>
    cases v with
    | classValue k =>
      obtain ⟨heap, hheap⟩ := s.declareClass_others name (some k) methods
      unfold resume
      dsimp only
      rw [hheap]
      exact (hoffers rfl).go limits rfl rfl
    | _ => exact (hoffers rfl).raise limits superclass nofun
  | endCall name paren => exact .endCall rfl rfl rfl
  | sequence | loopBody | leaveScope | endBody => exact .fault rfl
  | binaryLeft | condition | middle => exact (hoffers rfl).push limits rfl rfl rfl trivial
  | _ => exact (hoffers rfl).go limits rfl rfl

/-- Going on after a statement acts in one of these ways. -/
theorem acts_proceed (c : Completion) (task : Task) :
    Acts limits ⟨.complete c, task :: tasks, s⟩ (proceed c task tasks s) := by
  have hoffers : task.givesBack = false → Offers ⟨.complete .normal, task :: tasks, s⟩ tasks s :=
    fun htask => offers_complete htask tasks s
  have htaken : task.endCall? = none → ∀ t ∈ some task, t.endCall? = none := fun htask => by simp [htask]
  cases task with
  | sequence rest =>
    cases c with
    | returned =>
      exact .leaves rfl rfl rfl rfl rfl
        ⟨⟨some _, tasks, htaken rfl, rfl, rfl⟩, rfl, fun _ => rfl, fun h => absurd rfl h, fun _ => rfl⟩
    | normal =>
      cases rest with
      | nil => exact (hoffers rfl).go limits rfl rfl
      | cons stmt rest => exact (hoffers rfl).push limits rfl rfl rfl trivial
  | loopBody condition body =>
    cases c with
    | returned =>
      exact .leaves rfl rfl rfl rfl rfl
        ⟨⟨some _, tasks, htaken rfl, rfl, rfl⟩, rfl, fun _ => rfl, fun h => absurd rfl h, fun _ => rfl⟩
    | normal => exact (hoffers rfl).push limits rfl rfl rfl trivial
  | leaveScope outer =>
    have hshift : ∀ {c}, Shifts [] ⟨.complete c, .leaveScope outer :: tasks, s⟩
        ⟨.complete c, tasks, { s with scope := outer }⟩ :=
      ⟨⟨some _, tasks, htaken rfl, rfl, rfl⟩, rfl, fun _ => rfl, fun h hnone => hnone h, fun _ => rfl⟩
    cases c with
    | returned => exact .leaves rfl rfl rfl rfl rfl hshift
    | normal => exact .work rfl hshift (List.forall_mem_nil _)
  | endBody closure outer =>
    unfold proceed
    cases c <;> dsimp only <;> unfold endBody <;> dsimp only <;> split
    · exact .fault rfl
    · exact .work rfl ⟨⟨some _, tasks, htaken rfl, rfl, rfl⟩, rfl, fun _ => rfl, fun _ h => h nofun, fun _ => rfl⟩
        (List.forall_mem_nil _)
    · exact .fault rfl
    · exact .work rfl ⟨⟨some _, tasks, htaken rfl, rfl, rfl⟩, rfl, fun _ => rfl, fun _ _ => rfl, fun _ => rfl⟩
        (List.forall_mem_nil _)
  | _ => exact .fault rfl

end

/-- A step does one of the things that are listed. -/
theorem step_acts (m : Machine) : Acts limits m (m.step limits) := by
  obtain ⟨control, tasks, s⟩ := m
  cases control with
  | evaluate e => exact acts_evaluate limits tasks s e
  | execute stmt => exact acts_execute limits tasks s stmt
  | deliver v =>
    cases tasks with
    | nil => exact .fault rfl
    | cons task tasks => exact acts_resume limits tasks s v task
  | complete c =>
    cases tasks with
    | nil =>
      cases c with
      | normal => exact .rest rfl rfl
      | returned => exact .fault rfl
    | cons task tasks => exact acts_proceed limits tasks s c task
  | unwind f =>
    cases tasks with
    | nil => exact .rest rfl rfl
    | cons task tasks => exact .giveUp rfl rfl rfl
  | fault f => exact .fault rfl

end Machine

end Lox
