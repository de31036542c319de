import Lox.Proofs.Origins
import Lox.Proofs.Verdict

/-!
# Traces

The frames of a machine are those of the calls that are active: each was pushed by a call that was made some
steps ago and has not ended since (`Machine.Active`), and for each there is a task that takes it away. Making
an error leaves both as they are, and giving up the tasks adds one entry to the trace for each frame that it
takes away. So the trace of an error lists the calls that were active when it was made
(`Machine.Traced`).
-/

namespace Lox

/-- The calls that tasks end, the innermost first. -/
def endings (tasks : List Task) : List (Text × Token) := tasks.filterMap Task.endCall?

theorem endings_append (tasks tasks' : List Task) : endings (tasks ++ tasks') = endings tasks ++ endings tasks' :=
  List.filterMap_append

theorem endings_eq_nil {tasks : List Task} (h : ∀ t ∈ tasks, t.endCall? = none) : endings tasks = [] :=
  List.filterMap_eq_nil_iff.2 h

theorem endings_cons {task : Task} (h : task.endCall? = none) (tasks : List Task) :
    endings (task :: tasks) = endings tasks :=
  List.filterMap_cons_none h

theorem Task.MadeBy.endCall?_eq_none {m m' : Machine} {t : Task} (h : t.MadeBy m m') : t.endCall? = none := by
  cases t with
  | endCall => exact h.elim
  | _ => rfl

namespace Machine

variable {call : Call} {e : RuntimeError}

/-- What a step does to the calls: nothing, or one is made or ended. -/
inductive CallStep (limits : Limits) (m m' : Machine) : Prop where
  | same (hendings : endings m'.tasks = endings m.tasks) (hframes : m'.store.frames = m.store.frames)
  | made {call : Call} (hcall : m.call? = some call) (hdepth : m.store.frames.size ≤ limits.maxDepth)
    (hendings : endings m'.tasks = (m.store.heap.callName call.callee, call.paren) :: endings m.tasks)
    (hframes : m'.store.frames = m.store.frames.push (m.store.heap.callName call.callee))
  | ended {name : Text} {paren : Token} (hendings : endings m.tasks = (name, paren) :: endings m'.tasks)
    (hframes : m'.store.frames = m.store.frames.pop)

variable {limits : Limits} {m m' : Machine}

theorem Shifts.endings_eq {pushed : List Task} (h : m.Shifts pushed m')
    (hpushed : ∀ t ∈ pushed, t.endCall? = none) : endings m'.tasks = endings m.tasks := by
  obtain ⟨taken, kept, htaken, htasks, htasks'⟩ := h.tasks
  have htaken' : endings taken.toList = [] := endings_eq_nil fun t ht => htaken t (Option.mem_toList.1 ht)
  rw [htasks, htasks', endings_append, endings_append, endings_eq_nil hpushed, htaken']

theorem endings_of_call? (h : m.call? = some call) : endings m.tasks.tail = endings m.tasks := by
  obtain ⟨task, htask, htasks⟩ := exists_tasks_of_call? h
  rw [htasks, endings_cons (Task.endCall?_of_givesBack htask), List.tail_cons]

theorem Enters.endings_eq {pushed : List Task} (h : m.Enters call pushed m') (hcall : m.call? = some call) :
    endings m'.tasks = (m.store.heap.callName call.callee, call.paren) :: endings m.tasks := by
  have hpushed : endings pushed = [] := endings_eq_nil fun t ht => (h.madeBy t ht).endCall?_eq_none
  rw [h.tasks, endings_append, hpushed, ← endings_of_call? hcall]
  rfl

/-- A task that is given up takes its frame away if it ends a call. -/
theorem callStep_giveUp (f : Failure) {task : Task} {kept : List Task} (htasks : m.tasks = task :: kept) :
    CallStep limits m (giveUp f task kept m.store) := by
  cases task with
  | endCall name paren =>
    have hendings : endings m.tasks = (name, paren) :: endings kept := by
      rw [htasks]
      rfl
    cases f <;> exact .ended hendings rfl
  | _ =>
    refine .same ?_ rfl
    rw [htasks]
    rfl

/-- Whatever a machine does is a step of the calls. -/
theorem Acts.callStep (h : Acts limits m m') (hfault : ∀ f, m'.control ≠ .fault f) : CallStep limits m m' := by
  cases h with
  | work _ hshift hpushed =>
    exact .same (hshift.endings_eq fun t ht => (hpushed t ht).endCall?_eq_none) hshift.frames
  | call hcall hdepth henters => exact .made hcall hdepth (henters.endings_eq hcall) henters.frames
  | endCall _ htasks hstep =>
    rw [hstep]
    exact .ended (by rw [htasks]; rfl) rfl
  | returns _ _ _ hshift | leaves _ _ _ _ _ hshift | raise _ _ hshift | overflow _ _ _ hshift =>
    exact .same (hshift.endings_eq (List.forall_mem_nil _)) hshift.frames
  | giveUp _ htasks hstep => exact hstep ▸ callStep_giveUp _ htasks
  | rest _ hstep => exact hstep ▸ .same rfl rfl
  | fault hcontrol => exact absurd hcontrol (hfault _)

/-! ## Active calls -/

/-- The frame that a call pushes, which was made after a number of steps. -/
def frameOf (limits : Limits) (m : Machine) (p : Nat × Call) : Text :=
  (m.run limits p.1).store.heap.callName p.2.callee

/-- The calls that are active after some steps, the innermost first, each with the number of steps after which
it was made: the frame that it has pushed is still there. -/
inductive Active (limits : Limits) (m : Machine) : Nat → List (Nat × Call) → Prop where
  | script {n : Nat} (hframes : (m.run limits n).store.frames = #[scriptFrame]) : Active limits m n []
  | call {n j : Nat} {call : Call} {outer : List (Nat × Call)} (hmade : j < n)
    (hcall : (m.run limits j).call? = some call)
    (hframes : (m.run limits n).store.frames =
      (m.run limits j).store.frames.push (m.frameOf limits (j, call)))
    (hsince : ∀ i, j < i → i ≤ n →
      (m.run limits j).store.frames.size < (m.run limits i).store.frames.size)
    (houter : Active limits m j outer) : Active limits m n ((j, call) :: outer)

namespace Active

variable {n : Nat} {calls : List (Nat × Call)}

/-- The same calls are active later, if no frame of theirs has gone in between. -/
theorem later (h : Active limits m n calls) {n' : Nat} (hn : n ≤ n')
    (hframes' : (m.run limits n').store.frames = (m.run limits n).store.frames)
    (hbetween : ∀ i, n < i → i ≤ n' →
      (m.run limits n).store.frames.size ≤ (m.run limits i).store.frames.size) :
    Active limits m n' calls := by
  cases h with
  | script hframes => exact .script (hframes'.trans hframes)
  | @call _ j call outer hmade hcall hframes hsince houter =>
    refine .call (Nat.lt_of_lt_of_le hmade hn) hcall (hframes'.trans hframes) (fun i hji hi => ?_) houter
    rcases Nat.lt_or_ge n i with hni | hin
    · exact Nat.lt_of_lt_of_le (hsince n hmade (Nat.le_refl n)) (hbetween i hni hi)
    · exact hsince i hji hin

/-- The frames are those of the active calls, outside of which is the script. -/
theorem frames_eq (h : Active limits m n calls) :
    (m.run limits n).store.frames.toList.reverse = calls.map (m.frameOf limits) ++ [scriptFrame] := by
  induction h with
  | script hframes =>
    rw [hframes]
    rfl
  | call hmade hcall hframes hsince houter ih =>
    rw [hframes, Array.toList_push, List.reverse_append, ih]
    rfl

theorem size_frames (h : Active limits m n calls) :
    (m.run limits n).store.frames.size = calls.length + 1 := by
  have hlength := congrArg List.length h.frames_eq
  rwa [List.length_reverse, List.length_append, List.length_map] at hlength

theorem call?_of_mem (h : Active limits m n calls) {p : Nat × Call} (hp : p ∈ calls) :
    (m.run limits p.1).call? = some p.2 := by
  induction h with
  | script => cases hp
  | call _ hcall _ _ _ ih =>
    cases hp with
    | head => exact hcall
    | tail _ hp => exact ih hp

end Active

/-- The calls that are active after some steps, with the tasks that end them. -/
structure Tracked (limits : Limits) (m : Machine) (n : Nat) (calls : List (Nat × Call)) : Prop where
  active : Active limits m n calls
  endings : endings (m.run limits n).tasks = calls.map fun p => (m.frameOf limits p, p.2.paren)
  depth : (m.run limits n).store.frames.size ≤ limits.maxDepth + 1

/-- A step keeps track of the calls. -/
theorem Tracked.step {n : Nat} {calls : List (Nat × Call)} (h : Tracked limits m n calls)
    (hstep : CallStep limits (m.run limits n) (m.run limits (n + 1))) :
    ∃ calls', Tracked limits m (n + 1) calls' := by
  obtain ⟨hactive, hendings, hdepth⟩ := h
  have hsucc : ∀ i, n < i → i ≤ n + 1 → i = n + 1 := fun i hi hi' => Nat.le_antisymm hi' hi
  cases hstep with
  | same hendings' hframes =>
    refine ⟨calls, hactive.later (Nat.le_succ n) hframes ?_, hendings'.trans hendings, hframes ▸ hdepth⟩
    intro i hi hi'
    rw [hsucc i hi hi', hframes]
  | @made call hcall hdepth' hendings' hframes =>
    refine ⟨(n, call) :: calls, .call (Nat.lt_succ_self n) hcall hframes ?_ hactive, ?_, ?_⟩
    · intro i hi hi'
      rw [hsucc i hi hi', hframes, Array.size_push]
      exact Nat.lt_succ_self _
    · rw [hendings', hendings]
      rfl
    · rw [hframes, Array.size_push]
      exact Nat.succ_le_succ hdepth'
  | ended hendings' hframes =>
    rw [hendings] at hendings'
    cases hactive with
    | script => cases hendings'
    | @call _ j call outer hmade hcall hpushed hsince houter =>
      -- The frame of the innermost call is gone, and the frames are again those when it was made.
      have hback : (m.run limits (n + 1)).store.frames = (m.run limits j).store.frames := by
        rw [hframes, hpushed, Array.pop_push]
      refine ⟨outer, houter.later (Nat.le_succ_of_le (Nat.le_of_lt hmade)) hback ?_,
        (List.cons.inj hendings').2.symm, ?_⟩
      · intro i hji hi
        rcases Nat.lt_or_ge n i with hni | hin
        · rw [hsucc i hni hi, hback]
        · exact Nat.le_of_lt (hsince i hji hin)
      · rw [hframes, Array.size_pop]
        exact (Nat.sub_le _ _).trans hdepth

/-- At every moment of a run the frames are those of active calls, for each of which there is a task that takes
it away. -/
theorem exists_tracked (hframes : m.store.frames = #[scriptFrame]) (hendings : endings m.tasks = [])
    (hfault : ∀ n f, (m.run limits n).control ≠ .fault f) (n : Nat) : ∃ calls, Tracked limits m n calls := by
  induction n with
  | zero =>
    refine ⟨[], .script hframes, hendings, ?_⟩
    change m.store.frames.size ≤ _
    rw [hframes]
    exact Nat.succ_le_succ (Nat.zero_le _)
  | succ n ih =>
    obtain ⟨calls, hcalls⟩ := ih
    exact hcalls.step ((run_acts limits m n).callStep (hfault (n + 1)))

/-! ## Unwinding -/

/-- The entries that giving up calls adds to a trace: for each call the frame below its own, and the line of
its closing parenthesis. -/
def unwound : List (Text × Token) → Array Text → List TraceEntry
  | [], _ => []
  | (_, paren) :: rest, frames => ⟨frames.pop.back?.getD [], paren.line⟩ :: unwound rest frames.pop

/-- When an error has got rid of all tasks, its trace has an entry for each call that they would have
ended. -/
theorem trace_of_unwind {e' : RuntimeError} (hcontrol : m.control = .unwind (.error e)) {k : Nat}
    (h : (m.run limits k).outcome = .error e') :
    e'.token = e.token ∧ e'.cause = e.cause ∧
      e'.trace.toList = e.trace.toList ++ unwound (endings m.tasks) m.store.frames := by
  obtain ⟨control, tasks, s⟩ := m
  obtain rfl : control = _ := hcontrol
  dsimp only
  induction tasks generalizing e s k with
  | nil =>
    rw [run_of_halted limits rfl] at h
    cases h
    exact ⟨rfl, rfl, (List.append_nil _).symm⟩
  | cons task tasks ih =>
    cases k with
    | zero => cases h
    | succ k =>
      change (run limits k (giveUp (.error e) task tasks s)).outcome = .error e' at h
      cases task with
      | endCall name paren =>
        obtain ⟨htoken, hcause, htrace⟩ := ih _ h
        refine ⟨htoken, hcause, ?_⟩
        rw [htrace, Array.toList_push, List.append_assoc]
        rfl
      | leaveScope outer => exact ih { s with scope := outer } h
      | endBody closure outer => exact ih { s with scope := outer } h
      | _ => exact ih s h

/-- Giving up calls lists their frames one after another, the next one always with the line of the call before
it. -/
theorem unwound_eq {calls : List (Text × Token)} {frames : Array Text} {script : Text}
    (h : frames.toList.reverse = calls.map (·.1) ++ [script]) :
    frames.back?.getD [] :: (unwound calls frames).map (·.function) = calls.map (·.1) ++ [script] ∧
      (unwound calls frames).map (·.line) = calls.map fun c => (c.2.line : Int) := by
  have hback : frames.back? = (calls.map (·.1) ++ [script]).head? := by
    rw [← h, List.head?_reverse, Array.getLast?_toList]
  rw [hback]
  induction calls generalizing frames with
  | nil => exact ⟨rfl, rfl⟩
  | cons call rest ih =>
    have hpop : frames.pop.toList.reverse = rest.map (·.1) ++ [script] := by
      rw [Array.toList_pop, ← List.tail_reverse, h]
      rfl
    have hback' : frames.pop.back? = (rest.map (·.1) ++ [script]).head? := by
      rw [← hpop, List.head?_reverse, Array.getLast?_toList]
    obtain ⟨hfunctions, hlines⟩ := ih hpop hback'
    rw [← hback'] at hfunctions
    exact ⟨congrArg (call.1 :: ·) hfunctions, congrArg ((call.2.line : Int) :: ·) hlines⟩

/-- A step that fails makes an error or overflows. -/
theorem Acts.of_fails (h : Acts limits m m') (hgoing : m.control.unwinds = false)
    (hfails : m'.control.unwinds = true) :
    (∃ t cause, m'.control = .unwind (.error ⟨t, cause, #[⟨m.store.frame, t.line⟩]⟩) ∧ m.Shifts [] m' ∧
      ∀ e, cause = .native e → ∃ n args, m.call? = some ⟨.native n, args, t⟩ ∧
        n.call (limits.clock m.store.readings) m.store.heap args = .refused e) ∨
      m'.Overflows ∧ m.Shifts [] m' ∧ (∃ call, m.call? = some call) ∧ limits.maxDepth < m.store.frames.size := by
  have hnot : ∀ {c}, m'.control = c → c.unwinds = false → False := by
    intro c hcontrol hc
    rw [hcontrol, hc] at hfails
    cases hfails
  cases h with
  | work hwork _ _ => exact (hnot rfl (unwinds_of_works hwork)).elim
  | call _ _ henters => exact (hnot rfl (unwinds_of_works henters.works)).elim
  | endCall _ _ hstep => exact (hnot (congrArg Machine.control hstep) rfl).elim
  | returns hcontrol | leaves _ _ hcontrol | fault hcontrol => exact (hnot hcontrol rfl).elim
  | raise _ hcontrol hshift hnative => exact .inl ⟨_, _, hcontrol, hshift, hnative⟩
  | overflow hcall hdepth hcontrol hshift => exact .inr ⟨hcontrol, hshift, ⟨_, hcall⟩, hdepth⟩
  | giveUp hcontrol _ _ =>
    rw [hcontrol] at hgoing
    cases hgoing
  | rest _ hstep => exact (hnot (congrArg Machine.control hstep) hgoing).elim

/-- A failure begins with some step. -/
theorem exists_failing_step (hstart : m.control.unwinds = false) {n : Nat}
    (h : (m.run limits n).control.unwinds = true) :
    ∃ k < n, (m.run limits k).control.unwinds = false ∧ (m.run limits (k + 1)).control.unwinds = true := by
  induction n with
  | zero =>
    rw [show m.run limits 0 = m from rfl, hstart] at h
    cases h
  | succ n ih =>
    cases hn : (m.run limits n).control.unwinds with
    | false => exact ⟨n, Nat.lt_succ_self n, hn, h⟩
    | true =>
      obtain ⟨k, hk, hfails⟩ := ih hn
      exact ⟨k, Nat.lt_succ_of_lt hk, hfails⟩

theorem control_of_error (h : m.outcome = .error e) : m.control = .unwind (.error e) := by
  unfold outcome at h
  split at h
  case h_2 =>
    cases h
    rfl
  all_goals cases h

/-- An error that was made by a step of a run lists the given calls, which were active then. -/
structure Traced (limits : Limits) (m : Machine) (n : Nat) (calls : List (Nat × Call)) (e : RuntimeError) :
    Prop where
  /-- The next step fails with the error, blaming its token in the innermost call. -/
  going : (m.run limits n).control.unwinds = false
  made : (m.run limits (n + 1)).control =
    .unwind (.error ⟨e.token, e.cause, #[⟨(m.run limits n).store.frame, e.token.line⟩]⟩)
  active : Active limits m n calls
  frames : (m.run limits n).store.frames.toList.reverse = calls.map (m.frameOf limits) ++ [scriptFrame]
  /-- The functions of the trace are the frames, the innermost first. -/
  functions : e.trace.toList.map (·.function) = (m.run limits n).store.frames.toList.reverse
  /-- The first line is that of the token, and each further one that of the closing parenthesis of the call
  which pushed the frame before. -/
  lines : e.trace.toList.map (·.line) =
    (e.token.line : Int) :: calls.map fun p => (p.2.paren.line : Int)
  size : e.trace.size = calls.length + 1
  depth : e.trace.size ≤ limits.maxDepth + 1

/-- The error with which a run ends lists the calls that were active when it was made. An error of a built-in
function was made when it was called, in the frames of the caller. -/
theorem exists_traced (hframes : m.store.frames = #[scriptFrame]) (hendings : endings m.tasks = [])
    (hstart : m.control.unwinds = false) (hfault : ∀ n f, (m.run limits n).control ≠ .fault f) {steps : Nat}
    (hend : (m.run limits steps).outcome = .error e) :
    ∃ n < steps, ∃ calls, m.Traced limits n calls e ∧ ∀ refusal, e.cause = .native refusal → ∃ native args,
        (m.run limits n).call? = some ⟨.native native, args, e.token⟩ ∧
        native.call (limits.clock (m.run limits n).store.readings) (m.run limits n).store.heap args =
          .refused refusal := by
  have hunwinds : (m.run limits steps).control.unwinds = true := by
    rw [control_of_error hend]
    rfl
  obtain ⟨n, hn, hgoing, hfails⟩ := exists_failing_step hstart hunwinds
  obtain ⟨calls, hactive, hcalls, hdepth⟩ := exists_tracked hframes hendings hfault n
  rw [← Nat.add_sub_cancel' hn, run_add] at hend
  rcases (run_acts limits m n).of_fails hgoing hfails with
    ⟨t, cause, hcontrol, hshift, hnative⟩ | ⟨hoverflows, -⟩
  · obtain ⟨rfl, rfl, htrace⟩ := trace_of_unwind hcontrol hend
    rw [hshift.endings_eq (List.forall_mem_nil _), hcalls, hshift.frames] at htrace
    have hnames := hactive.frames_eq
    have hnames' : (m.run limits n).store.frames.toList.reverse =
        (calls.map fun p => (m.frameOf limits p, p.2.paren)).map (·.1) ++ [scriptFrame] := by
      rw [hnames, List.map_map]
      rfl
    -- What giving up the calls has added, in terms of the frames and the calls.
    obtain ⟨hfunctions, hlines⟩ := unwound_eq hnames'
    have hlines' : e.trace.toList.map (·.line) =
        (e.token.line : Int) :: calls.map fun p => (p.2.paren.line : Int) := by
      rw [htrace, List.map_append, hlines, List.map_map]
      rfl
    have hsize : e.trace.size = calls.length + 1 := by
      have hlength := congrArg List.length hlines'
      rwa [List.length_map, List.length_cons, List.length_map] at hlength
    refine ⟨n, hn, calls, ⟨hgoing, hcontrol, hactive, hnames, ?_, hlines', hsize, ?_⟩, hnative⟩
    · rw [htrace, List.map_append, hnames']
      exact hfunctions
    · rw [hsize, ← hactive.size_frames]
      exact hdepth
  · have hlast := (hoverflows.run limits (steps - (n + 1))).1
    rw [Overflows, control_of_error hend] at hlast
    cases hlast

/-! ## Calls of classes -/

theorem step_of_call (h : m.call? = some call) :
    m.step limits = apply limits call.callee call.arguments call.paren m.tasks.tail m.store := by
  obtain ⟨v, below, s, ⟨rfl, rfl, hnone⟩ | ⟨done, rfl, hdone⟩⟩ := of_call? h
  · rw [hnone]
    rfl
  · rw [hdone]
    rfl

/-- A call that does not fail runs the body of a function, or constructs an instance, in a frame of its own. -/
theorem step_of_going (h : m.call? = some call) (hgoing : (m.step limits).control.unwinds = false) :
    let name := m.store.heap.callName call.callee
    (∀ c, call.callee = .classValue c → m.step limits =
      construct c call.arguments (.endCall name call.paren :: m.tasks.tail) (pushFrame name call.paren m.store)) ∧
    ∀ f closure, call.callee = .function f → m.store.heap.functions[f]? = some closure → m.step limits =
      enterFunction closure call.arguments (.endCall name call.paren :: m.tasks.tail)
        (pushFrame name call.paren m.store) := by
  rw [step_of_call h] at hgoing ⊢
  obtain ⟨callee, args, paren⟩ := call
  unfold apply at hgoing ⊢
  split at hgoing
  · cases hgoing
  · split_ifs at hgoing ⊢ with hcount hdepth
    · cases hgoing
    · cases hgoing
    · refine ⟨?_, ?_⟩
      · rintro c rfl
        rfl
      · rintro f closure rfl hclosure
        dsimp only
        rw [hclosure]

/-- Constructing an instance adds one frame, which is named after the class, whether there is an initializer to
run or not. -/
theorem frames_of_construct {c : ClassId} (h : m.call? = some call) (hclass : call.callee = .classValue c)
    (hworks : (m.step limits).control.works = true) :
    (m.step limits).store.frames = m.store.frames.push (m.store.heap.className c) := by
  have hmade := (step_of_going h (unwinds_of_works hworks)).1 c hclass
  rw [hmade] at hworks ⊢
  rcases enters_construct h hclass (s := pushFrame _ call.paren m.store) rfl rfl rfl with
    ⟨_, henters⟩ | ⟨f, hcontrol⟩
  · rw [henters.frames, hclass]
    rfl
  · rw [hcontrol] at hworks
    cases hworks

end Machine

namespace Session

/-- A source that was run has been accepted. -/
theorem accepts_of_ran {s : Session} {source : Text} {limits : Limits} {steps : Nat} {o : Outcome}
    (h : (s.run limits steps source).ending = .ran o) : s.Accepts source := by
  by_contra hsource
  obtain ⟨-, -, hmachine⟩ := prepare_of_not_accepts hsource
  rw [run_of_prepare_none (Prod.ext rfl (Prod.ext rfl hmachine))] at h
  cases h

/-- The trace of a runtime error is the stack of calls when it was made. Whatever a session was asked before, if
running a source ends with an error then some step of its machine made it, and the trace lists the frames there,
the innermost first and the script last: one for each active call, so not more than the limit allows and the
script. The first entry has the line of the blamed token and each further one that of the closing parenthesis
of the call which pushed the frame before it; that is a call expression which was being evaluated, from the
step on at which its evaluation began. An error of a built-in function was made when it was called, in the frames
of the caller, and calling a class adds one frame, named after the class. -/
theorem run_error_trace (color showTrace : Bool) (requests : List Request) {source : Text} {limits : Limits}
    {steps : Nat} {e : RuntimeError}
    (h : ((serveAll color showTrace requests).run limits steps source).ending = .ran (.error e)) :
    ∃ m, ((serveAll color showTrace requests).prepare source).2.2 = some m ∧
      ∃ n < steps, ∃ calls, m.Traced limits n calls e ∧
        (∀ p ∈ calls, m.EvaluatesCall limits p.1 p.2.paren p.2.arguments.length
          (m.run limits p.1).tasks.tail) ∧
        (∀ refusal, e.cause = .native refusal → ∃ native args,
          (m.run limits n).call? = some ⟨.native native, args, e.token⟩ ∧
          native.call (limits.clock (m.run limits n).store.readings) (m.run limits n).store.heap args =
            .refused refusal) ∧
        ∀ j call c, (m.run limits j).call? = some call → call.callee = .classValue c →
          (m.run limits (j + 1)).control.works = true →
          (m.run limits (j + 1)).store.frames =
            (m.run limits j).store.frames.push ((m.run limits j).store.heap.className c) := by
  have hsound := sound_serveAll color showTrace requests
  generalize serveAll color showTrace requests = s at h hsound
  have haccepts := accepts_of_ran h
  have hfault := fun n => (hsound.machine haccepts limits n).ne_fault
  have hend := (run_of_accepts haccepts limits steps).2.2
  rw [h] at hend
  refine ⟨_, (prepare_of_accepts haccepts).2.2, ?_⟩
  obtain ⟨n, hn, calls, htraced, hnative⟩ :=
    Machine.exists_traced rfl rfl rfl hfault (Ending.ran.inj hend).symm
  refine ⟨n, hn, calls, htraced, ?_, hnative, ?_⟩
  · intro p hp
    exact Machine.exists_call_expression hfault (by simp [Machine.start]) (by simp [Machine.start])
      (htraced.active.call?_of_mem hp)
  · intro j call c hcall hclass hworks
    rw [Machine.run_succ] at hworks ⊢
    exact Machine.frames_of_construct hcall hclass hworks

end Session

/-- The initializer of a class calls a function, in which a built-in one refuses its arguments; the calls are on
lines of their own. -/
def refusalSource : Text :=
  text "fun f()\x7b\ngetattr(nil,nil);\x7d\nclass A\x7binit()\x7b\nf();\x7d\x7d\nA();"

/-- The error of that function, listed with the function around it, the class and the script. -/
def refusal : RuntimeError :=
  ⟨⟨.rightParen, text ")", none, 2⟩, .native (.firstNotInstance .getattr),
    #[⟨text "f", 2⟩, ⟨text "A", 4⟩, ⟨scriptFrame, 5⟩]⟩

/-- The refused call is traced through `f` and `A` out to the script. -/
theorem Session.run_error_trace_refusal :
    ((serveAll false false []).run ⟨10, fun _ => ⟨0⟩⟩ 40 refusalSource).ending = .ran (.error refusal) ∧
    ∃ m, ((serveAll false false []).prepare refusalSource).2.2 = some m ∧
      ∃ n < 40, ∃ calls, m.Traced ⟨10, fun _ => ⟨0⟩⟩ n calls refusal ∧ ∃ native args,
        (m.run ⟨10, fun _ => ⟨0⟩⟩ n).call? = some ⟨.native native, args, refusal.token⟩ := by
  have hending : ((serveAll false false []).run ⟨10, fun _ => ⟨0⟩⟩ 40 refusalSource).ending =
      .ran (.error refusal) := by decide +kernel
  obtain ⟨m, hm, n, hn, calls, htraced, -, hnative, -⟩ := run_error_trace false false [] hending
  obtain ⟨native, args, hcall, -⟩ := hnative _ rfl
  exact ⟨hending, m, hm, n, hn, calls, htraced, native, args, hcall⟩

end Lox
