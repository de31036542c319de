import Lox.Proofs.Restoration
import Lox.Proofs.Traces

/-!
# The log of calls

A call is logged with its depth when it is made, and its return is logged when it ends with a value. A
built-in function is logged with both in one step. Giving up a call because of a failure is not logged.

`LogRecord.Balanced` is the grammar of the records of calls that have all ended, and `LogRecord.Open` that of
records in which some calls have not. While a program goes on, the calls that are open in its log are those for
which a task waits that ends them (`Machine.open_run`). From a failure on the log stands still, so it shows the
calls that were active when the failure was made (`Machine.exists_open_of_unwinds`).
-/

namespace Lox

namespace LogRecord

/-- Records of calls that have all ended, made inside a number of active calls. A call has the depth one more
than that number, and after it come the records of the calls inside of it and the return of the same
function. -/
inductive Balanced : Nat → List LogRecord → Prop where
  | nil (active : Nat) : Balanced active []
  | call {active line : Nat} {f : Text} {inner rest : List LogRecord} (hinner : Balanced (active + 1) inner)
    (hrest : Balanced active rest) :
    Balanced active (.call f line (active + 1) :: (inner ++ .returned f :: rest))

/-- Records in which the given calls have not ended, the innermost first, each with its function and line. -/
inductive Open : List (Text × Nat) → List LogRecord → Prop where
  | script {records : List LogRecord} (h : Balanced 0 records) : Open [] records
  | call {f : Text} {line : Nat} {outer : List (Text × Nat)} {before inner : List LogRecord}
    (houter : Open outer before) (hinner : Balanced (outer.length + 1) inner) :
    Open ((f, line) :: outer) (before ++ .call f line (outer.length + 1) :: inner)

/-- The record is one of a call. -/
def ofCall : LogRecord → Bool
  | .call _ _ _ | .returned _ => true
  | _ => false

section

variable {active line : Nat} {f : Text} {records others : List LogRecord} {calls : List (Text × Nat)}

/-- Records that are balanced one after the other are balanced together. -/
theorem Balanced.append (h : Balanced active records) (hothers : Balanced active others) :
    Balanced active (records ++ others) := by
  induction h with
  | nil => exact hothers
  | @call active line f inner rest hinner _ _ ihrest =>
    have happend : (.call f line (active + 1) :: (inner ++ .returned f :: rest)) ++ others =
        .call f line (active + 1) :: (inner ++ .returned f :: (rest ++ others)) := by
      rw [List.cons_append, List.append_assoc, List.cons_append]
    rw [happend]
    exact .call hinner (ihrest hothers)

/-- A call with what happens inside of it. -/
theorem Balanced.one (h : Balanced (active + 1) records) (f : Text) (line : Nat) :
    Balanced active (.call f line (active + 1) :: (records ++ [.returned f])) :=
  .call h (.nil active)

/-- Balanced records are all of calls. -/
theorem Balanced.ofCall (h : Balanced active records) : ∀ r ∈ records, r.ofCall = true := by
  induction h with
  | nil => simp
  | call _ _ ihinner ihrest =>
    simp only [List.mem_cons, List.mem_append]
    rintro r (rfl | hr | rfl | hr)
    · rfl
    · exact ihinner r hr
    · rfl
    · exact ihrest r hr

/-- Calls that begin and end leave the same ones open. -/
theorem Open.append (h : Open calls records) (hothers : Balanced calls.length others) :
    Open calls (records ++ others) := by
  cases h with
  | script h => exact .script (h.append hothers)
  | call houter hinner =>
    rw [List.append_assoc, List.cons_append]
    exact .call houter (hinner.append hothers)

theorem Open.made (h : Open calls records) (f : Text) (line : Nat) :
    Open ((f, line) :: calls) (records ++ [.call f line (calls.length + 1)]) :=
  .call h (.nil _)

theorem Open.returned (h : Open ((f, line) :: calls) records) : Open calls (records ++ [.returned f]) := by
  obtain _ | ⟨houter, hinner⟩ := h
  rw [List.append_assoc, List.cons_append]
  exact houter.append (hinner.one f line)

/-- The records of open calls are all of calls. -/
theorem Open.ofCall (h : Open calls records) : ∀ r ∈ records, r.ofCall = true := by
  induction h with
  | script h => exact h.ofCall
  | call _ hinner ih =>
    simp only [List.mem_append, List.mem_cons]
    rintro r (hr | rfl | hr)
    · exact ih r hr
    · rfl
    · exact hinner.ofCall r hr

end

end LogRecord

/-- What making a call logs: the call and, if it is one of a built-in function, its return. -/
def Call.records (call : Call) (h : Heap) (depth : Nat) : List LogRecord :=
  .call (h.callName call.callee) call.paren.line depth ::
    match call.callee with
    | .native n => [.returned (text n.name)]
    | _ => []

namespace Machine

/-! ## What a step logs -/

section

variable (tasks : List Task) (s : Store)

theorem log_giveUp (f : Failure) (task : Task) : (giveUp f task tasks s).store.log = s.log := by
  cases task with
  | endCall => cases f <;> rfl
  | _ => rfl

theorem log_enterFunction (closure : Closure) (args : List Value) :
    (enterFunction closure args tasks s).store.log = s.log := by
  unfold enterFunction
  split <;> rfl

theorem log_construct (c : ClassId) (args : List Value) : (construct c args tasks s).store.log = s.log := by
  unfold construct
  dsimp only
  split
  · rfl
  · split
    · exact log_enterFunction _ _ _ args
    · rfl

end

/-- What a step does to the calls that tasks end, with what it logs. -/
inductive Logs (limits : Limits) (m m' : Machine) : Prop where
  /-- It neither makes nor ends a call. -/
  | same (hendings : endings m'.tasks = endings m.tasks) (hlog : m'.store.log = m.store.log)
  /-- It makes a call, whose depth is the number of frames. -/
  | made {call : Call} (hcall : m.call? = some call) (hdepth : m.store.frames.size ≤ limits.maxDepth)
    (hendings : endings m'.tasks = (m.store.heap.callName call.callee, call.paren) :: endings m.tasks)
    (hlog : m'.store.log = m.store.log.push
      (.call (m.store.heap.callName call.callee) call.paren.line m.store.frames.size))
  /-- It calls a built-in function, which ends within the step. -/
  | native {n : Native} {args : List Value} {paren : Token} (hcall : m.call? = some ⟨.native n, args, paren⟩)
    (hdepth : m.store.frames.size ≤ limits.maxDepth) (hendings : endings m'.tasks = endings m.tasks)
    (hlog : m'.store.log = (m.store.log.push (.call (text n.name) paren.line m.store.frames.size)).push
      (.returned (text n.name)))
  /-- A call ends with a value. -/
  | ended {name : Text} {paren : Token} (hendings : endings m.tasks = (name, paren) :: endings m'.tasks)
    (hlog : m'.store.log = m.store.log.push (.returned name))
  /-- A task is given up. -/
  | givenUp (hunwinds : m.control.unwinds = true) (hlog : m'.store.log = m.store.log)

section

variable {limits : Limits} {m m' : Machine} {call : Call}
variable {n : Nat} {calls : List (Nat × Call)}

/-- A call that was made is logged, with the task that logs its end. -/
theorem logs_of_enters (h : (∃ pushed, m.Enters call pushed m') ∨ ∃ f, m'.control = .fault f)
    (hcall : m.call? = some call) (hdepth : m.store.frames.size ≤ limits.maxDepth)
    (hfault : ∀ f, m'.control ≠ .fault f)
    (hlog : m'.store.log = m.store.log.push
      (.call (m.store.heap.callName call.callee) call.paren.line m.store.frames.size)) :
    Logs limits m m' := by
  rcases h with ⟨pushed, henters⟩ | ⟨f, hcontrol⟩
  · exact .made hcall hdepth (henters.endings_eq hcall) hlog
  · exact absurd hcontrol (hfault f)

/-- The call of a built-in function is logged as it is made. -/
theorem logs_callNative {n : Native} {args : List Value} {paren : Token}
    (hcall : m.call? = some ⟨.native n, args, paren⟩) (hdepth : m.store.frames.size ≤ limits.maxDepth)
    (hfault : ∀ f, (callNative limits n args paren m.tasks.tail m.store).control ≠ .fault f) :
    Logs limits m (callNative limits n args paren m.tasks.tail m.store) := by
  have hendings := endings_of_call? hcall
  unfold callNative at hfault ⊢
  dsimp only at hfault ⊢
  split
  · exact .native hcall hdepth hendings rfl
  · exact .native hcall hdepth hendings rfl
  · next f hf =>
    rw [hf] at hfault
    exact absurd rfl (hfault f)

/-- A call is logged as it is made, whatever is called. -/
theorem logs_apply (hcall : m.call? = some call)
    (hfault : ∀ f, (apply limits call.callee call.arguments call.paren m.tasks.tail m.store).control ≠
      .fault f) :
    Logs limits m (apply limits call.callee call.arguments call.paren m.tasks.tail m.store) := by
  have hendings := endings_of_call? hcall
  unfold apply at hfault ⊢
  split at hfault
  · exact .same hendings rfl
  · split_ifs at hfault ⊢ with hcount hdepth
    · exact .same hendings rfl
    · exact .same hendings rfl
    · obtain ⟨callee, args, paren⟩ := call
      have hdepth' := Nat.not_lt.1 hdepth
      dsimp only at hfault ⊢
      split at hfault
      · exact logs_callNative hcall hdepth' hfault
      · split at hfault
        · next closure hclosure =>
          have henters := enters_enterFunction (s := pushFrame _ paren m.store) hcall (.function rfl hclosure)
            hclosure rfl rfl rfl
          exact logs_of_enters henters hcall hdepth' hfault (log_enterFunction _ _ closure args)
        · exact absurd rfl (hfault _)
      · have henters := enters_construct (s := pushFrame _ paren m.store) hcall rfl rfl rfl rfl
        exact logs_of_enters henters hcall hdepth' hfault (log_construct _ _ _ args)
      · exact absurd rfl (hfault _)

/-- What a step does to the calls and to the log. -/
theorem logs_step (hfault : ∀ f, (m.step limits).control ≠ .fault f) : Logs limits m (m.step limits) := by
  cases hcall : m.call? with
  | some call =>
    rw [step_of_call hcall] at hfault ⊢
    exact logs_apply hcall hfault
  | none =>
    have hnone : ∀ call, m.call? ≠ some call := by simp [hcall]
    cases step_acts limits m with
    | work _ hshift hpushed =>
      exact .same (hshift.endings_eq fun t ht => (hpushed t ht).endCall?_eq_none) (hshift.log hcall)
    | returns _ _ _ hshift | leaves _ _ _ _ _ hshift | raise _ _ hshift =>
      exact .same (hshift.endings_eq (List.forall_mem_nil _)) (hshift.log hcall)
    | endCall _ htasks hstep =>
      rw [hstep]
      exact .ended (by rw [htasks]; rfl) rfl
    | giveUp hcontrol _ hstep =>
      refine .givenUp (by rw [hcontrol]; rfl) ?_
      rw [hstep, log_giveUp]
    | rest _ hstep => exact .same (by rw [hstep]) (by rw [hstep])
    | call hcall' | overflow hcall' => exact absurd hcall' (hnone _)
    | fault hcontrol => exact absurd hcontrol (hfault _)

/-! ## What is logged along a run -/

/-- The calls that tasks end, each with its function and line. -/
def opened (tasks : List Task) : List (Text × Nat) := (endings tasks).map fun p => (p.1, p.2.line)

/-- A step of a program that goes on leaves those calls open in the log for which a task waits. -/
theorem Logs.open (h : Logs limits m m') (hgoing : m.control.unwinds = false)
    (hsize : m.store.frames.size = (endings m.tasks).length + 1)
    (hopen : LogRecord.Open (opened m.tasks) m.store.log.toList) :
    LogRecord.Open (opened m'.tasks) m'.store.log.toList := by
  have hlength : (opened m.tasks).length + 1 = m.store.frames.size := by
    rw [hsize, opened, List.length_map]
  cases h with
  | same hendings hlog =>
    rw [opened, hendings, hlog]
    exact hopen
  | made _ _ hendings hlog =>
    rw [opened, hendings, hlog, Array.toList_push, ← hlength]
    exact hopen.made _ _
  | native _ _ hendings hlog =>
    rw [opened, hendings, hlog, Array.toList_push, Array.toList_push, List.append_assoc, ← hlength]
    exact hopen.append (.one (.nil _) _ _)
  | ended hendings hlog =>
    rw [opened, hendings] at hopen
    rw [hlog, Array.toList_push]
    exact hopen.returned
  | givenUp hunwinds _ =>
    rw [hgoing] at hunwinds
    cases hunwinds

/-- The depth of a call in the log is within the limit. -/
theorem Logs.depth_le (h : Logs limits m m')
    (hdepths : ∀ f line depth, .call f line depth ∈ m.store.log.toList → depth ≤ limits.maxDepth) :
    ∀ f line depth, .call f line depth ∈ m'.store.log.toList → depth ≤ limits.maxDepth := by
  intro f line depth hmem
  cases h with
  | same _ hlog | givenUp _ hlog => exact hdepths f line depth (hlog ▸ hmem)
  | made _ hdepth _ hlog =>
    rw [hlog, Array.toList_push, List.mem_append, List.mem_singleton] at hmem
    rcases hmem with hmem | hnew
    · exact hdepths f line depth hmem
    · cases hnew
      exact hdepth
  | native _ hdepth _ hlog =>
    rw [hlog, Array.toList_push, Array.toList_push, List.mem_append, List.mem_append, List.mem_singleton,
      List.mem_singleton] at hmem
    rcases hmem with (hmem | hnew) | hreturned
    · exact hdepths f line depth hmem
    · cases hnew
      exact hdepth
    · cases hreturned
  | ended _ hlog =>
    rw [hlog, Array.toList_push, List.mem_append, List.mem_singleton] at hmem
    rcases hmem with hmem | hreturned
    · exact hdepths f line depth hmem
    · cases hreturned

/-- A failure that is on its way stays so, and nothing is logged. -/
theorem step_of_unwinds (limits : Limits) (h : m.control.unwinds = true) :
    (m.step limits).control.unwinds = true ∧ (m.step limits).store.log = m.store.log := by
  obtain ⟨control, tasks, s⟩ := m
  cases control with
  | unwind f =>
    cases tasks with
    | nil => exact ⟨rfl, rfl⟩
    | cons task tasks => exact ⟨unwinds_giveUp f task tasks s, log_giveUp tasks s f task⟩
  | _ => cases h

/-- A machine that unwinds logs nothing. -/
theorem run_of_unwinds (limits : Limits) (h : m.control.unwinds = true) (n : Nat) :
    (m.run limits n).control.unwinds = true ∧ (m.run limits n).store.log = m.store.log := by
  induction n with
  | zero => exact ⟨h, rfl⟩
  | succ n ih =>
    obtain ⟨hunwinds, hlog⟩ := ih
    obtain ⟨hunwinds', hlog'⟩ := step_of_unwinds limits hunwinds
    rw [run_succ]
    exact ⟨hunwinds', hlog'.trans hlog⟩

/-- A program that goes on after some steps has gone on before. -/
theorem going_of_le {i : Nat} (h : (m.run limits n).control.unwinds = false) (hi : i ≤ n) :
    (m.run limits i).control.unwinds = false := by
  by_contra hunwinds
  have hlast := (run_of_unwinds limits (Bool.eq_true_of_not_eq_false hunwinds) (n - i)).1
  rw [← run_add, Nat.add_sub_cancel' hi, h] at hlast
  cases hlast

/-- What overflows has failed by overflowing. -/
theorem Overflows.of_run (limits : Limits) (h : m.control.unwinds = true) (hlast : (m.run limits n).Overflows) :
    m.Overflows := by
  induction n with
  | zero => exact hlast
  | succ n ih =>
    have hunwinds := (run_of_unwinds limits h n).1
    rw [run_succ] at hlast
    refine ih ?_
    generalize m.run limits n = last at hunwinds hlast
    obtain ⟨control, tasks, s⟩ := last
    cases control with
    | unwind f =>
      cases f with
      | overflow => rfl
      | error e =>
        cases tasks with
        | nil => cases hlast
        | cons task tasks => cases task <;> cases hlast
    | _ => cases hunwinds

/-- A run fails once. -/
theorem failing_step_unique {k : Nat} (hn : (m.run limits n).control.unwinds = false)
    (hn' : (m.run limits (n + 1)).control.unwinds = true) (hk : (m.run limits k).control.unwinds = false)
    (hk' : (m.run limits (k + 1)).control.unwinds = true) : n = k := by
  rcases Nat.lt_trichotomy n k with hlt | heq | hgt
  · rw [going_of_le hk hlt] at hn'
    cases hn'
  · exact heq
  · rw [going_of_le hn hgt] at hk'
    cases hk'

theorem of_finished (h : m.outcome = .finished) : m.control = .complete .normal ∧ m.tasks = [] := by
  unfold outcome at h
  split at h
  case h_1 => exact ⟨rfl, rfl⟩
  all_goals cases h

theorem of_overflow (h : m.outcome = .overflow) : m.Overflows := by
  unfold outcome at h
  split at h
  case h_3 => rfl
  all_goals cases h

/-- The call that a step overflows at is one that could be made but for the depth. -/
theorem overflows_iff (hcall : m.call? = some call) :
    (m.step limits).Overflows ↔ m.store.heap.arity? call.callee = some call.arguments.length ∧
        limits.maxDepth < m.store.frames.size := by
  have hgoing : m.control.unwinds = false := by
    obtain ⟨v, below, s, ⟨rfl, -, -⟩ | ⟨done, rfl, -⟩⟩ := of_call? hcall <;> rfl
  constructor
  · intro hoverflows
    have hfails : (m.step limits).control.unwinds = true := by
      rw [show (m.step limits).control = .unwind .overflow from hoverflows]
      rfl
    rcases (step_acts limits m).of_fails hgoing hfails with ⟨t, cause, hcontrol, -⟩ | ⟨-, -, -, hdepth⟩
    · cases hoverflows.symm.trans hcontrol
    · refine ⟨?_, hdepth⟩
      rw [step_of_call hcall] at hoverflows
      unfold apply at hoverflows
      split at hoverflows
      · cases hoverflows
      · next arity harity =>
        split_ifs at hoverflows with hcount
        · cases hoverflows
        · rw [harity, not_not.1 hcount]
  · rintro ⟨harity, hdepth⟩
    rw [step_of_call hcall]
    unfold apply
    rw [harity]
    simp only [ne_eq, not_true_eq_false, if_false, if_pos hdepth]
    rfl

/-- A call that can be made is logged with the number of frames as its depth. -/
theorem log_of_call (hcall : m.call? = some call) (hfault : ∀ f, (m.step limits).control ≠ .fault f)
    (harity : m.store.heap.arity? call.callee = some call.arguments.length)
    (hdepth : m.store.frames.size ≤ limits.maxDepth) :
    (m.step limits).store.log.toList =
      m.store.log.toList ++ call.records m.store.heap m.store.frames.size := by
  obtain ⟨callee, args, paren⟩ := call
  rw [step_of_call hcall] at hfault ⊢
  dsimp only at harity
  unfold apply at hfault ⊢
  rw [harity] at hfault ⊢
  simp only [ne_eq, not_true_eq_false, if_false, if_neg (Nat.not_lt.2 hdepth)] at hfault ⊢
  split at hfault
  · unfold callNative at hfault ⊢
    dsimp only at hfault ⊢
    split
    · simp [popFrame, pushFrame, Call.records, Heap.callName]
    · simp [raise, popFrame, pushFrame, Call.records, Heap.callName]
    · next f hf =>
      rw [hf] at hfault
      exact absurd rfl (hfault f)
  · split at hfault
    · rw [log_enterFunction]
      exact Array.toList_push
    · exact absurd rfl (hfault _)
  · rw [log_construct]
    exact Array.toList_push
  · exact absurd rfl (hfault _)

variable (hframes : m.store.frames = #[scriptFrame]) (hendings : endings m.tasks = [])
  (hfault : ∀ n f, (m.run limits n).control ≠ .fault f) (hlog : m.store.log = #[])

/-- The function and the line of a call that was made after a number of steps. -/
def recordOf (limits : Limits) (m : Machine) (p : Nat × Call) : Text × Nat :=
  (m.frameOf limits p, p.2.paren.line)

theorem Tracked.opened_eq (h : Tracked limits m n calls) :
    opened (m.run limits n).tasks = calls.map (m.recordOf limits) := by
  rw [opened, h.endings, List.map_map]
  rfl

theorem Tracked.size_eq (h : Tracked limits m n calls) :
    (m.run limits n).store.frames.size = (Lox.endings (m.run limits n).tasks).length + 1 := by
  rw [h.active.size_frames, h.endings, List.length_map]

/-- There is one list of active calls: each call was made at the last step with so few frames. -/
theorem Active.unique {calls' : List (Nat × Call)} (h : Active limits m n calls)
    (h' : Active limits m n calls') : calls = calls' := by
  induction h generalizing calls' with
  | script hframes =>
    have hsize := h'.size_frames
    rw [hframes] at hsize
    exact (List.eq_nil_of_length_eq_zero (Nat.succ.inj hsize).symm).symm
  | @call n j call outer hmade hcall hpushed hsince houter ih =>
    cases h' with
    | script hframes =>
      have hsize := houter.size_frames
      have hone := congrArg Array.size (hpushed.symm.trans hframes)
      rw [Array.size_push, hsize] at hone
      cases hone
    | @call _ j' call' outer' hmade' hcall' hpushed' hsince' houter' =>
      have hsizes : (m.run limits j).store.frames.size = (m.run limits j').store.frames.size := by
        have hboth := congrArg Array.size (hpushed.symm.trans hpushed')
        rw [Array.size_push, Array.size_push] at hboth
        omega
      -- Since the one call was made there have always been more frames than when it was made.
      have hj : j = j' := by
        rcases Nat.lt_trichotomy j j' with hlt | heq | hgt
        · have hmore := hsince j' hlt (Nat.le_of_lt hmade')
          omega
        · exact heq
        · have hmore := hsince' j hgt (Nat.le_of_lt hmade)
          omega
      subst hj
      obtain rfl := Option.some.inj (hcall.symm.trans hcall')
      rw [ih houter']

include hfault hlog in
/-- No call is logged with a depth beyond the limit. -/
theorem depth_le_run (n : Nat) {f : Text} {line depth : Nat}
    (h : .call f line depth ∈ (m.run limits n).store.log.toList) : depth ≤ limits.maxDepth := by
  induction n generalizing f line depth with
  | zero =>
    change .call f line depth ∈ m.store.log.toList at h
    rw [hlog] at h
    cases h
  | succ n ih =>
    have hnext := hfault (n + 1)
    rw [run_succ] at hnext h
    exact (logs_step hnext).depth_le (fun _ _ _ => ih) f line depth h

include hframes hendings hfault hlog

/-- Up to the first failure, the calls that are open in the log are those for which a task waits. -/
theorem open_run (hgoing : ∀ i < n, (m.run limits i).control.unwinds = false) :
    LogRecord.Open (opened (m.run limits n).tasks) (m.run limits n).store.log.toList := by
  induction n with
  | zero =>
    change LogRecord.Open (opened m.tasks) m.store.log.toList
    rw [opened, hendings, hlog]
    exact .script (.nil 0)
  | succ n ih =>
    obtain ⟨calls, htracked⟩ := exists_tracked hframes hendings hfault n
    have hopen := ih fun i hi => hgoing i (Nat.lt_succ_of_lt hi)
    have hlogs : Logs limits (m.run limits n) (m.run limits (n + 1)) := by
      rw [run_succ]
      exact logs_step (by rw [← run_succ]; exact hfault (n + 1))
    exact hlogs.open (hgoing n (Nat.lt_succ_self n)) htracked.size_eq hopen

/-- After a failure the log shows the calls that were active when it was made. -/
theorem exists_open_of_unwinds (hstart : m.control.unwinds = false)
    (hunwinds : (m.run limits n).control.unwinds = true) :
    ∃ k < n, (m.run limits k).control.unwinds = false ∧ (m.run limits (k + 1)).control.unwinds = true ∧
      ∃ calls, Tracked limits m k calls ∧
        LogRecord.Open (calls.map (m.recordOf limits)) (m.run limits n).store.log.toList := by
  obtain ⟨k, hk, hgoing, hfails⟩ := exists_failing_step hstart hunwinds
  obtain ⟨calls, htracked⟩ := exists_tracked hframes hendings hfault k
  refine ⟨k, hk, hgoing, hfails, calls, htracked, ?_⟩
  -- The failing step leaves the tasks that end calls, and nothing is logged from there on.
  have hsame : endings (m.run limits (k + 1)).tasks = endings (m.run limits k).tasks := by
    rcases (run_acts limits m k).of_fails hgoing hfails with ⟨-, -, -, hshift, -⟩ | ⟨-, hshift, -⟩
    · exact hshift.endings_eq (List.forall_mem_nil _)
    · exact hshift.endings_eq (List.forall_mem_nil _)
  have hopen := open_run hframes hendings hfault hlog (n := k + 1)
    fun i hi => going_of_le hgoing (Nat.le_of_lt_succ hi)
  have hlast := (run_of_unwinds limits hfails (n - (k + 1))).2
  rw [← run_add, Nat.add_sub_cancel' hk] at hlast
  rw [hlast, ← htracked.opened_eq, opened, ← hsame]
  exact hopen

/-- How the calls stand after some steps of a run. -/
structure CallsStand (limits : Limits) (m : Machine) (n : Nat) (calls : List (Nat × Call)) : Prop where
  active : Active limits m n calls
  /-- There is a frame for each active call, outside of which is that of the script. -/
  frames : (m.run limits n).store.frames.toList.reverse = calls.map (m.frameOf limits) ++ [scriptFrame]
  depth : calls.length ≤ limits.maxDepth
  /-- A call overflows if and only if it could be made but for the limit. -/
  overflow : ∀ call, (m.run limits n).call? = some call →
    ((m.run limits (n + 1)).Overflows ↔
      (m.run limits n).store.heap.arity? call.callee = some call.arguments.length ∧
        calls.length = limits.maxDepth)
  /-- Nothing else overflows. -/
  calling : (m.run limits n).control.unwinds = false → (m.run limits (n + 1)).Overflows →
    ∃ call, (m.run limits n).call? = some call
  /-- A call that can be made is logged, and its depth is one more than the number of active calls. -/
  logged : ∀ call, (m.run limits n).call? = some call →
    (m.run limits n).store.heap.arity? call.callee = some call.arguments.length →
    calls.length < limits.maxDepth →
    (m.run limits (n + 1)).store.log.toList = (m.run limits n).store.log.toList ++
      call.records (m.run limits n).store.heap (calls.length + 1)
  /-- Unless there was a failure, the active calls are those that are open in the log. -/
  log : (m.run limits n).control.unwinds = false →
    LogRecord.Open (calls.map (m.recordOf limits)) (m.run limits n).store.log.toList

/-- After any number of steps the calls stand as told. -/
theorem exists_callsStand (n : Nat) : ∃ calls, CallsStand limits m n calls := by
  obtain ⟨calls, htracked⟩ := exists_tracked hframes hendings hfault n
  have hsize := htracked.active.size_frames
  have hdepth := htracked.depth
  refine ⟨calls, htracked.active, htracked.active.frames_eq, by omega, fun call hcall => ?_,
    fun hgoing hoverflows => ?_, fun call hcall harity hroom => ?_, fun hgoing => ?_⟩
  · rw [run_succ, overflows_iff hcall, hsize]
    refine and_congr_right fun _ => ?_
    omega
  · have hfails : (m.run limits (n + 1)).control.unwinds = true := by
      rw [show (m.run limits (n + 1)).control = .unwind .overflow from hoverflows]
      rfl
    rcases (run_acts limits m n).of_fails hgoing hfails with ⟨t, cause, hcontrol, -⟩ | ⟨-, -, hcall, -⟩
    · cases hoverflows.symm.trans hcontrol
    · exact hcall
  · have hnext := hfault (n + 1)
    rw [run_succ] at hnext ⊢
    rw [log_of_call hcall hnext harity (by omega), hsize]
  · rw [← htracked.opened_eq]
    exact open_run hframes hendings hfault hlog fun i hi => going_of_le hgoing (Nat.le_of_lt hi)

/-- Whether there was a failure or not, the log is one of calls. -/
theorem exists_open (hstart : m.control.unwinds = false) (n : Nat) :
    ∃ calls, LogRecord.Open calls (m.run limits n).store.log.toList := by
  cases hunwinds : (m.run limits n).control.unwinds with
  | false =>
    exact ⟨_, open_run hframes hendings hfault hlog fun i hi => going_of_le hunwinds (Nat.le_of_lt hi)⟩
  | true =>
    obtain ⟨-, -, -, -, calls, -, hopen⟩ :=
      exists_open_of_unwinds hframes hendings hfault hlog hstart hunwinds
    exact ⟨_, hopen⟩

/-! ## How a run ends -/

/-- In a run that finishes every call has its return. -/
theorem balanced_of_finished (hend : (m.run limits n).outcome = .finished) :
    LogRecord.Balanced 0 (m.run limits n).store.log.toList := by
  obtain ⟨hcontrol, htasks⟩ := of_finished hend
  have hgoing : (m.run limits n).control.unwinds = false := by
    rw [hcontrol]
    rfl
  have hopen := open_run hframes hendings hfault hlog fun i hi => going_of_le hgoing (Nat.le_of_lt hi)
  rw [htasks] at hopen
  cases hopen with
  | script hbalanced => exact hbalanced

/-- In a run that ends with an error the calls that the error lists have no return. -/
theorem exists_traced_open (hstart : m.control.unwinds = false) {e : RuntimeError}
    (hend : (m.run limits n).outcome = .error e) :
    ∃ k < n, ∃ calls, m.Traced limits k calls e ∧
      LogRecord.Open (calls.map (m.recordOf limits)) (m.run limits n).store.log.toList := by
  have hunwinds : (m.run limits n).control.unwinds = true := by
    rw [control_of_error hend]
    rfl
  obtain ⟨k, hk, calls, htraced, -⟩ := exists_traced hframes hendings hstart hfault hend
  obtain ⟨k', -, hgoing, hfails, calls', htracked, hopen⟩ :=
    exists_open_of_unwinds hframes hendings hfault hlog hstart hunwinds
  have hmade : (m.run limits (k + 1)).control.unwinds = true := by
    rw [htraced.made]
    rfl
  obtain rfl := failing_step_unique htraced.going hmade hgoing hfails
  obtain rfl := htraced.active.unique htracked.active
  exact ⟨k, hk, calls, htraced, hopen⟩

/-- In a run that overflows as many calls have no return as the limit allows. -/
theorem exists_overflow_open (hstart : m.control.unwinds = false)
    (hend : (m.run limits n).outcome = .overflow) :
    ∃ k < n, ∃ calls, m.CallsStand limits k calls ∧ (m.run limits k).control.unwinds = false ∧
      (m.run limits (k + 1)).Overflows ∧ calls.length = limits.maxDepth ∧
      LogRecord.Open (calls.map (m.recordOf limits)) (m.run limits n).store.log.toList := by
  have hlast := of_overflow hend
  have hunwinds : (m.run limits n).control.unwinds = true := by
    rw [show (m.run limits n).control = .unwind .overflow from hlast]
    rfl
  obtain ⟨k, hk, hgoing, hfails, calls, htracked, hopen⟩ :=
    exists_open_of_unwinds hframes hendings hfault hlog hstart hunwinds
  have hoverflows : (m.run limits (k + 1)).Overflows := by
    refine Overflows.of_run limits hfails (n := n - (k + 1)) ?_
    rw [← run_add, Nat.add_sub_cancel' hk]
    exact hlast
  obtain ⟨calls', hstand⟩ := exists_callsStand hframes hendings hfault hlog k
  obtain rfl := hstand.active.unique htracked.active
  obtain ⟨call, hcall⟩ := hstand.calling hgoing hoverflows
  exact ⟨k, hk, calls', hstand, hgoing, hoverflows, ((hstand.overflow call hcall).1 hoverflows).2, hopen⟩

end

end Machine

/-- The records of calls among what a session tells. -/
def Notice.calls (notices : List Notice) : List LogRecord :=
  notices.filterMap fun
    | .record r => if r.ofCall then some r else none
    | .diagnostic _ => none

/-- The records of calls among notices are found again. -/
theorem Notice.calls_records {records : List LogRecord} (h : ∀ r ∈ records, r.ofCall = true) :
    Notice.calls (records.map .record) = records := by
  induction records with
  | nil => rfl
  | cons r rest ih =>
    obtain ⟨hr, hrest⟩ := List.forall_mem_cons.1 h
    have hrest' := ih hrest
    unfold Notice.calls at hrest' ⊢
    simp [hr, hrest']

theorem Notice.calls_append (notices others : List Notice) :
    Notice.calls (notices ++ others) = Notice.calls notices ++ Notice.calls others :=
  List.filterMap_append

namespace Session

/-- The records of calls that running a source gives are those in the log of its machine. -/
theorem calls_run {s : Session} {source : Text} (hsource : s.Accepts source) (limits : Limits) (steps : Nat)
    (hlog : ∀ r ∈ ((s.start source).run limits steps).store.log.toList,
      r.ofCall = true) :
    Notice.calls (s.run limits steps source).notices =
      ((s.start source).run limits steps).store.log.toList := by
  rw [run_eq_of_accepts hsource]
  generalize (s.start source).run limits steps = m at hlog ⊢
  have hrecords := Notice.calls_records hlog
  unfold conclude
  dsimp only
  rw [Notice.calls_append]
  split
  · rw [Notice.calls_append, hrecords]
    exact List.append_nil _
  · exact hrecords

/-- The depth of calls is bounded and the log of calls is well nested. Whatever a session was asked before, at
every moment of the run of an accepted source the frames are those of the active calls, at most as many as the
limit allows, and below them that of the script. A call overflows if and only if its callee can be called with
that many arguments and as many calls are active as the limit allows; nothing else overflows. Each call is
logged with a depth of one more than the number of calls around it, and in a run that finishes it is followed
by the return of the same function, with those of the calls inside of it in between. In a run that ends with an
error or overflows the calls without a return are those that were active when that happened. -/
theorem run_callLog (color showTrace : Bool) (requests : List Request) {source : Text}
    (hsource : (serveAll color showTrace requests).Accepts source) (limits : Limits) :
    ∃ m, ((serveAll color showTrace requests).prepare source).2.2 = some m ∧
      (∀ n, ∃ calls, m.CallsStand limits n calls) ∧
      ∀ steps,
        let turn := (serveAll color showTrace requests).run limits steps source
        let records := Notice.calls turn.notices
        (∀ f line depth, .call f line depth ∈ records → depth ≤ limits.maxDepth) ∧
        (turn.ending = .ran .finished → LogRecord.Balanced 0 records) ∧
        (∀ e, turn.ending = .ran (.error e) → ∃ n < steps, ∃ calls, m.Traced limits n calls e ∧
          LogRecord.Open (calls.map (m.recordOf limits)) records) ∧
        (turn.ending = .ran .overflow → ∃ n < steps, ∃ calls, m.CallsStand limits n calls ∧
          (m.run limits n).control.unwinds = false ∧ (m.run limits (n + 1)).Overflows ∧
          calls.length = limits.maxDepth ∧
          LogRecord.Open (calls.map (m.recordOf limits)) records) := by
  have hsound := sound_serveAll color showTrace requests
  generalize serveAll color showTrace requests = s at hsource hsound
  have hfault := fun n => (hsound.machine hsource limits n).ne_fault
  have hending := fun steps => (run_of_accepts hsource limits steps).2.2
  have hcalls := calls_run hsource limits
  refine ⟨_, (prepare_of_accepts hsource).2.2, ?_⟩
  generalize hm : s.start source = m at hfault hending hcalls
  have hframes : m.store.frames = #[scriptFrame] := by
    rw [← hm]
    rfl
  have hendings : endings m.tasks = [] := by
    rw [← hm]
    rfl
  have hstart : m.control.unwinds = false := by
    rw [← hm]
    rfl
  have hlog : m.store.log = #[] := by
    rw [← hm]
    rfl
  refine ⟨Machine.exists_callsStand hframes hendings hfault hlog, fun steps => ?_⟩
  obtain ⟨shown, hopen⟩ := Machine.exists_open hframes hendings hfault hlog hstart steps
  intro turn records
  have hrecords : records = (m.run limits steps).store.log.toList := hcalls steps hopen.ofCall
  have hend : turn.ending = .ran (m.run limits steps).outcome := hending steps
  rw [hrecords, hend]
  refine ⟨fun f line depth h => Machine.depth_le_run hfault hlog steps h, fun hfinished => ?_,
    fun e herror => ?_, fun hoverflow => ?_⟩
  · exact Machine.balanced_of_finished hframes hendings hfault hlog (Ending.ran.inj hfinished)
  · exact Machine.exists_traced_open hframes hendings hfault hlog hstart (Ending.ran.inj herror)
  · exact Machine.exists_overflow_open hframes hendings hfault hlog hstart (Ending.ran.inj hoverflow)

end Session

/-- A built-in function that refuses its arguments has ended, and the function and the class around it have
not. -/
theorem Session.run_callLog_refusal :
    let turn := (serveAll false false []).run ⟨10, fun _ => ⟨0⟩⟩ 40 refusalSource
    (serveAll false false []).Accepts refusalSource ∧
    Notice.calls turn.notices = [.call (text "A") 5 1, .call (text "f") 4 2,
      .call (text "getattr") 2 3, .returned (text "getattr")] ∧
    turn.ending = .ran (.error refusal) ∧
    ∃ m, ((serveAll false false []).prepare refusalSource).2.2 = some m ∧
      ∃ n < 40, ∃ calls, m.Traced ⟨10, fun _ => ⟨0⟩⟩ n calls refusal ∧
        LogRecord.Open (calls.map (m.recordOf ⟨10, fun _ => ⟨0⟩⟩)) (Notice.calls turn.notices) := by
  intro turn
  have haccepts : (serveAll false false []).Accepts refusalSource := by decide +kernel
  have hending : turn.ending = .ran (.error refusal) := by decide +kernel
  obtain ⟨m, hm, -, hrun⟩ := run_callLog false false [] haccepts ⟨10, fun _ => ⟨0⟩⟩
  exact ⟨haccepts, by decide +kernel, hending, m, hm, (hrun 40).2.2.1 refusal hending⟩

end Lox
