import Lox.Proofs.Hierarchy
import Lox.Proofs.Restoration
import Lox.Proofs.Traces

/-!
# Construction

A call of a class makes an instance, and gives it to the caller when the body of the initializer has ended. A call of
an initializer gives the instance that it is bound to. What the body does makes no difference: the tasks that hand the
instance on wait below it, and no program writes into the scope where it stands as `this`.

What a machine is at above some tasks comes to the first of them before it comes to the others
(`Machine.Finishes.above`), so the end of a call is followed from the body outwards, one task at a time.
-/

namespace Lox

/-- A task that ends a call, its body, or the construction of an instance. -/
def Task.endsCall : Task → Bool
  | .construct _ | .endBody _ _ | .endCall _ _ => true
  | _ => false

namespace Machine

variable {limits : Limits} {m : Machine} {task : Task} {below : List Task} {k : Nat} {v : Value}

/-! ## From the body outwards -/

/-- At work above given tasks, a machine goes on with that or comes to its end. -/
theorem Busy.step (h : m.Busy below) : (m.step limits).Busy below ∨ (m.step limits).Done below := by
  obtain ⟨control, tasks, s⟩ := m
  obtain ⟨own, rfl, hidle⟩ := h
  rw [show Machine.mk control (own ++ below) s = under below ⟨control, own, s⟩ from rfl, step_under limits hidle]
  generalize Machine.step limits ⟨control, own, s⟩ = next
  by_cases hnext : next.Idle
  · right
    cases hnext with
    | deliver v s => exact ⟨rfl, .deliver v s⟩
    | complete c s => exact ⟨rfl, .complete c s⟩
    | unwind f s => exact ⟨rfl, .unwind f s⟩
  · exact .inl ⟨next.tasks, rfl, hnext⟩

theorem Done.not_busy (h : m.Done below) : ¬ m.Busy below := by
  rintro ⟨own, htasks, hidle⟩
  rw [h.1] at htasks
  rw [List.self_eq_append_left.1 htasks] at hidle
  exact hidle h.2

theorem Busy.lower (h : m.Busy (task :: below)) : m.Busy below := by
  obtain ⟨own, htasks, -⟩ := h
  obtain ⟨control, tasks, s⟩ := m
  refine ⟨own ++ [task], htasks.trans (List.append_assoc own [task] below).symm, fun hidle => ?_⟩
  cases own <;> cases hidle

/-- What finishes above given tasks has not yet done so at an earlier moment, and does it once. -/
theorem Finishes.eq_of_done (h : m.Finishes limits below k) {j : Nat} (hj : ∀ i < j, ¬ (m.run limits i).Done below)
    (hdone : (m.run limits j).Done below) : k = j := by
  rcases Nat.lt_trichotomy k j with hlt | heq | hlt
  · exact absurd h.done (hj k hlt)
  · exact heq
  · exact absurd (h.busy j hlt) hdone.not_busy

/-- A task that ends a call gives way to the tasks below, unless a guarantee was broken. -/
theorem Done.step (h : m.Done (task :: below)) (htask : task.endsCall = true)
    (hfault : ∀ f, (m.step limits).control ≠ .fault f) : (m.step limits).Done below := by
  obtain ⟨control, tasks, s⟩ := m
  obtain ⟨rfl, hidle⟩ := h
  cases task with
  | construct o => cases hidle with
    | deliver v => exact ⟨rfl, .deliver _ _⟩
    | complete c => exact absurd rfl (hfault .strayResult)
    | unwind f => exact ⟨rfl, .unwind _ _⟩
  | endCall name paren => cases hidle with
    | deliver v => exact ⟨rfl, .deliver _ _⟩
    | complete c => exact absurd rfl (hfault .strayResult)
    | unwind f => cases f <;> exact ⟨rfl, .unwind _ _⟩
  | endBody closure outer => cases hidle with
    | deliver v => exact absurd rfl (hfault .strayResult)
    | complete c =>
      obtain ⟨_, _, -, hend⟩ := endBody_eq hfault
      rw [show step limits ⟨.complete c, .endBody closure outer :: below, s⟩ = _ from hend]
      exact ⟨rfl, .deliver _ _⟩
    | unwind f => exact ⟨rfl, .unwind _ _⟩
  | _ => cases htask

/-- What a machine is at above given tasks comes to the first of them one step before it has ended above the
others. -/
theorem Finishes.above (h : m.Finishes limits below k) (hm : m.Busy (task :: below) ∨ m.Done (task :: below))
    (htask : task.endsCall = true) (hfault : ∀ n f, (m.run limits n).control ≠ .fault f) :
    ∃ j, k = j + 1 ∧ m.Finishes limits (task :: below) j := by
  have hlonger : ∀ {m' : Machine}, m'.Done below → ¬ task :: below <:+ m'.tasks := by
    intro m' hdone hsuffix
    rw [hdone.1] at hsuffix
    exact Nat.not_succ_le_self _ hsuffix.length_le
  have hends : ∃ j, ¬ (m.run limits j).Busy (task :: below) :=
    ⟨k, fun ⟨own, htasks, _⟩ => hlonger h.done ⟨own, htasks.symm⟩⟩
  classical
  -- The first moment at which the machine is not at work above the task.
  obtain ⟨j, hj, hbefore⟩ := Nat.findX hends
  replace hbefore : ∀ i < j, (m.run limits i).Busy (task :: below) := fun i hi => not_not.1 (hbefore i hi)
  have hdone : (m.run limits j).Done (task :: below) := by
    refine Or.resolve_left ?_ hj
    cases j with
    | zero => exact hm
    | succ j =>
      rw [run_succ]
      exact (hbefore j (Nat.lt_succ_self j)).step
  have hlast : (m.run limits (j + 1)).Done below := by
    have hfault := hfault (j + 1)
    rw [run_succ] at hfault ⊢
    exact hdone.step htask hfault
  refine ⟨j, h.eq_of_done (fun i hi hdone' => ?_) hlast, hbefore, hdone⟩
  rcases Nat.lt_or_eq_of_le (Nat.le_of_lt_succ hi) with hi | rfl
  · obtain ⟨own, htasks, -⟩ := hbefore i hi
    exact hlonger hdone' ⟨own, htasks.symm⟩
  · exact hlonger hdone' ⟨[], hdone.1.symm⟩

/-- The end of a call hands on what it was given. -/
theorem Done.of_endCall {name : Text} {paren : Token} (h : m.Done (.endCall name paren :: below))
    (hv : (m.step limits).control = .deliver v) : m.control = .deliver v := by
  obtain ⟨control, tasks, s⟩ := m
  obtain ⟨rfl, hidle⟩ := h
  cases hidle with
  | deliver v => exact hv
  | complete c => cases hv
  | unwind f => cases f <;> cases hv

theorem Done.of_construct {o : InstanceId} (h : m.Done (.construct o :: below))
    (hv : (m.step limits).control = .deliver v) : v = .instanceValue o := by
  obtain ⟨control, tasks, s⟩ := m
  obtain ⟨rfl, hidle⟩ := h
  cases hidle with
  | deliver v => exact (Control.deliver.inj hv).symm
  | complete c | unwind f => cases hv

/-- The end of the body of an initializer hands on what stands as `this` where the initializer was bound. -/
theorem Done.of_endBody {closure : Closure} {outer : ScopeId} (h : m.Done (.endBody closure outer :: below))
    (hclosure : closure.initializer = true) (hv : (m.step limits).control = .deliver v) :
    v = m.store.heap.forest.valueIn closure.scope thisName := by
  obtain ⟨control, tasks, s⟩ := m
  obtain ⟨rfl, hidle⟩ := h
  cases hidle with
  | complete c =>
    change (endBody c closure outer below s).control = _ at hv
    have hfault : ∀ f, (endBody c closure outer below s).control ≠ .fault f := by simp [hv]
    obtain ⟨_, _, -, hend⟩ := endBody_eq hfault
    rw [hend] at hv
    rw [← Control.deliver.inj hv]
    unfold Heap.result
    rw [if_pos hclosure]
  | deliver v | unwind f => cases hv

/-- A failure on its way ends what a machine is at as a failure. -/
theorem Finishes.unwinds (h : m.Finishes limits below k) (hm : m.control.unwinds = true) :
    (m.run limits k).control.unwinds = true := by
  have hall : ∀ i ≤ k, (m.run limits i).control.unwinds = true := by
    intro i hi
    induction i with
    | zero => exact hm
    | succ i ih =>
      have hunwinds := ih (Nat.le_of_succ_le hi)
      obtain ⟨own, htasks, hidle⟩ := h.busy i hi
      rw [run_succ]
      generalize m.run limits i = m' at hunwinds htasks hidle
      obtain ⟨control, tasks, s⟩ := m'
      obtain rfl : tasks = _ := htasks
      cases control with
      | unwind f => cases own with
        | nil => exact absurd (.unwind f s) hidle
        | cons task own => exact unwinds_giveUp f task (own ++ below) s
      | _ => cases hunwinds
  exact hall k (Nat.le_refl k)

/-! ## Calls of classes and of initializers -/

/-- The body of a function is run above its end. -/
theorem busy_enterFunction {closure : Closure} {args : List Value} {s : Store}
    (hfault : ∀ f, (enterFunction closure args below s).control ≠ .fault f) :
    (enterFunction closure args below s).Busy (.endBody closure s.scope :: below) := by
  unfold enterFunction at hfault ⊢
  split at hfault
  · exact absurd rfl (hfault _)
  · next harity =>
    rw [if_neg harity]
    exact ⟨[_], rfl, nofun⟩

theorem instances_enterFunction (closure : Closure) (args : List Value) (tasks : List Task) (s : Store) :
    (enterFunction closure args tasks s).store.heap.instances = s.heap.instances := by
  unfold enterFunction
  split
  · rfl
  · dsimp only
    rw [Heap.enter_eq]

/-- A class has a new instance, which is handed on at once or when the body of the initializer has ended. -/
theorem construct_cases {c : ClassId} {args : List Value} {s : Store}
    (hfault : ∀ f, (construct c args below s).control ≠ .fault f) :
    (construct c args below s).store.heap.classOf? s.heap.instances.size = some c ∧
      ((construct c args below s).Busy (.construct s.heap.instances.size :: below) ∨
        (construct c args below s).Done below ∧
          (construct c args below s).control = .deliver (.instanceValue s.heap.instances.size)) := by
  have hmade : (s.heap.newInstance c).1.classOf? s.heap.instances.size = some c := by
    simp [Heap.classOf?, Heap.newInstance]
  rw [construct_eq] at hfault ⊢
  cases hmethod : s.heap.method? c initName with
  | none => exact ⟨hmade, .inr ⟨⟨rfl, .deliver _ _⟩, rfl⟩⟩
  | some initializer =>
    rw [hmethod] at hfault
    refine ⟨?_, .inl (busy_enterFunction hfault).lower⟩
    unfold Heap.classOf?
    rw [instances_enterFunction]
    exact hmade

theorem run_step (limits : Limits) (m : Machine) (n : Nat) : (m.step limits).run limits n = m.run limits (n + 1) := by
  rw [run_eq_iterate, run_eq_iterate, Function.iterate_succ_apply]

/-- What comes to the end of a call is the value of the call. -/
theorem Finishes.of_endCall {name : Text} {paren : Token} (h : m.Finishes limits below k)
    (hm : m.Busy (.endCall name paren :: below) ∨ m.Done (.endCall name paren :: below))
    (hfault : ∀ n f, (m.run limits n).control ≠ .fault f) (hv : (m.run limits k).control = .deliver v) :
    ∃ j, k = j + 1 ∧ m.Finishes limits (.endCall name paren :: below) j ∧ (m.run limits j).control = .deliver v := by
  obtain ⟨j, rfl, hj⟩ := h.above hm rfl hfault
  rw [run_succ] at hv
  exact ⟨j, rfl, hj, hj.done.of_endCall hv⟩

section

variable {call : Call} (hcall : m.call? = some call) (h : m.Finishes limits m.tasks.tail k)
  (hv : (m.run limits k).control = .deliver v) (hfault : ∀ n f, (m.run limits n).control ≠ .fault f)

include hcall h hv hfault

/-- A call that gives a value was made in its first step. -/
theorem Finishes.of_call : ∃ j, k = j + 1 ∧ (m.step limits).Finishes limits m.tasks.tail j ∧
    (m.step limits).control.unwinds = false ∧ ∀ n f, ((m.step limits).run limits n).control ≠ .fault f := by
  have hlonger : ¬ m.Done m.tasks.tail := by
    intro hdone
    obtain ⟨v, below, s, ⟨rfl, -, -⟩ | ⟨done, rfl, -⟩⟩ := of_call? hcall
    all_goals exact Nat.succ_ne_self _ (congrArg List.length hdone.1)
  cases k with
  | zero => exact absurd h.done hlonger
  | succ j =>
    have hnext : (m.step limits).Finishes limits m.tasks.tail j := by
      refine ⟨fun i hi => ?_, ?_⟩
      · rw [run_step]
        exact h.busy (i + 1) (Nat.succ_lt_succ hi)
      · rw [run_step]
        exact h.done
    refine ⟨j, rfl, hnext, Bool.eq_false_iff.2 fun hunwinds => ?_, fun n => ?_⟩
    · have hlast := hnext.unwinds hunwinds
      rw [run_step, hv] at hlast
      cases hlast
    · rw [run_step]
      exact hfault (n + 1)

/-- A call of a class gives an instance that was not there before. -/
theorem Finishes.of_class {c : ClassId} (hcallee : call.callee = .classValue c) :
    v = .instanceValue m.store.heap.instances.size ∧ 1 ≤ k ∧
      (m.step limits).store.heap.classOf? m.store.heap.instances.size = some c := by
  obtain ⟨j, rfl, hnext, hgoing, hlater⟩ := h.of_call hcall hv hfault
  rw [← run_step] at hv
  have hmade := (step_of_going hcall hgoing).1 c hcallee
  have hcases := construct_cases (hmade ▸ hlater 0)
  rw [← hmade] at hcases
  obtain ⟨hclass, hbusy⟩ := hcases
  refine ⟨?_, Nat.le_add_left 1 j, hclass⟩
  obtain ⟨i, rfl, hi, hvalue⟩ := hnext.of_endCall (hbusy.imp Busy.lower And.left) hlater hv
  rcases hbusy with hbusy | ⟨hdone, hcontrol⟩
  · obtain ⟨i, rfl, hbody⟩ := hi.above (.inl hbusy) rfl hlater
    rw [run_succ] at hvalue
    exact hbody.done.of_construct hvalue
  · obtain rfl := hi.eq_of_done (j := 0) nofun hdone
    exact Control.deliver.inj (hvalue.symm.trans hcontrol)

/-- A call of an initializer gives what stands as `this` where it was bound, when its body has ended. -/
theorem Finishes.of_initializer {f : FunctionId} {closure : Closure} (hcallee : call.callee = .function f)
    (hclosure : m.store.heap.functions[f]? = some closure) (hinitializer : closure.initializer = true) :
    ∃ j, v = (m.run limits j).store.heap.forest.valueIn closure.scope thisName := by
  obtain ⟨j, rfl, hnext, hgoing, hlater⟩ := h.of_call hcall hv hfault
  rw [← run_step] at hv
  have hmade := (step_of_going hcall hgoing).2 f closure hcallee hclosure
  have hbusy := busy_enterFunction (hmade ▸ hlater 0)
  rw [← hmade] at hbusy
  obtain ⟨i, rfl, hi, hvalue⟩ := hnext.of_endCall (.inl hbusy.lower) hlater hv
  obtain ⟨i, rfl, hbody⟩ := hi.above (.inl hbusy) rfl hlater
  rw [run_succ] at hvalue
  refine ⟨i + 1, ?_⟩
  rw [← run_step]
  exact hbody.done.of_endBody hinitializer hvalue

end

end Machine

theorem Heap.Later.refl (h : Heap) : h.Later h :=
  ⟨Nat.le_refl _, fun _ _ h => h, fun _ _ h => h, fun _ _ h => h, fun _ _ h => h, fun _ _ _ _ => rfl⟩

/-- A bound method of the name is an initializer, wherever its class has it from. -/
theorem Heap.MethodsBound.initializer {h : Heap} (hm : h.MethodsBound) {f : FunctionId} {c : Closure} {v : Value}
    (hc : h.functions[f]? = some c) (hv : h.forest.slot? c.scope thisName = some v)
    (hname : c.routine.name.lexeme = initName) : c.initializer = true := by
  obtain ⟨o, k, stored, -, hbinding⟩ := hm.bound f c v hc hv
  obtain ⟨f', hf', hstored⟩ := hbinding.method
  obtain ⟨c', hc', -, hflag, -⟩ := hm.stored k _ f' hf'
  obtain rfl := Option.some.inj (hstored.symm.trans hc')
  rw [hbinding.bound] at hname ⊢
  rw [hflag, hname]
  exact decide_eq_true rfl

namespace Session

/-- What was made in a run is still there later, and no scope has got or lost `this`. -/
theorem MethodsBound.later {s : Session} {programs : List Program} (hs : s.MethodsBound programs)
    (hsound : s.Sound programs) {source : Text} (hsource : s.Accepts source) (limits : Limits) (n k : Nat) :
    ((s.start source).run limits n).store.heap.Later
      ((s.start source).run limits (n + k)).store.heap := by
  obtain ⟨place, hlaid, -⟩ := hs.machine hsound hsource limits n
  have hwalk := (hsound.opening hsource).lawful
  rw [Machine.run_add]
  generalize (s.start source).run limits n = m at hlaid
  obtain ⟨_, -, hlater⟩ := hlaid.run (P := fun w => m.store.heap.Later w.heap) (MethodLayout.lawful hwalk) limits
    (fun _ hlater hmove => hlater.trans (World.LaidOut.later_move hmove)) k (.refl _)
  exact hlater

/-- Construction yields the new instance. Whatever a session was asked before and whatever the initializer does, at
every moment of running an accepted source, a call of a class that gives a value gives an instance that was not there
before, and its class is the one that was called, also where the initializer is inherited. And a call of an
initializer that is bound to an instance, in whichever way it was bound, gives that instance if it gives a value. -/
theorem run_constructs (color showTrace : Bool) (requests : List Request) {source : Text}
    (hsource : (serveAll color showTrace requests).Accepts source) (limits : Limits) :
    ∃ m, ((serveAll color showTrace requests).prepare source).2.2 = some m ∧ ∀ n k call v,
      (m.run limits n).call? = some call →
      (m.run limits n).Finishes limits (m.run limits n).tasks.tail k →
      (m.run limits (n + k)).control = .deliver v →
      (∀ c, call.callee = .classValue c → ∃ o, v = .instanceValue o ∧
        (m.run limits n).store.heap.classOf? o = none ∧
        (m.run limits (n + k)).store.heap.classOf? o = some c) ∧
      ∀ f closure o, call.callee = .function f → (m.run limits n).store.heap.functions[f]? = some closure →
        closure.routine.name.lexeme = initName →
        (m.run limits n).store.heap.forest.slot? closure.scope thisName = some (.instanceValue o) →
        v = .instanceValue o := by
  have hs := rooted_serveAll color showTrace requests
  generalize serveAll color showTrace requests = s at hs hsource
  have hlater := hs.methods.later hs.sound hsource limits
  refine ⟨_, (prepare_of_accepts hsource).2.2, fun n k call v hcall hfinishes hv => ?_⟩
  obtain ⟨-, -, hbound, -⟩ := hs.methods.machine hs.sound hsource limits n
  have hfault : ∀ i f, (((s.start source).run limits n).run limits i).control ≠
      .fault f := by
    intro i
    rw [← Machine.run_add]
    exact (hs.sound.machine hsource limits (n + i)).ne_fault
  rw [Machine.run_add] at hv
  refine ⟨fun c hcallee => ?_, fun f closure o hcallee hclosure hname hthis => ?_⟩
  · obtain ⟨rfl, hk, hclass⟩ := hfinishes.of_class hcall hv hfault hcallee
    refine ⟨_, rfl, by simp [Heap.classOf?], ?_⟩
    obtain ⟨j, rfl⟩ := Nat.exists_eq_add_of_le hk
    rw [← Nat.add_assoc]
    refine (hlater (n + 1) j).instances _ c ?_
    rw [Machine.run_succ]
    exact hclass
  · have hinitializer := hbound.initializer hclosure hthis hname
    obtain ⟨j, rfl⟩ := hfinishes.of_initializer hcall hv hfault hcallee hclosure hinitializer
    -- No program writes into `this`, so the scope of the method still holds the instance.
    have hkept := (hlater n j).reserved closure.scope (Forest.lt_size_of_slot? hthis) thisName not_plain_this
    rw [← Machine.run_add, Forest.valueIn_eq, hkept, hthis]
    rfl

end Session

/-- A class with an initializer that returns early, a class that inherits it, and a call of both. -/
def inheritedSource : Text := text "class A\x7binit()\x7breturn;\x7d\x7dclass B<A\x7b\x7dB().init();"

/-- The call of the class gives an instance of that class, and the initializer that it has inherited gives the
instance again. -/
theorem Session.run_constructs_inherited :
    let limits : Limits := ⟨10, fun _ => ⟨0⟩⟩
    (serveAll false false []).Accepts inheritedSource ∧
    ∃ m, ((serveAll false false []).prepare inheritedSource).2.2 = some m ∧
      (∃ call, (m.run limits 12).call? = some call ∧ call.callee = .classValue 1 ∧
        (m.run limits 12).Finishes limits (m.run limits 12).tasks.tail 7 ∧
        ∃ o, (m.run limits 19).control = .deliver (.instanceValue o) ∧
          (m.run limits 12).store.heap.classOf? o = none ∧ (m.run limits 19).store.heap.classOf? o = some 1) ∧
      ∃ call closure, (m.run limits 20).call? = some call ∧ call.callee = .function 2 ∧
        (m.run limits 20).store.heap.functions[2]? = some closure ∧ closure.routine.name.lexeme = initName ∧
        (m.run limits 20).store.heap.forest.slot? closure.scope thisName = some (.instanceValue 0) ∧
        (m.run limits 20).Finishes limits (m.run limits 20).tasks.tail 6 ∧
        (m.run limits 26).control = .deliver (.instanceValue 0) := by
  intro limits
  have haccepts : (serveAll false false []).Accepts inheritedSource := by decide +kernel
  obtain ⟨m, hm, hconstructs⟩ := run_constructs false false [] haccepts limits
  have hfinishes : ∀ n k, (∀ i < k, ¬ (Machine.run limits i ⟨(m.run limits n).control,
        (m.run limits n).tasks.take 1, (m.run limits n).store⟩).Idle) ∧
      (Machine.run limits k ⟨(m.run limits n).control, (m.run limits n).tasks.take 1,
        (m.run limits n).store⟩).Idle →
      (m.run limits n).Finishes limits (m.run limits n).tasks.tail k :=
    fun n k h => .of_own (by rw [← List.drop_one, List.take_append_drop]) h.1 h.2
  refine ⟨haccepts, m, hm, ?_, ?_⟩
  · have hclass : (m.run limits 12).call?.map (·.callee) = some (.classValue 1) ∧
        (m.run limits 19).control = .deliver (.instanceValue 0) := by
      rw [eq_start haccepts hm]
      decide +kernel
    obtain ⟨call, hcall, hcallee⟩ := Option.map_eq_some_iff.1 hclass.1
    have hends : (m.run limits 12).Finishes limits (m.run limits 12).tasks.tail 7 := by
      apply hfinishes
      rw [eq_start haccepts hm]
      decide +kernel
    obtain ⟨o, ho, hnew, hmade⟩ := (hconstructs 12 7 call _ hcall hends hclass.2).1 1 hcallee
    exact ⟨call, hcall, hcallee, hends, o, ho ▸ hclass.2, hnew, hmade⟩
  · have hbound : (m.run limits 20).call?.map (·.callee) = some (.function 2) ∧
        (m.run limits 20).store.heap.functions[2]?.map (fun c => (c.routine.name.lexeme,
          (m.run limits 20).store.heap.forest.slot? c.scope thisName)) =
            some (initName, some (.instanceValue 0)) := by
      rw [eq_start haccepts hm]
      decide +kernel
    obtain ⟨v, hcontrol⟩ : ∃ v, (m.run limits 26).control = .deliver v := by
      rw [eq_start haccepts hm]
      exact ⟨.instanceValue 0, by decide +kernel⟩
    obtain ⟨hcall, hclosure⟩ := hbound
    obtain ⟨call, hcall, hcallee⟩ := Option.map_eq_some_iff.1 hcall
    obtain ⟨closure, hclosure, hthis⟩ := Option.map_eq_some_iff.1 hclosure
    obtain ⟨hname, hthis⟩ := Prod.mk.inj hthis
    have hends : (m.run limits 20).Finishes limits (m.run limits 20).tasks.tail 6 := by
      apply hfinishes
      rw [eq_start haccepts hm]
      decide +kernel
    obtain rfl := (hconstructs 20 6 call v hcall hends hcontrol).2 2 closure 0 hcallee hclosure hname hthis
    exact ⟨call, closure, hcall, hcallee, hclosure, hname, hthis, hends, hcontrol⟩

end Lox
