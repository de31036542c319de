import Lox.Proofs.StepKinds

/-!
# Where tasks come from

A step takes at most one task off the stack, so a task stays where it is, with the same tasks below, from the
step that added it until it is resumed or given up (`Machine.exists_made`). In particular the call that a
machine makes is that of a call expression which it began to evaluate with the same tasks below
(`Machine.exists_call_expression`).
-/

namespace Lox

/-- A task on top of others is one of those that were added, or it was there. -/
theorem suffix_append_cases {t : Task} {below pushed kept : List Task} (h : t :: below <:+ pushed ++ kept) :
    t ∈ pushed ∨ t :: below <:+ kept := by
  induction pushed with
  | nil => exact .inr h
  | cons p pushed ih =>
    rcases List.suffix_cons_iff.1 h with heq | h
    · exact .inl (by rw [(List.cons.inj heq).1]; exact .head _)
    · exact (ih h).imp_left (.tail p)

namespace Machine

variable {limits : Limits} {m m' : Machine}

theorem run_acts (limits : Limits) (m : Machine) (n : Nat) :
    Acts limits (m.run limits n) (m.run limits (n + 1)) := by
  rw [run_succ]
  exact step_acts limits _

theorem giveUp_tasks (f : Failure) (task : Task) (tasks : List Task) (s : Store) :
    (giveUp f task tasks s).tasks = tasks := by
  cases task with
  | endCall name paren => cases f <;> rfl
  | _ => rfl

/-- What a step does to the stack: at most the first task is gone, and each task that it adds has its reason,
or ends the call that is made. -/
theorem Acts.kept (h : Acts limits m m') (hfault : ∀ f, m'.control ≠ .fault f) :
    ∃ (taken : Option Task) (pushed kept : List Task), m.tasks = taken.toList ++ kept ∧
      m'.tasks = pushed ++ kept ∧ ∀ t ∈ pushed, t.endCall? = none → t.MadeBy m m' := by
  have hshifts : ∀ {pushed}, m.Shifts pushed m' → (∀ t ∈ pushed, t.MadeBy m m') →
      ∃ (taken : Option Task) (pushed kept : List Task), m.tasks = taken.toList ++ kept ∧
        m'.tasks = pushed ++ kept ∧ ∀ t ∈ pushed, t.endCall? = none → t.MadeBy m m' := by
    intro pushed hshift hpushed
    obtain ⟨taken, kept, -, htasks, htasks'⟩ := hshift.tasks
    exact ⟨taken, pushed, kept, htasks, htasks', fun t ht _ => hpushed t ht⟩
  cases h with
  | work _ hshift hpushed => exact hshifts hshift hpushed
  | @call call pushed hcall _ henters =>
    obtain ⟨task, -, htasks⟩ := exists_tasks_of_call? hcall
    refine ⟨some task, pushed ++ [.endCall (m.store.heap.callName call.callee) call.paren], m.tasks.tail, htasks,
      by rw [henters.tasks, List.append_assoc]; rfl, ?_⟩
    intro t ht hnone
    rcases List.mem_append.1 ht with ht | ht
    · exact henters.madeBy t ht
    · obtain rfl := List.mem_singleton.1 ht
      cases hnone
  | endCall _ htasks hstep => exact ⟨some _, [], _, htasks, congrArg Machine.tasks hstep, List.forall_mem_nil _⟩
  | returns _ _ _ hshift | leaves _ _ _ _ _ hshift | raise _ _ hshift | overflow _ _ _ hshift =>
    exact hshifts hshift (List.forall_mem_nil _)
  | @giveUp f task kept _ htasks hstep =>
    refine ⟨some task, [], kept, htasks, ?_, List.forall_mem_nil _⟩
    rw [hstep, giveUp_tasks]
    rfl
  | rest _ hstep => exact ⟨none, [], m.tasks, rfl, congrArg Machine.tasks hstep, List.forall_mem_nil _⟩
  | fault hcontrol => exact absurd hcontrol (hfault _)

/-- A task that is on the stack after a step was there, with the same tasks below, or was added for its
reason. -/
theorem Acts.suffix (h : Acts limits m m') (hfault : ∀ f, m'.control ≠ .fault f) {t : Task}
    (ht : t.endCall? = none) {below : List Task} (hbelow : t :: below <:+ m'.tasks) :
    t :: below <:+ m.tasks ∨ t.MadeBy m m' := by
  obtain ⟨taken, pushed, kept, htasks, htasks', hpushed⟩ := h.kept hfault
  rw [htasks'] at hbelow
  rcases suffix_append_cases hbelow with hmem | hbelow
  · exact .inr (hpushed t hmem ht)
  · exact .inl (htasks ▸ hbelow.trans (List.suffix_append _ _))

/-- A task that is on the stack after some steps was added by one of them, and has stayed there since, with
the same tasks below. -/
theorem exists_made (hfault : ∀ n f, (m.run limits n).control ≠ .fault f) {t : Task}
    (ht : t.endCall? = none) {below : List Task} (hstart : ¬ t :: below <:+ m.tasks) {n : Nat}
    (hbelow : t :: below <:+ (m.run limits n).tasks) :
    ∃ j < n, ¬ t :: below <:+ (m.run limits j).tasks ∧ t.MadeBy (m.run limits j) (m.run limits (j + 1)) ∧
      ∀ i, j < i → i ≤ n → t :: below <:+ (m.run limits i).tasks := by
  induction n with
  | zero => exact absurd hbelow hstart
  | succ n ih =>
    by_cases hn : t :: below <:+ (m.run limits n).tasks
    · obtain ⟨j, hj, hnot, hmade, hsince⟩ := ih hn
      refine ⟨j, Nat.lt_succ_of_lt hj, hnot, hmade, fun i hji hi => ?_⟩
      rcases Nat.lt_or_eq_of_le hi with hi | rfl
      · exact hsince i hji (Nat.le_of_lt_succ hi)
      · exact hbelow
    · refine ⟨n, Nat.lt_succ_self n, hn, ?_, fun i hi hi' => ?_⟩
      · exact ((run_acts limits m n).suffix (hfault (n + 1)) ht hbelow).resolve_left hn
      · obtain rfl : i = n + 1 := Nat.le_antisymm hi' hi
        exact hbelow

/-- The machine began to evaluate a call expression with given tasks below, and is still at it. -/
def EvaluatesCall (limits : Limits) (m : Machine) (n : Nat) (paren : Token) (arity : Nat)
    (below : List Task) : Prop :=
  ∃ i < n, ∃ site callee arguments, (m.run limits i).control = .evaluate (.call site callee paren arguments) ∧
    arguments.length = arity ∧ (m.run limits i).tasks = below ∧
    ∀ l, i < l → l ≤ n → ∃ t, t :: below <:+ (m.run limits l).tasks

section

variable (hfault : ∀ n f, (m.run limits n).control ≠ .fault f) {paren : Token} {below : List Task}

include hfault

/-- A call expression waits for its callee. -/
theorem evaluatesCall_of_callee {arguments : List Expr}
    (hstart : ∀ arguments, Task.callee paren arguments ∉ m.tasks) {n : Nat}
    (hbelow : .callee paren arguments :: below <:+ (m.run limits n).tasks) :
    EvaluatesCall limits m n paren arguments.length below := by
  have hstart' : ¬ .callee paren arguments :: below <:+ m.tasks :=
    fun h => hstart arguments (h.subset (.head _))
  obtain ⟨i, hi, hnot, ⟨site, callee, hcontrol, hnext⟩, hsince⟩ := exists_made hfault rfl hstart' hbelow
  refine ⟨i, hi, site, callee, arguments, hcontrol, rfl, ?_, fun l hl hl' => ⟨_, hsince l hl hl'⟩⟩
  have hadded := hsince (i + 1) (Nat.lt_succ_self i) hi
  rw [hnext] at hadded
  exact ((List.cons.inj ((List.suffix_cons_iff.1 hadded).resolve_right hnot)).2).symm

/-- A call expression waits for an argument; those before it are done. -/
theorem evaluatesCall_of_argument (hstart : ∀ arguments, Task.callee paren arguments ∉ m.tasks)
    {called : Value} (hstart' : ∀ done rest, Task.argument paren called done rest ∉ m.tasks)
    {done : List Value} {rest : List Expr} {n : Nat}
    (hbelow : .argument paren called done rest :: below <:+ (m.run limits n).tasks) :
    EvaluatesCall limits m n paren (done.length + 1 + rest.length) below := by
  obtain ⟨j, hj, hnot, ⟨e, v, kept, -, hnext, hwaited⟩, hsince⟩ :=
    exists_made hfault rfl (fun h => hstart' _ _ (h.subset (.head _))) hbelow
  have hadded := hsince (j + 1) (Nat.lt_succ_self j) hj
  rw [hnext] at hadded
  -- The task that waited before stood on the same tasks.
  have hkept : ∀ t, (m.run limits j).tasks = t :: kept → t :: below <:+ (m.run limits j).tasks := by
    intro t htasks
    rcases List.suffix_cons_iff.1 hadded with heq | hlower
    · rw [htasks, (List.cons.inj heq).2]
    · exact absurd (htasks ▸ hlower.trans (List.suffix_cons t kept)) hnot
  have hlater : EvaluatesCall limits m j paren (done.length + 1 + rest.length) below →
      EvaluatesCall limits m n paren (done.length + 1 + rest.length) below := by
    rintro ⟨i, hi, site, callee, arguments, hcontrol, hlength, htasks, hwhile⟩
    refine ⟨i, hi.trans hj, site, callee, arguments, hcontrol, hlength, htasks, fun l hl hl' => ?_⟩
    rcases Nat.lt_or_ge j l with hjl | hlj
    · exact ⟨_, hsince l hjl hl'⟩
    · exact hwhile l hl hlj
  apply hlater
  rcases hwaited with ⟨htasks, rfl, rfl⟩ | ⟨earlier, htasks, rfl⟩
  · have hcallee := evaluatesCall_of_callee hfault hstart (hkept _ htasks)
    rwa [List.length_cons, Nat.add_comm] at hcallee
  · have hargument := evaluatesCall_of_argument hstart hstart' (hkept _ htasks)
    rw [List.length_cons] at hargument ⊢
    rwa [show earlier.length + 1 + 1 + rest.length = earlier.length + 1 + (rest.length + 1) by omega]
termination_by done.length

end

/-- The call that a machine makes is that of a call expression, whose callee and arguments it has evaluated
since. -/
theorem exists_call_expression (hfault : ∀ n f, (m.run limits n).control ≠ .fault f)
    (hstart : ∀ paren arguments, Task.callee paren arguments ∉ m.tasks)
    (hstart' : ∀ paren called done rest, Task.argument paren called done rest ∉ m.tasks) {n : Nat}
    {call : Call} (hcall : (m.run limits n).call? = some call) :
    EvaluatesCall limits m n call.paren call.arguments.length (m.run limits n).tasks.tail := by
  have hcallee : ∀ paren arguments below, (m.run limits n).tasks = .callee paren arguments :: below →
      EvaluatesCall limits m n paren arguments.length below := fun paren arguments below htasks =>
    evaluatesCall_of_callee hfault (hstart paren) (htasks ▸ List.suffix_rfl)
  have hargument : ∀ paren called done rest below,
      (m.run limits n).tasks = .argument paren called done rest :: below →
      EvaluatesCall limits m n paren (done.length + 1 + rest.length) below :=
    fun paren called done rest below htasks =>
      evaluatesCall_of_argument hfault (hstart paren) (hstart' paren called) (htasks ▸ List.suffix_rfl)
  generalize m.run limits n = last at hcall hcallee hargument
  obtain ⟨v, below, s, ⟨rfl, -, hnone⟩ | ⟨done, rfl, hdone⟩⟩ := of_call? hcall
  · rw [hnone]
    exact hcallee _ _ _ rfl
  · rw [hdone, List.length_reverse, List.length_cons]
    exact hargument _ _ _ _ _ rfl

end Machine

end Lox
