import Lox.Proofs.Surroundings
import Lox.Proofs.SoundSession

/-!
# Raising the limit on active calls

The limit is looked at in one place only, where a value is about to be called. So two machines that differ
in the limit alone go on in lockstep until the one with the lower limit overflows (`Machine.step_raise`,
`Machine.run_raise`). From then on that one gives up its tasks and prints nothing more, and the other one keeps
what both have printed up to there.

`Session.run_raise_maxDepth` states it for a source: a run that does not overflow is the same run under every higher
limit, and one that overflows has printed the beginning of what is printed under a higher limit.
-/

namespace Lox

namespace Machine

/-- A machine that gives up because of too many active calls. -/
def Overflows (m : Machine) : Prop := m.control = .unwind .overflow

section

variable {d d' : Nat} (hd : d ≤ d') (clock : Nat → Number)

include hd

/-- A call goes the same way under a higher limit, unless it is one too many. -/
theorem apply_raise (callee : Value) (args : List Value) (paren : Token) (tasks : List Task) (s : Store) :
    apply ⟨d', clock⟩ callee args paren tasks s = apply ⟨d, clock⟩ callee args paren tasks s ∨
      apply ⟨d, clock⟩ callee args paren tasks s = ⟨.unwind .overflow, tasks, s⟩ := by
  by_cases hdepth : d < s.frames.size
  · -- The lower limit is exceeded, which counts only after the callee and its arguments are checked.
    unfold apply
    split
    · exact .inl rfl
    · split
      · exact .inl rfl
      · exact .inr rfl
  · have hdepth' : ¬ d' < s.frames.size := fun h => hdepth (Nat.lt_of_le_of_lt hd h)
    left
    unfold apply
    split
    · rfl
    · split
      · rfl
      · rfl

theorem nextArgument_raise (paren : Token) (callee : Value) (done : List Value) (rest : List Expr)
    (tasks : List Task) (s : Store) :
    nextArgument ⟨d', clock⟩ paren callee done rest tasks s =
        nextArgument ⟨d, clock⟩ paren callee done rest tasks s ∨
      nextArgument ⟨d, clock⟩ paren callee done rest tasks s = ⟨.unwind .overflow, tasks, s⟩ := by
  cases rest with
  | nil => exact apply_raise hd clock callee done.reverse paren tasks s
  | cons e rest => exact .inl rfl

/-- A step goes the same way under a higher limit, unless it overflows, and then it changes nothing else. -/
theorem step_raise (m : Machine) :
    m.step ⟨d', clock⟩ = m.step ⟨d, clock⟩ ∨
      (m.step ⟨d, clock⟩).Overflows ∧ (m.step ⟨d, clock⟩).store = m.store := by
  have hcall : ∀ paren callee done rest tasks s, nextArgument ⟨d', clock⟩ paren callee done rest tasks s =
          nextArgument ⟨d, clock⟩ paren callee done rest tasks s ∨
        (nextArgument ⟨d, clock⟩ paren callee done rest tasks s).Overflows ∧
          (nextArgument ⟨d, clock⟩ paren callee done rest tasks s).store = s := by
    intro paren callee done rest tasks s
    rcases nextArgument_raise hd clock paren callee done rest tasks s with h | h
    · exact .inl h
    · rw [h]
      exact .inr ⟨rfl, rfl⟩
  obtain ⟨control, tasks, s⟩ := m
  cases control with
  | deliver v =>
    cases tasks with
    | nil => exact .inl rfl
    | cons task tasks =>
      cases task with
      | callee paren arguments => exact hcall paren v [] arguments tasks s
      | argument paren callee done rest => exact hcall paren callee (v :: done) rest tasks s
      | _ => exact .inl rfl
  | complete c => cases tasks <;> cases c <;> exact .inl rfl
  | unwind f => cases tasks <;> exact .inl rfl
  | evaluate | execute | fault => exact .inl rfl

end

variable (limits : Limits)

/-- A machine that overflows goes on overflowing and prints nothing. -/
theorem Overflows.step {m : Machine} (h : m.Overflows) :
    (m.step limits).Overflows ∧ (m.step limits).store.printed = m.store.printed ∧
      (m.step limits).tasks = m.tasks.tail := by
  obtain ⟨control, tasks, s⟩ := m
  obtain rfl : control = .unwind .overflow := h
  cases tasks with
  | nil => exact ⟨rfl, rfl, rfl⟩
  | cons task tasks => cases task <;> exact ⟨rfl, rfl, rfl⟩

/-- A machine that has run out of calls only drops its tasks. -/
theorem Overflows.run {m : Machine} (h : m.Overflows) (n : Nat) :
    (m.run limits n).Overflows ∧ (m.run limits n).store.printed = m.store.printed ∧
      (m.run limits n).tasks = m.tasks.drop n := by
  induction n with
  | zero => exact ⟨h, rfl, rfl⟩
  | succ n ih =>
    obtain ⟨hoverflows, hprinted, htasks⟩ := ih
    obtain ⟨hoverflows', hprinted', htasks'⟩ := hoverflows.step limits
    rw [run_succ]
    refine ⟨hoverflows', hprinted'.trans hprinted, ?_⟩
    rw [htasks', htasks, List.tail_drop]

/-- A machine that overflows ends so, as soon as it has given up its tasks. -/
theorem Overflows.outcome {m : Machine} (h : m.Overflows) :
    (m.run limits m.tasks.length).outcome = .overflow := by
  obtain ⟨hoverflows, -, htasks⟩ := h.run limits m.tasks.length
  rw [List.drop_length] at htasks
  generalize m.run limits m.tasks.length = last at hoverflows htasks
  obtain ⟨control, tasks, s⟩ := last
  obtain rfl : control = .unwind .overflow := hoverflows
  obtain rfl : tasks = [] := htasks
  rfl

section

variable {d d' : Nat} (hd : d ≤ d') (clock : Nat → Number)

include hd clock

/-- Two machines that differ in the limit go on in lockstep, unless the one with the lower limit overflows
after a number of steps; then both are the same just before. -/
theorem run_raise (m : Machine) (n : Nat) :
    m.run ⟨d', clock⟩ n = m.run ⟨d, clock⟩ n ∨
      ∃ k < n, m.run ⟨d', clock⟩ k = m.run ⟨d, clock⟩ k ∧ (m.run ⟨d, clock⟩ (k + 1)).Overflows ∧
        (m.run ⟨d, clock⟩ (k + 1)).store = (m.run ⟨d, clock⟩ k).store := by
  induction n with
  | zero => exact .inl rfl
  | succ n ih =>
    rcases ih with hsame | ⟨k, hk, hoverflow⟩
    · rcases step_raise hd clock (m.run ⟨d, clock⟩ n) with hstep | ⟨hoverflows, hstore⟩
      · left
        rw [run_succ, run_succ, hsame, hstep]
      · refine .inr ⟨n, Nat.lt_succ_self n, hsame, ?_⟩
        rw [run_succ]
        exact ⟨hoverflows, hstore⟩
    · exact .inr ⟨k, Nat.lt_succ_of_lt hk, hoverflow⟩

/-- A machine that never ends by overflowing runs the same under every higher limit. -/
theorem run_raise_eq {m : Machine} (hm : ∀ k, (m.run ⟨d, clock⟩ k).outcome ≠ .overflow) (n : Nat) :
    m.run ⟨d', clock⟩ n = m.run ⟨d, clock⟩ n := by
  rcases run_raise hd clock m n with hsame | ⟨k, -, -, hoverflows, -⟩
  · exact hsame
  · have houtcome := hoverflows.outcome ⟨d, clock⟩
    rw [← run_add] at houtcome
    exact absurd houtcome (hm _)

/-- A machine that ends by overflowing has printed the beginning of what it prints under a higher
limit. -/
theorem run_raise_printed {m : Machine} {n : Nat}
    (hm : (m.run ⟨d, clock⟩ n).outcome = .overflow) {n' : Nat} (hn : n ≤ n') :
    (m.run ⟨d, clock⟩ n).store.printed.toList <+: (m.run ⟨d', clock⟩ n').store.printed.toList := by
  have hgrows : ∀ j ≤ n', (m.run ⟨d', clock⟩ j).store.printed.toList <+:
      (m.run ⟨d', clock⟩ n').store.printed.toList := by
    intro j hj
    obtain ⟨i, rfl⟩ := Nat.exists_eq_add_of_le hj
    rw [run_add]
    exact (keeps_run ⟨d', clock⟩ i _).printed
  rcases run_raise hd clock m n with hsame | ⟨k, hk, hsame, hoverflows, hstore⟩
  · rw [← hsame]
    exact hgrows n hn
  · -- After the overflow nothing is printed, and before it the machines are the same.
    obtain ⟨i, rfl⟩ := Nat.exists_eq_add_of_le (Nat.succ_le_of_lt hk)
    have hprinted := (hoverflows.run ⟨d, clock⟩ i).2.1
    rw [← run_add, hstore, ← hsame] at hprinted
    rw [hprinted]
    exact hgrows k ((Nat.le_of_lt hk).trans hn)

end

end Machine

namespace Session

/-- What running a source gives, once it is known what it is prepared to. -/
theorem run_of_prepare {s s' : Session} {source : Text} {notices : List Notice} {m : Machine}
    (h : s.prepare source = (s', notices, some m)) (limits : Limits) (steps : Nat) :
    s.run limits steps source = { s'.conclude (m.run limits steps) with
        notices := notices ++ (s'.conclude (m.run limits steps)).notices } := by
  rw [run, h]

theorem run_of_prepare_none {s s' : Session} {source : Text} {notices : List Notice}
    (h : s.prepare source = (s', notices, none)) (limits : Limits) (steps : Nat) :
    s.run limits steps source = { session := s', printed := [], notices, ending := .rejected } := by
  rw [run, h]

theorem printed_conclude (s : Session) (m : Machine) : (s.conclude m).printed = m.store.printed.toList := by
  unfold conclude
  split <;> rfl

/-- A higher limit on the active calls never changes a run that fits: whether it finishes, ends with an error
or goes on for ever, it gives the same output, ending and session under the higher limit. A run that
overflows has printed the beginning of what is printed under the higher limit in as many steps or more. -/
theorem run_raise_maxDepth {d d' : Nat} (hd : d ≤ d') (clock : Nat → Number) (s : Session)
    (source : Text) :
    ((∀ k, (s.run ⟨d, clock⟩ k source).ending ≠ .ran .overflow) →
      ∀ n, s.run ⟨d', clock⟩ n source = s.run ⟨d, clock⟩ n source) ∧
    (∀ n o, (s.run ⟨d, clock⟩ n source).ending = .ran o → o ≠ .unfinished → o ≠ .overflow →
      s.run ⟨d', clock⟩ n source = s.run ⟨d, clock⟩ n source) ∧
    (∀ n, (s.run ⟨d, clock⟩ n source).ending = .ran .overflow → ∀ n' ≥ n,
      (s.run ⟨d, clock⟩ n source).printed <+: (s.run ⟨d', clock⟩ n' source).printed) := by
  rcases hprepare : s.prepare source with ⟨s', notices, _ | m⟩
  · -- A source with static errors does not run under any limit.
    have hrun := run_of_prepare_none hprepare
    refine ⟨fun _ n => by rw [hrun, hrun], fun n o _ _ _ => by rw [hrun, hrun], fun n hn => ?_⟩
    rw [hrun] at hn
    cases hn
  · have hrun := run_of_prepare hprepare
    have hending : ∀ limits k, (s.run limits k source).ending = .ran (m.run limits k).outcome := by
      intro limits k
      rw [hrun]
      exact (s'.conclude_spec _).2.2
    have hsame : (∀ k, (m.run ⟨d, clock⟩ k).outcome ≠ .overflow) →
        ∀ n, s.run ⟨d', clock⟩ n source = s.run ⟨d, clock⟩ n source := by
      intro hfits n
      rw [hrun, hrun, Machine.run_raise_eq hd clock hfits]
    refine ⟨fun hfits n => hsame (fun k hk => hfits k ?_) n, fun n o ho hunfinished hoverflow => ?_,
      fun n hn n' hn' => ?_⟩
    · rw [hending, hk]
    · rw [hending] at ho
      cases ho
      -- Once the run has ended in another way it does not overflow, neither before nor after.
      refine hsame (fun k hk => hoverflow ?_) n
      have hended : (m.run ⟨d, clock⟩ k).outcome ≠ .unfinished := by
        rw [hk]
        exact nofun
      rw [Machine.run_eq_of_halted (Machine.halted_of_outcome hunfinished)
        (Machine.halted_of_outcome hended), hk]
    · rw [hending] at hn
      rw [hrun, hrun, printed_conclude, printed_conclude]
      exact Machine.run_raise_printed hd clock (by injection hn) hn'

end Session

/-- A function that prints and calls itself for ever. -/
def recursionSource : Text := text "\x7bfun f()\x7bprint nil;f();\x7df();\x7d"

theorem recursionSource_accepts : (Session.new false false).Accepts recursionSource := by decide +kernel

/-- With one active call allowed the function overflows, and what it has printed by then is printed first
when two are allowed. -/
theorem Session.run_raise_maxDepth_recursion :
    1 ≤ 2 ∧
    ((Session.new false false).run ⟨1, fun _ => ⟨0⟩⟩ 100 recursionSource).ending = .ran .overflow ∧
    ((Session.new false false).run ⟨1, fun _ => ⟨0⟩⟩ 100 recursionSource).printed <+:
      ((Session.new false false).run ⟨2, fun _ => ⟨0⟩⟩ 100 recursionSource).printed := by
  have hending : ((Session.new false false).run ⟨1, fun _ => ⟨0⟩⟩ 100 recursionSource).ending = .ran .overflow := by
    decide +kernel
  exact ⟨by decide, hending, (run_raise_maxDepth (by decide) _ _ _).2.2 100 hending 100 (by decide)⟩

end Lox
