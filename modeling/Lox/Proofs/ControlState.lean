import Lox.Proofs.StepKinds

/-!
# The scope and the calls that a machine comes back to

Blocks, bodies and calls change the current scope and the active calls, and each of them leaves a task that
changes them back. So at every moment of a run the tasks lead back to one scope and one stack of calls
(`Machine.Level`), however the run gets rid of its tasks: in order, by a return or by a failure. When a
program has ended, its machine is at the globals with the script as its only frame, and no value is on its
way out of a routine (`Machine.store_of_finished`).
-/

namespace Lox

namespace Machine

/-- The tasks lead back to a scope and a stack of calls, and a value is on its way out of a routine only
while a return goes on. -/
structure Level (base : ScopeId × Array Text) (m : Machine) : Prop where
  released : released m.tasks m.store.scope m.store.frames = base
  returning : m.control ≠ .complete .returned → m.store.returning = none

/-- A machine at its level, unless a guarantee was broken. -/
def Leveled (base : ScopeId × Array Text) (m : Machine) : Prop := (∃ f, m.control = .fault f) ∨ m.Level base

theorem Leveled.fault {base : ScopeId × Array Text} (f : Fault) (tasks : List Task) (s : Store) :
    Leveled base ⟨.fault f, tasks, s⟩ := .inl ⟨f, rfl⟩

variable {base : ScopeId × Array Text}

theorem Level.shifts {m m' : Machine} {pushed : List Task} (h : m.Level base) (hshift : m.Shifts pushed m') :
    m'.Level base := by
  refine ⟨?_, fun hcontrol => hshift.returning hcontrol h.returning⟩
  rw [hshift.frames, hshift.level]
  exact h.released

/-- Whatever a machine does, its tasks lead back to the same scope and calls. -/
theorem Level.acts {limits : Limits} {m m' : Machine} (h : m.Level base) (hacts : Acts limits m m') :
    m'.Leveled base := by
  have hwaits : m.control ≠ .complete .returned → m.store.returning = none := h.returning
  cases hacts with
  | work _ hshift | returns _ _ _ hshift | leaves _ _ _ _ _ hshift | raise _ _ hshift | overflow _ _ _ hshift =>
    exact .inr (h.shifts hshift)
  | call hcall _ henters =>
    refine .inr ⟨?_, fun _ => henters.returning.trans (hwaits fun hreturned => ?_)⟩
    -- The frame that the call adds is the one that its task takes away.
    · rw [henters.frames, henters.level, Array.pop_push]
      exact h.released
    · have hgoing := (offers_of_call? hcall).going
      rw [hreturned] at hgoing
      cases hgoing
  | endCall hcontrol htasks hstep =>
    have hs := h.released
    rw [htasks] at hs
    rw [hstep]
    exact .inr ⟨hs, fun _ => hwaits (by rw [hcontrol]; nofun)⟩
  | @giveUp f task kept hcontrol htasks hstep =>
    have hs := h.released
    have hnone := hwaits (by rw [hcontrol]; nofun)
    rw [htasks] at hs
    rw [hstep]
    cases task with
    | endCall => cases f <;> exact .inr ⟨hs, fun _ => hnone⟩
    | _ => exact .inr ⟨hs, fun _ => hnone⟩
  | rest _ hstep => exact .inr (hstep ▸ h)
  | fault hcontrol => exact .inl ⟨_, hcontrol⟩

theorem Leveled.step {m : Machine} (h : m.Leveled base) (limits : Limits) : (m.step limits).Leveled base := by
  rcases h with ⟨f, hf⟩ | h
  · obtain ⟨control, tasks, s⟩ := m
    obtain rfl : control = .fault f := hf
    exact .fault _ _ _
  · exact h.acts (step_acts limits m)

theorem Leveled.run {m : Machine} (h : m.Leveled base) (limits : Limits) (n : Nat) :
    (m.run limits n).Leveled base :=
  run_induction limits (P := fun m => m.Leveled base) (fun _ h => h.step limits) h n

theorem leveled_start (program : Program) (s : Store) :
    (start program s).Leveled (Heap.globals, #[scriptFrame]) :=
  .inr ⟨rfl, fun _ => rfl⟩

/-- After a program has ended the machine is ready for the next one. -/
theorem store_of_finished {program : Program} {s : Store} {limits : Limits} {n : Nat}
    (h : ((start program s).run limits n).outcome = .finished) :
    let last := ((start program s).run limits n).store
    last = { last with scope := Heap.globals, frames := #[scriptFrame], returning := none } := by
  have hleveled := (leveled_start program s).run limits n
  generalize (start program s).run limits n = m at h hleveled
  obtain ⟨control, tasks, s'⟩ := m
  unfold outcome at h
  split at h
  case h_1 last hm =>
    cases hm
    rcases hleveled with ⟨f, hf⟩ | ⟨hs, hreturning⟩
    · cases hf
    · obtain ⟨hscope, hframes⟩ := Prod.mk.inj hs
      have hnone := hreturning nofun
      dsimp only at hscope hframes hnone ⊢
      rw [← hscope, ← hframes, ← hnone]
  all_goals cases h

end Machine

end Lox
