import Lox.Machine.Step
import Mathlib.Data.List.Infix
import Mathlib.Logic.Function.Iterate

/-!
# Runs

A run repeats steps. A machine that has come to an end is not changed by a step, so a run of a number of
steps is that many steps (`Machine.run_eq_iterate`), a run can be cut into two (`Machine.run_add`), and what
every step keeps is kept by every run (`Machine.run_induction`).

What a built-in function can do in a step is listed in `NativeAction.ArisesFrom`.
-/

namespace Lox

/-! ## Built-in functions -/

/-- What a built-in function can do on a heap with its arguments: it gives a constant, takes a property that
is there, stores one of the arguments, or removes a field. -/
inductive NativeAction.ArisesFrom (h : Heap) (args : List Value) : NativeAction → Prop where
  | number (x : Number) : ArisesFrom h args (.give (.number x))
  | string (t : Text) : ArisesFrom h args (.give (.string t))
  | bool (b : Bool) : ArisesFrom h args (.give (.bool b))
  | take {o : InstanceId} {name : Text} {p : Property} (hp : h.property? o name = some p) :
    ArisesFrom h args (.take o p)
  | store (o : InstanceId) (name : Text) {v : Value} (hv : v ∈ args) : ArisesFrom h args (.store o name v)
  | remove (o : InstanceId) (name : Text) : ArisesFrom h args (.remove o name)

/-- A call of a built-in function acts on what it was given. -/
theorem Native.call_arises {n : Native} {now : Number} {h : Heap} {args : List Value} {action : NativeAction}
    (haction : n.call now h args = .accepted action) : action.ArisesFrom h args := by
  unfold Native.call at haction
  split at haction
  case h_1 =>
    cases haction
    exact .number now
  case h_3 =>
    cases haction
    exact .string _
  case h_4 =>
    split at haction
    · cases haction
    · split at haction
      · next p hp =>
        cases haction
        exact .take hp
      · cases haction
  case h_5 v =>
    split at haction
    · cases haction
    · cases haction
      exact .store _ _ (.tail _ (.tail _ (.head _)))
  case h_6 =>
    split at haction
    · cases haction
    · split at haction
      · cases haction
        exact .remove _ _
      · cases haction
  case h_7 =>
    split at haction
    · split at haction
      · cases haction
        exact .bool _
      · cases haction
    · cases haction
    · cases haction
  -- What is left faults.
  all_goals cases haction

namespace Store

theorem makeMethods_others (s : Store) (methods : List Routine) :
    ∃ heap, (s.makeMethods methods).1 = { s with heap } := by
  unfold makeMethods
  refine List.foldlRecOn (motive := fun made : Store × Table FunctionId => ∃ heap, made.1 = { s with heap })
    methods _ ⟨_, rfl⟩ ?_
  rintro ⟨made, table⟩ ⟨heap, rfl⟩ m -
  exact ⟨_, rfl⟩

/-- Declaring a class changes nothing but the heap. -/
theorem declareClass_others (s : Store) (name : Token) (superclass : Option ClassId)
    (methods : List Routine) : ∃ heap, s.declareClass name superclass methods = { s with heap } := by
  have hmade : ∀ s' : Store, (∃ heap scope, s' = { s with heap, scope }) →
      ∃ heap, (({ ((s'.makeMethods methods).1.newClass
        ⟨name.lexeme, superclass, (s'.makeMethods methods).2⟩).1 with scope := s.scope }).define name
          (.classValue ((s'.makeMethods methods).1.newClass
            ⟨name.lexeme, superclass, (s'.makeMethods methods).2⟩).2)) = { s with heap } := by
    rintro s' ⟨heap, scope, rfl⟩
    obtain ⟨heap', hheap'⟩ := makeMethods_others { s with heap, scope } methods
    rw [hheap']
    exact ⟨_, rfl⟩
  cases superclass with
  | none => exact hmade (s.define name .nil) ⟨_, _, rfl⟩
  | some c =>
    exact hmade ((s.define name .nil).openScope.put (s.define name .nil).openScope.scope superName
      (.classValue c)) ⟨_, _, rfl⟩

end Store

/-- A call whose callee and arguments have been evaluated. -/
structure Call where
  callee : Value
  arguments : List Value
  paren : Token

/-- The call that the next step makes. -/
def Machine.call? : Machine → Option Call
  | ⟨.deliver v, .callee paren [] :: _, _⟩ => some ⟨v, [], paren⟩
  | ⟨.deliver v, .argument paren callee done [] :: _, _⟩ => some ⟨callee, (v :: done).reverse, paren⟩
  | _ => none

/-- A call is made when the callee, or the last argument, has been evaluated. -/
theorem Machine.of_call? {m : Machine} {call : Call} (h : m.call? = some call) :
    ∃ v below s, m = ⟨.deliver v, .callee call.paren [] :: below, s⟩ ∧ call.callee = v ∧ call.arguments = [] ∨
      ∃ done, m = ⟨.deliver v, .argument call.paren call.callee done [] :: below, s⟩ ∧
        call.arguments = (v :: done).reverse := by
  unfold call? at h
  split at h
  · cases h
    exact ⟨_, _, _, .inl ⟨rfl, rfl, rfl⟩⟩
  · cases h
    exact ⟨_, _, _, .inr ⟨_, rfl, rfl⟩⟩
  · cases h

namespace Machine

variable (limits : Limits)

/-! ## What a run keeps -/

theorem step_of_halted {m : Machine} (h : m.halted = true) : m.step limits = m := by
  unfold halted at h
  split at h
  · rfl
  · rfl
  · rfl
  · exact absurd h Bool.false_ne_true

/-- A run is that many steps. -/
theorem run_eq_iterate (n : Nat) (m : Machine) : m.run limits n = (step limits)^[n] m := by
  induction n generalizing m with
  | zero => rfl
  | succ n ih =>
    rw [Function.iterate_succ_apply, ← ih, run]
    split
    · next hhalted =>
      rw [step_of_halted limits hhalted, ih]
      exact (Function.iterate_fixed (step_of_halted limits hhalted) n).symm
    · rfl

theorem run_succ (n : Nat) (m : Machine) : m.run limits (n + 1) = (m.run limits n).step limits := by
  rw [run_eq_iterate, run_eq_iterate, Function.iterate_succ_apply']

theorem run_add (n k : Nat) (m : Machine) : m.run limits (n + k) = (m.run limits n).run limits k := by
  rw [run_eq_iterate, run_eq_iterate, run_eq_iterate, Nat.add_comm, Function.iterate_add_apply]

theorem run_of_halted {m : Machine} (h : m.halted = true) (n : Nat) : m.run limits n = m := by
  rw [run_eq_iterate]
  exact Function.iterate_fixed (step_of_halted limits h) n

/-- A run that has come to an end stays there. -/
theorem run_of_le {n k : Nat} {m : Machine} (h : (m.run limits n).halted = true) (hk : n ≤ k) :
    m.run limits k = m.run limits n := by
  obtain ⟨j, rfl⟩ := Nat.exists_eq_add_of_le hk
  rw [run_add, run_of_halted limits h]

/-- A machine has one end. -/
theorem run_eq_of_halted {limits : Limits} {n k : Nat} {m : Machine} (hn : (m.run limits n).halted = true)
    (hk : (m.run limits k).halted = true) : m.run limits n = m.run limits k := by
  rcases Nat.le_total n k with h | h
  · exact (run_of_le limits hn h).symm
  · exact run_of_le limits hk h

theorem halted_of_outcome {m : Machine} (h : m.outcome ≠ .unfinished) : m.halted = true := by
  unfold outcome at h
  split at h
  case h_5 => exact absurd rfl h
  all_goals rfl

/-- What every step keeps is kept by every run. -/
theorem run_induction {P : Machine → Prop} (hstep : ∀ m, P m → P (m.step limits)) {m : Machine} (hm : P m)
    (n : Nat) : P (m.run limits n) := by
  induction n with
  | zero => exact hm
  | succ n ih =>
    rw [run_succ]
    exact hstep _ ih

end Machine

end Lox
