import Lox.Proofs.Chains

/-!
# Updates of shared scopes

A scope can enclose any number of others, so a value that is put into it is seen from all of them. What is
seen from a scope under a name is the value in the nearest scope outwards that holds the name
(`Forest.Nearest`). An assignment changes that value and nothing else (`Forest.Rebinds`); a name that is
there already stays where it is, so every scope still has the same nearest holder, and exactly those scopes
see the assignment that have this one as theirs. This holds of every forest that scopes are made in and
names are put into, in whatever order (`Forest.assign_rebinds_nearest`).
-/

namespace Lox.Forest

/-! ## The nearest scope that holds a name -/

/-- A scope that many steps outwards holds a name, and no nearer one does. -/
structure Nearest (f : Forest) (e : ScopeId) (name : Text) (d : Nat) (a : ScopeId) : Prop where
  ancestor : f.ancestor? e d = some a
  holds : (f.slot? a name).isSome
  least : ∀ k < d, ∀ a', f.ancestor? e k = some a' → f.slot? a' name = none

variable {f g : Forest} {e a : ScopeId} {name : Text} {v : Value}

/-- A scope that is found by going outwards is there. -/
theorem lt_size_of_ancestor? {d : Nat} (h : f.ancestor? e d = some a) : a < f.scopes.size := by
  induction d generalizing e with
  | zero =>
    obtain ⟨he, heq⟩ := Option.ite_none_right_eq_some.1 h
    exact Option.some.inj heq ▸ he
  | succ d ih =>
    rw [ancestor?] at h
    split at h
    · exact ih h
    · cases h

section

variable (holder : ∀ e outer, f.enclosing? e = some outer → outer < e)

include holder

/-- The scopes a number of steps outwards are those of the chain. -/
theorem ancestor?_eq {chain : List ScopeId} (h : Lineage f.enclosing? e chain) (he : e < f.scopes.size)
    (d : Nat) : f.ancestor? e d = chain[d]? := by
  induction h generalizing d with
  | last h =>
    cases d with
    | zero => exact if_pos he
    | succ d => rw [ancestor?, h]; rfl
  | step h _ ih =>
    cases d with
    | zero => exact if_pos he
    | succ d =>
      rw [ancestor?, h]
      exact ih ((holder _ _ h).trans he) d

/-- The search outwards finds the nearest scope that holds a name. -/
theorem holder?_eq_some_iff : f.holder? e name = some a ↔ ∃ d, f.Nearest e name d a := by
  obtain ⟨chain, hchain⟩ := Lineage.exists_of_older holder e
  rw [holder?_eq holder hchain, List.find?_eq_some_iff_getElem]
  constructor
  · rintro ⟨hholds, d, hd, rfl, hleast⟩
    have he : e < f.scopes.size := by
      cases hchain with
      | last =>
        obtain rfl : d = 0 := Nat.lt_one_iff.1 hd
        exact lt_size_of_slot? (Option.some_get hholds).symm
      | step h => exact lt_size_of_enclosing? h
    have hancestor := ancestor?_eq holder hchain he
    refine ⟨d, (hancestor d).trans (List.getElem?_eq_getElem hd), hholds, fun k hk a' ha' => ?_⟩
    obtain ⟨hk', rfl⟩ := List.getElem?_eq_some_iff.1 ((hancestor k).symm.trans ha')
    simpa using hleast k hk
  · rintro ⟨d, hancestor, hholds, hleast⟩
    have he : e < f.scopes.size := by
      cases d with
      | zero => exact (Option.ite_none_right_eq_some.1 hancestor).1
      | succ d =>
        rw [ancestor?] at hancestor
        split at hancestor
        · next houter => exact lt_size_of_enclosing? houter
        · cases hancestor
    have hchained := ancestor?_eq holder hchain he
    obtain ⟨hd, rfl⟩ := List.getElem?_eq_some_iff.1 ((hchained d).symm.trans hancestor)
    refine ⟨hholds, d, hd, rfl, fun k hk => ?_⟩
    have hnone := hleast k hk _ ((hchained k).trans (List.getElem?_eq_getElem (hk.trans hd)))
    rw [hnone]
    rfl

/-- What is seen from a scope is the value in the nearest one that holds the name. -/
theorem Nearest.get?_eq {d : Nat} (h : f.Nearest e name d a) : f.get? e name = f.slot? a name := by
  obtain ⟨w, hw⟩ := Option.isSome_iff_exists.1 h.holds
  rw [get?, (holder?_eq_some_iff holder).2 ⟨d, h⟩, Option.map_some, valueIn_eq, hw]
  rfl

end

theorem Nearest.getAt?_eq {d : Nat} (h : f.Nearest e name d a) : f.getAt? e d name = f.slot? a name := by
  obtain ⟨w, hw⟩ := Option.isSome_iff_exists.1 h.holds
  rw [getAt?_eq_of_slot? h.ancestor hw, hw]

/-! ## Changing one binding -/

/-- A forest that differs from another in the value of one name in one scope. -/
structure Rebinds (f g : Forest) (a : ScopeId) (name : Text) (v : Value) : Prop where
  size : g.scopes.size = f.scopes.size
  enclosing : ∀ e, g.enclosing? e = f.enclosing? e
  bound : g.slot? a name = some v
  others : ∀ e m, ¬ (e = a ∧ m = name) → g.slot? e m = f.slot? e m

theorem define_rebinds (ha : a < f.scopes.size) : f.Rebinds (f.define a name v) a name v where
  size := f.size_define a name v
  enclosing e := f.enclosing?_define a e name v
  bound := by rw [slot?_define, if_pos ⟨rfl, rfl, ha⟩]
  others e m hne := by rw [slot?_define, if_neg fun h => hne ⟨h.1, h.2.1⟩]

section

variable (holder : ∀ e outer, f.enclosing? e = some outer → outer < e) (h : f.Rebinds g a name v)
  (hheld : (f.slot? a name).isSome)

include holder h hheld

/-- If the name was there, every name is found where it was found. -/
theorem Rebinds.holder?_eq (e : ScopeId) (m : Text) : g.holder? e m = f.holder? e m := by
  have holder' : ∀ e outer, g.enclosing? e = some outer → outer < e := fun e outer he =>
    holder e outer (h.enclosing e ▸ he)
  obtain ⟨chain, hchain⟩ := Lineage.exists_of_older holder e
  have hchain' : Lineage g.enclosing? e chain := (funext h.enclosing : g.enclosing? = f.enclosing?) ▸ hchain
  rw [Forest.holder?_eq holder hchain, Forest.holder?_eq holder' hchain']
  congr 1
  funext e'
  by_cases hsame : e' = a ∧ m = name
  · rw [hsame.1, hsame.2, h.bound, hheld]
    rfl
  · rw [h.others e' m hsame]

/-- The scopes whose nearest holder of the name is the changed one see the new value. -/
theorem Rebinds.get?_of_nearest {d : Nat} (he : f.Nearest e name d a) : g.get? e name = some v := by
  rw [get?, h.holder?_eq holder hheld, (holder?_eq_some_iff holder).2 ⟨d, he⟩, Option.map_some, valueIn_eq,
    h.bound]
  rfl

/-- No other scope sees another value under any name. -/
theorem Rebinds.nearest_of_get?_ne {m : Text} (hne : g.get? e m ≠ f.get? e m) :
    m = name ∧ ∃ d, f.Nearest e name d a := by
  rw [get?, get?, h.holder?_eq holder hheld] at hne
  cases hfound : f.holder? e m with
  | none => exact absurd (by rw [hfound]; rfl) hne
  | some a' =>
    by_cases hsame : a' = a ∧ m = name
    · obtain ⟨rfl, rfl⟩ := hsame
      exact ⟨rfl, (holder?_eq_some_iff holder).1 hfound⟩
    · refine absurd ?_ hne
      rw [hfound, Option.map_some, Option.map_some, valueIn_eq, valueIn_eq, h.others a' m hsame]

end

/-! ## Sequences of operations -/

/-- What can be done to a forest. -/
inductive Operation where
  | new (enclosing : Option ScopeId)
  | define (e : ScopeId) (name : Text) (v : Value)
  | assign (e : ScopeId) (name : Text) (v : Value)
  | assignAt (e : ScopeId) (distance : Nat) (name : Text) (v : Value)

/-- A new scope is made inside one that is there, if inside any; an operation that fails changes
nothing. -/
def perform (f : Forest) : Operation → Forest
  | .new none => (f.new none).1
  | .new (some outer) => if outer < f.scopes.size then (f.new (some outer)).1 else f
  | .define e name v => f.define e name v
  | .assign e name v => (f.assign? e name v).getD f
  | .assignAt e distance name v => (f.assignAt? e distance name v).getD f

/-- An operation keeps every scope inside an older one, if inside any. -/
theorem older_perform (holder : ∀ e outer, f.enclosing? e = some outer → outer < e) (op : Operation) :
    ∀ e outer, (f.perform op).enclosing? e = some outer → outer < e := by
  have hdefine : ∀ e' name v e outer, (f.define e' name v).enclosing? e = some outer → outer < e := by
    intro e' name v e outer he
    rw [enclosing?_define] at he
    exact holder e outer he
  have hnew : ∀ enclosing, (∀ outer, enclosing = some outer → outer < f.scopes.size) →
      ∀ e outer, (f.new enclosing).1.enclosing? e = some outer → outer < e := by
    intro enclosing henclosing e outer he
    rw [enclosing?_new] at he
    split at he
    · next heq => exact heq ▸ henclosing outer he
    · exact holder e outer he
  cases op with
  | new enclosing =>
    cases enclosing with
    | none => exact hnew none nofun
    | some outer =>
      rw [perform]
      split
      · next hlt => exact hnew (some outer) fun _ h => Option.some.inj h ▸ hlt
      · exact holder
  | define e' name v => exact hdefine e' name v
  | assign e' name v =>
    rw [perform, assign?]
    cases f.holder? e' name with
    | none => exact holder
    | some a => exact hdefine a name v
  | assignAt e' d name v =>
    rw [perform, assignAt?]
    cases f.ancestor? e' d with
    | none => exact holder
    | some a => exact hdefine a name v

theorem older_foldl (holder : ∀ e outer, f.enclosing? e = some outer → outer < e) (ops : List Operation) :
    ∀ e outer, (ops.foldl perform f).enclosing? e = some outer → outer < e := by
  induction ops generalizing f with
  | nil => exact holder
  | cons op ops ih => exact ih (older_perform holder op)

/-- In every forest that operations make, an assignment succeeds exactly when the name is found. It then
changes its value in the nearest scope that holds it, which is seen from exactly the scopes that have this
one as their nearest holder. The value that is found is the one at the least distance where the name is
held, and an assignment at a distance changes only the scope at that distance. -/
theorem assign_rebinds_nearest (ops : List Operation) (e : ScopeId) (name : Text) (v : Value) :
    let f := ops.foldl perform .empty
    ((f.assign? e name v).isSome ↔ (f.get? e name).isSome) ∧
    (∀ g, f.assign? e name v = some g → ∃ d a, f.Nearest e name d a ∧ f.Rebinds g a name v ∧
      (∀ e' d', f.Nearest e' name d' a → g.get? e' name = some v) ∧
      ∀ e' m, g.get? e' m ≠ f.get? e' m → m = name ∧ ∃ d', f.Nearest e' name d' a) ∧
    (f.assign? e name v = none → f.perform (.assign e name v) = f) ∧
    ((f.get? e name).isSome ↔ ∃ d a, f.Nearest e name d a) ∧
    (∀ d a, f.Nearest e name d a → f.get? e name = f.getAt? e d name) ∧
    ∀ d a, f.ancestor? e d = some a → ∃ g, f.assignAt? e d name v = some g ∧ f.Rebinds g a name v := by
  intro f
  have holder : ∀ e outer, f.enclosing? e = some outer → outer < e :=
    older_foldl (fun e outer he => by simp [enclosing?, empty] at he) ops
  refine ⟨?_, fun g hg => ?_, fun hnone => ?_, ?_, fun d a h => (h.get?_eq holder).trans h.getAt?_eq.symm,
    fun d a ha => ?_⟩
  · rw [assign?, get?, Option.isSome_map, Option.isSome_map]
  · obtain ⟨a, ha, rfl⟩ := Option.map_eq_some_iff.1 hg
    obtain ⟨d, hnearest⟩ := (holder?_eq_some_iff holder).1 ha
    have hrebinds : f.Rebinds (f.define a name v) a name v :=
      define_rebinds (lt_size_of_ancestor? hnearest.ancestor)
    exact ⟨d, a, hnearest, hrebinds, fun _ _ h => hrebinds.get?_of_nearest holder hnearest.holds h,
      fun _ _ h => hrebinds.nearest_of_get?_ne holder hnearest.holds h⟩
  · rw [perform, hnone]
    rfl
  · rw [get?, Option.isSome_map, Option.isSome_iff_exists]
    simp only [holder?_eq_some_iff holder]
    exact exists_comm
  · rw [assignAt?, ha]
    exact ⟨_, rfl, define_rebinds (lt_size_of_ancestor? ha)⟩

/-- Of two scopes inside the same one, the one that holds the name itself does not see an assignment from
the other. -/
example :
    let f := [.new none, .define 0 (text "x") (.bool true), .new (some 0), .new (some 0),
      .define 2 (text "x") .nil].foldl perform .empty
    ((f.assign? 1 (text "x") (.bool false)).map fun g =>
      (g.get? 0 (text "x"), g.get? 1 (text "x"), g.get? 2 (text "x"))) =
        some (some (.bool false), some (.bool false), some .nil) := by
  decide +kernel

end Lox.Forest
