import Lox.Proofs.Attributes

/-!
# The hierarchy of classes

A class descends from those on its way up the superclasses, itself included. Since superclasses are older, the way
does not come back, and descent is a partial order in which the ancestors of a class are in line. Classes are told
apart by their identity: many of them may have one name.

The method that is found for a class is that of the nearest one on the way which defines it
(`Heap.NearestDefiner`), so it is inherited as long as nothing on the way overrides it. A class takes the arguments
of the initializer that a call of it runs, and `isinstance` tells descent (`Heap.Hierarchy`).
-/

namespace Lox

namespace Lineage

variable {next : Nat → Option Nat} {x a : Nat} {chain before rest : List Nat}

theorem reflTransGen (h : Lineage next x chain) (ha : a ∈ chain) :
    Relation.ReflTransGen (fun x y => next x = some y) x a := by
  induction h with
  | last => rw [List.mem_singleton.1 ha]
  | step hx _ ih =>
    rcases List.mem_cons.1 ha with rfl | ha
    · exact .refl
    · exact .head hx (ih ha)

/-- The objects from one on the way on are its own way. -/
theorem of_append (h : Lineage next x (before ++ a :: rest)) : Lineage next a (a :: rest) := by
  induction before generalizing x with
  | nil => cases h with
    | last hx => exact .last hx
    | step hx hrest => exact .step hx hrest
  | cons y before ih =>
    generalize hchain : (y :: before) ++ a :: rest = chain at h
    cases h with
    | last => simp at hchain
    | step _ hrest => exact ih ((List.cons.inj hchain).2 ▸ hrest)

end Lineage

/-- A class makes an instance and runs the body of the initializer that it finds, bound to the instance. -/
theorem Machine.construct_eq (k : ClassId) (args : List Value) (tasks : List Task) (s : Store) :
    construct k args tasks s = match s.heap.method? k initName with
      | none => ⟨.deliver (.instanceValue s.heap.instances.size), tasks, (s.newInstance k).1⟩
      | some c => enterFunction { c with scope := s.heap.forest.scopes.size } args
          (.construct s.heap.instances.size :: tasks) ((s.newInstance k).1.bind c s.heap.instances.size).1 := by
  -- A new instance changes neither the classes nor the functions.
  have hclasses : (s.newInstance k).1.heap.classes = s.heap.classes := rfl
  have hfound : (s.newInstance k).1.heap.method? k initName = s.heap.method? k initName := by
    rw [Heap.method?, Heap.method?, Heap.findMethod?_congr hclasses]
    rfl
  unfold construct
  dsimp only
  rw [hfound]
  cases hmethod : s.heap.method? k initName with
  | none => rfl
  | some c =>
    have hbound : ((s.newInstance k).1.bind c (s.newInstance k).2).1.heap.functions[
        ((s.newInstance k).1.bind c (s.newInstance k).2).2]? =
        some { c with scope := s.heap.forest.scopes.size } := Heap.functions_bind ..
    dsimp only
    rw [hbound]
    rfl

namespace Heap

/-- The class from which another one has the method of a name: itself or an ancestor, and below all others that
define the method. -/
structure NearestDefiner (h : Heap) (k : ClassId) (name : Text) (a : ClassId) : Prop where
  ancestor : h.isSubclass k a = true
  defines : h.ownMethod? a name ≠ none
  least : ∀ b, h.isSubclass k b = true → h.ownMethod? b name ≠ none → h.isSubclass a b = true

/-- A call of a class, with as many arguments as it takes, runs the body of an initializer that is bound to the new
instance, or no body at all. -/
def Initializes (h : Heap) (k : ClassId) (initializer : Option Closure) : Prop :=
  ∀ (s : Store) (args : List Value) (tasks : List Task), s.heap = h → args.length = h.classArity k →
    (Machine.construct k args tasks s).tasks = match initializer with
      | none => tasks
      | some c => .sequence c.routine.body :: .endBody { c with scope := h.forest.scopes.size } s.scope ::
          .construct h.instances.size :: tasks

/-- Descent is a partial order, and the search for methods respects it. -/
structure Hierarchy (h : Heap) : Prop where
  /-- A class descends from those that the superclasses lead to. -/
  descent : ∀ k a, h.isSubclass k a = true ↔ Relation.ReflTransGen (fun k p => h.superclass? k = some p) k a
  refl : ∀ k, h.isSubclass k k = true
  trans : ∀ k a b, h.isSubclass k a = true → h.isSubclass a b = true → h.isSubclass k b = true
  antisymm : ∀ k a, h.isSubclass k a = true → h.isSubclass a k = true → k = a
  comparable : ∀ k a b, h.isSubclass k a = true → h.isSubclass k b = true →
    h.isSubclass a b = true ∨ h.isSubclass b a = true
  undefined : ∀ k name, h.findMethod? k name = none ↔ ∀ a, h.isSubclass k a = true → h.ownMethod? a name = none
  defined : ∀ k name f, h.findMethod? k name = some f →
    ∃ a, h.ownMethod? a name = some f ∧ h.NearestDefiner k name a ∧ ∀ b, h.NearestDefiner k name b → b = a
  inherited : ∀ k a name, h.isSubclass k a = true →
    (∀ b, h.isSubclass k b = true → h.isSubclass b a = true → b ≠ a → h.ownMethod? b name = none) →
      h.findMethod? k name = h.findMethod? a name
  arity : ∀ k, h.Initializes k (h.method? k initName) ∧
    h.classArity k = (h.method? k initName).elim 0 fun c => c.routine.arity
  isinstance : ∀ o k a now, h.classOf? o = some k →
    ∃ b, Native.isinstance.call now h [.instanceValue o, .classValue a] = .accepted (.give (.bool b)) ∧
      (b = true ↔ h.isSubclass k a = true)

namespace Classed

variable {h : Heap} (hh : h.Classed)

include hh

theorem isSubclass_iff_reflTransGen (k a : ClassId) :
    h.isSubclass k a = true ↔ Relation.ReflTransGen (fun k p => h.superclass? k = some p) k a := by
  refine ⟨fun hsub => ?_, fun hlinks => ?_⟩
  · obtain ⟨chain, hchain⟩ := Lineage.exists_of_older hh.older k
    exact hchain.reflTransGen ((isSubclass_iff hh.older hchain a).1 hsub)
  · induction hlinks with
    | refl => exact isSubclass_self h k
    | tail _ hp ih => exact isSubclass_trans ih (isSubclass_superclass hp (hh.older _ _ hp))

theorem isSubclass_le {k a : ClassId} (hsub : h.isSubclass k a = true) : a ≤ k := by
  obtain ⟨chain, hchain⟩ := Lineage.exists_of_older hh.older k
  exact hchain.le_of_mem hh.older a ((isSubclass_iff hh.older hchain a).1 hsub)

theorem isSubclass_comparable {k a b : ClassId} (ha : h.isSubclass k a = true) (hb : h.isSubclass k b = true) :
    h.isSubclass a b = true ∨ h.isSubclass b a = true := by
  rw [hh.isSubclass_iff_reflTransGen] at ha hb ⊢
  rw [hh.isSubclass_iff_reflTransGen]
  exact ha.total_of_right_unique (fun _ _ _ hp hp' => Option.some.inj (hp.symm.trans hp')) hb

theorem findMethod?_eq_none_iff (k : ClassId) (name : Text) :
    h.findMethod? k name = none ↔ ∀ a, h.isSubclass k a = true → h.ownMethod? a name = none := by
  obtain ⟨chain, hchain⟩ := Lineage.exists_of_older hh.older k
  rw [findMethod?_eq hh.older hchain, List.findSome?_eq_none_iff]
  exact forall_congr' fun a => imp_congr_left (isSubclass_iff hh.older hchain a).symm

/-- The method that is found is that of the nearest class which defines it. -/
theorem exists_nearestDefiner {k : ClassId} {name : Text} {f : FunctionId} (hf : h.findMethod? k name = some f) :
    ∃ a, h.ownMethod? a name = some f ∧ h.NearestDefiner k name a := by
  obtain ⟨chain, hchain⟩ := Lineage.exists_of_older hh.older k
  rw [findMethod?_eq hh.older hchain] at hf
  obtain ⟨before, a, rest, rfl, ha, hbefore⟩ := List.findSome?_eq_some_iff.1 hf
  refine ⟨a, ha, (isSubclass_iff hh.older hchain a).2 (by simp), by simp [ha], fun b hb hdefines => ?_⟩
  rcases List.mem_append.1 ((isSubclass_iff hh.older hchain b).1 hb) with hb | hb
  · exact absurd (hbefore b hb) hdefines
  · exact (isSubclass_iff hh.older hchain.of_append b).2 hb

/-- A method is inherited if no class on the way overrides it. -/
theorem findMethod?_inherited {k a : ClassId} {name : Text} (ha : h.isSubclass k a = true)
    (hnone : ∀ b, h.isSubclass k b = true → h.isSubclass b a = true → b ≠ a → h.ownMethod? b name = none) :
    h.findMethod? k name = h.findMethod? a name := by
  obtain ⟨chain, hchain⟩ := Lineage.exists_of_older hh.older k
  have hmem := (isSubclass_iff hh.older hchain a).1 ha
  obtain ⟨before, rest, rfl⟩ := List.append_of_mem hmem
  rw [findMethod?_eq hh.older hchain, findMethod?_eq hh.older hchain.of_append, List.findSome?_append,
    List.findSome?_eq_none_iff.2, Option.none_or]
  intro b hb
  refine hnone b ((isSubclass_iff hh.older hchain b).2 (List.mem_append_left _ hb)) ?_ ?_
  · -- From a class before the ancestor the way still leads to it.
    obtain ⟨first, second, rfl⟩ := List.append_of_mem hb
    rw [List.append_assoc] at hchain
    exact (isSubclass_iff hh.older hchain.of_append a).2 (by simp)
  · rintro rfl
    exact (List.nodup_append.1 (hchain.nodup hh.older)).2.2 b hb b (.head _) rfl

/-- A class takes the arguments of its initializer, if it has one. -/
theorem classArity_eq (k : ClassId) :
    h.classArity k = (h.method? k initName).elim 0 fun c => c.routine.arity := by
  cases hmethod : h.method? k initName with
  | some c => exact classArity_of_method? hmethod
  | none =>
    cases hf : h.findMethod? k initName with
    | none => rw [classArity, hf]; rfl
    | some f =>
      obtain ⟨a, ha, -⟩ := hh.exists_nearestDefiner hf
      obtain ⟨c, hc⟩ := hh.methods a initName f ha
      rw [method?, hf, Option.bind_some, hc] at hmethod
      cases hmethod

/-- A class runs the initializer that is found for it, or no body. -/
theorem initializes (k : ClassId) : h.Initializes k (h.method? k initName) := by
  rintro s args tasks rfl hargs
  rw [hh.classArity_eq] at hargs
  rw [Machine.construct_eq]
  cases hmethod : s.heap.method? k initName with
  | none => rfl
  | some c =>
    rw [hmethod] at hargs
    have harity : ¬ args.length < c.routine.arity := Nat.not_lt.2 hargs.ge
    dsimp only
    rw [Machine.enterFunction, if_neg harity]
    rfl

/-- Descent is a partial order, and the search for methods respects it. -/
theorem hierarchy : h.Hierarchy where
  descent := hh.isSubclass_iff_reflTransGen
  refl := isSubclass_self h
  trans _ _ _ := isSubclass_trans
  antisymm _ _ hka hak := Nat.le_antisymm (hh.isSubclass_le hak) (hh.isSubclass_le hka)
  comparable _ _ _ := hh.isSubclass_comparable
  undefined := hh.findMethod?_eq_none_iff
  defined k name f hf := by
    obtain ⟨a, ha, hnearest⟩ := hh.exists_nearestDefiner hf
    refine ⟨a, ha, hnearest, fun b hb => Nat.le_antisymm ?_ ?_⟩
    · exact hh.isSubclass_le (hnearest.least b hb.ancestor hb.defines)
    · exact hh.isSubclass_le (hb.least a hnearest.ancestor hnearest.defines)
  inherited _ _ _ := hh.findMethod?_inherited
  arity k := ⟨hh.initializes k, hh.classArity_eq k⟩
  isinstance o k a now hk := ⟨h.isSubclass k a, by simp only [Native.call, hk], Iff.rfl⟩

end Classed

end Heap

namespace Session

/-- Subclassing is a partial order and the search for methods respects it. Whatever a session was asked, at rest and
at every moment of running an accepted source, descent is reflexive, transitive and antisymmetric, and of two
ancestors of a class one descends from the other. A method is found exactly if an ancestor defines it, and then it is
that of the nearest one, so it is inherited where nothing on the way defines it. A class takes the arguments of the
initializer that its call runs, and `isinstance` tells whether the class of an instance descends from another. -/
theorem run_hierarchy (color showTrace : Bool) (requests : List Request) :
    (serveAll color showTrace requests).store.heap.Hierarchy ∧
    ∀ source, (serveAll color showTrace requests).Accepts source →
      ∃ m, ((serveAll color showTrace requests).prepare source).2.2 = some m ∧ ∀ limits n,
        (m.run limits n).store.heap.Hierarchy := by
  have h := rooted_serveAll color showTrace requests
  refine ⟨h.methods.heap.classed.hierarchy, fun source hsource => ⟨_, (prepare_of_accepts hsource).2.2, ?_⟩⟩
  intro limits n
  obtain ⟨-, -, hbound, -⟩ := h.methods.machine h.sound hsource limits n
  exact hbound.classed.hierarchy

/-- Three classes in a row, the last with the name of the first, which has an initializer. -/
def namesakeSource : Text := text "class A\x7binit(x)\x7b\x7d\x7dclass B<A\x7b\x7dclass A<B\x7b\x7d"

/-- The youngest class descends from its namesake, which does not descend from it. -/
theorem run_hierarchy_namesake :
    (serveAll false false []).Accepts namesakeSource ∧
    ∃ m, ((serveAll false false []).prepare namesakeSource).2.2 = some m ∧
      (m.run ⟨10, fun _ => ⟨0⟩⟩ 12).store.heap.className 2 = (m.run ⟨10, fun _ => ⟨0⟩⟩ 12).store.heap.className 0 ∧
      (m.run ⟨10, fun _ => ⟨0⟩⟩ 12).store.heap.isSubclass 2 0 = true ∧
      (m.run ⟨10, fun _ => ⟨0⟩⟩ 12).store.heap.isSubclass 0 2 ≠ true := by
  have haccepts : (serveAll false false []).Accepts namesakeSource := by decide +kernel
  obtain ⟨m, hm, hrun⟩ := (run_hierarchy false false []).2 namesakeSource haccepts
  have hlinks : (m.run ⟨10, fun _ => ⟨0⟩⟩ 12).store.heap.className 2 =
        (m.run ⟨10, fun _ => ⟨0⟩⟩ 12).store.heap.className 0 ∧
      (m.run ⟨10, fun _ => ⟨0⟩⟩ 12).store.heap.superclass? 2 = some 1 ∧
      (m.run ⟨10, fun _ => ⟨0⟩⟩ 12).store.heap.superclass? 1 = some 0 := by
    rw [eq_start haccepts hm]
    decide +kernel
  have horder := hrun ⟨10, fun _ => ⟨0⟩⟩ 12
  have hdescends := (horder.descent 2 0).2 (.tail (.single hlinks.2.1) hlinks.2.2)
  exact ⟨haccepts, m, hm, hlinks.1, hdescends, fun hback => absurd (horder.antisymm 2 0 hdescends hback) (by decide)⟩

end Session

end Lox
