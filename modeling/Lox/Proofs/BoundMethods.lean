import Lox.Proofs.MethodPlaces
import Lox.Proofs.SoundSession

/-!
# Bound methods

A function whose scope holds `this` is a method of some class, bound to an instance of that class or of one
of its descendants, and the scope around it is that of the method (`Heap.Binding`). Everything that a program
does to the heap keeps this (`Heap.MethodsBound`), however a method came to be bound: as a property, through
`super`, or as an initializer.

So `super` inside a method of a class finds methods from the superclass of that class on, whatever the class
of the instance, and binds them to the same instance (`Heap.MethodsBound.of_super`).
-/

namespace Lox

namespace Forest

variable {f : Forest} {e a : ScopeId} {d : Nat}

/-- A value that is found at a distance stands in the scope there. -/
theorem slot?_of_getAt? {name : Text} {v : Value} (hv : f.getAt? e d name = some v) (hne : v ≠ .absent) :
    ∃ a, f.ancestor? e d = some a ∧ f.slot? a name = some v := by
  obtain ⟨a, ha, hvalue⟩ := Option.map_eq_some_iff.1 hv
  refine ⟨a, ha, ?_⟩
  rw [valueIn_eq] at hvalue
  cases hslot : f.slot? a name with
  | none =>
    rw [hslot] at hvalue
    exact absurd hvalue.symm hne
  | some w =>
    rw [hslot] at hvalue
    exact congrArg some hvalue

/-- The scope at the next distance is the one around. -/
theorem ancestor?_succ {outer outer' : ScopeId} (ha : f.ancestor? e d = some a)
    (houter : f.enclosing? a = some outer) (houter' : f.ancestor? e (d + 1) = some outer') :
    outer = outer' := by
  induction d generalizing e with
  | zero =>
    unfold ancestor? at ha houter'
    split at ha
    · obtain rfl := Option.some.inj ha
      rw [houter] at houter'
      dsimp only at houter'
      unfold ancestor? at houter'
      split at houter'
      · exact Option.some.inj houter'
      · cases houter'
    · cases ha
  | succ d ih =>
    unfold ancestor? at ha houter'
    split at ha
    · next next' hnext =>
      rw [hnext] at houter'
      exact ih ha houter'
    · cases ha

end Forest

namespace Heap

/-- The superclass of a class. -/
def superclass? (h : Heap) (k : ClassId) : Option ClassId := h.classes[k]?.bind (·.superclass)

/-- A function is a method that a class has under its name, bound to an instance of the class or of a
descendant. The scope around that with the instance is the method's, and it holds the superclass of the class
as `super`, if there is one. -/
structure Binding (h : Heap) (c : Closure) (o : InstanceId) (k : ClassId) (stored : Closure) : Prop where
  method : ∃ f, h.ownMethod? k stored.routine.name.lexeme = some f ∧ h.functions[f]? = some stored
  bound : c = { stored with scope := c.scope }
  receiver : h.forest.slot? c.scope thisName = some (.instanceValue o)
  descends : ∃ own, h.classOf? o = some own ∧ h.isSubclass own k = true
  enclosing : h.forest.enclosing? c.scope = some stored.scope
  super : h.forest.slot? stored.scope superName = (h.superclass? k).map .classValue

/-- Every function with an instance in its scope is a bound method. -/
structure MethodsBound (h : Heap) : Prop where
  older : ∀ k p, h.superclass? k = some p → p < k
  stored : ∀ k name f, h.ownMethod? k name = some f → ∃ c, h.functions[f]? = some c ∧
    c.routine.name.lexeme = name ∧ c.initializer = decide (name = initName) ∧
      h.forest.slot? c.scope superName = (h.superclass? k).map .classValue
  bound : ∀ (f : FunctionId) c v, h.functions[f]? = some c → h.forest.slot? c.scope thisName = some v →
    ∃ o k stored, v = .instanceValue o ∧ h.Binding c o k stored
  frames : ∀ e v, h.forest.slot? e thisName = some v →
    ∃ (f : FunctionId) (c : Closure), h.functions[f]? = some c ∧ c.scope = e

section Classes

variable {h h' : Heap} {k : ClassId}

theorem isSubclass_self (h : Heap) (k : ClassId) : h.isSubclass k k = true := by
  rw [isSubclass]
  simp

theorem isSubclass_superclass {p : ClassId} (hp : h.superclass? k = some p) (hlt : p < k) :
    h.isSubclass k p = true := by
  rw [isSubclass, show h.classes[k]?.bind (·.superclass) = some p from hp]
  simp only [if_pos hlt, isSubclass_self, Bool.or_true]

/-- The descendants of a descendant are descendants. -/
theorem isSubclass_trans {a p : ClassId} (hsub : h.isSubclass a k = true)
    (hsub' : h.isSubclass k p = true) : h.isSubclass a p = true := by
  rw [isSubclass] at hsub
  rcases Bool.or_eq_true_iff.1 hsub with heq | hsub
  · obtain rfl := beq_iff_eq.1 heq
    exact hsub'
  · split at hsub
    · exact absurd hsub Bool.false_ne_true
    · next parent hparent =>
      split at hsub
      · next hlt =>
        have ih := isSubclass_trans hsub hsub'
        rw [isSubclass, hparent]
        simp only [if_pos hlt, ih, Bool.or_true]
      · exact absurd hsub Bool.false_ne_true
termination_by a

/-- A method that is found is that of an ancestor. -/
theorem exists_isSubclass {a : ClassId} {name : Text} {f : FunctionId} (hf : h.findMethod? a name = some f) :
    ∃ k, h.ownMethod? k name = some f ∧ h.isSubclass a k = true := by
  rw [findMethod?] at hf
  split at hf
  · cases hf
  · next info hinfo =>
    split at hf
    · next f' hf' =>
      refine ⟨a, ?_, isSubclass_self h a⟩
      rw [ownMethod?, hinfo]
      exact hf'.trans hf
    · split at hf
      · cases hf
      · next parent hparent =>
        split at hf
        · next hlt =>
          obtain ⟨k, hk, hsub⟩ := exists_isSubclass hf
          refine ⟨k, hk, ?_⟩
          rw [isSubclass, hinfo]
          simp only [Option.bind_some, hparent, if_pos hlt, hsub, Bool.or_true]
        · cases hf
termination_by a

/-- Classes that are made later have no effect on who descends from whom. -/
theorem isSubclass_mono {a : ClassId}
    (hclasses : ∀ (k : ClassId) info, h.classes[k]? = some info → h'.classes[k]? = some info)
    (hsub : h.isSubclass a k = true) : h'.isSubclass a k = true := by
  rw [isSubclass] at hsub
  rcases Bool.or_eq_true_iff.1 hsub with heq | hsub
  · obtain rfl := beq_iff_eq.1 heq
    exact isSubclass_self h' a
  · split at hsub
    · exact absurd hsub Bool.false_ne_true
    · next parent hparent =>
      split at hsub
      · next hlt =>
        obtain ⟨info, hinfo, hsuper⟩ := Option.bind_eq_some_iff.1 hparent
        have ih := isSubclass_mono hclasses hsub
        rw [isSubclass, hclasses a info hinfo]
        simp only [Option.bind_some, hsuper, if_pos hlt, ih, Bool.or_true]
      · exact absurd hsub Bool.false_ne_true
termination_by a

end Classes

/-- A later heap: what was made is still there, and no scope has got or lost `this` or `super`. -/
structure Later (h h' : Heap) : Prop where
  size : h.forest.scopes.size ≤ h'.forest.scopes.size
  functions : ∀ (f : FunctionId) c, h.functions[f]? = some c → h'.functions[f]? = some c
  classes : ∀ (k : ClassId) info, h.classes[k]? = some info → h'.classes[k]? = some info
  instances : ∀ o k, h.classOf? o = some k → h'.classOf? o = some k
  enclosing : ∀ e outer, h.forest.enclosing? e = some outer → h'.forest.enclosing? e = some outer
  reserved : ∀ e < h.forest.scopes.size, ∀ name, ¬ Plain name →
    h'.forest.slot? e name = h.forest.slot? e name

namespace Later

variable {h h' h'' : Heap}

theorem trans (hl : h.Later h') (hl' : h'.Later h'') : h.Later h'' where
  size := hl.size.trans hl'.size
  functions f c hc := hl'.functions f c (hl.functions f c hc)
  classes k info hk := hl'.classes k info (hl.classes k info hk)
  instances o k ho := hl'.instances o k (hl.instances o k ho)
  enclosing e outer he := hl'.enclosing e outer (hl.enclosing e outer he)
  reserved e he name hname :=
    (hl'.reserved e (Nat.lt_of_lt_of_le he hl.size) name hname).trans (hl.reserved e he name hname)

/-- A later forest in a heap where nothing else has changed. -/
theorem of_forest {f : Forest} (hgrows : h.forest.Grows f)
    (hreserved : ∀ e < h.forest.scopes.size, ∀ name, ¬ Plain name → f.slot? e name = h.forest.slot? e name) :
    h.Later { h with forest := f } :=
  ⟨hgrows.size, fun _ _ h => h, fun _ _ h => h, fun _ _ h => h,
    fun e _ he => (hgrows.enclosing e (Forest.lt_size_of_enclosing? he)).trans he, hreserved⟩

theorem define {e : ScopeId} {name : Text} (hname : Plain name) (v : Value) :
    h.Later (h.define e name v) := by
  refine of_forest (Forest.define_grows (.inl hname)) fun e' _ name' hname' => ?_
  rw [Forest.slot?_define, if_neg]
  rintro ⟨-, rfl, -⟩
  exact hname' hname

theorem newScope (h : Heap) (outer : ScopeId) : h.Later (h.newScope (some outer)).1 :=
  of_forest (h.forest.new_grows (some outer)) fun e _ name _ => h.forest.slot?_new (some outer) e name

/-- A new scope with a name is none of those that were there. -/
theorem openWith (h : Heap) (outer : ScopeId) (name : Text) (v : Value) :
    h.Later (h.openWith outer name v).1 := by
  refine of_forest (h.openWith_grows outer name v).forest fun e he name' _ => ?_
  refine (Forest.slot?_define ..).trans ?_
  rw [if_neg (fun hnew => Nat.ne_of_lt he hnew.1)]
  exact h.forest.slot?_new (some outer) e name'

theorem newFunction (h : Heap) (c : Closure) : h.Later (h.newFunction c).1 :=
  ⟨Nat.le_refl _, (h.newFunction_grows c).functions, fun _ _ h => h, fun _ _ h => h, fun _ _ h => h,
    fun _ _ _ _ => rfl⟩

theorem newClass (h : Heap) (info : ClassInfo) : h.Later (h.newClass info).1 := by
  refine ⟨Nat.le_refl _, fun _ _ h => h, fun k info' hk => ?_, fun _ _ h => h, fun _ _ h => h,
    fun _ _ _ _ => rfl⟩
  have hlt := (Array.getElem?_eq_some_iff.1 hk).1
  unfold Heap.newClass
  rw [Array.getElem?_push, if_neg (Nat.ne_of_lt hlt)]
  exact hk

theorem of_instances {instances : Array InstanceInfo}
    (hinstances : ∀ o k, h.classOf? o = some k → (instances[o]?).map (·.classId) = some k) :
    h.Later { h with instances } :=
  ⟨Nat.le_refl _, fun _ _ h => h, fun _ _ h => h, hinstances, fun _ _ h => h, fun _ _ _ _ => rfl⟩

theorem newInstance (h : Heap) (k : ClassId) : h.Later (h.newInstance k).1 := by
  refine of_instances fun o k' ho => ?_
  obtain ⟨info, hinfo, hclass⟩ := Option.map_eq_some_iff.1 ho
  have hlt := (Array.getElem?_eq_some_iff.1 hinfo).1
  rw [Array.getElem?_push, if_neg (Nat.ne_of_lt hlt), hinfo]
  exact congrArg some hclass

/-- Changing the fields of an instance leaves its class. -/
theorem modifyFields (h : Heap) (o : InstanceId) (g : InstanceInfo → InstanceInfo)
    (hg : ∀ info, (g info).classId = info.classId) :
    h.Later { h with instances := h.instances.modify o g } := by
  refine of_instances fun o' k ho' => ?_
  obtain ⟨info, hinfo, hclass⟩ := Option.map_eq_some_iff.1 ho'
  rw [Array.getElem?_modify, hinfo]
  split
  · exact congrArg some ((hg info).trans hclass)
  · exact congrArg some hclass

theorem bind (h : Heap) (c : Closure) (o : InstanceId) : h.Later (h.bind c o).1 :=
  (openWith h c.scope thisName (.instanceValue o)).trans (newFunction _ _)

theorem superclass? (hl : h.Later h') {k : ClassId} (hk : ∃ info, h.classes[k]? = some info) :
    h'.superclass? k = h.superclass? k := by
  obtain ⟨info, hinfo⟩ := hk
  rw [Heap.superclass?, Heap.superclass?, hinfo, hl.classes k info hinfo]

theorem ownMethod? (hl : h.Later h') {k : ClassId} {name : Text} {f : FunctionId}
    (hf : h.ownMethod? k name = some f) : h'.ownMethod? k name = some f := by
  obtain ⟨info, hinfo, hmethod⟩ := Option.bind_eq_some_iff.1 hf
  rw [Heap.ownMethod?, hl.classes k info hinfo]
  exact hmethod

end Later

/-- The functions of a heap have scopes. -/
def Scoped (h : Heap) : Prop :=
  ∀ (f : FunctionId) c, h.functions[f]? = some c → c.scope < h.forest.scopes.size

/-- A bound method stays bound to its instance. -/
theorem Binding.later {h h' : Heap} {c : Closure} {o : InstanceId} {k : ClassId} {stored : Closure}
    (hb : h.Binding c o k stored) (hscoped : h.Scoped) (hl : h.Later h') : h'.Binding c o k stored := by
  obtain ⟨⟨f, hf, hstored⟩, hbound, hreceiver, ⟨own, hown, hsub⟩, henclosing, hsuper⟩ := hb
  have hclass : ∃ info, h.classes[k]? = some info := by
    obtain ⟨info, hinfo, -⟩ := Option.bind_eq_some_iff.1 hf
    exact ⟨info, hinfo⟩
  refine ⟨⟨f, hl.ownMethod? hf, hl.functions f stored hstored⟩, hbound, ?_,
    ⟨own, hl.instances o own hown, isSubclass_mono hl.classes hsub⟩, hl.enclosing _ _ henclosing, ?_⟩
  · rw [hl.reserved _ (Forest.lt_size_of_slot? hreceiver) _ not_plain_this]
    exact hreceiver
  · rw [hl.reserved _ (hscoped f stored hstored) _ not_plain_super, hl.superclass? hclass]
    exact hsuper

namespace MethodsBound

variable {h h' : Heap}

/-- A later heap has bound methods only if what is new in it is so. -/
theorem of_later (hm : h.MethodsBound) (hscoped : h.Scoped) (hl : h.Later h')
    (hclasses : ∀ (k : ClassId) info, h'.classes[k]? = some info → h.classes[k]? = some info ∨
      (∀ p, info.superclass = some p → p < k) ∧
        ∀ name f, info.methods.get? name = some f → ∃ c, h'.functions[f]? = some c ∧
          c.routine.name.lexeme = name ∧ c.initializer = decide (name = initName) ∧
            h'.forest.slot? c.scope superName = info.superclass.map .classValue)
    (hfunctions : ∀ (f : FunctionId) c, h'.functions[f]? = some c → h.functions[f]? = some c ∨
      ∀ v, h'.forest.slot? c.scope thisName = some v →
        ∃ o k stored, v = .instanceValue o ∧ h'.Binding c o k stored)
    (hframes : ∀ e v, h'.forest.slot? e thisName = some v → e < h.forest.scopes.size ∨
      ∃ (f : FunctionId) (c : Closure), h'.functions[f]? = some c ∧ c.scope = e) : h'.MethodsBound where
  older k p hp := by
    obtain ⟨info, hinfo, hsuper⟩ := Option.bind_eq_some_iff.1 hp
    rcases hclasses k info hinfo with hold | hnew
    · refine hm.older k p ?_
      rw [superclass?, hold]
      exact hsuper
    · exact hnew.1 p hsuper
  stored k name f hf := by
    obtain ⟨info, hinfo, hmethod⟩ := Option.bind_eq_some_iff.1 hf
    have hsuper : h'.superclass? k = info.superclass := by
      rw [superclass?, hinfo]
      rfl
    rcases hclasses k info hinfo with hold | hnew
    · obtain ⟨c, hc, hname, hflag, hslot⟩ := hm.stored k name f (by rw [ownMethod?, hold]; exact hmethod)
      refine ⟨c, hl.functions f c hc, hname, hflag, ?_⟩
      -- No program writes into `super`, so the scope of the method still holds the class.
      rw [hl.reserved _ (hscoped f c hc) _ not_plain_super, hl.superclass? ⟨info, hold⟩]
      exact hslot
    · rw [hsuper]
      exact hnew.2 name f hmethod
  bound f c v hc hv := by
    rcases hfunctions f c hc with hold | hnew
    · rw [hl.reserved _ (hscoped f c hold) _ not_plain_this] at hv
      obtain ⟨o, k, stored, ho, hbinding⟩ := hm.bound f c v hold hv
      exact ⟨o, k, stored, ho, hbinding.later hscoped hl⟩
    · exact hnew v hv
  frames e v hv := by
    rcases hframes e v hv with hold | hnew
    · rw [hl.reserved e hold _ not_plain_this] at hv
      obtain ⟨f, c, hc, he⟩ := hm.frames e v hv
      exact ⟨f, c, hl.functions f c hc, he⟩
    · exact hnew

/-- A heap with the same functions and classes, in which no other scope has `this`. -/
theorem of_same (hm : h.MethodsBound) (hscoped : h.Scoped) (hl : h.Later h')
    (hclasses : h'.classes = h.classes) (hfunctions : h'.functions = h.functions)
    (hframes : ∀ e v, h'.forest.slot? e thisName = some v → e < h.forest.scopes.size) : h'.MethodsBound :=
  hm.of_later hscoped hl (fun _ _ hk => .inl (hclasses ▸ hk)) (fun _ _ hc => .inl (hfunctions ▸ hc))
    (fun e v hv => .inl (hframes e v hv))

/-- A method that is found, bound to an instance whose class descends from that where it was looked for. -/
theorem bind (hm : h.MethodsBound) (hscoped : h.Scoped) {o : InstanceId} {own k : ClassId} {name : Text}
    {c : Closure} (hown : h.classOf? o = some own)
    (hdescends : ∀ k', h.isSubclass k k' = true → h.isSubclass own k' = true)
    (hc : h.method? k name = some c) : (h.bind c o).1.MethodsBound := by
  obtain ⟨f, hf, hstored⟩ := Option.bind_eq_some_iff.1 hc
  obtain ⟨k', hk', hsub⟩ := exists_isSubclass hf
  obtain ⟨c', hc', hname, -, hslot⟩ := hm.stored k' name f hk'
  obtain rfl := Option.some.inj (hstored.symm.trans hc')
  have hl := Later.bind h c o
  have hopened := Later.openWith h c.scope thisName (.instanceValue o)
  have hclass : ∃ info, h.classes[k']? = some info := by
    obtain ⟨info, hinfo, -⟩ := Option.bind_eq_some_iff.1 hk'
    exact ⟨info, hinfo⟩
  -- The new closure is the stored one in a scope of its own, which holds the instance.
  have hnew : (h.bind c o).1.Binding { c with scope := h.forest.scopes.size } o k' c := by
    refine ⟨⟨f, ?_, hl.functions f c hstored⟩, rfl, h.slot?_openWith c.scope thisName _,
      ⟨own, hl.instances o own hown, isSubclass_mono hl.classes (hdescends k' hsub)⟩,
      h.enclosing?_openWith c.scope thisName _, ?_⟩
    · rw [hname]
      exact hl.ownMethod? hk'
    · rw [hl.reserved _ (hscoped f c hstored) _ not_plain_super, hl.superclass? hclass]
      exact hslot
  -- One function and one scope are new; each is accounted for by the binding.
  refine hm.of_later hscoped hl (fun _ _ hk => .inl hk) (fun f' c' hc' => ?_) (fun e v hv => ?_)
  · change ((h.functions.push _)[f']?) = some c' at hc'
    rw [Array.getElem?_push] at hc'
    split at hc'
    · obtain rfl := Option.some.inj hc'
      refine .inr fun v hv => ⟨o, k', c, ?_, hnew⟩
      exact Option.some.inj (hv.symm.trans hnew.receiver)
    · exact .inl hc'
  · have hslot := (Forest.slot?_define (h.newScope (some c.scope)).1.forest h.forest.scopes.size e thisName
      thisName (.instanceValue o)).symm.trans hv
    split at hslot
    · next heq => exact .inr ⟨_, _, h.functions_bind c o, heq.1.symm⟩
    · have hold := (h.forest.slot?_new (some c.scope) e thisName).symm.trans hslot
      exact .inl (Forest.lt_size_of_slot? hold)

/-- Where a scope leads to an instance as `this` and right outside of that to a class as `super`, it is in a
method of a class with that superclass, bound to that instance. -/
theorem of_super (hm : h.MethodsBound) {e : ScopeId} {d : Nat} {p : ClassId} {o : InstanceId}
    (hp : h.forest.getAt? e (d + 1) superName = some (.classValue p))
    (ho : h.forest.getAt? e d thisName = some (.instanceValue o)) :
    ∃ (f : FunctionId) (c : Closure) (k : ClassId) (stored : Closure), h.functions[f]? = some c ∧
      h.forest.ancestor? e d = some c.scope ∧ h.Binding c o k stored ∧ h.superclass? k = some p := by
  obtain ⟨a, ha, hthis⟩ := Forest.slot?_of_getAt? ho nofun
  obtain ⟨f, c, hc, rfl⟩ := hm.frames a _ hthis
  obtain ⟨o', k, stored, ho', hbinding⟩ := hm.bound f c _ hc hthis
  obtain rfl := Value.instanceValue.inj ho'
  obtain ⟨outer, houter, hsuper⟩ := Forest.slot?_of_getAt? hp nofun
  obtain rfl := Forest.ancestor?_succ ha hbinding.enclosing houter
  refine ⟨f, c, k, stored, hc, ha, hbinding, ?_⟩
  rw [hbinding.super] at hsuper
  obtain ⟨p', hp', heq⟩ := Option.map_eq_some_iff.1 hsuper
  rw [hp', Value.classValue.inj heq]

end MethodsBound

end Heap

namespace World.LaidOut

variable {walk : Walk} {recorded : Site → Option Nat} {w w' : World (List ScopeKind)}

section

variable (hw : w.LaidOut (methodLayout walk))

include hw

/-- Only a scope that was made for a method holds `this`. -/
theorem head?_of_this {e : ScopeId} {v : Value}
    (hv : w.heap.forest.slot? e thisName = some v) : ∃ r, (w.place e).head? = some (.this r) := by
  obtain ⟨hname, -⟩ := hw.slots e thisName v hv
  rcases hname with hplain | ⟨-, hr⟩ | ⟨hsuper, -⟩
  · exact absurd hplain not_plain_this
  · exact hr
  · exact absurd hsuper Heap.this_ne_super

theorem head?_of_super {e : ScopeId} {v : Value}
    (hv : w.heap.forest.slot? e superName = some v) : (w.place e).head? = some .super := by
  obtain ⟨hname, -⟩ := hw.slots e superName v hv
  rcases hname with hplain | ⟨hthis, -⟩ | ⟨-, hsuper⟩
  · exact absurd hplain not_plain_super
  · exact absurd hthis.symm Heap.this_ne_super
  · exact hsuper

theorem heap_scoped : w.heap.Scoped := hw.functions

/-- A function outside of a scope with `this` leaves the methods bound as they are. -/
theorem methodsBound_newFunction (hm : w.heap.MethodsBound) {c : Closure}
    (hc : ∀ r, (w.place c.scope).head? ≠ some (.this r)) : (w.heap.newFunction c).1.MethodsBound := by
  refine hm.of_later hw.heap_scoped (.newFunction w.heap c) (fun _ _ hk => .inl hk) (fun f c' hc' => ?_)
    (fun e v hv => .inl (Forest.lt_size_of_slot? hv))
  unfold Heap.newFunction at hc'
  rw [Array.getElem?_push] at hc'
  split at hc'
  · obtain rfl := Option.some.inj hc'
    refine .inr fun v hv => ?_
    obtain ⟨r, hr⟩ := hw.head?_of_this hv
    exact absurd hr (hc r)
  · exact .inl hc'

end

/-- A move leads to a later heap. -/
theorem later_move (hmove : (methodLayout walk).Move recorded w w') : w.heap.Later w'.heap := by
  cases hmove with
  | define hname => exact .define hname _
  | newScope => exact .newScope _ _
  | function | method => exact .newFunction _ _
  | openSuper => exact .openWith _ _ _ _
  | newClass => exact .newClass _ _
  | newInstance => exact .newInstance _ _
  | setField | removeField => exact .modifyFields _ _ _ fun _ => rfl
  | bindOwn | bindSuper => exact .bind _ _ _

/-- What a program does to a heap leaves methods bound to instances of their classes. -/
theorem methodsBound_move (hwalk : walk.Lawful recorded) (hw : w.LaidOut (methodLayout walk))
    (hm : w.heap.MethodsBound) (hmove : (methodLayout walk).Move recorded w w') : w'.heap.MethodsBound := by
  have hlater := later_move hmove
  cases hmove with
  | @define e name v hname hv =>
    refine hm.of_same hw.heap_scoped hlater rfl rfl fun e' v' hv' => ?_
    have hlt := Forest.lt_size_of_slot? hv'
    rwa [show (w.heap.define e name v).forest = w.heap.forest.define e name v from rfl,
      Forest.size_define] at hlt
  | @newScope outer j houter hopens =>
    refine hm.of_same hw.heap_scoped hlater rfl rfl fun e v hv => ?_
    exact Forest.lt_size_of_slot? ((w.heap.forest.slot?_new (some outer) e thisName).symm.trans hv)
  | function he hr =>
    -- A declared function never closes over the scope of an instance directly.
    exact hw.methodsBound_newFunction hm fun r hhead => absurd (hr.1 _ hhead) nofun
  | @openSuper outer k j houter hopens hj hk =>
    refine hm.of_same hw.heap_scoped hlater rfl rfl fun e v hv => ?_
    have hslot := (Forest.slot?_define (w.heap.newScope (some outer)).1.forest w.heap.forest.scopes.size e
      superName thisName (.classValue k)).symm.trans hv
    rw [if_neg (fun h => Heap.this_ne_super h.2.1)] at hslot
    exact Forest.lt_size_of_slot? ((w.heap.forest.slot?_new (some outer) e thisName).symm.trans hslot)
  | method initializer he hr => exact hw.methodsBound_newFunction hm hr.1
  | newClass info hmethods hnone hsome =>
    refine hm.of_later hw.heap_scoped hlater (fun k info' hk => ?_) (fun _ _ hc => .inl hc)
      (fun e v hv => .inl (Forest.lt_size_of_slot? hv))
    unfold Heap.newClass at hk
    rw [Array.getElem?_push] at hk
    split at hk
    · next heq =>
      obtain rfl := Option.some.inj hk
      refine .inr ⟨fun p hp => heq ▸ (hsome p hp).1, fun name f hf => ?_⟩
      obtain ⟨c, hc, rfl, hname, hflag, -⟩ := hmethods name f hf
      refine ⟨c, hc, hname, hflag, ?_⟩
      cases hsuper : info.superclass with
      | none =>
        -- Where a class without a superclass is declared, no scope holds a superclass.
        obtain ⟨t, methods, hplain, -⟩ := hnone hsuper
        rw [Option.map_none, Option.eq_none_iff_forall_ne_some]
        intro v hv
        exact absurd (hplain _ (hw.head?_of_super hv)) nofun
      | some p => exact (hsome p hsuper).2
    · exact .inl hk
  | newInstance | setField | removeField =>
    exact hm.of_same hw.heap_scoped hlater rfl rfl fun e v hv => Forest.lt_size_of_slot? hv
  | bindOwn hk hc => exact hm.bind hw.heap_scoped hk (fun _ h => h) hc
  | bindSuper he hk ho hc =>
    obtain ⟨r, d, -, hrecorded, -⟩ := MethodLayout.inside_of_super hwalk he
    rw [hrecorded] at hk ho
    obtain ⟨f, c', k', stored, -, -, hbinding, hsuper⟩ := hm.of_super hk ho
    obtain ⟨own, hown, hsub⟩ := hbinding.descends
    -- The instance descends from the class of the method that runs, hence from its superclass.
    have hparent := Heap.isSubclass_superclass hsuper (hm.older k' _ hsuper)
    exact hm.bind hw.heap_scoped hown
      (fun _ h => Heap.isSubclass_trans (Heap.isSubclass_trans hsub hparent) h) hc

/-- What is laid out for a walk is so for one that comes to more phrases. -/
theorem mono_walk {walk' : Walk} (hw : w.LaidOut (methodLayout walk)) (hfounded : w.Founded (methodLayout walk))
    (hwalk : ∀ b n, walk b n → walk' b n) : w.LaidOut (methodLayout walk') ∧ w.Founded (methodLayout walk') := by
  have hroutine : ∀ i r, (methodLayout walk).routine i r → (methodLayout walk').routine i r := by
    rintro i r ⟨hhead, b, context, hvisit, hstands⟩
    exact ⟨hhead, b, context, hwalk _ _ hvisit, hstands⟩
  have hmethod : ∀ i r, (methodLayout walk).method i r → (methodLayout walk').method i r := by
    rintro i r ⟨hhead, b, context, scopes, hvisit, hrest⟩
    exact ⟨hhead, b, context, scopes, hwalk _ _ hvisit, hrest⟩
  exact ⟨hw.mono rfl rfl rfl rfl hroutine hmethod, fun f c hc => (hfounded f c hc).imp (hroutine _ _) (hmethod _ _)⟩

end World.LaidOut

/-- From inside a method the scopes lead out to the one that was made for it. -/
theorem Inside.head?_of_out {walk : Walk} {r : Routine} {d : Nat} {i j : List ScopeKind} (h : Inside r d i)
    (hout : (methodLayout walk).Out d i j) : j.head? = some (.this r) := by
  induction h with
  | method i =>
    cases hout
    rfl
  | scope _ ih =>
    obtain _ | ⟨⟨kind, hkind⟩, hout⟩ := hout
    obtain ⟨-, rfl⟩ := List.cons.inj hkind
    exact ih hout

/-- What a machine does at `super`: it is in a method that the reference belongs to, which some class has,
bound to an instance. The method of the name is looked for from the superclass of that class on, and is bound
to the same instance. -/
def Machine.SelectsSuper (limits : Limits) (m : Machine) (ref : Reference) (name : Token) : Prop :=
  ∃ (f : FunctionId) (c : Closure) (o : InstanceId) (k : ClassId) (stored : Closure) (d : Nat) (p : ClassId),
    m.store.heap.functions[f]? = some c ∧ m.store.heap.Binding c o k stored ∧
    ref ∈ stored.routine.supers ∧ m.store.heap.forest.ancestor? m.store.scope d = some c.scope ∧
    m.store.heap.superclass? k = some p ∧
    m.step limits = match m.store.heap.method? p name.lexeme with
      | none => raise name (.undefinedProperty name.lexeme) m.tasks m.store
      | some method =>
        ⟨.deliver (.function (m.store.bind method o).2), m.tasks, (m.store.bind method o).1⟩

/-- In a run that is laid out, `super` selects from the superclass of the class of the method. -/
theorem Machine.LaidOut.selectsSuper {walk : Walk} {recorded : Site → Option Nat}
    {place : ScopeId → List ScopeKind} {m : Machine} (hwalk : walk.Lawful recorded)
    (hm : m.LaidOut (methodLayout walk) recorded place) (hsound : m.Sound walk recorded)
    (hbound : m.store.heap.MethodsBound) (hfounded : (World.mk m.store.heap place).Founded (methodLayout walk))
    (limits : Limits) {ref : Reference} {name : Token}
    (hcontrol : m.control = .evaluate (.super ref name)) : m.SelectsSuper limits ref name := by
  obtain ⟨control, tasks, s⟩ := m
  obtain rfl : control = _ := hcontrol
  obtain ⟨r, d, hinside, hrecorded, href⟩ := MethodLayout.inside_of_super hwalk hm.control
  have hresolves : Usage.super.Resolves s.heap.forest recorded s.scope ref :=
    hsound.control.1.2 (.super, ref) (.head _)
  obtain ⟨d', hd', -, ⟨p, hp⟩, o, ho⟩ := hresolves
  obtain rfl : d' = d := Nat.succ.inj (Option.some.inj (hd'.symm.trans hrecorded))
  obtain ⟨f, c, k, stored, hc, ha, hbinding, hsuper⟩ := hbound.of_super hp ho
  -- The scope with the instance was made for the method that the reference belongs to.
  have hhead : (place c.scope).head? = some (.this r) := hinside.head?_of_out (hm.world.out ha)
  have hr : r = stored.routine := by
    have hroutine : c.routine = stored.routine := by rw [hbinding.bound]
    rcases hfounded f c hc with hcallable | hmethod
    · exact (hcallable.1 r hhead).trans hroutine
    · exact absurd hhead (hmethod.1 r)
  refine ⟨f, c, o, k, stored, d', p, hc, hbinding, hr ▸ href, ha, hsuper, ?_⟩
  change superMethod ref name tasks s = _
  unfold superMethod
  dsimp only
  rw [hsound.store.bindings, hd', Option.getD_some, hp, Nat.add_sub_cancel]
  cases hmethod : s.heap.method? p name.lexeme <;> simp only [ho, hmethod]

namespace Session

/-- A session whose scopes stand in the methods of the programs that it has run, and whose functions with an
instance are bound methods. -/
structure MethodsBound (s : Session) (programs : List Program) : Prop where
  world : ∃ place, (World.mk s.store.heap place).LaidOut (methodLayout (Visited programs)) ∧
    (World.mk s.store.heap place).Founded (methodLayout (Visited programs))
  heap : s.store.heap.MethodsBound

section

variable {s : Session} {programs : List Program}

/-- An accepted source is laid out at the top beside the programs before it. -/
theorem MethodsBound.start (hs : s.MethodsBound programs)
    (hsound : s.Sound programs) {source : Text} (hsource : s.Accepts source) :
    ∃ place, (s.start source).LaidOut (methodLayout (Visited (s.program source :: programs)))
        (s.distances source) place ∧
      (World.mk s.store.heap place).Founded (methodLayout (Visited (s.program source :: programs))) := by
  obtain ⟨place, hworld, hfounded⟩ := hs.world
  obtain ⟨hworld, hfounded⟩ : (World.mk s.store.heap place).LaidOut
      (methodLayout (Visited (s.program source :: programs))) ∧ _ :=
    hworld.mono_walk hfounded fun b n ⟨program, hprogram, hvisits⟩ => ⟨program, .tail _ hprogram, hvisits⟩
  have hprogram : ∀ stmt ∈ s.program source,
      (methodLayout (Visited (s.program source :: programs))).stmt [] stmt :=
    MethodLayout.stmt_of_mem (hsound.opening hsource).lawful (by simp) ⟨s.program source, .head _, .start⟩
      ⟨.nil, nofun⟩
  exact ⟨place, .start (s := s.opening source) (fun _ => rfl) hworld hprogram, hfounded⟩

/-- Everything in the run of an accepted source stands in the methods around it. -/
theorem MethodsBound.machine (hs : s.MethodsBound programs) (hsound : s.Sound programs) {source : Text}
    (hsource : s.Accepts source) (limits : Limits) (steps : Nat) :
    ∃ place, ((s.start source).run limits steps).LaidOut
        (methodLayout (Visited (s.program source :: programs)))
        (s.distances source) place ∧
      ((s.start source).run limits steps).store.heap.MethodsBound ∧
      (World.mk ((s.start source).run limits steps).store.heap place).Founded
        (methodLayout (Visited (s.program source :: programs))) := by
  obtain ⟨place, hstart, hfounded⟩ := hs.start hsound hsource
  have hwalk := (hsound.opening hsource).lawful
  have hlawful := MethodLayout.lawful hwalk
  exact hstart.run (P := fun w => w.heap.MethodsBound ∧ w.Founded (methodLayout _)) hlawful limits
    (fun hw hm hmove => ⟨hw.methodsBound_move hwalk hm.1 hmove, hw.founded_move hlawful hm.2 hmove⟩) steps
    ⟨hs.heap, hfounded⟩

end

/-- Whatever a session is asked, its functions with an instance are bound methods. -/
theorem methodsBound_serveAll (color showTrace : Bool) (requests : List Request) :
    (serveAll color showTrace requests).MethodsBound ((new color showTrace).history requests) := by
  refine serveAll_induction ?_ (fun h hstore => ⟨hstore ▸ h.world, hstore ▸ h.heap⟩) ?_ requests
  · have hworld : World.LaidOut (methodLayout (Visited [])) _ := .initial MethodLayout.native_plain
    refine ⟨⟨_, hworld, fun f c hc => ?_⟩, fun k p hp => ?_, fun k name f hf => ?_, fun f c v hc => ?_, fun e v hv => ?_⟩
    · simp [Session.new, Store.initial, Heap.initial, Heap.empty] at hc
    · simp [Session.new, Store.initial, Heap.superclass?, Heap.initial, Heap.empty] at hp
    · simp [Session.new, Store.initial, Heap.ownMethod?, Heap.initial, Heap.empty] at hf
    · simp [Session.new, Store.initial, Heap.initial, Heap.empty] at hc
    · obtain ⟨r, hr⟩ := hworld.head?_of_this hv
      cases hr
  · intro s programs source hsound h hsource limits steps
    obtain ⟨hstore, -, -⟩ := run_of_accepts hsource limits steps
    obtain ⟨place, hlaid, hbound, hfounded⟩ := h.machine hsound hsource limits steps
    exact ⟨⟨place, hstore ▸ hlaid.world, hstore ▸ hfounded⟩, hstore ▸ hbound⟩

/-- In every state of the run of an accepted source, every function whose scope holds an instance as `this` is
a method that some class has under its name, bound to an instance of that class or of a descendant; the scope
around is that of the method, and holds the superclass of the class as `super`. And `super` inside a method of
a class, or in functions nested in it, finds methods from the superclass of that class on, whatever the class
of the instance, and binds them to the same instance. -/
theorem run_boundMethods (color showTrace : Bool) (requests : List Request) {source : Text}
    (hsource : (serveAll color showTrace requests).Accepts source) :
    ∃ m₀, ((serveAll color showTrace requests).prepare source).2.2 = some m₀ ∧ ∀ limits steps,
      (∀ (f : FunctionId) c v, (m₀.run limits steps).store.heap.functions[f]? = some c →
        (m₀.run limits steps).store.heap.forest.slot? c.scope thisName = some v →
        ∃ o k stored, v = .instanceValue o ∧ (m₀.run limits steps).store.heap.Binding c o k stored) ∧
      ∀ ref name, (m₀.run limits steps).control = .evaluate (.super ref name) →
        (m₀.run limits steps).SelectsSuper limits ref name := by
  have h := sound_serveAll color showTrace requests
  obtain ⟨-, -, hmachine⟩ := prepare_of_accepts hsource
  have hwalk := (h.opening hsource).lawful
  refine ⟨_, hmachine, fun limits steps => ?_⟩
  obtain ⟨place, hlaid, hbound, hfounded⟩ :=
    (methodsBound_serveAll color showTrace requests).machine h hsource limits steps
  have hsound := (h.start source).run hwalk limits steps
  exact ⟨hbound.bound, fun ref name hcontrol => hlaid.selectsSuper hwalk hsound hbound hfounded limits hcontrol⟩

end Session

/-- A method that refers to the method of its superclass, called on an instance. -/
def superSource : Text :=
  text "class A\x7bf()\x7b\x7d\x7dclass B<A\x7bf()\x7bsuper.f;\x7d\x7dB().f();"

theorem superSource_accepts : (Session.new false false).Accepts superSource := by decide +kernel

/-- After some steps the method is about to refer to that of its superclass, which is bound to the same
instance. -/
theorem Session.run_boundMethods_super :
    (serveAll false false []).Accepts superSource ∧
    ∃ m₀, ((serveAll false false []).prepare superSource).2.2 = some m₀ ∧
      ∃ ref name, (m₀.run ⟨10, fun _ => ⟨0⟩⟩ 18).control = .evaluate (.super ref name) ∧
        (m₀.run ⟨10, fun _ => ⟨0⟩⟩ 18).SelectsSuper ⟨10, fun _ => ⟨0⟩⟩ ref name := by
  obtain ⟨m₀, hm₀, hrun⟩ := run_boundMethods false false [] superSource_accepts
  have hown : (m₀.run ⟨10, fun _ => ⟨0⟩⟩ 18).control.phrase?.map Phrase.own =
      some [(.super, ⟨18, ⟨.superWord, text "super", none, 1⟩⟩)] := by
    rw [eq_start superSource_accepts hm₀]
    decide +kernel
  obtain ⟨n, hn, hsuper⟩ := Option.map_eq_some_iff.1 hown
  obtain ⟨ref, name, rfl⟩ : ∃ ref name, n = .expr (.super ref name) := by
    unfold Phrase.own at hsuper
    split at hsuper
    case h_4 ref name => exact ⟨ref, name, rfl⟩
    all_goals cases hsuper
  have hcontrol := Control.phrase?_eq_expr.1 hn
  exact ⟨superSource_accepts, m₀, hm₀, ref, name, hcontrol, (hrun _ 18).2 ref name hcontrol⟩

end Lox
