import Lox.Proofs.Chains

/-!
# Attributes of instances

The fields of an instance are a map of its own over the methods that it inherits. A property is read
directly, by a program or by `getattr`, a field is stored directly, by a program or by `setattr`, and it is
removed directly or by `delattr`. Whatever the order in which fields of any instances are stored and removed,
the three ways to read agree: they give the value that was stored last and not removed since, or else the
method of the nearest class, bound to the instance, and otherwise they fail
(`Store.reads_attributes`).

All of this follows from what an operation puts where (`AttributeOperation.put?`, `Store.heap_perform`).
-/

namespace Lox

/-! ## Reading and removing -/

namespace Heap

/-- Reads a property: its value, with the heap after a method is bound. -/
def get? (h : Heap) (o : InstanceId) (name : Text) : Option (Heap × Value) := (h.property? o name).map (h.take o)

/-- Removes a field, if it is there. -/
def delete? (h : Heap) (o : InstanceId) (name : Text) : Option Heap :=
  (h.field? o name).map fun _ => h.removeField o name

/-- Classes are made after their superclasses, and their methods are functions. -/
structure Classed (h : Heap) : Prop where
  older : ∀ k p, h.superclass? k = some p → p < k
  methods : ∀ k name f, h.ownMethod? k name = some f → ∃ c, h.functions[f]? = some c

theorem MethodsBound.classed {h : Heap} (hh : h.MethodsBound) : h.Classed :=
  ⟨hh.older, fun k name f hf => (hh.stored k name f hf).imp fun _ hc => hc.1⟩

/-- A function is a method, in a scope of its own with an instance as `this`. -/
def BoundTo (h : Heap) (method : Closure) (o : InstanceId) (f : FunctionId) : Prop :=
  ∃ e, h.functions[f]? = some { method with scope := e } ∧ h.forest.enclosing? e = some method.scope ∧
    h.forest.slot? e thisName = some (.instanceValue o)

theorem bind_boundTo (h : Heap) (method : Closure) (o : InstanceId) :
    (h.bind method o).1.BoundTo method o (h.bind method o).2 :=
  ⟨_, h.functions_bind method o, h.enclosing?_openWith method.scope thisName _,
    h.slot?_openWith method.scope thisName _⟩

end Heap

/-- The value that a step hands on, with the heap; none if it fails. -/
def Machine.answer? (m : Machine) : Option (Heap × Value) :=
  match m.control with
  | .deliver v => some (m.store.heap, v)
  | _ => none

/-- What a call of a built-in function gives, with the heap; none if it fails. -/
def NativeResult.answer? (h : Heap) : NativeResult → Option (Heap × Value)
  | .accepted action => some (action.perform h)
  | _ => none

/-- A property is read in three ways, which all give the same answer. -/
structure Store.Answers (s : Store) (limits : Limits) (o : InstanceId) (name : Text)
    (answer : Option (Heap × Value)) : Prop where
  get : s.heap.get? o name = answer
  property : ∀ (t : Token) tasks, t.lexeme = name →
    (Machine.step limits ⟨.deliver (.instanceValue o), .get t :: tasks, s⟩).answer? = answer
  getattr : ∀ paren tasks,
    (Machine.callNative limits .getattr [.instanceValue o, .string name] paren tasks s).answer? = answer

namespace Machine

variable (limits : Limits) (n : Native) (args : List Value) (paren : Token) (tasks : List Task) (s : Store)

theorem callNative_answer? : (callNative limits n args paren tasks s).answer? =
    (n.call (limits.clock s.readings) s.heap args).answer? s.heap := by
  unfold callNative
  dsimp only [pushFrame]
  cases n.call (limits.clock s.readings) s.heap args <;> rfl

theorem heap_callNative : (callNative limits n args paren tasks s).store.heap =
    (((n.call (limits.clock s.readings) s.heap args).answer? s.heap).map Prod.fst).getD s.heap := by
  unfold callNative
  dsimp only [pushFrame]
  cases n.call (limits.clock s.readings) s.heap args <;> rfl

/-- A call of a built-in function that gives nothing leaves the heap as it is. -/
theorem heap_apply_native (h : (apply limits (.native n) args paren tasks s).answer? = none) :
    (apply limits (.native n) args paren tasks s).store.heap = s.heap := by
  dsimp only [apply, Heap.arity?] at h ⊢
  split_ifs at h ⊢
  · rfl
  · rfl
  · rw [callNative_answer?] at h
    rw [heap_callNative, h]
    rfl

end Machine

/-- A property is answered alike by an expression with a dot and by the built-in functions. -/
theorem Store.answers (s : Store) (limits : Limits) (o : InstanceId) (name : Text) :
    s.Answers limits o name (s.heap.get? o name) where
  get := rfl
  property t tasks ht := by
    dsimp only [Machine.step, Machine.resume]
    rw [ht, Heap.get?]
    cases s.heap.property? o name <;> rfl
  getattr paren tasks := by
    rw [Machine.callNative_answer?, Heap.get?]
    dsimp only [Native.call, Native.attributeOf]
    cases s.heap.property? o name <;> rfl

/-! ## Operations -/

/-- Something put under a name of an instance: a value, or nothing if the name is removed. -/
structure Put where
  object : InstanceId
  name : Text
  value : Option Value

/-- An operation on fields: directly, as a program assigns to a property, and by a call of a built-in
function with any arguments. -/
inductive AttributeOperation where
  | set (o : InstanceId) (name : Text) (v : Value)
  | delete (o : InstanceId) (name : Text)
  | assign (o : InstanceId) (name : Token) (v : Value)
  | setattr (object name v : Value) (paren : Token)
  | delattr (object name : Value) (paren : Token)

/-- What an operation puts where. -/
def AttributeOperation.put? : AttributeOperation → Option Put
  | .set o name v | .setattr (.instanceValue o) (.string name) v _ => some ⟨o, name, some v⟩
  | .assign o name v => some ⟨o, name.lexeme, some v⟩
  | .delete o name | .delattr (.instanceValue o) (.string name) _ => some ⟨o, name, none⟩
  | _ => none

/-- The value under a name of an instance after something is put somewhere. -/
def Put.after (o : InstanceId) (name : Text) (stored : Option Value) : Option Put → Option Value
  | some p => if p.object = o ∧ p.name = name then p.value else stored
  | none => stored

/-- The value last stored under a name of an instance and not removed since. -/
def AttributeOperation.lastStored (o : InstanceId) (name : Text) (stored : Option Value)
    (ops : List AttributeOperation) : Option Value :=
  ops.foldl (fun stored op => Put.after o name stored op.put?) stored

def Store.perform (limits : Limits) (s : Store) : AttributeOperation → Store
  | .set o name v => { s with heap := s.heap.setField o name v }
  | .delete o name => { s with heap := (s.heap.delete? o name).getD s.heap }
  | .assign o name v => (Machine.step limits ⟨.deliver v, [.setValue name o], s⟩).store
  | .setattr object name v paren => (Machine.callNative limits .setattr [object, name, v] paren [] s).store
  | .delattr object name paren => (Machine.callNative limits .delattr [object, name] paren [] s).store

/-- Puts something somewhere. -/
def Heap.put (h : Heap) : Option Put → Heap
  | some ⟨o, name, some v⟩ => h.setField o name v
  | some ⟨o, name, none⟩ => (h.delete? o name).getD h
  | none => h

/-- An operation does to the heap what it puts, and nothing else. -/
theorem Store.heap_perform (limits : Limits) (s : Store) (op : AttributeOperation) :
    (s.perform limits op).heap = s.heap.put op.put? := by
  cases op with
  | set | delete | assign => rfl
  | setattr object name v paren =>
    refine (Machine.heap_callNative ..).trans ?_
    cases object with
    | instanceValue => cases name <;> rfl
    | _ => rfl
  | delattr object name paren =>
    refine (Machine.heap_callNative ..).trans ?_
    cases object with
    | instanceValue o =>
      cases name with
      | string name =>
        dsimp only [Native.call, Native.attributeOf, AttributeOperation.put?, Heap.put, Heap.delete?]
        cases s.heap.field? o name <;> rfl
      | _ => rfl
    | _ => rfl

/-! ## What operations keep -/

namespace Heap

variable (h : Heap) (put : Option Put)

theorem put_eq : h.put put = { h with instances := (h.put put).instances } := by
  rcases put with _ | ⟨o, name, _ | v⟩
  · rfl
  · rw [Heap.put, delete?]
    cases h.field? o name <;> rfl
  · rfl

/-- What is put into one instance leaves every other one as it is. -/
theorem instances_put {o : InstanceId} (hne : ∀ p, put = some p → p.object ≠ o) :
    (h.put put).instances[o]? = h.instances[o]? := by
  rcases put with _ | ⟨o', name, _ | v⟩
  · rfl
  · rw [Heap.put, delete?]
    cases h.field? o' name with
    | none => rfl
    | some => exact (Array.getElem?_modify ..).trans (if_neg (hne _ rfl))
  · exact (Array.getElem?_modify ..).trans (if_neg (hne _ rfl))

/-- Setting and deleting a property leaves the classes of instances as they are. -/
theorem classOf?_put (o : InstanceId) : (h.put put).classOf? o = h.classOf? o := by
  have hmodify : ∀ o' g, (∀ i : InstanceInfo, (g i).classId = i.classId) →
      ((h.instances.modify o' g)[o]?).map (·.classId) = h.instances[o]?.map (·.classId) := by
    intro o' g hg
    rw [Array.getElem?_modify]
    split
    · rw [Option.map_map]
      exact congrArg (Option.map · _) (funext hg)
    · rfl
  rcases put with _ | ⟨o', name, _ | v⟩
  · rfl
  · rw [Heap.put, delete?]
    cases h.field? o' name with
    | none => rfl
    | some => exact hmodify o' _ fun _ => rfl
  · exact hmodify o' _ fun _ => rfl

/-- A field of an instance after a property was set or deleted. -/
theorem field?_put {o : InstanceId} (ho : o < h.instances.size) (name : Text) :
    (h.put put).field? o name = Put.after o name (h.field? o name) put := by
  rcases put with _ | ⟨o', name', _ | v⟩
  · rfl
  · rw [Heap.put, delete?, Put.after]
    split
    · next heq =>
      obtain ⟨rfl, rfl⟩ := heq
      cases hfield : h.field? o' name' with
      | none => exact hfield
      | some => exact field?_removeField.trans (if_pos ⟨rfl, rfl⟩)
    · next hne =>
      cases h.field? o' name' with
      | none => rfl
      | some => exact field?_removeField.trans (if_neg fun heq => hne ⟨heq.1.symm, heq.2.symm⟩)
  · refine field?_setField.trans (if_congr ?_ rfl rfl)
    constructor
    · exact fun heq => ⟨heq.1.symm, heq.2.1.symm⟩
    · exact fun heq => ⟨heq.1.symm, heq.2.symm, heq.1.trans_lt ho⟩

end Heap

/-- What a sequence of operations does not change: everything but the fields. -/
structure Heap.Keeps (h h' : Heap) : Prop where
  functions : h'.functions = h.functions
  classes : h'.classes = h.classes
  classOf : ∀ o, h'.classOf? o = h.classOf? o

theorem Heap.keeps_put (h : Heap) (put : Option Put) : h.Keeps (h.put put) := by
  refine ⟨?_, ?_, h.classOf?_put put⟩ <;> rw [h.put_eq]

theorem Heap.lt_size_of_classOf? {h : Heap} {o : InstanceId} {k : ClassId} (hk : h.classOf? o = some k) :
    o < h.instances.size := by
  obtain ⟨i, hi, -⟩ := Option.map_eq_some_iff.1 hk
  exact (Array.getElem?_eq_some_iff.1 hi).1

namespace Store

variable {s : Store} {o : InstanceId} {k : ClassId} (limits : Limits)

/-- Operations on properties leave classes and methods as they are. -/
theorem keeps_foldl (s : Store) (ops : List AttributeOperation) :
    s.heap.Keeps (ops.foldl (perform limits) s).heap := by
  induction ops generalizing s with
  | nil => exact ⟨rfl, rfl, fun _ => rfl⟩
  | cons op ops ih =>
    have hstep := s.heap.keeps_put op.put?
    rw [← heap_perform limits] at hstep
    have hrest := ih (s.perform limits op)
    exact ⟨hrest.functions.trans hstep.functions, hrest.classes.trans hstep.classes,
      fun o => (hrest.classOf o).trans (hstep.classOf o)⟩

/-- After a sequence of operations a field has the value that was stored last and not removed since. -/
theorem field?_foldl (hk : s.heap.classOf? o = some k) (name : Text) (ops : List AttributeOperation) :
    (ops.foldl (perform limits) s).heap.field? o name =
      AttributeOperation.lastStored o name (s.heap.field? o name) ops := by
  induction ops generalizing s with
  | nil => rfl
  | cons op ops ih =>
    have hfield := s.heap.field?_put op.put? (Heap.lt_size_of_classOf? hk) name
    have hk' := (s.heap.classOf?_put op.put? o).trans hk
    rw [← heap_perform limits] at hfield hk'
    rw [List.foldl_cons, ih hk', hfield]
    rfl

/-- After any operations on the fields of instances, a property that was stored last and not removed since
is read in all three ways; otherwise the method of the first class of the chain of superclasses that has
one, bound to the instance; otherwise reading fails. Exactly a field can be removed. An operation on one
instance leaves the others as they are, and so does a call of a built-in function that fails. -/
theorem reads_attributes (hs : s.heap.Classed) (hk : s.heap.classOf? o = some k) (name : Text)
    (ops : List AttributeOperation) :
    let s' := ops.foldl (perform limits) s
    let stored := AttributeOperation.lastStored o name (s.heap.field? o name) ops
    (∀ v, stored = some v → s'.Answers limits o name (some (s'.heap, v))) ∧
    (stored = none → ∃ chain, Lineage s.heap.superclass? k chain ∧
      ((chain.findSome? fun a => s.heap.ownMethod? a name) = none ∧ s'.Answers limits o name none ∨
        ∃ f method h' bound, (chain.findSome? fun a => s.heap.ownMethod? a name) = some f ∧
          s.heap.functions[f]? = some method ∧ s'.Answers limits o name (some (h', .function bound)) ∧
          h'.BoundTo method o bound ∧ h'.instances = s'.heap.instances)) ∧
    ((s'.heap.delete? o name).isSome ↔ stored.isSome) ∧
    (∀ paren tasks,
      (Machine.callNative limits .delattr [.instanceValue o, .string name] paren tasks s').answer?.isSome ↔
        stored.isSome) ∧
    (∀ op : AttributeOperation, (∀ p, op.put? = some p → p.object ≠ o) →
      (s'.perform limits op).heap.instances[o]? = s'.heap.instances[o]?) ∧
    ∀ n args paren tasks, (Machine.apply limits (.native n) args paren tasks s').answer? = none →
      (Machine.apply limits (.native n) args paren tasks s').store.heap = s'.heap := by
  intro s' stored
  have hfield : s'.heap.field? o name = stored := field?_foldl limits hk name ops
  have hkeeps := keeps_foldl limits s ops
  have hanswers := s'.answers limits o name
  refine ⟨fun v hv => ?_, fun hnone => ?_, ?_, fun paren tasks => ?_, fun op hop => ?_,
    fun n args paren tasks => Machine.heap_apply_native limits n args paren tasks s'⟩
  · rwa [Heap.get?, Heap.property?, hfield, hv] at hanswers
  · rw [Heap.get?, Heap.property?, hfield, hnone, hkeeps.classOf, hk] at hanswers
    obtain ⟨chain, hchain⟩ := Lineage.exists_of_older hs.older k
    refine ⟨chain, hchain, ?_⟩
    dsimp only [Option.bind_some] at hanswers
    rw [Heap.method?, Heap.findMethod?_congr hkeeps.classes, Heap.findMethod?_eq hs.older hchain,
      hkeeps.functions] at hanswers
    cases hfound : chain.findSome? fun a => s.heap.ownMethod? a name with
    | none =>
      rw [hfound] at hanswers
      exact .inl ⟨rfl, hanswers⟩
    | some f =>
      obtain ⟨a, -, ha⟩ := List.exists_of_findSome?_eq_some hfound
      obtain ⟨method, hmethod⟩ := hs.methods a name f ha
      rw [hfound, Option.bind_some, hmethod] at hanswers
      exact .inr ⟨f, method, _, _, rfl, hmethod, hanswers, s'.heap.bind_boundTo method o, rfl⟩
  · rw [Heap.delete?, Option.isSome_map, hfield]
  · rw [Machine.callNative_answer?]
    dsimp only [Native.call, Native.attributeOf]
    rw [hfield]
    cases stored <;> simp [NativeResult.answer?]
  · rw [heap_perform]
    exact s'.heap.instances_put op.put? hop

end Store

/-- A heap with a class that inherits a method, and an instance of it. -/
def inheritingHeap : Heap where
  forest := (Forest.empty.new none).1
  functions := #[⟨.mk ⟨.identifier, text "m", none, 1⟩ [] [], Heap.globals, false⟩]
  classes := #[⟨text "A", none, Table.empty.insert (text "m") 0⟩, ⟨text "B", some 0, .empty⟩]
  instances := #[⟨1, .empty⟩]

/-- The superclasses of the heap are older than their classes, and its methods are there. -/
theorem inheritingHeap_classed : inheritingHeap.Classed := by
  refine ⟨fun k p hp => ?_, fun k name f hf => ?_⟩
  · obtain ⟨info, hinfo, hp⟩ := Option.bind_eq_some_iff.1 hp
    obtain ⟨hk, rfl⟩ := Array.getElem?_eq_some_iff.1 hinfo
    obtain _ | _ | k := k
    · cases hp
    · exact Option.some.inj hp ▸ Nat.zero_lt_one
    · exact absurd hk (by simp [inheritingHeap])
  · obtain ⟨info, hinfo, hf⟩ := Option.bind_eq_some_iff.1 hf
    obtain ⟨hk, rfl⟩ := Array.getElem?_eq_some_iff.1 hinfo
    obtain _ | _ | k := k
    · obtain ⟨-, hf⟩ := Option.ite_none_right_eq_some.1 ((Table.get?_insert ..).symm.trans hf)
      exact Option.some.inj hf ▸ ⟨_, rfl⟩
    · cases hf
    · exact absurd hk (by simp [inheritingHeap])

/-- A field covers the inherited method until it is removed. -/
theorem Store.reads_attributes_covered :
    let limits : Limits := ⟨10, fun _ => ⟨0⟩⟩
    let s : Store := { Store.initial with heap := inheritingHeap }
    let paren : Token := ⟨.rightParen, text ")", none, 1⟩
    let covered := s.perform limits (.set 0 (text "m") .nil)
    let uncovered := covered.perform limits (.delattr (.instanceValue 0) (.string (text "m")) paren)
    inheritingHeap.Classed ∧ inheritingHeap.classOf? 0 = some 1 ∧
      covered.Answers limits 0 (text "m") (some (covered.heap, .nil)) ∧
      ∃ method h' bound, inheritingHeap.functions[0]? = some method ∧
        uncovered.Answers limits 0 (text "m") (some (h', .function bound)) ∧ h'.BoundTo method 0 bound := by
  intro limits s paren covered uncovered
  have hs : s.heap.Classed := inheritingHeap_classed
  have hk : s.heap.classOf? 0 = some 1 := rfl
  refine ⟨hs, hk, (reads_attributes limits hs hk _ [.set 0 (text "m") .nil]).1 _ rfl, ?_⟩
  obtain ⟨chain, hchain, h⟩ := (reads_attributes limits hs hk (text "m") [.set 0 (text "m") .nil,
    .delattr (.instanceValue 0) (.string (text "m")) paren]).2.1 rfl
  have hfound : inheritingHeap.findMethod? 1 (text "m") = some 0 := by decide +kernel
  rw [← Heap.findMethod?_eq hs.older hchain, show s.heap.findMethod? 1 (text "m") = some 0 from hfound] at h
  obtain ⟨hnone, -⟩ | ⟨f, method, h', bound, hf, hmethod, hanswers, hbound, -⟩ := h
  · cases hnone
  · obtain rfl := Option.some.inj hf
    exact ⟨method, h', bound, hmethod, hanswers, hbound⟩

end Lox
