import Lox.Machine
import Lox.Proofs.SoundHeap
import Mathlib.Data.List.Basic

/-!
# Operations of a machine on a sound heap

Properties, built-in functions and declarations: each gives valid values and leaves a later, sound heap.
After a declaration the current scope matches the scopes that are open after it.
-/

namespace Lox

/-- A walk that comes from every phrase to its parts. -/
structure Walk.Closed (walk : Walk) : Prop where
  child : ∀ {b c : Binder} {n m : Phrase}, walk b n → (c, m) ∈ n.children b → walk c m

variable {walk : Walk} {h : Heap}

/-- A property that a program may get hold of. -/
def Property.Valid (walk : Walk) (h : Heap) : Property → Prop
  | .field v => v.Valid walk h
  | .method c => c.Unbound walk h.forest

/-- A property of an instance is valid. -/
theorem Heap.Sound.property? (hs : h.Sound walk) {o : InstanceId} {name : Text} {p : Property}
    (hp : h.property? o name = some p) : p.Valid walk h := by
  unfold Heap.property? at hp
  split at hp
  · next v hv =>
    obtain rfl := Option.some.inj hp
    exact hs.fields o name v hv
  · obtain ⟨c, hc, rfl⟩ := Option.map_eq_some_iff.1 hp
    obtain ⟨i, -, hmethod⟩ := Option.bind_eq_some_iff.1 hc
    exact hs.method? hmethod

/-- A later heap that is sound, with a valid value. -/
structure Heap.Gives (walk : Walk) (h : Heap) (result : Heap × Value) : Prop where
  grows : h.Grows result.1
  sound : result.1.Sound walk
  valid : result.2.Valid walk result.1

theorem Heap.Sound.take (hs : h.Sound walk) {o : InstanceId} {p : Property} (hp : p.Valid walk h)
    (ho : o < h.instances.size) : h.Gives walk (h.take o p) := by
  cases p with
  | field v => exact ⟨.refl h, hs, hp⟩
  | method c =>
    obtain ⟨hgrows, hsound, hvalid⟩ := hs.bind hp ho
    exact ⟨hgrows, hsound, hvalid⟩

/-- An action of a built-in function on what a program may get hold of. -/
def NativeAction.Valid (walk : Walk) (h : Heap) : NativeAction → Prop
  | .give v => v.Valid walk h
  | .take o p => o < h.instances.size ∧ p.Valid walk h
  | .store _ _ v => v.Valid walk h
  | .remove _ _ => True

theorem NativeAction.Valid.perform {a : NativeAction} (ha : a.Valid walk h) (hs : h.Sound walk) :
    h.Gives walk (a.perform h) := by
  cases a with
  | give v => exact ⟨.refl h, hs, ha⟩
  | take o p => exact hs.take ha.2 ha.1
  | store o name v => exact ⟨Heap.setField_grows, hs.setField ha, trivial⟩
  | remove o name => exact ⟨Heap.removeField_grows, hs.removeField, trivial⟩

/-- A result of a built-in function that no program breaks. -/
def NativeResult.Valid (walk : Walk) (h : Heap) : NativeResult → Prop
  | .accepted a => a.Valid walk h
  | .refused _ => True
  | .fault _ => False

/-- The built-in functions for properties take an instance and a name. -/
theorem Native.attributeOf_eq_ok {n : Native} {object second : Value} {o : InstanceId} {name : Text}
    (h : n.attributeOf object second = .ok (o, name)) :
    object = .instanceValue o ∧ second = .string name := by
  unfold Native.attributeOf at h
  split at h
  · cases h
    exact ⟨rfl, rfl⟩
  · cases h
  · cases h

/-- A built-in function accepts or refuses valid arguments of the right number. -/
theorem Native.call_valid (hs : h.Sound walk) (n : Native) (now : Number) {args : List Value}
    (hargs : ∀ v ∈ args, v.Valid walk h) (hlength : args.length = n.arity) :
    (n.call now h args).Valid walk h := by
  cases n with
  | clock =>
    obtain rfl := List.eq_nil_of_length_eq_zero hlength
    trivial
  | str =>
    obtain ⟨v, rfl⟩ := List.length_eq_one_iff.1 hlength
    have hv := (hargs v (by simp)).ne_absent
    cases v with
    | absent => exact absurd rfl hv
    | _ => trivial
  | getattr =>
    obtain ⟨object, second, rfl⟩ := List.length_eq_two.1 hlength
    unfold Native.call
    dsimp only
    split
    · trivial
    · next o name hok =>
      obtain ⟨rfl, rfl⟩ := Native.attributeOf_eq_ok hok
      split
      · next p hp => exact ⟨hargs (.instanceValue o) (by simp), hs.property? hp⟩
      · trivial
  | setattr =>
    obtain ⟨object, second, v, rfl⟩ := List.length_eq_three.1 hlength
    unfold Native.call
    dsimp only
    split
    · trivial
    · exact hargs v (by simp)
  | delattr =>
    obtain ⟨object, second, rfl⟩ := List.length_eq_two.1 hlength
    unfold Native.call
    dsimp only
    split
    · trivial
    · split <;> trivial
  | isinstance =>
    obtain ⟨object, c, rfl⟩ := List.length_eq_two.1 hlength
    have hobject := hargs object (by simp)
    unfold Native.call
    dsimp only
    split
    · next o c =>
      have ho : h.instances[o]? = some h.instances[o] := Array.getElem?_eq_getElem hobject
      rw [Heap.classOf?, ho]
      trivial
    · trivial
    · trivial

namespace Store

variable {b : Binder} {methods : List Routine}

/-- A store whose heap is later and sound, and in which the same scope matches given open scopes. -/
structure Reaches (walk : Walk) (s s' : Store) (scopes : List (Table Bool)) : Prop where
  grows : s.heap.Grows s'.heap
  sound : s'.heap.Sound walk
  innermost : Matches s'.heap.forest s.scope scopes
  others : s' = { s with heap := s'.heap }

variable {s : Store} {scopes : List (Table Bool)} {name : Token}

theorem define_reaches (hs : s.heap.Sound walk) (hmatches : Matches s.heap.forest s.scope scopes)
    (hname : Plain name.lexeme) {v : Value} (hv : v.Valid walk (s.define name v).heap) :
    s.Reaches walk (s.define name v) (markInner name.lexeme true scopes) :=
  ⟨Heap.define_grows (.inl hname), hs.define (.inl hname) hv, hmatches.declare hname v, rfl⟩

/-- Declaring a function reaches a sound store. -/
theorem declareRoutine_reaches (hs : s.heap.Sound walk) {r : Routine}
    (hmatches : Matches s.heap.forest s.scope b.scopes) (hname : Plain r.name.lexeme)
    (hvisit : walk ((b.declare r.name).define r.name) (.routine .function r)) :
    s.Reaches walk (s.declareRoutine r) (markInner r.name.lexeme true b.scopes) := by
  have hgrows := s.heap.newFunction_grows ⟨r, s.scope, false⟩
  have hfunction := s.heap.functions_newFunction ⟨r, s.scope, false⟩
  have hsound := hs.newFunction ⟨r, s.scope, false⟩
  have hcallable : (Closure.mk r s.scope false).Callable walk (s.declareRoutine r).heap.forest := by
    refine ⟨_, _, hvisit, nofun, ?_, nofun⟩
    rw [Binder.declared_scopes]
    exact hmatches.declare hname _
  obtain ⟨hgrows', hsound', hinnermost, -⟩ := define_reaches (s := (s.newFunction r false).1)
    hsound hmatches hname (v := .function (s.newFunction r false).2) ⟨_, hfunction, hcallable⟩
  exact ⟨hgrows.trans hgrows', hsound', hinnermost, rfl⟩

/-- Makes the function of one more method. -/
def addMethod (made : Store × Table FunctionId) (m : Routine) : Store × Table FunctionId :=
  let made' := made.1.newFunction m (m.name.lexeme = initName)
  (made'.1, made.2.insert m.name.lexeme made'.2)

theorem makeMethods_eq (s : Store) (methods : List Routine) :
    s.makeMethods methods = methods.foldl addMethod (s, .empty) := rfl

theorem forest_makeMethods (s : Store) (methods : List Routine) :
    (s.makeMethods methods).1.heap.forest = s.heap.forest := by
  rw [makeMethods_eq]
  generalize Table.empty = table
  induction methods generalizing s table with
  | nil => rfl
  | cons m rest ih => exact ih (addMethod (s, table) m).1 (addMethod (s, table) m).2

/-- The functions in a table are methods that are not bound. -/
def AllUnbound (walk : Walk) (made : Store × Table FunctionId) : Prop :=
  ∀ name i, made.2.get? name = some i →
    ∃ closure, made.1.heap.functions[i]? = some closure ∧ closure.Unbound walk made.1.heap.forest

/-- The methods of a class are made in the scope that matches what is open outside of `this`. -/
theorem makeMethods_reaches (hwalk : walk.Closed) (hvisit : walk b (.methods methods))
    (hscopes : b.scopes = .ofList [(thisName, true)] :: scopes) (made : Store × Table FunctionId)
    (hs : made.1.heap.Sound walk) (hmatches : Matches made.1.heap.forest made.1.scope scopes)
    (hmade : AllUnbound walk made) :
    made.1.Reaches walk (methods.foldl addMethod made).1 scopes ∧
      AllUnbound walk (methods.foldl addMethod made) := by
  induction methods generalizing b made with
  | nil => exact ⟨⟨.refl _, hs, hmatches, rfl⟩, hmade⟩
  | cons m rest ih =>
    have hm : walk b (.routine (methodContext m.name) m) := hwalk.child hvisit (by simp [Phrase.children])
    have hrest : walk (m.bind (methodContext m.name) b) (.methods rest) :=
      hwalk.child hvisit (by simp [Phrase.children])
    have halike := m.bind_alike (methodContext m.name) b
    have hgrows := made.1.heap.newFunction_grows ⟨m, made.1.scope, m.name.lexeme = initName⟩
    have hunbound : (Closure.mk m made.1.scope (m.name.lexeme = initName)).Unbound walk
        made.1.heap.forest := by
      refine ⟨b, _, scopes, hm, ?_, hscopes, hmatches⟩
      unfold methodContext
      split <;> simp
    have hadded : AllUnbound walk (addMethod made m) := by
      intro name i hi
      change (made.2.insert _ _).get? name = some i at hi
      rw [Table.get?_insert] at hi
      split at hi
      · obtain rfl := Option.some.inj hi
        exact ⟨_, made.1.heap.functions_newFunction _, hunbound⟩
      · obtain ⟨closure, hclosure, hold⟩ := hmade name i hi
        exact ⟨closure, hgrows.functions i closure hclosure, hold⟩
    obtain ⟨hreaches, hall⟩ := ih hrest (halike.scopes.trans hscopes) (addMethod made m)
      (hs.newFunction _) hmatches hadded
    exact ⟨⟨hgrows.trans hreaches.grows, hreaches.sound, hreaches.innermost, hreaches.others⟩, hall⟩

/-- Makes a class with its methods and puts it under its name in another scope. -/
def finishClass (s : Store) (outer : ScopeId) (name : Token) (superclass : Option ClassId)
    (methods : List Routine) : Store :=
  let made := s.makeMethods methods
  let made' := made.1.newClass ⟨name.lexeme, superclass, made.2⟩
  ({ made'.1 with scope := outer }).define name (.classValue made'.2)

theorem declareClass_none (s : Store) (name : Token) (methods : List Routine) :
    s.declareClass name none methods = (s.define name .nil).finishClass s.scope name none methods := rfl

/-- The store in which the methods of a class with a superclass are made. -/
def openSuper (s : Store) (c : ClassId) : Store :=
  { s with
    heap := (s.heap.openWith s.scope superName (.classValue c)).1
    scope := (s.heap.openWith s.scope superName (.classValue c)).2 }

theorem declareClass_some (s : Store) (name : Token) (c : ClassId) (methods : List Routine) :
    s.declareClass name (some c) methods =
      ((s.define name .nil).openSuper c).finishClass s.scope name (some c) methods := rfl

/-- Making a class of its methods reaches a sound store. -/
theorem finishClass_reaches (hwalk : walk.Closed) (hvisit : walk b (.methods methods))
    (hscopes : b.scopes = .ofList [(thisName, true)] :: scopes) (hs : s.heap.Sound walk)
    (hmatches : Matches s.heap.forest s.scope scopes) {outer : ScopeId} {outers : List (Table Bool)}
    (houter : Matches s.heap.forest outer outers) (hname : Plain name.lexeme) (superclass : Option ClassId) :
    ({ s with scope := outer }).Reaches walk (s.finishClass outer name superclass methods)
      (markInner name.lexeme true outers) := by
  have hempty : AllUnbound walk (s, (Table.empty : Table FunctionId)) := nofun
  obtain ⟨hreaches, hall⟩ := makeMethods_reaches hwalk hvisit hscopes (s, .empty) hs hmatches hempty
  rw [← makeMethods_eq] at hreaches hall
  unfold finishClass
  generalize s.makeMethods methods = made at hreaches hall
  obtain ⟨made, table⟩ := made
  obtain ⟨heap, rfl⟩ : ∃ heap, made = { s with heap } := ⟨_, hreaches.others⟩
  have hgrows := heap.newClass_grows ⟨name.lexeme, superclass, table⟩
  have hsound := hreaches.sound.newClass ⟨name.lexeme, superclass, table⟩ hall
  have houter' := (houter.mono hreaches.grows.forest).mono hgrows.forest
  have hvalid : (heap.newClass ⟨name.lexeme, superclass, table⟩).2 <
      (heap.newClass ⟨name.lexeme, superclass, table⟩).1.classes.size := by
    simp [Heap.newClass]
  obtain ⟨hgrows', hsound', hinnermost, -⟩ := define_reaches
    (s := { s with heap := (heap.newClass ⟨name.lexeme, superclass, table⟩).1, scope := outer })
    hsound houter' hname (v := .classValue (heap.newClass ⟨name.lexeme, superclass, table⟩).2) hvalid
  exact ⟨(hreaches.grows.trans hgrows).trans hgrows', hsound', hinnermost, rfl⟩

/-- Declaring a class without a superclass reaches a sound store. -/
theorem declareClass_reaches_none (hwalk : walk.Closed) (hs : s.heap.Sound walk)
    (hmatches : Matches s.heap.forest s.scope b.scopes) (hname : Plain name.lexeme)
    (hvisit : walk (b.openClass name) (.methods methods)) :
    s.Reaches walk (s.declareClass name none methods) (markInner name.lexeme true b.scopes) := by
  have hnamed := define_reaches hs hmatches hname (v := .nil) trivial
  have hscopes : (b.openClass name).scopes =
      .ofList [(thisName, true)] :: markInner name.lexeme true b.scopes := by
    rw [← b.nameClass_scopes name]
    rfl
  have hfinish := finishClass_reaches hwalk hvisit hscopes hnamed.sound hnamed.innermost
    hnamed.innermost hname none
  rw [declareClass_none]
  rw [markInner_markInner] at hfinish
  exact ⟨hnamed.grows.trans hfinish.grows, hfinish.sound, hfinish.innermost, hfinish.others⟩

/-- Declaring a class with a superclass, which its methods see as `super`. -/
theorem declareClass_reaches_some (hwalk : walk.Closed) (hs : s.heap.Sound walk) {superclass : Reference}
    (hmatches : Matches s.heap.forest s.scope b.scopes) (hname : Plain name.lexeme)
    (hvisit : walk (b.openDerived name superclass) (.methods methods)) {c : ClassId}
    (hc : c < s.heap.classes.size) :
    s.Reaches walk (s.declareClass name (some c) methods) (markInner name.lexeme true b.scopes) := by
  have hnamed := define_reaches hs hmatches hname (v := .nil) trivial
  have hscopes : (b.openDerived name superclass).scopes = .ofList [(thisName, true)] ::
      .ofList [(superName, true)] :: markInner name.lexeme true b.scopes := by
    rw [← b.nameClass_scopes name, ← b.derive_scopes name superclass,
      ← ((b.derive name superclass).bindVariable_alike superclass).scopes]
    rfl
  have hgrows := (s.define name .nil).heap.openWith_grows s.scope superName (.classValue c)
  have hsound := hnamed.sound.openWith (v := .classValue c) hc s.scope superName
  have hsuper := hnamed.sound.matches_openWith hnamed.innermost superName
    (v := .classValue c) (fun heq => absurd heq.symm Heap.this_ne_super) (fun _ => ⟨c, rfl⟩)
  have hfinish := finishClass_reaches (s := (s.define name .nil).openSuper c) hwalk hvisit hscopes
    hsound hsuper (hnamed.innermost.mono hgrows.forest) hname (some c)
  rw [declareClass_some]
  rw [markInner_markInner] at hfinish
  exact ⟨(hnamed.grows.trans hgrows).trans hfinish.grows, hfinish.sound, hfinish.innermost, hfinish.others⟩

end Store

end Lox
