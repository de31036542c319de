import Lox.Proofs.SoundMachine
import Mathlib.Logic.Function.Basic
import Mathlib.Logic.Relation

/-!
# Layouts

The scopes that a program makes while it runs stand at places of the program, and one scope is made inside
another in the way in which the parts of the program stand inside each other. A `Layout` says what the
places are, which place is inside which, and what may stand at a place: expressions, statements, routines
and names. It is lawful if what may stand at a place consists of parts that may stand there, or at a place
inside.

A `World` is a heap with a place for every scope, given once when the scope is made. `Layout.Move` lists what
a program can do to it, each with what it rests on. In a world that is laid out (`World.LaidOut`) scopes hold
names that are declared at their places, and the functions that programs get hold of may be called where they
were made. The methods of classes are not called themselves: they stand outside of the scope with `this`.
-/

namespace Lox

/-- What may stand at the places of a program. -/
structure Layout (ι : Type) where
  top : ι
  /-- A scope at the second place can be made in a scope at the first. -/
  opens : ι → ι → Prop
  /-- A program can put a value under a name in a scope at the place. -/
  declares : ι → Text → Prop
  /-- A scope at the place is made for one name, `this` or `super`. -/
  reserves : ι → Text → Prop
  expr : ι → Expr → Prop
  stmt : ι → Stmt → Prop
  routine : ι → Routine → Prop
  /-- A routine that stands there as a method, outside of the scope with `this`. -/
  method : ι → Routine → Prop

/-- A heap with the places of its scopes. -/
structure World (ι : Type) where
  heap : Heap
  place : ScopeId → ι

namespace Layout

variable {ι : Type} (L : Layout ι)

/-- The place a number of scopes further out. -/
inductive Out : Nat → ι → ι → Prop where
  | here (i : ι) : Out 0 i i
  | further {d : Nat} {i j k : ι} (hopens : L.opens j i) (h : Out d j k) : Out (d + 1) i k

/-- What stands at a place consists of parts that stand there or at a place inside, and assignments are to
names that are declared where they lead. -/
structure Lawful (recorded : Site → Option Nat) : Prop where
  operands : ∀ {i e}, L.expr i e → ∀ e' ∈ e.operands, L.expr i e'
  assigned : ∀ {i ref e d j}, L.expr i (.assign ref e) → recorded ref.site = some d → L.Out d i j →
    L.declares j ref.name
  assignedTop : ∀ {i ref e}, L.expr i (.assign ref e) → recorded ref.site = none →
    L.reserves L.top ref.name → L.declares L.top ref.name
  expression : ∀ {i e}, L.stmt i (.expression e) → L.expr i e
  print : ∀ {i e}, L.stmt i (.print e) → L.expr i e
  returns : ∀ {i t e}, L.stmt i (.returns t (some e)) → L.expr i e
  branch : ∀ {i condition yes no}, L.stmt i (.branch condition yes no) →
    L.expr i condition ∧ L.stmt i yes ∧ ∀ s ∈ no, L.stmt i s
  loop : ∀ {i condition body}, L.stmt i (.loop condition body) → L.expr i condition ∧ L.stmt i body
  block : ∀ {i body}, L.stmt i (.block body) → ∃ j, L.opens i j ∧ ∀ s ∈ body, L.stmt j s
  declaration : ∀ {i t e}, L.stmt i (.variable t e) → L.declares i t.lexeme ∧ ∀ e' ∈ e, L.expr i e'
  function : ∀ {i r}, L.stmt i (.routine r) → L.declares i r.name.lexeme ∧ L.routine i r
  plainClass : ∀ {i t methods}, L.stmt i (.classOf t none methods) →
    L.declares i t.lexeme ∧ ∀ m ∈ methods, L.method i m
  subclass : ∀ {i t ref methods}, L.stmt i (.classOf t (some ref) methods) →
    L.declares i t.lexeme ∧ L.expr i (.variable ref) ∧
      ∃ j, L.opens i j ∧ L.reserves j superName ∧ ∀ m ∈ methods, L.method j m
  call : ∀ {i r}, L.routine i r →
    ∃ j, L.opens i j ∧ (∀ p ∈ r.params, L.declares j p.lexeme) ∧ ∀ s ∈ r.body, L.stmt j s
  bind : ∀ {i r}, L.method i r → ∃ j, L.opens i j ∧ L.reserves j thisName ∧ L.routine j r

end Layout

/-- A value that may be called, if it is a function, and that exists, if it is a class. -/
def Value.Placed {ι : Type} (L : Layout ι) (w : World ι) : Value → Prop
  | .function f => ∃ c, w.heap.functions[f]? = some c ∧ L.routine (w.place c.scope) c.routine
  | .classValue k => k < w.heap.classes.size
  | _ => True

namespace World

variable {ι : Type} (L : Layout ι)

/-- A later heap in a world whose scopes keep their places. -/
abbrev withHeap (w : World ι) (h : Heap) : World ι := ⟨h, w.place⟩

/-- A later heap in a world in which the next scope is made at a place. -/
abbrev withScope (w : World ι) (h : Heap) (j : ι) : World ι :=
  ⟨h, Function.update w.place w.heap.forest.scopes.size j⟩

theorem place_withScope (w : World ι) (h : Heap) (j : ι) :
    (w.withScope h j).place w.heap.forest.scopes.size = j :=
  Function.update_self ..

/-- Every scope has a place, and what it holds may stand there. -/
structure LaidOut (w : World ι) : Prop where
  globals : 0 < w.heap.forest.scopes.size
  top : w.place Heap.globals = L.top
  enclosing : ∀ e outer, w.heap.forest.enclosing? e = some outer →
    outer < w.heap.forest.scopes.size ∧ L.opens (w.place outer) (w.place e)
  slots : ∀ e name v, w.heap.forest.slot? e name = some v →
    (L.declares (w.place e) name ∨ L.reserves (w.place e) name) ∧ v.Placed L w
  fields : ∀ o name v, w.heap.field? o name = some v → v.Placed L w
  functions : ∀ (f : FunctionId) c, w.heap.functions[f]? = some c → c.scope < w.heap.forest.scopes.size
  methods : ∀ k name f, w.heap.ownMethod? k name = some f →
    ∃ c, w.heap.functions[f]? = some c ∧ L.method (w.place c.scope) c.routine

/-- Every function stands where it was made, to be called there or as a method. -/
def Founded (w : World ι) : Prop :=
  ∀ (f : FunctionId) c, w.heap.functions[f]? = some c →
    L.routine (w.place c.scope) c.routine ∨ L.method (w.place c.scope) c.routine

/-- A later world: scopes keep their places and their names, and what was made is still there. -/
structure Extends (w w' : World ι) : Prop where
  size : w.heap.forest.scopes.size ≤ w'.heap.forest.scopes.size
  present : ∀ e name, (w.heap.forest.slot? e name).isSome → (w'.heap.forest.slot? e name).isSome
  functions : ∀ (f : FunctionId) c, w.heap.functions[f]? = some c → w'.heap.functions[f]? = some c
  classes : w.heap.classes.size ≤ w'.heap.classes.size
  place : ∀ e < w.heap.forest.scopes.size, w'.place e = w.place e

end World

/-- What a program can do to a world in one go. -/
inductive Layout.Move {ι : Type} (L : Layout ι) (recorded : Site → Option Nat) (w : World ι) :
    World ι → Prop where
  | define {e : ScopeId} {name : Text} {v : Value} (hname : L.declares (w.place e) name)
    (hv : v.Placed L w) : Move L recorded w (w.withHeap (w.heap.define e name v))
  | newScope {outer : ScopeId} {j : ι} (houter : outer < w.heap.forest.scopes.size)
    (hopens : L.opens (w.place outer) j) :
    Move L recorded w (w.withScope (w.heap.newScope (some outer)).1 j)
  | function {e : ScopeId} {r : Routine} (he : e < w.heap.forest.scopes.size)
    (hr : L.stmt (w.place e) (.routine r)) :
    Move L recorded w (w.withHeap (w.heap.newFunction ⟨r, e, false⟩).1)
  | openSuper {outer : ScopeId} {k : ClassId} {j : ι} (houter : outer < w.heap.forest.scopes.size)
    (hopens : L.opens (w.place outer) j) (hj : L.reserves j superName) (hk : k < w.heap.classes.size) :
    Move L recorded w (w.withScope (w.heap.openWith outer superName (.classValue k)).1 j)
  | method {e : ScopeId} {r : Routine} (initializer : Bool) (he : e < w.heap.forest.scopes.size)
    (hr : L.method (w.place e) r) :
    Move L recorded w (w.withHeap (w.heap.newFunction ⟨r, e, initializer⟩).1)
  /-- A class is made of methods in one scope: the current one, or one with the superclass. -/
  | newClass (info : ClassInfo) {e : ScopeId}
    (hmethods : ∀ name f, info.methods.get? name = some f → ∃ c, w.heap.functions[f]? = some c ∧
      c.scope = e ∧ c.routine.name.lexeme = name ∧ c.initializer = decide (name = initName) ∧
      L.method (w.place e) c.routine)
    (hnone : info.superclass = none → ∃ t methods, L.stmt (w.place e) (.classOf t none methods))
    (hsome : ∀ k, info.superclass = some k → k < w.heap.classes.size ∧
      w.heap.forest.slot? e superName = some (.classValue k)) :
    Move L recorded w (w.withHeap (w.heap.newClass info).1)
  | newInstance (k : ClassId) : Move L recorded w (w.withHeap (w.heap.newInstance k).1)
  | setField {v : Value} (hv : v.Placed L w) (o : InstanceId) (name : Text) :
    Move L recorded w (w.withHeap (w.heap.setField o name v))
  | removeField (o : InstanceId) (name : Text) :
    Move L recorded w (w.withHeap (w.heap.removeField o name))
  /-- A method of the class of an instance is bound to it. -/
  | bindOwn {o : InstanceId} {k : ClassId} {name : Text} {c : Closure} {j : ι}
    (hk : w.heap.classOf? o = some k) (hc : w.heap.method? k name = some c)
    (hopens : L.opens (w.place c.scope) j) (hj : L.reserves j thisName) (hr : L.routine j c.routine) :
    Move L recorded w (w.withScope (w.heap.bind c o).1 j)
  /-- A method of the superclass that a scope leads to is bound to the instance that it leads to. -/
  | bindSuper {e : ScopeId} {ref : Reference} {name : Token} {k : ClassId} {o : InstanceId}
    {c : Closure} {j : ι} (he : L.expr (w.place e) (.super ref name))
    (hk : w.heap.forest.getAt? e ((recorded ref.site).getD 0) superName = some (.classValue k))
    (ho : w.heap.forest.getAt? e ((recorded ref.site).getD 0 - 1) thisName = some (.instanceValue o))
    (hc : w.heap.method? k name.lexeme = some c)
    (hopens : L.opens (w.place c.scope) j) (hj : L.reserves j thisName) (hr : L.routine j c.routine) :
    Move L recorded w (w.withScope (w.heap.bind c o).1 j)

/-- What a program can do to a world. -/
abbrev Layout.Moves {ι : Type} (L : Layout ι) (recorded : Site → Option Nat) :
    World ι → World ι → Prop :=
  Relation.ReflTransGen (L.Move recorded)

theorem Forest.lt_size_of_slot? {f : Forest} {e : ScopeId} {name : Text} {v : Value}
    (h : f.slot? e name = some v) : e < f.scopes.size := by
  obtain ⟨s, hs, -⟩ := Option.bind_eq_some_iff.1 h
  exact (Array.getElem?_eq_some_iff.1 hs).1

namespace World

variable {ι : Type} {L : Layout ι} {w w' w'' : World ι}

namespace Extends

theorem refl (w : World ι) : w.Extends w :=
  ⟨Nat.le_refl _, fun _ _ h => h, fun _ _ h => h, Nat.le_refl _, fun _ _ => rfl⟩

theorem trans (hext : w.Extends w') (hext' : w'.Extends w'') : w.Extends w'' where
  size := hext.size.trans hext'.size
  present e name hname := hext'.present e name (hext.present e name hname)
  functions f c hc := hext'.functions f c (hext.functions f c hc)
  classes := hext.classes.trans hext'.classes
  place e he := (hext'.place e (Nat.lt_of_lt_of_le he hext.size)).trans (hext.place e he)

theorem of_grows {h : Heap} (hgrows : w.heap.Grows h) : w.Extends (w.withHeap h) :=
  ⟨hgrows.forest.size, hgrows.forest.present, hgrows.functions, hgrows.classes, fun _ _ => rfl⟩

theorem of_scope {h : Heap} (hgrows : w.heap.Grows h) (j : ι) : w.Extends (w.withScope h j) :=
  ⟨hgrows.forest.size, hgrows.forest.present, hgrows.functions, hgrows.classes,
    fun _ he => Function.update_of_ne (Nat.ne_of_lt he) j w.place⟩

theorem define (w : World ι) (e : ScopeId) (name : Text) (v : Value) :
    w.Extends (w.withHeap (w.heap.define e name v)) := by
  refine ⟨(w.heap.forest.size_define e name v).ge, fun e' name' h => ?_, fun _ _ h => h, Nat.le_refl _, fun _ _ => rfl⟩
  change ((w.heap.forest.define e name v).slot? e' name').isSome
  rw [Forest.slot?_define]
  split
  · rfl
  · exact h

end Extends

end World

theorem Heap.bind_grows (h : Heap) (c : Closure) (o : InstanceId) : h.Grows (h.bind c o).1 :=
  (h.openWith_grows c.scope thisName (.instanceValue o)).trans (newFunction_grows _ _)

section

variable {ι : Type} {L : Layout ι} {recorded : Site → Option Nat} {w w' : World ι}

/-- A move makes a world later. -/
theorem Layout.Move.extends (hmove : L.Move recorded w w') : w.Extends w' := by
  cases hmove with
  | define => exact .define ..
  | newScope => exact .of_scope (Heap.newScope_grows _ _) _
  | function | method => exact .of_grows (Heap.newFunction_grows _ _)
  | openSuper => exact .of_scope (Heap.openWith_grows _ _ _ _) _
  | newClass => exact .of_grows (Heap.newClass_grows _ _)
  | newInstance => exact .of_grows (Heap.newInstance_grows _ _)
  | setField => exact .of_grows Heap.setField_grows
  | removeField => exact .of_grows Heap.removeField_grows
  | bindOwn | bindSuper => exact .of_scope (Heap.bind_grows _ _ _) _

theorem Layout.Moves.extends (hmoves : L.Moves recorded w w') : w.Extends w' := by
  induction hmoves with
  | refl => exact .refl w
  | tail _ hmove ih => exact ih.trans hmove.extends

/-- A value that may be called stays so. -/
theorem Value.Placed.extend {v : Value} (hv : v.Placed L w) (hw : w.LaidOut L) (hext : w.Extends w') :
    v.Placed L w' := by
  cases v with
  | function f =>
    obtain ⟨c, hc, hroutine⟩ := hv
    refine ⟨c, hext.functions f c hc, ?_⟩
    rw [hext.place c.scope (hw.functions f c hc)]
    exact hroutine
  | classValue k => exact Nat.lt_of_lt_of_le hv hext.classes
  | _ => trivial

end

namespace World.LaidOut

variable {ι : Type} {L : Layout ι} {recorded : Site → Option Nat} {w w' : World ι}

/-- A later world is laid out if what is new in it is. -/
theorem of_extends (hw : w.LaidOut L) (hext : w.Extends w')
    (henclosing : ∀ e outer, w'.heap.forest.enclosing? e = some outer →
      w.heap.forest.enclosing? e = some outer ∨
        outer < w'.heap.forest.scopes.size ∧ L.opens (w'.place outer) (w'.place e))
    (hslots : ∀ e name v, w'.heap.forest.slot? e name = some v → w.heap.forest.slot? e name = some v ∨
        (L.declares (w'.place e) name ∨ L.reserves (w'.place e) name) ∧ v.Placed L w')
    (hfields : ∀ o name v, w'.heap.field? o name = some v → w.heap.field? o name = some v ∨ v.Placed L w')
    (hfunctions : ∀ (f : FunctionId) c, w'.heap.functions[f]? = some c →
      w.heap.functions[f]? = some c ∨ c.scope < w'.heap.forest.scopes.size)
    (hmethods : ∀ k name f, w'.heap.ownMethod? k name = some f → w.heap.ownMethod? k name = some f ∨
      ∃ c, w'.heap.functions[f]? = some c ∧ L.method (w'.place c.scope) c.routine) :
    w'.LaidOut L where
  globals := Nat.lt_of_lt_of_le hw.globals hext.size
  top := (hext.place _ hw.globals).trans hw.top
  enclosing e outer he := by
    rcases henclosing e outer he with hold | hnew
    · obtain ⟨houter, hopens⟩ := hw.enclosing e outer hold
      rw [hext.place e (Forest.lt_size_of_enclosing? hold), hext.place outer houter]
      exact ⟨Nat.lt_of_lt_of_le houter hext.size, hopens⟩
    · exact hnew
  slots e name v hv := by
    rcases hslots e name v hv with hold | hnew
    · obtain ⟨hname, hplaced⟩ := hw.slots e name v hold
      rw [hext.place e (Forest.lt_size_of_slot? hold)]
      exact ⟨hname, hplaced.extend hw hext⟩
    · exact hnew
  fields o name v hv := by
    rcases hfields o name v hv with hold | hnew
    · exact (hw.fields o name v hold).extend hw hext
    · exact hnew
  functions f c hc := by
    rcases hfunctions f c hc with hold | hnew
    · exact Nat.lt_of_lt_of_le (hw.functions f c hold) hext.size
    · exact hnew
  methods k name f hf := by
    rcases hmethods k name f hf with hold | hnew
    · obtain ⟨c, hc, hmethod⟩ := hw.methods k name f hold
      refine ⟨c, hext.functions f c hc, ?_⟩
      rw [hext.place c.scope (hw.functions f c hc)]
      exact hmethod
    · exact hnew

/-- What is laid out is so if more may stand at its places. -/
theorem mono {L' : Layout ι} (hw : w.LaidOut L) (htop : L.top = L'.top) (hopens : L.opens = L'.opens)
    (hdeclares : L.declares = L'.declares) (hreserves : L.reserves = L'.reserves)
    (hroutine : ∀ i r, L.routine i r → L'.routine i r) (hmethod : ∀ i r, L.method i r → L'.method i r) :
    w.LaidOut L' := by
  have hvalue : ∀ v : Value, v.Placed L w → v.Placed L' w := by
    intro v hv
    cases v with
    | function f =>
      obtain ⟨c, hc, hr⟩ := hv
      exact ⟨c, hc, hroutine _ _ hr⟩
    | _ => exact hv
  refine ⟨hw.globals, htop ▸ hw.top, hopens ▸ hw.enclosing, fun e name v hv => ?_, fun o name v hv => ?_,
    hw.functions, fun k name f hf => ?_⟩
  · obtain ⟨hname, hplaced⟩ := hw.slots e name v hv
    rw [hdeclares, hreserves] at hname
    exact ⟨hname, hvalue v hplaced⟩
  · exact hvalue v (hw.fields o name v hv)
  · obtain ⟨c, hc, hplaced⟩ := hw.methods k name f hf
    exact ⟨c, hc, hmethod _ _ hplaced⟩

section

variable (hw : w.LaidOut L)

include hw

/-- A value may be put under a name that may stand in the scope. -/
theorem define {e : ScopeId} {name : Text} {v : Value}
    (hname : L.declares (w.place e) name ∨ L.reserves (w.place e) name) (hv : v.Placed L w) :
    (w.withHeap (w.heap.define e name v)).LaidOut L := by
  refine hw.of_extends (.define w e name v)
    (fun e' outer he => .inl ((w.heap.forest.enclosing?_define e e' name v).symm.trans he))
    (fun e' name' v' hv' => ?_) (fun _ _ _ hv' => .inl hv') (fun _ _ hc => .inl hc)
    (fun _ _ _ hf => .inl hf)
  rw [show (w.heap.define e name v).forest = w.heap.forest.define e name v from rfl,
    Forest.slot?_define] at hv'
  split at hv'
  · next heq =>
    obtain ⟨rfl, rfl, -⟩ := heq
    obtain rfl := Option.some.inj hv'
    exact .inr ⟨hname, hv.extend hw (.define w e' name' v)⟩
  · exact .inl hv'

/-- A scope may be made at a place inside of that of its outer scope. -/
theorem newScope {outer : ScopeId} (houter : outer < w.heap.forest.scopes.size) {j : ι}
    (hopens : L.opens (w.place outer) j) : (w.withScope (w.heap.newScope (some outer)).1 j).LaidOut L := by
  have hext := Extends.of_scope (w.heap.newScope_grows (some outer)) j
  refine hw.of_extends hext (fun e outer' he => ?_)
    (fun e name v hv => .inl ((w.heap.forest.slot?_new (some outer) e name).symm.trans hv))
    (fun _ _ _ hv => .inl hv) (fun _ _ hc => .inl hc) (fun _ _ _ hf => .inl hf)
  have henclosing := (w.heap.forest.enclosing?_new (some outer) e).symm.trans he
  split at henclosing
  · next heq =>
    subst heq
    obtain rfl := Option.some.inj henclosing
    refine .inr ⟨Nat.lt_of_lt_of_le houter hext.size, ?_⟩
    rw [hext.place outer houter, place_withScope]
    exact hopens
  · exact .inl henclosing

theorem openWith {outer : ScopeId} (houter : outer < w.heap.forest.scopes.size)
    {j : ι} (hopens : L.opens (w.place outer) j) {name : Text} (hname : L.reserves j name) {v : Value}
    (hv : v.Placed L w) : (w.withScope (w.heap.openWith outer name v).1 j).LaidOut L := by
  have hext := Extends.of_scope (w.heap.newScope_grows (some outer)) j
  refine (hw.newScope houter hopens).define (e := w.heap.forest.scopes.size) (.inr ?_) (hv.extend hw hext)
  rw [place_withScope]
  exact hname

/-- A function may be made in a scope that is there. -/
theorem newFunction {c : Closure} (hscope : c.scope < w.heap.forest.scopes.size) :
    (w.withHeap (w.heap.newFunction c).1).LaidOut L := by
  refine hw.of_extends (.of_grows (w.heap.newFunction_grows c)) (fun _ _ he => .inl he)
    (fun _ _ _ hv => .inl hv) (fun _ _ _ hv => .inl hv) (fun f c' hc' => ?_) (fun _ _ _ hf => .inl hf)
  unfold Heap.newFunction at hc'
  rw [Array.getElem?_push] at hc'
  split at hc'
  · obtain rfl := Option.some.inj hc'
    exact .inr hscope
  · exact .inl hc'

/-- A class may be made of methods. -/
theorem newClass {info : ClassInfo} (hmethods : ∀ name f, info.methods.get? name = some f →
      ∃ c, w.heap.functions[f]? = some c ∧ L.method (w.place c.scope) c.routine) :
    (w.withHeap (w.heap.newClass info).1).LaidOut L := by
  refine hw.of_extends (.of_grows (w.heap.newClass_grows info)) (fun _ _ he => .inl he)
    (fun _ _ _ hv => .inl hv) (fun _ _ _ hv => .inl hv) (fun _ _ hc => .inl hc) (fun k name f hf => ?_)
  unfold Heap.ownMethod? Heap.newClass at hf
  rw [Array.getElem?_push] at hf
  split at hf
  · exact .inr (hmethods name f hf)
  · exact .inl hf

theorem newInstance (k : ClassId) : (w.withHeap (w.heap.newInstance k).1).LaidOut L := by
  refine hw.of_extends (.of_grows (w.heap.newInstance_grows k)) (fun _ _ he => .inl he)
    (fun _ _ _ hv => .inl hv) (fun o name v hv => ?_) (fun _ _ hc => .inl hc) (fun _ _ _ hf => .inl hf)
  unfold Heap.field? Heap.newInstance at hv
  rw [Array.getElem?_push] at hv
  split at hv
  · cases hv
  · exact .inl hv

/-- A field may be set to a value that may be called, if it is a function. -/
theorem setField {v : Value} (hv : v.Placed L w) (o : InstanceId) (name : Text) :
    (w.withHeap (w.heap.setField o name v)).LaidOut L := by
  have hext : w.Extends (w.withHeap (w.heap.setField o name v)) := .of_grows Heap.setField_grows
  refine hw.of_extends hext (fun _ _ he => .inl he) (fun _ _ _ hv => .inl hv)
    (fun o' name' v' hv' => ?_) (fun _ _ hc => .inl hc) (fun _ _ _ hf => .inl hf)
  rw [Heap.field?_setField] at hv'
  split at hv'
  · obtain rfl := Option.some.inj hv'
    exact .inr (hv.extend hw hext)
  · exact .inl hv'

theorem removeField (o : InstanceId) (name : Text) : (w.withHeap (w.heap.removeField o name)).LaidOut L :=
  hw.of_extends (.of_grows Heap.removeField_grows) (fun _ _ he => .inl he) (fun _ _ _ hv => .inl hv)
    (fun _ _ _ hv => .inl (Heap.field?_of_removeField hv)) (fun _ _ hc => .inl hc)
    (fun _ _ _ hf => .inl hf)

theorem method? {k : ClassId} {name : Text} {c : Closure} (hmethod : w.heap.method? k name = some c) :
    c.scope < w.heap.forest.scopes.size ∧ L.method (w.place c.scope) c.routine := by
  obtain ⟨f, hf, hc⟩ := Option.bind_eq_some_iff.1 hmethod
  obtain ⟨k', hk'⟩ := Heap.exists_ownMethod? hf
  obtain ⟨c', hc', hplaced⟩ := hw.methods k' name f hk'
  obtain rfl := Option.some.inj (hc.symm.trans hc')
  exact ⟨hw.functions f _ hc, hplaced⟩

theorem bind {c : Closure} (hscope : c.scope < w.heap.forest.scopes.size) {j : ι}
    (hopens : L.opens (w.place c.scope) j) (hj : L.reserves j thisName) (o : InstanceId) :
    (w.withScope (w.heap.bind c o).1 j).LaidOut L := by
  have hopened := hw.openWith hscope hopens hj (v := .instanceValue o) trivial
  exact hopened.newFunction (c := { c with scope := w.heap.forest.scopes.size })
    (Forest.lt_size_of_enclosing? (w.heap.enclosing?_openWith c.scope thisName _))

end

/-- What a program does to a world leaves it laid out. -/
theorem move (hw : w.LaidOut L) (hmove : L.Move recorded w w') : w'.LaidOut L := by
  cases hmove with
  | define hname hv => exact hw.define (.inl hname) hv
  | newScope houter hopens => exact hw.newScope houter hopens
  | function he | method _ he => exact hw.newFunction he
  | openSuper houter hopens hj hk => exact hw.openWith houter hopens hj hk
  | newClass info hmethods =>
    refine hw.newClass fun name f hf => ?_
    obtain ⟨c, hc, rfl, -, -, hmethod⟩ := hmethods name f hf
    exact ⟨c, hc, hmethod⟩
  | newInstance k => exact hw.newInstance k
  | setField hv o name => exact hw.setField hv o name
  | removeField o name => exact hw.removeField o name
  | bindOwn _ hc hopens hj | bindSuper _ _ _ hc hopens hj => exact hw.bind (hw.method? hc).1 hopens hj _

/-- A function that a program makes stands where it is made. -/
theorem founded_move (hL : L.Lawful recorded) (hw : w.LaidOut L) (hfounded : w.Founded L)
    (hmove : L.Move recorded w w') : w'.Founded L := by
  have hold : ∀ (f : FunctionId) c, w.heap.functions[f]? = some c →
      L.routine (w'.place c.scope) c.routine ∨ L.method (w'.place c.scope) c.routine := by
    intro f c hc
    rw [hmove.extends.place _ (hw.functions f c hc)]
    exact hfounded f c hc
  have hnew : ∀ {c}, w'.heap.functions = w.heap.functions.push c →
      L.routine (w'.place c.scope) c.routine ∨ L.method (w'.place c.scope) c.routine → w'.Founded L := by
    intro c hpush hc f c' hc'
    rw [hpush, Array.getElem?_push] at hc'
    split at hc'
    · obtain rfl := Option.some.inj hc'
      exact hc
    · exact hold f c' hc'
  cases hmove with
  | function _ hr => exact hnew rfl (.inl (hL.function hr).2)
  | method _ _ hr => exact hnew rfl (.inr hr)
  | bindOwn _ _ _ _ hr | bindSuper _ _ _ _ _ _ hr => exact hnew rfl (.inl ((w.place_withScope _ _).symm ▸ hr))
  | _ => exact hold

theorem moves (hw : w.LaidOut L) (hmoves : L.Moves recorded w w') :
    w'.LaidOut L := by
  induction hmoves with
  | refl => exact hw
  | tail _ hmove ih => exact ih.move hmove

end World.LaidOut

end Lox
