import Lox.Proofs.BoundMethods
import Lox.Proofs.Origins
import Lox.Proofs.Verdict

/-!
# Chains of scopes and classes

A walk outwards through the scopes and a walk up the superclasses follow links until there is none (`Lineage`).
Scopes and classes are made after what they refer to, so both walks get to older objects only and end without
coming to an object twice. Every scope but that of the globals is made inside another one (`Heap.Rooted`), so
the walk from every scope that there is ends at the globals.

`Heap.Reachable` says what a program can get to: from the current scope, from the values and scopes in the
tasks that are left and from a value on its way, through scopes, closures, fields and method tables. For all
of it the searches through scopes and classes look at the chain one after another (`Heap.Grounded`), whatever
a session has run.
-/

namespace Lox

/-- The objects on the way from one to the next, until there is no link. -/
inductive Lineage (next : Nat → Option Nat) : Nat → List Nat → Prop where
  | last {x : Nat} (h : next x = none) : Lineage next x [x]
  | step {x y : Nat} {rest : List Nat} (h : next x = some y) (hrest : Lineage next y rest) :
    Lineage next x (x :: rest)

namespace Lineage

variable {next : Nat → Option Nat} {x : Nat} {chain : List Nat}

/-- The last object has no link. -/
theorem exists_getLast? (h : Lineage next x chain) :
    ∃ y ∈ chain, chain.getLast? = some y ∧ next y = none := by
  induction h with
  | last h => exact ⟨_, .head _, rfl, h⟩
  | step _ hrest ih =>
    obtain ⟨y, hy, hlast, hnone⟩ := ih
    refine ⟨y, .tail _ hy, ?_, hnone⟩
    rw [List.getLast?_cons, hlast]
    rfl

section

variable (hnext : ∀ x y, next x = some y → y < x)

include hnext

/-- If links lead to older objects, there are finitely many on the way. -/
theorem exists_of_older (x : Nat) : ∃ chain, Lineage next x chain := by
  induction x using Nat.strongRecOn with
  | ind x ih =>
    cases hx : next x with
    | none => exact ⟨[x], .last hx⟩
    | some y =>
      obtain ⟨chain, hchain⟩ := ih y (hnext x y hx)
      exact ⟨x :: chain, .step hx hchain⟩

theorem le_of_mem (h : Lineage next x chain) : ∀ y ∈ chain, y ≤ x := by
  induction h with
  | last => simp
  | step hx _ ih =>
    exact List.forall_mem_cons.2 ⟨Nat.le_refl _, fun y hy => (ih y hy).trans (Nat.le_of_lt (hnext _ _ hx))⟩

/-- If links lead to older objects, no object comes twice. -/
theorem nodup (h : Lineage next x chain) : chain.Nodup := by
  induction h with
  | last => simp
  | step hx hrest ih =>
    refine List.nodup_cons.2 ⟨fun hmem => ?_, ih⟩
    exact Nat.not_lt_of_le (hrest.le_of_mem hnext _ hmem) (hnext _ _ hx)

end

end Lineage

namespace Forest

/-- Every scope but that of the globals is inside an older one. -/
structure Nested (f : Forest) : Prop where
  older : ∀ e outer, f.enclosing? e = some outer → outer < e
  enclosed : ∀ e < f.scopes.size, e ≠ Heap.globals → ∃ outer, f.enclosing? e = some outer

variable {f : Forest}

theorem Nested.define (h : f.Nested) (e : ScopeId) (name : Text) (v : Value) : (f.define e name v).Nested := by
  refine ⟨fun e' outer he' => ?_, fun e' he' hne => ?_⟩
  · rw [enclosing?_define] at he'
    exact h.older e' outer he'
  · rw [size_define] at he'
    rw [enclosing?_define]
    exact h.enclosed e' he' hne

/-- A new scope is younger than the one around it. -/
theorem Nested.new (h : f.Nested) {outer : ScopeId} (houter : outer < f.scopes.size) :
    (f.new (some outer)).1.Nested := by
  refine ⟨fun e outer' he => ?_, fun e he hne => ?_⟩
  · rw [enclosing?_new] at he
    split at he
    · next heq =>
      obtain rfl := Option.some.inj he
      rwa [heq]
    · exact h.older e outer' he
  · rw [enclosing?_new]
    split
    · exact ⟨outer, rfl⟩
    · next hnew =>
      rw [size_new] at he
      exact h.enclosed e (Nat.lt_of_le_of_ne (Nat.le_of_lt_succ he) hnew) hne

section

variable (holder : ∀ e outer, f.enclosing? e = some outer → outer < e) {e : ScopeId} {chain : List ScopeId}

include holder

/-- The search for a name looks at the scopes of the chain, the innermost first. -/
theorem holder?_eq (h : Lineage f.enclosing? e chain) (name : Text) :
    f.holder? e name = chain.find? fun a => (f.slot? a name).isSome := by
  induction h with
  | @last e h =>
    rw [holder?, List.find?_singleton, slot?]
    rw [enclosing?] at h
    cases hs : f.scopes[e]? with
    | none => rfl
    | some s =>
      rw [hs] at h
      have hnone : s.enclosing = none := h
      simp only [hnone, Option.bind_some]
      rfl
  | @step e outer rest h _ ih =>
    rw [holder?, List.find?_cons, slot?, ← ih]
    have hlt := holder e outer h
    obtain ⟨s, hs, houter⟩ := Option.bind_eq_some_iff.1 h
    simp only [hs, houter, if_pos hlt, Option.bind_some]
    cases hhas : s.names.has name <;> rw [Table.has] at hhas <;> simp [hhas]

/-- The value of a name is that in the first scope of the chain that holds it. -/
theorem get?_eq (h : Lineage f.enclosing? e chain) (name : Text) :
    f.get? e name = chain.findSome? fun a => f.slot? a name := by
  rw [get?, holder?_eq holder h]
  clear h
  induction chain with
  | nil => rfl
  | cons a chain ih =>
    rw [List.find?_cons, List.findSome?_cons]
    cases hslot : f.slot? a name with
    | none => exact ih
    | some v =>
      change some (f.valueIn a name) = _
      rw [valueIn_eq, hslot]
      rfl

end

end Forest

namespace Heap

section

variable {h : Heap} (holder : ∀ k p, h.superclass? k = some p → p < k) {k : ClassId} {chain : List ClassId}

include holder

/-- The search for a method looks at the classes of the chain, the class itself first. -/
theorem findMethod?_eq (hchain : Lineage h.superclass? k chain) (name : Text) :
    h.findMethod? k name = chain.findSome? fun a => h.ownMethod? a name := by
  induction hchain with
  | @last k hk =>
    rw [findMethod?, List.findSome?_cons, List.findSome?_nil, ownMethod?]
    rw [superclass?] at hk
    cases hinfo : h.classes[k]? with
    | none => rfl
    | some info =>
      rw [hinfo] at hk
      have hnone : info.superclass = none := hk
      simp only [hnone, Option.bind_some]
      cases info.methods.get? name <;> rfl
  | @step k p rest hk _ ih =>
    rw [findMethod?, List.findSome?_cons, ownMethod?, ← ih]
    have hlt := holder k p hk
    obtain ⟨info, hinfo, hp⟩ := Option.bind_eq_some_iff.1 hk
    simp only [hinfo, hp, if_pos hlt, Option.bind_some]
    cases info.methods.get? name <;> rfl

/-- A class descends from the classes of the chain and from no others. -/
theorem isSubclass_iff (hchain : Lineage h.superclass? k chain) (a : ClassId) :
    h.isSubclass k a = true ↔ a ∈ chain := by
  induction hchain with
  | @last k hk =>
    rw [isSubclass, show h.classes[k]?.bind (·.superclass) = none from hk, List.mem_singleton]
    simp only [Bool.or_false, beq_iff_eq]
    exact eq_comm
  | @step k p rest hk _ ih =>
    rw [isSubclass, show h.classes[k]?.bind (·.superclass) = some p from hk, List.mem_cons, ← ih]
    simp only [if_pos (holder k p hk), Bool.or_eq_true, beq_iff_eq]
    exact or_congr_left eq_comm

end

/-- Every scope but that of the globals is inside an older one, functions are made in scopes, and classes after
their superclasses. -/
structure Rooted (h : Heap) : Prop where
  globals : 0 < h.forest.scopes.size
  scopes : h.forest.Nested
  functions : h.Scoped
  classes : ∀ k p, h.superclass? k = some p → p < k

/-- The chain of a scope, which ends at the globals, and what the searches through it come to. -/
structure ScopeChain (h : Heap) (e : ScopeId) (chain : List ScopeId) : Prop where
  lineage : Lineage h.forest.enclosing? e chain
  nodup : chain.Nodup
  last : chain.getLast? = some Heap.globals
  get : ∀ name, h.forest.get? e name = chain.findSome? fun a => h.forest.slot? a name
  assign : ∀ name v, h.forest.assign? e name v =
    (chain.find? fun a => (h.forest.slot? a name).isSome).map fun a => h.forest.define a name v

/-- The chain of a class, and what the searches through it come to. -/
structure ClassChain (h : Heap) (k : ClassId) (chain : List ClassId) : Prop where
  lineage : Lineage h.superclass? k chain
  nodup : chain.Nodup
  findMethod : ∀ name, h.findMethod? k name = chain.findSome? fun a => h.ownMethod? a name
  isSubclass : ∀ a, h.isSubclass k a = true ↔ a ∈ chain

namespace Rooted

variable {h h' : Heap}

/-- Going outwards from a scope passes a chain of scopes. -/
theorem exists_scopeChain (hh : h.Rooted) {e : ScopeId} (he : e < h.forest.scopes.size) :
    ∃ chain, h.ScopeChain e chain := by
  obtain ⟨chain, hchain⟩ := Lineage.exists_of_older hh.scopes.older e
  refine ⟨chain, hchain, hchain.nodup hh.scopes.older, ?_, Forest.get?_eq hh.scopes.older hchain, fun name v => ?_⟩
  · obtain ⟨y, hy, hlast, hnone⟩ := hchain.exists_getLast?
    rw [hlast]
    by_contra hne
    -- A scope that is not the globals would have another one around it.
    obtain ⟨outer, houter⟩ := hh.scopes.enclosed y
      (Nat.lt_of_le_of_lt (hchain.le_of_mem hh.scopes.older y hy) he)
      fun heq => hne (congrArg some heq)
    rw [hnone] at houter
    cases houter
  · rw [Forest.assign?, Forest.holder?_eq hh.scopes.older hchain]

theorem exists_classChain (hh : h.Rooted) (k : ClassId) : ∃ chain, h.ClassChain k chain := by
  obtain ⟨chain, hchain⟩ := Lineage.exists_of_older hh.classes k
  exact ⟨chain, hchain, hchain.nodup hh.classes, findMethod?_eq hh.classes hchain,
    isSubclass_iff hh.classes hchain⟩

end Rooted

end Heap

/-! ## What can be reached -/

/-- What a program can hold on to. -/
inductive Held where
  | scope (e : ScopeId)
  | function (f : FunctionId)
  | classObject (k : ClassId)
  | object (o : InstanceId)

/-- What a value refers to. -/
def Value.held : Value → List Held
  | .function f => [.function f]
  | .classValue k => [.classObject k]
  | .instanceValue o => [.object o]
  | _ => []

/-- What a task refers to: the values that it waits with, the scope that it goes back to, and the function whose
body it ends. -/
def Task.held : Task → List Held
  | .binaryRight _ _ v | .middle v _ => v.held
  | .choose v w => v.held ++ w.held
  | .argument _ called done _ => called.held ++ done.flatMap Value.held
  | .setValue _ o | .construct o => [.object o]
  | .leaveScope outer => [.scope outer]
  | .endBody closure outer => [.scope closure.scope, .scope outer]
  | _ => []

/-- What a store refers to outside of its heap. -/
def Store.roots (s : Store) : List Held :=
  .scope Heap.globals :: .scope s.scope :: s.returning.toList.flatMap Value.held

/-- What a machine refers to: its store, the value that it hands on, and its tasks. -/
def Machine.roots (m : Machine) : List Held :=
  m.store.roots ++ (match m.control with
    | .deliver v => v.held
    | _ => []) ++ m.tasks.flatMap Task.held

namespace Heap

/-- What holds on to what. -/
inductive Holds (h : Heap) : Held → Held → Prop where
  | enclosing {e outer : ScopeId} (he : h.forest.enclosing? e = some outer) : Holds h (.scope e) (.scope outer)
  | name {e : ScopeId} {name : Text} {v : Value} {x : Held} (hv : h.forest.slot? e name = some v)
    (hx : x ∈ v.held) : Holds h (.scope e) x
  | closure {f : FunctionId} {c : Closure} (hc : h.functions[f]? = some c) :
    Holds h (.function f) (.scope c.scope)
  | method {k : ClassId} {name : Text} {f : FunctionId} (hf : h.ownMethod? k name = some f) :
    Holds h (.classObject k) (.function f)
  | superclass {k p : ClassId} (hp : h.superclass? k = some p) : Holds h (.classObject k) (.classObject p)
  | classOf {o : InstanceId} {k : ClassId} (hk : h.classOf? o = some k) : Holds h (.object o) (.classObject k)
  | field {o : InstanceId} {name : Text} {v : Value} {x : Held} (hv : h.field? o name = some v)
    (hx : x ∈ v.held) : Holds h (.object o) x

/-- What can be reached from roots. -/
inductive Reachable (h : Heap) (roots : List Held) : Held → Prop where
  | root {x : Held} (hx : x ∈ roots) : Reachable h roots x
  | next {x y : Held} (hx : Reachable h roots x) (hy : h.Holds x y) : Reachable h roots y

/-- Every scope that can be reached has a chain of scopes to the globals, and every class a chain of
superclasses. -/
structure Grounded (h : Heap) (roots : List Held) : Prop where
  scopes : ∀ e, h.Reachable roots (.scope e) → ∃ chain, h.ScopeChain e chain
  classes : ∀ k, ∃ chain, h.ClassChain k chain

end Heap

theorem Value.scope_not_mem_held (v : Value) (e : ScopeId) : .scope e ∉ v.held := by
  cases v <;> simp [Value.held]

theorem Value.scope_not_mem_flatMap (vs : List Value) (e : ScopeId) : .scope e ∉ vs.flatMap Value.held := by
  intro h
  obtain ⟨v, -, hv⟩ := List.mem_flatMap.1 h
  exact v.scope_not_mem_held e hv

namespace Heap.Rooted

variable {h : Heap} {roots : List Held}

/-- A scope that can be reached is there, if those among the roots are. -/
theorem lt_size (hh : h.Rooted) (hroots : ∀ e, .scope e ∈ roots → e < h.forest.scopes.size) {e : ScopeId}
    (he : h.Reachable roots (.scope e)) : e < h.forest.scopes.size := by
  cases he with
  | root hx => exact hroots e hx
  | next _ hy =>
    cases hy with
    | enclosing he => exact (hh.scopes.older _ _ he).trans (Forest.lt_size_of_enclosing? he)
    | closure hc => exact hh.functions _ _ hc
    | name hv hx => exact absurd hx (Value.scope_not_mem_held _ _)
    | field hv hx => exact absurd hx (Value.scope_not_mem_held _ _)

theorem grounded (hh : h.Rooted) (hroots : ∀ e, .scope e ∈ roots → e < h.forest.scopes.size) :
    h.Grounded roots :=
  ⟨fun _ he => hh.exists_scopeChain (hh.lt_size hroots he), hh.exists_classChain⟩

end Heap.Rooted

section

variable {ι : Type} {L : Layout ι} {recorded : Site → Option Nat}

/-- What a program does to a world leaves its scopes nested. -/
theorem World.LaidOut.nested_move {w w' : World ι} (hw : w.LaidOut L) (hnested : w.heap.forest.Nested)
    (hmove : L.Move recorded w w') : w'.heap.forest.Nested := by
  cases hmove with
  | define => exact hnested.define _ _ _
  | newScope houter => exact hnested.new houter
  | openSuper houter => exact (hnested.new houter).define _ _ _
  | bindOwn _ hc | bindSuper _ _ _ hc => exact (hnested.new (hw.method? hc).1).define _ _ _
  | _ => exact hnested

theorem Task.AllPlaced.after_lt {w : World ι} {e : ScopeId} {tasks : List Task} (h : AllPlaced L w e tasks) :
    ∀ t ∈ tasks, ∃ e', t.after e' < w.heap.forest.scopes.size := by
  induction h with
  | nil => exact List.forall_mem_nil _
  | cons _ _ hrest ih => exact List.forall_mem_cons.2 ⟨⟨_, hrest.lt_size⟩, ih⟩

namespace Machine

variable {limits : Limits} {m : Machine}

/-- The function whose body is run is still there when the body ends. -/
theorem exists_function_of_endBody (hL : L.Lawful recorded)
    (hlaid : ∀ n, ∃ place, (m.run limits n).LaidOut L recorded place)
    (hfault : ∀ n f, (m.run limits n).control ≠ .fault f)
    (hstart : ∀ closure outer, Task.endBody closure outer ∉ m.tasks) {n : Nat} {closure : Closure}
    {outer : ScopeId} (hmem : .endBody closure outer ∈ (m.run limits n).tasks) :
    ∃ f : FunctionId, (m.run limits n).store.heap.functions[f]? = some closure := by
  obtain ⟨inner, below, htasks⟩ := List.append_of_mem hmem
  obtain ⟨j, hj, -, ⟨-, call, o, henters⟩, -⟩ :=
    exists_made hfault rfl (fun h => hstart _ _ (h.subset (.head _))) ⟨inner, htasks.symm⟩
  obtain ⟨f, hf⟩ := henters.held
  -- It was there when the body was entered, and functions do not go away.
  obtain ⟨place, hj'⟩ := hlaid (j + 1)
  obtain ⟨k, rfl⟩ := Nat.exists_eq_add_of_le (Nat.succ_le_of_lt hj)
  obtain ⟨place', -, hlater⟩ := hj'.run (P := fun w => w.heap.functions[f]? = some closure) hL limits
    (fun _ hw hmove => hmove.extends.functions f closure hw) k hf
  rw [run_add]
  exact ⟨f, hlater⟩

/-- The scopes that a machine refers to are there. -/
theorem LaidOut.lt_size_of_roots {place : ScopeId → ι} (hm : m.LaidOut L recorded place)
    (hfault : ∀ f, m.control ≠ .fault f)
    (hclosures : ∀ closure outer, .endBody closure outer ∈ m.tasks →
      closure.scope < m.store.heap.forest.scopes.size) :
    ∀ e, .scope e ∈ m.roots → e < m.store.heap.forest.scopes.size := by
  have htasks := hm.tasks hfault
  intro e he
  rcases List.mem_append.1 he with he | he
  · rcases List.mem_append.1 he with he | he
    · rcases List.mem_cons.1 he with heq | he
      · cases heq
        exact hm.world.globals
      rcases List.mem_cons.1 he with heq | he
      · cases heq
        exact htasks.lt_size
      · exact absurd he (Value.scope_not_mem_flatMap _ _)
    · split at he
      · exact absurd he (Value.scope_not_mem_held _ _)
      · cases he
  · obtain ⟨t, ht, he⟩ := List.mem_flatMap.1 he
    obtain ⟨e', hafter⟩ := htasks.after_lt t ht
    cases t with
    | leaveScope outer =>
      cases List.mem_singleton.1 he
      exact hafter
    | endBody closure outer =>
      rcases List.mem_cons.1 he with heq | he
      · cases heq
        exact hclosures closure outer ht
      · cases List.mem_singleton.1 he
        exact hafter
    | binaryRight | middle => exact absurd he (Value.scope_not_mem_held _ _)
    | choose v w =>
      rcases List.mem_append.1 he with he | he <;> exact absurd he (Value.scope_not_mem_held _ _)
    | argument paren called done rest =>
      rcases List.mem_append.1 he with he | he
      · exact absurd he (Value.scope_not_mem_held _ _)
      · exact absurd he (Value.scope_not_mem_flatMap _ _)
    | setValue | construct => cases List.mem_singleton.1 he
    | _ => cases he

end Machine

end

/-- The scopes with which a session starts are nested. -/
theorem Forest.Nested.initial : Heap.initial.forest.Nested := by
  have hdefine : ∀ (natives : List Native) (f : Forest), f.Nested →
      (natives.foldl (fun f n => f.define Heap.globals (text n.name) (.native n)) f).Nested := by
    intro natives
    induction natives with
    | nil => exact fun f hf => hf
    | cons n natives ih => exact fun f hf => ih _ (hf.define _ _ _)
  refine hdefine Native.all (Forest.empty.new none).1 ⟨fun e outer he => ?_, fun e he hne => ?_⟩
  · rw [Forest.enclosing?_new] at he
    split at he <;> cases he
  · exact absurd (Nat.lt_one_iff.1 he) hne

namespace Session

/-- A session whose scopes are nested, and whose current scope is there. -/
structure Rooted (s : Session) (programs : List Program) : Prop where
  sound : s.Sound programs
  methods : s.MethodsBound programs
  nested : s.store.heap.forest.Nested
  scope : s.store.scope < s.store.heap.forest.scopes.size

variable {s : Session} {programs : List Program} {source : Text}

namespace Rooted

theorem new (color showTrace : Bool) : (Session.new color showTrace).Rooted [] := by
  have hsound := Sound.new color showTrace
  exact ⟨hsound, methodsBound_serveAll color showTrace [], .initial, hsound.store.globals⟩

/-- All that a session holds on to leads outwards and upwards to an end. -/
theorem grounded (h : s.Rooted programs) : s.store.heap.Grounded s.store.roots := by
  obtain ⟨place, hworld, -⟩ := h.methods.world
  refine Heap.Rooted.grounded ⟨hworld.globals, h.nested, hworld.heap_scoped, h.methods.heap.older⟩ ?_
  intro e he
  rcases List.mem_cons.1 he with heq | he
  · cases heq
    exact hworld.globals
  rcases List.mem_cons.1 he with heq | he
  · cases heq
    exact h.scope
  · exact absurd he (Value.scope_not_mem_flatMap _ _)

/-- Running an accepted source keeps the scopes nested. -/
theorem machine (h : s.Rooted programs) (hsource : s.Accepts source) (limits : Limits) (n : Nat) :
    ∃ place, ((s.start source).run limits n).LaidOut
        (methodLayout (Visited (s.program source :: programs)))
        (s.distances source) place ∧
      ((s.start source).run limits n).store.heap.Rooted := by
  obtain ⟨place, hstart, -⟩ := h.methods.start h.sound hsource
  have hwalk := (h.sound.opening hsource).lawful
  obtain ⟨place', hlaid, hbound, hnested⟩ := hstart.run
    (P := fun w => w.heap.MethodsBound ∧ w.heap.forest.Nested) (MethodLayout.lawful hwalk) limits
    (fun hw hP hmove => ⟨hw.methodsBound_move hwalk hP.1 hmove, hw.nested_move hP.2 hmove⟩) n
    ⟨h.methods.heap, h.nested⟩
  exact ⟨place', hlaid, hlaid.world.globals, hnested, hlaid.world.heap_scoped, hbound.older⟩

/-- All that a machine holds on to leads outwards and upwards to an end. -/
theorem grounded_machine (h : s.Rooted programs) (hsource : s.Accepts source) (limits : Limits) (n : Nat) :
    ((s.start source).run limits n).store.heap.Grounded
      ((s.start source).run limits n).roots := by
  obtain ⟨place, hlaid, hrooted⟩ := h.machine hsource limits n
  have hfault := fun n => (h.sound.machine hsource limits n).ne_fault
  refine hrooted.grounded (hlaid.lt_size_of_roots (hfault n) fun closure outer hmem => ?_)
  obtain ⟨f, hf⟩ := Machine.exists_function_of_endBody (MethodLayout.lawful (h.sound.opening hsource).lawful)
    (fun n => (h.machine hsource limits n).imp fun _ h => h.1) hfault (by simp [Machine.start]) hmem
  exact hrooted.functions f closure hf

/-- Running an accepted source leaves the session rooted. -/
theorem ran (h : s.Rooted programs) (hsource : s.Accepts source) (limits : Limits) (steps : Nat) :
    (s.run limits steps source).session.Rooted (s.program source :: programs) := by
  obtain ⟨hstore, -, -⟩ := run_of_accepts hsource limits steps
  obtain ⟨place, hlaid, hbound, hfounded⟩ := h.methods.machine h.sound hsource limits steps
  obtain ⟨-, -, hrooted⟩ := h.machine hsource limits steps
  have hscope := (hlaid.tasks (h.sound.machine hsource limits steps).ne_fault).lt_size
  rw [← hstore] at hbound hrooted hscope
  exact ⟨h.sound.ran hsource limits steps, ⟨⟨place, hstore ▸ hlaid.world, hstore ▸ hfounded⟩, hbound⟩, hrooted.scopes,
    hscope⟩

theorem kept {s' : Session} (h : s.Rooted programs) (hstore : s'.store = s.store) (hle : s.nextSite ≤ s'.nextSite) :
    s'.Rooted programs :=
  ⟨h.sound.kept hstore hle, ⟨hstore ▸ h.methods.world, hstore ▸ h.methods.heap⟩, hstore ▸ h.nested, hstore ▸ h.scope⟩

end Rooted

theorem rooted_serveAll (color showTrace : Bool) (requests : List Request) :
    (serveAll color showTrace requests).Rooted ((new color showTrace).history requests) := by
  have hserved := foldl_serve (P := Rooted) Rooted.kept Rooted.ran requests [] (.new color showTrace)
  rwa [List.append_nil] at hserved

/-- The chains of the heap are well founded. Whatever a session was asked, at rest and at every moment of running
an accepted source, each scope that can be reached has a finite chain of scopes around it, without repetition,
that ends at the globals, and each class a finite chain of superclasses without repetition; looking up and
assigning a name, looking for a method and asking for descent go along these chains and nowhere else. -/
theorem run_grounded (color showTrace : Bool) (requests : List Request) :
    (serveAll color showTrace requests).store.heap.Grounded (serveAll color showTrace requests).store.roots ∧
    ∀ source, (serveAll color showTrace requests).Accepts source →
      ∃ m, ((serveAll color showTrace requests).prepare source).2.2 = some m ∧ ∀ limits n,
        (m.run limits n).store.heap.Grounded (m.run limits n).roots := by
  have h := rooted_serveAll color showTrace requests
  refine ⟨h.grounded, fun source hsource => ⟨_, (prepare_of_accepts hsource).2.2, fun limits n => ?_⟩⟩
  exact h.grounded_machine hsource limits n

/-- Inside the method that refers to its superclass, the scopes of the call, of the instance and of the superclass
lead out to the globals. -/
theorem run_grounded_super :
    (serveAll false false []).Accepts superSource ∧
    ∃ m, ((serveAll false false []).prepare superSource).2.2 = some m ∧
      (m.run ⟨10, fun _ => ⟨0⟩⟩ 18).store.heap.forest.ancestor? (m.run ⟨10, fun _ => ⟨0⟩⟩ 18).store.scope 3 =
        some Heap.globals ∧
      ∃ chain, (m.run ⟨10, fun _ => ⟨0⟩⟩ 18).store.heap.ScopeChain
        (m.run ⟨10, fun _ => ⟨0⟩⟩ 18).store.scope chain := by
  obtain ⟨m, hm, hrun⟩ := (run_grounded false false []).2 superSource superSource_accepts
  refine ⟨superSource_accepts, m, hm, ?_, (hrun _ 18).scopes _ (.root (.tail _ (.head _)))⟩
  rw [eq_start superSource_accepts hm]
  decide +kernel

end Session

end Lox
