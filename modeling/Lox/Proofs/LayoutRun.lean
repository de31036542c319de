import Lox.Proofs.Layout
import Lox.Proofs.Running

/-!
# Machines on a layout

A machine whose program is laid out runs what may stand at the place of the current scope, and each of its
tasks goes on with what may stand at the place of the scope in which it resumes. Each step makes moves that
the layout allows (`Machine.LaidOut.step`), so whatever the moves preserve holds through a whole run
(`Machine.LaidOut.run`).
-/

namespace Lox

variable {ι : Type} {L : Layout ι} {recorded : Site → Option Nat} {w : World ι}

/-- A value that is valid whatever there is refers to nothing. -/
theorem Value.Placed.of_valid {v : Value} (hv : v.Valid (fun _ _ => False) .empty) : v.Placed L w := by
  cases v with
  | function f =>
    obtain ⟨c, hc, -⟩ := hv
    simp [Heap.empty] at hc
  | classValue k => exact absurd hv (Nat.not_lt_zero k)
  | _ => trivial

/-- A heap that moves lead to, with a value that may be called. -/
def Layout.Gives (L : Layout ι) (recorded : Site → Option Nat) (w : World ι) (result : Heap × Value) :
    Prop :=
  ∃ place, L.Moves recorded w ⟨result.1, place⟩ ∧ result.2.Placed L ⟨result.1, place⟩

theorem Value.placed_bind {c : Closure} {j : ι} (hr : L.routine j c.routine) (o : InstanceId) :
    (Value.function (w.heap.bind c o).2).Placed L (w.withScope (w.heap.bind c o).1 j) := by
  refine ⟨_, w.heap.functions_bind c o, ?_⟩
  change L.routine ((w.withScope _ j).place w.heap.forest.scopes.size) c.routine
  rw [w.place_withScope]
  exact hr

namespace World.LaidOut

/-- The arguments of a call may stand under the names of the parameters. -/
theorem defineAll (hw : w.LaidOut L) {e : ScopeId} {params : List Token} {args : List Value}
    (hparams : ∀ p ∈ params, L.declares (w.place e) p.lexeme) (hargs : ∀ v ∈ args, v.Placed L w) :
    L.Moves recorded w (w.withHeap (w.heap.defineAll e params args)) := by
  induction params generalizing w args with
  | nil =>
    unfold Heap.defineAll
    exact .refl
  | cons p params ih =>
    cases args with
    | nil =>
      unfold Heap.defineAll
      exact .refl
    | cons v args =>
      obtain ⟨hp, hparams⟩ := List.forall_mem_cons.1 hparams
      obtain ⟨hv, hargs⟩ := List.forall_mem_cons.1 hargs
      have hmove : L.Move recorded w (w.withHeap (w.heap.define e p.lexeme v)) := .define hp hv
      exact .head hmove (ih (hw.move hmove) hparams fun a ha => (hargs a ha).extend hw hmove.extends)

section

variable (hL : L.Lawful recorded) (hw : w.LaidOut L)

include hL hw

theorem bindOwn {o : InstanceId} {k : ClassId} {name : Text}
    {c : Closure} (hk : w.heap.classOf? o = some k) (hc : w.heap.method? k name = some c) :
    ∃ j, L.Move recorded w (w.withScope (w.heap.bind c o).1 j) ∧ L.routine j c.routine := by
  obtain ⟨j, hopens, hj, hr⟩ := hL.bind (hw.method? hc).2
  exact ⟨j, .bindOwn hk hc hopens hj hr, hr⟩

/-- A property of an instance is a field, or a method that is bound by a move. -/
theorem take {o : InstanceId} {name : Text} {p : Property}
    (hp : w.heap.property? o name = some p) : L.Gives recorded w (w.heap.take o p) := by
  unfold Heap.property? at hp
  split at hp
  · next v hv =>
    cases hp
    exact ⟨w.place, .refl, hw.fields o name v hv⟩
  · obtain ⟨c, hc, rfl⟩ := Option.map_eq_some_iff.1 hp
    obtain ⟨k, hk, hmethod⟩ := Option.bind_eq_some_iff.1 hc
    obtain ⟨j, hmove, hr⟩ := hw.bindOwn hL hk hmethod
    exact ⟨_, .single hmove, Value.placed_bind hr o⟩

/-- The scope of a call has a place at which the body of the routine may stand. -/
theorem enter {c : Closure}
    (hscope : c.scope < w.heap.forest.scopes.size) (hroutine : L.routine (w.place c.scope) c.routine)
    {args : List Value} (hargs : ∀ v ∈ args, v.Placed L w) :
    ∃ place, L.Moves recorded w ⟨(w.heap.enter c args).1, place⟩ ∧
      (w.heap.enter c args).2 < (w.heap.enter c args).1.forest.scopes.size ∧
      ∀ s ∈ c.routine.body, L.stmt (place (w.heap.enter c args).2) s := by
  obtain ⟨j, hopens, hparams, hbody⟩ := hL.call hroutine
  have hmove : L.Move recorded w (w.withScope (w.heap.newScope (some c.scope)).1 j) :=
    .newScope hscope hopens
  have hplace := w.place_withScope (w.heap.newScope (some c.scope)).1 j
  have hdefine : L.Moves recorded _ _ := (hw.move hmove).defineAll (e := w.heap.forest.scopes.size)
    (by rw [hplace]; exact hparams) fun v hv => (hargs v hv).extend hw hmove.extends
  refine ⟨_, .head hmove hdefine, ?_, ?_⟩
  · exact Nat.lt_of_lt_of_le (Forest.lt_size_of_enclosing? (w.heap.enclosing?_newScope c.scope))
      hdefine.extends.size
  · rw [show (w.heap.enter c args).2 = w.heap.forest.scopes.size from rfl, hplace]
    exact hbody

/-- A built-in function gives a value that may be called, if it is a function. -/
theorem perform {n : Native} {now : Number} {args : List Value} (hargs : ∀ v ∈ args, v.Placed L w)
    {action : NativeAction} (haction : n.call now w.heap args = .accepted action) :
    L.Gives recorded w (action.perform w.heap) := by
  cases Native.call_arises haction with
  | number | string | bool => exact ⟨w.place, .refl, trivial⟩
  | take hp => exact hw.take hL hp
  | store o name hv => exact ⟨w.place, .single (.setField (hargs _ hv) o name), trivial⟩
  | remove o name => exact ⟨w.place, .single (.removeField o name), trivial⟩

end

/-- The place of the scope a number of steps outwards. -/
theorem out (hw : w.LaidOut L) {e a : ScopeId} {d : Nat} (ha : w.heap.forest.ancestor? e d = some a) :
    L.Out d (w.place e) (w.place a) := by
  induction d generalizing e with
  | zero =>
    unfold Forest.ancestor? at ha
    split at ha
    · obtain rfl := Option.some.inj ha
      exact .here _
    · cases ha
  | succ d ih =>
    unfold Forest.ancestor? at ha
    split at ha
    · next outer houter => exact .further (hw.enclosing e outer houter).2 (ih ha)
    · cases ha

/-- A heap with no more than the globals is laid out. -/
theorem empty : (World.mk ⟨(Forest.empty.new none).1, #[], #[], #[]⟩ fun _ => L.top).LaidOut L := by
  refine ⟨Nat.zero_lt_one, rfl, fun e outer he => ?_, fun e name v hv => ?_, fun o name v hv => ?_,
    fun f c hc => ?_, fun k name f hf => ?_⟩
  · rw [Forest.enclosing?_new] at he
    split at he
    · cases he
    · simp [Forest.enclosing?, Forest.empty] at he
  · rw [Forest.slot?_new] at hv
    simp [Forest.slot?, Forest.empty] at hv
  · simp [Heap.field?] at hv
  · simp at hc
  · simp [Heap.ownMethod?] at hf

/-- The heap with which a session starts holds the built-in functions only. -/
theorem initial (hnatives : ∀ n : Native, L.declares L.top (text n.name)) :
    (World.mk Heap.initial fun _ => L.top).LaidOut L := by
  have hdefine : ∀ (natives : List Native) (f : Forest),
      (World.mk ⟨f, #[], #[], #[]⟩ fun _ => L.top).LaidOut L →
      (World.mk ⟨natives.foldl (fun f n => f.define Heap.globals (text n.name) (.native n)) f, #[], #[], #[]⟩
        fun _ => L.top).LaidOut L := by
    intro natives
    induction natives with
    | nil => exact fun _ h => h
    | cons n natives ih =>
      intro f hf
      exact ih _ (hf.define (e := Heap.globals) (v := .native n) (.inl (hnatives n)) trivial)
  exact hdefine Native.all _ empty

end World.LaidOut

section

variable (L w)

/-- A task that resumes at a place with what may stand there. -/
def Task.Placed (i : ι) : Task → Prop
  | .assign ref => ∃ e, L.expr i (.assign ref e)
  | .binaryLeft _ _ e | .logical _ e | .middle _ e | .setObject _ e => L.expr i e
  | .condition yes no => L.expr i yes ∧ L.expr i no
  | .choose _ v => v.Placed L w
  | .callee _ arguments => ∀ e ∈ arguments, L.expr i e
  | .argument _ v done rest => v.Placed L w ∧ (∀ a ∈ done, a.Placed L w) ∧ ∀ e ∈ rest, L.expr i e
  | .branch yes no => L.stmt i yes ∧ ∀ s ∈ no, L.stmt i s
  | .loopTest test body | .loopBody test body => L.stmt i (.loop test body)
  | .variable name => L.declares i name.lexeme
  | .superclass name _ methods => ∃ ref, L.stmt i (.classOf name (some ref) methods)
  | .sequence rest => ∀ s ∈ rest, L.stmt i s
  | _ => True

/-- The scope that is current when a task is done. -/
def Task.after (e : ScopeId) : Task → ScopeId
  | .leaveScope outer | .endBody _ outer => outer
  | _ => e

/-- Tasks that resume one after another, the first in a given scope. -/
inductive Task.AllPlaced : ScopeId → List Task → Prop where
  | nil {e : ScopeId} (he : e < w.heap.forest.scopes.size) : AllPlaced e []
  | cons {e : ScopeId} {t : Task} {tasks : List Task} (he : e < w.heap.forest.scopes.size)
    (ht : t.Placed L w (w.place e)) (hrest : AllPlaced (t.after e) tasks) : AllPlaced e (t :: tasks)

/-- A control that may stand at a place. -/
def Control.Placed (i : ι) : Control → Prop
  | .evaluate e => L.expr i e
  | .execute s => L.stmt i s
  | .deliver v => v.Placed L w
  | _ => True

end

/-- A machine that runs what may stand at the places of its scopes. -/
structure Machine.LaidOut (L : Layout ι) (recorded : Site → Option Nat) (place : ScopeId → ι)
    (m : Machine) : Prop where
  bindings : ∀ site, m.store.bindings[site]? = recorded site
  world : (World.mk m.store.heap place).LaidOut L
  control : m.control.Placed L ⟨m.store.heap, place⟩ (place m.store.scope)
  tasks : (∀ f, m.control ≠ .fault f) → Task.AllPlaced L ⟨m.store.heap, place⟩ m.store.scope m.tasks
  returning : ∀ v ∈ m.store.returning, v.Placed L ⟨m.store.heap, place⟩

section

variable {w' : World ι} {e : ScopeId} {tasks : List Task}

theorem Task.Placed.extend {i : ι} {t : Task} (ht : t.Placed L w i) (hw : w.LaidOut L)
    (hext : w.Extends w') : t.Placed L w' i := by
  cases t with
  | choose c v => exact Value.Placed.extend (v := v) ht hw hext
  | argument paren v done rest =>
    exact ⟨ht.1.extend hw hext, fun a ha => (ht.2.1 a ha).extend hw hext, ht.2.2⟩
  | _ => exact ht

theorem Task.AllPlaced.lt_size (ht : AllPlaced L w e tasks) : e < w.heap.forest.scopes.size := by
  cases ht <;> assumption

theorem Task.AllPlaced.extend (ht : AllPlaced L w e tasks) (hw : w.LaidOut L) (hext : w.Extends w') :
    AllPlaced L w' e tasks := by
  induction ht with
  | nil he => exact .nil (Nat.lt_of_lt_of_le he hext.size)
  | cons he ht _ ih =>
    refine .cons (Nat.lt_of_lt_of_le he hext.size) ?_ ih
    rw [hext.place _ he]
    exact ht.extend hw hext

end

namespace Machine

variable {place : ScopeId → ι} {s : Store} {tasks : List Task}

/-- What a step leads to: moves, after which the machine runs what may stand at the places of its
scopes. -/
def Goes (L : Layout ι) (recorded : Site → Option Nat) (place : ScopeId → ι) (h : Heap) (m : Machine) :
    Prop :=
  ∃ place', L.Moves recorded ⟨h, place⟩ ⟨m.store.heap, place'⟩ ∧ m.LaidOut L recorded place'

/-- A store whose world is laid out, with tasks that resume in the current scope. -/
structure Ready (L : Layout ι) (recorded : Site → Option Nat) (place : ScopeId → ι) (s : Store)
    (tasks : List Task) : Prop where
  bindings : ∀ site, s.bindings[site]? = recorded site
  world : (World.mk s.heap place).LaidOut L
  tasks : Task.AllPlaced L ⟨s.heap, place⟩ s.scope tasks
  returning : ∀ v ∈ s.returning, v.Placed L ⟨s.heap, place⟩

namespace Ready

section

variable (hs : Ready L recorded place s tasks)

include hs

/-- A store that differs in what moves do not change is as ready. -/
theorem of_eq {s' : Store} (hheap : s'.heap = s.heap)
    (hbindings : s'.bindings = s.bindings) (hscope : s'.scope = s.scope)
    (hreturning : s'.returning = s.returning) : Ready L recorded place s' tasks := by
  refine ⟨hbindings ▸ hs.bindings, hheap ▸ hs.world, ?_, ?_⟩
  · rw [hheap, hscope]
    exact hs.tasks
  · rw [hheap, hreturning]
    exact hs.returning

theorem push {t : Task} (ht : t.Placed L ⟨s.heap, place⟩ (place s.scope)) (hafter : t.after s.scope = s.scope) :
    Ready L recorded place s (t :: tasks) :=
  ⟨hs.bindings, hs.world, .cons hs.tasks.lt_size ht (hafter.symm ▸ hs.tasks), hs.returning⟩

theorem stay {c : Control} (hc : c.Placed L ⟨s.heap, place⟩ (place s.scope)) :
    Goes L recorded place s.heap ⟨c, tasks, s⟩ :=
  ⟨place, .refl, hs.bindings, hs.world, hc, fun _ => hs.tasks, hs.returning⟩

theorem evaluating {e : Expr} {t : Task} (he : L.expr (place s.scope) e)
    (ht : t.Placed L ⟨s.heap, place⟩ (place s.scope)) (hafter : t.after s.scope = s.scope) :
    Goes L recorded place s.heap (evaluating e t tasks s) :=
  (hs.push ht hafter).stay (c := .evaluate e) he

theorem moves {h : Heap} {place' : ScopeId → ι}
    (hmoves : L.Moves recorded ⟨s.heap, place⟩ ⟨h, place'⟩) :
    Ready L recorded place' { s with heap := h } tasks :=
  ⟨hs.bindings, hs.world.moves hmoves, hs.tasks.extend hs.world hmoves.extends,
    fun v hv => (hs.returning v hv).extend hs.world hmoves.extends⟩

theorem raise (t : Token) (cause : RuntimeCause) : Goes L recorded place s.heap (raise t cause tasks s) :=
  hs.stay trivial

theorem deliver {result : Heap × Value}
    (hgives : L.Gives recorded ⟨s.heap, place⟩ result) :
    Goes L recorded place s.heap ⟨.deliver result.2, tasks, { s with heap := result.1 }⟩ := by
  obtain ⟨place', hmoves, hv⟩ := hgives
  have hs' := hs.moves hmoves
  exact ⟨place', hmoves, hs'.bindings, hs'.world, hv, fun _ => hs'.tasks, hs'.returning⟩

theorem complete {h : Heap} {place' : ScopeId → ι} (hmoves : L.Moves recorded ⟨s.heap, place⟩ ⟨h, place'⟩)
    (c : Completion) : Goes L recorded place s.heap ⟨.complete c, tasks, { s with heap := h }⟩ := by
  have hs' := hs.moves hmoves
  exact ⟨place', hmoves, hs'.bindings, hs'.world, trivial, fun _ => hs'.tasks, hs'.returning⟩

theorem define {name : Token} {v : Value}
    (hname : L.declares (place s.scope) name.lexeme) (hv : v.Placed L ⟨s.heap, place⟩) :
    Goes L recorded place s.heap ⟨.complete .normal, tasks, s.define name v⟩ :=
  hs.complete (.single (.define hname hv)) .normal

/-- A value that a scope holds may be handed on. -/
theorem valueIn (e : ScopeId) (name : Text) : (s.heap.forest.valueIn e name).Placed L ⟨s.heap, place⟩ := by
  rw [Forest.valueIn_eq]
  cases hv : s.heap.forest.slot? e name with
  | none => trivial
  | some v => exact (hs.world.slots e name v hv).2

/-- A variable has a value that may be called, if it is a function. -/
theorem lookUp {ref : Reference} {v : Value} (hv : s.lookUp ref = .ok v) : v.Placed L ⟨s.heap, place⟩ := by
  unfold Store.lookUp at hv
  split at hv
  · split at hv
    · cases hv
    · next hat =>
      cases hv
      obtain ⟨a, -, rfl⟩ := Option.map_eq_some_iff.1 hat
      exact hs.valueIn a ref.name
    · cases hv
  · split at hv
    · next hget =>
      cases hv
      obtain ⟨a, -, rfl⟩ := Option.map_eq_some_iff.1 hget
      exact hs.valueIn a ref.name
    · cases hv

theorem handOn (ref : Reference) :
    Goes L recorded place s.heap (handOn ref.token (s.lookUp ref) tasks s) := by
  unfold Machine.handOn
  split
  · next v hv => exact hs.stay (c := .deliver v) (hs.lookUp hv)
  · exact hs.stay trivial
  · exact hs.raise ..

end

section

variable (hL : L.Lawful recorded) (hs : Ready L recorded place s tasks)

include hL hs

/-- A method of the superclass is bound by a move. -/
theorem superMethod {ref : Reference} {method : Token} (he : L.expr (place s.scope) (.super ref method)) :
    Goes L recorded place s.heap (superMethod ref method tasks s) := by
  unfold Machine.superMethod
  dsimp only
  rw [hs.bindings]
  split
  · next k o hk ho =>
    split
    · exact hs.raise ..
    · next c hc =>
      obtain ⟨j, hopens, hj, hr⟩ := hL.bind (hs.world.method? hc).2
      have hmove : L.Move recorded ⟨s.heap, place⟩ _ := .bindSuper he hk ho hc hopens hj hr
      have hgives : L.Gives recorded ⟨s.heap, place⟩ ((s.heap.bind c o).1, .function (s.heap.bind c o).2) :=
        ⟨_, .single hmove, Value.placed_bind (w := ⟨s.heap, place⟩) hr o⟩
      exact hs.deliver hgives
  · exact hs.stay trivial
  · exact hs.stay trivial
  · exact hs.stay trivial

/-- Evaluating an expression that may stand here makes moves. -/
theorem evaluate {e : Expr}
    (he : L.expr (place s.scope) e) : Goes L recorded place s.heap (evaluate e tasks s) := by
  have hoperand : ∀ {e'}, e' ∈ e.operands → L.expr (place s.scope) e' := fun he' => hL.operands he _ he'
  cases e with
  | literal _ l =>
    refine hs.stay (c := .deliver (.ofLiteral l)) ?_
    cases l <;> trivial
  | grouping _ inner => exact hs.stay (c := .evaluate inner) (hoperand (.head _))
  | «variable» ref | this ref => exact hs.handOn ref
  | super ref method => exact hs.superMethod hL he
  | assign target value => exact hs.evaluating (hoperand (.head _)) ⟨value, he⟩ rfl
  | unary | get => exact hs.evaluating (hoperand (.head _)) trivial rfl
  | binary | logical | set => exact hs.evaluating (hoperand (.head _)) (hoperand (.tail _ (.head _))) rfl
  | conditional =>
    have hyes := hoperand (.tail _ (.head _))
    have hno := hoperand (.tail _ (.tail _ (.head _)))
    exact hs.evaluating (hoperand (.head _)) ⟨hyes, hno⟩ rfl
  | call => exact hs.evaluating (hoperand (.head _)) (fun e' he' => hoperand (.tail _ he')) rfl

theorem declareRoutine {r : Routine} (hr : L.stmt (place s.scope) (.routine r)) :
    Goes L recorded place s.heap ⟨.complete .normal, tasks, s.declareRoutine r⟩ := by
  obtain ⟨hname, hroutine⟩ := hL.function hr
  have hmove : L.Move recorded ⟨s.heap, place⟩ _ := .function hs.tasks.lt_size hr
  have hfunction := s.heap.functions_newFunction ⟨r, s.scope, false⟩
  exact hs.complete (.tail (.single hmove)
    (.define (e := s.scope) (v := .function (s.newFunction r false).2) hname ⟨_, hfunction, hroutine⟩))
    .normal

end

end Ready

/-- The functions in a table are methods in a scope, under their names. -/
def AllMethods (L : Layout ι) (place : ScopeId → ι) (e : ScopeId) (made : Store × Table FunctionId) :
    Prop :=
  ∀ name f, made.2.get? name = some f → ∃ c, made.1.heap.functions[f]? = some c ∧
    c.scope = e ∧ c.routine.name.lexeme = name ∧ c.initializer = decide (name = initName) ∧
    L.method (place e) c.routine

/-- The methods of a class are made by moves. -/
theorem makeMethods_moves (recorded : Site → Option Nat) {e : ScopeId} {methods : List Routine}
    (hmethods : ∀ m ∈ methods, L.method (place e) m) (made : Store × Table FunctionId)
    (hscope : made.1.scope = e) (he : e < made.1.heap.forest.scopes.size)
    (hmade : AllMethods L place e made) :
    ∃ heap, (methods.foldl Store.addMethod made).1 = { made.1 with heap } ∧
      heap.forest = made.1.heap.forest ∧ heap.classes = made.1.heap.classes ∧
      L.Moves recorded ⟨made.1.heap, place⟩ ⟨heap, place⟩ ∧
      AllMethods L place e (methods.foldl Store.addMethod made) := by
  induction methods generalizing made with
  | nil => exact ⟨made.1.heap, rfl, rfl, rfl, .refl, hmade⟩
  | cons m rest ih =>
    obtain ⟨hm, hrest⟩ := List.forall_mem_cons.1 hmethods
    have hmove : L.Move recorded ⟨made.1.heap, place⟩ _ :=
      .method (decide (m.name.lexeme = initName)) he hm
    have hadded : AllMethods L place e (Store.addMethod made m) := by
      intro name f hf
      change (made.2.insert _ _).get? name = some f at hf
      -- Of two methods with one name the later one is in the table.
      rw [Table.get?_insert] at hf
      split at hf
      · next heq =>
        obtain rfl := Option.some.inj hf
        exact ⟨_, made.1.heap.functions_newFunction _, hscope, heq.symm, heq ▸ rfl, hm⟩
      · obtain ⟨c, hc, hold⟩ := hmade name f hf
        exact ⟨c, (made.1.heap.newFunction_grows _).functions f c hc, hold⟩
    obtain ⟨heap, hstore, hforest, hclasses, hmoves, hall⟩ :=
      ih hrest (Store.addMethod made m) hscope he hadded
    subst hscope
    exact ⟨heap, hstore, hforest, hclasses, .head hmove hmoves, hall⟩

namespace Ready

/-- Making a class from methods in a scope and naming it in another one. -/
theorem finishClass (recorded : Site → Option Nat) {e : ScopeId} (outer : ScopeId) {name : Token}
    (superclass : Option ClassId) {methods : List Routine} {h : Heap} (hscope : e < h.forest.scopes.size)
    (hmethods : ∀ m ∈ methods, L.method (place e) m)
    (hnone : superclass = none → ∃ t ms, L.stmt (place e) (.classOf t none ms))
    (hsome : ∀ k, superclass = some k → k < h.classes.size ∧
      h.forest.slot? e superName = some (.classValue k))
    (hname : L.declares (place outer) name.lexeme) (s : Store) :
    ∃ heap, ({ s with heap := h, scope := e }).finishClass outer name superclass methods =
        { s with heap, scope := outer } ∧ L.Moves recorded ⟨h, place⟩ ⟨heap, place⟩ := by
  have hempty : AllMethods L place e ({ s with heap := h, scope := e }, (Table.empty : Table FunctionId)) :=
    nofun
  obtain ⟨heap, hstore, hforest, hclasses, hmoves, hall⟩ := makeMethods_moves recorded hmethods
    ({ s with heap := h, scope := e }, .empty) rfl hscope hempty
  unfold Store.finishClass
  rw [← Store.makeMethods_eq] at hstore hall
  -- From here on only the heap that the methods left matters.
  generalize ({ s with heap := h, scope := e } : Store).makeMethods methods = made at hstore hall
  obtain ⟨made, table⟩ := made
  obtain rfl : made = _ := hstore
  have hclass : L.Move recorded ⟨heap, place⟩ _ :=
    .newClass ⟨name.lexeme, superclass, table⟩ (e := e) hall hnone
      (fun k hk => by rw [hclasses, hforest]; exact hsome k hk)
  refine ⟨_, rfl, (hmoves.tail hclass).tail (.define (e := outer) (v := .classValue heap.classes.size)
    hname ?_)⟩
  simp [Value.Placed, Heap.newClass]

section

variable (hL : L.Lawful recorded) (hs : Ready L recorded place s tasks)

include hL hs

/-- A class without a superclass is declared by moves. -/
theorem declareClass_none {name : Token}
    {methods : List Routine} (hstmt : L.stmt (place s.scope) (.classOf name none methods)) :
    Goes L recorded place s.heap ⟨.complete .normal, tasks, s.declareClass name none methods⟩ := by
  obtain ⟨hname, hmethods⟩ := hL.plainClass hstmt
  have hmove : L.Move recorded ⟨s.heap, place⟩ _ := .define (v := .nil) hname trivial
  obtain ⟨heap, hstore, hmoves⟩ := finishClass recorded s.scope none
    (h := (s.define name .nil).heap) (Nat.lt_of_lt_of_le hs.tasks.lt_size hmove.extends.size) hmethods
    (fun _ => ⟨_, _, hstmt⟩) nofun hname s
  rw [Store.declareClass_none, show s.define name .nil =
    { s with heap := (s.define name .nil).heap, scope := s.scope } from rfl, hstore]
  exact hs.complete (.head hmove hmoves) .normal

/-- A class with a superclass is declared by moves. -/
theorem declareClass_some {name : Token} {ref : Reference} {methods : List Routine} {k : ClassId}
    (hk : k < s.heap.classes.size) (hstmt : L.stmt (place s.scope) (.classOf name (some ref) methods)) :
    Goes L recorded place s.heap ⟨.complete .normal, tasks, s.declareClass name (some k) methods⟩ := by
  obtain ⟨hname, -, j, hopens, hj, hmethods⟩ := hL.subclass hstmt
  have hmove : L.Move recorded ⟨s.heap, place⟩ ⟨(s.define name .nil).heap, place⟩ :=
    .define (v := .nil) hname trivial
  have hscope := Nat.lt_of_lt_of_le hs.tasks.lt_size hmove.extends.size
  -- The methods stand in a scope of their own, whose place is new.
  have hopen : L.Move recorded ⟨(s.define name .nil).heap, place⟩ _ :=
    .openSuper hscope hopens hj hk
  have hplace := World.place_withScope (w := ⟨(s.define name .nil).heap, place⟩)
    ((s.define name .nil).heap.openWith s.scope superName (.classValue k)).1 j
  have hslot := (s.define name .nil).heap.slot?_openWith s.scope superName (.classValue k)
  obtain ⟨heap, hstore, hmoves⟩ := finishClass recorded s.scope (some k)
    (Forest.lt_size_of_slot? hslot) (hplace.symm ▸ hmethods) nofun
    (fun k' hk' => by
      obtain rfl := Option.some.inj hk'
      exact ⟨hk, hslot⟩)
    (by
      rw [hopen.extends.place _ hscope]
      exact hname) s
  rw [Store.declareClass_some, show (s.define name .nil).openSuper k = { s with
      heap := ((s.define name .nil).heap.openWith s.scope superName (.classValue k)).1
      scope := ((s.define name .nil).heap.openWith s.scope superName (.classValue k)).2 } from rfl, hstore]
  exact hs.complete (.head hmove (.head hopen hmoves)) .normal

/-- Executing a statement that may stand here makes moves. -/
theorem execute {stmt : Stmt}
    (hstmt : L.stmt (place s.scope) stmt) : Goes L recorded place s.heap (execute stmt tasks s) := by
  cases stmt with
  | expression e => exact hs.evaluating (hL.expression hstmt) trivial rfl
  | print e => exact hs.evaluating (hL.print hstmt) trivial rfl
  | returns keyword value =>
    cases value with
    | none =>
      have hvalue : ∀ v ∈ some Value.nil, v.Placed L ⟨s.heap, place⟩ := by
        rintro v ⟨⟩
        trivial
      exact ⟨place, .refl, hs.bindings, hs.world, trivial, fun _ => hs.tasks, hvalue⟩
    | some e => exact hs.evaluating (hL.returns hstmt) trivial rfl
  | branch test yes no =>
    obtain ⟨htest, hyes, hno⟩ := hL.branch hstmt
    exact hs.evaluating htest ⟨hyes, hno⟩ rfl
  | loop test body => exact hs.evaluating (hL.loop hstmt).1 hstmt rfl
  | block body =>
    obtain ⟨j, hopens, hbody⟩ := hL.block hstmt
    have hmove : L.Move recorded ⟨s.heap, place⟩ _ := .newScope hs.tasks.lt_size hopens
    have hs' := hs.moves (.single hmove)
    have hnew := Forest.lt_size_of_enclosing? (s.heap.enclosing?_newScope s.scope)
    have hplace := World.place_withScope (w := ⟨s.heap, place⟩) (s.heap.newScope (some s.scope)).1 j
    refine ⟨_, .single hmove, hs'.bindings, hs'.world, trivial, fun _ => ?_, hs'.returning⟩
    -- The tasks that wait in the outer scope keep their places: a move adds places only.
    refine .cons hnew (fun stmt hmem => ?_) (.cons hnew trivial hs'.tasks)
    exact hplace.symm ▸ hbody stmt hmem
  | «variable» name initializer =>
    obtain ⟨hname, hinitializer⟩ := hL.declaration hstmt
    cases initializer with
    | none => exact hs.define (v := .nil) hname trivial
    | some e => exact hs.evaluating (hinitializer e rfl) hname rfl
  | routine r => exact hs.declareRoutine hL hstmt
  | classOf name superclass methods =>
    cases superclass with
    | none => exact hs.declareClass_none hL hstmt
    | some ref => exact hs.evaluating (hL.subclass hstmt).2.1 ⟨ref, hstmt⟩ rfl

/-- A function is entered by moves. -/
theorem enterFunction {c : Closure}
    (hscope : c.scope < s.heap.forest.scopes.size) (hroutine : L.routine (place c.scope) c.routine)
    {args : List Value} (hargs : ∀ v ∈ args, v.Placed L ⟨s.heap, place⟩) :
    Goes L recorded place s.heap (enterFunction c args tasks s) := by
  unfold Machine.enterFunction
  split
  · exact hs.stay trivial
  · obtain ⟨place', hmoves, hsize, hbody⟩ := hs.world.enter hL hscope hroutine hargs
    have hs' := hs.moves hmoves
    refine ⟨place', hmoves, hs'.bindings, hs'.world, trivial, fun _ => ?_, hs'.returning⟩
    exact .cons hsize hbody (.cons hsize trivial hs'.tasks)

end

theorem after {h : Heap} {place' : ScopeId → ι} {m : Machine}
    (hmoves : L.Moves recorded ⟨h, place⟩ ⟨s.heap, place'⟩)
    (hgoes : Goes L recorded place' s.heap m) : Goes L recorded place h m := by
  obtain ⟨place'', hmoves', hm⟩ := hgoes
  exact ⟨place'', hmoves.trans hmoves', hm⟩

section

variable (hL : L.Lawful recorded) (hs : Ready L recorded place s tasks)

include hL hs

section

variable {args : List Value} (hargs : ∀ v ∈ args, v.Placed L ⟨s.heap, place⟩)

include hargs

/-- An instance is made, and its initializer entered, by moves. -/
theorem construct (k : ClassId) : Goes L recorded place s.heap (construct k args tasks s) := by
  have hnew : L.Move recorded ⟨s.heap, place⟩ ⟨(s.newInstance k).1.heap, place⟩ := .newInstance k
  have hs' : Ready L recorded place (s.newInstance k).1 tasks := hs.moves (.single hnew)
  have hclass : (s.newInstance k).1.heap.classOf? (s.newInstance k).2 = some k := by
    simp [Heap.classOf?, Store.newInstance, Heap.newInstance]
  refine after (.single hnew) (s := (s.newInstance k).1) ?_
  unfold Machine.construct
  dsimp only
  split
  · exact hs'.stay trivial
  · next c hc =>
    obtain ⟨j, hbind, hr⟩ := hs'.world.bindOwn hL hclass hc
    have hfunction := (s.newInstance k).1.heap.functions_bind c (s.newInstance k).2
    have hs'' : Ready L recorded _ ((s.newInstance k).1.bind c (s.newInstance k).2).1 tasks :=
      hs'.moves (.single hbind)
    obtain ⟨bound, hbound, hcallable⟩ := Value.placed_bind (w := ⟨(s.newInstance k).1.heap, place⟩) hr
      (s.newInstance k).2
    -- Two moves, the instance and then the bound initializer; the arguments are placed after both.
    refine after (.single hbind) (s := ((s.newInstance k).1.bind c (s.newInstance k).2).1) ?_
    split
    · next bound' hbound' =>
      obtain rfl := Option.some.inj (hbound.symm.trans hbound')
      refine (hs''.push (t := .construct _) trivial rfl).enterFunction hL
        (hs''.world.functions _ _ hbound) hcallable fun v hv => ?_
      exact ((hargs v hv).extend hs.world hnew.extends).extend hs'.world hbind.extends
    · exact hs''.stay trivial

/-- A built-in function makes moves. -/
theorem callNative (limits : Limits) (n : Native) (paren : Token) :
    Goes L recorded place s.heap (callNative limits n args paren tasks s) := by
  unfold Machine.callNative
  dsimp only
  split
  · next a ha =>
    have hgives : L.Gives recorded ⟨s.heap, place⟩ (a.perform s.heap) := hs.world.perform hL hargs ha
    obtain ⟨place', hmoves, hv⟩ := hgives
    have hs' := hs.moves hmoves
    exact ⟨place', hmoves, hs'.bindings, hs'.world, hv, fun _ => hs'.tasks, hs'.returning⟩
  · exact ⟨place, .refl, hs.bindings, hs.world, trivial, fun _ => hs.tasks, hs.returning⟩
  · exact ⟨place, .refl, hs.bindings, hs.world, trivial, fun _ => hs.tasks, hs.returning⟩

/-- A call makes moves, whatever is called. -/
theorem apply (limits : Limits) {callee : Value} (hcallee : callee.Placed L ⟨s.heap, place⟩) (paren : Token) :
    Goes L recorded place s.heap (apply limits callee args paren tasks s) := by
  have hframe : ∀ name, Ready L recorded place (pushFrame name paren s) tasks :=
    fun name => hs.of_eq rfl rfl rfl rfl
  unfold Machine.apply
  split
  · exact hs.raise ..
  · dsimp only
    split_ifs
    · exact hs.raise ..
    · exact hs.stay trivial
    · split
      · exact hs.callNative hL hargs limits _ paren
      · next f _ =>
        obtain ⟨c, hc, hroutine⟩ := hcallee
        dsimp only at hc
        rw [hc]
        exact ((hframe _).push (t := .endCall _ paren) trivial rfl).enterFunction hL
          (hs.world.functions f c hc) hroutine hargs
      · exact ((hframe _).push (t := .endCall _ paren) trivial rfl).construct hL hargs _
      · exact hs.stay trivial

end

/-- Going on with the next argument, or calling, makes moves. -/
theorem nextArgument (limits : Limits)
    (paren : Token) {callee : Value} (hcallee : callee.Placed L ⟨s.heap, place⟩) {done : List Value}
    (hdone : ∀ v ∈ done, v.Placed L ⟨s.heap, place⟩) {rest : List Expr}
    (hrest : ∀ e ∈ rest, L.expr (place s.scope) e) :
    Goes L recorded place s.heap (nextArgument limits paren callee done rest tasks s) := by
  cases rest with
  | nil => exact hs.apply hL (fun v hv => hdone v (List.mem_reverse.1 hv)) limits hcallee paren
  | cons e rest =>
    obtain ⟨he, hrest⟩ := List.forall_mem_cons.1 hrest
    exact hs.evaluating he ⟨hcallee, hdone, hrest⟩ rfl

end

theorem handOnApplied (hs : Ready L recorded place s tasks) {t : Token}
    {result : Except RuntimeCause Value} (hresult : ∀ v, result = .ok v → v.Placed L ⟨s.heap, place⟩) :
    Goes L recorded place s.heap (handOnApplied t result tasks s) := by
  unfold Machine.handOnApplied
  split
  · next v => exact hs.stay (c := .deliver v) (hresult v rfl)
  · exact hs.raise ..

section

variable (hL : L.Lawful recorded) (hs : Ready L recorded place s tasks) (limits : Limits) {v : Value}
  (hv : v.Placed L ⟨s.heap, place⟩)

include hL hs limits hv

/-- An assignment is a move. -/
theorem assign {ref : Reference} {value : Expr} (he : L.expr (place s.scope) (.assign ref value)) :
    Goes L recorded place s.heap (resume limits v (.assign ref) tasks s) := by
  unfold resume
  dsimp only
  split
  · next e htarget =>
    -- A recorded distance leads to a scope at a known place; without one the variable is global.
    have hname : L.declares (place e) ref.name := by
      unfold Store.target at htarget
      rw [hs.bindings] at htarget
      split at htarget
      · next d hd =>
        split at htarget
        · next a ha =>
          cases htarget
          exact hL.assigned he hd (hs.world.out ha)
        · cases htarget
      · next hd =>
        split at htarget
        · next a ha =>
          cases htarget
          obtain ⟨old, hold⟩ := Option.isSome_iff_exists.1 (Forest.slot?_of_holder? ha)
          have hname : L.declares (place e) ref.name ∨ L.reserves (place e) ref.name :=
            (hs.world.slots e ref.name old hold).1
          rw [Forest.holder?_globals ha, show place Heap.globals = L.top from hs.world.top] at hname ⊢
          exact hname.elim id (hL.assignedTop he hd)
        · cases htarget
    have hmove : L.Move recorded ⟨s.heap, place⟩ ⟨s.heap.define e ref.name v, place⟩ := .define hname hv
    have hgives : L.Gives recorded ⟨s.heap, place⟩ (s.heap.define e ref.name v, v) :=
      ⟨place, .single hmove, hv.extend hs.world hmove.extends⟩
    exact hs.deliver hgives
  · exact hs.stay trivial
  · exact hs.raise ..

/-- Resuming a task makes moves. -/
theorem resume {t : Task} (ht : t.Placed L ⟨s.heap, place⟩ (place s.scope)) :
    Goes L recorded place s.heap (resume limits v t tasks s) := by
  cases t with
  | assign ref =>
    obtain ⟨value, he⟩ := ht
    exact hs.assign hL limits hv he
  | unary op sign => exact hs.handOnApplied fun a ha => .of_valid (applyUnary_valid ha)
  | binaryLeft op sign right => exact hs.evaluating ht trivial rfl
  | binaryRight op sign left => exact hs.handOnApplied fun a ha => .of_valid (applyBinary_valid ha)
  | logical op right =>
    unfold Machine.resume
    dsimp only
    split_ifs
    · exact hs.stay (c := .deliver v) hv
    · exact hs.stay (c := .evaluate right) ht
  | condition yes no => exact hs.evaluating ht.1 ht.2 rfl
  | middle test no => exact hs.evaluating ht hv rfl
  | choose test yes =>
    refine hs.stay (c := .deliver (if test.truthy then yes else v)) ?_
    change Value.Placed L _ (if test.truthy then yes else v)
    split_ifs
    · exact ht
    · exact hv
  | callee paren arguments => exact hs.nextArgument hL limits paren hv (by simp) ht
  | argument paren callee done rest =>
    exact hs.nextArgument hL limits paren ht.1 (List.forall_mem_cons.2 ⟨hv, ht.2.1⟩) ht.2.2
  | get name =>
    unfold Machine.resume
    dsimp only
    split
    · split
      · next p hp => exact hs.deliver (hs.world.take hL hp)
      · exact hs.raise ..
    · exact hs.raise ..
  | setObject name value =>
    unfold Machine.resume
    dsimp only
    split
    · next o => exact hs.evaluating ht trivial rfl
    · exact hs.raise ..
  | setValue name o =>
    have hmove : L.Move recorded ⟨s.heap, place⟩ ⟨s.heap.setField o name.lexeme v, place⟩ :=
      .setField hv o name.lexeme
    have hgives : L.Gives recorded ⟨s.heap, place⟩ (s.heap.setField o name.lexeme v, v) :=
      ⟨place, .single hmove, hv.extend hs.world hmove.extends⟩
    exact hs.deliver hgives
  | discard | construct o | sequence | loopBody | leaveScope | endBody => exact hs.stay trivial
  | print => exact ⟨place, .refl, hs.bindings, hs.world, trivial, fun _ => hs.tasks, hs.returning⟩
  | returnValue =>
    refine ⟨place, .refl, hs.bindings, hs.world, trivial, fun _ => hs.tasks, ?_⟩
    rintro a ⟨⟩
    exact hv
  | branch yes no =>
    unfold Machine.resume
    dsimp only
    split_ifs
    · exact hs.stay (c := .execute yes) ht.1
    · split
      · next no => exact hs.stay (c := .execute no) (ht.2 no rfl)
      · exact hs.stay trivial
  | loopTest test body =>
    unfold Machine.resume
    dsimp only
    split_ifs
    · exact (hs.push (t := .loopBody test body) ht rfl).stay (c := .execute body) (hL.loop ht).2
    · exact hs.stay trivial
  | «variable» name => exact hs.define ht hv
  | superclass name token methods =>
    obtain ⟨ref, hstmt⟩ := ht
    unfold Machine.resume
    dsimp only
    split
    · exact hs.declareClass_some hL hv hstmt
    · exact hs.raise ..
  | endCall name paren => exact ⟨place, .refl, hs.bindings, hs.world, hv, fun _ => hs.tasks, hs.returning⟩

end

/-- At the end of a body the result may be called, if it is a function. -/
theorem endBody (hs : Ready L recorded place s tasks) (c : Completion) (closure : Closure) (e : ScopeId) :
    Goes L recorded place s.heap (endBody c closure s.scope tasks { s with scope := e }) := by
  have hs' : Ready L recorded place { s with returning := none } tasks :=
    ⟨hs.bindings, hs.world, hs.tasks, nofun⟩
  have hresult : ∀ returned : Option Value, (∀ v ∈ returned, v.Placed L ⟨s.heap, place⟩) →
      (s.heap.result closure returned).Placed L ⟨s.heap, place⟩ := by
    intro returned hreturned
    unfold Heap.result
    split
    · exact hs'.valueIn closure.scope thisName
    · split
      · trivial
      · trivial
      · exact hreturned _ rfl
  cases c <;> unfold Machine.endBody <;> dsimp only <;> split
  · exact hs.stay trivial
  · exact hs.stay (c := .deliver _) (hresult none nofun)
  · exact hs'.stay trivial
  · exact hs'.stay (c := .deliver _) (hresult _ hs.returning)

end Ready

namespace LaidOut

variable {m : Machine}

/-- A machine about to run a program that is laid out at the top. -/
theorem start (hs : ∀ site, s.bindings[site]? = recorded site) (hw : (World.mk s.heap place).LaidOut L)
    {program : Program} (hprogram : ∀ stmt ∈ program, L.stmt L.top stmt) :
    (start program s).LaidOut L recorded place := by
  refine ⟨hs, hw, trivial, fun _ => .cons hw.globals (fun stmt hstmt => ?_) (.nil hw.globals), nofun⟩
  change L.stmt (place Heap.globals) stmt
  rw [show place Heap.globals = L.top from hw.top]
  exact hprogram stmt hstmt

/-- The rest of the tasks resume in the scope that is current after a task. -/
theorem ready_after {control : Control} {t : Task} (hm : LaidOut L recorded place ⟨control, t :: tasks, s⟩)
    (hfault : ∀ f, control ≠ .fault f) :
    t.Placed L ⟨s.heap, place⟩ (place s.scope) ∧
      Ready L recorded place { s with scope := t.after s.scope } tasks := by
  cases hm.tasks hfault with
  | cons he ht hrest => exact ⟨ht, hm.bindings, hm.world, hrest, hm.returning⟩

/-- A step makes moves, after which the machine is laid out as before. -/
theorem step (hL : L.Lawful recorded) (limits : Limits) (hm : m.LaidOut L recorded place) :
    Goes L recorded place m.store.heap (m.step limits) := by
  obtain ⟨control, tasks, s⟩ := m
  have hready : (∀ f, control ≠ .fault f) → Ready L recorded place s tasks := fun h =>
    ⟨hm.bindings, hm.world, hm.tasks h, hm.returning⟩
  have hfault : ∀ f, Goes L recorded place s.heap ⟨.fault f, tasks, s⟩ := fun f =>
    ⟨place, .refl, hm.bindings, hm.world, trivial, fun h => absurd rfl (h f), hm.returning⟩
  cases control with
  | evaluate e => exact (hready nofun).evaluate hL hm.control
  | execute stmt => exact (hready nofun).execute hL hm.control
  | deliver v =>
    cases tasks with
    | nil => exact hfault _
    | cons t tasks =>
      obtain ⟨ht, hs⟩ := hm.ready_after nofun
      cases t with
      -- These tasks wait for a statement, so a value for them is a fault.
      | leaveScope outer | endBody closure outer =>
        exact ⟨place, .refl, hm.bindings, hm.world, trivial, fun h => absurd rfl (h _), hm.returning⟩
      | _ => exact hs.resume hL limits hm.control ht
  | complete c =>
    cases tasks with
    | nil =>
      cases c with
      | normal => exact (hready nofun).stay trivial
      | returned => exact hfault _
    | cons t tasks =>
      obtain ⟨ht, hs⟩ := hm.ready_after nofun
      cases t with
      | sequence rest =>
        cases c with
        | returned => cases rest <;> exact hs.stay trivial
        | normal =>
          cases rest with
          | nil => exact hs.stay trivial
          | cons stmt rest =>
            obtain ⟨hstmt, hrest⟩ := List.forall_mem_cons.1 ht
            exact (hs.push (t := .sequence rest) hrest rfl).stay (c := .execute stmt) hstmt
      | loopBody test body =>
        cases c with
        | returned => exact hs.stay trivial
        | normal => exact hs.evaluating (hL.loop ht).1 ht rfl
      | leaveScope outer => exact hs.stay trivial
      | endBody closure outer => exact hs.endBody c closure s.scope
      | _ => exact hs.stay trivial
  | unwind f =>
    cases tasks with
    | nil => exact (hready nofun).stay trivial
    | cons t tasks =>
      obtain ⟨-, hs⟩ := hm.ready_after nofun
      cases t with
      | endCall name paren =>
        cases f <;>
          exact ⟨place, .refl, hs.bindings, hs.world, trivial, fun _ => hs.tasks, hs.returning⟩
      | _ => exact hs.stay trivial
  | fault f => exact hfault f

/-- What the moves preserve of a world that is laid out holds after every run. -/
theorem run {P : World ι → Prop} (hL : L.Lawful recorded) (limits : Limits)
    (hP : ∀ {w w'}, w.LaidOut L → P w → L.Move recorded w w' → P w') (n : Nat)
    (hm : m.LaidOut L recorded place) (hheap : P ⟨m.store.heap, place⟩) :
    ∃ place', (m.run limits n).LaidOut L recorded place' ∧ P ⟨(m.run limits n).store.heap, place'⟩ := by
  have hmoves : ∀ {w w'}, w.LaidOut L → P w → L.Moves recorded w w' → P w' := by
    intro w w' hw hPw hmoves
    have hboth : w'.LaidOut L ∧ P w' := by
      induction hmoves with
      | refl => exact ⟨hw, hPw⟩
      | tail _ hmove ih => exact ⟨ih.1.move hmove, hP ih.1 ih.2 hmove⟩
    exact hboth.2
  induction n generalizing m place with
  | zero => exact ⟨place, hm, hheap⟩
  | succ n ih =>
    rw [Machine.run]
    split
    · exact ⟨place, hm, hheap⟩
    · obtain ⟨place', hsteps, hm'⟩ := hm.step hL limits
      exact ih hm' (hmoves hm.world hheap hsteps)

end LaidOut

end Machine

end Lox
