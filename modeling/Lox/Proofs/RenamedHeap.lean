import Lox.Proofs.RenamedBinding
import Lox.Proofs.LayoutRun
import Lox.Proofs.MirroredHeap

/-!
# Heaps of a program with a renamed variable

The heap of the old program is that of the renamed one with the old name given back: in the scopes, and in the
routines of functions (`Heap.original`). The places of scopes, by which `Renaming.layout` says what may stand in
them, are the number of scopes out to the renamed one. A scope never holds both names, so what is found under a
name is found under the name that it was, and the heap operations take heaps that correspond to heaps that
correspond.
-/

namespace Lox

/-! ## The layout of renamed programs -/

theorem Stmt.FitsAll.forall_mem {σ : Renaming} {ss : List Stmt} {m : Option Nat} (h : Stmt.FitsAll σ ss m) :
    ∀ s ∈ ss, s.Fits σ m := by
  induction ss with
  | nil => simp
  | cons s ss ih => exact List.forall_mem_cons.2 ⟨h.1, ih h.2⟩

theorem Routine.FitsAll.forall_mem {σ : Renaming} {rs : List Routine} {m : Option Nat}
    (h : Routine.FitsAll σ rs m) : ∀ r ∈ rs, r.Fits σ m := by
  induction rs with
  | nil => simp
  | cons r rs ih => exact List.forall_mem_cons.2 ⟨h.1, ih h.2⟩

namespace Renaming

variable {σ : Renaming}

/-- The places of a renamed program: how many scopes out the renamed one is, if it is around. -/
def layout (σ : Renaming) : Layout (Option Nat) where
  top := none
  opens := Enters
  declares := σ.Keeps
  reserves _ name := name = thisName ∨ name = superName
  expr i e := ∀ p ∈ e.references, p.1.Fits σ i p.2
  stmt i s := s.Fits σ i
  routine i r := r.Fits σ i
  method i r := r.Fits σ (i.map (· + 1))

/-- A name may stand in a scope some steps out exactly if it may stand at the place of that scope. -/
theorem keeps_of_out {d : Nat} {i j : Option Nat} {name : Text} (h : σ.layout.Out d i j)
    (hname : σ.KeepsAt i d name) : σ.Keeps j name := by
  induction h with
  | here => exact hname
  | further hopens _ ih => exact ih ((keepsAt_enters hopens).1 hname)

theorem Proper.keeps_of_reserved (hσ : σ.Proper) {i : Option Nat} {name : Text}
    (h : name = thisName ∨ name = superName) : σ.Keeps i name := by
  rcases h with rfl | rfl
  · exact keepsAt_of_ne hσ.new.1.symm hσ.old.1.symm
  · exact keepsAt_of_ne hσ.new.2.symm hσ.old.2.symm

/-- The parts of what fits at a place fit at the places of the parts. -/
theorem layout_lawful (σ : Renaming) : σ.layout.Lawful σ.recorded where
  operands he e' he' p hp := he p (Expr.references_operand he' hp)
  assigned he hrecorded hout := keeps_of_out hout (keepsAt_of_fits (he _ (.head _)) hrecorded)
  assignedTop he hrecorded _ := .of_avoids (original_of_fits (he _ (.head _)) hrecorded)
  expression h := h
  print h := h
  returns h := h
  branch {i condition yes no} h := by
    cases no with
    | none => exact ⟨h.1, h.2, nofun⟩
    | some no =>
      refine ⟨h.1, h.2.1, ?_⟩
      rintro s ⟨⟩
      exact h.2.2
  loop h := h
  block h := by
    obtain ⟨inner, henters, hbody⟩ := h
    exact ⟨inner, henters, hbody.forall_mem⟩
  declaration {i t e} h := by
    refine ⟨h.1, ?_⟩
    rintro e' ⟨⟩
    exact h.2
  function h := ⟨h.1.1, h.2⟩
  plainClass h := ⟨h.1.1, h.2.forall_mem⟩
  subclass {i t ref methods} h := by
    refine ⟨h.1.1, ?_, i.map (· + 1), .inl rfl, .inr rfl, fun r hr => ?_⟩
    · intro p hp
      obtain rfl := List.mem_singleton.1 hp
      exact h.2.1
    -- Two scopes lie between the class and its methods: that of the superclass and that of the instance.
    · change r.Fits σ ((i.map (· + 1)).map (· + 1))
      rw [Option.map_map]
      exact h.2.2.forall_mem r hr
  call {i r} h := by
    obtain ⟨name, params, body⟩ := r
    obtain ⟨inner, henters, hparams, hbody⟩ := h
    exact ⟨inner, henters, hparams, hbody.forall_mem⟩
  bind {i r} h := ⟨i.map (· + 1), .inl rfl, .inl rfl, h⟩

end Renaming

/-! ## Heaps with the old name -/

theorem Routine.name_rename (f : NameMap) (r : Routine) (k : Nat) : (r.rename f k).name = r.name := by
  cases r
  rfl

/-- A scope with the old name given back. -/
def Scope.original (σ : Renaming) (s : Scope) : Scope := { s with names := s.names.mapNames σ.original }

/-- A function with the old name given back. -/
def Closure.original (σ : Renaming) (c : Closure) : Closure := { c with routine := c.routine.rename σ.back 0 }

/-- A heap with the old name given back. -/
def Heap.original (σ : Renaming) (h : Heap) : Heap :=
  { h with
    forest := ⟨h.forest.scopes.map (Scope.original σ)⟩
    functions := h.functions.map (Closure.original σ) }

/-- The names in a scope may stand at a place. -/
def Heap.KeptAt (σ : Renaming) (h : Heap) (e : ScopeId) (i : Option Nat) : Prop :=
  ∀ name v, h.forest.slot? e name = some v → σ.Keeps i name

theorem World.LaidOut.keptAt {σ : Renaming} (hσ : σ.Proper) {w : World (Option Nat)}
    (hw : w.LaidOut σ.layout) (e : ScopeId) : w.heap.KeptAt σ e (w.place e) := by
  intro name v hv
  rcases (hw.slots e name v hv).1 with hdeclares | hreserves
  · exact hdeclares
  · exact hσ.keeps_of_reserved hreserves

namespace Heap

variable {σ : Renaming} {h : Heap} {e : ScopeId} {i : Option Nat} {name : Text}

/-! ### What a heap answers -/

section

variable (h e)

theorem size_original : (h.original σ).forest.scopes.size = h.forest.scopes.size :=
  Array.size_map

theorem scopes_original : (h.original σ).forest.scopes[e]? = h.forest.scopes[e]?.map (Scope.original σ) :=
  Array.getElem?_map

theorem functions_original (f : FunctionId) :
    (h.original σ).functions[f]? = h.functions[f]?.map (Closure.original σ) :=
  Array.getElem?_map

theorem enclosing?_original : (h.original σ).forest.enclosing? e = h.forest.enclosing? e := by
  rw [Forest.enclosing?, Forest.enclosing?, scopes_original, Option.bind_map]
  rfl

theorem ancestor?_original (d : Nat) : (h.original σ).forest.ancestor? e d = h.forest.ancestor? e d := by
  induction d generalizing e with
  | zero => rw [Forest.ancestor?, Forest.ancestor?, size_original]
  | succ d ih =>
    rw [Forest.ancestor?, Forest.ancestor?, enclosing?_original]
    split
    · exact ih _
    · rfl

end

section

variable (hkept : h.KeptAt σ e i) (hname : σ.Keeps i name)

include hkept hname

/-- A name that may stand in a scope is told from the others when the old name is given back. -/
theorem KeptAt.apart {s : Scope} (hs : h.forest.scopes[e]? = some s) : s.names.Apart σ.original name := by
  refine Renaming.KeepsAt.apart (m := i) (i := 0) (fun n hn => ?_) hname
  obtain ⟨v, hv⟩ := Option.isSome_iff_exists.1 hn
  refine hkept n v ?_
  rw [Forest.slot?, hs]
  exact hv

/-- What a scope holds under a name it holds under the name that it was. -/
theorem KeptAt.slot?_original : (h.original σ).forest.slot? e (σ.original name) = h.forest.slot? e name := by
  rw [Forest.slot?, Forest.slot?, scopes_original]
  cases hs : h.forest.scopes[e]? with
  | none => rfl
  | some s => exact Table.get?_mapNames (hkept.apart hname hs)

theorem KeptAt.valueIn_original :
    (h.original σ).forest.valueIn e (σ.original name) = h.forest.valueIn e name := by
  rw [Forest.valueIn_eq, Forest.valueIn_eq, hkept.slot?_original hname]

end

theorem KeptAt.holder?_original (hkept : h.KeptAt σ globals i) (hname : σ.Keeps i name) :
    (h.original σ).forest.holder? globals (σ.original name) = h.forest.holder? globals name := by
  rw [Forest.holder?_globals_eq, Forest.holder?_globals_eq, hkept.slot?_original hname]

theorem KeptAt.get?_original (hkept : h.KeptAt σ globals i) (hname : σ.Keeps i name) :
    (h.original σ).forest.get? globals (σ.original name) = h.forest.get? globals name := by
  rw [Forest.get?, Forest.get?, hkept.holder?_original hname]
  cases he : h.forest.holder? globals name with
  | none => rfl
  | some e =>
    obtain rfl := Forest.holder?_globals he
    exact congrArg some (hkept.valueIn_original hname)

theorem arity_original (c : Closure) : (c.original σ).routine.arity = c.routine.arity := by
  obtain ⟨⟨name, params, body⟩, scope, initializer⟩ := c
  exact List.length_map _

/-- Giving the old name back keeps the name of a function and the number of its parameters. -/
theorem disguise_original (σ : Renaming) : Closure.Disguise (Closure.original σ) where
  name c := c.routine.name_rename σ.back 0
  arity := arity_original

variable (h)

/-- Apart from the scopes, only the functions are others when the old name is given back. -/
theorem mirrors_original : h.Mirrors (Closure.original σ) (h.original σ) := ⟨rfl, rfl, rfl⟩

theorem arity?_original (v : Value) : (h.original σ).arity? v = h.arity? v :=
  h.mirrors_original.arity? (disguise_original σ) v

theorem callName_original (v : Value) : (h.original σ).callName v = h.callName v :=
  h.mirrors_original.callName (disguise_original σ) v

theorem display_original (v : Value) : (h.original σ).display v = h.display v :=
  h.mirrors_original.display (disguise_original σ) v

theorem method?_original (c : ClassId) (name : Text) :
    (h.original σ).method? c name = (h.method? c name).map (Closure.original σ) :=
  h.mirrors_original.method? c name

end Heap

/-- A property with the old name given back. -/
def Property.original (σ : Renaming) : Property → Property
  | .field v => .field v
  | .method closure => .method (closure.original σ)

/-- What a built-in function does, with the old name given back. -/
def NativeAction.original (σ : Renaming) : NativeAction → NativeAction
  | .take o p => .take o (p.original σ)
  | a => a

/-- What comes of calling a built-in function, with the old name given back. -/
def NativeResult.original (σ : Renaming) : NativeResult → NativeResult
  | .accepted a => .accepted (a.original σ)
  | r => r

theorem Property.mapClosure_original (σ : Renaming) :
    Property.mapClosure (Closure.original σ) = Property.original σ := by
  funext p
  cases p <;> rfl

/-- Giving the old name back in a result is a map of its closures. -/
theorem NativeResult.mapClosure_original (σ : Renaming) (r : NativeResult) :
    r.mapClosure (Closure.original σ) = r.original σ := by
  cases r with
  | accepted a =>
    cases a with
    | take o p =>
      exact congrArg (fun q => NativeResult.accepted (.take o q)) (congrFun (Property.mapClosure_original σ) p)
    | _ => rfl
  | _ => rfl

namespace Heap

variable {σ : Renaming} {h : Heap} {e : ScopeId} {i : Option Nat} {name : Text}

theorem property?_original (h : Heap) (o : InstanceId) (name : Text) :
    (h.original σ).property? o name = (h.property? o name).map (Property.original σ) := by
  rw [h.mirrors_original.property?, Property.mapClosure_original]

theorem nativeCall_original (n : Native) (now : Number) (h : Heap) (args : List Value) :
    n.call now (h.original σ) args = (n.call now h args).original σ := by
  rw [h.mirrors_original.nativeCall (disguise_original σ), NativeResult.mapClosure_original]

/-! ### What the operations make of a heap -/

theorem newScope_original (h : Heap) (enclosing : Option ScopeId) :
    (h.original σ).newScope enclosing = ((h.newScope enclosing).1.original σ, (h.newScope enclosing).2) := by
  unfold newScope Forest.new original
  simp [Scope.original, Table.mapNames, Table.empty]

theorem newFunction_original (h : Heap) (c : Closure) :
    (h.original σ).newFunction (c.original σ) = ((h.newFunction c).1.original σ, (h.newFunction c).2) := by
  unfold newFunction original
  simp

/-- A value is put under a name alike under both names. -/
theorem KeptAt.define_original (hkept : h.KeptAt σ e i) (hname : σ.Keeps i name) (v : Value) :
    (h.define e name v).original σ = (h.original σ).define e (σ.original name) v := by
  unfold define Forest.define original
  congr 2
  refine Array.ext_getElem? fun j => ?_
  simp only [Array.getElem?_map, Array.getElem?_modify]
  split
  · next heq =>
    subst heq
    cases hs : h.forest.scopes[e]? with
    | none => rfl
    | some s =>
      have happart := hkept.apart hname hs
      simp [Scope.original, Table.mapNames_insert happart]
  · rfl

theorem KeptAt.define (hkept : h.KeptAt σ e i) (hname : σ.Keeps i name) (v : Value) :
    (h.define e name v).KeptAt σ e i := by
  intro other w hw
  rw [show (h.define e name v).forest = h.forest.define e name v from rfl, Forest.slot?_define] at hw
  split at hw
  · next heq => exact heq.2.1 ▸ hname
  · exact hkept other w hw

theorem keptAt_newScope (h : Heap) (outer : ScopeId) (i : Option Nat) :
    (h.newScope (some outer)).1.KeptAt σ (h.newScope (some outer)).2 i := by
  intro name v hv
  rw [slot?_newScope] at hv
  cases hv

/-- A scope with `this` or `super` is made alike under both names. -/
theorem openWith_original (hσ : σ.Proper) (h : Heap) (outer : ScopeId)
    (hname : name = thisName ∨ name = superName) (v : Value) :
    (h.original σ).openWith outer name v =
      ((h.openWith outer name v).1.original σ, (h.openWith outer name v).2) := by
  have hkeeps : σ.Keeps none name := hσ.keeps_of_reserved hname
  have hself : σ.original name = name := Renaming.original_of_ne fun hnew => nomatch hkeeps.1 hnew
  have hdefine := (keptAt_newScope h outer none).define_original hkeeps v
  unfold openWith
  dsimp only
  rw [newScope_original, hdefine, hself]

/-- A method is bound alike under both names. -/
theorem bind_original (hσ : σ.Proper) (h : Heap) (c : Closure) (o : InstanceId) :
    (h.original σ).bind (c.original σ) o = ((h.bind c o).1.original σ, (h.bind c o).2) := by
  have hopen := openWith_original hσ h c.scope (.inl rfl) (.instanceValue o)
  have hfunction := newFunction_original (σ := σ) (h.openWith c.scope thisName (.instanceValue o)).1
    { c with scope := (h.openWith c.scope thisName (.instanceValue o)).2 }
  rw [show (h.original σ).bind (c.original σ) o =
    ((h.original σ).openWith c.scope thisName (.instanceValue o)).1.newFunction { c.original σ with
      scope := ((h.original σ).openWith c.scope thisName (.instanceValue o)).2 } from rfl, hopen]
  exact hfunction

theorem take_original (hσ : σ.Proper) (h : Heap) (o : InstanceId) (p : Property) :
    (h.original σ).take o (p.original σ) = ((h.take o p).1.original σ, (h.take o p).2) := by
  cases p with
  | field v => rfl
  | method c =>
    unfold Property.original take
    dsimp only
    rw [bind_original hσ]

theorem perform_original (hσ : σ.Proper) (h : Heap) (a : NativeAction) :
    (a.original σ).perform (h.original σ) = ((a.perform h).1.original σ, (a.perform h).2) := by
  cases a with
  | take o p => exact take_original hσ h o p
  | _ => rfl

/-- Putting arguments under the names of parameters that may stand in the scope. -/
theorem KeptAt.defineAll_original (hkept : h.KeptAt σ e i) {params : List Token}
    (hparams : ∀ p ∈ params, σ.Keeps i p.lexeme) (args : List Value) (k : Nat) :
    (h.defineAll e params args).original σ =
      (h.original σ).defineAll e (params.map (σ.back.declaration k)) args := by
  induction params generalizing h args with
  | nil => rfl
  | cons p params ih =>
    cases args with
    | nil => rfl
    | cons v args =>
      obtain ⟨hp, hparams⟩ := List.forall_mem_cons.1 hparams
      rw [defineAll, ih (hkept.define hp v) hparams, hkept.define_original hp v]
      rfl

/-- A function is entered alike under both names. -/
theorem enter_original (h : Heap) {c : Closure} {args : List Value} (hroutine : ∃ i, c.routine.Fits σ i) :
    (h.original σ).enter (c.original σ) args = ((h.enter c args).1.original σ, (h.enter c args).2) := by
  obtain ⟨⟨name, params, body⟩, scope, initializer⟩ := c
  obtain ⟨i, inner, -, hparams, -⟩ := hroutine
  have hdefine := (keptAt_newScope h scope inner).defineAll_original hparams args 1
  unfold enter Closure.original
  dsimp only
  rw [newScope_original]
  exact Prod.ext hdefine.symm rfl

theorem KeptAt.result_original (hσ : σ.Proper) {c : Closure} (hkept : h.KeptAt σ c.scope i)
    (returned : Option Value) : (h.original σ).result (c.original σ) returned = h.result c returned := by
  have hkeeps : σ.Keeps i thisName := hσ.keeps_of_reserved (.inl rfl)
  have hvalue := hkept.valueIn_original hkeeps
  rw [Renaming.original_of_ne (Ne.symm hσ.new.1)] at hvalue
  unfold result
  rw [show (c.original σ).initializer = c.initializer from rfl,
    show (c.original σ).scope = c.scope from rfl, hvalue]

end Heap

end Lox
