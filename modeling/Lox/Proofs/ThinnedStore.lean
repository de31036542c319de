import Lox.Proofs.LayoutRun
import Lox.Proofs.ThinnedHeap

/-!
# Stores without empty scopes

Two stores correspond if their heaps do, up to the scopes of the blocks of a loop, and if they have the distances
with and without these scopes (`Store.Thins`). A reference leads to scopes that correspond, so lookups find the
same and assignments go to the same variable; declarations make the same functions and classes.
-/

namespace Lox

namespace Thinning

variable (T : Thinning)

/-- What is recorded about a reference at a place, with and without the scope of the block around it. -/
def Fits : Option Nat → Usage × Reference → Prop
  | none, p => T.thinned p.2.site = T.recorded p.2.site
  | some k, p => Phrase.Lowers T.recorded T.thinned T.off k p

/-- What is recorded without the scopes of the blocks is right for all programs of a walk. -/
structure Lawful (walk : Walk) : Prop where
  kept : ∀ {b : Binder} {n : Phrase}, walk b n → ∀ p ∈ n.own, T.thinned p.2.site = T.recorded p.2.site
  lowers : ∀ {b : Binder} {n : Phrase}, walk b n → ∀ p ∈ n.own, p.2.site ∈ T.inside →
    ∃ k, b.scopes.length = k + 1 + T.depth ∧ Phrase.Lowers T.recorded T.thinned T.off k p

variable {T} {i : Option Nat} {p : Usage × Reference}

theorem Fits.moved (h : T.Fits i p) :
    T.thinned (p.2.site + T.shift i) = (T.recorded p.2.site).map (lower i) := by
  cases i with
  | none => exact (show T.thinned p.2.site = _ from h).trans (by cases T.recorded p.2.site <;> rfl)
  | some k => exact Phrase.Lowers.moved h

/-- A reference never leads to the scope of a block. -/
theorem Fits.passes (h : T.Fits i p) {d : Nat} (hd : T.recorded p.2.site = some d) : Passes i d := by
  rintro k rfl rfl
  exact Phrase.Lowers.apart h hd

/-- The distance of `super` leads one scope further out than that of `this`. -/
theorem Fits.super (h : T.Fits i p) (hu : p.1 = .super) {d : Nat} (hd : T.recorded p.2.site = some (d + 1)) :
    Passes i d ∧ lower i (d + 1) - 1 = lower i d := by
  cases i with
  | none => exact ⟨nofun, rfl⟩
  | some k =>
    obtain ⟨d', hd', hne⟩ := Phrase.Lowers.super h hu
    obtain rfl : d' = d := Nat.succ.inj (Option.some.inj (hd'.symm.trans hd))
    have hnext : d' + 1 ≠ k := h.passes hd' k rfl
    refine ⟨fun k' hk' => Option.some.inj hk' ▸ hne, ?_⟩
    change lowered k (d' + 1) - 1 = lowered k d'
    unfold lowered
    split_ifs <;> omega

/-- An expression that stands at a place is bound as many scopes further in. -/
theorem Lawful.fits {walk : Walk} (hT : T.Lawful walk) {g : Shadow} {f f' : Forest} (hf : f.Thins T g f')
    {e : ScopeId} (he : e < f.scopes.size) {b : Binder} {n : Phrase} (hvisit : walk b n)
    (hdepth : f.Depth e b.scopes.length) (hp : p ∈ n.own) (hcovers : T.Covers (g.place e) [p]) :
    T.Fits (g.place e) p := by
  cases hk : g.place e with
  | none => exact hT.kept hvisit p hp
  | some k =>
    obtain ⟨k', hlength, hlowers⟩ := hT.lowers hvisit p hp (hcovers (by rw [hk]; exact nofun) p (.head _))
    have hsame : k + 1 + T.depth = k' + 1 + T.depth := by
      rw [← hlength]
      exact (hf.depth_of_place he hk).unique hdepth
    obtain rfl : k = k' := by omega
    exact hlowers

end Thinning

/-- The second store is the first one without the scopes of the blocks of a loop. -/
structure Store.Thins (T : Thinning) (g : Shadow) (s s' : Store) : Prop where
  heap : s.heap.Thins T g s'.heap
  scope_lt : s.scope < s.heap.forest.scopes.size
  recorded : ∀ site, s.bindings[site]? = T.recorded site
  thinned : ∀ site, s'.bindings[site]? = T.thinned site
  same : s' = { s with heap := s'.heap, bindings := s'.bindings, scope := g.scope s.scope }

namespace Store.Thins

variable {T : Thinning} {g g' : Shadow} {s s' : Store} (h : s.Thins T g s')

include h

theorem scope : s'.scope = g.scope s.scope := by rw [h.same]

theorem frames : s'.frames = s.frames := by rw [h.same]

theorem returning : s'.returning = s.returning := by rw [h.same]

theorem printed : s'.printed = s.printed := by rw [h.same]

theorem log : s'.log = s.log := by rw [h.same]

theorem readings : s'.readings = s.readings := by rw [h.same]

theorem frame : s'.frame = s.frame := by rw [Store.frame, Store.frame, h.frames]

/-! ## Changes -/

theorem withHeap {heap heap' : Heap} (hheap : heap.Thins T g' heap')
    (hext : g.Extends s.heap.forest.scopes.size g')
    (hsize : s.heap.forest.scopes.size ≤ heap.forest.scopes.size) :
    Store.Thins T g' { s with heap } { s' with heap := heap' } := by
  refine ⟨hheap, Nat.lt_of_lt_of_le h.scope_lt hsize, h.recorded, h.thinned, ?_⟩
  dsimp only
  rw [(hext s.scope h.scope_lt).2, h.same]

theorem withHeap_same {heap heap' : Heap} (hheap : heap.Thins T g heap')
    (hsize : heap.forest.scopes.size = s.heap.forest.scopes.size) :
    Store.Thins T g { s with heap } { s' with heap := heap' } :=
  h.withHeap hheap (.refl _ _) hsize.ge

theorem withScope {e e' : ScopeId} (he : e < s.heap.forest.scopes.size)
    (he' : e' = g.scope e) : Store.Thins T g { s with scope := e } { s' with scope := e' } := by
  refine ⟨h.heap, he, h.recorded, h.thinned, ?_⟩
  dsimp only
  rw [he', h.same]

/-- What the heaps, scopes and distances do not say may be changed alike. -/
theorem withOthers (frames : Array Text) (returning : Option Value)
    (printed : Array Text) (log : Array LogRecord) (readings : Nat) :
    Store.Thins T g { s with frames, returning, printed, log, readings }
      { s' with frames, returning, printed, log, readings } := by
  refine ⟨h.heap, h.scope_lt, h.recorded, h.thinned, ?_⟩
  dsimp only
  rw [h.scope]

theorem pushFrame (name : Text) (paren : Token) :
    (Machine.pushFrame name paren s).Thins T g (Machine.pushFrame name paren s') := by
  unfold Machine.pushFrame
  rw [h.frames, h.log, h.returning, h.printed, h.readings]
  exact h.withOthers _ _ _ _ _

theorem popFrame (name : Text) : (Machine.popFrame name s).Thins T g (Machine.popFrame name s') := by
  unfold Machine.popFrame
  rw [h.frames, h.log, h.returning, h.printed, h.readings]
  exact h.withOthers _ _ _ _ _

/-! ## Looking names up -/

section

variable {u : Usage} {ref : Reference} (hfits : T.Fits (g.place s.scope) (u, ref))

include hfits

theorem getElem?_moved :
    s'.bindings[(ref.moved (T.shift (g.place s.scope))).site]? =
      s.bindings[ref.site]?.map (Thinning.lower (g.place s.scope)) := by
  rw [h.thinned, h.recorded]
  exact hfits.moved

theorem getAt?_moved {d : Nat} (hd : s.bindings[ref.site]? = some d) (name : Text) :
    s'.heap.forest.getAt? s'.scope (Thinning.lower (g.place s.scope) d) name =
      s.heap.forest.getAt? s.scope d name := by
  rw [h.scope]
  exact h.heap.forest.getAt?_eq h.scope_lt (hfits.passes ((h.recorded _).symm.trans hd)) name

/-- A reference has the same value in both stores. -/
theorem lookUp_moved : s'.lookUp (ref.moved (T.shift (g.place s.scope))) = s.lookUp ref := by
  unfold Store.lookUp
  rw [h.getElem?_moved hfits, show (ref.moved (T.shift (g.place s.scope))).name = ref.name from rfl]
  cases hd : s.bindings[ref.site]? with
  | some d =>
    dsimp only [Option.map_some]
    rw [h.getAt?_moved hfits hd]
  | none =>
    dsimp only [Option.map_none]
    rw [h.heap.forest.get?_globals_eq]

/-- An assignment goes to the same scope, which is not that of a block. -/
theorem target_moved :
    s'.target (ref.moved (T.shift (g.place s.scope))) = (s.target ref).map g.scope ∧
      ∀ e, s.target ref = .ok e → e < s.heap.forest.scopes.size ∧ g.place e ≠ some 0 := by
  unfold Store.target
  rw [h.getElem?_moved hfits, show (ref.moved (T.shift (g.place s.scope))).name = ref.name from rfl]
  cases hd : s.bindings[ref.site]? with
  | some d =>
    have hpasses := hfits.passes ((h.recorded _).symm.trans hd)
    dsimp only [Option.map_some]
    rw [h.scope, h.heap.forest.ancestor?_eq h.scope_lt hpasses]
    cases ha : s.heap.forest.ancestor? s.scope d with
    | none => exact ⟨rfl, nofun⟩
    | some a =>
      refine ⟨rfl, fun e he => ?_⟩
      obtain rfl : a = e := Except.ok.inj he
      exact h.heap.forest.place_ancestor h.scope_lt hpasses ha
  | none =>
    obtain ⟨hplace, hscope⟩ := h.heap.forest.globals
    dsimp only [Option.map_none]
    rw [h.heap.forest.holder?_globals_eq]
    cases ha : s.heap.forest.holder? Heap.globals ref.name with
    | none => exact ⟨rfl, nofun⟩
    | some a =>
      obtain rfl := Forest.holder?_globals ha
      refine ⟨congrArg Except.ok hscope.symm, fun e he => ?_⟩
      obtain rfl : Heap.globals = e := Except.ok.inj he
      refine ⟨h.heap.forest.globals_lt, ?_⟩
      rw [hplace]
      exact nofun

end

/-! ## Declarations -/

theorem put {e : ScopeId} (he : e < s.heap.forest.scopes.size) (hplace : g.place e ≠ some 0) (name : Text)
    (v : Value) : (s.put e name v).Thins T g (s'.put (g.scope e) name v) :=
  h.withHeap_same (h.heap.define he hplace name v) (s.heap.forest.size_define e name v)

theorem define (hplace : g.place s.scope ≠ some 0) (name : Token) (v : Value) :
    (s.define name v).Thins T g (s'.define name v) := by
  have hput := h.put h.scope_lt hplace name.lexeme v
  rw [← h.scope] at hput
  exact hput

/-- The shadow after a scope was opened in the current one. -/
abbrev opened (g : Shadow) (s s' : Store) : Shadow := Heap.Thins.opened g s.heap s'.heap s.scope

theorem openScope : s.openScope.Thins T (opened g s s') s'.openScope := by
  have hsize := Forest.size_new s.heap.forest (some s.scope)
  have hheap := h.heap.newScope h.scope_lt
  rw [← h.scope] at hheap
  refine (h.withHeap hheap (.set _ _ _ _) (hsize.ge.trans' (Nat.le_succ _))).withScope ?_ ?_
  · exact hsize.symm ▸ Nat.lt_succ_self _
  · exact (Heap.Thins.place_opened g s.heap s'.heap s.scope).2.symm

/-- The scope of a block is opened in one store only. -/
theorem openBlock (hscope : s.scope = T.loop) :
    s.openScope.Thins T (Forest.Thins.begun T.loop g s.heap.forest) s' := by
  have hsize := Forest.size_new s.heap.forest (some T.loop)
  have hopen : s.openScope = { s with
      heap := (s.heap.newScope (some T.loop)).1
      scope := s.heap.forest.scopes.size } := by
    rw [← hscope]
    rfl
  have hscope' : (Forest.Thins.begun T.loop g s.heap.forest).scope s.heap.forest.scopes.size = s'.scope := by
    rw [h.scope, hscope, (h.heap.forest.old T.loop (Nat.le_refl _)).2]
    exact g.scope_set ..
  have hheap := h.withHeap h.heap.newBlock (.set _ _ _ _) (hsize.ge.trans' (Nat.le_succ _))
  rw [hopen]
  exact hheap.withScope (hsize.symm ▸ Nat.lt_succ_self _) hscope'.symm

section

variable (hplace : g.place s.scope ≠ some 0) {r : Routine}
  (hr : T.Covers (g.place s.scope) r.references)

include hplace hr

/-- A function is made alike in both stores. -/
theorem newFunction (initializer : Bool) :
    (s.newFunction r initializer).1.Thins T g
        (s'.newFunction (r.moved (T.shift (g.place s.scope))) initializer).1 ∧
      (s'.newFunction (r.moved (T.shift (g.place s.scope))) initializer).2 =
        (s.newFunction r initializer).2 := by
  have hmade := h.heap.newFunction (c := ⟨r, s.scope, initializer⟩) ⟨h.scope_lt, hplace, hr⟩
  have hthin : Closure.thin T g ⟨r, s.scope, initializer⟩ =
      ⟨r.moved (T.shift (g.place s.scope)), s'.scope, initializer⟩ := by
    rw [h.scope]
    rfl
  rw [hthin] at hmade
  exact ⟨h.withHeap_same hmade.1 rfl, hmade.2⟩

theorem declareRoutine :
    (s.declareRoutine r).Thins T g (s'.declareRoutine (r.moved (T.shift (g.place s.scope)))) := by
  obtain ⟨hmade, hsame⟩ := h.newFunction hplace hr false
  unfold Store.declareRoutine
  rw [Routine.name_moved]
  dsimp only
  rw [hsame]
  exact hmade.define hplace r.name _

end

omit h in
/-- Methods are made one by one and get the same numbers. -/
theorem addMethods (methods : List Routine) (made made' : Store × Table FunctionId)
    (h : made.1.Thins T g made'.1) (htable : made'.2 = made.2) (hplace : g.place made.1.scope ≠ some 0)
    (hmethods : T.Covers (g.place made.1.scope) (Routine.referencesOfAll methods)) :
    (methods.foldl Store.addMethod made).1.Thins T g
        ((Routine.movedAll (T.shift (g.place made.1.scope)) methods).foldl Store.addMethod made').1 ∧
      ((Routine.movedAll (T.shift (g.place made.1.scope)) methods).foldl Store.addMethod made').2 =
        (methods.foldl Store.addMethod made).2 := by
  induction methods generalizing made made' with
  | nil => exact ⟨h, htable⟩
  | cons m rest ih =>
    obtain ⟨hmade, hsame⟩ := h.newFunction hplace (hmethods.mono (List.subset_append_left _ _))
      (m.name.lexeme = initName)
    rw [Routine.movedAll, List.foldl_cons, List.foldl_cons]
    refine ih (Store.addMethod made m) _ ?_ ?_ hplace (hmethods.mono (List.subset_append_right _ _))
    · unfold Store.addMethod
      rw [Routine.name_moved]
      exact hmade
    · unfold Store.addMethod
      dsimp only
      rw [Routine.name_moved, hsame, htable]

theorem makeMethods (hplace : g.place s.scope ≠ some 0) {methods : List Routine}
    (hmethods : T.Covers (g.place s.scope) (Routine.referencesOfAll methods)) :
    (s.makeMethods methods).1.Thins T g
        (s'.makeMethods (Routine.movedAll (T.shift (g.place s.scope)) methods)).1 ∧
      (s'.makeMethods (Routine.movedAll (T.shift (g.place s.scope)) methods)).2 =
        (s.makeMethods methods).2 := by
  rw [Store.makeMethods_eq, Store.makeMethods_eq]
  exact addMethods methods (s, .empty) (s', .empty) h rfl hplace hmethods

/-- A class gets its methods in the current scope and its name in another one. -/
theorem finishClass (hplace : g.place s.scope ≠ some 0) {outer : ScopeId}
    (houter : outer < s.heap.forest.scopes.size) (hplace' : g.place outer ≠ some 0) (name : Token)
    (superclass : Option ClassId) {methods : List Routine}
    (hmethods : T.Covers (g.place s.scope) (Routine.referencesOfAll methods)) :
    (s.finishClass outer name superclass methods).Thins T g (s'.finishClass (g.scope outer) name superclass
      (Routine.movedAll (T.shift (g.place s.scope)) methods)) := by
  obtain ⟨hmade, htable⟩ := h.makeMethods hplace hmethods
  unfold Store.finishClass
  dsimp only
  rw [htable]
  generalize hinfo : ClassInfo.mk name.lexeme superclass (s.makeMethods methods).2 = info
  obtain ⟨hclass, hsame⟩ := hmade.heap.newClass info
  have hnamed : Store.Thins T g { (s.makeMethods methods).1.newClass info |>.1 with scope := outer }
      { (s'.makeMethods (Routine.movedAll (T.shift (g.place s.scope)) methods)).1.newClass info |>.1 with
        scope := g.scope outer } := by
    refine (hmade.withHeap_same hclass rfl).withScope ?_ rfl
    change outer < (s.makeMethods methods).1.heap.forest.scopes.size
    rw [Store.forest_makeMethods]
    exact houter
  have hdefined := hnamed.define hplace' name (.classValue ((s.makeMethods methods).1.newClass info).2)
  unfold Store.newClass at hdefined ⊢
  dsimp only at hdefined ⊢
  rw [hsame]
  exact hdefined

/-- A scope with a superclass is made alike in both stores. -/
theorem openSuper (k : ClassId) : (s.openSuper k).Thins T (opened g s s') (s'.openSuper k) := by
  have hsize : (s.heap.openWith s.scope superName (.classValue k)).1.forest.scopes.size =
      s.heap.forest.scopes.size + 1 :=
    (Forest.size_define _ _ _ _).trans (Forest.size_new _ _)
  have hheap := h.heap.openWith h.scope_lt superName (.classValue k)
  rw [← h.scope] at hheap
  refine (h.withHeap hheap (.set _ _ _ _) (hsize.ge.trans' (Nat.le_succ _))).withScope ?_ ?_
  · exact hsize.symm ▸ Nat.lt_succ_self _
  · exact (Heap.Thins.place_opened g s.heap s'.heap s.scope).2.symm

/-- A class declaration may open a scope for the superclass. -/
theorem declareClass (hplace : g.place s.scope ≠ some 0) (name : Token) (superclass : Option ClassId)
    {methods : List Routine} (hmethods : T.Covers (g.place s.scope) (Routine.referencesOfAll methods)) :
    ∃ g', g.Extends s.heap.forest.scopes.size g' ∧
      s.heap.forest.scopes.size ≤ (s.declareClass name superclass methods).heap.forest.scopes.size ∧
      (s.declareClass name superclass methods).Thins T g' (s'.declareClass name superclass
        (Routine.movedAll (T.shift (g.place s.scope)) methods)) := by
  have hnamed := h.define hplace name .nil
  have hsize : (s.define name .nil).heap.forest.scopes.size = s.heap.forest.scopes.size :=
    s.heap.forest.size_define s.scope name.lexeme .nil
  have hfinish : ∀ (s : Store) (outer : ScopeId) (superclass : Option ClassId) (methods : List Routine),
      (s.finishClass outer name superclass methods).heap.forest.scopes.size = s.heap.forest.scopes.size := by
    intro s outer superclass methods
    refine (Forest.size_define _ _ _ _).trans ?_
    exact congrArg (·.scopes.size) (s.forest_makeMethods methods)
  cases superclass with
  | none =>
    refine ⟨g, .refl _ _, ?_, ?_⟩
    · rw [Store.declareClass_none, hfinish, hsize]
    · rw [Store.declareClass_none, Store.declareClass_none, h.scope]
      exact hnamed.finishClass hplace hnamed.scope_lt hplace name none hmethods
  | some k =>
    have hopened := hnamed.openSuper k
    have hsize' : ((s.define name .nil).openSuper k).heap.forest.scopes.size =
        s.heap.forest.scopes.size + 1 := by
      rw [← hsize]
      exact (Forest.size_define _ _ _ _).trans (Forest.size_new _ _)
    have hext : g.Extends s.heap.forest.scopes.size (opened g (s.define name .nil) (s'.define name .nil)) := by
      rw [← hsize]
      exact .set _ _ _ _
    obtain ⟨hsame, hsame'⟩ := hext s.scope h.scope_lt
    have hplace₁ : (opened g (s.define name .nil) (s'.define name .nil)).place
        ((s.define name .nil).openSuper k).scope = (g.place s.scope).map (· + 1) :=
      (Heap.Thins.place_opened g (s.define name .nil).heap (s'.define name .nil).heap s.scope).1
    have hcovers : T.Covers ((opened g (s.define name .nil) (s'.define name .nil)).place
        ((s.define name .nil).openSuper k).scope) (Routine.referencesOfAll methods) := by
      rw [hplace₁]
      exact hmethods.inward
    have houter : s.scope < ((s.define name .nil).openSuper k).heap.forest.scopes.size := by
      rw [hsize']
      exact Nat.lt_succ_of_lt h.scope_lt
    have hfinished := hopened.finishClass (Heap.Thins.place_opened_ne g _ _ _) houter
      (by rw [hsame]; exact hplace) name (some k) hcovers
    refine ⟨_, hext, ?_, ?_⟩
    · rw [Store.declareClass_some, hfinish, hsize']
      exact Nat.le_succ _
    · rw [Store.declareClass_some, Store.declareClass_some, h.scope, ← hsame']
      have hshift : T.shift ((opened g (s.define name .nil) (s'.define name .nil)).place
          ((s.define name .nil).openSuper k).scope) = T.shift (g.place s.scope) := by
        rw [hplace₁, T.shift_inward]
      rw [hshift] at hfinished
      exact hfinished

theorem bind {c : Closure} (hc : c.Stands T g s.heap.forest.scopes.size) (o : InstanceId) :
    (s.bind c o).1.Thins T (Heap.Thins.opened g s.heap s'.heap c.scope) (s'.bind (c.thin T g) o).1 ∧
      (s'.bind (c.thin T g) o).2 = (s.bind c o).2 := by
  obtain ⟨hbound, hsame⟩ := h.heap.bind hc o
  exact ⟨h.withHeap hbound (.set _ _ _ _) (s.heap.bind_grows c o).forest.size, hsame⟩

end Store.Thins

end Lox
