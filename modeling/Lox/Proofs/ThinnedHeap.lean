import Lox.Proofs.DirectBinding
import Lox.Proofs.MirroredHeap
import Mathlib.Logic.Function.Basic

/-!
# Heaps without empty scopes

A loop whose body is a block makes a scope for the block in each round. If the block declares nothing these
scopes stay empty, and a heap without them holds the same: `Heap.Thins` relates a heap to one without the scopes
of the blocks. Each of these scopes stands directly in the scope of the loop, all of them in the same one. The
other scopes correspond one to one, and what stands inside a block is bound at other sites, without the scope of
the block.

A `Shadow` says for each scope which one it is in the other heap, and how many scopes further in than the scope
of a block it stands. The shadow grows with the heap; all operations take heaps that correspond to heaps that
correspond.
-/

namespace Lox

/-- A loop whose blocks have no scopes in another heap. -/
structure Thinning where
  loop : ScopeId
  /-- The number of scopes from that of the loop out to the globals. -/
  depth : Nat
  /-- The sites of what stands in the blocks. -/
  inside : List Site
  /-- How many sites further on the same stands that is bound without the scopes of the blocks. -/
  off : Nat
  /-- What is recorded about the sites with the scopes of the blocks. -/
  recorded : Site → Option Nat
  /-- What is recorded about them without these scopes. -/
  thinned : Site → Option Nat

/-- The scopes of one heap in another: how many scopes further in than that of a block they stand, if inside of
one, and which scope each of them is. -/
structure Shadow where
  place : ScopeId → Option Nat
  scope : ScopeId → ScopeId

namespace Shadow

/-- The shadow of another scope. -/
def set (g : Shadow) (e : ScopeId) (i : Option Nat) (e' : ScopeId) : Shadow :=
  ⟨Function.update g.place e i, Function.update g.scope e e'⟩

/-- A later shadow has the same scopes below a bound. -/
def Extends (n : Nat) (g g' : Shadow) : Prop := ∀ e < n, g'.place e = g.place e ∧ g'.scope e = g.scope e

variable {n m : Nat} {g g' g'' : Shadow}

theorem Extends.refl (n : Nat) (g : Shadow) : Extends n g g := fun _ _ => ⟨rfl, rfl⟩

theorem Extends.trans (h : Extends n g g') (hle : n ≤ m) (h' : Extends m g' g'') : Extends n g g'' := by
  intro e he
  obtain ⟨hplace, hscope⟩ := h e he
  obtain ⟨hplace', hscope'⟩ := h' e (Nat.lt_of_lt_of_le he hle)
  exact ⟨hplace'.trans hplace, hscope'.trans hscope⟩

theorem Extends.set (g : Shadow) (n : Nat) (i : Option Nat) (e' : ScopeId) : Extends n g (g.set n i e') :=
  fun _ he => ⟨Function.update_of_ne (Nat.ne_of_lt he) .., Function.update_of_ne (Nat.ne_of_lt he) ..⟩

theorem place_set (g : Shadow) (e : ScopeId) (i : Option Nat) (e' : ScopeId) : (g.set e i e').place e = i :=
  Function.update_self ..

theorem scope_set (g : Shadow) (e : ScopeId) (i : Option Nat) (e' : ScopeId) : (g.set e i e').scope e = e' :=
  Function.update_self ..

end Shadow

namespace Thinning

variable (T : Thinning)

/-- How many sites further on the code at a place is bound. -/
def shift : Option Nat → Nat
  | none => 0
  | some _ => T.off

/-- The references that stand inside of a block are among those of the block. -/
def Covers (i : Option Nat) (refs : List (Usage × Reference)) : Prop :=
  i ≠ none → ∀ p ∈ refs, p.2.site ∈ T.inside

variable {T}

theorem Covers.mono {i : Option Nat} {refs refs' : List (Usage × Reference)} (h : T.Covers i refs)
    (hrefs : refs' ⊆ refs) : T.Covers i refs' :=
  fun hi p hp => h hi p (hrefs hp)

theorem covers_none (refs : List (Usage × Reference)) : T.Covers none refs := fun h => absurd rfl h

theorem Covers.inward {i : Option Nat} {refs : List (Usage × Reference)} (h : T.Covers i refs) :
    T.Covers (i.map (· + 1)) refs := by
  cases i with
  | none => exact covers_none refs
  | some k => exact fun _ => h nofun

theorem shift_inward (T : Thinning) (i : Option Nat) : T.shift (i.map (· + 1)) = T.shift i := by
  cases i <;> rfl

/-- A distance from a place without the scope of the block around it. -/
def lower : Option Nat → Nat → Nat
  | none, d => d
  | some k, d => lowered k d

/-- From a place a distance does not lead to the scope of a block. -/
def Passes (i : Option Nat) (d : Nat) : Prop := ∀ k, i = some k → d ≠ k

theorem passes_none (d : Nat) : Passes none d := nofun

end Thinning

/-! ## Forests -/

/-- The second forest is the first one without the scopes of the blocks of a loop. -/
structure Forest.Thins (T : Thinning) (g : Shadow) (f f' : Forest) : Prop where
  loop_lt : T.loop < f.scopes.size
  depth : f.Depth T.loop T.depth
  /-- The scopes that were there before the blocks are the same. -/
  old : ∀ e ≤ T.loop, g.place e = none ∧ g.scope e = e
  block : ∀ e < f.scopes.size, g.place e = some 0 →
    f.scopes[e]? = some ⟨some T.loop, .empty⟩ ∧ g.scope e = T.loop
  kept : ∀ e s, f.scopes[e]? = some s → g.place e ≠ some 0 →
    f'.scopes[g.scope e]? = some ⟨s.enclosing.map g.scope, s.names⟩ ∧
      g.place e = (s.enclosing.bind g.place).map (· + 1)
  enclosing : ∀ e outer, f.enclosing? e = some outer → outer < f.scopes.size
  apart : ∀ e < f.scopes.size, ∀ e' < f.scopes.size, g.place e ≠ some 0 → g.place e' ≠ some 0 →
    g.scope e = g.scope e' → e = e'

namespace Forest

variable {f : Forest} {e : ScopeId} {n : Nat}

theorem getElem?_new (f : Forest) (enclosing : Option ScopeId) (e : ScopeId) :
    (f.new enclosing).1.scopes[e]? = if e = f.scopes.size then some ⟨enclosing, .empty⟩ else f.scopes[e]? :=
  Array.getElem?_push

theorem lt_size_of_getElem? {s : Scope} (h : f.scopes[e]? = some s) : e < f.scopes.size :=
  (Array.getElem?_eq_some_iff.1 h).1

theorem enclosing?_of_getElem? {s : Scope} (h : f.scopes[e]? = some s) : f.enclosing? e = s.enclosing := by
  rw [enclosing?, h]
  rfl

/-- The way out to the globals stays when the scopes around scopes do. -/
theorem Depth.mono {f' : Forest} (h : f.Depth e n) (hsize : f.scopes.size ≤ f'.scopes.size)
    (henclosing : ∀ e < f.scopes.size, f'.enclosing? e = f.enclosing? e) : f'.Depth e n := by
  refine ⟨ancestor?_mono hsize henclosing h.1, fun k hk => ?_⟩
  obtain ⟨a, ha, hne⟩ := h.2 k hk
  exact ⟨a, ancestor?_mono hsize henclosing ha, hne⟩

/-- A scope inside of another one is one further from the globals. -/
theorem Depth.inward {outer : ScopeId} (h : f.Depth outer n) (he : f.enclosing? e = some outer)
    (hne : e ≠ Heap.globals) : f.Depth e (n + 1) := by
  have hancestor : ∀ k, f.ancestor? e (k + 1) = f.ancestor? outer k := fun k => by rw [ancestor?, he]
  refine ⟨(hancestor n).trans h.1, fun k hk => ?_⟩
  cases k with
  | zero => exact ⟨e, if_pos (lt_size_of_enclosing? he), hne⟩
  | succ k =>
    obtain ⟨a, ha, hglobals⟩ := h.2 k (Nat.lt_of_succ_lt_succ hk)
    exact ⟨a, (hancestor k).trans ha, hglobals⟩

theorem Depth.unique {m : Nat} (h : f.Depth e n) (h' : f.Depth e m) : n = m := by
  have hle : ∀ {n m : Nat}, f.Depth e n → f.Depth e m → m ≤ n := by
    intro n m h h'
    refine Nat.le_of_not_lt fun hlt => ?_
    obtain ⟨a, ha, hne⟩ := h'.2 n hlt
    exact hne (Option.some.inj (ha.symm.trans h.1))
  exact Nat.le_antisymm (hle h' h) (hle h h')

namespace Thins

variable {T : Thinning} {g : Shadow} {f f' : Forest} {e outer : ScopeId}

section

variable (h : f.Thins T g f')

include h

theorem globals : g.place Heap.globals = none ∧ g.scope Heap.globals = Heap.globals :=
  h.old _ (Nat.zero_le _)

theorem globals_lt : Heap.globals < f.scopes.size :=
  Nat.lt_of_le_of_lt (Nat.zero_le _) h.loop_lt

section

variable (he : e < f.scopes.size)

include he

theorem lt_size (hplace : g.place e ≠ some 0) : g.scope e < f'.scopes.size :=
  lt_size_of_getElem? (h.kept e _ (Array.getElem?_eq_getElem he) hplace).1

/-- How far a scope inside of a block is from the globals. -/
theorem depth_of_place {k : Nat} (hk : g.place e = some k) : f.Depth e (k + 1 + T.depth) := by
  have hne : e ≠ Heap.globals := by
    rintro rfl
    cases h.globals.1.symm.trans hk
  induction k generalizing e with
  | zero =>
    obtain ⟨hblock, -⟩ := h.block e he hk
    have hdepth := h.depth.inward (enclosing?_of_getElem? hblock) hne
    rwa [Nat.add_comm] at hdepth
  | succ k ih =>
    have hs := Array.getElem?_eq_getElem he
    obtain ⟨-, hinward⟩ := h.kept e _ hs (by rw [hk]; exact nofun)
    rw [hk] at hinward
    obtain ⟨k', hplace, hk'⟩ := Option.map_eq_some_iff.1 hinward.symm
    obtain ⟨outer, henclosing, houter⟩ := Option.bind_eq_some_iff.1 hplace
    obtain rfl : k' = k := Nat.succ.inj hk'
    have hlink := (enclosing?_of_getElem? hs).trans henclosing
    have hglobals : outer ≠ Heap.globals := by
      rintro rfl
      cases h.globals.1.symm.trans houter
    have hdepth := (ih (h.enclosing e outer hlink) houter hglobals).inward hlink hne
    rwa [Nat.add_right_comm (k' + 1) T.depth 1] at hdepth

/-- A scope that is not that of a block holds the same. -/
theorem slot?_eq (hplace : g.place e ≠ some 0) (name : Text) :
    f'.slot? (g.scope e) name = f.slot? e name := by
  have hs := Array.getElem?_eq_getElem he
  rw [slot?, slot?, (h.kept e _ hs hplace).1, hs]
  rfl

theorem valueIn_eq (hplace : g.place e ≠ some 0)
    (name : Text) : f'.valueIn (g.scope e) name = f.valueIn e name := by
  rw [Forest.valueIn_eq, Forest.valueIn_eq, h.slot?_eq he hplace]

variable {d : Nat} (hd : Thinning.Passes (g.place e) d)

include hd

/-- A distance that does not lead to the scope of a block leads to the same scope. -/
theorem ancestor?_eq :
    f'.ancestor? (g.scope e) (Thinning.lower (g.place e) d) = (f.ancestor? e d).map g.scope := by
  induction d generalizing e with
  | zero =>
    have hplace : g.place e ≠ some 0 := fun hzero => hd 0 hzero rfl
    have hzero : Thinning.lower (g.place e) 0 = 0 := by
      cases hk : g.place e with
      | none => rfl
      | some k =>
        have hpos : 0 < k := Nat.pos_of_ne_zero fun h0 => hplace (hk.trans (congrArg some h0))
        rw [Thinning.lower, lowered, if_pos hpos]
    rw [hzero, ancestor?, ancestor?, if_pos he, if_pos (h.lt_size he hplace)]
    rfl
  | succ d ih =>
    have hs := Array.getElem?_eq_getElem he
    by_cases hplace : g.place e = some 0
    · -- Out of a block there is the scope of the loop, where nothing was left out.
      obtain ⟨hblock, hscope⟩ := h.block e he hplace
      obtain ⟨hnone, hsame⟩ := h.old T.loop (Nat.le_refl _)
      have hout := ih h.loop_lt (by rw [hnone]; exact Thinning.passes_none d)
      rw [hnone, hsame] at hout
      rw [hplace, hscope, ancestor?, enclosing?_of_getElem? hblock]
      exact hout
    · obtain ⟨hkept, hinward⟩ := h.kept e _ hs hplace
      rw [ancestor?, enclosing?_of_getElem? hs]
      cases henclosing : f.scopes[e].enclosing with
      | none =>
        rw [henclosing] at hinward hkept
        rw [hinward, show Thinning.lower _ (d + 1) = d + 1 from rfl, ancestor?, enclosing?_of_getElem? hkept]
        rfl
      | some outer =>
        rw [henclosing] at hinward hkept
        have houter := h.enclosing e outer ((enclosing?_of_getElem? hs).trans henclosing)
        have hpasses : Thinning.Passes (g.place outer) d := by
          intro k hk hdk
          refine hd (k + 1) ?_ (congrArg (· + 1) hdk)
          rw [hinward, Option.bind_some, hk]
          rfl
        have hlowered : Thinning.lower (g.place e) (d + 1) = Thinning.lower (g.place outer) d + 1 := by
          rw [hinward, Option.bind_some]
          cases hk : g.place outer with
          | none => rfl
          | some k => exact lowered_succ (hpasses k hk)
        rw [hlowered, ancestor?, enclosing?_of_getElem? hkept]
        exact ih houter hpasses

/-- A distance that does not lead to the scope of a block leads to a scope that is not one. -/
theorem place_ancestor {a : ScopeId}
    (ha : f.ancestor? e d = some a) : a < f.scopes.size ∧ g.place a ≠ some 0 := by
  induction d generalizing e with
  | zero =>
    rw [ancestor?, if_pos he] at ha
    obtain rfl := Option.some.inj ha
    exact ⟨he, fun hzero => hd 0 hzero rfl⟩
  | succ d ih =>
    have hs := Array.getElem?_eq_getElem he
    rw [ancestor?] at ha
    split at ha
    · next outer houter =>
      refine ih (h.enclosing e outer houter) (fun k hk hdk => ?_) ha
      by_cases hplace : g.place e = some 0
      · obtain ⟨hblock, -⟩ := h.block e he hplace
        obtain rfl := Option.some.inj ((enclosing?_of_getElem? hblock).symm.trans houter)
        rw [(h.old T.loop (Nat.le_refl _)).1] at hk
        cases hk
      · obtain ⟨-, hinward⟩ := h.kept e _ hs hplace
        rw [← enclosing?_of_getElem? hs, houter, Option.bind_some, hk] at hinward
        exact hd (k + 1) hinward (congrArg (· + 1) hdk)
    · cases ha

theorem getAt?_eq (name : Text) :
    f'.getAt? (g.scope e) (Thinning.lower (g.place e) d) name = f.getAt? e d name := by
  rw [getAt?, getAt?, h.ancestor?_eq he hd]
  cases ha : f.ancestor? e d with
  | none => rfl
  | some a =>
    obtain ⟨hlt, hplace⟩ := h.place_ancestor he hd ha
    exact congrArg some (h.valueIn_eq hlt hplace name)

end

theorem slot?_globals (name : Text) : f'.slot? Heap.globals name = f.slot? Heap.globals name := by
  obtain ⟨hplace, hscope⟩ := h.globals
  have hslot := h.slot?_eq h.globals_lt (by rw [hplace]; exact nofun) name
  rwa [hscope] at hslot

theorem holder?_globals_eq (name : Text) : f'.holder? Heap.globals name = f.holder? Heap.globals name := by
  rw [Forest.holder?_globals_eq, Forest.holder?_globals_eq, h.slot?_globals]

theorem get?_globals_eq (name : Text) : f'.get? Heap.globals name = f.get? Heap.globals name := by
  rw [Forest.get?, Forest.get?, h.holder?_globals_eq]
  cases he : f.holder? Heap.globals name with
  | none => rfl
  | some e =>
    obtain rfl := holder?_globals he
    rw [Option.map_some, Option.map_some, Forest.valueIn_eq, Forest.valueIn_eq, h.slot?_globals]

end

/-! ### Operations -/

/-- Putting a value under a name in a scope that is not that of a block. -/
theorem define (h : f.Thins T g f') (hplace : g.place e ≠ some 0) (he : e < f.scopes.size) (name : Text)
    (v : Value) : (f.define e name v).Thins T g (f'.define (g.scope e) name v) := by
  have hdepth := h.depth.mono (f.size_define e name v).ge fun a _ => f.enclosing?_define e a name v
  refine ⟨?_, hdepth, h.old, fun a ha hblock => ?_, fun a s hs hkept => ?_, fun a outer ha => ?_, ?_⟩
  · rw [size_define]
    exact h.loop_lt
  · rw [size_define] at ha
    have hne : e ≠ a := fun heq => hplace (heq ▸ hblock)
    rw [Forest.define, Array.getElem?_modify, if_neg hne]
    exact h.block a ha hblock
  · rw [Forest.define, Array.getElem?_modify] at hs
    rw [Forest.define, Array.getElem?_modify]
    by_cases hea : e = a
    · subst hea
      have hold := Array.getElem?_eq_getElem he
      rw [if_pos rfl, hold] at hs
      obtain rfl := Option.some.inj hs
      obtain ⟨hscope, hinward⟩ := h.kept e _ hold hkept
      rw [if_pos rfl, hscope]
      exact ⟨rfl, hinward⟩
    · rw [if_neg hea] at hs
      have hne : g.scope e ≠ g.scope a := fun heq =>
        hea (h.apart e he a (lt_size_of_getElem? hs) hplace hkept heq)
      rw [if_neg hne]
      exact h.kept a s hs hkept
  · rw [enclosing?_define] at ha
    rw [size_define]
    exact h.enclosing a outer ha
  · rw [size_define]
    exact h.apart

/-- The shadow of the next scope, made in a given one. -/
abbrev opened (g : Shadow) (f f' : Forest) (outer : ScopeId) : Shadow :=
  g.set f.scopes.size ((g.place outer).map (· + 1)) f'.scopes.size

/-- What a later shadow says about the scopes that were there. -/
theorem kept_extends (h : f.Thins T g f') {g' : Shadow} (hext : g.Extends f.scopes.size g') {s : Scope}
    (hs : f.scopes[e]? = some s) (hkept : g'.place e ≠ some 0) :
    f'.scopes[g'.scope e]? = some ⟨s.enclosing.map g'.scope, s.names⟩ ∧
      g'.place e = (s.enclosing.bind g'.place).map (· + 1) := by
  obtain ⟨hplace, hscope⟩ := hext e (lt_size_of_getElem? hs)
  rw [hplace] at hkept
  obtain ⟨hsame, hinward⟩ := h.kept e s hs hkept
  rw [hplace, hscope, hsame, hinward]
  cases henclosing : s.enclosing with
  | none => exact ⟨rfl, rfl⟩
  | some outer =>
    obtain ⟨houter, houter'⟩ := hext outer
      (h.enclosing e outer ((enclosing?_of_getElem? hs).trans henclosing))
    refine ⟨?_, ?_⟩
    · rw [Option.map_some, Option.map_some, houter']
    · rw [Option.bind_some, Option.bind_some, houter]

/-- One more scope, either that of a block, which the other forest does not have, or one that is the next one in
both forests. -/
theorem new_set (h : f.Thins T g f') (houter : outer < f.scopes.size) {f'' : Forest} {i : Option Nat} {e' : ScopeId}
    (hgrows : ∀ (e : ScopeId) s, f'.scopes[e]? = some s → f''.scopes[e]? = some s)
    (hblock : i = some 0 → outer = T.loop ∧ e' = T.loop)
    (hkept : i ≠ some 0 → i = (g.place outer).map (· + 1) ∧ e' = f'.scopes.size ∧
      f''.scopes[e']? = some ⟨some (g.scope outer), .empty⟩) :
    (f.new (some outer)).1.Thins T (g.set f.scopes.size i e') f'' := by
  have hext : g.Extends f.scopes.size (g.set f.scopes.size i e') := .set _ _ _ _
  have hnext := g.place_set f.scopes.size i e'
  have hnext' := g.scope_set f.scopes.size i e'
  generalize g.set f.scopes.size i e' = g' at hext hnext hnext' ⊢
  refine ⟨?_, (f.new_grows _).depth h.depth, fun e he => ?_, fun e he hplace => ?_, fun e s hs hplace => ?_,
    fun e o ho => ?_, fun e he a ha hplace hplace' heq => ?_⟩
  · rw [size_new]
    exact Nat.lt_succ_of_lt h.loop_lt
  · obtain ⟨hplace, hscope⟩ := hext e (Nat.lt_of_le_of_lt he h.loop_lt)
    rw [hplace, hscope]
    exact h.old e he
  · rw [size_new] at he
    rw [getElem?_new]
    rcases Nat.lt_succ_iff_lt_or_eq.1 he with hlt | rfl
    · obtain ⟨hsame, hscope⟩ := hext e hlt
      rw [if_neg (Nat.ne_of_lt hlt), hscope]
      exact h.block e hlt (hsame ▸ hplace)
    · obtain ⟨rfl, rfl⟩ := hblock (hnext ▸ hplace)
      rw [if_pos rfl]
      exact ⟨rfl, hnext'⟩
  · rw [getElem?_new] at hs
    split at hs
    · next heq =>
      subst heq
      obtain rfl := Option.some.inj hs
      obtain ⟨rfl, -, hmade⟩ := hkept (hnext ▸ hplace)
      obtain ⟨hsame, hscope⟩ := hext outer houter
      rw [hnext', hmade, hnext]
      dsimp only [Option.map_some, Option.bind_some]
      rw [hsame, hscope]
      exact ⟨rfl, rfl⟩
    · obtain ⟨hsame, hinward⟩ := h.kept_extends hext hs hplace
      exact ⟨hgrows _ _ hsame, hinward⟩
  · rw [enclosing?_new] at ho
    rw [size_new]
    split at ho
    · obtain rfl := Option.some.inj ho
      exact Nat.lt_succ_of_lt houter
    · exact Nat.lt_succ_of_lt (h.enclosing e o ho)
  · -- The scopes that were there are below the new one.
    have hbelow : ∀ {e}, e < f.scopes.size → g'.place e ≠ some 0 → g'.place f.scopes.size ≠ some 0 →
        g'.scope e ≠ g'.scope f.scopes.size := by
      intro e he hplace hlast
      obtain ⟨hsame, hscope⟩ := hext e he
      rw [hscope, hnext', (hkept (hnext ▸ hlast)).2.1]
      exact Nat.ne_of_lt (h.lt_size he (hsame ▸ hplace))
    rw [size_new] at he ha
    rcases Nat.lt_succ_iff_lt_or_eq.1 he with hlt | rfl
    · rcases Nat.lt_succ_iff_lt_or_eq.1 ha with hlt' | rfl
      · obtain ⟨hsame, hscope⟩ := hext e hlt
        obtain ⟨hsame', hscope'⟩ := hext a hlt'
        rw [hscope, hscope'] at heq
        exact h.apart e hlt a hlt' (hsame ▸ hplace) (hsame' ▸ hplace') heq
      · exact absurd heq (hbelow hlt hplace hplace')
    · rcases Nat.lt_succ_iff_lt_or_eq.1 ha with hlt' | rfl
      · exact absurd heq.symm (hbelow hlt' hplace' hplace)
      · rfl

theorem new (h : f.Thins T g f') (houter : outer < f.scopes.size) :
    (f.new (some outer)).1.Thins T (opened g f f' outer) (f'.new (some (g.scope outer))).1 := by
  refine h.new_set houter (fun e s hs => ?_) (fun hblock => ?_) (fun _ => ⟨rfl, rfl, ?_⟩)
  · rw [getElem?_new, if_neg (Nat.ne_of_lt (lt_size_of_getElem? hs))]
    exact hs
  · cases hk : g.place outer <;> rw [hk] at hblock <;> cases hblock
  · rw [getElem?_new, if_pos rfl]

/-- The shadow of the scope of the next block. -/
abbrev begun (loop : ScopeId) (g : Shadow) (f : Forest) : Shadow := g.set f.scopes.size (some 0) loop

/-- Making the scope of a block, which the other forest does not have. -/
theorem newBlock (h : f.Thins T g f') : (f.new (some T.loop)).1.Thins T (begun T.loop g f) f' :=
  h.new_set h.loop_lt (fun _ _ hs => hs) (fun _ => ⟨rfl, rfl⟩) fun hkept => absurd rfl hkept

end Thins

end Forest

/-! ## Heaps -/

/-- A function in the heap without the scopes of the blocks. -/
def Closure.thin (T : Thinning) (g : Shadow) (c : Closure) : Closure :=
  ⟨c.routine.moved (T.shift (g.place c.scope)), g.scope c.scope, c.initializer⟩

/-- A function stands in a scope that is not that of a block, and inside of a block it is part of it. -/
structure Closure.Stands (T : Thinning) (g : Shadow) (n : Nat) (c : Closure) : Prop where
  lt : c.scope < n
  place : g.place c.scope ≠ some 0
  covers : T.Covers (g.place c.scope) c.routine.references

theorem Closure.disguise_thin (T : Thinning) (g : Shadow) : Closure.Disguise (Closure.thin T g) where
  name c := c.routine.name_moved _
  arity c := congrArg List.length (c.routine.params_moved _)

namespace Closure.Stands

variable {T : Thinning} {g g' : Shadow} {n m : Nat} {c : Closure}

theorem extend (h : c.Stands T g n) (hext : g.Extends n g') (hle : n ≤ m) : c.Stands T g' m := by
  obtain ⟨hplace, -⟩ := hext c.scope h.lt
  refine ⟨Nat.lt_of_lt_of_le h.lt hle, ?_, ?_⟩
  · rw [hplace]
    exact h.place
  · rw [hplace]
    exact h.covers

theorem thin_extend (h : c.Stands T g n) (hext : g.Extends n g') : c.thin T g' = c.thin T g := by
  obtain ⟨hplace, hscope⟩ := hext c.scope h.lt
  rw [Closure.thin, Closure.thin, hplace, hscope]

end Closure.Stands

namespace Heap

/-- The second heap is the first one without the scopes of the blocks of a loop. -/
structure Thins (T : Thinning) (g : Shadow) (h h' : Heap) : Prop where
  forest : h.forest.Thins T g h'.forest
  mirrors : h.Mirrors (Closure.thin T g) h'
  stands : ∀ (f : FunctionId) c, h.functions[f]? = some c → c.Stands T g h.forest.scopes.size

namespace Thins

variable {T : Thinning} {g : Shadow} {h h' : Heap}

/-- The shadow of the next scope, made in a given one. -/
abbrev opened (g : Shadow) (h h' : Heap) (outer : ScopeId) : Shadow :=
  Forest.Thins.opened g h.forest h'.forest outer

/-- The next scope is the next one in both heaps. -/
theorem place_opened (g : Shadow) (h h' : Heap) (outer : ScopeId) :
    (opened g h h' outer).place h.forest.scopes.size = (g.place outer).map (· + 1) ∧
      (opened g h h' outer).scope h.forest.scopes.size = h'.forest.scopes.size :=
  ⟨g.place_set .., g.scope_set ..⟩

theorem place_opened_ne (g : Shadow) (h h' : Heap) (outer : ScopeId) :
    (opened g h h' outer).place h.forest.scopes.size ≠ some 0 := by
  rw [(place_opened g h h' outer).1]
  cases g.place outer <;> exact nofun

theorem size_defineAll (h : Heap) (e : ScopeId) (params : List Token) (args : List Value) :
    (h.defineAll e params args).forest.scopes.size = h.forest.scopes.size := by
  induction params generalizing h args with
  | nil => rfl
  | cons p params ih =>
    cases args with
    | nil => rfl
    | cons v args => exact (ih (h.define e p.lexeme v) args).trans (h.forest.size_define e p.lexeme v)

variable (ht : h.Thins T g h')

include ht

theorem method? {k : ClassId} {name : Text} {c : Closure}
    (hc : h.method? k name = some c) : c.Stands T g h.forest.scopes.size := by
  obtain ⟨f, -, hf⟩ := Option.bind_eq_some_iff.1 hc
  exact ht.stands f c hf

/-- A method of an instance stands where it was made. -/
theorem property? {o : InstanceId} {name : Text} {c : Closure}
    (hc : h.property? o name = some (.method c)) : c.Stands T g h.forest.scopes.size := by
  unfold Heap.property? at hc
  split at hc
  · cases hc
  · obtain ⟨c', hc', heq⟩ := Option.map_eq_some_iff.1 hc
    obtain ⟨k, -, hmethod⟩ := Option.bind_eq_some_iff.1 hc'
    cases heq
    exact ht.method? hmethod

/-- The functions in a later heap that has got scopes only. -/
theorem of_forest {g' : Shadow} {f f' : Forest} (hf : f.Thins T g' f')
    (hsize : h.forest.scopes.size ≤ f.scopes.size) (hext : g.Extends h.forest.scopes.size g') :
    Thins T g' { h with forest := f } { h' with forest := f' } := by
  refine ⟨hf, ⟨?_, ht.mirrors.classes, ht.mirrors.instances⟩, fun i c hc => ?_⟩
  · change h'.functions = h.functions.map (Closure.thin T g')
    rw [ht.mirrors.functions]
    refine Array.map_congr_left fun c hc => ?_
    obtain ⟨i, hi, rfl⟩ := Array.getElem_of_mem hc
    exact ((ht.stands i _ (Array.getElem?_eq_getElem hi)).thin_extend hext).symm
  · exact (ht.stands i c hc).extend hext hsize

theorem define {e : ScopeId} (he : e < h.forest.scopes.size) (hplace : g.place e ≠ some 0) (name : Text)
    (v : Value) : (h.define e name v).Thins T g (h'.define (g.scope e) name v) :=
  ht.of_forest (ht.forest.define hplace he name v) (h.forest.size_define e name v).ge (.refl _ _)

theorem newScope {outer : ScopeId} (houter : outer < h.forest.scopes.size) :
    (h.newScope (some outer)).1.Thins T (opened g h h' outer) (h'.newScope (some (g.scope outer))).1 := by
  have hsize := Forest.size_new h.forest (some outer)
  exact ht.of_forest (ht.forest.new houter) (hsize ▸ Nat.le_succ _) (.set _ _ _ _)

theorem newBlock : (h.newScope (some T.loop)).1.Thins T (Forest.Thins.begun T.loop g h.forest) h' := by
  have hsize := Forest.size_new h.forest (some T.loop)
  exact ht.of_forest ht.forest.newBlock (hsize ▸ Nat.le_succ _) (.set _ _ _ _)

/-- A function is made alike in both heaps. -/
theorem newFunction {c : Closure} (hc : c.Stands T g h.forest.scopes.size) :
    (h.newFunction c).1.Thins T g (h'.newFunction (c.thin T g)).1 ∧
      (h'.newFunction (c.thin T g)).2 = (h.newFunction c).2 := by
  refine ⟨⟨ht.forest, ⟨?_, ht.mirrors.classes, ht.mirrors.instances⟩, fun f c' hc' => ?_⟩, ?_⟩
  · change h'.functions.push _ = (h.functions.push c).map _
    rw [ht.mirrors.functions, Array.map_push]
  · unfold Heap.newFunction at hc'
    rw [Array.getElem?_push] at hc'
    split at hc'
    · obtain rfl := Option.some.inj hc'
      exact hc
    · exact ht.stands f c' hc'
  · change h'.functions.size = h.functions.size
    rw [ht.mirrors.functions, Array.size_map]

/-- Heaps that correspond after a change to their classes and instances. -/
theorem of_others {classes classes' : Array ClassInfo} {instances instances' : Array InstanceInfo}
    (hclasses : classes' = classes) (hinstances : instances' = instances) :
    Thins T g { h with classes, instances } { h' with classes := classes', instances := instances' } :=
  ⟨ht.forest, ⟨ht.mirrors.functions, hclasses, hinstances⟩, ht.stands⟩

theorem newClass (info : ClassInfo) :
    (h.newClass info).1.Thins T g (h'.newClass info).1 ∧ (h'.newClass info).2 = (h.newClass info).2 :=
  ⟨ht.of_others (congrArg (·.push info) ht.mirrors.classes) ht.mirrors.instances,
    congrArg Array.size ht.mirrors.classes⟩

theorem newInstance (c : ClassId) :
    (h.newInstance c).1.Thins T g (h'.newInstance c).1 ∧ (h'.newInstance c).2 = (h.newInstance c).2 :=
  ⟨ht.of_others ht.mirrors.classes (congrArg (Array.push · ⟨c, .empty⟩) ht.mirrors.instances),
    congrArg Array.size ht.mirrors.instances⟩

theorem setField (o : InstanceId) (name : Text) (v : Value) :
    (h.setField o name v).Thins T g (h'.setField o name v) :=
  ht.of_others ht.mirrors.classes (congrArg (Array.modify · o _) ht.mirrors.instances)

theorem removeField (o : InstanceId) (name : Text) :
    (h.removeField o name).Thins T g (h'.removeField o name) :=
  ht.of_others ht.mirrors.classes (congrArg (Array.modify · o _) ht.mirrors.instances)

/-- A scope with a name is made alike in both heaps. -/
theorem openWith {outer : ScopeId} (houter : outer < h.forest.scopes.size) (name : Text) (v : Value) :
    (h.openWith outer name v).1.Thins T (opened g h h' outer) (h'.openWith (g.scope outer) name v).1 := by
  have hlt : h.forest.scopes.size < (h.newScope (some outer)).1.forest.scopes.size := by
    change _ < (h.forest.new (some outer)).1.scopes.size
    rw [Forest.size_new]
    exact Nat.lt_succ_self _
  have hdefine := (ht.newScope houter).define hlt (place_opened_ne g h h' outer) name v
  rw [(place_opened g h h' outer).2] at hdefine
  exact hdefine

/-- A method is bound alike in both heaps. -/
theorem bind {c : Closure} (hc : c.Stands T g h.forest.scopes.size) (o : InstanceId) :
    (h.bind c o).1.Thins T (opened g h h' c.scope) (h'.bind (c.thin T g) o).1 ∧
      (h'.bind (c.thin T g) o).2 = (h.bind c o).2 := by
  obtain ⟨hplace, hscope⟩ := place_opened g h h' c.scope
  have hopened := ht.openWith hc.lt thisName (.instanceValue o)
  have hsize : (h.openWith c.scope thisName (.instanceValue o)).1.forest.scopes.size =
      h.forest.scopes.size + 1 :=
    (Forest.size_define _ _ _ _).trans (Forest.size_new _ _)
  have hbound : Closure.Stands T (opened g h h' c.scope)
      (h.openWith c.scope thisName (.instanceValue o)).1.forest.scopes.size
      { c with scope := h.forest.scopes.size } := by
    refine ⟨?_, place_opened_ne g h h' c.scope, ?_⟩
    · rw [hsize]
      exact Nat.lt_succ_self _
    · rw [hplace]
      exact hc.covers.inward
  have hthin : Closure.thin T (opened g h h' c.scope) { c with scope := h.forest.scopes.size } =
      { c.thin T g with scope := h'.forest.scopes.size } := by
    unfold Closure.thin
    dsimp only
    rw [hplace, hscope, T.shift_inward]
  have hfunction := hopened.newFunction hbound
  rw [hthin] at hfunction
  exact hfunction

/-- Arguments are put into scopes alike in both heaps. -/
theorem defineAll {e : ScopeId} (he : e < h.forest.scopes.size)
    (hplace : g.place e ≠ some 0) (params : List Token) (args : List Value) :
    (h.defineAll e params args).Thins T g (h'.defineAll (g.scope e) params args) := by
  induction params generalizing h h' args with
  | nil => exact ht
  | cons p params ih =>
    cases args with
    | nil => exact ht
    | cons v args =>
      refine ih (ht.define he hplace p.lexeme v) ?_ args
      exact (h.forest.size_define e p.lexeme v).symm ▸ he

/-- A function is entered alike in both heaps. -/
theorem enter {c : Closure} (hc : c.Stands T g h.forest.scopes.size) (args : List Value) :
    (h.enter c args).1.Thins T (opened g h h' c.scope) (h'.enter (c.thin T g) args).1 := by
  have hlt : h.forest.scopes.size < (h.newScope (some c.scope)).1.forest.scopes.size := by
    change _ < (h.forest.new (some c.scope)).1.scopes.size
    rw [Forest.size_new]
    exact Nat.lt_succ_self _
  have hdefined := (ht.newScope hc.lt).defineAll hlt (place_opened_ne g h h' c.scope) c.routine.params args
  rw [(place_opened g h h' c.scope).2] at hdefined
  unfold Heap.enter Closure.thin
  dsimp only
  rw [Routine.params_moved]
  exact hdefined

theorem result_eq {c : Closure} (hc : c.Stands T g h.forest.scopes.size)
    (returned : Option Value) : h'.result (c.thin T g) returned = h.result c returned := by
  unfold Heap.result Closure.thin
  dsimp only
  rw [ht.forest.valueIn_eq hc.lt hc.place]

end Thins

end Heap

end Lox
