import Lox.Heap
import Lox.Proofs.Resolution

/-!
# Scopes at run time

The scopes that a program makes while it runs stand in the order in which the walk over the program
opened them: `Matches` relates a chain of scopes in the heap, from a scope out to the globals, to the open
scopes at a point of the walk. Along a match, what is recorded about a reference leads to a scope that
holds its name (`Usage.Meets.resolves`).

A forest only grows (`Grows`), and everything said here stays true when it does.
-/

namespace Lox

namespace Forest

/-- The value that a scope itself has under a name. -/
def slot? (f : Forest) (e : ScopeId) (name : Text) : Option Value :=
  f.scopes[e]?.bind (·.names.get? name)

/-- The scopes from a scope outwards, that many of them, are none of the globals. -/
def Frames (f : Forest) (e : ScopeId) (n : Nat) : Prop :=
  ∀ k < n, ∃ a, f.ancestor? e k = some a ∧ a ≠ Heap.globals

/-- The number of scopes from a scope out to the globals. -/
def Depth (f : Forest) (e : ScopeId) (n : Nat) : Prop :=
  f.ancestor? e n = some Heap.globals ∧ f.Frames e n

/-- A later forest: the scopes are still there with the same scopes around them, the names that they had
still have values, and those of instances and superclasses still have the same ones. -/
structure Grows (f f' : Forest) : Prop where
  size : f.scopes.size ≤ f'.scopes.size
  enclosing : ∀ e < f.scopes.size, f'.enclosing? e = f.enclosing? e
  present : ∀ e name, (f.slot? e name).isSome → (f'.slot? e name).isSome
  fixed : ∀ e name v, ¬ Plain name → f.slot? e name = some v → f'.slot? e name = some v

variable (f : Forest)

theorem valueIn_eq (e : ScopeId) (name : Text) :
    f.valueIn e name = (f.slot? e name).getD .absent := rfl

theorem lt_size_of_enclosing? {f : Forest} {e outer : ScopeId} (h : f.enclosing? e = some outer) :
    e < f.scopes.size := by
  obtain ⟨s, hs, -⟩ := Option.bind_eq_some_iff.1 h
  exact (Array.getElem?_eq_some_iff.1 hs).1

/-- Putting a value under a name changes nothing else. -/
theorem slot?_define (e e' : ScopeId) (name name' : Text) (v : Value) :
    (f.define e name v).slot? e' name' =
      if e' = e ∧ name' = name ∧ e < f.scopes.size then some v else f.slot? e' name' := by
  unfold slot? define
  rw [Array.getElem?_modify]
  by_cases he : e = e'
  · subst he
    by_cases hsize : e < f.scopes.size
    · simp [hsize, Table.get?_insert]
    · simp [hsize]
  · simp [he, Ne.symm he]

theorem slot?_new (enclosing : Option ScopeId) (e : ScopeId) (name : Text) :
    (f.new enclosing).1.slot? e name = f.slot? e name := by
  unfold slot? new
  rw [Array.getElem?_push]
  split
  · next he => simp [he]
  · rfl

theorem enclosing?_define (e e' : ScopeId) (name : Text) (v : Value) :
    (f.define e name v).enclosing? e' = f.enclosing? e' := by
  unfold enclosing? define
  rw [Array.getElem?_modify]
  split
  · cases f.scopes[e']? <;> rfl
  · rfl

theorem enclosing?_new (enclosing : Option ScopeId) (e : ScopeId) :
    (f.new enclosing).1.enclosing? e = if e = f.scopes.size then enclosing else f.enclosing? e := by
  unfold enclosing? new
  rw [Array.getElem?_push]
  split <;> rfl

theorem size_define (e : ScopeId) (name : Text) (v : Value) :
    (f.define e name v).scopes.size = f.scopes.size :=
  Array.size_modify

theorem size_new (enclosing : Option ScopeId) : (f.new enclosing).1.scopes.size = f.scopes.size + 1 :=
  Array.size_push _

/-- A name that is no variable's may be defined only where it is not there yet. -/
theorem define_grows {f : Forest} {e : ScopeId} {name : Text} {v : Value}
    (h : Plain name ∨ f.slot? e name = none) : f.Grows (f.define e name v) := by
  refine ⟨(f.size_define e name v).ge, fun e' _ => f.enclosing?_define e e' name v, ?_, ?_⟩
  · intro e' name' hsome
    rw [slot?_define]
    split
    · rfl
    · exact hsome
  · intro e' name' w hname hentry
    rw [slot?_define, if_neg]
    · exact hentry
    · rintro ⟨rfl, rfl, -⟩
      rcases h with h | h
      · exact hname h
      · rw [h] at hentry
        cases hentry

theorem new_grows (enclosing : Option ScopeId) : f.Grows (f.new enclosing).1 := by
  refine ⟨(f.size_new enclosing).ge.trans' (Nat.le_succ _), fun e he => ?_, ?_, ?_⟩
  · rw [enclosing?_new, if_neg (Nat.ne_of_lt he)]
  · intro e name h
    rwa [slot?_new]
  · intro e name v _ h
    rwa [slot?_new]

/-- Scopes that stay where they are still lead to the same scopes. -/
theorem ancestor?_mono {f f' : Forest} (hsize : f.scopes.size ≤ f'.scopes.size)
    (henclosing : ∀ e < f.scopes.size, f'.enclosing? e = f.enclosing? e) {e a : ScopeId} {d : Nat}
    (ha : f.ancestor? e d = some a) : f'.ancestor? e d = some a := by
  induction d generalizing e with
  | zero =>
    unfold Forest.ancestor? at ha ⊢
    split at ha
    · next he =>
      rw [if_pos (Nat.lt_of_lt_of_le he hsize)]
      exact ha
    · cases ha
  | succ d ih =>
    unfold Forest.ancestor? at ha ⊢
    split at ha
    · next outer houter =>
      rw [henclosing e (lt_size_of_enclosing? houter), houter]
      exact ih ha
    · cases ha

/-- The globals are not enclosed by an older scope, so they hold a name themselves or not at all. -/
theorem holder?_globals_eq (name : Text) :
    f.holder? Heap.globals name = if (f.slot? Heap.globals name).isSome then some Heap.globals else none := by
  rw [holder?, slot?]
  cases f.scopes[Heap.globals]? with
  | none => rfl
  | some s =>
    dsimp only [Option.bind_some]
    rw [show s.names.has name = (s.names.get? name).isSome from rfl]
    split
    · rfl
    · split
      · rfl
      · next outer _ => exact if_neg (Nat.not_lt_zero outer)

theorem holder?_globals {f : Forest} {name : Text} {e : ScopeId} (he : f.holder? Heap.globals name = some e) :
    e = Heap.globals := by
  rw [holder?_globals_eq] at he
  split at he
  · exact (Option.some.inj he).symm
  · cases he

namespace Grows

variable {f f' f'' : Forest}

theorem refl (f : Forest) : f.Grows f :=
  ⟨Nat.le_refl _, fun _ _ => rfl, fun _ _ h => h, fun _ _ _ _ h => h⟩

variable (h : f.Grows f')

include h

theorem trans (h' : f'.Grows f'') : f.Grows f'' where
  size := h.size.trans h'.size
  enclosing e he := (h'.enclosing e (Nat.lt_of_lt_of_le he h.size)).trans (h.enclosing e he)
  present e name hsome := h'.present e name (h.present e name hsome)
  fixed e name v hname hv := h'.fixed e name v hname (h.fixed e name v hname hv)

theorem enclosing? {e outer : ScopeId} (he : f.enclosing? e = some outer) : f'.enclosing? e = some outer :=
  (h.enclosing e (lt_size_of_enclosing? he)).trans he

theorem ancestor? {e a : ScopeId} {d : Nat} (ha : f.ancestor? e d = some a) : f'.ancestor? e d = some a :=
  ancestor?_mono h.size h.enclosing ha

theorem frames {e : ScopeId} {n : Nat} (hf : f.Frames e n) : f'.Frames e n := by
  intro k hk
  obtain ⟨a, ha, hne⟩ := hf k hk
  exact ⟨a, h.ancestor? ha, hne⟩

theorem depth {e : ScopeId} {n : Nat} (hd : f.Depth e n) : f'.Depth e n :=
  ⟨h.ancestor? hd.1, h.frames hd.2⟩

end Grows

end Forest

/-- A scope holds what a scope of the walk declares: a value for every complete name, an instance as
`this` and a class as `super`. -/
structure Holds (f : Forest) (e : ScopeId) (t : Table Bool) : Prop where
  complete : ∀ name, t.get? name = some true → (f.slot? e name).isSome
  this : t.has thisName → ∃ o, f.slot? e thisName = some (.instanceValue o)
  super : t.has superName → ∃ c, f.slot? e superName = some (.classValue c)

/-- From a scope out to the globals, each scope holds what the open scope at its place declares. -/
inductive Matches (f : Forest) : ScopeId → List (Table Bool) → Prop where
  | globals : Matches f Heap.globals []
  | frame {e outer : ScopeId} {t : Table Bool} {scopes : List (Table Bool)} (hne : e ≠ Heap.globals)
    (hlink : f.enclosing? e = some outer) (hholds : Holds f e t) (h : Matches f outer scopes) :
    Matches f e (t :: scopes)

theorem not_plain_this : ¬ Plain thisName := fun h => h.1 rfl

theorem not_plain_super : ¬ Plain superName := fun h => h.2 rfl

section

variable {f f' : Forest} {e : ScopeId} {t : Table Bool} {scopes : List (Table Bool)}

theorem Holds.mono (h : Holds f e t) (hgrows : f.Grows f') : Holds f' e t where
  complete name hname := hgrows.present e name (h.complete name hname)
  this ht := by
    obtain ⟨o, ho⟩ := h.this ht
    exact ⟨o, hgrows.fixed e _ _ not_plain_this ho⟩
  super ht := by
    obtain ⟨c, hc⟩ := h.super ht
    exact ⟨c, hgrows.fixed e _ _ not_plain_super hc⟩

namespace Matches

section

variable (h : Matches f e scopes)

include h

theorem mono (hgrows : f.Grows f') : Matches f' e scopes := by
  induction h with
  | globals => exact .globals
  | frame hne hlink hholds _ ih => exact .frame hne (hgrows.enclosing? hlink) (hholds.mono hgrows) ih

/-- The scope some steps out holds what the open scope there declares. -/
theorem ancestor {d : Nat} (ht : scopes[d]? = some t) :
    ∃ a, f.ancestor? e d = some a ∧ a ≠ Heap.globals ∧ Holds f a t := by
  induction h generalizing d with
  | globals => cases ht
  | @frame e outer u scopes hne hlink hholds _ ih =>
    cases d with
    | zero =>
      obtain rfl := Option.some.inj ht
      exact ⟨e, if_pos (Forest.lt_size_of_enclosing? hlink), hne, hholds⟩
    | succ d =>
      obtain ⟨a, ha, hne, hholds⟩ := ih ht
      refine ⟨a, ?_, hne, hholds⟩
      rw [Forest.ancestor?, hlink]
      exact ha

theorem frames {n : Nat} (hn : n ≤ scopes.length) : f.Frames e n := by
  intro k hk
  obtain ⟨a, ha, hne, -⟩ := h.ancestor (List.getElem?_eq_getElem (Nat.lt_of_lt_of_le hk hn))
  exact ⟨a, ha, hne⟩

/-- The depth of a scope is the number of open scopes that it matches. -/
theorem depth (hglobals : 0 < f.scopes.size) : f.Depth e scopes.length := by
  refine ⟨?_, h.frames (Nat.le_refl _)⟩
  induction h with
  | globals => exact if_pos hglobals
  | frame _ hlink _ _ ih =>
    rw [List.length_cons, Forest.ancestor?, hlink]
    exact ih

/-- Defining a name in the innermost scope completes its declaration. -/
theorem declare {name : Text} (hname : Plain name) (v : Value) :
    Matches (f.define e name v) e (markInner name true scopes) := by
  have hgrows : f.Grows (f.define e name v) := Forest.define_grows (.inl hname)
  cases h with
  | globals => exact .globals
  | @frame _ outer t scopes hne hlink hholds h =>
    refine .frame hne (hgrows.enclosing? hlink) ?_ (h.mono hgrows)
    have hmono := hholds.mono hgrows
    refine ⟨fun other hother => ?_, fun hthis => hmono.this ?_, fun hsuper => hmono.super ?_⟩
    · rw [Table.get?_insert] at hother
      split at hother
      · next heq =>
        rw [Forest.slot?_define, if_pos ⟨rfl, heq, Forest.lt_size_of_enclosing? hlink⟩]
        rfl
      · exact hmono.complete other hother
    · rw [Table.has_insert] at hthis
      simpa [hname.1.symm] using hthis
    · rw [Table.has_insert] at hsuper
      simpa [hname.2.symm] using hsuper

/-- Marking a name as declared but not complete asks for nothing. -/
theorem mark {name : Text} (hname : Plain name) : Matches f e (markInner name false scopes) := by
  cases h with
  | globals => exact .globals
  | frame hne hlink hholds h =>
    refine .frame hne hlink ⟨fun other hother => ?_, fun hthis => hholds.this ?_,
      fun hsuper => hholds.super ?_⟩ h
    · rw [Table.get?_insert] at hother
      split at hother
      · cases hother
      · exact hholds.complete other hother
    · rw [Table.has_insert] at hthis
      simpa [hname.1.symm] using hthis
    · rw [Table.has_insert] at hsuper
      simpa [hname.2.symm] using hsuper

end

end Matches

end

/-- What is recorded about a reference leads from a scope to one that holds its name. -/
def Usage.Resolves (f : Forest) (recorded : Site → Option Nat) (e : ScopeId) :
    Usage → Reference → Prop
  | .variable, ref => ∀ d, recorded ref.site = some d → f.Frames e (d + 1) ∧
      ∃ a, f.ancestor? e d = some a ∧ (f.slot? a ref.name).isSome
  | .assign, ref => Plain ref.name ∧ ∀ d, recorded ref.site = some d → f.Frames e (d + 1)
  | .this, ref => ref.name = thisName ∧ ∃ d, recorded ref.site = some d ∧ f.Frames e (d + 1) ∧
      ∃ o, f.getAt? e d thisName = some (.instanceValue o)
  | .super, ref => ∃ d, recorded ref.site = some (d + 1) ∧ f.Frames e (d + 2) ∧
      (∃ c, f.getAt? e (d + 1) superName = some (.classValue c)) ∧
      ∃ o, f.getAt? e d thisName = some (.instanceValue o)

namespace Forest

variable {f f' : Forest} {e a : ScopeId} {d : Nat} {name : Text} {v : Value}

theorem getAt?_eq_of_slot? (ha : f.ancestor? e d = some a) (hv : f.slot? a name = some v) :
    f.getAt? e d name = some v := by
  rw [getAt?, ha, Option.map_some, valueIn_eq, hv]
  rfl

/-- An instance or a superclass that is found some steps out stays there. -/
theorem Grows.getAt? (h : f.Grows f') (hname : ¬ Plain name) (hv : f.getAt? e d name = some v)
    (hne : v ≠ .absent) : f'.getAt? e d name = some v := by
  obtain ⟨a, ha, hvalue⟩ := Option.map_eq_some_iff.1 hv
  rw [valueIn_eq] at hvalue
  cases hentry : f.slot? a name with
  | none =>
    rw [hentry] at hvalue
    exact absurd hvalue.symm hne
  | some w =>
    rw [hentry] at hvalue
    obtain rfl : w = v := hvalue
    exact getAt?_eq_of_slot? (h.ancestor? ha) (h.fixed a name w hname hentry)

end Forest

namespace Usage

variable {f f' : Forest} {recorded : Site → Option Nat} {e : ScopeId} {u : Usage} {ref : Reference}

/-- What is recorded about a reference still leads to its name in a later forest. -/
theorem Resolves.mono (h : u.Resolves f recorded e ref) (hgrows : f.Grows f') :
    u.Resolves f' recorded e ref := by
  cases u with
  | «variable» =>
    intro d hd
    obtain ⟨hframes, a, ha, hentry⟩ := h d hd
    exact ⟨hgrows.frames hframes, a, hgrows.ancestor? ha, hgrows.present a _ hentry⟩
  | assign => exact ⟨h.1, fun d hd => hgrows.frames (h.2 d hd)⟩
  | this =>
    obtain ⟨hname, d, hd, hframes, o, ho⟩ := h
    exact ⟨hname, d, hd, hgrows.frames hframes, o, hgrows.getAt? not_plain_this ho nofun⟩
  | super =>
    obtain ⟨d, hd, hframes, ⟨c, hc⟩, o, ho⟩ := h
    exact ⟨d, hd, hgrows.frames hframes, ⟨c, hgrows.getAt? not_plain_super hc nofun⟩,
      o, hgrows.getAt? not_plain_this ho nofun⟩

/-- Along a match, what leads to a scope of the walk leads to a scope of the forest. -/
theorem Meets.resolves {scopes : List (Table Bool)} (h : u.Meets recorded scopes ref)
    (hmatches : Matches f e scopes) : u.Resolves f recorded e ref := by
  have hframes : ∀ {d t}, scopes[d]? = some t → f.Frames e (d + 1) := fun ht =>
    hmatches.frames (List.getElem?_eq_some_iff.1 ht).1
  cases u with
  | «variable» =>
    intro d hd
    obtain ⟨t, ht, hname⟩ := h d hd
    obtain ⟨a, ha, -, hholds⟩ := hmatches.ancestor ht
    exact ⟨hframes ht, a, ha, hholds.complete _ hname⟩
  | assign => exact ⟨h.1, fun d hd => hmatches.frames (h.2 d hd)⟩
  | this =>
    obtain ⟨hname, d, t, hd, ht, hthis⟩ := h
    obtain ⟨a, ha, -, hholds⟩ := hmatches.ancestor ht
    obtain ⟨o, ho⟩ := hholds.this hthis
    exact ⟨hname, d, hd, hframes ht, o, Forest.getAt?_eq_of_slot? ha ho⟩
  | super =>
    obtain ⟨d, t, u, hd, ht, hthis, hu, hsuper⟩ := h
    obtain ⟨a, ha, -, hholds⟩ := hmatches.ancestor ht
    obtain ⟨o, ho⟩ := hholds.this hthis
    obtain ⟨a', ha', -, hholds'⟩ := hmatches.ancestor hu
    obtain ⟨c, hc⟩ := hholds'.super hsuper
    exact ⟨d, hd, hframes hu, ⟨c, Forest.getAt?_eq_of_slot? ha' hc⟩, o, Forest.getAt?_eq_of_slot? ha ho⟩

end Usage

end Lox
