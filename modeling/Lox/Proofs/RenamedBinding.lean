import Lox.Proofs.RenamedProgram

/-!
# Binding a program with a renamed variable

Binding the renamed program takes the same course as binding the old one: at every point the same scopes are
open, up to the names in them (`Binder.Renames`). A scope has the new name only if it is the renamed one, and
then it does not have the old one, so a name is found in the scope where the old one was found. Hence the same
distances are recorded and no misuse is reported (`Program.RenamesLocal.bound_eq`).
-/

namespace Lox

/-! ## Tables with other names -/

namespace Table

variable {α : Type} {f : Text → Text}

/-- The table with its names changed. -/
def mapNames (f : Text → Text) (t : Table α) : Table α := ⟨t.entries.map fun e => (f e.1, e.2)⟩

/-- No name of a table but the given one is changed to what that is changed to. -/
def Apart (f : Text → Text) (t : Table α) (name : Text) : Prop := ∀ n, t.has n → f n = f name → n = name

theorem Apart.head {n name : Text} {v : α} {rest : List (Text × α)} (h : Apart f ⟨(n, v) :: rest⟩ name) :
    f n = f name ↔ n = name := by
  refine ⟨h n ?_, congrArg f⟩
  simp [has, get?, find?]

/-- A name that is apart from those in a table is so from the later ones. -/
theorem Apart.tail {n name : Text} {v : α} {rest : List (Text × α)} (h : Apart f ⟨(n, v) :: rest⟩ name) :
    Apart f ⟨rest⟩ name := by
  intro other hother
  refine h other ?_
  change (find? other ((n, v) :: rest)).isSome
  rw [find?]
  split
  · rfl
  · exact hother

section

variable {t : Table α} {name : Text} (h : Apart f t name)

include h

/-- Looking up a changed name in a changed table finds the same. -/
theorem get?_mapNames : (t.mapNames f).get? (f name) = t.get? name := by
  obtain ⟨entries⟩ := t
  unfold mapNames get?
  induction entries with
  | nil => rfl
  | cons e rest ih =>
    obtain ⟨n, v⟩ := e
    simp only [List.map_cons, find?, h.head]
    rw [show find? (f name) (rest.map fun e => (f e.1, e.2)) = find? name rest from ih h.tail]

theorem has_mapNames : (t.mapNames f).has (f name) = t.has name := by
  rw [has, has, get?_mapNames h]

/-- Inserting a changed name into a changed table changes the result. -/
theorem mapNames_insert (v : α) : (t.insert name v).mapNames f = (t.mapNames f).insert (f name) v := by
  obtain ⟨entries⟩ := t
  unfold mapNames insert
  congr 1
  dsimp only
  induction entries with
  | nil => rfl
  | cons e rest ih =>
    obtain ⟨n, w⟩ := e
    simp only [List.map_cons, put, h.head]
    split
    · rfl
    · rw [List.map_cons, ih h.tail]

end

theorem mapNames_eq_self {t : Table α} (h : ∀ e ∈ t.entries, f e.1 = e.1) : t.mapNames f = t := by
  obtain ⟨entries⟩ := t
  unfold mapNames
  have hself : ∀ e ∈ entries, (fun e : Text × α => (f e.1, e.2)) e = e := fun e he => by
    dsimp only
    rw [h e he]
  rw [List.map_congr_left hself, List.map_id']

end Table

/-! ## Names in the scopes around a point -/

namespace Renaming

variable {σ : Renaming} {m inner : Option Nat} {i : Nat} {name other : Text}

/-- A name that may stand in a scope some steps out from a point: the renamed scope does not have the old
name, and no other scope has the new one. -/
def KeepsAt (σ : Renaming) (m : Option Nat) (i : Nat) (name : Text) : Prop :=
  (name = σ.new → m = some i) ∧ (name = σ.old → m ≠ some i)

/-- Names that may stand in one scope are not confused when the old name is given back. -/
theorem KeepsAt.injective (h : σ.KeepsAt m i name) (h' : σ.KeepsAt m i other)
    (heq : σ.original name = σ.original other) : name = other := by
  unfold original at heq
  split at heq
  · next hname =>
    split at heq
    · next hother => rw [hname, hother]
    · exact absurd (h.1 hname) (h'.2 heq.symm)
  · split at heq
    · next hother => exact absurd (h'.1 hother) (h.2 heq)
    · exact heq

/-- A table whose names may stand in a scope, and a name that may stand there. -/
theorem KeepsAt.apart {α : Type} {t : Table α} (ht : ∀ n, t.has n → σ.KeepsAt m i n)
    (h : σ.KeepsAt m i name) : t.Apart σ.original name :=
  fun n hn heq => (ht n hn).injective h heq

theorem keepsAt_of_ne (hnew : name ≠ σ.new) (hold : name ≠ σ.old) : σ.KeepsAt m i name :=
  ⟨fun h => absurd h hnew, fun h => absurd h hold⟩

/-- When a scope is opened the others are one step further out. -/
theorem keepsAt_enters (h : Enters m inner) : σ.KeepsAt inner (i + 1) name ↔ σ.KeepsAt m i name := by
  rcases h with rfl | ⟨rfl, rfl⟩
  · unfold KeepsAt
    cases m <;> simp
  · unfold KeepsAt
    simp

/-- The name of a reference may stand in the scope that the reference leads to. -/
theorem keepsAt_of_fits {u : Usage} {ref : Reference} {d : Nat} (h : u.Fits σ m ref)
    (hrecorded : σ.recorded ref.site = some d) : σ.KeepsAt m d ref.name := by
  cases u with
  | «variable» | assign =>
    refine ⟨fun hnew => ?_, fun hold hm => h.2 hold ⟨hm ▸ nofun, hrecorded.trans hm.symm⟩⟩
    exact (h.1 hnew).2.symm.trans hrecorded
  | this | super => exact keepsAt_of_ne h.1 h.2

/-- A reference that is left to the globals does not have the new name. -/
theorem original_of_fits {u : Usage} {ref : Reference} (h : u.Fits σ m ref)
    (hrecorded : σ.recorded ref.site = none) : ref.name ≠ σ.new := by
  cases u with
  | «variable» | assign =>
    intro hnew
    obtain ⟨hm, hleads⟩ := h.1 hnew
    exact hm (hleads.symm.trans hrecorded)
  | this | super => exact h.1

end Renaming

/-- The first element with a property, if another property implies it and holds of this element. -/
theorem findIdx?_eq_of_imp {α : Type} {l : List α} {p q : α → Bool}
    (himp : ∀ (i : Nat) a, l[i]? = some a → q a → p a)
    (hfound : ∀ d a, l.findIdx? p = some d → l[d]? = some a → q a) : l.findIdx? q = l.findIdx? p := by
  cases hp : l.findIdx? p with
  | none =>
    rw [List.findIdx?_eq_none_iff] at hp ⊢
    intro a ha
    obtain ⟨i, hi⟩ := List.mem_iff_getElem?.1 ha
    exact Bool.eq_false_iff.2 fun hq => Bool.eq_false_iff.1 (hp a ha) (himp i a hi hq)
  | some d =>
    obtain ⟨hd, -, hbefore⟩ := List.findIdx?_eq_some_iff_getElem.1 hp
    refine List.findIdx?_eq_some_iff_getElem.2 ⟨hd, hfound d _ hp (List.getElem?_eq_getElem hd), ?_⟩
    intro j hj hq
    exact hbefore j hj (himp j _ (List.getElem?_eq_getElem (Nat.lt_trans hj hd)) hq)

/-! ## Two walks side by side -/

/-- A point in the walk over the renamed program, and the point in that over the old one: the renamed scope
is some number of scopes out, or not open. -/
structure Binder.Renames (σ : Renaming) (m : Option Nat) (b b' : Binder) : Prop where
  scopes : b.scopes = b'.scopes.map (Table.mapNames σ.original)
  keeps : ∀ i t, b'.scopes[i]? = some t → ∀ name, t.has name → σ.KeepsAt m i name
  inClass : b'.inClass = b.inClass
  inRoutine : b'.inRoutine = b.inRoutine
  bindings : b'.bindings = b.bindings
  errors : b'.errors = []

theorem Binder.declare_bindings (b : Binder) (name : Token) : (b.declare name).bindings = b.bindings := by
  cases h : b.scopes with
  | nil => rw [declare_nil h]
  | cons =>
    rw [declare_cons h]
    split <;> rfl

theorem Binder.define_bindings (b : Binder) (name : Token) : (b.define name).bindings = b.bindings := by
  cases h : b.scopes with
  | nil => rw [define_nil h]
  | cons => rw [define_cons h]

theorem Binder.declare_errors {b : Binder} {name : Token}
    (h : ∀ t outer, b.scopes = t :: outer → t.has name.lexeme = false) :
    (b.declare name).errors = b.errors := by
  cases hscopes : b.scopes with
  | nil => rw [declare_nil hscopes]
  | cons t outer => rw [declare_cons hscopes, if_neg (Bool.eq_false_iff.1 (h t outer hscopes))]

theorem Binder.errors_suffix_declareAll (b : Binder) (params : List Token) :
    b.errors <:+ (params.foldl (fun b p => (b.declare p).define p) b).errors := by
  induction params generalizing b with
  | nil => exact List.suffix_refl _
  | cons p params ih =>
    have hp : b.Adds [] ((b.declare p).define p) := (b.declare_adds p).trans (define_adds _ p)
    exact hp.errors.trans (ih _)

namespace Binder.Renames

variable {σ : Renaming} {m inner : Option Nat} {b b' : Binder}

theorem start : Renames σ m .start .start := ⟨rfl, by simp [Binder.start], rfl, rfl, rfl, rfl⟩

section

variable (h : Renames σ m b b')

include h

/-- A name stands in a scope of the renamed program if the name that it was stands in that of the old
one. -/
theorem get? {i : Nat} {t : Table Bool} (ht : b'.scopes[i]? = some t) {name : Text}
    (hname : σ.KeepsAt m i name) : (t.mapNames σ.original).get? (σ.original name) = t.get? name :=
  Table.get?_mapNames (hname.apart (h.keeps i t ht))

/-- A reference is found at the distance where the old program has it. -/
theorem distance? {u : Usage} {ref : Reference} (hfits : u.Fits σ m ref)
    (hrecorded : σ.recorded ref.site = b.distance? (σ.original ref.name)) :
    b'.distance? ref.name = b.distance? (σ.original ref.name) := by
  have hscopes : b.distance? (σ.original ref.name) =
      b'.scopes.findIdx? fun t => (t.mapNames σ.original).has (σ.original ref.name) := by
    rw [Binder.distance?, h.scopes, List.findIdx?_map]
    rfl
  rw [hscopes]
  refine findIdx?_eq_of_imp (fun i t ht hname => ?_) fun d t hd ht => ?_
  · rwa [Table.has_mapNames ((h.keeps i t ht _ hname).apart (h.keeps i t ht))]
  · -- The scope that the old program finds may have the name of the reference, since it leads there.
    have hkeeps := Renaming.keepsAt_of_fits hfits (hrecorded.trans (hscopes.trans hd))
    obtain ⟨_, hhas, -⟩ := List.findIdx?_eq_some_iff_getElem.1 hd
    rw [(List.getElem?_eq_some_iff.1 ht).2, Table.has_mapNames (hkeeps.apart (h.keeps d t ht))] at hhas
    exact hhas

/-- A reference that fits is bound alike under both names. -/
theorem bind {u : Usage} {ref : Reference} {t : Token} (hfits : u.Fits σ m ref)
    (ht : t.lexeme = σ.original ref.name) (hrecorded : σ.recorded ref.site = b.distance? t.lexeme) :
    Renames σ m (b.bind ⟨ref.site, t⟩) (b'.bind ref) := by
  have hdistance : b'.distance? ref.name = b.distance? t.lexeme := by
    rw [ht] at hrecorded ⊢
    exact h.distance? hfits hrecorded
  unfold Binder.bind
  rw [hdistance, show (⟨ref.site, t⟩ : Reference).name = t.lexeme from rfl]
  split
  · exact ⟨h.scopes, h.keeps, h.inClass, h.inRoutine, congrArg (_ :: ·) h.bindings, h.errors⟩
  · exact h

/-- A variable may be read in the renamed program if it may be read in the old one. -/
theorem allowed {ref : Reference} {t : Token} (ht : t.lexeme = σ.original ref.name)
    (hallowed : Usage.variable.Allowed b ⟨ref.site, t⟩) : Usage.variable.Allowed b' ref := by
  have hallowed : b.scopes.head?.bind (·.get? t.lexeme) ≠ some false := hallowed
  rw [h.scopes, ht] at hallowed
  unfold Usage.Allowed
  cases hscopes : b'.scopes with
  | nil => simp
  | cons u outer =>
    have hu : b'.scopes[0]? = some u := by rw [hscopes]; rfl
    rw [hscopes] at hallowed
    intro hmark
    have hmark : u.get? ref.name = some false := hmark
    have hhas : u.has ref.name := by rw [Table.has, hmark]; rfl
    refine hallowed ?_
    change (u.mapNames σ.original).get? (σ.original ref.name) = some false
    rw [h.get? hu (h.keeps 0 u hu _ hhas), hmark]

theorem bindVariable {u : Usage} {ref : Reference} {t : Token}
    (hfits : u.Fits σ m ref) (ht : t.lexeme = σ.original ref.name)
    (hresolved : σ.recorded ref.site = b.distance? t.lexeme ∧ Usage.variable.Allowed b ⟨ref.site, t⟩) :
    Renames σ m (b.bindVariable ⟨ref.site, t⟩) (b'.bindVariable ref) := by
  rw [Binder.bindVariable, Binder.bindVariable, Binder.checkDefined_neg hresolved.2,
    Binder.checkDefined_neg (h.allowed ht hresolved.2)]
  exact h.bind hfits ht hresolved.1

/-- A declaration of a name that may stand in the scope is made alike under both names. -/
theorem mark {c c' : Binder} {name : Text} {complete : Bool}
    (hname : σ.Keeps m name) (hscopes : c.scopes = markInner (σ.original name) complete b.scopes)
    (hscopes' : c'.scopes = markInner name complete b'.scopes) (hinClass : c'.inClass = c.inClass)
    (hinRoutine : c'.inRoutine = c.inRoutine) (hbindings : c'.bindings = c.bindings)
    (herrors : c'.errors = []) : Renames σ m c c' := by
  refine ⟨?_, fun i t ht other hother => ?_, hinClass, hinRoutine, hbindings, herrors⟩
  · rw [hscopes, hscopes', h.scopes]
    cases hb : b'.scopes with
    | nil => rfl
    | cons u outer =>
      have hu : b'.scopes[0]? = some u := by rw [hb]; rfl
      -- Giving the old name back merges no two names of the inner scope.
      have happart := Renaming.KeepsAt.apart (h.keeps 0 u hu) hname
      rw [markInner, List.map_cons, List.map_cons, markInner, Table.mapNames_insert happart]
  · rw [hscopes'] at ht
    cases hb : b'.scopes with
    | nil => simp [hb, markInner] at ht
    | cons u outer =>
      rw [hb, markInner] at ht
      cases i with
      | zero =>
        obtain rfl := Option.some.inj ht
        rw [Table.has_insert, Bool.or_eq_true, decide_eq_true_eq] at hother
        rcases hother with rfl | hother
        · exact hname
        · exact h.keeps 0 u (by rw [hb]; rfl) other hother
      | succ i => exact h.keeps (i + 1) t (by rw [hb]; exact ht) other hother

/-- A declaration without a misuse is made alike under both names. -/
theorem declare {t t' : Token} (hname : σ.Keeps m t'.lexeme) (ht : t.lexeme = σ.original t'.lexeme)
    (hfresh : ∀ u outer, b.scopes = u :: outer → u.has t.lexeme = false) :
    Renames σ m (b.declare t) (b'.declare t') := by
  -- A name that is new in the old scope is new in the renamed one.
  have hfresh' : ∀ u outer, b'.scopes = u :: outer → u.has t'.lexeme = false := by
    intro u outer hb
    have hu : b'.scopes[0]? = some u := by rw [hb]; rfl
    have hscopes : b.scopes = u.mapNames σ.original :: outer.map (Table.mapNames σ.original) := by
      rw [h.scopes, hb, List.map_cons]
    have happart := Renaming.KeepsAt.apart (h.keeps 0 u hu) hname
    rw [← Table.has_mapNames happart, ← ht]
    exact hfresh _ _ hscopes
  refine h.mark hname ?_ (b'.declare_scopes t') ?_ ?_ ?_ ?_
  · rw [b.declare_scopes, ht]
  · rw [(b'.declare_within t').inClass, (b.declare_within t).inClass, h.inClass]
  · rw [(b'.declare_within t').inRoutine, (b.declare_within t).inRoutine, h.inRoutine]
  · rw [declare_bindings, declare_bindings, h.bindings]
  · rw [declare_errors hfresh', h.errors]

theorem declare_same {t : Token} (hname : σ.Keeps m t.lexeme) (hnew : t.lexeme ≠ σ.new)
    (hfresh : ∀ u outer, b.scopes = u :: outer → u.has t.lexeme = false) :
    Renames σ m (b.declare t) (b'.declare t) :=
  h.declare hname (Renaming.original_of_ne hnew).symm hfresh

theorem define {t t' : Token} (hname : σ.Keeps m t'.lexeme)
    (ht : t.lexeme = σ.original t'.lexeme) : Renames σ m (b.define t) (b'.define t') := by
  refine h.mark hname ?_ (b'.define_scopes t') ?_ ?_ ?_ ?_
  · rw [b.define_scopes, ht]
  · rw [(b'.define_within t').inClass, (b.define_within t).inClass, h.inClass]
  · rw [(b'.define_within t').inRoutine, (b.define_within t).inRoutine, h.inRoutine]
  · rw [define_bindings, define_bindings, h.bindings]
  · rw [define_errors, h.errors]

/-- A scope is opened alike under both names. -/
theorem enter (henters : Enters m inner) {u : Table Bool} (hself : u.mapNames σ.original = u)
    (hu : ∀ name, u.has name → σ.KeepsAt inner 0 name) : Renames σ inner (b.enter u) (b'.enter u) := by
  refine ⟨?_, fun i t ht name hname => ?_, h.inClass, h.inRoutine, h.bindings, h.errors⟩
  · change u :: b.scopes = u.mapNames σ.original :: b'.scopes.map _
    rw [hself, h.scopes]
  · cases i with
    | zero =>
      obtain rfl := Option.some.inj ht
      exact hu name hname
    | succ i => exact (Renaming.keepsAt_enters henters).2 (h.keeps i t ht name hname)

theorem enterEmpty (henters : Enters m inner) : Renames σ inner (b.enter .empty) (b'.enter .empty) :=
  h.enter henters rfl fun name hname => by simp [Table.has_empty] at hname

/-- A scope with `this` or `super` is opened alike under both names. -/
theorem enterName {name : Text} (hnew : name ≠ σ.new) (hold : name ≠ σ.old) :
    Renames σ (m.map (· + 1)) (b.enter (.ofList [(name, true)])) (b'.enter (.ofList [(name, true)])) := by
  refine h.enter (.inl rfl) (Table.mapNames_eq_self fun e he => ?_) fun other hother => ?_
  · obtain rfl := List.mem_singleton.1 he
    exact Renaming.original_of_ne hnew
  · rw [show (Table.ofList [(name, true)] : Table Bool) = Table.empty.insert name true from rfl,
      Table.has_insert, Table.has_empty, Bool.or_false, decide_eq_true_eq] at hother
    rw [hother]
    exact Renaming.keepsAt_of_ne hnew hold

end

theorem leave (h : Renames σ inner b b') (henters : Enters m inner) : Renames σ m b.leave b'.leave := by
  refine ⟨?_, fun i t ht name hname => ?_, h.inClass, h.inRoutine, h.bindings, h.errors⟩
  · change b.scopes.tail = b'.scopes.tail.map _
    rw [h.scopes, List.map_tail]
  · refine (Renaming.keepsAt_enters henters).1 (h.keeps (i + 1) t ?_ name hname)
    rw [← List.getElem?_tail]
    exact ht

theorem inClass_eq (h : Renames σ m b b') {c c' : ClassContext} (hc : c' = c) :
    Renames σ m { b with inClass := c } { b' with inClass := c' } :=
  ⟨h.scopes, h.keeps, hc, h.inRoutine, h.bindings, h.errors⟩

theorem inRoutine_eq (h : Renames σ m b b') {c c' : RoutineContext} (hc : c' = c) :
    Renames σ m { b with inRoutine := c } { b' with inRoutine := c' } :=
  ⟨h.scopes, h.keeps, h.inClass, hc, h.bindings, h.errors⟩

/-- Parameters are declared, if the old ones are declared without a misuse. -/
theorem declareAll (k : Nat) {params : List Token} (h : Renames σ m b b')
    (hparams : ∀ p ∈ params, σ.Keeps m p.lexeme)
    (herrors : ((params.map (σ.back.declaration k)).foldl (fun b p => (b.declare p).define p) b).errors = []) :
    Renames σ m ((params.map (σ.back.declaration k)).foldl (fun b p => (b.declare p).define p) b)
      (params.foldl (fun b p => (b.declare p).define p) b') := by
  induction params generalizing b b' with
  | nil => exact h
  | cons p params ih =>
    obtain ⟨hp, hparams⟩ := List.forall_mem_cons.1 hparams
    rw [List.map_cons, List.foldl_cons] at herrors
    refine ih ((h.declare hp rfl fun u outer hscopes => ?_).define hp rfl) hparams herrors
    -- The misuses after the first parameter are among those after all of them.
    have hfirst := errors_suffix_declareAll ((b.declare (σ.back.declaration k p)).define
      (σ.back.declaration k p)) (params.map (σ.back.declaration k))
    rw [herrors, List.suffix_nil, define_errors] at hfirst
    exact has_of_declare hscopes hfirst

end Binder.Renames

/-! ## The walk over a phrase -/

section Phrases

variable {σ : Renaming}

section Expressions

variable {m : Option Nat} (k : Nat)

/-- An expression is bound alike under both names. -/
theorem Expr.bind_renames (e : Expr) (b b' : Binder) (h : Binder.Renames σ m b b')
    (hfits : ∀ p ∈ e.references, p.1.Fits σ m p.2) (hs : Phrase.Sound σ.recorded b (.expr (e.rename σ.back k))) :
    Binder.Renames σ m ((e.rename σ.back k).bind b) (e.bind b') := by
  induction e using @Expr.rec _ (fun es => ∀ b b', Binder.Renames σ m b b' →
    (∀ p ∈ referencesOfAll es, p.1.Fits σ m p.2) → Phrase.Sound σ.recorded b (.exprs (renameAll σ.back k es)) →
    Binder.Renames σ m (bindAll (renameAll σ.back k es) b) (bindAll es b')) generalizing b b' with
  | literal | nil => assumption
  | grouping _ _ ih | unary _ _ _ _ ih | get _ _ _ ih => exact ih b b' h hfits (hs.child (.head _))
  | «variable» => exact h.bindVariable (hfits _ (.head _)) rfl hs.of_variable
  | assign _ _ ih =>
    have hvalue := ih b b' h (fun p hp => hfits p (.tail _ hp)) (hs.child (.head _))
    refine hvalue.bind (hfits _ (.head _)) rfl ?_
    rw [(bind_alike _ b).distance?]
    exact hs.of_assign
  | this ref =>
    obtain ⟨hrecorded, hallowed⟩ := hs.of_this
    have hfits := hfits _ (.head _)
    have hallowed' : b'.inClass ≠ .outside := h.inClass ▸ hallowed
    rw [rename, bind, bind, if_neg hallowed, if_neg hallowed']
    exact h.bind hfits (Renaming.original_of_ne hfits.1).symm hrecorded
  | super ref =>
    obtain ⟨hrecorded, hallowed⟩ := hs.of_super
    have hfits := hfits _ (.head _)
    have hself {c : Binder} (hc : c.inClass = .derived) : c.checkSuper ref = c := by
      rw [Binder.checkSuper, hc]
    rw [rename, bind, bind, hself hallowed, hself (h.inClass.trans hallowed)]
    exact h.bind hfits (Renaming.original_of_ne hfits.1).symm hrecorded
  | binary _ _ _ _ _ ih ih' | logical _ _ _ _ _ ih ih' | call _ _ _ _ ih ih' =>
    obtain ⟨hleft, hright⟩ := List.forall_mem_append.1 hfits
    exact ih' _ _ (ih b b' h hleft (hs.child (.head _))) hright (hs.child (.tail _ (.head _)))
  | set _ _ _ _ ih ih' =>
    obtain ⟨hobject, hvalue⟩ := List.forall_mem_append.1 hfits
    exact ih _ _ (ih' b b' h hvalue (hs.child (.head _))) hobject (hs.child (.tail _ (.head _)))
  | conditional _ _ _ _ _ _ ih ihmiddle ihright =>
    obtain ⟨hboth, hright⟩ := List.forall_mem_append.1 hfits
    obtain ⟨hcondition, hmiddle⟩ := List.forall_mem_append.1 hboth
    have hfirst := ih b b' h hcondition (hs.child (.head _))
    have hsecond := ihmiddle _ _ hfirst hmiddle (hs.child (.tail _ (.head _)))
    exact ihright _ _ hsecond hright (hs.child (.tail _ (.tail _ (.head _))))
  | cons _ _ ih ih' =>
    rename_i b b' h hfits hs
    obtain ⟨he, hrest⟩ := List.forall_mem_append.1 hfits
    exact ih' _ _ (ih b b' h he (hs.child (.head _))) hrest (hs.child (.tail _ (.head _)))

end Expressions

/-- A `return` that is no misuse in the old program is none in the renamed one. -/
theorem Binder.Renames.checkReturn {m : Option Nat} {b b' : Binder} (h : Renames σ m b b') (keyword : Token)
    {hasValue : Bool} (herrors : (b.checkReturn keyword hasValue).errors = []) :
    Renames σ m (b.checkReturn keyword hasValue) (b'.checkReturn keyword hasValue) := by
  unfold Binder.checkReturn at *
  rw [h.inRoutine]
  cases hroutine : b.inRoutine with
  | outside =>
    rw [hroutine] at herrors
    exact absurd herrors (List.cons_ne_nil _ _)
  | initializer =>
    rw [hroutine] at herrors
    cases hasValue with
    | true => exact absurd herrors (List.cons_ne_nil _ _)
    | false => exact h
  | function | method => exact h

mutual

/-- A statement is bound alike under both names. -/
theorem Stmt.bind_renames (hσ : σ.Proper) : (s : Stmt) → (k : Nat) → (m : Option Nat) → (b b' : Binder) →
    Binder.Renames σ m b b' → s.Fits σ m → Phrase.Sound σ.recorded b (.stmt (s.rename σ.back k)) →
    Binder.Renames σ m ((s.rename σ.back k).bind b) (s.bind b')
  | .expression e, k, _, b, b', h, hfits, hs | .print e, k, _, b, b', h, hfits, hs =>
    Expr.bind_renames k e b b' h hfits (hs.child (.head _))
  | .returns keyword none, _, _, _, _, h, _, hs => h.checkReturn keyword hs.accepted
  | .returns keyword (some e), k, _, b, b', h, hfits, hs =>
    Expr.bind_renames k e _ _ (h.checkReturn keyword (hs.child (.head _)).errors_eq_nil) hfits (hs.child (.head _))
  | .branch condition body none, k, m, b, b', h, hfits, hs | .loop condition body, k, m, b, b', h, hfits, hs => by
    have hcondition := Expr.bind_renames k condition b b' h hfits.1 (hs.child (.head _))
    exact Stmt.bind_renames hσ body k m _ _ hcondition hfits.2 (hs.child (.tail _ (.head _)))
  | .branch condition yes (some no), k, m, b, b', h, hfits, hs => by
    have hcondition := Expr.bind_renames k condition b b' h hfits.1 (hs.child (.head _))
    have hyes := Stmt.bind_renames hσ yes k m _ _ hcondition hfits.2.1 (hs.child (.tail _ (.head _)))
    exact Stmt.bind_renames hσ no k m _ _ hyes hfits.2.2 (hs.child (.tail _ (.tail _ (.head _))))
  | .block body, k, m, b, b', h, ⟨inner, henters, hfits⟩, hs => by
    have hbody := Stmt.bindAll_renames hσ body (k + 1) inner _ _ (h.enterEmpty henters) hfits
      (hs.child (.head _))
    exact hbody.leave henters
  | .variable name none, _, _, _, _, h, hfits, hs =>
    (h.declare hfits.1 rfl fun _ _ hscopes => hs.declares_fresh hscopes rfl).define hfits.1 rfl
  | .variable name (some e), k, _, _, _, h, hfits, hs => by
    have hdeclared := h.declare (t := σ.back.declaration k name) hfits.1 rfl
      fun _ _ hscopes => hs.declares_fresh hscopes rfl
    exact (Expr.bind_renames k e _ _ hdeclared hfits.2 (hs.child (.head _))).define hfits.1 rfl
  | .routine (.mk name params body), k, m, _, _, h, hfits, hs => by
    have hname := (Renaming.original_of_ne hfits.1.2).symm
    have hdeclared := h.declare_same hfits.1.1 hfits.1.2
      fun _ _ hscopes => hs.declares_fresh hscopes rfl
    exact Routine.bind_renames hσ (.mk name params body) k .function m _ _ (hdeclared.define hfits.1.1 hname)
      hfits.2 (hs.child (.head _))
  | .classOf name none methods, k, m, b, b', h, hfits, hs => by
    have hname := (Renaming.original_of_ne hfits.1.2).symm
    have hdeclared := (h.inClass_eq (c := .plain) rfl).declare_same hfits.1.1 hfits.1.2
      fun _ _ hscopes => hs.declares_fresh hscopes rfl
    have hopen := (hdeclared.define hfits.1.1 hname).enterName hσ.new.1.symm hσ.old.1.symm
    have hmethods := Routine.bindMethods_renames hσ methods (k + 1) _ _ _ hopen hfits.2 (hs.child (.head _))
    exact (hmethods.leave (.inl rfl)).inClass_eq h.inClass
  | .classOf name (some superclass) methods, k, m, b, b', h, hfits, hs => by
    have hname := (Renaming.original_of_ne hfits.1.2).symm
    have hdeclared := (h.inClass_eq (c := .plain) rfl).declare_same hfits.1.1 hfits.1.2
      fun _ _ hscopes => hs.declares_fresh hscopes rfl
    have hnamed : Binder.Renames σ m (b.nameClass name) (b'.nameClass name) :=
      hdeclared.define hfits.1.1 hname
    -- The class does not name itself as its superclass, neither before nor after.
    have hself : σ.original superclass.name ≠ name.lexeme := hs.of_superclass
    have hself' : superclass.name ≠ name.lexeme := fun heq => hself (by rw [heq, ← hname])
    have hderive : Binder.Renames σ m (b.derive name (σ.back.reference k superclass))
        (b'.derive name superclass) := by
      unfold Binder.derive Binder.checkSuperclass
      rw [if_neg hself', if_neg (show (σ.back.reference k superclass).name ≠ name.lexeme from hself)]
      exact hnamed.inClass_eq rfl
    have hsuper := hderive.bindVariable hfits.2.1 rfl (hs.child (.head _)).of_variable
    have hopen := (hsuper.enterName hσ.new.2.symm hσ.old.2.symm).enterName hσ.new.1.symm hσ.old.1.symm
    -- `super` and `this` each open a scope.
    have hplace : (m.map (· + 1)).map (· + 1) = m.map (· + 2) := by
      rw [Option.map_map]
      rfl
    have hmethods := Routine.bindMethods_renames hσ methods (k + 2) _ _ _ (hplace ▸ hopen) hfits.2.2
      (hs.child (.tail _ (.head _)))
    exact ((hmethods.leave (.inl hplace.symm)).leave (.inl rfl)).inClass_eq h.inClass

/-- A routine is bound alike under both names. -/
theorem Routine.bind_renames (hσ : σ.Proper) : (r : Routine) → (k : Nat) → (context : RoutineContext) →
    (m : Option Nat) → (b b' : Binder) → Binder.Renames σ m b b' → r.Fits σ m →
    Phrase.Sound σ.recorded b (.routine context (r.rename σ.back k)) →
    Binder.Renames σ m ((r.rename σ.back k).bind context b) (r.bind context b')
  | .mk _ params body, k, context, m, b, b', h, ⟨inner, henters, hparams, hfits⟩, hs => by
    have hbody := hs.child (.head _)
    have hopen := ((h.inRoutine_eq (c := context) rfl).enterEmpty henters).declareAll (k + 1) hparams
      hbody.errors_eq_nil
    have hbound := Stmt.bindAll_renames hσ body (k + 1) inner _ _ hopen hfits hbody
    exact (hbound.leave henters).inRoutine_eq h.inRoutine

theorem Stmt.bindAll_renames (hσ : σ.Proper) : (ss : List Stmt) → (k : Nat) → (m : Option Nat) →
    (b b' : Binder) → Binder.Renames σ m b b' → Stmt.FitsAll σ ss m →
    Phrase.Sound σ.recorded b (.stmts (Stmt.renameAll σ.back ss k)) →
    Binder.Renames σ m (Stmt.bindAll (Stmt.renameAll σ.back ss k) b) (Stmt.bindAll ss b')
  | [], _, _, _, _, h, _, _ => h
  | s :: rest, k, m, b, b', h, hfits, hs => by
    have hbound := Stmt.bind_renames hσ s k m b b' h hfits.1 (hs.child (.head _))
    exact Stmt.bindAll_renames hσ rest k m _ _ hbound hfits.2 (hs.child (.tail _ (.head _)))

/-- Methods are bound alike under both names. -/
theorem Routine.bindMethods_renames (hσ : σ.Proper) : (rs : List Routine) → (k : Nat) → (m : Option Nat) →
    (b b' : Binder) → Binder.Renames σ m b b' → Routine.FitsAll σ rs m →
    Phrase.Sound σ.recorded b (.methods (Routine.renameAll σ.back rs k)) →
    Binder.Renames σ m (Routine.bindMethods (Routine.renameAll σ.back rs k) b) (Routine.bindMethods rs b')
  | [], _, _, _, _, h, _, _ => h
  | .mk name params body :: rest, k, m, b, b', h, hfits, hs => by
    have hbound := Routine.bind_renames hσ (.mk name params body) k (methodContext name) m b b' h hfits.1
      (hs.child (.head _))
    exact Routine.bindMethods_renames hσ rest k m _ _ hbound hfits.2 (hs.child (.tail _ (.head _)))

end

/-- The renamed program is bound like the old one: without a misuse, and with the same distances. -/
theorem Program.RenamesLocal.bound_eq (hσ : σ.Proper) {program program' : Program}
    (h : Program.RenamesLocal σ program program') (hprogram : Phrase.Sound σ.recorded .start (.stmts program))
    (havoids : Stmt.AvoidsAll σ.new program) : Bound.ofProgram program' = Bound.ofProgram program := by
  have hfits := h.fits hσ hprogram havoids
  have hback := h.back havoids
  have haccepted : (Stmt.bindAll program .start).errors = [] := hprogram.accepted
  rw [← hback] at hprogram
  have hbound := Stmt.bindAll_renames hσ program' 0 none _ _ .start hfits hprogram
  rw [hback] at hbound
  unfold Bound.ofProgram
  dsimp only
  rw [hbound.bindings, hbound.errors, haccepted]

end Phrases

end Lox
