import Lox.Proofs.Relocation

/-!
# Binding without an empty scope

A block whose statements declare nothing has an empty scope. Bound without that scope, at sites of their own, its
statements get the same distances, up to those that lead past the scope, which are one less (`lowered`).

`Binder.Thins` relates a point of the walk to the same point without the empty scope, some scopes further in.
The parts of a phrase are bound at points that are related in the same way (`Phrase.children_thins`), so all
parts of the block are (`Phrase.Reaches.thins`), and the distances at their references are as said
(`Phrase.lowers_own`).
-/

namespace Lox

/-- A distance without the scope at distance `k`. -/
def lowered (k d : Nat) : Nat := if d < k then d else d - 1

theorem lowered_succ {k d : Nat} (h : d ≠ k) : lowered (k + 1) (d + 1) = lowered k d + 1 := by
  unfold lowered
  split_ifs <;> omega

namespace Binder

/-- The second binder has no scope where the first one has an empty one, `k` scopes out; the scopes around it
are given. -/
structure Thins (outer : List (Table Bool)) (k : Nat) (b b' : Binder) : Prop where
  scopes : ∃ inner, inner.length = k ∧ b.scopes = inner ++ .empty :: outer ∧ b'.scopes = inner ++ outer
  inClass : b'.inClass = b.inClass

namespace Thins

variable {outer : List (Table Bool)} {k : Nat} {b b' c c' : Binder}

section

variable (h : Thins outer k b b')

include h

theorem length : b.scopes.length = k + 1 + outer.length := by
  obtain ⟨inner, hlength, hscopes, -⟩ := h.scopes
  rw [hscopes, List.length_append, List.length_cons, hlength]
  omega

theorem getElem?_empty : b.scopes[k]? = some .empty := by
  obtain ⟨inner, rfl, hscopes, -⟩ := h.scopes
  rw [hscopes, List.getElem?_append_right (Nat.le_refl _), Nat.sub_self]
  rfl

theorem distance?_ne (name : Text) : b.distance? name ≠ some k := by
  intro hk
  obtain ⟨t, ht, hhas⟩ := exists_of_findIdx? hk
  obtain rfl := Option.some.inj (h.getElem?_empty.symm.trans ht)
  exact absurd hhas (by rw [Table.has_empty]; exact Bool.false_ne_true)

/-- Without the empty scope the distances that lead beyond it are one less. -/
theorem distance?_eq (name : Text) : b'.distance? name = (b.distance? name).map (lowered k) := by
  obtain ⟨inner, rfl, hscopes, hscopes'⟩ := h.scopes
  rw [distance?, distance?, hscopes, hscopes', List.findIdx?_append, List.findIdx?_append,
    List.findIdx?_cons, Table.has_empty]
  cases hinner : inner.findIdx? (·.has name) with
  | some d =>
    have hd : d < inner.length := (List.findIdx?_eq_some_iff_getElem.1 hinner).1
    simp [lowered, hd]
  | none =>
    cases outer.findIdx? (·.has name) with
    | none => rfl
    | some d =>
      have hpast : ¬ d + 1 + inner.length < inner.length := by omega
      have hlowered : lowered inner.length (d + 1 + inner.length) = d + inner.length := by
        rw [lowered, if_neg hpast]
        omega
      simp [hlowered]

theorem of_alike (hc : b.Alike c) (hc' : b'.Alike c') : Thins outer k c c' := by
  refine ⟨?_, ?_⟩
  · rw [hc.scopes, hc'.scopes]
    exact h.scopes
  · rw [hc.inClass, hc'.inClass]
    exact h.inClass

theorem enter (scope : Table Bool) : Thins outer (k + 1) (b.enter scope) (b'.enter scope) := by
  obtain ⟨inner, hlength, hscopes, hscopes'⟩ := h.scopes
  exact ⟨⟨scope :: inner, congrArg (· + 1) hlength, congrArg (scope :: ·) hscopes,
    congrArg (scope :: ·) hscopes'⟩, h.inClass⟩

/-- A declaration further inside is the same with and without the empty scope. -/
theorem mark (hk : k ≠ 0) {name : Text} {complete : Bool}
    (hc : c.scopes = markInner name complete b.scopes) (hc' : c'.scopes = markInner name complete b'.scopes)
    (hclass : c'.inClass = c.inClass) : Thins outer k c c' := by
  obtain ⟨inner, hlength, hscopes, hscopes'⟩ := h.scopes
  cases inner with
  | nil => exact absurd hlength.symm hk
  | cons t inner =>
    refine ⟨⟨t.insert name complete :: inner, hlength, ?_, ?_⟩, hclass⟩
    · rw [hc, hscopes]
      rfl
    · rw [hc', hscopes']
      rfl

theorem declare (hk : k ≠ 0) (name : Token) : Thins outer k (b.declare name) (b'.declare name) := by
  refine h.mark hk (b.declare_scopes name) (b'.declare_scopes name) ?_
  rw [(b.declare_within name).inClass, (b'.declare_within name).inClass]
  exact h.inClass

theorem define (hk : k ≠ 0) (name : Token) : Thins outer k (b.define name) (b'.define name) := by
  refine h.mark hk (b.define_scopes name) (b'.define_scopes name) ?_
  rw [(b.define_within name).inClass, (b'.define_within name).inClass]
  exact h.inClass

/-- Entering a routine is the same with and without the empty scope. -/
theorem enterRoutine (params : List Token) :
    Thins outer (k + 1) (b.enterRoutine params) (b'.enterRoutine params) := by
  have henter := h.enter .empty
  unfold Binder.enterRoutine
  generalize b.enter .empty = b at henter
  generalize b'.enter .empty = b' at henter
  induction params generalizing b b' with
  | nil => exact henter
  | cons p params ih => exact ih _ _ ((henter.declare k.succ_ne_zero p).define k.succ_ne_zero p)

theorem nameClass (hk : k ≠ 0) (name : Token) : Thins outer k (b.nameClass name) (b'.nameClass name) :=
  h.mark hk (b.nameClass_scopes name) (b'.nameClass_scopes name)
    ((b'.nameClass_inClass name).trans (b.nameClass_inClass name).symm)

theorem derive (hk : k ≠ 0) (name : Token) (superclass superclass' : Reference) :
    Thins outer k (b.derive name superclass) (b'.derive name superclass') := by
  refine ⟨?_, rfl⟩
  rw [derive_scopes, derive_scopes]
  exact (h.nameClass hk name).scopes

/-- A statement that declares nothing where the empty scope is current may be bound in between. -/
theorem after {s s' : Stmt} (hs : s.Formed) (hs' : s'.Formed) (hdeclared : s'.declared? = s.declared?)
    (hquiet : k = 0 → s.declared? = none) : Thins outer k (s.bind b) (s'.bind b') := by
  have hfollows := s.bind_follows b hs
  have hfollows' := s'.bind_follows b' hs'
  cases hname : s.declared? with
  | none => exact h.of_alike (hfollows.alike hname) (hfollows'.alike (hdeclared.trans hname))
  | some name =>
    have hk : k ≠ 0 := fun hk => by cases (hquiet hk).symm.trans hname
    have hscopes := hfollows.scopes
    have hscopes' := hfollows'.scopes
    rw [Stmt.scopesAfter, hname] at hscopes
    rw [Stmt.scopesAfter, hdeclared, hname] at hscopes'
    refine h.mark hk hscopes hscopes' ?_
    rw [hfollows.inClass, hfollows'.inClass]
    exact h.inClass

end

end Thins

end Binder

/-! ## The parts of a phrase -/

section

variable (n : Nat)

mutual

/-- A statement that is moved is formed as before. -/
theorem Stmt.Formed.moved : (s : Stmt) → s.Formed → (s.moved n).Formed
  | .expression _, _ | .print _, _ | .returns _ _, _ => trivial
  | .branch _ body none, h | .loop _ body, h => ⟨(body.declared?_moved n).trans h.1, Stmt.Formed.moved body h.2⟩
  | .branch _ yes (some no), h =>
    ⟨⟨(yes.declared?_moved n).trans h.1.1, Stmt.Formed.moved yes h.1.2⟩,
      (no.declared?_moved n).trans h.2.1, Stmt.Formed.moved no h.2.2⟩
  | .block body, h => Stmt.FormedAll.moved body h
  | .variable _ _, h => h
  | .routine r, h => Routine.Formed.moved r h
  | .classOf _ _ methods, h => ⟨h.1, Routine.FormedAll.moved methods h.2⟩

theorem Routine.Formed.moved : (r : Routine) → r.Formed → (r.moved n).Formed
  | .mk _ _ body, h => ⟨h.1, h.2.1, Stmt.FormedAll.moved body h.2.2⟩

theorem Stmt.FormedAll.moved : (ss : List Stmt) → Stmt.FormedAll ss → Stmt.FormedAll (Stmt.movedAll n ss)
  | [], _ => trivial
  | s :: rest, h => ⟨Stmt.Formed.moved s h.1, Stmt.FormedAll.moved rest h.2⟩

theorem Routine.FormedAll.moved : (rs : List Routine) → Routine.FormedAll rs →
    Routine.FormedAll (Routine.movedAll n rs)
  | [], _ => trivial
  | r :: rest, h => ⟨Routine.Formed.moved r h.1, Routine.FormedAll.moved rest h.2⟩

end

end

namespace Phrase

/-- A phrase declares nothing in the scope where it stands. -/
def Quiet : Phrase → Prop
  | .expr _ | .exprs _ => True
  | .stmt s => s.declared? = none
  | .stmts ss => ∀ s ∈ ss, s.declared? = none
  | .routine _ _ | .methods _ => False

/-- A phrase that is bound at a point is bound at the same point without the empty scope too, at other
sites. -/
def Thinned (off : Nat) (outer : List (Table Bool)) (p p' : Binder × Phrase) : Prop :=
  p'.2 = p.2.moved off ∧ ∃ k, Binder.Thins outer k p.1 p'.1 ∧ (k = 0 → p.2.Quiet)

section

variable {off k : Nat} {outer : List (Table Bool)} {b b' : Binder}

theorem Thinned.mk {n n' : Phrase} (hn : n' = n.moved off) (h : Binder.Thins outer k b b')
    (hquiet : k = 0 → n.Quiet) : Thinned off outer (b, n) (b', n') :=
  ⟨hn, k, h, hquiet⟩

theorem Thinned.expr (e : Expr) (h : Binder.Thins outer k b b') :
    Thinned off outer (b, .expr e) (b', .expr (e.moved off)) :=
  .mk rfl h fun _ => trivial

theorem Thinned.exprs (es : List Expr) (h : Binder.Thins outer k b b') :
    Thinned off outer (b, .exprs es) (b', .exprs (Expr.movedAll off es)) :=
  .mk rfl h fun _ => trivial

/-- Between the parts of an expression the scopes stay. -/
theorem children_thins_expr (e : Expr) (h : Binder.Thins outer k b b') :
    List.Forall₂ (Thinned off outer) ((Phrase.expr e).children b)
      ((Phrase.expr (e.moved off)).children b') := by
  have hafter : ∀ e : Expr, Binder.Thins outer k (e.bind b) ((e.moved off).bind b') := fun e =>
    h.of_alike (e.bind_alike b) (Expr.bind_alike _ b')
  cases e with
  | literal | «variable» | this | super => exact .nil
  | grouping _ e | assign _ e | unary _ _ _ e | get _ e _ => exact .cons (.expr e h) .nil
  | binary _ _ _ first second | logical _ _ _ first second | set _ second _ first =>
    exact .cons (.expr first h) (.cons (.expr second (hafter first)) .nil)
  | conditional _ condition _ middle _ right =>
    have hmiddle := (hafter condition).of_alike (middle.bind_alike _) (Expr.bind_alike (middle.moved off) _)
    exact .cons (.expr condition h) (.cons (.expr middle (hafter condition)) (.cons (.expr right hmiddle) .nil))
  | call _ callee _ arguments =>
    exact .cons (.expr callee h) (.cons (.exprs arguments (hafter callee)) .nil)

/-- The parts of a statement are bound alike with and without the empty scope. -/
theorem children_thins_stmt (s : Stmt) (hs : s.Formed) (hquiet : k = 0 → s.declared? = none)
    (h : Binder.Thins outer k b b') :
    List.Forall₂ (Thinned off outer) ((Phrase.stmt s).children b)
      ((Phrase.stmt (s.moved off)).children b') := by
  have hafter : ∀ e : Expr, Binder.Thins outer k (e.bind b) ((e.moved off).bind b') := fun e =>
    h.of_alike (e.bind_alike b) (Expr.bind_alike _ b')
  -- A declaration stands in a scope further in.
  have hk : ∀ {name}, s.declared? = some name → k ≠ 0 := fun hname hk => by
    cases (hquiet hk).symm.trans hname
  cases s with
  | expression e | print e => exact .cons (.expr e h) .nil
  | returns keyword value =>
    cases value with
    | none => exact .nil
    | some e =>
      have hchecked := h.of_alike (b.checkReturn_alike keyword true) (b'.checkReturn_alike keyword true)
      exact .cons (.expr e hchecked) .nil
  | branch condition yes no =>
    cases no with
    | none => exact .cons (.expr condition h) (.cons (.mk rfl (hafter condition) fun _ => hs.1) .nil)
    | some no =>
      have hyes := (hafter condition).after hs.1.2 (Stmt.Formed.moved off yes hs.1.2)
        (yes.declared?_moved off) fun _ => hs.1.1
      exact .cons (.expr condition h) (.cons (.mk rfl (hafter condition) fun _ => hs.1.1)
        (.cons (.mk rfl hyes fun _ => hs.2.1) .nil))
  | loop condition body =>
    exact .cons (.expr condition h) (.cons (.mk rfl (hafter condition) fun _ => hs.1) .nil)
  | block body => exact .cons (.mk rfl (h.enter .empty) nofun) .nil
  | «variable» name initializer =>
    cases initializer with
    | none => exact .nil
    | some e => exact .cons (.expr e (h.declare (hk rfl) name)) .nil
  | routine r =>
    obtain ⟨name, params, body⟩ := r
    have hnamed := (h.declare (hk rfl) name).define (hk rfl) name
    exact .cons (.mk rfl hnamed fun hzero => absurd hzero (hk rfl)) .nil
  | classOf name superclass methods =>
    cases superclass with
    | none => exact .cons (.mk rfl ((h.nameClass (hk rfl) name).enter _) nofun) .nil
    | some superclass =>
      have hderived := h.derive (hk rfl) name superclass (superclass.moved off)
      have hbound := hderived.of_alike (Binder.bindVariable_alike _ superclass)
        (Binder.bindVariable_alike _ (superclass.moved off))
      exact .cons (.expr (.variable superclass) hderived)
        (.cons (.mk rfl ((hbound.enter _).enter _) nofun) .nil)

/-- The parts of a phrase are bound at the same points without the empty scope. -/
theorem children_thins (n : Phrase) (hn : n.Formed) (hquiet : k = 0 → n.Quiet)
    (h : Binder.Thins outer k b b') :
    List.Forall₂ (Thinned off outer) (n.children b) ((n.moved off).children b') := by
  cases n with
  | expr e => exact children_thins_expr e h
  | exprs es =>
    cases es with
    | nil => exact .nil
    | cons e rest =>
      have hrest := h.of_alike (e.bind_alike b) (Expr.bind_alike (e.moved off) b')
      exact .cons (.expr e h) (.cons (.exprs rest hrest) .nil)
  | stmt s => exact children_thins_stmt s hn hquiet h
  | stmts ss =>
    cases ss with
    | nil => exact .nil
    | cons s rest =>
      have hquiet : k = 0 → s.declared? = none ∧ ∀ s ∈ rest, s.declared? = none := fun hk =>
        List.forall_mem_cons.1 (hquiet hk)
      have hrest := h.after hn.1 (Stmt.Formed.moved off s hn.1) (s.declared?_moved off)
        fun hk => (hquiet hk).1
      exact .cons (.mk rfl h fun hk => (hquiet hk).1) (.cons (.mk rfl hrest fun hk => (hquiet hk).2) .nil)
  | routine context r =>
    obtain ⟨name, params, body⟩ := r
    have hinside : Binder.Thins outer k { b with inRoutine := context } { b' with inRoutine := context } :=
      ⟨h.scopes, h.inClass⟩
    exact .cons (.mk rfl (hinside.enterRoutine params) nofun) .nil
  | methods rs =>
    cases rs with
    | nil => exact .nil
    | cons r rest =>
      have hrest := h.of_alike (r.bind_alike (methodContext r.name) b)
        ((r.moved off).bind_alike (methodContext r.name) b')
      have hchildren : (Phrase.moved off (.methods (r :: rest))).children b' =
          [(b', .routine (methodContext r.name) (r.moved off)),
            ((r.moved off).bind (methodContext r.name) b', .methods (Routine.movedAll off rest))] := by
        rw [← r.name_moved off]
        rfl
      rw [hchildren]
      exact .cons (.mk rfl h hquiet) (.cons (.mk rfl hrest hquiet) .nil)

end

/-! ## The distances -/

/-- A reference has, at another site and without the scope at distance `k`, the same distance, or one less. -/
structure Lowers (recorded recorded' : Site → Option Nat) (off k : Nat) (p : Usage × Reference) : Prop where
  moved : recorded' (p.2.site + off) = (recorded p.2.site).map (lowered k)
  apart : recorded p.2.site ≠ some k
  /-- The scope with `this`, which stands before that with `super`, is not the one either. -/
  super : p.1 = .super → ∃ d, recorded p.2.site = some (d + 1) ∧ d ≠ k

variable {walk : Walk} {recorded recorded' : Site → Option Nat} {off : Nat} {outer : List (Table Bool)}
  {b b' : Binder} {n : Phrase}

/-- What is recorded about the reference of a phrase itself, with and without the empty scope. -/
theorem lowers_own (hwalk : walk.Lawful recorded) {k : Nat} (hvisit : walk b n)
    (h : Binder.Thins outer k b b') (hsettled : Settled recorded' b' (n.moved off)) :
    ∀ p ∈ n.own, Lowers recorded recorded' off k p := by
  intro p hp
  obtain ⟨hrecorded, hallowed⟩ := (hwalk.sound hvisit).own_resolved p hp
  have hown : (p.1, p.2.moved off) ∈ (n.moved off).own := by
    rw [own_moved]
    exact List.mem_map_of_mem hp
  have hthis : p.1 = .this → b'.inClass ≠ .outside := by
    intro hu
    rw [hu] at hallowed
    rw [h.inClass]
    exact hallowed
  have hrecorded' : recorded' (p.2.site + off) = b'.distance? p.2.name :=
    hsettled.own_recorded hown hthis
  refine ⟨?_, ?_, fun hu => ?_⟩
  · rw [hrecorded', hrecorded]
    exact h.distance?_eq p.2.name
  · rw [hrecorded]
    exact h.distance?_ne p.2.name
  · -- The scope with `this` holds a name.
    cases n with
    | expr e =>
      have hmeets := hwalk.meets hvisit p (own_subset (.expr e) hp)
      rw [hu] at hmeets
      obtain ⟨d, t, -, hd, ht, hhas, -⟩ := hmeets
      refine ⟨d, hd, ?_⟩
      rintro rfl
      obtain rfl := Option.some.inj (h.getElem?_empty.symm.trans ht)
      exact absurd hhas (by rw [Table.has_empty]; exact Bool.false_ne_true)
    | _ => exact absurd hp List.not_mem_nil

/-- The part of a phrase at a point of the walk is bound without the empty scope as well. -/
theorem Reaches.thins (hwalk : walk.Lawful recorded) {k : Nat} (hvisit : walk b n)
    (hquiet : k = 0 → n.Quiet) (h : Binder.Thins outer k b b')
    (hsettled : Settled recorded' b' (n.moved off)) {c : Binder} {m : Phrase} (hreaches : Reaches b n c m) :
    walk c m ∧ ∃ k' c', Binder.Thins outer k' c c' ∧ (k' = 0 → m.Quiet) ∧
      Settled recorded' c' (m.moved off) := by
  induction hreaches with
  | here => exact ⟨hvisit, k, b', h, hquiet, hsettled⟩
  | @child c₁ c₂ m₁ m₂ _ hm ih =>
    obtain ⟨hvisit₁, k₁, c₁', h₁, hquiet₁, hsettled₁⟩ := ih
    have hall : List.Forall₂ (Thinned off outer) (m₁.children c₁) ((m₁.moved off).children c₁') :=
      children_thins m₁ (hwalk.sound hvisit₁).formed hquiet₁ h₁
    obtain ⟨i, hi, heq⟩ := List.getElem_of_mem hm
    have hi' : i < ((m₁.moved off).children c₁').length := hall.length_eq ▸ hi
    have hthinned : Thinned off outer (m₁.children c₁)[i] ((m₁.moved off).children c₁')[i] :=
      hall.get hi hi'
    rw [heq] at hthinned
    obtain ⟨hmoved, k₂, h₂, hquiet₂⟩ := hthinned
    refine ⟨hwalk.child hvisit₁ hm, k₂, _, h₂, hquiet₂, ?_⟩
    rw [← hmoved]
    exact hsettled₁.child (List.getElem_mem hi')

end Phrase

end Lox
