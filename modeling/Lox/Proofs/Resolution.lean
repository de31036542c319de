import Lox.Proofs.Walk

/-!
# What is recorded about a reference

A program without misuses is `Sound`: each reference is recorded once, with the distance that the scopes
have at the point where it is bound. `Placed` says what these scopes look like there: every declaration
is complete, up to the innermost scope of an expression, and the scopes with `this` and `super` stand
where the class around the point says.

`Visits.meets` puts this together: what is recorded about a reference leads to a scope that declares its
name.
-/

namespace Lox

/-- A reference may be used in this way where a point of the walk is. -/
def Usage.Allowed (b : Binder) : Usage → Reference → Prop
  | .variable, ref => b.scopes.head?.bind (·.get? ref.name) ≠ some false
  | .assign, _ => True
  | .this, _ => b.inClass ≠ .outside
  | .super, _ => b.inClass = .derived

theorem Usage.Allowed.of_alike {b b' : Binder} {u : Usage} {ref : Reference} (h : b.Alike b')
    (hallowed : u.Allowed b' ref) : u.Allowed b ref := by
  unfold Usage.Allowed at *
  rwa [h.scopes, h.inClass] at hallowed

/-- A reference that was not recorded before is recorded with its distance. -/
theorem Binder.lookup_bind {b : Binder} {ref : Reference} (h : b.bindings.lookup ref.site = none) :
    (b.bind ref).bindings.lookup ref.site = b.distance? ref.name := by
  unfold bind
  split
  · next d hd => rw [List.lookup_cons_self, hd]
  · next hd => rw [hd, h]

namespace Phrase

/-- A phrase is formed if its statements are. -/
def Formed : Phrase → Prop
  | .expr _ | .exprs _ => True
  | .stmt s => s.Formed
  | .stmts ss => Stmt.FormedAll ss
  | .routine _ r => r.Formed
  | .methods rs => Routine.FormedAll rs

theorem Formed.child {n m : Phrase} {b c : Binder} (h : n.Formed) (hm : (c, m) ∈ n.children b) :
    m.Formed := by
  fun_cases children n b <;> simp only [children, List.mem_cons, List.not_mem_nil, or_false] at hm <;>
    grind [Formed, Stmt.Formed, Stmt.FormedAll, Routine.Formed, Routine.FormedAll]

/-- Binding a phrase leaves the sites of a part alone before and after it binds the part, and adds no misuses
that were not there when the part was bound. -/
theorem bind_child {n m : Phrase} {b c : Binder} (hnodup : n.sites.Nodup) (hm : (c, m) ∈ n.children b) :
    m.sites.Nodup ∧ (∀ site ∈ m.sites, c.bindings.lookup site = b.bindings.lookup site) ∧
      (∀ site ∈ m.sites, (n.bind b).bindings.lookup site = (m.bind c).bindings.lookup site) ∧
      (m.bind c).errors <:+ (n.bind b).errors := by
  obtain ⟨pre, post, hsplit⟩ := List.append_of_mem hm
  have hthreads := n.threads b
  have hnodup := (n.sites_perm b).nodup_iff.1 hnodup
  rw [hsplit] at hthreads hnodup
  rw [List.flatMap_append, List.flatMap_cons] at hnodup
  have hpre : b.Adds (pre.flatMap (·.2.sites)) c :=
    hthreads.before fun p hp => (p.2.adds p.1).mono fun _ hs => List.mem_flatMap.2 ⟨p, hp, hs⟩
  have hpost : (m.bind c).Adds (n.own.map (·.2.site) ++ post.flatMap (·.2.sites)) (n.bind b) := by
    refine hthreads.behind.adds (fun p hp => (p.2.adds p.1).mono fun _ hs => ?_) (List.subset_append_left _ _)
    exact List.mem_append_right _ (List.mem_flatMap.2 ⟨p, hp, hs⟩)
  refine ⟨?_, fun site hs => hpre.lookup ?_, fun site hs => hpost.lookup ?_, hpost.errors⟩ <;> grind

/-- The references of a phrase are recorded once each, as they are found when the phrase is bound at a
point. -/
structure Settled (recorded : Site → Option Nat) (b : Binder) (n : Phrase) : Prop where
  nodup : n.sites.Nodup
  fresh : ∀ site ∈ n.sites, b.bindings.lookup site = none
  settled : ∀ site ∈ n.sites, recorded site = (n.bind b).bindings.lookup site

namespace Settled

variable {recorded : Site → Option Nat} {b c : Binder} {n m : Phrase}

theorem child (h : Settled recorded b n) (hm : (c, m) ∈ n.children b) : Settled recorded c m := by
  obtain ⟨hnodup, hbefore, hafter, -⟩ := bind_child h.nodup hm
  have hsites := child_sites_subset hm
  refine ⟨hnodup, fun site hs => ?_, fun site hs => ?_⟩
  · rw [hbefore site hs, h.fresh site (hsites hs)]
  · rw [h.settled site (hsites hs), hafter site hs]

/-- The reference of a phrase itself is recorded with the distance that it has at the phrase, where it may be
used. -/
theorem own_recorded (h : Settled recorded b n) {p : Usage × Reference} (hp : p ∈ n.own)
    (hthis : p.1 = .this → b.inClass ≠ .outside) : recorded p.2.site = b.distance? p.2.name := by
  have hsite : p.2.site ∈ n.sites := n.own_sites_subset (List.mem_map_of_mem hp)
  have hfresh := h.fresh _ hsite
  rw [h.settled _ hsite]
  unfold own at hp
  split at hp
  · next ref =>
    obtain rfl := List.mem_singleton.1 hp
    have hchecked : b.Adds [] (b.checkDefined ref) := b.checkDefined_adds ref
    rw [← (b.checkDefined_alike ref).distance? ref.name]
    exact Binder.lookup_bind ((hchecked.lookup List.not_mem_nil).trans hfresh)
  · next ref value =>
    obtain rfl := List.mem_singleton.1 hp
    have hapart : ref.site ∉ (Phrase.expr value).sites := (List.nodup_cons.1 h.nodup).1
    rw [← (value.bind_alike b).distance? ref.name]
    exact Binder.lookup_bind ((((Phrase.expr value).adds b).lookup hapart).trans hfresh)
  · next ref =>
    obtain rfl := List.mem_singleton.1 hp
    rw [bind, Expr.bind, if_neg (hthis rfl)]
    exact Binder.lookup_bind hfresh
  · next ref method =>
    obtain rfl := List.mem_singleton.1 hp
    have hchecked : b.Adds [] (b.checkSuper ref) := b.checkSuper_adds ref
    rw [← (b.checkSuper_alike ref).distance? ref.name]
    exact Binder.lookup_bind ((hchecked.lookup List.not_mem_nil).trans hfresh)
  · exact absurd hp List.not_mem_nil

end Settled

/-- The references of a phrase are recorded once each, as they are found when the phrase is bound at a
point, and the phrase has no misuses there. -/
structure Sound (recorded : Site → Option Nat) (b : Binder) (n : Phrase) : Prop where
  nodup : n.sites.Nodup
  names : ∀ p ∈ n.references, p.1.Names p.2
  formed : n.Formed
  fresh : ∀ site ∈ n.sites, b.bindings.lookup site = none
  settled : ∀ site ∈ n.sites, recorded site = (n.bind b).bindings.lookup site
  accepted : (n.bind b).errors = []

namespace Sound

variable {recorded : Site → Option Nat} {b c : Binder} {n m : Phrase}

theorem toSettled (h : Sound recorded b n) : Settled recorded b n := ⟨h.nodup, h.fresh, h.settled⟩

theorem child (h : Sound recorded b n) (hm : (c, m) ∈ n.children b) : Sound recorded c m := by
  obtain ⟨hnodup, hfresh, hsettled⟩ := h.toSettled.child hm
  obtain ⟨-, -, -, herrors⟩ := bind_child h.nodup hm
  refine ⟨hnodup, fun p hp => ?_, h.formed.child hm, hfresh, hsettled, ?_⟩
  · exact h.names p ((n.references_perm b).mem_iff.2
      (List.mem_append_right _ (List.mem_flatMap.2 ⟨(c, m), hm, hp⟩)))
  · exact List.suffix_nil.1 (h.accepted ▸ herrors)

theorem errors_eq_nil (h : Sound recorded b n) : b.errors = [] :=
  List.suffix_nil.1 (h.accepted ▸ (n.adds b).errors)

variable {e : Expr} {ref : Reference}

/-- A variable that is read is recorded with its distance, and its declaration is complete. -/
theorem of_variable (h : Sound recorded b (.expr (.variable ref))) :
    recorded ref.site = b.distance? ref.name ∧ Usage.Allowed b .variable ref := by
  refine ⟨h.toSettled.own_recorded (.head _) nofun, fun hmark => ?_⟩
  have herrors : (b.checkDefined ref).errors = [] :=
    List.suffix_nil.1 (h.accepted ▸ (Binder.bind_adds _ ref).errors)
  rw [Binder.checkDefined_pos hmark] at herrors
  exact List.cons_ne_nil _ _ herrors

theorem of_assign (h : Sound recorded b (.expr (.assign ref e))) : recorded ref.site = b.distance? ref.name :=
  h.toSettled.own_recorded (p := (.assign, ref)) (.head _) nofun

theorem of_this (h : Sound recorded b (.expr (.this ref))) :
    recorded ref.site = b.distance? ref.name ∧ Usage.Allowed b .this ref := by
  have haccepted := h.accepted
  rw [bind, Expr.bind] at haccepted
  split at haccepted
  · exact absurd haccepted (List.cons_ne_nil _ _)
  · next hclass => exact ⟨h.toSettled.own_recorded (p := (.this, ref)) (.head _) fun _ => hclass, hclass⟩

/-- What is recorded about `super` is its distance, and it is used where it may be. -/
theorem of_super {method : Token} (h : Sound recorded b (.expr (.super ref method))) :
    recorded ref.site = b.distance? ref.name ∧ Usage.Allowed b .super ref := by
  refine ⟨h.toSettled.own_recorded (p := (.super, ref)) (.head _) nofun, ?_⟩
  have herrors : (b.checkSuper ref).errors = [] :=
    List.suffix_nil.1 (h.accepted ▸ (Binder.bind_adds _ ref).errors)
  unfold Binder.checkSuper at herrors
  split at herrors
  · exact absurd herrors (List.cons_ne_nil _ _)
  · exact absurd herrors (List.cons_ne_nil _ _)
  · assumption

/-- A class does not name itself as its superclass. -/
theorem of_superclass {name : Token} {methods : List Routine}
    (h : Sound recorded b (.stmt (.classOf name (some ref) methods))) : ref.name ≠ name.lexeme := by
  have hsuper := h.child (.head _)
  intro hname
  have herrors : (b.derive name ref).errors = [] := hsuper.errors_eq_nil
  rw [Binder.derive, Binder.checkSuperclass, if_pos hname] at herrors
  exact List.cons_ne_nil _ _ herrors

/-- A `return` stands inside a routine. -/
theorem of_returns {keyword : Token} {value : Option Expr}
    (h : Sound recorded b (.stmt (.returns keyword value))) : b.inRoutine ≠ .outside := by
  have herrors : (b.checkReturn keyword value.isSome).errors = [] := by
    cases value with
    | none => exact h.accepted
    | some e => exact (h.child (.head _)).errors_eq_nil
  intro hcontext
  rw [Binder.checkReturn, hcontext] at herrors
  exact List.cons_ne_nil _ _ herrors

/-- The reference of a phrase itself is recorded as it is found at the phrase. -/
theorem own_resolved (h : Sound recorded b n) : ∀ p ∈ n.own,
    recorded p.2.site = b.distance? p.2.name ∧ p.1.Allowed b p.2 := by
  intro p hp
  unfold own at hp
  split at hp
  · obtain rfl := List.mem_singleton.1 hp
    exact h.of_variable
  · obtain rfl := List.mem_singleton.1 hp
    exact ⟨h.of_assign, trivial⟩
  · obtain rfl := List.mem_singleton.1 hp
    exact h.of_this
  · obtain rfl := List.mem_singleton.1 hp
    exact h.of_super
  · exact absurd hp List.not_mem_nil

end Sound

/-- A phrase that consists of expressions. -/
def IsExpr : Phrase → Prop
  | .expr _ | .exprs _ => True
  | _ => False

/-- The parts of an expression are expressions, bound in the same scopes. -/
theorem IsExpr.child {n m : Phrase} {b c : Binder} (h : n.IsExpr) (hm : (c, m) ∈ n.children b) :
    m.IsExpr ∧ b.Alike c := by
  cases n with
  | expr e =>
    cases e with
    | literal | «variable» | this | super => exact absurd hm List.not_mem_nil
    | grouping | assign | unary | get =>
      obtain _ | ⟨_, ⟨⟩⟩ := hm
      exact ⟨trivial, .refl _⟩
    | binary | logical | set | call =>
      obtain _ | ⟨_, _ | ⟨_, ⟨⟩⟩⟩ := hm
      · exact ⟨trivial, .refl _⟩
      · exact ⟨trivial, Expr.bind_alike _ b⟩
    | conditional _ condition _ middle =>
      obtain _ | ⟨_, _ | ⟨_, _ | ⟨_, ⟨⟩⟩⟩⟩ := hm
      · exact ⟨trivial, .refl _⟩
      · exact ⟨trivial, Expr.bind_alike _ b⟩
      · exact ⟨trivial, (Expr.bind_alike _ b).trans (Expr.bind_alike _ _)⟩
  | exprs es =>
    cases es with
    | nil => exact absurd hm List.not_mem_nil
    | cons e rest =>
      obtain _ | ⟨_, _ | ⟨_, ⟨⟩⟩⟩ := hm
      · exact ⟨trivial, .refl _⟩
      · exact ⟨trivial, Expr.bind_alike _ b⟩
  | stmt | stmts | routine | methods => exact h.elim

/-- Every reference in an expression is recorded as it is found at the expression, since the scopes
are the same throughout. -/
theorem Sound.resolved {recorded : Site → Option Nat} (n : Phrase) : ∀ b, n.IsExpr →
    Sound recorded b n → ∀ p ∈ n.references,
      recorded p.2.site = b.distance? p.2.name ∧ p.1.Allowed b p.2 := by
  induction n using Phrase.induction with
  | step n ih =>
    intro b hn h p hp
    rcases List.mem_append.1 ((n.references_perm b).mem_iff.1 hp) with hp | hp
    · exact h.own_resolved p hp
    · obtain ⟨⟨c, m⟩, hm, hp⟩ := List.mem_flatMap.1 hp
      obtain ⟨hexpr, halike⟩ := hn.child hm
      obtain ⟨hrecorded, hallowed⟩ := ih b c m hm c hexpr (h.child hm) p hp
      rw [halike.distance?] at hrecorded
      exact ⟨hrecorded, hallowed.of_alike halike⟩

end Phrase

theorem Table.has_insert {α : Type} (t : Table α) (name other : Text) (value : α) :
    (t.insert name value).has other = (decide (other = name) || t.has other) := by
  unfold Table.has
  rw [Table.get?_insert]
  by_cases h : other = name <;> simp [h]

theorem Table.has_empty {α : Type} (name : Text) : (Table.empty : Table α).has name = false := rfl

/-- Every declaration in the scopes is complete. -/
def Complete (scopes : List (Table Bool)) : Prop := ∀ t ∈ scopes, ∀ name, t.get? name ≠ some false

/-- The scopes that a class around a point has opened: one with `this`, and for a class with a
superclass, right outside of it, one with `super`. -/
def ClassContext.Opened (scopes : List (Table Bool)) : ClassContext → Prop
  | .outside => True
  | .plain => ∃ d, scopes.findIdx? (·.has thisName) = some d
  | .derived => ∃ d t, scopes.findIdx? (·.has superName) = some (d + 1) ∧ scopes[d]? = some t ∧
      t.has thisName

section Scopes

variable {scopes : List (Table Bool)} {name : Text}

theorem findIdx?_markInner {other : Text} (h : other ≠ name) (complete : Bool) :
    (markInner name complete scopes).findIdx? (·.has other) = scopes.findIdx? (·.has other) := by
  cases scopes with
  | nil => rfl
  | cons t outer => simp [markInner, List.findIdx?_cons, Table.has_insert, h]

/-- A complete declaration leaves all complete. -/
theorem Complete.declare (h : Complete scopes) : Complete (markInner name true scopes) := by
  cases scopes with
  | nil => exact h
  | cons t outer =>
    obtain ⟨ht, houter⟩ := List.forall_mem_cons.1 h
    refine List.forall_mem_cons.2 ⟨fun other => ?_, houter⟩
    rw [Table.get?_insert]
    split
    · simp
    · exact ht other

theorem Complete.enter (h : Complete scopes) : Complete (.empty :: scopes) :=
  List.forall_mem_cons.2 ⟨fun _ => by simp, h⟩

theorem Complete.enterName (h : Complete scopes) (name : Text) :
    Complete (.ofList [(name, true)] :: scopes) := by
  refine List.forall_mem_cons.2 ⟨fun other => ?_, h⟩
  change ((Table.empty : Table Bool).insert name true).get? other ≠ _
  rw [Table.get?_insert]
  split <;> simp

namespace ClassContext.Opened

variable {context : ClassContext}

/-- A plain name leaves the scopes of the class open. -/
theorem mark (h : context.Opened scopes) (hname : Plain name) (complete : Bool) :
    context.Opened (markInner name complete scopes) := by
  cases context with
  | outside => trivial
  | plain =>
    obtain ⟨d, hd⟩ := h
    exact ⟨d, (findIdx?_markInner hname.1.symm complete).trans hd⟩
  | derived =>
    obtain ⟨d, t, hd, ht, hthis⟩ := h
    cases scopes with
    | nil => exact ⟨d, t, hd, ht, hthis⟩
    | cons u outer =>
      have hsuper := (findIdx?_markInner hname.2.symm complete).trans hd
      cases d with
      | zero =>
        obtain rfl := Option.some.inj ht
        exact ⟨0, _, hsuper, rfl, by rw [Table.has_insert, hthis, Bool.or_true]⟩
      | succ d => exact ⟨d + 1, t, hsuper, ht, hthis⟩

/-- A scope without names leaves the scopes of the class open. -/
theorem enter (h : context.Opened scopes) : context.Opened (.empty :: scopes) := by
  cases context with
  | outside => trivial
  | plain =>
    obtain ⟨d, hd⟩ := h
    exact ⟨d + 1, by simp [List.findIdx?_cons, Table.has_empty, hd]⟩
  | derived =>
    obtain ⟨d, t, hd, ht, hthis⟩ := h
    exact ⟨d + 1, t, by simp [List.findIdx?_cons, Table.has_empty, hd], ht, hthis⟩

/-- Inside every class some scope holds `this`. -/
theorem exists_this (h : context.Opened scopes) (hcontext : context ≠ .outside) :
    ∃ d, scopes.findIdx? (·.has thisName) = some d := by
  cases context with
  | outside => exact absurd rfl hcontext
  | plain => exact h
  | derived =>
    obtain ⟨d, t, -, ht, hthis⟩ := h
    rw [← Option.isSome_iff_exists, List.findIdx?_isSome, List.any_eq_true]
    exact ⟨t, List.mem_of_getElem? ht, hthis⟩

end ClassContext.Opened

end Scopes

theorem Routine.Formed.plain_name {r : Routine} (h : r.Formed) : Plain r.name.lexeme := by
  obtain ⟨name, params, body⟩ := r
  exact h.1

theorem Routine.Formed.plain_params {r : Routine} (h : r.Formed) : ∀ p ∈ r.params, Plain p.lexeme := by
  obtain ⟨name, params, body⟩ := r
  exact h.2.1

/-- What a formed statement declares has a plain name. -/
theorem Stmt.Formed.plain_declared {s : Stmt} {name : Token} (h : s.Formed)
    (hname : s.declared? = some name) : Plain name.lexeme := by
  cases s with
  | «variable» =>
    obtain rfl := Option.some.inj hname
    exact h
  | classOf =>
    obtain rfl := Option.some.inj hname
    exact h.1
  | routine r =>
    obtain rfl := Option.some.inj hname
    exact Routine.Formed.plain_name h
  | _ => cases hname

/-- A property of binders that depends on the scopes and the class, and that no plain name disturbs. -/
structure Binder.Steady (P : Binder → Prop) : Prop where
  alike {b c : Binder} (h : P b) (halike : b.Alike c) : P c
  mark {b c : Binder} {name : Text} (h : P b) (hname : Plain name)
    (hscopes : c.scopes = markInner name true b.scopes) (hclass : c.inClass = b.inClass) : P c

namespace Binder.Steady

variable {P : Binder → Prop} {b : Binder} (hP : Steady P) (h : P b)

include hP h

theorem declared {name : Token} (hname : Plain name.lexeme) : P ((b.declare name).define name) :=
  hP.mark h hname (b.declared_scopes name) ((b.declare_within name).trans (define_within _ name)).inClass

theorem params {params : List Token} (hparams : ∀ p ∈ params, Plain p.lexeme) :
    P (params.foldl (fun b p => (b.declare p).define p) b) := by
  induction params generalizing b with
  | nil => exact h
  | cons p params ih =>
    obtain ⟨hp, hparams⟩ := List.forall_mem_cons.1 hparams
    exact ih (hP.declared h hp) hparams

/-- After a statement there is at most one more name, a plain one. -/
theorem stmt {s : Stmt} (hs : s.Formed) : P (s.bind b) := by
  have hfollows := s.bind_follows b hs
  cases hdeclared : s.declared? with
  | none => exact hP.alike h (hfollows.alike hdeclared)
  | some name =>
    have hscopes := hfollows.scopes
    rw [Stmt.scopesAfter, hdeclared] at hscopes
    exact hP.mark h (hs.plain_declared hdeclared) hscopes hfollows.inClass

end Binder.Steady

/-- Everything is declared completely, and the scopes of the class are open. -/
theorem Binder.steady_opened : Steady fun b => Complete b.scopes ∧ b.inClass.Opened b.scopes where
  alike h halike := by rwa [halike.scopes, halike.inClass]
  mark h hname hscopes hclass := by
    rw [hscopes, hclass]
    exact ⟨h.1.declare, h.2.mark hname true⟩

/-- What the scopes look like at the point where a phrase is bound. Only the variable that names a
superclass is bound before the scopes of its class are open. -/
structure Phrase.Placed (b : Binder) (n : Phrase) : Prop where
  outer : Complete b.scopes.tail
  inner : ¬ n.IsExpr → Complete b.scopes
  opened : (∀ ref, n ≠ .expr (.variable ref)) → b.inClass.Opened b.scopes

namespace Phrase.Placed

variable {b c : Binder} {n m : Phrase}

theorem of_opened (hcomplete : Complete c.scopes) (hopened : c.inClass.Opened c.scopes) : Placed c m :=
  ⟨fun t ht => hcomplete t (List.mem_of_mem_tail ht), fun _ => hcomplete, fun _ => hopened⟩

theorem of_alike (hcomplete : Complete b.scopes) (hopened : b.inClass.Opened b.scopes)
    (h : b.Alike c) : Placed c m := by
  apply of_opened
  · rwa [h.scopes]
  · rwa [h.scopes, h.inClass]

/-- The parts of a statement are placed if the statement is. -/
theorem child_stmt {s : Stmt} (h : Placed b (.stmt s)) (hs : s.Formed)
    (hm : (c, m) ∈ (Phrase.stmt s).children b) : Placed c m := by
  have hcomplete := h.inner fun h => h
  have hopened := h.opened (fun _ h => by cases h)
  cases s with
  | expression | print =>
    obtain _ | ⟨_, ⟨⟩⟩ := hm
    exact of_opened hcomplete hopened
  | returns keyword value =>
    cases value with
    | none => exact absurd hm List.not_mem_nil
    | some e =>
      obtain _ | ⟨_, ⟨⟩⟩ := hm
      exact of_alike hcomplete hopened (b.checkReturn_alike keyword true)
  | branch condition yes no =>
    have hcondition := condition.bind_alike b
    cases no with
    | none =>
      obtain _ | ⟨_, _ | ⟨_, ⟨⟩⟩⟩ := hm
      · exact of_opened hcomplete hopened
      · exact of_alike hcomplete hopened hcondition
    | some no =>
      have hyes := (yes.bind_follows (condition.bind b) hs.1.2).alike hs.1.1
      obtain _ | ⟨_, _ | ⟨_, _ | ⟨_, ⟨⟩⟩⟩⟩ := hm
      · exact of_opened hcomplete hopened
      · exact of_alike hcomplete hopened hcondition
      · exact of_alike hcomplete hopened (hcondition.trans hyes)
  | loop condition body =>
    obtain _ | ⟨_, _ | ⟨_, ⟨⟩⟩⟩ := hm
    · exact of_opened hcomplete hopened
    · exact of_alike hcomplete hopened (condition.bind_alike b)
  | block body =>
    obtain _ | ⟨_, ⟨⟩⟩ := hm
    exact of_opened hcomplete.enter hopened.enter
  | «variable» name initializer =>
    cases initializer with
    | none => exact absurd hm List.not_mem_nil
    | some e =>
      obtain _ | ⟨_, ⟨⟩⟩ := hm
      have hwithin := b.declare_within name
      refine ⟨hwithin.outer ▸ h.outer, fun hexpr => absurd trivial hexpr, fun _ => ?_⟩
      rw [hwithin.inClass, Binder.declare_scopes]
      exact hopened.mark hs false
  | routine r =>
    obtain _ | ⟨_, ⟨⟩⟩ := hm
    have hdeclared := Binder.steady_opened.declared ⟨hcomplete, hopened⟩ (Routine.Formed.plain_name hs)
    exact of_opened hdeclared.1 hdeclared.2
  | classOf name superclass methods =>
    have hnamed : Complete (b.nameClass name).scopes :=
      b.nameClass_scopes name ▸ hcomplete.declare
    cases superclass with
    | none =>
      obtain _ | ⟨_, ⟨⟩⟩ := hm
      refine of_opened (hnamed.enterName thisName) ?_
      have hclass : (b.openClass name).inClass = .plain := b.nameClass_inClass name
      rw [hclass]
      exact ⟨0, by rfl⟩
    | some superclass =>
      obtain _ | ⟨_, _ | ⟨_, ⟨⟩⟩⟩ := hm
      · refine ⟨fun t ht => ?_, fun hexpr => absurd trivial hexpr, fun h => absurd rfl (h superclass)⟩
        rw [Binder.derive_scopes] at ht
        exact hnamed t (List.mem_of_mem_tail ht)
      · have hsuper := (b.derive name superclass).bindVariable_alike superclass
        have hderived : Complete ((b.derive name superclass).bindVariable superclass).scopes := by
          rw [hsuper.scopes, Binder.derive_scopes]
          exact hnamed
        refine of_opened ((hderived.enterName superName).enterName thisName) ?_
        have hclass : (b.openDerived name superclass).inClass = .derived := hsuper.inClass
        rw [hclass]
        exact ⟨0, _, by rfl, rfl, by decide⟩

/-- After a statement the scopes are as before, with one more name at most. -/
theorem after {s : Stmt} (h : Placed b (.stmt s)) (hs : s.Formed) : Placed (s.bind b) m := by
  have hafter := Binder.steady_opened.stmt ⟨h.inner fun h => h, h.opened fun _ h => by cases h⟩ hs
  exact of_opened hafter.1 hafter.2

theorem enterRoutine {params : List Token} (hcomplete : Complete b.scopes)
    (hopened : b.inClass.Opened b.scopes) (hparams : ∀ p ∈ params, Plain p.lexeme) :
    Placed (b.enterRoutine params) m := by
  have henter := Binder.steady_opened.params (b := b.enter .empty) ⟨hcomplete.enter, hopened.enter⟩ hparams
  exact of_opened henter.1 henter.2

theorem child_expr (h : Placed b n) (hn : n.IsExpr) (hm : (c, m) ∈ n.children b) : Placed c m := by
  obtain ⟨hexpr, halike⟩ := hn.child hm
  refine ⟨halike.scopes ▸ h.outer, fun h => absurd hexpr h, fun _ => ?_⟩
  rw [halike.scopes, halike.inClass]
  apply h.opened
  rintro ref rfl
  exact absurd hm List.not_mem_nil

/-- The parts of a phrase are placed if the phrase is. -/
theorem child (h : Placed b n) (hn : n.Formed) (hm : (c, m) ∈ n.children b) : Placed c m := by
  cases n with
  | expr e | exprs es => exact h.child_expr trivial hm
  | stmt s => exact h.child_stmt hn hm
  | stmts ss =>
    cases ss with
    | nil => exact absurd hm List.not_mem_nil
    | cons s rest =>
      have hs : Placed b (.stmt s) := ⟨h.outer, fun _ => h.inner fun h => h,
        fun _ => h.opened (fun _ h => by cases h)⟩
      obtain _ | ⟨_, _ | ⟨_, ⟨⟩⟩⟩ := hm
      · exact hs
      · exact hs.after hn.1
  | routine context r =>
    obtain ⟨name, params, body⟩ := r
    obtain _ | ⟨_, ⟨⟩⟩ := hm
    exact enterRoutine (h.inner fun h => h) (h.opened (fun _ h => by cases h)) hn.2.1
  | methods rs =>
    have hcomplete := h.inner fun h => h
    have hopened := h.opened (fun _ h => by cases h)
    cases rs with
    | nil => exact absurd hm List.not_mem_nil
    | cons r rest =>
      obtain _ | ⟨_, _ | ⟨_, ⟨⟩⟩⟩ := hm
      · exact of_opened hcomplete hopened
      · exact of_alike hcomplete hopened (r.bind_alike _ b)

end Phrase.Placed

/-- What is recorded about a reference leads to a scope that declares its name. -/
def Usage.Meets (recorded : Site → Option Nat) (scopes : List (Table Bool)) :
    Usage → Reference → Prop
  | .variable, ref => ∀ d, recorded ref.site = some d →
      ∃ t, scopes[d]? = some t ∧ t.get? ref.name = some true
  | .assign, ref => Plain ref.name ∧ ∀ d, recorded ref.site = some d → d < scopes.length
  | .this, ref => ref.name = thisName ∧
      ∃ d t, recorded ref.site = some d ∧ scopes[d]? = some t ∧ t.has thisName
  | .super, ref => ∃ d t u, recorded ref.site = some (d + 1) ∧ scopes[d]? = some t ∧ t.has thisName ∧
      scopes[d + 1]? = some u ∧ u.has superName

/-- Marking another name does not change where a variable leads. -/
theorem Usage.Meets.of_markInner {recorded : Site → Option Nat} {scopes : List (Table Bool)}
    {name : Text} {complete : Bool} {ref : Reference} (hname : ref.name ≠ name)
    (h : Usage.variable.Meets recorded (markInner name complete scopes) ref) :
    Usage.variable.Meets recorded scopes ref := by
  intro d hd
  obtain ⟨t, ht, hmark⟩ := h d hd
  cases scopes with
  | nil => exact ⟨t, ht, hmark⟩
  | cons u outer =>
    cases d with
    | zero =>
      obtain rfl := Option.some.inj ht
      rw [Table.get?_insert, if_neg hname] at hmark
      exact ⟨u, rfl, hmark⟩
    | succ d => exact ⟨t, ht, hmark⟩

theorem exists_of_findIdx? {scopes : List (Table Bool)} {name : Text} {d : Nat}
    (h : scopes.findIdx? (·.has name) = some d) : ∃ t, scopes[d]? = some t ∧ t.has name := by
  obtain ⟨hd, hname, -⟩ := List.findIdx?_eq_some_iff_getElem.1 h
  exact ⟨scopes[d], List.getElem?_eq_getElem hd, hname⟩

/-- In the scope that a variable leads to, its declaration is complete. -/
theorem Phrase.Placed.get?_eq_true {b : Binder} {n : Phrase} {ref : Reference} {d : Nat} {t : Table Bool}
    (h : n.Placed b) (hallowed : Usage.Allowed b .variable ref) (ht : b.scopes[d]? = some t)
    (hname : t.has ref.name) : t.get? ref.name = some true := by
  obtain ⟨mark, hmark⟩ := Option.isSome_iff_exists.1 hname
  have hcomplete : t.get? ref.name ≠ some false := by
    cases d with
    | zero =>
      rw [Usage.Allowed, List.head?_eq_getElem?, ht] at hallowed
      exact hallowed
    | succ d =>
      have htail : b.scopes.tail[d]? = some t := by rw [List.getElem?_tail, ht]
      exact h.outer t (List.mem_of_getElem? htail) ref.name
  rw [hmark] at hcomplete ⊢
  cases mark with
  | false => exact absurd rfl hcomplete
  | true => rfl

namespace Visits

variable {program : Program} {recorded : Site → Option Nat} {b : Binder} {n : Phrase}

theorem sound (h : Visits program b n) (hprogram : Phrase.Sound recorded .start (.stmts program)) :
    Phrase.Sound recorded b n := by
  induction h with
  | start => exact hprogram
  | child _ hm ih => exact ih.child hm

theorem placed (h : Visits program b n) (hprogram : Phrase.Sound recorded .start (.stmts program)) :
    n.Placed b := by
  induction h with
  | start => exact ⟨by simp [Complete, Binder.start], by simp [Complete, Binder.start], fun _ => trivial⟩
  | child h hm ih => exact ih.child (h.sound hprogram).formed hm

/-- What is recorded about the references of an expression leads to scopes that declare their
names. -/
theorem meets {e : Expr} (h : Visits program b (.expr e))
    (hprogram : Phrase.Sound recorded .start (.stmts program)) :
    ∀ p ∈ e.references, p.1.Meets recorded b.scopes p.2 := by
  rintro ⟨u, ref⟩ hp
  have hsound := h.sound hprogram
  have hplaced := h.placed hprogram
  obtain ⟨hrecorded, hallowed⟩ := Phrase.Sound.resolved (.expr e) b trivial hsound _ hp
  have hname := hsound.names _ hp
  dsimp only at hrecorded hallowed hname
  have hopened : u ≠ .variable → b.inClass.Opened b.scopes := by
    intro hu
    apply hplaced.opened
    rintro ref' ⟨⟩
    cases List.mem_singleton.1 hp
    exact hu rfl
  cases u with
  | «variable» =>
    intro d hd
    obtain ⟨t, ht, hhas⟩ := exists_of_findIdx? (hrecorded.symm.trans hd)
    exact ⟨t, ht, hplaced.get?_eq_true hallowed ht hhas⟩
  | assign =>
    refine ⟨hname, fun d hd => ?_⟩
    obtain ⟨t, ht, -⟩ := exists_of_findIdx? (hrecorded.symm.trans hd)
    exact (List.getElem?_eq_some_iff.1 ht).1
  | this =>
    have hopened := hopened nofun
    obtain ⟨d, hd⟩ := hopened.exists_this hallowed
    obtain ⟨t, ht, hthis⟩ := exists_of_findIdx? hd
    have hname : ref.name = thisName := hname
    refine ⟨hname, d, t, ?_, ht, hthis⟩
    rw [hrecorded, hname]
    exact hd
  | super =>
    have hopened := hopened nofun
    have hname : ref.name = superName := hname
    rw [show b.inClass = .derived from hallowed] at hopened
    obtain ⟨d, t, hd, ht, hthis⟩ := hopened
    obtain ⟨u, hu, hsuper⟩ := exists_of_findIdx? hd
    refine ⟨d, t, u, ?_, ht, hthis, hu, hsuper⟩
    rw [hrecorded, hname]
    exact hd

end Visits

end Lox
