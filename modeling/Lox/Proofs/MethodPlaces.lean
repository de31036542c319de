import Lox.Proofs.LayoutRun

/-!
# The methods around a place

Inside a class every `super` belongs to the method around it, however many functions are nested in between.
A place is the list of the scopes around it, the innermost first, where a scope with `this` is marked with the
method that it was made for (`ScopeKind`). The layout `methodLayout` says that an expression with `super` stands
inside a method that it belongs to, right outside of whose scope is one with `super` (`Inside`), and the
distance that is recorded about it leads there.
-/

namespace Lox

/-- The references in an expression that are to `super`. -/
def Expr.supers (e : Expr) : List Reference := (e.references.filter (·.1 = .super)).map (·.2)

mutual

/-- The references to `super` in a statement that belong to the class around it: those in a class inside of
it belong to that one. -/
def Stmt.supers : Stmt → List Reference
  | .expression e | .print e => e.supers
  | .returns _ none | .variable _ none | .classOf _ _ _ => []
  | .returns _ (some e) | .variable _ (some e) => e.supers
  | .branch condition yes none => condition.supers ++ yes.supers
  | .branch condition yes (some no) => condition.supers ++ yes.supers ++ no.supers
  | .loop condition body => condition.supers ++ body.supers
  | .block body => Stmt.supersOfAll body
  | .routine r => r.supers

/-- The references to `super` in a routine that belong to the class around it. -/
def Routine.supers : Routine → List Reference
  | .mk _ _ body => Stmt.supersOfAll body

/-- The references to `super` in statements that belong to the class around them. -/
def Stmt.supersOfAll : List Stmt → List Reference
  | [] => []
  | s :: rest => s.supers ++ Stmt.supersOfAll rest

end

theorem Expr.mem_supers {e : Expr} {ref : Reference} :
    ref ∈ e.supers ↔ (Usage.super, ref) ∈ e.references := by
  simp [Expr.supers]

theorem Expr.supers_operand {e e' : Expr} (he : e' ∈ e.operands) : e'.supers ⊆ e.supers := fun _ h =>
  Expr.mem_supers.2 (Expr.references_operand he (Expr.mem_supers.1 h))

/-- What a scope was made for: a block or a call, a method bound to its instance, or the methods of a class
with a superclass. -/
inductive ScopeKind where
  | plain
  | this (r : Routine)
  | super

/-- A scope that is open in the walk has `super` if it is made for that. -/
def ScopeKind.Fits (kind : ScopeKind) (t : Table Bool) : Prop := t.has superName = true ↔ kind = .super

/-- A place a number of scopes inside a method of a class with a superclass. -/
inductive Inside (r : Routine) : Nat → List ScopeKind → Prop where
  | method (i : List ScopeKind) : Inside r 0 (.this r :: .super :: i)
  | scope {d : Nat} {i : List ScopeKind} (h : Inside r d i) : Inside r (d + 1) (.plain :: i)

/-- A place fits a point of the walk, and the given references to `super` belong to the method around the
place if the class there has a superclass. -/
structure Stands (i : List ScopeKind) (b : Binder) (refs : List Reference) : Prop where
  scopes : List.Forall₂ ScopeKind.Fits i b.scopes
  inside : b.inClass = .derived → ∀ ref ∈ refs, ∃ r d, Inside r d i ∧ ref ∈ r.supers

section

variable {i : List ScopeKind} {name : Text} {scopes : List (Table Bool)}

/-- A plain name makes no scope one with `super`. -/
theorem forall₂_fits_mark (h : List.Forall₂ ScopeKind.Fits i scopes) (hname : Plain name) (complete : Bool) :
    List.Forall₂ ScopeKind.Fits i (markInner name complete scopes) := by
  cases h with
  | nil => exact .nil
  | cons hfits houter =>
    refine .cons ?_ houter
    unfold ScopeKind.Fits at *
    rw [Table.has_insert, decide_eq_false hname.2.symm, Bool.false_or]
    exact hfits

theorem ScopeKind.fits_empty {kind : ScopeKind} (h : kind ≠ .super) : kind.Fits .empty :=
  ⟨fun hhas => absurd hhas (by rw [Table.has_empty]; exact Bool.false_ne_true), fun heq => absurd heq h⟩

theorem ScopeKind.fits_this (r : Routine) : (ScopeKind.this r).Fits (.ofList [(thisName, true)]) :=
  ⟨fun h => absurd h (by decide), nofun⟩

theorem ScopeKind.fits_super : ScopeKind.super.Fits (.ofList [(superName, true)]) :=
  ⟨fun _ => rfl, fun _ => by decide⟩

/-- From a place inside a method the scope with `super` is one further out than that with `this`. -/
theorem Inside.findIdx? {r : Routine} {d : Nat} (h : Inside r d i)
    (hscopes : List.Forall₂ ScopeKind.Fits i scopes) : scopes.findIdx? (·.has superName) = some (d + 1) := by
  induction h generalizing scopes with
  | method i =>
    obtain _ | ⟨hthis, _ | ⟨hsuper, -⟩⟩ := hscopes
    rw [List.findIdx?_cons, if_neg (fun h => by cases hthis.1 h), List.findIdx?_cons, if_pos (hsuper.2 rfl)]
    rfl
  | scope _ ih =>
    obtain _ | ⟨hplain, houter⟩ := hscopes
    rw [List.findIdx?_cons, if_neg (fun h => by cases hplain.1 h), ih houter]
    rfl

end

namespace Stands

variable {i : List ScopeKind} {b c : Binder} {refs refs' : List Reference}

section

variable (h : Stands i b refs)

include h

theorem mono (hrefs : refs' ⊆ refs) : Stands i b refs' :=
  ⟨h.scopes, fun hclass ref href => h.inside hclass ref (hrefs href)⟩

theorem alike (halike : b.Alike c) : Stands i c refs :=
  ⟨halike.scopes ▸ h.scopes, halike.inClass ▸ h.inside⟩

theorem mark {name : Text} {complete : Bool} (hname : Plain name)
    (hscopes : c.scopes = markInner name complete b.scopes) (hclass : c.inClass = b.inClass) :
    Stands i c refs :=
  ⟨hscopes ▸ forall₂_fits_mark h.scopes hname complete, hclass ▸ h.inside⟩

theorem enter : Stands (.plain :: i) (b.enter .empty) refs := by
  refine ⟨.cons (ScopeKind.fits_empty nofun) h.scopes, fun hclass ref href => ?_⟩
  obtain ⟨r, d, hinside, hmem⟩ := h.inside hclass ref href
  exact ⟨r, d + 1, hinside.scope, hmem⟩

end

theorem steady : Binder.Steady (Stands i · refs) := ⟨alike, fun h => h.mark⟩

end Stands

/-- The layout of programs by the methods around their parts. -/
def methodLayout (walk : Walk) : Layout (List ScopeKind) where
  top := []
  opens i j := ∃ kind, j = kind :: i
  declares _ name := Plain name
  reserves i name := (name = thisName ∧ ∃ r, i.head? = some (.this r)) ∨
    (name = superName ∧ i.head? = some .super)
  expr i e := ∃ b, walk b (.expr e) ∧ Stands i b e.supers
  stmt i s := (∀ kind ∈ i.head?, kind = .plain) ∧ ∃ b, walk b (.stmt s) ∧ Stands i b s.supers
  routine i r := (∀ r', i.head? = some (.this r') → r' = r) ∧
    ∃ b context, walk b (.routine context r) ∧ Stands i b r.supers
  method i r := (∀ r', i.head? ≠ some (.this r')) ∧
    ∃ b context scopes, walk b (.routine context r) ∧ b.scopes = .ofList [(thisName, true)] :: scopes ∧
      List.Forall₂ ScopeKind.Fits i scopes ∧ (b.inClass = .derived → i.head? = some .super)

namespace MethodLayout

variable {walk : Walk} {recorded : Site → Option Nat} {i : List ScopeKind} {b : Binder}

/-- Statements that are bound one after another stand at one place. -/
theorem stmt_of_mem (hwalk : walk.Lawful recorded) (hplain : ∀ kind ∈ i.head?, kind = .plain)
    {ss : List Stmt} (hvisit : walk b (.stmts ss)) (hstands : Stands i b (Stmt.supersOfAll ss)) :
    ∀ s ∈ ss, (methodLayout walk).stmt i s := by
  induction ss generalizing b with
  | nil => simp
  | cons s rest ih =>
    have hs : walk b (.stmt s) := hwalk.child hvisit (.head _)
    have hafter := Stands.steady.stmt hstands (hwalk.sound hs).formed
    exact List.forall_mem_cons.2 ⟨⟨hplain, b, hs, hstands.mono (List.subset_append_left _ _)⟩,
      ih (hwalk.child hvisit (.tail _ (.head _))) (hafter.mono (List.subset_append_right _ _))⟩

/-- The methods of a class stand outside of the scope with `this`. -/
theorem method_of_mem (hwalk : walk.Lawful recorded) (hthis : ∀ r, i.head? ≠ some (.this r))
    {rs : List Routine} {scopes : List (Table Bool)} (hvisit : walk b (.methods rs))
    (hb : b.scopes = .ofList [(thisName, true)] :: scopes) (hscopes : List.Forall₂ ScopeKind.Fits i scopes)
    (hclass : b.inClass = .derived → i.head? = some .super) : ∀ r ∈ rs, (methodLayout walk).method i r := by
  induction rs generalizing b with
  | nil => simp
  | cons r rest ih =>
    have hr : walk b (.routine (methodContext r.name) r) := hwalk.child hvisit (.head _)
    have halike := r.bind_alike (methodContext r.name) b
    exact List.forall_mem_cons.2 ⟨⟨hthis, b, _, scopes, hr, hb, hscopes, hclass⟩,
      ih (hwalk.child hvisit (.tail _ (.head _))) (halike.scopes.trans hb)
        (fun h => hclass (halike.inClass ▸ h))⟩

theorem native_plain (n : Native) : Plain (text n.name) := by
  cases n <;> exact ⟨by decide, by decide⟩

/-- What is bound by a lawful walk is laid out by the methods around it. -/
theorem lawful (hwalk : walk.Lawful recorded) : (methodLayout walk).Lawful recorded where
  operands := by
    rintro i e ⟨b, hvisit, hstands⟩ e' he'
    obtain ⟨c, hc, halike⟩ := hwalk.of_operands hvisit e' he'
    exact ⟨c, hc, (hstands.alike halike).mono (Expr.supers_operand he')⟩
  assigned := by
    rintro i ref e d j ⟨b, hvisit, -⟩ - -
    exact (hwalk.meets hvisit _ (.head _)).1
  assignedTop := by
    rintro i ref e ⟨b, hvisit, -⟩ - -
    exact (hwalk.meets hvisit _ (.head _)).1
  expression := by
    rintro i e ⟨-, b, hvisit, hstands⟩
    exact ⟨b, hwalk.child hvisit (.head _), hstands⟩
  print := by
    rintro i e ⟨-, b, hvisit, hstands⟩
    exact ⟨b, hwalk.child hvisit (.head _), hstands⟩
  returns := by
    rintro i t e ⟨-, b, hvisit, hstands⟩
    exact ⟨_, hwalk.child hvisit (.head _), hstands.alike (b.checkReturn_alike t true)⟩
  branch := by
    rintro i test yes no ⟨hplain, b, hvisit, hstands⟩
    have hformed : (Stmt.branch test yes no).Formed := (hwalk.sound hvisit).formed
    cases no with
    | none =>
      exact ⟨⟨b, hwalk.child hvisit (.head _), hstands.mono (List.subset_append_left _ _)⟩,
        ⟨hplain, _, hwalk.child hvisit (.tail _ (.head _)),
          (hstands.alike (test.bind_alike b)).mono (List.subset_append_right _ _)⟩, nofun⟩
    | some no =>
      have hyes := hstands.mono (List.subset_append_left _ _)
      -- A branch declares nothing, so the second one stands where the first one does.
      have hno := Stands.steady.stmt (hstands.alike (test.bind_alike b)) hformed.1.2
      refine ⟨⟨b, hwalk.child hvisit (.head _), hyes.mono (List.subset_append_left _ _)⟩,
        ⟨hplain, _, hwalk.child hvisit (.tail _ (.head _)),
          (hyes.alike (test.bind_alike b)).mono (List.subset_append_right _ _)⟩, ?_⟩
      rintro s ⟨⟩
      exact ⟨hplain, _, hwalk.child hvisit (.tail _ (.tail _ (.head _))),
        hno.mono (List.subset_append_right _ _)⟩
  loop := by
    rintro i test body ⟨hplain, b, hvisit, hstands⟩
    exact ⟨⟨b, hwalk.child hvisit (.head _), hstands.mono (List.subset_append_left _ _)⟩,
      hplain, _, hwalk.child hvisit (.tail _ (.head _)),
      (hstands.alike (test.bind_alike b)).mono (List.subset_append_right _ _)⟩
  block := by
    rintro i body ⟨-, b, hvisit, hstands⟩
    refine ⟨.plain :: i, ⟨_, rfl⟩, stmt_of_mem hwalk ?_ (hwalk.child hvisit (.head _)) hstands.enter⟩
    rintro kind ⟨⟩
    rfl
  declaration := by
    rintro i t e ⟨-, b, hvisit, hstands⟩
    have hname : Plain t.lexeme := (hwalk.sound hvisit).formed
    refine ⟨hname, ?_⟩
    rintro e' he'
    obtain rfl : e = some e' := he'
    exact ⟨_, hwalk.child hvisit (.head _),
      hstands.mark hname (b.declare_scopes t) (b.declare_within t).inClass⟩
  function := by
    rintro i r ⟨hplain, b, hvisit, hstands⟩
    have hformed : r.Formed := (hwalk.sound hvisit).formed
    refine ⟨hformed.plain_name, fun r' hr' => absurd (hplain _ hr') nofun, _, _,
      hwalk.child hvisit (.head _), Stands.steady.declared hstands hformed.plain_name⟩
  plainClass := by
    rintro i t methods ⟨hplain, b, hvisit, hstands⟩
    have hformed : (Stmt.classOf t none methods).Formed := (hwalk.sound hvisit).formed
    have hnamed : (b.openClass t).scopes = .ofList [(thisName, true)] :: (b.nameClass t).scopes := rfl
    have hclass : (b.openClass t).inClass = .plain := b.nameClass_inClass t
    refine ⟨hformed.1, method_of_mem hwalk (fun r hr => absurd (hplain _ hr) nofun)
      (hwalk.child hvisit (.head _)) hnamed ?_ (fun h => by rw [hclass] at h; cases h)⟩
    rw [b.nameClass_scopes]
    exact forall₂_fits_mark hstands.scopes hformed.1 true
  subclass := by
    rintro i t ref methods ⟨-, b, hvisit, hstands⟩
    have hformed : (Stmt.classOf t (some ref) methods).Formed := (hwalk.sound hvisit).formed
    -- The superclass is evaluated where the class stands; the methods stand one scope further in.
    have hscopes := forall₂_fits_mark hstands.scopes hformed.1 true
    rw [← b.nameClass_scopes, ← b.derive_scopes t ref] at hscopes
    have hsuper := ((b.derive t ref).bindVariable_alike ref).scopes
    have hvariable : ∀ ref', ref' ∉ (Expr.variable ref).supers := fun ref' h => by
      simpa [Expr.references] using Expr.mem_supers.1 h
    refine ⟨hformed.1, ⟨_, hwalk.child hvisit (.head _), hscopes, fun _ ref' h => absurd h (hvariable ref')⟩,
      .super :: i, ⟨_, rfl⟩, .inr ⟨rfl, rfl⟩, ?_⟩
    refine method_of_mem hwalk (by simp) (hwalk.child hvisit (.tail _ (.head _))) rfl
      (.cons ScopeKind.fits_super ?_) (fun _ => rfl)
    rw [hsuper]
    exact hscopes
  call := by
    rintro i r ⟨-, b, context, hvisit, hstands⟩
    have hparams := (hwalk.sound hvisit).formed.plain_params
    refine ⟨.plain :: i, ⟨_, rfl⟩, hparams, stmt_of_mem hwalk ?_ (hwalk.body hvisit) ?_⟩
    · rintro kind ⟨⟩
      rfl
    · obtain ⟨name, params, body⟩ := r
      have hcontext : Stands i { b with inRoutine := context } _ := ⟨hstands.scopes, hstands.inside⟩
      exact Stands.steady.params hcontext.enter hparams
  bind := by
    rintro i r ⟨-, b, context, scopes, hvisit, hb, hscopes, hclass⟩
    refine ⟨.this r :: i, ⟨_, rfl⟩, .inl ⟨rfl, r, rfl⟩, fun r' hr' => ?_, b, context, hvisit, ?_, ?_⟩
    · cases hr'
      rfl
    · rw [hb]
      exact .cons (ScopeKind.fits_this r) hscopes
    · intro hderived ref href
      -- The scope right outside that of the instance is the one that holds the superclass.
      obtain ⟨i, rfl⟩ : ∃ outer, i = .super :: outer := by
        obtain ⟨outer, houter⟩ := List.head?_eq_some_iff.1 (hclass hderived)
        exact ⟨outer, houter⟩
      exact ⟨r, 0, .method i, href⟩

/-- An expression with `super` stands inside a method that it belongs to, and the distance that is recorded
about it leads to the scope right outside of that of the method. -/
theorem inside_of_super (hwalk : walk.Lawful recorded) {ref : Reference} {name : Token}
    (he : (methodLayout walk).expr i (.super ref name)) :
    ∃ r d, Inside r d i ∧ recorded ref.site = some (d + 1) ∧ ref ∈ r.supers := by
  obtain ⟨b, hvisit, hstands⟩ := he
  have hsound := hwalk.sound hvisit
  obtain ⟨hrecorded, hclass⟩ := hsound.of_super
  have hname : ref.name = superName := hsound.names (.super, ref) (.head _)
  obtain ⟨r, d, hinside, hmem⟩ := hstands.inside hclass ref (Expr.mem_supers.2 (.head _))
  refine ⟨r, d, hinside, ?_, hmem⟩
  rw [hrecorded, hname]
  exact hinside.findIdx? hstands.scopes

end MethodLayout

end Lox
