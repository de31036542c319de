import Lox.Proofs.ForestUpdates
import Lox.Proofs.Misuses
import Lox.Proofs.Relocation

/-!
# Looking names up without distances

A reference is bound to a number of scopes to go outwards. If no name is declared twice in a program, that is the
same as going outwards to the first scope that holds the name (`Session.run_lookup_by_name`).

A place is the list of the scopes around it, the innermost first, each with all names that are declared in it, also
by statements further on. The layout `nameLayout` says that a scope holds no other names, and that no name is in two
scopes around a place. So no scope nearer than the one that a distance leads to can hold the name.
-/

namespace Lox

/-! ## All declarations of a program -/

mutual

/-- The names that are declared in the scopes inside of a statement. -/
def Stmt.inner : Stmt → List Text
  | .expression _ | .print _ | .returns _ _ | .variable _ _ => []
  | .branch _ yes none => yes.inner
  | .branch _ yes (some no) => yes.inner ++ no.inner
  | .loop _ body => body.inner
  | .block body => body.flatMap Stmt.names ++ Stmt.innerAll body
  | .routine r => r.inner
  | .classOf _ _ methods => Routine.innerAll methods

/-- The names that are declared in the scope of a routine, its parameters among them, and in those inside of it. -/
def Routine.inner : Routine → List Text
  | .mk _ params body => (params.map (·.lexeme) ++ body.flatMap Stmt.names) ++ Stmt.innerAll body

def Stmt.innerAll : List Stmt → List Text
  | [] => []
  | s :: rest => s.inner ++ Stmt.innerAll rest

def Routine.innerAll : List Routine → List Text
  | [] => []
  | r :: rest => r.inner ++ Routine.innerAll rest

end

/-- The names that a program declares as variables, functions, classes and parameters, those at the top first. -/
def Program.declarations (program : Program) : List Text := program.flatMap Stmt.names ++ Stmt.innerAll program

/-- No two declarations of a program are of one name. -/
def Program.DeclaresOnce (program : Program) : Prop := (Program.declarations program).Nodup

/-- Declared names are plain. -/
theorem Stmt.plain_names : (s : Stmt) → s.Formed → ∀ name ∈ s.names, Plain name
  | .expression _, _ | .print _, _ | .returns _ _, _ | .block _, _ => nofun
  | .branch _ body none, h | .loop _ body, h => Stmt.plain_names body h.2
  | .branch _ yes (some no), h => List.forall_mem_append.2 ⟨Stmt.plain_names yes h.1.2, Stmt.plain_names no h.2.2⟩
  | .variable _ _, h => List.forall_mem_singleton.2 h
  | .routine _, h => List.forall_mem_singleton.2 h.plain_name
  | .classOf _ _ _, h => List.forall_mem_singleton.2 h.1

theorem Stmt.FormedAll.plain_names {ss : List Stmt} (h : Stmt.FormedAll ss) :
    ∀ name ∈ ss.flatMap Stmt.names, Plain name := by
  induction ss with
  | nil => exact nofun
  | cons s rest ih =>
    rw [List.flatMap_cons]
    exact List.forall_mem_append.2 ⟨s.plain_names h.1, ih h.2⟩

/-! ## Scopes with all their names -/

/-- An open scope of the walk has names of a scope, and `this` and `super` if that has them. -/
structure Fits (names : List Text) (t : Table Bool) : Prop where
  declared : ∀ name, t.has name = true → name ∈ names
  reserved : ∀ name, ¬ Plain name → name ∈ names → t.has name = true

namespace Fits

variable {names : List Text} {t : Table Bool}

theorem empty (h : ∀ name ∈ names, Plain name) : Fits names .empty :=
  ⟨fun _ hhas => absurd hhas Bool.false_ne_true, fun name hname hmem => absurd (h name hmem) hname⟩

/-- A scope that was made for one name has just that one. -/
theorem single (name : Text) : Fits [name] (.ofList [(name, true)]) := by
  have hhas (other : Text) : (Table.ofList [(name, true)]).has other = decide (other = name) := by
    change ((Table.empty : Table Bool).insert name true).has other = _
    rw [Table.has_insert, Table.has_empty, Bool.or_false]
  refine ⟨fun other h => ?_, fun other _ h => ?_⟩
  · rw [hhas, decide_eq_true_iff] at h
    exact List.mem_singleton.2 h
  · rw [hhas]
    exact decide_eq_true (List.mem_singleton.1 h)

theorem insert (h : Fits names t) {name : Text} (hname : name ∈ names) (complete : Bool) :
    Fits names (t.insert name complete) := by
  refine ⟨fun other hhas => ?_, fun other hother hmem => ?_⟩
  · rw [Table.has_insert, Bool.or_eq_true, decide_eq_true_iff] at hhas
    rcases hhas with rfl | hhas
    · exact hname
    · exact h.declared other hhas
  · rw [Table.has_insert, h.reserved other hother hmem, Bool.or_true]

end Fits

/-- A place fits a point of the walk over a program. If the program declares each name once, no plain name is in two
scopes around the place, and none of the names that are declared further inside is in any. -/
structure Lies (program : Program) (i : List (List Text)) (b : Binder) (inner : List Text) : Prop where
  scopes : List.Forall₂ Fits i b.scopes
  apart : Program.DeclaresOnce program → i.Pairwise fun names names' => ∀ name ∈ names, Plain name → name ∉ names'
  nodup : Program.DeclaresOnce program → inner.Nodup
  fresh : Program.DeclaresOnce program → ∀ name ∈ inner, Plain name → ∀ names ∈ i, name ∉ names

namespace Lies

variable {program : Program} {i : List (List Text)} {b c : Binder} {names inner inner' : List Text} {name : Text}

/-- A scope is opened for some of the names that are declared further inside. -/
theorem enter (h : Lies program i b (names ++ inner)) {t : Table Bool} (ht : Fits names t)
    (hscopes : c.scopes = t :: b.scopes) : Lies program (names :: i) c inner := by
  refine ⟨hscopes ▸ .cons ht h.scopes, fun honce => ?_, fun honce => ?_, fun honce name hname hplain => ?_⟩
  · refine List.pairwise_cons.2 ⟨fun names' hnames' name hname hplain => ?_, h.apart honce⟩
    exact h.fresh honce name (List.mem_append_left _ hname) hplain names' hnames'
  · exact (List.nodup_append.1 (h.nodup honce)).2.1
  · refine List.forall_mem_cons.2 ⟨fun hmem => ?_, ?_⟩
    · exact (List.nodup_append.1 (h.nodup honce)).2.2 name hmem name hname rfl
    · exact h.fresh honce name (List.mem_append_right _ hname) hplain

variable (h : Lies program i b inner)

include h

theorem mono (hinner : inner'.Sublist inner) : Lies program i b inner' :=
  ⟨h.scopes, h.apart, fun honce => (h.nodup honce).sublist hinner,
    fun honce name hname => h.fresh honce name (hinner.subset hname)⟩

theorem alike (hscopes : c.scopes = b.scopes) : Lies program i c inner :=
  ⟨hscopes ▸ h.scopes, h.apart, h.nodup, h.fresh⟩

/-- The place still fits after a declaration of one of its names. -/
theorem mark {complete : Bool} (hname : ∀ names ∈ i.head?, name ∈ names)
    (hscopes : c.scopes = markInner name complete b.scopes) : Lies program i c inner := by
  refine ⟨?_, h.apart, h.nodup, h.fresh⟩
  rw [hscopes]
  have hfits := h.scopes
  generalize b.scopes = scopes at hfits
  cases hfits with
  | nil => exact .nil
  | cons hhead houter => exact .cons (hhead.insert (hname _ rfl) complete) houter

theorem reserve (hname : ¬ Plain name)
    (hscopes : c.scopes = .ofList [(name, true)] :: b.scopes) : Lies program ([name] :: i) c inner := by
  have hne : ∀ other, Plain other → other ∉ [name] := fun other hplain hmem =>
    hname (List.mem_singleton.1 hmem ▸ hplain)
  refine ⟨hscopes ▸ .cons (.single name) h.scopes, fun honce => ?_, h.nodup, fun honce other hother hplain => ?_⟩
  · refine List.pairwise_cons.2 ⟨fun names' _ other hother hplain => ?_, h.apart honce⟩
    exact absurd hother (hne other hplain)
  · exact List.forall_mem_cons.2 ⟨hne other hplain, h.fresh honce other hother hplain⟩

end Lies

/-- The layout of programs by the names in the scopes around their parts. -/
def nameLayout (programs : List Program) : Layout (List (List Text)) where
  top := []
  opens i j := ∃ names, j = names :: i
  declares i name := Plain name ∧ ∀ names ∈ i.head?, name ∈ names
  reserves i name := ¬ Plain name ∧ ∀ names ∈ i.head?, name ∈ names
  expr i e := ∃ program ∈ programs, ∃ b, Visits program b (.expr e) ∧ Lies program i b []
  stmt i s := (∀ names ∈ i.head?, s.names ⊆ names) ∧
    ∃ program ∈ programs, ∃ b, Visits program b (.stmt s) ∧ Lies program i b s.inner
  routine i r := ∃ program ∈ programs, ∃ b context, Visits program b (.routine context r) ∧ Lies program i b r.inner
  method i r := ∃ program ∈ programs, ∃ b c context, Visits program b (.routine context r) ∧
    b.scopes = .ofList [(thisName, true)] :: c.scopes ∧ Lies program i c r.inner

namespace NameLayout

variable {programs : List Program} {recorded : Site → Option Nat} {program : Program} {i : List (List Text)}
  {b c : Binder}

theorem formed (hrecorded : Recorded recorded programs) (hprogram : program ∈ programs) {n : Phrase}
    (hvisits : Visits program b n) : n.Formed :=
  (hvisits.sound (hrecorded program hprogram)).formed

/-- What a statement declares is in the innermost scope, so the place still fits after it. -/
theorem after {inner : List Text} (h : Lies program i b inner) {s : Stmt} (hs : s.Formed)
    (hnames : ∀ names ∈ i.head?, s.names ⊆ names) : Lies program i (s.bind b) inner := by
  have hfollows := s.bind_follows b hs
  cases hdeclared : s.declared? with
  | none => exact h.alike (hfollows.alike hdeclared).scopes
  | some name =>
    have hscopes := hfollows.scopes
    rw [Stmt.scopesAfter, hdeclared] at hscopes
    refine h.mark (fun names hhead => hnames names hhead ?_) hscopes
    cases s <;> cases hdeclared <;> exact .head _

/-- Statements that are bound one after another stand at one place. -/
theorem stmt_of_mem (hrecorded : Recorded recorded programs) (hprogram : program ∈ programs) {ss : List Stmt}
    (hvisits : Visits program b (.stmts ss)) (h : Lies program i b (Stmt.innerAll ss))
    (hnames : ∀ names ∈ i.head?, ss.flatMap Stmt.names ⊆ names) : ∀ s ∈ ss, (nameLayout programs).stmt i s := by
  induction ss generalizing b with
  | nil => exact nofun
  | cons s rest ih =>
    have hs : Visits program b (.stmt s) := hvisits.child (.head _)
    have hown : ∀ names ∈ i.head?, s.names ⊆ names := fun names hhead =>
      List.Subset.trans (List.subset_append_left _ _) (hnames names hhead)
    have hrest := after (h.mono (List.sublist_append_right _ _)) (formed hrecorded hprogram hs) hown
    refine List.forall_mem_cons.2
      ⟨⟨hown, program, hprogram, b, hs, h.mono (List.sublist_append_left _ _)⟩, ?_⟩
    exact ih (hvisits.child (.tail _ (.head _))) hrest fun names hhead =>
      List.Subset.trans (List.subset_append_right _ _) (hnames names hhead)

/-- The methods of a class stand outside of the scope with `this`. -/
theorem method_of_mem (hprogram : program ∈ programs) {rs : List Routine}
    (hvisits : Visits program b (.methods rs)) (hscopes : b.scopes = .ofList [(thisName, true)] :: c.scopes)
    (h : Lies program i c (Routine.innerAll rs)) : ∀ r ∈ rs, (nameLayout programs).method i r := by
  induction rs generalizing b with
  | nil => exact nofun
  | cons r rest ih =>
    have hr : Visits program b (.routine (methodContext r.name) r) := hvisits.child (.head _)
    have halike := r.bind_alike (methodContext r.name) b
    refine List.forall_mem_cons.2
      ⟨⟨program, hprogram, b, c, _, hr, hscopes, h.mono (List.sublist_append_left _ _)⟩, ?_⟩
    exact ih (hvisits.child (.tail _ (.head _))) (halike.scopes.trans hscopes)
      (h.mono (List.sublist_append_right _ _))

/-- The scope of a routine is opened for its parameters and the names of its body. -/
theorem enterRoutine {params : List Token} {names inner : List Text} (h : Lies program i b (names ++ inner))
    (hplain : ∀ name ∈ names, Plain name) (hparams : ∀ p ∈ params, p.lexeme ∈ names) :
    Lies program (names :: i) (b.enterRoutine params) inner := by
  have henter : Lies program (names :: i) (b.enter .empty) inner := h.enter (.empty hplain) rfl
  unfold Binder.enterRoutine
  generalize b.enter .empty = b at henter
  induction params generalizing b with
  | nil => exact henter
  | cons p params ih =>
    obtain ⟨hp, hparams⟩ := List.forall_mem_cons.1 hparams
    refine ih hparams _ (henter.mark ?_ (b.declared_scopes p))
    rintro _ ⟨⟩
    exact hp

theorem out_eq {d : Nat} {j : List (List Text)} (h : (nameLayout programs).Out d i j) : j = i.drop d := by
  induction h with
  | here i => rfl
  | further hopens _ ih =>
    obtain ⟨names, rfl⟩ := hopens
    exact ih

end NameLayout

/-- Lists that are related element by element are so at every index. -/
theorem exists_getElem?_of_forall₂ {α β : Type} {R : α → β → Prop} {l : List α} {l' : List β}
    (h : List.Forall₂ R l l') {k : Nat} {x : α} (hx : l[k]? = some x) : ∃ y, l'[k]? = some y ∧ R x y := by
  induction h generalizing k with
  | nil => cases hx
  | cons hxy _ ih =>
    cases k with
    | zero =>
      cases hx
      exact ⟨_, rfl, hxy⟩
    | succ k => exact ih hx

namespace Lies

variable {program : Program} {i : List (List Text)} {b : Binder} {inner : List Text} {name : Text} {d : Nat}

/-- The scope that a distance leads to has the name. -/
theorem exists_mem (h : Lies program i b inner) (hd : b.distance? name = some d) :
    ∃ names, i[d]? = some names ∧ name ∈ names := by
  obtain ⟨t, ht, hhas⟩ := exists_of_findIdx? hd
  obtain ⟨names, hnames, hfits⟩ := exists_getElem?_of_forall₂ (R := fun t names => Fits names t) h.scopes.flip ht
  exact ⟨names, hnames, hfits.declared name hhas⟩

/-- The scopes that are nearer do not have it, if each name is declared once. -/
theorem not_mem (h : Lies program i b inner) (honce : Program.DeclaresOnce program) (hd : b.distance? name = some d)
    {k : Nat} (hk : k < d) {names : List Text} (hnames : i[k]? = some names) : name ∉ names := by
  intro hmem
  by_cases hplain : Plain name
  · obtain ⟨names', hnames', hmem'⟩ := h.exists_mem hd
    obtain ⟨hlt, hget⟩ := List.getElem?_eq_some_iff.1 hnames
    obtain ⟨hlt', hget'⟩ := List.getElem?_eq_some_iff.1 hnames'
    have hapart := List.pairwise_iff_getElem.1 (h.apart honce) k d hlt hlt' hk
    rw [hget, hget'] at hapart
    exact hapart name hmem hplain hmem'
  · -- The scopes with `this` and `super` are known to the walk.
    obtain ⟨t, ht, hfits⟩ := exists_getElem?_of_forall₂ h.scopes hnames
    obtain ⟨hlt, hget⟩ := List.getElem?_eq_some_iff.1 ht
    obtain ⟨hlt', hhas, hnone⟩ := List.findIdx?_eq_some_iff_getElem.1 hd
    refine hnone k hk ?_
    rw [hget]
    exact hfits.reserved name hplain hmem

end Lies

namespace NameLayout

variable {programs : List Program} {recorded : Site → Option Nat}

/-- What is bound by the walks over programs is laid out by the names in their scopes. -/
theorem lawful (hrecorded : Recorded recorded programs) : (nameLayout programs).Lawful recorded where
  operands := by
    rintro i e ⟨program, hprogram, b, hvisits, hlies⟩ e' he'
    have hlawful : Walk.Lawful (Visits program) recorded :=
      ⟨fun h hm => h.child hm, fun h => h.sound (hrecorded program hprogram),
        fun h => h.meets (hrecorded program hprogram)⟩
    obtain ⟨c, hc, halike⟩ := hlawful.of_operands hvisits e' he'
    exact ⟨program, hprogram, c, hc, hlies.alike halike.scopes⟩
  assigned := by
    rintro i ref e d j ⟨program, hprogram, b, hvisits, hlies⟩ hd hout
    have hsound := hvisits.sound (hrecorded program hprogram)
    refine ⟨(hvisits.meets (hrecorded program hprogram) _ (.head _)).1, ?_⟩
    obtain ⟨names, hnames, hmem⟩ := hlies.exists_mem (hsound.of_assign.symm.trans hd)
    rw [out_eq hout, List.head?_drop, hnames]
    rintro _ ⟨⟩
    exact hmem
  assignedTop := by
    rintro i ref e ⟨program, hprogram, b, hvisits, -⟩ - -
    exact ⟨(hvisits.meets (hrecorded program hprogram) _ (.head _)).1, nofun⟩
  expression := by
    rintro i e ⟨-, program, hprogram, b, hvisits, hlies⟩
    exact ⟨program, hprogram, b, hvisits.child (.head _), hlies⟩
  print := by
    rintro i e ⟨-, program, hprogram, b, hvisits, hlies⟩
    exact ⟨program, hprogram, b, hvisits.child (.head _), hlies⟩
  returns := by
    rintro i t e ⟨-, program, hprogram, b, hvisits, hlies⟩
    exact ⟨program, hprogram, _, hvisits.child (.head _), hlies.alike (b.checkReturn_alike t true).scopes⟩
  branch := by
    rintro i test yes no ⟨hnames, program, hprogram, b, hvisits, hlies⟩
    have hformed : (Stmt.branch test yes no).Formed := formed hrecorded hprogram hvisits
    have htest := (test.bind_alike b).scopes
    cases no with
    | none =>
      exact ⟨⟨program, hprogram, b, hvisits.child (.head _), hlies.mono (List.nil_sublist _)⟩,
        ⟨hnames, program, hprogram, _, hvisits.child (.tail _ (.head _)), hlies.alike htest⟩, nofun⟩
    | some no =>
      have hyes := hlies.mono (List.sublist_append_left yes.inner no.inner)
      have hno := hlies.mono (List.sublist_append_right yes.inner no.inner)
      have hboth : ∀ names ∈ i.head?, yes.names ⊆ names ∧ no.names ⊆ names := fun names hhead =>
        List.append_subset.1 (hnames names hhead)
      refine ⟨⟨program, hprogram, b, hvisits.child (.head _), hlies.mono (List.nil_sublist _)⟩,
        ⟨fun names hhead => (hboth names hhead).1, program, hprogram, _, hvisits.child (.tail _ (.head _)),
          hyes.alike htest⟩, ?_⟩
      rintro s ⟨⟩
      exact ⟨fun names hhead => (hboth names hhead).2, program, hprogram, _,
        hvisits.child (.tail _ (.tail _ (.head _))),
        after (hno.alike htest) hformed.1.2 fun names hhead => (hboth names hhead).1⟩
  loop := by
    rintro i test body ⟨hnames, program, hprogram, b, hvisits, hlies⟩
    exact ⟨⟨program, hprogram, b, hvisits.child (.head _), hlies.mono (List.nil_sublist _)⟩,
      hnames, program, hprogram, _, hvisits.child (.tail _ (.head _)), hlies.alike (test.bind_alike b).scopes⟩
  block := by
    rintro i body ⟨-, program, hprogram, b, hvisits, hlies⟩
    have hformed : Stmt.FormedAll body := formed hrecorded hprogram hvisits
    refine ⟨body.flatMap Stmt.names :: i, ⟨_, rfl⟩,
      stmt_of_mem hrecorded hprogram (hvisits.child (.head _)) (hlies.enter (.empty hformed.plain_names) rfl) ?_⟩
    rintro _ ⟨⟩
    exact List.Subset.refl _
  declaration := by
    rintro i t e ⟨hnames, program, hprogram, b, hvisits, hlies⟩
    have hmem : ∀ names ∈ i.head?, t.lexeme ∈ names := fun names hhead => hnames names hhead (.head _)
    refine ⟨⟨formed hrecorded hprogram hvisits, hmem⟩, fun e' he' => ?_⟩
    obtain rfl : e = some e' := he'
    exact ⟨program, hprogram, _, hvisits.child (.head _), hlies.mark hmem (b.declare_scopes t)⟩
  function := by
    rintro i r ⟨hnames, program, hprogram, b, hvisits, hlies⟩
    have hformed : r.Formed := formed hrecorded hprogram hvisits
    have hmem : ∀ names ∈ i.head?, r.name.lexeme ∈ names := fun names hhead => hnames names hhead (.head _)
    exact ⟨⟨hformed.plain_name, hmem⟩, program, hprogram, _, _, hvisits.child (.head _),
      hlies.mark hmem (b.declared_scopes r.name)⟩
  plainClass := by
    rintro i t methods ⟨hnames, program, hprogram, b, hvisits, hlies⟩
    have hformed : (Stmt.classOf t none methods).Formed := formed hrecorded hprogram hvisits
    have hmem : ∀ names ∈ i.head?, t.lexeme ∈ names := fun names hhead => hnames names hhead (.head _)
    exact ⟨⟨hformed.1, hmem⟩, method_of_mem hprogram (c := b.nameClass t) (hvisits.child (.head _)) rfl
      (hlies.mark hmem (b.nameClass_scopes t))⟩
  subclass := by
    rintro i t ref methods ⟨hnames, program, hprogram, b, hvisits, hlies⟩
    have hformed : (Stmt.classOf t (some ref) methods).Formed := formed hrecorded hprogram hvisits
    have hmem : ∀ names ∈ i.head?, t.lexeme ∈ names := fun names hhead => hnames names hhead (.head _)
    have hscopes := (b.derive_scopes t ref).trans (b.nameClass_scopes t)
    have hderived := hlies.mark hmem hscopes
    have hsuper := ((b.derive t ref).bindVariable_alike ref).scopes
    have hinside := (hderived.alike hsuper).reserve
      (c := ((b.derive t ref).bindVariable ref).enter (.ofList [(superName, true)])) not_plain_super rfl
    refine ⟨⟨hformed.1, hmem⟩,
      ⟨program, hprogram, _, hvisits.child (.head _), hderived.mono (List.nil_sublist _)⟩,
      [superName] :: i, ⟨_, rfl⟩, ⟨not_plain_super, ?_⟩, ?_⟩
    · rintro _ ⟨⟩
      exact .head _
    · exact method_of_mem hprogram (hvisits.child (.tail _ (.head _))) rfl hinside
  call := by
    rintro i r ⟨program, hprogram, b, context, hvisits, hlies⟩
    obtain ⟨name, params, body⟩ := r
    have hformed : (Routine.mk name params body).Formed := formed hrecorded hprogram hvisits
    have hplain : ∀ x ∈ params.map (·.lexeme) ++ body.flatMap Stmt.names, Plain x :=
      List.forall_mem_append.2 ⟨List.forall_mem_map.2 hformed.2.1, hformed.2.2.plain_names⟩
    have hparams : ∀ p ∈ params, p.lexeme ∈ params.map (·.lexeme) ++ body.flatMap Stmt.names := fun p hp =>
      List.mem_append_left _ (List.mem_map_of_mem hp)
    have hinside : Lies program i { b with inRoutine := context } (Routine.mk name params body).inner :=
      hlies.alike rfl
    refine ⟨(params.map (·.lexeme) ++ body.flatMap Stmt.names) :: i, ⟨_, rfl⟩,
      fun p hp => ⟨hformed.2.1 p hp, ?_⟩, ?_⟩
    · rintro _ ⟨⟩
      exact hparams p hp
    · refine stmt_of_mem hrecorded hprogram (hvisits.child (.head _)) (enterRoutine hinside hplain hparams) ?_
      rintro _ ⟨⟩
      exact List.subset_append_right _ _
  bind := by
    rintro i r ⟨program, hprogram, b, c, context, hvisits, hscopes, hlies⟩
    refine ⟨[thisName] :: i, ⟨_, rfl⟩, ⟨not_plain_this, ?_⟩, program, hprogram, b, context, hvisits,
      hlies.reserve not_plain_this hscopes⟩
    rintro _ ⟨⟩
    exact .head _

end NameLayout

/-! ## Going outwards by name -/

namespace Forest

/-- Going outwards, the value of a name is found where no nearer scope holds it. -/
theorem get?_eq_of_ancestor? {f : Forest} (hnested : f.Nested) {e a : ScopeId} {d : Nat} {name : Text} {v : Value}
    (ha : f.ancestor? e d = some a) (hv : f.slot? a name = some v)
    (hnearer : ∀ k < d, ∀ a', f.ancestor? e k = some a' → f.slot? a' name = none) : f.get? e name = some v :=
  (Nearest.get?_eq hnested.older ⟨ha, hv ▸ rfl, hnearer⟩).trans hv

end Forest

/-- A reference that is read leads to a scope that has a value for its name. -/
theorem Usage.Resolves.exists_slot {f : Forest} {recorded : Site → Option Nat} {e : ScopeId} {usage : Usage}
    {ref : Reference} {d : Nat} (h : usage.Resolves f recorded e ref) (hnames : usage.Names ref)
    (hread : usage ≠ .assign) (hd : recorded ref.site = some d) :
    ∃ a v, f.ancestor? e d = some a ∧ f.slot? a ref.name = some v := by
  cases usage with
  | «variable» =>
    obtain ⟨-, a, ha, hslot⟩ := h d hd
    obtain ⟨v, hv⟩ := Option.isSome_iff_exists.1 hslot
    exact ⟨a, v, ha, hv⟩
  | assign => exact absurd rfl hread
  | this =>
    obtain ⟨hname, d', hd', -, o, ho⟩ := h
    obtain rfl := Option.some.inj (hd.symm.trans hd')
    obtain ⟨a, ha, hslot⟩ := Forest.slot?_of_getAt? ho nofun
    exact ⟨a, _, ha, hname ▸ hslot⟩
  | super =>
    obtain ⟨d', hd', -, ⟨c, hc⟩, -⟩ := h
    obtain rfl := Option.some.inj (hd.symm.trans hd')
    obtain ⟨a, ha, hslot⟩ := Forest.slot?_of_getAt? hc nofun
    have hname : ref.name = superName := hnames
    exact ⟨a, _, ha, hname ▸ hslot⟩

/-- A scope holds only names that are in the list for its place. -/
theorem World.LaidOut.mem_of_slot? {programs : List Program} {w : World (List (List Text))}
    (hw : w.LaidOut (nameLayout programs)) {e a : ScopeId} {k : Nat} {names : List Text} {name : Text} {v : Value}
    (ha : w.heap.forest.ancestor? e k = some a) (hnames : (w.place e)[k]? = some names)
    (hv : w.heap.forest.slot? a name = some v) : name ∈ names := by
  have hhead : names ∈ (w.place a).head? := by
    rw [NameLayout.out_eq (hw.out ha), List.head?_drop]
    exact hnames
  obtain ⟨⟨-, hmem⟩ | ⟨-, hmem⟩, -⟩ := hw.slots a name v hv
  · exact hmem names hhead
  · exact hmem names hhead

namespace Session

variable {s : Session} {programs : List Program} {source : Text}

/-- A session whose scopes hold the names that are declared at their places, and are nested. -/
structure NamesPlaced (s : Session) (programs : List Program) : Prop where
  world : ∃ place, (World.mk s.store.heap place).LaidOut (nameLayout programs)
  nested : s.store.heap.forest.Nested

/-- In the run of an accepted source scopes hold the names that are declared at their places. -/
theorem NamesPlaced.machine (hs : s.NamesPlaced programs) (hsound : s.Sound programs) (hsource : s.Accepts source)
    (limits : Limits) (steps : Nat) :
    ∃ place, ((s.start source).run limits steps).LaidOut
        (nameLayout (s.program source :: programs)) (s.distances source) place ∧
      ((s.start source).run limits steps).store.heap.forest.Nested := by
  obtain ⟨place, hworld⟩ := hs.world
  have hrecorded := hsound.opening hsource
  have hmono : (World.mk s.store.heap place).LaidOut (nameLayout (s.program source :: programs)) := by
    refine hworld.mono rfl rfl rfl rfl ?_ ?_
    · rintro i r ⟨program, hprogram, hrest⟩
      exact ⟨program, .tail _ hprogram, hrest⟩
    · rintro i r ⟨program, hprogram, hrest⟩
      exact ⟨program, .tail _ hprogram, hrest⟩
  -- At the top no scope is around, and all names are declared further inside.
  have hlies : Lies (s.program source) [] .start (Stmt.innerAll (s.program source)) :=
    ⟨.nil, fun _ => .nil, fun honce => (List.nodup_append.1 honce).2.1, fun _ _ _ _ => nofun⟩
  have hprogram := NameLayout.stmt_of_mem hrecorded (.head _) .start hlies nofun
  have hstart : (s.start source).LaidOut
      (nameLayout (s.program source :: programs)) (s.distances source) place :=
    .start (s := s.opening source) (fun _ => rfl) hmono hprogram
  exact hstart.run (P := fun w => w.heap.forest.Nested) (NameLayout.lawful hrecorded) limits
    (fun hw hnested hmove => hw.nested_move hnested hmove) steps hs.nested

theorem namesPlaced_serveAll (color showTrace : Bool) (requests : List Request) :
    (serveAll color showTrace requests).NamesPlaced ((new color showTrace).history requests) := by
  refine serveAll_induction ?_ (fun h hstore => ⟨hstore ▸ h.world, hstore ▸ h.nested⟩) ?_ requests
  · exact ⟨⟨_, World.LaidOut.initial fun n => ⟨MethodLayout.native_plain n, nofun⟩⟩, .initial⟩
  · intro s programs source hsound h hsource limits steps
    obtain ⟨hstore, -, -⟩ := run_of_accepts hsource limits steps
    obtain ⟨place, hlaid, hnested⟩ := h.machine hsound hsource limits steps
    exact ⟨⟨place, hstore ▸ hlaid.world⟩, hstore ▸ hnested⟩

/-- Whenever the run of an accepted source comes to a variable, `this` or `super` with a distance, in a program
that declares no name twice, going outwards from the current scope to the first one that holds the name finds a
value, and the same one as going outwards by the distance. -/
theorem run_lookup_by_name (color showTrace : Bool) (requests : List Request) {source : Text}
    (hsource : (serveAll color showTrace requests).Accepts source) {program : Program}
    (hprogram : program ∈
      (serveAll color showTrace requests).program source :: (new color showTrace).history requests)
    (honce : Program.DeclaresOnce program) :
    ∃ m₀, ((serveAll color showTrace requests).prepare source).2.2 = some m₀ ∧ ∀ limits steps e usage ref d,
      (m₀.run limits steps).control = .evaluate e → (usage, ref) ∈ (Phrase.expr e).own → usage ≠ .assign →
      (usage, ref) ∈ Stmt.referencesOfAll program →
      (m₀.run limits steps).store.bindings[ref.site]? = some d →
      usage.Names ref ∧ ∃ v,
        (m₀.run limits steps).store.heap.forest.get? (m₀.run limits steps).store.scope ref.name = some v ∧
        (m₀.run limits steps).store.heap.forest.getAt? (m₀.run limits steps).store.scope d ref.name = some v := by
  have h := sound_serveAll color showTrace requests
  have happart := h.programsApart (programsApart_history color showTrace requests) source
  have hplaced := namesPlaced_serveAll color showTrace requests
  generalize serveAll color showTrace requests = s at *
  obtain ⟨-, -, hmachine⟩ := prepare_of_accepts hsource
  refine ⟨_, hmachine, fun limits steps e usage ref d hcontrol hown hread href hd => ?_⟩
  have hrecorded := h.opening hsource
  have hsound := h.machine hsource limits steps
  obtain ⟨place, hlaid, hnested⟩ := hplaced.machine h hsource limits steps
  generalize (s.start source).run limits steps = m at *
  obtain ⟨control, tasks, store⟩ := m
  obtain rfl : control = _ := hcontrol
  obtain ⟨program', hprogram', b, hvisits, hlies⟩ := hlaid.control
  -- The program around the place is the one that the reference belongs to, since their sites are apart.
  have hsite : ref.site ∈ (Phrase.stmts program').sites :=
    hvisits.reaches.sites_subset (Phrase.own_sites_subset _ (List.mem_map_of_mem hown))
  obtain rfl : program' = program := happart.eq hprogram' hprogram hsite (List.mem_map_of_mem href)
  have hbound := hvisits.sound (hrecorded program' hprogram')
  have hnames := hbound.names _ (Phrase.own_subset _ hown)
  rw [hlaid.bindings] at hd
  have hdistance := (hbound.own_resolved _ hown).1.symm.trans hd
  obtain ⟨a, v, ha, hv⟩ := (hsound.control.1.2 _ (Phrase.own_subset _ hown)).exists_slot hnames hread hd
  obtain ⟨names, hplace, -⟩ := hlies.exists_mem hdistance
  refine ⟨hnames, v, Forest.get?_eq_of_ancestor? hnested ha hv fun k hk a' ha' => ?_,
    Forest.getAt?_eq_of_slot? ha hv⟩
  have hlt : k < (place store.scope).length := hk.trans (List.getElem?_eq_some_iff.1 hplace).1
  have hnearer := List.getElem?_eq_getElem hlt
  rw [Option.eq_none_iff_forall_ne_some]
  intro v' hv'
  exact hlies.not_mem honce hdistance hk hnearer (hlaid.world.mem_of_slot? ha' hnearer hv')

end Session

/-- When the method refers to that of its superclass, `super` is two scopes out, and it is also the first scope
outwards that holds `super`. -/
theorem Session.run_lookup_by_name_super :
    (serveAll false false []).Accepts superSource ∧
    Program.DeclaresOnce ((Session.new false false).program superSource) ∧
    ∃ m₀, ((serveAll false false []).prepare superSource).2.2 = some m₀ ∧
      ∃ v, (m₀.run ⟨10, fun _ => ⟨0⟩⟩ 18).store.heap.forest.get? (m₀.run ⟨10, fun _ => ⟨0⟩⟩ 18).store.scope
          superName = some v ∧
        (m₀.run ⟨10, fun _ => ⟨0⟩⟩ 18).store.heap.forest.getAt? (m₀.run ⟨10, fun _ => ⟨0⟩⟩ 18).store.scope 2
          superName = some v := by
  have honce : Program.DeclaresOnce ((Session.new false false).program superSource) := by
    unfold Program.DeclaresOnce
    decide +kernel
  obtain ⟨m₀, hm₀, hrun⟩ := run_lookup_by_name false false [] superSource_accepts (.head _) honce
  have hshape : (m₀.run ⟨10, fun _ => ⟨0⟩⟩ 18).control.phrase?.map Phrase.own =
        some [(.super, ⟨18, ⟨.superWord, text "super", none, 1⟩⟩)] ∧
      (m₀.run ⟨10, fun _ => ⟨0⟩⟩ 18).store.bindings[18]? = some 2 := by
    rw [eq_start superSource_accepts hm₀]
    decide +kernel
  obtain ⟨n, hn, hown⟩ := Option.map_eq_some_iff.1 hshape.1
  obtain ⟨e, rfl⟩ : ∃ e, n = .expr e := by
    cases n with
    | expr e => exact ⟨e, rfl⟩
    | _ => cases hown
  have hreference := hown.symm ▸ List.mem_singleton_self _
  exact ⟨superSource_accepts, honce, m₀, hm₀, (hrun _ 18 e .super _ 2 (Control.phrase?_eq_expr.1 hn)
    hreference (by decide) (by decide +kernel) hshape.2).2⟩

end Lox
