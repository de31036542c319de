import Lox.Proofs.SoundSession
import Mathlib.Data.List.Forall2
import Mathlib.Data.List.Nodup
import Mathlib.Data.List.Pairwise

/-!
# Trees at other sites

A tree that is bound once more, in other surroundings, needs sites of its own. `Stmt.moved` is a statement with
all its references some sites further on; it has the same names, tokens and parts.

A site stands for one point of the walk over the programs of a session: two phrases that the walk comes to and
that have a reference at the same site are the same phrase, bound at the same point
(`Visited.unique`).
-/

namespace Lox

/-- A reference some sites further on. -/
def Reference.moved (n : Nat) (ref : Reference) : Reference := { ref with site := ref.site + n }

/-- References some sites further on. -/
abbrev movedReferences (n : Nat) (refs : List (Usage × Reference)) : List (Usage × Reference) :=
  refs.map fun p => (p.1, p.2.moved n)

namespace Expr

mutual

/-- An expression some sites further on. -/
def moved (n : Nat) : Expr → Expr
  | .literal site value => .literal (site + n) value
  | .grouping site inner => .grouping (site + n) (moved n inner)
  | .variable ref => .variable (ref.moved n)
  | .assign target value => .assign (target.moved n) (moved n value)
  | .this ref => .this (ref.moved n)
  | .super ref method => .super (ref.moved n) method
  | .unary site op sign operand => .unary (site + n) op sign (moved n operand)
  | .binary site op sign left right => .binary (site + n) op sign (moved n left) (moved n right)
  | .logical site op sign left right => .logical (site + n) op sign (moved n left) (moved n right)
  | .conditional site condition question middle colon right =>
    .conditional (site + n) (moved n condition) question (moved n middle) colon (moved n right)
  | .call site callee paren arguments => .call (site + n) (moved n callee) paren (movedAll n arguments)
  | .get site object name => .get (site + n) (moved n object) name
  | .set site object name value => .set (site + n) (moved n object) name (moved n value)

def movedAll (n : Nat) : List Expr → List Expr
  | [] => []
  | e :: rest => moved n e :: movedAll n rest

end

end Expr

mutual

/-- A statement some sites further on. -/
def Stmt.moved (n : Nat) : Stmt → Stmt
  | .expression e => .expression (e.moved n)
  | .print e => .print (e.moved n)
  | .returns keyword value => .returns keyword (value.map (Expr.moved n))
  | .branch condition yes none => .branch (condition.moved n) (yes.moved n) none
  | .branch condition yes (some no) => .branch (condition.moved n) (yes.moved n) (some (no.moved n))
  | .loop condition body => .loop (condition.moved n) (body.moved n)
  | .block body => .block (Stmt.movedAll n body)
  | .variable name initializer => .variable name (initializer.map (Expr.moved n))
  | .routine r => .routine (r.moved n)
  | .classOf name superclass methods =>
    .classOf name (superclass.map (Reference.moved n)) (Routine.movedAll n methods)

def Routine.moved (n : Nat) : Routine → Routine
  | .mk name params body => .mk name params (Stmt.movedAll n body)

def Stmt.movedAll (n : Nat) : List Stmt → List Stmt
  | [] => []
  | s :: rest => s.moved n :: Stmt.movedAll n rest

def Routine.movedAll (n : Nat) : List Routine → List Routine
  | [] => []
  | r :: rest => r.moved n :: Routine.movedAll n rest

end

/-! ## What a moved tree keeps -/

/-- Nothing changes by zero sites. -/
theorem Expr.moved_zero (e : Expr) : e.moved 0 = e := by
  induction e using @Expr.rec _ (fun es => movedAll 0 es = es) with
  | literal | «variable» | this | super | nil => rfl
  | grouping _ _ ih => exact congrArg (Expr.grouping _) ih
  | assign _ _ ih => exact congrArg (Expr.assign _) ih
  | unary _ _ _ _ ih => exact congrArg (Expr.unary _ _ _) ih
  | binary _ _ _ _ _ ih ih' | logical _ _ _ _ _ ih ih' | set _ _ _ _ ih ih' | call _ _ _ _ ih ih' =>
    rw [moved, ih, ih', Nat.add_zero]
  | conditional _ _ _ _ _ _ ih ihmiddle ihright => rw [moved, ih, ihmiddle, ihright, Nat.add_zero]
  | get _ _ _ ih => exact congrArg (Expr.get _ · _) ih
  | cons _ _ ih ih' => exact congrArg₂ List.cons ih ih'

theorem Expr.map_moved_zero (e : Option Expr) : e.map (Expr.moved 0) = e := by
  cases e with
  | none => rfl
  | some e => exact congrArg some e.moved_zero

mutual

/-- Nothing changes by zero sites. -/
theorem Stmt.moved_zero : (s : Stmt) → s.moved 0 = s
  | .expression e => congrArg Stmt.expression e.moved_zero
  | .print e => congrArg Stmt.print e.moved_zero
  | .returns keyword value => congrArg (Stmt.returns keyword) (Expr.map_moved_zero value)
  | .branch condition yes none => by
    rw [Stmt.moved, condition.moved_zero, Stmt.moved_zero yes]
  | .branch condition yes (some no) => by
    rw [Stmt.moved, condition.moved_zero, Stmt.moved_zero yes, Stmt.moved_zero no]
  | .loop condition body => congrArg₂ Stmt.loop condition.moved_zero (Stmt.moved_zero body)
  | .block body => congrArg Stmt.block (Stmt.movedAll_zero body)
  | .variable name initializer => congrArg (Stmt.variable name) (Expr.map_moved_zero initializer)
  | .routine r => congrArg Stmt.routine (Routine.moved_zero r)
  | .classOf name superclass methods => by
    rw [Stmt.moved, Routine.movedAll_zero methods]
    cases superclass <;> rfl

theorem Routine.moved_zero : (r : Routine) → r.moved 0 = r
  | .mk name params body => congrArg (Routine.mk name params) (Stmt.movedAll_zero body)

theorem Stmt.movedAll_zero : (ss : List Stmt) → Stmt.movedAll 0 ss = ss
  | [] => rfl
  | s :: rest => congrArg₂ List.cons (Stmt.moved_zero s) (Stmt.movedAll_zero rest)

theorem Routine.movedAll_zero : (rs : List Routine) → Routine.movedAll 0 rs = rs
  | [] => rfl
  | r :: rest => congrArg₂ List.cons (Routine.moved_zero r) (Routine.movedAll_zero rest)

end

section

variable (n : Nat)

theorem Stmt.declared?_moved (s : Stmt) : (s.moved n).declared? = s.declared? := by
  cases s with
  | branch _ _ no => cases no <;> rfl
  | routine r => cases r; rfl
  | _ => rfl

theorem Routine.name_moved (r : Routine) : (r.moved n).name = r.name := by
  cases r
  rfl

theorem Routine.params_moved (r : Routine) : (r.moved n).params = r.params := by
  cases r
  rfl

theorem Routine.body_moved (r : Routine) : (r.moved n).body = Stmt.movedAll n r.body := by
  cases r
  rfl

/-- The references of a moved expression are the moved references. -/
theorem Expr.references_moved (e : Expr) : (e.moved n).references = movedReferences n e.references := by
  induction e using
    @Expr.rec _ (fun es => referencesOfAll (movedAll n es) = movedReferences n (referencesOfAll es)) with
  | literal | «variable» | this | super | nil => rfl
  | grouping _ _ ih | unary _ _ _ _ ih | get _ _ _ ih => exact ih
  | assign _ _ ih => exact congrArg (_ :: ·) ih
  | binary _ _ _ _ _ ih ih' | logical _ _ _ _ _ ih ih' | set _ _ _ _ ih ih' | call _ _ _ _ ih ih' =>
    rw [moved, references, ih, ih', ← List.map_append]
    rfl
  | conditional _ _ _ _ _ _ ih ihmiddle ihright =>
    rw [moved, references, ih, ihmiddle, ihright, ← List.map_append, ← List.map_append]
    rfl
  | cons _ _ ih ih' =>
    rw [movedAll, referencesOfAll, ih, ih', ← List.map_append]
    rfl

theorem Expr.referencesOfAll_moved (es : List Expr) :
    referencesOfAll (movedAll n es) = movedReferences n (referencesOfAll es) := by
  induction es with
  | nil => rfl
  | cons e es ih =>
    rw [movedAll, referencesOfAll, e.references_moved, ih, ← List.map_append]
    rfl

theorem Expr.referencesOfOption_moved (e : Option Expr) :
    Expr.referencesOfOption (e.map (Expr.moved n)) = movedReferences n (Expr.referencesOfOption e) := by
  cases e with
  | none => rfl
  | some e => exact e.references_moved n

mutual

/-- The references of a statement move with it. -/
theorem Stmt.references_moved : (s : Stmt) → (s.moved n).references = movedReferences n s.references
  | .expression e | .print e => e.references_moved n
  | .returns _ value | .variable _ value => Expr.referencesOfOption_moved n value
  | .branch condition body none | .loop condition body => by
    rw [Stmt.moved, Stmt.references, condition.references_moved, Stmt.references_moved body,
      ← List.map_append]
    rfl
  | .branch condition yes (some no) => by
    rw [Stmt.moved, Stmt.references, condition.references_moved, Stmt.references_moved yes,
      Stmt.references_moved no, ← List.map_append, ← List.map_append]
    rfl
  | .block body => Stmt.referencesOfAll_moved body
  | .routine r => Routine.references_moved r
  | .classOf _ superclass methods => by
    rw [Stmt.moved, Stmt.references, Routine.referencesOfAll_moved methods]
    cases superclass <;> rfl

theorem Routine.references_moved : (r : Routine) → (r.moved n).references = movedReferences n r.references
  | .mk _ _ body => Stmt.referencesOfAll_moved body

theorem Stmt.referencesOfAll_moved : (ss : List Stmt) →
    Stmt.referencesOfAll (Stmt.movedAll n ss) = movedReferences n (Stmt.referencesOfAll ss)
  | [] => rfl
  | s :: rest => by
    rw [Stmt.movedAll, Stmt.referencesOfAll, Stmt.references_moved s, Stmt.referencesOfAll_moved rest,
      ← List.map_append]
    rfl

theorem Routine.referencesOfAll_moved : (rs : List Routine) →
    Routine.referencesOfAll (Routine.movedAll n rs) = movedReferences n (Routine.referencesOfAll rs)
  | [] => rfl
  | r :: rest => by
    rw [Routine.movedAll, Routine.referencesOfAll, Routine.references_moved r,
      Routine.referencesOfAll_moved rest, ← List.map_append]
    rfl

end

namespace Phrase

/-- A phrase with its references some sites further on. -/
def moved : Phrase → Phrase
  | .expr e => .expr (e.moved n)
  | .exprs es => .exprs (Expr.movedAll n es)
  | .stmt s => .stmt (s.moved n)
  | .stmts ss => .stmts (Stmt.movedAll n ss)
  | .routine context r => .routine context (r.moved n)
  | .methods rs => .methods (Routine.movedAll n rs)

theorem references_moved (m : Phrase) : (m.moved n).references = movedReferences n m.references := by
  cases m with
  | expr x | stmt x | routine _ x => exact x.references_moved n
  | exprs es => exact Expr.referencesOfAll_moved n es
  | stmts ss => exact Stmt.referencesOfAll_moved n ss
  | methods rs => exact Routine.referencesOfAll_moved n rs

theorem sites_moved (m : Phrase) : (m.moved n).sites = m.sites.map (· + n) := by
  rw [sites, sites, references_moved, List.map_map, List.map_map]
  rfl

theorem own_moved (m : Phrase) : (m.moved n).own = movedReferences n m.own := by
  cases m with
  | expr e => cases e <;> rfl
  | _ => rfl

end Phrase

end

/-! ## A site is visited once -/

/-- The walk over a phrase comes to a part of it at a point. -/
inductive Phrase.Reaches (b : Binder) (n : Phrase) : Binder → Phrase → Prop where
  | here : Reaches b n b n
  | child {c c' : Binder} {m m' : Phrase} (h : Reaches b n c m) (hm : (c', m') ∈ m.children c) :
    Reaches b n c' m'

theorem Visits.reaches {program : Program} {b : Binder} {n : Phrase} (h : Visits program b n) :
    Phrase.Reaches .start (.stmts program) b n := by
  induction h with
  | start => exact .here
  | child _ hm ih => exact .child ih hm

namespace Phrase.Reaches

variable {b c c' : Binder} {n m m' : Phrase}

theorem trans (h : Reaches b n c m) (h' : Reaches c m c' m') : Reaches b n c' m' := by
  induction h' with
  | here => exact h
  | child _ hm ih => exact .child ih hm

theorem sites_subset (h : Reaches b n c m) : m.sites ⊆ n.sites := by
  induction h with
  | here => exact List.Subset.refl _
  | child _ hm ih => exact List.Subset.trans (child_sites_subset hm) ih

theorem visits {program : Program} (h : Visits program b n) (h' : Reaches b n c m) : Visits program c m := by
  induction h' with
  | here => exact h
  | child _ hm ih => exact .child ih hm

end Phrase.Reaches

/-- The walk comes to every expression in a phrase. -/
theorem Phrase.exists_reaches_expr (n : Phrase) : ∀ b, ∀ e ∈ n.expressions, ∃ c, Phrase.Reaches b n c (.expr e) := by
  induction n using Phrase.induction with
  | step n ih =>
    intro b e he
    rcases List.mem_append.1 ((n.expressions_perm b).mem_iff.1 he) with hself | he
    · cases n <;> cases hself
      · exact ⟨b, .here⟩
      · contradiction
    · obtain ⟨⟨c, m⟩, hm, he⟩ := List.mem_flatMap.1 he
      obtain ⟨c', hreaches⟩ := ih b c m hm c e he
      exact ⟨c', (Phrase.Reaches.here.child hm).trans hreaches⟩

/-- Every site of a phrase is that of the own reference of one of its parts. -/
theorem Phrase.exists_reaches (n : Phrase) (b : Binder) {p : Usage × Reference} (hp : p ∈ n.references) :
    ∃ c m, Phrase.Reaches b n c m ∧ p ∈ m.own := by
  rw [← filterMap_expressions] at hp
  obtain ⟨e, he, hep⟩ := List.mem_filterMap.1 hp
  obtain ⟨c, hreaches⟩ := n.exists_reaches_expr b e he
  refine ⟨c, .expr e, hreaches, ?_⟩
  rw [← filterMap_self]
  exact List.mem_filterMap.2 ⟨e, .head _, hep⟩

/-- In blocks without a repetition an element lies in one block. -/
theorem eq_of_mem_blocks {α β : Type} {l : List α} {f : α → List β} (h : (l.flatMap f).Nodup) {i j : Nat}
    {x y : α} (hx : l[i]? = some x) (hy : l[j]? = some y) {b : β} (hb : b ∈ f x) (hb' : b ∈ f y) : i = j := by
  obtain ⟨hi, rfl⟩ := List.getElem?_eq_some_iff.1 hx
  obtain ⟨hj, rfl⟩ := List.getElem?_eq_some_iff.1 hy
  have hapart := List.pairwise_iff_getElem.1 (List.nodup_flatMap.1 h).2
  rcases Nat.lt_trichotomy i j with hlt | heq | hgt
  · exact absurd hb' (hapart i j hi hj hlt hb)
  · exact heq
  · exact absurd hb (hapart j i hj hi hgt hb')

namespace Phrase

/-- The part of a phrase at the end of a path, which says at each step to which child to go, with the point of the
walk where it is bound. -/
def at? (n : Phrase) (b : Binder) : List Nat → Option (Binder × Phrase)
  | [] => some (b, n)
  | i :: path => (n.children b)[i]?.bind fun child => child.2.at? child.1 path

section

variable {n m m' : Phrase} {b c c' : Binder} {path path' : List Nat} {f : Expr → Option Site} {site : Site}

theorem at?_append (n : Phrase) (b : Binder) (path path' : List Nat) :
    n.at? b (path ++ path') = (n.at? b path).bind fun part => part.2.at? part.1 path' := by
  induction path generalizing n b with
  | nil => rfl
  | cons i path ih => simp only [List.cons_append, at?, Option.bind_assoc, ih]

theorem Reaches.exists_path (h : Reaches b n c m) : ∃ path, n.at? b path = some (c, m) := by
  induction h with
  | here => exact ⟨[], rfl⟩
  | child _ hm ih =>
    obtain ⟨path, hpath⟩ := ih
    obtain ⟨i, hi⟩ := List.mem_iff_getElem?.1 hm
    exact ⟨path ++ [i], by simp [at?_append, hpath, at?, hi]⟩

/-- What is read from the part at the end of a path is read from the phrase. -/
theorem mem_of_at? (h : n.at? b path = some (c, m)) (hsite : site ∈ m.self.filterMap f) :
    site ∈ n.expressions.filterMap f := by
  induction path generalizing n b with
  | nil =>
    cases h
    exact (filterMap_perm f _ .start).mem_iff.2 (List.mem_append_left _ hsite)
  | cons i path ih =>
    obtain ⟨child, hchild, hrest⟩ := Option.bind_eq_some_iff.1 h
    exact (n.filterMap_perm f b).mem_iff.2
      (List.mem_append_right _ (List.mem_flatMap.2 ⟨child, List.mem_of_getElem? hchild, ih hrest⟩))

/-- The site of a phrase itself is no site further in. -/
theorem not_self_of_at?_cons (hnodup : (n.expressions.filterMap f).Nodup) {i : Nat}
    (h : n.at? b (i :: path) = some (c, m)) (hsite : site ∈ m.self.filterMap f) : site ∉ n.self.filterMap f := by
  intro hself
  obtain ⟨child, hchild, hrest⟩ := Option.bind_eq_some_iff.1 h
  have hapart := (List.nodup_append.1 ((n.filterMap_perm f b).nodup_iff.1 hnodup)).2.2
  exact hapart _ hself _ (List.mem_flatMap.2 ⟨child, List.mem_of_getElem? hchild, mem_of_at? hrest hsite⟩) rfl

/-- In a phrase whose expressions have different sites, a site tells the path of its expression. What a site is, and
which expressions have one, is read by a function. -/
theorem path_eq (hnodup : (n.expressions.filterMap f).Nodup) (h : n.at? b path = some (c, m))
    (h' : n.at? b path' = some (c', m')) (hsite : site ∈ m.self.filterMap f) (hsite' : site ∈ m'.self.filterMap f) :
    path = path' := by
  induction path generalizing n b path' with
  | nil => cases path' with
    | nil => rfl
    | cons j path' =>
      cases h
      exact absurd hsite (not_self_of_at?_cons hnodup h' hsite')
  | cons i path ih => cases path' with
    | nil =>
      cases h'
      exact absurd hsite' (not_self_of_at?_cons hnodup h hsite)
    | cons j path' =>
      obtain ⟨child, hchild, hrest⟩ := Option.bind_eq_some_iff.1 h
      obtain ⟨child', hchild', hrest'⟩ := Option.bind_eq_some_iff.1 h'
      obtain ⟨-, hchildren, -⟩ := List.nodup_append.1 ((n.filterMap_perm f b).nodup_iff.1 hnodup)
      -- Two children have no site in common, so both paths go to the same one.
      obtain rfl := eq_of_mem_blocks hchildren hchild hchild' (mem_of_at? hrest hsite) (mem_of_at? hrest' hsite')
      obtain rfl := Option.some.inj (hchild.symm.trans hchild')
      rw [ih ((List.nodup_flatMap.1 hchildren).1 child (List.mem_of_getElem? hchild)) hrest hrest']

/-- The parts of a phrase whose references stand at different sites are known by the sites of their own
references. -/
theorem Reaches.unique (hnodup : n.sites.Nodup) (h : Reaches b n c m) (h' : Reaches b n c' m')
    (hsite : site ∈ m.own.map (·.2.site)) (hsite' : site ∈ m'.own.map (·.2.site)) : c = c' ∧ m = m' := by
  obtain ⟨path, hpath⟩ := h.exists_path
  obtain ⟨path', hpath'⟩ := h'.exists_path
  rw [sites_eq] at hnodup
  rw [own_sites_eq] at hsite hsite'
  obtain rfl := path_eq hnodup hpath hpath' hsite hsite'
  exact Prod.mk.inj (Option.some.inj (hpath.symm.trans hpath'))

end

end Phrase

/-- No two programs have a site in common. -/
def ProgramsApart (programs : List Program) : Prop :=
  programs.Pairwise fun p q => ∀ site ∈ (Phrase.stmts p).sites, site ∉ (Phrase.stmts q).sites

/-- A site belongs to one program. -/
theorem ProgramsApart.eq {programs : List Program} (h : ProgramsApart programs) {p q : Program}
    (hp : p ∈ programs) (hq : q ∈ programs) {site : Site} (hsite : site ∈ (Phrase.stmts p).sites)
    (hsite' : site ∈ (Phrase.stmts q).sites) : p = q := by
  by_contra hne
  have : Std.Symm fun p q : Program =>
      ∀ site ∈ (Phrase.stmts p).sites, site ∉ (Phrase.stmts q).sites :=
    ⟨fun _ _ h site hs hs' => h site hs' hs⟩
  exact List.Pairwise.forall h hp hq hne site hsite hsite'

/-- In programs that have no site in common the walk comes to each site at one point. -/
theorem Visited.unique {programs : List Program} (happart : ProgramsApart programs)
    {recorded : Site → Option Nat} (hrecorded : Recorded recorded programs) {b b' : Binder} {n n' : Phrase}
    (h : Visited programs b n) (h' : Visited programs b' n') {site : Site}
    (hsite : site ∈ n.own.map (·.2.site)) (hsite' : site ∈ n'.own.map (·.2.site)) : b = b' ∧ n = n' := by
  obtain ⟨program, hprogram, hvisits⟩ := h
  obtain ⟨program', hprogram', hvisits'⟩ := h'
  have hmem := hvisits.reaches.sites_subset (n.own_sites_subset hsite)
  have hmem' := hvisits'.reaches.sites_subset (n'.own_sites_subset hsite')
  obtain rfl := happart.eq hprogram hprogram' hmem hmem'
  exact hvisits.reaches.unique (hrecorded program hprogram).nodup hvisits'.reaches hsite hsite'

namespace Session

variable {s : Session} {programs : List Program}

/-- A source adds a program with sites of its own. -/
theorem Sound.programsApart (h : s.Sound programs) (hapart : ProgramsApart programs) (source : Text) :
    ProgramsApart (s.program source :: programs) := by
  refine List.pairwise_cons.2 ⟨fun program hprogram site hsite hsite' => ?_, hapart⟩
  have hle := (Sound.le_of_mem_sites hsite).1
  exact Nat.not_le.2 (h.before program hprogram site hsite') hle

/-- The programs that a session has run have no site in common. -/
theorem programsApart_history (color showTrace : Bool) (requests : List Request) :
    ProgramsApart ((new color showTrace).history requests) :=
  serveAll_induction (P := fun _ => ProgramsApart) .nil (fun h _ => h)
    (fun hsound h _ _ _ => hsound.programsApart h _) requests

end Session

end Lox
