import Lox.Proofs.BoundPieces
import Lox.Proofs.LocalNames
import Lox.Proofs.Positions
import Lox.Proofs.Resolution

/-!
# Recorded distances are lexical

`Reading.records_lexical` states that binding a program records for each of its references the lexical distance of
the name at its place (`Lexical`), and nothing where there is none.

The walk comes to the references of an expression in an order of its own, since the value of an assignment is bound
before its target, but with the same scopes open for all of them; so what is recorded is known up to the order
(`Binder.Finds`). From statement to statement the open scopes have the names that the stack of scopes over the marks
has (`Reads`), and what is recorded for each mark is the index of a name on that stack (`Mark.distances`).
-/

namespace Lox

/-! ## The references of an expression -/

namespace Binder

variable {b b' b'' : Binder} {refs refs' : List (Usage × Reference)}

theorem Adds.bindings_eq (h : Adds [] b b') : b'.bindings = b.bindings := by
  obtain ⟨added, hadded, hsites⟩ := h.bindings
  have hnil : added = [] := List.eq_nil_iff_forall_not_mem.2 fun p hp => List.not_mem_nil (hsites p hp)
  rw [hadded, hnil, List.nil_append]

/-- Outside of all classes no scope has `this`. -/
def ThisInClass (b : Binder) : Prop := b.inClass = .outside → b.distance? thisName = none

namespace ThisInClass

section

variable (h : b.ThisInClass)

include h

theorem alike (halike : b.Alike b') : b'.ThisInClass := by
  intro houtside
  rw [halike.distance?]
  exact h (halike.inClass.symm.trans houtside)

theorem mark {name : Text} {complete : Bool} (hname : Plain name)
    (hscopes : b'.scopes = markInner name complete b.scopes) (hclass : b'.inClass = b.inClass) : b'.ThisInClass := by
  intro houtside
  rw [distance?, hscopes, findIdx?_markInner hname.1.symm]
  exact h (hclass.symm.trans houtside)

theorem enter : (b.enter .empty).ThisInClass := by
  intro houtside
  have hnone := h houtside
  rw [distance?] at hnone ⊢
  rw [Binder.enter, List.findIdx?_cons, Table.has_empty, hnone]
  rfl

end

theorem steady : Steady ThisInClass := ⟨alike, fun h => h.mark⟩

end ThisInClass

/-- The references with a distance where a point of the walk is. -/
def found (b : Binder) (refs : List (Usage × Reference)) : List (Site × Nat) :=
  refs.filterMap fun p => (b.distance? p.2.name).map (p.2.site, ·)

/-- Between two points with the same open scopes the distances of references are recorded, in some order. -/
structure Finds (refs : List (Usage × Reference)) (b b' : Binder) : Prop where
  alike : b.Alike b'
  bindings : ∃ added, b'.bindings = added ++ b.bindings ∧ added.Perm (b.found refs)

namespace Finds

theorem nil (halike : b.Alike b') (hbindings : b'.bindings = b.bindings) : Finds [] b b' :=
  ⟨halike, [], hbindings, .refl _⟩

/-- What two stretches find is found by both together. -/
theorem append (h : Finds refs b b') (h' : Finds refs' b' b'') : Finds (refs ++ refs') b b'' := by
  obtain ⟨added, hadded, hperm⟩ := h.bindings
  obtain ⟨added', hadded', hperm'⟩ := h'.bindings
  have hfound : b'.found refs' = b.found refs' := by
    unfold found
    simp only [h.alike.distance?]
  refine ⟨h.alike.trans h'.alike, added' ++ added, by rw [hadded', hadded, List.append_assoc], ?_⟩
  rw [hfound] at hperm'
  rw [found, List.filterMap_append]
  exact List.perm_append_comm.trans (hperm.append hperm')

theorem perm (h : Finds refs b b') (hrefs : refs.Perm refs') : Finds refs' b b' := by
  obtain ⟨added, hadded, hperm⟩ := h.bindings
  exact ⟨h.alike, added, hadded, hperm.trans (hrefs.filterMap _)⟩

end Finds

theorem bind_finds (b : Binder) (usage : Usage) (ref : Reference) : Finds [(usage, ref)] b (b.bind ref) := by
  refine ⟨b.bind_alike ref, ?_⟩
  unfold bind
  cases hd : b.distance? ref.name with
  | none => exact ⟨[], rfl, by rw [found, List.filterMap_cons_none (by rw [hd]; rfl)]; exact .refl _⟩
  | some d => exact ⟨[(ref.site, d)], rfl, by rw [found, List.filterMap_cons_some (by rw [hd]; rfl)]; exact .refl _⟩

theorem bindVariable_finds (b : Binder) (ref : Reference) : Finds [(.variable, ref)] b (b.bindVariable ref) :=
  have hcheck : Finds [] b (b.checkDefined ref) :=
    .nil (b.checkDefined_alike ref) (b.checkDefined_adds ref).bindings_eq
  hcheck.append (bind_finds _ .variable ref)

end Binder

open Binder (Finds ThisInClass)

/-- The names of references fit their use. -/
abbrev Named (refs : List (Usage × Reference)) : Prop := ∀ p ∈ refs, p.1.Names p.2

theorem Named.append {refs refs' : List (Usage × Reference)} :
    Named (refs ++ refs') ↔ Named refs ∧ Named refs' := List.forall_mem_append

/-- Binding an expression records the distances of its references. -/
theorem Expr.bind_finds (e : Expr) (b : Binder) (hnamed : Named e.references) (hthis : b.ThisInClass) :
    Finds e.references b (e.bind b) := by
  induction e using @Expr.rec _ (fun es => ∀ b : Binder, Named (referencesOfAll es) → b.ThisInClass →
    Finds (referencesOfAll es) b (bindAll es b)) generalizing b with
  | literal | nil => exact .nil (.refl _) rfl
  | grouping _ _ ih | unary _ _ _ _ ih | get _ _ _ ih => exact ih b hnamed hthis
  | «variable» ref => exact b.bindVariable_finds ref
  | assign target _ ih =>
    have hvalue := ih b (List.forall_mem_cons.1 hnamed).2 hthis
    exact (hvalue.append (Binder.bind_finds _ .assign target)).perm List.perm_append_comm
  | this ref =>
    unfold bind
    split
    · next houtside =>
      -- Where `this` is not allowed it is not found either.
      have hname : ref.name = thisName := hnamed _ (.head _)
      refine ⟨b.report_alike _ _, [], rfl, ?_⟩
      rw [references, Binder.found, List.filterMap_cons_none (by rw [hname, hthis houtside]; rfl)]
      exact .refl _
    · exact b.bind_finds .this ref
  | super ref =>
    have hcheck : Finds [] b (b.checkSuper ref) :=
      .nil (b.checkSuper_alike ref) (b.checkSuper_adds ref).bindings_eq
    exact hcheck.append (Binder.bind_finds _ .super ref)
  | binary _ _ _ _ _ ih ih' | logical _ _ _ _ _ ih ih' | call _ _ _ _ ih ih' =>
    have hboth := Named.append.1 hnamed
    have hleft := ih b hboth.1 hthis
    exact hleft.append (ih' _ hboth.2 (hthis.alike hleft.alike))
  | conditional _ _ _ _ _ _ ih ihmiddle ihright =>
    have hall := Named.append.1 hnamed
    have hfirst := Named.append.1 hall.1
    have hcondition := ih b hfirst.1 hthis
    have hmiddle := hcondition.append (ihmiddle _ hfirst.2 (hthis.alike hcondition.alike))
    exact hmiddle.append (ihright _ hall.2 (hthis.alike hmiddle.alike))
  | set _ _ _ _ ih ih' =>
    have hboth := Named.append.1 hnamed
    have hvalue := ih' b hboth.2 hthis
    exact (hvalue.append (ih _ hboth.1 (hthis.alike hvalue.alike))).perm List.perm_append_comm
  | cons _ _ ih ih' =>
    rename_i b hnamed hthis
    have hboth := Named.append.1 hnamed
    have he := ih b hboth.1 hthis
    exact he.append (ih' _ hboth.2 (hthis.alike he.alike))

theorem Expr.bindOption_finds (e : Option Expr) {b : Binder} (hnamed : Named (Expr.referencesOfOption e))
    (hthis : b.ThisInClass) : Finds (Expr.referencesOfOption e) b (Expr.bindOption e b) := by
  cases e with
  | none => exact .nil (.refl b) rfl
  | some e => exact e.bind_finds b hnamed hthis

/-! ## What is recorded for marks -/

/-- The open scopes have the names of a stack of scopes. -/
abbrev Reads : List (Table Bool) → List (List Text) → Prop :=
  List.Forall₂ fun t names => ∀ name, t.has name = names.contains name

namespace Reads

variable {tables : List (Table Bool)} {scopes : List (List Text)}

theorem findIdx? (h : Reads tables scopes) (name : Text) :
    tables.findIdx? (·.has name) = scopes.findIdx? (·.contains name) := by
  induction h with
  | nil => rfl
  | cons ht _ ih => rw [List.findIdx?_cons, List.findIdx?_cons, ht name, ih]

theorem mark (h : Reads tables scopes) (name : Text) (complete : Bool) :
    Reads (markInner name complete tables) (Mark.step scopes (.declares name)) := by
  cases h with
  | nil => exact .nil
  | cons ht houter =>
    refine .cons (fun other => ?_) houter
    rw [Table.has_insert, ht other, List.contains_cons, beq_eq_decide]

theorem enter (h : Reads tables scopes) : Reads (.empty :: tables) (Mark.step scopes .opens) :=
  .cons (fun _ => rfl) h

theorem leave (h : Reads tables scopes) : Reads tables.tail (Mark.step scopes .closes) := by
  cases h with
  | nil => exact .nil
  | cons _ houter => exact houter

end Reads

namespace Mark

/-- What is recorded for a mark, by the index of its name on a stack of scopes. -/
def distance? (scopes : List (List Text)) : Mark → Option (Site × Nat)
  | .refers _ ref => (scopes.findIdx? (·.contains ref.name)).map (ref.site, ·)
  | .opens | .closes | .declares _ => none

/-- What is recorded for marks that begin with a stack of scopes. -/
def distances : List (List Text) → List Mark → List (Site × Nat)
  | _, [] => []
  | scopes, m :: rest => (m.distance? scopes).toList ++ distances (step scopes m) rest

variable {scopes : List (List Text)} {marks : List Mark}

theorem distances_append (marks' : List Mark) :
    distances scopes (marks ++ marks') = distances scopes marks ++ distances (marks.foldl step scopes) marks' := by
  induction marks generalizing scopes with
  | nil => rfl
  | cons m marks ih => rw [List.cons_append, distances, distances, ih, List.append_assoc, List.foldl_cons]

/-- A distance is recorded for a reference at a position, with the stack of scopes that is there. -/
theorem mem_distances {p : Site × Nat} : p ∈ distances scopes marks ↔
    ∃ (i : Nat) (m : Mark), marks[i]? = some m ∧ m.distance? ((marks.take i).foldl step scopes) = some p := by
  induction marks generalizing scopes with
  | nil => exact iff_of_false List.not_mem_nil (by simp)
  | cons m marks ih =>
    rw [distances, List.mem_append, Option.mem_toList, ih]
    constructor
    · rintro (h | ⟨i, m', hm', h⟩)
      · exact ⟨0, m, rfl, h⟩
      · exact ⟨i + 1, m', hm', h⟩
    · rintro ⟨i, m', hm', h⟩
      cases i with
      | zero =>
        cases hm'
        exact .inl h
      | succ i => exact .inr ⟨i, m', hm', h⟩

theorem step_ofReferences (refs : List (Usage × Reference)) : (ofReferences refs).foldl step scopes = scopes := by
  induction refs with
  | nil => rfl
  | cons p refs ih =>
    rw [ofReferences, List.map_cons, List.foldl_cons]
    cases scopes <;> exact ih

end Mark

namespace Binder

variable {b b' b'' : Binder} {scopes : List (List Text)} {marks marks' : List Mark}

/-- The distances of references are those that the names of the open scopes tell. -/
theorem found_eq (h : Reads b.scopes scopes) (refs : List (Usage × Reference)) :
    b.found refs = Mark.distances scopes (Mark.ofReferences refs) := by
  induction refs with
  | nil => rfl
  | cons p refs ih =>
    have hstep : Mark.step scopes (.refers p.1 p.2) = scopes := by cases scopes <;> rfl
    rw [Mark.ofReferences, List.map_cons, Mark.distances, hstep, Mark.distance?, ← h.findIdx?]
    rw [Mark.ofReferences] at ih
    rw [← ih]
    unfold found distance?
    cases hd : b.scopes.findIdx? (·.has p.2.name) with
    | none => rw [List.filterMap_cons_none (by rw [hd]; rfl)]; rfl
    | some d => rw [List.filterMap_cons_some (by rw [hd]; rfl)]; rfl

/-- Between two points of the walk the distances for marks are recorded, in some order, and the scopes at the
second point are those after the marks. -/
structure Records (scopes : List (List Text)) (marks : List Mark) (b b' : Binder) : Prop where
  reads : Reads b'.scopes (marks.foldl Mark.step scopes)
  bindings : ∃ added, b'.bindings = added ++ b.bindings ∧ added.Perm (Mark.distances scopes marks)

namespace Records

/-- What is recorded along marks and then along others is recorded along both. -/
theorem append (h : Records scopes marks b b') (h' : Records (marks.foldl Mark.step scopes) marks' b' b'') :
    Records scopes (marks ++ marks') b b'' := by
  obtain ⟨added, hadded, hperm⟩ := h.bindings
  obtain ⟨added', hadded', hperm'⟩ := h'.bindings
  refine ⟨?_, added' ++ added, by rw [hadded', hadded, List.append_assoc], ?_⟩
  · rw [List.foldl_append]
    exact h'.reads
  · rw [Mark.distances_append]
    exact List.perm_append_comm.trans (hperm.append hperm')

theorem of_finds {refs : List (Usage × Reference)} (h : Reads b.scopes scopes) (hfinds : Finds refs b b') :
    Records scopes (Mark.ofReferences refs) b b' := by
  obtain ⟨added, hadded, hperm⟩ := hfinds.bindings
  refine ⟨?_, added, hadded, ?_⟩
  · rw [Mark.step_ofReferences, hfinds.alike.scopes]
    exact h
  · rwa [← found_eq h]

theorem of_reads (hreads : Reads b'.scopes (marks.foldl Mark.step scopes)) (hbindings : b'.bindings = b.bindings)
    (hnone : Mark.distances scopes marks = []) : Records scopes marks b b' :=
  ⟨hreads, [], hbindings, by rw [hnone]⟩

section

variable (h : Reads b.scopes scopes)

include h

theorem mark {name : Text} {complete : Bool} (hscopes : b'.scopes = markInner name complete b.scopes)
    (hbindings : b'.bindings = b.bindings) : Records scopes [.declares name] b b' :=
  .of_reads (by rw [hscopes]; exact h.mark name complete) hbindings rfl

theorem enter : Records scopes [.opens] b (b.enter .empty) := .of_reads h.enter rfl rfl

theorem enterName (name : Text) :
    Records scopes [.opens, .declares name] b (b.enter (.ofList [(name, true)])) :=
  .of_reads (h.enter.mark name true) rfl rfl

theorem leave (hscopes : b'.scopes = b.scopes.tail) (hbindings : b'.bindings = b.bindings) :
    Records scopes [.closes] b b' :=
  .of_reads (by rw [hscopes]; exact h.leave) hbindings rfl

theorem declared (name : Token) : Records scopes [.declares name.lexeme] b ((b.declare name).define name) :=
  .mark h (b.declared_scopes name) ((b.declare_adds name).trans (define_adds _ name)).bindings_eq

theorem params (params : List Token) :
    Records scopes (params.map fun p => .declares p.lexeme) b (params.foldl (fun b p => (b.declare p).define p) b) := by
  induction params generalizing b scopes with
  | nil => exact .of_reads h rfl rfl
  | cons p params ih =>
    have hp := Records.declared h p
    exact hp.append (ih hp.reads)

end

end Records

end Binder

open Binder (Records)

mutual

/-- What one statement records: the distances for its marks. -/
theorem Stmt.bind_records : (s : Stmt) → (b : Binder) → (scopes : List (List Text)) → s.Formed →
    Named s.references → b.ThisInClass → Reads b.scopes scopes → Records scopes s.marks b (s.bind b)
  | .expression e, b, _, _, hnamed, hthis, h | .print e, b, _, _, hnamed, hthis, h =>
    .of_finds h (e.bind_finds b hnamed hthis)
  | .returns keyword value, b, _, _, hnamed, hthis, h =>
    have hcheck : Finds [] b (b.checkReturn keyword value.isSome) :=
      .nil (b.checkReturn_alike keyword _) (b.checkReturn_adds keyword _).bindings_eq
    .of_finds h (hcheck.append (Expr.bindOption_finds value hnamed (hthis.alike hcheck.alike)))
  | .branch condition body none, b, scopes, hformed, hnamed, hthis, h
  | .loop condition body, b, scopes, hformed, hnamed, hthis, h =>
    have hboth := Named.append.1 hnamed
    have hfinds := condition.bind_finds b hboth.1 hthis
    have hcondition := Records.of_finds h hfinds
    hcondition.append
      (Stmt.bind_records body _ _ hformed.2 hboth.2 (hthis.alike hfinds.alike) hcondition.reads)
  | .branch condition yes (some no), b, scopes, hformed, hnamed, hthis, h =>
    have hall := Named.append.1 hnamed
    have hfirst := Named.append.1 hall.1
    have hfinds := condition.bind_finds b hfirst.1 hthis
    have hcondition := Records.of_finds h hfinds
    have hinside := hthis.alike hfinds.alike
    have hyes := Stmt.bind_records yes _ _ hformed.1.2 hfirst.2 hinside hcondition.reads
    hcondition.append (hyes.append
      (Stmt.bind_records no _ _ hformed.2.2 hall.2 (ThisInClass.steady.stmt hinside hformed.1.2) hyes.reads))
  | .block body, b, scopes, hformed, hnamed, hthis, h =>
    have henter := Records.enter h
    have hbody := Stmt.bindAll_records body _ _ hformed hnamed hthis.enter henter.reads
    henter.append (hbody.append (.leave hbody.reads rfl rfl))
  | .variable name initializer, b, scopes, hformed, hnamed, hthis, h => by
    have hdeclare : Records scopes [.declares name.lexeme] b (b.declare name) :=
      .mark h (b.declare_scopes name) (b.declare_adds name).bindings_eq
    have hfinds := Expr.bindOption_finds initializer hnamed
      (hthis.mark hformed (b.declare_scopes name) (b.declare_within name).inClass)
    obtain ⟨added, hadded, hperm⟩ := (hdeclare.append (.of_finds hdeclare.reads hfinds)).bindings
    have hdefine : Binder.Adds [] (Expr.bindOption initializer (b.declare name)) _ := Binder.define_adds _ name
    refine ⟨?_, added, hdefine.bindings_eq.trans hadded, hperm⟩
    -- The name has been in its scope since the declaration.
    rw [Stmt.bind, Binder.define_scopes, hfinds.alike.scopes, b.declare_scopes, markInner_markInner, Stmt.marks,
      List.foldl_append, Mark.step_ofReferences]
    exact h.mark name.lexeme true
  | .routine r, b, scopes, hformed, hnamed, hthis, h =>
    have hname := Records.declared h r.name
    hname.append (Routine.bind_records r .function _ _ hformed hnamed
      (ThisInClass.steady.declared hthis hformed.plain_name) hname.reads)
  | .classOf name none methods, b, scopes, hformed, hnamed, _, h =>
    have hname : Records scopes [.declares name.lexeme] b (b.nameClass name) :=
      .mark h (b.nameClass_scopes name) (b.nameClass_adds name).bindings_eq
    have hopen := Records.enterName hname.reads thisName
    have hinside : (b.openClass name).ThisInClass := fun houtside =>
      absurd ((b.nameClass_inClass name).symm.trans houtside) nofun
    have hmethods := Routine.bindMethods_records methods (b.openClass name) _ hformed.2 hnamed hinside hopen.reads
    hname.append (hopen.append (hmethods.append (.leave hmethods.reads rfl rfl)))
  | .classOf name (some superclass) methods, b, scopes, hformed, hnamed, _, h =>
    have hname : Records scopes [.declares name.lexeme] b (b.derive name superclass) :=
      .mark h ((b.derive_scopes name superclass).trans (b.nameClass_scopes name))
        (b.derive_adds name superclass).bindings_eq
    have hsuper := Records.of_finds hname.reads ((b.derive name superclass).bindVariable_finds superclass)
    have houter := Records.enterName hsuper.reads superName
    have hopen := Records.enterName houter.reads thisName
    have hinside : (b.openDerived name superclass).ThisInClass := fun houtside =>
      absurd (((b.derive name superclass).bindVariable_alike superclass).inClass.symm.trans houtside) nofun
    have hmethods := Routine.bindMethods_records methods (b.openDerived name superclass) _ hformed.2
      (List.forall_mem_cons.1 hnamed).2 hinside hopen.reads
    have hinner : Records _ [.closes] _ (Routine.bindMethods methods (b.openDerived name superclass)).leave :=
      .leave hmethods.reads rfl rfl
    hname.append (hsuper.append (houter.append (hopen.append (hmethods.append
      (hinner.append (.leave hinner.reads rfl rfl))))))

/-- The walk over a routine records what its marks tell. -/
theorem Routine.bind_records : (r : Routine) → (context : RoutineContext) → (b : Binder) →
    (scopes : List (List Text)) → r.Formed → Named r.references → b.ThisInClass → Reads b.scopes scopes →
    Records scopes r.marks b (r.bind context b)
  | .mk _ params body, context, b, scopes, hformed, hnamed, hthis, h => by
    have hinside : ({ b with inRoutine := context } : Binder).ThisInClass := hthis
    have henter : Records scopes [.opens] b (({ b with inRoutine := context } : Binder).enter .empty) :=
      .of_reads h.enter rfl rfl
    have hparams := Records.params henter.reads params
    have hbody := Stmt.bindAll_records body _ _ hformed.2.2 hnamed
      (ThisInClass.steady.params hinside.enter hformed.2.1) hparams.reads
    exact henter.append (hparams.append (hbody.append (.leave hbody.reads rfl rfl)))

theorem Stmt.bindAll_records : (ss : List Stmt) → (b : Binder) → (scopes : List (List Text)) →
    Stmt.FormedAll ss → Named (Stmt.referencesOfAll ss) → b.ThisInClass → Reads b.scopes scopes →
    Records scopes (Stmt.marksAll ss) b (Stmt.bindAll ss b)
  | [], _, _, _, _, _, h => .of_reads h rfl rfl
  | s :: rest, b, _, hformed, hnamed, hthis, h =>
    have hboth := Named.append.1 hnamed
    have hs := Stmt.bind_records s b _ hformed.1 hboth.1 hthis h
    hs.append (Stmt.bindAll_records rest _ _ hformed.2 hboth.2 (ThisInClass.steady.stmt hthis hformed.1) hs.reads)

/-- The walk over methods records what their marks tell. -/
theorem Routine.bindMethods_records : (rs : List Routine) → (b : Binder) → (scopes : List (List Text)) →
    Routine.FormedAll rs → Named (Routine.referencesOfAll rs) → b.ThisInClass → Reads b.scopes scopes →
    Records scopes (Routine.marksAll rs) b (Routine.bindMethods rs b)
  | [], _, _, _, _, _, h => .of_reads h rfl rfl
  | r :: rest, b, _, hformed, hnamed, hthis, h =>
    have hboth := Named.append.1 hnamed
    have hr := Routine.bind_records r (methodContext r.name) b _ hformed.1 hboth.1 hthis h
    have halike := r.bind_alike (methodContext r.name) b
    hr.append (Routine.bindMethods_records rest _ _ hformed.2 hboth.2 (hthis.alike halike) hr.reads)

end

/-! ## Names declared at the top -/

/-- A statement that declares another name. -/
def Stmt.retitle (f : Token → Token) : Stmt → Stmt
  | .variable name initializer => .variable (f name) initializer
  | .routine (.mk name params body) => .routine (.mk (f name) params body)
  | .classOf name superclass methods => .classOf (f name) superclass methods
  | s => s

namespace Binder

variable {b b' : Binder}

/-- The same point of the walk, up to the misuses found so far. -/
def SameButErrors (b b' : Binder) : Prop := { b with errors := [] } = { b' with errors := [] }

theorem SameButErrors.bindings_eq (h : SameButErrors b b') : b.bindings = b'.bindings := by
  obtain ⟨-, -, -, hbindings, -, -⟩ := Binder.mk.inj h
  exact hbindings

/-- What only adds to the misuses found before does not depend on them. -/
theorem SameButErrors.map (h : SameButErrors b b') {F : Binder → Binder}
    (hF : ∀ (b : Binder) bindings errors, F (b.atop bindings errors) = (F b).atop bindings errors) :
    SameButErrors (F b) (F b') := by
  have hatop (b : Binder) : b = ({ b with errors := [] } : Binder).atop [] b.errors := by
    rw [atop, List.append_nil, List.nil_append]
  have herase (b : Binder) errors : ({ b.atop [] errors with errors := [] } : Binder) = { b with errors := [] } := by
    rw [atop, List.append_nil]
  have hmap (b : Binder) : ({ F b with errors := [] } : Binder) = { F { b with errors := [] } with errors := [] } := by
    conv => lhs; rw [hatop b, hF, herase]
  rw [SameButErrors, hmap b, hmap b', h]

theorem nameClass_top (h : b.scopes = []) (name : Token) : b.nameClass name = { b with inClass := .plain } := by
  have hscopes : ({ b with inClass := .plain } : Binder).scopes = [] := h
  rw [nameClass, declare_nil hscopes, define_nil hscopes]

end Binder

open Binder (SameButErrors)

/-- At the top the name that a statement declares plays no part, except for the misuses. -/
theorem Stmt.bind_retitle (f : Token → Token) (s : Stmt) {b : Binder} (h : b.scopes = []) :
    SameButErrors ((s.retitle f).bind b) (s.bind b) := by
  cases s with
  | «variable» name initializer =>
    have hinit := Expr.bindOption_alike initializer b
    rw [Stmt.retitle, Stmt.bind, Stmt.bind, Binder.declare_nil h, Binder.declare_nil h,
      Binder.define_nil (hinit.scopes.trans h), Binder.define_nil (hinit.scopes.trans h)]
    rfl
  | routine r =>
    obtain ⟨name, params, body⟩ := r
    rw [Stmt.retitle, Stmt.bind, Stmt.bind, Binder.declare_nil h, Binder.declare_nil h, Binder.define_nil h,
      Binder.define_nil h]
    rfl
  | classOf name superclass methods =>
    have hname := (b.nameClass_top h (f name)).trans (b.nameClass_top h name).symm
    cases superclass with
    | none =>
      have hopen : b.openClass (f name) = b.openClass name := congrArg (Binder.enterWith · _) hname
      have hmethods := congrArg (Routine.bindMethods methods) hopen
      exact congrArg (fun c : Binder => ({ c.leave with inClass := b.inClass, errors := [] } : Binder)) hmethods
    | some superclass =>
      have hderive : SameButErrors (b.derive (f name) superclass) (b.derive name superclass) := by
        unfold SameButErrors Binder.derive Binder.checkSuperclass
        rw [hname]
        split <;> split <;> rfl
      have hsuper := hderive.map (F := (·.bindVariable superclass)) fun b bindings errors =>
        b.bindVariable_atop bindings errors superclass
      have hopen : SameButErrors (b.openDerived (f name) superclass) (b.openDerived name superclass) :=
        congrArg (fun c : Binder => (c.enterWith superName).enterWith thisName) hsuper
      have hmethods := hopen.map fun b bindings errors => Routine.bindMethods_atop bindings errors methods b
      exact congrArg (fun c : Binder => ({ c.leave.leave with inClass := b.inClass } : Binder)) hmethods
  | _ => rfl

/-- At the top the names of declarations make no difference but in what is reported. -/
theorem Stmt.bindAll_retitle (f : Token → Token) {ss : List Stmt} (hss : Stmt.FormedAll ss) {b b' : Binder}
    (hb : b.scopes = []) (hsame : SameButErrors b' b) :
    SameButErrors (Stmt.bindAll (ss.map (Stmt.retitle f)) b') (Stmt.bindAll ss b) := by
  induction ss generalizing b b' with
  | nil => exact hsame
  | cons s rest ih =>
    have hs : Stmt.FormedAll [s] := ⟨hss.1, trivial⟩
    have halike := Stmt.bindAll_alike_of_top hs hb
    have hmap := hsame.map fun b bindings errors => (s.retitle f).bind_atop bindings errors b
    exact ih hss.2 (halike.scopes.trans hb) (hmap.trans (s.bind_retitle f hb))

/-! ## The distances of a program -/

/-- Binding a program records the distances for its marks. -/
theorem Bound.bindings_perm {program : Program} (hformed : Stmt.FormedAll program)
    (hnamed : Named (Stmt.referencesOfAll program)) :
    (Bound.ofProgram program).bindings.Perm (Mark.distances [] (Stmt.marksAll program)) := by
  have hrecords := Stmt.bindAll_records program .start [] hformed hnamed (fun _ => rfl) .nil
  obtain ⟨added, hadded, hperm⟩ := hrecords.bindings
  have hbindings : (Bound.ofProgram program).bindings = added.reverse := by
    rw [Bound.ofProgram, hadded]
    exact congrArg List.reverse (List.append_nil added)
  rw [hbindings]
  exact added.reverse_perm.trans hperm

namespace Mark

variable {marks : List Mark} {scopes : List (List Text)}

/-- References at different sites are at different positions. -/
theorem position_unique (hnodup : ((marks.filterMap reference?).map (·.2.site)).Nodup) {i j : Nat}
    {usage usage' : Usage} {ref ref' : Reference} (hi : marks[i]? = some (.refers usage ref))
    (hj : marks[j]? = some (.refers usage' ref')) (hsite : ref.site = ref'.site) : i = j := by
  rw [List.Nodup, List.pairwise_map, List.pairwise_filterMap] at hnodup
  have hapart := List.pairwise_iff_getElem.1 hnodup
  obtain ⟨hi', hi⟩ := List.getElem?_eq_some_iff.1 hi
  obtain ⟨hj', hj⟩ := List.getElem?_eq_some_iff.1 hj
  rcases Nat.lt_trichotomy i j with hlt | heq | hgt
  · exact absurd hsite (hapart i j hi' hj' hlt (usage, ref) (by rw [hi]; rfl) (usage', ref') (by rw [hj]; rfl))
  · exact heq
  · exact absurd hsite.symm (hapart j i hj' hi' hgt (usage', ref') (by rw [hj]; rfl) (usage, ref) (by rw [hi]; rfl))

theorem distance?_eq_some {m : Mark} {p : Site × Nat} (h : m.distance? scopes = some p) :
    ∃ usage ref, m = .refers usage ref ∧ ref.site = p.1 ∧
      scopes.findIdx? (·.contains ref.name) = some p.2 := by
  cases m with
  | refers usage ref =>
    obtain ⟨d, hd, rfl⟩ := Option.map_eq_some_iff.1 h
    exact ⟨usage, ref, rfl, rfl, hd⟩
  | opens | closes | declares => cases h

/-- What is recorded for a reference is its lexical distance. -/
theorem mem_distances_iff (hnodup : ((marks.filterMap reference?).map (·.2.site)).Nodup) {i : Nat}
    {usage : Usage} {ref : Reference} (hi : marks[i]? = some (.refers usage ref)) (d : Nat) :
    (ref.site, d) ∈ distances [] marks ↔ Lexical (marks.take i) ref.name d := by
  rw [mem_distances, lexical_iff_findIdx?]
  constructor
  · rintro ⟨j, m, hj, hd⟩
    obtain ⟨usage', ref', rfl, hsite, hfound⟩ := distance?_eq_some hd
    obtain rfl := position_unique hnodup hi hj hsite.symm
    rw [hi] at hj
    cases hj
    exact hfound
  · intro hd
    exact ⟨i, _, hi, by rw [distance?, hd]; rfl⟩

/-- A distance is recorded for a reference, and for each once at most. -/
theorem distances_sublist (scopes : List (List Text)) (marks : List Mark) :
    ((distances scopes marks).map (·.1)).Sublist ((marks.filterMap reference?).map (·.2.site)) := by
  induction marks generalizing scopes with
  | nil => exact .slnil
  | cons m marks ih =>
    cases m with
    | refers usage ref =>
      have hreference : reference? (.refers usage ref) = some (usage, ref) := rfl
      rw [distances, distance?, List.filterMap_cons_some hreference, List.map_cons]
      cases scopes.findIdx? (·.contains ref.name) with
      | none => exact .cons _ (ih _)
      | some d => exact .cons_cons _ (ih _)
    | opens | closes | declares => exact ih _

end Mark

/-- Binding a program that was read, with or without errors, records for each reference its lexical distance: the
number of scopes around it that open after the nearest one in which the name is declared before it, if there is such a
scope, and nothing if there is none. There are no other records, and no two for one reference. The names that are declared
at the top could be any others: what is recorded would be the same. -/
theorem Reading.records_lexical (site : Site) (source : Text) :
    let program := (Reading.ofSource site source).program
    let bindings := (Bound.ofProgram program).bindings
    (Stmt.marksAll program).filterMap Mark.reference? = Stmt.referencesOfAll program ∧
    (∀ (i : Nat) usage ref, (Stmt.marksAll program)[i]? = some (.refers usage ref) → ∀ d,
      (ref.site, d) ∈ bindings ↔ Lexical ((Stmt.marksAll program).take i) ref.name d) ∧
    (bindings.map (·.1)).Nodup ∧ (∀ p ∈ bindings, ∃ q ∈ Stmt.referencesOfAll program, q.2.site = p.1) ∧
    ∀ f : Token → Token, (Bound.ofProgram (program.map (Stmt.retitle f))).bindings = bindings := by
  intro program bindings
  have hreferences := Stmt.references_marksAll program
  have hlocated := Reading.located site source
  have hformed := Reading.formed site source
  have hnodup : (((Stmt.marksAll program).filterMap Mark.reference?).map (·.2.site)).Nodup := by
    rw [hreferences]
    exact hlocated.nodup
  have hperm := Bound.bindings_perm hformed hlocated.names
  have hsublist := Mark.distances_sublist [] (Stmt.marksAll program)
  refine ⟨hreferences, fun i usage ref hi d => ?_, ?_, fun p hp => ?_, fun f => ?_⟩
  · rw [hperm.mem_iff]
    exact Mark.mem_distances_iff hnodup hi d
  · exact (hperm.map (·.1)).nodup_iff.2 (hnodup.sublist hsublist)
  · have hsite := hsublist.subset (List.mem_map_of_mem (hperm.mem_iff.1 hp))
    rw [hreferences] at hsite
    obtain ⟨q, hq, hsite⟩ := List.mem_map.1 hsite
    exact ⟨q, hq, hsite⟩
  · have hstart : SameButErrors .start .start := rfl
    have hsame := Stmt.bindAll_retitle f hformed rfl hstart
    exact congrArg List.reverse hsame.bindings_eq

/-- The variable that the function prints is that of the block, one scope out. The one that is printed last is not
recorded: what the block declares is out of its sight, and the name at the top does not count. -/
theorem Reading.records_lexical_shadowing :
    (Reading.ofSource 0 shadowingSource).program = shadowingProgram (text "x") ∧
    (17, 1) ∈ (Bound.ofProgram (shadowingProgram (text "x"))).bindings ∧
    ∀ d, (26, d) ∉ (Bound.ofProgram (shadowingProgram (text "x"))).bindings := by
  obtain ⟨-, hlexical, -⟩ := Reading.records_lexical 0 shadowingSource
  rw [shadowingSource_reading] at hlexical ⊢
  refine ⟨rfl, (hlexical 5 .variable ⟨17, ⟨.identifier, text "x", none, 1⟩⟩ rfl 1).2 (by decide +kernel), ?_⟩
  intro d hd
  have hlast := (hlexical 9 .variable ⟨26, ⟨.identifier, text "x", none, 1⟩⟩ rfl d).1 hd
  obtain ⟨q, hq, hopen, -⟩ := hlast
  have hnone : ∀ q < 9, ¬ Mark.Open ((Stmt.marksAll (shadowingProgram (text "x"))).take 9) q := by decide +kernel
  exact hnone q hq hopen

end Lox
