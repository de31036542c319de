import Lox.Proofs.ReferenceSites

/-!
# The walk over a program

Binding a program walks over its parts, the phrases. `Visits` says at which points of the walk, that is
with which scopes open and in which contexts, each phrase is bound.

A walk only adds bindings and misuses (`Adds`), and every binding that a phrase adds is that of one of its
own references. After an expression the same scopes are open as before it (`Alike`), and a statement
changes them at most by the name that it declares (`Stmt.after`).
-/

namespace Lox

/-- Of two values under one name the later one stays. -/
theorem Table.insert_insert {α : Type} (t : Table α) (name : Text) (v w : α) :
    (t.insert name v).insert name w = t.insert name w := by
  obtain ⟨entries⟩ := t
  unfold Table.insert
  congr 1
  induction entries with
  | nil => simp [Table.put]
  | cons e rest ih =>
    obtain ⟨n, u⟩ := e
    by_cases hn : n = name
    · simp [Table.put, hn]
    · simpa [Table.put, hn] using ih

/-- The scopes with a name marked in the innermost one. -/
def markInner (name : Text) (complete : Bool) : List (Table Bool) → List (Table Bool)
  | [] => []
  | scope :: outer => scope.insert name complete :: outer

theorem markInner_markInner (name : Text) (complete complete' : Bool) (scopes : List (Table Bool)) :
    markInner name complete (markInner name complete' scopes) = markInner name complete scopes := by
  cases scopes with
  | nil => rfl
  | cons t outer => rw [markInner, markInner, Table.insert_insert, markInner]

theorem tail_markInner (name : Text) (complete : Bool) (scopes : List (Table Bool)) :
    (markInner name complete scopes).tail = scopes.tail := by
  cases scopes <;> rfl

theorem length_markInner (name : Text) (complete : Bool) (scopes : List (Table Bool)) :
    (markInner name complete scopes).length = scopes.length := by
  cases scopes <;> rfl

namespace Binder

section

variable {b : Binder} {scope : Table Bool} {outer : List (Table Bool)} {ref : Reference}

/-- At the top no name is tracked. -/
theorem declare_nil (h : b.scopes = []) (name : Token) : b.declare name = b := by
  rw [declare, h]
  rfl

theorem define_nil (h : b.scopes = []) (name : Token) : b.define name = b := by
  rw [define, h]
  rfl

theorem declare_cons (h : b.scopes = scope :: outer) (name : Token) :
    b.declare name = { (if scope.has name.lexeme then b.report name .duplicateDeclaration else b) with
      scopes := scope.insert name.lexeme false :: outer } := by
  rw [declare, withLast, h]
  rfl

theorem define_cons (h : b.scopes = scope :: outer) (name : Token) :
    b.define name = { b with scopes := scope.insert name.lexeme true :: outer } := by
  rw [define, withLast, h]
  rfl

/-- A variable whose declaration is not complete in the innermost scope is reported. -/
theorem checkDefined_pos (h : b.scopes.head?.bind (·.get? ref.name) = some false) :
    b.checkDefined ref = b.report ref.token .ownInitializer := by
  cases hscopes : b.scopes with
  | nil => simp [hscopes] at h
  | cons scope outer =>
    rw [hscopes] at h
    rw [checkDefined, withLast, hscopes]
    dsimp only [List.isEmpty_cons]
    rw [if_neg Bool.false_ne_true, show scope.get? ref.name = some false from h]

/-- A variable that is not in its own initializer is no misuse. -/
theorem checkDefined_neg (h : b.scopes.head?.bind (·.get? ref.name) ≠ some false) : b.checkDefined ref = b := by
  cases hscopes : b.scopes with
  | nil =>
    rw [checkDefined, hscopes]
    rfl
  | cons scope outer =>
    rw [hscopes] at h
    rw [checkDefined, withLast, hscopes]
    dsimp only [List.isEmpty_cons]
    rw [if_neg Bool.false_ne_true]
    split
    · next hmark => exact absurd hmark h
    · rfl

theorem leave_underflows {n : Nat} (h : b.scopes.length = n + 1) : b.leave.underflows = b.underflows := by
  rw [leave, List.isEmpty_eq_false_iff.2 (List.ne_nil_of_length_eq_add_one h), if_neg Bool.false_ne_true]

end

/-- The same scopes are open in the same contexts, and none was missing on the way. -/
structure Alike (b b' : Binder) : Prop where
  scopes : b'.scopes = b.scopes
  inClass : b'.inClass = b.inClass
  inRoutine : b'.inRoutine = b.inRoutine
  underflows : b'.underflows = b.underflows

/-- The same scopes are open in the same contexts, up to the names in the innermost scope, and none was missing. -/
structure Within (b b' : Binder) : Prop where
  outer : b'.scopes.tail = b.scopes.tail
  inClass : b'.inClass = b.inClass
  inRoutine : b'.inRoutine = b.inRoutine
  underflows : b'.underflows = b.underflows

variable {b b' b'' : Binder}

namespace Alike

theorem refl (b : Binder) : b.Alike b := ⟨rfl, rfl, rfl, rfl⟩

theorem trans (h : b.Alike b') (h' : b'.Alike b'') : b.Alike b'' :=
  ⟨h'.scopes.trans h.scopes, h'.inClass.trans h.inClass, h'.inRoutine.trans h.inRoutine,
    h'.underflows.trans h.underflows⟩

theorem distance? (h : b.Alike b') (name : Text) : b'.distance? name = b.distance? name := by
  rw [Binder.distance?, Binder.distance?, h.scopes]

end Alike

namespace Within

theorem trans (h : b.Within b') (h' : b'.Within b'') : b.Within b'' :=
  ⟨h'.outer.trans h.outer, h'.inClass.trans h.inClass, h'.inRoutine.trans h.inRoutine,
    h'.underflows.trans h.underflows⟩

end Within

variable (b) (ref : Reference)

theorem report_alike (t : Token) (m : Misuse) : b.Alike (b.report t m) := ⟨rfl, rfl, rfl, rfl⟩

theorem bind_alike : b.Alike (b.bind ref) := by
  unfold bind
  split <;> exact ⟨rfl, rfl, rfl, rfl⟩

theorem checkDefined_alike : b.Alike (b.checkDefined ref) := by
  by_cases h : b.scopes.head?.bind (·.get? ref.name) = some false
  · exact checkDefined_pos h ▸ b.report_alike _ _
  · exact (checkDefined_neg h).symm ▸ .refl b

theorem checkSuper_alike : b.Alike (b.checkSuper ref) := by
  unfold checkSuper
  split <;> exact ⟨rfl, rfl, rfl, rfl⟩

theorem checkReturn_alike (keyword : Token) (hasValue : Bool) : b.Alike (b.checkReturn keyword hasValue) := by
  unfold checkReturn
  split
  · exact ⟨rfl, rfl, rfl, rfl⟩
  · split <;> exact ⟨rfl, rfl, rfl, rfl⟩
  · exact ⟨rfl, rfl, rfl, rfl⟩

variable (name : Token) (superclass : Reference)

theorem checkSuperclass_alike : b.Alike (b.checkSuperclass name superclass) := by
  unfold checkSuperclass
  split <;> exact ⟨rfl, rfl, rfl, rfl⟩

theorem bindVariable_alike : b.Alike (b.bindVariable ref) :=
  (b.checkDefined_alike ref).trans (bind_alike _ ref)

theorem declare_scopes : (b.declare name).scopes = markInner name.lexeme false b.scopes := by
  cases h : b.scopes with
  | nil => rw [declare_nil h, h, markInner]
  | cons => rw [declare_cons h, markInner]

theorem define_scopes : (b.define name).scopes = markInner name.lexeme true b.scopes := by
  cases h : b.scopes with
  | nil => rw [define_nil h, h, markInner]
  | cons => rw [define_cons h, markInner]

theorem declared_scopes : ((b.declare name).define name).scopes = markInner name.lexeme true b.scopes := by
  rw [define_scopes, declare_scopes, markInner_markInner]

theorem declare_within : b.Within (b.declare name) := by
  cases h : b.scopes with
  | nil => exact (declare_nil h name).symm ▸ ⟨rfl, rfl, rfl, rfl⟩
  | cons scope outer =>
    rw [declare_cons h]
    split <;> exact ⟨h ▸ rfl, rfl, rfl, rfl⟩

theorem define_within : b.Within (b.define name) := by
  cases h : b.scopes with
  | nil => exact (define_nil h name).symm ▸ ⟨rfl, rfl, rfl, rfl⟩
  | cons => exact define_cons h name ▸ ⟨h ▸ rfl, rfl, rfl, rfl⟩

theorem define_errors : (b.define name).errors = b.errors := by
  cases h : b.scopes with
  | nil => rw [define_nil h]
  | cons => rw [define_cons h]

/-- The point inside a class declaration where its name is known. -/
def nameClass (b : Binder) (name : Token) : Binder :=
  (({ b with inClass := .plain }).declare name).define name

/-- The point where the methods of a class without a superclass are bound. -/
def openClass (b : Binder) (name : Token) : Binder :=
  (b.nameClass name).enterWith thisName

/-- The point where the superclass of a class is bound. -/
def derive (b : Binder) (name : Token) (superclass : Reference) : Binder :=
  { (b.nameClass name).checkSuperclass name superclass with inClass := .derived }

/-- The point where the methods of a class with a superclass are bound. -/
def openDerived (b : Binder) (name : Token) (superclass : Reference) : Binder :=
  (((b.derive name superclass).bindVariable superclass).enterWith superName).enterWith thisName

theorem nameClass_scopes : (b.nameClass name).scopes = markInner name.lexeme true b.scopes := by
  rw [nameClass, declared_scopes]

theorem nameClass_inClass : (b.nameClass name).inClass = .plain := by
  rw [nameClass, (define_within _ name).inClass, (declare_within _ name).inClass]

theorem nameClass_inRoutine : (b.nameClass name).inRoutine = b.inRoutine := by
  rw [nameClass, (define_within _ name).inRoutine, (declare_within _ name).inRoutine]

theorem nameClass_underflows : (b.nameClass name).underflows = b.underflows := by
  rw [nameClass, (define_within _ name).underflows, (declare_within _ name).underflows]

theorem derive_scopes : (b.derive name superclass).scopes = (b.nameClass name).scopes :=
  (checkSuperclass_alike _ name superclass).scopes

theorem derive_inRoutine : (b.derive name superclass).inRoutine = b.inRoutine :=
  (checkSuperclass_alike _ name superclass).inRoutine.trans (b.nameClass_inRoutine name)

end Binder

mutual

/-- Binding an expression leaves the scopes as they are. -/
theorem Expr.bind_alike : (e : Expr) → (b : Binder) → b.Alike (e.bind b)
  | .literal _ _, b => .refl b
  | .grouping _ e, b | .unary _ _ _ e, b | .get _ e _, b => Expr.bind_alike e b
  | .variable ref, b => b.bindVariable_alike ref
  | .assign target value, b => (Expr.bind_alike value b).trans (Binder.bind_alike _ target)
  | .this ref, b => by
    unfold Expr.bind
    split
    · exact b.report_alike _ _
    · exact b.bind_alike ref
  | .super ref _, b => (b.checkSuper_alike ref).trans (Binder.bind_alike _ ref)
  | .binary _ _ _ first second, b | .logical _ _ _ first second, b | .set _ second _ first, b =>
    (Expr.bind_alike first b).trans (Expr.bind_alike second _)
  | .conditional _ condition _ middle _ right, b =>
    ((Expr.bind_alike condition b).trans (Expr.bind_alike middle _)).trans (Expr.bind_alike right _)
  | .call _ callee _ arguments, b =>
    (Expr.bind_alike callee b).trans (Expr.bindAll_alike arguments _)

theorem Expr.bindAll_alike : (es : List Expr) → (b : Binder) → b.Alike (Expr.bindAll es b)
  | [], b => .refl b
  | e :: rest, b => (Expr.bind_alike e b).trans (Expr.bindAll_alike rest _)

end

theorem Expr.bindOption_alike (e : Option Expr) (b : Binder) : b.Alike (Expr.bindOption e b) := by
  cases e with
  | none => exact .refl b
  | some e => exact e.bind_alike b

/-- The names that a statement declares in the scope where it stands: its own, or those of its branches. -/
def Stmt.declaredHere : Stmt → List Token
  | .branch _ yes none => yes.declaredHere
  | .branch _ yes (some no) => yes.declaredHere ++ no.declaredHere
  | .loop _ body => body.declaredHere
  | .variable name _ => [name]
  | .routine r => [r.name]
  | .classOf name _ _ => [name]
  | _ => []

/-- The scopes with names marked as complete in the innermost one. -/
def markAll (names : List Token) (scopes : List (Table Bool)) : List (Table Bool) :=
  names.foldl (fun scopes t => markInner t.lexeme true scopes) scopes

theorem tail_markAll (names : List Token) (scopes : List (Table Bool)) : (markAll names scopes).tail = scopes.tail := by
  unfold markAll
  induction names generalizing scopes with
  | nil => rfl
  | cons t names ih => rw [List.foldl_cons, ih, tail_markInner]

theorem length_markAll (names : List Token) (scopes : List (Table Bool)) :
    (markAll names scopes).length = scopes.length := by
  unfold markAll
  induction names generalizing scopes with
  | nil => rfl
  | cons t names ih => rw [List.foldl_cons, ih, length_markInner]

/-- Names that are marked become complete in the innermost scope, and nothing else changes. -/
theorem exists_markAll (names : List Token) (scope : Table Bool) (outer : List (Table Bool)) :
    ∃ scope', markAll names (scope :: outer) = scope' :: outer ∧
      (∀ t ∈ names, scope'.get? t.lexeme = some true) ∧
      ∀ name, (∀ t ∈ names, t.lexeme ≠ name) → scope'.get? name = scope.get? name := by
  induction names generalizing scope with
  | nil => exact ⟨scope, rfl, List.forall_mem_nil _, fun _ _ => rfl⟩
  | cons t names ih =>
    obtain ⟨scope', hscope', hmarked, hkept⟩ := ih (scope.insert t.lexeme true)
    refine ⟨scope', hscope', List.forall_mem_cons.2 ⟨?_, hmarked⟩, fun name hname => ?_⟩
    · by_cases hlater : ∃ u ∈ names, u.lexeme = t.lexeme
      · obtain ⟨u, hu, heq⟩ := hlater
        exact heq ▸ hmarked u hu
      · rw [hkept t.lexeme fun u hu heq => hlater ⟨u, hu, heq⟩, Table.get?_insert, if_pos rfl]
    · obtain ⟨ht, hnames⟩ := List.forall_mem_cons.1 hname
      rw [hkept name hnames, Table.get?_insert, if_neg ht.symm]

/-- The same scopes are open in the same contexts, with names marked as complete in the innermost scope, and none was
missing on the way. -/
structure Binder.Marks (names : List Token) (b b' : Binder) : Prop where
  scopes : b'.scopes = markAll names b.scopes
  inClass : b'.inClass = b.inClass
  inRoutine : b'.inRoutine = b.inRoutine
  underflows : b'.underflows = b.underflows

namespace Binder.Marks

variable {names names' : List Token} {b b' b'' : Binder}

theorem of_alike (h : b.Alike b') : Marks [] b b' :=
  ⟨h.scopes, h.inClass, h.inRoutine, h.underflows⟩

theorem trans (h : Marks names b b') (h' : Marks names' b' b'') : Marks (names ++ names') b b'' :=
  ⟨by rw [h'.scopes, h.scopes, markAll, markAll, markAll, List.foldl_append], h'.inClass.trans h.inClass,
    h'.inRoutine.trans h.inRoutine, h'.underflows.trans h.underflows⟩

theorem within (h : Marks names b b') : b.Within b' :=
  ⟨by rw [h.scopes, tail_markAll], h.inClass, h.inRoutine, h.underflows⟩

theorem length_eq (h : Marks names b b') : b'.scopes.length = b.scopes.length := by rw [h.scopes, length_markAll]

end Binder.Marks

theorem Binder.declared_marks (b : Binder) (name : Token) : Marks [name] b ((b.declare name).define name) :=
  have hwithin := (b.declare_within name).trans (define_within _ name)
  ⟨b.declared_scopes name, hwithin.inClass, hwithin.inRoutine, hwithin.underflows⟩

theorem Binder.enterRoutine_marks (b : Binder) (params : List Token) :
    Marks params (b.enter .empty) (b.enterRoutine params) := by
  unfold enterRoutine
  generalize b.enter .empty = b
  induction params generalizing b with
  | nil => exact .of_alike (.refl b)
  | cons p params ih => exact (b.declared_marks p).trans (ih _)

mutual

/-- A statement marks the names that it declares, and leaves everything else as it is. -/
theorem Stmt.bind_marks : (s : Stmt) → (b : Binder) → Binder.Marks s.declaredHere b (s.bind b)
  | .expression e, b | .print e, b => .of_alike (e.bind_alike b)
  | .returns keyword value, b =>
    .of_alike ((b.checkReturn_alike keyword value.isSome).trans (Expr.bindOption_alike value _))
  | .branch condition body none, b | .loop condition body, b =>
    (Binder.Marks.of_alike (condition.bind_alike b)).trans (Stmt.bind_marks body _)
  | .branch condition yes (some no), b =>
    ((Binder.Marks.of_alike (condition.bind_alike b)).trans (Stmt.bind_marks yes _)).trans (Stmt.bind_marks no _)
  | .block body, b =>
    have hmarks := Stmt.bindAll_marks body (b.enter .empty)
    have hbody := hmarks.within
    .of_alike ⟨hbody.outer, hbody.inClass, hbody.inRoutine,
      (Binder.leave_underflows hmarks.length_eq).trans hmarks.underflows⟩
  | .variable name initializer, b => by
    have hdeclare := b.declare_within name
    have hinit := Expr.bindOption_alike initializer (b.declare name)
    have hdefine := Binder.define_within (Expr.bindOption initializer (b.declare name)) name
    refine ⟨?_, ?_, ?_, ?_⟩ <;> unfold Stmt.bind
    · rw [Binder.define_scopes, hinit.scopes, Binder.declare_scopes, markInner_markInner]
      rfl
    · rw [hdefine.inClass, hinit.inClass, hdeclare.inClass]
    · rw [hdefine.inRoutine, hinit.inRoutine, hdeclare.inRoutine]
    · rw [hdefine.underflows, hinit.underflows, hdeclare.underflows]
  | .routine r, b => (b.declared_marks r.name).trans (.of_alike (Routine.bind_alike r .function _))
  | .classOf name none methods, b => by
    have hmethods := Routine.bindMethods_alike methods (b.openClass name)
    refine ⟨?_, rfl, hmethods.inRoutine.trans (b.nameClass_inRoutine name), ?_⟩
    · have hscopes := congrArg List.tail hmethods.scopes
      exact hscopes.trans (b.nameClass_scopes name)
    · have hleave := Binder.leave_underflows (congrArg List.length hmethods.scopes)
      exact (hleave.trans hmethods.underflows).trans (b.nameClass_underflows name)
  | .classOf name (some superclass) methods, b => by
    have hsuper := (b.derive name superclass).bindVariable_alike superclass
    have hmethods := Routine.bindMethods_alike methods (b.openDerived name superclass)
    refine ⟨?_, rfl, ?_, ?_⟩
    · have hscopes := congrArg (fun l => l.tail.tail) hmethods.scopes
      have hopen : (b.openDerived name superclass).scopes.tail.tail = (b.nameClass name).scopes :=
        hsuper.scopes.trans (b.derive_scopes name superclass)
      exact hscopes.trans (hopen.trans (b.nameClass_scopes name))
    · exact hmethods.inRoutine.trans (hsuper.inRoutine.trans (b.derive_inRoutine name superclass))
    · have hleave := Binder.leave_underflows (congrArg List.length hmethods.scopes)
      have houter := Binder.leave_underflows (b := (Routine.bindMethods methods (b.openDerived name superclass)).leave)
        (congrArg (fun scopes => scopes.tail.length) hmethods.scopes)
      have hderive := (Binder.checkSuperclass_alike _ name superclass).underflows.trans (b.nameClass_underflows name)
      exact (houter.trans hleave).trans (hmethods.underflows.trans (hsuper.underflows.trans hderive))

theorem Routine.bind_alike : (r : Routine) → (context : RoutineContext) → (b : Binder) → b.Alike (r.bind context b)
  | .mk _ params body, context, b => by
    have hparams := Binder.enterRoutine_marks { b with inRoutine := context } params
    have hmarks := hparams.trans (Stmt.bindAll_marks body _)
    have hbody := hmarks.within
    exact ⟨hbody.outer, hbody.inClass, rfl, (Binder.leave_underflows hmarks.length_eq).trans hmarks.underflows⟩

theorem Stmt.bindAll_marks : (ss : List Stmt) → (b : Binder) →
    Binder.Marks (ss.flatMap Stmt.declaredHere) b (Stmt.bindAll ss b)
  | [], b => .of_alike (.refl b)
  | s :: rest, b => (Stmt.bind_marks s b).trans (Stmt.bindAll_marks rest _)

theorem Routine.bindMethods_alike : (rs : List Routine) → (b : Binder) → b.Alike (Routine.bindMethods rs b)
  | [], b => .refl b
  | r :: rest, b => (Routine.bind_alike r _ b).trans (Routine.bindMethods_alike rest _)

end

/-- The scopes after a statement: with the name that it declares, if it declares one. -/
def Stmt.scopesAfter (s : Stmt) (scopes : List (Table Bool)) : List (Table Bool) :=
  match s.declared? with
  | none => scopes
  | some name => markInner name.lexeme true scopes

/-- A statement changes the scopes by the name that it declares only. -/
structure Binder.Follows (s : Stmt) (b b' : Binder) : Prop where
  scopes : b'.scopes = s.scopesAfter b.scopes
  inClass : b'.inClass = b.inClass
  inRoutine : b'.inRoutine = b.inRoutine
  underflows : b'.underflows = b.underflows

theorem Binder.Follows.alike {s : Stmt} {b b' : Binder} (h : Follows s b b') (hs : s.declared? = none) : b.Alike b' :=
  ⟨by rw [h.scopes, Stmt.scopesAfter, hs], h.inClass, h.inRoutine, h.underflows⟩

/-- In a tree of the grammar only declarations declare a name. -/
theorem Stmt.Formed.declaredHere_eq : (s : Stmt) → s.Formed → s.declaredHere = s.declared?.toList
  | .expression _, _ | .print _, _ | .returns _ _, _ | .block _, _ => rfl
  | .variable _ _, _ | .routine _, _ | .classOf _ _ _, _ => rfl
  | .branch _ body none, h | .loop _ body, h => by
    rw [declaredHere, declaredHere_eq body h.2, h.1]
    rfl
  | .branch _ yes (some no), h => by
    rw [declaredHere, declaredHere_eq yes h.1.2, declaredHere_eq no h.2.2, h.1.1, h.2.1]
    rfl

theorem Stmt.bind_follows (s : Stmt) (b : Binder) (hs : s.Formed) : Binder.Follows s b (s.bind b) := by
  have hmarks := s.bind_marks b
  refine ⟨?_, hmarks.inClass, hmarks.inRoutine, hmarks.underflows⟩
  rw [hmarks.scopes, Stmt.Formed.declaredHere_eq s hs, Stmt.scopesAfter]
  cases s.declared? <;> rfl

/-- A part of a program that is bound as a whole. -/
inductive Phrase where
  | expr (e : Expr)
  | exprs (es : List Expr)
  | stmt (s : Stmt)
  | stmts (ss : List Stmt)
  | routine (context : RoutineContext) (r : Routine)
  | methods (rs : List Routine)

namespace Phrase

/-- Binds the references in a phrase. -/
def bind : Phrase → Binder → Binder
  | .expr e, b => e.bind b
  | .exprs es, b => Expr.bindAll es b
  | .stmt s, b => s.bind b
  | .stmts ss, b => Stmt.bindAll ss b
  | .routine context r, b => r.bind context b
  | .methods rs, b => Routine.bindMethods rs b

/-- The references in a phrase. -/
def references : Phrase → List (Usage × Reference)
  | .expr e => e.references
  | .exprs es => Expr.referencesOfAll es
  | .stmt s => s.references
  | .stmts ss => Stmt.referencesOfAll ss
  | .routine _ r => r.references
  | .methods rs => Routine.referencesOfAll rs

/-- The expressions in a phrase. -/
def expressions : Phrase → List Expr
  | .expr e => e.parts
  | .exprs es => Expr.partsOfAll es
  | .stmt s => s.expressions
  | .stmts ss => Stmt.expressionsOfAll ss
  | .routine _ r => r.expressions
  | .methods rs => Routine.expressionsOfAll rs

/-- The expression that a phrase itself is, if it is one. -/
def self : Phrase → List Expr
  | .expr e => [e]
  | _ => []

/-- The reference of a phrase itself. -/
def own : Phrase → List (Usage × Reference)
  | .expr (.variable ref) => [(.variable, ref)]
  | .expr (.assign ref _) => [(.assign, ref)]
  | .expr (.this ref) => [(.this, ref)]
  | .expr (.super ref _) => [(.super, ref)]
  | _ => []

/-- The phrases that are bound as parts of a phrase, each with the point of the walk where that
happens, in order. -/
def children : Phrase → Binder → List (Binder × Phrase)
  | .expr (.literal _ _), _ | .expr (.variable _), _ | .expr (.this _), _ | .expr (.super _ _), _ => []
  | .expr (.grouping _ e), b | .expr (.assign _ e), b | .expr (.unary _ _ _ e), b
  | .expr (.get _ e _), b => [(b, .expr e)]
  | .expr (.binary _ _ _ left right), b | .expr (.logical _ _ _ left right), b =>
    [(b, .expr left), (left.bind b, .expr right)]
  | .expr (.conditional _ condition _ middle _ right), b =>
    [(b, .expr condition), (condition.bind b, .expr middle),
      (middle.bind (condition.bind b), .expr right)]
  | .expr (.call _ callee _ arguments), b => [(b, .expr callee), (callee.bind b, .exprs arguments)]
  | .expr (.set _ object _ value), b => [(b, .expr value), (value.bind b, .expr object)]
  | .exprs [], _ => []
  | .exprs (e :: rest), b => [(b, .expr e), (e.bind b, .exprs rest)]
  | .stmt (.expression e), b | .stmt (.print e), b => [(b, .expr e)]
  | .stmt (.returns _ none), _ => []
  | .stmt (.returns keyword (some e)), b => [(b.checkReturn keyword true, .expr e)]
  | .stmt (.branch condition yes none), b => [(b, .expr condition), (condition.bind b, .stmt yes)]
  | .stmt (.branch condition yes (some no)), b =>
    [(b, .expr condition), (condition.bind b, .stmt yes), (yes.bind (condition.bind b), .stmt no)]
  | .stmt (.loop condition body), b => [(b, .expr condition), (condition.bind b, .stmt body)]
  | .stmt (.block body), b => [(b.enter .empty, .stmts body)]
  | .stmt (.variable _ none), _ => []
  | .stmt (.variable name (some e)), b => [(b.declare name, .expr e)]
  | .stmt (.routine r), b => [((b.declare r.name).define r.name, .routine .function r)]
  | .stmt (.classOf name none rs), b => [(b.openClass name, .methods rs)]
  | .stmt (.classOf name (some superclass) rs), b =>
    [(b.derive name superclass, .expr (.variable superclass)),
      (b.openDerived name superclass, .methods rs)]
  | .stmts [], _ => []
  | .stmts (s :: rest), b => [(b, .stmt s), (s.bind b, .stmts rest)]
  | .routine context (.mk _ params body), b =>
    [(({ b with inRoutine := context }).enterRoutine params, .stmts body)]
  | .methods [], _ => []
  | .methods (r :: rest), b =>
    [(b, .routine (methodContext r.name) r), (r.bind (methodContext r.name) b, .methods rest)]

end Phrase

/-- The walk over a program comes to a phrase at a point. -/
inductive Visits (program : Program) : Binder → Phrase → Prop where
  | start : Visits program .start (.stmts program)
  | child {b c : Binder} {n m : Phrase} (h : Visits program b n) (hm : (c, m) ∈ n.children b) :
    Visits program c m

/-- A binder has more bindings than another, all of them at given sites, and maybe more misuses. -/
structure Binder.Adds (sites : List Site) (b b' : Binder) : Prop where
  bindings : ∃ added, b'.bindings = added ++ b.bindings ∧ ∀ p ∈ added, p.1 ∈ sites
  errors : b.errors <:+ b'.errors

namespace Binder

variable {b b' b'' : Binder} {sites sites' : List Site}

namespace Adds

theorem of_eq (h : b'.bindings = b.bindings) (herrors : b.errors <:+ b'.errors) : Adds sites b b' :=
  ⟨⟨[], h, by simp⟩, herrors⟩

theorem refl (b : Binder) : Adds sites b b := of_eq rfl (List.suffix_refl _)

theorem trans (h : Adds sites b b') (h' : Adds sites b' b'') : Adds sites b b'' := by
  obtain ⟨added, hadded, hsites⟩ := h.bindings
  obtain ⟨added', hadded', hsites'⟩ := h'.bindings
  refine ⟨⟨added' ++ added, by rw [hadded', hadded, List.append_assoc], ?_⟩, h.errors.trans h'.errors⟩
  intro p hp
  rcases List.mem_append.1 hp with hp | hp
  · exact hsites' p hp
  · exact hsites p hp

theorem mono (h : Adds sites b b') (hs : sites ⊆ sites') : Adds sites' b b' := by
  obtain ⟨added, hadded, hsites⟩ := h.bindings
  exact ⟨⟨added, hadded, fun p hp => hs (hsites p hp)⟩, h.errors⟩

/-- What is recorded at other sites stays. -/
theorem lookup (h : Adds sites b b') {site : Site} (hs : site ∉ sites) :
    b'.bindings.lookup site = b.bindings.lookup site := by
  obtain ⟨added, hadded, hsites⟩ := h.bindings
  have hnone : added.lookup site = none := by
    rw [List.lookup_eq_none_iff]
    intro p hp
    simp only [bne_iff_ne, ne_eq]
    rintro rfl
    exact hs (hsites p hp)
  rw [hadded, List.lookup_append, hnone, Option.none_or]

end Adds

variable (b) (ref : Reference) (name : Token) (superclass : Reference)

theorem report_adds (t : Token) (m : Misuse) : Adds sites b (b.report t m) :=
  .of_eq rfl (List.suffix_cons _ _)

theorem declare_adds : Adds sites b (b.declare name) := by
  cases h : b.scopes with
  | nil => exact (declare_nil h name).symm ▸ .refl b
  | cons =>
    rw [declare_cons h]
    split
    · exact .of_eq rfl (List.suffix_cons _ _)
    · exact .of_eq rfl (List.suffix_refl _)

theorem define_adds : Adds sites b (b.define name) := by
  cases h : b.scopes with
  | nil => exact (define_nil h name).symm ▸ .refl b
  | cons => exact define_cons h name ▸ .of_eq rfl (List.suffix_refl _)

theorem bind_adds : Adds [ref.site] b (b.bind ref) := by
  unfold bind
  split
  · exact ⟨⟨[_], rfl, by simp⟩, List.suffix_refl _⟩
  · exact .refl b

theorem checkDefined_adds : Adds sites b (b.checkDefined ref) := by
  by_cases h : b.scopes.head?.bind (·.get? ref.name) = some false
  · exact checkDefined_pos h ▸ b.report_adds _ _
  · exact (checkDefined_neg h).symm ▸ .refl b

theorem checkSuper_adds : Adds sites b (b.checkSuper ref) := by
  unfold checkSuper
  split
  · exact b.report_adds _ _
  · exact b.report_adds _ _
  · exact .refl b

/-- The check of a return binds nothing. -/
theorem checkReturn_adds (keyword : Token) (hasValue : Bool) :
    Adds sites b (b.checkReturn keyword hasValue) := by
  unfold checkReturn
  split
  · exact b.report_adds _ _
  · split
    · exact b.report_adds _ _
    · exact .refl b
  · exact .refl b

theorem checkSuperclass_adds : Adds sites b (b.checkSuperclass name superclass) := by
  unfold checkSuperclass
  split
  · exact b.report_adds _ _
  · exact .refl b

theorem bindVariable_adds : Adds [ref.site] b (b.bindVariable ref) :=
  (b.checkDefined_adds ref).trans (bind_adds _ ref)

theorem nameClass_adds : Adds sites b (b.nameClass name) :=
  have hcontext : Adds sites b { b with inClass := .plain } := .of_eq rfl (List.suffix_refl _)
  hcontext.trans ((declare_adds _ name).trans (define_adds _ name))

theorem derive_adds : Adds sites b (b.derive name superclass) :=
  ((b.nameClass_adds name).trans (checkSuperclass_adds _ name superclass)).trans
    (.of_eq rfl (List.suffix_refl _))

theorem enterRoutine_adds (params : List Token) : Adds sites b (b.enterRoutine params) := by
  have henter : Adds sites b (b.enter .empty) := .of_eq rfl (List.suffix_refl _)
  refine henter.trans ?_
  unfold enterRoutine
  generalize b.enter .empty = b
  induction params generalizing b with
  | nil => exact .refl b
  | cons p params ih => exact ((b.declare_adds p).trans (define_adds _ p)).trans (ih _)

end Binder

namespace Phrase

/-- The sites of the references in a phrase. -/
def sites (n : Phrase) : List Site := n.references.map (·.2.site)

/-- Binders that lead from one to another through the binding of phrases: between two phrases nothing is
added, and after the last one at most bindings at given sites. -/
def Threads (own : List Site) : Binder → List (Binder × Phrase) → Binder → Prop
  | b, [], b' => b.Adds own b'
  | b, (c, n) :: rest, b' => b.Adds [] c ∧ Threads own (n.bind c) rest b'

/-- Binding a phrase binds its parts one after the other and then its own reference. -/
theorem threads (n : Phrase) (b : Binder) : Threads (n.own.map (·.2.site)) b (n.children b) (n.bind b) := by
  cases n with
  | expr e =>
    cases e with
    | literal => exact .refl b
    | grouping | unary | get => exact ⟨.refl b, .refl _⟩
    | «variable» ref => exact b.bindVariable_adds ref
    | assign ref value => exact ⟨.refl b, Binder.bind_adds _ ref⟩
    | this ref =>
      unfold bind Expr.bind
      dsimp only
      split
      · exact b.report_adds _ _
      · exact b.bind_adds ref
    | super ref method => exact (b.checkSuper_adds ref).trans (Binder.bind_adds _ ref)
    | binary | logical | call | set => exact ⟨.refl b, .refl _, .refl _⟩
    | conditional => exact ⟨.refl b, .refl _, .refl _, .refl _⟩
  | exprs es =>
    cases es with
    | nil => exact .refl b
    | cons e rest => exact ⟨.refl b, .refl _, .refl _⟩
  | stmt s =>
    cases s with
    | expression | print => exact ⟨.refl b, .refl _⟩
    | returns keyword value =>
      cases value with
      | none => exact b.checkReturn_adds keyword false
      | some e => exact ⟨b.checkReturn_adds keyword true, .refl _⟩
    | branch condition yes no =>
      cases no with
      | none => exact ⟨.refl b, .refl _, .refl _⟩
      | some no => exact ⟨.refl b, .refl _, .refl _, .refl _⟩
    | loop => exact ⟨.refl b, .refl _, .refl _⟩
    | block => exact ⟨.of_eq rfl (List.suffix_refl _), .of_eq rfl (List.suffix_refl _)⟩
    | «variable» name initializer =>
      cases initializer with
      | none => exact (b.declare_adds name).trans (Binder.define_adds _ name)
      | some e => exact ⟨b.declare_adds name, Binder.define_adds _ name⟩
    | routine r =>
      exact ⟨(b.declare_adds r.name).trans (Binder.define_adds _ r.name), .refl _⟩
    | classOf name superclass methods =>
      cases superclass with
      | none =>
        exact ⟨(b.nameClass_adds name).trans (.of_eq rfl (List.suffix_refl _)),
          .of_eq rfl (List.suffix_refl _)⟩
      | some superclass =>
        exact ⟨b.derive_adds name superclass, .of_eq rfl (List.suffix_refl _),
          .of_eq rfl (List.suffix_refl _)⟩
  | stmts ss =>
    cases ss with
    | nil => exact .refl b
    | cons s rest => exact ⟨.refl b, .refl _, .refl _⟩
  | routine context r =>
    obtain ⟨name, params, body⟩ := r
    have hcontext : b.Adds [] { b with inRoutine := context } := .of_eq rfl (List.suffix_refl _)
    exact ⟨hcontext.trans (Binder.enterRoutine_adds _ params), .of_eq rfl (List.suffix_refl _)⟩
  | methods rs =>
    cases rs with
    | nil => exact .refl b
    | cons r rest => exact ⟨.refl b, .refl _, .refl _⟩

/-- The expressions in a phrase are the phrase itself and those in its parts. They are listed in the order of their
tokens, and the parts in the order in which they are bound. -/
theorem expressions_perm (n : Phrase) (b : Binder) :
    n.expressions.Perm (n.self ++ (n.children b).flatMap (·.2.expressions)) := by
  classical
  refine List.perm_iff_count.2 fun e => ?_
  fun_cases children n b <;>
    simp [expressions, self, Expr.parts, Expr.partsOfAll, Stmt.expressions, Stmt.expressionsOfAll,
      Routine.expressions, Routine.expressionsOfAll, List.count_cons] <;> omega

/-- What a function reads from the expressions in a phrase is read from the phrase itself and from its parts. -/
theorem filterMap_perm {α : Type} (f : Expr → Option α) (n : Phrase) (b : Binder) :
    (n.expressions.filterMap f).Perm
      (n.self.filterMap f ++ (n.children b).flatMap (·.2.expressions.filterMap f)) := by
  have h := (n.expressions_perm b).filterMap f
  rwa [List.filterMap_append, List.filterMap_flatMap] at h

/-- The references in a phrase are those of the expressions in it. -/
theorem filterMap_expressions (n : Phrase) : n.expressions.filterMap Expr.reference? = n.references := by
  cases n with
  | expr e => exact e.filterMap_parts
  | exprs es => exact Expr.filterMap_partsOfAll es
  | stmt s =>
    simpa [Stmt.expressionsOfAll, Stmt.referencesOfAll, expressions, references]
      using Stmt.filterMap_expressionsOfAll [s]
  | stmts ss => exact Stmt.filterMap_expressionsOfAll ss
  | routine context r =>
    obtain ⟨name, params, body⟩ := r
    exact Stmt.filterMap_expressionsOfAll body
  | methods rs =>
    induction rs with
    | nil => rfl
    | cons r rs ih =>
      obtain ⟨name, params, body⟩ := r
      exact (List.filterMap_append ..).trans (congrArg₂ (· ++ ·) (Stmt.filterMap_expressionsOfAll body) ih)

theorem filterMap_self (n : Phrase) : n.self.filterMap Expr.reference? = n.own := by
  cases n with
  | expr e => cases e <;> rfl
  | _ => rfl

/-- The references of a phrase are its own and those of its parts. -/
theorem references_perm (n : Phrase) (b : Binder) :
    n.references.Perm (n.own ++ (n.children b).flatMap (·.2.references)) := by
  have h := n.filterMap_perm Expr.reference? b
  simpa only [filterMap_expressions, filterMap_self] using h

/-- The size of the tree of a phrase. -/
noncomputable def size : Phrase → Nat
  | .expr e => sizeOf e
  | .exprs es => sizeOf es
  | .stmt s => sizeOf s
  | .stmts ss => sizeOf ss
  | .routine _ r => sizeOf r
  | .methods rs => sizeOf rs

theorem size_child {n m : Phrase} {b c : Binder} (h : (c, m) ∈ n.children b) : m.size < n.size := by
  fun_cases children n b <;> simp only [children, List.mem_cons, List.not_mem_nil, or_false] at h <;> grind [size]

/-- What holds of a phrase as soon as it holds of its parts holds of every phrase. -/
theorem induction {P : Phrase → Prop}
    (step : ∀ n, (∀ b c m, (c, m) ∈ n.children b → P m) → P n) (n : Phrase) : P n :=
  step n fun _ _ m _ => induction step m
termination_by n.size
decreasing_by exact size_child ‹_›

theorem sites_perm (n : Phrase) (b : Binder) :
    n.sites.Perm (n.own.map (·.2.site) ++ (n.children b).flatMap (·.2.sites)) := by
  have h := (n.references_perm b).map (·.2.site)
  rw [List.map_append, List.map_flatMap] at h
  exact h

theorem sites_eq (n : Phrase) :
    n.sites = n.expressions.filterMap fun e => e.reference?.map (·.2.site) := by
  rw [sites, ← filterMap_expressions, List.map_filterMap]

theorem own_sites_eq (n : Phrase) :
    n.own.map (·.2.site) = n.self.filterMap fun e => e.reference?.map (·.2.site) := by
  rw [← filterMap_self, List.map_filterMap]

theorem own_sites_subset (n : Phrase) : n.own.map (·.2.site) ⊆ n.sites := fun _ h =>
  (n.sites_perm .start).mem_iff.2 (List.mem_append_left _ h)

theorem child_sites_subset {n m : Phrase} {b c : Binder} (h : (c, m) ∈ n.children b) :
    m.sites ⊆ n.sites := fun _ hs =>
  (n.sites_perm b).mem_iff.2 (List.mem_append_right _ (List.mem_flatMap.2 ⟨(c, m), h, hs⟩))

namespace Threads

variable {own sites : List Site} {b b' c : Binder} {m : Phrase} {cs pre post : List (Binder × Phrase)}

theorem adds (h : Threads own b cs b') (hcs : ∀ p ∈ cs, p.1.Adds sites (p.2.bind p.1))
    (hown : own ⊆ sites) : b.Adds sites b' := by
  induction cs generalizing b with
  | nil => exact Binder.Adds.mono h hown
  | cons p cs ih =>
    obtain ⟨hp, hcs⟩ := List.forall_mem_cons.1 hcs
    exact ((h.1.mono (List.nil_subset _)).trans hp).trans (ih h.2 hcs)

theorem before (h : Threads own b (pre ++ (c, m) :: post) b')
    (hpre : ∀ p ∈ pre, p.1.Adds sites (p.2.bind p.1)) : b.Adds sites c := by
  induction pre generalizing b with
  | nil => exact h.1.mono (List.nil_subset _)
  | cons p pre ih =>
    obtain ⟨hp, hpre⟩ := List.forall_mem_cons.1 hpre
    exact ((h.1.mono (List.nil_subset _)).trans hp).trans (ih h.2 hpre)

theorem behind (h : Threads own b (pre ++ (c, m) :: post) b') : Threads own (m.bind c) post b' := by
  induction pre generalizing b with
  | nil => exact h.2
  | cons p pre ih => exact ih h.2

end Threads

/-- Binding a phrase adds bindings at the sites of its references only. -/
theorem adds (n : Phrase) : ∀ b : Binder, b.Adds n.sites (n.bind b) := by
  induction n using Phrase.induction with
  | step n ih =>
    intro b
    refine (n.threads b).adds (fun p hp => ?_) n.own_sites_subset
    exact (ih b p.1 p.2 hp p.1).mono (child_sites_subset hp)

end Phrase

end Lox
