import Lox.Proofs.Verdict

/-!
# The misuses of a program

Whether a name or a keyword is misused depends on where it stands: on the block, routine, class or initializer
around it and, for a declared name, on the names that were declared before it in the same scope. `Spot` is a
place in a program with what stands around it, `Stmt.spots` lists the places of a statement in the order of the
walk, and `Spot.misuse?` is the rule for each kind of place. `Session.reports_misuses` states that binding a
program reports the misuses at its places, all of them, each once and in order, and nothing else.

The walk itself knows nothing of what stands around a place. It keeps a class context, a routine context and the
open scopes. `Binder.Situated` ties the two together: in every scope the names that were declared there are
complete, except for that of the variable whose initializer the walk is in.
-/

namespace Lox

/-! ## Places and their rules -/

/-- What can stand around a place. -/
inductive Enclosure where
  | block
  | function
  | method (name : Token)
  | ofClass (derived : Bool)
  | initializer (name : Token)

/-- The enclosure is a routine. -/
def Enclosure.isRoutine : Enclosure → Bool
  | .function | .method _ => true
  | .block | .ofClass _ | .initializer _ => false

/-- The enclosure has a scope for what is declared in it. -/
def Enclosure.hasScope (e : Enclosure) : Bool :=
  match e with
  | .block => true
  | _ => e.isRoutine

/-- What stands around a place, the innermost first. -/
abbrev Around := List Enclosure

namespace Around

/-- What is declared at the place is not global. -/
def isLocal (around : Around) : Bool := around.any Enclosure.hasScope

/-- The nearest routine. -/
def routine? (around : Around) : Option Enclosure := around.find? Enclosure.isRoutine

/-- Whether the nearest class has a superclass. -/
def derived? (around : Around) : Option Bool :=
  around.findSome? fun
    | .ofClass derived => some derived
    | _ => none

/-- The place is in the initializer of a variable that has a given name and is not global. -/
def initializes (name : Text) : Around → Bool
  | .initializer x :: outer => x.lexeme = name && isLocal outer
  | _ => false

end Around

/-- What can be misused. -/
inductive Use where
  /-- A name is declared, after others in the same scope. -/
  | declaration (name : Token) (earlier : List Text)
  | variable (ref : Reference)
  | this (ref : Reference)
  | super (ref : Reference)
  | returns (keyword : Token) (hasValue : Bool)
  /-- A class has a superclass. -/
  | inherits (name : Token) (superclass : Reference)

/-- A place in a program where something is used. -/
structure Spot where
  use : Use
  around : Around

/-- What is wrong at a place, and the token to blame. -/
def Spot.misuse? (p : Spot) : Option (Token × Misuse) :=
  match p.use with
  | .declaration name earlier =>
    if p.around.isLocal ∧ name.lexeme ∈ earlier then some (name, .duplicateDeclaration) else none
  | .variable ref => if p.around.initializes ref.name then some (ref.token, .ownInitializer) else none
  | .this ref => if p.around.derived? = none then some (ref.token, .thisOutsideClass) else none
  | .super ref =>
    match p.around.derived? with
    | none => some (ref.token, .superOutsideClass)
    | some false => some (ref.token, .superWithoutSuperclass)
    | some true => none
  | .returns keyword hasValue =>
    match p.around.routine? with
    | none => some (keyword, .returnAtTop)
    | some (.method name) =>
      if name.lexeme = initName ∧ hasValue then some (keyword, .returnFromInitializer) else none
    | some _ => none
  | .inherits name superclass =>
    if superclass.name = name.lexeme then some (superclass.token, .inheritsFromItself) else none

mutual

/-- What an expression uses, in the order of the walk: a value that is stored comes before its object. -/
def Expr.uses : Expr → List Use
  | .literal _ _ => []
  | .grouping _ inner => inner.uses
  | .variable ref => [.variable ref]
  | .assign _ value => value.uses
  | .this ref => [.this ref]
  | .super ref _ => [.super ref]
  | .unary _ _ _ operand => operand.uses
  | .binary _ _ _ left right => left.uses ++ right.uses
  | .logical _ _ _ left right => left.uses ++ right.uses
  | .conditional _ condition _ middle _ right => condition.uses ++ (middle.uses ++ right.uses)
  | .call _ callee _ arguments => callee.uses ++ Expr.usesAll arguments
  | .get _ object _ => object.uses
  | .set _ object _ value => value.uses ++ object.uses

def Expr.usesAll : List Expr → List Use
  | [] => []
  | e :: rest => e.uses ++ Expr.usesAll rest

end

/-- The places of an expression: nothing in it encloses another. -/
def Expr.spots (around : Around) (e : Expr) : List Spot := e.uses.map (Spot.mk · around)

/-- The places of an expression that may be absent. -/
def Expr.spotsOption (around : Around) (e : Option Expr) : List Spot :=
  e.toList.flatMap (Expr.spots around)

/-- The names that a statement declares in the scope where it stands. -/
def Stmt.names : Stmt → List Text
  | .branch _ yes none => yes.names
  | .branch _ yes (some no) => yes.names ++ no.names
  | .loop _ body => body.names
  | .variable name _ => [name.lexeme]
  | .routine r => [r.name.lexeme]
  | .classOf name _ _ => [name.lexeme]
  | .expression _ | .print _ | .returns _ _ | .block _ => []

/-- The places of parameters. -/
def paramSpots (around : Around) : List Text → List Token → List Spot
  | _, [] => []
  | earlier, p :: params => ⟨.declaration p earlier, around⟩ :: paramSpots around (earlier ++ [p.lexeme]) params

mutual

/-- The places of a statement, in the order of the walk. Names were declared before it in the same scope. -/
def Stmt.spots (around : Around) (earlier : List Text) : Stmt → List Spot
  | .expression e => e.spots around
  | .print e => e.spots around
  | .returns keyword value => ⟨.returns keyword value.isSome, around⟩ :: Expr.spotsOption around value
  | .branch condition yes none => condition.spots around ++ yes.spots around earlier
  | .branch condition yes (some no) =>
    condition.spots around ++ (yes.spots around earlier ++ no.spots around (earlier ++ yes.names))
  | .loop condition body => condition.spots around ++ body.spots around earlier
  | .block body => Stmt.spotsAll (.block :: around) [] body
  | .variable name initializer =>
    ⟨.declaration name earlier, around⟩ :: Expr.spotsOption (.initializer name :: around) initializer
  | .routine r => ⟨.declaration r.name earlier, around⟩ :: r.spots (.function :: around)
  | .classOf name none methods =>
    ⟨.declaration name earlier, around⟩ :: Routine.spotsMethods (.ofClass false :: around) methods
  | .classOf name (some superclass) methods =>
    ⟨.declaration name earlier, around⟩ :: ⟨.inherits name superclass, around⟩ ::
      ⟨.variable superclass, around⟩ :: Routine.spotsMethods (.ofClass true :: around) methods

/-- The places in a routine: its parameters and its body share a scope. -/
def Routine.spots (around : Around) : Routine → List Spot
  | .mk _ params body =>
    paramSpots around [] params ++ Stmt.spotsAll around (params.map (·.lexeme)) body

def Stmt.spotsAll (around : Around) (earlier : List Text) : List Stmt → List Spot
  | [] => []
  | s :: rest => s.spots around earlier ++ Stmt.spotsAll around (earlier ++ s.names) rest

def Routine.spotsMethods (around : Around) : List Routine → List Spot
  | [] => []
  | m :: rest => m.spots (.method m.name :: around) ++ Routine.spotsMethods around rest

end

/-- The misuses at places, in their order. -/
def misusesAt (spots : List Spot) : List StaticError :=
  (spots.filterMap Spot.misuse?).map fun (t, m) => .ofMisuse t m

/-- The misuses of a program, in the order of the walk. -/
def misuses (program : Program) : List StaticError := misusesAt (Stmt.spotsAll [] [] program)

/-! ## What the walk knows of its surroundings -/

namespace Around

/-- The class context of a place. -/
def classContext (around : Around) : ClassContext :=
  match around.derived? with
  | none => .outside
  | some false => .plain
  | some true => .derived

/-- The routine context of a place. -/
def routineContext (around : Around) : RoutineContext :=
  match around.routine? with
  | none => .outside
  | some (.method name) => methodContext name
  | some _ => .function

/-- A scope is open exactly where declarations are local, and the innermost one has the names that were declared
in it, all complete. -/
def Scoped (around : Around) (earlier : List Text) : List (Table Bool) → Prop
  | [] => around.isLocal = false
  | scope :: _ => around.isLocal = true ∧
    ∀ name, scope.get? name = if name ∈ earlier then some true else none

/-- The innermost scope has a name that is not complete exactly in the initializer of its variable. -/
def Awaits (around : Around) (scopes : List (Table Bool)) : Prop :=
  ∀ name, scopes.head?.bind (·.get? name) = some false ↔ around.initializes name = true

variable {around : Around} {earlier : List Text} {scopes : List (Table Bool)}

/-- Outside of initializers all names are complete. -/
theorem Scoped.awaits (h : around.Scoped earlier scopes) (hplain : ∀ name, around.initializes name = false) :
    around.Awaits scopes := by
  intro name
  refine iff_of_false ?_ (Bool.eq_false_iff.1 (hplain name))
  cases scopes with
  | nil => exact nofun
  | cons scope outer =>
    rw [List.head?_cons, Option.bind_some, h.2 name]
    split <;> exact nofun

/-- A declared name is not complete until its initializer is done. -/
theorem Scoped.awaits_initializer (h : around.Scoped earlier scopes) (x : Token) :
    Awaits (.initializer x :: around) (markInner x.lexeme false scopes) := by
  intro name
  rw [initializes, Bool.and_eq_true, decide_eq_true_iff]
  cases scopes with
  | nil =>
    -- Among the globals nothing is tracked.
    refine iff_of_false (by simp [markInner]) fun hlocal => ?_
    rw [show around.isLocal = false from h] at hlocal
    exact Bool.false_ne_true hlocal.2
  | cons scope outer =>
    rw [markInner, List.head?_cons, Option.bind_some, Table.get?_insert, h.2 name]
    by_cases hname : name = x.lexeme
    · rw [if_pos hname]
      exact iff_of_true rfl ⟨hname.symm, h.1⟩
    · rw [if_neg hname]
      refine iff_of_false ?_ fun hlocal => hname hlocal.1.symm
      split <;> simp

/-- A declaration adds its name to those that were declared in the scope. -/
theorem Scoped.mark (h : around.Scoped earlier scopes) (name : Text) :
    around.Scoped (earlier ++ [name]) (markInner name true scopes) := by
  cases scopes with
  | nil => exact h
  | cons scope outer =>
    refine ⟨h.1, fun other => ?_⟩
    rw [Table.get?_insert, h.2 other]
    by_cases hother : other = name
    · rw [if_pos hother, if_pos (by rw [hother]; exact List.mem_append_right _ (.head _))]
    · rw [if_neg hother]
      simp only [List.mem_append, List.mem_singleton, hother, or_false]

/-- Parameters add their names to those that were declared in the scope. -/
theorem Scoped.markAll (h : around.Scoped earlier scopes) (names : List Token) :
    around.Scoped (earlier ++ names.map (·.lexeme)) (markAll names scopes) := by
  induction names generalizing earlier scopes with
  | nil =>
    rw [List.map_nil, List.append_nil]
    exact h
  | cons t names ih =>
    rw [List.map_cons, List.append_cons]
    exact ih (h.mark t.lexeme)

end Around

namespace Binder

variable {b b' b'' : Binder} {around : Around} {earlier : List Text} {spots spots' : List Spot}

/-- Between two points of the walk the misuses at some places are reported, and nothing else. -/
def Reports (spots : List Spot) (b b' : Binder) : Prop := b'.errors = (misusesAt spots).reverse ++ b.errors

namespace Reports

theorem nil (h : b'.errors = b.errors) : Reports [] b b' := h

theorem append (h : Reports spots b b') (h' : Reports spots' b' b'') : Reports (spots ++ spots') b b'' := by
  unfold Reports misusesAt at *
  rw [h', h, List.filterMap_append, List.map_append, List.reverse_append, List.append_assoc]

theorem cons {p : Spot} (h : Reports [p] b b') (h' : Reports spots b' b'') : Reports (p :: spots) b b'' :=
  h.append h'

theorem of_none {p : Spot} (hp : p.misuse? = none) (h : b'.errors = b.errors) : Reports [p] b b' := by
  rw [Reports, misusesAt, List.filterMap_cons_none hp]
  exact h

theorem of_some {p : Spot} {t : Token} {m : Misuse} (hp : p.misuse? = some (t, m))
    (h : b'.errors = .ofMisuse t m :: b.errors) : Reports [p] b b' := by
  rw [Reports, misusesAt, List.filterMap_cons_some hp]
  exact h

theorem keep (h : Reports spots b b') (h' : b''.errors = b'.errors) : Reports spots b b'' := h'.trans h

end Reports

theorem bind_errors (b : Binder) (ref : Reference) : (b.bind ref).errors = b.errors := by
  unfold bind
  split <;> rfl

/-! ## One rule at a time -/

/-- A declaration is reported as the names before it tell. -/
theorem declare_reports (h : around.Scoped earlier b.scopes) (name : Token) :
    Reports [⟨.declaration name earlier, around⟩] b (b.declare name) := by
  cases hscopes : b.scopes with
  | nil =>
    rw [hscopes] at h
    rw [declare_nil hscopes]
    exact .of_none (if_neg fun hlocal => Bool.eq_false_iff.1 h hlocal.1) rfl
  | cons scope outer =>
    rw [hscopes] at h
    rw [declare_cons hscopes]
    have hhas : scope.has name.lexeme = true ↔ name.lexeme ∈ earlier := by
      rw [Table.has, h.2]
      split
      · next hmem => exact iff_of_true rfl hmem
      · next hmem => exact iff_of_false (by simp) hmem
    by_cases hmem : name.lexeme ∈ earlier
    · rw [if_pos (hhas.2 hmem)]
      exact .of_some (if_pos ⟨h.1, hmem⟩) rfl
    · rw [if_neg (mt hhas.1 hmem)]
      exact .of_none (if_neg fun hlocal => hmem hlocal.2) rfl

theorem bindVariable_reports (h : around.Awaits b.scopes) (ref : Reference) :
    Reports [⟨.variable ref, around⟩] b (b.bindVariable ref) := by
  unfold bindVariable
  by_cases hawaits : b.scopes.head?.bind (·.get? ref.name) = some false
  · rw [checkDefined_pos hawaits]
    exact .of_some (if_pos ((h ref.name).1 hawaits)) (bind_errors _ ref)
  · rw [checkDefined_neg hawaits]
    exact .of_none (if_neg (mt (h ref.name).2 hawaits)) (bind_errors _ ref)

/-- The use of `super` is reported as the class around it tells. -/
theorem checkSuper_reports (h : b.inClass = around.classContext) (ref : Reference) :
    Reports [⟨.super ref, around⟩] b (b.checkSuper ref) := by
  unfold checkSuper
  rw [h, Around.classContext]
  cases hderived : around.derived? with
  | none => exact .of_some (by simp only [Spot.misuse?, hderived]) rfl
  | some derived =>
    cases derived with
    | false => exact .of_some (by simp only [Spot.misuse?, hderived]) rfl
    | true => exact .of_none (by simp only [Spot.misuse?, hderived]) rfl

/-- The use of `this` is reported as the class around it tells. -/
theorem this_reports (h : b.inClass = around.classContext) (ref : Reference) :
    Reports [⟨.this ref, around⟩] b ((Expr.this ref).bind b) := by
  have houtside : b.inClass = .outside ↔ around.derived? = none := by
    rw [h, Around.classContext]
    cases around.derived? with
    | none => exact iff_of_true rfl rfl
    | some derived => cases derived <;> exact iff_of_false nofun nofun
  rw [Expr.bind]
  split
  · next hclass => exact .of_some (if_pos (houtside.1 hclass)) rfl
  · next hclass => exact .of_none (if_neg (mt houtside.2 hclass)) (b.bind_errors ref)

/-- A return is reported as the routine around it tells. -/
theorem checkReturn_reports (h : b.inRoutine = around.routineContext) (keyword : Token) (hasValue : Bool) :
    Reports [⟨.returns keyword hasValue, around⟩] b (b.checkReturn keyword hasValue) := by
  unfold checkReturn
  rw [h, Around.routineContext]
  cases hroutine : around.routine? with
  | none => exact .of_some (by simp only [Spot.misuse?, hroutine]) rfl
  | some e =>
    cases e with
    | method name =>
      -- Only a method with the name of an initializer has a rule about its values.
      by_cases hname : name.lexeme = initName
      · cases hasValue with
        | false => exact .of_none (by simp [Spot.misuse?, hroutine]) (by simp [methodContext, hname])
        | true =>
          have hmisuse : Spot.misuse? ⟨.returns keyword true, around⟩ = some (keyword, .returnFromInitializer) := by
            simp only [Spot.misuse?, hroutine, hname, and_self, if_true]
          exact .of_some hmisuse (by simp [methodContext, hname, report])
      · exact .of_none (by simp [Spot.misuse?, hroutine, hname]) (by simp [methodContext, hname])
    | _ => exact .of_none (by simp only [Spot.misuse?, hroutine]) rfl

theorem checkSuperclass_reports (b : Binder) (around : Around) (name : Token) (superclass : Reference) :
    Reports [⟨.inherits name superclass, around⟩] b (b.checkSuperclass name superclass) := by
  unfold checkSuperclass
  split
  · next h => exact .of_some (if_pos h) rfl
  · next h => exact .of_none (if_neg h) rfl

/-! ## Expressions -/

/-- What the walk over an expression needs to know. -/
structure Knows (around : Around) (b : Binder) : Prop where
  inClass : b.inClass = around.classContext
  awaits : around.Awaits b.scopes

theorem Knows.alike (h : Knows around b) (h' : b.Alike b') : Knows around b' :=
  ⟨h'.inClass.trans h.inClass, h'.scopes ▸ h.awaits⟩

end Binder

open Binder (Reports Knows)

section Expressions

variable {around : Around}

/-- The walk over an expression reports the misuses in it. -/
theorem Expr.bind_reports (e : Expr) (b : Binder) (h : Knows around b) :
    Reports (e.uses.map (Spot.mk · around)) b (e.bind b) := by
  induction e using @Expr.rec _ (fun es => ∀ b, Knows around b →
    Reports ((usesAll es).map (Spot.mk · around)) b (bindAll es b)) generalizing b with
  | literal | nil => exact .nil rfl
  | grouping _ _ ih | unary _ _ _ _ ih | get _ _ _ ih => exact ih b h
  | «variable» ref => exact b.bindVariable_reports h.awaits ref
  | assign target _ ih => exact (ih b h).keep (Binder.bind_errors _ target)
  | this ref => exact b.this_reports h.inClass ref
  | super ref => exact (b.checkSuper_reports h.inClass ref).keep (Binder.bind_errors _ ref)
  | binary _ _ _ first _ ih ih' | logical _ _ _ first _ ih ih' | call _ first _ _ ih ih' | set _ _ _ first ih' ih =>
    rw [uses, List.map_append]
    exact (ih b h).append (ih' _ (h.alike (first.bind_alike b)))
  | conditional _ condition _ middle _ _ ih ihmiddle ihright =>
    have hmiddle := h.alike (condition.bind_alike b)
    have hright := hmiddle.alike (middle.bind_alike _)
    rw [uses, List.map_append, List.map_append]
    exact (ih b h).append ((ihmiddle _ hmiddle).append (ihright _ hright))
  | cons e _ ih ih' =>
    rename_i b h
    rw [usesAll, List.map_append]
    exact (ih b h).append (ih' _ (h.alike (e.bind_alike b)))

theorem Expr.bindOption_reports (e : Option Expr) {b : Binder} (h : Knows around b) :
    Reports (Expr.spotsOption around e) b (Expr.bindOption e b) := by
  cases e with
  | none => exact .nil rfl
  | some e =>
    rw [Expr.spotsOption, Option.toList_some, List.flatMap_singleton]
    exact e.bind_reports b h

end Expressions

/-! ## Statements -/

namespace Binder

variable {b b' b'' : Binder} {around : Around} {earlier earlier' : List Text} {spots spots' : List Spot}

/-- The walk is at a statement, before which names were declared in the same scope. -/
structure Situated (around : Around) (earlier : List Text) (b : Binder) : Prop where
  inClass : b.inClass = around.classContext
  inRoutine : b.inRoutine = around.routineContext
  scope : around.Scoped earlier b.scopes
  /-- No statement is in an initializer. -/
  plain : ∀ name, around.initializes name = false

theorem Situated.knows (h : Situated around earlier b) : Knows around b := ⟨h.inClass, h.scope.awaits h.plain⟩

/-- The walk is still at a statement after names have been declared. -/
theorem Situated.marks {names : List Token} (h : Situated around earlier b) (hmarks : Marks names b b') :
    Situated around (earlier ++ names.map (·.lexeme)) b' := by
  refine ⟨hmarks.inClass.trans h.inClass, hmarks.inRoutine.trans h.inRoutine, ?_, h.plain⟩
  rw [hmarks.scopes]
  exact h.scope.markAll names

theorem Situated.alike (h : Situated around earlier b) (halike : b.Alike b') : Situated around earlier b' := by
  have hmarks := h.marks (.of_alike halike)
  rwa [List.map_nil, List.append_nil] at hmarks

theorem declared_reports (h : around.Scoped earlier b.scopes) (name : Token) :
    Reports [⟨.declaration name earlier, around⟩] b ((b.declare name).define name) :=
  (b.declare_reports h name).keep (define_errors _ name)

theorem enter_situated (hclass : b.inClass = around.classContext) (hroutine : b.inRoutine = around.routineContext)
    (hlocal : around.isLocal = true) (hplain : ∀ name, around.initializes name = false) :
    Situated around [] (b.enter .empty) :=
  ⟨hclass, hroutine, ⟨hlocal, fun name => by rw [Table.get?_empty, if_neg List.not_mem_nil]⟩, hplain⟩

theorem Situated.params_reports (h : Situated around earlier b) (params : List Token) :
    Reports (paramSpots around earlier params) b (params.foldl (fun b p => (b.declare p).define p) b) := by
  induction params generalizing b earlier with
  | nil => exact .nil rfl
  | cons p params ih => exact (declared_reports h.scope p).cons (ih (h.marks (b.declared_marks p)))

end Binder

open Binder (Situated)

theorem Stmt.names_eq : (s : Stmt) → s.names = s.declaredHere.map (·.lexeme)
  | .expression _ | .print _ | .returns _ _ | .block _ | .variable _ _ | .routine _ | .classOf _ _ _ => rfl
  | .branch _ body none | .loop _ body => Stmt.names_eq body
  | .branch _ yes (some no) => by
    rw [Stmt.names, Stmt.declaredHere, List.map_append, Stmt.names_eq yes, Stmt.names_eq no]

/-- After a statement its names have been declared. -/
theorem Binder.Situated.stmt {around : Around} {earlier : List Text} {b : Binder} (h : Situated around earlier b)
    (s : Stmt) : Situated around (earlier ++ s.names) (s.bind b) :=
  s.names_eq ▸ h.marks (s.bind_marks b)

mutual

/-- The misuses at the places of a statement are reported. -/
theorem Stmt.bind_reports : (s : Stmt) → (around : Around) → (earlier : List Text) → (b : Binder) →
    Situated around earlier b → Reports (s.spots around earlier) b (s.bind b)
  | .expression e, around, earlier, b, h | .print e, around, earlier, b, h => e.bind_reports b h.knows
  | .returns keyword value, around, earlier, b, h =>
    (b.checkReturn_reports h.inRoutine keyword value.isSome).cons
      (Expr.bindOption_reports value (h.knows.alike (b.checkReturn_alike keyword value.isSome)))
  | .branch condition body none, around, earlier, b, h | .loop condition body, around, earlier, b, h =>
    (condition.bind_reports b h.knows).append
      (Stmt.bind_reports body around earlier _ (h.alike (condition.bind_alike b)))
  | .branch condition yes (some no), around, earlier, b, h =>
    have hyes := h.alike (condition.bind_alike b)
    (condition.bind_reports b h.knows).append ((Stmt.bind_reports yes around earlier _ hyes).append
      (Stmt.bind_reports no around _ _ (hyes.stmt yes)))
  | .block body, around, earlier, b, h =>
    Stmt.bindAll_reports body _ _ _ (Binder.enter_situated h.inClass h.inRoutine rfl fun _ => rfl)
  | .variable name initializer, around, earlier, b, h => by
    -- In the initializer the name is there and not complete.
    have hknows : Knows (.initializer name :: around) (b.declare name) :=
      ⟨(b.declare_within name).inClass.trans h.inClass,
        by rw [b.declare_scopes]; exact h.scope.awaits_initializer name⟩
    have hreports := (b.declare_reports h.scope name).cons (Expr.bindOption_reports initializer hknows)
    exact hreports.keep (Binder.define_errors _ name)
  | .routine r, around, earlier, b, h =>
    have hname := h.marks (b.declared_marks r.name)
    (Binder.declared_reports h.scope r.name).cons
      (Routine.bind_reports r (.function :: around) _ hname.inClass rfl fun _ => rfl)
  | .classOf name none methods, around, earlier, b, h =>
    -- The class context has changed before the name is declared, so only the scopes are as `h` says.
    (Binder.declared_reports (b := { b with inClass := .plain }) h.scope name).cons
      (Routine.bindMethods_reports methods (.ofClass false :: around) (b.openClass name) (b.nameClass_inClass name))
  | .classOf name (some superclass) methods, around, earlier, b, h => by
    have hname : Reports _ b (b.nameClass name) :=
      Binder.declared_reports (b := { b with inClass := .plain }) h.scope name
    have hcheck := (b.nameClass name).checkSuperclass_reports around name superclass
    -- The name of the class is complete when its superclass is read.
    have hawaits : around.Awaits (b.derive name superclass).scopes := by
      rw [b.derive_scopes, b.nameClass_scopes]
      exact (h.scope.mark name.lexeme).awaits h.plain
    have hread := (b.derive name superclass).bindVariable_reports hawaits superclass
    have hmethods := Routine.bindMethods_reports methods (.ofClass true :: around) (b.openDerived name superclass)
      ((b.derive name superclass).bindVariable_alike superclass).inClass
    exact hname.cons (hcheck.cons (hread.cons hmethods))

/-- The walk over a routine reports the misuses in it. -/
theorem Routine.bind_reports : (r : Routine) → (around : Around) → (b : Binder) →
    b.inClass = around.classContext → around.isLocal = true → (∀ name, around.initializes name = false) →
    Reports (r.spots around) b (r.bind around.routineContext b)
  | .mk _ params body, around, b, hclass, hlocal, hplain =>
    have hinside : Situated around [] (({ b with inRoutine := around.routineContext }).enter .empty) :=
      Binder.enter_situated hclass rfl hlocal hplain
    -- The body goes on in the scope of the parameters, after their names.
    have hbody := hinside.marks (Binder.enterRoutine_marks { b with inRoutine := around.routineContext } params)
    (hinside.params_reports params).append (Stmt.bindAll_reports body around _ _ hbody)

theorem Stmt.bindAll_reports : (ss : List Stmt) → (around : Around) → (earlier : List Text) →
    (b : Binder) → Situated around earlier b → Reports (Stmt.spotsAll around earlier ss) b (Stmt.bindAll ss b)
  | [], _, _, _, _ => .nil rfl
  | s :: rest, around, earlier, b, h =>
    (Stmt.bind_reports s around earlier b h).append (Stmt.bindAll_reports rest around _ _ (h.stmt s))

theorem Routine.bindMethods_reports : (ms : List Routine) → (around : Around) → (b : Binder) →
    b.inClass = around.classContext → Reports (Routine.spotsMethods around ms) b (Routine.bindMethods ms b)
  | [], _, _, _ => .nil rfl
  | m :: rest, around, b, hclass =>
    (Routine.bind_reports m (.method m.name :: around) b hclass rfl fun _ => rfl).append
      (Routine.bindMethods_reports rest around _ ((m.bind_alike _ b).inClass.trans hclass))

end

/-- Binding a program reports its misuses. -/
theorem Bound.ofProgram_errors (program : Program) : (Bound.ofProgram program).errors = misuses program := by
  have hstart : Situated [] [] Binder.start := ⟨rfl, rfl, rfl, fun _ => rfl⟩
  have hreports : (Stmt.bindAll program .start).errors = (misuses program).reverse ++ [] :=
    Stmt.bindAll_reports program [] [] .start hstart
  calc (Bound.ofProgram program).errors
      = (Stmt.bindAll program .start).errors.reverse := rfl
    _ = ((misuses program).reverse ++ []).reverse := by rw [hreports]
    _ = misuses program := by rw [List.append_nil, List.reverse_reverse]

namespace Session

/-- The static errors of a source that is read without an error are the misuses of its program. -/
theorem staticErrors_eq_misuses {s : Session} {source : Text}
    (hread : (Reading.ofSource s.nextSite source).errors = []) :
    s.staticErrors source = misuses (s.program source) := by
  rw [staticErrors, if_pos hread, Bound.ofProgram_errors]

/-- Binding any program reports exactly its misuses, one report for each and in the order of the walk. When a
session runs a source that was read without an error, these are what it shows, and its flag for static errors is
set exactly if there is one. -/
theorem reports_misuses :
    (∀ program, (Bound.ofProgram program).errors = misuses program) ∧
    ∀ (s : Session) (source : Text), (Reading.ofSource s.nextSite source).errors = [] →
      ((s.prepare source).1.console.hadError = true ↔ misuses (s.program source) ≠ []) ∧
      Notice.diagnostics (s.prepare source).2.1 =
        if misuses (s.program source) = [] then []
        else [Console.written
          ((misuses (s.program source)).map fun e => s.console.paint (Diagnostic.ofStatic e).toText)] := by
  refine ⟨Bound.ofProgram_errors, fun s source hread => ?_⟩
  have hstatic := staticErrors_eq_misuses hread
  by_cases hnone : misuses (s.program source) = []
  · have haccepts : s.Accepts source := ⟨hread, (Bound.ofProgram_errors _).trans hnone⟩
    rw [prepare_eq_of_accepts haccepts, if_pos hnone]
    exact ⟨iff_of_false Bool.false_ne_true fun hsome => hsome hnone, Notice.diagnostics_records _⟩
  · obtain ⟨notices, hprepare, hdiagnostics⟩ := prepare_eq_of_errors (hstatic ▸ hnone)
    rw [hprepare, if_neg hnone, ← hstatic]
    exact ⟨iff_of_true rfl (hstatic ▸ hnone), hdiagnostics⟩

end Session

/-- A variable that is read in its own initializer and declared again, a class that inherits from itself and whose
initializer returns a value, and a value returned from the top. -/
def misuseSource : Text :=
  text "\x7bvar a=a;var a;\x7dclass A<A\x7binit()\x7breturn this;\x7d\x7dreturn this;"

/-- Six misuses are reported, and the flag is set. -/
theorem Session.reports_misuses_six :
    (Reading.ofSource (Session.new false false).nextSite misuseSource).errors = [] ∧
    ((Session.new false false).prepare misuseSource).1.console.hadError = true ∧
    (Bound.ofProgram ((Session.new false false).program misuseSource)).errors.map (·.cause) =
      [.ownInitializer, .duplicateDeclaration, .inheritsFromItself, .returnFromInitializer, .returnAtTop,
        .thisOutsideClass].map .misuse := by
  have hread : (Reading.ofSource (Session.new false false).nextSite misuseSource).errors = [] := by decide +kernel
  have hcauses : (misuses ((Session.new false false).program misuseSource)).map (·.cause) =
      [.ownInitializer, .duplicateDeclaration, .inheritsFromItself, .returnFromInitializer, .returnAtTop,
        .thisOutsideClass].map .misuse := by
    decide +kernel
  refine ⟨hread, (reports_misuses.2 _ misuseSource hread).1.2 fun hnone => ?_, ?_⟩
  · rw [hnone] at hcauses
    cases hcauses
  · rw [reports_misuses.1, hcauses]

end Lox
