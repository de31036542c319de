import Lox.Diagnostic
import Lox.Table
import Lox.Tree

/-!
# Binding names

Before a program runs, every reference to a local is bound: the distance of a reference is the number
of scopes from the innermost one out to the scope that declares its name. Names that no open scope
declares are left to the globals, which are not tracked. On the way, misuses of names, of `this` and
`super` and of `return` are reported.

A block and a routine open a scope each; a routine's parameters and body share one. Inside a class
each method sees a scope with `this`, and outside of that one, if the class has a superclass, a scope
with `super`.
-/

namespace Lox

/-- What kind of class surrounds a place. -/
inductive ClassContext where
  | outside
  | plain
  | derived
  deriving DecidableEq, Repr

/-- What kind of routine surrounds a place. -/
inductive RoutineContext where
  | outside
  | function
  | method
  | initializer
  deriving DecidableEq, Repr

/-- The name under which a method sees its instance. -/
def thisName : Text := text "this"

/-- The name under which a method sees the superclass of its class. -/
def superName : Text := text "super"

/-- The name of the method that a new instance runs. -/
def initName : Text := text "init"

/-- What is known at a point of the walk over a program. -/
structure Binder where
  /-- The open scopes, the innermost first: each name with whether its declaration is complete. -/
  scopes : List (Table Bool)
  inClass : ClassContext
  inRoutine : RoutineContext
  /-- The distances found so far, the newest first. -/
  bindings : List (Site × Nat)
  /-- The misuses found so far, the newest first. -/
  errors : List StaticError
  /-- How often a scope was taken off an empty stack, or looked at there. -/
  underflows : Nat

namespace Binder

/-- At the start no scope is open. -/
def start : Binder :=
  { scopes := [], inClass := .outside, inRoutine := .outside, bindings := [], errors := [], underflows := 0 }

def report (b : Binder) (t : Token) (m : Misuse) : Binder :=
  { b with errors := .ofMisuse t m :: b.errors }

def enter (b : Binder) (scope : Table Bool) : Binder := { b with scopes := scope :: b.scopes }

/-- Takes the innermost scope away. There has to be one. -/
def leave (b : Binder) : Binder :=
  { b with
    scopes := b.scopes.tail
    underflows := if b.scopes.isEmpty then b.underflows + 1 else b.underflows }

/-- Goes on with the innermost scope and those around it. There has to be one. -/
def withLast (b : Binder) (f : Table Bool → List (Table Bool) → Binder) : Binder :=
  match b.scopes with
  | [] => { b with underflows := b.underflows + 1 }
  | scope :: outer => f scope outer

/-- Opens a scope with one name in it. -/
def enterWith (b : Binder) (name : Text) : Binder :=
  (b.enter .empty).withLast fun scope outer => { b with scopes := scope.insert name true :: outer }

/-- Declares a name in the innermost scope; it cannot be read until it is defined. Only globals can
be declared twice. -/
def declare (b : Binder) (name : Token) : Binder :=
  if b.scopes.isEmpty then b
  else b.withLast fun scope outer =>
    let b := if scope.has name.lexeme then b.report name .duplicateDeclaration else b
    { b with scopes := scope.insert name.lexeme false :: outer }

/-- Completes the declaration of a name in the innermost scope. -/
def define (b : Binder) (name : Token) : Binder :=
  if b.scopes.isEmpty then b
  else b.withLast fun scope outer => { b with scopes := scope.insert name.lexeme true :: outer }

/-- The number of scopes from the innermost one out to one that declares a name. -/
def distance? (b : Binder) (name : Text) : Option Nat := b.scopes.findIdx? (·.has name)

/-- Records the distance of a reference, if a scope declares its name. -/
def bind (b : Binder) (ref : Reference) : Binder :=
  match b.distance? ref.name with
  | some d => { b with bindings := (ref.site, d) :: b.bindings }
  | none => b

/-- Reports a variable that the innermost scope declares but has not defined. -/
def checkDefined (b : Binder) (ref : Reference) : Binder :=
  if b.scopes.isEmpty then b
  else b.withLast fun scope _ =>
    match scope.get? ref.name with
    | some false => b.report ref.token .ownInitializer
    | _ => b

/-- Reports a `super` without a superclass around it. -/
def checkSuper (b : Binder) (ref : Reference) : Binder :=
  match b.inClass with
  | .outside => b.report ref.token .superOutsideClass
  | .plain => b.report ref.token .superWithoutSuperclass
  | .derived => b

/-- Reports a `return` at the top, and one with a value in an initializer. -/
def checkReturn (b : Binder) (keyword : Token) (hasValue : Bool) : Binder :=
  match b.inRoutine with
  | .outside => b.report keyword .returnAtTop
  | .initializer => if hasValue then b.report keyword .returnFromInitializer else b
  | _ => b

/-- Reports a class that names itself as its superclass. -/
def checkSuperclass (b : Binder) (name : Token) (superclass : Reference) : Binder :=
  if superclass.name = name.lexeme then b.report superclass.token .inheritsFromItself else b

/-- A variable that is read. -/
def bindVariable (b : Binder) (ref : Reference) : Binder := (b.checkDefined ref).bind ref

/-- Opens the scope of a routine and declares its parameters. -/
def enterRoutine (b : Binder) (params : List Token) : Binder :=
  params.foldl (fun b p => (b.declare p).define p) (b.enter .empty)

end Binder

namespace Expr

mutual

/-- Binds the references in an expression. -/
def bind : Expr → Binder → Binder
  | .literal _ _, b => b
  | .grouping _ inner, b => bind inner b
  | .variable ref, b => b.bindVariable ref
  | .assign target value, b => (bind value b).bind target
  | .this ref, b =>
    if b.inClass = .outside then b.report ref.token .thisOutsideClass else b.bind ref
  | .super ref _, b => (b.checkSuper ref).bind ref
  | .unary _ _ _ operand, b => bind operand b
  | .binary _ _ _ left right, b => bind right (bind left b)
  | .logical _ _ _ left right, b => bind right (bind left b)
  | .conditional _ condition _ middle _ right, b => bind right (bind middle (bind condition b))
  | .call _ callee _ arguments, b => bindAll arguments (bind callee b)
  | .get _ object _, b => bind object b
  | .set _ object _ value, b => bind object (bind value b)

def bindAll : List Expr → Binder → Binder
  | [], b => b
  | e :: rest, b => bindAll rest (bind e b)

end

/-- Binds the references in an expression that may be absent. -/
def bindOption : Option Expr → Binder → Binder
  | none, b => b
  | some e, b => bind e b

end Expr

/-- The context that a method's body has. -/
def methodContext (name : Token) : RoutineContext :=
  if name.lexeme = initName then .initializer else .method

mutual

def Stmt.bind : Stmt → Binder → Binder
  | .expression e, b => e.bind b
  | .print e, b => e.bind b
  | .returns keyword value, b => Expr.bindOption value (b.checkReturn keyword value.isSome)
  | .branch condition yes none, b => yes.bind (condition.bind b)
  | .branch condition yes (some no), b => no.bind (yes.bind (condition.bind b))
  | .loop condition body, b => body.bind (condition.bind b)
  | .block body, b => (Stmt.bindAll body (b.enter .empty)).leave
  | .variable name initializer, b =>
    -- A variable is defined only after its initializer.
    (Expr.bindOption initializer (b.declare name)).define name
  | .routine r, b => r.bind .function ((b.declare r.name).define r.name)
  | .classOf name none methods, b =>
    let inside := (({ b with inClass := .plain }).declare name).define name
    let bound := Routine.bindMethods methods (inside.enterWith thisName)
    { bound.leave with inClass := b.inClass }
  | .classOf name (some superclass) methods, b =>
    let inside := (({ b with inClass := .plain }).declare name).define name
    let derived := { inside.checkSuperclass name superclass with inClass := .derived }
    let open₁ := (derived.bindVariable superclass).enterWith superName
    let bound := Routine.bindMethods methods (open₁.enterWith thisName)
    { bound.leave.leave with inClass := b.inClass }

def Routine.bind (context : RoutineContext) : Routine → Binder → Binder
  | .mk _ params body, b =>
    let bound := Stmt.bindAll body (({ b with inRoutine := context }).enterRoutine params)
    { bound.leave with inRoutine := b.inRoutine }

def Stmt.bindAll : List Stmt → Binder → Binder
  | [], b => b
  | s :: rest, b => Stmt.bindAll rest (s.bind b)

def Routine.bindMethods : List Routine → Binder → Binder
  | [], b => b
  | m :: rest, b => Routine.bindMethods rest (m.bind (methodContext m.name) b)

end

/-- The outcome of binding a program. -/
structure Bound where
  /-- Each bound reference with its distance, in the order in which they were bound. -/
  bindings : List (Site × Nat)
  /-- The misuses, in the order of report. -/
  errors : List StaticError

def Bound.ofProgram (program : Program) : Bound :=
  let b := Stmt.bindAll program .start
  { bindings := b.bindings.reverse, errors := b.errors.reverse }

end Lox
