import Lox.Log
import Lox.RuntimeError
import Std.Data.TreeMap

/-!
# Machines

A machine runs a program in small steps. Its state is what it is about to do (`Control`), what remains
to be done with the outcome (a stack of `Task`s), and a store: the heap, the distances of the bound
references, the current scope, the stack of calls, a value on its way out of a routine, and what has
been printed and logged.
-/

namespace Lox

/-- How a statement ends: it goes on, or it leaves the routine around it. -/
inductive Completion where
  | normal
  | returned
  deriving DecidableEq, Repr

/-- What ends a program early. -/
inductive Failure where
  | error (e : RuntimeError)
  | overflow
  deriving DecidableEq, Repr

/-- What a machine is about to do. -/
inductive Control where
  | evaluate (e : Expr)
  | execute (s : Stmt)
  | deliver (v : Value)
  | complete (c : Completion)
  | unwind (f : Failure)
  /-- Stand still: a guarantee was broken. -/
  | fault (f : Fault)

/-- What remains to be done with an outcome. The tasks of the first group wait for a value, those of
the second for the end of a statement. -/
inductive Task where
  | assign (target : Reference)
  | unary (op : UnaryOp) (sign : Token)
  | binaryLeft (op : BinaryOp) (sign : Token) (right : Expr)
  | binaryRight (op : BinaryOp) (sign : Token) (left : Value)
  | logical (op : LogicalOp) (right : Expr)
  | condition (middle right : Expr)
  | middle (condition : Value) (right : Expr)
  | choose (condition middle : Value)
  | callee (paren : Token) (arguments : List Expr)
  /-- The arguments so far, the newest first, and those still to be evaluated. -/
  | argument (paren : Token) (callee : Value) (done : List Value) (rest : List Expr)
  | get (name : Token)
  | setObject (name : Token) (value : Expr)
  | setValue (name : Token) (object : InstanceId)
  | discard
  | print
  | returnValue
  | branch (yes : Stmt) (no : Option Stmt)
  | loopTest (condition : Expr) (body : Stmt)
  | variable (name : Token)
  | superclass (name : Token) (superclass : Token) (methods : List Routine)
  /-- The initializer has run; the call of the class gives the instance. -/
  | construct (o : InstanceId)
  /-- The call ends: its frame goes away. -/
  | endCall (function : Text) (paren : Token)
  | sequence (rest : List Stmt)
  | loopBody (condition : Expr) (body : Stmt)
  | leaveScope (outer : ScopeId)
  | endBody (closure : Closure) (outer : ScopeId)

/-- The store of a machine. -/
structure Store where
  heap : Heap
  /-- The distances of the bound references, by their site. -/
  bindings : Std.TreeMap Site Nat
  scope : ScopeId
  /-- The names of the active calls, the innermost last; the first stands for the script. -/
  frames : Array Text
  /-- The value that a return statement carries out of its routine. -/
  returning : Option Value
  printed : Array Text
  log : Array LogRecord
  /-- The number of readings that were taken from the clock. -/
  readings : Nat

/-- The state of a machine. -/
structure Machine where
  control : Control
  tasks : List Task
  store : Store

/-- What is fixed for a run: the largest number of active calls, and the readings of the clock. -/
structure Limits where
  maxDepth : Nat
  clock : Nat → Number

/-- The frame of the script itself. -/
def scriptFrame : Text := text "<script>"

namespace Store

def initial : Store :=
  { heap := .initial, bindings := ∅, scope := Heap.globals, frames := #[scriptFrame]
    returning := none, printed := #[], log := #[], readings := 0 }

/-- Adds the distances of a program's references to those of the earlier ones. -/
def addBindings (s : Store) (bindings : List (Site × Nat)) : Store :=
  { s with bindings :=
      bindings.foldl (fun all (site, distance) => all.insert site distance) s.bindings }

def frame (s : Store) : Text := s.frames.back?.getD []

/-- Looks a reference up: at its distance if it is bound, and else in the globals. -/
def lookUp (s : Store) (ref : Reference) : Except (Fault ⊕ RuntimeCause) Value :=
  match s.bindings[ref.site]? with
  | some d =>
    match s.heap.forest.getAt? s.scope d ref.name with
    | some .absent => .error (.inl .absentValue)
    | some v => .ok v
    | none => .error (.inl .missingScope)
  | none =>
    match s.heap.forest.get? Heap.globals ref.name with
    | some v => .ok v
    | none => .error (.inr (.undefinedVariable ref.name))

/-- The scope in which an assignment to a reference takes place: the one at its distance if it is
bound, and else the globals, where the name must be known. -/
def target (s : Store) (ref : Reference) : Except (Fault ⊕ RuntimeCause) ScopeId :=
  match s.bindings[ref.site]? with
  | some d =>
    match s.heap.forest.ancestor? s.scope d with
    | some e => .ok e
    | none => .error (.inl .missingScope)
  | none =>
    match s.heap.forest.holder? Heap.globals ref.name with
    | some e => .ok e
    | none => .error (.inr (.undefinedVariable ref.name))

def put (s : Store) (e : ScopeId) (name : Text) (v : Value) : Store :=
  { s with heap := s.heap.define e name v }

/-- Puts a value under a name in the current scope. -/
def define (s : Store) (name : Token) (v : Value) : Store :=
  s.put s.scope name.lexeme v

/-- Makes a scope inside the current one and makes it current. -/
def openScope (s : Store) : Store :=
  let (heap, e) := s.heap.newScope (some s.scope)
  { s with heap, scope := e }

def newFunction (s : Store) (r : Routine) (initializer : Bool) : Store × FunctionId :=
  let (heap, f) := s.heap.newFunction ⟨r, s.scope, initializer⟩
  ({ s with heap }, f)

def newClass (s : Store) (c : ClassInfo) : Store × ClassId :=
  let (heap, id) := s.heap.newClass c
  ({ s with heap }, id)

def newInstance (s : Store) (c : ClassId) : Store × InstanceId :=
  let (heap, o) := s.heap.newInstance c
  ({ s with heap }, o)

def bind (s : Store) (method : Closure) (o : InstanceId) : Store × FunctionId :=
  let (heap, f) := s.heap.bind method o
  ({ s with heap }, f)

/-- Makes a function and puts it under its name in the current scope. -/
def declareRoutine (s : Store) (r : Routine) : Store :=
  let (s, f) := s.newFunction r false
  s.define r.name (.function f)

/-- Makes the functions of methods in the current scope; of two with one name the later one counts. -/
def makeMethods (s : Store) (methods : List Routine) : Store × Table FunctionId :=
  methods.foldl
    (fun (s, table) m =>
      let (s, f) := s.newFunction m (m.name.lexeme = initName)
      (s, table.insert m.name.lexeme f))
    (s, .empty)

/-- Makes a class and puts it under its name in the current scope. The name is there before the methods
are made; those of a class with a superclass see an extra scope that holds it. -/
def declareClass (s : Store) (name : Token) (superclass : Option ClassId) (methods : List Routine) :
    Store :=
  let outer := s.scope
  let s := s.define name .nil
  let s := match superclass with
    | none => s
    | some c =>
      let s := s.openScope
      s.put s.scope superName (.classValue c)
  let (s, table) := s.makeMethods methods
  let (s, c) := s.newClass ⟨name.lexeme, superclass, table⟩
  ({ s with scope := outer }).define name (.classValue c)

end Store

end Lox
