import Lox.Table
import Lox.Value

/-!
# The forest of scopes

A scope holds the values of its names and may be enclosed by another scope. Several scopes can share
an enclosing one, and a scope outlives the block or call that made it as long as something refers to
it, so the scopes form a forest that only grows. Scopes are numbered in the order in which they are
made; an enclosing scope is always older, and a walk outwards follows older scopes only.
-/

namespace Lox

/-- A scope: its names, and the scope around it. -/
structure Scope where
  enclosing : Option ScopeId
  names : Table Value
  deriving Repr

/-- The scopes made so far. -/
structure Forest where
  scopes : Array Scope
  deriving Repr

namespace Forest

def empty : Forest := ⟨#[]⟩

def new (f : Forest) (enclosing : Option ScopeId) : Forest × ScopeId :=
  let e := f.scopes.size
  (⟨f.scopes.push ⟨enclosing, .empty⟩⟩, e)

def enclosing? (f : Forest) (e : ScopeId) : Option ScopeId := f.scopes[e]?.bind (·.enclosing)

/-- Puts a value under a name in a scope, whether the name was there or not. -/
def define (f : Forest) (e : ScopeId) (name : Text) (v : Value) : Forest :=
  ⟨f.scopes.modify e fun s => { s with names := s.names.insert name v }⟩

def ancestor? (f : Forest) (e : ScopeId) : (distance : Nat) → Option ScopeId
  | 0 => if e < f.scopes.size then some e else none
  | d + 1 =>
    match f.enclosing? e with
    | some outer => f.ancestor? outer d
    | none => none

/-- The nearest scope outwards that holds a name. -/
def holder? (f : Forest) (e : ScopeId) (name : Text) : Option ScopeId :=
  match f.scopes[e]? with
  | none => none
  | some s =>
    if s.names.has name then some e
    else
      match s.enclosing with
      | none => none
      | some outer => if outer < e then f.holder? outer name else none
termination_by e

/-- The value of a name in a scope itself; absent if the scope does not hold the name. -/
def valueIn (f : Forest) (e : ScopeId) (name : Text) : Value :=
  ((f.scopes[e]?).bind (·.names.get? name)).getD .absent

/-- The value of a name in the nearest scope that holds it. -/
def get? (f : Forest) (e : ScopeId) (name : Text) : Option Value :=
  (f.holder? e name).map fun h => f.valueIn h name

/-- Puts a value under a name in the nearest scope that holds it, if there is one. -/
def assign? (f : Forest) (e : ScopeId) (name : Text) (v : Value) : Option Forest :=
  (f.holder? e name).map fun h => f.define h name v

/-- The value of a name in the scope a number of steps outwards, if there is such a scope. -/
def getAt? (f : Forest) (e : ScopeId) (distance : Nat) (name : Text) : Option Value :=
  (f.ancestor? e distance).map fun a => f.valueIn a name

/-- Puts a value under a name in the scope a number of steps outwards, if there is such a scope. -/
def assignAt? (f : Forest) (e : ScopeId) (distance : Nat) (name : Text) (v : Value) : Option Forest :=
  (f.ancestor? e distance).map fun a => f.define a name v

end Forest

end Lox
