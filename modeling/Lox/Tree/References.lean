import Lox.Tree

/-!
# References of a tree

The references in a tree, each before the references inside its node.
-/

namespace Lox

/-- How a node refers to a name. -/
inductive Usage where
  | variable
  | assign
  | this
  | super
  deriving DecidableEq, Repr

def Usage.word : Usage → String
  | .variable => "variable"
  | .assign => "assign"
  | .this => "this"
  | .super => "super"

namespace Expr

mutual

/-- The references in an expression. -/
def references : Expr → List (Usage × Reference)
  | .literal _ _ => []
  | .grouping _ inner => references inner
  | .variable ref => [(.variable, ref)]
  | .assign target value => (.assign, target) :: references value
  | .this ref => [(.this, ref)]
  | .super ref _ => [(.super, ref)]
  | .unary _ _ _ operand => references operand
  | .binary _ _ _ left right => references left ++ references right
  | .logical _ _ _ left right => references left ++ references right
  | .conditional _ condition _ middle _ right =>
    references condition ++ references middle ++ references right
  | .call _ callee _ arguments => references callee ++ referencesOfAll arguments
  | .get _ object _ => references object
  | .set _ object _ value => references object ++ references value

def referencesOfAll : List Expr → List (Usage × Reference)
  | [] => []
  | e :: rest => references e ++ referencesOfAll rest

end

/-- The references in an expression that may be absent. -/
def referencesOfOption : Option Expr → List (Usage × Reference)
  | none => []
  | some e => references e

end Expr

mutual

def Stmt.references : Stmt → List (Usage × Reference)
  | .expression e => e.references
  | .print e => e.references
  | .returns _ value => Expr.referencesOfOption value
  | .branch condition yes none => condition.references ++ yes.references
  | .branch condition yes (some no) => condition.references ++ yes.references ++ no.references
  | .loop condition body => condition.references ++ body.references
  | .block body => Stmt.referencesOfAll body
  | .variable _ initializer => Expr.referencesOfOption initializer
  | .routine r => r.references
  | .classOf _ superclass methods =>
    superclass.toList.map (fun ref => (.variable, ref)) ++ Routine.referencesOfAll methods

def Routine.references : Routine → List (Usage × Reference)
  | .mk _ _ body => Stmt.referencesOfAll body

def Stmt.referencesOfAll : List Stmt → List (Usage × Reference)
  | [] => []
  | s :: rest => s.references ++ Stmt.referencesOfAll rest

def Routine.referencesOfAll : List Routine → List (Usage × Reference)
  | [] => []
  | r :: rest => r.references ++ Routine.referencesOfAll rest

end

end Lox
