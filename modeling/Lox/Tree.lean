import Lox.Token

/-!
# Trees

Expressions, statements and routines, as the grammar builds them. Every node of an expression carries
a site of the session, that of the token it is known by, so that two nodes are never confused: what is
recorded about a reference to a name is recorded under its site.
-/

namespace Lox

/-- The place of a token in the sequence of all tokens that a session has read. -/
abbrev Site := Nat

/-- A name used at a site. -/
structure Reference where
  site : Site
  token : Token
  deriving DecidableEq, Repr

abbrev Reference.name (r : Reference) : Text := r.token.lexeme

/-- An operator with one operand. -/
inductive UnaryOp where
  | not
  | negate
  deriving DecidableEq, Repr

/-- An operator with two operands that are both evaluated. -/
inductive BinaryOp where
  | equal | notEqual
  | less | lessEqual | greater | greaterEqual
  | add | subtract | multiply | divide
  deriving DecidableEq, Repr

/-- An operator whose second operand is evaluated only if the first does not decide. -/
inductive LogicalOp where
  | and
  | or
  deriving DecidableEq, Repr

/-- An expression. A node that refers to a name stands at the site of the reference, the others at the
site of the constant, the operator or the opening parenthesis, a property at that of its dot. Operators
keep their token, which errors blame and printing shows. -/
inductive Expr where
  | literal (site : Site) (value : Literal)
  | grouping (site : Site) (inner : Expr)
  | variable (ref : Reference)
  | assign (target : Reference) (value : Expr)
  | this (ref : Reference)
  | super (ref : Reference) (method : Token)
  | unary (site : Site) (op : UnaryOp) (sign : Token) (operand : Expr)
  | binary (site : Site) (op : BinaryOp) (sign : Token) (left right : Expr)
  | logical (site : Site) (op : LogicalOp) (sign : Token) (left right : Expr)
  | conditional (site : Site) (condition : Expr) (question : Token) (middle : Expr) (colon : Token) (right : Expr)
  | call (site : Site) (callee : Expr) (paren : Token) (arguments : List Expr)
  | get (site : Site) (object : Expr) (name : Token)
  | set (site : Site) (object : Expr) (name : Token) (value : Expr)
  deriving Repr

/-- The site of a node, which tells it from every other node. -/
def Expr.site : Expr → Site
  | .variable ref | .assign ref _ | .this ref | .super ref _ => ref.site
  | .literal site _ | .grouping site _ | .unary site .. | .binary site .. | .logical site .. | .conditional site .. |
    .call site .. | .get site .. | .set site .. => site

mutual

/-- A statement. -/
inductive Stmt where
  | expression (e : Expr)
  | print (e : Expr)
  | returns (keyword : Token) (value : Option Expr)
  | branch (condition : Expr) (yes : Stmt) (no : Option Stmt)
  | loop (condition : Expr) (body : Stmt)
  | block (body : List Stmt)
  | variable (name : Token) (initializer : Option Expr)
  | routine (r : Routine)
  | classOf (name : Token) (superclass : Option Reference) (methods : List Routine)

/-- A function or method as written: its name, its parameters and its body. -/
inductive Routine where
  | mk (name : Token) (params : List Token) (body : List Stmt)

end

/-- A program is a sequence of statements. -/
abbrev Program := List Stmt

namespace Routine

def name : Routine → Token
  | .mk name _ _ => name

def params : Routine → List Token
  | .mk _ params _ => params

def body : Routine → List Stmt
  | .mk _ _ body => body

def arity (r : Routine) : Nat := r.params.length

end Routine

/-- A loop with an initializer, a condition and an increment, each possibly absent: one scope holds
the initializer and a plain loop, whose body runs the given body and then the increment. The constant
that stands for an absent condition has the site of the loop. -/
def Stmt.forLoop (site : Site) (initializer : Option Stmt) (condition : Option Expr) (increment : Option Expr)
    (body : Stmt) : Stmt :=
  .block (initializer.toList ++
    [.loop (condition.getD (.literal site (.bool true)))
      (.block (body :: (increment.map Stmt.expression).toList))])

end Lox
