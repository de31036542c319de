import Lox.Tree

/-!
# Dumped trees

A tree with all its parts by name, one on a line. Parts that are absent are left out; an empty list
leaves its place empty.
-/

namespace Lox

/-- What is shown of a part of a tree. -/
inductive Dump where
  | atom (t : Text)
  | labelled (label : String) (d : Dump)
  | group (head : Text) (members : List Dump)

namespace Dump

/-- A step of indentation is two spaces. -/
def indentation (depth : Nat) : Text := Text.times depth (text "  ")

mutual

def toText (depth : Nat) : Dump → Text
  | .atom t => t
  | .labelled label d => text label ++ text ": " ++ d.toText depth
  | .group head members =>
    head ++ text "\x7b" ++ (if members.isEmpty then [] else [Text.newline]) ++
      membersText (depth + 1) members ++ indentation depth ++ text "\x7d"

def membersText (depth : Nat) : List Dump → Text
  | [] => []
  | d :: rest =>
    indentation depth ++ d.toText depth ++ text "," ++ [Text.newline] ++ membersText depth rest

end

/-- A list of parts; an empty one shows nothing. -/
def ofList (type : String) (members : List Dump) : Dump :=
  if members.isEmpty then .atom [] else .group (text type) members

/-- A part that may be absent. -/
def optional (label : String) (d : Option Dump) : List Dump := (d.map (.labelled label)).toList

/-- A token; the first kind and an empty lexeme are not shown. -/
def ofToken (type : String) (t : Token) : Dump :=
  .group (text type)
    ((if t.kind = .leftParen then []
      else [.labelled "Kind" (.atom (text ("token.TokenKind(" ++ t.kind.name ++ ")")))]) ++
    (if t.lexeme.isEmpty then [] else [.labelled "Lexeme" (.atom t.lexeme.quoted)]) ++
    [.labelled "Line" (.atom (.ofNat t.line))])

/-- A part that is a token. -/
def token (label : String) (t : Token) : Dump := .labelled label (ofToken "token.Token" t)

def ofLiteral : Literal → Dump
  | .nil => .group (text "value.Nil") []
  | .bool b => .atom (text (if b then "value.Boolean(true)" else "value.Boolean(false)"))
  | .number x => .atom (text "value.Number(" ++ x.toText ++ text ")")
  | .string s => .atom (text "value.String(" ++ s.quoted ++ text ")")

def node (type : String) (members : List Dump) : Dump := .group (text ("&ast." ++ type)) members

end Dump

mutual

/-- The dump of an expression. -/
def Expr.dumped : Expr → Dump
  | .literal _ value => .node "Literal" [.labelled "Value" (.ofLiteral value)]
  | .grouping _ inner => .node "Grouping" [.labelled "Expression" inner.dumped]
  | .variable ref => .node "Variable" [.token "Name" ref.token]
  | .assign target value =>
    .node "Assign" [.token "Name" target.token, .labelled "Value" value.dumped]
  | .this ref => .node "This" [.token "Keyword" ref.token]
  | .super ref method => .node "Super" [.token "Keyword" ref.token, .token "Method" method]
  | .unary _ _ sign operand =>
    .node "Unary" [.token "Operator" sign, .labelled "Right" operand.dumped]
  | .binary _ _ sign left right =>
    .node "Binary"
      [.labelled "Left" left.dumped, .token "Operator" sign, .labelled "Right" right.dumped]
  | .logical _ _ sign left right =>
    .node "Logical"
      [.labelled "Left" left.dumped, .token "Operator" sign, .labelled "Right" right.dumped]
  | .conditional _ condition question middle colon right =>
    .node "Ternary"
      [.labelled "Left" condition.dumped, .token "Question" question, .labelled "Middle" middle.dumped,
        .token "Colon" colon, .labelled "Right" right.dumped]
  | .call _ callee paren arguments =>
    .node "Call"
      [.labelled "Callee" callee.dumped, .token "Paren" paren,
        .labelled "Arguments" (.ofList "[]ast.Expr" (Expr.dumpedAll arguments))]
  | .get _ object name => .node "Get" [.labelled "Object" object.dumped, .token "Name" name]
  | .set _ object name value =>
    .node "Set"
      [.labelled "Object" object.dumped, .token "Name" name, .labelled "Value" value.dumped]

def Expr.dumpedAll : List Expr → List Dump
  | [] => []
  | e :: rest => e.dumped :: Expr.dumpedAll rest

end

mutual

def Stmt.dumped : Stmt → Dump
  | .expression e => .node "Expression" [.labelled "Expression" e.dumped]
  | .print e => .node "Print" [.labelled "Expression" e.dumped]
  | .returns keyword value =>
    .node "Return" (.token "Keyword" keyword :: Dump.optional "Value" (value.map Expr.dumped))
  | .branch condition yes none =>
    .node "If" [.labelled "Condition" condition.dumped, .labelled "ThenBranch" yes.dumped]
  | .branch condition yes (some no) =>
    .node "If"
      [.labelled "Condition" condition.dumped, .labelled "ThenBranch" yes.dumped,
        .labelled "ElseBranch" no.dumped]
  | .loop condition body =>
    .node "While" [.labelled "Condition" condition.dumped, .labelled "Body" body.dumped]
  | .block body => .node "Block" [.labelled "Statements" (.ofList "[]ast.Stmt" (Stmt.dumpedAll body))]
  | .variable name initializer =>
    .node "Var" (.token "Name" name :: Dump.optional "Initializer" (initializer.map Expr.dumped))
  | .routine r => r.dumped "&ast.Function"
  | .classOf name superclass methods =>
    .node "Class"
      ([.token "Name" name] ++
        Dump.optional "Superclass" (superclass.map fun ref => (Expr.variable ref).dumped) ++
        [.labelled "Methods" (.ofList "[]*ast.Function" (Routine.dumpedAll methods))])

def Routine.dumped (head : String) : Routine → Dump
  | .mk name params body =>
    .group (text head)
      [.token "Name" name,
        .labelled "Params" (.ofList "[]token.Token" (params.map (Dump.ofToken ""))),
        .labelled "Body" (.ofList "[]ast.Stmt" (Stmt.dumpedAll body))]

def Stmt.dumpedAll : List Stmt → List Dump
  | [] => []
  | s :: rest => s.dumped :: Stmt.dumpedAll rest

/-- The dumps of methods, which do not repeat their type. -/
def Routine.dumpedAll : List Routine → List Dump
  | [] => []
  | r :: rest => r.dumped "" :: Routine.dumpedAll rest

end

def Program.dumped (program : Program) : Text :=
  (Dump.ofList "[]ast.Stmt" (Stmt.dumpedAll program)).toText 0

end Lox
