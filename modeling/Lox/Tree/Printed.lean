import Lox.Tree

/-!
# Printed trees

A tree in parenthesised prefix form. Expressions stand on one line; a statement takes a line of its
own, and the statements inside it stand indented below it, the last one closing the parenthesis.
-/

namespace Lox

namespace Text

/-- Texts in parentheses, separated by spaces. -/
def parens (parts : List Text) : Text := 40 :: join [32] parts ++ [41]

/-- The last of some lines closed by a parenthesis. -/
def closeLast : List Text → List Text
  | [] => []
  | [line] => [line ++ [41]]
  | line :: rest => line :: closeLast rest

/-- A header with lines below it, indented by two spaces; the last line of all closes the
parenthesis that the header opens. -/
def nested (header : Text) (body : List Text) : List Text :=
  closeLast (header :: body.map (text "  " ++ ·))

end Text

/-- A constant as a tree shows it: strings are quoted. -/
def Literal.printed : Literal → Text
  | .string s => s.quoted
  | l => l.toText

namespace Expr

mutual

/-- The printed form of an expression. -/
def printed : Expr → Text
  | .literal _ value => value.printed
  | .grouping _ inner => Text.parens [text "group", printed inner]
  | .variable ref => ref.name
  | .assign target value => Text.parens [text "=", target.name, printed value]
  | .this _ => text "this"
  | .super _ method => text "super." ++ method.lexeme
  | .unary _ _ sign operand => Text.parens [sign.lexeme, printed operand]
  | .binary _ _ sign left right => Text.parens [sign.lexeme, printed left, printed right]
  | .logical _ _ sign left right => Text.parens [sign.lexeme, printed left, printed right]
  | .conditional _ condition _ middle _ right =>
    Text.parens [text "?:", printed condition, printed middle, printed right]
  | .call _ callee _ arguments =>
    Text.parens (text "call" :: printed callee :: printedAll arguments)
  | .get _ object name => Text.parens [text "get", printed object, name.lexeme]
  | .set _ object name value =>
    Text.parens [text "set", printed object, name.lexeme, printed value]

def printedAll : List Expr → List Text
  | [] => []
  | e :: rest => printed e :: printedAll rest

end

end Expr

/-- The printed form of an expression after a header. -/
def Expr.headed (header : String) (e : Expr) : Text := text header ++ e.printed

mutual

/-- The lines of a statement. -/
def Stmt.lines : Stmt → List Text
  | .expression e => [Expr.headed "(expr " e ++ [41]]
  | .print e => [Expr.headed "(print " e ++ [41]]
  | .returns _ none => [text "(return)"]
  | .returns _ (some e) => [Expr.headed "(return " e ++ [41]]
  | .branch condition yes none => Text.nested (Expr.headed "(if " condition) yes.lines
  | .branch condition yes (some no) =>
    Text.nested (Expr.headed "(if " condition) (yes.lines ++ Text.nested (text "(else") no.lines)
  | .loop condition body => Text.nested (Expr.headed "(while " condition) body.lines
  | .block body => Text.nested (text "(block") (Stmt.linesOfAll body)
  | .variable name none => [text "(var " ++ name.lexeme ++ [41]]
  | .variable name (some e) => [text "(var " ++ name.lexeme ++ 32 :: e.printed ++ [41]]
  | .routine r => r.lines
  | .classOf name none methods =>
    Text.nested (text "(class " ++ name.lexeme) (Routine.linesOfAll methods)
  | .classOf name (some superclass) methods =>
    Text.nested (text "(class " ++ name.lexeme ++ text " < " ++ superclass.name)
      (Routine.linesOfAll methods)

def Routine.lines : Routine → List Text
  | .mk name params body =>
    Text.nested
      (text "(fun " ++ name.lexeme ++ text " (" ++ Text.join [32] (params.map (·.lexeme)) ++ [41])
      (Stmt.linesOfAll body)

def Stmt.linesOfAll : List Stmt → List Text
  | [] => []
  | s :: rest => s.lines ++ Stmt.linesOfAll rest

def Routine.linesOfAll : List Routine → List Text
  | [] => []
  | r :: rest => r.lines ++ Routine.linesOfAll rest

end

def Program.printed (program : Program) : Text :=
  Text.join [Text.newline] (Stmt.linesOfAll program)

end Lox
