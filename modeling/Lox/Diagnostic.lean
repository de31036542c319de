import Lox.Token

/-!
# Diagnostics

What can be wrong with a source before it runs, where it was found, and the wording. Errors are
causes here; `message` functions turn them into text, and a `Diagnostic` is the text with its line
and place.
-/

namespace Lox

/-- What can be wrong with the characters of a source. -/
inductive LexicalError where
  | unexpectedCharacter
  | unterminatedString
  | invalidNumber
  deriving DecidableEq, Repr

def LexicalError.message : LexicalError → String
  | .unexpectedCharacter => "Unexpected character."
  | .unterminatedString => "Unterminated string."
  | .invalidNumber => "Invalid number."

/-- A function or a method, as messages call it. -/
inductive RoutineSort where
  | function
  | method
  deriving DecidableEq, Repr

def RoutineSort.noun : RoutineSort → String
  | .function => "function"
  | .method => "method"

/-- What the grammar requires at a place where a source has something else. -/
inductive Expected where
  | className | superclassName | classOpening | classClosing
  | routineName (sort : RoutineSort) | parametersOpening (sort : RoutineSort)
  | parameterName | parametersClosing | bodyOpening (sort : RoutineSort)
  | variableName | declarationEnd
  | printEnd | returnEnd | expressionEnd | blockClosing
  | conditionOpening (keyword : String) | conditionClosing
  | loopConditionEnd | loopClosing
  | expression | colon | propertyName | superDot | superMethodName
  | groupClosing | argumentsClosing
  deriving DecidableEq, Repr

def Expected.phrase : Expected → String
  | .className => "class name"
  | .superclassName => "superclass name"
  | .classOpening => "'\x7b' before class body"
  | .classClosing => "'\x7d' after class body"
  | .routineName s => s.noun ++ " name"
  | .parametersOpening s => "'(' after " ++ s.noun ++ " name"
  | .parameterName => "parameter name"
  | .parametersClosing => "')' after parameters"
  | .bodyOpening s => "'\x7b' before " ++ s.noun ++ " body"
  | .variableName => "variable name"
  | .declarationEnd => "';' after variable declaration"
  | .printEnd => "';' after value"
  | .returnEnd => "';' after return value"
  | .expressionEnd => "';' after expression"
  | .blockClosing => "'\x7d' after block"
  | .conditionOpening keyword => "'(' after '" ++ keyword ++ "'"
  | .conditionClosing => "')' after condition"
  | .loopConditionEnd => "';' after loop condition"
  | .loopClosing => "')' after for clauses"
  | .expression => "expression"
  | .colon => "':' after expression"
  | .propertyName => "property name after '.'"
  | .superDot => "'.' after 'super'"
  | .superMethodName => "superclass method name"
  | .groupClosing => "')' after expression"
  | .argumentsClosing => "')' after arguments"

/-- What can be wrong with the order of tokens. -/
inductive SyntaxError where
  | missing (what : Expected)
  | tooManyParameters
  | tooManyArguments
  | invalidTarget
  deriving DecidableEq, Repr

def SyntaxError.message : SyntaxError → String
  | .missing what => "Expect " ++ what.phrase ++ "."
  | .tooManyParameters => "Can't have more than 255 parameters."
  | .tooManyArguments => "Can't have more than 255 arguments."
  | .invalidTarget => "Invalid assignment target."

/-- What can be wrong with the use of names and keywords. -/
inductive Misuse where
  | duplicateDeclaration
  | ownInitializer
  | returnAtTop
  | returnFromInitializer
  | thisOutsideClass
  | superOutsideClass
  | superWithoutSuperclass
  | inheritsFromItself
  deriving DecidableEq, Repr

def Misuse.message : Misuse → String
  | .duplicateDeclaration => "Already a variable with this name in this scope."
  | .ownInitializer => "Can't read local variable in its own initializer."
  | .returnAtTop => "Can't return from top-level code."
  | .returnFromInitializer => "Can't return a value from an initializer."
  | .thisOutsideClass => "Can't use 'this' outside of a class."
  | .superOutsideClass => "Can't use 'super' outside of a class."
  | .superWithoutSuperclass => "Can't use 'super' in a class with no superclass."
  | .inheritsFromItself => "A class can't inherit from itself."

/-- The place that a diagnostic names besides its line. -/
inductive Place where
  | nowhere
  | atEnd
  | atLexeme (lexeme : Text)
  deriving DecidableEq, Repr

/-- The place of a token: its lexeme, or the end of the source. -/
def Place.ofToken (t : Token) : Place :=
  if t.kind = .endOfFile then .atEnd else .atLexeme t.lexeme

def Place.toText : Place → Text
  | .nowhere => []
  | .atEnd => text " at end"
  | .atLexeme lexeme => text " at '" ++ lexeme ++ text "'"

/-- The cause of a static error, by the stage that finds it. -/
inductive Cause where
  | lexical (e : LexicalError)
  | grammar (e : SyntaxError)
  | misuse (e : Misuse)
  deriving DecidableEq, Repr

def Cause.message : Cause → String
  | .lexical e => e.message
  | .grammar e => e.message
  | .misuse e => e.message

/-- An error found before a source runs. -/
structure StaticError where
  line : Nat
  place : Place
  cause : Cause
  deriving DecidableEq, Repr

namespace StaticError

def ofLexical (line : Nat) (e : LexicalError) : StaticError := ⟨line, .nowhere, .lexical e⟩

def ofGrammar (t : Token) (e : SyntaxError) : StaticError := ⟨t.line, .ofToken t, .grammar e⟩

def ofMisuse (t : Token) (e : Misuse) : StaticError := ⟨t.line, .ofToken t, .misuse e⟩

end StaticError

/-- A message with its line and place. -/
structure Diagnostic where
  line : Int
  place : Place
  message : Text
  deriving DecidableEq, Repr

namespace Diagnostic

def onLine (line : Int) (message : Text) : Diagnostic := ⟨line, .nowhere, message⟩

def ofStatic (e : StaticError) : Diagnostic := ⟨e.line, e.place, text e.cause.message⟩

def toText (d : Diagnostic) : Text :=
  text "[line " ++ Text.ofInt d.line ++ text "] Error" ++ d.place.toText ++ text ": " ++ d.message

end Diagnostic

end Lox
