import Lox.Native

/-!
# Runtime errors

What can be wrong while a program runs, and how it is worded. A runtime error blames a token and lists
the calls that were active.
-/

namespace Lox

/-- Why an operation of a program failed. -/
inductive RuntimeCause where
  | undefinedVariable (name : Text)
  | undefinedProperty (name : Text)
  | operandsNotAddable (left right : Text)
  | operandsNotNumbers (left right : Text)
  | operandNotNumber (operand : Text)
  | divisionByZero
  | notCallable
  | wrongArgumentCount (expected got : Nat)
  | noProperties
  | noFields
  | superclassNotClass
  | native (e : NativeError)
  deriving DecidableEq, Repr

def RuntimeCause.message : RuntimeCause → Text
  | .undefinedVariable name => text "Undefined variable '" ++ name ++ text "'."
  | .undefinedProperty name => text "Undefined property '" ++ name ++ text "'."
  | .operandsNotAddable left right =>
    text "Operands (" ++ left ++ text ", " ++ right ++ text ") must be numbers or strings."
  | .operandsNotNumbers left right =>
    text "Operands (" ++ left ++ text ", " ++ right ++ text ") must be numbers."
  | .operandNotNumber operand => text "Operand '" ++ operand ++ text "' must be a number."
  | .divisionByZero => text "Division by zero."
  | .notCallable => text "Can only call functions and classes."
  | .wrongArgumentCount expected got =>
    text "Expected " ++ .ofNat expected ++ text " arguments but got " ++ .ofNat got ++ text "."
  | .noProperties => text "Only instances have properties."
  | .noFields => text "Only instances have fields."
  | .superclassNotClass => text "Superclass must be a class."
  | .native e => e.message

/-- A line in a function, as a trace lists it. -/
structure TraceEntry where
  function : Text
  line : Int
  deriving DecidableEq, Repr

/-- A runtime error in words: the line to blame, the message, and the active calls, the innermost
first. -/
structure RuntimeReport where
  line : Int
  message : Text
  trace : List TraceEntry
  deriving DecidableEq, Repr

def RuntimeReport.toText (r : RuntimeReport) : Text :=
  text "[line " ++ Text.ofInt r.line ++ text "] " ++ r.message

/-- A failed operation: the token to blame, the cause, and the calls that were active, the innermost
first. -/
structure RuntimeError where
  token : Token
  cause : RuntimeCause
  trace : Array TraceEntry
  deriving DecidableEq, Repr

def RuntimeError.report (e : RuntimeError) : RuntimeReport :=
  ⟨e.token.line, e.cause.message, e.trace.toList⟩

end Lox
