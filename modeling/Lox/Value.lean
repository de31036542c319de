import Lox.Token

/-!
# Values

What variables and fields hold. Functions, classes and instances are known by their identity in the
heap; everything else is a value in itself. `absent` is what a scope answers for a name that it does
not hold; a program never gets to see it.
-/

namespace Lox

/-- The identity of a scope in the heap. -/
abbrev ScopeId := Nat

/-- The identity of a function in the heap. -/
abbrev FunctionId := Nat

/-- The identity of a class in the heap. -/
abbrev ClassId := Nat

/-- The identity of an instance in the heap. -/
abbrev InstanceId := Nat

/-- A built-in function. -/
inductive Native where
  | clock
  | str
  | getattr
  | setattr
  | delattr
  | isinstance
  deriving DecidableEq, Repr

namespace Native

def all : List Native := [.clock, .str, .getattr, .setattr, .delattr, .isinstance]

def name : Native → String
  | .clock => "clock"
  | .str => "str"
  | .getattr => "getattr"
  | .setattr => "setattr"
  | .delattr => "delattr"
  | .isinstance => "isinstance"

/-- The number of arguments that a built-in function takes. -/
def arity : Native → Nat
  | .clock => 0
  | .str => 1
  | .getattr => 2
  | .setattr => 3
  | .delattr => 2
  | .isinstance => 2

end Native

/-- A value. -/
inductive Value where
  | absent
  | nil
  | bool (b : Bool)
  | number (x : Number)
  | string (s : Text)
  | function (id : FunctionId)
  | classValue (id : ClassId)
  | instanceValue (id : InstanceId)
  | native (n : Native)
  deriving DecidableEq, Repr, Inhabited

namespace Value

def ofLiteral : Literal → Value
  | .nil => .nil
  | .bool b => .bool b
  | .number x => .number x
  | .string s => .string s

/-- Only nil, false and an absent value are false. -/
def truthy : Value → Bool
  | .absent | .nil => false
  | .bool b => b
  | _ => true

/-- The equality of the language: numbers by value, functions, classes and instances by identity. An
absent value counts as nil. -/
def equals : Value → Value → Bool
  | .number x, .number y => x.equals y
  | .absent, .nil | .nil, .absent => true
  | v, w => v == w

/-- The sum of numbers, or the concatenation of two texts or of a text and a printed number. -/
def add? : Value → Value → Option Value
  | .number x, .number y => some (.number (x.add y))
  | .number x, .string t => some (.string (x.toText ++ t))
  | .string s, .string t => some (.string (s ++ t))
  | .string s, .number y => some (.string (s ++ y.toText))
  | _, _ => none

/-- An operation on two numbers. -/
def arithmetic? (op : Number → Number → Number) : Value → Value → Option Value
  | .number x, .number y => some (.number (op x y))
  | _, _ => none

/-- A comparison of two numbers. -/
def compare? (test : Number → Number → Bool) : Value → Value → Option Value
  | .number x, .number y => some (.bool (test x y))
  | _, _ => none

def sub? : Value → Value → Option Value := arithmetic? Number.sub

def mul? : Value → Value → Option Value := arithmetic? Number.mul

/-- The quotient of two numbers, also by zero. -/
def div? : Value → Value → Option Value := arithmetic? Number.div

def less? : Value → Value → Option Value := compare? Number.less

/-- The first number is below or equal to the second. -/
def lessEqual? : Value → Value → Option Value := compare? Number.lessEqual

def greater? : Value → Value → Option Value := compare? fun x y => y.less x

/-- The first number is above or equal to the second. -/
def greaterEqual? : Value → Value → Option Value := compare? fun x y => y.lessEqual x

def negate? : Value → Option Value
  | .number x => some (.number x.neg)
  | _ => none

/-- The number zero, of either sign. -/
def isZero : Value → Bool
  | .number x => x.isZero
  | _ => false

end Value

end Lox
