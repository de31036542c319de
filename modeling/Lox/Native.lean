import Lox.Heap

/-!
# Built-in functions

What the built-in functions do to the heap, and how they fail. A built-in function first looks at its
arguments and either refuses them, which is an error of the program, or accepts them with an action; so
a refusal changes nothing. A fault is something that no program can bring about.
-/

namespace Lox

/-- A built-in function refuses its arguments. -/
inductive NativeError where
  | firstNotInstance (n : Native)
  | secondNotName (n : Native)
  | secondNotClass
  | noAttribute (name : Text)
  deriving DecidableEq, Repr

def NativeError.message : NativeError → Text
  | .firstNotInstance n => text s!"First argument to '{n.name}' should be an instance."
  | .secondNotName n => text s!"Second argument to '{n.name}' should be a field name."
  | .secondNotClass => text "Second argument to 'isinstance' should be a class."
  | .noAttribute name => text "Instance has no attribute named '" ++ name ++ text "'."

/-- A breach of the rules that the earlier stages guarantee. -/
inductive Fault where
  | missingScope
  | absentValue
  | notAnInstance
  | notAClass
  | missingFunction
  | missingArgument
  | argumentCount
  | strayReturn
  | strayResult
  deriving DecidableEq, Repr

/-- The wording of a fault, for those that have one. -/
def Fault.message? : Fault → Option String
  | .argumentCount => some "Got wrong number of arguments in native function."
  | _ => none

/-- What a built-in function does once it has accepted its arguments. -/
inductive NativeAction where
  | give (v : Value)
  | take (o : InstanceId) (p : Property)
  | store (o : InstanceId) (name : Text) (v : Value)
  | remove (o : InstanceId) (name : Text)

/-- What an action does to the heap, and the result of the call. -/
def NativeAction.perform (h : Heap) : NativeAction → Heap × Value
  | .give v => (h, v)
  | .take o p => h.take o p
  | .store o name v => (h.setField o name v, .nil)
  | .remove o name => (h.removeField o name, .nil)

/-- What comes of calling a built-in function. -/
inductive NativeResult where
  | accepted (action : NativeAction)
  | refused (e : NativeError)
  | fault (f : Fault)

namespace Native

/-- The instance and the name that an attribute function works on. -/
def attributeOf (n : Native) : Value → Value → Except NativeError (InstanceId × Text)
  | .instanceValue o, .string name => .ok (o, name)
  | .instanceValue _, _ => .error (.secondNotName n)
  | _, _ => .error (.firstNotInstance n)

/-- Calls a built-in function; `now` is the reading of the clock. -/
def call (n : Native) (now : Number) (h : Heap) (args : List Value) : NativeResult :=
  match n, args with
  | .clock, [] => .accepted (.give (.number now))
  | .str, [.absent] => .fault .absentValue
  | .str, [v] => .accepted (.give (.string (h.display v)))
  | .getattr, [o, name] =>
    match n.attributeOf o name with
    | .error e => .refused e
    | .ok (o, name) =>
      match h.property? o name with
      | some p => .accepted (.take o p)
      | none => .refused (.noAttribute name)
  | .setattr, [o, name, v] =>
    match n.attributeOf o name with
    | .error e => .refused e
    | .ok (o, name) => .accepted (.store o name v)
  | .delattr, [o, name] =>
    match n.attributeOf o name with
    | .error e => .refused e
    | .ok (o, name) =>
      match h.field? o name with
      | some _ => .accepted (.remove o name)
      | none => .refused (.noAttribute name)
  | .isinstance, [o, c] =>
    match o, c with
    | .instanceValue o, .classValue c =>
      match h.classOf? o with
      | some own => .accepted (.give (.bool (h.isSubclass own c)))
      | none => .fault .notAnInstance
    | .instanceValue _, _ => .refused .secondNotClass
    | _, _ => .refused (.firstNotInstance n)
  | _, _ => .fault .argumentCount

end Native

end Lox
