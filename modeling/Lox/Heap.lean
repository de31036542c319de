import Lox.Binding
import Lox.Heap.Forest

/-!
# The heap

The scopes, functions, classes and instances made so far. Identities are numbers in the order of
creation, so a superclass is always older than its subclasses, and a walk up the superclasses follows
older classes only.
-/

namespace Lox

/-- A function: a routine with the scope where it was made. -/
structure Closure where
  routine : Routine
  scope : ScopeId
  /-- It is an initializer, whose calls give the instance. -/
  initializer : Bool

/-- A class. -/
structure ClassInfo where
  name : Text
  superclass : Option ClassId
  methods : Table FunctionId
  deriving Repr

/-- An instance of a class. -/
structure InstanceInfo where
  classId : ClassId
  fields : Table Value
  deriving Repr

/-- What the name of a property stands for. -/
inductive Property where
  | field (v : Value)
  | method (closure : Closure)

/-- Everything that values refer to. -/
structure Heap where
  forest : Forest
  functions : Array Closure
  classes : Array ClassInfo
  instances : Array InstanceInfo

namespace Heap

def empty : Heap := ⟨.empty, #[], #[], #[]⟩

/-- The scope of the globals, the first one made. -/
def globals : ScopeId := 0

/-- The heap at the start of a session: the globals hold the built-in functions. -/
def initial : Heap :=
  let (forest, globals) := Forest.empty.new none
  { empty with
    forest := Native.all.foldl (fun f n => f.define globals (text n.name) (.native n)) forest }

def newFunction (h : Heap) (c : Closure) : Heap × FunctionId :=
  let f := h.functions.size
  ({ h with functions := h.functions.push c }, f)

def newClass (h : Heap) (c : ClassInfo) : Heap × ClassId :=
  let id := h.classes.size
  ({ h with classes := h.classes.push c }, id)

def newInstance (h : Heap) (c : ClassId) : Heap × InstanceId :=
  let o := h.instances.size
  ({ h with instances := h.instances.push ⟨c, .empty⟩ }, o)

def newScope (h : Heap) (enclosing : Option ScopeId) : Heap × ScopeId :=
  let (forest, e) := h.forest.new enclosing
  ({ h with forest }, e)

def define (h : Heap) (e : ScopeId) (name : Text) (v : Value) : Heap :=
  { h with forest := h.forest.define e name v }

/-- The method of a name in a class or its nearest ancestor that has one. -/
def findMethod? (h : Heap) (c : ClassId) (name : Text) : Option FunctionId :=
  match h.classes[c]? with
  | none => none
  | some info =>
    match info.methods.get? name with
    | some f => some f
    | none =>
      match info.superclass with
      | none => none
      | some parent => if parent < c then h.findMethod? parent name else none
termination_by c

/-- A class is another one or has it as an ancestor. -/
def isSubclass (h : Heap) (c ancestor : ClassId) : Bool :=
  c == ancestor ||
    match (h.classes[c]?).bind (·.superclass) with
    | none => false
    | some parent => if parent < c then h.isSubclass parent ancestor else false
termination_by c

def functionArity (h : Heap) (f : FunctionId) : Nat :=
  match h.functions[f]? with
  | some closure => closure.routine.arity
  | none => 0

/-- The number of arguments that a class takes: those of its initializer. -/
def classArity (h : Heap) (c : ClassId) : Nat :=
  match h.findMethod? c initName with
  | some f => h.functionArity f
  | none => 0

/-- The number of arguments that a value takes when it is called, if it can be called. -/
def arity? (h : Heap) : Value → Option Nat
  | .function f => some (h.functionArity f)
  | .classValue c => some (h.classArity c)
  | .native n => some n.arity
  | _ => none

def functionName (h : Heap) (f : FunctionId) : Text :=
  match h.functions[f]? with
  | some closure => closure.routine.name.lexeme
  | none => []

def className (h : Heap) (c : ClassId) : Text :=
  match h.classes[c]? with
  | some info => info.name
  | none => []

/-- The name under which a call of a value appears in traces. -/
def callName (h : Heap) : Value → Text
  | .function f => h.functionName f
  | .classValue c => h.className c
  | .native n => text n.name
  | _ => []

def classOf? (h : Heap) (o : InstanceId) : Option ClassId := h.instances[o]?.map (·.classId)

/-- The printed form of a value; an absent value has none. -/
def display (h : Heap) : Value → Text
  | .absent => []
  | .nil => text "nil"
  | .bool true => text "true"
  | .bool false => text "false"
  | .number x => x.toText
  | .string s => s
  | .function f => text "<fn " ++ h.functionName f ++ text ">"
  | .classValue c => h.className c
  | .instanceValue o =>
    match h.classOf? o with
    | some c => h.className c ++ text " instance"
    | none => []
  | .native _ => text "<native fn>"

/-- Binds a method to an instance: a function like it, in a new scope that holds the instance. -/
def bind (h : Heap) (method : Closure) (o : InstanceId) : Heap × FunctionId :=
  let (h, e) := h.newScope (some method.scope)
  let h := h.define e thisName (.instanceValue o)
  h.newFunction { method with scope := e }

/-- The function that a class or its nearest ancestor has as the method of a name. -/
def method? (h : Heap) (c : ClassId) (name : Text) : Option Closure :=
  (h.findMethod? c name).bind fun f => h.functions[f]?

def field? (h : Heap) (o : InstanceId) (name : Text) : Option Value :=
  (h.instances[o]?).bind (·.fields.get? name)

/-- A property of an instance: the field of that name, or else the method. -/
def property? (h : Heap) (o : InstanceId) (name : Text) : Option Property :=
  match h.field? o name with
  | some v => some (.field v)
  | none => ((h.classOf? o).bind fun c => h.method? c name).map .method

/-- The value of a property of an instance; a method is bound to the instance. -/
def take (h : Heap) (o : InstanceId) : Property → Heap × Value
  | .field v => (h, v)
  | .method closure =>
    let (h, f) := h.bind closure o
    (h, .function f)

def setField (h : Heap) (o : InstanceId) (name : Text) (v : Value) : Heap :=
  { h with instances := h.instances.modify o fun i => { i with fields := i.fields.insert name v } }

def removeField (h : Heap) (o : InstanceId) (name : Text) : Heap :=
  { h with instances := h.instances.modify o fun i => { i with fields := i.fields.erase name } }

/-- Puts arguments under the names of parameters in a scope; further arguments are ignored. -/
def defineAll (h : Heap) (e : ScopeId) : List Token → List Value → Heap
  | p :: params, v :: args => (h.define e p.lexeme v).defineAll e params args
  | _, _ => h

/-- Makes the scope of a call: it is enclosed by the scope of the function and holds its arguments. -/
def enter (h : Heap) (c : Closure) (args : List Value) : Heap × ScopeId :=
  let (h, e) := h.newScope (some c.scope)
  (h.defineAll e c.routine.params args, e)

/-- The result of a call whose body returned a value or ended without one: an initializer gives its
instance, and a function without a result gives nil. -/
def result (h : Heap) (c : Closure) (returned : Option Value) : Value :=
  if c.initializer then h.forest.valueIn c.scope thisName
  else
    match returned with
    | none | some .absent => .nil
    | some v => v

end Heap

end Lox
