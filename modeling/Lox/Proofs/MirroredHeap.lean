import Lox.Native
import Lox.Proofs.SoundHeap

/-!
# Heaps with other functions

Two heaps can differ in their functions alone: in the code of a routine, or in the scope where a function was
made. `Heap.Mirrors` says that each function of one heap is that of the other, changed by some map. As long as
the map keeps names and numbers of parameters, both heaps answer all questions about values alike: how they are
displayed, how they are called, and what their properties are.
-/

namespace Lox

/-- A change of functions that cannot be told from their names and parameters. -/
structure Closure.Disguise (φ : Closure → Closure) : Prop where
  name : ∀ c, (φ c).routine.name = c.routine.name
  arity : ∀ c, (φ c).routine.arity = c.routine.arity

/-- A property with its function changed. -/
def Property.mapClosure (φ : Closure → Closure) : Property → Property
  | .field v => .field v
  | .method closure => .method (φ closure)

/-- What a built-in function does, with the functions changed. -/
def NativeAction.mapClosure (φ : Closure → Closure) : NativeAction → NativeAction
  | .take o p => .take o (p.mapClosure φ)
  | a => a

/-- What comes of calling a built-in function, with the functions changed. -/
def NativeResult.mapClosure (φ : Closure → Closure) : NativeResult → NativeResult
  | .accepted a => .accepted (a.mapClosure φ)
  | r => r

namespace Heap

/-- The second heap has the functions of the first one, changed, and the same classes and instances. -/
structure Mirrors (φ : Closure → Closure) (h h' : Heap) : Prop where
  functions : h'.functions = h.functions.map φ
  classes : h'.classes = h.classes
  instances : h'.instances = h.instances

namespace Mirrors

variable {φ : Closure → Closure} {h h' : Heap}

section

variable (hm : h.Mirrors φ h')

include hm

theorem getElem? (f : FunctionId) : h'.functions[f]? = h.functions[f]?.map φ := by
  rw [hm.functions, Array.getElem?_map]

theorem findMethod? (c : ClassId) (name : Text) : h'.findMethod? c name = h.findMethod? c name :=
  findMethod?_congr hm.classes c name

theorem method? (c : ClassId) (name : Text) : h'.method? c name = (h.method? c name).map φ := by
  rw [Heap.method?, Heap.method?, hm.findMethod?, Option.map_bind]
  exact congrArg _ (funext hm.getElem?)

theorem field? (o : InstanceId) (name : Text) : h'.field? o name = h.field? o name := by
  rw [Heap.field?, Heap.field?, hm.instances]

theorem classOf? (o : InstanceId) : h'.classOf? o = h.classOf? o := by
  rw [Heap.classOf?, Heap.classOf?, hm.instances]

theorem className (c : ClassId) : h'.className c = h.className c := by
  rw [Heap.className, Heap.className, hm.classes]

theorem isSubclass (c ancestor : ClassId) : h'.isSubclass c ancestor = h.isSubclass c ancestor := by
  rw [Heap.isSubclass, Heap.isSubclass, hm.classes]
  congr 1
  split
  · rfl
  · split
    · exact isSubclass _ ancestor
    · rfl
termination_by c

/-- The mirrored heap has the same properties, with mirrored methods. -/
theorem property? (o : InstanceId) (name : Text) :
    h'.property? o name = (h.property? o name).map (Property.mapClosure φ) := by
  rw [Heap.property?, Heap.property?, hm.field?, hm.classOf?]
  cases h.field? o name with
  | some v => rfl
  | none =>
    cases h.classOf? o with
    | none => rfl
    | some c =>
      dsimp only [Option.bind_some]
      rw [hm.method?]
      cases h.method? c name <;> rfl

end

section

variable (hφ : Closure.Disguise φ) (hm : h.Mirrors φ h')

include hφ hm

theorem functionArity (f : FunctionId) : h'.functionArity f = h.functionArity f := by
  rw [Heap.functionArity, Heap.functionArity, hm.getElem?]
  cases h.functions[f]? with
  | none => rfl
  | some c => exact hφ.arity c

/-- The mirrored heap has callables of the same arity. -/
theorem arity? (v : Value) : h'.arity? v = h.arity? v := by
  cases v with
  | function f => exact congrArg some (functionArity hφ hm f)
  | classValue c =>
    rw [Heap.arity?, Heap.arity?, Heap.classArity, Heap.classArity, hm.findMethod?]
    split
    · rw [functionArity hφ hm]
    · rfl
  | _ => rfl

theorem functionName (f : FunctionId) : h'.functionName f = h.functionName f := by
  rw [Heap.functionName, Heap.functionName, hm.getElem?]
  cases h.functions[f]? with
  | none => rfl
  | some c => exact congrArg Token.lexeme (hφ.name c)

theorem callName (v : Value) : h'.callName v = h.callName v := by
  cases v with
  | function f => exact functionName hφ hm f
  | classValue c => exact hm.className c
  | _ => rfl

/-- The mirrored heap displays values in the same way. -/
theorem display (v : Value) : h'.display v = h.display v := by
  cases v with
  | function f => rw [Heap.display, Heap.display, functionName hφ hm]
  | bool b => cases b <;> rfl
  | classValue c => exact hm.className c
  | instanceValue o =>
    rw [Heap.display, Heap.display, hm.classOf?]
    split
    · rw [hm.className]
    · rfl
  | _ => rfl

/-- Built-in functions give the same in the mirrored heap. -/
theorem nativeCall (n : Native) (now : Number) (args : List Value) :
    n.call now h' args = (n.call now h args).mapClosure φ := by
  unfold Native.call
  split
  case h_3 => rw [display hφ hm]; rfl
  case h_4 =>
    split
    · rfl
    · rw [hm.property?]
      cases h.property? _ _ <;> rfl
  case h_5 => split <;> rfl
  case h_6 =>
    split
    · rfl
    · rw [hm.field?]
      split <;> rfl
  case h_7 =>
    split
    · rw [hm.classOf?]
      split
      · rw [hm.isSubclass]
        rfl
      · rfl
    · rfl
    · rfl
  -- The other calls do not look at the heap.
  all_goals rfl

end

end Mirrors

end Heap

end Lox
