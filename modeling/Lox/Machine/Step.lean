import Lox.Machine

/-!
# Steps of a machine

One step looks at the control and at most one task. Expressions push tasks for their operands, from
left to right; the end of a statement resumes the task below it; a failure gives up one task per step
and restores the scope and the calls that the task had changed.
-/

namespace Lox

namespace Machine

/-- Evaluates an expression next, with a task for its value. -/
def evaluating (e : Expr) (t : Task) (tasks : List Task) (s : Store) : Machine :=
  ⟨.evaluate e, t :: tasks, s⟩

/-- Fails at a token, in the innermost call. -/
def raise (t : Token) (cause : RuntimeCause) (tasks : List Task) (s : Store) : Machine :=
  ⟨.unwind (.error ⟨t, cause, #[⟨s.frame, t.line⟩]⟩), tasks, s⟩

/-- Hands on a value that a store operation found, or fails at a token. -/
def handOn (t : Token) (result : Except (Fault ⊕ RuntimeCause) Value) (tasks : List Task) (s : Store) :
    Machine :=
  match result with
  | .ok v => ⟨.deliver v, tasks, s⟩
  | .error (.inl f) => ⟨.fault f, tasks, s⟩
  | .error (.inr cause) => raise t cause tasks s

/-- A method of the superclass, bound to the instance. The scope that holds `this` is the one inside
the scope that holds `super`. -/
def superMethod (ref : Reference) (method : Token) (tasks : List Task) (s : Store) : Machine :=
  let d := (s.bindings[ref.site]?).getD 0
  match s.heap.forest.getAt? s.scope d superName, s.heap.forest.getAt? s.scope (d - 1) thisName with
  | some (.classValue c), some (.instanceValue o) =>
    match s.heap.method? c method.lexeme with
    | none => raise method (.undefinedProperty method.lexeme) tasks s
    | some closure =>
      let (s, bound) := s.bind closure o
      ⟨.deliver (.function bound), tasks, s⟩
  | some (.classValue _), some _ => ⟨.fault .notAnInstance, tasks, s⟩
  | some _, some _ => ⟨.fault .notAClass, tasks, s⟩
  | _, _ => ⟨.fault .missingScope, tasks, s⟩

def evaluate (e : Expr) (tasks : List Task) (s : Store) : Machine :=
  match e with
  | .literal _ l => ⟨.deliver (.ofLiteral l), tasks, s⟩
  | .grouping _ inner => ⟨.evaluate inner, tasks, s⟩
  | .variable ref => handOn ref.token (s.lookUp ref) tasks s
  | .this ref => handOn ref.token (s.lookUp ref) tasks s
  | .super ref method => superMethod ref method tasks s
  | .assign target value => evaluating value (.assign target) tasks s
  | .unary _ op sign operand => evaluating operand (.unary op sign) tasks s
  | .binary _ op sign left right => evaluating left (.binaryLeft op sign right) tasks s
  | .logical _ op _ left right => evaluating left (.logical op right) tasks s
  | .conditional _ condition _ middle _ right => evaluating condition (.condition middle right) tasks s
  | .call _ callee paren arguments => evaluating callee (.callee paren arguments) tasks s
  | .get _ object name => evaluating object (.get name) tasks s
  | .set _ object name value => evaluating object (.setObject name value) tasks s

/-- Runs statements in a new scope inside the current one. -/
def enterBlock (body : List Stmt) (tasks : List Task) (s : Store) : Machine :=
  ⟨.complete .normal, .sequence body :: .leaveScope s.scope :: tasks, s.openScope⟩

def execute (stmt : Stmt) (tasks : List Task) (s : Store) : Machine :=
  match stmt with
  | .expression e => evaluating e .discard tasks s
  | .print e => evaluating e .print tasks s
  | .returns _ none => ⟨.complete .returned, tasks, { s with returning := some .nil }⟩
  | .returns _ (some e) => evaluating e .returnValue tasks s
  | .branch condition yes no => evaluating condition (.branch yes no) tasks s
  | .loop condition body => evaluating condition (.loopTest condition body) tasks s
  | .block body => enterBlock body tasks s
  | .variable name none => ⟨.complete .normal, tasks, s.define name .nil⟩
  | .variable name (some e) => evaluating e (.variable name) tasks s
  | .routine r => ⟨.complete .normal, tasks, s.declareRoutine r⟩
  | .classOf name none methods => ⟨.complete .normal, tasks, s.declareClass name none methods⟩
  | .classOf name (some superclass) methods =>
    evaluating (.variable superclass) (.superclass name superclass.token methods) tasks s

/-- The value of an operator with two operands. A quotient of numbers by zero is an error. -/
def applyBinary (op : BinaryOp) (h : Heap) (left right : Value) : Except RuntimeCause Value :=
  let numbers (result : Option Value) : Except RuntimeCause Value :=
    match result with
    | some v => .ok v
    | none => .error (.operandsNotNumbers (h.display left) (h.display right))
  match op with
  | .equal => .ok (.bool (left.equals right))
  | .notEqual => .ok (.bool (!left.equals right))
  | .add =>
    match left.add? right with
    | some v => .ok v
    | none => .error (.operandsNotAddable (h.display left) (h.display right))
  | .divide =>
    match left.div? right with
    | some v => if right.isZero then .error .divisionByZero else .ok v
    | none => .error (.operandsNotNumbers (h.display left) (h.display right))
  | .subtract => numbers (left.sub? right)
  | .multiply => numbers (left.mul? right)
  | .less => numbers (left.less? right)
  | .lessEqual => numbers (left.lessEqual? right)
  | .greater => numbers (left.greater? right)
  | .greaterEqual => numbers (left.greaterEqual? right)

/-- The value of an operator with one operand. -/
def applyUnary (op : UnaryOp) (h : Heap) (operand : Value) : Except RuntimeCause Value :=
  match op with
  | .not => .ok (.bool (!operand.truthy))
  | .negate =>
    match operand.negate? with
    | some v => .ok v
    | none => .error (.operandNotNumber (h.display operand))

/-- Adds a frame and logs the call. -/
def pushFrame (name : Text) (paren : Token) (s : Store) : Store :=
  let depth := s.frames.size
  { s with frames := s.frames.push name, log := s.log.push (.call name paren.line depth) }

/-- Takes the innermost frame away and logs the end of the call. -/
def popFrame (name : Text) (s : Store) : Store :=
  { s with frames := s.frames.pop, log := s.log.push (.returned name) }

/-- Runs the body of a function in the scope of a new call. -/
def enterFunction (closure : Closure) (args : List Value) (tasks : List Task) (s : Store) : Machine :=
  if args.length < closure.routine.arity then ⟨.fault .missingArgument, tasks, s⟩
  else
    let outer := s.scope
    let (heap, e) := s.heap.enter closure args
    ⟨.complete .normal, .sequence closure.routine.body :: .endBody closure outer :: tasks,
      { s with heap, scope := e }⟩

/-- Makes an instance and runs its initializer, if there is one. -/
def construct (c : ClassId) (args : List Value) (tasks : List Task) (s : Store) : Machine :=
  let (s, o) := s.newInstance c
  match s.heap.method? c initName with
  | none => ⟨.deliver (.instanceValue o), tasks, s⟩
  | some initializer =>
    let (s, f) := s.bind initializer o
    match s.heap.functions[f]? with
    | some bound => enterFunction bound args (.construct o :: tasks) s
    | none => ⟨.fault .missingFunction, tasks, s⟩

/-- Calls a built-in function. A refusal is an error of the calling function. -/
def callNative (limits : Limits) (n : Native) (args : List Value) (paren : Token) (tasks : List Task)
    (s : Store) : Machine :=
  let name := text n.name
  let now := limits.clock s.readings
  let s := { s with readings := if n = .clock then s.readings + 1 else s.readings }
  let s := pushFrame name paren s
  match n.call now s.heap args with
  | .accepted action =>
    let (heap, v) := action.perform s.heap
    ⟨.deliver v, tasks, popFrame name { s with heap }⟩
  | .refused e => raise paren (.native e) tasks (popFrame name s)
  | .fault f => ⟨.fault f, tasks, s⟩

/-- Calls a value. It must be callable, take that many arguments, and not exceed the depth. -/
def apply (limits : Limits) (callee : Value) (args : List Value) (paren : Token) (tasks : List Task)
    (s : Store) : Machine :=
  match s.heap.arity? callee with
  | none => raise paren .notCallable tasks s
  | some n =>
    if n ≠ args.length then raise paren (.wrongArgumentCount n args.length) tasks s
    else if limits.maxDepth < s.frames.size then ⟨.unwind .overflow, tasks, s⟩
    else
      let name := s.heap.callName callee
      match callee with
      | .native n => callNative limits n args paren tasks s
      | .function f =>
        match s.heap.functions[f]? with
        | some closure =>
          enterFunction closure args (.endCall name paren :: tasks) (pushFrame name paren s)
        | none => ⟨.fault .missingFunction, tasks, s⟩
      | .classValue c => construct c args (.endCall name paren :: tasks) (pushFrame name paren s)
      | _ => ⟨.fault .missingFunction, tasks, s⟩

/-- Evaluates the next argument of a call, or makes the call. -/
def nextArgument (limits : Limits) (paren : Token) (callee : Value) (done : List Value)
    (rest : List Expr) (tasks : List Task) (s : Store) : Machine :=
  match rest with
  | [] => apply limits callee done.reverse paren tasks s
  | e :: rest => evaluating e (.argument paren callee done rest) tasks s

/-- Hands on the outcome of an operator, or fails at its token. -/
def handOnApplied (t : Token) (result : Except RuntimeCause Value) (tasks : List Task) (s : Store) :
    Machine :=
  match result with
  | .ok v => ⟨.deliver v, tasks, s⟩
  | .error cause => raise t cause tasks s

/-- Resumes a task with a value. -/
def resume (limits : Limits) (v : Value) (task : Task) (tasks : List Task) (s : Store) : Machine :=
  match task with
  | .assign ref =>
    match s.target ref with
    | .ok e => ⟨.deliver v, tasks, s.put e ref.name v⟩
    | .error (.inl f) => ⟨.fault f, tasks, s⟩
    | .error (.inr cause) => raise ref.token cause tasks s
  | .unary op sign => handOnApplied sign (applyUnary op s.heap v) tasks s
  | .binaryLeft op sign right => evaluating right (.binaryRight op sign v) tasks s
  | .binaryRight op sign left => handOnApplied sign (applyBinary op s.heap left v) tasks s
  | .logical op right =>
    let decided := match op with
      | .or => v.truthy
      | .and => !v.truthy
    if decided then ⟨.deliver v, tasks, s⟩ else ⟨.evaluate right, tasks, s⟩
  | .condition middle right => evaluating middle (.middle v right) tasks s
  | .middle condition right => evaluating right (.choose condition v) tasks s
  | .choose condition middle => ⟨.deliver (if condition.truthy then middle else v), tasks, s⟩
  | .callee paren arguments => nextArgument limits paren v [] arguments tasks s
  | .argument paren callee done rest => nextArgument limits paren callee (v :: done) rest tasks s
  | .get name =>
    match v with
    | .instanceValue o =>
      match s.heap.property? o name.lexeme with
      | some p =>
        let (heap, w) := s.heap.take o p
        ⟨.deliver w, tasks, { s with heap }⟩
      | none => raise name (.undefinedProperty name.lexeme) tasks s
    | _ => raise name .noProperties tasks s
  | .setObject name value =>
    match v with
    | .instanceValue o => evaluating value (.setValue name o) tasks s
    | _ => raise name .noFields tasks s
  | .setValue name o => ⟨.deliver v, tasks, { s with heap := s.heap.setField o name.lexeme v }⟩
  | .discard => ⟨.complete .normal, tasks, s⟩
  | .print => ⟨.complete .normal, tasks, { s with printed := s.printed.push (s.heap.display v) }⟩
  | .returnValue => ⟨.complete .returned, tasks, { s with returning := some v }⟩
  | .branch yes no =>
    if v.truthy then ⟨.execute yes, tasks, s⟩
    else
      match no with
      | some no => ⟨.execute no, tasks, s⟩
      | none => ⟨.complete .normal, tasks, s⟩
  | .loopTest condition body =>
    if v.truthy then ⟨.execute body, .loopBody condition body :: tasks, s⟩
    else ⟨.complete .normal, tasks, s⟩
  | .variable name => ⟨.complete .normal, tasks, s.define name v⟩
  | .superclass name superclass methods =>
    match v with
    | .classValue c => ⟨.complete .normal, tasks, s.declareClass name (some c) methods⟩
    | _ => raise superclass .superclassNotClass tasks s
  | .construct o => ⟨.deliver (.instanceValue o), tasks, s⟩
  | .endCall name _ => ⟨.deliver v, tasks, popFrame name s⟩
  | .sequence _ | .loopBody _ _ | .leaveScope _ | .endBody _ _ => ⟨.fault .strayResult, tasks, s⟩

/-- Ends the body of a function: the scope of the caller is current again, and the result is handed
on. After a `return`, nothing is being returned any more. -/
def endBody (c : Completion) (closure : Closure) (outer : ScopeId) (tasks : List Task) (s : Store) :
    Machine :=
  let s := { s with scope := outer }
  let (returned, s) := match c with
    | .normal => (none, s)
    | .returned => (s.returning, { s with returning := none })
  match s.heap.result closure returned with
  | .absent => ⟨.fault .absentValue, tasks, s⟩
  | v => ⟨.deliver v, tasks, s⟩

/-- Resumes a task after a statement. -/
def proceed (c : Completion) (task : Task) (tasks : List Task) (s : Store) : Machine :=
  match task with
  | .sequence rest =>
    match c, rest with
    | .returned, _ | .normal, [] => ⟨.complete c, tasks, s⟩
    | .normal, stmt :: rest => ⟨.execute stmt, .sequence rest :: tasks, s⟩
  | .loopBody condition body =>
    match c with
    | .returned => ⟨.complete .returned, tasks, s⟩
    | .normal => evaluating condition (.loopTest condition body) tasks s
  | .leaveScope outer => ⟨.complete c, tasks, { s with scope := outer }⟩
  | .endBody closure outer => endBody c closure outer tasks s
  | _ => ⟨.fault .strayResult, tasks, s⟩

/-- Gives a task up because of a failure. A call adds its place to the trace of an error. -/
def giveUp (f : Failure) (task : Task) (tasks : List Task) (s : Store) : Machine :=
  match task with
  | .leaveScope outer => ⟨.unwind f, tasks, { s with scope := outer }⟩
  | .endBody _ outer => ⟨.unwind f, tasks, { s with scope := outer }⟩
  | .endCall _ paren =>
    let s := { s with frames := s.frames.pop }
    match f with
    | .error e =>
      ⟨.unwind (.error { e with trace := e.trace.push ⟨s.frame, paren.line⟩ }), tasks, s⟩
    | .overflow => ⟨.unwind .overflow, tasks, s⟩
  | _ => ⟨.unwind f, tasks, s⟩

/-- One step. A machine without anything left to do stays as it is. -/
def step (limits : Limits) : Machine → Machine
  | ⟨.evaluate e, tasks, s⟩ => evaluate e tasks s
  | ⟨.execute stmt, tasks, s⟩ => execute stmt tasks s
  | ⟨.deliver v, task :: tasks, s⟩ => resume limits v task tasks s
  | ⟨.deliver _, [], s⟩ => ⟨.fault .strayResult, [], s⟩
  | ⟨.complete c, task :: tasks, s⟩ => proceed c task tasks s
  | ⟨.complete .returned, [], s⟩ => ⟨.fault .strayReturn, [], s⟩
  | ⟨.complete .normal, [], s⟩ => ⟨.complete .normal, [], s⟩
  | ⟨.unwind f, task :: tasks, s⟩ => giveUp f task tasks s
  | ⟨.unwind f, [], s⟩ => ⟨.unwind f, [], s⟩
  | ⟨.fault f, tasks, s⟩ => ⟨.fault f, tasks, s⟩

/-- The machine has come to an end. -/
def halted : Machine → Bool
  | ⟨.complete .normal, [], _⟩ | ⟨.unwind _, [], _⟩ | ⟨.fault _, _, _⟩ => true
  | _ => false

/-- Runs a machine until it has come to an end, for at most a number of steps. -/
def run (limits : Limits) : (steps : Nat) → Machine → Machine
  | 0, m => m
  | n + 1, m => if m.halted then m else run limits n (m.step limits)

/-- A machine about to run a program: the script is the only frame and the globals are current. -/
def start (program : Program) (s : Store) : Machine :=
  ⟨.complete .normal, [.sequence program],
    { s with scope := Heap.globals, frames := #[scriptFrame], returning := none }⟩

end Machine

/-- How a program ends, if it does within the steps that it is given. -/
inductive Outcome where
  | finished
  | error (e : RuntimeError)
  | overflow
  | fault (f : Fault)
  | unfinished
  deriving DecidableEq, Repr

/-- The outcome that the state of a machine shows. -/
def Machine.outcome : Machine → Outcome
  | ⟨.complete .normal, [], _⟩ => .finished
  | ⟨.unwind (.error e), [], _⟩ => .error e
  | ⟨.unwind .overflow, [], _⟩ => .overflow
  | ⟨.fault f, _, _⟩ => .fault f
  | _ => .unfinished

end Lox
