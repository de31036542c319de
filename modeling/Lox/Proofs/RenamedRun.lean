import Lox.Proofs.RenamedHeap
import Lox.Proofs.Running

/-!
# Runs of a program with a renamed variable

A machine that runs the old program goes through the states of the one that runs the renamed program, with the
old name given back (`Machine.Renames`). Each step looks names up in scopes where they may stand, so it finds
the same and goes on in the same way (`Machine.Renames.step`), and so does a whole run
(`Machine.Renames.run`). A runtime error has the same cause and the same trace; the token that it blames may
be one that was renamed.
-/

namespace Lox

/-- A token that keeps its name, or has the new one in the place of the old one. -/
def Renaming.Respelled (σ : Renaming) (t t' : Token) : Prop :=
  t' = t ∨ t.lexeme = σ.old ∧ t' = t.named σ.new

/-- A declaration with the old name given back differs in its spelling only. -/
theorem Renaming.respelled_back (σ : Renaming) (k : Nat) (t : Token) :
    σ.Respelled (σ.back.declaration k t) t := by
  by_cases h : t.lexeme = σ.new
  · refine .inr ⟨?_, ?_⟩
    · change σ.original t.lexeme = σ.old
      rw [h, σ.original_new]
    · rw [← h]
      rfl
  · exact .inl (σ.back_fixesOthers.declaration k t h).symm

theorem Renaming.Respelled.line {σ : Renaming} {t t' : Token} (h : σ.Respelled t t') : t'.line = t.line := by
  rcases h with rfl | ⟨-, rfl⟩ <;> rfl

/-- A store with the old name given back. -/
def Store.original (σ : Renaming) (s : Store) : Store := { s with heap := s.heap.original σ }

namespace Store

variable (σ : Renaming) (s : Store)

theorem heap_original : (s.original σ).heap = s.heap.original σ := rfl

theorem bindings_original : (s.original σ).bindings = s.bindings := rfl

theorem scope_original : (s.original σ).scope = s.scope := rfl

theorem frames_original : (s.original σ).frames = s.frames := rfl

theorem returning_original : (s.original σ).returning = s.returning := rfl

theorem readings_original : (s.original σ).readings = s.readings := rfl

end Store

/-- A task with the old name given back. -/
def Task.original (σ : Renaming) : Task → Task
  | .assign target => .assign (σ.back.reference 0 target)
  | .binaryLeft op sign right => .binaryLeft op sign (right.rename σ.back 0)
  | .logical op right => .logical op (right.rename σ.back 0)
  | .condition yes no => .condition (yes.rename σ.back 0) (no.rename σ.back 0)
  | .middle test no => .middle test (no.rename σ.back 0)
  | .callee paren arguments => .callee paren (Expr.renameAll σ.back 0 arguments)
  | .argument paren called done rest => .argument paren called done (Expr.renameAll σ.back 0 rest)
  | .setObject name value => .setObject name (value.rename σ.back 0)
  | .branch yes no => .branch (yes.rename σ.back 0) (no.map (·.rename σ.back 0))
  | .loopTest test body => .loopTest (test.rename σ.back 0) (body.rename σ.back 0)
  | .variable name => .variable (σ.back.declaration 0 name)
  | .superclass name parent methods =>
    .superclass name (σ.back.declaration 0 parent) (Routine.renameAll σ.back methods 0)
  | .sequence rest => .sequence (Stmt.renameAll σ.back rest 0)
  | .loopBody test body => .loopBody (test.rename σ.back 0) (body.rename σ.back 0)
  | .endBody closure outer => .endBody (closure.original σ) outer
  | t => t

/-- What a machine of the old program is about to do, and what the one of the renamed program is. -/
inductive Control.Renames (σ : Renaming) : Control → Control → Prop where
  | evaluate (e : Expr) : Renames σ (.evaluate (e.rename σ.back 0)) (.evaluate e)
  | execute (s : Stmt) : Renames σ (.execute (s.rename σ.back 0)) (.execute s)
  | deliver (v : Value) : Renames σ (.deliver v) (.deliver v)
  | complete (c : Completion) : Renames σ (.complete c) (.complete c)
  | overflow : Renames σ (.unwind .overflow) (.unwind .overflow)
  | error {t t' : Token} (ht : σ.Respelled t t') (cause : RuntimeCause) (trace : Array TraceEntry) :
    Renames σ (.unwind (.error ⟨t, cause, trace⟩)) (.unwind (.error ⟨t', cause, trace⟩))
  | fault (f : Fault) : Renames σ (.fault f) (.fault f)

/-- A machine of the old program in the state of one of the renamed program. -/
structure Machine.Renames (σ : Renaming) (m m' : Machine) : Prop where
  control : Control.Renames σ m.control m'.control
  tasks : m.tasks = m'.tasks.map (Task.original σ)
  store : m.store = m'.store.original σ

variable {σ : Renaming} {place : ScopeId → Option Nat} {s : Store} {tasks : List Task}

/-! ## Looking names up -/

namespace Machine.Ready

variable {u : Usage} {ref : Reference} (hs : Ready σ.layout σ.recorded place s tasks)

include hs

/-- A name is found a number of scopes out as the name that it was. -/
theorem getAt?_original (hσ : σ.Proper) {d : Nat} {name : Text}
    (hname : ∀ a, s.heap.forest.ancestor? s.scope d = some a → σ.Keeps (place a) name) :
    (s.heap.original σ).forest.getAt? s.scope d (σ.original name) = s.heap.forest.getAt? s.scope d name := by
  rw [Forest.getAt?, Forest.getAt?, Heap.ancestor?_original]
  cases ha : s.heap.forest.ancestor? s.scope d with
  | none => rfl
  | some a => exact congrArg some ((hs.world.keptAt hσ a).valueIn_original (hname a ha))

/-- The name of a reference may stand in the scope that the reference leads to. -/
theorem keeps_ancestor (hfits : u.Fits σ (place s.scope) ref) {d : Nat} (hd : σ.recorded ref.site = some d)
    {a : ScopeId} (ha : s.heap.forest.ancestor? s.scope d = some a) : σ.Keeps (place a) ref.name :=
  Renaming.keeps_of_out (hs.world.out ha) (Renaming.keepsAt_of_fits hfits hd)

theorem keptAt_globals (hσ : σ.Proper) : s.heap.KeptAt σ Heap.globals none := by
  have htop : place Heap.globals = none := hs.world.top
  rw [← htop]
  exact hs.world.keptAt hσ Heap.globals

/-- A reference that fits has the same value under both names. -/
theorem lookUp_original (hσ : σ.Proper) (hfits : u.Fits σ (place s.scope) ref) {t : Token}
    (ht : t.lexeme = σ.original ref.name) : (s.original σ).lookUp ⟨ref.site, t⟩ = s.lookUp ref := by
  unfold Store.lookUp
  rw [Store.bindings_original, show (⟨ref.site, t⟩ : Reference).name = σ.original ref.name from ht]
  dsimp only
  rw [hs.bindings]
  cases hd : σ.recorded ref.site with
  | some d =>
    dsimp only
    rw [Store.heap_original, Store.scope_original,
      hs.getAt?_original hσ fun a ha => hs.keeps_ancestor hfits hd ha]
  | none =>
    -- A reference to a global keeps its name, so the message that it is not defined is the same.
    have hnew := Renaming.original_of_fits hfits hd
    dsimp only
    rw [Store.heap_original,
      (hs.keptAt_globals hσ).get?_original (.of_avoids hnew), Renaming.original_of_ne hnew]

/-- An assignment that fits leads to the same scope under both names. -/
theorem target_original (hσ : σ.Proper) (hfits : u.Fits σ (place s.scope) ref) :
    (s.original σ).target (σ.back.reference 0 ref) = s.target ref := by
  unfold Store.target
  rw [Store.bindings_original, show (σ.back.reference 0 ref).name = σ.original ref.name from rfl,
    show (σ.back.reference 0 ref).site = ref.site from rfl, hs.bindings]
  cases hd : σ.recorded ref.site with
  | some d =>
    dsimp only
    rw [Store.heap_original, Store.scope_original, Heap.ancestor?_original]
  | none =>
    have hnew := Renaming.original_of_fits hfits hd
    dsimp only
    rw [Store.heap_original,
      (hs.keptAt_globals hσ).holder?_original (.of_avoids hnew), Renaming.original_of_ne hnew]

/-- An assignment puts a value under a name that may stand in its scope. -/
theorem keeps_target (hfits : u.Fits σ (place s.scope) ref) {e : ScopeId} (he : s.target ref = .ok e) :
    σ.Keeps (place e) ref.name := by
  unfold Store.target at he
  rw [hs.bindings] at he
  split at he
  · next d hd =>
    split at he
    · next ha =>
      cases he
      exact hs.keeps_ancestor hfits hd ha
    · cases he
  · next hd =>
    split at he
    · next ha =>
      cases he
      rw [Forest.holder?_globals ha, show place Heap.globals = none from hs.world.top]
      exact .of_avoids (Renaming.original_of_fits hfits hd)
    · cases he

end Machine.Ready

/-! ## Declaring names -/

/-- A new scope leaves the names in the others. -/
theorem Heap.KeptAt.openWith {h : Heap} {e : ScopeId} {i : Option Nat} (hkept : h.KeptAt σ e i)
    (he : e < h.forest.scopes.size) (outer : ScopeId) (name : Text) (v : Value) :
    (h.openWith outer name v).1.KeptAt σ e i := by
  intro other w hw
  have hne : e ≠ (h.newScope (some outer)).2 := Nat.ne_of_lt he
  rw [show (h.openWith outer name v).1.forest =
    (h.newScope (some outer)).1.forest.define (h.newScope (some outer)).2 name v from rfl,
    Forest.slot?_define] at hw
  split at hw
  · next heq => exact absurd heq.1 hne
  · exact hkept other w ((h.forest.slot?_new (some outer) e other).symm.trans hw)

namespace Store

theorem define_original {i : Option Nat} (hkept : s.heap.KeptAt σ s.scope i) {t t' : Token}
    (hname : σ.Keeps i t'.lexeme) (ht : t.lexeme = σ.original t'.lexeme) (v : Value) :
    (s.original σ).define t v = (s.define t' v).original σ := by
  have hdefine := hkept.define_original hname v
  rw [← ht] at hdefine
  exact congrArg (fun heap => { s with heap }) hdefine.symm

theorem newFunction_original (s : Store) (r : Routine) (initializer : Bool) :
    (s.original σ).newFunction (r.rename σ.back 0) initializer =
      ((s.newFunction r initializer).1.original σ, (s.newFunction r initializer).2) := by
  have hfunction := Heap.newFunction_original (σ := σ) s.heap ⟨r, s.scope, initializer⟩
  exact congrArg (fun made : Heap × FunctionId => ({ s with heap := made.1 }, made.2)) hfunction

theorem declareRoutine_original {i : Option Nat} (hkept : s.heap.KeptAt σ s.scope i) {r : Routine}
    (hname : σ.Keeps i r.name.lexeme) (hnew : r.name.lexeme ≠ σ.new) :
    (s.original σ).declareRoutine (r.rename σ.back 0) = (s.declareRoutine r).original σ := by
  have hdefine := define_original (s := (s.newFunction r false).1) (t := r.name) hkept hname
    (Renaming.original_of_ne hnew).symm (.function (s.newFunction r false).2)
  unfold declareRoutine
  rw [newFunction_original, Routine.name_rename]
  exact hdefine

/-- The methods of a class are made alike under both names. -/
theorem makeMethods_original (s : Store) (methods : List Routine) :
    (s.original σ).makeMethods (Routine.renameAll σ.back methods 0) =
      ((s.makeMethods methods).1.original σ, (s.makeMethods methods).2) := by
  rw [makeMethods_eq, makeMethods_eq]
  -- The methods are added one by one to a table that grows.
  generalize Table.empty = table
  induction methods generalizing s table with
  | nil => rfl
  | cons m rest ih =>
    have hadd : addMethod (s.original σ, table) (m.rename σ.back 0) =
        ((addMethod (s, table) m).1.original σ, (addMethod (s, table) m).2) := by
      unfold addMethod
      dsimp only
      rw [Routine.name_rename, newFunction_original]
    rw [Routine.renameAll, List.foldl_cons, hadd]
    exact ih (addMethod (s, table) m).1 (addMethod (s, table) m).2

/-- A class is made of its methods alike under both names. -/
theorem finishClass_original {outer : ScopeId} {i : Option Nat} (hkept : s.heap.KeptAt σ outer i)
    {name : Token} (hname : σ.Keeps i name.lexeme) (hnew : name.lexeme ≠ σ.new)
    (superclass : Option ClassId) (methods : List Routine) :
    (s.original σ).finishClass outer name superclass (Routine.renameAll σ.back methods 0) =
      (s.finishClass outer name superclass methods).original σ := by
  have hmade : (s.makeMethods methods).1.heap.KeptAt σ outer i := by
    unfold Heap.KeptAt
    rw [forest_makeMethods]
    exact hkept
  have hself := (Renaming.original_of_ne hnew).symm
  unfold finishClass
  rw [makeMethods_original]
  exact define_original (s := { (s.makeMethods methods).1.newClass _ |>.1 with scope := outer }) hmade hname
    hself _

theorem openSuper_original (hσ : σ.Proper) (s : Store) (k : ClassId) :
    (s.original σ).openSuper k = (s.openSuper k).original σ := by
  have hopen := Heap.openWith_original hσ s.heap s.scope (.inr rfl) (.classValue k)
  exact congrArg (fun opened : Heap × ScopeId => { s with heap := opened.1, scope := opened.2 }) hopen

/-- A class is declared alike under both names. -/
theorem declareClass_original (hσ : σ.Proper) {i : Option Nat} (hkept : s.heap.KeptAt σ s.scope i)
    (hscope : s.scope < s.heap.forest.scopes.size) {name : Token} (hname : σ.Keeps i name.lexeme)
    (hnew : name.lexeme ≠ σ.new) (superclass : Option ClassId) (methods : List Routine) :
    (s.original σ).declareClass name superclass (Routine.renameAll σ.back methods 0) =
      (s.declareClass name superclass methods).original σ := by
  have hdefine := define_original hkept hname (Renaming.original_of_ne hnew).symm .nil
  have hkept' : (s.define name .nil).heap.KeptAt σ s.scope i := hkept.define hname .nil
  cases superclass with
  | none =>
    rw [declareClass_none, declareClass_none, hdefine]
    exact finishClass_original hkept' hname hnew none methods
  | some k =>
    -- The class is named in the scope around the one that holds the superclass.
    have hsize : s.scope < (s.define name .nil).heap.forest.scopes.size := by
      rw [show (s.define name .nil).heap.forest = s.heap.forest.define s.scope name.lexeme .nil from rfl,
        Forest.size_define]
      exact hscope
    have hopened : ((s.define name .nil).openSuper k).heap.KeptAt σ s.scope i :=
      Heap.KeptAt.openWith hkept' hsize s.scope superName (.classValue k)
    rw [declareClass_some, declareClass_some, hdefine, openSuper_original hσ]
    exact finishClass_original hopened hname hnew (some k) methods

theorem openScope_original (s : Store) : (s.original σ).openScope = s.openScope.original σ :=
  congrArg (fun opened : Heap × ScopeId => { s with heap := opened.1, scope := opened.2 })
    (Heap.newScope_original s.heap (some s.scope))

theorem bind_original (hσ : σ.Proper) (s : Store) (c : Closure) (o : InstanceId) :
    (s.original σ).bind (c.original σ) o = ((s.bind c o).1.original σ, (s.bind c o).2) :=
  congrArg (fun bound : Heap × FunctionId => ({ s with heap := bound.1 }, bound.2))
    (Heap.bind_original hσ s.heap c o)

end Store

/-! ## Steps -/

namespace Machine

theorem Renames.of_control {c c' : Control} (hc : Control.Renames σ c c') :
    Renames σ ⟨c, tasks.map (Task.original σ), s.original σ⟩ ⟨c', tasks, s⟩ := ⟨hc, rfl, rfl⟩

theorem raise_renames {t t' : Token} (ht : σ.Respelled t t') (cause : RuntimeCause) :
    Renames σ (raise t cause (tasks.map (Task.original σ)) (s.original σ)) (raise t' cause tasks s) := by
  unfold raise
  rw [ht.line]
  exact .of_control (.error ht cause _)

theorem handOn_renames {t t' : Token} (ht : σ.Respelled t t') (result : Except (Fault ⊕ RuntimeCause) Value) :
    Renames σ (handOn t result (tasks.map (Task.original σ)) (s.original σ)) (handOn t' result tasks s) := by
  unfold handOn
  split
  · exact .of_control (.deliver _)
  · exact .of_control (.fault _)
  · exact raise_renames ht _

theorem handOnApplied_renames (t : Token) (result : Except RuntimeCause Value) :
    Renames σ (handOnApplied t result (tasks.map (Task.original σ)) (s.original σ))
      (handOnApplied t result tasks s) := by
  unfold handOnApplied
  split
  · exact .of_control (.deliver _)
  · exact raise_renames (.inl rfl) _

section

variable (hσ : σ.Proper) (hs : Ready σ.layout σ.recorded place s tasks)

include hσ hs

/-- A name that programs do not declare is found as it is. -/
theorem Ready.getAt?_reserved (d : Nat) {name : Text} (hname : name = thisName ∨ name = superName) :
    (s.heap.original σ).forest.getAt? s.scope d name = s.heap.forest.getAt? s.scope d name := by
  have hkeeps : ∀ i, σ.Keeps i name := fun i => hσ.keeps_of_reserved hname
  have hget := hs.getAt?_original hσ (d := d) fun a _ => hkeeps (place a)
  rwa [Renaming.original_of_ne fun hnew => nomatch (hkeeps none).1 hnew] at hget

/-- A method of the superclass is taken alike under both names. -/
theorem superMethod_renames (ref : Reference) (method : Token) :
    Renames σ (superMethod ref method (tasks.map (Task.original σ)) (s.original σ))
      (superMethod ref method tasks s) := by
  unfold superMethod
  rw [Store.bindings_original, Store.scope_original, Store.heap_original]
  dsimp only
  rw [hs.getAt?_reserved hσ _ (.inr rfl), hs.getAt?_reserved hσ _ (.inl rfl)]
  split
  · rw [Heap.method?_original]
    split
    · next hnone =>
      rw [Option.map_eq_none_iff.1 hnone]
      exact raise_renames (.inl rfl) _
    · next hsome =>
      obtain ⟨c, hc, rfl⟩ := Option.map_eq_some_iff.1 hsome
      rw [hc]
      dsimp only
      rw [Store.bind_original hσ]
      exact .of_control (.deliver _)
  all_goals exact .of_control (.fault _)

/-- An expression is evaluated alike under both names. -/
theorem evaluate_renames {e : Expr} (he : ∀ p ∈ e.references, p.1.Fits σ (place s.scope) p.2) :
    Renames σ (evaluate (e.rename σ.back 0) (tasks.map (Task.original σ)) (s.original σ))
      (evaluate e tasks s) := by
  cases e with
  | literal _ l => exact .of_control (.deliver _)
  | «variable» ref =>
    have hlookUp : (s.original σ).lookUp (σ.back.reference 0 ref) = s.lookUp ref :=
      hs.lookUp_original hσ (he _ (.head _)) rfl
    rw [Expr.rename, evaluate, hlookUp]
    exact handOn_renames (σ.respelled_back 0 ref.token) _
  | this ref =>
    have hfits : Usage.this.Fits σ (place s.scope) ref := he _ (.head _)
    have hlookUp : (s.original σ).lookUp ref = s.lookUp ref :=
      hs.lookUp_original hσ hfits (Renaming.original_of_ne hfits.1).symm
    rw [Expr.rename, evaluate, hlookUp]
    exact handOn_renames (.inl rfl) _
  | super ref method => exact superMethod_renames hσ hs ref method
  | _ => exact ⟨.evaluate _, rfl, rfl⟩

/-- A statement is executed alike under both names. -/
theorem execute_renames {stmt : Stmt} (hstmt : stmt.Fits σ (place s.scope)) :
    Renames σ (execute (stmt.rename σ.back 0) (tasks.map (Task.original σ)) (s.original σ))
      (execute stmt tasks s) := by
  have hkept := hs.world.keptAt hσ s.scope
  cases stmt with
  | expression e | print e | loop test body => exact ⟨.evaluate _, rfl, rfl⟩
  | returns keyword value =>
    cases value with
    | none => exact ⟨.complete _, rfl, rfl⟩
    | some e => exact ⟨.evaluate _, rfl, rfl⟩
  | branch test yes no => cases no <;> exact ⟨.evaluate _, rfl, rfl⟩
  | block body =>
    -- The old name is given back in the same way at every depth.
    rw [Stmt.rename, Stmt.renameAll_level σ.back_uniform body (0 + 1) 0]
    exact ⟨.complete _, rfl, s.openScope_original⟩
  | «variable» name initializer =>
    cases initializer with
    | none => exact ⟨.complete _, rfl, Store.define_original hkept hstmt.1 rfl .nil⟩
    | some e => exact ⟨.evaluate _, rfl, rfl⟩
  | routine r => exact ⟨.complete _, rfl, Store.declareRoutine_original hkept hstmt.1.1 hstmt.1.2⟩
  | classOf name superclass methods =>
    cases superclass with
    | none =>
      rw [Stmt.rename, Routine.renameAll_level σ.back_uniform methods (0 + 1) 0]
      exact ⟨.complete _, rfl,
        Store.declareClass_original hσ hkept hs.tasks.lt_size hstmt.1.1 hstmt.1.2 none methods⟩
    | some ref =>
      rw [Stmt.rename, Routine.renameAll_level σ.back_uniform methods (0 + 2) 0]
      exact ⟨.evaluate (.variable ref), rfl, rfl⟩

end

theorem applyUnary_original (op : UnaryOp) (h : Heap) (v : Value) :
    applyUnary op (h.original σ) v = applyUnary op h v := by
  cases op with
  | not => rfl
  | negate => rw [applyUnary, applyUnary, Heap.display_original]

theorem applyBinary_original (op : BinaryOp) (h : Heap) (left right : Value) :
    applyBinary op (h.original σ) left right = applyBinary op h left right := by
  unfold applyBinary
  rw [Heap.display_original, Heap.display_original]

/-- A function is entered alike by both machines. -/
theorem enterFunction_renames {c : Closure} (hc : ∃ i, c.routine.Fits σ i) (args : List Value)
    (tasks : List Task) (s : Store) :
    Renames σ (enterFunction (c.original σ) args (tasks.map (Task.original σ)) (s.original σ))
      (enterFunction c args tasks s) := by
  have hbody : (c.original σ).routine.body = Stmt.renameAll σ.back c.routine.body 0 := by
    obtain ⟨⟨name, params, body⟩, scope, initializer⟩ := c
    exact Stmt.renameAll_level σ.back_uniform body (0 + 1) 0
  unfold enterFunction
  rw [Heap.arity_original]
  split
  · exact .of_control (.fault _)
  · dsimp only
    rw [hbody, Store.heap_original, Heap.enter_original s.heap hc]
    exact ⟨.complete _, rfl, rfl⟩

/-- An instance is made alike under both names. -/
theorem construct_renames (hσ : σ.Proper) (hw : (World.mk s.heap place).LaidOut σ.layout) (k : ClassId)
    (args : List Value) (tasks : List Task) :
    Renames σ (construct k args (tasks.map (Task.original σ)) (s.original σ)) (construct k args tasks s) := by
  obtain ⟨s', o, hnew⟩ : ∃ s' o, s.newInstance k = (s', o) := ⟨_, _, rfl⟩
  have hnew' : (s.original σ).newInstance k = (s'.original σ, o) := by
    rw [show (s.original σ).newInstance k = ((s.newInstance k).1.original σ, (s.newInstance k).2) from rfl,
      hnew]
  have hmethods : s'.heap.method? k initName = s.heap.method? k initName := by
    obtain rfl : (s.newInstance k).1 = s' := congrArg Prod.fst hnew
    rw [Heap.method?, Heap.findMethod?_congr (show (s.newInstance k).1.heap.classes = s.heap.classes from rfl)]
    rfl
  unfold construct
  rw [hnew, hnew']
  dsimp only
  rw [Store.heap_original, Heap.method?_original, hmethods]
  cases hmethod : s.heap.method? k initName with
  | none => exact .of_control (.deliver _)
  | some c =>
    have hfits := (hw.method? hmethod).2
    have hbound : (s'.bind c o).1.heap.functions[(s'.bind c o).2]? = _ := s'.heap.functions_bind c o
    dsimp only [Option.map_some]
    rw [Store.bind_original hσ]
    dsimp only
    rw [Store.heap_original, Heap.functions_original, hbound]
    -- The bound initializer differs from the method in its scope and not in its routine.
    generalize (s'.heap.openWith c.scope thisName (.instanceValue o)).2 = e
    exact enterFunction_renames (c := { c with scope := e }) ⟨_, hfits⟩ args (.construct o :: tasks) _

/-- A built-in function is called alike under both names. -/
theorem callNative_renames (hσ : σ.Proper) (limits : Limits) (n : Native) (args : List Value) (paren : Token) :
    Renames σ (callNative limits n args paren (tasks.map (Task.original σ)) (s.original σ))
      (callNative limits n args paren tasks s) := by
  unfold callNative
  dsimp only
  rw [Store.readings_original]
  generalize (if n = .clock then s.readings + 1 else s.readings) = readings
  have hframe : pushFrame (text n.name) paren { s.original σ with readings } =
    (pushFrame (text n.name) paren { s with readings }).original σ := rfl
  rw [hframe]
  generalize pushFrame (text n.name) paren { s with readings } = s'
  rw [Store.heap_original, Heap.nativeCall_original]
  cases n.call (limits.clock s.readings) s'.heap args with
  | accepted a =>
    dsimp only [NativeResult.original]
    rw [Heap.perform_original hσ]
    exact ⟨.deliver _, rfl, rfl⟩
  | refused e => exact raise_renames (s := popFrame (text n.name) s') (.inl rfl) _
  | fault f => exact .of_control (.fault _)

section

variable (hσ : σ.Proper) (hs : Ready σ.layout σ.recorded place s tasks) (limits : Limits)

include hσ hs

/-- A value is called alike under both names. -/
theorem apply_renames {callee : Value} (hcallee : callee.Placed σ.layout ⟨s.heap, place⟩)
    (args : List Value) (paren : Token) :
    Renames σ (apply limits callee args paren (tasks.map (Task.original σ)) (s.original σ))
      (apply limits callee args paren tasks s) := by
  unfold apply
  rw [Store.heap_original, Heap.arity?_original, Heap.callName_original, Store.frames_original]
  split
  · exact raise_renames (.inl rfl) _
  · dsimp only
    split_ifs
    · exact raise_renames (.inl rfl) _
    · exact .of_control .overflow
    · split
      · exact callNative_renames hσ limits _ args paren
      · next f _ =>
        obtain ⟨c, hc, hroutine⟩ := hcallee
        dsimp only at hc
        rw [Heap.functions_original, hc]
        exact enterFunction_renames ⟨_, hroutine⟩ args (.endCall _ paren :: tasks) (pushFrame _ paren s)
      · exact construct_renames (s := pushFrame _ paren s) hσ hs.world _ args (.endCall _ paren :: tasks)
      · exact .of_control (.fault _)

theorem nextArgument_renames (paren : Token) {callee : Value}
    (hcallee : callee.Placed σ.layout ⟨s.heap, place⟩) (done : List Value) (rest : List Expr) :
    Renames σ (nextArgument limits paren callee done (Expr.renameAll σ.back 0 rest)
      (tasks.map (Task.original σ)) (s.original σ)) (nextArgument limits paren callee done rest tasks s) := by
  cases rest with
  | nil => exact apply_renames hσ hs limits hcallee done.reverse paren
  | cons e rest => exact ⟨.evaluate e, rfl, rfl⟩

/-- An assignment is made alike under both names. -/
theorem assign_renames (v : Value) {ref : Reference} {value : Expr}
    (he : ∀ p ∈ (Expr.assign ref value).references, p.1.Fits σ (place s.scope) p.2) :
    Renames σ (resume limits v (.assign (σ.back.reference 0 ref)) (tasks.map (Task.original σ)) (s.original σ))
      (resume limits v (.assign ref) tasks s) := by
  have hfits : Usage.assign.Fits σ (place s.scope) ref := he _ (.head _)
  unfold resume
  dsimp only
  rw [hs.target_original hσ hfits]
  cases htarget : s.target ref with
  | ok e =>
    have hdefine := (hs.world.keptAt hσ e).define_original (hs.keeps_target hfits htarget) v
    exact ⟨.deliver v, rfl, congrArg (fun heap => { s with heap }) hdefine.symm⟩
  | error failure =>
    cases failure with
    | inl f => exact .of_control (.fault f)
    | inr cause => exact raise_renames (σ.respelled_back 0 ref.token) cause

/-- A task is resumed alike under both names. -/
theorem resume_renames {v : Value} (hv : v.Placed σ.layout ⟨s.heap, place⟩) {t : Task}
    (ht : t.Placed σ.layout ⟨s.heap, place⟩ (place s.scope)) :
    Renames σ (resume limits v (t.original σ) (tasks.map (Task.original σ)) (s.original σ))
      (resume limits v t tasks s) := by
  have hkept := hs.world.keptAt hσ s.scope
  cases t with
  | assign ref =>
    obtain ⟨value, he⟩ := ht
    exact assign_renames hσ hs limits v he
  | unary op sign =>
    unfold resume Task.original
    dsimp only
    rw [Store.heap_original, applyUnary_original]
    exact handOnApplied_renames sign _
  | binaryLeft op sign e | condition e no | middle test e => exact ⟨.evaluate e, rfl, rfl⟩
  | binaryRight op sign left =>
    unfold resume Task.original
    dsimp only
    rw [Store.heap_original, applyBinary_original]
    exact handOnApplied_renames sign _
  | logical op right =>
    unfold resume Task.original
    dsimp only
    split_ifs
    · exact .of_control (.deliver v)
    · exact .of_control (.evaluate right)
  | choose test yes | construct o => exact ⟨.deliver _, rfl, rfl⟩
  | callee paren arguments => exact nextArgument_renames hσ hs limits paren hv [] arguments
  | argument paren callee done rest =>
    exact nextArgument_renames hσ hs limits paren ht.1 (v :: done) rest
  | get name =>
    unfold resume Task.original
    dsimp only
    split
    · next o =>
      rw [Store.heap_original, Heap.property?_original]
      cases s.heap.property? o name.lexeme with
      | none => exact raise_renames (.inl rfl) _
      | some p =>
        dsimp only [Option.map_some]
        rw [Heap.take_original hσ]
        exact ⟨.deliver _, rfl, rfl⟩
    · exact raise_renames (.inl rfl) _
  | setObject name value =>
    unfold resume Task.original
    dsimp only
    split
    · exact ⟨.evaluate value, rfl, rfl⟩
    · exact raise_renames (.inl rfl) _
  | setValue name o | endCall name paren => exact ⟨.deliver v, rfl, rfl⟩
  | discard | returnValue => exact ⟨.complete _, rfl, rfl⟩
  | print =>
    have hdisplay := s.heap.display_original (σ := σ) v
    exact ⟨.complete _, rfl,
      congrArg (fun shown => { s.original σ with printed := s.printed.push shown }) hdisplay⟩
  | branch yes no =>
    unfold resume Task.original
    dsimp only
    split_ifs
    · exact .of_control (.execute yes)
    · cases no with
      | none => exact .of_control (.complete _)
      | some no => exact .of_control (.execute no)
  | loopTest test body =>
    unfold resume Task.original
    dsimp only
    split_ifs
    · exact ⟨.execute body, rfl, rfl⟩
    · exact .of_control (.complete _)
  | «variable» name => exact ⟨.complete _, rfl, Store.define_original hkept ht rfl v⟩
  | superclass name token methods =>
    obtain ⟨ref, hstmt⟩ := ht
    unfold resume Task.original
    dsimp only
    split
    · next k =>
      exact ⟨.complete _, rfl,
        Store.declareClass_original hσ hkept hs.tasks.lt_size hstmt.1.1 hstmt.1.2 (some k) methods⟩
    · exact raise_renames (σ.respelled_back 0 token) _
  | sequence | loopBody | leaveScope | endBody => exact ⟨.fault _, rfl, rfl⟩

end

/-- A body ends alike under both names. -/
theorem endBody_renames (hσ : σ.Proper) (hw : (World.mk s.heap place).LaidOut σ.layout) (c : Completion)
    (closure : Closure) (outer : ScopeId) :
    Renames σ (endBody c (closure.original σ) outer (tasks.map (Task.original σ)) (s.original σ))
      (endBody c closure outer tasks s) := by
  cases c <;> unfold endBody
  all_goals
    simp only [Store.heap_original, Store.returning_original,
      Heap.KeptAt.result_original hσ (hw.keptAt hσ closure.scope)]
    generalize s.heap.result closure _ = v
    cases v with
    | absent => exact ⟨.fault _, rfl, rfl⟩
    | _ => exact ⟨.deliver _, rfl, rfl⟩

/-- A statement is followed alike under both names. -/
theorem proceed_renames (hσ : σ.Proper) (hw : (World.mk s.heap place).LaidOut σ.layout) (c : Completion)
    (t : Task) :
    Renames σ (proceed c (t.original σ) (tasks.map (Task.original σ)) (s.original σ))
      (proceed c t tasks s) := by
  cases t with
  | sequence rest =>
    cases c with
    | returned => cases rest <;> exact ⟨.complete _, rfl, rfl⟩
    | normal =>
      cases rest with
      | nil => exact ⟨.complete _, rfl, rfl⟩
      | cons stmt rest => exact ⟨.execute stmt, rfl, rfl⟩
  | loopBody test body =>
    cases c with
    | returned => exact ⟨.complete _, rfl, rfl⟩
    | normal => exact ⟨.evaluate test, rfl, rfl⟩
  | leaveScope outer => exact ⟨.complete _, rfl, rfl⟩
  | endBody closure outer => exact endBody_renames hσ hw c closure outer
  | _ => exact ⟨.fault _, rfl, rfl⟩

theorem giveUp_renames {f f' : Failure} (hf : Control.Renames σ (.unwind f) (.unwind f')) (t : Task) :
    Renames σ (giveUp f (t.original σ) (tasks.map (Task.original σ)) (s.original σ)) (giveUp f' t tasks s) := by
  cases t with
  | endCall name paren =>
    cases hf with
    | overflow => exact ⟨.overflow, rfl, rfl⟩
    | error ht cause trace => exact ⟨.error ht cause _, rfl, rfl⟩
  | _ => exact ⟨hf, rfl, rfl⟩

/-- One step takes machines that correspond to machines that correspond. -/
theorem Renames.step (hσ : σ.Proper) (limits : Limits) {m m' : Machine}
    (hm' : m'.LaidOut σ.layout σ.recorded place) (h : Renames σ m m') :
    Renames σ (m.step limits) (m'.step limits) := by
  obtain ⟨control, tasks, s⟩ := m
  obtain ⟨control', tasks', s'⟩ := m'
  obtain ⟨hcontrol, rfl, rfl⟩ := h
  -- Nothing is known about the tasks of a machine that stands still.
  have hready : (∀ f, control' ≠ .fault f) → Ready σ.layout σ.recorded place s' tasks' := fun hfault =>
    ⟨hm'.bindings, hm'.world, hm'.tasks hfault, hm'.returning⟩
  have hunwind : ∀ {f f'}, Control.Renames σ (.unwind f) (.unwind f') →
      Renames σ (Machine.step limits ⟨.unwind f, tasks'.map (Task.original σ), s'.original σ⟩)
        (Machine.step limits ⟨.unwind f', tasks', s'⟩) := by
    intro f f' hf
    cases tasks' with
    | nil => exact ⟨hf, rfl, rfl⟩
    | cons t tasks' => exact giveUp_renames hf t
  cases hcontrol with
  | evaluate e => exact evaluate_renames hσ (hready nofun) hm'.control
  | execute stmt => exact execute_renames hσ (hready nofun) hm'.control
  | deliver v =>
    cases tasks' with
    | nil => exact ⟨.fault _, rfl, rfl⟩
    | cons t tasks' =>
      obtain ⟨ht, hs⟩ := hm'.ready_after nofun
      cases t with
      | leaveScope | endBody => exact ⟨.fault _, rfl, rfl⟩
      | _ => exact resume_renames hσ hs limits hm'.control ht
  | complete c =>
    cases tasks' with
    | nil =>
      cases c with
      | normal => exact ⟨.complete _, rfl, rfl⟩
      | returned => exact ⟨.fault _, rfl, rfl⟩
    | cons t tasks' => exact proceed_renames hσ hm'.world c t
  | overflow => exact hunwind .overflow
  | error ht cause trace => exact hunwind (.error ht cause trace)
  | fault f => exact .of_control (.fault f)

/-- A run takes machines that correspond to machines that correspond. -/
theorem Renames.run (hσ : σ.Proper) (hL : σ.layout.Lawful σ.recorded) (limits : Limits) (n : Nat)
    {m m' : Machine} (hm' : m'.LaidOut σ.layout σ.recorded place) (h : Renames σ m m') :
    Renames σ (m.run limits n) (m'.run limits n) := by
  -- The layout of the machine of the renamed program goes along with its steps.
  have hboth : ∃ place', (m'.run limits n).LaidOut σ.layout σ.recorded place' ∧
      Renames σ (m.run limits n) (m'.run limits n) := by
    induction n with
    | zero => exact ⟨place, hm', h⟩
    | succ n ih =>
      obtain ⟨place', hlaid, hrenames⟩ := ih
      obtain ⟨place'', -, hnext⟩ := hlaid.step hL limits
      rw [run_succ, run_succ]
      exact ⟨place'', hnext, hrenames.step hσ limits hlaid⟩
  obtain ⟨-, -, hrenames⟩ := hboth
  exact hrenames

end Machine

/-! ## What comes of a run -/

/-- How the old program ends and how the renamed one does: a runtime error has the same cause and the same
trace, and blames the same token, which may be renamed. -/
inductive Outcome.Renames (σ : Renaming) : Outcome → Outcome → Prop where
  | finished : Renames σ .finished .finished
  | error {t t' : Token} (ht : σ.Respelled t t') (cause : RuntimeCause) (trace : Array TraceEntry) :
    Renames σ (.error ⟨t, cause, trace⟩) (.error ⟨t', cause, trace⟩)
  | overflow : Renames σ .overflow .overflow
  | fault (f : Fault) : Renames σ (.fault f) (.fault f)
  | unfinished : Renames σ .unfinished .unfinished

/-- Machines that correspond have corresponding outcomes. -/
theorem Machine.Renames.outcome {m m' : Machine} (h : Renames σ m m') :
    Outcome.Renames σ m.outcome m'.outcome := by
  obtain ⟨control, tasks, s⟩ := m
  obtain ⟨control', tasks', s'⟩ := m'
  obtain ⟨hcontrol, rfl, rfl⟩ := h
  cases hcontrol with
  | evaluate | execute | deliver => exact .unfinished
  | complete c => cases tasks' <;> cases c <;> first | exact .finished | exact .unfinished
  | overflow =>
    cases tasks' with
    | nil => exact .overflow
    | cons => exact .unfinished
  | error ht cause trace =>
    cases tasks' with
    | nil => exact .error ht cause trace
    | cons => exact .unfinished
  | fault f => exact .fault f

end Lox
