import Lox.Machine.Step
import Lox.Proofs.SoundStore
import Mathlib.Tactic.SplitIfs

/-!
# Sound machines

A machine that runs accepted programs keeps step with the walk over them: whatever it evaluates or executes
was bound at a point of the walk, and from the current scope there are as many scopes out to the globals as
were open at that point. `Stacked` says the same of the tasks, each of which resumes in a scope that was
current when it was made.

`Machine.Sound.step` states that a step keeps a machine sound, by one lemma for each kind of control, and a
sound machine has no fault.
-/

namespace Lox

/-- A walk over programs whose references are recorded. -/
structure Walk.Lawful (walk : Walk) (recorded : Site → Option Nat) : Prop where
  child : ∀ {b c : Binder} {n m : Phrase}, walk b n → (c, m) ∈ n.children b → walk c m
  sound : ∀ {b : Binder} {n : Phrase}, walk b n → n.Sound recorded b
  meets : ∀ {b : Binder} {e : Expr}, walk b (.expr e) →
    ∀ p ∈ e.references, p.1.Meets recorded b.scopes p.2

theorem Walk.Lawful.closed {walk : Walk} {recorded : Site → Option Nat}
    (hwalk : walk.Lawful recorded) : walk.Closed :=
  ⟨hwalk.child⟩

/-- The phrase that a machine is about to go into. -/
def Control.phrase? : Control → Option Phrase
  | .evaluate e => some (.expr e)
  | .execute s => some (.stmt s)
  | .deliver _ | .complete _ | .unwind _ | .fault _ => none

theorem Control.phrase?_eq_expr {c : Control} {e : Expr} : c.phrase? = some (.expr e) ↔ c = .evaluate e := by
  cases c <;> simp [phrase?]

theorem Control.phrase?_eq_stmt {c : Control} {s : Stmt} : c.phrase? = some (.stmt s) ↔ c = .execute s := by
  cases c <;> simp [phrase?]

instance (c : Control) (v : Value) : Decidable (c = .deliver v) :=
  match c with
  | .deliver w => decidable_of_iff (w = v) (by simp)
  | .evaluate _ | .execute _ | .complete _ | .unwind _ | .fault _ => .isFalse (by simp)

instance (c : Control) (k : Completion) : Decidable (c = .complete k) :=
  match c with
  | .complete k' => decidable_of_iff (k' = k) (by simp)
  | .evaluate _ | .execute _ | .deliver _ | .unwind _ | .fault _ => .isFalse (by simp)

/-- The expressions that an expression consists of. -/
def Expr.operands : Expr → List Expr
  | .literal _ _ | .variable _ | .this _ | .super _ _ => []
  | .grouping _ e | .assign _ e | .unary _ _ _ e | .get _ e _ => [e]
  | .binary _ _ _ left right | .logical _ _ _ left right | .set _ left _ right => [left, right]
  | .conditional _ condition _ middle _ right => [condition, middle, right]
  | .call _ callee _ arguments => callee :: arguments

section

variable (walk : Walk) (recorded : Site → Option Nat) (h : Heap)

/-- An expression that can be evaluated in a scope: as many scopes lead out to the globals as were open
where it was bound, and what is recorded about its references leads to their names. -/
def Expr.Pending (scope : ScopeId) (e : Expr) : Prop :=
  (∃ b, walk b (.expr e) ∧ h.forest.Depth scope b.scopes.length) ∧
    ∀ p ∈ e.references, p.1.Resolves h.forest recorded scope p.2

/-- A task that waits for a value in a scope and goes on with an expression. -/
def Task.Operates (scope : ScopeId) : Task → Prop
  | .assign ref => Usage.assign.Resolves h.forest recorded scope ref
  | .unary _ _ | .get _ | .setValue _ _ | .endCall _ _ => True
  | .binaryLeft _ _ e | .logical _ e | .middle _ e | .setObject _ e => e.Pending walk recorded h scope
  | .binaryRight _ _ v | .choose _ v => v.Valid walk h
  | .condition yes no => yes.Pending walk recorded h scope ∧ no.Pending walk recorded h scope
  | .callee _ arguments => ∀ e ∈ arguments, e.Pending walk recorded h scope
  | .argument _ v done rest => v.Valid walk h ∧ (∀ w ∈ done, w.Valid walk h) ∧
      ∀ e ∈ rest, e.Pending walk recorded h scope
  | .construct o => o < h.instances.size
  | _ => False

/-- A task that waits for a value in a scope to end a statement, after which given scopes are open in a
context. -/
def Task.Finishes (scope : ScopeId) (scopes : List (Table Bool)) (context : RoutineContext) :
    Task → Prop
  | .discard | .print => Matches h.forest scope scopes
  | .returnValue => context ≠ .outside
  | .branch yes no => ∃ b test, walk b (.stmt (.branch test yes no)) ∧ b.scopes = scopes ∧
      b.inRoutine = context ∧ Matches h.forest scope scopes
  | .loopTest test body => ∃ b, walk b (.stmt (.loop test body)) ∧ b.scopes = scopes ∧
      b.inRoutine = context ∧ Matches h.forest scope scopes
  | .variable name => Plain name.lexeme ∧
      ∃ before, Matches h.forest scope before ∧ scopes = markInner name.lexeme true before
  | .superclass name _ methods => ∃ b superclass,
      walk b (.stmt (.classOf name (some superclass) methods)) ∧ Matches h.forest scope b.scopes ∧
        scopes = markInner name.lexeme true b.scopes
  | _ => False

/-- What tasks wait for: a value, or the end of a statement with given scopes open in a context. -/
inductive Awaited where
  | value
  | ended (scopes : List (Table Bool)) (context : RoutineContext)

/-- Tasks that can be resumed in a scope with what they wait for. -/
inductive Stacked : ScopeId → Awaited → List Task → Prop where
  | nil {scope : ScopeId} {scopes : List (Table Bool)} : Stacked scope (.ended scopes .outside) []
  | operates {scope : ScopeId} {task : Task} {tasks : List Task}
    (ht : task.Operates walk recorded h scope) (hrest : Stacked scope .value tasks) :
    Stacked scope .value (task :: tasks)
  | finishes {scope : ScopeId} {scopes : List (Table Bool)} {context : RoutineContext} {task : Task}
    {tasks : List Task} (ht : task.Finishes walk h scope scopes context)
    (hrest : Stacked scope (.ended scopes context) tasks) : Stacked scope .value (task :: tasks)
  | sequence {scope : ScopeId} {b : Binder} {ss : List Stmt} {tasks : List Task}
    (hvisit : walk b (.stmts ss))
    (hrest : Stacked scope (.ended (Stmt.bindAll ss b).scopes b.inRoutine) tasks) :
    Stacked scope (.ended b.scopes b.inRoutine) (.sequence ss :: tasks)
  | loopBody {scope : ScopeId} {b : Binder} {condition : Expr} {body : Stmt} {tasks : List Task}
    (hvisit : walk b (.stmt (.loop condition body)))
    (hrest : Stacked scope (.ended b.scopes b.inRoutine) tasks) :
    Stacked scope (.ended b.scopes b.inRoutine) (.loopBody condition body :: tasks)
  /-- The scopes inside do not matter any more when the scope is left. -/
  | leaveScope {scope outer : ScopeId} {scopes outers : List (Table Bool)} {context : RoutineContext}
    {tasks : List Task} (houter : Matches h.forest outer outers)
    (hrest : Stacked outer (.ended outers context) tasks) :
    Stacked scope (.ended scopes context) (.leaveScope outer :: tasks)
  | endBody {scope outer : ScopeId} {scopes : List (Table Bool)} {context : RoutineContext}
    {closure : Closure} {tasks : List Task} (hcontext : context ≠ .outside)
    (hthis : closure.initializer → ∃ o, h.forest.slot? closure.scope thisName = some (.instanceValue o))
    (hrest : Stacked outer .value tasks) :
    Stacked scope (.ended scopes context) (.endBody closure outer :: tasks)

end

variable {walk : Walk} {recorded : Site → Option Nat} {h h' : Heap} {scope : ScopeId}

theorem Expr.Pending.mono {e : Expr} (he : e.Pending walk recorded h scope) (hgrows : h.Grows h') :
    e.Pending walk recorded h' scope := by
  obtain ⟨⟨b, hvisit, hdepth⟩, hresolves⟩ := he
  exact ⟨⟨b, hvisit, hgrows.forest.depth hdepth⟩, fun p hp => (hresolves p hp).mono hgrows.forest⟩

/-- A task that waits for a value can still be resumed in a later heap. -/
theorem Task.Operates.mono {task : Task} (ht : task.Operates walk recorded h scope)
    (hgrows : h.Grows h') : task.Operates walk recorded h' scope := by
  cases task with
  | assign => exact Usage.Resolves.mono (u := .assign) ht hgrows.forest
  | unary | get | setValue | endCall => trivial
  | binaryLeft | logical | middle | setObject => exact Expr.Pending.mono ht hgrows
  | binaryRight | choose => exact Value.Valid.mono ht hgrows
  | condition => exact ⟨ht.1.mono hgrows, ht.2.mono hgrows⟩
  | callee => exact fun e he => (ht e he).mono hgrows
  | argument =>
    exact ⟨ht.1.mono hgrows, fun v hv => (ht.2.1 v hv).mono hgrows,
      fun e he => (ht.2.2 e he).mono hgrows⟩
  | construct => exact Nat.lt_of_lt_of_le ht hgrows.instances
  | _ => exact ht.elim

/-- A task that ends a statement can still be resumed in a later heap. -/
theorem Task.Finishes.mono {task : Task} {scopes : List (Table Bool)} {context : RoutineContext}
    (ht : task.Finishes walk h scope scopes context) (hgrows : h.Grows h') :
    task.Finishes walk h' scope scopes context := by
  cases task with
  | discard | print => exact Matches.mono ht hgrows.forest
  | returnValue => exact ht
  | branch =>
    obtain ⟨b, test, hvisit, hscopes, hcontext, hmatches⟩ := ht
    exact ⟨b, test, hvisit, hscopes, hcontext, hmatches.mono hgrows.forest⟩
  | loopTest =>
    obtain ⟨b, hvisit, hscopes, hcontext, hmatches⟩ := ht
    exact ⟨b, hvisit, hscopes, hcontext, hmatches.mono hgrows.forest⟩
  | «variable» =>
    obtain ⟨hname, before, hmatches, hscopes⟩ := ht
    exact ⟨hname, before, hmatches.mono hgrows.forest, hscopes⟩
  | superclass =>
    obtain ⟨b, sup, hvisit, hmatches, hscopes⟩ := ht
    exact ⟨b, sup, hvisit, hmatches.mono hgrows.forest, hscopes⟩
  | _ => exact ht.elim

/-- Tasks can still be resumed when the heap has grown. -/
theorem Stacked.mono {awaited : Awaited} {tasks : List Task}
    (ht : Stacked walk recorded h scope awaited tasks) (hgrows : h.Grows h') :
    Stacked walk recorded h' scope awaited tasks := by
  induction ht with
  | nil => exact .nil
  | operates ht _ ih => exact .operates (ht.mono hgrows) ih
  | finishes ht _ ih => exact .finishes (ht.mono hgrows) ih
  | sequence hvisit _ ih => exact .sequence hvisit ih
  | loopBody hvisit _ ih => exact .loopBody hvisit ih
  | leaveScope houter _ ih => exact .leaveScope (houter.mono hgrows.forest) ih
  | endBody hcontext hthis _ ih =>
    refine .endBody hcontext (fun hinit => ?_) ih
    obtain ⟨o, ho⟩ := hthis hinit
    exact ⟨o, hgrows.forest.fixed _ _ _ not_plain_this ho⟩

theorem Expr.references_subset_of_mem {e : Expr} {es : List Expr} (he : e ∈ es) :
    e.references ⊆ Expr.referencesOfAll es := by
  induction es with
  | nil => cases he
  | cons e' rest ih =>
    rcases List.mem_cons.1 he with rfl | he
    · exact List.subset_append_left _ _
    · exact List.Subset.trans (ih he) (List.subset_append_right _ _)

/-- The references of an operand are among those of the expression. -/
theorem Expr.references_operand {e e' : Expr} (he : e' ∈ e.operands) : e'.references ⊆ e.references := by
  cases e with
  | literal | «variable» | this | super => cases he
  | grouping | assign | unary | get | binary | logical | set | conditional =>
    simp only [Expr.operands, List.mem_cons, List.not_mem_nil, or_false] at he
    intro p hp
    simp only [Expr.references, List.mem_append, List.mem_cons]
    grind
  | call callee paren arguments =>
    rcases List.mem_cons.1 he with rfl | he
    · exact List.subset_append_left _ _
    · exact List.Subset.trans (Expr.references_subset_of_mem he) (List.subset_append_right _ _)

section

variable {b : Binder} (hwalk : walk.Lawful recorded)

include hwalk

/-- The expressions of a list are bound with the same scopes open as the list. -/
theorem Walk.Lawful.of_exprs {es : List Expr}
    (hvisit : walk b (.exprs es)) : ∀ e ∈ es, ∃ c, walk c (.expr e) ∧ b.Alike c := by
  induction es generalizing b with
  | nil => simp
  | cons e rest ih =>
    have hrest := ih (hwalk.child hvisit (by simp [Phrase.children]) : walk (e.bind b) _)
    refine List.forall_mem_cons.2 ⟨⟨b, hwalk.child hvisit (by simp [Phrase.children]), .refl b⟩, ?_⟩
    intro e' he'
    obtain ⟨c, hc, halike⟩ := hrest e' he'
    exact ⟨c, hc, (e.bind_alike b).trans halike⟩

/-- The operands of an expression are bound with the same scopes open as the expression. -/
theorem Walk.Lawful.of_operands {e : Expr}
    (hvisit : walk b (.expr e)) : ∀ e' ∈ e.operands, ∃ c, walk c (.expr e') ∧ b.Alike c := by
  have hchild : ∀ {e' c}, (c, .expr e') ∈ (Phrase.expr e).children b →
      ∃ c, walk c (.expr e') ∧ b.Alike c := fun {e' c} hm =>
    ⟨c, hwalk.child hvisit hm, (Phrase.IsExpr.child (n := .expr e) trivial hm).2⟩
  cases e with
  | literal | «variable» | this | super => simp [Expr.operands]
  | grouping | assign | unary | get =>
    exact List.forall_mem_singleton.2 (hchild (.head _))
  | binary | logical =>
    exact List.forall_mem_cons.2 ⟨hchild (.head _), List.forall_mem_singleton.2 (hchild (.tail _ (.head _)))⟩
  | set =>
    exact List.forall_mem_cons.2 ⟨hchild (.tail _ (.head _)), List.forall_mem_singleton.2 (hchild (.head _))⟩
  | conditional =>
    exact List.forall_mem_cons.2 ⟨hchild (.head _), List.forall_mem_cons.2
      ⟨hchild (.tail _ (.head _)), List.forall_mem_singleton.2 (hchild (.tail _ (.tail _ (.head _))))⟩⟩
  | call _ callee paren arguments =>
    refine List.forall_mem_cons.2 ⟨hchild (.head _), fun e' he' => ?_⟩
    have harguments : walk (callee.bind b) (.exprs arguments) :=
      hwalk.child hvisit (by simp [Phrase.children])
    obtain ⟨c, hc, halike⟩ := hwalk.of_exprs harguments e' he'
    exact ⟨c, hc, (callee.bind_alike b).trans halike⟩

/-- The operands of an expression can be evaluated where the expression can. -/
theorem Expr.Pending.operand {e e' : Expr}
    (he : e.Pending walk recorded h scope) (he' : e' ∈ e.operands) : e'.Pending walk recorded h scope := by
  obtain ⟨⟨b, hvisit, hdepth⟩, hresolves⟩ := he
  obtain ⟨c, hc, halike⟩ := hwalk.of_operands hvisit e' he'
  exact ⟨⟨c, hc, halike.scopes ▸ hdepth⟩, fun p hp => hresolves p (Expr.references_operand he' hp)⟩

/-- An expression can be evaluated in a scope that matches what was open where it was bound. -/
theorem Expr.Pending.of_matches (hs : h.Sound walk) {e : Expr} (hvisit : walk b (.expr e))
    (hmatches : Matches h.forest scope b.scopes) : e.Pending walk recorded h scope :=
  ⟨⟨b, hvisit, hmatches.depth hs.globals⟩, fun p hp => (hwalk.meets hvisit p hp).resolves hmatches⟩

/-- The variable that names a superclass can be evaluated before the name of the class is defined. -/
theorem Expr.Pending.of_superclass (hs : h.Sound walk) {name : Token} {superclass : Reference}
    {methods : List Routine} (hvisit : walk b (.stmt (.classOf name (some superclass) methods)))
    (hmatches : Matches h.forest scope b.scopes) :
    (Expr.variable superclass).Pending walk recorded h scope := by
  have hsuper : walk (b.derive name superclass) (.expr (.variable superclass)) :=
    hwalk.child hvisit (.head _)
  have hscopes : (b.derive name superclass).scopes = markInner name.lexeme true b.scopes :=
    (b.derive_scopes name superclass).trans (b.nameClass_scopes name)
  refine ⟨⟨_, hsuper, ?_⟩, List.forall_mem_singleton.2 ?_⟩
  · rw [hscopes, length_markInner]
    exact hmatches.depth hs.globals
  · have hmeets := hwalk.meets hsuper _ (.head _)
    rw [hscopes] at hmeets
    exact (Usage.Meets.of_markInner (hwalk.sound hvisit).of_superclass hmeets).resolves hmatches

theorem Walk.Lawful.body {context : RoutineContext} {r : Routine} (hvisit : walk b (.routine context r)) :
    walk (({ b with inRoutine := context }).enterRoutine r.params) (.stmts r.body) := by
  obtain ⟨name, params, body⟩ := r
  exact hwalk.child hvisit (.head _)

end

/-- A store whose heap is sound and whose bindings are what is recorded. -/
structure Store.Sound (walk : Walk) (recorded : Site → Option Nat) (s : Store) : Prop where
  heap : s.heap.Sound walk
  bindings : ∀ site, s.bindings[site]? = recorded site

/-- A control that fits the tasks and the store. -/
def Control.Sound (walk : Walk) (recorded : Site → Option Nat) (tasks : List Task) (s : Store) :
    Control → Prop
  | .evaluate e => e.Pending walk recorded s.heap s.scope ∧
      Stacked walk recorded s.heap s.scope .value tasks
  | .execute stmt => ∃ b, walk b (.stmt stmt) ∧ Matches s.heap.forest s.scope b.scopes ∧
      Stacked walk recorded s.heap s.scope (.ended (stmt.scopesAfter b.scopes) b.inRoutine) tasks
  | .deliver v => v.Valid walk s.heap ∧ Stacked walk recorded s.heap s.scope .value tasks
  | .complete .normal => ∃ scopes context, Matches s.heap.forest s.scope scopes ∧
      Stacked walk recorded s.heap s.scope (.ended scopes context) tasks
  | .complete .returned => (∃ scopes context, context ≠ .outside ∧
      Stacked walk recorded s.heap s.scope (.ended scopes context) tasks) ∧
      ∃ v, s.returning = some v ∧ v.Valid walk s.heap
  | .unwind _ => True
  | .fault _ => False

/-- A machine that keeps step with the walk. -/
structure Machine.Sound (walk : Walk) (recorded : Site → Option Nat) (m : Machine) : Prop where
  store : m.store.Sound walk recorded
  control : m.control.Sound walk recorded m.tasks m.store

/-- A value that is found some steps out is valid. -/
theorem Heap.Sound.getAt? (hs : h.Sound walk) {e : ScopeId} {d : Nat} {name : Text} {v : Value}
    (hv : h.forest.getAt? e d name = some v) (hne : v ≠ .absent) : v.Valid walk h := by
  obtain ⟨a, -, hvalue⟩ := Option.map_eq_some_iff.1 hv
  rw [Forest.valueIn_eq] at hvalue
  cases hentry : h.forest.slot? a name with
  | none =>
    rw [hentry] at hvalue
    exact absurd hvalue.symm hne
  | some w =>
    rw [hentry] at hvalue
    obtain rfl : w = v := hvalue
    exact hs.scopes a name w hentry

/-- A scope that is found to hold a name holds it. -/
theorem Forest.slot?_of_holder? {f : Forest} {e a : ScopeId} {name : Text}
    (ha : f.holder? e name = some a) : (f.slot? a name).isSome := by
  rw [Forest.holder?] at ha
  split at ha
  · cases ha
  · next s hs =>
    split at ha
    · next hhas =>
      obtain rfl := Option.some.inj ha
      rw [Forest.slot?, hs]
      exact hhas
    · split at ha
      · cases ha
      · split at ha
        · exact slot?_of_holder? ha
        · cases ha
termination_by e

/-- The result of a call is valid. -/
theorem Heap.Sound.result (hs : h.Sound walk) {closure : Closure}
    (hthis : closure.initializer → ∃ o, h.forest.slot? closure.scope thisName = some (.instanceValue o))
    {returned : Option Value} (hreturned : ∀ v, returned = some v → v.Valid walk h) :
    (h.result closure returned).Valid walk h := by
  unfold Heap.result
  split
  · next hinit =>
    obtain ⟨o, ho⟩ := hthis hinit
    rw [Forest.valueIn_eq, ho]
    exact hs.scopes _ _ _ ho
  · split
    · trivial
    · trivial
    · exact hreturned _ rfl

/-- What looking up a reference gives: a valid value, or an error of the program. -/
def Store.Found (walk : Walk) (h : Heap) : Except (Fault ⊕ RuntimeCause) Value → Prop
  | .ok v => v.Valid walk h
  | .error (.inl _) => False
  | .error (.inr _) => True

namespace Store.Sound

variable {s : Store} {ref : Reference}

/-- Looking up a variable never fails at its scope. -/
theorem lookUp_variable (hs : s.Sound walk recorded)
    (hresolves : Usage.variable.Resolves s.heap.forest recorded s.scope ref) :
    Store.Found walk s.heap (s.lookUp ref) := by
  unfold Store.lookUp
  rw [hs.bindings]
  cases hd : recorded ref.site with
  | some d =>
    obtain ⟨-, a, ha, hentry⟩ := hresolves d hd
    obtain ⟨v, hv⟩ := Option.isSome_iff_exists.1 hentry
    have hvalid := hs.heap.scopes a ref.name v hv
    dsimp only
    rw [Forest.getAt?_eq_of_slot? ha hv]
    split
    · next heq =>
      obtain rfl := Option.some.inj heq
      exact hvalid
    · next heq =>
      obtain rfl := Option.some.inj heq
      exact hvalid
    · next heq => cases heq
  | none =>
    dsimp only
    split
    · next v hv =>
      obtain ⟨a, ha, rfl⟩ := Option.map_eq_some_iff.1 hv
      obtain ⟨w, hw⟩ := Option.isSome_iff_exists.1 (Forest.slot?_of_holder? ha)
      rw [Forest.valueIn_eq, hw]
      exact hs.heap.scopes a ref.name w hw
    · trivial

/-- The instance is found under `this`. -/
theorem lookUp_this (hs : s.Sound walk recorded)
    (hresolves : Usage.this.Resolves s.heap.forest recorded s.scope ref) :
    Store.Found walk s.heap (s.lookUp ref) := by
  obtain ⟨hname, d, hd, -, o, ho⟩ := hresolves
  unfold Store.lookUp
  rw [hs.bindings, hd]
  dsimp only
  rw [hname, ho]
  exact hs.heap.getAt? ho nofun

end Store.Sound

namespace Machine

variable {s : Store} {tasks : List Task}
variable {v left right : Value}

/-- A unary operator gives a valid value. -/
theorem applyUnary_valid {op : UnaryOp} {w : Value} (hw : applyUnary op h v = .ok w) : w.Valid walk h' := by
  unfold applyUnary at hw
  split at hw
  · cases hw
    trivial
  · split at hw
    · next u hu =>
      cases hw
      cases v <;> cases hu
      trivial
    · cases hw

theorem arithmetic?_valid {op : Number → Number → Number} (hv : Value.arithmetic? op left right = some v) :
    v.Valid walk h := by
  unfold Value.arithmetic? at hv
  split at hv
  · cases hv
    trivial
  · cases hv

theorem compare?_valid {test : Number → Number → Bool} (hv : Value.compare? test left right = some v) :
    v.Valid walk h := by
  unfold Value.compare? at hv
  split at hv
  · cases hv
    trivial
  · cases hv

theorem add?_valid (hv : left.add? right = some v) : v.Valid walk h := by
  unfold Value.add? at hv
  split at hv <;> cases hv <;> trivial

/-- A binary operator gives a valid value. -/
theorem applyBinary_valid {op : BinaryOp} (hv : applyBinary op h left right = .ok v) : v.Valid walk h' := by
  unfold applyBinary at hv
  dsimp only at hv
  split at hv
  · cases hv
    trivial
  · cases hv
    trivial
  · split at hv
    · next hadd =>
      cases hv
      exact add?_valid hadd
    · cases hv
  · split at hv
    · next hdiv =>
      split_ifs at hv
      cases hv
      exact arithmetic?_valid hdiv
    · cases hv
  all_goals
    split at hv
    · next hresult =>
      cases hv
      first | exact arithmetic?_valid hresult | exact compare?_valid hresult
    · cases hv

section

variable (hs : s.Sound walk recorded)

include hs

theorem raise_sound (t : Token) (cause : RuntimeCause) (tasks : List Task) :
    (raise t cause tasks s).Sound walk recorded :=
  ⟨hs, trivial⟩

theorem complete_sound {s' : Store} {scopes : List (Table Bool)}
    {context : RoutineContext} (hreaches : s.Reaches walk s' scopes)
    (ht : Stacked walk recorded s.heap s.scope (.ended scopes context) tasks) :
    (Machine.mk (.complete .normal) tasks s').Sound walk recorded := by
  obtain ⟨heap, rfl⟩ : ∃ heap, s' = { s with heap } := ⟨_, hreaches.others⟩
  exact ⟨⟨hreaches.sound, hs.bindings⟩, _, _, hreaches.innermost, ht.mono hreaches.grows⟩

/-- Going on with a part of a branch or loop, which leaves the scopes as they are. -/
theorem execute_part_sound {b b' : Binder} {stmt : Stmt}
    (hvisit : walk b' (.stmt stmt)) (hdeclared : stmt.declared? = none) (halike : b.Alike b')
    (hmatches : Matches s.heap.forest s.scope b.scopes)
    (ht : Stacked walk recorded s.heap s.scope (.ended b.scopes b.inRoutine) tasks) :
    (Machine.mk (.execute stmt) tasks s).Sound walk recorded := by
  refine ⟨hs, b', hvisit, halike.scopes ▸ hmatches, ?_⟩
  rw [Stmt.scopesAfter, hdeclared, halike.scopes, halike.inRoutine]
  exact ht

/-- The end of a body keeps a machine sound. -/
theorem endBody_sound {closure : Closure} {outer : ScopeId} (hthis : closure.initializer →
    ∃ o, s.heap.forest.slot? closure.scope thisName = some (.instanceValue o))
    {c : Completion} (hreturned : c = .returned → ∃ v, s.returning = some v ∧ v.Valid walk s.heap)
    (ht : Stacked walk recorded s.heap outer .value tasks) :
    (endBody c closure outer tasks s).Sound walk recorded := by
  have hstore : ∀ returning, ({ s with scope := outer, returning }).Sound walk recorded :=
    fun _ => ⟨hs.heap, hs.bindings⟩
  have hresult : ∀ returned, (∀ v, returned = some v → v.Valid walk s.heap) →
      (s.heap.result closure returned).Valid walk s.heap :=
    fun _ hvalid => hs.heap.result hthis hvalid
  cases c with
  | normal =>
    have hvalid := hresult none nofun
    unfold endBody
    dsimp only
    split
    · next habsent => exact (habsent ▸ hvalid : Value.Valid walk s.heap .absent).elim
    · exact ⟨hstore _, hvalid, ht⟩
  | returned =>
    obtain ⟨v, hv, hvvalid⟩ := hreturned rfl
    have hvalid := hresult s.returning fun w hw => by
      obtain rfl := Option.some.inj (hv.symm.trans hw)
      exact hvvalid
    unfold endBody
    dsimp only
    split
    · next habsent => exact (habsent ▸ hvalid : Value.Valid walk s.heap .absent).elim
    · exact ⟨hstore _, hvalid, ht⟩

/-- A return that goes on keeps a machine sound. -/
theorem proceed_returned_sound {scopes : List (Table Bool)} {context : RoutineContext} {task : Task}
    (hcontext : context ≠ .outside) (hreturning : ∃ v, s.returning = some v ∧ v.Valid walk s.heap)
    (ht : Stacked walk recorded s.heap s.scope (.ended scopes context) (task :: tasks)) :
    (proceed .returned task tasks s).Sound walk recorded := by
  cases ht with
  | sequence hvisit hrest | loopBody hvisit hrest => exact ⟨hs, ⟨_, _, hcontext, hrest⟩, hreturning⟩
  | leaveScope houter hrest => exact ⟨⟨hs.heap, hs.bindings⟩, ⟨_, _, hcontext, hrest⟩, hreturning⟩
  | endBody _ hthis hrest =>
    exact endBody_sound (c := .returned) hs hthis (fun _ => hreturning) hrest

/-- A failure that goes on keeps a machine sound. -/
theorem giveUp_sound (f : Failure) (task : Task) (tasks : List Task) :
    (giveUp f task tasks s).Sound walk recorded := by
  unfold giveUp
  split
  · exact ⟨⟨hs.heap, hs.bindings⟩, trivial⟩
  · exact ⟨⟨hs.heap, hs.bindings⟩, trivial⟩
  · dsimp only
    split <;> exact ⟨⟨hs.heap, hs.bindings⟩, trivial⟩
  · exact ⟨hs, trivial⟩

variable (ht : Stacked walk recorded s.heap s.scope .value tasks)

include ht

theorem handOn_sound {t : Token} {result : Except (Fault ⊕ RuntimeCause) Value}
    (hresult : Store.Found walk s.heap result) : (handOn t result tasks s).Sound walk recorded := by
  unfold handOn
  split
  · exact ⟨hs, hresult, ht⟩
  · exact hresult.elim
  · exact raise_sound hs ..

/-- A method of the superclass is there to be bound to the instance. -/
theorem superMethod_sound {ref : Reference} (method : Token)
    (hresolves : Usage.super.Resolves s.heap.forest recorded s.scope ref) :
    (superMethod ref method tasks s).Sound walk recorded := by
  obtain ⟨d, hd, -, ⟨c, hc⟩, o, ho⟩ := hresolves
  unfold superMethod
  rw [hs.bindings, hd]
  dsimp only [Option.getD_some]
  rw [hc, Nat.add_sub_cancel, ho]
  dsimp only
  split
  · exact raise_sound hs ..
  · next closure hclosure =>
    obtain ⟨hgrows, hsound, hvalid⟩ := hs.heap.bind (hs.heap.method? hclosure) (hs.heap.getAt? ho nofun)
    exact ⟨⟨hsound, hs.bindings⟩, hvalid, ht.mono hgrows⟩

theorem deliver_sound {result : Heap × Value} (hgives : s.heap.Gives walk result) :
    (Machine.mk (.deliver result.2) tasks { s with heap := result.1 }).Sound walk recorded :=
  ⟨⟨hgives.sound, hs.bindings⟩, hgives.valid, ht.mono hgives.grows⟩

/-- A call of a built-in function keeps a machine sound. -/
theorem callNative_sound (limits : Limits) (n : Native) {args : List Value}
    (hargs : ∀ v ∈ args, v.Valid walk s.heap) (hlength : args.length = n.arity) (paren : Token) :
    (callNative limits n args paren tasks s).Sound walk recorded := by
  have hcall := n.call_valid hs.heap (limits.clock s.readings) hargs hlength
  unfold callNative
  dsimp only
  split
  · next a ha =>
    rw [show n.call (limits.clock s.readings) s.heap args = .accepted a from ha] at hcall
    have hgives := NativeAction.Valid.perform hcall hs.heap
    exact ⟨⟨hgives.sound, hs.bindings⟩, hgives.valid, ht.mono hgives.grows⟩
  · exact ⟨⟨hs.heap, hs.bindings⟩, trivial⟩
  · next f hf =>
    rw [show n.call (limits.clock s.readings) s.heap args = .fault f from hf] at hcall
    exact hcall.elim

theorem handOnApplied_sound {t : Token}
    {result : Except RuntimeCause Value} (hresult : ∀ v, result = .ok v → v.Valid walk s.heap) :
    (handOnApplied t result tasks s).Sound walk recorded := by
  unfold handOnApplied
  split
  · exact ⟨hs, hresult _ rfl, ht⟩
  · exact raise_sound hs ..

/-- Assigning to a reference finds the scope to assign in, or is an error of the program. -/
theorem resume_assign_sound (limits : Limits) {v : Value} (hv : v.Valid walk s.heap) {ref : Reference}
    (hresolves : Usage.assign.Resolves s.heap.forest recorded s.scope ref) :
    (resume limits v (.assign ref) tasks s).Sound walk recorded := by
  obtain ⟨hname, hframes⟩ := hresolves
  unfold resume
  dsimp only
  split
  · next e he =>
    have hgrows : s.heap.Grows (s.heap.define e ref.name v) := Heap.define_grows (.inl hname)
    exact ⟨⟨hs.heap.define (.inl hname) (hv.mono hgrows), hs.bindings⟩, hv.mono hgrows, ht.mono hgrows⟩
  · next f hf =>
    unfold Store.target at hf
    rw [hs.bindings] at hf
    cases hd : recorded ref.site with
    | none =>
      rw [hd] at hf
      dsimp only at hf
      split at hf <;> cases hf
    | some d =>
      obtain ⟨a, ha, -⟩ := hframes d hd d (Nat.lt_succ_self d)
      rw [hd] at hf
      dsimp only at hf
      rw [ha] at hf
      cases hf
  · exact raise_sound hs ..

end

section

variable (hwalk : walk.Lawful recorded) (hs : s.Sound walk recorded)
variable {task : Task} {args : List Value}

include hwalk hs

/-- Executing a statement keeps a machine sound. -/
theorem execute_sound {b : Binder}
    {stmt : Stmt} (hvisit : walk b (.stmt stmt)) (hmatches : Matches s.heap.forest s.scope b.scopes)
    (ht : Stacked walk recorded s.heap s.scope (.ended (stmt.scopesAfter b.scopes) b.inRoutine) tasks) :
    (execute stmt tasks s).Sound walk recorded := by
  have hformed : stmt.Formed := (hwalk.sound hvisit).formed
  have hpending : ∀ {e}, (b, .expr e) ∈ (Phrase.stmt stmt).children b →
      e.Pending walk recorded s.heap s.scope := fun hm =>
    .of_matches hwalk hs.heap (hwalk.child hvisit hm) hmatches
  cases stmt with
  | expression e | print e => exact ⟨hs, hpending (.head _), .finishes hmatches ht⟩
  | returns keyword value =>
    have hcontext := (hwalk.sound hvisit).of_returns
    cases value with
    | none => exact ⟨⟨hs.heap, hs.bindings⟩, ⟨_, _, hcontext, ht⟩, .nil, rfl, trivial⟩
    | some e =>
      have hchecked : walk (b.checkReturn keyword true) (.expr e) := hwalk.child hvisit (.head _)
      have hscopes := (b.checkReturn_alike keyword true).scopes
      exact ⟨hs, .of_matches hwalk hs.heap hchecked (hscopes ▸ hmatches), .finishes hcontext ht⟩
  | branch condition yes no =>
    have hm : (b, .expr condition) ∈ (Phrase.stmt (.branch condition yes no)).children b := by
      cases no <;> exact .head _
    exact ⟨hs, hpending hm, .finishes ⟨b, condition, hvisit, rfl, rfl, hmatches⟩ ht⟩
  | loop condition body => exact ⟨hs, hpending (.head _), .finishes ⟨b, hvisit, rfl, rfl, hmatches⟩ ht⟩
  | block body =>
    have hbody : walk (b.enter .empty) (.stmts body) := hwalk.child hvisit (.head _)
    have hgrows := s.heap.newScope_grows (some s.scope)
    refine ⟨⟨hs.heap.newScope _, hs.bindings⟩, _, b.inRoutine, hs.heap.matches_newScope hmatches, ?_⟩
    exact .sequence hbody (.leaveScope (hmatches.mono hgrows.forest) (ht.mono hgrows))
  | «variable» name initializer =>
    cases initializer with
    | none =>
      exact complete_sound hs (Store.define_reaches hs.heap hmatches hformed (v := .nil) trivial) ht
    | some e =>
      have hdeclared : walk (b.declare name) (.expr e) := hwalk.child hvisit (.head _)
      have hmarked : Matches s.heap.forest s.scope (b.declare name).scopes :=
        b.declare_scopes name ▸ hmatches.mark hformed
      exact ⟨hs, .of_matches hwalk hs.heap hdeclared hmarked, .finishes ⟨hformed, _, hmatches, rfl⟩ ht⟩
  | routine r =>
    have hreaches := Store.declareRoutine_reaches hs.heap hmatches hformed.plain_name
      (hwalk.child hvisit (.head _))
    exact complete_sound hs hreaches ht
  | classOf name superclass methods =>
    cases superclass with
    | none =>
      have hreaches := Store.declareClass_reaches_none hwalk.closed hs.heap hmatches hformed.1
        (hwalk.child hvisit (.head _))
      exact complete_sound hs hreaches ht
    | some superclass =>
      exact ⟨hs, .of_superclass hwalk hs.heap hvisit hmatches,
        .finishes ⟨b, superclass, hvisit, hmatches, rfl⟩ ht⟩

/-- Taking a branch keeps a machine sound. -/
theorem resume_branch_sound (limits : Limits) (v : Value) {b : Binder} {test : Expr} {yes : Stmt}
    {no : Option Stmt} (hvisit : walk b (.stmt (.branch test yes no)))
    (hmatches : Matches s.heap.forest s.scope b.scopes)
    (ht : Stacked walk recorded s.heap s.scope (.ended b.scopes b.inRoutine) tasks) :
    (resume limits v (.branch yes no) tasks s).Sound walk recorded := by
  have hformed : (Stmt.branch test yes no).Formed := (hwalk.sound hvisit).formed
  have htest := test.bind_alike b
  unfold resume
  dsimp only
  cases no with
  | none =>
    split_ifs
    · exact execute_part_sound hs (hwalk.child hvisit (.tail _ (.head _))) hformed.1 htest hmatches ht
    · exact ⟨hs, _, _, hmatches, ht⟩
  | some no =>
    have hyes := (yes.bind_follows (test.bind b) hformed.1.2).alike hformed.1.1
    split_ifs
    · exact execute_part_sound hs (hwalk.child hvisit (.tail _ (.head _))) hformed.1.1 htest hmatches ht
    · exact execute_part_sound hs (hwalk.child hvisit (.tail _ (.tail _ (.head _)))) hformed.2.1
        (htest.trans hyes) hmatches ht

/-- A value that ends a statement keeps a machine sound. -/
theorem resume_finishes_sound (limits : Limits) {v : Value} (hv : v.Valid walk s.heap)
    {scopes : List (Table Bool)} {context : RoutineContext}
    (htask : task.Finishes walk s.heap s.scope scopes context)
    (ht : Stacked walk recorded s.heap s.scope (.ended scopes context) tasks) :
    (resume limits v task tasks s).Sound walk recorded := by
  cases task with
  | discard => exact ⟨hs, _, _, htask, ht⟩
  | print => exact ⟨⟨hs.heap, hs.bindings⟩, _, _, htask, ht⟩
  | returnValue => exact ⟨⟨hs.heap, hs.bindings⟩, ⟨_, _, htask, ht⟩, v, rfl, hv⟩
  | branch yes no =>
    obtain ⟨b, test, hvisit, rfl, rfl, hmatches⟩ := htask
    exact resume_branch_sound hwalk hs limits v hvisit hmatches ht
  | loopTest test body =>
    obtain ⟨b, hvisit, rfl, rfl, hmatches⟩ := htask
    have hformed : (Stmt.loop test body).Formed := (hwalk.sound hvisit).formed
    unfold resume
    dsimp only
    split_ifs
    · exact execute_part_sound hs (hwalk.child hvisit (.tail _ (.head _))) hformed.1
        (test.bind_alike b) hmatches (.loopBody hvisit ht)
    · exact ⟨hs, _, _, hmatches, ht⟩
  | «variable» name =>
    obtain ⟨hname, before, hmatches, rfl⟩ := htask
    have hgrows : s.heap.Grows (s.define name v).heap := Heap.define_grows (.inl hname)
    exact complete_sound hs (Store.define_reaches hs.heap hmatches hname (hv.mono hgrows)) ht
  | superclass name token methods =>
    obtain ⟨b, ref, hvisit, hmatches, rfl⟩ := htask
    have hformed : (Stmt.classOf name (some ref) methods).Formed := (hwalk.sound hvisit).formed
    unfold resume
    dsimp only
    split
    · next c =>
      have hreaches := Store.declareClass_reaches_some hwalk.closed hs.heap hmatches hformed.1
        (hwalk.child hvisit (.tail _ (.head _))) hv
      exact complete_sound hs hreaches ht
    · exact raise_sound hs ..
  | _ => exact htask.elim

/-- A statement that has ended keeps a machine sound. -/
theorem proceed_normal_sound {scopes : List (Table Bool)} {context : RoutineContext}
    (hmatches : Matches s.heap.forest s.scope scopes)
    (ht : Stacked walk recorded s.heap s.scope (.ended scopes context) (task :: tasks)) :
    (proceed .normal task tasks s).Sound walk recorded := by
  cases ht with
  | @sequence _ b ss _ hvisit hrest =>
    cases ss with
    | nil => exact ⟨hs, _, _, hmatches, hrest⟩
    | cons stmt rest =>
      have hstmt : walk b (.stmt stmt) := hwalk.child hvisit (.head _)
      have hfollows := stmt.bind_follows b (hwalk.sound hstmt).formed
      refine ⟨hs, b, hstmt, hmatches, ?_⟩
      rw [← hfollows.scopes, ← hfollows.inRoutine]
      refine .sequence (hwalk.child hvisit (.tail _ (.head _))) ?_
      rw [hfollows.inRoutine]
      exact hrest
  | loopBody hvisit hrest =>
    exact ⟨hs, .of_matches hwalk hs.heap (hwalk.child hvisit (.head _)) hmatches,
      .finishes ⟨_, hvisit, rfl, rfl, hmatches⟩ hrest⟩
  | leaveScope houter hrest => exact ⟨⟨hs.heap, hs.bindings⟩, _, _, houter, hrest⟩
  | endBody hcontext hthis hrest => exact endBody_sound (c := .normal) hs hthis nofun hrest

variable (ht : Stacked walk recorded s.heap s.scope .value tasks)

include ht

/-- Evaluating an expression keeps a machine sound. -/
theorem evaluate_sound {e : Expr} (he : e.Pending walk recorded s.heap s.scope) :
    (evaluate e tasks s).Sound walk recorded := by
  have hoperand : ∀ {e'}, e' ∈ e.operands → e'.Pending walk recorded s.heap s.scope :=
    fun he' => he.operand hwalk he'
  cases e with
  | literal _ l =>
    refine ⟨hs, ?_, ht⟩
    cases l <;> trivial
  | grouping _ inner => exact ⟨hs, hoperand (.head _), ht⟩
  | «variable» ref => exact handOn_sound hs ht (hs.lookUp_variable (he.2 _ (.head _)))
  | this ref => exact handOn_sound hs ht (hs.lookUp_this (he.2 _ (.head _)))
  | super ref method => exact superMethod_sound hs ht method (he.2 _ (.head _))
  | assign target value => exact ⟨hs, hoperand (.head _), .operates (he.2 _ (.head _)) ht⟩
  | unary _ op sign operand | get _ object name => exact ⟨hs, hoperand (.head _), .operates trivial ht⟩
  | binary _ op sign left right | logical _ op sign left right | set _ object name value =>
    exact ⟨hs, hoperand (.head _), .operates (hoperand (.tail _ (.head _))) ht⟩
  | conditional _ condition question middle colon right =>
    exact ⟨hs, hoperand (.head _),
      .operates ⟨hoperand (.tail _ (.head _)), hoperand (.tail _ (.tail _ (.head _)))⟩ ht⟩
  | call _ callee paren arguments =>
    exact ⟨hs, hoperand (.head _), .operates (fun e' he' => hoperand (.tail _ he')) ht⟩

/-- Entering a function keeps a machine sound. -/
theorem enterFunction_sound {closure : Closure} (hclosure : closure.Callable walk s.heap.forest)
    (hargs : ∀ v ∈ args, v.Valid walk s.heap) (hlength : args.length = closure.routine.arity) :
    (enterFunction closure args tasks s).Sound walk recorded := by
  obtain ⟨b, context, hvisit, hcontext, hmatches, hthis⟩ := hclosure
  have hbody := hwalk.body hvisit
  obtain ⟨hgrows, hsound, hscope⟩ := hs.heap.enter (b := { b with inRoutine := context }) hmatches
    (hwalk.sound hvisit).formed.plain_params hargs hlength.ge
  unfold enterFunction
  rw [if_neg (Nat.not_lt.2 hlength.ge)]
  refine ⟨⟨hsound, hs.bindings⟩, _, _, hscope,
    .sequence hbody (.endBody ?_ (fun hinit => ?_) (ht.mono hgrows))⟩
  · rw [(Binder.enterRoutine_marks _ _).inRoutine]
    exact hcontext
  · obtain ⟨o, ho⟩ := hthis hinit
    exact ⟨o, hgrows.forest.fixed _ _ _ not_plain_this ho⟩

/-- Making an instance keeps a machine sound. -/
theorem construct_sound {c : ClassId} (hargs : ∀ v ∈ args, v.Valid walk s.heap)
    (hlength : args.length = s.heap.classArity c) : (construct c args tasks s).Sound walk recorded := by
  have hgrows := s.heap.newInstance_grows c
  have hnew := hs.heap.newInstance c
  have ho : (s.heap.newInstance c).2 < (s.heap.newInstance c).1.instances.size := by
    simp [Heap.newInstance]
  unfold construct
  dsimp only
  split
  · exact ⟨⟨hnew, hs.bindings⟩, ho, ht.mono hgrows⟩
  · next initializer hinitializer =>
    have hinitializer : (s.heap.newInstance c).1.method? c initName = some initializer := hinitializer
    have harity := Heap.classArity_of_method? hinitializer
    have hsame : (s.heap.newInstance c).1.classArity c = s.heap.classArity c := by
      apply Heap.classArity_congr <;> rfl
    obtain ⟨hgrows', hsound, hvalid⟩ := hnew.bind (hnew.method? hinitializer) ho
    have hfunction := (s.heap.newInstance c).1.functions_bind initializer (s.heap.newInstance c).2
    obtain ⟨bound, hbound, hcallable⟩ := hvalid
    split
    · next bound' hbound' =>
      obtain rfl := Option.some.inj (hbound.symm.trans hbound')
      obtain rfl := Option.some.inj (hbound.symm.trans hfunction)
      have hstore : ((s.newInstance c).1.bind initializer (s.newInstance c).2).1.Sound walk recorded :=
        ⟨hsound, hs.bindings⟩
      refine enterFunction_sound hwalk hstore ?_ hcallable
        (fun v hv => (hargs v hv).mono (hgrows.trans hgrows')) (hlength.trans (hsame.symm.trans harity))
      exact .operates (Nat.lt_of_lt_of_le ho hgrows'.instances) (ht.mono (hgrows.trans hgrows'))
    · next hnone => cases hbound.symm.trans hnone

/-- A call keeps a machine sound. -/
theorem apply_sound (limits : Limits) {callee : Value} (hcallee : callee.Valid walk s.heap)
    (hargs : ∀ v ∈ args, v.Valid walk s.heap) (paren : Token) :
    (apply limits callee args paren tasks s).Sound walk recorded := by
  have hframe : ∀ name, (pushFrame name paren s).Sound walk recorded :=
    fun name => ⟨hs.heap, hs.bindings⟩
  -- A value that is not callable has no number of arguments.
  cases callee with
  | native n =>
    unfold apply
    dsimp only [Heap.arity?]
    split_ifs with hlength hdepth
    · exact raise_sound hs ..
    · exact ⟨hs, trivial⟩
    · exact callNative_sound hs ht limits n hargs (not_not.1 hlength).symm paren
  | function f =>
    obtain ⟨closure, hclosure, hcallable⟩ := hcallee
    have harity : s.heap.functionArity f = closure.routine.arity := by
      rw [Heap.functionArity, hclosure]
    unfold apply
    dsimp only [Heap.arity?]
    split_ifs with hlength hdepth
    · exact raise_sound hs ..
    · exact ⟨hs, trivial⟩
    · rw [hclosure]
      refine enterFunction_sound hwalk (hframe _) ?_ hcallable hargs ((not_not.1 hlength).symm.trans harity)
      exact .operates trivial ht
  | classValue c =>
    unfold apply
    dsimp only [Heap.arity?]
    split_ifs with hlength hdepth
    · exact raise_sound hs ..
    · exact ⟨hs, trivial⟩
    · refine construct_sound hwalk (hframe _) ?_ hargs (not_not.1 hlength).symm
      exact .operates trivial ht
  | absent | nil | bool | number | string | instanceValue => exact raise_sound hs ..

/-- Going on with the arguments keeps a machine sound. -/
theorem nextArgument_sound (limits : Limits) (paren : Token) {callee : Value}
    (hcallee : callee.Valid walk s.heap) {done : List Value} (hdone : ∀ v ∈ done, v.Valid walk s.heap)
    {rest : List Expr} (hrest : ∀ e ∈ rest, e.Pending walk recorded s.heap s.scope) :
    (nextArgument limits paren callee done rest tasks s).Sound walk recorded := by
  cases rest with
  | nil =>
    exact apply_sound hwalk hs ht limits hcallee (fun v hv => hdone v (List.mem_reverse.1 hv)) paren
  | cons e rest =>
    obtain ⟨he, hrest⟩ := List.forall_mem_cons.1 hrest
    exact ⟨hs, he, .operates ⟨hcallee, hdone, hrest⟩ ht⟩

/-- A value for an expression keeps a machine sound. -/
theorem resume_operates_sound (limits : Limits) {v : Value} (hv : v.Valid walk s.heap)
    (htask : task.Operates walk recorded s.heap s.scope) :
    (resume limits v task tasks s).Sound walk recorded := by
  cases task with
  | assign ref => exact resume_assign_sound hs ht limits hv htask
  | unary op sign => exact handOnApplied_sound hs ht fun w hw => applyUnary_valid hw
  | binaryLeft op sign right | middle condition right => exact ⟨hs, htask, .operates hv ht⟩
  | binaryRight op sign left => exact handOnApplied_sound hs ht fun w hw => applyBinary_valid hw
  | logical op right =>
    unfold resume
    dsimp only
    split_ifs
    · exact ⟨hs, hv, ht⟩
    · exact ⟨hs, htask, ht⟩
  | condition yes no => exact ⟨hs, htask.1, .operates htask.2 ht⟩
  | choose condition middle =>
    unfold resume
    refine ⟨hs, ?_, ht⟩
    dsimp only
    split_ifs
    · exact htask
    · exact hv
  | callee paren arguments => exact nextArgument_sound hwalk hs ht limits paren hv (by simp) htask
  | argument paren callee done rest =>
    exact nextArgument_sound hwalk hs ht limits paren htask.1 (List.forall_mem_cons.2 ⟨hv, htask.2.1⟩) htask.2.2
  | get name =>
    unfold resume
    dsimp only
    split
    · next o =>
      split
      · next p hp => exact deliver_sound hs ht (hs.heap.take (hs.heap.property? hp) hv)
      · exact raise_sound hs ..
    · exact raise_sound hs ..
  | setObject name value =>
    unfold resume
    dsimp only
    split
    · exact ⟨hs, htask, .operates trivial ht⟩
    · exact raise_sound hs ..
  | setValue name o =>
    have hgrows : s.heap.Grows (s.heap.setField o name.lexeme v) := Heap.setField_grows
    exact ⟨⟨hs.heap.setField hv, hs.bindings⟩, hv.mono hgrows, ht.mono hgrows⟩
  | construct o => exact ⟨hs, htask, ht⟩
  | endCall name paren => exact ⟨⟨hs.heap, hs.bindings⟩, hv, ht⟩
  | _ => exact htask.elim

end

/-- A step keeps a machine sound. -/
theorem Sound.step (hwalk : walk.Lawful recorded) (limits : Limits) {m : Machine}
    (hm : m.Sound walk recorded) : (m.step limits).Sound walk recorded := by
  obtain ⟨control, tasks, s⟩ := m
  obtain ⟨hs, hcontrol⟩ := hm
  cases control with
  | evaluate e => exact evaluate_sound hwalk hs hcontrol.2 hcontrol.1
  | execute stmt =>
    obtain ⟨b, hvisit, hmatches, ht⟩ := hcontrol
    exact execute_sound hwalk hs hvisit hmatches ht
  | deliver v =>
    obtain ⟨hv, ht⟩ := hcontrol
    cases ht with
    | operates htask hrest => exact resume_operates_sound hwalk hs hrest limits hv htask
    | finishes htask hrest => exact resume_finishes_sound hwalk hs limits hv htask hrest
  | complete c =>
    cases c with
    | normal =>
      obtain ⟨scopes, context, hmatches, ht⟩ := hcontrol
      cases tasks with
      | nil => exact ⟨hs, scopes, context, hmatches, ht⟩
      | cons task tasks => exact proceed_normal_sound hwalk hs hmatches ht
    | returned =>
      obtain ⟨⟨scopes, context, hcontext, ht⟩, hreturning⟩ := hcontrol
      cases tasks with
      | nil =>
        cases ht
        exact absurd rfl hcontext
      | cons task tasks => exact proceed_returned_sound hs hcontext hreturning ht
  | unwind f =>
    cases tasks with
    | nil => exact ⟨hs, trivial⟩
    | cons task tasks => exact giveUp_sound hs f task tasks
  | fault f => exact hcontrol.elim

/-- A run keeps a machine sound. -/
theorem Sound.run (hwalk : walk.Lawful recorded) (limits : Limits) (n : Nat) {m : Machine}
    (hm : m.Sound walk recorded) : (m.run limits n).Sound walk recorded := by
  induction n generalizing m with
  | zero => exact hm
  | succ n ih =>
    rw [Machine.run]
    split
    · exact hm
    · exact ih (hm.step hwalk limits)

end Machine

end Lox
