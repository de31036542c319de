import Lox.Proofs.Pieces
import Lox.Proofs.ThinnedStore

/-!
# Runs without empty scopes

A machine that runs what stands in the blocks of a loop, and one that runs the same without the scopes of the
blocks, go step by step through states that correspond (`Machine.Thins.step`). The tasks of both wait in scopes
that correspond, down to a scope in which they have begun.

How far out a name is follows from the walk over the program: the first machine is sound, so the current scope is
as far from the globals as the point where the expression was bound, and this tells how many scopes further in
than that of the block the expression stands.
-/

namespace Lox

/-- What a machine is about to do, with its references some sites further on. -/
def Control.moved (n : Nat) : Control → Control
  | .evaluate e => .evaluate (e.moved n)
  | .execute stmt => .execute (stmt.moved n)
  | c => c

/-- A task with its references some sites further on. -/
def Task.moved (n : Nat) : Task → Task
  | .assign target => .assign (target.moved n)
  | .binaryLeft op sign right => .binaryLeft op sign (right.moved n)
  | .logical op right => .logical op (right.moved n)
  | .condition yes no => .condition (yes.moved n) (no.moved n)
  | .middle test no => .middle test (no.moved n)
  | .callee paren arguments => .callee paren (Expr.movedAll n arguments)
  | .argument paren called done rest => .argument paren called done (Expr.movedAll n rest)
  | .setObject name value => .setObject name (value.moved n)
  | .branch yes no => .branch (yes.moved n) (no.map (Stmt.moved n))
  | .loopTest test body => .loopTest (test.moved n) (body.moved n)
  | .superclass name parent methods => .superclass name parent (Routine.movedAll n methods)
  | .sequence rest => .sequence (Stmt.movedAll n rest)
  | .loopBody test body => .loopBody (test.moved n) (body.moved n)
  | t => t

/-- The references in the code of a control. -/
def Control.references : Control → List (Usage × Reference)
  | .evaluate e => e.references
  | .execute stmt => stmt.references
  | _ => []

/-- The references in the code of a task. -/
def Task.references : Task → List (Usage × Reference)
  | .assign target => [(.assign, target)]
  | .binaryLeft _ _ right | .logical _ right | .middle _ right | .setObject _ right => right.references
  | .condition yes no => yes.references ++ no.references
  | .callee _ arguments => Expr.referencesOfAll arguments
  | .argument _ _ _ rest => Expr.referencesOfAll rest
  | .branch yes none => yes.references
  | .branch yes (some no) => yes.references ++ no.references
  | .loopTest test body | .loopBody test body => test.references ++ body.references
  | .superclass _ _ methods => Routine.referencesOfAll methods
  | .sequence rest => Stmt.referencesOfAll rest
  | _ => []

/-- A control that declares nothing in the current scope. -/
def Control.Quiet : Control → Prop
  | .execute stmt => stmt.declared? = none
  | _ => True

/-- A task that declares nothing in the current scope. -/
def Task.Quiet : Task → Prop
  | .branch yes no => yes.declared? = none ∧ ∀ s ∈ no, s.declared? = none
  | .loopTest _ body | .loopBody _ body => body.declared? = none
  | .variable _ | .superclass _ _ _ => False
  | .sequence rest => ∀ s ∈ rest, s.declared? = none
  | _ => True

/-- A control that can stand at a place. -/
structure Control.Stands (T : Thinning) (i : Option Nat) (c : Control) : Prop where
  covers : T.Covers i c.references
  quiet : i = some 0 → c.Quiet

/-- A control without code, which is the same everywhere. -/
def Control.Plain : Control → Prop
  | .evaluate _ | .execute _ => False
  | _ => True

theorem Control.Plain.stands {T : Thinning} {i : Option Nat} {c : Control} (h : c.Plain) : c.Stands T i := by
  cases c with
  | evaluate | execute => exact h.elim
  | _ => exact ⟨fun _ _ hp => absurd hp List.not_mem_nil, fun _ => trivial⟩

theorem Control.Plain.moved {n : Nat} {c : Control} (h : c.Plain) : c.moved n = c := by
  cases c with
  | evaluate | execute => exact h.elim
  | _ => rfl

/-- A task that can stand at a place. -/
structure Task.Stands (T : Thinning) (g : Shadow) (n : Nat) (i : Option Nat) (t : Task) : Prop where
  covers : T.Covers i t.references
  quiet : i = some 0 → t.Quiet
  fits : ∀ ref, t = .assign ref → T.Fits i (.assign, ref)
  closure : ∀ c outer, t = .endBody c outer → c.Stands T g n

/-- A task that neither assigns nor ends the body of a function. -/
def Task.Common : Task → Prop
  | .assign _ | .endBody _ _ => False
  | _ => True

/-- Such a task can stand wherever its references and its declarations can. -/
theorem Task.Stands.common {T : Thinning} {g : Shadow} {n : Nat} {i : Option Nat} {t : Task} (h : t.Common)
    (hcovers : T.Covers i t.references) (hquiet : i = some 0 → t.Quiet) : t.Stands T g n i := by
  refine ⟨hcovers, hquiet, ?_, ?_⟩
  · rintro ref rfl
    exact h.elim
  · rintro c outer rfl
    exact h.elim

/-- A task that waits in a scope, without the scopes of the blocks. -/
def Task.thin (T : Thinning) (g : Shadow) (e : ScopeId) : Task → Task
  | .leaveScope outer => .leaveScope (g.scope outer)
  | .endBody c outer => .endBody (c.thin T g) (g.scope outer)
  | t => t.moved (T.shift (g.place e))

/-- Tasks that resume one after another, the first in a given scope and the last one back in the scope in which
they have begun, and the same without the scopes of the blocks. -/
inductive Task.AllThin (T : Thinning) (g : Shadow) (n : Nat) (base : ScopeId) :
    ScopeId → List Task → List Task → Prop where
  | nil (hlt : base < n) : AllThin T g n base base [] []
  | cons {e : ScopeId} {t : Task} {tasks tasks' : List Task} (hlt : e < n)
    (ht : t.Stands T g n (g.place e)) (hrest : AllThin T g n base (t.after e) tasks tasks') :
    AllThin T g n base e (t :: tasks) (t.thin T g e :: tasks')

/-- The number of scopes made so far. -/
abbrev Store.made (s : Store) : Nat := s.heap.forest.scopes.size

section

variable {T : Thinning} {g g' : Shadow} {n m : Nat} {e base : ScopeId} {t : Task} {tasks tasks' : List Task}

theorem Task.AllThin.lt (h : Task.AllThin T g n base e tasks tasks') : e < n := by
  cases h with
  | nil hlt => exact hlt
  | cons hlt => exact hlt

theorem Task.Stands.extend (h : t.Stands T g n (g.place e)) (he : e < n) (hext : g.Extends n g') (hle : n ≤ m) :
    t.Stands T g' m (g'.place e) := by
  rw [(hext e he).1]
  exact ⟨h.covers, h.quiet, h.fits, fun c outer ht => (h.closure c outer ht).extend hext hle⟩

/-- A later correspondence of scopes leaves what a task is without the loop's blocks. -/
theorem Task.Stands.thin_extend (h : t.Stands T g n (g.place e)) (he : e < n) (hafter : t.after e < n)
    (hext : g.Extends n g') : t.thin T g' e = t.thin T g e := by
  cases t with
  | leaveScope outer => exact congrArg Task.leaveScope (hext outer hafter).2
  | endBody c outer =>
    exact congrArg₂ Task.endBody ((h.closure c outer rfl).thin_extend hext) (hext outer hafter).2
  | _ =>
    unfold Task.thin
    dsimp only
    rw [(hext e he).1]

theorem Task.AllThin.extend (h : Task.AllThin T g n base e tasks tasks') (hext : g.Extends n g') (hle : n ≤ m) :
    Task.AllThin T g' m base e tasks tasks' := by
  induction h with
  | nil hlt => exact .nil (Nat.lt_of_lt_of_le hlt hle)
  | cons hlt ht hrest ih =>
    rw [← ht.thin_extend hlt hrest.lt hext]
    exact .cons (Nat.lt_of_lt_of_le hlt hle) (ht.extend hlt hext hle) ih

end

namespace Machine

/-- The second machine is in the state of the first one, without the scopes of the blocks. -/
structure Thins (T : Thinning) (g : Shadow) (base : ScopeId) (m m' : Machine) : Prop where
  store : m.store.Thins T g m'.store
  stands : m.control.Stands T (g.place m.store.scope)
  control : m'.control = m.control.moved (T.shift (g.place m.store.scope))
  /-- Nothing is said about the tasks of a machine that stands still. -/
  tasks : (∀ f, m.control ≠ .fault f) →
    Task.AllThin T g m.store.made base m.store.scope m.tasks m'.tasks

/-- Machines that correspond, with a shadow that has grown with the heap. -/
def Follows (T : Thinning) (g : Shadow) (base : ScopeId) (n : Nat) (m m' : Machine) : Prop :=
  ∃ g', g.Extends n g' ∧ n ≤ m.store.made ∧ m.Thins T g' base m'

variable {T : Thinning} {g g' : Shadow} {base : ScopeId} {s s' s₁ s₁' : Store} {tasks tasks' : List Task}

namespace Follows

theorem of_extends {n k : Nat} {m m' : Machine} (hext : g.Extends n g') (hle : n ≤ k)
    (h : Follows T g' base k m m') : Follows T g base n m m' := by
  obtain ⟨g'', hext', hle', hthins⟩ := h
  exact ⟨g'', hext.trans hle hext', hle.trans hle', hthins⟩

theorem stay (hs : s.Thins T g s') (ht : Task.AllThin T g s.made base s.scope tasks tasks') {c : Control}
    (hc : c.Stands T (g.place s.scope)) :
    Follows T g base s.made ⟨c, tasks, s⟩ ⟨c.moved (T.shift (g.place s.scope)), tasks', s'⟩ :=
  ⟨g, .refl _ _, Nat.le_refl _, hs, hc, rfl, fun _ => ht⟩

/-- The stores may have changed under the tasks. -/
theorem of_store (hs : s₁.Thins T g' s₁') (hext : g.Extends s.made g') (hle : s.made ≤ s₁.made)
    (hscope : s₁.scope = s.scope) (ht : Task.AllThin T g s.made base s.scope tasks tasks') {c : Control}
    (hc : c.Plain) : Follows T g base s.made ⟨c, tasks, s₁⟩ ⟨c, tasks', s₁'⟩ := by
  refine ⟨g', hext, hle, hs, hc.stands, hc.moved.symm, fun _ => ?_⟩
  dsimp only
  rw [hscope]
  exact ht.extend hext hle

/-- The stores may have changed in what is not about scopes. -/
theorem of_same (hs : s₁.Thins T g s₁') (hsize : s₁.made = s.made) (hscope : s₁.scope = s.scope)
    (ht : Task.AllThin T g s.made base s.scope tasks tasks') {c : Control} (hc : c.Plain) :
    Follows T g base s.made ⟨c, tasks, s₁⟩ ⟨c, tasks', s₁'⟩ :=
  of_store hs (.refl _ _) hsize.ge hscope ht hc

theorem fault (hs : s.Thins T g s') (f : Fault) (tasks tasks' : List Task) :
    Follows T g base s.made ⟨.fault f, tasks, s⟩ ⟨.fault f, tasks', s'⟩ :=
  ⟨g, .refl _ _, Nat.le_refl _, hs, Control.Plain.stands trivial, rfl, fun h => absurd rfl (h f)⟩

end Follows

section

variable (hs : s.Thins T g s') (ht : Task.AllThin T g s.made base s.scope tasks tasks')

include hs ht

theorem follows_plain {c : Control} (hc : c.Plain) : Follows T g base s.made ⟨c, tasks, s⟩ ⟨c, tasks', s'⟩ :=
  .of_same hs rfl rfl ht hc

theorem follows_raise (t : Token) (cause : RuntimeCause) :
    Follows T g base s.made (raise t cause tasks s) (raise t cause tasks' s') := by
  unfold raise
  rw [hs.frame]
  exact follows_plain hs ht trivial

theorem follows_handOn (t : Token) (result : Except (Fault ⊕ RuntimeCause) Value) :
    Follows T g base s.made (handOn t result tasks s) (handOn t result tasks' s') := by
  unfold handOn
  split
  · exact follows_plain hs ht trivial
  · exact .fault hs _ _ _
  · exact follows_raise hs ht t _

theorem follows_handOnApplied (t : Token) (result : Except RuntimeCause Value) :
    Follows T g base s.made (handOnApplied t result tasks s) (handOnApplied t result tasks' s') := by
  unfold handOnApplied
  split
  · exact follows_plain hs ht trivial
  · exact follows_raise hs ht t _

theorem follows_push {t t' : Task} (hstands : t.Stands T g s.made (g.place s.scope))
    (hafter : t.after s.scope = s.scope) (hthin : t.thin T g s.scope = t') {c c' : Control}
    (hc : c.Stands T (g.place s.scope)) (hc' : c.moved (T.shift (g.place s.scope)) = c') :
    Follows T g base s.made ⟨c, t :: tasks, s⟩ ⟨c', t' :: tasks', s'⟩ := by
  rw [← hthin, ← hc']
  exact .stay hs (.cons hs.scope_lt hstands (hafter.symm ▸ ht)) hc

/-- A part is evaluated, with a task for its value that has no other references than the whole. -/
theorem follows_operand {refs : List (Usage × Reference)} (hcovers : T.Covers (g.place s.scope) refs)
    {e e' : Expr} {t t' : Task} (hcommon : t.Common) (hafter : t.after s.scope = s.scope)
    (he : e.moved (T.shift (g.place s.scope)) = e') (ht' : t.thin T g s.scope = t')
    (hrefs : e.references ⊆ refs ∧ t.references ⊆ refs) (hquiet : g.place s.scope = some 0 → t.Quiet) :
    Follows T g base s.made (evaluating e t tasks s) (evaluating e' t' tasks' s') :=
  follows_push hs ht (.common hcommon (hcovers.mono hrefs.2) hquiet) hafter ht'
    ⟨hcovers.mono hrefs.1, fun _ => trivial⟩ (congrArg Control.evaluate he)

theorem follows_bind {c : Closure} (hc : c.Stands T g s.made) (o : InstanceId) :
    Follows T g base s.made ⟨.deliver (.function (s.bind c o).2), tasks, (s.bind c o).1⟩
      ⟨.deliver (.function (s'.bind (c.thin T g) o).2), tasks', (s'.bind (c.thin T g) o).1⟩ := by
  obtain ⟨hbound, hsame⟩ := hs.bind hc o
  rw [hsame]
  exact .of_store hbound (.set _ _ _ _) (s.heap.bind_grows c o).forest.size rfl ht trivial

/-- A method of the superclass is taken alike by both machines. -/
theorem follows_superMethod {ref : Reference} (hfits : T.Fits (g.place s.scope) (.super, ref))
    (hrecorded : ∃ d, T.recorded ref.site = some (d + 1)) (method : Token) :
    Follows T g base s.made (superMethod ref method tasks s)
      (superMethod (ref.moved (T.shift (g.place s.scope))) method tasks' s') := by
  obtain ⟨d, hd⟩ := hrecorded
  obtain ⟨hpasses, hbefore⟩ := hfits.super rfl hd
  have hsite : s.bindings[ref.site]? = some (d + 1) := (hs.recorded _).trans hd
  have hsuper := hs.getAt?_moved hfits hsite superName
  have hthis := hs.heap.forest.getAt?_eq hs.scope_lt hpasses thisName
  rw [← hs.scope] at hthis
  unfold superMethod
  rw [hs.getElem?_moved hfits, hsite]
  dsimp only [Option.map_some, Option.getD_some]
  rw [hsuper, hbefore, hthis, Nat.add_sub_cancel]
  split
  · next c o _ _ =>
    rw [hs.heap.mirrors.method?]
    cases hmethod : s.heap.method? c method.lexeme with
    | none => exact follows_raise hs ht method _
    | some closure => exact follows_bind hs ht (hs.heap.method? hmethod) o
  all_goals exact .fault hs _ _ _

end

/-! ## Starting expressions and statements -/

section

variable {walk : Walk} (hT : T.Lawful walk) (hwalk : walk.Lawful T.recorded) (hs : s.Thins T g s')
  (ht : Task.AllThin T g s.made base s.scope tasks tasks')

include hT hwalk hs ht

/-- An expression is evaluated alike by both machines. -/
theorem follows_evaluate {e : Expr} (he : e.Pending walk T.recorded s.heap s.scope)
    (hcovers : T.Covers (g.place s.scope) e.references) :
    Follows T g base s.made (evaluate e tasks s) (evaluate (e.moved (T.shift (g.place s.scope))) tasks' s') := by
  obtain ⟨⟨b, hvisit, hdepth⟩, -⟩ := he
  have hfits : ∀ p ∈ (Phrase.expr e).own, T.Fits (g.place s.scope) p := fun p hp =>
    hT.fits hs.heap.forest hs.scope_lt hvisit hdepth hp
      (hcovers.mono (List.cons_subset.2 ⟨Phrase.own_subset (.expr e) hp, List.nil_subset _⟩))
  -- The operands stand where the expression does.
  have hpart : ∀ {refs}, refs ⊆ e.references → T.Covers (g.place s.scope) refs := hcovers.mono
  cases e with
  | literal _ l => exact follows_plain hs ht trivial
  | grouping _ e => exact .stay hs ht ⟨hcovers, fun _ => trivial⟩
  | «variable» ref | this ref =>
    rw [Expr.moved, evaluate, evaluate, hs.lookUp_moved (hfits _ (.head _))]
    exact follows_handOn hs ht ref.token _
  | super ref method =>
    obtain ⟨d, -, -, hd, -⟩ := hwalk.meets hvisit _ (.head _)
    exact follows_superMethod hs ht (hfits _ (.head _)) ⟨d, hd⟩ method
  | assign target value =>
    have htask : (Task.assign target).Stands T g s.made (g.place s.scope) := by
      refine ⟨hpart (List.cons_subset.2 ⟨.head _, List.nil_subset _⟩), fun _ => trivial, fun ref href => ?_, by simp⟩
      obtain rfl := Task.assign.inj href
      exact hfits _ (.head _)
    exact follows_push hs ht htask rfl rfl ⟨hpart (List.subset_cons_self _ _), fun _ => trivial⟩ rfl
  | unary | get | binary | logical | conditional | call | set =>
    exact follows_operand hs ht hcovers trivial rfl rfl rfl
      (by simp [Expr.references, Task.references]) fun _ => trivial

omit hT hwalk in
/-- A block is entered alike by both machines. -/
theorem follows_enterBlock {body : List Stmt} (hbody : T.Covers (g.place s.scope) (Stmt.referencesOfAll body)) :
    Follows T g base s.made (enterBlock body tasks s)
      (enterBlock (Stmt.movedAll (T.shift (g.place s.scope)) body) tasks' s') := by
  have hopened := hs.openScope
  have hext : g.Extends s.made (Store.Thins.opened g s s') := .set _ _ _ _
  have hle : s.made ≤ s.openScope.made := (Forest.size_new s.heap.forest (some s.scope)).ge.trans' (Nat.le_succ _)
  have hplace : (Store.Thins.opened g s s').place s.openScope.scope = (g.place s.scope).map (· + 1) :=
    (Heap.Thins.place_opened g s.heap s'.heap s.scope).1
  have hne : (Store.Thins.opened g s s').place s.openScope.scope ≠ some 0 :=
    Heap.Thins.place_opened_ne g s.heap s'.heap s.scope
  have hsequence : (Task.sequence body).Stands T (Store.Thins.opened g s s') s.openScope.made
      ((Store.Thins.opened g s s').place s.openScope.scope) := by
    refine .common trivial ?_ (fun h => absurd h hne)
    rw [hplace]
    exact hbody.inward
  have hthin : (Task.sequence body).thin T (Store.Thins.opened g s s') s.openScope.scope =
      .sequence (Stmt.movedAll (T.shift (g.place s.scope)) body) := by
    change Task.sequence (Stmt.movedAll (T.shift ((Store.Thins.opened g s s').place s.openScope.scope)) body) = _
    rw [hplace, T.shift_inward]
  have hleave : (Task.leaveScope s.scope).thin T (Store.Thins.opened g s s') s.openScope.scope =
      .leaveScope s'.scope := by
    rw [hs.scope]
    exact congrArg Task.leaveScope (hext s.scope hs.scope_lt).2
  refine ⟨_, hext, hle, hopened, Control.Plain.stands trivial, rfl, fun _ => ?_⟩
  rw [enterBlock, enterBlock, ← hthin, ← hleave]
  refine .cons hopened.scope_lt hsequence (.cons hopened.scope_lt (.common trivial ?_ (fun _ => trivial)) ?_)
  · exact fun _ _ hp => absurd hp List.not_mem_nil
  · exact ht.extend hext hle

omit hT in
/-- A statement is executed alike by both machines. -/
theorem follows_execute {b : Binder} {stmt : Stmt} (hvisit : walk b (.stmt stmt))
    (hstands : (Control.execute stmt).Stands T (g.place s.scope)) :
    Follows T g base s.made (execute stmt tasks s)
      (execute (stmt.moved (T.shift (g.place s.scope))) tasks' s') := by
  obtain ⟨hcovers, hquiet⟩ := hstands
  have hformed : stmt.Formed := (hwalk.sound hvisit).formed
  have hpart : ∀ {refs}, refs ⊆ stmt.references → T.Covers (g.place s.scope) refs := hcovers.mono
  -- A declaration does not stand in the scope of a block.
  have hplace : ∀ {name}, stmt.declared? = some name → g.place s.scope ≠ some 0 := by
    intro name hname hzero
    cases (hquiet hzero).symm.trans hname
  cases stmt with
  | expression e | print e =>
    exact follows_operand hs ht hcovers trivial rfl rfl rfl
      (by simp [Control.references, Stmt.references, Task.references]) fun _ => trivial
  | returns keyword value =>
    cases value with
    | none =>
      have hreturned := hs.withOthers s.frames (some .nil) s.printed s.log s.readings
      have hsame : s' = { s' with frames := s.frames, printed := s.printed, log := s.log, readings := s.readings } := by
        rw [← hs.frames, ← hs.printed, ← hs.log, ← hs.readings]
      have hstore : Store.Thins T g { s with returning := some .nil } { s' with returning := some .nil } := by
        rw [hsame]
        exact hreturned
      exact .of_same hstore rfl rfl ht trivial
    | some e =>
      exact follows_operand hs ht hcovers trivial rfl rfl rfl
        (by simp [Control.references, Stmt.references, Expr.referencesOfOption, Task.references]) fun _ => trivial
  | branch condition yes no =>
    cases no with
    | none =>
      exact follows_operand hs ht hcovers trivial rfl rfl rfl
        (by simp [Control.references, Stmt.references, Task.references])
        fun _ => ⟨hformed.1, by simp⟩
    | some no =>
      have hno : ∀ stmt ∈ some no, stmt.declared? = none := by
        rintro stmt ⟨⟩
        exact hformed.2.1
      exact follows_operand hs ht hcovers trivial rfl rfl rfl
        (by simp [Control.references, Stmt.references, Task.references])
        fun _ => ⟨hformed.1.1, hno⟩
  | loop condition body =>
    exact follows_operand hs ht hcovers trivial rfl rfl rfl
      (by simp [Control.references, Stmt.references, Task.references])
      fun _ => hformed.1
  | block body => exact follows_enterBlock hs ht hcovers
  | «variable» name initializer =>
    cases initializer with
    | none => exact .of_same (hs.define (hplace rfl) name .nil) (Forest.size_define ..) rfl ht trivial
    | some e =>
      exact follows_operand hs ht hcovers trivial rfl rfl rfl
        (by simp [Control.references, Stmt.references, Expr.referencesOfOption, Task.references])
        fun hzero => absurd hzero (hplace rfl)
  | routine r =>
    exact .of_same (hs.declareRoutine (hplace rfl) hcovers) (Forest.size_define ..) rfl ht trivial
  | classOf name superclass methods =>
    have hmethods : T.Covers (g.place s.scope) (Routine.referencesOfAll methods) :=
      hpart (List.subset_append_right _ _)
    cases superclass with
    | none =>
      obtain ⟨g', hext, hle, hdeclared⟩ := hs.declareClass (hplace rfl) name none hmethods
      exact .of_store hdeclared hext hle rfl ht trivial
    | some superclass =>
      exact follows_operand hs ht hcovers trivial rfl rfl rfl
        (by simp [Control.references, Stmt.references, Expr.references, Task.references])
        fun hzero => absurd hzero (hplace rfl)

end

/-! ## Calls -/

section

variable (hs : s.Thins T g s') (ht : Task.AllThin T g s.made base s.scope tasks tasks') (limits : Limits)

include hs ht

/-- A function is entered alike by both machines. -/
theorem follows_enterFunction {c : Closure} (hc : c.Stands T g s.made) (args : List Value) :
    Follows T g base s.made (enterFunction c args tasks s) (enterFunction (c.thin T g) args tasks' s') := by
  unfold enterFunction
  rw [(Closure.disguise_thin T g).arity]
  split
  · exact .fault hs _ _ _
  · have hentered := hs.heap.enter hc args
    have hext : g.Extends s.made (Heap.Thins.opened g s.heap s'.heap c.scope) := .set _ _ _ _
    have hsize : (s.heap.enter c args).1.forest.scopes.size = s.made + 1 :=
      (Heap.Thins.size_defineAll _ _ _ _).trans (Forest.size_new _ _)
    have hle : s.made ≤ (s.heap.enter c args).1.forest.scopes.size := hsize.ge.trans' (Nat.le_succ _)
    have hlt : (s.heap.enter c args).2 < (s.heap.enter c args).1.forest.scopes.size :=
      hsize.symm ▸ Nat.lt_succ_self _
    obtain ⟨hplace, hscope⟩ := Heap.Thins.place_opened g s.heap s'.heap c.scope
    have hstore := (hs.withHeap hentered hext hle).withScope hlt hscope.symm
    have hthin := hc.thin_extend hext
    have hbody : (Task.sequence c.routine.body).thin T (Heap.Thins.opened g s.heap s'.heap c.scope)
        (s.heap.enter c args).2 = .sequence (c.thin T g).routine.body := by
      change Task.sequence (Stmt.movedAll (T.shift ((Heap.Thins.opened g s.heap s'.heap c.scope).place
        s.heap.forest.scopes.size)) c.routine.body) = _
      rw [hplace, T.shift_inward]
      exact congrArg Task.sequence (c.routine.body_moved _).symm
    have hend : (Task.endBody c s.scope).thin T (Heap.Thins.opened g s.heap s'.heap c.scope)
        (s.heap.enter c args).2 = .endBody (c.thin T g) s'.scope := by
      rw [hs.scope]
      exact congrArg₂ Task.endBody hthin (hext s.scope hs.scope_lt).2
    refine ⟨_, hext, hle, hstore, Control.Plain.stands trivial, rfl, fun _ => ?_⟩
    dsimp only
    rw [← hbody, ← hend]
    refine .cons hlt (.common trivial ?_ (fun hzero => ?_)) (.cons hlt ⟨?_, fun _ => trivial, nofun, ?_⟩ ?_)
    · change T.Covers ((Heap.Thins.opened g s.heap s'.heap c.scope).place s.heap.forest.scopes.size) _
      rw [hplace]
      obtain ⟨⟨name, params, body⟩, scope, initializer⟩ := c
      exact hc.covers.inward
    · exact absurd hzero (Heap.Thins.place_opened_ne g s.heap s'.heap c.scope)
    · exact fun _ _ hp => absurd hp List.not_mem_nil
    · intro c' outer hend
      obtain ⟨rfl, -⟩ := Task.endBody.inj hend
      exact hc.extend hext hle
    · exact ht.extend hext hle

/-- An instance is made alike by both machines. -/
theorem follows_construct (k : ClassId) (args : List Value) :
    Follows T g base s.made (construct k args tasks s) (construct k args tasks' s') := by
  obtain ⟨hheap, hsame⟩ := hs.heap.newInstance k
  have hmade : (s.newInstance k).1.Thins T g (s'.newInstance k).1 := hs.withHeap_same hheap rfl
  have hsame' : (s'.newInstance k).2 = (s.newInstance k).2 := hsame
  have ht' : Task.AllThin T g (s.newInstance k).1.made base (s.newInstance k).1.scope tasks tasks' := ht
  change Follows T g base (s.newInstance k).1.made _ _
  unfold construct
  dsimp only
  rw [hsame']
  generalize (s.newInstance k).2 = o
  generalize (s.newInstance k).1 = s at hmade ht'
  generalize (s'.newInstance k).1 = s' at hmade
  rw [hmade.heap.mirrors.method?]
  cases hmethod : s.heap.method? k initName with
  | none => exact follows_plain hmade ht' trivial
  | some c =>
    have hc := hmade.heap.method? hmethod
    obtain ⟨hbound, hbound'⟩ := hmade.bind hc o
    have hle : s.made ≤ (s.bind c o).1.made := (s.heap.bind_grows c o).forest.size
    have hfunction : (s.bind c o).1.heap.functions[(s.bind c o).2]? = _ := s.heap.functions_bind c o
    have hext : g.Extends s.made (Heap.Thins.opened g s.heap s'.heap c.scope) := .set _ _ _ _
    dsimp only [Option.map_some]
    rw [hbound', hbound.heap.mirrors.getElem?, hfunction]
    refine .of_extends hext hle ?_
    refine follows_enterFunction hbound ?_ (hbound.heap.stands _ _ hfunction) args
    exact .cons (t := .construct o) hbound.scope_lt
      (.common trivial (fun _ _ hp => absurd hp List.not_mem_nil) (fun _ => trivial)) (ht'.extend hext hle)

omit ht in
/-- A property is taken alike in both heaps. -/
theorem thins_take {o : InstanceId} {name : Text} {p : Property} (hp : s.heap.property? o name = some p) :
    ∃ g', g.Extends s.made g' ∧ s.made ≤ (s.heap.take o p).1.forest.scopes.size ∧
      (s.heap.take o p).1.Thins T g' (s'.heap.take o (p.mapClosure (Closure.thin T g))).1 ∧
      (s'.heap.take o (p.mapClosure (Closure.thin T g))).2 = (s.heap.take o p).2 := by
  cases p with
  | field v => exact ⟨g, .refl _ _, Nat.le_refl _, hs.heap, rfl⟩
  | method c =>
    obtain ⟨hbound, hsame⟩ := hs.heap.bind (hs.heap.property? hp) o
    exact ⟨_, .set _ _ _ _, (s.heap.bind_grows c o).forest.size, hbound, congrArg Value.function hsame⟩

omit ht in
/-- A built-in function acts alike on both heaps. -/
theorem thins_perform {args : List Value} {a : NativeAction} (ha : a.ArisesFrom s.heap args) :
    ∃ g', g.Extends s.made g' ∧ s.made ≤ (a.perform s.heap).1.forest.scopes.size ∧
      (a.perform s.heap).1.Thins T g' ((a.mapClosure (Closure.thin T g)).perform s'.heap).1 ∧
      ((a.mapClosure (Closure.thin T g)).perform s'.heap).2 = (a.perform s.heap).2 := by
  cases ha with
  | take hp => exact thins_take hs hp
  | store o name hv => exact ⟨g, .refl _ _, Nat.le_refl _, hs.heap.setField o name _, rfl⟩
  | remove o name => exact ⟨g, .refl _ _, Nat.le_refl _, hs.heap.removeField o name, rfl⟩
  | number | string | bool => exact ⟨g, .refl _ _, Nat.le_refl _, hs.heap, rfl⟩

/-- A built-in function is called alike by both machines. -/
theorem follows_callNative (n : Native) (args : List Value) (paren : Token) :
    Follows T g base s.made (callNative limits n args paren tasks s) (callNative limits n args paren tasks' s') := by
  unfold callNative
  dsimp only
  rw [hs.readings]
  generalize hreadings : (if n = .clock then s.readings + 1 else s.readings) = readings
  have hread : Store.Thins T g { s with readings } { s' with readings } := by
    have hothers := hs.withOthers s.frames s.returning s.printed s.log readings
    rw [← hs.frames, ← hs.returning, ← hs.printed, ← hs.log] at hothers
    rw [hs.same] at hothers ⊢
    exact hothers
  have hframe := hread.pushFrame (text n.name) paren
  have ht' : Task.AllThin T g (pushFrame (text n.name) paren { s with readings }).made base
    (pushFrame (text n.name) paren { s with readings }).scope tasks tasks' := ht
  change Follows T g base (pushFrame (text n.name) paren { s with readings }).made _ _
  generalize pushFrame (text n.name) paren { s with readings } = s at hframe ht'
  generalize pushFrame (text n.name) paren { s' with readings } = s' at hframe
  rw [hframe.heap.mirrors.nativeCall (Closure.disguise_thin T g)]
  cases hcall : n.call (limits.clock _) s.heap args with
  | accepted a =>
    obtain ⟨g', hext, hle, hheap, hsame⟩ := thins_perform hframe (Native.call_arises hcall)
    dsimp only [NativeResult.mapClosure]
    rw [hsame]
    exact .of_store ((hframe.withHeap hheap hext hle).popFrame (text n.name)) hext hle rfl ht' trivial
  | refused e => exact follows_raise (hframe.popFrame (text n.name)) ht' paren _
  | fault f => exact .fault hframe _ _ _

/-- A value is called alike by both machines. -/
theorem follows_apply (callee : Value) (args : List Value) (paren : Token) :
    Follows T g base s.made (apply limits callee args paren tasks s) (apply limits callee args paren tasks' s') := by
  have hend : ∀ name, (Task.endCall name paren).Stands T g s.made (g.place s.scope) := fun name =>
    .common trivial (fun _ _ hp => absurd hp List.not_mem_nil) (fun _ => trivial)
  unfold apply
  rw [hs.heap.mirrors.arity? (Closure.disguise_thin T g), hs.heap.mirrors.callName (Closure.disguise_thin T g),
    hs.frames]
  split
  · exact follows_raise hs ht paren _
  · dsimp only
    split_ifs
    · exact follows_raise hs ht paren _
    · exact follows_plain hs ht trivial
    · split
      · exact follows_callNative hs ht limits _ args paren
      · next f _ =>
        rw [hs.heap.mirrors.getElem?]
        cases hc : s.heap.functions[f]? with
        | none => exact .fault hs _ _ _
        | some c =>
          exact follows_enterFunction (hs.pushFrame _ paren)
            (.cons (t := .endCall _ paren) hs.scope_lt (hend _) ht) (hs.heap.stands f c hc) args
      · exact follows_construct (hs.pushFrame _ paren) (.cons (t := .endCall _ paren) hs.scope_lt (hend _) ht) _ args
      · exact .fault hs _ _ _

/-- The arguments are gone on with alike by both machines. -/
theorem follows_nextArgument (paren : Token) (callee : Value) (done : List Value) {rest : List Expr}
    (hrest : T.Covers (g.place s.scope) (Expr.referencesOfAll rest)) :
    Follows T g base s.made (nextArgument limits paren callee done rest tasks s)
      (nextArgument limits paren callee done (Expr.movedAll (T.shift (g.place s.scope)) rest) tasks' s') := by
  cases rest with
  | nil => exact follows_apply hs ht limits callee done.reverse paren
  | cons e rest =>
    exact follows_operand hs ht hrest trivial rfl rfl rfl
      (by simp [Expr.referencesOfAll, Task.references]) fun _ => trivial

/-- An assignment is made alike by both machines. -/
theorem follows_assign (v : Value) {ref : Reference} (hfits : T.Fits (g.place s.scope) (.assign, ref)) :
    Follows T g base s.made (resume limits v (.assign ref) tasks s)
      (resume limits v (.assign (ref.moved (T.shift (g.place s.scope)))) tasks' s') := by
  obtain ⟨htarget, hkept⟩ := hs.target_moved hfits
  unfold resume
  dsimp only
  rw [htarget]
  cases he : s.target ref with
  | ok e =>
    obtain ⟨hlt, hplace⟩ := hkept e he
    exact .of_same (hs.put hlt hplace ref.name v) (Forest.size_define ..) rfl ht trivial
  | error failure =>
    cases failure with
    | inl f => exact .fault hs _ _ _
    | inr cause => exact follows_raise hs ht ref.token cause

/-! ## Resuming tasks -/

omit ht in
theorem applyUnary_thins (op : UnaryOp) (v : Value) : applyUnary op s'.heap v = applyUnary op s.heap v := by
  cases op with
  | not => rfl
  | negate => rw [applyUnary, applyUnary, hs.heap.mirrors.display (Closure.disguise_thin T g)]

omit ht in
theorem applyBinary_thins (op : BinaryOp) (left right : Value) :
    applyBinary op s'.heap left right = applyBinary op s.heap left right := by
  have hdisplay := hs.heap.mirrors.display (Closure.disguise_thin T g)
  unfold applyBinary
  rw [hdisplay, hdisplay]

/-- The stores may be changed alike in what is not about heaps, scopes and distances. -/
theorem follows_print (v : Value) :
    Follows T g base s.made (resume limits v .print tasks s) (resume limits v .print tasks' s') := by
  have hothers := hs.withOthers s.frames s.returning (s.printed.push (s.heap.display v)) s.log s.readings
  unfold resume
  dsimp only
  rw [hs.heap.mirrors.display (Closure.disguise_thin T g), hs.frames, hs.returning, hs.printed, hs.log,
    hs.readings]
  exact .of_same hothers rfl rfl ht trivial

theorem follows_returnValue (v : Value) :
    Follows T g base s.made (resume limits v .returnValue tasks s) (resume limits v .returnValue tasks' s') := by
  have hothers := hs.withOthers s.frames (some v) s.printed s.log s.readings
  unfold resume
  dsimp only
  rw [hs.frames, hs.printed, hs.log, hs.readings]
  exact .of_same hothers rfl rfl ht trivial

/-- A task is resumed alike by both machines. -/
theorem follows_resume (v : Value) {t : Task} (hstands : t.Stands T g s.made (g.place s.scope))
    (hafter : t.after s.scope = s.scope) :
    Follows T g base s.made (resume limits v t tasks s) (resume limits v (t.thin T g s.scope) tasks' s') := by
  have hpart : ∀ {refs}, refs ⊆ t.references → T.Covers (g.place s.scope) refs := hstands.covers.mono
  have hquiet := hstands.quiet
  cases t with
  | assign ref => exact follows_assign hs ht limits v (hstands.fits ref rfl)
  | unary op sign =>
    unfold resume Task.thin Task.moved
    dsimp only
    rw [applyUnary_thins hs]
    exact follows_handOnApplied hs ht sign _
  | binaryLeft op sign right | condition yes no | middle test no =>
    exact follows_operand hs ht hstands.covers trivial rfl rfl rfl (by simp [Task.references]) fun _ => trivial
  | binaryRight op sign left =>
    unfold resume Task.thin Task.moved
    dsimp only
    rw [applyBinary_thins hs]
    exact follows_handOnApplied hs ht sign _
  | logical op right =>
    unfold resume Task.thin Task.moved
    dsimp only
    split_ifs
    · exact follows_plain hs ht trivial
    · exact .stay hs ht ⟨hstands.covers, fun _ => trivial⟩
  | choose test yes | discard | construct o => exact follows_plain hs ht trivial
  | callee paren arguments => exact follows_nextArgument hs ht limits paren v [] hstands.covers
  | argument paren callee done rest => exact follows_nextArgument hs ht limits paren callee (v :: done) hstands.covers
  | get name =>
    unfold resume Task.thin Task.moved
    dsimp only
    split
    · next o =>
      rw [hs.heap.mirrors.property?]
      cases hp : s.heap.property? o name.lexeme with
      | none => exact follows_raise hs ht name _
      | some p =>
        obtain ⟨g', hext, hle, hheap, hsame⟩ := thins_take hs hp
        dsimp only [Option.map_some]
        rw [hsame]
        exact .of_store (hs.withHeap hheap hext hle) hext hle rfl ht trivial
    · exact follows_raise hs ht name _
  | setObject name value =>
    unfold resume Task.thin Task.moved
    dsimp only
    split
    · exact follows_operand hs ht hstands.covers trivial rfl rfl rfl (by simp [Task.references]) fun _ => trivial
    · exact follows_raise hs ht name _
  | setValue name o =>
    exact .of_same (hs.withHeap_same (hs.heap.setField o name.lexeme v) rfl) rfl rfl ht trivial
  | print => exact follows_print hs ht limits v
  | returnValue => exact follows_returnValue hs ht limits v
  | branch yes no =>
    unfold resume Task.thin Task.moved
    dsimp only
    split_ifs
    · refine .stay hs ht ⟨hpart ?_, fun hzero => (hquiet hzero).1⟩
      cases no with
      | none => exact List.Subset.refl _
      | some no => exact List.subset_append_left _ _
    · cases no with
      | none => exact follows_plain hs ht trivial
      | some no =>
        exact .stay hs ht ⟨hpart (List.subset_append_right _ _), fun hzero => (hquiet hzero).2 no rfl⟩
  | loopTest test body =>
    unfold resume Task.thin Task.moved
    dsimp only
    split_ifs
    · exact follows_push hs ht (t := .loopBody test body) (.common trivial hstands.covers hquiet) rfl rfl
        ⟨hpart (List.subset_append_right _ _), hquiet⟩ rfl
    · exact follows_plain hs ht trivial
  | «variable» name =>
    exact .of_same (hs.define (fun hzero => hquiet hzero) name v) (Forest.size_define ..) rfl ht trivial
  | superclass name token methods =>
    unfold resume Task.thin Task.moved
    dsimp only
    split
    · next k =>
      obtain ⟨g', hext, hle, hdeclared⟩ := hs.declareClass (fun hzero => hquiet hzero) name (some k) hstands.covers
      exact .of_store hdeclared hext hle rfl ht trivial
    · exact follows_raise hs ht token _
  | endCall name paren => exact .of_same (hs.popFrame name) rfl rfl ht trivial
  | sequence | loopBody | leaveScope | endBody => exact .fault hs _ _ _

end

/-- Ending the body of a function: the tasks resume in the scope of the caller. -/
theorem follows_endBody (hs : s.Thins T g s') {c : Closure} (hc : c.Stands T g s.made) {outer : ScopeId}
    (ht : Task.AllThin T g s.made base outer tasks tasks') (completion : Completion) :
    Follows T g base s.made (endBody completion c outer tasks s)
      (endBody completion (c.thin T g) (g.scope outer) tasks' s') := by
  have hstore (returning : Option Value) :=
    (hs.withOthers s.frames returning s.printed s.log s.readings).withScope ht.lt rfl
  cases completion <;> unfold endBody <;> dsimp only
  all_goals
    simp only [hs.heap.result_eq hc, hs.frames, hs.returning, hs.printed, hs.log, hs.readings]
  case normal =>
    generalize s.heap.result c none = v
    cases v with
    | absent => exact .fault (hstore s.returning) _ _ _
    | _ => exact follows_plain (hstore s.returning) ht trivial
  case returned =>
    generalize s.heap.result c s.returning = v
    cases v with
    | absent => exact .fault (hstore none) _ _ _
    | _ => exact follows_plain (hstore none) ht trivial

/-- A statement is followed alike by both machines. -/
theorem follows_proceed (hs : s.Thins T g s') (c : Completion) {t : Task}
    (hstands : t.Stands T g s.made (g.place s.scope))
    (ht : Task.AllThin T g s.made base (t.after s.scope) tasks tasks') :
    Follows T g base s.made (proceed c t tasks s) (proceed c (t.thin T g s.scope) tasks' s') := by
  have hpart : ∀ {refs}, refs ⊆ t.references → T.Covers (g.place s.scope) refs := hstands.covers.mono
  cases t with
  | sequence rest =>
    cases c with
    | returned => cases rest <;> exact follows_plain hs ht trivial
    | normal =>
      cases rest with
      | nil => exact follows_plain hs ht trivial
      | cons stmt rest =>
        exact follows_push hs ht (t := .sequence rest)
          (.common trivial (hpart (List.subset_append_right _ _)) fun hzero =>
            (List.forall_mem_cons.1 (hstands.quiet hzero)).2) rfl rfl
          ⟨hpart (List.subset_append_left _ _), fun hzero => (List.forall_mem_cons.1 (hstands.quiet hzero)).1⟩ rfl
  | loopBody test body =>
    cases c with
    | returned => exact follows_plain hs ht trivial
    | normal =>
      exact follows_operand hs ht hstands.covers trivial rfl rfl rfl (by simp [Task.references]) hstands.quiet
  | leaveScope outer => exact follows_plain (hs.withScope ht.lt rfl) ht trivial
  | endBody closure outer => exact follows_endBody hs (hstands.closure closure outer rfl) ht c
  | _ => exact .fault hs _ _ _

/-- A failure goes on alike in both machines. -/
theorem follows_giveUp (hs : s.Thins T g s') (f : Failure) {t : Task}
    (ht : Task.AllThin T g s.made base (t.after s.scope) tasks tasks') :
    Follows T g base s.made (giveUp f t tasks s) (giveUp f (t.thin T g s.scope) tasks' s') := by
  cases t with
  | leaveScope outer | endBody closure outer => exact follows_plain (hs.withScope ht.lt rfl) ht trivial
  | endCall name paren =>
    have hothers := hs.withOthers s.frames.pop s.returning s.printed s.log s.readings
    unfold giveUp Task.thin Task.moved
    dsimp only
    rw [hs.frames, hs.returning, hs.printed, hs.log, hs.readings]
    cases f with
    | overflow => exact follows_plain hothers ht trivial
    | error e => exact follows_plain hothers ht trivial
  | _ => exact follows_plain hs ht trivial

/-- A machine with a task for its outcome, or with code to run, goes on like the one without the scopes of the
blocks. -/
theorem Thins.step {walk : Walk} (hT : T.Lawful walk) (hwalk : walk.Lawful T.recorded) (limits : Limits)
    {m m' : Machine} {below : List Task} (hsound : (m.under below).Sound walk T.recorded) (hidle : ¬ m.Idle)
    (h : m.Thins T g base m') : Follows T g base m.store.made (m.step limits) (m'.step limits) := by
  obtain ⟨control, tasks, s⟩ := m
  obtain ⟨control', tasks', s'⟩ := m'
  obtain ⟨hs, hstands, rfl, htasks⟩ := h
  dsimp only at hs hstands htasks
  cases control with
  | evaluate e => exact follows_evaluate hT hwalk hs (htasks nofun) hsound.control.1 hstands.covers
  | execute stmt =>
    obtain ⟨b, hvisit, -⟩ := hsound.control
    exact follows_execute hwalk hs (htasks nofun) hvisit hstands
  | deliver v =>
    cases htasks nofun with
    | nil => exact absurd (.deliver v s) hidle
    | @cons _ t tasks tasks' hlt ht hrest =>
      cases t with
      | leaveScope | endBody => exact .fault hs _ _ _
      | _ => exact follows_resume hs hrest limits v ht rfl
  | complete c =>
    cases htasks nofun with
    | nil => exact absurd (.complete c s) hidle
    | cons hlt ht hrest => exact follows_proceed hs c ht hrest
  | unwind f =>
    cases htasks nofun with
    | nil => exact absurd (.unwind f s) hidle
    | cons hlt ht hrest => exact follows_giveUp hs f hrest
  | fault f => exact .fault hs _ _ _

end Machine

end Lox
