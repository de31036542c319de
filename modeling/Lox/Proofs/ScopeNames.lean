import Lox.Proofs.BoundMethods
import Lox.Proofs.Restoration
import Mathlib.Data.Set.Insert

/-!
# The names of scopes

A name gets a value in a scope when its declaration is executed, when it is assigned to, or together with the
scope. What a statement or a call can add to the scopes that it found is little: the bodies that it enters have
scopes of their own, the parts of branches and loops declare nothing, and an assignment goes to a scope where its
name has a value already. There is one exception: an initializer may assign to the variable that it is for, before
the variable is defined.

An activity runs as a machine of its own. Its scopes stand where it found them or have been made since (`Since`), and
the layout `sinceLayout` says which names those that it found may have at its end. At its start everything is laid out
like that (`Heap.Sound.laidOut_found`), so no scope gets any other name (`Machine.Finishes.names`).
-/

namespace Lox

/-- The names that have a value in a scope. -/
def Forest.names (f : Forest) (e : ScopeId) : Set Text := {name | (f.slot? e name).isSome}

/-! ## Scopes that are found and scopes that are made -/

/-- Where a scope stands, seen from a moment of a run: it was there, or it has been made since. -/
inductive Since where
  | found (e : ScopeId)
  | made (outer : Since)

/-- Scopes that have been made since may have any name. -/
def Since.Allows (allowed : ScopeId → Set Text) (name : Text) : Since → Prop
  | found e => name ∈ allowed e
  | made _ => True

/-- The open scopes at a point of the walk have only names that the scopes around a place may have. -/
inductive Since.Covers (f : Forest) (allowed : ScopeId → Set Text) : Since → List (Table Bool) → Prop where
  | globals : Covers f allowed (.found Heap.globals) []
  | found {e outer : ScopeId} {t : Table Bool} {scopes : List (Table Bool)}
    (houter : f.enclosing? e = some outer) (ht : ∀ name, t.has name = true → name ∈ allowed e)
    (h : Covers f allowed (.found outer) scopes) : Covers f allowed (.found e) (t :: scopes)
  | made {i : Since} (t : Table Bool) {scopes : List (Table Bool)} (h : Covers f allowed i scopes) :
    Covers f allowed (.made i) (t :: scopes)

/-- The layout of programs by the names that may be added to the scopes around their parts. -/
def sinceLayout (walk : Walk) (f : Forest) (allowed : ScopeId → Set Text) : Layout Since where
  top := .found Heap.globals
  opens i j := j = .made i ∨ ∃ e outer, i = .found outer ∧ j = .found e ∧ f.enclosing? e = some outer
  declares i name := i.Allows allowed name
  reserves i _ := ∃ outer, i = .made outer
  expr i e := ∃ b, walk b (.expr e) ∧ i.Covers f allowed b.scopes
  stmt i s := (∀ t ∈ s.declared?, i.Allows allowed t.lexeme) ∧ ∃ b, walk b (.stmt s) ∧ i.Covers f allowed b.scopes
  routine i r := ∃ b context, walk b (.routine context r) ∧ i.Covers f allowed b.scopes
  method i r := ∃ b context t scopes, walk b (.routine context r) ∧ b.scopes = t :: scopes ∧
    i.Covers f allowed scopes

namespace Since.Covers

variable {f : Forest} {allowed : ScopeId → Set Text} {i : Since} {scopes : List (Table Bool)}

/-- A declaration in the innermost scope is of a name that the scope may have. -/
theorem mark (h : i.Covers f allowed scopes) {name : Text} (hname : i.Allows allowed name) (complete : Bool) :
    i.Covers f allowed (markInner name complete scopes) := by
  cases h with
  | globals => exact .globals
  | made t h => exact .made _ h
  | found houter ht h =>
    refine .found houter (fun other hother => ?_) h
    rw [Table.has_insert, Bool.or_eq_true, decide_eq_true_iff] at hother
    rcases hother with rfl | hother
    · exact hname
    · exact ht other hother

/-- What a scope made since has is no matter, so plain names do not disturb what is around it. -/
theorem steady : Binder.Steady fun b => (Since.made i).Covers f allowed b.scopes where
  alike h halike := halike.scopes ▸ h
  mark h _ hscopes _ := hscopes ▸ h.mark trivial true

/-- A scope some steps out may have the names that the open scope there has. -/
theorem allows_of_out {walk : Walk} {d : Nat} {j : Since} (hout : (sinceLayout walk f allowed).Out d i j)
    (h : i.Covers f allowed scopes) {t : Table Bool} (ht : scopes[d]? = some t) {name : Text}
    (hname : t.has name = true) : j.Allows allowed name := by
  induction hout generalizing scopes with
  | here =>
    cases h with
    | globals => cases ht
    | found _ hfound => exact hfound name (Option.some.inj ht ▸ hname)
    | made => trivial
  | further hopens _ ih =>
    rcases hopens with rfl | ⟨e, outer, rfl, rfl, houter⟩
    · cases h with
      | made _ h => exact ih h ht
    · cases h with
      | globals => cases ht
      | found houter' _ h =>
        obtain rfl := Option.some.inj (houter.symm.trans houter')
        exact ih h ht

/-- Scopes that match open scopes have the names that are declared there, if all declarations are complete. -/
theorem of_matches {e : ScopeId} (h : Matches f e scopes) (hcomplete : Complete scopes)
    (hallowed : ∀ e, f.names e ⊆ allowed e) : (Since.found e).Covers f allowed scopes := by
  induction h with
  | globals => exact .globals
  | frame _ hlink hholds _ ih =>
    obtain ⟨ht, hcomplete⟩ := List.forall_mem_cons.1 hcomplete
    refine .found hlink (fun name hname => hallowed _ (hholds.complete name ?_)) (ih hcomplete)
    obtain ⟨mark, hmark⟩ := Option.isSome_iff_exists.1 hname
    cases mark with
    | true => exact hmark
    | false => exact absurd hmark (ht name)

end Since.Covers

namespace SinceLayout

variable {walk : Walk} {recorded : Site → Option Nat} {f : Forest} {allowed : ScopeId → Set Text} {i : Since}
  {b : Binder} (hwalk : walk.Lawful recorded)

include hwalk

/-- The statements of a body stand in a scope that has been made since. -/
theorem stmt_of_mem {ss : List Stmt} (hvisit : walk b (.stmts ss))
    (h : (Since.made i).Covers f allowed b.scopes) : ∀ s ∈ ss, (sinceLayout walk f allowed).stmt (.made i) s := by
  induction ss generalizing b with
  | nil => exact nofun
  | cons s rest ih =>
    have hs : walk b (.stmt s) := hwalk.child hvisit (.head _)
    exact List.forall_mem_cons.2 ⟨⟨fun _ _ => trivial, b, hs, h⟩,
      ih (hwalk.child hvisit (.tail _ (.head _))) (Since.Covers.steady.stmt h (hwalk.sound hs).formed)⟩

/-- The methods of a class stand outside of the scope with `this`. -/
theorem method_of_mem {rs : List Routine} (hvisit : walk b (.methods rs)) {t : Table Bool}
    {scopes : List (Table Bool)} (hscopes : b.scopes = t :: scopes) (h : i.Covers f allowed scopes) :
    ∀ r ∈ rs, (sinceLayout walk f allowed).method i r := by
  induction rs generalizing b with
  | nil => exact nofun
  | cons r rest ih =>
    have hr : walk b (.routine (methodContext r.name) r) := hwalk.child hvisit (.head _)
    have halike := r.bind_alike (methodContext r.name) b
    exact List.forall_mem_cons.2 ⟨⟨b, _, t, scopes, hr, hscopes, h⟩,
      ih (hwalk.child hvisit (.tail _ (.head _))) (halike.scopes.trans hscopes)⟩

/-- What is bound by a lawful walk is laid out by the names that may be added around it. -/
theorem lawful (f : Forest) (allowed : ScopeId → Set Text) : (sinceLayout walk f allowed).Lawful recorded where
  operands := by
    rintro i e ⟨b, hvisit, hcovers⟩ e' he'
    obtain ⟨c, hc, halike⟩ := hwalk.of_operands hvisit e' he'
    exact ⟨c, hc, halike.scopes ▸ hcovers⟩
  assigned := by
    rintro i ref e d j ⟨b, hvisit, hcovers⟩ hd hout
    obtain ⟨t, ht, hname⟩ := exists_of_findIdx? ((hwalk.sound hvisit).of_assign.symm.trans hd)
    exact hcovers.allows_of_out hout ht hname
  assignedTop := by
    rintro i ref e - - ⟨outer, ⟨⟩⟩
  expression := by
    rintro i e ⟨-, b, hvisit, hcovers⟩
    exact ⟨b, hwalk.child hvisit (.head _), hcovers⟩
  print := by
    rintro i e ⟨-, b, hvisit, hcovers⟩
    exact ⟨b, hwalk.child hvisit (.head _), hcovers⟩
  returns := by
    rintro i t e ⟨-, b, hvisit, hcovers⟩
    exact ⟨_, hwalk.child hvisit (.head _), (b.checkReturn_alike t true).scopes ▸ hcovers⟩
  branch := by
    rintro i test yes no ⟨-, b, hvisit, hcovers⟩
    have hformed : (Stmt.branch test yes no).Formed := (hwalk.sound hvisit).formed
    have htest := (test.bind_alike b).scopes
    -- The branches declare nothing, so the second one stands where the first one does.
    have hnone : ∀ {s : Stmt}, s.declared? = none → ∀ t ∈ s.declared?, i.Allows allowed t.lexeme := by
      rintro s hs t ht
      rw [hs] at ht
      cases ht
    cases no with
    | none =>
      exact ⟨⟨b, hwalk.child hvisit (.head _), hcovers⟩,
        ⟨hnone hformed.1, _, hwalk.child hvisit (.tail _ (.head _)), htest ▸ hcovers⟩, nofun⟩
    | some no =>
      have hyes := ((yes.bind_follows (test.bind b) hformed.1.2).alike hformed.1.1).scopes
      refine ⟨⟨b, hwalk.child hvisit (.head _), hcovers⟩,
        ⟨hnone hformed.1.1, _, hwalk.child hvisit (.tail _ (.head _)), htest ▸ hcovers⟩, ?_⟩
      rintro s ⟨⟩
      exact ⟨hnone hformed.2.1, _, hwalk.child hvisit (.tail _ (.tail _ (.head _))), hyes ▸ htest ▸ hcovers⟩
  loop := by
    rintro i test body ⟨-, b, hvisit, hcovers⟩
    have hformed : (Stmt.loop test body).Formed := (hwalk.sound hvisit).formed
    refine ⟨⟨b, hwalk.child hvisit (.head _), hcovers⟩, fun t ht => ?_, _, hwalk.child hvisit (.tail _ (.head _)),
      (test.bind_alike b).scopes ▸ hcovers⟩
    rw [hformed.1] at ht
    cases ht
  block := by
    rintro i body ⟨-, b, hvisit, hcovers⟩
    exact ⟨.made i, .inl rfl, stmt_of_mem hwalk (hwalk.child hvisit (.head _)) (.made .empty hcovers)⟩
  declaration := by
    rintro i t e ⟨hname, b, hvisit, hcovers⟩
    refine ⟨hname t rfl, fun e' he' => ?_⟩
    obtain rfl : e = some e' := he'
    exact ⟨_, hwalk.child hvisit (.head _), b.declare_scopes t ▸ hcovers.mark (hname t rfl) false⟩
  function := by
    rintro i r ⟨hname, b, hvisit, hcovers⟩
    exact ⟨hname _ rfl, _, _, hwalk.child hvisit (.head _),
      b.declared_scopes r.name ▸ hcovers.mark (hname _ rfl) true⟩
  plainClass := by
    rintro i t methods ⟨hname, b, hvisit, hcovers⟩
    exact ⟨hname t rfl, method_of_mem hwalk (hwalk.child hvisit (.head _)) rfl
      (b.nameClass_scopes t ▸ hcovers.mark (hname t rfl) true)⟩
  subclass := by
    rintro i t ref methods ⟨hname, b, hvisit, hcovers⟩
    have hscopes := (b.derive_scopes t ref).trans (b.nameClass_scopes t)
    have hsuper := ((b.derive t ref).bindVariable_alike ref).scopes
    have hderived := hcovers.mark (hname t rfl) true
    rw [← hscopes] at hderived
    exact ⟨hname t rfl, ⟨_, hwalk.child hvisit (.head _), hderived⟩, .made i, .inl rfl, ⟨i, rfl⟩,
      method_of_mem hwalk (hwalk.child hvisit (.tail _ (.head _))) rfl (.made _ (hsuper ▸ hderived))⟩
  call := by
    rintro i r ⟨b, context, hvisit, hcovers⟩
    exact ⟨.made i, .inl rfl, fun _ _ => trivial, stmt_of_mem hwalk (hwalk.body hvisit)
      (Since.Covers.steady.params (b := ({ b with inRoutine := context }).enter .empty) (.made .empty hcovers)
        (hwalk.sound hvisit).formed.plain_params)⟩
  bind := by
    rintro i r ⟨b, context, t, scopes, hvisit, hscopes, hcovers⟩
    exact ⟨.made i, .inl rfl, ⟨i, rfl⟩, b, context, hvisit, hscopes ▸ .made t hcovers⟩

end SinceLayout

/-! ## A moment of a run -/

section

variable {programs : List Program} {recorded : Site → Option Nat} {h : Heap}
  (hrecorded : Recorded recorded programs) (allowed : ScopeId → Set Text)
  (hallowed : ∀ e, h.forest.names e ⊆ allowed e)

include hrecorded

/-- Where a statement or a routine is bound, all declarations are complete. -/
theorem Visited.complete {b : Binder} {n : Phrase} (hvisit : Visited programs b n) (hn : ¬ n.IsExpr) :
    Complete b.scopes := by
  obtain ⟨program, hprogram, hvisits⟩ := hvisit
  exact (hvisits.placed (hrecorded program hprogram)).inner hn

include hallowed

/-- A function that can be called stands in a scope that is found. -/
theorem Value.Valid.placed_found {v : Value} (hv : v.Valid (Visited programs) h) :
    v.Placed (sinceLayout (Visited programs) h.forest allowed) ⟨h, .found⟩ := by
  cases v with
  | function i =>
    obtain ⟨c, hc, b, context, hvisit, -, hmatches, -⟩ := hv
    exact ⟨c, hc, b, context, hvisit, .of_matches hmatches (hvisit.complete hrecorded id) hallowed⟩
  | classValue c => exact hv
  | _ => trivial

/-- All that a sound heap holds stands in scopes that are found. -/
theorem Heap.Sound.laidOut_found (hh : h.Sound (Visited programs))
    (henclosing : ∀ e outer, h.forest.enclosing? e = some outer → outer < h.forest.scopes.size)
    (hscoped : h.Scoped) : (World.mk h .found).LaidOut (sinceLayout (Visited programs) h.forest allowed) where
  globals := hh.globals
  top := rfl
  enclosing e outer he := ⟨henclosing e outer he, .inr ⟨e, outer, rfl, rfl, he⟩⟩
  slots e name v hv := ⟨.inl (hallowed e (Option.isSome_of_eq_some hv)),
    (hh.scopes e name v hv).placed_found hrecorded allowed hallowed⟩
  fields o name v hv := (hh.fields o name v hv).placed_found hrecorded allowed hallowed
  functions := hscoped
  methods k name i hi := by
    obtain ⟨c, hc, b, context, scopes, hvisit, -, hscopes, hmatches⟩ := hh.methods k name i hi
    have hcomplete := hvisit.complete hrecorded id
    rw [hscopes] at hcomplete
    exact ⟨c, hc, b, context, _, scopes, hvisit, hscopes,
      .of_matches hmatches (List.forall_mem_cons.1 hcomplete).2 hallowed⟩

end

namespace Machine

/-- The names that have a value in a scope of the machine. -/
def names (m : Machine) (e : ScopeId) : Set Text := m.store.heap.forest.names e

/-- The names that a scope may have after an activity that declares a name at most: those that it has, and that one if
it is the current scope. -/
def allowed (m : Machine) (declared : Option Token) (e : ScopeId) : Set Text :=
  m.names e ∪ {name | e = m.store.scope ∧ ∃ t ∈ declared, t.lexeme = name}

section

variable {programs : List Program} {recorded : Site → Option Nat} (hrecorded : Recorded recorded programs)
  {limits : Limits} {m : Machine} {place : ScopeId → List ScopeKind}
  (hlaid : m.LaidOut (methodLayout (Visited programs)) recorded place) (hsound : m.Sound (Visited programs) recorded)
  (hreturning : m.store.returning = none) {k : Nat}

include hrecorded hlaid

/-- No name is taken away from a scope. -/
theorem names_subset (limits : Limits) (k : Nat) (e : ScopeId) : m.names e ⊆ (m.run limits k).names e := by
  obtain ⟨place', -, hext⟩ := hlaid.run (P := World.Extends ⟨m.store.heap, place⟩)
    (MethodLayout.lawful hrecorded.lawful) limits (fun _ hext hmove => hext.trans hmove.extends) k (.refl _)
  exact hext.present e

include hsound hreturning

/-- The scopes that an activity finds keep their names; the current one may get the name that is declared. -/
theorem Finishes.names {declared : Option Token} (own : List Task) {below : List Task} (htasks : m.tasks = own ++ below)
    (hcontrol : m.control.Placed (sinceLayout (Visited programs) m.store.heap.forest (m.allowed declared))
      ⟨m.store.heap, .found⟩ (.found m.store.scope))
    (hown : Task.AllPlaced (sinceLayout (Visited programs) m.store.heap.forest (m.allowed declared))
      ⟨m.store.heap, .found⟩ m.store.scope own)
    (h : m.Finishes limits below k) {e : ScopeId} (he : e < m.store.heap.forest.scopes.size) :
    (m.run limits k).names e = m.names e ∨
      e = m.store.scope ∧ ∃ t ∈ declared, (m.run limits k).names e = insert t.lexeme (m.names e) := by
  have hkept := names_subset hrecorded hlaid limits k e
  have hadded : (m.run limits k).names e ⊆ m.allowed declared e := by
    have hworld := hsound.store.heap.laidOut_found hrecorded (m.allowed declared)
      (fun _ => Set.subset_union_left) (fun e outer he => (hlaid.world.enclosing e outer he).1) hlaid.world.functions
    obtain ⟨control, tasks, s⟩ := m
    obtain rfl : tasks = own ++ below := htasks
    have hmachine : LaidOut _ recorded Since.found ⟨control, own, s⟩ :=
      ⟨hlaid.bindings, hworld, hcontrol, fun _ => hown, by rw [show s.returning = none from hreturning]; exact nofun⟩
    obtain ⟨place', hlast, hext⟩ := hmachine.run (P := World.Extends ⟨s.heap, .found⟩)
      (SinceLayout.lawful hrecorded.lawful _ _) limits (fun _ hext hmove => hext.trans hmove.extends) k (.refl _)
    intro name hname
    have hrun : run limits k ⟨control, own ++ below, s⟩ = (run limits k ⟨control, own, s⟩).under below :=
      run_under limits ⟨control, own, s⟩ below h.busy
    rw [hrun] at hname
    obtain ⟨v, hv⟩ := Option.isSome_iff_exists.1 hname
    obtain ⟨hallows, -⟩ := hlast.world.slots e name v hv
    rw [hext.place e he] at hallows
    rcases hallows with hallows | ⟨outer, ⟨⟩⟩
    exact hallows
  by_cases hdeclares : e = m.store.scope ∧ ∃ t, declared = some t
  · obtain ⟨hscope, t, rfl⟩ := hdeclares
    have hinsert : (m.run limits k).names e ⊆ insert t.lexeme (m.names e) := by
      intro name hname
      rcases hadded hname with hold | ⟨-, _, ⟨⟩, rfl⟩
      · exact .inr hold
      · exact .inl rfl
    by_cases hown : t.lexeme ∈ (m.run limits k).names e
    · exact .inr ⟨hscope, t, rfl, hinsert.antisymm (Set.insert_subset hown hkept)⟩
    · refine .inl (Set.Subset.antisymm (fun name hname => (hinsert hname).resolve_left ?_) hkept)
      rintro rfl
      exact hown hname
  · refine .inl (Set.Subset.antisymm (fun name hname => (hadded hname).resolve_right ?_) hkept)
    rintro ⟨hscope, t, ht, -⟩
    exact hdeclares ⟨hscope, t, ht⟩

/-- A statement adds at most its own name to the current scope, and nothing to the others that it finds. -/
theorem names_execute {stmt : Stmt} (hcontrol : m.control = .execute stmt) (h : m.Finishes limits m.tasks k)
    {e : ScopeId} (he : e < m.store.heap.forest.scopes.size) :
    (m.run limits k).names e = m.names e ∨
      e = m.store.scope ∧ ∃ t ∈ stmt.declared?, (m.run limits k).names e = insert t.lexeme (m.names e) := by
  have hscope := (hlaid.tasks hsound.ne_fault).lt_size
  refine h.names hrecorded hlaid hsound hreturning [] rfl ?_ (.nil hscope) he
  obtain ⟨control, tasks, s⟩ := m
  obtain rfl : control = _ := hcontrol
  obtain ⟨b, hvisit, hmatches, -⟩ := hsound.control
  exact ⟨fun t ht => .inr ⟨rfl, t, ht, rfl⟩, b, hvisit,
    .of_matches hmatches (hvisit.complete hrecorded id) fun _ => Set.subset_union_left⟩

/-- A call adds nothing to the scopes that it finds. -/
theorem names_call {call : Call} (hcall : m.call? = some call) (h : m.Finishes limits m.tasks.tail k)
    {e : ScopeId} (he : e < m.store.heap.forest.scopes.size) : (m.run limits k).names e = m.names e := by
  have hscope := (hlaid.tasks hsound.ne_fault).lt_size
  have hvalid : ∀ {v : Value}, v.Valid (Visited programs) m.store.heap → v.Placed _ ⟨m.store.heap, Since.found⟩ :=
    fun hv => hv.placed_found hrecorded (m.allowed none) fun _ => Set.subset_union_left
  have hcontrol := hsound.control
  have hnone : ¬ (e = m.store.scope ∧ ∃ t ∈ (none : Option Token), (m.run limits k).names e =
      insert t.lexeme (m.names e)) := by
    rintro ⟨-, t, ⟨⟩, -⟩
  -- The callee and the arguments have their values, so nothing of the caller is left to be evaluated.
  obtain ⟨v, below, s, ⟨rfl, -, -⟩ | ⟨done, rfl, -⟩⟩ := of_call? hcall
  · exact (h.names hrecorded hlaid hsound hreturning [_] rfl (hvalid hcontrol.1)
      (.cons hscope (List.forall_mem_nil _) (.nil hscope)) he).resolve_right hnone
  · rcases hcontrol.2 with _ | ⟨⟨hcallee, hdone, -⟩, -⟩ | ⟨ht, -⟩
    · exact (h.names hrecorded hlaid hsound hreturning [_] rfl (hvalid hcontrol.1)
        (.cons hscope ⟨hvalid hcallee, fun a ha => hvalid (hdone a ha), List.forall_mem_nil _⟩ (.nil hscope))
        he).resolve_right hnone
    · exact ht.elim

end

end Machine

/-- Scopes do not leak. Whatever a session was asked before, at every moment of running an accepted source, the
execution of a statement that finishes, in whichever way, leaves the names of every scope that was there as they
were, except that a declaration may add its own name to the scope where it stands; and a call of a function, a
class or a built-in function leaves the names of every scope that was there as they were. No name ever goes away. -/
theorem Session.run_keeps_names (color showTrace : Bool) (requests : List Request) {source : Text}
    (hsource : (serveAll color showTrace requests).Accepts source) (limits : Limits) :
    ∃ m, ((serveAll color showTrace requests).prepare source).2.2 = some m ∧
      (∀ n n' e, n ≤ n' → (m.run limits n).names e ⊆ (m.run limits n').names e) ∧
      ∀ n k, ∀ e < (m.run limits n).store.heap.forest.scopes.size,
        (∀ stmt, (m.run limits n).control = .execute stmt →
          (m.run limits n).Finishes limits (m.run limits n).tasks k →
          (m.run limits (n + k)).names e = (m.run limits n).names e ∨
            e = (m.run limits n).store.scope ∧ ∃ t ∈ stmt.declared?,
              (m.run limits (n + k)).names e = insert t.lexeme ((m.run limits n).names e)) ∧
        ∀ call, (m.run limits n).call? = some call →
          (m.run limits n).Finishes limits (m.run limits n).tasks.tail k →
          (m.run limits (n + k)).names e = (m.run limits n).names e := by
  have hs := sound_serveAll color showTrace requests
  have hbound := methodsBound_serveAll color showTrace requests
  generalize serveAll color showTrace requests = s at hs hbound hsource
  have hrecorded := hs.opening hsource
  refine ⟨_, (prepare_of_accepts hsource).2.2, fun n n' e hn => ?_, fun n k e he => ?_⟩
  · obtain ⟨k, rfl⟩ := Nat.exists_eq_add_of_le hn
    obtain ⟨place, hlaid, -⟩ := hbound.machine hs hsource limits n
    rw [Machine.run_add]
    exact Machine.names_subset hrecorded hlaid limits k e
  · obtain ⟨place, hlaid, -⟩ := hbound.machine hs hsource limits n
    have hsound := hs.machine hsource limits n
    have hlevel := ((Machine.leveled_start (s.program source) (s.opening source)).run limits n).resolve_left
      fun ⟨f, hf⟩ => hsound.ne_fault f hf
    rw [Machine.run_add]
    refine ⟨fun stmt hcontrol hfinishes => ?_, fun call hcall hfinishes => ?_⟩
    · have hreturning := hlevel.returning (by rw [hcontrol]; exact nofun)
      exact Machine.names_execute hrecorded hlaid hsound hreturning hcontrol hfinishes he
    · have hreturning := hlevel.returning (Machine.Begins.control_ne (.call hcall))
      exact Machine.names_call hrecorded hlaid hsound hreturning hcall hfinishes he

/-- A function with a variable whose initializer assigns to it, and a call. -/
def initializerSource : Text := text "fun f()\x7bvar a=a=nil;\x7df();"

/-- The name that a phrase declares in the scope where it stands. -/
def Phrase.declared? : Phrase → Option Token
  | .stmt s => s.declared?
  | _ => none

/-- The call leaves the names of the globals as they are. The declaration in it adds its name to the scope of the
call, where the initializer has put it already, and nothing to the globals. -/
theorem Session.run_keeps_names_initializer :
    let limits : Limits := ⟨10, fun _ => ⟨0⟩⟩
    (serveAll false false []).Accepts initializerSource ∧
    ∃ m, ((serveAll false false []).prepare initializerSource).2.2 = some m ∧
      (∃ call, (m.run limits 6).call? = some call ∧
        (m.run limits 6).Finishes limits (m.run limits 6).tasks.tail 10 ∧
        (m.run limits 16).names 0 = (m.run limits 6).names 0) ∧
      ∃ stmt, (m.run limits 8).control = .execute stmt ∧
        (m.run limits 8).Finishes limits (m.run limits 8).tasks 5 ∧
        (m.run limits 13).names 0 = (m.run limits 8).names 0 ∧
        (m.run limits 13).names 1 = insert (text "a") ((m.run limits 8).names 1) := by
  intro limits
  have haccepts : (serveAll false false []).Accepts initializerSource := by decide +kernel
  obtain ⟨m, hm, -, hnames⟩ := run_keeps_names false false [] haccepts limits
  have hstart := eq_start haccepts hm
  -- The moments of the run are compared by shape.
  have hcall : (m.run limits 6).call?.isSome ∧ 0 < (m.run limits 6).store.heap.forest.scopes.size ∧
      (∀ i < 10, ¬ (Machine.run limits i ⟨(m.run limits 6).control, (m.run limits 6).tasks.take 1,
        (m.run limits 6).store⟩).Idle) ∧
      (Machine.run limits 10 ⟨(m.run limits 6).control, (m.run limits 6).tasks.take 1,
        (m.run limits 6).store⟩).Idle := by
    rw [hstart]
    decide +kernel
  have hstmt : ((m.run limits 8).control.phrase?.bind Phrase.declared?).map (·.lexeme) = some (text "a") ∧
      1 < (m.run limits 8).store.heap.forest.scopes.size ∧ (m.run limits 8).store.scope = 1 ∧
      (∀ i < 5, ¬ (Machine.run limits i ⟨(m.run limits 8).control, [], (m.run limits 8).store⟩).Idle) ∧
      (Machine.run limits 5 ⟨(m.run limits 8).control, [], (m.run limits 8).store⟩).Idle := by
    rw [hstart]
    decide +kernel
  have hadded : ((m.run limits 13).store.heap.forest.slot? 1 (text "a")).isSome ∧
      ¬ ((m.run limits 8).store.heap.forest.slot? 1 (text "a")).isSome := by
    rw [hstart]
    decide +kernel
  refine ⟨haccepts, m, hm, ?_, ?_⟩
  · obtain ⟨hcall, hsize, hbusy, hidle⟩ := hcall
    obtain ⟨call, hcall⟩ := Option.isSome_iff_exists.1 hcall
    have hfinishes : (m.run limits 6).Finishes limits (m.run limits 6).tasks.tail 10 :=
      .of_own (by rw [← List.drop_one, List.take_append_drop]) hbusy hidle
    exact ⟨call, hcall, hfinishes, (hnames 6 10 0 hsize).2 call hcall hfinishes⟩
  · obtain ⟨hstmt, hsize, hscope, hbusy, hidle⟩ := hstmt
    have hfinishes : (m.run limits 8).Finishes limits (m.run limits 8).tasks 5 := .of_own rfl hbusy hidle
    obtain ⟨own, hown, hlexeme⟩ := Option.map_eq_some_iff.1 hstmt
    obtain ⟨n, hn, hown⟩ := Option.bind_eq_some_iff.1 hown
    obtain ⟨stmt, rfl⟩ : ∃ stmt, n = .stmt stmt := by
      cases n with
      | stmt stmt => exact ⟨stmt, rfl⟩
      | _ => cases hown
    have hcontrol := Control.phrase?_eq_stmt.1 hn
    refine ⟨stmt, hcontrol, hfinishes, ?_, ?_⟩
    · refine ((hnames 8 5 0 (Nat.lt_of_succ_lt hsize)).1 stmt hcontrol hfinishes).resolve_right ?_
      rw [hscope]
      exact fun h => Nat.zero_ne_one h.1
    · rcases (hnames 8 5 1 hsize).1 stmt hcontrol hfinishes with hsame | ⟨-, t, ht, hinsert⟩
      · exact absurd (hsame ▸ hadded.1 : text "a" ∈ (m.run limits 8).names 1) hadded.2
      · obtain rfl : own = t := Option.some.inj (hown.symm.trans ht)
        rw [← hlexeme]
        exact hinsert

end Lox
