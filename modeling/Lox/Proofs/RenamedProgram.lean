import Lox.Proofs.Renaming
import Mathlib.Data.List.Pairwise

/-!
# Programs with a renamed variable

What renaming a local variable of an accepted program gives. The old program comes back when every new name
is replaced (`Program.RenamesLocal.back`), and the names of the new program fit (`Program.RenamesLocal.fits`).

The second needs that the program was accepted. Names in a scope are declared once, so besides the renamed
variable no function and no class of its scope has the old name.
-/

namespace Lox

/-- What a name map does to a reference that is used in some way: `this` and `super` keep their names. -/
def NameMap.usage (f : NameMap) (k : Nat) : Usage × Reference → Usage × Reference
  | (.variable, ref) => (.variable, f.reference k ref)
  | (.assign, ref) => (.assign, f.reference k ref)
  | (.this, ref) => (.this, ref)
  | (.super, ref) => (.super, ref)

section References

variable (f : NameMap) (k : Nat)

/-- The references of a renamed expression are the renamed references. -/
theorem Expr.references_rename (e : Expr) : (e.rename f k).references = e.references.map (f.usage k) := by
  induction e using
    @Expr.rec _ (fun es => referencesOfAll (renameAll f k es) = (referencesOfAll es).map (f.usage k)) with
  | literal | «variable» | this | super | nil => rfl
  | assign _ _ ih => exact congrArg (_ :: ·) ih
  | grouping _ _ ih | unary _ _ _ _ ih | get _ _ _ ih => exact ih
  | binary _ _ _ _ _ ih ih' | logical _ _ _ _ _ ih ih' | set _ _ _ _ ih ih' | call _ _ _ _ ih ih' =>
    simp only [rename, references, ih, ih', List.map_append]
  | conditional _ _ _ _ _ _ ih ihmiddle ihright =>
    simp only [rename, references, ih, ihmiddle, ihright, List.map_append]
  | cons _ _ ih ih' => simp only [renameAll, referencesOfAll, ih, ih', List.map_append]

theorem Expr.referencesOfOption_rename (e : Option Expr) :
    Expr.referencesOfOption (e.map (Expr.rename f k)) = (Expr.referencesOfOption e).map (f.usage k) := by
  cases e with
  | none => rfl
  | some e => exact e.references_rename f k

end References

/-! ## The names of a scope are declared once -/

/-- A statement declares neither a function nor a class of a name. -/
def Stmt.NamesOther (name : Text) : Stmt → Prop
  | .routine r => r.name.lexeme ≠ name
  | .classOf t _ _ => t.lexeme ≠ name
  | _ => True

theorem Stmt.NamesOther.of_declared? {s : Stmt} {name : Text}
    (h : ∀ t ∈ s.declared?, t.lexeme ≠ name) : s.NamesOther name := by
  cases s with
  | routine r => exact h r.name rfl
  | classOf t superclass methods => exact h t rfl
  | _ => trivial

/-- Two statements do not declare the same name. -/
def Stmt.Apart (s s' : Stmt) : Prop := ∀ n ∈ s.declared?, ∀ n' ∈ s'.declared?, n.lexeme ≠ n'.lexeme

instance : Std.Symm Stmt.Apart := ⟨fun _ _ h n hn n' hn' heq => h n' hn' n hn heq.symm⟩

/-- A name that is declared without a misuse was not in the innermost scope. -/
theorem Binder.has_of_declare {b : Binder} {t : Table Bool} {outer : List (Table Bool)} {name : Token}
    (hscopes : b.scopes = t :: outer) (h : (b.declare name).errors = []) : t.has name.lexeme = false := by
  rw [declare_cons hscopes] at h
  split at h
  · exact absurd h (List.cons_ne_nil _ _)
  · next hfresh => exact Bool.eq_false_iff.2 hfresh

/-- The innermost scope of a routine holds its parameters. -/
theorem Binder.enterRoutine_scopes (b : Binder) (params : List Token) :
    ∃ t, (b.enterRoutine params).scopes = t :: b.scopes ∧ ∀ p ∈ params, t.has p.lexeme := by
  obtain ⟨t, ht, hparams, -⟩ := exists_markAll params .empty b.scopes
  exact ⟨t, (b.enterRoutine_marks params).scopes.trans ht, fun p hp => by rw [Table.has, hparams p hp]; rfl⟩

namespace Phrase.Sound

variable {recorded : Site → Option Nat} {b : Binder} {t : Table Bool} {outer : List (Table Bool)}
  {ss : List Stmt} {name : Text}

/-- A statement without a misuse declares a name that its scope does not have. -/
theorem declares_fresh {s : Stmt} {n : Token} (h : Sound recorded b (.stmt s))
    (hscopes : b.scopes = t :: outer) (hs : s.declared? = some n) : t.has n.lexeme = false := by
  have hdefined {c : Binder} (hc : ((c.declare n).define n).errors = []) : (c.declare n).errors = [] := by
    have hadds : (c.declare n).Adds [] ((c.declare n).define n) := Binder.define_adds _ n
    exact List.suffix_nil.1 (hc ▸ hadds.errors)
  cases s with
  | «variable» name initializer =>
    obtain rfl := Option.some.inj hs
    cases initializer with
    | none => exact Binder.has_of_declare hscopes (hdefined h.accepted)
    | some e => exact Binder.has_of_declare hscopes (h.child (.head _)).errors_eq_nil
  | routine r =>
    obtain rfl := Option.some.inj hs
    exact Binder.has_of_declare hscopes (hdefined (h.child (.head _)).errors_eq_nil)
  | classOf name superclass methods =>
    obtain rfl := Option.some.inj hs
    have hclass : (b.nameClass name).errors = [] := by
      cases superclass with
      | none => exact (h.child (.head _)).errors_eq_nil
      | some superclass =>
        have hderive : (b.derive name superclass).errors = [] := (h.child (.head _)).errors_eq_nil
        have hadds : (b.nameClass name).Adds [] ((b.nameClass name).checkSuperclass name superclass) :=
          Binder.checkSuperclass_adds _ name superclass
        exact List.suffix_nil.1 (hderive ▸ hadds.errors)
    exact Binder.has_of_declare (b := { b with inClass := .plain }) hscopes (hdefined hclass)
  | _ => cases hs

/-- The innermost scope after a statement: it has the names that it had, and the declared one. -/
theorem scopes_bind {s : Stmt} (h : Sound recorded b (.stmt s)) (hscopes : b.scopes = t :: outer) :
    ∃ t', (s.bind b).scopes = t' :: outer ∧ (∀ name, t.has name → t'.has name) ∧
      ∀ n ∈ s.declared?, t'.has n.lexeme := by
  rw [(Stmt.bind_follows s b h.formed).scopes, hscopes, Stmt.scopesAfter]
  split
  · next hs => exact ⟨t, rfl, fun _ h => h, by simp [hs]⟩
  · next n hs =>
    refine ⟨_, rfl, fun name hname => ?_, fun n' hn' => ?_⟩
    · rw [Table.has_insert, hname, Bool.or_true]
    · obtain rfl := Option.some.inj (hs.symm.trans hn')
      rw [Table.has_insert, decide_eq_true rfl, Bool.true_or]

section

variable (h : Sound recorded b (.stmts ss)) (hscopes : b.scopes = t :: outer)

include h hscopes

/-- Statements without a misuse declare names that their scope does not have. -/
theorem all_declare_fresh : ∀ s ∈ ss, ∀ n ∈ s.declared?, t.has n.lexeme = false := by
  induction ss generalizing b t with
  | nil => simp
  | cons s rest ih =>
    have hs := h.child (.head _)
    obtain ⟨t', ht', hkept, -⟩ := hs.scopes_bind hscopes
    refine List.forall_mem_cons.2 ⟨fun n hn => hs.declares_fresh hscopes hn, fun s' hs' n hn => ?_⟩
    have hfresh := ih (h.child (.tail _ (.head _))) ht' s' hs' n hn
    exact Bool.eq_false_iff.2 fun hhas => Bool.eq_false_iff.1 hfresh (hkept _ hhas)

/-- Statements without a misuse declare different names. -/
theorem apart : ss.Pairwise Stmt.Apart := by
  induction ss generalizing b t with
  | nil => exact .nil
  | cons s rest ih =>
    obtain ⟨t', ht', -, hdeclared⟩ := (h.child (.head _)).scopes_bind hscopes
    have hrest := h.child (.tail _ (.head _))
    refine .cons (fun s' hs' n hn n' hn' heq => ?_) (ih hrest ht')
    have hfresh := hrest.all_declare_fresh ht' s' hs' n' hn'
    rw [← heq, hdeclared n hn] at hfresh
    cases hfresh

/-- A name that was in the scope before is not that of a function or class there. -/
theorem namesOther_of_has (hname : t.has name) : ∀ s ∈ ss, s.NamesOther name := by
  refine fun s hs => .of_declared? fun n hn heq => ?_
  have hfresh := h.all_declare_fresh hscopes s hs n hn
  rw [heq, hname] at hfresh
  cases hfresh

/-- The name of a variable is not that of a function or class in its scope. -/
theorem namesOther_of_variable (hvariable : Stmt.DeclareVariable name ss) : ∀ s ∈ ss, s.NamesOther name := by
  obtain ⟨n, initializer, hmem, rfl⟩ := hvariable
  intro s hs
  by_cases heq : s = .variable n initializer
  · rw [heq]
    trivial
  · have hapart := (h.apart hscopes).forall hs hmem heq
    exact .of_declared? fun n' hn' => hapart n' hn' n rfl

end

theorem stmt_of_append {pre post : List Stmt} {s : Stmt}
    (h : Sound recorded b (.stmts (pre ++ s :: post))) : ∃ c, Sound recorded c (.stmt s) := by
  induction pre generalizing b with
  | nil => exact ⟨b, h.child (.head _)⟩
  | cons s' pre ih => exact ih (h.child (.tail _ (.head _)))

theorem routine_of_append {pre post : List Routine} {r : Routine}
    (h : Sound recorded b (.methods (pre ++ r :: post))) :
    ∃ c context, Sound recorded c (.routine context r) := by
  induction pre generalizing b with
  | nil => exact ⟨b, _, h.child (.head _)⟩
  | cons r' pre ih => exact ih (h.child (.tail _ (.head _)))

end Phrase.Sound

/-! ## The names inside the renamed scope fit -/

section Inward

variable {σ : Renaming}

/-- A reference inside the renamed scope has the new name exactly if it leads there. -/
theorem Usage.fits_inward (hσ : σ.Proper) (k : Nat) {p : Usage × Reference} (hnames : p.1.Names p.2)
    (hnew : p.2.name ≠ σ.new) : (σ.inward.usage k p).1.Fits σ (some k) (σ.inward.usage k p).2 := by
  obtain ⟨u, ref⟩ := p
  have hreference : ((σ.inward.reference k ref).name = σ.new → σ.Leads (some k) (σ.inward.reference k ref)) ∧
      ((σ.inward.reference k ref).name = σ.old → ¬ σ.Leads (some k) (σ.inward.reference k ref)) := by
    unfold Renaming.inward
    dsimp only
    split
    -- A reference that leads to the renamed variable got the new name, and no other had it before.
    · next hleads =>
      exact ⟨fun _ => ⟨nofun, hleads.2⟩, fun hold => absurd (hleads.1.trans hold.symm) hnew⟩
    · next hleads =>
      exact ⟨fun h => absurd h hnew, fun hold hrecorded => hleads ⟨hold, hrecorded.2⟩⟩
  cases u with
  | «variable» | assign => exact hreference
  | this => exact ⟨hnew, fun hold => hσ.old.1 (hold.symm.trans hnames)⟩
  | super => exact ⟨hnew, fun hold => hσ.old.2 (hold.symm.trans hnames)⟩

/-- The references that a renamed expression has inside the renamed scope fit. -/
theorem Renaming.fits_map (hσ : σ.Proper) (k : Nat) {refs : List (Usage × Reference)}
    (hnames : ∀ p ∈ refs, p.1.Names p.2) (hnew : ∀ p ∈ refs, p.2.name ≠ σ.new) :
    ∀ p ∈ refs.map (σ.inward.usage k), p.1.Fits σ (some k) p.2 := by
  intro p hp
  obtain ⟨q, hq, rfl⟩ := List.mem_map.1 hp
  exact Usage.fits_inward hσ k (hnames q hq) (hnew q hq)

theorem Expr.fits_inward (hσ : σ.Proper) (k : Nat) {e : Expr} (hnames : ∀ p ∈ e.references, p.1.Names p.2)
    (hnew : ∀ p ∈ e.references, p.2.name ≠ σ.new) :
    ∀ p ∈ (e.rename σ.inward k).references, p.1.Fits σ (some k) p.2 := by
  rw [Expr.references_rename]
  exact Renaming.fits_map hσ k hnames hnew

theorem Expr.option_fits_inward (hσ : σ.Proper) (k : Nat) {e : Option Expr}
    (hnames : ∀ p ∈ Expr.referencesOfOption e, p.1.Names p.2)
    (hnew : ∀ p ∈ Expr.referencesOfOption e, p.2.name ≠ σ.new) :
    ∀ p ∈ Expr.referencesOfOption (e.map (Expr.rename σ.inward k)), p.1.Fits σ (some k) p.2 := by
  rw [Expr.referencesOfOption_rename]
  exact Renaming.fits_map hσ k hnames hnew

/-- A variable or parameter inside the renamed scope may stand in its own scope. -/
theorem Renaming.keeps_inward {t : Token} (hnew : t.lexeme ≠ σ.new) (k : Nat) :
    σ.Keeps (some k) (σ.inward.declaration k t).lexeme := by
  unfold Renaming.inward
  dsimp only
  split
  · next hrenamed =>
    obtain ⟨rfl, hold⟩ := hrenamed
    exact ⟨fun _ => rfl, fun h => absurd (hold.trans h.symm) hnew⟩
  · next hkept => exact ⟨fun h => absurd h hnew, fun hold hk => hkept ⟨Option.some.inj hk, hold⟩⟩

/-- So may a function or class, unless the renamed scope is its own and it has the old name. -/
theorem Renaming.keeps_other {name : Text} {k : Nat} (hnew : name ≠ σ.new)
    (hold : k = 0 → name ≠ σ.old) : σ.Keeps (some k) name :=
  ⟨fun h => absurd h hnew, fun h hk => hold (Option.some.inj hk) h⟩

theorem Stmt.NamesOther.of_part {s : Stmt} {name : Text} (h : s.declared? = none) : s.NamesOther name :=
  .of_declared? fun _ ht => absurd (h.symm.trans ht) nofun

mutual

/-- A statement inside the renamed scope fits. Right in that scope it must not declare a function or class of
the old name. -/
theorem Stmt.fits_inward (hσ : σ.Proper) : (s : Stmt) → (k : Nat) → (∀ p ∈ s.references, p.1.Names p.2) →
    s.Formed → s.Avoids σ.new → (k = 0 → s.NamesOther σ.old) → (s.rename σ.inward k).Fits σ (some k)
  | .expression e, k, hn, _, h, _ | .print e, k, hn, _, h, _ => Expr.fits_inward hσ k hn h
  | .returns _ value, k, hn, _, h, _ => Expr.option_fits_inward hσ k hn h
  | .branch condition yes none, k, hn, hf, h, _ => by
    have ⟨hcondition, hyes⟩ := List.forall_mem_append.1 hn
    exact ⟨Expr.fits_inward hσ k hcondition h.1,
      Stmt.fits_inward hσ yes k hyes hf.2 h.2 fun _ => .of_part hf.1⟩
  | .branch condition yes (some no), k, hn, hf, h, _ => by
    have ⟨hboth, hno⟩ := List.forall_mem_append.1 hn
    have ⟨hcondition, hyes⟩ := List.forall_mem_append.1 hboth
    exact ⟨Expr.fits_inward hσ k hcondition h.1,
      Stmt.fits_inward hσ yes k hyes hf.1.2 h.2.1 fun _ => .of_part hf.1.1,
      Stmt.fits_inward hσ no k hno hf.2.2 h.2.2 fun _ => .of_part hf.2.1⟩
  | .loop condition body, k, hn, hf, h, _ => by
    have ⟨hcondition, hbody⟩ := List.forall_mem_append.1 hn
    exact ⟨Expr.fits_inward hσ k hcondition h.1,
      Stmt.fits_inward hσ body k hbody hf.2 h.2 fun _ => .of_part hf.1⟩
  | .block body, k, hn, hf, h, _ =>
    ⟨some (k + 1), .inl rfl, Stmt.fitsAll_inward hσ body (k + 1) hn hf h nofun⟩
  | .variable t initializer, k, hn, _, h, _ =>
    ⟨Renaming.keeps_inward h.1 k, Expr.option_fits_inward hσ k hn h.2⟩
  | .routine r, k, hn, hf, h, hother => by
    obtain ⟨name, params, body⟩ := r
    exact ⟨⟨Renaming.keeps_other h.1 hother, h.1⟩, Routine.fits_inward hσ (.mk name params body) k hn hf h⟩
  | .classOf _ none methods, k, hn, hf, h, hother =>
    ⟨⟨Renaming.keeps_other h.1 hother, h.1⟩, Routine.fitsAll_inward hσ methods (k + 1) hn hf.2 h.2.2⟩
  | .classOf _ (some superclass) methods, k, hn, hf, h, hother => by
    have ⟨hsuperclass, hmethods⟩ := List.forall_mem_append.1 hn
    exact ⟨⟨Renaming.keeps_other h.1 hother, h.1⟩,
      Usage.fits_inward (p := (.variable, superclass)) hσ k (hsuperclass _ (.head _)) (h.2.1 _ rfl),
      Routine.fitsAll_inward hσ methods (k + 2) hmethods hf.2 h.2.2⟩

theorem Routine.fits_inward (hσ : σ.Proper) : (r : Routine) → (k : Nat) →
    (∀ p ∈ r.references, p.1.Names p.2) → r.Formed → r.Avoids σ.new →
    (r.rename σ.inward k).Fits σ (some k)
  | .mk _ params body, k, hn, hf, h => by
    refine ⟨some (k + 1), .inl rfl, fun p hp => ?_, Stmt.fitsAll_inward hσ body (k + 1) hn hf.2.2 h.2.2 nofun⟩
    obtain ⟨q, hq, rfl⟩ := List.mem_map.1 hp
    exact Renaming.keeps_inward (h.2.1 q hq) (k + 1)

theorem Stmt.fitsAll_inward (hσ : σ.Proper) : (ss : List Stmt) → (k : Nat) →
    (∀ p ∈ Stmt.referencesOfAll ss, p.1.Names p.2) → Stmt.FormedAll ss → Stmt.AvoidsAll σ.new ss →
    (k = 0 → ∀ s ∈ ss, s.NamesOther σ.old) → Stmt.FitsAll σ (Stmt.renameAll σ.inward ss k) (some k)
  | [], _, _, _, _, _ => trivial
  | s :: rest, k, hn, hf, h, hother => by
    have ⟨hs, hrest⟩ := List.forall_mem_append.1 hn
    exact ⟨Stmt.fits_inward hσ s k hs hf.1 h.1 fun hk => hother hk s (.head _),
      Stmt.fitsAll_inward hσ rest k hrest hf.2 h.2 fun hk s' hs' => hother hk s' (.tail _ hs')⟩

theorem Routine.fitsAll_inward (hσ : σ.Proper) : (rs : List Routine) → (k : Nat) →
    (∀ p ∈ Routine.referencesOfAll rs, p.1.Names p.2) → Routine.FormedAll rs →
    Routine.AvoidsAll σ.new rs → Routine.FitsAll σ (Routine.renameAll σ.inward rs k) (some k)
  | [], _, _, _, _ => trivial
  | r :: rest, k, hn, hf, h => by
    have ⟨hr, hrest⟩ := List.forall_mem_append.1 hn
    exact ⟨Routine.fits_inward hσ r k hr hf.1 h.1, Routine.fitsAll_inward hσ rest k hrest hf.2 h.2⟩

end

end Inward

/-! ## The whole program -/

section Lists

variable {σ : Renaming}

theorem Stmt.renameAll_append (f : NameMap) (ss ss' : List Stmt) (k : Nat) :
    Stmt.renameAll f (ss ++ ss') k = Stmt.renameAll f ss k ++ Stmt.renameAll f ss' k := by
  induction ss with
  | nil => rfl
  | cons s ss ih => rw [List.cons_append, Stmt.renameAll, Stmt.renameAll, ih, List.cons_append]

theorem Routine.renameAll_append (f : NameMap) (rs rs' : List Routine) (k : Nat) :
    Routine.renameAll f (rs ++ rs') k = Routine.renameAll f rs k ++ Routine.renameAll f rs' k := by
  induction rs with
  | nil => rfl
  | cons r rs ih => rw [List.cons_append, Routine.renameAll, Routine.renameAll, ih, List.cons_append]

theorem Stmt.avoidsAll_append {name : Text} {ss ss' : List Stmt} :
    Stmt.AvoidsAll name (ss ++ ss') ↔ Stmt.AvoidsAll name ss ∧ Stmt.AvoidsAll name ss' := by
  induction ss with
  | nil => simp [Stmt.AvoidsAll]
  | cons s ss ih => simp [Stmt.AvoidsAll, ih, and_assoc]

theorem Routine.avoidsAll_append {name : Text} {rs rs' : List Routine} :
    Routine.AvoidsAll name (rs ++ rs') ↔ Routine.AvoidsAll name rs ∧ Routine.AvoidsAll name rs' := by
  induction rs with
  | nil => simp [Routine.AvoidsAll]
  | cons r rs ih => simp [Routine.AvoidsAll, ih, and_assoc]

/-- Statements of which one is replaced by one that fits. -/
theorem Stmt.fitsAll_replaced (hσ : σ.Proper) {pre post : List Stmt} {s s' : Stmt}
    (hn : ∀ p ∈ Stmt.referencesOfAll (pre ++ s :: post), p.1.Names p.2)
    (h : Stmt.AvoidsAll σ.new (pre ++ s :: post)) (hs' : s'.Fits σ none) :
    Stmt.FitsAll σ (pre ++ s' :: post) none := by
  induction pre with
  | nil => exact ⟨hs', Stmt.fitsAll_of_avoids hσ post (List.forall_mem_append.1 hn).2 h.2⟩
  | cons s₀ pre ih =>
    have ⟨hs₀, hrest⟩ := List.forall_mem_append.1 hn
    exact ⟨Stmt.fits_of_avoids hσ s₀ hs₀ h.1, ih hrest h.2⟩

/-- Methods of which one is replaced by one that fits. -/
theorem Routine.fitsAll_replaced (hσ : σ.Proper) {pre post : List Routine} {r r' : Routine}
    (hn : ∀ p ∈ Routine.referencesOfAll (pre ++ r :: post), p.1.Names p.2)
    (h : Routine.AvoidsAll σ.new (pre ++ r :: post)) (hr' : r'.Fits σ none) :
    Routine.FitsAll σ (pre ++ r' :: post) none := by
  induction pre with
  | nil => exact ⟨hr', Routine.fitsAll_of_avoids hσ post (List.forall_mem_append.1 hn).2 h.2⟩
  | cons r₀ pre ih =>
    have ⟨hr₀, hrest⟩ := List.forall_mem_append.1 hn
    exact ⟨Routine.fits_of_avoids hσ r₀ hr₀ h.1, ih hrest h.2⟩

/-- Statements of which one is replaced by one that gives it back. -/
theorem Stmt.renameAll_back_replaced {pre post : List Stmt} {s s' : Stmt} {k : Nat}
    (h : Stmt.AvoidsAll σ.new (pre ++ s :: post)) (hs' : s'.rename σ.back k = s) :
    Stmt.renameAll σ.back (pre ++ s' :: post) k = pre ++ s :: post := by
  obtain ⟨hpre, -, hpost⟩ := Stmt.avoidsAll_append.1 h
  rw [Stmt.renameAll_append, Stmt.renameAll, hs', Stmt.renameAll_eq_self σ.back_fixesOthers pre k hpre,
    Stmt.renameAll_eq_self σ.back_fixesOthers post k hpost]

theorem Routine.renameAll_back_replaced {pre post : List Routine} {r r' : Routine} {k : Nat}
    (h : Routine.AvoidsAll σ.new (pre ++ r :: post)) (hr' : r'.rename σ.back k = r) :
    Routine.renameAll σ.back (pre ++ r' :: post) k = pre ++ r :: post := by
  obtain ⟨hpre, -, hpost⟩ := Routine.avoidsAll_append.1 h
  rw [Routine.renameAll_append, Routine.renameAll, hr',
    Routine.renameAll_eq_self σ.back_fixesOthers pre k hpre,
    Routine.renameAll_eq_self σ.back_fixesOthers post k hpost]

end Lists

section RenamesLocal

variable {σ : Renaming}

/-- Statements in the renamed scope come back. -/
theorem Stmt.renameAll_back_inward {body : List Stmt} (h : Stmt.AvoidsAll σ.new body) (k j : Nat) :
    Stmt.renameAll σ.back (Stmt.renameAll σ.inward body k) j = body := by
  rw [Stmt.renameAll_renameAll σ.back_uniform,
    Stmt.renameAll_eq_self σ.back_after_inward_fixesOthers body k h]

theorem Expr.rename_back {e : Expr} (h : ∀ p ∈ e.references, p.2.name ≠ σ.new) (k : Nat) :
    e.rename σ.back k = e :=
  Expr.rename_eq_self σ.back_fixesOthers k e h

theorem Stmt.rename_back {s : Stmt} (h : s.Avoids σ.new) (k : Nat) : s.rename σ.back k = s :=
  Stmt.rename_eq_self σ.back_fixesOthers s k h

mutual

/-- Giving the old name back undoes the renaming. -/
theorem Stmt.RenamesLocal.back {s s' : Stmt} : Stmt.RenamesLocal σ s s' → s.Avoids σ.new →
    ∀ k, s'.rename σ.back k = s
  | .block _, h, k => congrArg Stmt.block (Stmt.renameAll_back_inward h 0 (k + 1))
  | .inBlock hs, h, k =>
    congrArg Stmt.block (Stmt.renameAll_back_replaced h (hs.back (Stmt.avoidsAll_append.1 h).2.1 (k + 1)))
  | @Stmt.RenamesLocal.yes _ _ _ _ none hs, h, k | .loop hs, h, k => by
    rw [Stmt.rename, Expr.rename_back h.1, hs.back h.2 k]
  | @Stmt.RenamesLocal.yes _ _ _ _ (some _) hs, h, k => by
    rw [Stmt.rename, Expr.rename_back h.1, hs.back h.2.1 k, Stmt.rename_back h.2.2]
  | .no hs, h, k => by
    rw [Stmt.rename, Expr.rename_back h.1, Stmt.rename_back h.2.1, hs.back h.2.2 k]
  | .routine hr, h, k => congrArg Stmt.routine (hr.back h k)
  | @Stmt.RenamesLocal.method _ _ none _ _ _ _ hr, h, k =>
    congrArg (Stmt.classOf _ none)
      (Routine.renameAll_back_replaced h.2.2 (hr.back (Routine.avoidsAll_append.1 h.2.2).2.1 (k + 1)))
  | @Stmt.RenamesLocal.method _ _ (some superclass) _ _ _ _ hr, h, k => by
    rw [Stmt.rename, σ.back_fixesOthers.reference k superclass (h.2.1 _ rfl),
      Routine.renameAll_back_replaced h.2.2 (hr.back (Routine.avoidsAll_append.1 h.2.2).2.1 (k + 2))]

/-- Giving the old name back undoes the renaming in a routine. -/
theorem Routine.RenamesLocal.back {r r' : Routine} : Routine.RenamesLocal σ r r' → r.Avoids σ.new →
    ∀ k, r'.rename σ.back k = r
  | @Routine.RenamesLocal.mk _ _ params _ _, h, k => by
    have hparams : (params.map (σ.inward.declaration 0)).map (σ.back.declaration (k + 1)) = params := by
      have hback : ∀ p ∈ params, (σ.back.declaration (k + 1) ∘ σ.inward.declaration 0) p = p :=
        fun p hp => σ.back_after_inward_fixesOthers.declaration 0 p (h.2.1 p hp)
      rw [List.map_map, List.map_congr_left hback, List.map_id']
    rw [Routine.rename, hparams, Stmt.renameAll_back_inward h.2.2]
  | @Routine.RenamesLocal.inBody _ _ params _ _ _ _ hs, h, k => by
    have hparams : params.map (σ.back.declaration (k + 1)) = params := by
      rw [List.map_congr_left fun p hp => σ.back_fixesOthers.declaration (k + 1) p (h.2.1 p hp), List.map_id']
    rw [Routine.rename, hparams,
      Stmt.renameAll_back_replaced h.2.2 (hs.back (Stmt.avoidsAll_append.1 h.2.2).2.1 (k + 1))]

end

theorem Routine.RenamesLocal.name {r r' : Routine} (h : Routine.RenamesLocal σ r r') : r'.name = r.name := by
  cases h <;> rfl

mutual

/-- A statement in which a variable is renamed fits, whatever stands around it. -/
theorem Stmt.RenamesLocal.fits (hσ : σ.Proper) {s s' : Stmt} : Stmt.RenamesLocal σ s s' → (b : Binder) →
    Phrase.Sound σ.recorded b (.stmt s) → s.Avoids σ.new → s'.Fits σ none
  | .block hdeclares, b, hs, h => by
    have hbody := hs.child (.head _)
    exact ⟨some 0, .inr ⟨rfl, rfl⟩, Stmt.fitsAll_inward hσ _ 0 hbody.names hbody.formed h
      fun _ => hbody.namesOther_of_variable rfl hdeclares⟩
  | .inBlock hrenames, b, hs, h => by
    have hbody := hs.child (.head _)
    obtain ⟨c, hc⟩ := hbody.stmt_of_append
    exact ⟨none, .inl rfl, Stmt.fitsAll_replaced hσ hbody.names h
      (hrenames.fits hσ c hc (Stmt.avoidsAll_append.1 h).2.1)⟩
  | @Stmt.RenamesLocal.yes _ _ _ _ none hrenames, b, hs, h | .loop hrenames, b, hs, h => by
    have ⟨hcondition, _⟩ := List.forall_mem_append.1 hs.names
    exact ⟨fun p hp => .of_avoids hσ (hcondition p hp) (h.1 p hp),
      hrenames.fits hσ _ (hs.child (.tail _ (.head _))) h.2⟩
  | @Stmt.RenamesLocal.yes _ _ _ _ (some _) hrenames, b, hs, h => by
    have ⟨hboth, hno⟩ := List.forall_mem_append.1 hs.names
    have ⟨hcondition, _⟩ := List.forall_mem_append.1 hboth
    exact ⟨fun p hp => .of_avoids hσ (hcondition p hp) (h.1 p hp),
      hrenames.fits hσ _ (hs.child (.tail _ (.head _))) h.2.1, Stmt.fits_of_avoids hσ _ hno h.2.2⟩
  | .no hrenames, b, hs, h => by
    have ⟨hboth, _⟩ := List.forall_mem_append.1 hs.names
    have ⟨hcondition, hyes⟩ := List.forall_mem_append.1 hboth
    exact ⟨fun p hp => .of_avoids hσ (hcondition p hp) (h.1 p hp), Stmt.fits_of_avoids hσ _ hyes h.2.1,
      hrenames.fits hσ _ (hs.child (.tail _ (.tail _ (.head _)))) h.2.2⟩
  | @Stmt.RenamesLocal.routine _ r r' hrenames, b, hs, h => by
    have hname : r'.name.lexeme ≠ σ.new := by
      rw [hrenames.name]
      obtain ⟨name, params, body⟩ := r
      exact h.1
    exact ⟨⟨.of_avoids hname, hname⟩, hrenames.fits hσ _ (hs.child (.head _)) h⟩
  | @Stmt.RenamesLocal.method _ _ none _ _ _ _ hrenames, b, hs, h => by
    have hmethods := hs.child (.head _)
    obtain ⟨c, context, hr⟩ := hmethods.routine_of_append
    exact ⟨⟨.of_avoids h.1, h.1⟩, Routine.fitsAll_replaced hσ hmethods.names h.2.2
      (hrenames.fits hσ c hr (Routine.avoidsAll_append.1 h.2.2).2.1)⟩
  | @Stmt.RenamesLocal.method _ _ (some _) _ _ _ _ hrenames, b, hs, h => by
    have hmethods := hs.child (.tail _ (.head _))
    obtain ⟨c, context, hr⟩ := hmethods.routine_of_append
    have ⟨hsuperclass, _⟩ := List.forall_mem_append.1 hs.names
    exact ⟨⟨.of_avoids h.1, h.1⟩, .of_avoids hσ (hsuperclass _ (.head _)) (h.2.1 _ rfl),
      Routine.fitsAll_replaced hσ hmethods.names h.2.2
        (hrenames.fits hσ c hr (Routine.avoidsAll_append.1 h.2.2).2.1)⟩

/-- A routine with a renamed variable fits outside of the scope of that variable. -/
theorem Routine.RenamesLocal.fits (hσ : σ.Proper) {context : RoutineContext} {r r' : Routine} :
    Routine.RenamesLocal σ r r' → (b : Binder) → Phrase.Sound σ.recorded b (.routine context r) →
    r.Avoids σ.new → r'.Fits σ none
  | @Routine.RenamesLocal.mk _ _ params _ hdeclares, b, hr, h => by
    have hbody := hr.child (.head _)
    obtain ⟨t, ht, hparams⟩ := Binder.enterRoutine_scopes { b with inRoutine := context } params
    refine ⟨some 0, .inr ⟨rfl, rfl⟩, fun p hp => ?_,
      Stmt.fitsAll_inward hσ _ 0 hbody.names hbody.formed h.2.2 fun _ => ?_⟩
    · obtain ⟨q, hq, rfl⟩ := List.mem_map.1 hp
      exact Renaming.keeps_inward (h.2.1 q hq) 0
    -- The old name is taken in the routine's scope, by a parameter or by a variable of the body.
    · rcases hdeclares with ⟨p, hp, hold⟩ | hvariable
      · exact hbody.namesOther_of_has ht (hold ▸ hparams p hp)
      · exact hbody.namesOther_of_variable ht hvariable
  | .inBody hrenames, b, hr, h => by
    have hbody := hr.child (.head _)
    obtain ⟨c, hc⟩ := hbody.stmt_of_append
    exact ⟨none, .inl rfl, fun p hp => .of_avoids (h.2.1 p hp), Stmt.fitsAll_replaced hσ hbody.names h.2.2
      (hrenames.fits hσ c hc (Stmt.avoidsAll_append.1 h.2.2).2.1)⟩

end

namespace Program.RenamesLocal

variable {program program' : Program}

theorem back (h : Program.RenamesLocal σ program program') (havoids : Stmt.AvoidsAll σ.new program) :
    Stmt.renameAll σ.back program' 0 = program := by
  obtain ⟨pre, s, s', post, rfl, rfl, hs⟩ := h
  exact Stmt.renameAll_back_replaced havoids (hs.back (Stmt.avoidsAll_append.1 havoids).2.1 0)

theorem fits (hσ : σ.Proper) (h : Program.RenamesLocal σ program program')
    (hprogram : Phrase.Sound σ.recorded .start (.stmts program))
    (havoids : Stmt.AvoidsAll σ.new program) : Stmt.FitsAll σ program' none := by
  obtain ⟨pre, s, s', post, rfl, rfl, hs⟩ := h
  obtain ⟨c, hc⟩ := hprogram.stmt_of_append
  exact Stmt.fitsAll_replaced hσ hprogram.names havoids
    (hs.fits hσ c hc (Stmt.avoidsAll_append.1 havoids).2.1)

end Program.RenamesLocal

end RenamesLocal

end Lox
