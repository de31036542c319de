import Lox.Proofs.Resolution

/-!
# Renaming a local variable

A local variable is renamed where it is declared and in the references that lead to its declaration, and
nowhere else. Inside the scope that declares it these references are known by what is recorded about
them: a reference `k` scopes further in leads there if its distance is `k`. `Stmt.RenamesLocal` says that
one statement comes from another in this way.

Since the new name is not used otherwise, the old program comes back when every new name is replaced,
wherever it stands (`Renaming.back`). `Fits` is what is left to know about the new program: which of its
scopes is the renamed one, and that references with the old name do not lead to it and those with the new
name do.
-/

namespace Lox

/-- A token with another lexeme. -/
def Token.named (t : Token) (name : Text) : Token := { t with lexeme := name }

/-- What becomes of names, by the number of scopes from the place where they stand out to some scope. -/
structure NameMap where
  reference : Nat → Reference → Reference
  declaration : Nat → Token → Token

namespace Expr

mutual

/-- Changes the names of variables and assignments in an expression, `k` scopes further in. -/
def rename (f : NameMap) (k : Nat) : Expr → Expr
  | .literal site value => .literal site value
  | .grouping site inner => .grouping site (rename f k inner)
  | .variable ref => .variable (f.reference k ref)
  | .assign target value => .assign (f.reference k target) (rename f k value)
  | .this ref => .this ref
  | .super ref method => .super ref method
  | .unary site op sign operand => .unary site op sign (rename f k operand)
  | .binary site op sign left right => .binary site op sign (rename f k left) (rename f k right)
  | .logical site op sign left right => .logical site op sign (rename f k left) (rename f k right)
  | .conditional site condition question middle colon right =>
    .conditional site (rename f k condition) question (rename f k middle) colon (rename f k right)
  | .call site callee paren arguments => .call site (rename f k callee) paren (renameAll f k arguments)
  | .get site object name => .get site (rename f k object) name
  | .set site object name value => .set site (rename f k object) name (rename f k value)

def renameAll (f : NameMap) (k : Nat) : List Expr → List Expr
  | [] => []
  | e :: rest => rename f k e :: renameAll f k rest

end

end Expr

mutual

/-- Changes the names in a statement: those of references and those of declared variables. -/
def Stmt.rename (f : NameMap) : Stmt → Nat → Stmt
  | .expression e, k => .expression (e.rename f k)
  | .print e, k => .print (e.rename f k)
  | .returns keyword value, k => .returns keyword (value.map (Expr.rename f k))
  | .branch condition yes none, k => .branch (condition.rename f k) (yes.rename f k) none
  | .branch condition yes (some no), k =>
    .branch (condition.rename f k) (yes.rename f k) (some (no.rename f k))
  | .loop condition body, k => .loop (condition.rename f k) (body.rename f k)
  | .block body, k => .block (Stmt.renameAll f body (k + 1))
  | .variable name initializer, k =>
    .variable (f.declaration k name) (initializer.map (Expr.rename f k))
  | .routine r, k => .routine (r.rename f k)
  | .classOf name none methods, k => .classOf name none (Routine.renameAll f methods (k + 1))
  | .classOf name (some superclass) methods, k =>
    .classOf name (some (f.reference k superclass)) (Routine.renameAll f methods (k + 2))

/-- Changes the names in a routine, which stands `k` scopes further in: its parameters and its body are
in a scope of their own. -/
def Routine.rename (f : NameMap) : Routine → Nat → Routine
  | .mk name params body, k =>
    .mk name (params.map (f.declaration (k + 1))) (Stmt.renameAll f body (k + 1))

def Stmt.renameAll (f : NameMap) : List Stmt → Nat → List Stmt
  | [], _ => []
  | s :: rest, k => s.rename f k :: Stmt.renameAll f rest k

def Routine.renameAll (f : NameMap) : List Routine → Nat → List Routine
  | [], _ => []
  | r :: rest, k => r.rename f k :: Routine.renameAll f rest k

end

/-- A local variable that gets another name, and the distances that are recorded about references. -/
structure Renaming where
  old : Text
  new : Text
  recorded : Site → Option Nat

namespace Renaming

/-- Gives the new name to the variable of a scope: in its declaration there, and in the references that
lead to it. -/
def inward (σ : Renaming) : NameMap where
  reference k ref :=
    if ref.name = σ.old ∧ σ.recorded ref.site = some k then ⟨ref.site, ref.token.named σ.new⟩ else ref
  declaration k t := if k = 0 ∧ t.lexeme = σ.old then t.named σ.new else t

/-- The name that a name was before. -/
def original (σ : Renaming) (name : Text) : Text := if name = σ.new then σ.old else name

/-- Gives the old name back, wherever the new one stands. -/
def back (σ : Renaming) : NameMap where
  reference _ ref := ⟨ref.site, ref.token.named (σ.original ref.name)⟩
  declaration _ t := t.named (σ.original t.lexeme)

end Renaming

/-- A variable with a name is declared by one of some statements. -/
def Stmt.DeclareVariable (name : Text) (body : List Stmt) : Prop :=
  ∃ t initializer, Stmt.variable t initializer ∈ body ∧ t.lexeme = name

mutual

/-- One variable or parameter in a statement is renamed: the scope that declares it is that of a block or
of a routine, anywhere inside the statement. -/
inductive Stmt.RenamesLocal (σ : Renaming) : Stmt → Stmt → Prop where
  | block {body : List Stmt} (h : Stmt.DeclareVariable σ.old body) :
    Stmt.RenamesLocal σ (.block body) (.block (Stmt.renameAll σ.inward body 0))
  | inBlock {pre post : List Stmt} {s s' : Stmt} (h : Stmt.RenamesLocal σ s s') :
    Stmt.RenamesLocal σ (.block (pre ++ s :: post)) (.block (pre ++ s' :: post))
  | yes {condition : Expr} {s s' : Stmt} {no : Option Stmt} (h : Stmt.RenamesLocal σ s s') :
    Stmt.RenamesLocal σ (.branch condition s no) (.branch condition s' no)
  | no {condition : Expr} {yes s s' : Stmt} (h : Stmt.RenamesLocal σ s s') :
    Stmt.RenamesLocal σ (.branch condition yes (some s)) (.branch condition yes (some s'))
  | loop {condition : Expr} {s s' : Stmt} (h : Stmt.RenamesLocal σ s s') :
    Stmt.RenamesLocal σ (.loop condition s) (.loop condition s')
  | routine {r r' : Routine} (h : Routine.RenamesLocal σ r r') :
    Stmt.RenamesLocal σ (.routine r) (.routine r')
  | method {name : Token} {superclass : Option Reference} {pre post : List Routine} {r r' : Routine}
    (h : Routine.RenamesLocal σ r r') :
    Stmt.RenamesLocal σ (.classOf name superclass (pre ++ r :: post))
      (.classOf name superclass (pre ++ r' :: post))

/-- One variable or parameter in a routine is renamed. -/
inductive Routine.RenamesLocal (σ : Renaming) : Routine → Routine → Prop where
  | mk {name : Token} {params : List Token} {body : List Stmt}
    (h : (∃ p ∈ params, p.lexeme = σ.old) ∨ Stmt.DeclareVariable σ.old body) :
    Routine.RenamesLocal σ (.mk name params body)
      (.mk name (params.map (σ.inward.declaration 0)) (Stmt.renameAll σ.inward body 0))
  | inBody {name : Token} {params : List Token} {pre post : List Stmt} {s s' : Stmt}
    (h : Stmt.RenamesLocal σ s s') :
    Routine.RenamesLocal σ (.mk name params (pre ++ s :: post)) (.mk name params (pre ++ s' :: post))

end

/-- One variable or parameter of a program is renamed. It is not a global, since globals are declared
outside of every block and routine. -/
def Program.RenamesLocal (σ : Renaming) (program program' : Program) : Prop :=
  ∃ pre s s' post, program = pre ++ s :: post ∧ program' = pre ++ s' :: post ∧ Stmt.RenamesLocal σ s s'

mutual

/-- A statement refers to no variable of a name and declares none. -/
def Stmt.Avoids (name : Text) : Stmt → Prop
  | .expression e | .print e => ∀ p ∈ e.references, p.2.name ≠ name
  | .returns _ value => ∀ p ∈ Expr.referencesOfOption value, p.2.name ≠ name
  | .branch condition yes none => (∀ p ∈ condition.references, p.2.name ≠ name) ∧ yes.Avoids name
  | .branch condition yes (some no) =>
    (∀ p ∈ condition.references, p.2.name ≠ name) ∧ yes.Avoids name ∧ no.Avoids name
  | .loop condition body => (∀ p ∈ condition.references, p.2.name ≠ name) ∧ body.Avoids name
  | .block body => Stmt.AvoidsAll name body
  | .variable t initializer =>
    t.lexeme ≠ name ∧ ∀ p ∈ Expr.referencesOfOption initializer, p.2.name ≠ name
  | .routine r => r.Avoids name
  | .classOf t superclass methods =>
    t.lexeme ≠ name ∧ (∀ ref ∈ superclass, ref.name ≠ name) ∧ Routine.AvoidsAll name methods

/-- A routine neither uses a name nor has it, and no parameter does. -/
def Routine.Avoids (name : Text) : Routine → Prop
  | .mk t params body =>
    t.lexeme ≠ name ∧ (∀ p ∈ params, p.lexeme ≠ name) ∧ Stmt.AvoidsAll name body

def Stmt.AvoidsAll (name : Text) : List Stmt → Prop
  | [] => True
  | s :: rest => s.Avoids name ∧ Stmt.AvoidsAll name rest

def Routine.AvoidsAll (name : Text) : List Routine → Prop
  | [] => True
  | r :: rest => r.Avoids name ∧ Routine.AvoidsAll name rest

end

namespace NameMap

/-- What one name map does after another; the second one does not depend on where a name stands. -/
def after (g f : NameMap) : NameMap where
  reference k ref := g.reference 0 (f.reference k ref)
  declaration k t := g.declaration 0 (f.declaration k t)

/-- A name map does the same wherever a name stands. -/
structure Uniform (g : NameMap) : Prop where
  reference : ∀ k ref, g.reference k ref = g.reference 0 ref
  declaration : ∀ k t, g.declaration k t = g.declaration 0 t

/-- A name map changes one name at most. -/
structure FixesOthers (f : NameMap) (name : Text) : Prop where
  reference : ∀ k ref, ref.name ≠ name → f.reference k ref = ref
  declaration : ∀ k t, t.lexeme ≠ name → f.declaration k t = t

end NameMap

section Composition

variable {f g : NameMap}

/-- Two maps of names, one after the other, are one. -/
theorem Expr.rename_rename (hg : g.Uniform) (k j : Nat) (e : Expr) :
    (e.rename f k).rename g j = e.rename (g.after f) k := by
  induction e using @Expr.rec _ (fun es => renameAll g j (renameAll f k es) = renameAll (g.after f) k es) with
  | literal | this | super | nil => rfl
  | «variable» => exact congrArg Expr.variable (hg.reference j _)
  | assign _ _ ih => exact congrArg₂ Expr.assign (hg.reference j _) ih
  | grouping _ _ ih | unary _ _ _ _ ih | get _ _ _ ih => simp only [rename, ih]
  | binary _ _ _ _ _ ih ih' | logical _ _ _ _ _ ih ih' | set _ _ _ _ ih ih' | call _ _ _ _ ih ih' =>
    simp only [rename, ih, ih']
  | conditional _ _ _ _ _ _ ih ihmiddle ihright => simp only [rename, ih, ihmiddle, ihright]
  | cons _ _ ih ih' => simp only [renameAll, ih, ih']

theorem Expr.map_rename_rename (hg : g.Uniform) (k j : Nat) (e : Option Expr) :
    (e.map (Expr.rename f k)).map (Expr.rename g j) = e.map (Expr.rename (g.after f) k) := by
  cases e with
  | none => rfl
  | some e => exact congrArg some (Expr.rename_rename hg k j e)

mutual

/-- Changing names twice is changing them once, if the second change is the same everywhere. -/
theorem Stmt.rename_rename (hg : g.Uniform) : (s : Stmt) → (k j : Nat) →
    (s.rename f k).rename g j = s.rename (g.after f) k
  | .expression e, k, j | .print e, k, j => by
    simp only [Stmt.rename, Expr.rename_rename hg k j e]
  | .returns _ value, k, j => by
    simp only [Stmt.rename, Expr.map_rename_rename hg k j value]
  | .branch condition body none, k, j | .loop condition body, k, j => by
    simp only [Stmt.rename, Expr.rename_rename hg k j condition, Stmt.rename_rename hg body k j]
  | .branch condition yes (some no), k, j => by
    simp only [Stmt.rename, Expr.rename_rename hg k j condition, Stmt.rename_rename hg yes k j,
      Stmt.rename_rename hg no k j]
  | .block body, k, j => by
    simp only [Stmt.rename, Stmt.renameAll_renameAll hg body (k + 1) (j + 1)]
  | .variable name initializer, k, j => by
    simp only [Stmt.rename, Expr.map_rename_rename hg k j initializer, hg.declaration j]
    rfl
  | .routine r, k, j => by
    simp only [Stmt.rename, Routine.rename_rename hg r k j]
  | .classOf name none methods, k, j => by
    simp only [Stmt.rename, Routine.renameAll_renameAll hg methods (k + 1) (j + 1)]
  | .classOf name (some superclass) methods, k, j => by
    simp only [Stmt.rename, Routine.renameAll_renameAll hg methods (k + 2) (j + 2), hg.reference j]
    rfl

theorem Routine.rename_rename (hg : g.Uniform) : (r : Routine) → (k j : Nat) →
    (r.rename f k).rename g j = r.rename (g.after f) k
  | .mk name params body, k, j => by
    simp only [Routine.rename, Stmt.renameAll_renameAll hg body (k + 1) (j + 1), List.map_map]
    congr 2
    exact funext fun t => hg.declaration (j + 1) _

theorem Stmt.renameAll_renameAll (hg : g.Uniform) : (ss : List Stmt) → (k j : Nat) →
    Stmt.renameAll g (Stmt.renameAll f ss k) j = Stmt.renameAll (g.after f) ss k
  | [], _, _ => rfl
  | s :: rest, k, j => by
    simp only [Stmt.renameAll, Stmt.rename_rename hg s k j, Stmt.renameAll_renameAll hg rest k j]

theorem Routine.renameAll_renameAll (hg : g.Uniform) : (rs : List Routine) → (k j : Nat) →
    Routine.renameAll g (Routine.renameAll f rs k) j = Routine.renameAll (g.after f) rs k
  | [], _, _ => rfl
  | r :: rest, k, j => by
    simp only [Routine.renameAll, Routine.rename_rename hg r k j, Routine.renameAll_renameAll hg rest k j]

end

end Composition

section Levels

variable {g : NameMap}

/-- What a uniform name map does to an expression does not depend on where it stands. -/
theorem Expr.rename_level (hg : g.Uniform) (k j : Nat) (e : Expr) : e.rename g k = e.rename g j := by
  have hreference (ref : Reference) : g.reference k ref = g.reference j ref :=
    (hg.reference k ref).trans (hg.reference j ref).symm
  induction e using @Expr.rec _ (fun es => renameAll g k es = renameAll g j es) with
  | literal | this | super | nil => rfl
  | «variable» => exact congrArg Expr.variable (hreference _)
  | assign _ _ ih => exact congrArg₂ Expr.assign (hreference _) ih
  | grouping _ _ ih | unary _ _ _ _ ih | get _ _ _ ih => simp only [rename, ih]
  | binary _ _ _ _ _ ih ih' | logical _ _ _ _ _ ih ih' | set _ _ _ _ ih ih' | call _ _ _ _ ih ih' =>
    simp only [rename, ih, ih']
  | conditional _ _ _ _ _ _ ih ihmiddle ihright => simp only [rename, ih, ihmiddle, ihright]
  | cons _ _ ih ih' => simp only [renameAll, ih, ih']

theorem Expr.map_rename_level (hg : g.Uniform) (k j : Nat) (e : Option Expr) :
    e.map (Expr.rename g k) = e.map (Expr.rename g j) :=
  congrArg (Option.map · e) (funext (Expr.rename_level hg k j))

mutual

/-- What a uniform name map does to a statement does not depend on where it stands. -/
theorem Stmt.rename_level (hg : g.Uniform) : (s : Stmt) → (k j : Nat) → s.rename g k = s.rename g j
  | .expression e, k, j | .print e, k, j => by
    simp only [Stmt.rename, Expr.rename_level hg k j e]
  | .returns _ value, k, j => by
    simp only [Stmt.rename, Expr.map_rename_level hg k j value]
  | .branch condition body none, k, j | .loop condition body, k, j => by
    simp only [Stmt.rename, Expr.rename_level hg k j condition, Stmt.rename_level hg body k j]
  | .branch condition yes (some no), k, j => by
    simp only [Stmt.rename, Expr.rename_level hg k j condition, Stmt.rename_level hg yes k j,
      Stmt.rename_level hg no k j]
  | .block body, k, j => by
    simp only [Stmt.rename, Stmt.renameAll_level hg body (k + 1) (j + 1)]
  | .variable name initializer, k, j => by
    simp only [Stmt.rename, Expr.map_rename_level hg k j initializer, hg.declaration k name,
      hg.declaration j name]
  | .routine r, k, j => by
    simp only [Stmt.rename, Routine.rename_level hg r k j]
  | .classOf name none methods, k, j => by
    simp only [Stmt.rename, Routine.renameAll_level hg methods (k + 1) (j + 1)]
  | .classOf name (some superclass) methods, k, j => by
    simp only [Stmt.rename, Routine.renameAll_level hg methods (k + 2) (j + 2),
      hg.reference k superclass, hg.reference j superclass]

theorem Routine.rename_level (hg : g.Uniform) : (r : Routine) → (k j : Nat) → r.rename g k = r.rename g j
  | .mk name params body, k, j => by
    simp only [Routine.rename, Stmt.renameAll_level hg body (k + 1) (j + 1), funext (hg.declaration (k + 1)),
      funext (hg.declaration (j + 1))]

theorem Stmt.renameAll_level (hg : g.Uniform) : (ss : List Stmt) → (k j : Nat) →
    Stmt.renameAll g ss k = Stmt.renameAll g ss j
  | [], _, _ => rfl
  | s :: rest, k, j => by
    simp only [Stmt.renameAll, Stmt.rename_level hg s k j, Stmt.renameAll_level hg rest k j]

theorem Routine.renameAll_level (hg : g.Uniform) : (rs : List Routine) → (k j : Nat) →
    Routine.renameAll g rs k = Routine.renameAll g rs j
  | [], _, _ => rfl
  | r :: rest, k, j => by
    simp only [Routine.renameAll, Routine.rename_level hg r k j, Routine.renameAll_level hg rest k j]

end

end Levels

section Fixed

variable {f : NameMap} {name : Text}

/-- A map that changes one name only leaves an expression without it. -/
theorem Expr.rename_eq_self (hf : f.FixesOthers name) (k : Nat) (e : Expr)
    (h : ∀ p ∈ e.references, p.2.name ≠ name) : e.rename f k = e := by
  induction e using @Expr.rec _ (fun es => (∀ p ∈ referencesOfAll es, p.2.name ≠ name) → renameAll f k es = es) with
  | literal | this | super | nil => rfl
  | «variable» => exact congrArg Expr.variable (hf.reference k _ (h _ (.head _)))
  | assign _ _ ih =>
    exact congrArg₂ Expr.assign (hf.reference k _ (h _ (.head _))) (ih fun p hp => h p (.tail _ hp))
  | grouping _ _ ih | unary _ _ _ _ ih | get _ _ _ ih => simp only [rename, ih h]
  | binary _ _ _ _ _ ih ih' | logical _ _ _ _ _ ih ih' | set _ _ _ _ ih ih' | call _ _ _ _ ih ih' =>
    obtain ⟨h, h'⟩ := List.forall_mem_append.1 h
    simp only [rename, ih h, ih' h']
  | conditional _ _ _ _ _ _ ih ihmiddle ihright =>
    obtain ⟨hboth, hright⟩ := List.forall_mem_append.1 h
    obtain ⟨h, hmiddle⟩ := List.forall_mem_append.1 hboth
    simp only [rename, ih h, ihmiddle hmiddle, ihright hright]
  | cons _ _ ih ih' h =>
    obtain ⟨h, h'⟩ := List.forall_mem_append.1 h
    simp only [renameAll, ih h, ih' h']

theorem Expr.map_rename_eq_self (hf : f.FixesOthers name) (k : Nat) (e : Option Expr)
    (h : ∀ p ∈ Expr.referencesOfOption e, p.2.name ≠ name) : e.map (Expr.rename f k) = e := by
  cases e with
  | none => rfl
  | some e => exact congrArg some (Expr.rename_eq_self hf k e h)

mutual

/-- A name map that changes one name at most leaves a statement that avoids it as it is. -/
theorem Stmt.rename_eq_self (hf : f.FixesOthers name) : (s : Stmt) → (k : Nat) → s.Avoids name → s.rename f k = s
  | .expression e, k, h | .print e, k, h => by
    simp only [Stmt.rename, Expr.rename_eq_self hf k e h]
  | .returns _ value, k, h => by
    simp only [Stmt.rename, Expr.map_rename_eq_self hf k value h]
  | .branch condition body none, k, h | .loop condition body, k, h => by
    simp only [Stmt.rename, Expr.rename_eq_self hf k condition h.1, Stmt.rename_eq_self hf body k h.2]
  | .branch condition yes (some no), k, h => by
    simp only [Stmt.rename, Expr.rename_eq_self hf k condition h.1, Stmt.rename_eq_self hf yes k h.2.1,
      Stmt.rename_eq_self hf no k h.2.2]
  | .block body, k, h => by
    simp only [Stmt.rename, Stmt.renameAll_eq_self hf body (k + 1) h]
  | .variable t initializer, k, h => by
    simp only [Stmt.rename, hf.declaration k t h.1, Expr.map_rename_eq_self hf k initializer h.2]
  | .routine r, k, h => by
    simp only [Stmt.rename, Routine.rename_eq_self hf r k h]
  | .classOf t none methods, k, h => by
    simp only [Stmt.rename, Routine.renameAll_eq_self hf methods (k + 1) h.2.2]
  | .classOf t (some superclass) methods, k, h => by
    simp only [Stmt.rename, hf.reference k superclass (h.2.1 _ rfl),
      Routine.renameAll_eq_self hf methods (k + 2) h.2.2]

theorem Routine.rename_eq_self (hf : f.FixesOthers name) : (r : Routine) → (k : Nat) → r.Avoids name →
    r.rename f k = r
  | .mk t params body, k, h => by
    have hparams : params.map (f.declaration (k + 1)) = params := by
      rw [List.map_congr_left fun p hp => hf.declaration (k + 1) p (h.2.1 p hp), List.map_id']
    simp only [Routine.rename, hparams, Stmt.renameAll_eq_self hf body (k + 1) h.2.2]

theorem Stmt.renameAll_eq_self (hf : f.FixesOthers name) : (ss : List Stmt) → (k : Nat) → Stmt.AvoidsAll name ss →
    Stmt.renameAll f ss k = ss
  | [], _, _ => rfl
  | s :: rest, k, h => by
    simp only [Stmt.renameAll, Stmt.rename_eq_self hf s k h.1, Stmt.renameAll_eq_self hf rest k h.2]

theorem Routine.renameAll_eq_self (hf : f.FixesOthers name) : (rs : List Routine) → (k : Nat) →
    Routine.AvoidsAll name rs → Routine.renameAll f rs k = rs
  | [], _, _ => rfl
  | r :: rest, k, h => by
    simp only [Routine.renameAll, Routine.rename_eq_self hf r k h.1, Routine.renameAll_eq_self hf rest k h.2]

end

end Fixed

namespace Renaming

variable (σ : Renaming)

theorem original_of_ne {σ : Renaming} {name : Text} (h : name ≠ σ.new) : σ.original name = name :=
  if_neg h

theorem original_new : σ.original σ.new = σ.old := if_pos rfl

theorem back_uniform : σ.back.Uniform := ⟨fun _ _ => rfl, fun _ _ => rfl⟩

/-- Giving the old name back changes the new name only. -/
theorem back_fixesOthers : σ.back.FixesOthers σ.new where
  reference k ref h := by
    change (⟨ref.site, ref.token.named (σ.original ref.name)⟩ : Reference) = ref
    rw [original_of_ne h]
    rfl
  declaration k t h := by
    change t.named (σ.original t.lexeme) = t
    rw [original_of_ne h]
    rfl

/-- The new name comes from the old one, so giving the old one back undoes the renaming. -/
theorem back_after_inward_fixesOthers : (σ.back.after σ.inward).FixesOthers σ.new where
  reference k ref h := by
    change σ.back.reference 0 (if ref.name = σ.old ∧ σ.recorded ref.site = some k then
      ⟨ref.site, ref.token.named σ.new⟩ else ref) = ref
    split
    · next hold =>
      change (⟨ref.site, ref.token.named (σ.original σ.new)⟩ : Reference) = ref
      rw [original_new, ← hold.1]
      rfl
    · exact σ.back_fixesOthers.reference 0 ref h
  declaration k t h := by
    change σ.back.declaration 0 (if k = 0 ∧ t.lexeme = σ.old then t.named σ.new else t) = t
    split
    · next hold =>
      change t.named (σ.original σ.new) = t
      rw [original_new, ← hold.2]
      rfl
    · exact σ.back_fixesOthers.declaration 0 t h

end Renaming

/-- A reference leads to the renamed scope, if that is some number of scopes out. -/
def Renaming.Leads (σ : Renaming) (m : Option Nat) (ref : Reference) : Prop :=
  m ≠ none ∧ σ.recorded ref.site = m

/-- A reference with the new name leads to the renamed scope, and one with the old name does not. -/
def Usage.Fits (σ : Renaming) (m : Option Nat) : Usage → Reference → Prop
  | .variable, ref | .assign, ref =>
    (ref.name = σ.new → σ.Leads m ref) ∧ (ref.name = σ.old → ¬ σ.Leads m ref)
  | .this, ref | .super, ref => ref.name ≠ σ.new ∧ ref.name ≠ σ.old

/-- A name that may stand in a scope: the renamed scope does not have the old name, and no other scope has
the new one. -/
def Renaming.Keeps (σ : Renaming) (m : Option Nat) (name : Text) : Prop :=
  (name = σ.new → m = some 0) ∧ (name = σ.old → m ≠ some 0)

/-- A scope is opened: either the renamed one is further out then, or it is this one. -/
def Enters (m inner : Option Nat) : Prop := inner = m.map (· + 1) ∨ m = none ∧ inner = some 0

mutual

/-- The names in a statement fit a renamed scope that is some number of scopes out, or not around the
statement at all. -/
def Stmt.Fits (σ : Renaming) : Stmt → Option Nat → Prop
  | .expression e, m | .print e, m => ∀ p ∈ e.references, p.1.Fits σ m p.2
  | .returns _ value, m => ∀ p ∈ Expr.referencesOfOption value, p.1.Fits σ m p.2
  | .branch condition yes none, m => (∀ p ∈ condition.references, p.1.Fits σ m p.2) ∧ yes.Fits σ m
  | .branch condition yes (some no), m =>
    (∀ p ∈ condition.references, p.1.Fits σ m p.2) ∧ yes.Fits σ m ∧ no.Fits σ m
  | .loop condition body, m => (∀ p ∈ condition.references, p.1.Fits σ m p.2) ∧ body.Fits σ m
  | .block body, m => ∃ inner, Enters m inner ∧ Stmt.FitsAll σ body inner
  | .variable t initializer, m =>
    σ.Keeps m t.lexeme ∧ ∀ p ∈ Expr.referencesOfOption initializer, p.1.Fits σ m p.2
  | .routine r, m => (σ.Keeps m r.name.lexeme ∧ r.name.lexeme ≠ σ.new) ∧ r.Fits σ m
  | .classOf t none methods, m =>
    (σ.Keeps m t.lexeme ∧ t.lexeme ≠ σ.new) ∧ Routine.FitsAll σ methods (m.map (· + 1))
  | .classOf t (some superclass) methods, m =>
    (σ.Keeps m t.lexeme ∧ t.lexeme ≠ σ.new) ∧ Usage.variable.Fits σ m superclass ∧
      Routine.FitsAll σ methods (m.map (· + 2))

def Routine.Fits (σ : Renaming) : Routine → Option Nat → Prop
  | .mk _ params body, m => ∃ inner, Enters m inner ∧
      (∀ p ∈ params, σ.Keeps inner p.lexeme) ∧ Stmt.FitsAll σ body inner

def Stmt.FitsAll (σ : Renaming) : List Stmt → Option Nat → Prop
  | [], _ => True
  | s :: rest, m => s.Fits σ m ∧ Stmt.FitsAll σ rest m

def Routine.FitsAll (σ : Renaming) : List Routine → Option Nat → Prop
  | [], _ => True
  | r :: rest, m => r.Fits σ m ∧ Routine.FitsAll σ rest m

end

/-- Neither name stands for an instance or a superclass. -/
structure Renaming.Proper (σ : Renaming) : Prop where
  old : Plain σ.old
  new : Plain σ.new

section Fits

variable {σ : Renaming}

theorem Usage.Fits.of_avoids (hσ : σ.Proper) {u : Usage} {ref : Reference} (hnames : u.Names ref)
    (h : ref.name ≠ σ.new) : u.Fits σ none ref := by
  cases u with
  | «variable» | assign => exact ⟨fun hnew => absurd hnew h, fun _ hleads => hleads.1 rfl⟩
  | this => exact ⟨h, fun hold => hσ.old.1 (hold.symm.trans hnames)⟩
  | super => exact ⟨h, fun hold => hσ.old.2 (hold.symm.trans hnames)⟩

theorem Renaming.Keeps.of_avoids {name : Text} (h : name ≠ σ.new) : σ.Keeps none name :=
  ⟨fun hnew => absurd hnew h, fun _ => nofun⟩

mutual

/-- A statement that avoids the new name fits if the renamed scope is not around it. -/
theorem Stmt.fits_of_avoids (hσ : σ.Proper) : (s : Stmt) → (∀ p ∈ s.references, p.1.Names p.2) →
    s.Avoids σ.new → s.Fits σ none
  | .expression e, hn, h | .print e, hn, h | .returns _ value, hn, h => fun p hp => .of_avoids hσ (hn p hp) (h p hp)
  | .branch condition yes none, hn, h => by
    have ⟨hcondition, hyes⟩ := List.forall_mem_append.1 hn
    exact ⟨fun p hp => .of_avoids hσ (hcondition p hp) (h.1 p hp), Stmt.fits_of_avoids hσ yes hyes h.2⟩
  | .branch condition yes (some no), hn, h => by
    have ⟨hboth, hno⟩ := List.forall_mem_append.1 hn
    have ⟨hcondition, hyes⟩ := List.forall_mem_append.1 hboth
    exact ⟨fun p hp => .of_avoids hσ (hcondition p hp) (h.1 p hp),
      Stmt.fits_of_avoids hσ yes hyes h.2.1, Stmt.fits_of_avoids hσ no hno h.2.2⟩
  | .loop condition body, hn, h => by
    have ⟨hcondition, hbody⟩ := List.forall_mem_append.1 hn
    exact ⟨fun p hp => .of_avoids hσ (hcondition p hp) (h.1 p hp), Stmt.fits_of_avoids hσ body hbody h.2⟩
  | .block body, hn, h => ⟨none, .inl rfl, Stmt.fitsAll_of_avoids hσ body hn h⟩
  | .variable t initializer, hn, h =>
    ⟨.of_avoids h.1, fun p hp => .of_avoids hσ (hn p hp) (h.2 p hp)⟩
  | .routine r, hn, h => by
    obtain ⟨name, params, body⟩ := r
    exact ⟨⟨.of_avoids h.1, h.1⟩, Routine.fits_of_avoids hσ (.mk name params body) hn h⟩
  | .classOf t none methods, hn, h =>
    ⟨⟨.of_avoids h.1, h.1⟩, Routine.fitsAll_of_avoids hσ methods hn h.2.2⟩
  | .classOf t (some superclass) methods, hn, h => by
    have ⟨hsuperclass, hmethods⟩ := List.forall_mem_append.1 hn
    exact ⟨⟨.of_avoids h.1, h.1⟩, .of_avoids hσ (hsuperclass _ (.head _)) (h.2.1 _ rfl),
      Routine.fitsAll_of_avoids hσ methods hmethods h.2.2⟩

theorem Routine.fits_of_avoids (hσ : σ.Proper) : (r : Routine) →
    (∀ p ∈ r.references, p.1.Names p.2) → r.Avoids σ.new → r.Fits σ none
  | .mk _ _ body, hn, h =>
    ⟨none, .inl rfl, fun p hp => .of_avoids (h.2.1 p hp), Stmt.fitsAll_of_avoids hσ body hn h.2.2⟩

theorem Stmt.fitsAll_of_avoids (hσ : σ.Proper) : (ss : List Stmt) →
    (∀ p ∈ Stmt.referencesOfAll ss, p.1.Names p.2) → Stmt.AvoidsAll σ.new ss → Stmt.FitsAll σ ss none
  | [], _, _ => trivial
  | s :: rest, hn, h => by
    have ⟨hs, hrest⟩ := List.forall_mem_append.1 hn
    exact ⟨Stmt.fits_of_avoids hσ s hs h.1, Stmt.fitsAll_of_avoids hσ rest hrest h.2⟩

theorem Routine.fitsAll_of_avoids (hσ : σ.Proper) : (rs : List Routine) →
    (∀ p ∈ Routine.referencesOfAll rs, p.1.Names p.2) → Routine.AvoidsAll σ.new rs →
    Routine.FitsAll σ rs none
  | [], _, _ => trivial
  | r :: rest, hn, h => by
    have ⟨hr, hrest⟩ := List.forall_mem_append.1 hn
    exact ⟨Routine.fits_of_avoids hσ r hr h.1, Routine.fitsAll_of_avoids hσ rest hrest h.2⟩

end

end Fits

end Lox
