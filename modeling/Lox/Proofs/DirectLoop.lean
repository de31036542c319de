import Lox.Proofs.Surroundings
import Lox.Proofs.ThinnedStore

/-!
# Loops that are run directly

A loop with a header is read as a block with a plain loop in it (`ForLoop.tree`). Its meaning can be said without
that tree (`ForLoop.step`): one scope is opened, in which the initializer is executed once; then the condition is
evaluated, and as long as it is truthy, or if there is none, the body is executed and, if it has completed
normally, the increment is evaluated, all in that one scope. Each part is run by a machine of its own, and
whatever else a part comes to ends the loop.

The body and the increment are bound in the scope of the loop itself (`ForLoop.bindings`), and so at sites of
their own, since the tree binds them inside of one more scope. `ForLoop.BoundAt.thinning_lawful` states that the
distances are those of the tree, without this scope.
-/

namespace Lox

/-- A loop with a header, with the site of its keyword. Its body is a statement and not a declaration. -/
structure ForLoop where
  site : Site
  initializer : Option Stmt
  condition : Option Expr
  increment : Option Expr
  body : Stmt
  quiet : body.declared? = none

namespace ForLoop

/-- The tree that a loop is read as. -/
def tree (l : ForLoop) : Stmt := .forLoop l.site l.initializer l.condition l.increment l.body

/-- The parts of a loop. -/
inductive Part where
  | initializer
  | condition
  | body
  | increment
  deriving DecidableEq, Repr

/-- A loop at one of its parts, or at its end with an outcome. -/
inductive State where
  | running (part : Part) (m : Machine)
  | ended (outcome : Control) (s : Store)

def State.store : State → Store
  | .running _ m => m.store
  | .ended _ s => s

/-- Begins to execute the body. -/
def again (l : ForLoop) (s : Store) : State := .running .body ⟨.execute l.body, [], s⟩

/-- Begins to evaluate the condition; without one, goes on with the body. -/
def test (l : ForLoop) (s : Store) : State :=
  match l.condition with
  | some e => .running .condition ⟨.evaluate e, [], s⟩
  | none => l.again s

/-- Opens the scope of a loop and begins to execute the initializer, if there is one. -/
def begin (l : ForLoop) (s : Store) : State :=
  match l.initializer with
  | some stmt => .running .initializer ⟨.execute stmt, [], s.openScope⟩
  | none => l.test s.openScope

/-- Goes on after a part has come to an outcome. The scope around the loop is current again at its end. -/
def next (l : ForLoop) (outer : ScopeId) : Part → Control → Store → State
  | .initializer, .complete .normal, s => l.test s
  | .condition, .deliver v, s =>
    if v.truthy then l.again s else .ended (.complete .normal) { s with scope := outer }
  | .body, .complete .normal, s =>
    match l.increment with
    | some e => .running .increment ⟨.evaluate e, [], s⟩
    | none => l.test s
  | .increment, .deliver _, s => l.test s
  | _, outcome, s => .ended outcome { s with scope := outer }

/-- One step of a loop: one of the machine that runs the part, or on to the next part. -/
def step (l : ForLoop) (limits : Limits) (outer : ScopeId) : State → State
  | .running part m =>
    if m.Idle then l.next outer part m.control m.store else .running part (m.step limits)
  | .ended outcome s => .ended outcome s

/-- A loop after a number of steps in a store. -/
def run (l : ForLoop) (limits : Limits) (s : Store) (steps : Nat) : State :=
  (l.step limits s.scope)^[steps] (l.begin s)

theorem run_succ (l : ForLoop) (limits : Limits) (s : Store) (n : Nat) :
    l.run limits s (n + 1) = l.step limits s.scope (l.run limits s n) :=
  Function.iterate_succ_apply' ..

/-! ## Binding -/

/-- What the tree of a loop runs in a round. -/
def round (l : ForLoop) : List Stmt := l.body :: (l.increment.map Stmt.expression).toList

/-- A loop with its body and its increment some sites further on. -/
def moved (n : Nat) (l : ForLoop) : ForLoop where
  site := l.site
  initializer := l.initializer
  condition := l.condition
  increment := l.increment.map (Expr.moved n)
  body := l.body.moved n
  quiet := (l.body.declared?_moved n).trans l.quiet

/-- The point of the walk in the scope of a loop, after its initializer and its condition. -/
def header (l : ForLoop) (b : Binder) : Binder :=
  Expr.bindOption l.condition (Stmt.bindAll l.initializer.toList (b.enter .empty))

/-- The distances in the body and the increment when they are bound in the scope of the loop. -/
def bindings (l : ForLoop) (b : Binder) : List (Site × Nat) :=
  (Stmt.bindAll l.round { l.header b with bindings := [] }).bindings

/-- A store with these distances, for the loop some sites further on. -/
def prepared (l : ForLoop) (b : Binder) (off : Nat) (s : Store) : Store :=
  s.addBindings ((l.moved off).bindings b).reverse

variable {l : ForLoop} {b : Binder} {off : Nat} {s : Store}

/-- The condition of the plain loop in the tree. -/
def plainCondition (l : ForLoop) : Expr := l.condition.getD (.literal l.site (.bool true))

/-- The plain loop in the tree. -/
def plainLoop (l : ForLoop) : Stmt := .loop l.plainCondition (.block l.round)

section

variable (l b off s)

theorem tree_eq : l.tree = .block (l.initializer.toList ++ [l.plainLoop]) := rfl

theorem round_moved (n : Nat) : (l.moved n).round = Stmt.movedAll n l.round := by
  unfold round moved
  cases l.increment <;> rfl

/-- A round declares nothing in the scope where it stands. -/
theorem quiet_round : ∀ stmt ∈ l.round, stmt.declared? = none := by
  refine List.forall_mem_cons.2 ⟨l.quiet, fun stmt hstmt => ?_⟩
  obtain ⟨e, -, rfl⟩ := Option.map_eq_some_iff.1 (Option.mem_toList.1 hstmt)
  rfl

theorem bind_plainCondition : l.plainCondition.bind b = Expr.bindOption l.condition b := by
  unfold plainCondition
  cases l.condition <;> rfl

/-- The walk over the tree comes to the plain loop. -/
theorem reaches_plainLoop :
    Phrase.Reaches b (.stmt l.tree) (Stmt.bindAll l.initializer.toList (b.enter .empty)) (.stmt l.plainLoop) := by
  have hblock : Phrase.Reaches b (.stmt l.tree) (b.enter .empty)
      (.stmts (l.initializer.toList ++ [l.plainLoop])) := Phrase.Reaches.here.child (.head _)
  cases hinit : l.initializer with
  | none =>
    rw [hinit] at hblock
    exact hblock.child (.head _)
  | some stmt =>
    rw [hinit] at hblock
    have hrest : Phrase.Reaches b (.stmt l.tree) (stmt.bind (b.enter .empty)) (.stmts [l.plainLoop]) :=
      hblock.child (.tail _ (.head _))
    exact hrest.child (.head _)

/-- The walk over the tree comes to the statements of a round, inside of the scope of a block. -/
theorem reaches_round : Phrase.Reaches b (.stmt l.tree) ((l.header b).enter .empty) (.stmts l.round) := by
  have hloop := l.reaches_plainLoop b
  have hblock : Phrase.Reaches b (.stmt l.tree) (l.header b) (.stmt (.block l.round)) := by
    rw [header, ← bind_plainCondition]
    exact hloop.child (.tail _ (.head _))
  exact hblock.child (.head _)

/-- The scope of the loop is the only one that the header opens. -/
theorem length_header (hinit : ∀ stmt ∈ l.initializer, stmt.Formed) :
    (l.header b).scopes.length = b.scopes.length + 1 := by
  have hcondition : ∀ b, (Expr.bindOption l.condition b).scopes = b.scopes := by
    intro b
    rw [← bind_plainCondition]
    exact (l.plainCondition.bind_alike b).scopes
  rw [header, hcondition]
  cases hstmt : l.initializer with
  | none => rfl
  | some stmt =>
    have hfollows := stmt.bind_follows (b.enter .empty) (hinit stmt hstmt)
    change (stmt.bind (b.enter .empty)).scopes.length = _
    rw [hfollows.scopes, Stmt.scopesAfter]
    cases stmt.declared? with
    | none => rfl
    | some name => exact length_markInner name.lexeme true (b.enter .empty).scopes

/-- Without the scope of the block a round is bound in the scope of the loop. -/
theorem thins_header :
    Binder.Thins (l.header b).scopes 0 ((l.header b).enter .empty) { l.header b with bindings := [] } :=
  ⟨⟨[], rfl, rfl, rfl⟩, rfl⟩

/-! ## The distances -/

/-- The distances of a loop that is run directly stand at its own sites. -/
theorem getElem?_prepared (site : Site) :
    (l.prepared b off s).bindings[site]? = (((l.moved off).bindings b).lookup site).or s.bindings[site]? := by
  rw [prepared, Store.getElem?_addBindings, List.reverse_reverse]

theorem bindings_moved :
    (l.moved off).bindings b = (((Phrase.stmts l.round).moved off).bind
      { l.header b with bindings := [] }).bindings := by
  rw [bindings, round_moved]
  rfl

end

/-- Preparing the loop leaves the bindings of older sites. -/
theorem getElem?_prepared_of_lt {site : Site} (hsite : site < off) :
    (l.prepared b off s).bindings[site]? = s.bindings[site]? := by
  have hnot : site ∉ ((Phrase.stmts l.round).moved off).sites := by
    rw [Phrase.sites_moved]
    intro hmem
    obtain ⟨site', -, rfl⟩ := List.mem_map.1 hmem
    exact absurd hsite (Nat.not_lt.2 (Nat.le_add_left off site'))
  have hlookup := (((Phrase.stmts l.round).moved off).adds { l.header b with bindings := [] }).lookup hnot
  rw [getElem?_prepared, bindings_moved, hlookup]
  rfl

/-- The tree of a loop in a store, and the loop that is run directly. -/
def thinning (l : ForLoop) (b : Binder) (off : Nat) (s : Store) : Thinning where
  loop := s.heap.forest.scopes.size
  depth := b.scopes.length + 1
  inside := (Phrase.stmts l.round).sites
  off := off
  recorded site := s.bindings[site]?
  thinned site := (l.prepared b off s).bindings[site]?

/-- The tree of a loop was bound at a point of the walk over programs whose sites are all different and before
a given one. -/
structure BoundAt (programs : List Program) (off : Nat) (l : ForLoop) (b : Binder) (s : Store) : Prop where
  visited : Visited programs b (.stmt l.tree)
  recorded : Recorded (fun site => s.bindings[site]?) programs
  apart : ProgramsApart programs
  before : ∀ program ∈ programs, ∀ site ∈ (Phrase.stmts program).sites, site < off
  fresh : ∀ site, off ≤ site → s.bindings[site]? = none

namespace BoundAt

variable {programs : List Program} (h : BoundAt programs off l b s)

include h

theorem lawful : (Visited programs).Lawful (l.thinning b off s).recorded := h.recorded.lawful

theorem visited_of_reaches {c : Binder} {m : Phrase} (hreaches : Phrase.Reaches b (.stmt l.tree) c m) :
    Visited programs c m := by
  obtain ⟨program, hprogram, hvisits⟩ := h.visited
  exact ⟨program, hprogram, hreaches.visits hvisits⟩

theorem formed_initializer : ∀ stmt ∈ l.initializer, stmt.Formed := by
  intro stmt hstmt
  have hformed : (Stmt.block (l.initializer.toList ++ [l.plainLoop])).Formed :=
    (h.lawful.sound h.visited).formed
  rw [show l.initializer = some stmt from hstmt] at hformed
  exact hformed.1

theorem site_lt {c : Binder} {m : Phrase} (hvisit : Visited programs c m) : ∀ site ∈ m.sites, site < off := by
  obtain ⟨program, hprogram, hvisits⟩ := hvisit
  exact fun site hsite => h.before program hprogram site (hvisits.reaches.sites_subset hsite)

/-- What is recorded about a round that is bound in the scope of the loop. -/
theorem settled_round :
    ((Phrase.stmts l.round).moved off).Settled (l.thinning b off s).thinned
      { l.header b with bindings := [] } := by
  have hround := h.visited_of_reaches (l.reaches_round b)
  refine ⟨?_, fun _ _ => rfl, fun site hsite => ?_⟩
  · rw [Phrase.sites_moved]
    exact (h.lawful.sound hround).nodup.map fun _ _ => Nat.add_right_cancel
  · -- Nothing was recorded at the new sites before.
    have hle : off ≤ site := by
      rw [Phrase.sites_moved] at hsite
      obtain ⟨site', -, rfl⟩ := List.mem_map.1 hsite
      exact Nat.le_add_left off site'
    change (l.prepared b off s).bindings[site]? = _
    rw [getElem?_prepared, bindings_moved, h.fresh site hle, Option.or_none]

/-- The distances of the loop that is run directly are those of its tree without the scope of the block. -/
theorem thinning_lawful : (l.thinning b off s).Lawful (Visited programs) := by
  refine ⟨fun {c m} hvisit p hp => ?_, fun {c m} hvisit p hp hinside => ?_⟩
  · have hsite := h.site_lt hvisit _ (m.own_sites_subset (List.mem_map_of_mem hp))
    exact getElem?_prepared_of_lt hsite
  · -- A site of the round is visited at one point, which the walk over the round comes to.
    obtain ⟨q, hq, hsame⟩ := List.mem_map.1 hinside
    obtain ⟨c', m', hreaches, hown⟩ := (Phrase.stmts l.round).exists_reaches ((l.header b).enter .empty) hq
    have hround := h.visited_of_reaches (l.reaches_round b)
    have hvisit' := h.visited_of_reaches ((l.reaches_round b).trans hreaches)
    have hsite : p.2.site ∈ m'.own.map (·.2.site) := hsame ▸ List.mem_map_of_mem hown
    obtain ⟨rfl, rfl⟩ := Visited.unique h.apart h.recorded hvisit hvisit' (List.mem_map_of_mem hp) hsite
    obtain ⟨-, k, c'', hthins, -, hsettled⟩ := hreaches.thins h.lawful hround (fun _ => l.quiet_round)
      (l.thins_header b) h.settled_round
    refine ⟨k, ?_, Phrase.lowers_own h.lawful hvisit hthins hsettled p hp⟩
    rw [hthins.length, l.length_header b h.formed_initializer]
    rfl

end BoundAt

end ForLoop

end Lox
