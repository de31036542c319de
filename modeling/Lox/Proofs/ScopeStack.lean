import Lox.Proofs.Walk

/-!
# The stack of scopes

Binding a phrase never takes a scope off an empty stack, and never looks at the innermost scope of one: what a phrase
opens it closes itself, and where it looks at a scope that it has not opened, it makes sure that there is one. A walk
that did so would note it (`Binder.underflows`).

So from any point of a walk, whatever went wrong before, binding a phrase comes back to the same scopes and contexts.
Only the names that the phrase declares are new in the innermost scope, and each of them is complete
(`Binder.Balanced`).
-/

namespace Lox

/-- The names that a phrase declares in the scope where it stands. -/
def Phrase.declaredHere : Phrase → List Token
  | .stmt s => s.declaredHere
  | .stmts ss => ss.flatMap Stmt.declaredHere
  | _ => []

theorem Phrase.bind_marks (n : Phrase) (b : Binder) : Binder.Marks n.declaredHere b (n.bind b) := by
  cases n with
  | expr e => exact .of_alike (e.bind_alike b)
  | exprs es => exact .of_alike (Expr.bindAll_alike es b)
  | stmt s => exact s.bind_marks b
  | stmts ss => exact Stmt.bindAll_marks ss b
  | routine context r => exact .of_alike (r.bind_alike context b)
  | methods rs => exact .of_alike (Routine.bindMethods_alike rs b)

/-- As many scopes are open as before, in the same contexts, and all but the innermost one are the same. In that one
given names are complete, and all others are as they were. On the way no scope was missing, and what was recorded at
other sites than the given ones is kept. -/
structure Binder.Balanced (b : Binder) (names : List Token) (sites : List Site) (b' : Binder) : Prop where
  length : b'.scopes.length = b.scopes.length
  outer : b'.scopes.tail = b.scopes.tail
  inner : ∀ scope, b.scopes.head? = some scope → ∃ scope', b'.scopes.head? = some scope' ∧
    (∀ t ∈ names, scope'.get? t.lexeme = some true) ∧
    ∀ name, (∀ t ∈ names, t.lexeme ≠ name) → scope'.get? name = scope.get? name
  inClass : b'.inClass = b.inClass
  inRoutine : b'.inRoutine = b.inRoutine
  underflows : b'.underflows = b.underflows
  kept : ∀ site, site ∉ sites → b'.bindings.lookup site = b.bindings.lookup site

/-- The stack of scopes is balanced and monotone. From every point of a walk, with any scopes open and whatever was
reported before, binding a phrase never takes a scope off an empty stack or looks at the innermost scope of one; the
same number of scopes is open after it in the same contexts, the outer ones unchanged and the innermost one with the
names that the phrase declares there, each complete; and what was recorded about references outside of the phrase is
kept. -/
theorem Phrase.bind_balanced (n : Phrase) (b : Binder) : b.Balanced n.declaredHere n.sites (n.bind b) := by
  have hmarks := n.bind_marks b
  refine ⟨hmarks.length_eq, hmarks.within.outer, fun scope hscope => ?_, hmarks.inClass, hmarks.inRoutine,
    hmarks.underflows, fun site hsite => (n.adds b).lookup hsite⟩
  obtain ⟨outer, hscopes⟩ := List.head?_eq_some_iff.1 hscope
  obtain ⟨scope', hscope', hnames⟩ := exists_markAll n.declaredHere scope outer
  exact ⟨scope', by rw [hmarks.scopes, hscopes, hscope', List.head?_cons], hnames⟩

end Lox
