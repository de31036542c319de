import Lox.Binding
import Lox.Tree.References
import Mathlib.Data.List.Induction
import Mathlib.Data.List.Nodup
import Mathlib.Data.List.Range

/-!
# Positions in the text of a program

A program, as far as names are concerned, is a sequence of marks in the order of its text: a scope opens or
closes, a name is declared, a name is referred to (`Stmt.marks`). A place in the program is what stands before it.

`Lexical` says by positions alone what the lexical distance of a name is at a place: the number of scopes around
the place that open after the nearest one in which the name is declared before it. A scope is around a place if
it is opened before and not closed in between (`Mark.Open`), and a declaration belongs to the innermost scope
around it (`Mark.DeclaredIn`), so that one at the top belongs to none.

`lexical_iff_findIdx?` relates this to a stack of scopes that is kept while the marks are read one by one.
-/

namespace Lox

/-- What a program does to names. -/
inductive Mark where
  | opens
  | closes
  | declares (name : Text)
  | refers (usage : Usage) (ref : Reference)
  deriving DecidableEq

/-- The marks of references, in their order. -/
def Mark.ofReferences (refs : List (Usage × Reference)) : List Mark := refs.map fun p => .refers p.1 p.2

mutual

/-- The marks of a statement. The name of a variable comes before its initializer, that of a function before its
parameters, and that of a class before its superclass; around the methods of a class is a scope with `this`, and
around that one with `super`, if the class has a superclass. -/
def Stmt.marks : Stmt → List Mark
  | .expression e | .print e => Mark.ofReferences e.references
  | .returns _ value => Mark.ofReferences (Expr.referencesOfOption value)
  | .branch condition yes none => Mark.ofReferences condition.references ++ yes.marks
  | .branch condition yes (some no) => Mark.ofReferences condition.references ++ (yes.marks ++ no.marks)
  | .loop condition body => Mark.ofReferences condition.references ++ body.marks
  | .block body => [.opens] ++ (Stmt.marksAll body ++ [.closes])
  | .variable name initializer =>
    [.declares name.lexeme] ++ Mark.ofReferences (Expr.referencesOfOption initializer)
  | .routine r => [.declares r.name.lexeme] ++ r.marks
  | .classOf name none methods =>
    [.declares name.lexeme] ++ ([.opens, .declares thisName] ++ (Routine.marksAll methods ++ [.closes]))
  | .classOf name (some superclass) methods =>
    [.declares name.lexeme] ++ ([.refers .variable superclass] ++ ([.opens, .declares superName] ++
      ([.opens, .declares thisName] ++ (Routine.marksAll methods ++ ([.closes] ++ [.closes])))))

/-- The marks of a routine: its parameters and its body share a scope. -/
def Routine.marks : Routine → List Mark
  | .mk _ params body =>
    [.opens] ++ (params.map (fun p => .declares p.lexeme) ++ (Stmt.marksAll body ++ [.closes]))

def Stmt.marksAll : List Stmt → List Mark
  | [] => []
  | s :: rest => s.marks ++ Stmt.marksAll rest

def Routine.marksAll : List Routine → List Mark
  | [] => []
  | r :: rest => r.marks ++ Routine.marksAll rest

end

/-- The reference that a mark stands for. -/
def Mark.reference? : Mark → Option (Usage × Reference)
  | .refers usage ref => some (usage, ref)
  | .opens | .closes | .declares _ => none

theorem Mark.references_ofReferences (refs : List (Usage × Reference)) :
    (Mark.ofReferences refs).filterMap Mark.reference? = refs := by
  rw [Mark.ofReferences, List.filterMap_map]
  exact List.filterMap_some

theorem Mark.references_declares (names : List Token) :
    (names.map fun p => Mark.declares p.lexeme).filterMap Mark.reference? = [] :=
  List.filterMap_eq_nil_iff.2 fun m hm => by
    obtain ⟨p, -, rfl⟩ := List.mem_map.1 hm
    rfl

mutual

/-- The marks of a statement have its references, in the order of the tree. -/
theorem Stmt.references_marks : (s : Stmt) → s.marks.filterMap Mark.reference? = s.references
  | .expression _ | .print _ | .returns _ _ | .variable _ _ => Mark.references_ofReferences _
  | .branch _ body none | .loop _ body => by
    rw [Stmt.marks, List.filterMap_append, Mark.references_ofReferences, Stmt.references_marks body, Stmt.references]
  | .branch _ yes (some no) => by
    rw [Stmt.marks, List.filterMap_append, List.filterMap_append, Mark.references_ofReferences,
      Stmt.references_marks yes, Stmt.references_marks no, Stmt.references, List.append_assoc]
  | .block body => by
    rw [Stmt.marks, List.filterMap_append, List.filterMap_append, Stmt.references_marksAll body, Stmt.references]
    exact List.append_nil _
  | .routine r => Routine.references_marks r
  | .classOf _ none methods => by
    rw [Stmt.marks, List.filterMap_append, List.filterMap_append, List.filterMap_append,
      Routine.references_marksAll methods, Stmt.references]
    exact List.append_nil _
  | .classOf _ (some superclass) methods => by
    rw [Stmt.marks, List.filterMap_append, List.filterMap_append, List.filterMap_append, List.filterMap_append,
      List.filterMap_append, Routine.references_marksAll methods, Stmt.references]
    exact congrArg (_ :: ·) (List.append_nil _)

theorem Routine.references_marks : (r : Routine) → r.marks.filterMap Mark.reference? = r.references
  | .mk _ params body => by
    rw [Routine.marks, List.filterMap_append, List.filterMap_append, List.filterMap_append,
      Mark.references_declares, Stmt.references_marksAll body, Routine.references]
    exact List.append_nil _

theorem Stmt.references_marksAll : (ss : List Stmt) →
    (Stmt.marksAll ss).filterMap Mark.reference? = Stmt.referencesOfAll ss
  | [] => rfl
  | s :: rest => by
    rw [Stmt.marksAll, List.filterMap_append, Stmt.references_marks s, Stmt.references_marksAll rest,
      Stmt.referencesOfAll]

theorem Routine.references_marksAll : (rs : List Routine) →
    (Routine.marksAll rs).filterMap Mark.reference? = Routine.referencesOfAll rs
  | [] => rfl
  | r :: rest => by
    rw [Routine.marksAll, List.filterMap_append, Routine.references_marks r, Routine.references_marksAll rest,
      Routine.referencesOfAll]

end

namespace Mark

/-! ## Scopes and declarations by their positions -/

/-- The number of scopes that marks open, less the number of those that they close. -/
def excess (marks : List Mark) : Int := marks.count .opens - marks.count .closes

/-- The mark at a position opens a scope which is not closed up to the end. -/
def Open (before : List Mark) (q : Nat) : Prop :=
  before[q]? = some .opens ∧ ∀ r < before.length + 1, q < r → 0 ≤ excess ((before.take r).drop (q + 1))

/-- A name is declared in the scope that opens at a position: of the scopes around the declaration that one is the
innermost. -/
def DeclaredIn (before : List Mark) (q : Nat) (name : Text) : Prop :=
  ∃ r < before.length, before[r]? = some (.declares name) ∧ Open (before.take r) q ∧
    ∀ q' < r, q < q' → ¬ Open (before.take r) q'

instance (before : List Mark) (q : Nat) : Decidable (Open before q) :=
  inferInstanceAs (Decidable (_ ∧ _))

instance (before : List Mark) (q : Nat) (name : Text) : Decidable (DeclaredIn before q name) :=
  inferInstanceAs (Decidable (∃ r < before.length, _))

/-- The number of scopes around the end that open after a position. -/
def scopesAfter (before : List Mark) (q : Nat) : Nat :=
  (List.range before.length).countP fun q' => q < q' ∧ Open before q'

end Mark

/-- The lexical distance of a name at the end of the marks that stand before a place. -/
def Lexical (before : List Mark) (name : Text) (d : Nat) : Prop :=
  ∃ q < before.length, Mark.Open before q ∧ Mark.DeclaredIn before q name ∧
    (∀ q' < before.length, q < q' → Mark.Open before q' → ¬ Mark.DeclaredIn before q' name) ∧
    Mark.scopesAfter before q = d

instance (before : List Mark) (name : Text) (d : Nat) : Decidable (Lexical before name d) :=
  inferInstanceAs (Decidable (∃ q < before.length, _))

namespace Mark

/-! ## One more mark -/

section

variable {before : List Mark} {m : Mark} {q : Nat} {name : Text}

theorem excess_append (marks marks' : List Mark) : excess (marks ++ marks') = excess marks + excess marks' := by
  unfold excess
  rw [List.count_append, List.count_append]
  omega

theorem Open.lt_length (h : Open before q) : q < before.length := (List.getElem?_eq_some_iff.1 h.1).1

theorem Open.excess_nonneg (h : Open before q) : 0 ≤ excess (before.drop (q + 1)) := by
  have hlast := h.2 before.length (Nat.lt_succ_self _) h.lt_length
  rwa [List.take_length] at hlast

theorem DeclaredIn.lt_length (h : DeclaredIn before q name) : q < before.length := by
  obtain ⟨r, hr, -, hopen, -⟩ := h
  have hlt := hopen.lt_length
  rw [List.length_take] at hlt
  omega

/-- A scope is open after one more mark if the mark opens it, or if it was open and the mark does not close it. -/
theorem open_append : Open (before ++ [m]) q ↔
    q = before.length ∧ m = .opens ∨ Open before q ∧ 0 ≤ excess (before.drop (q + 1) ++ [m]) := by
  have hlength : (before ++ [m]).length = before.length + 1 := by simp
  constructor
  · intro h
    have hlt := h.lt_length
    rcases Nat.lt_or_ge q before.length with hq | hq
    · right
      refine ⟨⟨?_, fun r hr hqr => ?_⟩, ?_⟩
      · have hopens := h.1
        rwa [List.getElem?_append_left hq] at hopens
      · have hr' := h.2 r (by omega) hqr
        rwa [List.take_append_of_le_length (by omega)] at hr'
      · have hlast := h.excess_nonneg
        rwa [List.drop_append_of_le_length (by omega)] at hlast
    · left
      have hq' : q = before.length := by omega
      refine ⟨hq', ?_⟩
      have hopens := h.1
      rw [hq', List.getElem?_concat_length] at hopens
      exact Option.some.inj hopens
  · rintro (⟨rfl, rfl⟩ | ⟨h, hlast⟩)
    · refine ⟨List.getElem?_concat_length, fun r hr hqr => ?_⟩
      have hr' : r = before.length + 1 := by omega
      rw [hr', ← hlength, List.take_length, hlength, ← hlength, List.drop_length]
      exact Int.le_refl 0
    · have hq := h.lt_length
      refine ⟨?_, fun r hr hqr => ?_⟩
      · rw [List.getElem?_append_left hq]
        exact h.1
      · rcases Nat.lt_or_ge before.length r with hlt | hle
        · have hr' : r = (before ++ [m]).length := by omega
          rw [hr', List.take_length, List.drop_append_of_le_length (by omega)]
          exact hlast
        · rw [List.take_append_of_le_length hle]
          exact h.2 r (by omega) hqr

/-- A mark that neither opens nor closes a scope. -/
theorem open_append_of_excess_eq (hm : m ≠ .opens) (hzero : excess [m] = 0) :
    Open (before ++ [m]) q ↔ Open before q := by
  rw [open_append, or_iff_right (fun hnew => hm hnew.2), excess_append, hzero, Int.add_zero]
  exact and_iff_left_of_imp Open.excess_nonneg

/-- A name is declared after one more mark if it was before, or if the mark declares it in the innermost scope. -/
theorem declaredIn_append : DeclaredIn (before ++ [m]) q name ↔ DeclaredIn before q name ∨
      m = .declares name ∧ Open before q ∧ ∀ q' < before.length, q < q' → ¬ Open before q' := by
  have hlength : (before ++ [m]).length = before.length + 1 := by simp
  constructor
  · rintro ⟨r, hr, hdeclares, hopen, hinner⟩
    rcases Nat.lt_or_ge r before.length with hlt | hge
    · left
      rw [List.take_append_of_le_length (by omega)] at hopen hinner
      rw [List.getElem?_append_left hlt] at hdeclares
      exact ⟨r, hlt, hdeclares, hopen, hinner⟩
    · right
      have hr' : r = before.length := by omega
      rw [hr', List.take_append_of_le_length (Nat.le_refl _), List.take_length] at hopen hinner
      rw [hr', List.getElem?_concat_length] at hdeclares
      exact ⟨Option.some.inj hdeclares, hopen, hinner⟩
  · rintro (⟨r, hr, hdeclares, hopen, hinner⟩ | ⟨rfl, hopen, hinner⟩)
    · refine ⟨r, by omega, ?_, ?_⟩
      · rw [List.getElem?_append_left hr]
        exact hdeclares
      · rw [List.take_append_of_le_length (by omega)]
        exact ⟨hopen, hinner⟩
    · refine ⟨before.length, by omega, List.getElem?_concat_length, ?_⟩
      rw [List.take_append_of_le_length (Nat.le_refl _), List.take_length]
      exact ⟨hopen, hinner⟩

end

/-! ## The stack of scopes -/

/-- The names in the open scopes after a mark, the innermost scope first. -/
def step : List (List Text) → Mark → List (List Text)
  | scopes, .opens => [] :: scopes
  | scopes, .closes => scopes.tail
  | [], .declares _ => []
  | names :: outer, .declares name => (name :: names) :: outer
  | scopes, .refers _ _ => scopes

/-- The open scopes after marks, each with the position where it opens and the names in it. -/
structure Stacked (before : List Mark) (stack : List (Nat × List Text)) : Prop where
  names : before.foldl step [] = stack.map (·.2)
  sorted : (stack.map (·.1)).Pairwise (· > ·)
  open_iff : ∀ q, Open before q ↔ q ∈ stack.map (·.1)
  declaredIn_iff : ∀ q names, (q, names) ∈ stack → ∀ name, DeclaredIn before q name ↔ name ∈ names
  /-- From where a scope opens on, as many more scopes are opened than closed as are open inside of it. -/
  inside : ∀ (i : Nat) q names, stack[i]? = some (q, names) → excess (before.drop (q + 1)) = i

namespace Stacked

variable {before : List Mark} {stack : List (Nat × List Text)} {q : Nat} {names : List Text}

section

variable (h : Stacked before stack)

include h

theorem lt_length (hq : (q, names) ∈ stack) : q < before.length :=
  ((h.open_iff q).2 (List.mem_map_of_mem hq)).lt_length

theorem lt_of_lt {i j q' : Nat} {names' : List Text} (hi : stack[i]? = some (q, names))
    (hj : stack[j]? = some (q', names')) (hlt : i < j) : q' < q := by
  have hsorted := List.pairwise_iff_getElem.1 h.sorted i j
  obtain ⟨hi', hqi⟩ := List.getElem?_eq_some_iff.1 hi
  obtain ⟨hj', hqj⟩ := List.getElem?_eq_some_iff.1 hj
  have hgt := hsorted (by rwa [List.length_map]) (by rwa [List.length_map]) hlt
  rw [List.getElem_map, List.getElem_map, hqi, hqj] at hgt
  exact hgt

/-- The innermost scope is that on the top of the stack. -/
theorem innermost_iff :
    (Open before q ∧ ∀ q' < before.length, q < q' → ¬ Open before q') ↔
      ∃ names rest, stack = (q, names) :: rest := by
  constructor
  · rintro ⟨hopen, hinner⟩
    obtain ⟨⟨q', names⟩, hmem, rfl⟩ := List.mem_map.1 ((h.open_iff q).1 hopen)
    cases stack with
    | nil => cases hmem
    | cons top rest =>
      obtain ⟨q, names'⟩ := top
      obtain ⟨i, hi⟩ := List.mem_iff_getElem?.1 hmem
      cases i with
      | zero =>
        cases hi
        exact ⟨_, _, rfl⟩
      | succ i =>
        have hlt := h.lt_of_lt (i := 0) rfl hi (Nat.succ_pos i)
        have htop := (h.open_iff q).2 (.head _)
        exact absurd htop (hinner q htop.lt_length hlt)
  · rintro ⟨names, rest, rfl⟩
    refine ⟨(h.open_iff q).2 (.head _), fun q' _ hq' hopen => ?_⟩
    obtain ⟨⟨q'', names'⟩, hmem, rfl⟩ := List.mem_map.1 ((h.open_iff q').1 hopen)
    obtain ⟨i, hi⟩ := List.mem_iff_getElem?.1 hmem
    cases i with
    | zero =>
      cases hi
      exact Nat.lt_irrefl _ hq'
    | succ i =>
      have hlt := h.lt_of_lt (i := 0) rfl hi (Nat.succ_pos i)
      exact Nat.lt_asymm hlt hq'

omit h in
theorem nil : Stacked [] [] :=
  ⟨rfl, .nil, fun q => ⟨fun h => absurd h.lt_length (Nat.not_lt_zero q), nofun⟩, nofun, nofun⟩

/-- A scope that opens goes on the top of the stack. -/
theorem opens : Stacked (before ++ [.opens]) ((before.length, []) :: stack) := by
  have hkept : ∀ q, Open before q → 0 ≤ excess (before.drop (q + 1) ++ [.opens]) := by
    intro q hq
    have hnonneg := hq.excess_nonneg
    rw [excess_append]
    exact Int.add_nonneg hnonneg (by decide)
  refine ⟨?_, ?_, fun q => ?_, fun q names hq name => ?_, fun i q names hi => ?_⟩
  · rw [List.foldl_append, h.names]
    rfl
  · refine List.pairwise_cons.2 ⟨fun q hq => ?_, h.sorted⟩
    exact ((h.open_iff q).2 hq).lt_length
  · rw [open_append, h.open_iff, List.map_cons, List.mem_cons]
    refine or_congr (and_iff_left rfl) (and_iff_left_of_imp fun hq => hkept q ((h.open_iff q).2 hq))
  · rw [declaredIn_append, or_iff_left (fun hnew => Mark.noConfusion hnew.1)]
    rcases List.mem_cons.1 hq with heq | hq
    · cases heq
      exact iff_of_false (fun hdeclared => Nat.lt_irrefl _ hdeclared.lt_length) List.not_mem_nil
    · exact h.declaredIn_iff q names hq name
  · cases i with
    | zero =>
      cases hi
      rw [List.drop_eq_nil_of_le (by simp)]
      rfl
    | succ i =>
      have hq := h.lt_length (List.mem_of_getElem? hi)
      have hinside := h.inside i q names hi
      rw [List.drop_append_of_le_length hq, excess_append, hinside]
      rfl

/-- A scope that closes is taken from the top of the stack. -/
theorem closes : Stacked (before ++ [.closes]) stack.tail := by
  have hone : excess [.closes] = -1 := by decide
  have hindex : ∀ i q names, stack.tail[i]? = some (q, names) → stack[i + 1]? = some (q, names) := by
    intro i q names hi
    rwa [List.getElem?_tail] at hi
  refine ⟨?_, ?_, fun q => ?_, fun q names hq name => ?_, fun i q names hi => ?_⟩
  · rw [List.foldl_append, h.names, List.map_tail]
    rfl
  · rw [List.map_tail]
    exact h.sorted.tail
  · rw [open_append, or_iff_right (fun hnew => Mark.noConfusion hnew.2), h.open_iff]
    -- A scope stays open if there is another one inside of it.
    constructor
    · rintro ⟨hq, hexcess⟩
      obtain ⟨⟨q, names⟩, hmem, rfl⟩ := List.mem_map.1 hq
      obtain ⟨i, hi⟩ := List.mem_iff_getElem?.1 hmem
      rw [excess_append, h.inside i q names hi, hone] at hexcess
      cases i with
      | zero => exact absurd hexcess (by decide)
      | succ i =>
        rw [← List.getElem?_tail] at hi
        exact List.mem_map_of_mem (List.mem_of_getElem? hi)
    · intro hq
      obtain ⟨⟨q, names⟩, hmem, rfl⟩ := List.mem_map.1 hq
      obtain ⟨i, hi⟩ := List.mem_iff_getElem?.1 hmem
      have hi' := hindex i q names hi
      refine ⟨List.mem_map_of_mem (List.mem_of_getElem? hi'), ?_⟩
      rw [excess_append, h.inside (i + 1) q names hi', hone]
      omega
  · rw [declaredIn_append, or_iff_left (fun hnew => Mark.noConfusion hnew.1)]
    exact h.declaredIn_iff q names (List.mem_of_mem_tail hq) name
  · have hi' := hindex i q names hi
    have hq := h.lt_length (List.mem_of_getElem? hi')
    have hinside := h.inside (i + 1) q names hi'
    rw [List.drop_append_of_le_length hq, excess_append, hinside, hone]
    omega

/-- A reference leaves the stack as it is. -/
theorem refers (usage : Usage) (ref : Reference) : Stacked (before ++ [.refers usage ref]) stack := by
  have hzero : excess [.refers usage ref] = 0 := by simp [excess]
  refine ⟨?_, h.sorted, fun q => ?_, fun q names hq name => ?_, fun i q names hi => ?_⟩
  · rw [List.foldl_append, h.names]
    cases stack <;> rfl
  · rw [open_append_of_excess_eq (m := .refers usage ref) nofun hzero]
    exact h.open_iff q
  · rw [declaredIn_append, or_iff_left (fun hnew => Mark.noConfusion hnew.1)]
    exact h.declaredIn_iff q names hq name
  · rw [List.drop_append_of_le_length (h.lt_length (List.mem_of_getElem? hi)), excess_append, hzero, Int.add_zero]
    exact h.inside i q names hi

omit h in
theorem declares_top (h : Stacked before []) (name : Text) : Stacked (before ++ [.declares name]) [] := by
  refine ⟨?_, .nil, fun q => ?_, nofun, nofun⟩
  · rw [List.foldl_append, h.names]
    rfl
  · rw [open_append_of_excess_eq (m := .declares name) nofun (by simp [excess])]
    exact h.open_iff q

omit h in
/-- A declaration adds its name to the top of the stack. -/
theorem declares (h : Stacked before ((q, names) :: stack)) (name : Text) :
    Stacked (before ++ [.declares name]) ((q, name :: names) :: stack) := by
  have hzero : excess [.declares name] = 0 := by simp [excess]
  -- Only the names in the scope on the top of the stack change.
  have hindex : ∀ (i : Nat) q' names', ((q, name :: names) :: stack)[i]? = some (q', names') →
      ∃ names'', ((q, names) :: stack)[i]? = some (q', names'') := by
    intro i q' names' hi
    cases i with
    | zero =>
      cases hi
      exact ⟨names, rfl⟩
    | succ i => exact ⟨names', hi⟩
  refine ⟨?_, h.sorted, fun q' => ?_, fun q' names' hq' name' => ?_, fun i q' names' hi => ?_⟩
  · rw [List.foldl_append, h.names]
    rfl
  · rw [open_append_of_excess_eq (m := .declares name) nofun hzero]
    exact h.open_iff q'
  · rw [declaredIn_append, h.innermost_iff]
    rcases List.mem_cons.1 hq' with heq | hq'
    · cases heq
      rw [h.declaredIn_iff q names (.head _), List.mem_cons, or_comm, Mark.declares.injEq, eq_comm]
      exact or_congr (and_iff_left ⟨names, stack, rfl⟩) Iff.rfl
    · rw [h.declaredIn_iff q' names' (.tail _ hq')]
      refine or_iff_left ?_
      rintro ⟨-, names'', rest, heq⟩
      cases heq
      obtain ⟨i, hi⟩ := List.mem_iff_getElem?.1 hq'
      exact Nat.lt_irrefl _ (h.lt_of_lt (i := 0) (j := i + 1) rfl hi (Nat.succ_pos i))
  · obtain ⟨names'', hi'⟩ := hindex i q' names' hi
    rw [List.drop_append_of_le_length (h.lt_length (List.mem_of_getElem? hi')), excess_append, hzero, Int.add_zero]
    exact h.inside i q' names'' hi'

/-- The scopes that open after one are those above it on the stack. -/
theorem lt_iff {i j q' : Nat} {names' : List Text} (hi : stack[i]? = some (q, names))
    (hj : stack[j]? = some (q', names')) : q < q' ↔ j < i := by
  refine ⟨fun hlt => ?_, h.lt_of_lt hj hi⟩
  rcases Nat.lt_trichotomy j i with hji | rfl | hij
  · exact hji
  · rw [hi] at hj
    cases hj
    exact absurd hlt (Nat.lt_irrefl q)
  · exact absurd (h.lt_of_lt hi hj hij) (Nat.lt_asymm hlt)

/-- As many scopes were opened after one and are still open as are above it on the stack. -/
theorem scopesAfter_eq {i : Nat} (hi : stack[i]? = some (q, names)) : scopesAfter before q = i := by
  have hperm : ((List.range before.length).filter fun q' => decide (q < q' ∧ Open before q')).Perm
      ((stack.take i).map (·.1)) := by
    refine (List.perm_ext_iff_of_nodup (List.nodup_range.filter _) ?_).2 fun q' => ?_
    · rw [List.map_take]
      exact (h.sorted.imp Nat.ne_of_gt).sublist (List.take_sublist _ _)
    rw [List.mem_filter, List.mem_range, decide_eq_true_iff, List.mem_map]
    constructor
    · rintro ⟨-, hlt, hopen⟩
      obtain ⟨⟨q', names'⟩, hmem, rfl⟩ := List.mem_map.1 ((h.open_iff q').1 hopen)
      obtain ⟨j, hj⟩ := List.mem_iff_getElem?.1 hmem
      have hji := (h.lt_iff hi hj).1 hlt
      exact ⟨(q', names'), List.mem_of_getElem? (by rwa [List.getElem?_take_of_lt hji]), rfl⟩
    · rintro ⟨⟨q', names'⟩, hmem, rfl⟩
      obtain ⟨j, hj⟩ := List.mem_iff_getElem?.1 hmem
      rw [List.getElem?_take, Option.ite_none_right_eq_some] at hj
      obtain ⟨hji, hj⟩ := hj
      have hmem := List.mem_of_getElem? hj
      exact ⟨h.lt_length hmem, (h.lt_iff hi hj).2 hji, (h.open_iff q').2 (List.mem_map_of_mem hmem)⟩
  have hlength := hperm.length_eq
  rw [List.length_map, List.length_take] at hlength
  have hlt := (List.getElem?_eq_some_iff.1 hi).1
  rw [scopesAfter, List.countP_eq_length_filter, hlength]
  omega

end

end Stacked

/-- There is a stack of scopes after any marks. -/
theorem exists_stacked (before : List Mark) : ∃ stack, Stacked before stack := by
  induction before using List.reverseRecOn with
  | nil => exact ⟨[], .nil⟩
  | append_singleton before m ih =>
    obtain ⟨stack, h⟩ := ih
    cases m with
    | opens => exact ⟨_, h.opens⟩
    | closes => exact ⟨_, h.closes⟩
    | refers usage ref => exact ⟨_, h.refers usage ref⟩
    | declares name =>
      cases stack with
      | nil => exact ⟨_, h.declares_top name⟩
      | cons top outer => exact ⟨_, h.declares name⟩

end Mark

/-- The lexical distance is the index of the first scope on the stack that has the name. -/
theorem lexical_iff_findIdx? (before : List Mark) (name : Text) (d : Nat) :
    Lexical before name d ↔ (before.foldl Mark.step []).findIdx? (·.contains name) = some d := by
  obtain ⟨stack, h⟩ := Mark.exists_stacked before
  rw [h.names, List.findIdx?_map, List.findIdx?_eq_some_iff_getElem]
  constructor
  · rintro ⟨q, -, hopen, hdeclared, hnearest, rfl⟩
    obtain ⟨⟨q, names⟩, hmem, rfl⟩ := List.mem_map.1 ((h.open_iff q).1 hopen)
    obtain ⟨i, hi⟩ := List.mem_iff_getElem?.1 hmem
    obtain ⟨hlt, hget⟩ := List.getElem?_eq_some_iff.1 hi
    rw [h.scopesAfter_eq hi]
    refine ⟨hlt, ?_, fun j hj hname => ?_⟩
    · rw [hget]
      exact List.contains_iff_mem.2 ((h.declaredIn_iff q names hmem name).1 hdeclared)
    · have hj' : stack[j]? = some (stack[j].1, stack[j].2) := List.getElem?_eq_getElem (by omega)
      have hmem' := List.mem_of_getElem? hj'
      have hdeclared' := (h.declaredIn_iff _ _ hmem' name).2 (List.contains_iff_mem.1 hname)
      exact hnearest _ hdeclared'.lt_length (h.lt_of_lt hj' hi hj) ((h.open_iff _).2 (List.mem_map_of_mem hmem'))
        hdeclared'
  · rintro ⟨hlt, hname, hnone⟩
    have hd : stack[d]? = some (stack[d].1, stack[d].2) := List.getElem?_eq_getElem hlt
    have hmem := List.mem_of_getElem? hd
    have hdeclared := (h.declaredIn_iff _ _ hmem name).2 (List.contains_iff_mem.1 hname)
    refine ⟨stack[d].1, hdeclared.lt_length, (h.open_iff _).2 (List.mem_map_of_mem hmem), hdeclared, ?_,
      h.scopesAfter_eq hd⟩
    intro q' _ hq' hopen hdeclared'
    obtain ⟨⟨q', names'⟩, hmem', rfl⟩ := List.mem_map.1 ((h.open_iff q').1 hopen)
    obtain ⟨j, hj⟩ := List.mem_iff_getElem?.1 hmem'
    have hjd := (h.lt_iff hd hj).1 hq'
    have hget := (List.getElem?_eq_some_iff.1 hj).2
    refine hnone j hjd (List.contains_iff_mem.2 ?_)
    rw [hget]
    exact (h.declaredIn_iff q' names' hmem' name).1 hdeclared'

end Lox
