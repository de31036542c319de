import Lox.Proofs.BoundMethods
import Lox.Proofs.DirectLoop
import Lox.Proofs.Restoration
import Lox.Proofs.ThinnedRun

/-!
# Loops with a header

The tree of a loop with a header does what the loop means. While a machine executes the tree, the parts of the loop
run above tasks that say what comes next (`ForLoop.stack`); `ForLoop.Stage` relates such a machine to the loop that
is run directly, at the same part. One step of the loop is one step of the machine, or the few steps that lead from
part to part, and these make and leave the scopes of the blocks (`ForLoop.Stage.step`).

`Session.run_forLoop` states for all loops that a session comes to: the tree ends if and only if the loop
that is run directly does, with the same outcome, the same output and the same values in all variables and fields,
and if they do not end they print the same.
-/

namespace Lox

namespace Machine

/-- A machine comes to a state in a number of steps, at work above given tasks until then. -/
structure Works (limits : Limits) (below : List Task) (k : Nat) (m m' : Machine) : Prop where
  busy : ∀ i < k, (m.run limits i).Busy below
  reaches : m.run limits k = m'

namespace Works

variable {limits : Limits} {below : List Task} {k j : Nat} {m m' m'' : Machine}

theorem refl (m : Machine) : Works limits below 0 m m := ⟨fun _ h => absurd h (Nat.not_lt_zero _), rfl⟩

/-- Two stretches of work make one. -/
theorem trans (h : Works limits below k m m') (h' : Works limits below j m' m'') :
    Works limits below (k + j) m m'' := by
  refine ⟨fun i hi => ?_, ?_⟩
  · rcases Nat.lt_or_ge i k with hlt | hge
    · exact h.busy i hlt
    · obtain ⟨i', rfl⟩ := Nat.exists_eq_add_of_le hge
      rw [run_add, h.reaches]
      exact h'.busy i' (by omega)
  · rw [run_add, h.reaches, h'.reaches]

theorem one (h : m.Busy below) : Works limits below 1 m (m.step limits) := by
  refine ⟨fun i hi => ?_, ?_⟩
  · obtain rfl : i = 0 := by omega
    exact h
  · rw [run_eq_iterate]
    rfl

theorem cons (hbusy : m.Busy below) (h : Works limits below k (m.step limits) m') :
    Works limits below (k + 1) m m' := by
  rw [Nat.add_comm]
  exact (one hbusy).trans h

end Works

theorem busy_cons (c : Control) (t : Task) (own below : List Task) (s : Store) :
    Busy below ⟨c, t :: (own ++ below), s⟩ :=
  ⟨t :: own, rfl, nofun⟩

theorem busy_append (c : Control) {own : List Task} (hown : own ≠ []) (below : List Task) (s : Store) :
    Busy below ⟨c, own ++ below, s⟩ := by
  obtain ⟨t, rest, rfl⟩ := List.exists_cons_of_ne_nil hown
  exact busy_cons c t rest below s

/-- Tasks that an outcome leaves behind one by one. -/
theorem works_drop {limits : Limits} {c : Control} (below : List Task) (own : List Task) (s : Store)
    (hdrop : ∀ t ∈ own, ∀ tasks s, Machine.step limits ⟨c, t :: tasks, s⟩ =
      ⟨c, tasks, { s with scope := t.after s.scope }⟩) :
    Works limits below own.length ⟨c, own ++ below, s⟩
      ⟨c, below, { s with scope := own.foldl (fun e t => t.after e) s.scope }⟩ := by
  induction own generalizing s with
  | nil => exact .refl _
  | cons t own ih =>
    obtain ⟨ht, hown⟩ := List.forall_mem_cons.1 hdrop
    have hrest := ih { s with scope := t.after s.scope } hown
    rw [← ht] at hrest
    exact .cons (busy_cons c t own below s) hrest

variable {T : Thinning} {g : Shadow} {base : ScopeId}

/-- Machines that correspond have an outcome without a task for it at the same time, and the same one. -/
theorem Thins.idle {m m' : Machine} (h : m.Thins T g base m') (hidle : m.Idle) :
    ∃ c s s', m = ⟨c, [], s⟩ ∧ m' = ⟨c, [], s'⟩ ∧ s.scope = base ∧ s.Thins T g s' ∧
      ((∃ v, c = .deliver v) ∨ (∃ x, c = .complete x) ∨ ∃ f, c = .unwind f) := by
  obtain ⟨control', tasks', s'⟩ := m'
  obtain ⟨hs, -, hcontrol, htasks⟩ := h
  cases hidle with
  | deliver v s =>
    obtain ⟨⟩ := htasks nofun
    exact ⟨_, s, s', rfl, by rw [show control' = _ from hcontrol]; rfl, rfl, hs, .inl ⟨v, rfl⟩⟩
  | complete x s =>
    obtain ⟨⟩ := htasks nofun
    exact ⟨_, s, s', rfl, by rw [show control' = _ from hcontrol]; rfl, rfl, hs, .inr (.inl ⟨x, rfl⟩)⟩
  | unwind f s =>
    obtain ⟨⟩ := htasks nofun
    exact ⟨_, s, s', rfl, by rw [show control' = _ from hcontrol]; rfl, rfl, hs, .inr (.inr ⟨f, rfl⟩)⟩

/-- A machine that is at work is so without the scopes of the blocks. -/
theorem Thins.not_idle {m m' : Machine} (h : m.Thins T g base m') (hidle : ¬ m.Idle)
    (hfault : ∀ f, m.control ≠ .fault f) : ¬ m'.Idle := by
  obtain ⟨control, tasks, s⟩ := m
  obtain ⟨hs, -, hcontrol, htasks⟩ := h
  have htasks := htasks hfault
  intro hidle'
  cases hidle' with
  | deliver v s' =>
    cases htasks
    cases control with
    | deliver v' => exact hidle (.deliver v' s)
    | _ => cases hcontrol
  | complete x s' =>
    cases htasks
    cases control with
    | complete x' => exact hidle (.complete x' s)
    | _ => cases hcontrol
  | unwind f s' =>
    cases htasks
    cases control with
    | unwind f' => exact hidle (.unwind f' s)
    | _ => cases hcontrol

end Machine

theorem Task.AllThin.base_lt {T : Thinning} {g : Shadow} {n : Nat} {base e : ScopeId} {tasks tasks' : List Task}
    (h : Task.AllThin T g n base e tasks tasks') : base < n := by
  induction h with
  | nil hlt => exact hlt
  | cons _ _ _ ih => exact ih

namespace ForLoop

/-- What is left of the tree of a loop after a round. -/
def back (l : ForLoop) (outer loop : ScopeId) : List Task :=
  [.leaveScope loop, .loopBody l.plainCondition (.block l.round), .sequence [], .leaveScope outer]

/-- The tasks of the tree of a loop, made in a scope, that wait for a part of it. -/
def stack (l : ForLoop) (outer loop : ScopeId) : Part → List Task
  | .initializer => [.sequence [l.plainLoop], .leaveScope outer]
  | .condition => [.loopTest l.plainCondition (.block l.round), .sequence [], .leaveScope outer]
  | .body => .sequence (l.increment.map Stmt.expression).toList :: l.back outer loop
  | .increment => .discard :: .sequence [] :: l.back outer loop

/-- The scope in which the tree runs a part: that of the loop, or that of a block. -/
def Part.RunsIn (T : Thinning) (g : Shadow) (base : ScopeId) : Part → Prop
  | .initializer | .condition => base = T.loop
  | .body | .increment => g.place base = some 0

/-- A machine that executes the tree of a loop above given tasks is where the loop that is run directly is. -/
inductive Stage (l : ForLoop) (T : Thinning) (outer : ScopeId) (below : List Task) : Machine → State → Prop where
  | running {part : Part} {g : Shadow} {base : ScopeId} {m m' : Machine} (hbase : part.RunsIn T g base)
    (hthins : m.Thins T g base m') :
    Stage l T outer below (m.under (l.stack outer T.loop part ++ below)) (.running part m')
  | ended {g : Shadow} {c : Control} {s s' : Store} (houtcome : Machine.Idle ⟨c, [], s⟩) (hscope : s.scope = outer)
    (hthins : s.Thins T g s') : Stage l T outer below ⟨c, below, s⟩ (.ended c s')

variable {l : ForLoop} {T : Thinning} {g : Shadow} {outer : ScopeId} {s s' : Store}

/-- While a part of the loop runs, the machine is at work above the loop. -/
theorem Stage.busy {below : List Task} {left : Machine} {part : Part} {m' : Machine}
    (h : Stage l T outer below left (.running part m')) : left.Busy below := by
  cases h with
  | @running _ _ _ m _ _ _ =>
    have hown : m.tasks ++ l.stack outer T.loop part ≠ [] := by
      intro hnil
      have hstack := (List.append_eq_nil_iff.1 hnil).2
      cases part <;> cases hstack
    have happend := Machine.busy_append m.control hown below m.store
    rw [List.append_assoc] at happend
    exact happend

/-- A loop that ends leaves the tasks that have waited for its part. -/
theorem ends_drop {limits : Limits} (below : List Task) {part : Part} {c : Control} (houter : outer < T.loop)
    (hdrop : ∀ t ∈ l.stack outer T.loop part, ∀ tasks s, Machine.step limits ⟨c, t :: tasks, s⟩ =
      ⟨c, tasks, { s with scope := t.after s.scope }⟩)
    (houtcome : ∀ s, Machine.Idle ⟨c, [], s⟩) (hs : s.Thins T g s') :
    ∃ k left, Machine.Works limits below (k + 1) ⟨c, l.stack outer T.loop part ++ below, s⟩ left ∧
      Stage l T outer below left (.ended c { s' with scope := outer }) := by
  have hworks := Machine.works_drop below (l.stack outer T.loop part) s hdrop
  have hlast : (l.stack outer T.loop part).foldl (fun e t => t.after e) s.scope = outer := by
    cases part <;> rfl
  have hlength : ∃ k, (l.stack outer T.loop part).length = k + 1 := by
    cases part <;> exact ⟨_, rfl⟩
  obtain ⟨k, hk⟩ := hlength
  rw [hlast, hk] at hworks
  have hlt : outer < s.made := Nat.lt_trans houter hs.heap.forest.loop_lt
  have hsame := (hs.heap.forest.old outer (Nat.le_of_lt houter)).2
  exact ⟨k, _, hworks, .ended (houtcome _) rfl (hs.withScope hlt hsame.symm)⟩

/-- The scope of the loop is current in both stores when that of the block is left. -/
theorem thins_loop (hs : s.Thins T g s') (hscope : g.scope s.scope = T.loop) :
    Store.Thins T g { s with scope := T.loop } s' := by
  have hloop := hs.withScope hs.heap.forest.loop_lt (hs.heap.forest.old T.loop (Nat.le_refl _)).2.symm
  have hsame : s'.scope = T.loop := hs.scope.trans hscope
  rw [← hsame] at hloop
  exact hsame ▸ hloop

section

variable (limits : Limits) (outer : ScopeId) (below : List Task)
  (hinside : T.inside = (Phrase.stmts l.round).sites) (hs : s.Thins T g s') (hscope : s.scope = T.loop)

include hinside hs hscope

/-- The block of a round is entered, and the loop that is run directly begins with its body. -/
theorem stage_again :
    ∃ left, Machine.Works limits below 2
        ⟨.execute (.block l.round), .loopBody l.plainCondition (.block l.round) :: .sequence [] :: .leaveScope outer ::
          below, s⟩ left ∧
      Stage l T outer below left ((l.moved T.off).again s') := by
  have hopened := hs.openBlock hscope
  have hplace : (Forest.Thins.begun T.loop g s.heap.forest).place s.made = some 0 := g.place_set _ _ _
  have hbody : (Control.execute l.body).Stands T (some 0) := by
    refine ⟨fun _ p hp => ?_, fun _ => l.quiet⟩
    rw [hinside]
    exact List.mem_map_of_mem (List.mem_append_left _ hp)
  have hthins : Machine.Thins T (Forest.Thins.begun T.loop g s.heap.forest) s.made
      ⟨.execute l.body, [], s.openScope⟩ ⟨.execute (l.body.moved T.off), [], s'⟩ := by
    refine ⟨hopened, hplace ▸ hbody, ?_, fun _ => .nil hopened.scope_lt⟩
    change Control.execute (l.body.moved T.off) = .execute (l.body.moved (T.shift _))
    rw [show (Forest.Thins.begun T.loop g s.heap.forest).place s.openScope.scope = some 0 from hplace]
    rfl
  have hbase : Part.body.RunsIn T (Forest.Thins.begun T.loop g s.heap.forest) s.made := hplace
  refine ⟨_, ?_, .running hbase hthins⟩
  refine .cons (Machine.busy_cons _ _ [.sequence [], .leaveScope outer] below _) (.cons ?_ ?_)
  · exact Machine.busy_cons _ _ (.leaveScope s.scope :: .loopBody _ _ :: [.sequence [], .leaveScope outer]) below _
  · rw [← hscope]
    exact .refl _

/-- The condition is evaluated, or without one the next round begins. -/
theorem stage_test :
    ∃ k left, Machine.Works limits below k
        ⟨.evaluate l.plainCondition, l.stack outer T.loop .condition ++ below, s⟩ left ∧
      Stage l T outer below left ((l.moved T.off).test s') := by
  cases hcondition : l.condition with
  | some e =>
    have hplace : g.place s.scope = none := by
      rw [hscope]
      exact (hs.heap.forest.old T.loop (Nat.le_refl _)).1
    have hthins : Machine.Thins T g T.loop ⟨.evaluate e, [], s⟩ ⟨.evaluate e, [], s'⟩ := by
      refine ⟨hs, ?_, ?_, fun _ => ?_⟩
      · change Control.Stands T (g.place s.scope) _
        rw [hplace]
        exact ⟨Thinning.covers_none _, nofun⟩
      · change Control.evaluate e = .evaluate (e.moved (T.shift (g.place s.scope)))
        rw [hplace]
        exact congrArg Control.evaluate e.moved_zero.symm
      · change Task.AllThin T g s.made T.loop s.scope [] []
        rw [hscope]
        exact .nil hs.heap.forest.loop_lt
    have hplain : l.plainCondition = e := by rw [plainCondition, hcondition]; rfl
    have htest : (l.moved T.off).test s' = .running .condition ⟨.evaluate e, [], s'⟩ := by
      rw [test, show (l.moved T.off).condition = some e from hcondition]
    have hbase : Part.condition.RunsIn T g T.loop := rfl
    rw [htest, hplain]
    exact ⟨0, _, .refl _, .running hbase hthins⟩
  | none =>
    obtain ⟨left, hworks, hstage⟩ := stage_again limits outer below hinside hs hscope
    have hplain : l.plainCondition = .literal l.site (.bool true) := by rw [plainCondition, hcondition]; rfl
    have htest : (l.moved T.off).test s' = (l.moved T.off).again s' := by
      rw [test, show (l.moved T.off).condition = none from hcondition]
    rw [htest]
    -- The constant condition is evaluated and found to be truthy.
    refine ⟨2 + 1 + 1, left, ?_, hstage⟩
    refine .cons (Machine.busy_cons _ _ [.sequence [], .leaveScope outer] below s) ?_
    have hdeliver : Machine.step limits ⟨.evaluate l.plainCondition, l.stack outer T.loop .condition ++ below, s⟩ =
        ⟨.deliver (.bool true), l.stack outer T.loop .condition ++ below, s⟩ := by
      rw [hplain]
      rfl
    rw [hdeliver]
    exact .cons (Machine.busy_cons _ _ [.sequence [], .leaveScope outer] below s) hworks

/-- The plain loop of the tree begins. -/
theorem stage_plainLoop :
    ∃ k left, Machine.Works limits below (k + 1)
        ⟨.execute l.plainLoop, .sequence [] :: .leaveScope outer :: below, s⟩ left ∧
      Stage l T outer below left ((l.moved T.off).test s') := by
  obtain ⟨k, left, hworks, hstage⟩ := stage_test limits outer below hinside hs hscope
  exact ⟨k, left, .cons (Machine.busy_cons _ _ [.leaveScope outer] below s) hworks, hstage⟩

end

/-- A round has ended normally: its scope is left, and the condition is tested again. -/
theorem stage_back (limits : Limits) (outer : ScopeId) (below : List Task)
    (hinside : T.inside = (Phrase.stmts l.round).sites) (hs : s.Thins T g s')
    (hscope : g.scope s.scope = T.loop) :
    ∃ k left, Machine.Works limits below (k + 1)
        ⟨.complete .normal, .sequence [] :: l.back outer T.loop ++ below, s⟩ left ∧
      Stage l T outer below left ((l.moved T.off).test s') := by
  obtain ⟨k, left, hworks, hstage⟩ := stage_test limits outer below hinside (thins_loop hs hscope) rfl
  refine ⟨k + 1 + 1, left, ?_, hstage⟩
  refine .cons (Machine.busy_cons _ _ (l.back outer T.loop) below s) (.cons ?_ (.cons ?_ hworks))
  · exact Machine.busy_cons _ _ [.loopBody _ _, .sequence [], .leaveScope outer] below s
  · exact Machine.busy_cons _ _ [.sequence [], .leaveScope outer] below _

/-! ## Steps -/

/-- A return, or a failure, leaves all tasks of the tree behind. -/
theorem drops_returned (l : ForLoop) (limits : Limits) (outer loop : ScopeId) {part : Part}
    (hpart : part = .initializer ∨ part = .body) :
    ∀ t ∈ l.stack outer loop part, ∀ tasks s, Machine.step limits ⟨.complete .returned, t :: tasks, s⟩ =
      ⟨.complete .returned, tasks, { s with scope := t.after s.scope }⟩ := by
  have hsequence : ∀ (rest : List Stmt) (tasks : List Task) (s : Store),
      Machine.step limits ⟨.complete .returned, .sequence rest :: tasks, s⟩ = ⟨.complete .returned, tasks, s⟩ := by
    intro rest tasks s
    cases rest <;> rfl
  rcases hpart with rfl | rfl
  · exact List.forall_mem_cons.2 ⟨hsequence _, List.forall_mem_singleton.2 fun _ _ => rfl⟩
  · refine List.forall_mem_cons.2 ⟨hsequence _, List.forall_mem_cons.2 ⟨fun _ _ => rfl, ?_⟩⟩
    refine List.forall_mem_cons.2 ⟨fun _ _ => rfl, List.forall_mem_cons.2 ⟨hsequence _, ?_⟩⟩
    exact List.forall_mem_singleton.2 fun _ _ => rfl

theorem drops_unwind (l : ForLoop) (limits : Limits) (outer loop : ScopeId) (part : Part) (f : Failure) :
    ∀ t ∈ l.stack outer loop part, ∀ tasks s, Machine.step limits ⟨.unwind f, t :: tasks, s⟩ =
      ⟨.unwind f, tasks, { s with scope := t.after s.scope }⟩ := by
  intro t ht tasks s
  have hkind : (∃ rest, t = .sequence rest) ∨ (∃ e, t = .leaveScope e) ∨ (∃ e b, t = .loopBody e b) ∨
      (∃ e b, t = .loopTest e b) ∨ t = .discard := by
    cases part <;> simp only [stack, back, List.mem_cons, List.not_mem_nil, or_false] at ht <;> grind
  rcases hkind with ⟨rest, rfl⟩ | ⟨e, rfl⟩ | ⟨e, b, rfl⟩ | ⟨e, b, rfl⟩ | rfl <;> rfl

/-- The loop that is run directly goes on to its next part, and the machine that executes its tree comes to the
same part. -/
theorem stage_next (limits : Limits) {walk : Walk} (hwalk : walk.Lawful T.recorded)
    (hinside : T.inside = (Phrase.stmts l.round).sites) (houter : outer < T.loop) {part : Part} {base : ScopeId}
    {below : List Task} (hbase : part.RunsIn T g base) {c : Control} (hs : s.Thins T g s') (hscope : s.scope = base)
    (houtcome : (∃ v, c = .deliver v) ∨ (∃ x, c = .complete x) ∨ ∃ f, c = .unwind f)
    (hsound : Machine.Sound walk T.recorded ⟨c, l.stack outer T.loop part ++ below, s⟩) :
    ∃ k left, Machine.Works limits below (k + 1) ⟨c, l.stack outer T.loop part ++ below, s⟩ left ∧
      Stage l T outer below left ((l.moved T.off).next outer part c s') := by
  -- A task that waits for something else would make the machine stand still, which a sound one does not.
  have hfault : ∀ f, (Machine.step limits ⟨c, l.stack outer T.loop part ++ below, s⟩).control ≠ .fault f := by
    intro f hf
    have hstep := (hsound.step hwalk limits).control
    rw [hf] at hstep
    exact hstep
  subst hscope
  rcases houtcome with ⟨v, rfl⟩ | ⟨x, rfl⟩ | ⟨f, rfl⟩
  · cases part with
    | initializer | body => exact absurd rfl (hfault _)
    | condition =>
      by_cases hv : v.truthy
      · obtain ⟨left, hworks, hstage⟩ := stage_again limits outer below hinside hs hbase
        have hstep : Machine.step limits ⟨.deliver v, l.stack outer T.loop .condition ++ below, s⟩ =
            ⟨.execute (.block l.round), .loopBody l.plainCondition (.block l.round) :: .sequence [] ::
              .leaveScope outer :: below, s⟩ := if_pos hv
        have hnext : (l.moved T.off).next outer .condition (.deliver v) s' = (l.moved T.off).again s' := if_pos hv
        rw [← hstep] at hworks
        rw [hnext]
        exact ⟨2, left, .cons (Machine.busy_cons _ _ [.sequence [], .leaveScope outer] below s) hworks, hstage⟩
      · have hstep : Machine.step limits ⟨.deliver v, l.stack outer T.loop .condition ++ below, s⟩ =
            ⟨.complete .normal, .sequence [] :: .leaveScope outer :: below, s⟩ := if_neg hv
        have hnext : (l.moved T.off).next outer .condition (.deliver v) s' =
            .ended (.complete .normal) { s' with scope := outer } := if_neg hv
        have hsame := (hs.heap.forest.old outer (Nat.le_of_lt houter)).2
        have hlt : outer < s.made := Nat.lt_trans houter hs.heap.forest.loop_lt
        rw [hnext]
        refine ⟨2, _, .cons (Machine.busy_cons _ _ [.sequence [], .leaveScope outer] below s) ?_,
          .ended (.complete .normal _) rfl (hs.withScope hlt hsame.symm)⟩
        rw [hstep]
        exact .cons (Machine.busy_cons _ _ [.leaveScope outer] below s)
          (.cons (Machine.busy_cons _ _ [] below s) (.refl _))
    | increment =>
      have hloop : g.scope s.scope = T.loop := (hs.heap.forest.block s.scope hs.scope_lt hbase).2
      obtain ⟨k, left, hworks, hstage⟩ := stage_back limits outer below hinside hs hloop
      exact ⟨k + 1, left, .cons (Machine.busy_cons _ _ (.sequence [] :: l.back outer T.loop) below s) hworks, hstage⟩
  · cases part with
    | condition | increment => exact absurd rfl (hfault _)
    | initializer =>
      cases x with
      | returned =>
        exact ends_drop below houter (l.drops_returned limits outer T.loop (.inl rfl)) (fun s => .complete _ s) hs
      | normal =>
        obtain ⟨k, left, hworks, hstage⟩ := stage_plainLoop limits outer below hinside hs hbase
        exact ⟨k + 1, left, .cons (Machine.busy_cons _ _ [.leaveScope outer] below s) hworks, hstage⟩
    | body =>
      cases x with
      | returned =>
        exact ends_drop below houter (l.drops_returned limits outer T.loop (.inr rfl)) (fun s => .complete _ s) hs
      | normal =>
        have hloop : g.scope s.scope = T.loop := (hs.heap.forest.block s.scope hs.scope_lt hbase).2
        cases hincrement : l.increment with
        | none =>
          obtain ⟨k, left, hworks, hstage⟩ := stage_back limits outer below hinside hs hloop
          have hnext : (l.moved T.off).next outer .body (.complete .normal) s' = (l.moved T.off).test s' := by
            rw [next, show (l.moved T.off).increment = none from congrArg (Option.map _) hincrement]
          have hstack : l.stack outer T.loop .body = .sequence [] :: l.back outer T.loop := by
            rw [stack, hincrement]
            rfl
          rw [hnext, hstack]
          exact ⟨k, left, hworks, hstage⟩
        | some e =>
          have hnext : (l.moved T.off).next outer .body (.complete .normal) s' =
              .running .increment ⟨.evaluate (e.moved T.off), [], s'⟩ := by
            rw [next, show (l.moved T.off).increment = some (e.moved T.off) from congrArg (Option.map _) hincrement]
          have hstack : l.stack outer T.loop .body = .sequence [.expression e] :: l.back outer T.loop := by
            rw [stack, hincrement]
            rfl
          have hcovers : T.Covers (some 0) e.references := by
            intro _ p hp
            rw [hinside]
            refine List.mem_map_of_mem (List.mem_append_right _ ?_)
            rw [hincrement]
            exact List.mem_append_left _ hp
          have hzero : g.place s.scope = some 0 := hbase
          have hthins : Machine.Thins T g s.scope ⟨.evaluate e, [], s⟩ ⟨.evaluate (e.moved T.off), [], s'⟩ := by
            refine ⟨hs, ?_, ?_, fun _ => .nil hs.scope_lt⟩
            · exact hzero ▸ ⟨hcovers, fun _ => trivial⟩
            · change Control.evaluate (e.moved T.off) = .evaluate (e.moved (T.shift (g.place s.scope)))
              rw [hzero]
              rfl
          have hbase' : Part.increment.RunsIn T g s.scope := hbase
          rw [hnext, hstack]
          refine ⟨1, _, ?_, .running hbase' hthins⟩
          exact .cons (Machine.busy_cons _ _ (l.back outer T.loop) below s)
            (.cons (Machine.busy_cons _ _ (l.back outer T.loop) below s) (.refl _))
  · have hnext : (l.moved T.off).next outer part (.unwind f) s' = .ended (.unwind f) { s' with scope := outer } := by
      cases part <;> rfl
    rw [hnext]
    exact ends_drop below houter (l.drops_unwind limits outer T.loop part f) (fun s => .unwind f s) hs

/-- One step of the loop that is run directly is one or more steps of the machine that executes its tree. -/
theorem Stage.step (limits : Limits) {walk : Walk} (hT : T.Lawful walk) (hwalk : walk.Lawful T.recorded)
    (hinside : T.inside = (Phrase.stmts l.round).sites) (houter : outer < T.loop) {below : List Task}
    {left : Machine} {part : Part} {m' : Machine} (h : Stage l T outer below left (.running part m'))
    (hsound : left.Sound walk T.recorded) :
    ∃ k left', Machine.Works limits below (k + 1) left left' ∧
      Stage l T outer below left' ((l.moved T.off).step limits outer (.running part m')) := by
  have hbusy := h.busy
  cases h with
  | @running _ g base m _ hbase hthins =>
    by_cases hidle : m.Idle
    · obtain ⟨c, s, s', rfl, rfl, hscope, hs, houtcome⟩ := hthins.idle hidle
      have hidle' : Machine.Idle ⟨c, [], s'⟩ := by
        rcases houtcome with ⟨v, rfl⟩ | ⟨x, rfl⟩ | ⟨f, rfl⟩
        · exact .deliver v s'
        · exact .complete x s'
        · exact .unwind f s'
      have hstep : (l.moved T.off).step limits outer (.running part ⟨c, [], s'⟩) =
          (l.moved T.off).next outer part c s' := if_pos hidle'
      rw [hstep]
      exact stage_next limits hwalk hinside houter hbase hs hscope houtcome hsound
    · have hfault : ∀ f, m.control ≠ .fault f := by
        intro f hf
        have hcontrol : Control.Sound walk T.recorded _ _ m.control := hsound.control
        rw [hf] at hcontrol
        exact hcontrol
      have hstep : (l.moved T.off).step limits outer (.running part m') = .running part (m'.step limits) :=
        if_neg (hthins.not_idle hidle hfault)
      obtain ⟨g', hext, hle, hthins'⟩ := hthins.step hT hwalk limits hsound hidle
      have hbase' : part.RunsIn T g' base := by
        have hlt : base < m.store.made := (hthins.tasks hfault).base_lt
        cases part with
        | initializer | condition => exact hbase
        | body | increment => exact (hext base hlt).1.trans hbase
      rw [hstep]
      refine ⟨0, _, .one hbusy, ?_⟩
      rw [Machine.step_under limits hidle]
      exact .running hbase' hthins'

/-! ## Runs -/

/-- A heap in which all scopes and functions refer to scopes of the heap corresponds to itself before the first
block is entered. -/
theorem thins_self {h : Heap} (hloop : T.loop < h.forest.scopes.size) (hdepth : h.forest.Depth T.loop T.depth)
    (henclosing : ∀ e outer, h.forest.enclosing? e = some outer → outer < h.forest.scopes.size)
    (hfunctions : ∀ (f : FunctionId) c, h.functions[f]? = some c → c.scope < h.forest.scopes.size) :
    h.Thins T ⟨fun _ => none, id⟩ h := by
  have hthin : Closure.thin T ⟨fun _ => none, id⟩ = id := by
    funext c
    exact congrArg (fun r => Closure.mk r c.scope c.initializer) c.routine.moved_zero
  refine ⟨⟨hloop, hdepth, fun _ _ => ⟨rfl, rfl⟩, nofun, fun e s hs _ => ?_, henclosing, fun _ _ _ _ _ _ h => h⟩,
    ⟨?_, rfl, rfl⟩, fun f c hc => ⟨hfunctions f c hc, nofun, Thinning.covers_none _⟩⟩
  · obtain ⟨enclosing, names⟩ := s
    cases enclosing <;> exact ⟨hs, rfl⟩
  · rw [hthin, Array.map_id]

/-- The scope of the loop is opened, and its first part begins. -/
theorem stage_begin (limits : Limits) (below : List Task) (hinside : T.inside = (Phrase.stmts l.round).sites)
    (hs : s.openScope.Thins T ⟨fun _ => none, id⟩ s'.openScope) (hloop : s.openScope.scope = T.loop) :
    ∃ k left, Machine.Works limits below (k + 1) ⟨.execute l.tree, below, s⟩ left ∧
      Stage l T s.scope below left ((l.moved T.off).begin s') := by
  have hbusy : Machine.Busy below ⟨.execute l.tree, below, s⟩ := ⟨[], rfl, nofun⟩
  cases hinit : l.initializer with
  | none =>
    obtain ⟨k, left, hworks, hstage⟩ := stage_plainLoop limits s.scope below hinside hs hloop
    have hbegin : (l.moved T.off).begin s' = (l.moved T.off).test s'.openScope := by
      rw [begin, show (l.moved T.off).initializer = none from hinit]
    rw [hbegin]
    refine ⟨k + 1 + 1, left, .cons hbusy ?_, hstage⟩
    rw [tree_eq, hinit]
    exact .cons (Machine.busy_cons _ _ [.leaveScope s.scope] below _) hworks
  | some stmt =>
    have hthins : Machine.Thins T ⟨fun _ => none, id⟩ T.loop ⟨.execute stmt, [], s.openScope⟩
        ⟨.execute stmt, [], s'.openScope⟩ := by
      refine ⟨hs, ⟨Thinning.covers_none _, nofun⟩, congrArg Control.execute stmt.moved_zero.symm, fun _ => ?_⟩
      change Task.AllThin T _ s.openScope.made T.loop s.openScope.scope [] []
      rw [hloop]
      exact .nil hs.heap.forest.loop_lt
    have hbegin : (l.moved T.off).begin s' = .running .initializer ⟨.execute stmt, [], s'.openScope⟩ := by
      rw [begin, show (l.moved T.off).initializer = some stmt from hinit]
    have hbase : Part.initializer.RunsIn T ⟨fun _ => none, id⟩ T.loop := rfl
    rw [hbegin]
    refine ⟨1, _, .cons hbusy ?_, .running hbase hthins⟩
    rw [tree_eq, hinit]
    exact .cons (Machine.busy_cons _ _ [.leaveScope s.scope] below _) (.refl _)

/-- All steps of the loop that is run directly are steps of the machine that executes its tree, and as long as the
loop has not ended there are at least as many of these. -/
theorem stage_run (limits : Limits) {walk : Walk} (hT : T.Lawful walk) (hwalk : walk.Lawful T.recorded)
    (hinside : T.inside = (Phrase.stmts l.round).sites) (houter : s.scope < T.loop) {below : List Task}
    (hs : s.openScope.Thins T ⟨fun _ => none, id⟩ s'.openScope) (hloop : s.openScope.scope = T.loop)
    (hscope : s'.scope = s.scope) (hsound : Machine.Sound walk T.recorded ⟨.execute l.tree, below, s⟩) (i : Nat) :
    ∃ k left, Machine.Works limits below k ⟨.execute l.tree, below, s⟩ left ∧
      Stage l T s.scope below left ((l.moved T.off).run limits s' i) ∧
      (i ≤ k ∨ ∃ c s₁, (l.moved T.off).run limits s' i = .ended c s₁) := by
  induction i with
  | zero =>
    obtain ⟨k, left, hworks, hstage⟩ := stage_begin limits below hinside hs hloop
    exact ⟨k + 1, left, hworks, hstage, .inl (Nat.zero_le _)⟩
  | succ i ih =>
    obtain ⟨k, left, hworks, hstage, hle⟩ := ih
    rw [run_succ, hscope]
    cases hstate : (l.moved T.off).run limits s' i with
    | ended c s₁ =>
      rw [hstate] at hstage
      exact ⟨k, left, hworks, hstage, .inr ⟨c, s₁, rfl⟩⟩
    | running part m' =>
      rw [hstate] at hstage hle
      have hleft : left.Sound walk T.recorded := hworks.reaches ▸ hsound.run hwalk limits k
      obtain ⟨j, left', hworks', hstage'⟩ := hstage.step limits hT hwalk hinside houter hleft
      refine ⟨k + (j + 1), left', hworks.trans hworks', hstage', .inl ?_⟩
      rcases hle with hle | ⟨c, s₁, hended⟩
      · omega
      · cases hended

/-- Two stores agree, the second one without the scopes of the blocks of a loop: both have printed and logged the
same, are in the same calls with the same value on its way out, and hold the same values in all variables of the
scope of the loop and of all older scopes and in all fields. -/
structure Agrees (T : Thinning) (s s' : Store) : Prop where
  printed : s'.printed = s.printed
  log : s'.log = s.log
  frames : s'.frames = s.frames
  returning : s'.returning = s.returning
  readings : s'.readings = s.readings
  slots : ∀ e ≤ T.loop, ∀ name, s'.heap.forest.slot? e name = s.heap.forest.slot? e name
  instances : s'.heap.instances = s.heap.instances
  classes : s'.heap.classes = s.heap.classes
  /-- The functions are the same, and those that were made in the blocks are inside of the one scope of the loop:
  the scopes of the blocks stand directly in it and are empty. -/
  functions : ∃ g, s.heap.Thins T g s'.heap

/-- Stores that differ in the scopes of the blocks agree. -/
theorem agrees_of_thins (h : s.Thins T g s') : Agrees T s s' where
  printed := h.printed
  log := h.log
  frames := h.frames
  returning := h.returning
  readings := h.readings
  slots e he name := by
    obtain ⟨hplace, hscope⟩ := h.heap.forest.old e he
    have hslot := h.heap.forest.slot?_eq (Nat.lt_of_le_of_lt he h.heap.forest.loop_lt) (by rw [hplace]; exact nofun)
      name
    rwa [hscope] at hslot
  instances := h.heap.mirrors.instances
  classes := h.heap.mirrors.classes
  functions := ⟨g, h.heap⟩

/-- The tree of a loop, executed in a store above given tasks, does the same as the loop that is run directly with
distances of its own. -/
structure Preserved (l : ForLoop) (limits : Limits) (below : List Task) (b : Binder) (off : Nat) (s : Store) :
    Prop where
  /-- If the loop ends then so does its tree, in the same way. -/
  ended : ∀ i c s', (l.moved off).run limits (l.prepared b off s) i = .ended c s' →
    ∃ k, Machine.Finishes limits ⟨.execute l.tree, below, s⟩ below k ∧
      (Machine.run limits k ⟨.execute l.tree, below, s⟩).control = c ∧
      (Machine.run limits k ⟨.execute l.tree, below, s⟩).store.scope = s'.scope ∧
      Agrees (l.thinning b off s) (Machine.run limits k ⟨.execute l.tree, below, s⟩).store s'
  /-- If its tree ends then so does the loop. -/
  finishes : ∀ k, Machine.Finishes limits ⟨.execute l.tree, below, s⟩ below k →
    ∃ i s', (l.moved off).run limits (l.prepared b off s) i =
        .ended (Machine.run limits k ⟨.execute l.tree, below, s⟩).control s' ∧
      Agrees (l.thinning b off s) (Machine.run limits k ⟨.execute l.tree, below, s⟩).store s'
  /-- Until then the tree comes to a state that agrees with that of the loop, again and again. -/
  running : ∀ i part m', (l.moved off).run limits (l.prepared b off s) i = .running part m' →
    ∃ k ≥ i, (∀ j ≤ k, (Machine.run limits j ⟨.execute l.tree, below, s⟩).Busy below) ∧
      Agrees (l.thinning b off s) (Machine.run limits k ⟨.execute l.tree, below, s⟩).store m'.store
  /-- And the loop prints, sooner or later, all that its tree has printed. -/
  printed : ∀ k, (∀ j ≤ k, (Machine.run limits j ⟨.execute l.tree, below, s⟩).Busy below) →
    ∃ i, (Machine.run limits k ⟨.execute l.tree, below, s⟩).store.printed.toList <+:
      ((l.moved off).run limits (l.prepared b off s) i).store.printed.toList

variable {b : Binder} {off : Nat} {programs : List Program} {below : List Task}

/-- In the scope of the loop the tree and the loop that is run directly have the same heap. -/
theorem thins_prepared (hmatches : Matches s.heap.forest s.scope b.scopes)
    (hscope : s.scope < s.heap.forest.scopes.size)
    (henclosing : ∀ e outer, s.heap.forest.enclosing? e = some outer → outer < s.heap.forest.scopes.size)
    (hfunctions : ∀ (f : FunctionId) c, s.heap.functions[f]? = some c → c.scope < s.heap.forest.scopes.size) :
    s.openScope.Thins (l.thinning b off s) ⟨fun _ => none, id⟩ (l.prepared b off s).openScope := by
  have hsize : s.openScope.heap.forest.scopes.size = s.heap.forest.scopes.size + 1 := Forest.size_new _ _
  have hlt : s.heap.forest.scopes.size < s.openScope.heap.forest.scopes.size := hsize ▸ Nat.lt_succ_self _
  have hglobals : 0 < s.heap.forest.scopes.size := Nat.zero_lt_of_lt hscope
  have hlink : s.openScope.heap.forest.enclosing? s.heap.forest.scopes.size = some s.scope :=
    (s.heap.forest.enclosing?_new (some s.scope) _).trans (if_pos rfl)
  have hdepth : s.openScope.heap.forest.Depth s.heap.forest.scopes.size (b.scopes.length + 1) :=
    ((s.heap.forest.new_grows (some s.scope)).depth (hmatches.depth hglobals)).inward hlink
      (Nat.pos_iff_ne_zero.1 hglobals)
  have hself : s.openScope.heap.Thins (l.thinning b off s) ⟨fun _ => none, id⟩ s.openScope.heap := by
    refine thins_self hlt hdepth (fun e outer he => ?_) fun f c hc => ?_
    · have he' := (s.heap.forest.enclosing?_new (some s.scope) e).symm.trans he
      split at he'
      · obtain rfl := Option.some.inj he'
        exact Nat.lt_trans hscope hlt
      · exact Nat.lt_trans (henclosing e outer he') hlt
    · exact Nat.lt_trans (hfunctions f c hc) hlt
  exact ⟨hself, hlt, fun _ => rfl, fun _ => rfl, rfl⟩

theorem not_busy_of_done {m : Machine} (hbusy : m.Busy below) : ¬ m.Done below := by
  intro hdone
  obtain ⟨own, htasks, hidle⟩ := hbusy
  have hown : own = [] := List.append_left_eq_self.1 (htasks.symm.trans hdone.1)
  rw [hown] at hidle
  exact hidle hdone.2

/-- The tree of a loop that a sound machine executes does what the loop does. -/
theorem BoundAt.preserved (h : BoundAt programs off l b s) (limits : Limits)
    (hmatches : Matches s.heap.forest s.scope b.scopes) (hscope : s.scope < s.heap.forest.scopes.size)
    (henclosing : ∀ e outer, s.heap.forest.enclosing? e = some outer → outer < s.heap.forest.scopes.size)
    (hfunctions : ∀ (f : FunctionId) c, s.heap.functions[f]? = some c → c.scope < s.heap.forest.scopes.size)
    (hsound : Machine.Sound (Visited programs) (l.thinning b off s).recorded ⟨.execute l.tree, below, s⟩) :
    l.Preserved limits below b off s := by
  have hrun := stage_run limits h.thinning_lawful h.lawful rfl hscope
    (thins_prepared hmatches hscope henclosing hfunctions) rfl rfl hsound
  -- A loop that has ended belongs to a tree that has just finished.
  have hended : ∀ {k left c s'}, Machine.Works limits below k ⟨.execute l.tree, below, s⟩ left →
      Stage l (l.thinning b off s) s.scope below left (.ended c s') →
      Machine.Finishes limits ⟨.execute l.tree, below, s⟩ below k ∧
        (Machine.run limits k ⟨.execute l.tree, below, s⟩).control = c ∧
        (Machine.run limits k ⟨.execute l.tree, below, s⟩).store.scope = s'.scope ∧
        Agrees (l.thinning b off s) (Machine.run limits k ⟨.execute l.tree, below, s⟩).store s' := by
    intro k left c s' hworks hstage
    cases hstage with
    | @ended g c s₁ s' houtcome houter hthins =>
      have hold := (hthins.heap.forest.old s.scope (Nat.le_of_lt hscope)).2
      refine ⟨⟨hworks.busy, ?_⟩, ?_⟩
      · rw [hworks.reaches]
        exact ⟨rfl, houtcome⟩
      · rw [hworks.reaches]
        refine ⟨rfl, ?_, agrees_of_thins hthins⟩
        rw [hthins.scope, houter, hold]
  have hbusy : ∀ {k left part m'}, Machine.Works limits below k ⟨.execute l.tree, below, s⟩ left →
      Stage l (l.thinning b off s) s.scope below left (.running part m') →
      ∀ j ≤ k, (Machine.run limits j ⟨.execute l.tree, below, s⟩).Busy below := by
    intro k left part m' hworks hstage j hj
    rcases Nat.lt_or_eq_of_le hj with hlt | rfl
    · exact hworks.busy j hlt
    · rw [hworks.reaches]
      exact hstage.busy
  refine ⟨fun i c s' hi => ?_, fun k hk => ?_, fun i part m' hi => ?_, fun k hk => ?_⟩
  · obtain ⟨k, left, hworks, hstage, -⟩ := hrun i
    rw [show (l.moved (l.thinning b off s).off).run limits (l.prepared b off s) i = .ended c s' from hi] at hstage
    exact ⟨k, hended hworks hstage⟩
  · -- A loop that was still running after so many steps would have a tree that is still at work.
    obtain ⟨k', left, hworks, hstage, hle⟩ := hrun (k + 1)
    cases hstate : (l.moved (l.thinning b off s).off).run limits (l.prepared b off s) (k + 1) with
    | running part m' =>
      rw [hstate] at hstage hle
      have hlt : k ≤ k' := by
        rcases hle with hle | ⟨c, s₁, hc⟩
        · omega
        · cases hc
      exact absurd hk.done (not_busy_of_done (hbusy hworks hstage k hlt))
    | ended c s' =>
      rw [hstate] at hstage
      obtain ⟨hfinishes, hcontrol, -, hagrees⟩ := hended hworks hstage
      have hsame : k' = k := by
        rcases Nat.lt_trichotomy k' k with hlt | rfl | hlt
        · exact absurd hfinishes.done (not_busy_of_done (hk.busy k' hlt))
        · rfl
        · exact absurd hk.done (not_busy_of_done (hfinishes.busy k hlt))
      subst hsame
      exact ⟨k' + 1, s', hcontrol.symm ▸ hstate, hagrees⟩
  · obtain ⟨k, left, hworks, hstage, hle⟩ := hrun i
    rw [show (l.moved (l.thinning b off s).off).run limits (l.prepared b off s) i = .running part m' from hi]
      at hstage hle
    have hagrees : Agrees (l.thinning b off s) (Machine.run limits k ⟨.execute l.tree, below, s⟩).store m'.store := by
      rw [hworks.reaches]
      cases hstage with
      | running _ hthins => exact agrees_of_thins hthins.store
    rcases hle with hle | ⟨c, s₁, hc⟩
    · exact ⟨k, hle, hbusy hworks hstage, hagrees⟩
    · cases hc
  · obtain ⟨k', left, hworks, hstage, hle⟩ := hrun k
    have hlater : k ≤ k' ∧ left.store.printed =
        ((l.moved off).run limits (l.prepared b off s) k).store.printed := by
      cases hstate : (l.moved (l.thinning b off s).off).run limits (l.prepared b off s) k with
      | running part m' =>
        rw [show (l.moved off).run limits (l.prepared b off s) k = .running part m' from hstate]
        rw [hstate] at hstage hle
        refine ⟨?_, ?_⟩
        · rcases hle with hle | ⟨c, s₁, hc⟩
          · exact hle
          · cases hc
        · cases hstage with
          | running _ hthins => exact hthins.store.printed.symm
      | ended c s' =>
        rw [show (l.moved off).run limits (l.prepared b off s) k = .ended c s' from hstate]
        rw [hstate] at hstage
        obtain ⟨hfinishes, -, -, hagrees⟩ := hended hworks hstage
        rw [hworks.reaches] at hagrees
        refine ⟨Nat.le_of_not_lt fun hlt => ?_, hagrees.printed.symm⟩
        exact not_busy_of_done (hk k' (Nat.le_of_lt hlt)) hfinishes.done
    obtain ⟨d, rfl⟩ := Nat.exists_eq_add_of_le hlater.1
    refine ⟨k, ?_⟩
    rw [← hlater.2, ← hworks.reaches, Machine.run_add]
    exact (Machine.keeps_run limits d _).printed

end ForLoop

/-- In every state of the run of an accepted source in which the tree of a loop with a header is about to be
executed, the tree does what the loop means: in one new scope the initializer is executed once, then the body again
and again as long as the condition is truthy, or always without one, and the increment is evaluated each time that
the body has completed normally. The tree comes to an end if and only if this loop does, and then both have the
same outcome, be it normal, a return with a value, a runtime error or an overflow, have printed the same and have
left the same values in all variables of older scopes and in all fields. The scope of the loop, which holds its
variable, is one for all rounds, and functions that were made in different rounds share it. -/
theorem Session.run_forLoop (color showTrace : Bool) (requests : List Request) {source : Text}
    (hsource : (serveAll color showTrace requests).Accepts source) (limits : Limits) (n : Nat) (l : ForLoop)
    (below : List Task) (store : Store)
    (hmachine : (Machine.start ((serveAll color showTrace requests).program source)
      ((serveAll color showTrace requests).opening source)).run limits n = ⟨.execute l.tree, below, store⟩) :
    (∃ b, Visited ((serveAll color showTrace requests).program source :: (new color showTrace).history requests) b
        (.stmt l.tree) ∧
      Matches store.heap.forest store.scope b.scopes) ∧
    ∀ b, Visited ((serveAll color showTrace requests).program source :: (new color showTrace).history requests) b
        (.stmt l.tree) →
      Matches store.heap.forest store.scope b.scopes →
      ∀ off, (Reading.ofSource (serveAll color showTrace requests).nextSite source).nextSite ≤ off →
        l.Preserved limits below b off store := by
  have h := sound_serveAll color showTrace requests
  have happart := h.programsApart (programsApart_history color showTrace requests) source
  have hbound := methodsBound_serveAll color showTrace requests
  generalize serveAll color showTrace requests = s at *
  have hwalk := (h.opening hsource).lawful
  have hsound := (h.start source).run hwalk limits n
  obtain ⟨place, hlaid, -⟩ := hbound.machine h hsource limits n
  rw [hmachine] at hsound hlaid
  have hbindings : (s.distances source) = fun site => store.bindings[site]? :=
    funext fun site => (hsound.store.bindings site).symm
  have hrecorded := h.opening hsource
  rw [hbindings] at hrecorded hsound
  refine ⟨?_, fun b hvisit hmatches off hoff => ?_⟩
  · obtain ⟨b, hvisit, hmatches, -⟩ := hsound.control
    exact ⟨b, hvisit, hmatches⟩
  · have hnext : s.nextSite ≤ (Reading.ofSource s.nextSite source).nextSite := Reading.le_nextSite _ _
    have hboundAt : l.BoundAt (s.program source :: (new color showTrace).history requests) off b store := by
      refine ⟨hvisit, hrecorded, happart,
        List.forall_mem_cons.2 ⟨fun site hsite => ?_, fun program hprogram site hsite => ?_⟩, fun site hsite => ?_⟩
      · exact Nat.lt_of_lt_of_le (Sound.le_of_mem_sites hsite).2 hoff
      · exact Nat.lt_of_lt_of_le (h.before program hprogram site hsite) (hnext.trans hoff)
      · rw [← congrFun hbindings site, Sound.distances_eq,
          Sound.lookup_bindAll (.inr (hoff.trans hsite)), Option.none_or]
        exact h.fresh site (hnext.trans (hoff.trans hsite))
    exact hboundAt.preserved limits hmatches (hlaid.tasks nofun).lt_size
      (fun e outer he => (hlaid.world.enclosing e outer he).1) hlaid.world.functions hsound

/-- A loop whose body makes a function that reads the variable of the loop. -/
def closureSource : Text := text "for(var i=true;i;i=nil)\x7bfun f()\x7bprint i;\x7df();\x7d"

/-- The loop of that source. -/
def closureLoop : ForLoop :=
  let i : Token := ⟨.identifier, text "i", none, 1⟩
  let f : Token := ⟨.identifier, text "f", none, 1⟩
  { site := 0
    initializer := some (.«variable» i (some (.literal 5 (.bool true))))
    condition := some (.«variable» ⟨7, i⟩)
    increment := some (.assign ⟨9, i⟩ (.literal 11 .nil))
    body := .block [.routine (.mk f [] [.print (.«variable» ⟨20, i⟩)]),
      .expression (.call 24 (.«variable» ⟨23, f⟩) ⟨.rightParen, text ")", none, 1⟩ [])]
    quiet := rfl }

theorem closureSource_reading : Reading.ofSource 0 closureSource = ⟨[closureLoop.tree], [], 28⟩ :=
  Reading.ofSource_of_read (by with_unfolding_all exact ⟨rfl, rfl, rfl, rfl⟩)

instance (state : ForLoop.State) (k : Completion) : Decidable (∃ s, state = .ended (.complete k) s) :=
  match state with
  | .running _ _ => isFalse (by simp)
  | .ended c _ => decidable_of_iff (c = .complete k) (by simp)

/-- The loop and its tree both end normally, after one round in which the function has printed the variable. -/
theorem Session.run_forLoop_closure :
    (Session.new false false).Accepts closureSource ∧
    ∃ store below,
      (Machine.start ((Session.new false false).program closureSource)
        ((Session.new false false).opening closureSource)).run ⟨10, fun _ => ⟨0⟩⟩ 1 =
          ⟨.execute closureLoop.tree, below, store⟩ ∧
      ∃ i s', (closureLoop.moved 28).run ⟨10, fun _ => ⟨0⟩⟩ (closureLoop.prepared .start 28 store) i =
          .ended (.complete .normal) s' ∧
        ∃ k, Machine.Finishes ⟨10, fun _ => ⟨0⟩⟩ ⟨.execute closureLoop.tree, below, store⟩ below k ∧
          (Machine.run ⟨10, fun _ => ⟨0⟩⟩ k ⟨.execute closureLoop.tree, below, store⟩).store.printed =
            #[text "true"] := by
  have haccepts : (Session.new false false).Accepts closureSource := by decide +kernel
  have hprogram : (Session.new false false).program closureSource = [closureLoop.tree] :=
    congrArg Reading.program closureSource_reading
  obtain ⟨store, hstore⟩ : ∃ store, store = ((Machine.start ((Session.new false false).program closureSource)
      ((Session.new false false).opening closureSource)).store) := ⟨_, rfl⟩
  have hmachine : (Machine.start ((Session.new false false).program closureSource)
      ((Session.new false false).opening closureSource)).run ⟨10, fun _ => ⟨0⟩⟩ 1 =
        ⟨.execute closureLoop.tree, [.sequence []], store⟩ := by
    rw [hstore, hprogram]
    rfl
  have hpreserved := (Session.run_forLoop false false [] haccepts _ 1 closureLoop _ store hmachine).2
    .start ⟨_, List.mem_singleton.2 rfl, hprogram ▸ Visits.start.child (.head _)⟩ (hstore ▸ .globals) 28
    (congrArg Reading.nextSite closureSource_reading).le
  obtain ⟨s', hended⟩ : ∃ s', (closureLoop.moved 28).run ⟨10, fun _ => ⟨0⟩⟩
      (closureLoop.prepared .start 28 store) 40 = .ended (.complete .normal) s' := by
    rw [hstore]
    decide +kernel
  have hprinted : ((closureLoop.moved 28).run ⟨10, fun _ => ⟨0⟩⟩
      (closureLoop.prepared .start 28 store) 40).store.printed = #[text "true"] := by
    rw [hstore]
    decide +kernel
  obtain ⟨k, hfinishes, -, -, hagrees⟩ := hpreserved.ended _ _ _ hended
  rw [hended] at hprinted
  exact ⟨haccepts, store, _, hmachine, 40, s', hended, k, hfinishes, hagrees.printed.symm.trans hprinted⟩

end Lox
