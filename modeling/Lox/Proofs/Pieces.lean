import Lox.Proofs.BoundPieces
import Lox.Proofs.ControlState
import Lox.Proofs.HeldReferences
import Lox.Proofs.Surroundings
import Lox.Proofs.Verdict

/-!
# Running a program in pieces

A program that consists of two pieces runs like the first piece, with the second one waiting below, until
the first one has ended; from there it runs like the second piece in the store that the first one has left
(`Machine.run_append`). The distances of the second piece are there from the beginning, but no reference of
the first piece or of an earlier program stands at a site of the second (`Session.Located`), so they are not
looked at.

`Session.run_pieces` states that it makes no difference whether a session runs two sources one after the
other or both as one program.
-/

namespace Lox

namespace Machine

/-- A machine with tasks below its own. -/
def under (below : List Task) (m : Machine) : Machine := { m with tasks := m.tasks ++ below }

theorem within_eq_under (below : List Task) (m : Machine) :
    m.within ⟨below, m.store.bindings, #[], #[]⟩ = m.under below := by
  unfold within under Store.within
  rw [Array.empty_append, Array.empty_append]

/-- A machine that is not idle does not notice tasks below its own. -/
theorem step_under (limits : Limits) {m : Machine} (hidle : ¬ m.Idle) (below : List Task) :
    (m.under below).step limits = (m.step limits).under below := by
  have hstep := step_within (c := ⟨below, m.store.bindings, #[], #[]⟩) limits m (.inr hidle) (fun _ _ => rfl)
  rw [within_eq_under, ← (keeps_step limits m).bindings, within_eq_under] at hstep
  exact hstep

/-- Tasks below do not change what a machine is about to look up. -/
theorem consulted?_under {m : Machine} (hidle : ¬ m.Idle) (below : List Task) :
    (m.under below).consulted? = m.consulted? := by
  obtain ⟨control, tasks, s⟩ := m
  cases control with
  | evaluate e => cases e <;> rfl
  | deliver v =>
    cases tasks with
    | nil => exact absurd (.deliver v s) hidle
    | cons task tasks => cases task <;> rfl
  | _ => rfl

/-- Without tasks below, a run is the same in all surroundings that agree on the references. -/
theorem run_within {c : Surroundings} (hbelow : c.below = []) (limits : Limits) {m : Machine}
    (h : ∀ n, ∀ ref ∈ (m.run limits n).consulted?, (m.run limits n).store.AgreesAt c ref) (n : Nat) :
    (m.within c).run limits n = (m.run limits n).within c := by
  induction n with
  | zero => rfl
  | succ n ih => rw [run_succ, ih, step_within limits _ (.inl hbelow) (h n), run_succ]

theorem outcome_within {c : Surroundings} (hbelow : c.below = []) (m : Machine) :
    (m.within c).outcome = m.outcome := by
  unfold within
  rw [hbelow, List.append_nil]
  exact outcome_store m _

/-- A program runs alike whether what was printed and logged before is still there or not. -/
theorem run_cleared (limits : Limits) (program : Program) {s : Store}
    (hs : s = { s with scope := Heap.globals, frames := #[scriptFrame], returning := none }) (n : Nat) :
    (Machine.mk (.complete .normal) [.sequence program] s).run limits n =
      ((start program { s with printed := #[], log := #[] }).run limits n).within
        ⟨[], s.bindings, s.printed, s.log⟩ := by
  have hstart : Machine.mk (.complete .normal) [.sequence program] s =
      (start program { s with printed := #[], log := #[] }).within ⟨[], s.bindings, s.printed, s.log⟩ := by
    unfold within Store.within start
    dsimp only
    rw [Array.append_empty, Array.append_empty, ← hs]
    rfl
  rw [hstart, run_within rfl limits]
  intro n ref _
  unfold Store.AgreesAt
  rw [(keeps_run limits n _).bindings]
  rfl

/-- A machine without tasks that has not finished its program and will not. -/
inductive Stopped : Machine → Prop where
  | returned (s : Store) : Stopped ⟨.complete .returned, [], s⟩
  | unwind (f : Failure) (s : Store) : Stopped ⟨.unwind f, [], s⟩
  | fault (f : Fault) (s : Store) : Stopped ⟨.fault f, [], s⟩

/-- How far the first of two pieces has come, beside the whole program that it is a piece of. The whole
program has a table of distances of its own. -/
inductive Beside (second : Program) (bindings : Std.TreeMap Site Nat) : Machine → Machine → Prop where
  /-- The first piece goes on. -/
  | going (m : Machine) (rest : Program) :
    Beside second bindings (m.under [.sequence rest])
      (m.within ⟨[.sequence (rest ++ second)], bindings, #[], #[]⟩)
  /-- The first piece has stopped, and so has the whole. -/
  | stopped {m : Machine} (h : m.Stopped) : Beside second bindings m (m.within ⟨[], bindings, #[], #[]⟩)

/-- The first piece ends, and the second one is about to start. -/
def Ends (second : Program) (bindings : Std.TreeMap Site Nat) (m whole : Machine) : Prop :=
  m = ⟨.complete .normal, [], m.store⟩ ∧
    whole = ⟨.complete .normal, [.sequence second], { m.store with bindings }⟩

section

variable {second : Program} {bindings : Std.TreeMap Site Nat} {m whole : Machine}

/-- The first piece and the whole take the same step, unless the first piece ends with it. -/
theorem Beside.step (h : Beside second bindings m whole) (limits : Limits)
    (hagree : ∀ ref ∈ m.consulted?, bindings[ref.site]? = m.store.bindings[ref.site]?) :
    Beside second bindings (m.step limits) (whole.step limits) ∨
      Ends second bindings (m.step limits) whole := by
  cases h with
  | stopped h =>
    cases h with
    | returned s => exact .inl (.stopped (.fault .strayReturn s))
    | unwind f s => exact .inl (.stopped (.unwind f s))
    | fault f s => exact .inl (.stopped (.fault f s))
  | going m rest =>
    by_cases hidle : m.Idle
    · -- The first piece is between two of its statements, or it leaves them.
      cases hidle with
      | deliver v s => exact .inl (.stopped (.fault .strayResult s))
      | unwind f s => exact .inl (.stopped (.unwind f s))
      | complete completion s =>
        cases completion with
        | returned => exact .inl (.stopped (.returned s))
        | normal =>
          cases rest with
          | cons stmt rest => exact .inl (.going ⟨.execute stmt, [], s⟩ rest)
          | nil =>
            refine .inr ⟨rfl, ?_⟩
            unfold within Store.within
            rw [Array.empty_append, Array.empty_append]
            rfl
    · rw [step_under limits hidle, step_within limits m (.inr hidle)]
      · exact .inl (.going _ rest)
      · rw [consulted?_under hidle] at hagree
        exact hagree

/-- The first piece of a program runs beside the whole until it ends. -/
theorem run_append (limits : Limits) (first second : Program) (s : Store) (bindings : Std.TreeMap Site Nat)
    (hagree : ∀ n, ∀ ref ∈ ((start first s).run limits n).consulted?,
      bindings[ref.site]? = s.bindings[ref.site]?) (n : Nat) :
    Beside second bindings ((start first s).run limits n)
        ((start (first ++ second) { s with bindings }).run limits n) ∨
      ∃ n₀ < n, Ends second bindings ((start first s).run limits n)
        ((start (first ++ second) { s with bindings }).run limits n₀) := by
  induction n with
  | zero =>
    -- Both machines start between two statements, with all of the first piece still to come.
    have hgoing := @Beside.going second bindings
      ⟨.complete .normal, [], { s with scope := Heap.globals, frames := #[scriptFrame], returning := none }⟩
      first
    unfold within Store.within at hgoing
    rw [Array.empty_append, Array.empty_append] at hgoing
    exact .inl hgoing
  | succ n ih =>
    rw [run_succ, run_succ]
    rcases ih with hbeside | ⟨n₀, hn₀, hends⟩
    · have hkeeps : ((start first s).run limits n).store.bindings = s.bindings :=
        (keeps_run limits n (start first s)).bindings
      rcases hbeside.step limits (by rw [hkeeps]; exact hagree n) with hbeside | hends
      · exact .inl hbeside
      · exact .inr ⟨n, Nat.lt_succ_self n, hends⟩
    -- The first piece is done and its machine stands still; nothing is asked of the whole any more.
    · have hstep : ((start first s).run limits n).step limits = (start first s).run limits n := by
        rw [hends.1]
        rfl
      rw [hstep]
      exact .inr ⟨n₀, Nat.lt_succ_of_lt hn₀, hends⟩

theorem Ends.finished (h : Ends second bindings m whole) : m.outcome = .finished := by
  rw [h.1]
  rfl

/-- A machine that has tasks left has no outcome but a fault. -/
theorem outcome_of_tasks {control : Control} {tasks : List Task} (h : tasks ≠ []) (s : Store) :
    outcome ⟨control, tasks, s⟩ = match control with
      | .fault f => .fault f
      | _ => .unfinished := by
  obtain ⟨task, rest, rfl⟩ := List.exists_cons_of_ne_nil h
  cases control with
  | complete completion => cases completion <;> rfl
  | unwind f => cases f <;> rfl
  | _ => rfl

/-- While the first piece goes on and when it has stopped, the whole shows the same outcome and has the same
store. -/
theorem Beside.same (h : Beside second bindings m whole) :
    m.outcome ≠ .finished ∧ whole.outcome = m.outcome ∧ whole.store = { m.store with bindings } := by
  have hstore : ∀ (m : Machine) (below : List Task),
      (m.within ⟨below, bindings, #[], #[]⟩).store = { m.store with bindings } := by
    intro m below
    unfold within Store.within
    rw [Array.empty_append, Array.empty_append]
  cases h with
  | going m rest =>
    have hm : (m.under [.sequence rest]).outcome = _ :=
      outcome_of_tasks (List.append_ne_nil_of_right_ne_nil m.tasks (List.cons_ne_nil _ _)) m.store
    have hwhole : (m.within ⟨[.sequence (rest ++ second)], bindings, #[], #[]⟩).outcome = _ :=
      outcome_of_tasks (List.append_ne_nil_of_right_ne_nil m.tasks (List.cons_ne_nil _ _)) _
    refine ⟨?_, hwhole.trans hm.symm, hstore m _⟩
    rw [hm]
    split <;> exact nofun
  | stopped h =>
    cases h with
    | returned s => exact ⟨nofun, rfl, hstore _ []⟩
    | unwind f s => cases f <;> exact ⟨nofun, rfl, hstore _ []⟩
    | fault f s => exact ⟨nofun, rfl, hstore _ []⟩

end

end Machine

/-- Adding distances in two pieces is adding all of them. -/
theorem Store.addBindings_append (s : Store) (bindings others : List (Site × Nat)) :
    s.addBindings (bindings ++ others) = (s.addBindings bindings).addBindings others := by
  unfold addBindings
  rw [List.foldl_append]

namespace Session

/-- The references in the functions of a session stand at sites before its own. -/
def Located (s : Session) : Prop := s.store.heap.Refers fun ref => ref.site < s.nextSite

variable {s : Session} {source : Text}

/-- The machine of a source refers to sites before the next ones only. -/
theorem Located.start (h : s.Located) (source : Text) :
    (s.start source).Refers
      fun ref => ref.site < (Reading.ofSource s.nextSite source).nextSite := by
  have hlocated := Reading.located s.nextSite source
  rw [Reading.nextSite_eq]
  exact .start (fun p hp => (hlocated.within p hp).2) (h.mono fun ref href => Nat.lt_add_right _ href)

/-- Whatever a session is asked, its functions refer to sites before its own. -/
theorem located_serveAll (color showTrace : Bool) (requests : List Request) :
    (serveAll color showTrace requests).Located := by
  refine foldl_serve (P := fun s _ => s.Located) (fun h hstore hle => ?_) (fun h hsource limits steps => ?_) requests
    [] (World.LaidOut.initial fun _ => trivial)
  · unfold Located
    rw [hstore]
    exact Heap.Refers.mono h fun ref href => Nat.lt_of_lt_of_le href hle
  · obtain ⟨hstore, hnext, -⟩ := run_of_accepts hsource limits steps
    unfold Located
    rw [hstore, hnext]
    exact ((h.start _).run limits steps).heap

/-- The session that has only read a source: the next one stands at the sites after it. -/
def past (s : Session) (source : Text) : Session :=
  { s with nextSite := (Reading.ofSource s.nextSite source).nextSite }

/-- The machine that runs two sources as one program, with the distances of both. -/
def together (s : Session) (first second : Text) : Machine :=
  let program := s.program first ++ (s.past first).program second
  Machine.start program
    { s.store.addBindings (Bound.ofProgram program).bindings with printed := #[], log := #[] }

/-- The distances of a source do not alter those at earlier sites. -/
theorem getElem?_addBindings_of_lt (source : Text) (store : Store) {site : Site} (hsite : site < s.nextSite) :
    (store.addBindings (Bound.ofProgram (s.program source)).bindings).bindings[site]? =
      store.bindings[site]? := by
  rw [Store.getElem?_addBindings, Bound.ofProgram, List.reverse_reverse,
    Sound.lookup_bindAll (.inl hsite), Option.none_or]

/-- The distances with which both sources as one program start. -/
abbrev bothBindings (s : Session) (first second : Text) :=
  ((s.opening first).addBindings (Bound.ofProgram ((s.past first).program second)).bindings).bindings

/-- Both sources as one program start where the first one starts, with the distances of the second. -/
theorem together_eq (s : Session) (first second : Text) :
    s.together first second = Machine.start (s.program first ++ (s.past first).program second)
      { s.opening first with bindings := s.bothBindings first second } := by
  have hformed : Stmt.FormedAll (s.program first) := Reading.formed _ _
  unfold together
  dsimp only
  rw [Bound.ofProgram_append hformed, Bound.append]
  dsimp only
  rw [Store.addBindings_append]
  rfl

variable {first second : Text}

/-- The first source runs beside both as one program until it ends. -/
theorem Located.run_together (h : s.Located) (first second : Text) (limits : Limits) (n : Nat) :
    let m := (s.start first).run limits n
    Machine.Beside ((s.past first).program second) (s.bothBindings first second) m
        ((s.together first second).run limits n) ∨
      ∃ n₀ < n, Machine.Ends ((s.past first).program second) (s.bothBindings first second) m
        ((s.together first second).run limits n₀) := by
  intro m
  rw [together_eq]
  refine Machine.run_append limits _ _ _ _ (fun n ref href => ?_) n
  have hsite := ((h.start first).run limits n).consulted ref href
  exact getElem?_addBindings_of_lt second _ hsite

theorem printed_run (hsource : s.Accepts source) (limits : Limits) (n : Nat) :
    (s.run limits n source).printed = (s.run limits n source).session.store.printed.toList := by
  obtain ⟨hstore, -, -⟩ := run_of_accepts hsource limits n
  rw [hstore, run_eq_of_accepts hsource]
  exact printed_conclude _ _

/-- After the first source the session accepts the second one as it would have before. -/
theorem accepts_run (hfirst : s.Accepts first) (hsecond : (s.past first).Accepts second)
    (limits : Limits) (n : Nat) : (s.run limits n first).session.Accepts second := by
  unfold Accepts program
  rw [(run_of_accepts hfirst limits n).2.1]
  exact hsecond

/-- Running the first source leaves its distances as they are. -/
theorem bothBindings_run (hfirst : s.Accepts first) (limits : Limits) (n : Nat) (second : Text) :
    s.bothBindings first second = ((s.run limits n first).session.store.addBindings
      (Bound.ofProgram ((s.past first).program second)).bindings).bindings := by
  have hkeeps := (Machine.keeps_run limits n (s.start first)).bindings
  rw [← (run_of_accepts hfirst limits n).1] at hkeeps
  unfold Store.addBindings
  rw [hkeeps]
  rfl

section

variable (hfirst : s.Accepts first) {limits : Limits} {n n₀ : Nat}
  (hends : Machine.Ends ((s.past first).program second) (s.bothBindings first second) ((s.start first).run limits n)
    ((s.together first second).run limits n₀))

include hfirst hends

/-- After the first source has ended, both as one program go on as the second one does. -/
theorem run_together_of_ends (k : Nat) :
    let turn := s.run limits n first
    (s.together first second).run limits (n₀ + k) =
      ((turn.session.start second).run limits k).within
        ⟨[], (turn.session.opening second).bindings, turn.session.store.printed, turn.session.store.log⟩ := by
  obtain ⟨hstore, hnext, -⟩ := run_of_accepts hfirst limits n
  have hlast := Machine.store_of_finished hends.finished
  intro turn
  -- The second piece gets the sites after those of the first, whether or not the first has run.
  have hprogram : turn.session.program second = (s.past first).program second := by
    unfold program
    rw [hnext]
    rfl
  have hopening : turn.session.opening second = { turn.session.store.addBindings
      (Bound.ofProgram ((s.past first).program second)).bindings with printed := #[], log := #[] } := by
    rw [opening, hprogram]
  rw [Machine.run_add, hends.2, bothBindings_run hfirst limits n, ← hstore]
  unfold start
  rw [hprogram, hopening]
  rw [← hstore] at hlast
  refine Machine.run_cleared limits _ (s := turn.session.store.addBindings _) ?_ k
  exact congrArg (Store.addBindings · (Bound.ofProgram ((s.past first).program second)).bindings) hlast

/-- What the second source gives after the first one has ended. -/
theorem later_of_ends (hsecond : (s.past first).Accepts second) (k : Nat) :
    let turn := s.run limits n first
    let later := turn.session.run limits k second
    let whole := (s.together first second).run limits (n₀ + k)
    later.ending = .ran whole.outcome ∧ whole.store = { later.session.store with
        printed := turn.session.store.printed ++ later.session.store.printed
        log := turn.session.store.log ++ later.session.store.log } := by
  have hwhole := run_together_of_ends hfirst hends k
  have hpast := accepts_run hfirst hsecond limits n
  intro turn
  obtain ⟨hlater, -, hending⟩ := run_of_accepts (s := turn.session) hpast limits k
  have hkeeps := (Machine.keeps_run limits k (turn.session.start second)).bindings
  dsimp only
  rw [hwhole, hending, hlater, Machine.outcome_within rfl]
  refine ⟨rfl, ?_⟩
  unfold Machine.within Store.within
  dsimp only
  rw [hkeeps]
  rfl

end

/-- Running in pieces is running at once. The bindings and the errors of two pieces of a program are those of
each piece on its own. In every session, two accepted sources run as one program like the first one while it
goes on, and with the same outcome if it ends with an error or overflows; and like the first one followed by
the second if the first one finishes, with the same output, outcome and store. The distances of the second
one do not alter those of earlier references. -/
theorem run_pieces (color showTrace : Bool) (requests : List Request) (first second : Text) :
    (∀ i j,
      let a := (Reading.ofSource i first).program
      let b := (Reading.ofSource j second).program
      Bound.ofProgram (a ++ b) = (Bound.ofProgram a).append (Bound.ofProgram b)) ∧
    let s := serveAll color showTrace requests
    s.Accepts first → (s.past first).Accepts second → ∀ limits n,
      let turn := s.run limits n first
      let whole := fun k => (s.together first second).run limits k
      (turn.ending = .ran .finished → ∃ n₀ < n, ∀ k,
        let later := turn.session.run limits k second
        later.ending = .ran (whole (n₀ + k)).outcome ∧
        (whole (n₀ + k)).store.printed.toList = turn.printed ++ later.printed ∧
        (whole (n₀ + k)).store = { later.session.store with
          printed := turn.session.store.printed ++ later.session.store.printed
          log := turn.session.store.log ++ later.session.store.log }) ∧
      (turn.ending ≠ .ran .finished →
        turn.ending = .ran (whole n).outcome ∧ (whole n).store.printed.toList = turn.printed ∧
        (whole n).store = turn.session.store.addBindings
          (Bound.ofProgram ((s.past first).program second)).bindings) ∧
      ∀ site < (s.past first).nextSite,
        (turn.session.opening second).bindings[site]? = turn.session.store.bindings[site]? := by
  refine ⟨fun i j => Bound.ofProgram_append (Reading.formed i first) _, ?_⟩
  intro s hfirst hsecond limits n turn whole
  obtain ⟨hstore, hnext, hending⟩ := run_of_accepts hfirst limits n
  have hprinted := printed_run hfirst limits n
  have hpast := accepts_run hfirst hsecond limits n
  have hdistances : ∀ site < (s.past first).nextSite,
      (turn.session.opening second).bindings[site]? = turn.session.store.bindings[site]? :=
    fun site hsite => getElem?_addBindings_of_lt second turn.session.store (hnext ▸ hsite)
  rcases (located_serveAll color showTrace requests).run_together first second limits n with
    hbeside | ⟨n₀, hn₀, hends⟩
  -- The first piece has not finished: the whole is where the first piece is.
  · obtain ⟨hunfinished, houtcome, hwhole⟩ := hbeside.same
    rw [← hstore, bothBindings_run hfirst limits n] at hwhole
    refine ⟨fun h => ?_, fun _ => ⟨?_, ?_, hwhole⟩, hdistances⟩
    · exact absurd (Ending.ran.inj (hending.symm.trans h)) hunfinished
    · rw [hending, houtcome]
    · rw [hprinted, hwhole]
  -- The first piece has finished, and after `n₀` steps the whole is about to start the second.
  · refine ⟨fun _ => ⟨n₀, hn₀, fun k => ?_⟩, fun h => ?_, hdistances⟩
    · obtain ⟨houtcome, hwhole⟩ := later_of_ends hfirst hends hsecond k
      refine ⟨houtcome, ?_, hwhole⟩
      rw [hprinted, printed_run hpast limits k, ← Array.toList_append]
      exact congrArg (fun s : Store => s.printed.toList) hwhole
    · exact absurd (hending.trans (congrArg Ending.ran hends.finished)) h

end Session

/-- A source that makes a function with a variable of its own, and one that calls it. -/
def closureDefinition : Text := text "fun f(x)\x7bfun g()\x7breturn x;\x7dreturn g;\x7dvar h=f(true);"

@[inherit_doc closureDefinition]
def closureCall : Text := text "print h();"

/-- The function of the first piece still finds its variable in the second piece, as it does when both are one
program. -/
theorem Session.run_pieces_closure :
    let s := serveAll false false []
    let limits : Limits := ⟨2, fun _ => ⟨0⟩⟩
    let turn := s.run limits 30 closureDefinition
    s.Accepts closureDefinition ∧ (s.past closureDefinition).Accepts closureCall ∧ turn.ending = .ran .finished ∧
      (turn.session.run limits 20 closureCall).printed = [text "true"] ∧
      ∃ n₀ < 30, ∀ k,
        let whole := (s.together closureDefinition closureCall).run limits (n₀ + k)
        (turn.session.run limits k closureCall).ending = .ran whole.outcome ∧
          whole.store.printed.toList = turn.printed ++ (turn.session.run limits k closureCall).printed := by
  intro s limits turn
  have hfirst : s.Accepts closureDefinition := by decide +kernel
  have hsecond : (s.past closureDefinition).Accepts closureCall := by decide +kernel
  have hending : turn.ending = .ran .finished := by decide +kernel
  have hprinted : (turn.session.run limits 20 closureCall).printed = [text "true"] := by decide +kernel
  obtain ⟨n₀, hn₀, hlater⟩ := ((run_pieces false false [] closureDefinition closureCall).2 hfirst hsecond limits 30).1
    hending
  exact ⟨hfirst, hsecond, hending, hprinted, n₀, hn₀, fun k => ⟨(hlater k).1, (hlater k).2.1⟩⟩

end Lox
