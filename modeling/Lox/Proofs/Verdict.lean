import Lox.Command
import Lox.Proofs.DepthLimit
import Lox.Proofs.SoundSession

/-!
# What comes of a source

Whatever a session was asked for before, running a source has one of four verdicts: it is rejected for its static
errors, it finishes, it fails with a runtime error, or it overflows. `Turn.Shows` says what each of them looks like
from outside: the flags, the diagnostics and, for a rejected source, that nothing has changed.
`Session.run_classified` states that every run that ends shows exactly one verdict, that static errors alone decide
whether it is a rejection, and that the verdict decides the exit code of a script.
-/

namespace Lox

/-- What can come of running a source to its end. -/
inductive Verdict where
  | rejected
  | finished
  | failed
  | overflowed
  deriving DecidableEq, Repr

namespace Verdict

/-- The code with which a script exits. -/
def exitCode : Verdict → Nat
  | .rejected => 65
  | .finished => 0
  | .failed => 70
  | .overflowed => 71

/-- The verdict after which a session does not go on. -/
def isFatal (v : Verdict) : Bool := v = .overflowed

/-- The verdict says that there were static errors. -/
def hadError (v : Verdict) : Bool := v = .rejected

/-- The verdict says that there was a runtime error. -/
def hadRuntimeError (v : Verdict) : Bool := v = .failed

end Verdict

/-- The verdict of an ending, unless a run is not at its end or has broken a guarantee. -/
def Ending.verdict? : Ending → Option Verdict
  | .rejected => some .rejected
  | .ran .finished => some .finished
  | .ran (.error _) => some .failed
  | .ran .overflow => some .overflowed
  | .ran (.fault _) | .ran .unfinished => none

/-- The ending is one after which a session does not go on. -/
def Ending.isFatal : Ending → Bool
  | .ran .overflow => true
  | _ => false

/-- The diagnostics among what a session tells. -/
def Notice.diagnostics (notices : List Notice) : List Text :=
  notices.filterMap fun
    | .diagnostic written => some written
    | .record _ => none

/-- What a run with a verdict looks like from outside, in a session that was in a given state before and
found given static errors. -/
structure Turn.Shows (s : Session) (errors : List StaticError) (t : Turn) (v : Verdict) : Prop where
  ending : t.ending.verdict? = some v
  fatal : t.ending.isFatal = v.isFatal
  hadError : t.session.console.hadError = v.hadError
  hadRuntimeError : t.session.console.hadRuntimeError = v.hadRuntimeError
  /-- Nothing is printed and nothing changes, and the static errors are reported in order. -/
  rejected : v = .rejected → t.printed = [] ∧ t.session.store = s.store ∧
    Notice.diagnostics t.notices =
      [Console.written (errors.map fun e => s.console.paint (Diagnostic.ofStatic e).toText)]
  finished : v = .finished → Notice.diagnostics t.notices = []
  /-- The one diagnostic is that of the error. -/
  failed : v = .failed → ∃ e, t.ending = .ran (.error e) ∧
    Notice.diagnostics t.notices = [(s.console.reportRuntime e.report).2]
  overflowed : v = .overflowed → Notice.diagnostics t.notices = []

namespace Session

/-- The static errors that are reported when a source is run: those of reading it, or else those of binding
the program. -/
def staticErrors (s : Session) (source : Text) : List StaticError :=
  if (Reading.ofSource s.nextSite source).errors = [] then (Bound.ofProgram (s.program source)).errors
  else (Reading.ofSource s.nextSite source).errors

variable {s : Session} {source : Text}

theorem accepts_iff : s.Accepts source ↔ s.staticErrors source = [] := by
  unfold Accepts staticErrors
  split
  · next h => exact and_iff_right h
  · next h => exact iff_of_false (fun haccepts => h haccepts.1) h

/-! ## What is reported -/

end Session

/-- Reporting diagnostics writes a line for each of them, and sets the flag if there are any. -/
theorem Console.reportAll_eq (c : Console) (ds : List Diagnostic) :
    c.reportAll ds = ({ c with hadError := c.hadError || !ds.isEmpty },
      Console.written (ds.map fun d => c.paint d.toText)) := by
  induction ds generalizing c with
  | nil =>
    rw [Console.reportAll, List.isEmpty_nil, Bool.not_true, Bool.or_false]
    rfl
  | cons d rest ih =>
    rw [Console.reportAll]
    simp [ih, Console.report, Console.written, Console.paint]

theorem Notice.diagnostics_append (notices others : List Notice) :
    Notice.diagnostics (notices ++ others) = Notice.diagnostics notices ++ Notice.diagnostics others :=
  List.filterMap_append

theorem Notice.diagnostics_records (records : List LogRecord) :
    Notice.diagnostics (records.map .record) = [] := by
  induction records with
  | nil => rfl
  | cons r rest ih => exact ih

namespace Session

variable {s : Session} {source : Text}

/-- Misuses are reported in one diagnostic, and the session remembers that there were some. -/
theorem reportStatic_eq (s : Session) (errors : List StaticError) :
    s.reportStatic errors =
      ({ s with console := { s.console with hadError := s.console.hadError || !errors.isEmpty } },
        if errors.isEmpty then []
        else [.diagnostic
          (Console.written (errors.map fun e => s.console.paint (Diagnostic.ofStatic e).toText))]) := by
  unfold reportStatic
  rw [Console.reportAll_eq, List.map_map, List.isEmpty_map]
  rfl

/-- An accepted source is ready to run, and nothing is reported. -/
theorem prepare_eq_of_accepts (h : s.Accepts source) :
    s.prepare source = ({ s with
          console := s.console.reset
          nextSite := (Reading.ofSource s.nextSite source).nextSite },
        [.parsed (s.program source).length true,
          .resolved (Bound.ofProgram (s.program source)).bindings.length true].map .record,
        some (s.start source)) := by
  obtain ⟨hread, hbound⟩ := h
  unfold program at hbound
  unfold prepare read
  simp only [reportStatic_eq, hread, hbound, List.isEmpty_nil, if_true]
  rfl

/-- A source with static errors is not ready to run, and the errors are reported. -/
theorem prepare_eq_of_errors (h : s.staticErrors source ≠ []) :
    ∃ notices, s.prepare source = ({ s with
            console := { s.console with hadError := true, hadRuntimeError := false }
            nextSite := (Reading.ofSource s.nextSite source).nextSite }, notices, none) ∧
      Notice.diagnostics notices = [Console.written
        ((s.staticErrors source).map fun e => s.console.paint (Diagnostic.ofStatic e).toText)] := by
  unfold staticErrors at h ⊢
  unfold prepare read
  by_cases hread : (Reading.ofSource s.nextSite source).errors = []
  · rw [if_pos hread] at h ⊢
    unfold program at h
    have hbound : (Bound.ofProgram (Reading.ofSource s.nextSite source).program).errors.isEmpty = false :=
      List.isEmpty_eq_false_iff.2 h
    simp only [reportStatic_eq, hread, hbound, List.isEmpty_nil, if_true]
    exact ⟨_, rfl, rfl⟩
  · have hread' : (Reading.ofSource s.nextSite source).errors.isEmpty = false :=
      List.isEmpty_eq_false_iff.2 hread
    rw [if_neg hread] at h ⊢
    simp only [reportStatic_eq, hread']
    exact ⟨_, rfl, rfl⟩

/-- What a machine that has come to an end shows, after a source was read and bound without an error. -/
theorem conclude_shows (s : Session) (nextSite : Site) (errors : List StaticError)
    (records : List LogRecord) {m : Machine} {v : Verdict}
    (hv : (Ending.ran m.outcome).verdict? = some v) :
    Turn.Shows s errors { ({ s with console := s.console.reset, nextSite }).conclude m with
        notices := records.map .record ++
          (({ s with console := s.console.reset, nextSite }).conclude m).notices } v := by
  have hrecords := Notice.diagnostics_records (records ++ m.store.log.toList)
  rw [List.map_append] at hrecords
  unfold conclude
  cases houtcome : m.outcome with
  | finished =>
    rw [houtcome] at hv
    obtain rfl : Verdict.finished = v := Option.some.inj hv
    exact ⟨rfl, rfl, rfl, rfl, nofun, fun _ => hrecords, nofun, nofun⟩
  | error e =>
    rw [houtcome] at hv
    obtain rfl : Verdict.failed = v := Option.some.inj hv
    refine ⟨rfl, rfl, rfl, rfl, nofun, nofun, fun _ => ⟨e, rfl, ?_⟩, nofun⟩
    dsimp only
    rw [← List.append_assoc, Notice.diagnostics_append, hrecords]
    rfl
  | overflow =>
    rw [houtcome] at hv
    obtain rfl : Verdict.overflowed = v := Option.some.inj hv
    exact ⟨rfl, rfl, rfl, rfl, nofun, nofun, nofun, fun _ => hrecords⟩
  -- These two outcomes have no verdict.
  | fault f | unfinished =>
    rw [houtcome] at hv
    cases hv

/-- The run of an accepted source is that of its machine, with what it has to report. -/
theorem run_eq_of_accepts (h : s.Accepts source) (limits : Limits) (steps : Nat) :
    s.run limits steps source =
      let m := (s.start source).run limits steps
      let turn := ({ s with
        console := s.console.reset
        nextSite := (Reading.ofSource s.nextSite source).nextSite }).conclude m
      { turn with
        notices := [.parsed (s.program source).length true,
          .resolved (Bound.ofProgram (s.program source)).bindings.length true].map .record ++
            turn.notices } := by
  rw [run, prepare_eq_of_accepts h]

/-- A source with static errors is rejected. -/
theorem run_shows_rejected (h : s.staticErrors source ≠ []) (limits : Limits) (steps : Nat) :
    (s.run limits steps source).Shows s (s.staticErrors source) .rejected := by
  obtain ⟨notices, hprepare, hdiagnostics⟩ := prepare_eq_of_errors h
  rw [run, hprepare]
  refine ⟨rfl, rfl, rfl, rfl, fun _ => ⟨rfl, rfl, hdiagnostics⟩, ?_, ?_, ?_⟩
  all_goals
    intro hother
    cases hother

/-- While an accepted source runs there is no static error. -/
theorem hadError_run_of_accepts (h : s.Accepts source) (limits : Limits) (steps : Nat) :
    (s.run limits steps source).session.console.hadError = false := by
  rw [run_eq_of_accepts h]
  unfold conclude
  dsimp only
  split <;> rfl

/-- A verdict that a run shows is the verdict of its ending. -/
theorem unique_of_shows {errors : List StaticError} {t : Turn} {v w : Verdict}
    (hv : t.Shows s errors v) (hw : t.Shows s errors w) : v = w :=
  Option.some.inj (hv.ending.symm.trans hw.ending)

end Session

/-- A run in a sound session does not break a guarantee. -/
theorem Session.Sound.verdict? {s : Session} {programs : List Program} (h : s.Sound programs) {source : Text}
    (hsource : s.Accepts source) {m : Machine}
    (hm : m.Sound (Visited (s.program source :: programs)) (s.distances source))
    (hhalted : m.halted = true) : ∃ v ≠ .rejected, (Ending.ran m.outcome).verdict? = some v := by
  have hstep := hm.inStep (h.opening hsource)
  rcases Machine.outcome_of_halted hhalted hstep.outcome_ne_fault with h | ⟨e, h⟩ | h
  · exact ⟨.finished, nofun, by rw [h]; rfl⟩
  · exact ⟨.failed, nofun, by rw [h]; rfl⟩
  · exact ⟨.overflowed, nofun, by rw [h]; rfl⟩

namespace Session

variable {s : Session} {source : Text}

/-- The flags after a run do not depend on those before it. -/
theorem flags_run (s : Session) (source : Text) (limits : Limits) (steps : Nat) (c : Console) :
    let before := ({ s with console := c }).run limits steps source
    let after := s.run limits steps source
    before.session.console.hadError = after.session.console.hadError ∧
      before.session.console.hadRuntimeError = after.session.console.hadRuntimeError := by
  by_cases h : s.staticErrors source = []
  · have haccepts : s.Accepts source := accepts_iff.2 h
    have haccepts' : ({ s with console := c } : Session).Accepts source := haccepts
    dsimp only
    rw [run_eq_of_accepts haccepts, run_eq_of_accepts haccepts']
    unfold conclude
    dsimp only [start, opening, program]
    split <;> exact ⟨rfl, rfl⟩
  · have hshows := run_shows_rejected h limits steps
    have hshows' := run_shows_rejected (s := { s with console := c }) h limits steps
    exact ⟨hshows'.hadError.trans hshows.hadError.symm,
      hshows'.hadRuntimeError.trans hshows.hadRuntimeError.symm⟩

end Session

/-! ## Scripts -/

/-- The machines that a host gets to from a machine: it runs it for some steps under a limit on the active
calls, and in between takes away what was printed and logged. The clock may show another time whenever the
host goes on. -/
inductive Machine.Driven (maxDepth : Nat) (m : Machine) : Machine → Prop where
  | start : Driven maxDepth m m
  | run {m' : Machine} (h : Driven maxDepth m m') (clock : Nat → Number) (steps : Nat) :
    Driven maxDepth m (m'.run ⟨maxDepth, clock⟩ steps)
  | handOn {m' : Machine} (h : Driven maxDepth m m') :
    Driven maxDepth m { m' with store := { m'.store with printed := #[], log := #[] } }

/-- A host keeps a machine sound. -/
theorem Machine.Driven.sound {walk : Walk} {recorded : Site → Option Nat} (hwalk : walk.Lawful recorded)
    {maxDepth : Nat} {m m' : Machine} (h : m.Driven maxDepth m') (hm : m.Sound walk recorded) :
    m'.Sound walk recorded := by
  induction h with
  | start => exact hm
  | run _ clock steps ih => exact ih.run hwalk ⟨maxDepth, clock⟩ steps
  | @handOn m' _ ih =>
    obtain ⟨control, tasks, s⟩ := m'
    obtain ⟨hs, hcontrol⟩ := ih
    refine ⟨⟨hs.heap, hs.bindings⟩, ?_⟩
    cases control with
    | complete c => cases c <;> exact hcontrol
    | _ => exact hcontrol

namespace Command

variable {World : Type} (host : Host (StateM World)) (mode : Mode) (s : Session)

theorem run_bind {α β : Type} (x : StateM World α) (f : α → StateM World β) (w : World) :
    (x >>= f).run w = (f (x.run w).1).run (x.run w).2 := rfl

/-- A rejected source leaves the flag of a static error. -/
theorem runSource_of_errors {source : Text} (h : s.staticErrors source ≠ []) (w : World) :
    ((runSource host mode s source).run w).1.2 = .rejected ∧
      ((runSource host mode s source).run w).1.1.console.hadError = true := by
  obtain ⟨notices, hprepare, -⟩ := Session.prepare_eq_of_errors h
  rw [runSource, hprepare]
  exact ⟨rfl, rfl⟩

/-- An accepted source ends as the machine that the host has run. -/
theorem runSource_of_accepts {source : Text} (h : s.Accepts source) (w : World) :
    ∃ w',
      let turn := ({ s with
        console := s.console.reset
        nextSite := (Reading.ofSource s.nextSite source).nextSite }).conclude
          ((host.execute mode.maxDepth (handOn host mode.verbose) (s.start source)).run w').1
      ((runSource host mode s source).run w).1 = (turn.session, turn.ending) := by
  rw [runSource, Session.prepare_eq_of_accepts h]
  generalize List.map Notice.record _ = notices
  generalize { s with console := s.console.reset, nextSite := _ } = s'
  dsimp only
  refine ⟨((writeNotices host mode.verbose notices).run w).2, ?_⟩
  rw [run_bind, run_bind, run_bind, run_bind]
  split <;> rfl

/-- The exit of a readable script is that of its session and its ending. -/
theorem script_exit {path source : Text} {w : World} (hmode : mode.shows = false)
    (hread : ((host.contentsOf path).run w).1 = .ok source) :
    ((script host mode s path).run w).1 =
      let result := ((runSource host mode s source).run ((host.contentsOf path).run w).2).1
      result.1.exit result.2 := by
  rw [script, run_bind, hread]
  dsimp only
  rw [if_neg (by rw [hmode]; exact Bool.false_ne_true), run_bind]
  rfl

end Command

/-- A script exits by the flags with the code of the verdict that is shown. -/
theorem Turn.Shows.code_exit {s : Session} {errors : List StaticError} {t : Turn} {v : Verdict}
    (h : t.Shows s errors v) : (t.session.exit t.ending).code = v.exitCode := by
  have hending := h.ending
  have herror := h.hadError
  have hruntime := h.hadRuntimeError
  unfold Ending.verdict? at hending
  split at hending <;> rename_i heq
  case h_5 | h_6 => cases hending
  all_goals
    cases hending
    rw [heq]
    simp only [Session.exit, Console.exit, herror, hruntime]
    rfl

/-- The code with which a readable script exits in a sound session is that of its verdict. -/
theorem Session.Sound.script_code {s : Session} {programs : List Program} (h : s.Sound programs)
    {World : Type} (host : Host (StateM World)) {mode : Mode} {path source : Text} {w : World}
    (hmode : mode.shows = false) (hread : ((host.contentsOf path).run w).1 = .ok source)
    (hexecute : ∀ m w', (s.prepare source).2.2 = some m →
      let m' := ((host.execute mode.maxDepth (Command.handOn host mode.verbose) m).run w').1
      m.Driven mode.maxDepth m' ∧ m'.halted = true) :
    ∃ (ending : Ending) (v : Verdict), ending.verdict? = some v ∧ (v = .rejected ↔ s.staticErrors source ≠ []) ∧
      (s.staticErrors source = [] → ∃ m w', (s.prepare source).2.2 = some m ∧ ending = .ran
        ((host.execute mode.maxDepth (Command.handOn host mode.verbose) m).run w').1.outcome) ∧
      ((Command.script host mode s path).run w).1.code = v.exitCode := by
  rw [Command.script_exit host mode s hmode hread]
  generalize ((host.contentsOf path).run w).2 = w
  by_cases herrors : s.staticErrors source = []
  · have haccepts : s.Accepts source := accepts_iff.2 herrors
    obtain ⟨w', hresult⟩ := Command.runSource_of_accepts host mode s haccepts w
    have hprepare := (prepare_of_accepts haccepts).2.2
    obtain ⟨hdriven, hhalted⟩ := hexecute _ w' hprepare
    -- Whatever the host does between the steps, the machine stays sound.
    have hsound := hdriven.sound (h.opening haccepts).lawful (h.start source)
    obtain ⟨v, hv, hverdict⟩ := h.verdict? haccepts hsound hhalted
    refine ⟨_, v, hverdict, iff_of_false hv (not_not.2 herrors),
      fun _ => ⟨_, w', hprepare, rfl⟩, ?_⟩
    rw [hresult]
    exact (conclude_shows s _ [] [] hverdict).code_exit
  · refine ⟨.rejected, .rejected, rfl, iff_of_true rfl herrors, fun h => absurd h herrors, ?_⟩
    obtain ⟨hending, hflag⟩ := Command.runSource_of_errors host mode s herrors w
    dsimp only
    rw [hending]
    exact congrArg Exit.code (if_pos hflag)

/-- Running a source in a session, whatever it was asked for before. A source with static errors is
rejected: they are reported, nothing is printed and nothing else changes. Any other source that comes to an
end finishes, fails with one reported runtime error, or overflows, and shows exactly one of the three. The
flags do not depend on those before, and a script exits with the code of its verdict. -/
theorem Session.run_classified (color showTrace : Bool) (requests : List Request) (source : Text) :
    let s := serveAll color showTrace requests
    let errors := s.staticErrors source
    (∀ limits steps,
      let turn := s.run limits steps source
      (errors ≠ [] → turn.Shows s errors .rejected) ∧
      (errors = [] → turn.session.console.hadError = false ∧
        (turn.ending ≠ .ran .unfinished → ∃! v, v ≠ .rejected ∧ turn.Shows s errors v)) ∧
      ∀ console : Console,
        let other := ({ s with console }).run limits steps source
        other.session.console.hadError = turn.session.console.hadError ∧
          other.session.console.hadRuntimeError = turn.session.console.hadRuntimeError) ∧
    ∀ {World : Type} (host : Host (StateM World)) (mode : Mode) (path : Text) (w : World),
      mode.shows = false → ((host.contentsOf path).run w).1 = .ok source →
      (∀ m w', (s.prepare source).2.2 = some m →
        let m' := ((host.execute mode.maxDepth (Command.handOn host mode.verbose) m).run w').1
        m.Driven mode.maxDepth m' ∧ m'.halted = true) →
      ∃ (ending : Ending) (v : Verdict), ending.verdict? = some v ∧ (v = .rejected ↔ errors ≠ []) ∧
        (errors = [] → ∃ m w', (s.prepare source).2.2 = some m ∧ ending = .ran
          ((host.execute mode.maxDepth (Command.handOn host mode.verbose) m).run w').1.outcome) ∧
        ((Command.script host mode s path).run w).1.code = v.exitCode := by
  intro s errors
  have hsound := sound_serveAll color showTrace requests
  refine ⟨fun limits steps => ⟨fun herrors => run_shows_rejected herrors limits steps, fun herrors => ?_,
    fun console => s.flags_run source limits steps console⟩,
    fun host mode path w hmode hread hexecute => hsound.script_code host hmode hread hexecute⟩
  have haccepts : s.Accepts source := accepts_iff.2 herrors
  refine ⟨hadError_run_of_accepts haccepts limits steps, fun hended => ?_⟩
  have hrun := run_eq_of_accepts haccepts limits steps
  have hmachine := (hsound.start source).run (hsound.opening haccepts).lawful limits steps
  have hending := (run_of_accepts haccepts limits steps).2.2
  -- A sound machine that has come to an end has not broken a guarantee, so there is a verdict.
  obtain ⟨v, hv, hverdict⟩ := hsound.verdict? haccepts hmachine
    (Machine.halted_of_outcome fun h => hended (by rw [hending, h]))
  have hshows : (s.run limits steps source).Shows s errors v := by
    rw [hrun]
    exact conclude_shows s _ errors _ hverdict
  exact ⟨v, ⟨hv, hshows⟩, fun w hw => unique_of_shows hw.2 hshows⟩

/-- A host that knows one file and runs a machine for a hundred steps. -/
def Host.ofFile (contents : Text) : Host (StateM Unit) where
  home := none
  contentsOf _ := pure (.ok contents)
  save _ _ := pure ()
  readLine := pure none
  writeOut _ := pure ()
  writeErr _ := pure ()
  execute maxDepth handOn m := do
    let m := m.run ⟨maxDepth, fun _ => ⟨0⟩⟩ 100
    return { m with store := ← handOn m.store }
  patience := 0

theorem Machine.outcome_store (m : Machine) (s : Store) : ({ m with store := s }).outcome = m.outcome := by
  obtain ⟨control, tasks, -⟩ := m
  cases control with
  | complete c | unwind c => cases c <;> cases tasks <;> rfl
  | _ => rfl

theorem Host.execute_ofFile (contents : Text) (maxDepth : Nat) (m : Machine) (w : Unit) :
    let host := Host.ofFile contents
    ((host.execute maxDepth (Command.handOn host false) m).run w).1 =
      let m := m.run ⟨maxDepth, fun _ => ⟨0⟩⟩ 100
      { m with store := { m.store with printed := #[], log := #[] } } := rfl

/-- A script whose function calls itself without end exits with the code of an overflow. -/
theorem Session.run_classified_recursion :
    let host := Host.ofFile recursionSource
    let s := serveAll false false []
    ((host.contentsOf []).run ()).1 = .ok recursionSource ∧ s.staticErrors recursionSource = [] ∧
      ((Command.script host ⟨false, false, false, 1⟩ s []).run ()).1.code = 71 := by
  intro host s
  have haccepts : s.Accepts recursionSource := recursionSource_accepts
  have herrors := accepts_iff.1 haccepts
  have hmachine := (prepare_of_accepts haccepts).2.2
  have hoverflow : ((s.start recursionSource).run ⟨1, fun _ => ⟨0⟩⟩ 100).outcome = .overflow := by
    decide +kernel
  generalize s.start recursionSource = m at hmachine hoverflow
  have hexecute := Host.execute_ofFile recursionSource 1 m ()
  have hdriven : m.Driven 1 (m.run ⟨1, fun _ => ⟨0⟩⟩ 100) := .run .start _ 100
  have hends := fun s => (Machine.outcome_store (m.run ⟨1, fun _ => ⟨0⟩⟩ 100) s).trans hoverflow
  obtain ⟨ending, v, hv, -, hending, hcode⟩ := (run_classified false false [] recursionSource).2 host
    ⟨false, false, false, 1⟩ [] () rfl rfl (by
      intro m' w' hm
      obtain rfl := Option.some.inj (hmachine.symm.trans hm)
      dsimp only
      rw [hexecute]
      exact ⟨.handOn hdriven, Machine.halted_of_outcome (by rw [hends]; rintro ⟨⟩)⟩)
  obtain ⟨m', w', hm, rfl⟩ := hending herrors
  obtain rfl := Option.some.inj (hmachine.symm.trans hm)
  rw [hexecute, hends] at hv
  obtain rfl : Verdict.overflowed = v := Option.some.inj hv
  exact ⟨rfl, herrors, hcode⟩

end Lox
