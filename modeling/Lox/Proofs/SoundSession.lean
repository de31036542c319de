import Lox.Session
import Lox.Proofs.SoundMachine

/-!
# Accepted programs do not fault

A session answers requests to read a source and to run one. It runs sources one after another on one store, so that
functions of an earlier program may be called by a later one. `Session.history` lists the programs that requests make a
session run. Each of them was bound at sites of its own, so what was recorded about the earlier ones stays, and the
store stays sound for all of them (`Session.sound_serveAll`).
-/

namespace Lox

variable {recorded : Site → Option Nat} {programs : List Program} {m : Machine}

/-- The phrases of programs, where the walks over them come to them. -/
def Visited (programs : List Program) : Walk := fun b n => ∃ program ∈ programs, Visits program b n

/-- The references of programs are recorded. -/
def Recorded (recorded : Site → Option Nat) (programs : List Program) : Prop :=
  ∀ program ∈ programs, Phrase.Sound recorded .start (.stmts program)

/-- The walks over programs whose references are recorded are lawful. -/
theorem Recorded.lawful (h : Recorded recorded programs) : (Visited programs).Lawful recorded where
  child := by
    rintro b c n m ⟨program, hprogram, hvisits⟩ hm
    exact ⟨program, hprogram, hvisits.child hm⟩
  sound := by
    rintro b n ⟨program, hprogram, hvisits⟩
    exact hvisits.sound (h program hprogram)
  meets := by
    rintro b e ⟨program, hprogram, hvisits⟩
    exact hvisits.meets (h program hprogram)

/-- The bindings of a program come before those that were there. -/
theorem Store.getElem?_addBindings (s : Store) (bindings : List (Site × Nat)) (site : Site) :
    (s.addBindings bindings).bindings[site]? = (bindings.reverse.lookup site).or s.bindings[site]? := by
  unfold Store.addBindings
  dsimp only
  generalize s.bindings = all
  induction bindings generalizing all with
  | nil => rfl
  | cons p rest ih =>
    obtain ⟨site', d⟩ := p
    rw [List.foldl_cons, ih, List.reverse_cons, List.lookup_append, Option.or_assoc,
      Std.TreeMap.getElem?_insert]
    by_cases hsite : site = site'
    · subst hsite
      simp
    · have hne : (site == site') = false := beq_false_of_ne hsite
      have hcompare : compare site' site ≠ .eq := fun h => hsite (compare_eq_iff_eq.1 h).symm
      rw [List.lookup_cons, hne]
      simp [hcompare]

/-- Defining built-in functions gives built-in functions only. -/
theorem Forest.slot?_define_natives (natives : List Native) (f : Forest) {e : ScopeId} {name : Text}
    {v : Value} (hf : ∀ e name v, f.slot? e name = some v → ∃ n, v = .native n)
    (hv : (natives.foldl (fun f n => f.define Heap.globals (text n.name) (.native n)) f).slot? e name =
      some v) : ∃ n, v = .native n := by
  induction natives generalizing f with
  | nil => exact hf e name v hv
  | cons n natives ih =>
    refine ih (f.define Heap.globals (text n.name) (.native n)) (fun e' name' w hw => ?_) hv
    rw [Forest.slot?_define] at hw
    split at hw
    · exact ⟨n, (Option.some.inj hw).symm⟩
    · exact hf e' name' w hw

/-- The heap with which a session starts is sound. -/
theorem Heap.Sound.initial (walk : Walk) : Heap.initial.Sound walk where
  globals := by decide
  scopes e name v hv := by
    have hnew : ∀ e name v, (Forest.empty.new none).1.slot? e name = some v → ∃ n, v = .native n := by
      intro e name v hv
      rw [Forest.slot?_new, Forest.slot?, Forest.empty] at hv
      simp at hv
    obtain ⟨n, rfl⟩ := Forest.slot?_define_natives Native.all (Forest.empty.new none).1 hnew hv
    trivial
  fields o name v hv := by
    simp [Heap.field?, Heap.initial, Heap.empty] at hv
  methods c name i hi := by
    simp [Heap.ownMethod?, Heap.initial, Heap.empty] at hi

namespace Session

/-- The program that a session reads from a source. -/
def program (s : Session) (source : Text) : Program := (Reading.ofSource s.nextSite source).program

/-- A source that is read and bound without an error. -/
def Accepts (s : Session) (source : Text) : Prop :=
  (Reading.ofSource s.nextSite source).errors = [] ∧ (Bound.ofProgram (s.program source)).errors = []

/-- The store in which an accepted source runs. -/
def opening (s : Session) (source : Text) : Store :=
  { s.store.addBindings (Bound.ofProgram (s.program source)).bindings with printed := #[], log := #[] }

/-- The machine that runs an accepted source. -/
abbrev start (s : Session) (source : Text) : Machine := .start (s.program source) (s.opening source)

/-- The distances that are recorded when an accepted source starts. -/
abbrev distances (s : Session) (source : Text) (site : Site) : Option Nat := (s.opening source).bindings[site]?

instance (s : Session) (source : Text) : Decidable (s.Accepts source) :=
  inferInstanceAs (Decidable (_ ∧ _))

/-- What a session can be asked for: to read a source, which shows what is wrong with it, or to run one. -/
inductive Request where
  | read (source : Text)
  | run (limits : Limits) (steps : Nat) (source : Text)

/-- The session after a request. -/
def serve (s : Session) : Request → Session
  | .read source => (s.read source).1
  | .run limits steps source => (s.run limits steps source).session

/-- The session after requests, from its start. -/
def serveAll (color showTrace : Bool) (requests : List Request) : Session :=
  requests.foldl serve (.new color showTrace)

/-- The program that a request makes a session run, if it does. -/
def runs (s : Session) : Request → List Program
  | .read _ => []
  | .run _ _ source => if s.Accepts source then [s.program source] else []

/-- The programs that requests make a session run, the last one first. -/
def history (s : Session) : List Request → List Program
  | [] => []
  | request :: rest => (s.serve request).history rest ++ s.runs request

variable {s : Session} {source : Text}

/-- An accepted source is prepared to be run. -/
theorem prepare_of_accepts (h : s.Accepts source) :
    (s.prepare source).1.store = s.store ∧
      (s.prepare source).1.nextSite = (Reading.ofSource s.nextSite source).nextSite ∧
      (s.prepare source).2.2 = some (s.start source) := by
  obtain ⟨hread, hbound⟩ := h
  have hread' : (Reading.ofSource s.nextSite source).errors.isEmpty = true := by rw [hread]; rfl
  have hbound' : (Bound.ofProgram (s.program source)).errors.isEmpty = true := by rw [hbound]; rfl
  unfold prepare read
  dsimp only
  rw [if_pos hread']
  unfold program at hbound'
  rw [if_pos hbound']
  exact ⟨rfl, rfl, rfl⟩

/-- The machine of an accepted source. -/
theorem eq_start (h : s.Accepts source) {m : Machine} (hm : (s.prepare source).2.2 = some m) :
    m = s.start source :=
  Option.some.inj (hm.symm.trans (prepare_of_accepts h).2.2)

/-- A source that is not accepted is not run. -/
theorem prepare_of_not_accepts (h : ¬ s.Accepts source) :
    (s.prepare source).1.store = s.store ∧
      (s.prepare source).1.nextSite = (Reading.ofSource s.nextSite source).nextSite ∧
      (s.prepare source).2.2 = none := by
  unfold prepare read
  dsimp only
  split_ifs with hread hbound
  · exact absurd ⟨List.isEmpty_iff.1 hread, List.isEmpty_iff.1 hbound⟩ h
  · exact ⟨rfl, rfl, rfl⟩
  · exact ⟨rfl, rfl, rfl⟩

theorem conclude_spec (s : Session) (m : Machine) :
    (s.conclude m).session.store = m.store ∧ (s.conclude m).session.nextSite = s.nextSite ∧
      (s.conclude m).ending = .ran m.outcome := by
  unfold conclude
  split
  · next e he => exact ⟨rfl, rfl, by rw [he]⟩
  · exact ⟨rfl, rfl, rfl⟩

/-- The session after an accepted source has the store of its machine. -/
theorem run_of_accepts (h : s.Accepts source) (limits : Limits) (steps : Nat) :
    (s.run limits steps source).session.store =
        ((s.start source).run limits steps).store ∧
      (s.run limits steps source).session.nextSite = (Reading.ofSource s.nextSite source).nextSite ∧
      (s.run limits steps source).ending =
        .ran ((s.start source).run limits steps).outcome := by
  obtain ⟨-, hnext, hmachine⟩ := prepare_of_accepts h
  unfold run
  generalize s.prepare source = prepared at hnext hmachine
  obtain ⟨s', notices, m⟩ := prepared
  obtain rfl : m = _ := hmachine
  obtain ⟨hstore, hsite, hending⟩ := s'.conclude_spec
    ((s.start source).run limits steps)
  exact ⟨hstore, hsite.trans hnext, hending⟩

/-- A source that is not accepted leaves the store. -/
theorem run_of_not_accepts (h : ¬ s.Accepts source) (limits : Limits) (steps : Nat) :
    (s.run limits steps source).session.store = s.store ∧
      (s.run limits steps source).session.nextSite = (Reading.ofSource s.nextSite source).nextSite := by
  obtain ⟨hstore, hnext, hmachine⟩ := prepare_of_not_accepts h
  unfold run
  generalize s.prepare source = prepared at hstore hnext hmachine
  obtain ⟨s', notices, m⟩ := prepared
  obtain rfl : m = _ := hmachine
  exact ⟨hstore, hnext⟩

/-- A session whose store is sound for the programs that it has run, all at sites before its own. -/
structure Sound (s : Session) (programs : List Program) : Prop where
  store : s.store.heap.Sound (Visited programs)
  recorded : Recorded (fun site => s.store.bindings[site]?) programs
  before : ∀ program ∈ programs, ∀ site ∈ (Phrase.stmts program).sites, site < s.nextSite
  fresh : ∀ site, s.nextSite ≤ site → s.store.bindings[site]? = none

end Session

theorem Phrase.Sound.congr {recorded' : Site → Option Nat} {b : Binder} {n : Phrase} (h : n.Sound recorded b)
    (hsame : ∀ site ∈ n.sites, recorded' site = recorded site) : n.Sound recorded' b :=
  ⟨h.nodup, h.names, h.formed, h.fresh, fun site hs => (hsame site hs).trans (h.settled site hs), h.accepted⟩

namespace Session.Sound

variable {s : Session} {source : Text} {programs : List Program}

/-- The program of a source records its own distances and leaves the earlier ones. -/
theorem distances_eq (s : Session) (source : Text) (site : Site) :
    s.distances source site =
      ((Stmt.bindAll (s.program source) .start).bindings.lookup site).or s.store.bindings[site]? := by
  have h := s.store.getElem?_addBindings (Bound.ofProgram (s.program source)).bindings site
  rwa [Bound.ofProgram, List.reverse_reverse] at h

theorem le_of_mem_sites {site : Site} (hsite : site ∈ (Phrase.stmts (s.program source)).sites) :
    s.nextSite ≤ site ∧ site < (Reading.ofSource s.nextSite source).nextSite := by
  obtain ⟨p, hp, rfl⟩ := List.mem_map.1 hsite
  rw [Reading.nextSite_eq]
  exact (Reading.located s.nextSite source).within p hp

/-- A program records nothing about the sites of others. -/
theorem lookup_bindAll {site : Site}
    (hsite : site < s.nextSite ∨ (Reading.ofSource s.nextSite source).nextSite ≤ site) :
    (Stmt.bindAll (s.program source) .start).bindings.lookup site = none := by
  have hnot : site ∉ (Phrase.stmts (s.program source)).sites := by
    intro hmem
    have hwithin := le_of_mem_sites hmem
    rcases hsite with hsite | hsite
    · exact Nat.not_le.2 hsite hwithin.1
    · exact Nat.not_le.2 hwithin.2 hsite
  exact ((Phrase.stmts (s.program source)).adds .start).lookup hnot

/-- In the store where an accepted source runs its references are recorded beside the earlier ones. -/
theorem opening (h : s.Sound programs) (hsource : s.Accepts source) :
    Recorded (s.distances source) (s.program source :: programs) := by
  have hlocated := Reading.located s.nextSite source
  refine List.forall_mem_cons.2 ⟨?_, fun program hprogram => ?_⟩
  · refine ⟨hlocated.nodup, hlocated.names, Reading.formed _ _, fun _ _ => rfl,
      fun site hsite => ?_, List.reverse_eq_nil_iff.1 hsource.2⟩
    rw [distances_eq, h.fresh site (le_of_mem_sites hsite).1, Option.or_none]
    rfl
  · refine (h.recorded program hprogram).congr fun site hsite => ?_
    rw [distances_eq, lookup_bindAll (.inl (h.before program hprogram site hsite)), Option.none_or]

/-- The machine of an accepted source is sound at its start. -/
theorem start (h : s.Sound programs) (source : Text) :
    (s.start source).Sound (Visited (s.program source :: programs)) (s.distances source) := by
  have hheap : s.store.heap.Sound (Visited (s.program source :: programs)) :=
    h.store.mono_walk fun b n ⟨program, hprogram, hvisits⟩ => ⟨program, .tail _ hprogram, hvisits⟩
  refine ⟨⟨hheap, fun _ => rfl⟩, [], .outside, .globals, ?_⟩
  exact .sequence (b := .start) ⟨s.program source, .head _, .start⟩ .nil

theorem new (color showTrace : Bool) : (Session.new color showTrace).Sound [] :=
  ⟨.initial _, nofun, nofun, fun _ _ => Std.TreeMap.getElem?_emptyc⟩

/-- A session stays sound when it runs an accepted source. -/
theorem ran (h : s.Sound programs) (hsource : s.Accepts source) (limits : Limits) (steps : Nat) :
    (s.run limits steps source).session.Sound (s.program source :: programs) := by
  obtain ⟨hstore, hnext, -⟩ := run_of_accepts hsource limits steps
  have hrecorded := h.opening hsource
  have hmachine := (h.start source).run hrecorded.lawful limits steps
  have hle := Reading.le_nextSite s.nextSite source
  refine ⟨?_, ?_, ?_, ?_⟩
  · rw [hstore]
    exact hmachine.store.heap
  · rw [hstore]
    simp only [hmachine.store.bindings]
    exact hrecorded
  · rw [hnext]
    refine List.forall_mem_cons.2 ⟨fun site hsite => (le_of_mem_sites hsite).2, ?_⟩
    intro program hprogram site hsite
    exact Nat.lt_of_lt_of_le (h.before program hprogram site hsite) hle
  · intro site hsite
    rw [hnext] at hsite
    rw [hstore, hmachine.store.bindings, distances_eq, lookup_bindAll (.inr hsite),
      h.fresh site (hle.trans hsite)]
    rfl

/-- A session stays sound while its store does not change. -/
theorem kept {s' : Session} (h : s.Sound programs) (hstore : s'.store = s.store) (hle : s.nextSite ≤ s'.nextSite) :
    s'.Sound programs where
  store := hstore ▸ h.store
  recorded := hstore ▸ h.recorded
  before program hprogram site hsite := Nat.lt_of_lt_of_le (h.before program hprogram site hsite) hle
  fresh site hsite := hstore ▸ h.fresh site (hle.trans hsite)

end Session.Sound

theorem Machine.Sound.ne_fault {walk : Walk} (h : m.Sound walk recorded) (f : Fault) : m.control ≠ .fault f := by
  intro hcontrol
  have hsound := h.control
  rw [hcontrol] at hsound
  exact hsound

/-- The machine of an accepted source is sound all the time. -/
theorem Session.Sound.machine {s : Session} {source : Text} (h : s.Sound programs)
    (hsource : s.Accepts source) (limits : Limits) (n : Nat) :
    ((s.start source).run limits n).Sound (Visited (s.program source :: programs)) (s.distances source) :=
  (h.start source).run (h.opening hsource).lawful limits n

namespace Session

variable {P : Session → List Program → Prop}

/-- A request leaves the store as it is and goes on to later sites, or it runs an accepted source. -/
theorem serve_cases {s : Session} (request : Request)
    (hkept : ∀ s' : Session, s'.store = s.store → s.nextSite ≤ s'.nextSite → P s' [])
    (hran : ∀ limits steps source, s.Accepts source → P (s.run limits steps source).session [s.program source]) :
    P (s.serve request) (s.runs request) := by
  cases request with
  | read source => exact hkept _ rfl (Reading.le_nextSite _ _)
  | run limits steps source =>
    by_cases hsource : s.Accepts source
    · rw [runs, if_pos hsource]
      exact hran limits steps source hsource
    · rw [runs, if_neg hsource]
      obtain ⟨hstore, hnext⟩ := run_of_not_accepts hsource limits steps
      exact hkept _ hstore (hnext ▸ Reading.le_nextSite _ _)

/-- What every request keeps is kept by requests, with the programs that they make the session run. -/
theorem foldl_serve
    (hkept : ∀ {s s' : Session} {programs}, P s programs → s'.store = s.store → s.nextSite ≤ s'.nextSite →
      P s' programs)
    (hran : ∀ {s : Session} {programs source}, P s programs → s.Accepts source → ∀ limits steps,
      P (s.run limits steps source).session (s.program source :: programs)) (requests : List Request)
    {s : Session} (programs : List Program) (h : P s programs) :
    P (requests.foldl serve s) (s.history requests ++ programs) := by
  induction requests generalizing s programs with
  | nil => exact h
  | cons request requests ih =>
    have hnext : P (s.serve request) (s.runs request ++ programs) :=
      serve_cases (P := fun s' ran => P s' (ran ++ programs)) request (fun s' hstore hle => hkept h hstore hle)
        fun limits steps source hsource => hran h hsource limits steps
    rw [history, List.append_assoc]
    exact ih _ hnext

/-- Whatever a session was asked for, it is sound for the programs that it has run. -/
theorem sound_serveAll (color showTrace : Bool) (requests : List Request) :
    (serveAll color showTrace requests).Sound ((new color showTrace).history requests) := by
  have hserved := foldl_serve (P := Sound) Sound.kept Sound.ran requests [] (.new color showTrace)
  rwa [List.append_nil] at hserved

/-- What is true of a new session and kept by every request is true of every session, with the programs that it has
run. All of them are sound. -/
theorem serveAll_induction {color showTrace : Bool} (hnew : P (.new color showTrace) [])
    (hkept : ∀ {s s' : Session} {programs}, P s programs → s'.store = s.store → P s' programs)
    (hran : ∀ {s : Session} {programs source}, s.Sound programs → P s programs → s.Accepts source →
      ∀ limits steps, P (s.run limits steps source).session (s.program source :: programs))
    (requests : List Request) :
    P (serveAll color showTrace requests) ((new color showTrace).history requests) := by
  have hserved := foldl_serve (P := fun s programs => s.Sound programs ∧ P s programs)
    (fun h hstore hle => ⟨h.1.kept hstore hle, hkept h.2 hstore⟩)
    (fun h hsource limits steps => ⟨h.1.ran hsource limits steps, hran h.1 h.2 hsource limits steps⟩)
    requests [] ⟨.new color showTrace, hnew⟩
  rw [List.append_nil] at hserved
  exact hserved.2

end Session

/-- What a machine is about to do keeps step with the walk over programs. There are as many scopes from
the current one out to the globals as were open where the phrase was bound, and a reference is recorded with
the distance that it had there, at which its name is found. -/
def Machine.InStep (programs : List Program) (m : Machine) : Prop :=
  match m.control, m.tasks with
  | .evaluate e, _ => ∃ b, Visited programs b (.expr e) ∧
      m.store.heap.forest.Depth m.store.scope b.scopes.length ∧
      ∀ p ∈ (Phrase.expr e).own, m.store.bindings[p.2.site]? = b.distance? p.2.name ∧
        p.1.Resolves m.store.heap.forest (m.store.bindings[·]?) m.store.scope p.2
  | .execute s, _ => ∃ b, Visited programs b (.stmt s) ∧
      m.store.heap.forest.Depth m.store.scope b.scopes.length
  | .deliver _, .assign ref :: _ =>
    Usage.assign.Resolves m.store.heap.forest (m.store.bindings[·]?) m.store.scope ref
  | .fault _, _ => False
  | _, _ => True

theorem Phrase.own_subset (n : Phrase) : n.own ⊆ n.references := fun _ h =>
  (n.references_perm .start).mem_iff.2 (List.mem_append_left _ h)

/-- A sound machine keeps step. -/
theorem Machine.Sound.inStep (hrecorded : Recorded recorded programs)
    (hm : m.Sound (Visited programs) recorded) : m.InStep programs := by
  obtain ⟨control, tasks, s⟩ := m
  obtain ⟨hs, hcontrol⟩ := hm
  have hbindings : (s.bindings[·]?) = recorded := funext hs.bindings
  unfold Machine.InStep
  dsimp only at hs hcontrol ⊢
  rw [hbindings]
  split
  · obtain ⟨⟨⟨b, hvisit, hdepth⟩, hresolves⟩, -⟩ := hcontrol
    refine ⟨b, hvisit, hdepth, fun p hp => ⟨?_, hresolves p (Phrase.own_subset _ hp)⟩⟩
    rw [hs.bindings]
    exact ((hrecorded.lawful.sound hvisit).own_resolved p hp).1
  · obtain ⟨b, hvisit, hmatches, -⟩ := hcontrol
    exact ⟨b, hvisit, hmatches.depth hs.heap.globals⟩
  · obtain ⟨-, ht⟩ := hcontrol
    cases ht with
    | operates htask _ => exact htask
    | finishes htask _ => exact htask.elim
  · exact hcontrol
  · trivial

/-- A machine that has come to an end without a fault shows one of the three ways to end. -/
theorem Machine.outcome_of_halted (hhalted : m.halted = true) (hfault : ∀ f, m.outcome ≠ .fault f) :
    m.outcome = .finished ∨ (∃ e, m.outcome = .error e) ∨ m.outcome = .overflow := by
  unfold Machine.halted at hhalted
  split at hhalted
  · exact .inl rfl
  · next failure s =>
    cases failure with
    | error e => exact .inr (.inl ⟨e, rfl⟩)
    | overflow => exact .inr (.inr rfl)
  · next f tasks s => exact absurd rfl (hfault f)
  · exact absurd hhalted Bool.false_ne_true

theorem Machine.InStep.outcome_ne_fault (h : m.InStep programs) (f : Fault) : m.outcome ≠ .fault f := by
  intro hfault
  unfold Machine.outcome at hfault
  split at hfault
  case h_4 => exact h
  all_goals cases hfault

/-- Whatever a session was asked for, an accepted source runs in step with the walk that bound it,
however long it runs: whatever the limits, it never faults, so it can only finish, end with a runtime
error or overflow the stack. -/
theorem Session.run_inStep (color showTrace : Bool) (requests : List Request) {source : Text}
    (hsource : (serveAll color showTrace requests).Accepts source) :
    let s := serveAll color showTrace requests
    ∃ m, (s.prepare source).2.2 = some m ∧ ∀ limits steps,
      (m.run limits steps).InStep (s.program source :: (new color showTrace).history requests) ∧
      (s.run limits steps source).ending = .ran (m.run limits steps).outcome ∧
      (∀ f, (m.run limits steps).outcome ≠ .fault f) ∧
      ((m.run limits steps).halted = true → (m.run limits steps).outcome = .finished ∨
        (∃ e, (m.run limits steps).outcome = .error e) ∨ (m.run limits steps).outcome = .overflow) := by
  have h := sound_serveAll color showTrace requests
  obtain ⟨-, -, hmachine⟩ := prepare_of_accepts hsource
  have hrecorded := h.opening hsource
  refine ⟨_, hmachine, fun limits steps => ?_⟩
  have hrun := (h.start source).run hrecorded.lawful limits steps
  have hstep := hrun.inStep hrecorded
  obtain ⟨-, -, hending⟩ := run_of_accepts hsource limits steps
  exact ⟨hstep, hending, hstep.outcome_ne_fault,
    fun hhalted => Machine.outcome_of_halted hhalted hstep.outcome_ne_fault⟩

/-- A method of a subclass, which refers to a parameter, to `super` and to `this`, is called on an instance. -/
def subclassSource : Text :=
  text "class A\x7bf()\x7b\x7d\x7dclass B<A\x7bf(x)\x7bx=super.f;print this;\x7d\x7dB().f(nil);"

theorem subclassSource_accepts : (Session.new false false).Accepts subclassSource := by decide +kernel

/-- The parameter, `this` and `super` are recorded with the distances 0, 1 and 2, and the method uses all three. -/
theorem Session.run_inStep_subclassSource :
    (serveAll false false []).Accepts subclassSource ∧
    ∃ m, ((serveAll false false []).prepare subclassSource).2.2 = some m ∧
      (m.run ⟨10, fun _ => ⟨0⟩⟩ 60).store.printed = #[text "B instance"] ∧
      [19, 26, 21].map ((m.run ⟨10, fun _ => ⟨0⟩⟩ 60).store.bindings[·]?) = [some 0, some 1, some 2] ∧
      ∀ limits steps, (m.run limits steps).InStep [(Session.new false false).program subclassSource] ∧
        (∀ f, (m.run limits steps).outcome ≠ .fault f) := by
  obtain ⟨m, hm, hrun⟩ := run_inStep false false [] subclassSource_accepts
  have hstart := eq_start subclassSource_accepts hm
  refine ⟨subclassSource_accepts, m, hm, ?_, ?_, fun limits steps => ⟨(hrun limits steps).1, (hrun limits steps).2.2.1⟩⟩
  · rw [hstart]
    decide +kernel
  · rw [hstart]
    decide +kernel

end Lox
