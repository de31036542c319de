import Lox.Proofs.Respelling
import Lox.Proofs.Verdict

/-!
# The names of local variables do not matter

`Session.run_rename_local` is the main result: an accepted source in which a local variable or a parameter gets
a name that is not used otherwise is accepted too. Every reference has the distance that it had, and a run
prints the same, logs the same and ends in the same way.
-/

namespace Lox

/-- A local variable of a source that gets another name. -/
def Session.localRenaming (s : Session) (source old new : Text) : Renaming where
  old := old
  new := new
  recorded site := (s.opening source).bindings[site]?

/-! ## The renamed variable -/

section Plain

variable {σ : Renaming}

theorem Stmt.FormedAll.forall_mem {ss : List Stmt} (h : Stmt.FormedAll ss) : ∀ s ∈ ss, s.Formed := by
  induction ss with
  | nil => simp
  | cons s ss ih => exact List.forall_mem_cons.2 ⟨h.1, ih h.2⟩

theorem Routine.FormedAll.forall_mem {rs : List Routine} (h : Routine.FormedAll rs) : ∀ r ∈ rs, r.Formed := by
  induction rs with
  | nil => simp
  | cons r rs ih => exact List.forall_mem_cons.2 ⟨h.1, ih h.2⟩

theorem Stmt.DeclareVariable.plain {name : Text} {body : List Stmt} (h : Stmt.DeclareVariable name body)
    (hbody : Stmt.FormedAll body) : Plain name := by
  obtain ⟨t, initializer, hmem, rfl⟩ := h
  exact hbody.forall_mem _ hmem

mutual

/-- A variable that is renamed has a plain name. -/
theorem Stmt.RenamesLocal.plain {s s' : Stmt} : Stmt.RenamesLocal σ s s' → s.Formed → Plain σ.old
  | .block h, hs => h.plain hs
  | .inBlock h, hs => h.plain (Stmt.FormedAll.forall_mem hs _ (by simp))
  | @Stmt.RenamesLocal.yes _ _ _ _ none h, hs => h.plain hs.2
  | @Stmt.RenamesLocal.yes _ _ _ _ (some _) h, hs => h.plain hs.1.2
  | .no h, hs => h.plain hs.2.2
  | .loop h, hs => h.plain hs.2
  | .routine h, hs => h.plain hs
  | .method h, hs => h.plain (Routine.FormedAll.forall_mem hs.2 _ (by simp))

theorem Routine.RenamesLocal.plain {r r' : Routine} : Routine.RenamesLocal σ r r' → r.Formed → Plain σ.old
  | .mk (.inl ⟨p, hp, heq⟩), hr => heq ▸ hr.2.1 p hp
  | .mk (.inr h), hr => h.plain hr.2.2
  | .inBody h, hr => h.plain (Stmt.FormedAll.forall_mem hr.2.2 _ (by simp))

end

theorem Program.RenamesLocal.plain {program program' : Program} (h : Program.RenamesLocal σ program program')
    (hprogram : Stmt.FormedAll program) : Plain σ.old := by
  obtain ⟨pre, s, s', post, rfl, -, hs⟩ := h
  exact hs.plain (hprogram.forall_mem s (by simp))

theorem Lexeme.plain {name : Text} (h : Lexeme .identifier name) : Plain name :=
  Token.Written.plain (t := ⟨.identifier, name, none, 0⟩) h rfl

end Plain

/-! ## Runs -/

/-- The built-in functions keep their names. -/
theorem Heap.initial_original {σ : Renaming} (hnatives : ∀ n : Native, text n.name ≠ σ.new) :
    Heap.initial.original σ = Heap.initial := by
  have key : ∀ s ∈ Heap.initial.forest.scopes, ∀ e ∈ s.names.entries,
      ∃ n ∈ Native.all, text n.name = e.1 := by
    decide +kernel
  have hscopes : Heap.initial.forest.scopes.map (Scope.original σ) = Heap.initial.forest.scopes := by
    refine (Array.map_congr_left fun s hs => ?_).trans (Array.map_id' _)
    have hnames : s.names.mapNames σ.original = s.names := by
      refine Table.mapNames_eq_self fun e he => ?_
      obtain ⟨n, -, hn⟩ := key s hs e he
      exact Renaming.original_of_ne (hn ▸ hnatives n)
    exact congrArg (fun names => { s with names }) hnames
  have hfunctions : Heap.initial.functions.map (Closure.original σ) = Heap.initial.functions := Array.map_empty
  unfold Heap.original
  rw [hscopes, hfunctions]

namespace Session

variable {σ : Renaming}

/-- What is told about a run of the old program is told about one of the renamed program. -/
theorem conclude_renames (s : Session) {m m' : Machine} (h : Machine.Renames σ m m') :
    (s.conclude m').printed = (s.conclude m).printed ∧ (s.conclude m').notices = (s.conclude m).notices ∧
      Outcome.Renames σ m.outcome m'.outcome := by
  have houtcome := h.outcome
  have hprinted : m'.store.printed = m.store.printed := by
    rw [h.store]
    rfl
  have hlog : m'.store.log = m.store.log := by
    rw [h.store]
    rfl
  refine ⟨?_, ?_, houtcome⟩
  · rw [printed_conclude, printed_conclude, hprinted]
  · unfold conclude
    rw [hlog]
    generalize m.outcome = o at houtcome
    generalize m'.outcome = o' at houtcome
    cases houtcome with
    | error ht cause trace =>
      dsimp only [RuntimeError.report]
      rw [ht.line]
    | _ => rfl

/-- The machines of two programs at their start, in a session that does not have the new name. -/
theorem start_renames {s : Session} {source source' : Text} (hheap : s.store.heap.original σ = s.store.heap)
    (hback : Stmt.renameAll σ.back (s.program source') 0 = s.program source)
    (hopening : s.opening source' = s.opening source) :
    Machine.Renames σ (.start (s.program source) (s.opening source))
      (.start (s.program source') (s.opening source')) := by
  refine ⟨.complete _, ?_, ?_⟩
  · exact congrArg (fun program => [Task.sequence program]) hback.symm
  · rw [hopening]
    exact congrArg (fun heap => { (s.start source).store with heap })
      hheap.symm

/-- A local variable or parameter of an accepted source gets a name that is an identifier, not that of a
built-in function, and not used in the source. There is a source of the renamed program, which differs from
the old one in identifiers only. It is accepted and every reference in it has the distance that it had; run
with the same limits, it prints the same, tells the same and ends in the same way after any number of
steps. -/
theorem run_rename_local (color showTrace : Bool) {source old new : Text} {program' : Program} :
    let s := Session.new color showTrace
    let σ := s.localRenaming source old new
    s.Accepts source → Program.RenamesLocal σ (s.program source) program' →
    Lexeme .identifier new → (∀ n : Native, text n.name ≠ new) → Stmt.AvoidsAll new (s.program source) →
    ∃ source', σ.RespellsSource source source' ∧ s.Accepts source' ∧ s.program source' = program' ∧
      Bound.ofProgram program' = Bound.ofProgram (s.program source) ∧
      ∀ limits steps,
        (s.run limits steps source').printed = (s.run limits steps source).printed ∧
        (s.run limits steps source').notices = (s.run limits steps source).notices ∧
        ∃ o o', (s.run limits steps source).ending = .ran o ∧
          (s.run limits steps source').ending = .ran o' ∧ o.Renames σ o' := by
  intro s σ hsource hrenames hnew hnatives havoids
  -- What is recorded about the old program makes the renamed program fit.
  have hsound : Phrase.Sound σ.recorded .start (.stmts (s.program source)) :=
    ((Sound.new color showTrace).opening hsource) _ (.head _)
  have hσ : σ.Proper := ⟨hrenames.plain hsound.formed, hnew.plain⟩
  have hback : Stmt.renameAll σ.back program' 0 = s.program source := hrenames.back havoids
  have hbound := hrenames.bound_eq hσ hsound havoids
  have hfits := hrenames.fits hσ hsound havoids
  obtain ⟨source', hrespells, hreading⟩ := Reading.respell (σ := σ) hnew hsource.1 hback
  have hprogram : s.program source' = program' := congrArg Reading.program hreading
  subst hprogram
  have haccepts : s.Accepts source' :=
    ⟨congrArg Reading.errors hreading, (congrArg Bound.errors hbound).trans hsource.2⟩
  have hopening : s.opening source' = s.opening source := by
    unfold opening
    rw [hbound]
  -- The two machines correspond at their start, and hence after every run.
  have hL := σ.layout_lawful
  have hworld := World.LaidOut.initial (L := σ.layout) fun n => Renaming.Keeps.of_avoids (hnatives n)
  have hlaid : (s.start source').LaidOut σ.layout σ.recorded fun _ => none :=
    .start (fun site => by rw [hopening]; rfl) hworld hfits.forall_mem
  refine ⟨source', hrespells, haccepts, rfl, hbound, fun limits steps => ?_⟩
  have hstart := start_renames (s := s) (Heap.initial_original hnatives) hback hopening
  have hrun := hstart.run hσ hL limits steps hlaid
  have hlength : (s.program source').length = (s.program source).length := by
    rw [← hback, Stmt.renameAll_eq_map, List.length_map]
  rw [run_eq_of_accepts haccepts, run_eq_of_accepts hsource, hlength, hbound, hreading]
  obtain ⟨hprinted, hnotices, houtcome⟩ := conclude_renames _ hrun
  exact ⟨hprinted, congrArg (_ ++ ·) hnotices, _, _, (conclude_spec _ _).2.2, (conclude_spec _ _).2.2, houtcome⟩

end Session

/-- A variable that is printed by a function, inside a block, beside a global of the same name. -/
def shadowingSource : Text :=
  text "var x=nil;\x7bvar x=true;fun f()\x7bprint x;\x7df();\x7dprint x;"

/-- The program of that source, with a name for the variable in the block. -/
def shadowingProgram (inner : Text) : Program :=
  let name (word : Text) : Token := ⟨.identifier, word, none, 1⟩
  let call : Expr := .call 21 (.variable ⟨20, name (text "f")⟩) ⟨.rightParen, text ")", none, 1⟩ []
  [.variable (name (text "x")) (some (.literal 3 .nil)),
    .block [.variable (name inner) (some (.literal 9 (.bool true))),
      .routine (.mk (name (text "f")) [] [.print (.variable ⟨17, name inner⟩)]), .expression call],
    .print (.variable ⟨26, name (text "x")⟩)]

theorem shadowingSource_reading :
    Reading.ofSource 0 shadowingSource = ⟨shadowingProgram (text "x"), [], 28⟩ :=
  Reading.ofSource_of_read (by with_unfolding_all exact ⟨rfl, rfl, rfl, rfl⟩)

/-- The variable in the block is renamed and the global is not. -/
theorem Session.run_rename_local_shadowing :
    let s := Session.new false false
    s.Accepts shadowingSource ∧
    Program.RenamesLocal (s.localRenaming shadowingSource (text "x") (text "y")) (s.program shadowingSource)
      (shadowingProgram (text "y")) ∧
    ∃ source', s.Accepts source' ∧ s.program source' = shadowingProgram (text "y") ∧
      ∀ limits steps, (s.run limits steps source').printed = (s.run limits steps shadowingSource).printed := by
  intro s
  have hread : Reading.ofSource s.nextSite shadowingSource = ⟨shadowingProgram (text "x"), [], 28⟩ :=
    shadowingSource_reading
  have haccepts : s.Accepts shadowingSource := by
    rw [Accepts, program, hread]
    exact ⟨rfl, rfl⟩
  have hrenames : Program.RenamesLocal (s.localRenaming shadowingSource (text "x") (text "y"))
      (s.program shadowingSource) (shadowingProgram (text "y")) := by
    rw [localRenaming, opening, program, hread]
    exact ⟨[_], _, _, [_], rfl, rfl, .block ⟨_, _, .head _, rfl⟩⟩
  have havoids : Stmt.AvoidsAll (text "y") (s.program shadowingSource) := by
    rw [program, hread]
    unfold shadowingProgram
    simp only [Stmt.AvoidsAll, Stmt.Avoids, Routine.Avoids]
    decide
  have hname : Lexeme .identifier (text "y") := by
    have key : ∀ p ∈ Kind.reserved, p.1 ≠ text "y" := by decide
    exact .identifier (.mk (by decide) (List.forall_mem_nil _)) fun k hk => key _ hk rfl
  have hnatives : ∀ n : Native, text n.name ≠ text "y" := by
    intro n
    cases n <;> decide
  obtain ⟨source', -, haccepts', hprogram, -, hrun⟩ := run_rename_local false false haccepts hrenames
    hname hnatives havoids
  exact ⟨haccepts, hrenames, source', haccepts', hprogram, fun limits steps => (hrun limits steps).1⟩

end Lox
