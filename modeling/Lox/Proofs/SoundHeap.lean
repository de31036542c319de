import Lox.Native
import Lox.Proofs.Frames

/-!
# Sound heaps

In a sound heap every value that a program can get hold of is valid: identities exist, and a function can
be called, since its scope matches the scopes that were open where its routine was bound. The methods of
classes are not called themselves; they are functions that lack the scope with `this`, which binding them
to an instance supplies.

A heap only grows, and what is valid stays valid. Every operation on heaps keeps them sound.
-/

namespace Lox

/-- Which phrases were bound, and at which points of a walk. -/
abbrev Walk := Binder → Phrase → Prop

/-- A later heap: what was made is still there. -/
structure Heap.Grows (h h' : Heap) : Prop where
  forest : h.forest.Grows h'.forest
  functions : ∀ (i : FunctionId) c, h.functions[i]? = some c → h'.functions[i]? = some c
  classes : h.classes.size ≤ h'.classes.size
  instances : h.instances.size ≤ h'.instances.size

/-- A function that can be called: its scope matches what was open where its routine was bound, and an
initializer has its instance there. -/
def Closure.Callable (walk : Walk) (f : Forest) (c : Closure) : Prop :=
  ∃ b context, walk b (.routine context c.routine) ∧ context ≠ .outside ∧
    Matches f c.scope b.scopes ∧
    (c.initializer → ∃ o, f.slot? c.scope thisName = some (.instanceValue o))

/-- A method that is not bound to an instance: its scope matches what was open outside of the scope
with `this`. -/
def Closure.Unbound (walk : Walk) (f : Forest) (c : Closure) : Prop :=
  ∃ b context scopes, walk b (.routine context c.routine) ∧ context ≠ .outside ∧
    b.scopes = .ofList [(thisName, true)] :: scopes ∧ Matches f c.scope scopes

/-- A value that a program may get hold of. -/
def Value.Valid (walk : Walk) (h : Heap) : Value → Prop
  | .absent => False
  | .function i => ∃ c, h.functions[i]? = some c ∧ c.Callable walk h.forest
  | .classValue c => c < h.classes.size
  | .instanceValue o => o < h.instances.size
  | _ => True

/-- The method of a name that a class has itself. -/
def Heap.ownMethod? (h : Heap) (c : ClassId) (name : Text) : Option FunctionId :=
  h.classes[c]?.bind (·.methods.get? name)

/-- Scopes and fields hold valid values, and classes have methods. -/
structure Heap.Sound (walk : Walk) (h : Heap) : Prop where
  globals : 0 < h.forest.scopes.size
  scopes : ∀ e name v, h.forest.slot? e name = some v → v.Valid walk h
  fields : ∀ o name v, h.field? o name = some v → v.Valid walk h
  methods : ∀ c name i, h.ownMethod? c name = some i →
    ∃ closure, h.functions[i]? = some closure ∧ closure.Unbound walk h.forest

variable {walk : Walk}

section

variable {f f' : Forest} {c : Closure}

theorem Closure.Callable.mono (h : c.Callable walk f) (hgrows : f.Grows f') : c.Callable walk f' := by
  obtain ⟨b, context, hvisit, hcontext, hmatches, hinit⟩ := h
  refine ⟨b, context, hvisit, hcontext, hmatches.mono hgrows, fun hc => ?_⟩
  obtain ⟨o, ho⟩ := hinit hc
  exact ⟨o, hgrows.fixed _ _ _ not_plain_this ho⟩

theorem Closure.Unbound.mono (h : c.Unbound walk f) (hgrows : f.Grows f') : c.Unbound walk f' := by
  obtain ⟨b, context, scopes, hvisit, hcontext, hscopes, hmatches⟩ := h
  exact ⟨b, context, scopes, hvisit, hcontext, hscopes, hmatches.mono hgrows⟩

end

/-- A valid value stays valid. -/
theorem Value.Valid.mono {h h' : Heap} {v : Value} (hv : v.Valid walk h) (hgrows : h.Grows h') :
    v.Valid walk h' := by
  cases v with
  | function i =>
    obtain ⟨c, hc, hcallable⟩ := hv
    exact ⟨c, hgrows.functions i c hc, hcallable.mono hgrows.forest⟩
  | classValue c => exact Nat.lt_of_lt_of_le hv hgrows.classes
  | instanceValue o => exact Nat.lt_of_lt_of_le hv hgrows.instances
  | absent | nil | bool | number | string | native => exact hv

theorem Value.Valid.ne_absent {h : Heap} {v : Value} (hv : v.Valid walk h) : v ≠ .absent := by
  rintro rfl
  exact hv

namespace Heap

variable {h h' h'' : Heap}

namespace Grows

theorem refl (h : Heap) : h.Grows h := ⟨.refl _, fun _ _ h => h, Nat.le_refl _, Nat.le_refl _⟩

theorem trans (hg : h.Grows h') (hg' : h'.Grows h'') : h.Grows h'' where
  forest := hg.forest.trans hg'.forest
  functions i c hc := hg'.functions i c (hg.functions i c hc)
  classes := hg.classes.trans hg'.classes
  instances := hg.instances.trans hg'.instances

end Grows

/-- A heap that is sound for a walk is sound for one that comes to more phrases. -/
theorem Sound.mono_walk {walk' : Walk} (hs : h.Sound walk) (hwalk : ∀ b n, walk b n → walk' b n) :
    h.Sound walk' := by
  have hvalid : ∀ v : Value, v.Valid walk h → v.Valid walk' h := by
    intro v hv
    cases v with
    | function i =>
      obtain ⟨c, hc, b, context, hvisit, hrest⟩ := hv
      exact ⟨c, hc, b, context, hwalk _ _ hvisit, hrest⟩
    | _ => exact hv
  refine ⟨hs.globals, fun e name v hv => hvalid v (hs.scopes e name v hv),
    fun o name v hv => hvalid v (hs.fields o name v hv), fun c name i hi => ?_⟩
  obtain ⟨closure, hclosure, b, context, scopes, hvisit, hrest⟩ := hs.methods c name i hi
  exact ⟨closure, hclosure, b, context, scopes, hwalk _ _ hvisit, hrest⟩

/-- A grown heap is sound if what is new in it is. -/
theorem Sound.of_grows (hs : h.Sound walk) (hgrows : h.Grows h')
    (hscopes : ∀ e name v, h'.forest.slot? e name = some v → h.forest.slot? e name = some v ∨ v.Valid walk h')
    (hfields : ∀ o name v, h'.field? o name = some v → h.field? o name = some v ∨ v.Valid walk h')
    (hmethods : ∀ c name i, h'.ownMethod? c name = some i → h.ownMethod? c name = some i ∨
      ∃ closure, h'.functions[i]? = some closure ∧ closure.Unbound walk h'.forest) :
    h'.Sound walk where
  globals := Nat.lt_of_lt_of_le hs.globals hgrows.forest.size
  scopes e name v hv := by
    rcases hscopes e name v hv with hold | hnew
    · exact (hs.scopes e name v hold).mono hgrows
    · exact hnew
  fields o name v hv := by
    rcases hfields o name v hv with hold | hnew
    · exact (hs.fields o name v hold).mono hgrows
    · exact hnew
  methods c name i hi := by
    rcases hmethods c name i hi with hold | hnew
    · obtain ⟨closure, hclosure, hunbound⟩ := hs.methods c name i hold
      exact ⟨closure, hgrows.functions i closure hclosure, hunbound.mono hgrows.forest⟩
    · exact hnew

section Define

variable {e : ScopeId} {name : Text} {v : Value}

theorem define_grows (hname : Plain name ∨ h.forest.slot? e name = none) : h.Grows (h.define e name v) :=
  ⟨Forest.define_grows hname, fun _ _ h => h, Nat.le_refl _, Nat.le_refl _⟩

/-- A valid value may be put under a name. -/
theorem Sound.define (hs : h.Sound walk) (hname : Plain name ∨ h.forest.slot? e name = none)
    (hv : v.Valid walk (h.define e name v)) : (h.define e name v).Sound walk := by
  refine hs.of_grows (define_grows hname) (fun e' name' w hw => ?_) (fun _ _ _ hw => .inl hw) (fun _ _ _ hi => .inl hi)
  have hentry := h.forest.slot?_define e e' name name' v
  rw [show (h.define e name v).forest = h.forest.define e name v from rfl, hentry] at hw
  split at hw
  · obtain rfl := Option.some.inj hw
    exact .inr hv
  · exact .inl hw

end Define

theorem newScope_grows (h : Heap) (enclosing : Option ScopeId) : h.Grows (h.newScope enclosing).1 :=
  ⟨h.forest.new_grows enclosing, fun _ _ h => h, Nat.le_refl _, Nat.le_refl _⟩

theorem Sound.newScope (hs : h.Sound walk) (enclosing : Option ScopeId) :
    (h.newScope enclosing).1.Sound walk :=
  hs.of_grows (h.newScope_grows enclosing)
    (fun e name _ hv => .inl ((h.forest.slot?_new enclosing e name).symm.trans hv))
    (fun _ _ _ hv => .inl hv) (fun _ _ _ hi => .inl hi)

theorem functions_newFunction (h : Heap) (c : Closure) :
    (h.newFunction c).1.functions[(h.newFunction c).2]? = some c :=
  Array.getElem?_push_size

theorem newFunction_grows (h : Heap) (c : Closure) : h.Grows (h.newFunction c).1 := by
  refine ⟨.refl _, fun i c' hc' => ?_, Nat.le_refl _, Nat.le_refl _⟩
  have hi := (Array.getElem?_eq_some_iff.1 hc').1
  unfold newFunction
  rw [Array.getElem?_push, if_neg (Nat.ne_of_lt hi)]
  exact hc'

theorem Sound.newFunction (hs : h.Sound walk) (c : Closure) : (h.newFunction c).1.Sound walk :=
  hs.of_grows (h.newFunction_grows c) (fun _ _ _ hv => .inl hv) (fun _ _ _ hv => .inl hv)
    (fun _ _ _ hi => .inl hi)

theorem newClass_grows (h : Heap) (c : ClassInfo) : h.Grows (h.newClass c).1 :=
  ⟨.refl _, fun _ _ h => h, by simp [newClass], Nat.le_refl _⟩

/-- A class may be made of methods that are not bound. -/
theorem Sound.newClass (hs : h.Sound walk) (info : ClassInfo)
    (hmethods : ∀ name i, info.methods.get? name = some i →
      ∃ closure, h.functions[i]? = some closure ∧ closure.Unbound walk h.forest) :
    (h.newClass info).1.Sound walk := by
  refine hs.of_grows (h.newClass_grows info) (fun _ _ _ hv => .inl hv) (fun _ _ _ hv => .inl hv)
    fun c name i hi => ?_
  unfold ownMethod? Heap.newClass at hi
  rw [Array.getElem?_push] at hi
  split at hi
  · exact .inr (hmethods name i hi)
  · exact .inl hi

theorem newInstance_grows (h : Heap) (c : ClassId) : h.Grows (h.newInstance c).1 :=
  ⟨.refl _, fun _ _ h => h, Nat.le_refl _, by simp [newInstance]⟩

theorem Sound.newInstance (hs : h.Sound walk) (c : ClassId) : (h.newInstance c).1.Sound walk := by
  refine hs.of_grows (h.newInstance_grows c) (fun _ _ _ hv => .inl hv) (fun o name v hv => ?_)
    (fun _ _ _ hi => .inl hi)
  unfold field? Heap.newInstance at hv
  rw [Array.getElem?_push] at hv
  split at hv
  · cases hv
  · exact .inl hv

section Fields

variable {o o' : InstanceId} {name name' : Text} {v : Value}

/-- Setting a field changes nothing else. -/
theorem field?_setField :
    (h.setField o name v).field? o' name' =
      if o' = o ∧ name' = name ∧ o < h.instances.size then some v else h.field? o' name' := by
  unfold field? setField
  rw [Array.getElem?_modify]
  by_cases ho : o = o'
  · subst ho
    by_cases hsize : o < h.instances.size
    · simp [hsize, Table.get?_insert]
    · simp [hsize]
  · simp [ho, Ne.symm ho]

/-- Removing a field changes nothing else. -/
theorem field?_removeField : (h.removeField o name).field? o' name' =
    if o' = o ∧ name' = name then none else h.field? o' name' := by
  unfold field? removeField
  rw [Array.getElem?_modify]
  by_cases ho : o = o'
  · subst ho
    cases h.instances[o]? with
    | none => simp
    | some i => simp [Table.get?_erase]
  · simp [ho, Ne.symm ho]

theorem field?_of_removeField {w : Value} (hw : (h.removeField o name).field? o' name' = some w) :
    h.field? o' name' = some w :=
  (Option.ite_none_left_eq_some.1 (field?_removeField ▸ hw)).2

theorem setField_grows : h.Grows (h.setField o name v) :=
  ⟨.refl _, fun _ _ h => h, Nat.le_refl _, by simp [setField]⟩

theorem Sound.setField (hs : h.Sound walk) (hv : v.Valid walk h) : (h.setField o name v).Sound walk := by
  have hgrows : h.Grows (h.setField o name v) := setField_grows
  refine hs.of_grows hgrows (fun _ _ _ hv => .inl hv) (fun o' name' w hw => ?_) (fun _ _ _ hi => .inl hi)
  rw [field?_setField] at hw
  split at hw
  · obtain rfl := Option.some.inj hw
    exact .inr (hv.mono hgrows)
  · exact .inl hw

theorem removeField_grows : h.Grows (h.removeField o name) :=
  ⟨.refl _, fun _ _ h => h, Nat.le_refl _, by simp [removeField]⟩

theorem Sound.removeField (hs : h.Sound walk) : (h.removeField o name).Sound walk :=
  hs.of_grows removeField_grows (fun _ _ _ hv => .inl hv) (fun _ _ _ hw => .inl (field?_of_removeField hw))
    (fun _ _ _ hi => .inl hi)

end Fields

/-- A method that is found is some class's own. -/
theorem exists_ownMethod? {c : ClassId} {name : Text} {i : FunctionId}
    (hi : h.findMethod? c name = some i) : ∃ c', h.ownMethod? c' name = some i := by
  rw [findMethod?] at hi
  split at hi
  · cases hi
  · next info hinfo =>
    split at hi
    · next f hf =>
      refine ⟨c, ?_⟩
      rw [ownMethod?, hinfo]
      exact hf.trans hi
    · split at hi
      · cases hi
      · split at hi
        · exact exists_ownMethod? hi
        · cases hi
termination_by c

theorem Sound.method? (hs : h.Sound walk) {c : ClassId} {name : Text} {closure : Closure}
    (hmethod : h.method? c name = some closure) : closure.Unbound walk h.forest := by
  obtain ⟨i, hi, hclosure⟩ := Option.bind_eq_some_iff.1 hmethod
  obtain ⟨c', hc'⟩ := exists_ownMethod? hi
  obtain ⟨closure', hclosure', hunbound⟩ := hs.methods c' name i hc'
  obtain rfl := Option.some.inj (hclosure.symm.trans hclosure')
  exact hunbound

/-- The methods of classes do not depend on anything else in the heap. -/
theorem findMethod?_congr (hclasses : h.classes = h'.classes) (c : ClassId) (name : Text) :
    h.findMethod? c name = h'.findMethod? c name := by
  rw [findMethod?, findMethod?, hclasses]
  split
  · rfl
  · split
    · rfl
    · split
      · rfl
      · split
        · exact findMethod?_congr hclasses _ name
        · rfl
termination_by c

theorem classArity_congr (hclasses : h.classes = h'.classes) (hfunctions : h.functions = h'.functions)
    (c : ClassId) : h.classArity c = h'.classArity c := by
  unfold classArity functionArity
  rw [findMethod?_congr hclasses, hfunctions]

theorem classArity_of_method? {c : ClassId} {closure : Closure}
    (hmethod : h.method? c initName = some closure) : h.classArity c = closure.routine.arity := by
  obtain ⟨i, hi, hclosure⟩ := Option.bind_eq_some_iff.1 hmethod
  rw [classArity, hi]
  dsimp only
  rw [functionArity, hclosure]

section NewScope

variable (h : Heap) (outer : ScopeId)

theorem newScope_ne_globals (hglobals : 0 < h.forest.scopes.size) : (h.newScope (some outer)).2 ≠ globals :=
  Nat.ne_of_gt hglobals

theorem enclosing?_newScope :
    (h.newScope (some outer)).1.forest.enclosing? (h.newScope (some outer)).2 = some outer :=
  (h.forest.enclosing?_new (some outer) h.forest.scopes.size).trans (if_pos rfl)

theorem slot?_newScope (name : Text) :
    (h.newScope (some outer)).1.forest.slot? (h.newScope (some outer)).2 name = none := by
  refine (h.forest.slot?_new (some outer) h.forest.scopes.size name).trans ?_
  rw [Forest.slot?, Array.getElem?_eq_none (Nat.le_refl _)]
  rfl

/-- A new scope that holds one name. -/
def openWith (name : Text) (v : Value) : Heap × ScopeId :=
  ((h.newScope (some outer)).1.define (h.newScope (some outer)).2 name v,
    (h.newScope (some outer)).2)

variable (name : Text) (v : Value)

theorem openWith_grows : h.Grows (h.openWith outer name v).1 :=
  (h.newScope_grows (some outer)).trans (define_grows (.inr (h.slot?_newScope outer name)))

theorem enclosing?_openWith :
    (h.openWith outer name v).1.forest.enclosing? (h.openWith outer name v).2 = some outer :=
  (Forest.enclosing?_define _ _ _ name v).trans (h.enclosing?_newScope outer)

theorem slot?_openWith : (h.openWith outer name v).1.forest.slot? (h.openWith outer name v).2 name = some v :=
  (Forest.slot?_define _ _ _ name name v).trans
    (if_pos ⟨rfl, rfl, Forest.lt_size_of_enclosing? (h.enclosing?_newScope outer)⟩)

end NewScope

section OpenWith

variable {outer : ScopeId} {scopes : List (Table Bool)} {name : Text} {v : Value}

theorem Sound.matches_newScope (hs : h.Sound walk) (hmatches : Matches h.forest outer scopes) :
    Matches (h.newScope (some outer)).1.forest (h.newScope (some outer)).2 (.empty :: scopes) :=
  .frame (h.newScope_ne_globals outer hs.globals) (h.enclosing?_newScope outer)
    ⟨nofun, nofun, nofun⟩ (hmatches.mono (h.newScope_grows _).forest)

theorem Sound.openWith (hs : h.Sound walk) (hv : v.Valid walk h) (outer : ScopeId) (name : Text) :
    (h.openWith outer name v).1.Sound walk :=
  (hs.newScope (some outer)).define (.inr (h.slot?_newScope outer name))
    (hv.mono (h.openWith_grows outer name v))

/-- A new scope with an instance as `this` or a class as `super` matches the open scope for it. -/
theorem Sound.matches_openWith (hs : h.Sound walk) (hmatches : Matches h.forest outer scopes)
    (name : Text) (hthis : name = thisName → ∃ o, v = .instanceValue o)
    (hsuper : name = superName → ∃ c, v = .classValue c) :
    Matches (h.openWith outer name v).1.forest (h.openWith outer name v).2
      (.ofList [(name, true)] :: scopes) := by
  have hentry := h.slot?_openWith outer name v
  have hhas : ∀ other, (Table.ofList [(name, true)]).has other → other = name := by
    intro other hother
    rw [show Table.ofList [(name, true)] = Table.empty.insert name true from rfl, Table.has_insert] at hother
    simpa [Table.has_empty] using hother
  refine .frame (h.newScope_ne_globals outer hs.globals) (h.enclosing?_openWith outer name v)
    ⟨fun other hother => ?_, fun hother => ?_, fun hother => ?_⟩
    (hmatches.mono (h.openWith_grows outer name v).forest)
  · obtain rfl := hhas other (Option.isSome_iff_exists.2 ⟨true, hother⟩)
    rw [hentry]
    rfl
  · have hname := hhas _ hother
    obtain ⟨o, rfl⟩ := hthis hname.symm
    exact ⟨o, hname ▸ hentry⟩
  · have hname := hhas _ hother
    obtain ⟨c, rfl⟩ := hsuper hname.symm
    exact ⟨c, hname ▸ hentry⟩

end OpenWith

theorem this_ne_super : thisName ≠ superName := by decide

/-- Binding a method to an instance makes a function that can be called. -/
theorem Sound.bind (hs : h.Sound walk) {method : Closure} {o : InstanceId}
    (hmethod : method.Unbound walk h.forest) (ho : o < h.instances.size) :
    h.Grows (h.bind method o).1 ∧ (h.bind method o).1.Sound walk ∧
      (Value.function (h.bind method o).2).Valid walk (h.bind method o).1 := by
  obtain ⟨b, context, scopes, hvisit, hcontext, hscopes, hmatches⟩ := hmethod
  have hgrows := h.openWith_grows method.scope thisName (.instanceValue o)
  have hsound := hs.openWith (v := .instanceValue o) ho method.scope thisName
  have hscope := hs.matches_openWith hmatches thisName (fun _ => ⟨o, rfl⟩)
    (fun heq => absurd heq this_ne_super)
  refine ⟨hgrows.trans (newFunction_grows _ _), hsound.newFunction _,
    _, functions_newFunction _ _, b, context, hvisit, hcontext, ?_, fun _ => ?_⟩
  · rw [hscopes]
    exact hscope
  · exact ⟨o, h.slot?_openWith method.scope thisName _⟩

theorem functions_bind (h : Heap) (method : Closure) (o : InstanceId) :
    (h.bind method o).1.functions[(h.bind method o).2]? =
      some { method with scope := (h.openWith method.scope thisName (.instanceValue o)).2 } :=
  functions_newFunction _ _

/-- The arguments of a call complete the parameters of its routine. -/
theorem Sound.defineAll (hs : h.Sound walk) {e : ScopeId} {b : Binder} {params : List Token}
    {args : List Value} (hmatches : Matches h.forest e b.scopes) (hparams : ∀ p ∈ params, Plain p.lexeme)
    (hargs : ∀ v ∈ args, v.Valid walk h) (hlength : params.length ≤ args.length) :
    h.Grows (h.defineAll e params args) ∧ (h.defineAll e params args).Sound walk ∧
      Matches (h.defineAll e params args).forest e
        (params.foldl (fun b p => (b.declare p).define p) b).scopes := by
  induction params generalizing h b args with
  | nil =>
    unfold Heap.defineAll
    exact ⟨.refl _, hs, hmatches⟩
  | cons p params ih =>
    cases args with
    | nil => cases hlength
    | cons v args =>
      obtain ⟨hp, hparams⟩ := List.forall_mem_cons.1 hparams
      obtain ⟨hv, hargs⟩ := List.forall_mem_cons.1 hargs
      have hgrows : h.Grows (h.define e p.lexeme v) := define_grows (.inl hp)
      have hdeclare : Matches (h.define e p.lexeme v).forest e ((b.declare p).define p).scopes := by
        rw [Binder.declared_scopes]
        exact hmatches.declare hp v
      obtain ⟨hgrows', hsound, hmatches'⟩ := ih (hs.define (.inl hp) (hv.mono hgrows)) hdeclare hparams
        (fun w hw => (hargs w hw).mono hgrows) (Nat.le_of_succ_le_succ hlength)
      exact ⟨hgrows.trans hgrows', hsound, hmatches'⟩

/-- The scope of a call matches what is open in the body of its routine. -/
theorem Sound.enter (hs : h.Sound walk) {c : Closure} {args : List Value} {b : Binder}
    (hmatches : Matches h.forest c.scope b.scopes) (hparams : ∀ p ∈ c.routine.params, Plain p.lexeme)
    (hargs : ∀ v ∈ args, v.Valid walk h) (hlength : c.routine.arity ≤ args.length) :
    h.Grows (h.enter c args).1 ∧ (h.enter c args).1.Sound walk ∧
      Matches (h.enter c args).1.forest (h.enter c args).2 (b.enterRoutine c.routine.params).scopes := by
  have hgrows := h.newScope_grows (some c.scope)
  have hscope : Matches (h.newScope (some c.scope)).1.forest (h.newScope (some c.scope)).2
      (b.enter .empty).scopes := hs.matches_newScope hmatches
  obtain ⟨hgrows', hsound, hmatches'⟩ := (hs.newScope (some c.scope)).defineAll hscope hparams
    (fun v hv => (hargs v hv).mono hgrows) hlength
  exact ⟨hgrows.trans hgrows', hsound, hmatches'⟩

end Heap

end Lox
