import Lox.Binding
import Lox.Proofs.Scanning
import Lox.Proofs.ProgramAccepted
import Lox.Proofs.SideBySide

/-!
# Where references stand

The nodes of a tree that is read, with or without errors, stand at different sites, all among the sites of its
tokens (`Reading.sited`), and so do the references among them (`Located`). Their names fit their use, since a scanned
identifier is never a reserved word: `this` and `super` are never declared, and nothing else is called that.

`Formed` is what reading guarantees about statements besides, also when it notices errors: the parts of a branch or loop
declare nothing, and the names that are declared are no reserved words (`Reading.formed`).
-/

namespace Lox

variable {t : Token} {site : Site} {source : Text} {program : Program}

/-- A name that is neither that of an instance nor that of a superclass. -/
def Plain (name : Text) : Prop := name ≠ thisName ∧ name ≠ superName

/-- A token is written as its kind demands. -/
def Token.Written (t : Token) : Prop := Lexeme t.kind t.lexeme

/-- A token as a scan finds them. -/
structure Token.Proper (t : Token) : Prop where
  written : t.Written
  carries : Carries t.kind t.lexeme t.literal

/-- The name of a reference fits its use. -/
def Usage.Names : Usage → Reference → Prop
  | .variable, ref => Plain ref.name
  | .assign, ref => Plain ref.name
  | .this, ref => ref.name = thisName
  | .super, ref => ref.name = superName

/-- An identifier is a word that is not reserved. -/
theorem Token.Written.word (h : t.Written) (hk : t.kind = .identifier) :
    Word t.lexeme ∧ ∀ k, (t.lexeme, k) ∉ Kind.reserved := by
  unfold Token.Written at h
  rw [hk] at h
  generalize t.lexeme = name at h
  cases h with
  | operator h =>
    have key : ∀ p ∈ Kind.operators, p.2 ≠ .identifier := by decide
    exact absurd rfl (key _ h)
  | keyword h =>
    have key : ∀ p ∈ Kind.reserved, p.2 ≠ .identifier := by decide
    exact absurd rfl (key _ h)
  | identifier h h' => exact ⟨h, h'⟩

theorem Token.Written.plain (h : t.Written) (hk : t.kind = .identifier) : Plain t.lexeme := by
  have hreserved := (h.word hk).2
  exact ⟨fun heq => hreserved .thisWord (heq ▸ by decide), fun heq => hreserved .superWord (heq ▸ by decide)⟩

/-- A scanned token whose kind is that of a reserved word alone is that word. -/
theorem Token.Written.eq_of_reserved {word : Text} (h : t.Written)
    (hoperator : ∀ p ∈ Kind.operators, p.2 ≠ t.kind) (hword : ∀ p ∈ Kind.reserved, p.2 = t.kind → p.1 = word)
    (hopen : t.kind ∉ [.string, .number, .identifier]) : t.lexeme = word := by
  unfold Token.Written at h
  generalize t.lexeme = name at h
  generalize t.kind = k at h hoperator hword hopen
  cases h with
  | operator h => exact absurd rfl (hoperator _ h)
  | keyword h => exact hword _ h rfl
  | string | number | identifier => exact absurd (by simp) hopen

theorem Token.Written.eq_this (h : t.Written) (hk : t.kind = .thisWord) : t.lexeme = thisName := by
  refine h.eq_of_reserved ?_ ?_ ?_ <;> rw [hk] <;> decide

theorem Token.Written.eq_super (h : t.Written) (hk : t.kind = .superWord) : t.lexeme = superName := by
  refine h.eq_of_reserved ?_ ?_ ?_ <;> rw [hk] <;> decide

/-- References at different sites within a range, each with a name that fits its use. -/
structure Located (start size : Nat) (refs : List (Usage × Reference)) : Prop where
  within : ∀ p ∈ refs, start ≤ p.2.site ∧ p.2.site < start + size
  nodup : (refs.map (·.2.site)).Nodup
  names : ∀ p ∈ refs, p.1.Names p.2

theorem TreeNode.sublist_sites (ns : List TreeNode) :
    ((ns.filterMap reference?).map (·.2.site)).Sublist (ns.map TreeNode.site) := by
  induction ns with
  | nil => exact .slnil
  | cons n ns ih => cases n with
    | refers => exact ih.cons_cons _
    | other => exact ih.cons _

namespace Sited

variable {site : Site} {ts : List Token} {ns : List TreeNode} (h : Sited site ts ns)

include h

theorem nodup : (ns.map TreeNode.site).Nodup := by
  obtain ⟨l, hperm, hsublist⟩ := h.sites
  exact hperm.nodup_iff.1 (hsublist.nodup List.nodup_range')

theorem within : ∀ s ∈ ns.map TreeNode.site, site ≤ s ∧ s < site + ts.length := fun _ hs =>
  List.mem_range'_1.1 (h.sites.subset hs)

/-- References made of written tokens stand where these do. -/
theorem located (hw : ∀ t ∈ ts, t.Written) : Located site ts.length (ns.filterMap TreeNode.reference?) := by
  have hmem : ∀ p ∈ ns.filterMap TreeNode.reference?, .refers p.1 p.2 ∈ ns := by
    intro p hp
    obtain ⟨n, hn, hnp⟩ := List.mem_filterMap.1 hp
    cases n <;> cases hnp
    exact hn
  refine ⟨fun p hp => h.within _ (List.mem_map_of_mem (hmem p hp)), ?_, fun p hp => ?_⟩
  · exact (TreeNode.sublist_sites ns).nodup h.nodup
  · obtain ⟨htoken, hkind⟩ := h.kinds p.1 p.2 (hmem p hp)
    have hwritten : p.2.token.Written := hw _ htoken
    obtain ⟨u, ref⟩ := p
    cases u with
    | this => exact hwritten.eq_this hkind
    | super => exact hwritten.eq_super hkind
    | _ => exact hwritten.plain hkind

end Sited

/-- The name that a statement declares in the scope where it stands. -/
def Stmt.declared? : Stmt → Option Token
  | .variable name _ => some name
  | .routine r => some r.name
  | .classOf name _ _ => some name
  | _ => none

mutual

/-- The parts of branches and loops declare nothing, and declared names are plain. -/
def Stmt.Formed : Stmt → Prop
  | .expression _ | .print _ | .returns _ _ => True
  | .branch _ yes none => yes.declared? = none ∧ yes.Formed
  | .branch _ yes (some no) => (yes.declared? = none ∧ yes.Formed) ∧ no.declared? = none ∧ no.Formed
  | .loop _ body => body.declared? = none ∧ body.Formed
  | .block body => Stmt.FormedAll body
  | .variable name _ => Plain name.lexeme
  | .routine r => r.Formed
  | .classOf name _ methods => Plain name.lexeme ∧ Routine.FormedAll methods

/-- The names that a routine declares are plain, and its body is formed. -/
def Routine.Formed : Routine → Prop
  | .mk name params body =>
    Plain name.lexeme ∧ (∀ p ∈ params, Plain p.lexeme) ∧ Stmt.FormedAll body

def Stmt.FormedAll : List Stmt → Prop
  | [] => True
  | s :: rest => s.Formed ∧ Stmt.FormedAll rest

def Routine.FormedAll : List Routine → Prop
  | [] => True
  | r :: rest => r.Formed ∧ Routine.FormedAll rest

end

theorem Stmt.formedAll_append {ss ss' : List Stmt} (h : Stmt.FormedAll ss)
    (h' : Stmt.FormedAll ss') : Stmt.FormedAll (ss ++ ss') := by
  induction ss with
  | nil => exact h'
  | cons s ss ih => exact ⟨h.1, ih h.2⟩

/-! ## What is read is formed -/

/-- All tokens ahead are written as their kinds demand. -/
def Cursor.Written (c : Cursor) : Prop := ∀ t ∈ c.ahead, t.Written

theorem Cursor.Moves.written {c next : Cursor} {used : List Token} {new : List Noticed} (h : c.Moves used new next)
    (hc : c.Written) : next.Written := fun t ht => hc t (h.ahead ▸ List.mem_append_right used ht)

theorem Cursor.Steps.written {c next : Cursor} (h : c.Steps t next) (hc : c.Written) :
    t.Written ∧ next.Written :=
  ⟨hc t (h.ahead ▸ .head _), fun u hu => hc u (h.ahead ▸ .tail t hu)⟩

namespace Parsed

variable {α β : Type} {m n : Nat} {P : α → Prop} {Q : β → Prop} {p : Parsed α n}

/-- What is read has a property, and the tokens ahead are still written as their kinds demand. -/
def Gets (P : α → Prop) : Parsed α n → Prop
  | .done v next _ => P v ∧ next.Written
  | .failed next _ => next.Written

theorem Gets.weaken (h : p.Gets P) (hm : n ≤ m) : (p.weaken hm).Gets P := by
  cases p <;> exact h

theorem Gets.mono {P' : α → Prop} (h : p.Gets P) (hP : ∀ v, P v → P' v) : p.Gets P' := by
  cases p with
  | done => exact ⟨hP _ h.1, h.2⟩
  | failed => exact h

theorem Gets.andThen {f : (v : α) → (next : Cursor) → next.remaining < n → Parsed β n} (h : p.Gets P)
    (hf : ∀ v next hlt, P v → next.Written → (f v next hlt).Gets Q) : (p.andThen f).Gets Q := by
  cases p with
  | done v next hlt => exact hf v next hlt h.1 h.2
  | failed => exact h

theorem Gets.map {f : α → β} (h : p.Gets P) (hf : ∀ v, P v → Q (f v)) : (p.map f).Gets Q :=
  h.andThen fun v _ _ hv hnext => ⟨hf v hv, hnext⟩

/-- Whatever a production does, it passes tokens in order. -/
theorem Alike.gets {c : Cursor} {made : α → List TreeNode} (h : Alike .whole c c made p p) (hc : c.Written) :
    p.Gets fun _ => True := by
  cases p with
  | done =>
    obtain ⟨_, _, hmoves, -⟩ := h.2.moves
    exact ⟨trivial, hmoves.written hc⟩
  | failed =>
    obtain ⟨_, _, hmoves, -⟩ := Cursor.Together.moves h
    exact hmoves.written hc

end Parsed

theorem Cursor.Written.expect {c : Cursor} (h : c.Written) (k : Kind) (what : Expected) :
    (c.expect k what).Gets fun t => t.kind = k ∧ t.Written := by
  unfold Cursor.expect
  split
  · next haccept =>
    obtain ⟨hkind, hsteps⟩ := steps_of_accept? haccept
    exact ⟨⟨hkind, (hsteps.written h).1⟩, (hsteps.written h).2⟩
  · exact h

section

open Parsed Cursor

/-- Parameters that are read have plain names. -/
theorem readParameterList_gets (before : Nat) {c : Cursor} (h : c.Written) :
    (readParameterList before c).Gets fun names => ∀ name ∈ names, Plain name.lexeme := by
  rw [readParameterList]
  refine (Cursor.Written.expect (c := c.noteIf _ _) h .identifier _).andThen fun name c₁ h₁ hname hw₁ => ?_
  have h₁ : c₁.remaining < c.remaining := h₁
  have hplain : Plain name.lexeme := hname.2.plain hname.1
  dsimp only
  split
  · exact ⟨by simpa using hplain, hw₁⟩
  · next haccept =>
    have hnext := ((steps_of_accept? haccept).2.written hw₁).2
    exact ((readParameterList_gets (before + 1) hnext).weaken _).map
      fun _ hnames => List.forall_mem_cons.2 ⟨hplain, hnames⟩
termination_by c.remaining

variable {c : Cursor} (h : c.Written)

include h

theorem readVariable_gets : (readVariable c).Gets Stmt.Formed := by
  refine (h.expect .identifier _).andThen fun name c₁ _ hname h₁ => ?_
  have hplain : Plain name.lexeme := hname.2.plain hname.1
  split
  · exact ((h₁.expect .semicolon _).weaken _).map fun _ _ => hplain
  · next haccept =>
    have hnext := ((steps_of_accept? haccept).2.written h₁).2
    exact (((readEnded_alike (Agree.refl _).together _).gets hnext).weaken _).map fun _ _ => hplain

theorem readInitializer_gets : (readInitializer c).Gets fun s => Stmt.FormedAll s.toList := by
  unfold readInitializer
  split
  · next haccept => exact ⟨trivial, ((steps_of_accept? haccept).2.written h).2⟩
  · split
    · next haccept =>
      exact ((readVariable_gets ((steps_of_accept? haccept).2.written h).2).weaken _).map fun _ hs => ⟨hs, trivial⟩
    · exact ((readEnded_alike (Agree.refl c).together _).gets h).map fun _ _ => ⟨trivial, trivial⟩

theorem readParameters_gets : (readParameters c).Gets fun names => ∀ name ∈ names, Plain name.lexeme := by
  unfold readParameters
  split
  · exact ⟨by simp, h⟩
  · exact (readParameterList_gets 0 h).weaken _

end

namespace Stmt

open Parsed Cursor

theorem formed_forLoop {site : Site} {initializer : Option Stmt} {condition increment : Option Expr} {body : Stmt}
    (hinitializer : FormedAll initializer.toList) (hbody : body.Formed) :
    (forLoop site initializer condition increment body).Formed := by
  have hincrement : FormedAll (increment.map Stmt.expression).toList := by
    cases increment <;> trivial
  exact formedAll_append hinitializer ⟨⟨rfl, hbody, hincrement⟩, trivial⟩

mutual

theorem readDeclaration_gets {c : Cursor} (h : c.Written) (hpos : 0 < c.remaining) :
    FormedAll (readDeclaration c hpos).value.toList ∧ (readDeclaration c hpos).next.Written := by
  have hdeclared := readDeclared_gets h
  rw [readDeclaration]
  cases hc : readDeclared c <;> rw [hc] at hdeclared
  · exact ⟨⟨hdeclared.1, trivial⟩, hdeclared.2⟩
  · obtain ⟨_, hmoves, -⟩ := Cursor.moves_synchronize _
    exact ⟨trivial, hmoves.written hdeclared⟩
termination_by c.remaining * 8 + 2

/-- A declaration that is read is formed. -/
theorem readDeclared_gets {c : Cursor} (h : c.Written) : (readDeclared c).Gets Formed := by
  have hread : (read c).Gets Formed := (read_gets h).mono fun _ hs => hs.2
  rw [readDeclared]
  split
  · exact hread
  · next haccept =>
    obtain ⟨_, ⟨⟩, hsteps⟩ := steps_of_acceptBy? haccept
    have hnext := (hsteps.written h).2
    split
    · exact (readClass_gets hnext).weaken _
    · exact ((readRoutine_gets .function hnext).weaken _).map fun _ hr => hr
    · exact (readVariable_gets hnext).weaken _
    · exact hread
termination_by c.remaining * 8 + 1

theorem readClass_gets {c : Cursor} (h : c.Written) : (readClass c).Gets Formed := by
  rw [readClass]
  exact (h.expect .identifier _).andThen fun name c₁ _ hname h₁ =>
    (((readSuperclass_alike (Agree.refl c₁).together).gets h₁).weaken _).andThen fun superclass c₂ _ _ h₂ =>
      ((h₂.expect .leftBrace _).weaken _).andThen fun _ c₃ _ _ h₃ =>
        ((readMethods_gets h₃).weaken _).andThen fun methods c₄ _ hmethods h₄ =>
          ((h₄.expect .rightBrace _).weaken _).map fun _ _ => ⟨hname.2.plain hname.1, hmethods⟩
termination_by c.remaining * 8

theorem readMethods_gets {c : Cursor} (h : c.Written) : (readMethods c).Gets Routine.FormedAll := by
  rw [readMethods]
  split
  · exact ⟨trivial, h⟩
  · exact Gets.weaken ((readRoutine_gets .method h).andThen fun method c₁ _ hmethod h₁ =>
      ((readMethods_gets h₁).weaken _).map fun _ hrest => ⟨hmethod, hrest⟩) _
termination_by c.remaining * 8 + 1

/-- A function that is read is formed. -/
theorem readRoutine_gets (sort : RoutineSort) {c : Cursor} (h : c.Written) :
    (readRoutine sort c).Gets Routine.Formed := by
  rw [readRoutine]
  exact (h.expect .identifier _).andThen fun name c₁ _ hname h₁ =>
    ((h₁.expect .leftParen _).weaken _).andThen fun _ c₂ _ _ h₂ =>
      ((readParameters_gets h₂).weaken _).andThen fun params c₃ _ hparams h₃ =>
        ((h₃.expect .rightParen _).weaken _).andThen fun _ c₄ _ _ h₄ =>
          ((h₄.expect .leftBrace _).weaken _).andThen fun _ c₅ _ _ h₅ =>
            ((readBlock_gets h₅).weaken _).map fun _ hbody => ⟨hname.2.plain hname.1, hparams, hbody⟩
termination_by c.remaining * 8

theorem readBlock_gets {c : Cursor} (h : c.Written) : (readBlock c).Gets FormedAll := by
  have hbody := readBody_gets h
  rw [readBlock]
  exact ((hbody.2.expect .rightBrace _).weaken _).map fun _ _ => hbody.1
termination_by c.remaining * 8 + 4

/-- The declarations of a block that are read are formed. -/
theorem readBody_gets {c : Cursor} (h : c.Written) :
    FormedAll (readBody c).value ∧ (readBody c).next.Written := by
  rw [readBody]
  split
  · exact ⟨trivial, h⟩
  · have hdeclaration := readDeclaration_gets h (remaining_pos (by simp_all))
    generalize readDeclaration c _ = x at hdeclaration ⊢
    obtain ⟨s, c₁, h₁⟩ := x
    obtain ⟨hrest, hnext⟩ := readBody_gets hdeclaration.2
    exact ⟨formedAll_append hdeclaration.1 hrest, hnext⟩
termination_by c.remaining * 8 + 3

/-- A statement that is read is formed and declares nothing. -/
theorem read_gets {c : Cursor} (h : c.Written) : (read c).Gets fun s => s.declared? = none ∧ s.Formed := by
  have hended : ((readEnded .expressionEnd c).map expression).Gets fun s => s.declared? = none ∧ s.Formed :=
    ((readEnded_alike (Agree.refl c).together _).gets h).map fun _ _ => ⟨rfl, trivial⟩
  rw [read]
  split
  · exact hended
  · next haccept =>
    obtain ⟨_, ⟨⟩, hsteps⟩ := steps_of_acceptBy? haccept
    have hnext := (hsteps.written h).2
    split
    · exact (((readEnded_alike (Agree.refl _).together _).gets hnext).weaken _).map fun _ _ => ⟨rfl, trivial⟩
    · exact (((readOptional_alike (Agree.refl _).together _ _).gets hnext).weaken _).map fun _ _ => ⟨rfl, trivial⟩
    · refine (((readCondition_alike (Agree.refl _).together _).gets hnext).weaken _).andThen fun condition c₂ _ _ h₂ =>
        ((read_gets h₂).weaken _).andThen fun yes c₃ _ hyes h₃ => ?_
      split
      · exact ⟨⟨rfl, hyes⟩, h₃⟩
      · next haccept =>
        exact ((read_gets ((steps_of_accept? haccept).2.written h₃).2).weaken _).map fun _ hno => ⟨rfl, hyes, hno⟩
    · exact (((readCondition_alike (Agree.refl _).together _).gets hnext).weaken _).andThen fun condition c₂ _ _ h₂ =>
        ((read_gets h₂).weaken _).map fun _ hbody => ⟨rfl, hbody⟩
    · exact ((hnext.expect .leftParen _).weaken _).andThen fun _ c₂ _ _ h₂ =>
        ((readInitializer_gets h₂).weaken _).andThen fun _ c₃ _ hinitializer h₃ =>
          (((readOptional_alike (Agree.refl c₃).together _ _).gets h₃).weaken _).andThen fun _ c₄ _ _ h₄ =>
            (((readOptional_alike (Agree.refl c₄).together _ _).gets h₄).weaken _).andThen fun _ c₅ _ _ h₅ =>
              ((read_gets h₅).weaken _).map fun _ hbody => ⟨rfl, formed_forLoop hinitializer hbody.2⟩
    · exact ((readBlock_gets hnext).weaken _).map fun _ hbody => ⟨rfl, hbody⟩
    · exact hended
termination_by c.remaining * 8

end

/-- A program that is read from written tokens is formed, also if errors are noticed. -/
theorem formed_readAll {c : Cursor} (h : c.Written) : FormedAll (readAll c).1 := by
  rw [readAll]
  split
  · trivial
  · next hend =>
    have hdeclaration := readDeclaration_gets h (Nat.pos_of_ne_zero hend)
    generalize readDeclaration c _ = x at hdeclaration ⊢
    obtain ⟨s, c₁, h₁⟩ := x
    exact formedAll_append hdeclaration.1 (formed_readAll hdeclaration.2)
termination_by c.remaining

end Stmt

/-- The tokens that a scan finds are proper. -/
theorem Scanned.proper {before rest : Text} {fs : List Finding} (h : Scanned before rest fs) :
    ∀ t, .token t ∈ fs → t.Proper := by
  induction h with
  | done => simp
  | skip _ _ _ ih => exact ih
  | token hfits hv _ ih =>
    intro t ht
    rcases List.mem_cons.1 ht with heq | ht
    · cases heq
      cases hfits with
      | lexeme h => exact ⟨h, hv⟩
    · exact ih t ht
  | error _ _ ih =>
    intro t ht
    rcases List.mem_cons.1 ht with heq | ht
    · cases heq
    · exact ih t ht

/-- The tokens of a source are proper. -/
theorem Scan.proper (source : Text) : ∀ t ∈ (Scan.ofSource source).tokens, t.Proper := by
  intro t ht
  obtain ⟨f, hf, hft⟩ := List.mem_filterMap.1 ht
  have hscanned := (Chunk.splits_ofSource source).scanned []
  cases f with
  | token t' =>
    cases hft
    exact hscanned.proper t hf
  | error => cases hft

theorem Reading.merge_eq_nil {lexical : List (Site × StaticError)} {grammar : List Noticed} :
    merge lexical grammar = [] ↔ lexical = [] ∧ grammar = [] := by
  cases grammar <;> simp [merge]

theorem Scan.errorsWithPosition_map (position : Nat) (ts : List Token) :
    errorsWithPosition position (ts.map .token) = [] := by
  induction ts generalizing position with
  | nil => rfl
  | cons t ts ih => exact ih (position + 1)

/-- A lexical error stands before one of the tokens or before the end. -/
theorem Scan.errorsWithPosition_le {findings : List Finding} {position line : Nat} {p : Nat × StaticError}
    (h : p ∈ errorsWithPosition position findings) : p.1 ≤ position + (Scan.mk findings line).tokens.length := by
  induction findings generalizing position with
  | nil => cases h
  | cons f rest ih =>
    cases f with
    | token t => exact Nat.le_trans (ih h) (Nat.le_of_eq (Nat.add_right_comm position 1 _))
    | error line e =>
      rcases List.mem_cons.1 h with rfl | h
      · exact Nat.le_add_right _ _
      · exact ih h

namespace Reading

variable (site : Site) (source : Text)

/-- Reading a source passes all of its tokens, notices syntax errors in the order of their sites and makes nodes of
different tokens. -/
theorem moves_readTokens :
    let scan := Scan.ofSource source
    let last := (readTokens site scan.tokens scan.endLine).2
    ∃ new, (Cursor.mk scan.tokens site scan.endLine []).Moves scan.tokens new last ∧ last.noticed = new ∧
      last.ahead = [] ∧ Sited site scan.tokens (Stmt.nodesOfAll (ofSource site source).program) := by
  obtain ⟨new, hmoves, hsited, hend⟩ := Stmt.moves_readAll
    ⟨(Scan.ofSource source).tokens, site, (Scan.ofSource source).endLine, []⟩
  exact ⟨new, hmoves, hmoves.noticed.trans (List.append_nil new), hend, hsited⟩

theorem nextSite_eq : (ofSource site source).nextSite = site + (Scan.ofSource source).tokens.length := by
  obtain ⟨_, hmoves, -⟩ := moves_readTokens site source
  exact hmoves.site

theorem le_nextSite : site ≤ (ofSource site source).nextSite := by
  rw [nextSite_eq]
  exact Nat.le_add_right _ _

/-- Since reading comes to the end of the source, all lexical errors are found. -/
theorem errors_eq :
    (ofSource site source).errors = merge (Scan.errorsWithPosition site (Scan.ofSource source).findings)
      (readTokens site (Scan.ofSource source).tokens (Scan.ofSource source).endLine).2.noticed.reverse := by
  obtain ⟨_, hmoves, -⟩ := moves_readTokens site source
  have hfound : found site (readTokens site (Scan.ofSource source).tokens (Scan.ofSource source).endLine).2.site
      (Scan.ofSource source) = Scan.errorsWithPosition site (Scan.ofSource source).findings := by
    refine List.filter_eq_self.2 fun p hp => decide_eq_true ?_
    exact Nat.le_trans (Scan.errorsWithPosition_le hp) (Nat.le_of_eq hmoves.site.symm)
  exact congrArg (merge · _) hfound

/-- A source is read without an error exactly if neither its scan nor the reading of its tokens notices one. -/
theorem errors_eq_nil_iff : (ofSource site source).errors = [] ↔
    Scan.errorsWithPosition site (Scan.ofSource source).findings = [] ∧
      (readTokens site (Scan.ofSource source).tokens (Scan.ofSource source).endLine).2.noticed = [] := by
  rw [errors_eq, merge_eq_nil, List.reverse_eq_nil_iff]

/-- The nodes of a source stand at different sites of its own, also if it is read with errors. -/
theorem sited : Sited site (Scan.ofSource source).tokens (Stmt.nodesOfAll (ofSource site source).program) := by
  obtain ⟨_, -, -, -, hsited⟩ := moves_readTokens site source
  exact hsited

/-- The references of a source stand at sites of its own, and their names fit their use. -/
theorem located :
    Located site (Scan.ofSource source).tokens.length (Stmt.referencesOfAll (ofSource site source).program) := by
  have hlocated := (sited site source).located fun t ht => (Scan.proper source t ht).written
  rw [Stmt.nodesOfAll, List.filterMap_map] at hlocated
  rw [← Stmt.filterMap_expressionsOfAll]
  exact hlocated

theorem formed : Stmt.FormedAll (ofSource site source).program :=
  Stmt.formed_readAll fun t ht => (Scan.proper source t ht).written

end Reading

/-- A source that is read without an error is a program of the grammar. -/
theorem Reading.declarations (h : (Reading.ofSource site source).errors = []) :
    Grammar.Declarations site (Scan.ofSource source).tokens (Reading.ofSource site source).program :=
  (Stmt.readAll_reads _ ((errors_eq_nil_iff site source).1 h).2).2

/-- A source in which neither the scan nor the reading of its tokens notices an error. -/
theorem Reading.ofSource_of_read {next : Site} (h : let scan := Scan.ofSource source
      Scan.errorsWithPosition site scan.findings = [] ∧ (readTokens site scan.tokens scan.endLine).1 = program ∧
        (readTokens site scan.tokens scan.endLine).2.noticed = [] ∧ site + scan.tokens.length = next) :
    Reading.ofSource site source = ⟨program, [], next⟩ := by
  obtain ⟨hlexical, rfl, hnoticed, rfl⟩ := h
  have herrors := (errors_eq_nil_iff site source).2 ⟨hlexical, hnoticed⟩
  rw [← nextSite_eq, ← herrors]
  rfl

/-- A program of the grammar without lexical errors is read into its tree. -/
theorem Reading.ofSource_eq (hlexical : Scan.errorsWithPosition site (Scan.ofSource source).findings = [])
    (h : Grammar.Declarations site (Scan.ofSource source).tokens program) :
    Reading.ofSource site source = ⟨program, [], site + (Scan.ofSource source).tokens.length⟩ := by
  have hread := h.readAll_eq (Scan.ofSource source).endLine []
  exact ofSource_of_read ⟨hlexical, congrArg Prod.fst hread, congrArg (·.2.noticed) hread, rfl⟩

/-- A source in which nothing but the tokens of a program is found is read into its tree. -/
theorem Reading.ofSource_of_findings {next : Site} {ts : List Token}
    (hfindings : (Scan.ofSource source).findings = ts.map .token) (h : Grammar.Declarations site ts program)
    (hnext : site + ts.length = next) : Reading.ofSource site source = ⟨program, [], next⟩ := by
  have hlexical : Scan.errorsWithPosition site (Scan.ofSource source).findings = [] :=
    hfindings ▸ Scan.errorsWithPosition_map site ts
  have htokens : (Scan.ofSource source).tokens = ts := by
    rw [Scan.tokens, hfindings, List.filterMap_map]
    exact List.filterMap_some
  rw [ofSource_eq hlexical (htokens.symm ▸ h), htokens, hnext]

end Lox
