import Lox.Tree.References
import Lox.Proofs.ProgramReading
import Mathlib.Data.List.Perm.Subperm

/-!
# Readings side by side

A production looks at the tokens ahead only as far as it reads, and never at the errors noticed before it. So two
cursors that agree on what is ahead are read in the same way: both pass the same tokens, notice the same errors on the
way and come to the same outcome, also when they fail (`Parsed.Alike`).

An expression never takes a semicolon. For expressions it is therefore enough that the cursors agree up to some
semicolon (`Cursor.Agree`), whatever stands behind it.

Taken with itself, a reading tells how a cursor moves (`Cursor.Moves`): it passes tokens in order, none is left out,
and each error is noticed at a site between the start and the end, in the order of the sites. Each node of the tree that
is built is known by one of the tokens passed, and no two by the same one (`Sited`), also where a target is rewritten
into an assignment, parts of a `for` loop are put elsewhere or recovery drops what was read.
-/

namespace Lox

/-- A syntax error noticed somewhere between two sites. -/
structure Noticed.Between (n : Noticed) (first last : Site) : Prop where
  first_le : first ≤ n.site
  le_last : n.site ≤ last
  grammar : ∃ t e, n.error = .ofGrammar t e

/-- A cursor moves past tokens and notices errors on the way, the newest first. -/
structure Cursor.Moves (c : Cursor) (used : List Token) (new : List Noticed) (next : Cursor) : Prop where
  ahead : c.ahead = used ++ next.ahead
  site : next.site = c.site + used.length
  endLine : next.endLine = c.endLine
  noticed : next.noticed = new ++ c.noticed
  between : ∀ n ∈ new, n.Between c.site next.site
  ordered : new.Pairwise fun a b => b.site ≤ a.site

namespace Cursor.Moves

variable {c d e : Cursor} {used used' : List Token} {new new' : List Noticed}

theorem refl (c : Cursor) : c.Moves [] [] c :=
  ⟨rfl, rfl, rfl, rfl, by simp, .nil⟩

theorem site_le (h : c.Moves used new d) : c.site ≤ d.site := by
  rw [h.site]
  exact Nat.le_add_right _ _

/-- Two moves of a cursor are one. -/
theorem trans (h : c.Moves used new d) (h' : d.Moves used' new' e) :
    c.Moves (used ++ used') (new' ++ new) e where
  ahead := by rw [h.ahead, h'.ahead, List.append_assoc]
  site := by rw [h'.site, h.site, List.length_append, Nat.add_assoc]
  endLine := h'.endLine.trans h.endLine
  noticed := by rw [h'.noticed, h.noticed, List.append_assoc]
  between n hn := by
    rcases List.mem_append.1 hn with hn | hn
    · obtain ⟨hfirst, hlast, hgrammar⟩ := h'.between n hn
      exact ⟨Nat.le_trans h.site_le hfirst, hlast, hgrammar⟩
    · obtain ⟨hfirst, hlast, hgrammar⟩ := h.between n hn
      exact ⟨hfirst, Nat.le_trans hlast h'.site_le, hgrammar⟩
  ordered := by
    refine List.pairwise_append.2 ⟨h'.ordered, h.ordered, fun a ha b hb => ?_⟩
    exact Nat.le_trans (h.between b hb).le_last (h'.between a ha).first_le

theorem note (c : Cursor) (t : Token) (e : SyntaxError) :
    c.Moves [] [⟨c.site, .ofGrammar t e⟩] (c.note t e) :=
  ⟨rfl, rfl, rfl, rfl, by simp only [List.mem_singleton, forall_eq]; exact ⟨Nat.le_refl _, Nat.le_refl _, t, e, rfl⟩,
    List.pairwise_singleton _ _⟩

theorem one {t : Token} {rest : List Token} {site : Site} {line : Nat} {noticed : List Noticed} :
    Cursor.Moves ⟨t :: rest, site, line, noticed⟩ [t] [] ⟨rest, site + 1, line, noticed⟩ :=
  ⟨rfl, rfl, rfl, rfl, by simp, .nil⟩

end Cursor.Moves

/-! ## The expressions of a tree -/

namespace Expr

mutual

/-- An expression and all the expressions in it, in the order of the tokens that they are known by. -/
def parts : Expr → List Expr
  | .literal site value => [.literal site value]
  | .grouping site inner => .grouping site inner :: parts inner
  | .variable ref => [.variable ref]
  | .assign target value => .assign target value :: parts value
  | .this ref => [.this ref]
  | .super ref method => [.super ref method]
  | .unary site op sign operand => .unary site op sign operand :: parts operand
  | .binary site op sign left right => parts left ++ .binary site op sign left right :: parts right
  | .logical site op sign left right => parts left ++ .logical site op sign left right :: parts right
  | .conditional site condition question middle colon right =>
    parts condition ++ .conditional site condition question middle colon right :: (parts middle ++ parts right)
  | .call site callee paren arguments => parts callee ++ .call site callee paren arguments :: partsOfAll arguments
  | .get site object name => parts object ++ [.get site object name]
  | .set site object name value => parts object ++ .set site object name value :: parts value

def partsOfAll : List Expr → List Expr
  | [] => []
  | e :: rest => parts e ++ partsOfAll rest

end

end Expr

mutual

/-- All the expressions in a statement. The superclass of a class is one of them. -/
def Stmt.expressions : Stmt → List Expr
  | .expression e | .print e => e.parts
  | .returns _ value | .variable _ value => Expr.partsOfAll value.toList
  | .branch condition yes none => condition.parts ++ yes.expressions
  | .branch condition yes (some no) => condition.parts ++ yes.expressions ++ no.expressions
  | .loop condition body => condition.parts ++ body.expressions
  | .block body => Stmt.expressionsOfAll body
  | .routine r => r.expressions
  | .classOf _ superclass methods => superclass.toList.map .variable ++ Routine.expressionsOfAll methods

def Routine.expressions : Routine → List Expr
  | .mk _ _ body => Stmt.expressionsOfAll body

def Stmt.expressionsOfAll : List Stmt → List Expr
  | [] => []
  | s :: rest => s.expressions ++ Stmt.expressionsOfAll rest

def Routine.expressionsOfAll : List Routine → List Expr
  | [] => []
  | r :: rest => r.expressions ++ Routine.expressionsOfAll rest

end

/-! ## Nodes -/

/-- What an expression is apart from its parts: a reference to a name, or any other node at its site. -/
inductive TreeNode where
  | refers (usage : Usage) (ref : Reference)
  | other (site : Site)
  deriving DecidableEq

namespace TreeNode

/-- The site of the node. -/
def site : TreeNode → Site
  | .refers _ ref => ref.site
  | .other site => site

/-- The reference of a node that refers to a name. -/
def reference? : TreeNode → Option (Usage × Reference)
  | .refers usage ref => some (usage, ref)
  | .other _ => none

end TreeNode

namespace Expr

/-- The node of an expression. -/
@[simp]
def node : Expr → TreeNode
  | .variable ref => .refers .variable ref
  | .assign ref _ => .refers .assign ref
  | .this ref => .refers .this ref
  | .super ref _ => .refers .super ref
  | .literal site _ | .grouping site _ | .unary site .. | .binary site .. | .logical site .. | .conditional site .. |
    .call site .. | .get site .. | .set site .. => .other site

theorem site_node (e : Expr) : e.node.site = e.site := by
  cases e <;> rfl

/-- The nodes of an expression. -/
@[simp]
def nodes (e : Expr) : List TreeNode := e.parts.map node

/-- The nodes of expressions. -/
@[simp]
def nodesOfAll (es : List Expr) : List TreeNode := (partsOfAll es).map node

/-- The reference of an expression that is one. -/
def reference? (e : Expr) : Option (Usage × Reference) := e.node.reference?

theorem filterMap_partsOfAll (es : List Expr) : (partsOfAll es).filterMap reference? = referencesOfAll es := by
  induction es using @Expr.rec_1 fun e => e.parts.filterMap reference? = e.references with
  | _ => simp_all [parts, partsOfAll, references, referencesOfAll, List.filterMap_cons, reference?, TreeNode.reference?]

/-- The expressions in an expression that are references. -/
@[simp]
theorem filterMap_parts (e : Expr) : e.parts.filterMap reference? = e.references := by
  simpa [partsOfAll, referencesOfAll] using filterMap_partsOfAll [e]

@[simp]
theorem filterMap_partsOfOption (e : Option Expr) :
    (partsOfAll e.toList).filterMap reference? = referencesOfOption e := by
  cases e <;> simp [partsOfAll, referencesOfOption]

end Expr

namespace Stmt

/-- The nodes of the expressions in a statement. -/
@[simp]
def nodes (s : Stmt) : List TreeNode := s.expressions.map Expr.node

/-- The nodes of the expressions in statements. -/
@[simp]
def nodesOfAll (ss : List Stmt) : List TreeNode := (expressionsOfAll ss).map Expr.node

theorem nodesOfAll_singleton (s : Stmt) : nodesOfAll [s] = s.nodes := by
  simp [expressionsOfAll]

/-- The expressions in statements that are references. -/
theorem filterMap_expressionsOfAll (ss : List Stmt) :
    (expressionsOfAll ss).filterMap Expr.reference? = referencesOfAll ss := by
  induction ss using @Stmt.rec_2 (fun s => s.expressions.filterMap Expr.reference? = s.references)
    (fun r => r.expressions.filterMap Expr.reference? = r.references)
    (fun s => (expressionsOfAll s.toList).filterMap Expr.reference? = referencesOfAll s.toList) _
    (fun rs => (Routine.expressionsOfAll rs).filterMap Expr.reference? = Routine.referencesOfAll rs) with
  | classOf name superclass methods ih =>
    cases superclass <;> simp_all [expressions, references, Expr.reference?, TreeNode.reference?]
  | branch condition yes no ih ih' => cases no <;> simp_all [expressions, references, expressionsOfAll, referencesOfAll]
  | _ =>
    simp_all [expressions, expressionsOfAll, references, referencesOfAll, Routine.expressions, Routine.expressionsOfAll,
      Routine.references, Routine.referencesOfAll]

theorem expressionsOfAll_append (ss ss' : List Stmt) :
    expressionsOfAll (ss ++ ss') = expressionsOfAll ss ++ expressionsOfAll ss' := by
  induction ss with
  | nil => rfl
  | cons s ss ih => rw [List.cons_append, expressionsOfAll, expressionsOfAll, ih, List.append_assoc]

theorem nodesOfAll_append (ss ss' : List Stmt) : nodesOfAll (ss ++ ss') = nodesOfAll ss ++ nodesOfAll ss' := by
  simp [expressionsOfAll_append]

end Stmt

/-- The kind of the token that a node refers by. -/
def Usage.kind : Usage → Kind
  | .variable | .assign => .identifier
  | .this => .thisWord
  | .super => .superWord

/-- Nodes known by different ones of some tokens, the first of which stands at a site. Those that refer to names keep
their token. -/
structure Sited (site : Site) (used : List Token) (made : List TreeNode) : Prop where
  sites : (made.map TreeNode.site).Subperm (List.range' site used.length)
  kinds : ∀ usage ref, .refers usage ref ∈ made → ref.token ∈ used ∧ ref.token.kind = usage.kind

namespace Sited

variable {site : Site} {used used' : List Token} {made made' : List TreeNode}

theorem nil : Sited site used [] :=
  ⟨List.nil_subperm, by simp⟩

theorem refers {t : Token} {u : Usage} (h : t.kind = u.kind) : Sited site [t] [.refers u ⟨site, t⟩] :=
  ⟨.refl _, by simpa using h⟩

theorem other (t : Token) : Sited site [t] [.other site] :=
  ⟨.refl _, by simp⟩

theorem sub (h : Sited site used made) (hsub : made'.Subperm made) : Sited site used made' := by
  obtain ⟨l, hperm, hsublist⟩ := hsub
  have hsites : (made'.map TreeNode.site).Subperm (made.map TreeNode.site) := ⟨_, hperm.map _, hsublist.map _⟩
  exact ⟨hsites.trans h.sites, fun u ref hp => h.kinds u ref (hsublist.subset (hperm.mem_iff.2 hp))⟩

/-- Nodes from tokens and then from others have their sites in order. -/
theorem append (h : Sited site used made) (h' : Sited (site + used.length) used' made') :
    Sited site (used ++ used') (made ++ made') where
  sites := by
    rw [List.map_append, List.length_append, ← List.range'_append_1]
    exact h.sites.append h'.sites
  kinds u ref hp := by
    rcases List.mem_append.1 hp with hp | hp
    · exact ⟨List.mem_append_left _ (h.kinds u ref hp).1, (h.kinds u ref hp).2⟩
    · exact ⟨List.mem_append_right _ (h'.kinds u ref hp).1, (h'.kinds u ref hp).2⟩

/-- A variable that turns out to be a target. -/
theorem assigned {ref : Reference} (h : Sited site used (made ++ [.refers .variable ref] ++ made')) :
    Sited site used (made ++ .refers .assign ref :: made') := by
  refine ⟨by simpa [TreeNode.site] using h.sites, fun u ref' hp => ?_⟩
  by_cases hmem : .refers u ref' ∈ made ++ [.refers .variable ref] ++ made'
  · exact h.kinds u ref' hmem
  · obtain ⟨rfl, rfl⟩ : u = .assign ∧ ref' = ref := by simp_all
    exact h.kinds .variable ref' (by simp)

end Sited

namespace Cursor

/-- How far two cursors agree: to the end of the source, or up to a semicolon behind which each of them has something
else. -/
inductive Extent where
  | whole
  | upTo (ending : Token) (rest rest' : List Token)

/-- Two cursors agree on what is ahead. What was noticed before does not matter. -/
inductive Agree : Extent → Cursor → Cursor → Prop where
  | whole {ahead : List Token} {site : Site} {line : Nat} {noticed noticed' : List Noticed} :
    Agree .whole ⟨ahead, site, line, noticed⟩ ⟨ahead, site, line, noticed'⟩
  | upTo {ts rest rest' : List Token} {ending : Token} {site : Site} {line line' : Nat}
    {noticed noticed' : List Noticed} (h : ending.kind = .semicolon) :
    Agree (.upTo ending rest rest') ⟨ts ++ ending :: rest, site, line, noticed⟩
      ⟨ts ++ ending :: rest', site, line', noticed'⟩

/-- Two cursors pass the same token and agree behind it. -/
structure Takes (extent : Extent) (t : Token) (c c' next next' : Cursor) : Prop where
  agree : next.Agree extent next'
  moves : c.Moves [t] [] next
  moves' : c'.Moves [t] [] next'

/-- From two cursors others are reached that agree, past the same tokens and with the same errors. Nodes are made of the
tokens on the way. -/
structure Together (extent : Extent) (made : List TreeNode) (c c' next next' : Cursor) : Prop where
  agree : next.Agree extent next'
  moves : ∃ used new, c.Moves used new next ∧ c'.Moves used new next' ∧ Sited c.site used made

variable {extent : Extent} {made more : List TreeNode} {c c' d d' next next' : Cursor}

namespace Agree

theorem refl (c : Cursor) : c.Agree .whole c := by
  obtain ⟨ahead, site, line, noticed⟩ := c
  exact .whole

theorem ahead_eq (h : c.Agree .whole c') : c.ahead = c'.ahead := by
  cases h
  rfl

theorem remaining_eq (h : c.Agree .whole c') : c.remaining = c'.remaining :=
  congrArg List.length h.ahead_eq

section

variable (h : c.Agree extent c')

include h

theorem site_eq : c.site = c'.site := by
  cases h <;> rfl

theorem current_eq : c.current = c'.current := by
  cases h with
  | whole => rfl
  | @upTo ts => cases ts <;> rfl

theorem sees_eq (k : Kind) : c.sees k = c'.sees k := by
  cases h with
  | whole => rfl
  | @upTo ts => cases ts <;> rfl

theorem atEnd_eq : c.atEnd = c'.atEnd := by
  cases h with
  | whole => rfl
  | @upTo ts => cases ts <;> rfl

theorem note (t : Token) (e : SyntaxError) : (c.note t e).Agree extent (c'.note t e) := by
  cases h with
  | whole => exact .whole
  | upTo h => exact .upTo h

theorem together : Together extent [] c c' c c' :=
  ⟨h, [], [], .refl c, .refl c', .nil⟩

/-- Tokens are taken alike, as long as no semicolon is taken where the cursors may agree only up to one. -/
theorem acceptBy? {α : Type} (test : Token → Option α)
    (htest : extent ≠ .whole → ∀ t, t.kind = .semicolon → test t = none) :
    c.acceptBy? test = none ∧ c'.acceptBy? test = none ∨
      ∃ t v next hlt next' hlt', test t = some v ∧ c.acceptBy? test = some ⟨v, next, hlt⟩ ∧
        c'.acceptBy? test = some ⟨v, next', hlt'⟩ ∧ Takes extent t c c' next next' := by
  cases h with
  | @whole ahead =>
    cases ahead with
    | nil => exact .inl ⟨rfl, rfl⟩
    | cons t rest =>
      cases hv : test t with
      | none =>
        exact .inl ⟨acceptBy?_eq_none (by rintro _ ⟨⟩; exact hv), acceptBy?_eq_none (by rintro _ ⟨⟩; exact hv)⟩
      | some v =>
        exact .inr ⟨t, v, _, _, _, _, hv, acceptBy?_cons hv, acceptBy?_cons hv, .whole, .one, .one⟩
  | @upTo ts rest rest' ending site line line' noticed noticed' hending =>
    cases ts with
    | nil =>
      have hnone := htest (by simp) ending hending
      exact .inl ⟨acceptBy?_eq_none (by rintro _ ⟨⟩; exact hnone),
        acceptBy?_eq_none (by rintro _ ⟨⟩; exact hnone)⟩
    | cons t ts =>
      cases hv : test t with
      | none =>
        exact .inl ⟨acceptBy?_eq_none (by rintro _ ⟨⟩; exact hv), acceptBy?_eq_none (by rintro _ ⟨⟩; exact hv)⟩
      | some v =>
        exact .inr ⟨t, v, _, _, _, _, hv, acceptBy?_cons hv, acceptBy?_cons hv, .upTo hending, .one, .one⟩

/-- Two cursors that agree take the token both or not at all. -/
theorem accept? {k : Kind} (hk : extent ≠ .whole → k ≠ .semicolon) :
    c.accept? k = none ∧ c'.accept? k = none ∨
      ∃ t next hlt next' hlt', t.kind = k ∧ c.accept? k = some ⟨t, next, hlt⟩ ∧
        c'.accept? k = some ⟨t, next', hlt'⟩ ∧ Takes extent t c c' next next' := by
  rcases h.acceptBy? (fun t => if t.kind = k then some t else none)
      fun hextent _ ht => if_neg fun hk' => hk hextent (hk'.symm.trans ht) with
    hnone | ⟨t, v, next, hlt, next', hlt', ht, hsome⟩
  · exact .inl hnone
  · obtain ⟨hkind, hv⟩ := Option.ite_none_right_eq_some.1 ht
    cases hv
    exact .inr ⟨t, next, hlt, next', hlt', hkind, hsome⟩

/-- The token ahead is the same, if there is one. Past it the cursors agree, unless it is a semicolon. -/
theorem acceptAny :
    c.acceptBy? some = none ∧ c'.acceptBy? some = none ∨
      ∃ t next hlt next' hlt', c.acceptBy? some = some ⟨t, next, hlt⟩ ∧
        c'.acceptBy? some = some ⟨t, next', hlt'⟩ ∧
        (Takes extent t c c' next next' ∨ extent ≠ .whole ∧ t.kind = .semicolon) := by
  cases h with
  | @whole ahead =>
    cases ahead with
    | nil => exact .inl ⟨rfl, rfl⟩
    | cons t rest =>
      exact .inr ⟨t, _, _, _, _, acceptBy?_cons rfl, acceptBy?_cons rfl, .inl ⟨.whole, .one, .one⟩⟩
  | @upTo ts _ _ ending _ _ _ _ _ hending =>
    cases ts with
    | nil => exact .inr ⟨ending, _, _, _, _, acceptBy?_cons rfl, acceptBy?_cons rfl, .inr ⟨by simp, hending⟩⟩
    | cons t ts =>
      exact .inr ⟨t, _, _, _, _, acceptBy?_cons rfl, acceptBy?_cons rfl, .inl ⟨.upTo hending, .one, .one⟩⟩

end

/-- Cursors that agree on everything take every token alike. -/
theorem accept?_whole (h : c.Agree .whole c') (k : Kind) :
    c.accept? k = none ∧ c'.accept? k = none ∨
      ∃ t next hlt next' hlt', t.kind = k ∧ c.accept? k = some ⟨t, next, hlt⟩ ∧
        c'.accept? k = some ⟨t, next', hlt'⟩ ∧ Takes .whole t c c' next next' :=
  h.accept? fun hextent => absurd rfl hextent

theorem acceptAny_whole (h : c.Agree .whole c') :
    c.acceptBy? some = none ∧ c'.acceptBy? some = none ∨
      ∃ t next hlt next' hlt', c.acceptBy? some = some ⟨t, next, hlt⟩ ∧
        c'.acceptBy? some = some ⟨t, next', hlt'⟩ ∧ Takes .whole t c c' next next' := by
  rcases h.acceptAny with hnone | ⟨t, next, hlt, next', hlt', hsome, hsome', htakes | ⟨hextent, -⟩⟩
  · exact .inl hnone
  · exact .inr ⟨t, next, hlt, next', hlt', hsome, hsome', htakes⟩
  · exact absurd rfl hextent

end Agree

namespace Together

variable (h : Together extent made c c' d d')

include h

theorem sub (hsub : more.Subperm made) : Together extent more c c' d d' := by
  obtain ⟨hagree, used, new, hmoves, hmoves', hsited⟩ := h
  exact ⟨hagree, used, new, hmoves, hmoves', hsited.sub hsub⟩

theorem append {used : List Token} {new : List Noticed}
    (hagree : next.Agree extent next') (hmoves : d.Moves used new next) (hmoves' : d'.Moves used new next')
    (hmore : Sited d.site used more) : Together extent (made ++ more) c c' next next' := by
  obtain ⟨-, used₁, new₁, hfirst, hfirst', hsited⟩ := h
  exact ⟨hagree, _, _, hfirst.trans hmoves, hfirst'.trans hmoves', hsited.append (hfirst.site ▸ hmore)⟩

theorem move {used : List Token} {new : List Noticed}
    (hagree : next.Agree extent next') (hmoves : d.Moves used new next) (hmoves' : d'.Moves used new next') :
    Together extent made c c' next next' :=
  List.append_nil made ▸ h.append hagree hmoves hmoves' .nil

theorem trans (h' : Together extent more d d' next next') :
    Together extent (made ++ more) c c' next next' := by
  obtain ⟨hagree, used, new, hmoves, hmoves', hsited⟩ := h'
  exact h.append hagree hmoves hmoves' hsited

theorem take {t : Token} (htakes : Takes extent t d d' next next') : Together extent made c c' next next' :=
  h.move htakes.agree htakes.moves htakes.moves'

/-- The token taken becomes a reference. -/
theorem refer {t : Token} (u : Usage) (htakes : Takes extent t d d' next next')
    (hkind : t.kind = u.kind) : Together extent (made ++ [.refers u ⟨d.site, t⟩]) c c' next next' :=
  h.append htakes.agree htakes.moves htakes.moves' (.refers hkind)

/-- Another node is known by the token taken. -/
theorem mark {t : Token} (htakes : Takes extent t d d' next next') :
    Together extent (made ++ [.other d.site]) c c' next next' :=
  h.append htakes.agree htakes.moves htakes.moves' (.other t)

theorem note (t : Token) (e : SyntaxError) : Together extent made c c' (d.note t e) (d'.note t e) :=
  h.move (h.agree.note t e) (.note d t e) (h.agree.site_eq ▸ .note d' t e)

theorem note_current (e : SyntaxError) :
    Together extent made c c' (d.note d.current e) (d'.note d'.current e) := by
  rw [← h.agree.current_eq]
  exact h.note d.current e

theorem noteIf (condition : Bool) (e : SyntaxError) :
    Together extent made c c' (d.noteIf condition e) (d'.noteIf condition e) := by
  cases condition with
  | false => exact h
  | true => exact h.note_current e

end Together

end Cursor

/-! ## Outcomes -/

namespace Parsed

open Cursor (Extent Together)

variable {α β : Type} {m n m' n' : Nat} {extent : Extent} {c c' : Cursor} {p : Parsed α m} {p' : Parsed α n}
  {made : α → List TreeNode} {made' : β → List TreeNode}

/-- Two productions have the same outcome and get there together from two cursors. What is read is made of nodes on the
way, and a production that fails leaves none behind. -/
def Alike (extent : Extent) (c c' : Cursor) (made : α → List TreeNode) (p : Parsed α m)
    (p' : Parsed α n) : Prop :=
  match p, p' with
  | .done v next _, .done v' next' _ => v = v' ∧ Together extent (made v) c c' next next'
  | .failed next _, .failed next' _ => Together extent [] c c' next next'
  | _, _ => False

namespace Alike

theorem weaken (h : Alike extent c c' made p p') (hm : m ≤ m') (hn : n ≤ n') :
    Alike extent c c' made (p.weaken hm) (p'.weaken hn) := by
  cases p <;> cases p' <;> exact h

/-- What goes on alike after what was read alike is read alike. -/
theorem andThen {f : (v : α) → (next : Cursor) → next.remaining < m → Parsed β m}
    {f' : (v : α) → (next : Cursor) → next.remaining < n → Parsed β n} (h : Alike extent c c' made p p')
    (hf : ∀ {next hlt next' hlt'} v, Together extent (made v) c c' next next' →
      Alike extent c c' made' (f v next hlt) (f' v next' hlt')) :
    Alike extent c c' made' (p.andThen f) (p'.andThen f') := by
  cases p <;> cases p'
  · obtain ⟨rfl, htogether⟩ := h
    exact hf _ htogether
  · exact h.elim
  · exact h.elim
  · exact h

theorem map (h : Alike extent c c' made p p') (f : α → β) (hmade : ∀ v, made' (f v) = made v) :
    Alike extent c c' made' (p.map f) (p'.map f) :=
  h.andThen fun v htogether => ⟨rfl, (hmade v).symm ▸ htogether⟩

end Alike

end Parsed

namespace Cursor.Together

open Parsed

variable {α : Type} {m n : Nat} {extent : Extent} {made more : List TreeNode} {c c' d d' : Cursor}
  {f : α → List TreeNode}

theorem done (h : Together extent made c c' d d') (v : α) {hm : d.remaining < m} {hn : d'.remaining < n}
    (hmade : f v = made) : Alike extent c c' f (.done v d hm) (.done v d' hn) :=
  ⟨rfl, hmade.symm ▸ h⟩

theorem fail (h : Together extent made c c' d d') (what : Expected) :
    Alike extent c c' f (d.fail what) (d'.fail what) :=
  (h.sub List.nil_subperm).note_current (.missing what)

/-- A token that must come is taken alike. -/
theorem expect (h : Together extent made c c' d d') {k : Kind} (hk : extent ≠ .whole → k ≠ .semicolon)
    (what : Expected) : Alike extent c c' (fun _ => made) (d.expect k what) (d'.expect k what) := by
  unfold Cursor.expect
  rcases h.agree.accept? hk with ⟨hnone, hnone'⟩ | ⟨t, next, hlt, next', hlt', -, hsome, hsome', htakes⟩
  · rw [hnone, hnone']
    exact h.fail what
  · rw [hsome, hsome']
    have h := h.take htakes
    exact h.done t rfl

theorem expect_whole (h : Together .whole made c c' d d') (k : Kind) (what : Expected) :
    Alike .whole c c' (fun _ => made) (d.expect k what) (d'.expect k what) :=
  h.expect (fun hextent => absurd rfl hextent) what

/-- A name that becomes a reference. -/
theorem expect_name (h : Together .whole made c c' d d') (what : Expected) :
    Alike .whole c c' (fun t => made ++ [.refers .variable ⟨d.site, t⟩]) (d.expect .identifier what)
      (d'.expect .identifier what) := by
  unfold Cursor.expect
  rcases h.agree.accept? (k := .identifier) (fun _ => by decide) with
    ⟨hnone, hnone'⟩ | ⟨t, next, hlt, next', hlt', hkind, hsome, hsome', htakes⟩
  · rw [hnone, hnone']
    exact h.fail what
  · rw [hsome, hsome']
    exact (h.refer .variable htakes hkind).done t rfl

end Cursor.Together

/-! ## Expressions -/

namespace Expr

open Parsed Cursor

variable {site : Site} {t : Token}

/-- No operator is a semicolon. -/
theorem join?_of_semicolon (l : Level) (ht : t.kind = .semicolon) : l.join? site t = none := by
  unfold Level.join?
  rw [ht]
  cases l <;> rfl

theorem prefixNode?_of_semicolon (ht : t.kind = .semicolon) : prefixNode? site t = none := by
  unfold prefixNode?
  rw [ht]

theorem nodes_join? {l : Level} {build : Expr → Expr → Expr} (h : l.join? site t = some build)
    (left right : Expr) : (build left right).nodes = left.nodes ++ .other site :: right.nodes := by
  unfold Level.join? at h
  split at h <;> cases h <;> simp [parts]

theorem nodes_prefixNode? {build : Expr → Expr} (h : prefixNode? site t = some build) (e : Expr) :
    (build e).nodes = .other site :: e.nodes := by
  unfold prefixNode? at h
  split at h <;> cases h <;> simp [parts]

variable {extent : Extent} {c c' : Cursor} {made : List TreeNode}

/-- An assignment refers to its target by the token that the target was read from. -/
theorem together_assignTo? {d d' : Cursor} {target value e : Expr} (hassign : assignTo? target value = some e)
    (h : Together extent (made ++ target.nodes ++ value.nodes) c c' d d') :
    Together extent (made ++ e.nodes) c c' d d' := by
  unfold assignTo? at hassign
  split at hassign
  · cases hassign
    obtain ⟨hagree, used, new, hmoves, hmoves', hsited⟩ := h
    exact ⟨hagree, used, new, hmoves, hmoves', hsited.assigned⟩
  · cases hassign
    simpa [parts] using h
  · cases hassign

mutual

/-- Expressions are read alike. -/
theorem read_alike {made d d'} (h : Together extent made c c' d d') :
    Alike extent c c' (made ++ ·.nodes) (read d) (read d') := by
  rw [read, read]
  refine (readLevel_alike .disjunction h).andThen fun target h => ?_
  rcases h.agree.accept? (k := .equal) (fun _ => by decide) with
    ⟨hnone, hnone'⟩ | ⟨sign, c₂, h₂, c₂', h₂', -, hsome, hsome', htakes⟩
  · rw [hnone, hnone']
    exact h.done target rfl
  · rw [hsome, hsome']
    have h := h.take htakes
    refine ((read_alike h).weaken _ _).andThen fun value h => ?_
    cases hassign : assignTo? target value with
    | some e => exact (together_assignTo? hassign h).done e rfl
    | none =>
      -- The value is dropped.
      exact ((h.sub (List.sublist_append_left _ _).subperm).note sign .invalidTarget).done target rfl
termination_by d.remaining * 32 + 17
decreasing_by
  · have := Level.height_le .disjunction; omega
  · omega

/-- Chains of operators are read alike. -/
theorem readLevel_alike (l : Level) {made d d'} (h : Together extent made c c' d d') :
    Alike extent c c' (made ++ ·.nodes) (readLevel l d) (readLevel l d') := by
  rw [readLevel, readLevel]
  refine (readTighter_alike l h).andThen fun first h =>
    ((readChain_alike l first h).weaken _ _).andThen fun left h => ?_
  by_cases hl : l = .equality
  · rw [if_pos hl, if_pos hl]
    exact (readConditional_alike left h).weaken _ _
  · rw [if_neg hl, if_neg hl]
    exact h.done left rfl
termination_by d.remaining * 32 + 2 * l.height + 5

theorem readTighter_alike (l : Level) {made d d'} (h : Together extent made c c' d d') :
    Alike extent c c' (made ++ ·.nodes) (readTighter l d) (readTighter l d') := by
  rw [readTighter, readTighter]
  split
  · next l' hl =>
    have hheight := Level.height_tighter hl
    exact readLevel_alike l' h
  · exact readPrefix_alike h
termination_by d.remaining * 32 + 2 * l.height + 4

/-- Operators after an operand are read alike. -/
theorem readChain_alike (l : Level) (left : Expr) {made d d'}
    (h : Together extent (made ++ left.nodes) c c' d d') :
    Alike extent c c' (made ++ ·.nodes) (readChain l left d) (readChain l left d') := by
  rw [readChain, readChain, ← h.agree.site_eq]
  rcases h.agree.acceptBy? (l.join? d.site) (fun _ _ => join?_of_semicolon l) with
    ⟨hnone, hnone'⟩ | ⟨t, build, c₁, h₁, c₁', h₁', hbuild, hsome, hsome', htakes⟩
  · rw [hnone, hnone']
    exact h.done left rfl
  · rw [hsome, hsome']
    have h := h.mark htakes
    refine Alike.weaken ((readTighter_alike l h).andThen fun right h => ?_) _ _
    rw [List.append_assoc, List.append_assoc, List.singleton_append, ← nodes_join? hbuild] at h
    exact (readChain_alike l (build left right) h).weaken _ _
termination_by d.remaining * 32
decreasing_by
  · have := l.height_le; omega
  · omega

/-- Conditionals are read alike. -/
theorem readConditional_alike (condition : Expr) {made d d'}
    (h : Together extent (made ++ condition.nodes) c c' d d') :
    Alike extent c c' (made ++ ·.nodes) (readConditional condition d) (readConditional condition d') := by
  rw [readConditional, readConditional, ← h.agree.site_eq]
  rcases h.agree.accept? (k := .question) (fun _ => by decide) with
    ⟨hnone, hnone'⟩ | ⟨question, c₁, h₁, c₁', h₁', -, hsome, hsome', htakes⟩
  · rw [hnone, hnone']
    exact h.done condition rfl
  · rw [hsome, hsome']
    have h := h.mark htakes
    refine Alike.weaken ((readLevel_alike .comparison h).andThen fun middle h =>
      ((h.expect (fun _ => by decide) .colon).weaken _ _).andThen fun colon h =>
        ((readLevel_alike .comparison h).weaken _ _).andThen fun right h => ?_) _ _
    exact (readConditional_alike (.conditional d.site condition question middle colon right)
      (by simpa [parts] using h)).weaken _ _
termination_by d.remaining * 32
decreasing_by
  · have := Level.height_le .comparison; omega
  · have := Level.height_le .comparison; omega
  · omega

/-- Signs before an operand are read alike. -/
theorem readPrefix_alike {made d d'} (h : Together extent made c c' d d') :
    Alike extent c c' (made ++ ·.nodes) (readPrefix d) (readPrefix d') := by
  rw [readPrefix, readPrefix, ← h.agree.site_eq]
  rcases h.agree.acceptBy? (prefixNode? d.site) (fun _ _ => prefixNode?_of_semicolon) with
    ⟨hnone, hnone'⟩ | ⟨t, build, c₁, h₁, c₁', h₁', hbuild, hsome, hsome', htakes⟩
  · rw [hnone, hnone']
    exact readCall_alike h
  · rw [hsome, hsome']
    have hnext := h.mark htakes
    exact ((readPrefix_alike hnext).weaken _ _).map build fun e => by
      rw [nodes_prefixNode? hbuild, List.append_assoc, List.singleton_append]
termination_by d.remaining * 32 + 3

theorem readCall_alike {made d d'} (h : Together extent made c c' d d') :
    Alike extent c c' (made ++ ·.nodes) (readCall d) (readCall d') := by
  rw [readCall, readCall]
  exact (readPrimary_alike h).andThen fun e h => (readSuffixes_alike e h).weaken _ _
termination_by d.remaining * 32 + 2

/-- Calls and properties are read alike. -/
theorem readSuffixes_alike (e : Expr) {made d d'} (h : Together extent (made ++ e.nodes) c c' d d') :
    Alike extent c c' (made ++ ·.nodes) (readSuffixes e d) (readSuffixes e d') := by
  rw [readSuffixes, readSuffixes, ← h.agree.site_eq]
  rcases h.agree.accept? (k := .dot) (fun _ => by decide) with
    ⟨hnone, hnone'⟩ | ⟨dot, c₁, h₁, c₁', h₁', -, hsome, hsome', htakes⟩
  · rw [hnone, hnone']
    dsimp only
    rcases h.agree.accept? (k := .leftParen) (fun _ => by decide) with
      ⟨hnone, hnone'⟩ | ⟨opening, c₁, h₁, c₁', h₁', -, hsome, hsome', htakes⟩
    · rw [hnone, hnone']
      exact h.done e rfl
    · rw [hsome, hsome']
      have h := h.mark htakes
      refine Alike.weaken ((readArguments_alike h).andThen fun arguments h =>
        ((h.expect (fun _ => by decide) .argumentsClosing).weaken _ _).andThen fun paren h => ?_) _ _
      exact (readSuffixes_alike (.call d.site e paren arguments) (by simpa [parts] using h)).weaken _ _
  · rw [hsome, hsome']
    have hnext := h.mark htakes
    exact Alike.weaken ((hnext.expect (fun _ => by decide) .propertyName).andThen
      fun name h => (readSuffixes_alike (.get d.site e name) (by simpa [parts] using h)).weaken _ _) _ _
termination_by d.remaining * 32

theorem readArguments_alike {made d d'} (h : Together extent made c c' d d') :
    Alike extent c c' (made ++ nodesOfAll ·) (readArguments d) (readArguments d') := by
  rw [readArguments, readArguments, ← h.agree.sees_eq]
  split
  · exact h.done [] (List.append_nil made)
  · exact (readArgumentList_alike 0 h).weaken _ _
termination_by d.remaining * 32 + 19

/-- Arguments are read alike. -/
theorem readArgumentList_alike (before : Nat) {made d d'} (h : Together extent made c c' d d') :
    Alike extent c c' (made ++ nodesOfAll ·) (readArgumentList before d) (readArgumentList before d') := by
  rw [readArgumentList, readArgumentList]
  refine (read_alike (h.noteIf (maxArguments ≤ before) .tooManyArguments)).andThen @fun c₁ h₁ _ _ e h => ?_
  have h₁ : c₁.remaining < d.remaining := h₁
  dsimp only
  rcases h.agree.accept? (k := .comma) (fun _ => by decide) with
    ⟨hnone, hnone'⟩ | ⟨comma, c₂, h₂, c₂', h₂', -, hsome, hsome', htakes⟩
  · rw [hnone, hnone']
    exact h.done [e] (by simp [partsOfAll])
  · rw [hsome, hsome']
    have h := h.take htakes
    exact ((readArgumentList_alike (before + 1) h).weaken _ _).map (e :: ·) fun es => by simp [partsOfAll]
termination_by d.remaining * 32 + 18
decreasing_by
  · exact Nat.lt_succ_self (d.remaining * 32 + 17)
  · omega

/-- Primary expressions are read alike. -/
theorem readPrimary_alike {made d d'} (h : Together extent made c c' d d') :
    Alike extent c c' (made ++ ·.nodes) (readPrimary d) (readPrimary d') := by
  rw [readPrimary, readPrimary]
  rcases h.agree.acceptAny with ⟨hnone, hnone'⟩ | ⟨t, c₁, h₁, c₁', h₁', hsome, hsome', htakes | ⟨-, ht⟩⟩
  · rw [hnone, hnone']
    exact h.fail .expression
  · rw [hsome, hsome', ← h.agree.site_eq]
    have hnext := h.mark htakes
    dsimp only
    split
    case h_6 hkind => exact (h.refer .this htakes hkind).done _ rfl
    case h_7 hkind => exact (h.refer .variable htakes hkind).done _ rfl
    case h_8 hkind =>
      exact (((h.refer .super htakes hkind).expect (fun _ => by decide) .superDot).weaken _ _).andThen fun _ h =>
        ((h.expect (fun _ => by decide) .superMethodName).weaken _ _).map _ fun _ => rfl
    case h_9 =>
      exact ((read_alike hnext).weaken _ _).andThen fun inner h =>
        ((h.expect (fun _ => by decide) .groupClosing).weaken _ _).map _ fun _ => by simp [parts]
    case h_10 => exact h.fail .expression
    all_goals exact hnext.done _ rfl
  · -- A semicolon starts no expression.
    rw [hsome, hsome']
    dsimp only
    rw [ht]
    exact h.fail .expression
termination_by d.remaining * 32 + 1

end

end Expr

/-! ## Statements -/

section

open Parsed Cursor

variable {c c' d d' : Cursor} {made : List TreeNode}

/-- Parameters are read alike. -/
theorem readParameterList_alike (before : Nat) {d d' : Cursor} (h : Together .whole made c c' d d') :
    Alike .whole c c' (fun _ => made) (readParameterList before d) (readParameterList before d') := by
  rw [readParameterList, readParameterList]
  have hnoted := h.noteIf (maxArguments ≤ before) .tooManyParameters
  refine (hnoted.expect_whole .identifier _).andThen @fun c₁ h₁ _ _ name h => ?_
  have h₁ : c₁.remaining < d.remaining := h₁
  dsimp only
  rcases h.agree.accept?_whole .comma with
    ⟨hnone, hnone'⟩ | ⟨comma, c₂, h₂, c₂', h₂', -, hsome, hsome', htakes⟩
  · rw [hnone, hnone']
    exact h.done [name] rfl
  · rw [hsome, hsome']
    have hnext := h.take htakes
    exact ((readParameterList_alike (before + 1) hnext).weaken _ _).map _ fun _ => rfl
termination_by d.remaining

section

variable (h : Together .whole made c c' d d')

include h

theorem readCondition_alike (keyword : String) :
    Alike .whole c c' (made ++ ·.nodes) (readCondition keyword d) (readCondition keyword d') := by
  unfold readCondition
  exact (h.expect_whole .leftParen _).andThen fun _ h =>
    ((Expr.read_alike h).weaken _ _).andThen fun condition h =>
      ((h.expect_whole .rightParen _).weaken _ _).map _ fun _ => rfl

theorem readEnded_alike (what : Expected) :
    Alike .whole c c' (made ++ ·.nodes) (readEnded what d) (readEnded what d') := by
  unfold readEnded
  exact (Expr.read_alike h).andThen fun e h =>
    ((h.expect_whole .semicolon what).weaken _ _).map _ fun _ => rfl

/-- Declarations of variables are read alike. -/
theorem readVariable_alike : Alike .whole c c' (made ++ ·.nodes) (readVariable d) (readVariable d') := by
  unfold readVariable
  refine (h.expect_whole .identifier _).andThen fun name h => ?_
  rcases h.agree.accept?_whole .equal with
    ⟨hnone, hnone'⟩ | ⟨sign, c₂, h₂, c₂', h₂', -, hsome, hsome', htakes⟩
  · rw [hnone, hnone']
    exact ((h.expect_whole .semicolon _).weaken _ _).map _ fun _ => List.append_nil made
  · rw [hsome, hsome']
    have hnext := h.take htakes
    exact ((readEnded_alike hnext _).weaken _ _).map _ fun _ => by simp [Stmt.expressions, Expr.partsOfAll]

theorem readParameters_alike : Alike .whole c c' (fun _ => made) (readParameters d) (readParameters d') := by
  unfold readParameters
  rw [← h.agree.sees_eq]
  split
  · exact h.done [] rfl
  · exact (readParameterList_alike 0 h).weaken _ _

/-- Superclasses are read alike. -/
theorem readSuperclass_alike :
    Alike .whole c c' (made ++ ·.toList.map (.refers .variable)) (readSuperclass d) (readSuperclass d') := by
  unfold readSuperclass
  rcases h.agree.accept?_whole .less with
    ⟨hnone, hnone'⟩ | ⟨sign, c₁, h₁, c₁', h₁', -, hsome, hsome', htakes⟩
  · rw [hnone, hnone']
    exact h.done none (List.append_nil made)
  · rw [hsome, hsome']
    have hnext := h.take htakes
    dsimp only
    rw [← hnext.agree.site_eq]
    exact ((hnext.expect_name _).weaken _ _).map _ fun _ => rfl

/-- The first parts of `for` loops are read alike. -/
theorem readInitializer_alike :
    Alike .whole c c' (made ++ Stmt.nodesOfAll ·.toList) (readInitializer d) (readInitializer d') := by
  unfold readInitializer
  rcases h.agree.accept?_whole .semicolon with
    ⟨hnone, hnone'⟩ | ⟨t, c₁, h₁, c₁', h₁', -, hsome, hsome', htakes⟩
  · rw [hnone, hnone']
    dsimp only
    rcases h.agree.accept?_whole .varWord with
      ⟨hnone, hnone'⟩ | ⟨keyword, c₁, h₁, c₁', h₁', -, hsome, hsome', htakes⟩
    · rw [hnone, hnone']
      exact (readEnded_alike h _).map _ fun _ => congrArg (made ++ ·) (Stmt.nodesOfAll_singleton _)
    · rw [hsome, hsome']
      have hnext := h.take htakes
      exact ((readVariable_alike hnext).weaken _ _).map _
        fun _ => congrArg (made ++ ·) (Stmt.nodesOfAll_singleton _)
  · rw [hsome, hsome']
    have hnext := h.take htakes
    exact hnext.done none (List.append_nil made)

/-- Expressions that may be missing are read alike. -/
theorem readOptional_alike (closing : Kind) (what : Expected) :
    Alike .whole c c' (made ++ Expr.nodesOfAll ·.toList) (readOptional closing what d)
      (readOptional closing what d') := by
  unfold readOptional
  rcases h.agree.accept?_whole closing with
    ⟨hnone, hnone'⟩ | ⟨t, c₁, h₁, c₁', h₁', -, hsome, hsome', htakes⟩
  · rw [hnone, hnone']
    exact (Expr.read_alike h).andThen fun e h =>
      ((h.expect_whole closing what).weaken _ _).map _ fun _ => by simp [Expr.partsOfAll]
  · rw [hsome, hsome']
    have hnext := h.take htakes
    exact hnext.done none (List.append_nil made)

end

/-- Recovery skips the tokens ahead in order. -/
theorem Cursor.skipAfter_eq (previous : Kind) (ahead : List Token) (site : Site) :
    ∃ skipped, ahead = skipped ++ (skipAfter previous ahead site).1 ∧
      (skipAfter previous ahead site).2 = site + skipped.length := by
  induction ahead generalizing previous site with
  | nil => exact ⟨[], rfl, rfl⟩
  | cons t rest ih =>
    unfold skipAfter
    split
    · exact ⟨[], rfl, rfl⟩
    · obtain ⟨skipped, hrest, hsite⟩ := ih t.kind (site + 1)
      refine ⟨t :: skipped, by rw [List.cons_append, ← hrest], ?_⟩
      rw [hsite]
      exact Nat.add_right_comm _ _ _

/-- Skipping to the next statement makes no nodes. -/
theorem Cursor.moves_synchronize (c : Cursor) :
    ∃ used, c.Moves used [] c.synchronize ∧ (0 < c.remaining → used ≠ []) := by
  obtain ⟨ahead, site, line, noticed⟩ := c
  cases ahead with
  | nil => exact ⟨[], .refl _, by simp⟩
  | cons t rest =>
    obtain ⟨skipped, hrest, hsite⟩ := skipAfter_eq t.kind rest (site + 1)
    refine ⟨t :: skipped, ⟨?_, ?_, rfl, rfl, by simp, .nil⟩, by simp⟩
    · exact congrArg (t :: ·) hrest
    · exact hsite.trans (Nat.add_right_comm _ _ _)

/-- Two cursors skip to the next statement together. -/
theorem Cursor.Together.synchronize (h : Together .whole made c c' d d') :
    Together .whole made c c' d.synchronize d'.synchronize := by
  obtain ⟨used, hmoves, -⟩ := d.moves_synchronize
  obtain ⟨used', hmoves', -⟩ := d'.moves_synchronize
  have hagree : d.synchronize.Agree .whole d'.synchronize := by
    cases h.agree with
    | @whole ahead => cases ahead <;> exact .whole
  have hused : used = used' := by
    have heq : used ++ _ = used' ++ _ := hmoves.ahead.symm.trans (h.agree.ahead_eq.trans hmoves'.ahead)
    rw [hagree.ahead_eq] at heq
    exact List.append_cancel_right heq
  exact h.move hagree hmoves (hused ▸ hmoves')

/-- Two outcomes that are always reached are the same, and are reached together. -/
def Taken.Alike {α : Type} {m n : Nat} (c c' : Cursor) (made : α → List TreeNode) (x : Taken α m)
    (x' : Taken α n) : Prop :=
  x.value = x'.value ∧ Together .whole (made x.value) c c' x.next x'.next

end

namespace Stmt

open Parsed Cursor

/-- The increment of a loop is read before the body and put behind it. The keyword stands for an absent condition. -/
theorem forLoop_subperm (made : List TreeNode) (site : Site) (initializer : Option Stmt)
    (condition increment : Option Expr) (body : Stmt) :
    (made ++ (forLoop site initializer condition increment body).nodes).Subperm
      (made ++ [.other site] ++ nodesOfAll initializer.toList ++ Expr.nodesOfAll condition.toList ++
        Expr.nodesOfAll increment.toList ++ body.nodes) := by
  have hcondition : (condition.getD (.literal site (.bool true))).nodes.Subperm
      (.other site :: Expr.nodesOfAll condition.toList) := by
    cases condition with
    | none => exact .refl _
    | some e => simpa [Expr.partsOfAll] using (List.sublist_cons_self (TreeNode.other site) e.nodes).subperm
  have hloop : (forLoop site initializer condition increment body).nodes = nodesOfAll initializer.toList ++
      ((condition.getD (.literal site (.bool true))).nodes ++ (body.nodes ++ Expr.nodesOfAll increment.toList)) := by
    cases increment <;> simp [forLoop, expressions, expressionsOfAll, expressionsOfAll_append, Expr.partsOfAll]
  rw [hloop]
  refine ((List.Subperm.refl made).append ((List.Subperm.refl _).append (hcondition.append (.refl _)))).trans ?_
  refine (List.perm_iff_count.2 fun n => ?_).subperm
  simp only [List.count_append, List.count_cons, List.count_nil]
  omega

mutual

/-- Declarations at the top are read alike. -/
theorem readDeclaration_alike {c c' : Cursor} (h : c.Agree .whole c') (hpos : 0 < c.remaining)
    (hpos' : 0 < c'.remaining) :
    Taken.Alike c c' (nodesOfAll ·.toList) (readDeclaration c hpos) (readDeclaration c' hpos') := by
  have hdeclared := readDeclared_alike h.together
  rw [readDeclaration, readDeclaration]
  cases hc : readDeclared c <;> cases hc' : readDeclared c' <;> rw [hc, hc'] at hdeclared
  case done.done s _ _ _ _ _ =>
    obtain ⟨rfl, h⟩ := hdeclared
    exact ⟨rfl, h.sub (List.Perm.of_eq (nodesOfAll_singleton s)).subperm⟩
  case failed.failed => exact ⟨rfl, Together.synchronize hdeclared⟩
  all_goals exact hdeclared.elim
termination_by c.remaining * 8 + 2

/-- Declarations are read alike. -/
theorem readDeclared_alike {made c c' d d'} (h : Together .whole made c c' d d') :
    Alike .whole c c' (made ++ ·.nodes) (readDeclared d) (readDeclared d') := by
  rw [readDeclared, readDeclared]
  rcases h.agree.acceptAny_whole with ⟨hnone, hnone'⟩ | ⟨t, c₁, h₁, c₁', h₁', hsome, hsome', htakes⟩
  · rw [hnone, hnone']
    exact read_alike h
  · rw [hsome, hsome']
    have hnext := h.take htakes
    dsimp only
    split
    · exact (readClass_alike hnext).weaken _ _
    · exact ((readRoutine_alike .function hnext).weaken _ _).map _ fun _ => rfl
    · exact (readVariable_alike hnext).weaken _ _
    · exact read_alike h
termination_by d.remaining * 8 + 1

theorem readClass_alike {made c c' d d'} (h : Together .whole made c c' d d') :
    Alike .whole c c' (made ++ ·.nodes) (readClass d) (readClass d') := by
  rw [readClass, readClass]
  exact (h.expect_whole .identifier _).andThen fun name h =>
    ((readSuperclass_alike h).weaken _ _).andThen fun superclass h =>
      ((h.expect_whole .leftBrace _).weaken _ _).andThen fun _ h =>
        ((readMethods_alike h).weaken _ _).andThen fun methods h =>
          ((h.expect_whole .rightBrace _).weaken _ _).map _ fun _ => by simp [expressions]
termination_by d.remaining * 8

theorem readMethods_alike {made c c' d d'} (h : Together .whole made c c' d d') :
    Alike .whole c c' (fun rs => made ++ (Routine.expressionsOfAll rs).map Expr.node) (readMethods d)
      (readMethods d') := by
  rw [readMethods, readMethods, ← h.agree.sees_eq, ← h.agree.atEnd_eq]
  split
  · exact h.done [] (List.append_nil made)
  · exact ((readRoutine_alike .method h).andThen fun method h =>
      ((readMethods_alike h).weaken _ _).map (method :: ·) fun _ => by simp [Routine.expressionsOfAll]).weaken _ _
termination_by d.remaining * 8 + 1

/-- Functions are read alike. -/
theorem readRoutine_alike (sort : RoutineSort) {made c c' d d'} (h : Together .whole made c c' d d') :
    Alike .whole c c' (made ++ ·.expressions.map Expr.node) (readRoutine sort d) (readRoutine sort d') := by
  rw [readRoutine, readRoutine]
  exact (h.expect_whole .identifier _).andThen fun name h =>
    ((h.expect_whole .leftParen _).weaken _ _).andThen fun _ h =>
      ((readParameters_alike h).weaken _ _).andThen fun params h =>
        ((h.expect_whole .rightParen _).weaken _ _).andThen fun _ h =>
          ((h.expect_whole .leftBrace _).weaken _ _).andThen fun _ h =>
            ((readBlock_alike h).weaken _ _).map _ fun _ => rfl
termination_by d.remaining * 8

/-- Blocks are read alike. -/
theorem readBlock_alike {made c c' d d'} (h : Together .whole made c c' d d') :
    Alike .whole c c' (made ++ nodesOfAll ·) (readBlock d) (readBlock d') := by
  have hbody := readBody_alike h.agree
  rw [readBlock, readBlock]
  generalize readBody d = x at hbody ⊢
  generalize readBody d' = x' at hbody ⊢
  obtain ⟨body, c₁, h₁⟩ := x
  obtain ⟨body', c₁', h₁'⟩ := x'
  obtain ⟨rfl, htogether⟩ := hbody
  exact (((h.trans htogether).expect_whole .rightBrace _).weaken _ _).map _ fun _ => rfl
termination_by d.remaining * 8 + 4

/-- The bodies of blocks are read alike. -/
theorem readBody_alike {c c' : Cursor} (h : c.Agree .whole c') :
    Taken.Alike c c' nodesOfAll (readBody c) (readBody c') := by
  rw [readBody, readBody]
  by_cases hstop : (c.atEnd || c.sees .rightBrace) = true
  · have hstop' : (c'.atEnd || c'.sees .rightBrace) = true := by
      rw [← h.sees_eq, ← h.atEnd_eq]
      exact hstop
    rw [dif_pos hstop, dif_pos hstop']
    exact ⟨rfl, h.together⟩
  · have hstop' : ¬ (c'.atEnd || c'.sees .rightBrace) = true := by
      rw [← h.sees_eq, ← h.atEnd_eq]
      exact hstop
    rw [dif_neg hstop, dif_neg hstop']
    have hdeclaration := readDeclaration_alike h (remaining_pos (by simp_all)) (remaining_pos (by simp_all))
    generalize readDeclaration c _ = x at hdeclaration ⊢
    generalize readDeclaration c' _ = x' at hdeclaration ⊢
    obtain ⟨s, c₁, h₁⟩ := x
    obtain ⟨s', c₁', h₁'⟩ := x'
    obtain ⟨rfl, htogether⟩ := hdeclaration
    obtain ⟨hbody, hrest⟩ := readBody_alike htogether.agree
    exact ⟨congrArg (s.toList ++ ·) hbody,
      (htogether.trans hrest).sub (List.Perm.of_eq (nodesOfAll_append _ _)).subperm⟩
termination_by c.remaining * 8 + 3

/-- Statements are read alike. -/
theorem read_alike {made c c' d d'} (h : Together .whole made c c' d d') :
    Alike .whole c c' (made ++ ·.nodes) (read d) (read d') := by
  rw [read, read]
  rcases h.agree.acceptAny_whole with ⟨hnone, hnone'⟩ | ⟨t, c₁, h₁, c₁', h₁', hsome, hsome', htakes⟩
  · rw [hnone, hnone']
    exact (readEnded_alike h _).map _ fun _ => rfl
  · rw [hsome, hsome', ← h.agree.site_eq]
    have hnext := h.take htakes
    dsimp only
    split
    · exact ((readEnded_alike hnext _).weaken _ _).map _ fun _ => rfl
    · exact ((readOptional_alike hnext _ _).weaken _ _).map _ fun _ => rfl
    · refine ((readCondition_alike hnext _).weaken _ _).andThen fun condition h =>
        ((read_alike h).weaken _ _).andThen fun yes h => ?_
      rcases h.agree.accept?_whole .elseWord with
        ⟨hnone, hnone'⟩ | ⟨other, c₄, h₄, c₄', h₄', -, hsome, hsome', htakes⟩
      · rw [hnone, hnone']
        exact h.done _ (by simp [expressions])
      · rw [hsome, hsome']
        have hnext := h.take htakes
        exact ((read_alike hnext).weaken _ _).map _ fun no => by simp [expressions]
    · exact ((readCondition_alike hnext _).weaken _ _).andThen fun condition h =>
        ((read_alike h).weaken _ _).map _ fun _ => by simp [expressions]
    · exact (((h.mark htakes).expect_whole .leftParen _).weaken _ _).andThen fun _ h =>
        ((readInitializer_alike h).weaken _ _).andThen fun initializer h =>
          ((readOptional_alike h _ _).weaken _ _).andThen fun condition h =>
            ((readOptional_alike h _ _).weaken _ _).andThen fun increment h =>
              ((read_alike h).weaken _ _).andThen fun body h =>
                (h.sub (forLoop_subperm made d.site initializer condition increment body)).done _ rfl
    · exact ((readBlock_alike hnext).weaken _ _).map _ fun _ => rfl
    · exact (readEnded_alike h _).map _ fun _ => rfl
termination_by d.remaining * 8

end

/-- Two cursors that agree are read into the same program, up to the end of the source. -/
theorem readAll_alike {c c' : Cursor} (h : c.Agree .whole c') :
    (readAll c).1 = (readAll c').1 ∧
      Together .whole (nodesOfAll (readAll c).1) c c' (readAll c).2 (readAll c').2 ∧
      (readAll c).2.ahead = [] := by
  rw [readAll, readAll]
  by_cases hend : c.remaining = 0
  · rw [dif_pos hend, dif_pos (h.remaining_eq ▸ hend)]
    exact ⟨rfl, h.together, List.eq_nil_of_length_eq_zero hend⟩
  · rw [dif_neg hend, dif_neg (h.remaining_eq ▸ hend)]
    have hpos' : 0 < c'.remaining := h.remaining_eq ▸ Nat.pos_of_ne_zero hend
    have hdeclaration := readDeclaration_alike h (Nat.pos_of_ne_zero hend) hpos'
    generalize readDeclaration c _ = x at hdeclaration ⊢
    generalize readDeclaration c' _ = x' at hdeclaration ⊢
    obtain ⟨s, c₁, h₁⟩ := x
    obtain ⟨s', c₁', h₁'⟩ := x'
    obtain ⟨rfl, htogether⟩ := hdeclaration
    obtain ⟨hprogram, hrest, hlast⟩ := readAll_alike htogether.agree
    exact ⟨congrArg (s.toList ++ ·) hprogram,
      (htogether.trans hrest).sub (List.Perm.of_eq (nodesOfAll_append _ _)).subperm, hlast⟩
termination_by c.remaining

/-- Reading comes to the end of the source. -/
theorem moves_readAll (c : Cursor) :
    ∃ new, c.Moves c.ahead new (readAll c).2 ∧ Sited c.site c.ahead (nodesOfAll (readAll c).1) ∧
      (readAll c).2.ahead = [] := by
  obtain ⟨-, htogether, hend⟩ := readAll_alike (.refl c)
  obtain ⟨used, new, hmoves, -, hsited⟩ := htogether.moves
  have hahead := hmoves.ahead
  rw [hend, List.append_nil] at hahead
  exact ⟨new, hahead ▸ hmoves, hahead ▸ hsited, hend⟩

end Stmt

end Lox
