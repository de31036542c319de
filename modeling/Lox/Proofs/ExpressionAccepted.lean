import Lox.Proofs.Grammar
import Lox.Proofs.Production
import Mathlib.Tactic.Common

/-!
# Every expression of the grammar is read

An expression is read to its end as long as the token after it does not go on with it (`Stops`). The
left-recursive productions are loops of the reader, so the induction over a derivation carries more:
whatever the loop gives after the expression, the reader gives from its start (`Continued`).
-/

namespace Lox

namespace Grammar

variable {f : Form} {t : Token} {site : Site}

/-- The kinds of tokens that go on with an expression of a form. -/
def continuing (f : Form) : List Kind :=
  -- A looser form adds its own to those of the tighter ones.
  List.drop (match f with
    | .assignment => 0
    | .chain .disjunction => 1
    | .chain .conjunction => 2
    | .conditional => 3
    | .chain .equality => 4
    | .chain .comparison => 6
    | .chain .sum => 10
    | .chain .product => 12
    | .called | .prefixed => 14
    | .primary => 16)
    [.equal, .orWord, .andWord, .question, .equalEqual, .bangEqual, .less, .lessEqual, .greater, .greaterEqual,
     .plus, .minus, .star, .slash, .dot, .leftParen]

/-- The first of some tokens does not go on with an expression of a form. -/
def Stops (f : Form) (rest : List Token) : Prop := ∀ t ∈ rest.head?, t.kind ∉ continuing f

/-- The form that an expression of a form starts with, before the loop that extends it. -/
def seed : Form → Form
  | .chain l => operand l
  | .conditional => .chain .equality
  | .called => .primary
  | f => f

theorem Stops.mono {g : Form} {rest : List Token} (h : Stops f rest) (hfg : continuing g ⊆ continuing f) :
    Stops g rest :=
  fun t ht hmem => h t ht (hfg hmem)

theorem continuing_seed (f : Form) : continuing (seed f) ⊆ continuing f := by
  cases f with
  | chain l => cases l <;> decide
  | _ => decide

theorem Stops.cons {rest : List Token} (h : t.kind ∉ continuing f) : Stops f (t :: rest) := by
  rintro _ ⟨⟩
  exact h

/-- The kinds of tokens that start an expression of a form. -/
def starting : Form → List Kind
  | .called | .primary =>
    [.falseWord, .trueWord, .nilWord, .number, .string, .identifier, .thisWord, .superWord,
     .leftParen]
  | _ =>
    [.falseWord, .trueWord, .nilWord, .number, .string, .identifier, .thisWord, .superWord,
     .leftParen, .bang, .minus]

/-- An expression begins with a token that can begin its form. -/
theorem Expression.first {ts : List Token} {e : Expr} (h : Expression f site ts e) :
    ∃ t us, ts = t :: us ∧ t.kind ∈ starting f := by
  have hmono {f g : Form} {ts : List Token} (us : List Token) (hfg : starting f ⊆ starting g)
      (h : ∃ t us, ts = t :: us ∧ t.kind ∈ starting f) :
      ∃ t vs, ts ++ us = t :: vs ∧ t.kind ∈ starting g := by
    obtain ⟨t, vs, rfl, ht⟩ := h
    exact ⟨t, vs ++ us, rfl, hfg ht⟩
  have hkind {f : Form} {t : Token} {k : Kind} {us : List Token} (hk : t.kind = k)
      (hmem : k ∈ starting f) : ∃ u vs, t :: us = u :: vs ∧ u.kind ∈ starting f :=
    ⟨t, us, rfl, hk ▸ hmem⟩
  induction h using @Expression.rec _ (fun _ _ _ _ => True) with
  | assign hk | not hk | negate hk | named hk | this hk | super hk | grouping hk => exact hkind hk (by decide)
  | set _ _ _ _ _ ih => exact hmono _ (by decide) ih
  | unassigned _ ih => exact ih
  | @joined l _ _ _ _ _ _ _ _ _ _ ih | get _ _ _ ih => exact hmono _ (fun _ hk => hk) ih
  | @single l _ _ _ _ ih => cases l <;> exact ih
  | conditional _ _ _ _ _ ih | call _ _ _ _ _ ih =>
    rw [List.append_assoc]
    exact hmono _ (fun _ hk => hk) ih
  | unconditional _ ih => exact ih
  | unprefixed _ ih => simpa using hmono (g := .prefixed) [] (by decide) ih
  | uncalled _ ih => exact ih
  | constant h =>
    cases h with
    | false hk => exact hkind hk (by decide)
    | true hk => exact hkind hk (by decide)
    | nil hk => exact hkind hk (by decide)
    | carried hk =>
      rcases hk with hk | hk
      · exact hkind hk (by decide)
      · exact hkind hk (by decide)
  | none => trivial
  | one => trivial
  | more => trivial

theorem Arguments.first {site : Site} {ts : List Token} {es : List Expr} (h : Arguments site ts es)
    (hes : es ≠ []) : ∃ t us, ts = t :: us ∧ t.kind ∈ starting .assignment := by
  cases h with
  | none => exact absurd rfl hes
  | one h => exact h.first
  | more h =>
    obtain ⟨t, us, rfl, ht⟩ := h.first
    exact ⟨t, _, rfl, ht⟩

/-- An operator of a level does not go on with its operands. -/
theorem Joins.not_continuing {l : Level} {left right e : Expr} (h : Joins l site t left right e) :
    t.kind ∉ continuing (operand l) := by
  cases h with
  | or h => rw [h]; decide
  | and h => rw [h]; decide
  | binary h =>
    have key : ∀ p ∈ binaryOperators, p.2.1 ∉ continuing (operand p.1) := by decide
    exact key _ h

/-- An operator that joins its operands builds their node. -/
theorem Joins.join? {l : Level} {site : Site} {t : Token} {left right e : Expr}
    (h : Joins l site t left right e) : ∃ build, l.join? site t = some build ∧ build left right = e := by
  cases h with
  | or h => exact ⟨.logical site .or t, by simp only [Level.join?, h], rfl⟩
  | and h => exact ⟨.logical site .and t, by simp only [Level.join?, h], rfl⟩
  | binary h =>
    simp only [binaryOperators, List.mem_cons, Prod.mk.injEq, List.not_mem_nil, or_false] at h
    rcases h with ⟨rfl, h, rfl⟩ | ⟨rfl, h, rfl⟩ | ⟨rfl, h, rfl⟩ | ⟨rfl, h, rfl⟩ | ⟨rfl, h, rfl⟩ |
      ⟨rfl, h, rfl⟩ | ⟨rfl, h, rfl⟩ | ⟨rfl, h, rfl⟩ | ⟨rfl, h, rfl⟩ | ⟨rfl, h, rfl⟩ <;>
    exact ⟨.binary site _ t, by simp only [Level.join?, h], rfl⟩

/-- A token that does not go on with a chain is no operator of its level. -/
theorem join?_eq_none {l : Level} (h : t.kind ∉ continuing (.chain l)) : l.join? site t = none := by
  unfold Level.join?
  split
  case h_13 => rfl
  all_goals
    next hk =>
    rw [hk] at h
    exact absurd (by decide) h

end Grammar

namespace Expr

open Grammar Parsed

/-- The operands of a level and the operators between them, without conditionals. -/
def readJoined (l : Level) (c : Cursor) : Parsed Expr c.remaining :=
  (readTighter l c).andThen fun first c₁ h₁ => (readChain l first c₁).weaken h₁

/-- The reader of a form. -/
def reader : Form → (c : Cursor) → Parsed Expr c.remaining
  | .assignment => read
  | .chain l => readJoined l
  | .conditional => readLevel .equality
  | .prefixed => readPrefix
  | .called => readCall
  | .primary => readPrimary

/-- The loop that extends an expression of a form, if there is one. -/
def extender : Form → Expr → (c : Cursor) → Parsed Expr (c.remaining + 1)
  | .chain l => readChain l
  | .conditional => readConditional
  | .called => readSuffixes
  | _ => fun e c => .done e c (Nat.lt_succ_self _)

/-- What the loop gives after an expression, the reader gives from its start. -/
def Continued (f : Form) (site : Site) (ts : List Token) (e : Expr) : Prop :=
  ∀ (line : Nat) (noticed : List Noticed) (rest : List Token) (v : Expr) (next : Cursor),
    Stops (seed f) rest → (extender f e ⟨rest, site + ts.length, line, noticed⟩).Gives v next →
    (reader f ⟨ts ++ rest, site, line, noticed⟩).Gives v next

section

variable {f : Form} {site : Site} {line : Nat} {noticed : List Noticed} {ts us rest : List Token}
  {e v : Expr} {c next : Cursor} {l : Level}

/-- The loop does nothing if the next token does not go on with the expression. -/
theorem extender_gives (h : Stops f rest) :
    (extender f e ⟨rest, site, line, noticed⟩).Gives e ⟨rest, site, line, noticed⟩ := by
  cases f with
  | chain l =>
    change (readChain l e _).Gives e _
    rw [readChain, Cursor.acceptBy?_eq_none fun t ht => join?_eq_none (h t ht)]
    exact .done
  | conditional =>
    have hquestion : ∀ t ∈ rest.head?, t.kind ≠ .question := by
      intro t ht hk
      exact h t ht (hk ▸ by decide)
    change (readConditional e _).Gives e _
    rw [readConditional, Cursor.accept?_eq_none hquestion]
    exact .done
  | called =>
    have hdot : ∀ t ∈ rest.head?, t.kind ≠ .dot := by
      intro t ht hk
      exact h t ht (hk ▸ by decide)
    have hparen : ∀ t ∈ rest.head?, t.kind ≠ .leftParen := by
      intro t ht hk
      exact h t ht (hk ▸ by decide)
    change (readSuffixes e _).Gives e _
    rw [readSuffixes, Cursor.accept?_eq_none hdot]
    dsimp only
    rw [Cursor.accept?_eq_none hparen]
    exact .done
  | _ => exact .done

theorem Continued.gives (h : Continued f site ts e) (hstops : Stops f rest) :
    (reader f ⟨ts ++ rest, site, line, noticed⟩).Gives e ⟨rest, site + ts.length, line, noticed⟩ :=
  h line noticed rest e _ (hstops.mono (continuing_seed f)) (extender_gives hstops)

theorem readLevel_gives (hl : l ≠ .equality) (h : (readJoined l c).Gives v next) :
    (readLevel l c).Gives v next := by
  obtain ⟨first, c₁, h₁, hfirst, hchain⟩ := h.of_andThen
  rw [readLevel]
  refine hfirst.andThen fun _ => (hchain.of_weaken.weaken _).andThen fun _ => ?_
  rw [if_neg hl]
  exact .done

theorem readLevel_equality_gives (h : (readJoined .equality c).Gives e next) {last : Cursor}
    (h' : (readConditional e next).Gives v last) : (readLevel .equality c).Gives v last := by
  obtain ⟨first, c₁, h₁, hfirst, hchain⟩ := h.of_andThen
  rw [readLevel]
  refine hfirst.andThen fun _ => (hchain.of_weaken.weaken _).andThen fun _ => ?_
  rw [if_pos rfl]
  exact h'.weaken _

theorem readTighter_gives (h : (reader (operand l) c).Gives v next) : (readTighter l c).Gives v next := by
  rw [readTighter]
  cases l with
  | disjunction | equality | comparison | sum => exact readLevel_gives (by decide) h
  | conjunction => exact h
  | product => exact h

/-- Arguments are read one after the other, up to the parenthesis that closes them. -/
def Argued (site : Site) (ts : List Token) (es : List Expr) : Prop :=
  ∀ (line : Nat) (noticed : List Noticed) (closing : Token) (rest : List Token) (before : Nat),
    closing.kind = .rightParen → es ≠ [] → before + es.length ≤ 255 →
    (readArgumentList before ⟨ts ++ closing :: rest, site, line, noticed⟩).Gives es
      ⟨closing :: rest, site + ts.length, line, noticed⟩

namespace Argued

variable {es : List Expr} {closing : Token}

/-- Arguments up to the closing parenthesis are read back. -/
theorem readArguments_gives (h : Argued site ts es) (harguments : Arguments site ts es)
    (hmax : es.length ≤ 255) (hclosing : closing.kind = .rightParen) :
    (readArguments ⟨ts ++ closing :: rest, site, line, noticed⟩).Gives es
      ⟨closing :: rest, site + ts.length, line, noticed⟩ := by
  rw [readArguments]
  by_cases hes : es = []
  · subst hes
    cases harguments
    rw [List.nil_append, if_pos (by simp [Cursor.sees, hclosing])]
    exact .done
  · obtain ⟨t, us, rfl, ht⟩ := harguments.first hes
    have hk : t.kind ≠ .rightParen := fun hk => absurd (hk ▸ ht) (by decide)
    rw [if_neg (by simpa [Cursor.sees] using hk)]
    exact (h line noticed closing rest 0 hclosing hes (by omega)).weaken _

/-- An argument within the limit is read like any expression. -/
theorem read_noteIf_gives {before : Nat} (h : Continued .assignment site ts e)
    (hbefore : before < 255) (hstops : Stops .assignment rest) :
    (read (Cursor.noteIf ⟨ts ++ rest, site, line, noticed⟩ (maxArguments ≤ before)
      .tooManyArguments)).Gives e ⟨rest, site + ts.length, line, noticed⟩ := by
  have hcount : decide (maxArguments ≤ before) = false := by
    rw [decide_eq_false_iff_not, maxArguments]
    omega
  rw [Cursor.noteIf_of_false _ hcount]
  exact h.gives hstops

theorem one (h : Continued .assignment site ts e) : Argued site ts [e] := by
  intro line noticed closing rest before hclosing _ hmax
  have hkind : closing.kind ∉ continuing .assignment := by rw [hclosing]; decide
  rw [readArgumentList]
  refine (read_noteIf_gives h hmax (.cons hkind)).andThen fun _ => ?_
  dsimp only
  rw [Cursor.accept?_eq_none (by rintro _ ⟨⟩; rw [hclosing]; decide)]
  exact .done

/-- One more argument is read before others. -/
theorem more {comma : Token} (h : Continued .assignment site ts e) (hcomma : comma.kind = .comma)
    (h' : Argued (site + ts.length + 1) us es) (hes : es ≠ []) :
    Argued site (ts ++ comma :: us) (e :: es) := by
  intro line noticed closing rest before hclosing _ hmax
  rw [List.length_cons] at hmax
  have hkind : comma.kind ∉ continuing .assignment := by rw [hcomma]; decide
  rw [List.append_assoc, List.cons_append, readArgumentList]
  refine (read_noteIf_gives h (by omega) (.cons hkind)).andThen fun _ => ?_
  dsimp only
  rw [Cursor.accept?_cons hcomma]
  have htail := h' line noticed closing rest (before + 1) hclosing hes (by omega)
  exact ((htail.weaken _).map (e :: ·)).cast (by grind)

end Argued

namespace Continued

theorem single (h : Continued (operand l) site ts e) : Continued (.chain l) site ts e := by
  intro line noticed rest v next hstops hgives
  exact (readTighter_gives (h.gives hstops)).andThen fun hlt => Gives.weaken hgives hlt

theorem unconditional (h : Continued (.chain .equality) site ts e) : Continued .conditional site ts e := by
  intro line noticed rest v next hstops hgives
  exact readLevel_equality_gives (h.gives hstops) hgives

theorem uncalled (h : Continued .primary site ts e) : Continued .called site ts e := by
  intro line noticed rest v next hstops hgives
  change (readCall _).Gives v next
  rw [readCall]
  exact (h.gives hstops).andThen fun _ => Gives.weaken hgives _

/-- A call is read on where signs may come first. -/
theorem unprefixed (hfirst : Expression .called site ts e) (h : Continued .called site ts e) :
    Continued .prefixed site ts e := by
  rintro line noticed rest _ _ hstops ⟨_, ⟨⟩⟩
  obtain ⟨t, us, rfl, ht⟩ := hfirst.first
  have hsign : prefixNode? site t = none := by
    unfold prefixNode?
    split
    · next hk => exact absurd (hk ▸ ht) (by decide)
    · next hk => exact absurd (hk ▸ ht) (by decide)
    · rfl
  change (readPrefix _).Gives _ _
  rw [readPrefix, Cursor.acceptBy?_eq_none (by rintro _ ⟨⟩; exact hsign)]
  exact h.gives hstops

/-- A call or property is an operand of the loosest operators. -/
theorem disjunction_of_called (hfirst : Expression .called site ts e)
    (h : Continued .called site ts e) : Continued (.chain .disjunction) site ts e := by
  have hequality : Continued (.chain .equality) site ts e :=
    ((((h.unprefixed hfirst).single (l := .product)).single (l := .sum)).single
      (l := .comparison)).single (l := .equality)
  exact (hequality.unconditional.single (l := .conjunction)).single (l := .disjunction)

/-- After its second operand an operator is read on with both. -/
theorem joined {t : Token} {left right : Expr} (h : Continued (.chain l) site ts left)
    (hjoin : Joins l (site + ts.length) t left right e) (h' : Continued (operand l) (site + ts.length + 1) us right) :
    Continued (.chain l) site (ts ++ t :: us) e := by
  intro line noticed rest v next hstops hgives
  obtain ⟨build, hbuild, rfl⟩ := hjoin.join?
  rw [show site + (ts ++ t :: us).length = site + ts.length + 1 + us.length by grind] at hgives
  rw [List.append_assoc]
  refine h line noticed (t :: us ++ rest) v next (.cons hjoin.not_continuing) ?_
  change (readChain l left ⟨t :: (us ++ rest), _, line, noticed⟩).Gives v next
  rw [readChain, Cursor.acceptBy?_cons hbuild]
  exact ((readTighter_gives (h'.gives hstops)).andThen fun _ => Gives.weaken hgives _).weaken _

/-- After its third part a conditional is read on. -/
theorem conditional {question colon : Token} {vs : List Token} {condition middle right : Expr}
    (h : Continued .conditional site ts condition) (hquestion : question.kind = .question)
    (hmiddle : Continued (.chain .comparison) (site + ts.length + 1) us middle) (hcolon : colon.kind = .colon)
    (hright : Continued (.chain .comparison) (site + ts.length + us.length + 2) vs right) :
    Continued .conditional site (ts ++ question :: us ++ colon :: vs)
      (.conditional (site + ts.length) condition question middle colon right) := by
  intro line noticed rest v next hstops hgives
  have hsite : site + (ts ++ question :: us ++ colon :: vs).length =
      site + ts.length + 1 + us.length + 1 + vs.length := by grind
  rw [hsite] at hgives
  rw [show site + ts.length + us.length + 2 = site + ts.length + 1 + us.length + 1 by grind] at hright
  rw [List.append_assoc, List.append_assoc]
  have hkind : question.kind ∉ continuing (.chain .equality) := by rw [hquestion]; decide
  have hkind' : colon.kind ∉ continuing (.chain .comparison) := by rw [hcolon]; decide
  refine h line noticed (question :: us ++ (colon :: vs ++ rest)) v next (.cons hkind) ?_
  change (readConditional condition ⟨question :: (us ++ colon :: (vs ++ rest)), _, line, noticed⟩).Gives
    v next
  rw [readConditional, Cursor.accept?_cons hquestion]
  refine Gives.weaken ?_ _
  refine (readLevel_gives (by decide) (hmiddle.gives (.cons hkind'))).andThen fun _ => ?_
  refine ((Cursor.expect_gives _ hcolon).weaken _).andThen fun _ => ?_
  refine ((readLevel_gives (by decide) (hright.gives (hstops.mono (by decide)))).weaken _).andThen
    fun _ => ?_
  exact Gives.weaken hgives _

/-- After its name a property is read on. -/
theorem get {dot name : Token} (h : Continued .called site ts e) (hdot : dot.kind = .dot)
    (hname : name.kind = .identifier) :
    Continued .called site (ts ++ [dot, name]) (.get (site + ts.length) e name) := by
  intro line noticed rest v next _ hgives
  rw [show site + (ts ++ [dot, name]).length = site + ts.length + 1 + 1 by grind] at hgives
  rw [List.append_assoc]
  refine h line noticed ([dot, name] ++ rest) v next (.cons (List.not_mem_nil)) ?_
  change (readSuffixes e ⟨dot :: name :: rest, _, line, noticed⟩).Gives v next
  rw [readSuffixes, Cursor.accept?_cons hdot]
  exact ((Cursor.expect_gives _ hname).andThen fun _ => Gives.weaken hgives _).weaken _

/-- After its arguments a call is read on. -/
theorem call {opening closing : Token} {arguments : List Expr} (h : Continued .called site ts e)
    (hopening : opening.kind = .leftParen) (harguments : Arguments (site + ts.length + 1) us arguments)
    (h' : Argued (site + ts.length + 1) us arguments) (hmax : arguments.length ≤ 255)
    (hclosing : closing.kind = .rightParen) :
    Continued .called site (ts ++ opening :: us ++ [closing]) (.call (site + ts.length) e closing arguments) := by
  intro line noticed rest v next _ hgives
  have hsite : site + (ts ++ opening :: us ++ [closing]).length =
      site + ts.length + 1 + us.length + 1 := by grind
  rw [hsite] at hgives
  rw [List.append_assoc, List.append_assoc]
  refine h line noticed (opening :: us ++ ([closing] ++ rest)) v next (.cons List.not_mem_nil) ?_
  change (readSuffixes e ⟨opening :: (us ++ closing :: rest), _, line, noticed⟩).Gives v next
  rw [readSuffixes, Cursor.accept?_eq_none (by rintro _ ⟨⟩; rw [hopening]; decide)]
  dsimp only
  rw [Cursor.accept?_cons hopening]
  refine Gives.weaken ((h'.readArguments_gives harguments hmax hclosing).andThen fun _ => ?_) _
  exact ((Cursor.expect_gives _ hclosing).weaken _).andThen fun _ => Gives.weaken hgives _

theorem prefixed {t : Token} (build : Expr → Expr) (ht : prefixNode? site t = some build)
    (h : Continued .prefixed (site + 1) ts e) : Continued .prefixed site (t :: ts) (build e) := by
  rintro line noticed rest _ _ hstops ⟨_, ⟨⟩⟩
  change (readPrefix ⟨t :: (ts ++ rest), site, line, noticed⟩).Gives _ _
  rw [readPrefix, Cursor.acceptBy?_cons ht]
  exact (((h.gives hstops).weaken _).map build).cast (by grind)

/-- After its value an assignment is read on. -/
theorem assigned {sign : Token} {target value : Expr} (h : Continued (.chain .disjunction) site ts target)
    (hsign : sign.kind = .equal) (h' : Continued .assignment (site + ts.length + 1) us value)
    (he : assignTo? target value = some e) : Continued .assignment site (ts ++ sign :: us) e := by
  rintro line noticed rest _ _ hstops ⟨_, ⟨⟩⟩
  change (read _).Gives _ _
  have hkind : sign.kind ∉ continuing (.chain .disjunction) := by rw [hsign]; decide
  rw [read, List.append_assoc, List.cons_append]
  refine (readLevel_gives (by decide) (h.gives (.cons hkind))).andThen fun _ => ?_
  rw [Cursor.accept?_cons hsign]
  refine ((h'.gives hstops).weaken _).andThen fun _ => ?_
  rw [he]
  exact Gives.done.cast (by grind)

/-- An expression with no sign of assignment after it is read on as it is. -/
theorem unassigned (h : Continued (.chain .disjunction) site ts e) : Continued .assignment site ts e := by
  rintro line noticed rest _ _ hstops ⟨_, ⟨⟩⟩
  change (read _).Gives _ _
  have hequal : ∀ t ∈ rest.head?, t.kind ≠ .equal := by
    intro t ht hk
    exact hstops t ht (hk ▸ by decide)
  rw [read]
  refine (readLevel_gives (by decide) (h.gives (hstops.mono (by decide)))).andThen fun _ => ?_
  rw [Cursor.accept?_eq_none hequal]
  exact .done

theorem primary (h : ∀ line noticed rest,
    (readPrimary ⟨ts ++ rest, site, line, noticed⟩).Gives e ⟨rest, site + ts.length, line, noticed⟩) :
    Continued .primary site ts e := by
  rintro line noticed rest _ _ _ ⟨_, ⟨⟩⟩
  exact h line noticed rest

/-- After its token a constant is read on. -/
theorem constant {t : Token} {value : Literal} (h : Constant t value) :
    Continued .primary site [t] (.literal site value) := by
  refine primary fun line noticed rest => ?_
  rw [List.singleton_append, readPrimary, Cursor.acceptBy?_cons rfl]
  dsimp only
  cases h with
  | false h | true h | nil h => rw [h]; exact .done
  | carried h =>
    rcases h with h | h
    · rw [h]; exact .done
    · rw [h]; exact .done

theorem named {t : Token} (h : t.kind = .identifier) : Continued .primary site [t] (.variable ⟨site, t⟩) := by
  refine primary fun line noticed rest => ?_
  rw [List.singleton_append, readPrimary, Cursor.acceptBy?_cons rfl]
  dsimp only
  rw [h]
  exact .done

end Continued

end

end Expr

open Lox.Expr

/-- What the loop of a form gives after an expression, the reader gives from its start. -/
theorem Grammar.Expression.continued {f : Form} {site : Site} {ts : List Token} {e : Expr}
    (h : Expression f site ts e) : Continued f site ts e := by
  induction h using @Expression.rec _ (fun site ts es _ => Argued site ts es) with
  | @assign site name sign ts _ hname hsign _ ih =>
    have hname' : Expression .called site [name] _ := .uncalled (.named hname)
    exact ((Continued.named hname).uncalled.disjunction_of_called hname').assigned hsign ih rfl
  | @set site dot name sign ts us _ _ h hdot hname hsign _ ih ih' =>
    have hsite : site + ts.length + 3 = site + (ts ++ [dot, name]).length + 1 := by grind
    have hassoc : ts ++ dot :: name :: sign :: us = (ts ++ [dot, name]) ++ sign :: us := by simp
    rw [hsite] at ih'
    rw [hassoc]
    exact ((ih.get hdot hname).disjunction_of_called (.get h hdot hname)).assigned hsign ih' rfl
  | unassigned _ ih => exact ih.unassigned
  | joined _ hjoin _ ih ih' => exact ih.joined hjoin ih'
  | single _ ih => exact ih.single
  | conditional _ hquestion _ hcolon _ ih ihmiddle ihright =>
    exact ih.conditional hquestion ihmiddle hcolon ihright
  | unconditional _ ih => exact ih.unconditional
  | not ht _ ih => exact ih.prefixed (.unary _ .not _) (by simp only [prefixNode?, ht])
  | negate ht _ ih => exact ih.prefixed (.unary _ .negate _) (by simp only [prefixNode?, ht])
  | unprefixed h ih => exact ih.unprefixed h
  | get _ hdot hname ih => exact ih.get hdot hname
  | call _ hopening h' hmax hclosing ih ih' => exact ih.call hopening h' ih' hmax hclosing
  | uncalled _ ih => exact ih.uncalled
  | constant h => exact .constant h
  | named h => exact .named h
  | this h =>
    refine .primary fun line noticed rest => ?_
    rw [List.singleton_append, readPrimary, Cursor.acceptBy?_cons rfl]
    dsimp only
    rw [h]
    exact .done
  | super h hdot hmethod =>
    refine .primary fun line noticed rest => ?_
    rw [List.cons_append, readPrimary, Cursor.acceptBy?_cons rfl]
    dsimp only
    rw [h]
    exact ((Cursor.expect_gives _ hdot).weaken _).andThen fun _ => ((Cursor.expect_gives _ hmethod).weaken _).map _
  | grouping hopening _ hclosing ih =>
    refine .primary fun line noticed rest => ?_
    rw [List.append_assoc, List.cons_append, readPrimary, Cursor.acceptBy?_cons rfl]
    dsimp only
    rw [hopening]
    exact ((ih.gives (.cons (by rw [hclosing]; decide))).weaken _).andThen fun _ =>
      (((Cursor.expect_gives _ hclosing).weaken _).map _).cast (by grind)
  | none => exact fun _ _ _ _ _ _ hes => absurd rfl hes
  | one _ ih => exact .one ih
  | more _ hcomma _ hes ih ih' => exact .more ih hcomma ih' hes

end Lox
