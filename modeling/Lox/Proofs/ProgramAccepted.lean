import Lox.Proofs.ProgramReading

/-!
# Every program of the grammar is read

With the converse in `ProgramReading`, reading accepts exactly the programs of the grammar and builds
the tree of their derivation (`readTokens_eq_iff`).

A statement that ends in an `if` without `else` is read to its end as long as no `else` follows. No
declaration starts with an `else`, so this is always so between declarations.
-/

namespace Lox

open Grammar Parsed

section

variable {site : Site} {line : Nat} {noticed : List Noticed} {ts rest : List Token} {e : Expr}
variable {closing : Token} {names : List Token}

/-- An expression of the grammar is read up to a token that does not go on with it. -/
theorem Grammar.Expression.gives (h : Expression .assignment site ts e) (hstops : Stops .assignment rest) :
    (Expr.read ⟨ts ++ rest, site, line, noticed⟩).Gives e ⟨rest, site + ts.length, line, noticed⟩ :=
  h.continued.gives hstops

theorem readCondition_gives (keyword : String) {opening : Token} (hopening : opening.kind = .leftParen)
    (h : Expression .assignment (site + 1) ts e) (hclosing : closing.kind = .rightParen) :
    (readCondition keyword ⟨opening :: (ts ++ closing :: rest), site, line, noticed⟩).Gives e
      ⟨rest, site + 1 + ts.length + 1, line, noticed⟩ := by
  have hkind : closing.kind ∉ continuing .assignment := by rw [hclosing]; decide
  exact (Cursor.expect_gives _ hopening).andThen fun _ =>
    ((h.gives (.cons hkind)).weaken _).andThen fun _ =>
      ((Cursor.expect_gives _ hclosing).weaken _).map _

theorem readEnded_gives (what : Expected) {ending : Token} (h : Expression .assignment site ts e)
    (hending : ending.kind = .semicolon) :
    (readEnded what ⟨ts ++ ending :: rest, site, line, noticed⟩).Gives e
      ⟨rest, site + ts.length + 1, line, noticed⟩ := by
  have hkind : ending.kind ∉ continuing .assignment := by rw [hending]; decide
  exact (h.gives (.cons hkind)).andThen fun _ => ((Cursor.expect_gives _ hending).weaken _).map _

/-- A declaration of a variable is read to its end. -/
theorem Grammar.Variable.gives {s : Stmt} (h : Variable site ts s) :
    (readVariable ⟨ts ++ rest, site, line, noticed⟩).Gives s ⟨rest, site + ts.length, line, noticed⟩ := by
  unfold readVariable
  cases h with
  | plain hname hending =>
    rw [List.cons_append, List.singleton_append]
    refine (Cursor.expect_gives _ hname).andThen fun _ => ?_
    rw [Cursor.accept?_eq_none (by rintro _ ⟨⟩; rw [hending]; decide)]
    exact ((Cursor.expect_gives _ hending).weaken _).map _
  | initialized hname hsign h hending =>
    rw [List.append_assoc, List.cons_append, List.cons_append]
    refine (Cursor.expect_gives _ hname).andThen fun _ => ?_
    rw [Cursor.accept?_cons hsign]
    exact (((readEnded_gives _ h hending).weaken _).map _).cast (by grind)

theorem Grammar.Parameters.first (h : Parameters ts names) (hnames : names ≠ []) :
    ∃ t us, ts = t :: us ∧ t.kind = .identifier := by
  cases h with
  | none => exact absurd rfl hnames
  | one h | more h => exact ⟨_, _, rfl, h⟩

/-- A parameter within the limit is a name like any other. -/
theorem expect_noteIf_gives {before : Nat} {name : Token} (hname : name.kind = .identifier)
    (hbefore : before < 255) :
    ((Cursor.noteIf ⟨name :: ts, site, line, noticed⟩ (maxArguments ≤ before)
      .tooManyParameters).expect .identifier .parameterName).Gives name
      ⟨ts, site + 1, line, noticed⟩ := by
  have hcount : decide (maxArguments ≤ before) = false := by
    rw [decide_eq_false_iff_not, maxArguments]
    omega
  rw [Cursor.noteIf_of_false _ hcount]
  exact Cursor.expect_gives _ hname

/-- Some parameters are read up to the parenthesis. -/
theorem Grammar.Parameters.list_gives {before : Nat} (h : Parameters ts names)
    (hclosing : closing.kind = .rightParen) (hnames : names ≠ []) (hmax : before + names.length ≤ 255) :
    (readParameterList before ⟨ts ++ closing :: rest, site, line, noticed⟩).Gives names
      ⟨closing :: rest, site + ts.length, line, noticed⟩ := by
  induction h generalizing before site with
  | none => exact absurd rfl hnames
  | one hname =>
    rw [List.singleton_append, readParameterList]
    refine (expect_noteIf_gives hname hmax).andThen fun _ => ?_
    dsimp only
    rw [Cursor.accept?_eq_none (by rintro _ ⟨⟩; rw [hclosing]; decide)]
    exact .done
  | more hname hcomma _ hnames' ih =>
    rw [List.length_cons] at hmax
    rw [List.cons_append, List.cons_append, readParameterList]
    refine (expect_noteIf_gives hname (by omega)).andThen fun _ => ?_
    dsimp only
    rw [Cursor.accept?_cons hcomma]
    exact (((ih hnames' (by omega)).weaken _).map _).cast (by grind)

/-- Parameters, or none, are read up to the parenthesis. -/
theorem Grammar.Parameters.gives (h : Parameters ts names) (hclosing : closing.kind = .rightParen)
    (hmax : names.length ≤ 255) :
    (readParameters ⟨ts ++ closing :: rest, site, line, noticed⟩).Gives names
      ⟨closing :: rest, site + ts.length, line, noticed⟩ := by
  unfold readParameters
  by_cases hnames : names = []
  · subst hnames
    cases h
    rw [List.nil_append, if_pos (by simp [Cursor.sees, hclosing])]
    exact .done
  · obtain ⟨t, us, rfl, ht⟩ := h.first hnames
    rw [if_neg (by simp [Cursor.sees, ht])]
    exact (h.list_gives hclosing hnames (by omega)).weaken _

/-- A superclass, or none, is read up to the brace. -/
theorem Grammar.Superclass.gives {superclass : Option Reference} {opening : Token}
    (h : Superclass site ts superclass) (hopening : opening.kind = .leftBrace) :
    (readSuperclass ⟨ts ++ opening :: rest, site, line, noticed⟩).Gives superclass
      ⟨opening :: rest, site + ts.length, line, noticed⟩ := by
  cases h with
  | absent =>
    rw [List.nil_append, readSuperclass, Cursor.accept?_eq_none (by rintro _ ⟨⟩; rw [hopening]; decide)]
    exact .done
  | @named sign name hsign hname =>
    change (readSuperclass ⟨sign :: name :: opening :: rest, site, line, noticed⟩).Gives _ _
    rw [readSuperclass, Cursor.accept?_cons hsign]
    exact ((Cursor.expect_gives _ hname).weaken _).map _

/-- A token that starts an expression is none of another kind. -/
theorem Grammar.Expression.accept?_eq_none {k : Kind} (h : Expression .assignment site ts e)
    (hk : k ∉ starting .assignment) : Cursor.accept? ⟨ts ++ rest, site, line, noticed⟩ k = none := by
  obtain ⟨t, us, rfl, ht⟩ := h.first
  exact Cursor.accept?_eq_none (by rintro _ ⟨⟩; exact fun hk' => hk (hk' ▸ ht))

/-- The first part of a `for` is read to its semicolon. -/
theorem Grammar.Initializer.gives {initializer : Option Stmt} (h : Initializer site ts initializer) :
    (readInitializer ⟨ts ++ rest, site, line, noticed⟩).Gives initializer
      ⟨rest, site + ts.length, line, noticed⟩ := by
  unfold readInitializer
  cases h with
  | absent h =>
    rw [List.singleton_append, Cursor.accept?_cons h]
    exact .done
  | declared hkeyword h =>
    rw [List.cons_append, Cursor.accept?_eq_none (by rintro _ ⟨⟩; rw [hkeyword]; decide)]
    dsimp only
    rw [Cursor.accept?_cons hkeyword]
    exact ((h.gives.weaken _).map _).cast (by grind)
  | expression h hending =>
    rw [List.append_assoc, h.accept?_eq_none (by decide)]
    dsimp only
    rw [h.accept?_eq_none (by decide)]
    exact ((readEnded_gives _ h hending).map _).cast (by grind)

/-- An expression that may be missing is read to what ends it. -/
theorem Grammar.Optional.gives {closing : Kind} {value : Option Expr} (what : Expected)
    (h : Optional closing site ts value) (hclosing : closing ∉ continuing .assignment)
    (hclosing' : closing ∉ starting .assignment) :
    (readOptional closing what ⟨ts ++ rest, site, line, noticed⟩).Gives value
      ⟨rest, site + ts.length, line, noticed⟩ := by
  unfold readOptional
  cases h with
  | absent h =>
    rw [List.singleton_append, Cursor.accept?_cons h]
    exact .done
  | present h ht =>
    rw [List.append_assoc, h.accept?_eq_none hclosing']
    exact (h.gives (.cons (ht ▸ hclosing))).andThen fun _ =>
      (((Cursor.expect_gives _ ht).weaken _).map _).cast (by grind)

end

/-- The first of some tokens is no `else`. -/
def NoElse (rest : List Token) : Prop := ∀ t ∈ rest.head?, t.kind ≠ .elseWord

namespace Grammar

/-- The kinds of tokens that start a statement. -/
def statementStarts : List Kind :=
  [.printWord, .returnWord, .ifWord, .whileWord, .forWord, .leftBrace] ++ starting .assignment

theorem Statement.first {dangling : Bool} {site : Site} {ts : List Token} {s : Stmt}
    (h : Statement dangling site ts s) : ∃ t us, ts = t :: us ∧ t.kind ∈ statementStarts := by
  cases h with
  | expression h =>
    obtain ⟨t, us, rfl, ht⟩ := h.first
    exact ⟨t, _, rfl, List.mem_append_right _ ht⟩
  | print hk | returns hk | branch hk | branches hk | loop hk | forLoop hk | block hk =>
    exact ⟨_, _, rfl, by rw [hk]; decide⟩

/-- A declaration starts with one of its keywords or like a statement. -/
theorem Declaration.first {site : Site} {ts : List Token} {s : Stmt} (h : Declaration site ts s) :
    ∃ t us, ts = t :: us ∧ t.kind ∈ [.classWord, .funWord, .varWord] ++ statementStarts := by
  cases h with
  | classOf hk | routine hk | declared hk => exact ⟨_, _, rfl, by rw [hk]; decide⟩
  | statement h =>
    obtain ⟨t, us, rfl, ht⟩ := h.first
    exact ⟨t, us, rfl, List.mem_append_right _ ht⟩

/-- No declarations start with an `else`. -/
theorem Declarations.noElse {site : Site} {ts : List Token} {body : List Stmt} (h : Declarations site ts body)
    {rest : List Token} (hrest : NoElse rest) : NoElse (ts ++ rest) := by
  cases h with
  | nil => exact hrest
  | cons h =>
    obtain ⟨t, us, rfl, ht⟩ := h.first
    rintro _ ⟨⟩ hk
    exact absurd (hk ▸ ht) (by decide)

end Grammar

namespace Stmt

/-- The statement is read to its end; if it ends in an `if` without `else`, as long as none
follows. -/
def StatementRead (dangling : Bool) (site : Site) (ts : List Token) (s : Stmt) : Prop :=
  ∀ (line : Nat) (noticed : List Noticed) (rest : List Token), (dangling = true → NoElse rest) →
    (read ⟨ts ++ rest, site, line, noticed⟩).Gives s ⟨rest, site + ts.length, line, noticed⟩

/-- The declaration is read to its end. -/
def DeclarationRead (site : Site) (ts : List Token) (s : Stmt) : Prop :=
  ∀ (line : Nat) (noticed : List Noticed) (rest : List Token), NoElse rest →
    (readDeclared ⟨ts ++ rest, site, line, noticed⟩).Gives s ⟨rest, site + ts.length, line, noticed⟩

/-- The declarations are read up to the brace that closes them. -/
def BodyRead (site : Site) (ts : List Token) (body : List Stmt) : Prop :=
  ∀ (line : Nat) (noticed : List Noticed) (closing : Token) (rest : List Token),
    closing.kind = .rightBrace →
    (readBody ⟨ts ++ closing :: rest, site, line, noticed⟩).value = body ∧
    (readBody ⟨ts ++ closing :: rest, site, line, noticed⟩).next =
      ⟨closing :: rest, site + ts.length, line, noticed⟩

/-- The function is read to its end. -/
def FunctionRead (site : Site) (ts : List Token) (r : Routine) : Prop :=
  ∀ (line : Nat) (noticed : List Noticed) (rest : List Token) (sort : RoutineSort),
    (readRoutine sort ⟨ts ++ rest, site, line, noticed⟩).Gives r
      ⟨rest, site + ts.length, line, noticed⟩

/-- The methods are read up to the brace that closes them. -/
def MethodsRead (site : Site) (ts : List Token) (methods : List Routine) : Prop :=
  ∀ (line : Nat) (noticed : List Noticed) (closing : Token) (rest : List Token),
    closing.kind = .rightBrace →
    (readMethods ⟨ts ++ closing :: rest, site, line, noticed⟩).Gives methods
      ⟨closing :: rest, site + ts.length, line, noticed⟩

section

variable {site : Site} {ts us vs ws : List Token} {dangling : Bool}

/-- The brace that closes declarations ends their block. -/
theorem BodyRead.readBlock_gives {closing : Token} {rest : List Token} {line : Nat} {noticed : List Noticed}
    {body : List Stmt} (h : BodyRead site ts body) (hclosing : closing.kind = .rightBrace) :
    (readBlock ⟨ts ++ closing :: rest, site, line, noticed⟩).Gives body
      ⟨rest, site + ts.length + 1, line, noticed⟩ := by
  obtain ⟨hvalue, hnext⟩ := h line noticed closing rest hclosing
  rw [readBlock]
  generalize readBody ⟨ts ++ closing :: rest, site, line, noticed⟩ = x at hvalue hnext ⊢
  obtain ⟨body', c₁, h₁⟩ := x
  dsimp only at hvalue hnext
  subst hvalue hnext
  exact ((Cursor.expect_gives _ hclosing).weaken _).map _

namespace StatementRead

/-- An expression with a semicolon is read to its end. -/
theorem expression {ending : Token} {e : Expr} (h : Expression .assignment site ts e)
    (hending : ending.kind = .semicolon) : StatementRead false site (ts ++ [ending]) (.expression e) := by
  intro line noticed rest _
  have hgives := (@readEnded_gives _ line noticed _ rest _ .expressionEnd _ h hending).map Stmt.expression
  obtain ⟨t, us, rfl, ht⟩ := h.first
  rw [List.append_assoc, List.cons_append, read, Cursor.acceptBy?_cons rfl]
  dsimp only
  split
  case h_7 => exact hgives.cast (by grind)
  all_goals
    next hk => exact absurd (hk ▸ ht) (by decide)

section

variable {keyword opening closing : Token} {condition : Expr} (hopening : opening.kind = .leftParen)
  (h : Expression .assignment (site + 2) ts condition) (hclosing : closing.kind = .rightParen)

include hopening h hclosing

/-- An `if` without `else` is read to its end. -/
theorem branch {yes : Stmt} (hkeyword : keyword.kind = .ifWord)
    (hyes : StatementRead dangling (site + ts.length + 3) us yes) :
    StatementRead true site (keyword :: opening :: ts ++ closing :: us) (.branch condition yes none) := by
  intro line noticed rest hrest
  have hrest := hrest rfl
  rw [show site + ts.length + 3 = site + 1 + 1 + ts.length + 1 by grind] at hyes
  rw [List.append_assoc, List.cons_append, List.cons_append, List.cons_append, read,
    Cursor.acceptBy?_cons rfl]
  dsimp only
  rw [hkeyword]
  refine ((readCondition_gives _ hopening h hclosing).weaken _).andThen fun _ => ?_
  refine ((hyes line noticed rest fun _ => hrest).weaken _).andThen fun _ => ?_
  rw [Cursor.accept?_eq_none fun t ht => hrest t ht]
  exact Gives.done.cast (by grind)

/-- An `if` with `else` is read to its end. -/
theorem branches {other : Token} {yes no : Stmt} (hkeyword : keyword.kind = .ifWord)
    (hyes : StatementRead false (site + ts.length + 3) us yes) (hother : other.kind = .elseWord)
    (hno : StatementRead dangling (site + ts.length + us.length + 4) vs no) :
    StatementRead dangling site (keyword :: opening :: ts ++ closing :: us ++ other :: vs)
      (.branch condition yes (some no)) := by
  intro line noticed rest hrest
  have hno_site : site + ts.length + us.length + 4 = site + 1 + 1 + ts.length + 1 + us.length + 1 := by grind
  rw [show site + ts.length + 3 = site + 1 + 1 + ts.length + 1 by grind] at hyes
  rw [hno_site] at hno
  rw [List.append_assoc, List.append_assoc, List.cons_append, read, Cursor.acceptBy?_cons rfl]
  dsimp only
  rw [hkeyword]
  refine ((readCondition_gives _ hopening h hclosing).weaken _).andThen fun _ => ?_
  refine ((hyes line noticed (other :: (vs ++ rest)) (by simp)).weaken _).andThen fun _ => ?_
  rw [Cursor.accept?_cons hother]
  exact (((hno line noticed rest hrest).weaken _).map _).cast (by grind)

/-- A `while` is read to its end. -/
theorem loop {body : Stmt} (hkeyword : keyword.kind = .whileWord)
    (hbody : StatementRead dangling (site + ts.length + 3) us body) :
    StatementRead dangling site (keyword :: opening :: ts ++ closing :: us) (.loop condition body) := by
  intro line noticed rest hrest
  rw [show site + ts.length + 3 = site + 1 + 1 + ts.length + 1 by grind] at hbody
  rw [List.append_assoc, List.cons_append, List.cons_append, List.cons_append, read,
    Cursor.acceptBy?_cons rfl]
  dsimp only
  rw [hkeyword]
  exact ((readCondition_gives _ hopening h hclosing).weaken _).andThen fun _ =>
    (((hbody line noticed rest hrest).weaken _).map _).cast (by grind)

end

/-- A `for` is read to its end. -/
theorem forLoop {keyword opening : Token} {initializer : Option Stmt}
    {condition increment : Option Expr} {body : Stmt} (hkeyword : keyword.kind = .forWord)
    (hopening : opening.kind = .leftParen) (hinitializer : Initializer (site + 2) ts initializer)
    (hcondition : Optional .semicolon (site + ts.length + 2) us condition)
    (hincrement : Optional .rightParen (site + ts.length + us.length + 2) vs increment)
    (hbody : StatementRead dangling (site + ts.length + us.length + vs.length + 2) ws body) :
    StatementRead dangling site (keyword :: opening :: ts ++ us ++ vs ++ ws)
      (.forLoop site initializer condition increment body) := by
  intro line noticed rest hrest
  have hincrement_site : site + ts.length + us.length + 2 = site + 1 + 1 + ts.length + us.length := by grind
  have hbody_site : site + ts.length + us.length + vs.length + 2 =
      site + 1 + 1 + ts.length + us.length + vs.length := by grind
  rw [show site + ts.length + 2 = site + 1 + 1 + ts.length by grind] at hcondition
  rw [hincrement_site] at hincrement
  rw [hbody_site] at hbody
  rw [List.append_assoc, List.append_assoc, List.append_assoc, List.cons_append, read,
    Cursor.acceptBy?_cons rfl]
  dsimp only
  rw [hkeyword]
  refine ((Cursor.expect_gives _ hopening).weaken _).andThen fun _ => ?_
  refine (hinitializer.gives.weaken _).andThen fun _ => ?_
  refine ((hcondition.gives _ (by decide) (by decide)).weaken _).andThen fun _ => ?_
  refine ((hincrement.gives _ (by decide) (by decide)).weaken _).andThen fun _ => ?_
  exact (((hbody line noticed rest hrest).weaken _).map _).cast (by grind)

end StatementRead

namespace DeclarationRead

/-- A class is read to its end. -/
theorem classOf {keyword name opening closing : Token} {superclass : Option Reference}
    {methods : List Routine} (hkeyword : keyword.kind = .classWord) (hname : name.kind = .identifier)
    (hsuperclass : Superclass (site + 2) ts superclass) (hopening : opening.kind = .leftBrace)
    (h : MethodsRead (site + ts.length + 3) us methods) (hclosing : closing.kind = .rightBrace) :
    DeclarationRead site (keyword :: name :: ts ++ opening :: us ++ [closing])
      (.classOf name superclass methods) := by
  intro line noticed rest _
  rw [show site + ts.length + 3 = site + 1 + 1 + ts.length + 1 by grind] at h
  rw [List.append_assoc, List.append_assoc, List.cons_append, readDeclared, Cursor.acceptBy?_cons rfl]
  dsimp only
  rw [hkeyword]
  dsimp only
  rw [readClass]
  refine Gives.weaken ?_ _
  refine (Cursor.expect_gives _ hname).andThen fun _ => ?_
  refine ((hsuperclass.gives hopening).weaken _).andThen fun _ => ?_
  refine ((Cursor.expect_gives _ hopening).weaken _).andThen fun _ => ?_
  refine ((h line noticed closing rest hclosing).weaken _).andThen fun _ => ?_
  exact (((Cursor.expect_gives _ hclosing).weaken _).map _).cast (by grind)

/-- A statement is read as a declaration, since it does not start with one of its keywords. -/
theorem statement {s : Stmt} (hfirst : Statement dangling site ts s)
    (h : StatementRead dangling site ts s) : DeclarationRead site ts s := by
  intro line noticed rest hrest
  have hgives := h line noticed rest fun _ => hrest
  obtain ⟨t, us, rfl, ht⟩ := hfirst.first
  rw [List.cons_append] at hgives ⊢
  rw [readDeclared, Cursor.acceptBy?_cons rfl]
  dsimp only
  split
  case h_4 => exact hgives
  all_goals
    next hk => exact absurd (hk ▸ ht) (by decide)

/-- A declaration at the top is read to its end. -/
theorem readDeclaration_eq {s : Stmt} {rest : List Token} (line : Nat) (noticed : List Noticed)
    (h : DeclarationRead site ts s) (hrest : NoElse rest)
    (hpos : 0 < (Cursor.mk (ts ++ rest) site line noticed).remaining) :
    (readDeclaration ⟨ts ++ rest, site, line, noticed⟩ hpos).value = some s ∧
    (readDeclaration ⟨ts ++ rest, site, line, noticed⟩ hpos).next =
      ⟨rest, site + ts.length, line, noticed⟩ := by
  obtain ⟨hlt, hgives⟩ := h line noticed rest hrest
  rw [readDeclaration, hgives]
  exact ⟨rfl, rfl⟩

end DeclarationRead

/-- One more declaration is read before others. -/
theorem BodyRead.cons {s : Stmt} {body : List Stmt} (hfirst : Declaration site ts s)
    (h : DeclarationRead site ts s) (hrest : Declarations (site + ts.length) us body)
    (h' : BodyRead (site + ts.length) us body) : BodyRead site (ts ++ us) (s :: body) := by
  intro line noticed closing rest hclosing
  have hnoElse : NoElse (us ++ closing :: rest) := by
    refine hrest.noElse ?_
    rintro _ ⟨⟩
    rw [hclosing]
    decide
  have hgo : ¬ ((Cursor.mk (ts ++ (us ++ closing :: rest)) site line noticed).atEnd ||
      (Cursor.mk (ts ++ (us ++ closing :: rest)) site line noticed).sees .rightBrace) = true := by
    obtain ⟨t, vs, rfl, ht⟩ := hfirst.first
    have hk : t.kind ≠ .rightBrace := fun hk => absurd (hk ▸ ht) (by decide)
    simpa [Cursor.atEnd, Cursor.sees] using hk
  have hpos := Cursor.remaining_pos (c := ⟨ts ++ (us ++ closing :: rest), site, line, noticed⟩) (by simp_all)
  obtain ⟨hvalue, hnext⟩ := h.readDeclaration_eq line noticed hnoElse hpos
  rw [List.length_append, ← Nat.add_assoc, List.append_assoc, readBody, dif_neg hgo]
  generalize readDeclaration _ hpos = x at hvalue hnext ⊢
  obtain ⟨s', c₁, h₁⟩ := x
  dsimp only at hvalue hnext
  subst hvalue hnext
  obtain ⟨hvalue', hnext'⟩ := h' line noticed closing rest hclosing
  dsimp only
  rw [hvalue', hnext']
  exact ⟨rfl, rfl⟩

/-- A function is read to the brace that closes its body. -/
theorem FunctionRead.mk {name opening closing brace ending : Token} {params : List Token} {body : List Stmt}
    (hname : name.kind = .identifier) (hopening : opening.kind = .leftParen) (hparams : Parameters ts params)
    (hmax : params.length ≤ 255) (hclosing : closing.kind = .rightParen) (hbrace : brace.kind = .leftBrace)
    (h : BodyRead (site + ts.length + 4) us body) (hending : ending.kind = .rightBrace) :
    FunctionRead site (name :: opening :: ts ++ closing :: brace :: us ++ [ending])
      (.mk name params body) := by
  intro line noticed rest sort
  rw [show site + ts.length + 4 = site + 1 + 1 + ts.length + 1 + 1 by grind] at h
  rw [List.append_assoc, List.append_assoc, readRoutine]
  refine (Cursor.expect_gives _ hname).andThen fun _ => ?_
  refine ((Cursor.expect_gives _ hopening).weaken _).andThen fun _ => ?_
  refine ((hparams.gives hclosing hmax).weaken _).andThen fun _ => ?_
  refine ((Cursor.expect_gives _ hclosing).weaken _).andThen fun _ => ?_
  refine ((Cursor.expect_gives _ hbrace).weaken _).andThen fun _ => ?_
  exact (((h.readBlock_gives hending).weaken _).map _).cast (by grind)

/-- One more method is read before others. -/
theorem MethodsRead.more {r : Routine} {methods : List Routine} (hfirst : Function site ts r)
    (h : FunctionRead site ts r) (h' : MethodsRead (site + ts.length) us methods) :
    MethodsRead site (ts ++ us) (r :: methods) := by
  intro line noticed closing rest hclosing
  have hgo : ¬ ((Cursor.mk (ts ++ (us ++ closing :: rest)) site line noticed).atEnd ||
      (Cursor.mk (ts ++ (us ++ closing :: rest)) site line noticed).sees .rightBrace) = true := by
    cases hfirst with
    | mk hname => simp [Cursor.atEnd, Cursor.sees, hname]
  rw [List.append_assoc, readMethods, if_neg hgo]
  exact (((h line noticed (us ++ closing :: rest) .method).andThen fun _ =>
    ((h' line noticed closing rest hclosing).weaken _).map _).weaken _).cast (by grind)

end

end Stmt

open Stmt in
/-- Every declaration of the grammar is read to its end. -/
theorem Grammar.Declaration.read {site : Site} {ts : List Token} {s : Stmt}
    (h : Declaration site ts s) : DeclarationRead site ts s := by
  induction h using @Declaration.rec (fun dangling site ts s _ => StatementRead dangling site ts s) _
    (fun site ts body _ => BodyRead site ts body) (fun site ts r _ => FunctionRead site ts r)
    (fun site ts methods _ => MethodsRead site ts methods) with
  | expression h hending => exact .expression h hending
  | print hkeyword h hending =>
    intro line noticed rest _
    rw [List.append_assoc, List.cons_append, Stmt.read, Cursor.acceptBy?_cons rfl]
    dsimp only
    rw [hkeyword]
    exact (((readEnded_gives _ h hending).weaken _).map _).cast (by grind)
  | returns hkeyword h =>
    intro line noticed rest _
    rw [List.cons_append, Stmt.read, Cursor.acceptBy?_cons rfl]
    dsimp only
    rw [hkeyword]
    exact (((h.gives _ (by decide) (by decide)).weaken _).map _).cast (by grind)
  | branch hkeyword hopening h hclosing _ ih => exact .branch hopening h hclosing hkeyword ih
  | branches hkeyword hopening h hclosing _ hother _ ihyes ihno =>
    exact .branches hopening h hclosing hkeyword ihyes hother ihno
  | loop hkeyword hopening h hclosing _ ih => exact .loop hopening h hclosing hkeyword ih
  | forLoop hkeyword hopening hinitializer hcondition hincrement _ ih =>
    exact .forLoop hkeyword hopening hinitializer hcondition hincrement ih
  | block hopening _ hclosing ih =>
    intro line noticed rest _
    rw [List.append_assoc, List.cons_append, Stmt.read, Cursor.acceptBy?_cons rfl]
    dsimp only
    rw [hopening]
    exact (((ih.readBlock_gives hclosing).weaken _).map _).cast (by grind)
  | classOf hkeyword hname hsuperclass hopening _ hclosing ih =>
    exact .classOf hkeyword hname hsuperclass hopening ih hclosing
  | routine hkeyword _ ih =>
    intro line noticed rest _
    rw [List.cons_append, readDeclared, Cursor.acceptBy?_cons rfl]
    dsimp only
    rw [hkeyword]
    exact (((ih line noticed rest .function).weaken _).map _).cast (by grind)
  | declared hkeyword h =>
    intro line noticed rest _
    rw [List.cons_append, readDeclared, Cursor.acceptBy?_cons rfl]
    dsimp only
    rw [hkeyword]
    exact (h.gives.weaken _).cast (by grind)
  | statement h ih => exact .statement h ih
  | mk hname hopening hparams hmax hclosing hbrace _ hending ih =>
    exact .mk hname hopening hparams hmax hclosing hbrace ih hending
  | nil =>
    intro line noticed closing rest hclosing
    rw [List.nil_append, readBody, dif_pos (by simp [Cursor.sees, hclosing])]
    exact ⟨rfl, rfl⟩
  | cons h h' ih ih' => exact .cons h ih h' ih'
  | none =>
    intro line noticed closing rest hclosing
    rw [List.nil_append, readMethods, if_pos (by simp [Cursor.sees, hclosing])]
    exact .done
  | more h _ ih ih' => exact .more h ih ih'

/-- Declarations of the grammar are read first, whatever follows them, unless it is an `else`. -/
theorem Grammar.Declarations.readAll_append {site : Site} {ts rest : List Token} {program : Program}
    (h : Declarations site ts program) (hrest : NoElse rest) (line : Nat) (noticed : List Noticed) :
    Stmt.readAll ⟨ts ++ rest, site, line, noticed⟩ =
      (program ++ (Stmt.readAll ⟨rest, site + ts.length, line, noticed⟩).1,
        (Stmt.readAll ⟨rest, site + ts.length, line, noticed⟩).2) := by
  induction program generalizing site ts with
  | nil =>
    cases h
    rfl
  | cons s program ih =>
    cases h with
    | @cons _ ts us _ _ h h' =>
      have hpos : (Cursor.mk (ts ++ (us ++ rest)) site line noticed).remaining ≠ 0 := by
        obtain ⟨t, vs, rfl, -⟩ := h.first
        simp
      obtain ⟨hvalue, hnext⟩ :=
        h.read.readDeclaration_eq line noticed (h'.noElse hrest) (Nat.pos_of_ne_zero hpos)
      rw [List.append_assoc, Stmt.readAll, dif_neg hpos, List.length_append, ← Nat.add_assoc]
      generalize Stmt.readDeclaration _ (Nat.pos_of_ne_zero hpos) = x at hvalue hnext ⊢
      obtain ⟨s', c₁, h₁⟩ := x
      dsimp only at hvalue hnext
      subst hvalue hnext
      dsimp only
      rw [ih h']
      rfl

/-- A program of the grammar is read without an error into the tree of its derivation. -/
theorem Grammar.Declarations.readAll_eq {site : Site} {tokens : List Token} {program : Program}
    (h : Declarations site tokens program) (line : Nat) (noticed : List Noticed) :
    Stmt.readAll ⟨tokens, site, line, noticed⟩ = (program, ⟨[], site + tokens.length, line, noticed⟩) := by
  have hnil : NoElse [] := by rintro _ ⟨⟩
  have hend : Stmt.readAll ⟨[], site + tokens.length, line, noticed⟩ =
      ([], ⟨[], site + tokens.length, line, noticed⟩) := by
    rw [Stmt.readAll, dif_pos (show (Cursor.mk [] _ line noticed).remaining = 0 from rfl)]
  have happend := h.readAll_append hnil line noticed
  rwa [List.append_nil, hend, List.append_nil] at happend

/-- Reading tokens notices no error and builds a tree exactly if the grammar derives the tokens with
that tree. -/
theorem readTokens_eq_iff (site : Site) (tokens : List Token) (line : Nat) (program : Program) :
    (readTokens site tokens line).1 = program ∧ (readTokens site tokens line).2.noticed = [] ↔
      Declarations site tokens program := by
  constructor
  · rintro ⟨rfl, h⟩
    exact (Stmt.readAll_reads _ h).2
  · intro h
    rw [readTokens, h.readAll_eq]
    exact ⟨rfl, rfl⟩

end Lox
