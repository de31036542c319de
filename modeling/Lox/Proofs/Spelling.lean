import Lox.Proofs.ReferenceSites
import Lox.Proofs.ShortestDecimal

/-!
# How trees are spelled

What a token is written as decides its kind and its value (`Token.Proper.bare_eq`). The trees that the
grammar derives from scanned tokens are `Spelled`: each token in them has the kind that its place asks
for, operators go with their signs, and constants are what a scan can find. A spelled tree is thus
determined, but for the places of its tokens, by its structure and the texts of its names and
operators. `bare` leaves out these places: lines of tokens, and sites of references.
-/

namespace Lox

/-! ## Tokens -/

/-- The kind of token that a text is written as. -/
def Kind.ofLexeme (t : Text) : Kind :=
  if (t.head?.map Chunk.isWordStart).getD false then .ofWord t
  else if (t.head?.map Text.isDigit).getD false then .number
  else if t.head? = some 34 then .string
  else (Kind.operators.lookup t).getD .endOfFile

/-- A lexeme tells its kind. -/
theorem Lexeme.kind_eq {k : Kind} {t : Text} (h : Lexeme k t) : k = .ofLexeme t := by
  cases h with
  | operator h =>
    have key : ∀ p ∈ Kind.operators, p.2 = .ofLexeme p.1 := by decide +kernel
    exact key _ h
  | string => rfl
  | number h =>
    obtain ⟨a, v, rfl, ha⟩ := h.exists_cons
    simp [Kind.ofLexeme, ha, Chunk.isWordStart_of_isDigit ha]
  | keyword h =>
    have key : ∀ p ∈ Kind.reserved, p.2 = .ofLexeme p.1 := by decide +kernel
    exact key _ h
  | identifier h h' =>
    have hnone : Kind.reserved.lookup t = none := by
      rw [List.lookup_eq_none_iff]
      intro p hp
      rw [bne_iff_ne]
      rintro rfl
      exact h' p.2 hp
    cases h with
    | mk ha htail => simp [Kind.ofLexeme, Kind.ofWord, ha, hnone]

theorem Carries.unique {k : Kind} {t : Text} {value value' : Option Literal}
    (h : Carries k t value) (h' : Carries k t value') : value = value' := by
  rw [← Chunk.literal?_of_carries h, ← Chunk.literal?_of_carries h']

def Token.bare (t : Token) : Token := { t with line := 0 }

namespace Token.Proper

variable {t t' : Token}

/-- Tokens that are written alike differ by their lines only. -/
theorem bare_eq (h : t.Proper) (h' : t'.Proper) (hlexeme : t.lexeme = t'.lexeme) : t.bare = t'.bare := by
  obtain ⟨k, w, value, line⟩ := t
  obtain ⟨k', w', value', line'⟩ := t'
  obtain rfl : w = w' := hlexeme
  obtain rfl : k = k' := h.written.kind_eq.trans h'.written.kind_eq.symm
  obtain rfl : value = value' := h.carries.unique h'.carries
  rfl

end Token.Proper

/-- A token of a kind. -/
def Token.Is (t : Token) (k : Kind) : Prop := t.kind = k ∧ t.Proper

/-- The text of the tokens of a kind, for operators and reserved words. -/
def Kind.spelling (k : Kind) : Text :=
  (((Kind.operators ++ Kind.reserved).find? (·.2 == k)).map (·.1)).getD []

/-- Operators and reserved words are written in one way only. -/
theorem Token.Is.lexeme_eq {t : Token} {k : Kind} (h : t.Is k)
    (hopen : k ∉ [.string, .number, .identifier]) : t.lexeme = k.spelling := by
  obtain ⟨rfl, hwritten, -⟩ := h
  unfold Token.Written at hwritten
  generalize t.lexeme = w at hwritten
  generalize t.kind = k at hwritten hopen
  cases hwritten with
  | operator h =>
    have key : ∀ p ∈ Kind.operators, p.1 = p.2.spelling := by decide +kernel
    exact key _ h
  | keyword h =>
    have key : ∀ p ∈ Kind.reserved, p.1 = p.2.spelling := by decide +kernel
    exact key _ h
  | string | number | identifier => exact absurd (by simp) hopen

/-- Tokens of one kind of operator or reserved word differ by their lines only. -/
theorem Token.Is.bare_eq {t t' : Token} {k : Kind} (h : t.Is k) (h' : t'.Is k)
    (hopen : k ∉ [.string, .number, .identifier]) : t.bare = t'.bare :=
  h.2.bare_eq h'.2 ((h.lexeme_eq hopen).trans (h'.lexeme_eq hopen).symm)

/-! ## Trees without places -/

/-- A reference without its site and line. -/
def Reference.bare (r : Reference) : Reference := ⟨0, r.token.bare⟩

namespace Expr

mutual

/-- An expression without the places of its tokens. -/
def bare : Expr → Expr
  | .literal _ value => .literal 0 value
  | .grouping _ inner => .grouping 0 (bare inner)
  | .variable ref => .variable ref.bare
  | .assign target value => .assign target.bare (bare value)
  | .this ref => .this ref.bare
  | .super ref method => .super ref.bare method.bare
  | .unary _ op sign operand => .unary 0 op sign.bare (bare operand)
  | .binary _ op sign left right => .binary 0 op sign.bare (bare left) (bare right)
  | .logical _ op sign left right => .logical 0 op sign.bare (bare left) (bare right)
  | .conditional _ condition question middle colon right =>
    .conditional 0 (bare condition) question.bare (bare middle) colon.bare (bare right)
  | .call _ callee paren arguments => .call 0 (bare callee) paren.bare (bareAll arguments)
  | .get _ object name => .get 0 (bare object) name.bare
  | .set _ object name value => .set 0 (bare object) name.bare (bare value)

def bareAll : List Expr → List Expr
  | [] => []
  | e :: rest => bare e :: bareAll rest

end

end Expr

mutual

/-- A statement without the places of its tokens. -/
def Stmt.bare : Stmt → Stmt
  | .expression e => .expression e.bare
  | .print e => .print e.bare
  | .returns keyword value => .returns keyword.bare (value.map Expr.bare)
  | .branch condition yes none => .branch condition.bare yes.bare none
  | .branch condition yes (some no) => .branch condition.bare yes.bare (some no.bare)
  | .loop condition body => .loop condition.bare body.bare
  | .block body => .block (Stmt.bareAll body)
  | .variable name initializer => .variable name.bare (initializer.map Expr.bare)
  | .routine r => .routine r.bare
  | .classOf name superclass methods =>
    .classOf name.bare (superclass.map Reference.bare) (Routine.bareAll methods)

def Routine.bare : Routine → Routine
  | .mk name params body => .mk name.bare (params.map Token.bare) (Stmt.bareAll body)

def Stmt.bareAll : List Stmt → List Stmt
  | [] => []
  | s :: rest => s.bare :: Stmt.bareAll rest

def Routine.bareAll : List Routine → List Routine
  | [] => []
  | r :: rest => r.bare :: Routine.bareAll rest

end

/-! ## Spelled trees -/

/-- The kind of the sign of an operator. -/
def UnaryOp.kind : UnaryOp → Kind
  | .not => .bang
  | .negate => .minus

@[inherit_doc UnaryOp.kind]
def BinaryOp.kind : BinaryOp → Kind
  | .equal => .equalEqual
  | .notEqual => .bangEqual
  | .less => .less
  | .lessEqual => .lessEqual
  | .greater => .greater
  | .greaterEqual => .greaterEqual
  | .add => .plus
  | .subtract => .minus
  | .multiply => .star
  | .divide => .slash

@[inherit_doc UnaryOp.kind]
def LogicalOp.kind : LogicalOp → Kind
  | .and => .andWord
  | .or => .orWord

/-- A constant that a scan can find: a number is finite and not negative. -/
def Literal.Spelled : Literal → Prop
  | .number x => x.bits.toNat < Number.infinityBits
  | _ => True

namespace Expr

mutual

/-- The tokens of an expression are those that their places ask for. -/
def Spelled : Expr → Prop
  | .literal _ value => value.Spelled
  | .grouping _ inner => Spelled inner
  | .variable ref => ref.token.Is .identifier
  | .assign target value => target.token.Is .identifier ∧ Spelled value
  | .this ref => ref.token.Is .thisWord
  | .super ref method => ref.token.Is .superWord ∧ method.Is .identifier
  | .unary _ op sign operand => sign.Is op.kind ∧ Spelled operand
  | .binary _ op sign left right => sign.Is op.kind ∧ Spelled left ∧ Spelled right
  | .logical _ op sign left right => sign.Is op.kind ∧ Spelled left ∧ Spelled right
  | .conditional _ condition question middle colon right =>
    question.Is .question ∧ colon.Is .colon ∧ Spelled condition ∧ Spelled middle ∧ Spelled right
  | .call _ callee paren arguments =>
    paren.Is .rightParen ∧ Spelled callee ∧ SpelledAll arguments
  | .get _ object name => name.Is .identifier ∧ Spelled object
  | .set _ object name value => name.Is .identifier ∧ Spelled object ∧ Spelled value

def SpelledAll : List Expr → Prop
  | [] => True
  | e :: rest => Spelled e ∧ SpelledAll rest

end

end Expr

mutual

/-- The tokens of a statement are those that their places ask for. -/
def Stmt.Spelled : Stmt → Prop
  | .expression e => e.Spelled
  | .print e => e.Spelled
  | .returns keyword value => keyword.Is .returnWord ∧ ∀ e ∈ value, e.Spelled
  | .branch condition yes none => condition.Spelled ∧ yes.Spelled
  | .branch condition yes (some no) => condition.Spelled ∧ yes.Spelled ∧ no.Spelled
  | .loop condition body => condition.Spelled ∧ body.Spelled
  | .block body => Stmt.SpelledAll body
  | .variable name initializer => name.Is .identifier ∧ ∀ e ∈ initializer, e.Spelled
  | .routine r => r.Spelled
  | .classOf name superclass methods =>
    name.Is .identifier ∧ (∀ ref ∈ superclass, ref.token.Is .identifier) ∧ Routine.SpelledAll methods

def Routine.Spelled : Routine → Prop
  | .mk name params body =>
    name.Is .identifier ∧ (∀ p ∈ params, p.Is .identifier) ∧ Stmt.SpelledAll body

def Stmt.SpelledAll : List Stmt → Prop
  | [] => True
  | s :: rest => s.Spelled ∧ Stmt.SpelledAll rest

def Routine.SpelledAll : List Routine → Prop
  | [] => True
  | r :: rest => r.Spelled ∧ Routine.SpelledAll rest

end

theorem Stmt.spelledAll_append {ss ss' : List Stmt} (h : Stmt.SpelledAll ss)
    (h' : Stmt.SpelledAll ss') : Stmt.SpelledAll (ss ++ ss') := by
  induction ss with
  | nil => exact h'
  | cons s ss ih => exact ⟨h.1, ih h.2⟩

namespace Grammar

/-- What is true of the tokens of a phrase is true of those of its parts. -/
theorem part {P : Token → Prop} {ts us : List Token} (h : ∀ t ∈ us, P t)
    (hpart : ∀ t ∈ ts, t ∈ us := by simp +contextual) : ∀ t ∈ ts, P t :=
  fun t ht => h t (hpart t ht)

variable {site : Site} {ts : List Token}

/-- The constant of a proper token is spelled. -/
theorem Constant.spelled {t : Token} {value : Literal} (h : Constant t value) (ht : t.Proper) :
    value.Spelled := by
  cases h with
  | false | true | nil => trivial
  | carried =>
    have hcarries := ht.carries
    generalize t.literal = carried at hcarries
    generalize t.kind = k at hcarries
    generalize t.lexeme = w at hcarries
    cases hcarries with
    | string | other => trivial
    | number _ hx => exact Decimal.bits_lt_of_nearest? hx

theorem Joins.spelled {l : Level} {t : Token} {left right e : Expr} (h : Joins l site t left right e)
    (ht : t.Proper) (hleft : left.Spelled) (hright : right.Spelled) : e.Spelled := by
  cases h with
  | or hk | and hk => exact ⟨⟨hk, ht⟩, hleft, hright⟩
  | binary hmem =>
    have key : ∀ p ∈ binaryOperators, p.2.1 = p.2.2.kind := by decide
    exact ⟨⟨key _ hmem, ht⟩, hleft, hright⟩

variable (hp : ∀ t ∈ ts, t.Proper)

include hp

/-- An expression from proper tokens is spelled. -/
theorem Expression.spelled {f : Form} {e : Expr} (h : Expression f site ts e) : e.Spelled := by
  induction h using @Expression.rec _ (fun site ts es _ => (∀ t ∈ ts, t.Proper) → Expr.SpelledAll es) with
  | assign hk _ _ ih | get _ _ hk ih | not hk _ ih | negate hk _ ih =>
    exact ⟨⟨hk, hp _ (by simp)⟩, ih (part hp)⟩
  | set _ _ hk _ _ ih ih' | call _ _ _ _ hk ih ih' =>
    exact ⟨⟨hk, hp _ (by simp)⟩, ih (part hp), ih' (part hp)⟩
  | joined _ hjoin _ ih ih' => exact hjoin.spelled (hp _ (by simp)) (ih (part hp)) (ih' (part hp))
  | unassigned _ ih | single _ ih | unconditional _ ih | unprefixed _ ih | uncalled _ ih => exact ih hp
  | conditional _ hquestion _ hcolon _ ih ihmiddle ihright =>
    exact ⟨⟨hquestion, hp _ (by simp)⟩, ⟨hcolon, hp _ (by simp)⟩, ih (part hp), ihmiddle (part hp),
      ihright (part hp)⟩
  | constant h => exact h.spelled (hp _ (by simp))
  | named h | this h => exact ⟨h, hp _ (by simp)⟩
  | super h _ hmethod => exact ⟨⟨h, hp _ (by simp)⟩, hmethod, hp _ (by simp)⟩
  | grouping _ _ _ ih => exact ih (part hp)
  | none => trivial
  | one _ ih hp => exact ⟨ih hp, trivial⟩
  | more _ _ _ _ ih ih' hp => exact ⟨ih (part hp), ih' (part hp)⟩

theorem Optional.spelled {closing : Kind} {value : Option Expr} (h : Optional closing site ts value) :
    ∀ e ∈ value, e.Spelled := by
  cases h with
  | absent => exact fun e he => by cases he
  | present h =>
    intro e he
    cases he
    exact h.spelled (part hp)

theorem Variable.spelled {s : Stmt} (h : Variable site ts s) : s.Spelled := by
  cases h with
  | plain hname => exact ⟨⟨hname, hp _ (by simp)⟩, fun e he => by cases he⟩
  | initialized hname _ h =>
    refine ⟨⟨hname, hp _ (by simp)⟩, fun e he => ?_⟩
    cases he
    exact h.spelled (part hp)

theorem Initializer.spelled {s : Option Stmt} (h : Initializer site ts s) : Stmt.SpelledAll s.toList := by
  cases h with
  | absent => trivial
  | declared _ h | expression h => exact ⟨h.spelled (part hp), trivial⟩

theorem Parameters.spelled {names : List Token} (h : Parameters ts names) : ∀ p ∈ names, p.Is .identifier := by
  induction h with
  | none => simp
  | one hk => simpa using ⟨hk, hp _ (by simp)⟩
  | more hk _ _ _ ih =>
    rw [List.forall_mem_cons]
    exact ⟨⟨hk, hp _ (by simp)⟩, ih (part hp)⟩

theorem Superclass.spelled {superclass : Option Reference} (h : Superclass site ts superclass) :
    ∀ ref ∈ superclass, ref.token.Is .identifier := by
  cases h with
  | absent => exact fun ref href => by cases href
  | named _ hname =>
    intro ref href
    cases href
    exact ⟨hname, hp _ (by simp)⟩

/-- The programs of the grammar are spelled. -/
theorem Declarations.spelled {ss : List Stmt} (h : Declarations site ts ss) : Stmt.SpelledAll ss := by
  induction h using @Declarations.rec (fun _ _ ts s _ => (∀ t ∈ ts, t.Proper) → s.Spelled)
    (fun _ ts s _ => (∀ t ∈ ts, t.Proper) → s.Spelled) _
    (fun _ ts r _ => (∀ t ∈ ts, t.Proper) → r.Spelled)
    (fun _ ts rs _ => (∀ t ∈ ts, t.Proper) → Routine.SpelledAll rs) with
  | expression h _ hp | print _ h _ hp | declared _ h hp => exact h.spelled (part hp)
  | returns hkeyword h hp => exact ⟨⟨hkeyword, hp _ (by simp)⟩, h.spelled (part hp)⟩
  | branch _ _ h _ _ ih hp | loop _ _ h _ _ ih hp => exact ⟨h.spelled (part hp), ih (part hp)⟩
  | branches _ _ h _ _ _ _ ih ihno hp => exact ⟨h.spelled (part hp), ih (part hp), ihno (part hp)⟩
  | @forLoop _ site _ _ _ _ _ _ _ condition increment _ _ _ hinit hcond hincr _ ih hp =>
    have hcondition : (condition.getD (.literal site (.bool true))).Spelled := by
      have h := hcond.spelled (part hp)
      cases condition with
      | none => trivial
      | some e => exact h e rfl
    have hincrement : Stmt.SpelledAll (increment.map Stmt.expression).toList := by
      have h := hincr.spelled (part hp)
      cases increment with
      | none => trivial
      | some e => exact ⟨h e rfl, trivial⟩
    have hbody := ih (part hp)
    refine Stmt.spelledAll_append (hinit.spelled (part hp)) ?_
    exact ⟨⟨hcondition, hbody, hincrement⟩, trivial⟩
  | block _ _ _ ih hp | routine _ _ ih hp => exact ih (part hp)
  | classOf _ hname h _ _ _ ih hp | mk hname _ h _ _ _ _ _ ih hp =>
    exact ⟨⟨hname, hp _ (by simp)⟩, h.spelled (part hp), ih (part hp)⟩
  | statement _ ih hp => exact ih hp
  | nil => trivial
  | cons _ _ ih ih' | more _ _ ih ih' hp => exact ⟨ih (part hp), ih' (part hp)⟩
  | none hp => trivial

end Grammar

theorem Reading.spelled {site : Site} {source : Text} (h : (Reading.ofSource site source).errors = []) :
    Stmt.SpelledAll (Reading.ofSource site source).program :=
  (Reading.declarations h).spelled (Scan.proper source)

end Lox
