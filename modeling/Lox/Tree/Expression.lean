import Lox.Tree.Cursor

/-!
# Reading expressions

The grammar of expressions, from the loosest level to the tightest: assignment, `or`, `and`,
equality with the conditional, comparison, sum, product, prefix operators, calls and properties, and
primary expressions. Binary operators associate to the left and assignment to the right. The
conditional hangs off the equality level: each `?` takes a comparison for either branch.
-/

namespace Lox

/-- A level of binary operators. -/
inductive Level where
  | disjunction
  | conjunction
  | equality
  | comparison
  | sum
  | product
  deriving DecidableEq, Repr

namespace Level

/-- The next tighter level; after products come the prefix operators. -/
def tighter? : Level → Option Level
  | .disjunction => some .conjunction
  | .conjunction => some .equality
  | .equality => some .comparison
  | .comparison => some .sum
  | .sum => some .product
  | .product => none

/-- How many levels of binary operators are tighter. -/
def height : Level → Nat
  | .disjunction => 5
  | .conjunction => 4
  | .equality => 3
  | .comparison => 2
  | .sum => 1
  | .product => 0

theorem height_le (l : Level) : l.height ≤ 5 := by cases l <;> decide

theorem height_tighter {l l' : Level} (h : l.tighter? = some l') : l'.height < l.height := by
  cases l <;> simp_all [tighter?] <;> subst h <;> decide

/-- The node that an operator of this level at a site builds from its operands. -/
def join? (l : Level) (site : Site) (t : Token) : Option (Expr → Expr → Expr) :=
  match l, t.kind with
  | .disjunction, .orWord => some (.logical site .or t)
  | .conjunction, .andWord => some (.logical site .and t)
  | .equality, .equalEqual => some (.binary site .equal t)
  | .equality, .bangEqual => some (.binary site .notEqual t)
  | .comparison, .less => some (.binary site .less t)
  | .comparison, .lessEqual => some (.binary site .lessEqual t)
  | .comparison, .greater => some (.binary site .greater t)
  | .comparison, .greaterEqual => some (.binary site .greaterEqual t)
  | .sum, .plus => some (.binary site .add t)
  | .sum, .minus => some (.binary site .subtract t)
  | .product, .star => some (.binary site .multiply t)
  | .product, .slash => some (.binary site .divide t)
  | _, _ => none

end Level

/-- The node that a prefix operator at a site builds from its operand. -/
def prefixNode? (site : Site) (t : Token) : Option (Expr → Expr) :=
  match t.kind with
  | .bang => some (.unary site .not t)
  | .minus => some (.unary site .negate t)
  | _ => none

/-- The expression that an assignment to a target makes, if the target can be assigned to. -/
def assignTo? (target value : Expr) : Option Expr :=
  match target with
  | .variable ref => some (.assign ref value)
  | .get site object name => some (.set site object name value)
  | _ => none

/-- The largest number of parameters and of arguments. -/
def maxArguments : Nat := 255

namespace Expr

mutual

/-- An expression: an operand of the loosest level, possibly assigned to. -/
def read (c : Cursor) : Parsed Expr c.remaining :=
  (readLevel .disjunction c).andThen fun target c₁ h₁ =>
    match c₁.accept? .equal with
    | none => .done target c₁ h₁
    | some ⟨sign, c₂, h₂⟩ =>
      ((read c₂).weaken (Cursor.le_of_shorter_twice h₂ h₁)).andThen fun value c₃ h₃ =>
        match assignTo? target value with
        | some e => .done e c₃ h₃
        | none => .done target (c₃.note sign .invalidTarget) h₃
termination_by c.remaining * 32 + 17
decreasing_by
  · have := Level.height_le .disjunction; omega
  · omega

/-- A chain of operators of a level, followed at the equality level by conditionals. -/
def readLevel (l : Level) (c : Cursor) : Parsed Expr c.remaining :=
  (readTighter l c).andThen fun first c₁ h₁ =>
    ((readChain l first c₁).weaken h₁).andThen fun left c₂ h₂ =>
      if l = .equality then (readConditional left c₂).weaken h₂ else .done left c₂ h₂
termination_by c.remaining * 32 + 2 * l.height + 5

/-- An operand of the operators of a level. -/
def readTighter (l : Level) (c : Cursor) : Parsed Expr c.remaining :=
  match _h : l.tighter? with
  | some l' => readLevel l' c
  | none => readPrefix c
termination_by c.remaining * 32 + 2 * l.height + 4
decreasing_by
  · have := Level.height_tighter _h; omega
  · omega

/-- The rest of a chain of operators of a level, after its first operands. -/
def readChain (l : Level) (left : Expr) (c : Cursor) : Parsed Expr (c.remaining + 1) :=
  match c.acceptBy? (l.join? c.site) with
  | none => .done left c c.remaining_lt_succ
  | some ⟨build, c₁, h₁⟩ =>
    Parsed.weaken (m := c₁.remaining)
      ((readTighter l c₁).andThen fun right c₂ h₂ =>
        (readChain l (build left right) c₂).weaken h₂)
      (Cursor.le_succ_of_shorter h₁)
termination_by c.remaining * 32
decreasing_by
  · have := l.height_le; omega
  · omega

/-- The conditionals after a chain of equalities. -/
def readConditional (condition : Expr) (c : Cursor) : Parsed Expr (c.remaining + 1) :=
  match c.accept? .question with
  | none => .done condition c c.remaining_lt_succ
  | some ⟨question, c₁, h₁⟩ =>
    Parsed.weaken (m := c₁.remaining)
      ((readLevel .comparison c₁).andThen fun middle c₂ h₂ =>
        ((c₂.expect .colon .colon).weaken (Cursor.le_of_shorter h₂)).andThen fun colon c₃ h₃ =>
          ((readLevel .comparison c₃).weaken (Cursor.le_of_shorter h₃)).andThen fun right c₄ h₄ =>
            (readConditional (.conditional c.site condition question middle colon right) c₄).weaken h₄)
      (Cursor.le_succ_of_shorter h₁)
termination_by c.remaining * 32
decreasing_by
  · have := Level.height_le .comparison; omega
  · have := Level.height_le .comparison; omega
  · omega

/-- Prefix operators before a call. -/
def readPrefix (c : Cursor) : Parsed Expr c.remaining :=
  match c.acceptBy? (prefixNode? c.site) with
  | none => readCall c
  | some ⟨build, c₁, h₁⟩ => ((readPrefix c₁).weaken (Cursor.le_of_shorter h₁)).map build
termination_by c.remaining * 32 + 3

/-- A primary expression with its calls and properties. -/
def readCall (c : Cursor) : Parsed Expr c.remaining :=
  (readPrimary c).andThen fun e c₁ h₁ => (readSuffixes e c₁).weaken h₁
termination_by c.remaining * 32 + 2

/-- The calls and properties after an expression. -/
def readSuffixes (e : Expr) (c : Cursor) : Parsed Expr (c.remaining + 1) :=
  match c.accept? .dot with
  | some ⟨_, c₁, h₁⟩ =>
    Parsed.weaken (m := c₁.remaining)
      ((c₁.expect .identifier .propertyName).andThen fun name c₂ h₂ =>
        (readSuffixes (.get c.site e name) c₂).weaken h₂)
      (Cursor.le_succ_of_shorter h₁)
  | none =>
    match c.accept? .leftParen with
    | none => .done e c c.remaining_lt_succ
    | some ⟨_, c₁, h₁⟩ =>
      Parsed.weaken (m := c₁.remaining + 1)
        ((readArguments c₁).andThen fun arguments c₂ h₂ =>
          ((c₂.expect .rightParen .argumentsClosing).weaken (Cursor.le_succ_of_within h₂)).andThen
            fun paren c₃ h₃ => (readSuffixes (.call c.site e paren arguments) c₃).weaken h₃)
        (Cursor.succ_le_succ_of_shorter h₁)
termination_by c.remaining * 32

/-- The arguments of a call, up to the parenthesis that closes them. -/
def readArguments (c : Cursor) : Parsed (List Expr) (c.remaining + 1) :=
  if c.sees .rightParen then .done [] c c.remaining_lt_succ
  else (readArgumentList 0 c).weaken c.remaining_le_succ
termination_by c.remaining * 32 + 19

/-- One or more arguments, after some number of others. -/
def readArgumentList (before : Nat) (c : Cursor) : Parsed (List Expr) c.remaining :=
  (read (c.noteIf (maxArguments ≤ before) .tooManyArguments)).andThen fun e c₁ h₁ =>
    have h₁ : c₁.remaining < c.remaining := h₁
    match c₁.accept? .comma with
    | none => .done [e] c₁ h₁
    | some ⟨_, c₂, h₂⟩ =>
      ((readArgumentList (before + 1) c₂).weaken (Cursor.le_of_shorter_twice h₂ h₁)).map (e :: ·)
termination_by c.remaining * 32 + 18
decreasing_by
  · exact Nat.lt_succ_self (c.remaining * 32 + 17)
  · omega

/-- A primary expression: a constant, a name, `this`, a method of the superclass, or an expression in
parentheses. -/
def readPrimary (c : Cursor) : Parsed Expr c.remaining :=
  match c.acceptBy? some with
  | none => c.fail .expression
  | some ⟨t, c₁, h₁⟩ =>
    match t.kind with
    | .falseWord => .done (.literal c.site (.bool false)) c₁ h₁
    | .trueWord => .done (.literal c.site (.bool true)) c₁ h₁
    | .nilWord => .done (.literal c.site .nil) c₁ h₁
    | .number | .string => .done (.literal c.site (t.literal.getD .nil)) c₁ h₁
    | .thisWord => .done (.this ⟨c.site, t⟩) c₁ h₁
    | .identifier => .done (.variable ⟨c.site, t⟩) c₁ h₁
    | .superWord =>
      ((c₁.expect .dot .superDot).weaken (Cursor.le_of_shorter h₁)).andThen fun _ c₂ h₂ =>
        ((c₂.expect .identifier .superMethodName).weaken (Cursor.le_of_shorter h₂)).map
          (.super ⟨c.site, t⟩)
    | .leftParen =>
      ((read c₁).weaken (Cursor.le_of_shorter h₁)).andThen fun inner c₂ h₂ =>
        ((c₂.expect .rightParen .groupClosing).weaken (Cursor.le_of_shorter h₂)).map
          fun _ => .grouping c.site inner
    | _ => c.fail .expression
termination_by c.remaining * 32 + 1

end

end Expr

end Lox
