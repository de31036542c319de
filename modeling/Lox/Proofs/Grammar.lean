import Lox.Tree.Expression

/-!
# The grammar

Which sequences of tokens are programs, and which tree each of them has, said by productions and
without reference to how tokens are read. Every relation here takes the site of the first token,
since the nodes of a tree keep the sites of tokens.

`Expression` is indexed by the form of an expression, from assignments down to primary expressions.
Binary operators are left-recursive and so associate to the left; assignment is right-recursive. The
conditional hangs off the equalities: any number of `? comparison : comparison` may follow them.
`Statement` is indexed by whether the statement ends in an `if` without `else`. Such a statement may
not stand before an `else`, so every `else` belongs to the nearest `if`.
-/

namespace Lox.Grammar

/-- The forms of expressions, from the loosest to the tightest. -/
inductive Form where
  | assignment
  /-- Operands joined by the operators of a level. -/
  | chain (l : Level)
  | conditional
  | prefixed
  | called
  | primary

/-- The form of the operands of a level. -/
def operand : Level → Form
  | .disjunction => .chain .conjunction
  | .conjunction => .conditional
  | .equality => .chain .comparison
  | .comparison => .chain .sum
  | .sum => .chain .product
  | .product => .prefixed

/-- The operators whose operands are both evaluated, with their levels. -/
def binaryOperators : List (Level × Kind × BinaryOp) :=
  [(.equality, .equalEqual, .equal), (.equality, .bangEqual, .notEqual),
   (.comparison, .less, .less), (.comparison, .lessEqual, .lessEqual),
   (.comparison, .greater, .greater), (.comparison, .greaterEqual, .greaterEqual),
   (.sum, .plus, .add), (.sum, .minus, .subtract),
   (.product, .star, .multiply), (.product, .slash, .divide)]

/-- An operator of a level at a site joins two operands. -/
inductive Joins : Level → Site → Token → (left right joined : Expr) → Prop where
  | or {site : Site} {t : Token} {left right : Expr} (h : t.kind = .orWord) :
    Joins .disjunction site t left right (.logical site .or t left right)
  | and {site : Site} {t : Token} {left right : Expr} (h : t.kind = .andWord) :
    Joins .conjunction site t left right (.logical site .and t left right)
  | binary {l : Level} {op : BinaryOp} {site : Site} {t : Token} {left right : Expr}
    (h : (l, t.kind, op) ∈ binaryOperators) : Joins l site t left right (.binary site op t left right)

/-- The constant that a token stands for. -/
inductive Constant : Token → Literal → Prop where
  | false {t : Token} (h : t.kind = .falseWord) : Constant t (.bool false)
  | true {t : Token} (h : t.kind = .trueWord) : Constant t (.bool true)
  | nil {t : Token} (h : t.kind = .nilWord) : Constant t .nil
  /-- A number or string stands for its literal. -/
  | carried {t : Token} (h : t.kind = .number ∨ t.kind = .string) : Constant t (t.literal.getD .nil)

mutual

/-- The tokens, the first of which stands at the site, are an expression of the form with the
tree. -/
inductive Expression : Form → Site → List Token → Expr → Prop where
  | assign {site : Site} {name sign : Token} {ts : List Token} {value : Expr}
    (hname : name.kind = .identifier) (hsign : sign.kind = .equal)
    (h : Expression .assignment (site + 2) ts value) :
    Expression .assignment site (name :: sign :: ts) (.assign ⟨site, name⟩ value)
  | set {site : Site} {dot name sign : Token} {ts us : List Token} {object value : Expr}
    (h : Expression .called site ts object) (hdot : dot.kind = .dot)
    (hname : name.kind = .identifier) (hsign : sign.kind = .equal)
    (h' : Expression .assignment (site + ts.length + 3) us value) :
    Expression .assignment site (ts ++ dot :: name :: sign :: us)
      (.set (site + ts.length) object name value)
  | unassigned {site : Site} {ts : List Token} {e : Expr}
    (h : Expression (.chain .disjunction) site ts e) : Expression .assignment site ts e
  | joined {l : Level} {site : Site} {t : Token} {ts us : List Token} {left right e : Expr}
    (h : Expression (.chain l) site ts left) (hjoin : Joins l (site + ts.length) t left right e)
    (h' : Expression (operand l) (site + ts.length + 1) us right) :
    Expression (.chain l) site (ts ++ t :: us) e
  | single {l : Level} {site : Site} {ts : List Token} {e : Expr}
    (h : Expression (operand l) site ts e) : Expression (.chain l) site ts e
  | conditional {site : Site} {question colon : Token} {ts us vs : List Token}
    {condition middle right : Expr}
    (h : Expression .conditional site ts condition) (hquestion : question.kind = .question)
    (hmiddle : Expression (.chain .comparison) (site + ts.length + 1) us middle)
    (hcolon : colon.kind = .colon)
    (hright : Expression (.chain .comparison) (site + ts.length + us.length + 2) vs right) :
    Expression .conditional site (ts ++ question :: us ++ colon :: vs)
      (.conditional (site + ts.length) condition question middle colon right)
  | unconditional {site : Site} {ts : List Token} {e : Expr}
    (h : Expression (.chain .equality) site ts e) : Expression .conditional site ts e
  | not {site : Site} {t : Token} {ts : List Token} {e : Expr} (ht : t.kind = .bang)
    (h : Expression .prefixed (site + 1) ts e) :
    Expression .prefixed site (t :: ts) (.unary site .not t e)
  | negate {site : Site} {t : Token} {ts : List Token} {e : Expr} (ht : t.kind = .minus)
    (h : Expression .prefixed (site + 1) ts e) :
    Expression .prefixed site (t :: ts) (.unary site .negate t e)
  | unprefixed {site : Site} {ts : List Token} {e : Expr}
    (h : Expression .called site ts e) : Expression .prefixed site ts e
  | get {site : Site} {dot name : Token} {ts : List Token} {object : Expr}
    (h : Expression .called site ts object) (hdot : dot.kind = .dot)
    (hname : name.kind = .identifier) :
    Expression .called site (ts ++ [dot, name]) (.get (site + ts.length) object name)
  | call {site : Site} {opening closing : Token} {ts us : List Token} {callee : Expr}
    {arguments : List Expr}
    (h : Expression .called site ts callee) (hopening : opening.kind = .leftParen)
    (h' : Arguments (site + ts.length + 1) us arguments) (hmax : arguments.length ≤ 255)
    (hclosing : closing.kind = .rightParen) :
    Expression .called site (ts ++ opening :: us ++ [closing])
      (.call (site + ts.length) callee closing arguments)
  | uncalled {site : Site} {ts : List Token} {e : Expr}
    (h : Expression .primary site ts e) : Expression .called site ts e
  | constant {site : Site} {t : Token} {value : Literal} (h : Constant t value) :
    Expression .primary site [t] (.literal site value)
  | named {site : Site} {t : Token} (h : t.kind = .identifier) :
    Expression .primary site [t] (.variable ⟨site, t⟩)
  | this {site : Site} {t : Token} (h : t.kind = .thisWord) :
    Expression .primary site [t] (.this ⟨site, t⟩)
  | super {site : Site} {t dot method : Token} (h : t.kind = .superWord) (hdot : dot.kind = .dot)
    (hmethod : method.kind = .identifier) :
    Expression .primary site [t, dot, method] (.super ⟨site, t⟩ method)
  | grouping {site : Site} {opening closing : Token} {ts : List Token} {inner : Expr}
    (hopening : opening.kind = .leftParen) (h : Expression .assignment (site + 1) ts inner)
    (hclosing : closing.kind = .rightParen) :
    Expression .primary site (opening :: ts ++ [closing]) (.grouping site inner)

/-- The tokens are expressions with commas between them, or nothing. -/
inductive Arguments : Site → List Token → List Expr → Prop where
  | none {site : Site} : Arguments site [] []
  | one {site : Site} {ts : List Token} {e : Expr} (h : Expression .assignment site ts e) :
    Arguments site ts [e]
  | more {site : Site} {comma : Token} {ts us : List Token} {e : Expr} {es : List Expr}
    (h : Expression .assignment site ts e) (hcomma : comma.kind = .comma)
    (h' : Arguments (site + ts.length + 1) us es) (hes : es ≠ []) :
    Arguments site (ts ++ comma :: us) (e :: es)

end

/-- An expression that may be absent, and the token of a kind that ends it. -/
inductive Optional (closing : Kind) : Site → List Token → Option Expr → Prop where
  | absent {site : Site} {t : Token} (h : t.kind = closing) : Optional closing site [t] none
  | present {site : Site} {t : Token} {ts : List Token} {e : Expr}
    (h : Expression .assignment site ts e) (ht : t.kind = closing) :
    Optional closing site (ts ++ [t]) (some e)

/-- A variable declaration after its keyword. -/
inductive Variable : Site → List Token → Stmt → Prop where
  | plain {site : Site} {name ending : Token} (hname : name.kind = .identifier)
    (hending : ending.kind = .semicolon) : Variable site [name, ending] (.variable name none)
  | initialized {site : Site} {name sign ending : Token} {ts : List Token} {e : Expr}
    (hname : name.kind = .identifier) (hsign : sign.kind = .equal)
    (h : Expression .assignment (site + 2) ts e) (hending : ending.kind = .semicolon) :
    Variable site (name :: sign :: ts ++ [ending]) (.variable name (some e))

/-- The initializer of a `for` loop with its semicolon. -/
inductive Initializer : Site → List Token → Option Stmt → Prop where
  | absent {site : Site} {t : Token} (h : t.kind = .semicolon) : Initializer site [t] none
  | declared {site : Site} {keyword : Token} {ts : List Token} {s : Stmt}
    (hkeyword : keyword.kind = .varWord) (h : Variable (site + 1) ts s) :
    Initializer site (keyword :: ts) (some s)
  | expression {site : Site} {ending : Token} {ts : List Token} {e : Expr}
    (h : Expression .assignment site ts e) (hending : ending.kind = .semicolon) :
    Initializer site (ts ++ [ending]) (some (.expression e))

/-- Names with commas between them, or nothing. -/
inductive Parameters : List Token → (names : List Token) → Prop where
  | none : Parameters [] []
  | one {name : Token} (h : name.kind = .identifier) : Parameters [name] [name]
  | more {name comma : Token} {ts names : List Token} (h : name.kind = .identifier)
    (hcomma : comma.kind = .comma) (h' : Parameters ts names) (hnames : names ≠ []) :
    Parameters (name :: comma :: ts) (name :: names)

/-- The superclass of a class declaration, if it names one. -/
inductive Superclass : Site → List Token → Option Reference → Prop where
  | absent {site : Site} : Superclass site [] none
  | named {site : Site} {sign name : Token} (hsign : sign.kind = .less)
    (hname : name.kind = .identifier) : Superclass site [sign, name] (some ⟨site + 1, name⟩)

mutual

/-- The tokens are a statement with the tree; the flag says whether it ends in an `if` that has no
`else`. -/
inductive Statement : (dangling : Bool) → Site → List Token → Stmt → Prop where
  | expression {site : Site} {ending : Token} {ts : List Token} {e : Expr}
    (h : Expression .assignment site ts e) (hending : ending.kind = .semicolon) :
    Statement false site (ts ++ [ending]) (.expression e)
  | print {site : Site} {keyword ending : Token} {ts : List Token} {e : Expr}
    (hkeyword : keyword.kind = .printWord) (h : Expression .assignment (site + 1) ts e)
    (hending : ending.kind = .semicolon) :
    Statement false site (keyword :: ts ++ [ending]) (.print e)
  | returns {site : Site} {keyword : Token} {ts : List Token} {value : Option Expr}
    (hkeyword : keyword.kind = .returnWord) (h : Optional .semicolon (site + 1) ts value) :
    Statement false site (keyword :: ts) (.returns keyword value)
  | branch {dangling : Bool} {site : Site} {keyword opening closing : Token} {ts us : List Token}
    {condition : Expr} {yes : Stmt} (hkeyword : keyword.kind = .ifWord)
    (hopening : opening.kind = .leftParen) (h : Expression .assignment (site + 2) ts condition)
    (hclosing : closing.kind = .rightParen)
    (hyes : Statement dangling (site + ts.length + 3) us yes) :
    Statement true site (keyword :: opening :: ts ++ closing :: us) (.branch condition yes none)
  | branches {dangling : Bool} {site : Site} {keyword opening closing other : Token}
    {ts us vs : List Token} {condition : Expr} {yes no : Stmt} (hkeyword : keyword.kind = .ifWord)
    (hopening : opening.kind = .leftParen) (h : Expression .assignment (site + 2) ts condition)
    (hclosing : closing.kind = .rightParen)
    (hyes : Statement false (site + ts.length + 3) us yes) (hother : other.kind = .elseWord)
    (hno : Statement dangling (site + ts.length + us.length + 4) vs no) :
    Statement dangling site (keyword :: opening :: ts ++ closing :: us ++ other :: vs)
      (.branch condition yes (some no))
  | loop {dangling : Bool} {site : Site} {keyword opening closing : Token} {ts us : List Token}
    {condition : Expr} {body : Stmt} (hkeyword : keyword.kind = .whileWord)
    (hopening : opening.kind = .leftParen) (h : Expression .assignment (site + 2) ts condition)
    (hclosing : closing.kind = .rightParen)
    (hbody : Statement dangling (site + ts.length + 3) us body) :
    Statement dangling site (keyword :: opening :: ts ++ closing :: us) (.loop condition body)
  /-- The initializer stands in a scope of its own, and the increment runs after the body. -/
  | forLoop {dangling : Bool} {site : Site} {keyword opening : Token} {ts us vs ws : List Token}
    {initializer : Option Stmt} {condition increment : Option Expr} {body : Stmt}
    (hkeyword : keyword.kind = .forWord) (hopening : opening.kind = .leftParen)
    (hinitializer : Initializer (site + 2) ts initializer)
    (hcondition : Optional .semicolon (site + ts.length + 2) us condition)
    (hincrement : Optional .rightParen (site + ts.length + us.length + 2) vs increment)
    (hbody : Statement dangling (site + ts.length + us.length + vs.length + 2) ws body) :
    Statement dangling site (keyword :: opening :: ts ++ us ++ vs ++ ws)
      (.block (initializer.toList ++
        [.loop (condition.getD (.literal site (.bool true)))
          (.block (body :: (increment.map .expression).toList))]))
  | block {site : Site} {opening closing : Token} {ts : List Token} {body : List Stmt}
    (hopening : opening.kind = .leftBrace) (h : Declarations (site + 1) ts body)
    (hclosing : closing.kind = .rightBrace) :
    Statement false site (opening :: ts ++ [closing]) (.block body)

/-- The tokens are a class, a function, a variable or a statement. -/
inductive Declaration : Site → List Token → Stmt → Prop where
  | classOf {site : Site} {keyword name opening closing : Token} {ts us : List Token}
    {superclass : Option Reference} {methods : List Routine}
    (hkeyword : keyword.kind = .classWord) (hname : name.kind = .identifier)
    (hsuperclass : Superclass (site + 2) ts superclass) (hopening : opening.kind = .leftBrace)
    (h : Methods (site + ts.length + 3) us methods) (hclosing : closing.kind = .rightBrace) :
    Declaration site (keyword :: name :: ts ++ opening :: us ++ [closing])
      (.classOf name superclass methods)
  | routine {site : Site} {keyword : Token} {ts : List Token} {r : Routine}
    (hkeyword : keyword.kind = .funWord) (h : Function (site + 1) ts r) :
    Declaration site (keyword :: ts) (.routine r)
  | declared {site : Site} {keyword : Token} {ts : List Token} {s : Stmt}
    (hkeyword : keyword.kind = .varWord) (h : Variable (site + 1) ts s) :
    Declaration site (keyword :: ts) s
  | statement {dangling : Bool} {site : Site} {ts : List Token} {s : Stmt}
    (h : Statement dangling site ts s) : Declaration site ts s

/-- The tokens are declarations one after the other. -/
inductive Declarations : Site → List Token → List Stmt → Prop where
  | nil {site : Site} : Declarations site [] []
  | cons {site : Site} {ts us : List Token} {s : Stmt} {rest : List Stmt}
    (h : Declaration site ts s) (h' : Declarations (site + ts.length) us rest) :
    Declarations site (ts ++ us) (s :: rest)

/-- The tokens are a function or method from its name on. -/
inductive Function : Site → List Token → Routine → Prop where
  | mk {site : Site} {name opening closing brace ending : Token} {ts us params : List Token}
    {body : List Stmt} (hname : name.kind = .identifier) (hopening : opening.kind = .leftParen)
    (hparams : Parameters ts params) (hmax : params.length ≤ 255)
    (hclosing : closing.kind = .rightParen) (hbrace : brace.kind = .leftBrace)
    (h : Declarations (site + ts.length + 4) us body) (hending : ending.kind = .rightBrace) :
    Function site (name :: opening :: ts ++ closing :: brace :: us ++ [ending]) (.mk name params body)

/-- The tokens are methods one after the other. -/
inductive Methods : Site → List Token → List Routine → Prop where
  | none {site : Site} : Methods site [] []
  | more {site : Site} {ts us : List Token} {r : Routine} {rest : List Routine}
    (h : Function site ts r) (h' : Methods (site + ts.length) us rest) :
    Methods site (ts ++ us) (r :: rest)

end

theorem Expression.of_called {site : Site} {ts : List Token} {e : Expr}
    (h : Expression .called site ts e) : Expression .assignment site ts e :=
  .unassigned (.single (.single (.unconditional (.single (.single (.single (.single (.unprefixed h))))))))

theorem Expression.of_primary {site : Site} {ts : List Token} {e : Expr}
    (h : Expression .primary site ts e) : Expression .assignment site ts e :=
  .of_called (.uncalled h)

end Lox.Grammar
