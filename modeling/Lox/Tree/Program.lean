import Lox.Token.Scan
import Lox.Tree.Expression

/-!
# Reading programs

The grammar of declarations and statements. A declaration that fails is dropped, and reading resumes
at the next statement, so one reading reports the errors of many statements. A `for` loop becomes a
block with a plain loop (`Stmt.forLoop`).

`Reading.ofSource` scans and reads a source. Since reading looks one token ahead, a syntax error is
reported after the lexical errors that stand before the token current at that moment.
-/

namespace Lox

/-- An expression in parentheses after a keyword. -/
def readCondition (keyword : String) (c : Cursor) : Parsed Expr c.remaining :=
  (c.expect .leftParen (.conditionOpening keyword)).andThen fun _ c₁ h₁ =>
    ((Expr.read c₁).weaken (Cursor.le_of_shorter h₁)).andThen fun condition c₂ h₂ =>
      ((c₂.expect .rightParen .conditionClosing).weaken (Cursor.le_of_shorter h₂)).map
        fun _ => condition

/-- An expression ended by a semicolon. -/
def readEnded (what : Expected) (c : Cursor) : Parsed Expr c.remaining :=
  (Expr.read c).andThen fun e c₁ h₁ =>
    ((c₁.expect .semicolon what).weaken (Cursor.le_of_shorter h₁)).map fun _ => e

/-- A variable declaration, after its keyword. -/
def readVariable (c : Cursor) : Parsed Stmt c.remaining :=
  (c.expect .identifier .variableName).andThen fun name c₁ h₁ =>
    match c₁.accept? .equal with
    | none =>
      ((c₁.expect .semicolon .declarationEnd).weaken (Cursor.le_of_shorter h₁)).map
        fun _ => .variable name none
    | some ⟨_, c₂, h₂⟩ =>
      ((readEnded .declarationEnd c₂).weaken (Cursor.le_of_shorter_twice h₂ h₁)).map
        fun e => .variable name (some e)

/-- One or more parameters, after some number of others. -/
def readParameterList (before : Nat) (c : Cursor) : Parsed (List Token) c.remaining :=
  ((c.noteIf (maxArguments ≤ before) .tooManyParameters).expect .identifier .parameterName).andThen
    fun name c₁ h₁ =>
      have h₁ : c₁.remaining < c.remaining := h₁
      match c₁.accept? .comma with
      | none => .done [name] c₁ h₁
      | some ⟨_, c₂, h₂⟩ =>
        ((readParameterList (before + 1) c₂).weaken (Cursor.le_of_shorter_twice h₂ h₁)).map (name :: ·)
termination_by c.remaining

/-- The parameters of a routine, up to the parenthesis that closes them. -/
def readParameters (c : Cursor) : Parsed (List Token) (c.remaining + 1) :=
  if c.sees .rightParen then .done [] c c.remaining_lt_succ
  else (readParameterList 0 c).weaken c.remaining_le_succ

/-- The superclass of a class declaration, if it names one. -/
def readSuperclass (c : Cursor) : Parsed (Option Reference) (c.remaining + 1) :=
  match c.accept? .less with
  | none => .done none c c.remaining_lt_succ
  | some ⟨_, c₁, h₁⟩ =>
    ((c₁.expect .identifier .superclassName).weaken (Cursor.le_succ_of_shorter h₁)).map
      fun name => some ⟨c₁.site, name⟩

/-- The initializer of a `for` loop, with its semicolon. -/
def readInitializer (c : Cursor) : Parsed (Option Stmt) c.remaining :=
  match c.accept? .semicolon with
  | some ⟨_, c₁, h₁⟩ => .done none c₁ h₁
  | none =>
    match c.accept? .varWord with
    | some ⟨_, c₁, h₁⟩ => ((readVariable c₁).weaken (Cursor.le_of_shorter h₁)).map some
    | none => (readEnded .expressionEnd c).map fun e => some (.expression e)

/-- An expression that may be absent, and the token that ends it. -/
def readOptional (closing : Kind) (what : Expected) (c : Cursor) : Parsed (Option Expr) c.remaining :=
  match c.accept? closing with
  | some ⟨_, c₁, h₁⟩ => .done none c₁ h₁
  | none =>
    (Expr.read c).andThen fun e c₁ h₁ =>
      ((c₁.expect closing what).weaken (Cursor.le_of_shorter h₁)).map fun _ => some e

namespace Stmt

mutual

/-- A declaration or statement. One that fails gives nothing, and the cursor moves on to the next
statement; either way at least one token is used up. -/
def readDeclaration (c : Cursor) (h : 0 < c.remaining) : Taken (Option Stmt) c.remaining :=
  match readDeclared c with
  | .done s next shorter => ⟨some s, next, shorter⟩
  | .failed next within =>
    ⟨none, next.synchronize, by have := next.remaining_synchronize_le; omega⟩
termination_by c.remaining * 8 + 2

/-- A class, a function, a variable or a statement. -/
def readDeclared (c : Cursor) : Parsed Stmt c.remaining :=
  match c.acceptBy? some with
  | none => read c
  | some ⟨t, c₁, h₁⟩ =>
    match t.kind with
    | .classWord => (readClass c₁).weaken (Cursor.le_of_shorter h₁)
    | .funWord => ((readRoutine .function c₁).weaken (Cursor.le_of_shorter h₁)).map .routine
    | .varWord => (readVariable c₁).weaken (Cursor.le_of_shorter h₁)
    | _ => read c
termination_by c.remaining * 8 + 1

/-- A class declaration, after its keyword. -/
def readClass (c : Cursor) : Parsed Stmt c.remaining :=
  (c.expect .identifier .className).andThen fun name c₁ h₁ =>
    ((readSuperclass c₁).weaken h₁).andThen fun superclass c₂ h₂ =>
      ((c₂.expect .leftBrace .classOpening).weaken (Cursor.le_of_shorter h₂)).andThen fun _ c₃ h₃ =>
        ((readMethods c₃).weaken h₃).andThen fun methods c₄ h₄ =>
          ((c₄.expect .rightBrace .classClosing).weaken (Cursor.le_of_shorter h₄)).map
            fun _ => .classOf name superclass methods
termination_by c.remaining * 8

/-- The methods of a class, up to the brace that closes it. -/
def readMethods (c : Cursor) : Parsed (List Routine) (c.remaining + 1) :=
  if c.atEnd || c.sees .rightBrace then .done [] c c.remaining_lt_succ
  else
    Parsed.weaken (m := c.remaining)
      ((readRoutine .method c).andThen fun method c₁ h₁ =>
        ((readMethods c₁).weaken h₁).map (method :: ·))
      c.remaining_le_succ
termination_by c.remaining * 8 + 1

/-- A function or method, from its name on. -/
def readRoutine (sort : RoutineSort) (c : Cursor) : Parsed Routine c.remaining :=
  (c.expect .identifier (.routineName sort)).andThen fun name c₁ h₁ =>
    ((c₁.expect .leftParen (.parametersOpening sort)).weaken (Cursor.le_of_shorter h₁)).andThen
      fun _ c₂ h₂ =>
        ((readParameters c₂).weaken h₂).andThen fun params c₃ h₃ =>
          ((c₃.expect .rightParen .parametersClosing).weaken (Cursor.le_of_shorter h₃)).andThen
            fun _ c₄ h₄ =>
              ((c₄.expect .leftBrace (.bodyOpening sort)).weaken (Cursor.le_of_shorter h₄)).andThen
                fun _ c₅ h₅ => ((readBlock c₅).weaken (Cursor.le_of_shorter h₅)).map (.mk name params)
termination_by c.remaining * 8

/-- The statements of a block and the brace that closes it, after the brace that opens it. -/
def readBlock (c : Cursor) : Parsed (List Stmt) c.remaining :=
  match readBody c with
  | ⟨body, c₁, h₁⟩ =>
    ((c₁.expect .rightBrace .blockClosing).weaken (Cursor.le_of_within h₁)).map fun _ => body
termination_by c.remaining * 8 + 4

/-- The declarations up to a closing brace or the end of the source. -/
def readBody (c : Cursor) : Taken (List Stmt) (c.remaining + 1) :=
  if h : c.atEnd || c.sees .rightBrace then ⟨[], c, c.remaining_lt_succ⟩
  else
    match readDeclaration c (Cursor.remaining_pos (by simp_all)) with
    | ⟨s, c₁, h₁⟩ =>
      match readBody c₁ with
      | ⟨rest, c₂, h₂⟩ => ⟨s.toList ++ rest, c₂, by omega⟩
termination_by c.remaining * 8 + 3

def read (c : Cursor) : Parsed Stmt c.remaining :=
  match c.acceptBy? some with
  | none => (readEnded .expressionEnd c).map .expression
  | some ⟨t, c₁, h₁⟩ =>
    match t.kind with
    | .printWord => ((readEnded .printEnd c₁).weaken (Cursor.le_of_shorter h₁)).map .print
    | .returnWord =>
      ((readOptional .semicolon .returnEnd c₁).weaken (Cursor.le_of_shorter h₁)).map (.returns t)
    | .ifWord =>
      ((readCondition "if" c₁).weaken (Cursor.le_of_shorter h₁)).andThen fun condition c₂ h₂ =>
        ((read c₂).weaken (Cursor.le_of_shorter h₂)).andThen fun yes c₃ h₃ =>
          match c₃.accept? .elseWord with
          | none => .done (.branch condition yes none) c₃ h₃
          | some ⟨_, c₄, h₄⟩ =>
            ((read c₄).weaken (Cursor.le_of_shorter_twice h₄ h₃)).map
              fun no => .branch condition yes (some no)
    | .whileWord =>
      ((readCondition "while" c₁).weaken (Cursor.le_of_shorter h₁)).andThen fun condition c₂ h₂ =>
        ((read c₂).weaken (Cursor.le_of_shorter h₂)).map (.loop condition)
    | .forWord =>
      ((c₁.expect .leftParen (.conditionOpening "for")).weaken (Cursor.le_of_shorter h₁)).andThen
        fun _ c₂ h₂ =>
          ((readInitializer c₂).weaken (Cursor.le_of_shorter h₂)).andThen fun initializer c₃ h₃ =>
            ((readOptional .semicolon .loopConditionEnd c₃).weaken (Cursor.le_of_shorter h₃)).andThen
              fun condition c₄ h₄ =>
                ((readOptional .rightParen .loopClosing c₄).weaken (Cursor.le_of_shorter h₄)).andThen
                  fun increment c₅ h₅ =>
                    ((read c₅).weaken (Cursor.le_of_shorter h₅)).map
                      (.forLoop c.site initializer condition increment)
    | .leftBrace => ((readBlock c₁).weaken (Cursor.le_of_shorter h₁)).map .block
    | _ => (readEnded .expressionEnd c).map .expression
termination_by c.remaining * 8

end

/-- The declarations up to the end of the source. -/
def readAll (c : Cursor) : List Stmt × Cursor :=
  if h : c.remaining = 0 then ([], c)
  else
    match readDeclaration c (by omega) with
    | ⟨s, c₁, _⟩ =>
      let (rest, last) := readAll c₁
      (s.toList ++ rest, last)
termination_by c.remaining

end Stmt

/-- Reads the tokens of a source that ends on a line; the first token stands at a site. -/
def readTokens (site : Site) (tokens : List Token) (endLine : Nat) : List Stmt × Cursor :=
  Stmt.readAll { ahead := tokens, site, endLine, noticed := [] }

/-- A source read into a program. -/
structure Reading where
  program : Program
  /-- The lexical and syntax errors, in the order of report. -/
  errors : List StaticError
  /-- The site after the last token. -/
  nextSite : Site

namespace Reading

/-- Lexical errors and syntax errors in the order of report: by site, and lexical errors first. -/
def merge (lexical : List (Site × StaticError)) : List Noticed → List StaticError
  | [] => lexical.map (·.2)
  | n :: grammar => (lexical.takeWhile (·.1 ≤ n.site)).map (·.2) ++
      n.error :: merge (lexical.dropWhile (·.1 ≤ n.site)) grammar

/-- The lexical errors that are found until the token at a site is current. -/
def found (site last : Site) (scan : Scan) : List (Site × StaticError) :=
  (Scan.errorsWithPosition site scan.findings).filter (·.1 ≤ last)

/-- Reads a source whose first token stands at a site. It is scanned as far as reading comes. -/
def ofSource (site : Site) (source : Text) : Reading :=
  let scan := Scan.ofSource source
  let (program, last) := readTokens site scan.tokens scan.endLine
  { program
    errors := merge (found site last.site scan) last.noticed.reverse
    nextSite := last.site }

end Reading

end Lox
