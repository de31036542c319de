import Lox.Proofs.Shapes
import Lox.Proofs.Spelling

/-!
# The shapes of trees

A printed tree is a shape laid out in lines. `Expr.shape` and `Stmt.shape` say which one. An expression
is printed as its shape on one line (`Expr.text_shape`), and the lines of a statement hold its shape
(`Stmt.inscribed_lines`), if the tree is spelled: its names, numbers and operators are then words.
-/

namespace Lox

/-! ## Words -/

theorem isBare_iff {b : UInt8} : isBare b = true ↔ b ∉ text " \n()\"" := by
  have hbytes : text " \n()\"" = [32, 10, 40, 41, 34] := by decide
  rw [hbytes, isBare, beq_iff_eq, Lead.ofByte]
  grind

theorem isBare_of_isWordByte {b : UInt8} (h : Chunk.isWordByte b = true) : isBare b = true := by
  rw [isBare_iff]
  intro hmem
  have hall : (text " \n()\"").all (fun c => !Chunk.isWordByte c) = true := by decide
  have key : ∀ c ∈ text " \n()\"", Chunk.isWordByte c = false := fun c hc =>
    Bool.not_inj (List.all_eq_true.1 hall c hc)
  rw [key b hmem] at h
  cases h

theorem Word.bare {t : Text} (h : Word t) : Bare t := by
  cases h with
  | mk h h' =>
    refine ⟨by simp, fun c hc => isBare_of_isWordByte ?_⟩
    rcases List.mem_cons.1 hc with rfl | hc
    · rw [Chunk.isWordByte, h, Bool.true_or]
    · exact h' c hc

theorem Digits.bare {t : Text} (h : Digits t) : Bare t :=
  ⟨h.1, fun b hb => isBare_of_isWordByte (by rw [Chunk.isWordByte, h.2 b hb, Bool.or_true])⟩

theorem Bare.append {t u : Text} (h : Bare t) (hu : Bare u) : Bare (t ++ u) := by
  refine ⟨by simp [h.1], fun b hb => ?_⟩
  rcases List.mem_append.1 hb with hb | hb
  · exact h.2 b hb
  · exact hu.2 b hb

theorem Numeral.bare {whole fraction t : Text} (h : Numeral whole fraction t) : Bare t := by
  cases h with
  | whole h => exact h.bare
  | point h h' =>
    have hpoint : Bare [46] := Bare.of_all (by decide)
    exact h.bare.append (hpoint.append h'.bare)

theorem Token.Is.bare {t : Token} (h : t.Is .identifier) : Bare t.lexeme := (h.2.1.word h.1).1.bare

/-! ## The shapes of trees -/

/-- The shape of a constant. -/
def Literal.shape : Literal → Shape
  | .string s => .quotation s
  | value => .word value.toText

/-- The word of a text. -/
def Shape.named (s : String) : Shape := .word (Lox.text s)

namespace Expr

mutual

/-- The shape of an expression. -/
def shape : Expr → Shape
  | .literal _ value => value.shape
  | .grouping _ inner => .list [.named "group", shape inner]
  | .variable ref => .word ref.name
  | .assign target value => .list [.named "=", .word target.name, shape value]
  | .this _ => .named "this"
  | .super _ method => .word (text "super." ++ method.lexeme)
  | .unary _ _ sign operand => .list [.word sign.lexeme, shape operand]
  | .binary _ _ sign left right => .list [.word sign.lexeme, shape left, shape right]
  | .logical _ _ sign left right => .list [.word sign.lexeme, shape left, shape right]
  | .conditional _ condition _ middle _ right =>
    .list [.named "?:", shape condition, shape middle, shape right]
  | .call _ callee _ arguments => .list (.named "call" :: shape callee :: shapes arguments)
  | .get _ object name => .list [.named "get", shape object, .word name.lexeme]
  | .set _ object name value => .list [.named "set", shape object, .word name.lexeme, shape value]

def shapes : List Expr → List Shape
  | [] => []
  | e :: rest => shape e :: shapes rest

end

end Expr

mutual

/-- The shape of a statement. -/
def Stmt.shape : Stmt → Shape
  | .expression e => .list [.named "expr", e.shape]
  | .print e => .list [.named "print", e.shape]
  | .returns _ none => .list [.named "return"]
  | .returns _ (some e) => .list [.named "return", e.shape]
  | .branch condition yes none => .list [.named "if", condition.shape, yes.shape]
  | .branch condition yes (some no) =>
    .list [.named "if", condition.shape, yes.shape, .list [.named "else", no.shape]]
  | .loop condition body => .list [.named "while", condition.shape, body.shape]
  | .block body => .list (.named "block" :: Stmt.shapes body)
  | .variable name none => .list [.named "var", .word name.lexeme]
  | .variable name (some e) => .list [.named "var", .word name.lexeme, e.shape]
  | .routine r => r.shape
  | .classOf name none methods =>
    .list (.named "class" :: .word name.lexeme :: Routine.shapes methods)
  | .classOf name (some superclass) methods =>
    .list (.named "class" :: .word name.lexeme :: .named "<" :: .word superclass.name ::
      Routine.shapes methods)

def Routine.shape : Routine → Shape
  | .mk name params body =>
    .list (.named "fun" :: .word name.lexeme :: .list (params.map fun p => .word p.lexeme) ::
      Stmt.shapes body)

def Stmt.shapes : List Stmt → List Shape
  | [] => []
  | s :: rest => s.shape :: Stmt.shapes rest

def Routine.shapes : List Routine → List Shape
  | [] => []
  | r :: rest => r.shape :: Routine.shapes rest

end

/-! ## Printing lays out the shape -/

theorem Literal.text_shape (value : Literal) : value.shape.text = value.printed := by
  cases value with
  | string | nil | number => rfl
  | bool b => cases b <;> rfl

/-- An expression is printed as its shape on one line. -/
theorem Expr.text_shape (e : Expr) : e.shape.text = e.printed := by
  induction e using @Expr.rec _ (fun es => Shape.texts (Expr.shapes es) = Expr.printedAll es) with
  | literal _ value => exact value.text_shape
  | «variable» | this | super => rfl
  | grouping _ _ ih | assign _ _ ih | unary _ _ _ _ ih | get _ _ _ ih =>
    simp only [shape, Shape.text, Shape.texts, printed, ih, Shape.named]
  | binary _ _ _ _ _ ih ih' | logical _ _ _ _ _ ih ih' | set _ _ _ _ ih ih' | call _ _ _ _ ih ih' =>
    simp only [shape, Shape.text, Shape.texts, printed, ih, ih', Shape.named]
  | conditional _ _ _ _ _ _ ih ihmiddle ihright =>
    simp only [shape, Shape.text, Shape.texts, printed, ih, ihmiddle, ihright, Shape.named]
  | nil => rfl
  | cons _ _ ih ih' => simp only [shapes, Shape.texts, printedAll, ih, ih']

theorem Literal.proper_shape {value : Literal} (h : value.Spelled) : value.shape.Proper := by
  cases value with
  | nil => exact Bare.of_all (by decide)
  | bool b => cases b <;> exact Bare.of_all (by decide)
  | number x =>
    obtain ⟨_, _, hnumeral, -⟩ := Number.exists_numeral h
    exact hnumeral.bare
  | string => trivial

/-- The kinds of the signs of operators. -/
def Kind.signs : List Kind :=
  [.bang, .minus, .plus, .star, .slash, .equalEqual, .bangEqual, .less, .lessEqual, .greater,
   .greaterEqual, .andWord, .orWord]

theorem UnaryOp.kind_mem (op : UnaryOp) : op.kind ∈ Kind.signs := by cases op <;> decide

theorem BinaryOp.kind_mem (op : BinaryOp) : op.kind ∈ Kind.signs := by cases op <;> decide

theorem LogicalOp.kind_mem (op : LogicalOp) : op.kind ∈ Kind.signs := by cases op <;> decide

theorem Token.Is.sign {t : Token} {k : Kind} (h : t.Is k) (hk : k ∈ Kind.signs) :
    t.lexeme = k.spelling ∧ Bare t.lexeme := by
  have hopen : ∀ k ∈ Kind.signs, k ∉ [.string, .number, .identifier] := by decide
  have hbare : ∀ k ∈ Kind.signs, k.spelling ≠ [] ∧ ∀ b ∈ k.spelling, isBare b = true := by
    decide +kernel
  have hlexeme := h.lexeme_eq (hopen k hk)
  exact ⟨hlexeme, hlexeme ▸ hbare k hk⟩

/-- The words in the shape of a spelled expression are words. -/
theorem Expr.Spelled.proper_shape {e : Expr} (h : e.Spelled) : e.shape.Proper := by
  induction e using @Expr.rec _ (fun es => Expr.SpelledAll es → Shape.ProperAll (Expr.shapes es)) with
  | literal _ value => exact Literal.proper_shape h
  | «variable» ref => exact h.bare
  | this => exact Bare.of_all (by decide)
  | super ref method =>
    have hdot : Bare (text "super.") := Bare.of_all (by decide)
    exact hdot.append h.2.bare
  | grouping _ _ ih => exact ⟨Bare.of_all (by decide), ih h, trivial⟩
  | assign _ _ ih => exact ⟨Bare.of_all (by decide), h.1.bare, ih h.2, trivial⟩
  | unary _ op sign _ ih =>
    have hsign := (h.1.sign op.kind_mem).2
    exact ⟨hsign, ih h.2, trivial⟩
  | binary _ op sign _ _ ih ih' | logical _ op sign _ _ ih ih' =>
    have hsign := (h.1.sign op.kind_mem).2
    exact ⟨hsign, ih h.2.1, ih' h.2.2, trivial⟩
  | conditional _ _ _ _ _ _ ih ihmiddle ihright =>
    obtain ⟨-, -, hcondition, hmiddle, hright⟩ := h
    exact ⟨Bare.of_all (by decide), ih hcondition, ihmiddle hmiddle, ihright hright, trivial⟩
  | call _ _ _ _ ih ih' => exact ⟨Bare.of_all (by decide), ih h.2.1, ih' h.2.2⟩
  | get _ _ _ ih => exact ⟨Bare.of_all (by decide), ih h.2, h.1.bare, trivial⟩
  | set _ _ _ _ ih ih' =>
    exact ⟨Bare.of_all (by decide), ih h.2.1, h.1.bare, ih' h.2.2, trivial⟩
  | nil => trivial
  | cons _ _ ih ih' h => exact ⟨ih h.1, ih' h.2⟩

/-- A list laid out in lines, by the text of its first line. -/
theorem Shape.inscribed_below {header : Text} {first rest : List Shape} {body : List Text}
    (hheader : header = 40 :: Text.join [32] (texts first)) (h : ProperAll first)
    (h' : InscribedLines (glyphsAll rest) body) :
    InscribedLines (glyphs (.list (first ++ rest))) (Text.nested header body) :=
  hheader ▸ inscribedLines_nested h h'

section

variable {e : Expr} (h : e.Spelled) {w : String} (hw : Bare (text w)) {header : String}
  (hheader : text header = 40 :: (text w ++ [32]))

include h hw hheader

/-- A list that starts with a word and an expression, laid out in lines. -/
theorem Expr.Spelled.inscribed_headed {rest : List Shape}
    {body : List Text} (h' : InscribedLines (Shape.glyphsAll rest) body) :
    InscribedLines (Shape.glyphs (.list (.named w :: e.shape :: rest)))
      (Text.nested (Expr.headed header e) body) := by
  refine @Shape.inscribed_below _ [.named w, e.shape] rest body ?_ ⟨hw, h.proper_shape, trivial⟩ h'
  rw [Expr.headed, hheader, ← e.text_shape]
  rfl

theorem Expr.Spelled.inscribed_line :
    InscribedLines (Shape.glyphs (.list [.named w, e.shape])) [Expr.headed header e ++ [41]] :=
  @inscribed_headed e h w hw header hheader [] [] .nil

end

theorem Shape.texts_words (ts : List Token) : texts (ts.map fun t => .word t.lexeme) = ts.map (·.lexeme) := by
  induction ts with
  | nil => rfl
  | cons t ts ih => rw [List.map_cons, texts, ih, List.map_cons, Shape.text]

theorem Shape.properAll_words {ts : List Token} (h : ∀ t ∈ ts, t.Is .identifier) :
    ProperAll (ts.map fun t => .word t.lexeme) := by
  induction ts with
  | nil => trivial
  | cons t ts ih =>
    rw [List.forall_mem_cons] at h
    exact ⟨h.1.bare, ih h.2⟩

theorem InscribedLines.single {p : Shape} {lines : List Text} (h : InscribedLines p.glyphs lines) :
    InscribedLines (Shape.glyphsAll [p]) lines := by
  rwa [Shape.glyphsAll, Shape.glyphsAll, List.append_nil]

mutual

/-- The lines of a spelled statement hold its shape. -/
theorem Stmt.inscribed_lines : (s : Stmt) → s.Spelled → InscribedLines s.shape.glyphs s.lines
  | .expression _, h | .print _, h => h.inscribed_line (Bare.of_all (by decide)) (by decide)
  | .returns _ none, _ =>
    @Shape.inscribed_below (text "(return") [.named "return"] [] [] (by decide)
      ⟨Bare.of_all (by decide), trivial⟩ .nil
  | .returns _ (some e), h => (h.2 e rfl).inscribed_line (Bare.of_all (by decide)) (by decide)
  | .branch _ body none, h | .loop _ body, h =>
    h.1.inscribed_headed (Bare.of_all (by decide)) (by decide) (Stmt.inscribed_lines body h.2).single
  | .branch _ yes (some no), h => by
    have helse := @Shape.inscribed_below (text "(else") [.named "else"] [no.shape] no.lines (by decide)
      ⟨Bare.of_all (by decide), trivial⟩ (Stmt.inscribed_lines no h.2.2).single
    exact h.1.inscribed_headed (Bare.of_all (by decide)) (by decide)
      ((Stmt.inscribed_lines yes h.2.1).append helse.single)
  | .block body, h =>
    @Shape.inscribed_below _ [.named "block"] _ _ (by decide) ⟨Bare.of_all (by decide), trivial⟩
      (Stmt.inscribed_linesOfAll body h)
  | .variable name none, h =>
    @Shape.inscribed_below _ [.named "var", .word name.lexeme] [] [] rfl
      ⟨Bare.of_all (by decide), h.1.bare, trivial⟩ .nil
  | .variable name (some e), h => by
    have hheader : text "(var " ++ name.lexeme ++ 32 :: e.printed =
        40 :: Text.join [32] (Shape.texts [.named "var", .word name.lexeme, e.shape]) := by
      have hword : text "(var " = 40 :: (text "var" ++ [32]) := by decide
      simp [hword, ← e.text_shape, Text.join, Shape.texts, Shape.text, Shape.named]
    exact @Shape.inscribed_below _ _ [] [] hheader
      ⟨Bare.of_all (by decide), h.1.bare, (h.2 e rfl).proper_shape, trivial⟩ .nil
  | .routine r, h => Routine.inscribed_lines r h
  | .classOf name none methods, h =>
    @Shape.inscribed_below _ [.named "class", .word name.lexeme] _ _ rfl
      ⟨Bare.of_all (by decide), h.1.bare, trivial⟩ (Routine.inscribed_linesOfAll methods h.2.2)
  | .classOf name (some superclass) methods, h => by
    have hheader : text "(class " ++ name.lexeme ++ text " < " ++ superclass.name =
        40 :: Text.join [32] (Shape.texts
          [.named "class", .word name.lexeme, .named "<", .word superclass.name]) := by
      have hword : text "(class " = 40 :: (text "class" ++ [32]) := by decide
      have hless : text " < " = 32 :: (text "<" ++ [32]) := by decide
      simp [hword, hless, Text.join, Shape.texts, Shape.text, Shape.named]
    exact Shape.inscribed_below hheader ⟨Bare.of_all (by decide), h.1.bare,
      Bare.of_all (by decide), (h.2.1 superclass rfl).bare, trivial⟩
      (Routine.inscribed_linesOfAll methods h.2.2)

/-- The lines of a spelled routine hold its shape. -/
theorem Routine.inscribed_lines : (r : Routine) → r.Spelled → InscribedLines r.shape.glyphs r.lines
  | .mk name params body, h => by
    have hheader : text "(fun " ++ name.lexeme ++ text " (" ++
        Text.join [32] (params.map (·.lexeme)) ++ [41] =
        40 :: Text.join [32] (Shape.texts
          [.named "fun", .word name.lexeme, .list (params.map fun p => .word p.lexeme)]) := by
      have hword : text "(fun " = 40 :: (text "fun" ++ [32]) := by decide
      have hopening : text " (" = [32, 40] := by decide
      simp [hword, hopening, Text.join, Text.parens, Shape.texts, Shape.text, Shape.named, Shape.texts_words]
    exact Shape.inscribed_below hheader ⟨Bare.of_all (by decide), h.1.bare,
      Shape.properAll_words h.2.1, trivial⟩ (Stmt.inscribed_linesOfAll body h.2.2)

theorem Stmt.inscribed_linesOfAll : (ss : List Stmt) → Stmt.SpelledAll ss →
    InscribedLines (Shape.glyphsAll (Stmt.shapes ss)) (Stmt.linesOfAll ss)
  | [], _ => .nil
  | s :: ss, h => (Stmt.inscribed_lines s h.1).append (Stmt.inscribed_linesOfAll ss h.2)

theorem Routine.inscribed_linesOfAll : (rs : List Routine) → Routine.SpelledAll rs →
    InscribedLines (Shape.glyphsAll (Routine.shapes rs)) (Routine.linesOfAll rs)
  | [], _ => .nil
  | r :: rs, h => (Routine.inscribed_lines r h.1).append (Routine.inscribed_linesOfAll rs h.2)

end

end Lox
