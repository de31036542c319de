import Lox.Proofs.PrintedShapes

/-!
# Printed trees determine the program

The text of a printed tree determines its shape, and the shape determines the tree, but for the places
of its tokens: the first word of a list says which statement or expression it stands for, and names and
operators are what they are written as. Whatever was printed, the places were not. So two programs, or
two expressions, are printed alike exactly if they are the same tree (`Reading.printed_determines`).
-/

namespace Lox

/-! ## The shape determines the tree -/

/-- The kinds of expressions and statements. -/
inductive Construct where
  | literal | grouping | variable | assign | this | super | unary | binary | logical | conditional
  | call | get | set
  | expression | print | returns | branch | loop | block | declaration | routine | classOf

/-- The kind of an expression. -/
def Expr.construct : Expr → Construct
  | .literal _ _ => .literal
  | .grouping _ _ => .grouping
  | .variable _ => .variable
  | .assign _ _ => .assign
  | .this _ => .this
  | .super _ _ => .super
  | .unary .. => .unary
  | .binary .. => .binary
  | .logical .. => .logical
  | .conditional .. => .conditional
  | .call .. => .call
  | .get .. => .get
  | .set .. => .set

/-- The kind of a statement. -/
def Stmt.construct : Stmt → Construct
  | .expression _ => .expression
  | .print _ => .print
  | .returns _ _ => .returns
  | .branch _ _ _ => .branch
  | .loop _ _ => .loop
  | .block _ => .block
  | .variable _ _ => .declaration
  | .routine _ => .routine
  | .classOf _ _ _ => .classOf

namespace Construct

/-- The kind of expression that a word stands for. -/
def ofWord (w : Text) : Construct :=
  if (w.head?.map Text.isDigit).getD false then .literal
  else if w = text "nil" ∨ w = text "true" ∨ w = text "false" then .literal
  else if w = text "this" then .this
  else if w.contains 46 then .super
  else .variable

/-- The kind of expression that a list stands for, by its first word and the number of its further
parts. A sign with one operand is a prefix. -/
def ofHead (w : Text) (parts : Nat) : Construct :=
  if w = text "group" then .grouping
  else if w = text "=" then .assign
  else if w = text "?:" then .conditional
  else if w = text "call" then .call
  else if w = text "get" then .get
  else if w = text "set" then .set
  else if w = text "or" ∨ w = text "and" then .logical
  else if parts = 1 then .unary
  else .binary

/-- The kind of expression that a shape stands for. -/
def ofShape : Shape → Construct
  | .word w => ofWord w
  | .quotation _ => .literal
  | .list (.word w :: parts) => ofHead w parts.length
  | .list _ => .literal

/-- The kind of statement that a list stands for, by its first word. -/
def ofKeyword (w : Text) : Construct :=
  if w = text "expr" then .expression
  else if w = text "print" then .print
  else if w = text "return" then .returns
  else if w = text "if" then .branch
  else if w = text "while" then .loop
  else if w = text "block" then .block
  else if w = text "var" then .declaration
  else if w = text "fun" then .routine
  else .classOf

/-- The kind of statement that a shape stands for. -/
def ofStatement : Shape → Construct
  | .list (.word w :: _) => ofKeyword w
  | _ => .classOf

theorem ofWord_numeral {whole fraction t : Text} (h : Numeral whole fraction t) : ofWord t = .literal := by
  obtain ⟨a, v, rfl, ha⟩ := h.exists_cons
  simp [ofWord, ha]

/-- The constants and the instance are reserved words, so an identifier is none of them; and no
identifier has a point. -/
theorem ofWord_identifier {w : Text} (h : Word w) (h' : ∀ k, (w, k) ∉ Kind.reserved) :
    ofWord w = .variable := by
  have hdigit : (w.head?.map Text.isDigit).getD false = false := by
    cases h with
    | mk hb => exact Lexeme.isDigit_of_isWordStart hb
  have hpoint : w.contains 46 = false := by
    rw [List.contains_eq_mem, decide_eq_false_iff_not]
    cases h with
    | mk hb htail =>
      intro hmem
      rcases List.mem_cons.1 hmem with rfl | hmem
      · exact absurd hb (by decide)
      · exact absurd (htail _ hmem) (by decide)
  have hreserved {s : String} {k : Kind} (hmem : (text s, k) ∈ Kind.reserved) : w ≠ text s := by
    rintro rfl
    exact h' k hmem
  rw [ofWord, hdigit, hpoint, if_neg (by decide), if_neg, if_neg, if_neg (by decide)]
  · exact hreserved (k := .thisWord) (by decide)
  · rintro (h | h | h)
    · exact hreserved (k := .nilWord) (by decide) h
    · exact hreserved (k := .trueWord) (by decide) h
    · exact hreserved (k := .falseWord) (by decide) h

end Construct

/-- The shape of a spelled expression says of which kind it is. -/
theorem Expr.Spelled.ofShape_shape {e : Expr} (h : e.Spelled) : Construct.ofShape e.shape = e.construct := by
  cases e with
  | literal _ value =>
    cases value with
    | nil | string => rfl
    | bool b => cases b <;> rfl
    | number x =>
      obtain ⟨_, _, hnumeral, -⟩ := Number.exists_numeral h
      exact Construct.ofWord_numeral hnumeral
  | «variable» ref =>
    obtain ⟨hword, hreserved⟩ := h.2.1.word h.1
    exact Construct.ofWord_identifier hword hreserved
  | super ref method =>
    have hcontains : (text "super." ++ method.lexeme).contains 46 = true := by
      rw [List.contains_eq_mem, decide_eq_true_eq]
      exact List.mem_append_left _ (by decide)
    have hlength (w : Text) (hw : w.length < 6) : text "super." ++ method.lexeme ≠ w := by
      intro heq
      have hlengths := congrArg List.length heq
      have hsix : (text "super.").length = 6 := by decide
      rw [List.length_append, hsix] at hlengths
      omega
    have hword : Construct.ofWord (text "super." ++ method.lexeme) = .super := by
      rw [Construct.ofWord, if_neg, if_neg, if_neg (hlength _ (by decide)), if_pos hcontains]
      · rintro (heq | heq | heq) <;> exact hlength _ (by decide) heq
      · exact Bool.false_ne_true
    exact hword
  | unary _ op sign operand =>
    have key : ∀ op : UnaryOp, Construct.ofHead op.kind.spelling 1 = .unary := by
      intro op
      cases op <;> rfl
    exact ((h.1.sign op.kind_mem).1 ▸ key op :)
  | binary _ op sign left right =>
    have key : ∀ op : BinaryOp, Construct.ofHead op.kind.spelling 2 = .binary := by
      intro op
      cases op <;> rfl
    exact ((h.1.sign op.kind_mem).1 ▸ key op :)
  | logical _ op sign left right =>
    have key : ∀ op : LogicalOp, Construct.ofHead op.kind.spelling 2 = .logical := by
      intro op
      cases op <;> rfl
    exact ((h.1.sign op.kind_mem).1 ▸ key op :)
  | this | grouping | assign | conditional | call | get | set => rfl

/-- Spelled constants of one shape are equal. -/
theorem Literal.shape_inj {value value' : Literal} (h : value.Spelled) (h' : value'.Spelled)
    (heq : value.shape = value'.shape) : value = value' := by
  have hnumeral {x : Number} (hx : x.bits.toNat < Number.infinityBits) {w : Text}
      (hw : (w.head?.map Text.isDigit).getD false = false) : x.toText ≠ w := by
    rintro rfl
    obtain ⟨_, _, h, -⟩ := Number.exists_numeral hx
    obtain ⟨a, v, hcons, ha⟩ := h.exists_cons
    rw [hcons, List.head?_cons, Option.map_some, Option.getD_some, ha] at hw
    cases hw
  have hwords := fun {w w' : Text} (h : Shape.word w = .word w') => Shape.word.inj h
  cases value with
  | nil =>
    cases value' with
    | nil => rfl
    | bool b => cases b <;> exact absurd (hwords heq) (by decide)
    | number x => exact absurd (hwords heq).symm (hnumeral h' (by decide))
    | string => cases heq
  | bool b =>
    cases value' with
    | nil => cases b <;> exact absurd (hwords heq) (by decide)
    | bool b' => cases b <;> cases b' <;> first | rfl | exact absurd (hwords heq) (by decide)
    | number x => cases b <;> exact absurd (hwords heq).symm (hnumeral h' (by decide))
    | string => cases heq
  | number x =>
    cases value' with
    | nil => exact absurd (hwords heq) (hnumeral h (by decide))
    | bool b => cases b <;> exact absurd (hwords heq) (hnumeral h (by decide))
    | number y => rw [Number.toText_inj h h' (hwords heq)]
    | string => cases heq
  | string s =>
    cases value' with
    | nil | bool | number => cases heq
    | string s' => rw [Shape.quotation.inj heq]

theorem UnaryOp.kind_inj {op op' : UnaryOp} (h : op.kind = op'.kind) : op = op' := by
  cases op <;> cases op' <;> first | rfl | cases h

theorem BinaryOp.kind_inj {op op' : BinaryOp} (h : op.kind = op'.kind) : op = op' := by
  cases op <;> cases op' <;> first | rfl | cases h

theorem LogicalOp.kind_inj {op op' : LogicalOp} (h : op.kind = op'.kind) : op = op' := by
  cases op <;> cases op' <;> first | rfl | cases h

theorem Token.Is.kind_eq {t t' : Token} {k k' : Kind} (h : t.Is k) (h' : t'.Is k')
    (hlexeme : t.lexeme = t'.lexeme) : k = k' := by
  rw [← h.1, ← h'.1, h.2.written.kind_eq, h'.2.written.kind_eq, hlexeme]

theorem Expr.Spelled.construct_eq {e e' : Expr} (h : e.Spelled) (h' : e'.Spelled)
    (heq : e.shape = e'.shape) : e.construct = e'.construct := by
  rw [← h.ofShape_shape, ← h'.ofShape_shape, heq]

/-- References that are written alike differ by their places only. -/
theorem Reference.bare_eq {r r' : Reference} {k : Kind} (h : r.token.Is k) (h' : r'.token.Is k)
    (hname : r.name = r'.name) : r.bare = r'.bare :=
  congrArg (Reference.mk 0) (h.2.bare_eq h'.2 hname)

/-- Spelled expressions of one shape differ by the places of their tokens only. -/
theorem Expr.shape_inj {e e' : Expr} (h : e.Spelled) (h' : e'.Spelled)
    (heq : e.shape = e'.shape) : e.bare = e'.bare := by
  induction e using @Expr.rec _ (fun es => ∀ es', Expr.SpelledAll es → Expr.SpelledAll es' →
    Expr.shapes es = Expr.shapes es' → Expr.bareAll es = Expr.bareAll es') generalizing e' with
  | literal _ value =>
    cases e' <;> cases h.construct_eq h' heq
    rw [bare, bare, Literal.shape_inj h h' heq]
  | grouping _ inner ih =>
    cases e' <;> cases h.construct_eq h' heq
    simp only [shape, Shape.list.injEq, List.cons.injEq, and_true, true_and] at heq
    exact congrArg (Expr.grouping 0) (ih h h' heq)
  | «variable» ref =>
    cases e' <;> cases h.construct_eq h' heq
    rw [bare, bare, Reference.bare_eq h h' (Shape.word.inj heq)]
  | assign target value ih =>
    cases e' <;> cases h.construct_eq h' heq
    simp only [shape, Shape.list.injEq, List.cons.injEq, and_true, true_and, Shape.word.injEq] at heq
    rw [bare, bare, Reference.bare_eq h.1 h'.1 heq.1, ih h.2 h'.2 heq.2]
  | this ref =>
    cases e' <;> cases h.construct_eq h' heq
    rw [bare, bare, Reference.bare, Reference.bare, h.bare_eq h' (by decide)]
  | super ref method =>
    cases e' <;> cases h.construct_eq h' heq
    have hmethod := List.append_cancel_left (Shape.word.inj heq)
    rw [bare, bare, Reference.bare, Reference.bare, h.1.bare_eq h'.1 (by decide),
      h.2.2.bare_eq h'.2.2 hmethod]
  | unary _ op sign operand ih =>
    cases e' <;> cases h.construct_eq h' heq
    simp only [shape, Shape.list.injEq, List.cons.injEq, and_true, Shape.word.injEq] at heq
    rw [bare, bare, UnaryOp.kind_inj (h.1.kind_eq h'.1 heq.1), h.1.2.bare_eq h'.1.2 heq.1, ih h.2 h'.2 heq.2]
  | binary _ op sign left right ih ih' =>
    cases e' <;> cases h.construct_eq h' heq
    simp only [shape, Shape.list.injEq, List.cons.injEq, and_true, Shape.word.injEq] at heq
    rw [bare, bare, BinaryOp.kind_inj (h.1.kind_eq h'.1 heq.1), h.1.2.bare_eq h'.1.2 heq.1,
      ih h.2.1 h'.2.1 heq.2.1, ih' h.2.2 h'.2.2 heq.2.2]
  | logical _ op sign left right ih ih' =>
    cases e' <;> cases h.construct_eq h' heq
    simp only [shape, Shape.list.injEq, List.cons.injEq, and_true, Shape.word.injEq] at heq
    rw [bare, bare, LogicalOp.kind_inj (h.1.kind_eq h'.1 heq.1), h.1.2.bare_eq h'.1.2 heq.1,
      ih h.2.1 h'.2.1 heq.2.1, ih' h.2.2 h'.2.2 heq.2.2]
  | conditional _ condition question middle colon right ih ihmiddle ihright =>
    cases e' <;> cases h.construct_eq h' heq
    obtain ⟨hquestion, hcolon, hcondition, hmiddle, hright⟩ := h
    obtain ⟨hquestion', hcolon', hcondition', hmiddle', hright'⟩ := h'
    simp only [shape, Shape.list.injEq, List.cons.injEq, and_true, true_and] at heq
    rw [bare, bare, hquestion.bare_eq hquestion' (by decide), hcolon.bare_eq hcolon' (by decide),
      ih hcondition hcondition' heq.1, ihmiddle hmiddle hmiddle' heq.2.1,
      ihright hright hright' heq.2.2]
  | call _ callee paren arguments ih ih' =>
    cases e' <;> cases h.construct_eq h' heq
    simp only [shape, Shape.list.injEq, List.cons.injEq, true_and] at heq
    rw [bare, bare, h.1.bare_eq h'.1 (by decide), ih h.2.1 h'.2.1 heq.1, ih' _ h.2.2 h'.2.2 heq.2]
  | get _ object name ih =>
    cases e' <;> cases h.construct_eq h' heq
    simp only [shape, Shape.list.injEq, List.cons.injEq, and_true, true_and, Shape.word.injEq] at heq
    rw [bare, bare, h.1.2.bare_eq h'.1.2 heq.2, ih h.2 h'.2 heq.1]
  | set _ object name value ih ih' =>
    cases e' <;> cases h.construct_eq h' heq
    simp only [shape, Shape.list.injEq, List.cons.injEq, and_true, true_and, Shape.word.injEq] at heq
    rw [bare, bare, h.1.2.bare_eq h'.1.2 heq.2.1, ih h.2.1 h'.2.1 heq.1, ih' h.2.2 h'.2.2 heq.2.2]
  | nil es' _ _ heq =>
    cases es' with
    | nil => rfl
    | cons => cases heq
  | cons e es ih ih' es' h h' heq =>
    cases es' with
    | nil => cases heq
    | cons e' es' =>
      obtain ⟨hhead, htail⟩ := List.cons.inj heq
      rw [bareAll, bareAll, ih h.1 h'.1 hhead, ih' es' h.2 h'.2 htail]

theorem Stmt.ofStatement_shape (s : Stmt) : Construct.ofStatement s.shape = s.construct := by
  cases s with
  | expression | print | loop | block => rfl
  | returns _ value => cases value <;> rfl
  | branch _ _ no => cases no <;> rfl
  | «variable» _ initializer => cases initializer <;> rfl
  | routine r => cases r; rfl
  | classOf _ superclass => cases superclass <;> rfl

theorem Stmt.construct_eq {s s' : Stmt} (heq : s.shape = s'.shape) : s.construct = s'.construct := by
  rw [← s.ofStatement_shape, ← s'.ofStatement_shape, heq]

/-- Names that are written alike differ by their lines only. -/
theorem Token.bareAll_eq : {ts ts' : List Token} → (∀ t ∈ ts, t.Is .identifier) →
    (∀ t ∈ ts', t.Is .identifier) → ts.map (Shape.word ·.lexeme) = ts'.map (Shape.word ·.lexeme) →
    ts.map Token.bare = ts'.map Token.bare := by
  intro ts
  induction ts with
  | nil =>
    intro ts' _ _ heq
    rw [List.map_nil, eq_comm, List.map_eq_nil_iff] at heq
    rw [heq]
  | cons t ts ih =>
    intro ts' h h' heq
    cases ts' with
    | nil => cases heq
    | cons t' ts' =>
      rw [List.forall_mem_cons] at h h'
      obtain ⟨hhead, htail⟩ := List.cons.inj heq
      rw [List.map_cons, List.map_cons, h.1.2.bare_eq h'.1.2 (Shape.word.inj hhead), ih h.2 h'.2 htail]

/-- No method looks like the sign before a superclass. -/
theorem Routine.shapes_ne_cons_word (rs : List Routine) (w : Text) (rest : List Shape) :
    Routine.shapes rs ≠ .word w :: rest := by
  cases rs with
  | nil => exact (List.cons_ne_nil _ _).symm
  | cons r rs =>
    cases r
    intro heq
    cases (List.cons.inj heq).1

mutual

/-- Spelled statements of one shape differ by the places of their tokens only. -/
theorem Stmt.shape_inj : (s s' : Stmt) → s.Spelled → s'.Spelled → s.shape = s'.shape → s.bare = s'.bare
  | .expression e, s', h, h', heq => by
    cases s' <;> cases Stmt.construct_eq heq
    simp only [Stmt.shape, Shape.list.injEq, List.cons.injEq, and_true, true_and] at heq
    exact congrArg Stmt.expression (Expr.shape_inj h h' heq)
  | .print e, s', h, h', heq => by
    cases s' <;> cases Stmt.construct_eq heq
    simp only [Stmt.shape, Shape.list.injEq, List.cons.injEq, and_true, true_and] at heq
    exact congrArg Stmt.print (Expr.shape_inj h h' heq)
  | .returns keyword value, s', h, h', heq => by
    cases s' <;> cases Stmt.construct_eq heq
    rename_i keyword' value'
    have hkeyword := h.1.bare_eq h'.1 (by decide)
    cases value <;> cases value' <;>
      simp only [Stmt.shape, Shape.list.injEq, List.cons.injEq, and_true, true_and, reduceCtorEq,
        and_false] at heq
    · rw [Stmt.bare, Stmt.bare, hkeyword]
    · rw [Stmt.bare, Stmt.bare, hkeyword, Option.map_some, Option.map_some,
        Expr.shape_inj (h.2 _ rfl) (h'.2 _ rfl) heq]
  | .branch condition yes none, s', h, h', heq => by
    cases s' <;> cases Stmt.construct_eq heq
    rename_i condition' yes' no'
    cases no' <;>
      simp only [Stmt.shape, Shape.list.injEq, List.cons.injEq, and_true, true_and, reduceCtorEq,
        and_false] at heq
    rw [Stmt.bare, Stmt.bare, Expr.shape_inj h.1 h'.1 heq.1, Stmt.shape_inj yes yes' h.2 h'.2 heq.2]
  | .branch condition yes (some no), s', h, h', heq => by
    cases s' <;> cases Stmt.construct_eq heq
    rename_i condition' yes' no'
    cases no' <;>
      simp only [Stmt.shape, Shape.list.injEq, List.cons.injEq, and_true, true_and, reduceCtorEq,
        and_false] at heq
    rw [Stmt.bare, Stmt.bare, Expr.shape_inj h.1 h'.1 heq.1,
      Stmt.shape_inj yes yes' h.2.1 h'.2.1 heq.2.1, Stmt.shape_inj no _ h.2.2 h'.2.2 heq.2.2]
  | .loop condition body, s', h, h', heq => by
    cases s' <;> cases Stmt.construct_eq heq
    simp only [Stmt.shape, Shape.list.injEq, List.cons.injEq, and_true, true_and] at heq
    rw [Stmt.bare, Stmt.bare, Expr.shape_inj h.1 h'.1 heq.1, Stmt.shape_inj body _ h.2 h'.2 heq.2]
  | .block body, s', h, h', heq => by
    cases s' <;> cases Stmt.construct_eq heq
    simp only [Stmt.shape, Shape.list.injEq, List.cons.injEq, true_and] at heq
    exact congrArg Stmt.block (Stmt.shapes_inj body _ h h' heq)
  | .variable name initializer, s', h, h', heq => by
    cases s' <;> cases Stmt.construct_eq heq
    rename_i name' initializer'
    cases initializer <;> cases initializer' <;>
      simp only [Stmt.shape, Shape.list.injEq, List.cons.injEq, and_true, true_and, reduceCtorEq,
        and_false, Shape.word.injEq] at heq
    · rw [Stmt.bare, Stmt.bare, h.1.2.bare_eq h'.1.2 heq, Option.map_none]
    · rw [Stmt.bare, Stmt.bare, h.1.2.bare_eq h'.1.2 heq.1, Option.map_some, Option.map_some,
        Expr.shape_inj (h.2 _ rfl) (h'.2 _ rfl) heq.2]
  | .routine r, s', h, h', heq => by
    cases s' <;> cases Stmt.construct_eq heq
    exact congrArg Stmt.routine (Routine.shape_inj r _ h h' heq)
  | .classOf name superclass methods, s', h, h', heq => by
    cases s' <;> cases Stmt.construct_eq heq
    rename_i name' superclass' methods'
    cases superclass <;> cases superclass' <;>
      simp only [Stmt.shape, Shape.list.injEq, List.cons.injEq, true_and, Shape.word.injEq] at heq
    · rw [Stmt.bare, Stmt.bare, h.1.2.bare_eq h'.1.2 heq.1, Option.map_none,
        Routine.shapes_inj methods methods' h.2.2 h'.2.2 heq.2]
    · exact absurd heq.2 (Routine.shapes_ne_cons_word methods _ _)
    · exact absurd heq.2.symm (Routine.shapes_ne_cons_word methods' _ _)
    · rw [Stmt.bare, Stmt.bare, h.1.2.bare_eq h'.1.2 heq.1, Option.map_some, Option.map_some,
        Reference.bare_eq (h.2.1 _ rfl) (h'.2.1 _ rfl) heq.2.1,
        Routine.shapes_inj methods methods' h.2.2 h'.2.2 heq.2.2]

/-- Spelled routines of one shape differ by the places of their tokens only. -/
theorem Routine.shape_inj : (r r' : Routine) → r.Spelled → r'.Spelled → r.shape = r'.shape → r.bare = r'.bare
  | .mk name params body, .mk name' params' body', h, h', heq => by
    simp only [Routine.shape, Shape.list.injEq, List.cons.injEq, true_and, Shape.word.injEq] at heq
    rw [Routine.bare, Routine.bare, h.1.2.bare_eq h'.1.2 heq.1,
      Token.bareAll_eq h.2.1 h'.2.1 heq.2.1, Stmt.shapes_inj body body' h.2.2 h'.2.2 heq.2.2]

theorem Stmt.shapes_inj : (ss ss' : List Stmt) → Stmt.SpelledAll ss → Stmt.SpelledAll ss' →
    Stmt.shapes ss = Stmt.shapes ss' → Stmt.bareAll ss = Stmt.bareAll ss'
  | [], [], _, _, _ => rfl
  | s :: ss, s' :: ss', h, h', heq => by
    obtain ⟨hhead, htail⟩ := List.cons.inj heq
    rw [Stmt.bareAll, Stmt.bareAll, Stmt.shape_inj s s' h.1 h'.1 hhead, Stmt.shapes_inj ss ss' h.2 h'.2 htail]

theorem Routine.shapes_inj : (rs rs' : List Routine) → Routine.SpelledAll rs →
    Routine.SpelledAll rs' → Routine.shapes rs = Routine.shapes rs' →
    Routine.bareAll rs = Routine.bareAll rs'
  | [], [], _, _, _ => rfl
  | r :: rs, r' :: rs', h, h', heq => by
    obtain ⟨hhead, htail⟩ := List.cons.inj heq
    rw [Routine.bareAll, Routine.bareAll, Routine.shape_inj r r' h.1 h'.1 hhead,
      Routine.shapes_inj rs rs' h.2 h'.2 htail]

end

/-! ## Places are not printed -/

@[simp] theorem Token.lexeme_bare (t : Token) : t.bare.lexeme = t.lexeme := rfl

@[simp] theorem Reference.name_bare (r : Reference) : r.bare.name = r.name := rfl

/-- An expression is printed like its bare form. -/
theorem Expr.printed_bare (e : Expr) : e.bare.printed = e.printed := by
  induction e using @Expr.rec _ (fun es => Expr.printedAll (Expr.bareAll es) = Expr.printedAll es) with
  | literal | «variable» | this | super => rfl
  | grouping _ _ ih | assign _ _ ih | unary _ _ _ _ ih | get _ _ _ ih =>
    simp only [bare, printed, ih, Token.lexeme_bare, Reference.name_bare]
  | binary _ _ _ _ _ ih ih' | logical _ _ _ _ _ ih ih' | set _ _ _ _ ih ih' | call _ _ _ _ ih ih' =>
    simp only [bare, printed, ih, ih', Token.lexeme_bare]
  | conditional _ _ _ _ _ _ ih ihmiddle ihright => simp only [bare, printed, ih, ihmiddle, ihright]
  | nil => rfl
  | cons _ _ ih ih' => simp only [bareAll, printedAll, ih, ih']

theorem Expr.headed_bare (header : String) (e : Expr) : Expr.headed header e.bare = Expr.headed header e := by
  rw [headed, headed, e.printed_bare]

mutual

/-- A statement is printed like its bare form. -/
theorem Stmt.lines_bare : (s : Stmt) → s.bare.lines = s.lines
  | .expression e | .print e => by rw [Stmt.bare, Stmt.lines, Stmt.lines, e.headed_bare]
  | .returns _ none => rfl
  | .returns _ (some e) => by rw [Stmt.bare, Option.map_some, Stmt.lines, Stmt.lines, e.headed_bare]
  | .branch condition body none | .loop condition body => by
    rw [Stmt.bare, Stmt.lines, Stmt.lines, condition.headed_bare, Stmt.lines_bare body]
  | .branch condition yes (some no) => by
    rw [Stmt.bare, Stmt.lines, Stmt.lines, condition.headed_bare, Stmt.lines_bare yes, Stmt.lines_bare no]
  | .block body => by rw [Stmt.bare, Stmt.lines, Stmt.lines, Stmt.linesOfAll_bare body]
  | .variable _ none => rfl
  | .variable _ (some e) => by
    rw [Stmt.bare, Option.map_some, Stmt.lines, Stmt.lines, e.printed_bare, Token.lexeme_bare]
  | .routine r => by rw [Stmt.bare, Stmt.lines, Stmt.lines, Routine.lines_bare r]
  | .classOf _ none methods => by
    rw [Stmt.bare, Option.map_none, Stmt.lines, Stmt.lines, Routine.linesOfAll_bare methods,
      Token.lexeme_bare]
  | .classOf _ (some _) methods => by
    rw [Stmt.bare, Option.map_some, Stmt.lines, Stmt.lines, Routine.linesOfAll_bare methods,
      Token.lexeme_bare, Reference.name_bare]

theorem Routine.lines_bare : (r : Routine) → r.bare.lines = r.lines
  | .mk name params body => by
    have hparams : (params.map Token.bare).map (·.lexeme) = params.map (·.lexeme) := by
      rw [List.map_map]
      rfl
    rw [Routine.bare, Routine.lines, Routine.lines, hparams, Stmt.linesOfAll_bare body, Token.lexeme_bare]

theorem Stmt.linesOfAll_bare : (ss : List Stmt) → Stmt.linesOfAll (Stmt.bareAll ss) = Stmt.linesOfAll ss
  | [] => rfl
  | s :: ss => by
    rw [Stmt.bareAll, Stmt.linesOfAll, Stmt.linesOfAll, Stmt.lines_bare s, Stmt.linesOfAll_bare ss]

theorem Routine.linesOfAll_bare : (rs : List Routine) →
    Routine.linesOfAll (Routine.bareAll rs) = Routine.linesOfAll rs
  | [] => rfl
  | r :: rs => by
    rw [Routine.bareAll, Routine.linesOfAll, Routine.linesOfAll, Routine.lines_bare r,
      Routine.linesOfAll_bare rs]

end

/-! ## Printed expressions and programs -/

/-- Spelled expressions are printed alike exactly if they differ by the places of their tokens
only. -/
theorem Expr.Spelled.printed_eq_iff {e e' : Expr} (h : e.Spelled) (h' : e'.Spelled) :
    e.printed = e'.printed ↔ e.bare = e'.bare := by
  constructor
  · intro heq
    rw [← e.text_shape, ← e'.text_shape] at heq
    exact Expr.shape_inj h h' (Shape.text_inj h.proper_shape h'.proper_shape heq)
  · intro heq
    rw [← e.printed_bare, heq, e'.printed_bare]

/-- Spelled programs are printed alike exactly if they differ by the places of their tokens only. -/
theorem Stmt.SpelledAll.printed_eq_iff {program program' : Program} (h : Stmt.SpelledAll program)
    (h' : Stmt.SpelledAll program') :
    program.printed = program'.printed ↔ Stmt.bareAll program = Stmt.bareAll program' := by
  constructor
  · intro heq
    have hinscribed := (Stmt.inscribed_linesOfAll program h).join
    have hinscribed' := (Stmt.inscribed_linesOfAll program' h').join
    have hglyphs := hinscribed.unique (Eq.subst (motive := Inscribed _) heq.symm hinscribed')
    have hshapes := (Shape.glyphsAll_inj (.inl rfl) (.inl rfl) (congrArg (· ++ []) hglyphs)).1
    exact Stmt.shapes_inj program program' h h' hshapes
  · intro heq
    rw [Program.printed, Program.printed, ← Stmt.linesOfAll_bare program, heq, Stmt.linesOfAll_bare program']

namespace Expr

/-- The parts of spelled expressions are spelled. -/
theorem SpelledAll.of_mem_parts {es : List Expr} (h : SpelledAll es) : ∀ e ∈ partsOfAll es, e.Spelled := by
  induction es using @Expr.rec_1 (fun e => e.Spelled → ∀ part ∈ e.parts, part.Spelled) with
  | literal _ _ h part hpart | «variable» _ h part hpart | this _ h part hpart
  | super _ _ h part hpart => exact List.mem_singleton.1 hpart ▸ h
  | grouping _ _ ih h part hpart =>
    rcases List.mem_cons.1 hpart with rfl | hpart
    · exact h
    · exact ih h part hpart
  | assign _ _ ih h part hpart | unary _ _ _ _ ih h part hpart =>
    rcases List.mem_cons.1 hpart with rfl | hpart
    · exact h
    · exact ih h.2 part hpart
  | get _ _ _ ih h part hpart =>
    rcases List.mem_append.1 hpart with hpart | hpart
    · exact ih h.2 part hpart
    · exact List.mem_singleton.1 hpart ▸ h
  | binary _ _ _ _ _ ih ih' h part hpart | logical _ _ _ _ _ ih ih' h part hpart
  | set _ _ _ _ ih ih' h part hpart | call _ _ _ _ ih ih' h part hpart =>
    rcases List.mem_append.1 hpart with hpart | hpart
    · exact ih h.2.1 part hpart
    · rcases List.mem_cons.1 hpart with rfl | hpart
      · exact h
      · exact ih' h.2.2 part hpart
  | conditional _ _ _ _ _ _ ih ihmiddle ihright h part hpart =>
    have ⟨_, _, hcondition, hmiddle, hright⟩ := h
    rcases List.mem_append.1 hpart with hpart | hpart
    · exact ih hcondition part hpart
    · rcases List.mem_cons.1 hpart with rfl | hpart
      · exact h
      · rcases List.mem_append.1 hpart with hpart | hpart
        · exact ihmiddle hmiddle part hpart
        · exact ihright hright part hpart
  | nil =>
    intro part hpart
    cases hpart
  | cons _ _ ih ih' =>
    intro part hpart
    rcases List.mem_append.1 hpart with hpart | hpart
    · exact ih h.1 part hpart
    · exact ih' h.2 part hpart

theorem Spelled.of_mem_parts {e part : Expr} (h : e.Spelled) (hmem : part ∈ e.parts) : part.Spelled :=
  @SpelledAll.of_mem_parts [e] ⟨h, trivial⟩ part (List.mem_append_left _ hmem)

end Expr

mutual

/-- The expressions of a spelled statement are spelled. -/
theorem Stmt.Spelled.of_mem : (s : Stmt) → s.Spelled → ∀ e ∈ s.expressions, e.Spelled
  | .expression _, h, e, he | .print _, h, e, he => Expr.Spelled.of_mem_parts h he
  | .returns _ none, _, _, he | .variable _ none, _, _, he => by cases he
  | .returns _ (some value), h, e, he | .variable _ (some value), h, e, he =>
    @Expr.SpelledAll.of_mem_parts [value] ⟨h.2 value rfl, trivial⟩ e he
  | .branch _ body none, h, e, he | .loop _ body, h, e, he => by
    rcases List.mem_append.1 he with he | he
    · exact h.1.of_mem_parts he
    · exact Stmt.Spelled.of_mem body h.2 e he
  | .branch _ yes (some no), h, e, he => by
    rcases List.mem_append.1 he with he | he
    · rcases List.mem_append.1 he with he | he
      · exact h.1.of_mem_parts he
      · exact Stmt.Spelled.of_mem yes h.2.1 e he
    · exact Stmt.Spelled.of_mem no h.2.2 e he
  | .block body, h, e, he => Stmt.SpelledAll.of_mem body h e he
  | .routine r, h, e, he => Routine.Spelled.of_mem r h e he
  | .classOf _ _ methods, h, e, he => by
    rcases List.mem_append.1 he with he | he
    · obtain ⟨ref, href, rfl⟩ := List.mem_map.1 he
      exact h.2.1 ref (Option.mem_toList.1 href)
    · exact Routine.SpelledAll.of_mem methods h.2.2 e he

theorem Routine.Spelled.of_mem : (r : Routine) → r.Spelled → ∀ e ∈ r.expressions, e.Spelled
  | .mk _ _ body, h, e, he => Stmt.SpelledAll.of_mem body h.2.2 e he

theorem Stmt.SpelledAll.of_mem : (ss : List Stmt) → Stmt.SpelledAll ss →
    ∀ e ∈ Stmt.expressionsOfAll ss, e.Spelled
  | [], _, _, he => by cases he
  | s :: ss, h, e, he => by
    rcases List.mem_append.1 he with he | he
    · exact Stmt.Spelled.of_mem s h.1 e he
    · exact Stmt.SpelledAll.of_mem ss h.2 e he

theorem Routine.SpelledAll.of_mem : (rs : List Routine) → Routine.SpelledAll rs →
    ∀ e ∈ Routine.expressionsOfAll rs, e.Spelled
  | [], _, _, he => by cases he
  | r :: rs, h, e, he => by
    rcases List.mem_append.1 he with he | he
    · exact Routine.Spelled.of_mem r h.1 e he
    · exact Routine.SpelledAll.of_mem rs h.2 e he

end

/-- The programs of two sources that are read without an error are printed alike exactly if they are
equal but for the places of their tokens, and so are any expressions in them. -/
theorem Reading.printed_determines {site site' : Site} {source source' : Text}
    (h : (Reading.ofSource site source).errors = [])
    (h' : (Reading.ofSource site' source').errors = []) :
    ((Reading.ofSource site source).program.printed = (Reading.ofSource site' source').program.printed ↔
      Stmt.bareAll (Reading.ofSource site source).program =
        Stmt.bareAll (Reading.ofSource site' source').program) ∧
    ∀ e ∈ Stmt.expressionsOfAll (Reading.ofSource site source).program,
      ∀ e' ∈ Stmt.expressionsOfAll (Reading.ofSource site' source').program,
        (e.printed = e'.printed ↔ e.bare = e'.bare) := by
  have hspelled := Reading.spelled h
  have hspelled' := Reading.spelled h'
  refine ⟨hspelled.printed_eq_iff hspelled', fun e he e' he' => ?_⟩
  exact (Stmt.SpelledAll.of_mem _ hspelled e he).printed_eq_iff
    (Stmt.SpelledAll.of_mem _ hspelled' e' he')

/-- A loop in two spellings, with a parenthesis in a string; both have the same tree. -/
def loopSource : Text := text "for(;a;)print\")\";"

@[inherit_doc loopSource]
def blockSource : Text := text "\x7b\nwhile(a)\x7bprint\")\";\x7d\x7d"

/-- Two sources that differ in their tokens have trees that are printed alike, so the trees are
equal. -/
theorem Reading.printed_determines_loop :
    (Reading.ofSource 0 loopSource).errors = [] ∧ (Reading.ofSource 9 blockSource).errors = [] ∧
      Stmt.bareAll (Reading.ofSource 0 loopSource).program =
        Stmt.bareAll (Reading.ofSource 9 blockSource).program := by
  have herrors : (Reading.ofSource 0 loopSource).errors = [] := by decide +kernel
  have herrors' : (Reading.ofSource 9 blockSource).errors = [] := by decide +kernel
  exact ⟨herrors, herrors', (Reading.printed_determines herrors herrors').1.1 (by decide +kernel)⟩

end Lox
