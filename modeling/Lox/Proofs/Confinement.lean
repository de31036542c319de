import Lox.Proofs.ProgramAccepted
import Lox.Proofs.SideBySide

/-!
# Syntax errors stay in their statement

`readTokens_confined` is the main result. Where an expression statement was meant, whatever its tokens are, reading goes
on right behind its semicolon, with the declarations that follow. It does so from every place where the statement can
fail: an expression takes no semicolon, so the semicolon is still ahead, and recovery stops right behind it
(`Cursor.synchronize_simple`).

Declarations without an error are read in the same way whatever follows, unless an `else` does
(`Grammar.Declarations.readAll_append`).
-/

namespace Lox

open Grammar Parsed Cursor

/-- The kinds that end, enclose, start or continue statements. -/
def statementMarks : List Kind :=
  [.semicolon, .leftBrace, .rightBrace, .classWord, .funWord, .varWord, .forWord, .ifWord, .whileWord,
   .printWord, .returnWord, .elseWord]

/-- A semicolon after tokens that neither end, enclose, start nor continue a statement. They need not be an
expression. -/
inductive Simple : List Token → Prop where
  | mk {ts : List Token} {ending : Token} (h : ∀ t ∈ ts, t.kind ∉ statementMarks)
    (hending : ending.kind = .semicolon) : Simple (ts ++ [ending])

/-- What is read does not depend on what was noticed before. -/
theorem readAll_noticed (tokens : List Token) (site : Site) (line : Nat) (noticed : List Noticed) :
    Stmt.readAll ⟨tokens, site, line, noticed⟩ = ((readTokens site tokens line).1,
        ⟨[], site + tokens.length, line, (readTokens site tokens line).2.noticed ++ noticed⟩) := by
  have hagree : Agree .whole ⟨tokens, site, line, noticed⟩ ⟨tokens, site, line, []⟩ := .whole
  obtain ⟨hprogram, htogether, hend⟩ := Stmt.readAll_alike hagree
  obtain ⟨used, new, hmoves, hmoves', -⟩ := htogether.moves
  have hahead := hmoves.ahead
  have hnoticed := hmoves'.noticed
  rw [hend, List.append_nil] at hahead
  rw [List.append_nil] at hnoticed
  refine Prod.ext hprogram ?_
  have hlast : (Stmt.readAll ⟨tokens, site, line, noticed⟩).2 = ⟨[], site + tokens.length, line, new ++ noticed⟩ := by
    have hsite := hmoves.site
    have hline := hmoves.endLine
    have hnew := hmoves.noticed
    generalize (Stmt.readAll _).2 = last at hend hsite hline hnew
    obtain ⟨ahead, site', line', noticed'⟩ := last
    dsimp only at hend hsite hline hnew hahead
    subst hend hsite hline hnew hahead
    rfl
  rw [hlast, readTokens, hnoticed]

/-! ## A statement that may fail -/

/-- Something was taken, and reading goes on at a cursor. -/
def Taken.Gives {α : Type} {n : Nat} (x : Taken α n) (v : α) (next : Cursor) : Prop := x.value = v ∧ x.next = next

/-- Nothing is skipped behind a semicolon. -/
theorem Cursor.skipAfter_semicolon (ahead : List Token) (site : Site) :
    skipAfter .semicolon ahead site = (ahead, site) := by
  cases ahead <;> simp [skipAfter]

section

variable {ts rest rest' : List Token} {ending : Token} {site : Site} {line line' : Nat}
  {noticed noticed' : List Noticed} {next next' : Cursor}

/-- Cursors that have moved on together before a semicolon stand before some of the tokens they started with. -/
theorem Cursor.Together.exists_eq {made : List TreeNode} (h : Together (.upTo ending rest rest') made
      ⟨ts ++ ending :: rest, site, line, noticed⟩ ⟨ts ++ ending :: rest', site, line', noticed'⟩ next next') :
    ∃ used us new, ts = used ++ us ∧
      next = ⟨us ++ ending :: rest, site + used.length, line, new ++ noticed⟩ ∧
      next' = ⟨us ++ ending :: rest', site + used.length, line', new ++ noticed'⟩ := by
  obtain ⟨hagree, used, new, hmoves, hmoves', -⟩ := h
  cases hagree with
  | @upTo us _ _ _ site₁ line₁ line₁' noticed₁ noticed₁' _ =>
    have hts : ts ++ ending :: rest = used ++ us ++ ending :: rest := by
      rw [List.append_assoc]
      exact hmoves.ahead
    have hsite : site₁ = site + used.length := hmoves.site
    have hline : line₁ = line := hmoves.endLine
    have hline' : line₁' = line' := hmoves'.endLine
    have hnoticed : noticed₁ = new ++ noticed := hmoves.noticed
    have hnoticed' : noticed₁' = new ++ noticed' := hmoves'.noticed
    subst hsite hline hline' hnoticed hnoticed'
    exact ⟨used, us, new, List.append_cancel_right hts, rfl, rfl⟩

variable (h : ∀ t ∈ ts, t.kind ∉ statementMarks) (hending : ending.kind = .semicolon)

include h hending

/-- A token that does not start a declaration or another statement starts an expression, if anything. -/
theorem Stmt.readDeclared_simple :
    readDeclared ⟨ts ++ ending :: rest, site, line, noticed⟩ =
      (readEnded .expressionEnd ⟨ts ++ ending :: rest, site, line, noticed⟩).map .expression := by
  obtain ⟨t, us, hts, ht⟩ : ∃ t us, ts ++ ending :: rest = t :: us ∧
      t.kind ∉ statementMarks.erase .semicolon := by
    cases ts with
    | nil => exact ⟨ending, rest, rfl, by rw [hending]; decide⟩
    | cons t ts => exact ⟨t, _, rfl, fun ht => h t List.mem_cons_self (List.mem_of_mem_erase ht)⟩
  have hread : read ⟨ts ++ ending :: rest, site, line, noticed⟩ =
      (readEnded .expressionEnd ⟨ts ++ ending :: rest, site, line, noticed⟩).map .expression := by
    rw [hts, read, Cursor.acceptBy?_cons rfl]
    dsimp only
    split
    case h_7 => rfl
    all_goals
      next hk => exact absurd (by rw [hk]; decide) ht
  rw [← hread, hts, readDeclared, Cursor.acceptBy?_cons rfl]
  dsimp only
  split
  case h_4 => rfl
  all_goals
    next hk => exact absurd (by rw [hk]; decide) ht

/-- Skipping goes on up to the semicolon and stops right behind it. -/
theorem Cursor.skipAfter_simple {previous : Kind} (hprevious : previous ≠ .semicolon) :
    skipAfter previous (ts ++ ending :: rest) site = (rest, site + ts.length + 1) := by
  induction ts generalizing previous site with
  | nil =>
    have hgo : (previous == .semicolon || startsStatement ending.kind) = false := by
      rw [hending]
      simpa [startsStatement] using hprevious
    rw [List.nil_append, skipAfter, hgo, if_neg Bool.false_ne_true, hending, skipAfter_semicolon]
    rfl
  | cons t ts ih =>
    have ht := h t List.mem_cons_self
    have hgo : (previous == .semicolon || startsStatement t.kind) = false := by
      have hstarts : startsStatement t.kind = false := by
        generalize t.kind = k at ht
        revert ht
        cases k <;> decide
      simpa [hstarts] using hprevious
    have hkind : t.kind ≠ .semicolon := fun hk => absurd (by rw [hk]; decide) ht
    rw [List.cons_append, skipAfter, hgo, if_neg Bool.false_ne_true,
      ih (fun u hu => h u (List.mem_cons_of_mem t hu)) hkind]
    exact congrArg (rest, ·) (by rw [List.length_cons]; grind)

/-- Recovery before a semicolon resumes right behind it. -/
theorem Cursor.synchronize_simple :
    synchronize ⟨ts ++ ending :: rest, site, line, noticed⟩ = ⟨rest, site + ts.length + 1, line, noticed⟩ := by
  cases ts with
  | nil => simp [synchronize, hending, skipAfter_semicolon]
  | cons t ts =>
    have hkind : t.kind ≠ .semicolon := fun hk =>
      absurd (by rw [hk]; decide) (h t List.mem_cons_self)
    have hskip : skipAfter t.kind (ts ++ ending :: rest) (site + 1) = (rest, site + 1 + ts.length + 1) :=
      skipAfter_simple (fun u hu => h u (List.mem_cons_of_mem t hu)) hending hkind
    simp only [synchronize, List.cons_append, hskip, List.length_cons]
    exact congrArg (Cursor.mk rest · line noticed) (by grind)

/-- A statement that may fail is read in the same way whatever follows it, and reading goes on right behind its
semicolon. -/
theorem Stmt.readDeclaration_simple
    (hpos : 0 < (Cursor.mk (ts ++ ending :: rest) site line noticed).remaining)
    (hpos' : 0 < (Cursor.mk (ts ++ ending :: rest') site line' noticed').remaining) :
    ∃ s new, (readDeclaration ⟨ts ++ ending :: rest, site, line, noticed⟩ hpos).Gives s
        ⟨rest, site + ts.length + 1, line, new ++ noticed⟩ ∧
      (readDeclaration ⟨ts ++ ending :: rest', site, line', noticed'⟩ hpos').Gives s
        ⟨rest', site + ts.length + 1, line', new ++ noticed'⟩ := by
  have hagree : Agree (.upTo ending rest rest') ⟨ts ++ ending :: rest, site, line, noticed⟩
      ⟨ts ++ ending :: rest', site, line', noticed'⟩ := .upTo hending
  have hread := Expr.read_alike hagree.together
  rw [readDeclaration, readDeclaration, readDeclared_simple h hending, readDeclared_simple h hending, readEnded,
    readEnded]
  cases hc : Expr.read ⟨ts ++ ending :: rest, site, line, noticed⟩ <;>
    cases hc' : Expr.read ⟨ts ++ ending :: rest', site, line', noticed'⟩ <;> rw [hc, hc'] at hread
  case done.done e next _ e' next' _ =>
    obtain ⟨rfl, htogether⟩ := hread
    obtain ⟨used, us, new, rfl, rfl, rfl⟩ := htogether.exists_eq
    cases us with
    | nil =>
      -- The expression ends at the semicolon, which ends the statement.
      refine ⟨some (.expression e), new, ?_⟩
      simp [Parsed.andThen, Parsed.map, Parsed.weaken, Cursor.expect, Cursor.accept?_cons hending, Taken.Gives]
    | cons t us =>
      -- Another token follows the expression.
      have hkind : t.kind ≠ .semicolon := fun hk => absurd (by rw [hk]; decide) (h t (by simp))
      have hlength : site + (used ++ t :: us).length + 1 = site + used.length + (t :: us).length + 1 := by grind
      refine ⟨none, ⟨site + used.length, .ofGrammar t (.missing .expressionEnd)⟩ :: new, ?_⟩
      have hplain : ∀ u ∈ t :: us, u.kind ∉ statementMarks := fun u hu =>
        h u (List.mem_append_right used hu)
      have hnone (tail : List Token) (l : Nat) (n : List Noticed) :
          Cursor.accept? ⟨t :: us ++ ending :: tail, site + used.length, l, n⟩ .semicolon = none :=
        Cursor.accept?_eq_none (by rintro _ ⟨⟩; exact hkind)
      simp only [Parsed.andThen, Parsed.map, Parsed.weaken, Cursor.expect, hnone, Cursor.fail, Taken.Gives, true_and]
      exact ⟨(synchronize_simple hplain hending).trans (by rw [hlength]; rfl),
        (synchronize_simple hplain hending).trans (by rw [hlength]; rfl)⟩
  case failed.failed next _ next' _ =>
    obtain ⟨used, us, new, rfl, rfl, rfl⟩ := Cursor.Together.exists_eq hread
    have hplain : ∀ u ∈ us, u.kind ∉ statementMarks := fun u hu => h u (List.mem_append_right used hu)
    have hlength : site + (used ++ us).length + 1 = site + used.length + us.length + 1 := by grind
    refine ⟨none, new, ⟨rfl, ?_⟩, ⟨rfl, ?_⟩⟩
    · exact (synchronize_simple hplain hending).trans (by rw [hlength])
    · exact (synchronize_simple hplain hending).trans (by rw [hlength])
  all_goals exact hread.elim

end

/-- A simple statement does not begin with `else`, whatever follows it. -/
theorem Simple.noElse {x : List Token} (h : Simple x) (rest : List Token) : NoElse (x ++ rest) := by
  obtain @⟨ts, ending, h, hending⟩ := h
  cases ts with
  | nil =>
    rintro _ ⟨⟩
    rw [hending]
    decide
  | cons t ts =>
    rintro _ ⟨⟩ hk
    exact absurd (by rw [hk]; decide) (h t List.mem_cons_self)

/-- A statement that may fail, alone and before others: reading gives at most one statement for it and goes on with
the others. -/
theorem Simple.readAll_append {x : List Token} (h : Simple x) (rest : List Token) (site : Site) (line line' : Nat) :
    ∃ s : Option Stmt, ∃ new, readTokens site x line' = (s.toList, ⟨[], site + x.length, line', new⟩) ∧
      Stmt.readAll ⟨x ++ rest, site, line, []⟩ =
        (s.toList ++ (Stmt.readAll ⟨rest, site + x.length, line, new⟩).1,
          (Stmt.readAll ⟨rest, site + x.length, line, new⟩).2) := by
  obtain @⟨ts, ending, h, hending⟩ := h
  have hpos (tail : List Token) (l : Nat) : (Cursor.mk (ts ++ ending :: tail) site l []).remaining ≠ 0 := by
    simp
  obtain ⟨s, new, ⟨hvalue, hnext⟩, hvalue', hnext'⟩ := Stmt.readDeclaration_simple h hending
    (Nat.pos_of_ne_zero (hpos rest line)) (Nat.pos_of_ne_zero (hpos [] line'))
  have hsite : site + (ts ++ [ending]).length = site + ts.length + 1 := by grind
  rw [List.append_nil] at hnext hnext'
  refine ⟨s, new, ?_, ?_⟩
  · have hend : (Cursor.mk [] (site + ts.length + 1) line' new).remaining = 0 := rfl
    rw [readTokens, Stmt.readAll, dif_neg (hpos [] line'), hsite]
    dsimp only
    rw [hvalue', hnext', Stmt.readAll, dif_pos hend, List.append_nil]
  · rw [List.append_assoc, List.singleton_append, Stmt.readAll, dif_neg (hpos rest line), hsite]
    dsimp only
    rw [hvalue, hnext]

/-- Declarations without an error, a statement that may fail, or nothing, and any tokens are read one after the
other: the statements are those of the three alone, in order, and the errors those of the last two. Only an `else`
right behind the declarations could go on with them. -/
theorem readTokens_confined (site line lineOfFirst lineOfSecond : Nat) {p x q : List Token}
    (hp : (readTokens site p lineOfFirst).2.noticed = []) (hx : x = [] ∧ NoElse q ∨ Simple x) :
    (readTokens site (p ++ x ++ q) line).1 =
      (readTokens site p lineOfFirst).1 ++ (readTokens (site + p.length) x lineOfSecond).1 ++
        (readTokens (site + p.length + x.length) q line).1 ∧
    (readTokens (site + p.length) x lineOfSecond).1.length ≤ 1 ∧
    (readTokens site (p ++ x ++ q) line).2.noticed.reverse =
      (readTokens (site + p.length) x lineOfSecond).2.noticed.reverse ++
        (readTokens (site + p.length + x.length) q line).2.noticed.reverse := by
  obtain ⟨-, hprogram⟩ := Stmt.readAll_reads _ hp
  rcases hx with ⟨rfl, hq⟩ | hx
  · have hnothing : readTokens (site + p.length) [] lineOfSecond = ([], ⟨[], site + p.length, lineOfSecond, []⟩) :=
      Grammar.Declarations.nil.readAll_eq lineOfSecond []
    have hwhole : readTokens site (p ++ q) line = _ := hprogram.readAll_append hq line []
    rw [List.append_nil, hwhole, hnothing]
    simp only [readTokens, List.append_nil, List.length_nil, Nat.add_zero, List.reverse_nil, List.nil_append, and_true,
      Nat.zero_le]
  · obtain ⟨s, new, hsecond, hrest⟩ := hx.readAll_append q (site + p.length) line lineOfSecond
    have hwhole : readTokens site (p ++ (x ++ q)) line = _ := hprogram.readAll_append (hx.noElse q) line []
    rw [List.append_assoc, hwhole, hrest, hsecond, readAll_noticed q]
    refine ⟨(List.append_assoc ..).symm, ?_, List.reverse_append⟩
    cases s <;> simp

/-- An `if` without `else`, then a parenthesis that is not closed, then a further statement. -/
theorem readTokens_confined_unclosed :
    let tokens (l : List (Kind × String)) : List Token := l.map fun t => ⟨t.1, text t.2, none, 1⟩
    let p := tokens [(.ifWord, "if"), (.leftParen, "("), (.nilWord, "nil"), (.rightParen, ")"), (.printWord, "print"),
      (.nilWord, "nil"), (.semicolon, ";")]
    let x := tokens [(.leftParen, "("), (.nilWord, "nil"), (.nilWord, "nil"), (.semicolon, ";")]
    let q := tokens [(.printWord, "print"), (.nilWord, "nil"), (.semicolon, ";")]
    (readTokens 0 p 1).2.noticed = [] ∧ Simple x ∧
      (readTokens 0 (p ++ x ++ q) 1).1 = (readTokens 0 p 1).1 ++ (readTokens 7 x 1).1 ++ (readTokens 11 q 1).1 ∧
      (readTokens 0 (p ++ x ++ q) 1).2.noticed.reverse =
        (readTokens 7 x 1).2.noticed.reverse ++ (readTokens 11 q 1).2.noticed.reverse := by
  intro tokens p x q
  have hnil (site : Site) : Grammar.Expression .assignment site (tokens [(.nilWord, "nil")]) (.literal site .nil) :=
    .of_primary (.constant (.nil rfl))
  have hderived : Grammar.Declarations 0 p [.branch (.literal 2 .nil) (.print (.literal 5 .nil)) none] :=
    .cons (.statement (.branch rfl rfl (hnil 2) rfl (.print rfl (hnil 5) rfl))) .nil
  have hp : (readTokens 0 p 1).2.noticed = [] := by rw [readTokens, hderived.readAll_eq]
  have hx : Simple x := @Simple.mk x.dropLast _ (by decide) rfl
  obtain ⟨hprogram, -, herrors⟩ := readTokens_confined 0 1 1 1 (q := q) hp (.inr hx)
  exact ⟨hp, hx, hprogram, herrors⟩

end Lox
