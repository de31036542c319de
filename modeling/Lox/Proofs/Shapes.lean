import Lox.Tree.Printed
import Lox.Proofs.QuotedText

/-!
# Parenthesised texts

A shape is a word, a quoted text or a list of shapes. Written out, with parentheses around lists, a
shape becomes a sequence of glyphs: parentheses, words and quotations. `Inscribed gs t` says that `t` holds
the glyphs `gs` with any blanks and line breaks between them, as long as neighbouring words stay apart.

Both steps can be undone. A text has one sequence of glyphs only (`Inscribed.unique`), since the first byte
of a glyph says what it is and where it ends, and a sequence of glyphs comes from one sequence of shapes
only (`Shape.glyphsAll_inj`). So however a shape was laid out in lines, its text determines it.
-/

namespace Lox

/-- A word, a quoted text, or shapes in parentheses. -/
inductive Shape where
  | word (t : Text)
  | quotation (t : Text)
  | list (parts : List Shape)

/-- A glyph of a parenthesised text. -/
inductive Glyph where
  | opening
  | closing
  | word (t : Text)
  | quotation (t : Text)

/-- What a byte leads, where no glyph has started yet. -/
inductive Lead where
  | blank
  | opening
  | closing
  | word
  | quotation
  deriving DecidableEq

/-- What a byte leads. -/
def Lead.ofByte (b : UInt8) : Lead :=
  if b = 32 ∨ b = 10 then .blank
  else if b = 40 then .opening
  else if b = 41 then .closing
  else if b = 34 then .quotation
  else .word

/-- A byte that may stand in a word. -/
def isBare (b : UInt8) : Bool := Lead.ofByte b == .word

/-- A word: not empty, and without blanks, line breaks, quotes and parentheses. -/
def Bare (t : Text) : Prop := t ≠ [] ∧ ∀ b ∈ t, isBare b = true

theorem Bare.of_all {t : Text} (h : (!t.isEmpty && t.all isBare) = true) : Bare t := by
  obtain ⟨hne, hall⟩ := Bool.and_eq_true_iff.1 h
  refine ⟨?_, List.all_eq_true.1 hall⟩
  rintro rfl
  exact Bool.false_ne_true hne

/-- A word ends before this text. -/
def Breaks (t : Text) : Prop := ∀ b ∈ t.head?, isBare b = false

namespace Glyph

def text : Glyph → Text
  | .opening => [40]
  | .closing => [41]
  | .word t => t
  | .quotation t => t.quoted

def lead : Glyph → Lead
  | .opening => .opening
  | .closing => .closing
  | .word _ => .word
  | .quotation _ => .quotation

/-- A glyph may stand before a text: a word is a word, and ends before the text. -/
def Before : Glyph → Text → Prop
  | .word w, t => Bare w ∧ Breaks t
  | _, _ => True

end Glyph

/-- The text holds the glyphs, with blanks and line breaks between them. -/
inductive Inscribed : List Glyph → Text → Prop where
  | nil : Inscribed [] []
  | blank {b : UInt8} {gs : List Glyph} {t : Text} (hb : Lead.ofByte b = .blank) (h : Inscribed gs t) :
    Inscribed gs (b :: t)
  | glyph {g : Glyph} {gs : List Glyph} {t : Text} (hg : g.Before t) (h : Inscribed gs t) :
    Inscribed (g :: gs) (g.text ++ t)

/-! ## One sequence of glyphs only -/

/-- Where a word ends is determined by what follows it. -/
theorem Bare.append_inj {w w' t t' : Text} (hw : Bare w) (hw' : Bare w') (ht : Breaks t)
    (ht' : Breaks t') (h : w ++ t = w' ++ t') : w = w' ∧ t = t' := by
  have hstop {u : Text} (hu : Breaks u) : u.takeWhile isBare = [] := by
    cases u with
    | nil => rfl
    | cons b u => rw [List.takeWhile_cons_of_neg (by simp [hu b rfl])]
  have htake := congrArg (List.takeWhile isBare) h
  rw [List.takeWhile_append_of_pos hw.2, List.takeWhile_append_of_pos hw'.2, hstop ht, hstop ht',
    List.append_nil, List.append_nil] at htake
  subst htake
  exact ⟨rfl, List.append_cancel_left h⟩

namespace Glyph

/-- A glyph begins with the byte that tells its kind. -/
theorem Before.exists_cons {g : Glyph} {t : Text} (h : g.Before t) :
    ∃ b v, g.text = b :: v ∧ Lead.ofByte b = g.lead := by
  cases g with
  | opening => exact ⟨40, [], rfl, by decide⟩
  | closing => exact ⟨41, [], rfl, by decide⟩
  | word w =>
    obtain ⟨b, v, rfl⟩ := List.exists_cons_of_ne_nil h.1.1
    exact ⟨b, v, rfl, by simpa [isBare, lead] using h.1.2 b (by simp)⟩
  | quotation s => exact ⟨34, _, rfl, rfl⟩

theorem Before.text_append_ne {g : Glyph} {b : UInt8} {t t' : Text} (hg : g.Before t)
    (hb : Lead.ofByte b = .blank) : b :: t' ≠ g.text ++ t := by
  obtain ⟨c, v, hcons, hc⟩ := hg.exists_cons
  rw [hcons]
  intro h
  rw [← (List.cons.inj h).1, hb] at hc
  cases g <;> cases hc

/-- A glyph at the front of a text is determined, and with it what follows. -/
theorem text_append_inj {g g' : Glyph} {t t' : Text} (hg : g.Before t) (hg' : g'.Before t')
    (h : g.text ++ t = g'.text ++ t') : g = g' ∧ t = t' := by
  have hlead : g.lead = g'.lead := by
    obtain ⟨b, v, hcons, hb⟩ := hg.exists_cons
    obtain ⟨b', v', hcons', hb'⟩ := hg'.exists_cons
    rw [hcons, hcons'] at h
    rw [← hb, ← hb', (List.cons.inj h).1]
  cases g with
  | opening | closing =>
    cases g' <;> cases hlead
    exact ⟨rfl, (List.cons.inj h).2⟩
  | word w =>
    cases g' <;> cases hlead
    obtain ⟨rfl, ht⟩ := hg.1.append_inj hg'.1 hg.2 hg'.2 h
    exact ⟨rfl, ht⟩
  | quotation s =>
    cases g' <;> cases hlead
    obtain ⟨rfl, ht⟩ := Text.quoted_append_inj h
    exact ⟨rfl, ht⟩

end Glyph

namespace Inscribed

variable {gs gs' : List Glyph} {g : Glyph} {t t' : Text} {b : UInt8}

/-- A text holds one sequence of glyphs only. -/
theorem unique (h : Inscribed gs t) (h' : Inscribed gs' t) : gs = gs' := by
  induction h generalizing gs' with
  | nil =>
    generalize hu : ([] : Text) = u at h'
    cases h' with
    | nil => rfl
    | blank => cases hu
    | glyph hg =>
      obtain ⟨b, v, hcons, -⟩ := hg.exists_cons
      rw [hcons] at hu
      cases hu
  | blank hb _ ih =>
    generalize hu : _ :: _ = u at h'
    cases h' with
    | nil => cases hu
    | blank _ htail =>
      obtain ⟨-, rfl⟩ := List.cons.inj hu
      exact ih htail
    | glyph hg => exact absurd hu (hg.text_append_ne hb)
  | glyph hg _ ih =>
    generalize hu : Glyph.text _ ++ _ = u at h'
    cases h' with
    | nil =>
      obtain ⟨b, v, hcons, -⟩ := hg.exists_cons
      rw [hcons] at hu
      cases hu
    | blank hb => exact absurd hu.symm (hg.text_append_ne hb)
    | glyph hg' htail =>
      obtain ⟨rfl, rfl⟩ := Glyph.text_append_inj hg hg' hu
      rw [ih htail]

/-! ## Putting texts together -/

theorem breaks_append (h : Breaks t) (h' : Breaks t') : Breaks (t ++ t') := by
  cases t with
  | nil => exact h'
  | cons b t => exact h

/-- Glyphs one after the other, if a word of the first text ends before the second. -/
theorem append (h : Inscribed gs t) (h' : Inscribed gs' t') (hbreaks : Breaks t') :
    Inscribed (gs ++ gs') (t ++ t') := by
  induction h with
  | nil => exact h'
  | blank hb _ ih => exact .blank hb ih
  | @glyph g gs t hg _ ih =>
    rw [List.append_assoc]
    refine .glyph ?_ ih
    cases g with
    | word w => exact ⟨hg.1, breaks_append hg.2 hbreaks⟩
    | opening | closing | quotation => trivial

theorem close (h : Inscribed gs t) : Inscribed (gs ++ [.closing]) (t ++ [41]) :=
  h.append (.glyph (g := .closing) trivial .nil) fun b hb => by cases hb; decide

/-- A blank may stand between two texts. -/
theorem separate (hb : Lead.ofByte b = .blank) (h : Inscribed gs t) (h' : Inscribed gs' t') :
    Inscribed (gs ++ gs') (t ++ [b] ++ t') := by
  rw [List.append_assoc]
  refine h.append (.blank hb h') fun c hc => ?_
  cases hc
  rw [isBare, hb]
  decide

theorem single (hg : g.Before []) : Inscribed [g] g.text := by
  have hinscribed := Inscribed.glyph hg .nil
  rwa [List.append_nil] at hinscribed

end Inscribed

/-! ## Lines -/

/-- Lines hold the glyphs, each line whole ones. -/
inductive InscribedLines : List Glyph → List Text → Prop where
  | nil : InscribedLines [] []
  | cons {gs gs' : List Glyph} {line : Text} {lines : List Text} (h : Inscribed gs line)
    (h' : InscribedLines gs' lines) : InscribedLines (gs ++ gs') (line :: lines)

namespace InscribedLines

variable {gs gs' : List Glyph} {lines lines' : List Text} {line : Text}

theorem append (h : InscribedLines gs lines) (h' : InscribedLines gs' lines') :
    InscribedLines (gs ++ gs') (lines ++ lines') := by
  induction h with
  | nil => exact h'
  | cons hline _ ih =>
    rw [List.append_assoc]
    exact .cons hline ih

theorem indent (h : InscribedLines gs lines) : InscribedLines gs (lines.map (text "  " ++ ·)) := by
  induction h with
  | nil => exact .nil
  | cons hline _ ih => exact .cons (.blank (by decide) (.blank (by decide) hline)) ih

/-- Closing the last line adds a closing glyph. -/
theorem closeLast (h : InscribedLines gs (line :: lines)) :
    InscribedLines (gs ++ [.closing]) (Text.closeLast (line :: lines)) := by
  generalize hall : line :: lines = all at h
  induction h generalizing line lines with
  | nil => cases hall
  | @cons gs gs' first rest hline h' ih =>
    cases h' with
    | nil =>
      rw [List.append_nil]
      have hclosed := InscribedLines.cons hline.close .nil
      rwa [List.append_nil] at hclosed
    | cons hnext hmore =>
      rw [List.append_assoc]
      exact .cons hline (ih rfl)

/-- Lines put together are a text with their glyphs. -/
theorem join (h : InscribedLines gs lines) : Inscribed gs (Text.join [Text.newline] lines) := by
  induction h with
  | nil => exact .nil
  | cons hline h' ih =>
    cases h' with
    | nil =>
      rw [List.append_nil]
      exact hline
    | cons => exact hline.separate (by decide) ih

end InscribedLines

/-! ## Shapes -/

namespace Shape

mutual

def glyphs : Shape → List Glyph
  | .word t => [.word t]
  | .quotation t => [.quotation t]
  | .list parts => .opening :: (glyphsAll parts ++ [.closing])

def glyphsAll : List Shape → List Glyph
  | [] => []
  | p :: rest => glyphs p ++ glyphsAll rest

end

theorem glyphsAll_append (ps qs : List Shape) : glyphsAll (ps ++ qs) = glyphsAll ps ++ glyphsAll qs := by
  induction ps with
  | nil => rfl
  | cons p ps ih => rw [List.cons_append, glyphsAll, glyphsAll, ih, List.append_assoc]

/-- The glyphs of a shape do not start by closing a list. -/
theorem head?_glyphs (p : Shape) (rest : List Glyph) :
    ∃ g, (glyphs p ++ rest).head? = some g ∧ g ≠ .closing := by
  cases p <;> exact ⟨_, rfl, nofun⟩

/-- The glyphs end here, or with the parenthesis that closes a list. -/
def Ends (gs : List Glyph) : Prop := gs = [] ∨ gs.head? = some .closing

theorem not_ends_glyphs (p : Shape) (rest : List Glyph) : ¬ Ends (glyphs p ++ rest) := by
  obtain ⟨g, hhead, hg⟩ := head?_glyphs p rest
  rintro (h | h)
  · rw [h] at hhead
    cases hhead
  · exact hg (Option.some.inj (hhead.symm.trans h))

/-- Glyphs up to an end come from one list of shapes only. -/
theorem glyphsAll_inj {ps qs : List Shape} {rest rest' : List Glyph} (hrest : Ends rest) (hrest' : Ends rest')
    (h : glyphsAll ps ++ rest = glyphsAll qs ++ rest') : ps = qs ∧ rest = rest' := by
  induction ps using @Shape.rec_1
    (fun p => ∀ (q : Shape) (rest rest' : List Glyph), glyphs p ++ rest = glyphs q ++ rest' →
      p = q ∧ rest = rest') generalizing qs rest rest' with
  | word t q rest rest' h =>
    cases q with
    | word u =>
      obtain ⟨hword, htail⟩ := List.cons.inj h
      exact ⟨congrArg Shape.word (Glyph.word.inj hword), htail⟩
    | quotation | list => cases (List.cons.inj h).1
  | quotation t q rest rest' h =>
    cases q with
    | quotation u =>
      obtain ⟨hquotation, htail⟩ := List.cons.inj h
      exact ⟨congrArg Shape.quotation (Glyph.quotation.inj hquotation), htail⟩
    | word | list => cases (List.cons.inj h).1
  | list ps ih q rest rest' h =>
    cases q with
    | list qs =>
      rw [glyphs, glyphs, List.cons_append, List.cons_append, List.append_assoc, List.append_assoc] at h
      obtain ⟨rfl, htail⟩ := ih (.inr rfl) (.inr rfl) (List.cons.inj h).2
      exact ⟨rfl, (List.cons.inj htail).2⟩
    | word | quotation => cases (List.cons.inj h).1
  | nil =>
    cases qs with
    | nil => exact ⟨rfl, h⟩
    | cons q qs =>
      have hends : Ends (glyphs q ++ (glyphsAll qs ++ rest')) := by
        rw [← List.append_assoc]
        exact h ▸ hrest
      exact absurd hends (not_ends_glyphs q _)
  | cons p ps ihp ih =>
    rw [glyphsAll, List.append_assoc] at h
    cases qs with
    | nil =>
      rw [glyphsAll, List.nil_append] at h
      exact absurd (h ▸ hrest') (not_ends_glyphs p _)
    | cons q qs =>
      rw [glyphsAll, List.append_assoc] at h
      obtain ⟨rfl, htail⟩ := ihp q _ _ h
      obtain ⟨rfl, htails⟩ := ih hrest hrest' htail
      exact ⟨rfl, htails⟩

mutual

def text : Shape → Text
  | .word t => t
  | .quotation t => t.quoted
  | .list parts => Text.parens (texts parts)

def texts : List Shape → List Text
  | [] => []
  | p :: rest => text p :: texts rest

end

mutual

/-- The words of a shape are words. -/
def Proper : Shape → Prop
  | .word t => Bare t
  | .quotation _ => True
  | .list parts => ProperAll parts

def ProperAll : List Shape → Prop
  | [] => True
  | p :: rest => Proper p ∧ ProperAll rest

end

/-- Shapes that are joined by blanks are read glyph by glyph. -/
theorem inscribed_join {ps : List Shape} (h : ProperAll ps) :
    Inscribed (glyphsAll ps) (Text.join [32] (texts ps)) := by
  induction ps using @Shape.rec_1 (fun p => p.Proper → Inscribed p.glyphs p.text) with
  | word t h => exact .single (g := .word t) ⟨h, fun b hb => by cases hb⟩
  | quotation t => exact .single (g := .quotation t) trivial
  | list ps ih h => exact .glyph (g := .opening) trivial (ih h).close
  | nil => exact .nil
  | cons p ps ihp ih =>
    cases ps with
    | nil =>
      rw [glyphsAll, glyphsAll, List.append_nil]
      exact ihp h.1
    | cons q ps => exact (ihp h.1).separate (by decide) (ih h.2)

theorem inscribed_text {p : Shape} (h : p.Proper) : Inscribed p.glyphs p.text := by
  have hjoin := @inscribed_join [p] ⟨h, trivial⟩
  rwa [glyphsAll, glyphsAll, List.append_nil] at hjoin

theorem text_inj {p q : Shape} (hp : p.Proper) (hq : q.Proper) (h : p.text = q.text) : p = q := by
  have hglyphs := (inscribed_text hp).unique (h ▸ inscribed_text hq)
  have hall : glyphsAll [p] ++ [] = glyphsAll [q] ++ [] := congrArg (· ++ [] ++ []) hglyphs
  exact (List.cons.inj (glyphsAll_inj (.inl rfl) (.inl rfl) hall).1).1

/-- A list laid out in lines: the first shapes on the line that opens it, and the others below. -/
theorem inscribedLines_nested {first rest : List Shape} {body : List Text} (h : ProperAll first)
    (h' : InscribedLines (glyphsAll rest) body) :
    InscribedLines (glyphs (.list (first ++ rest)))
      (Text.nested (40 :: Text.join [32] (texts first)) body) := by
  have hopened := (InscribedLines.cons (.glyph (g := .opening) trivial (inscribed_join h)) h'.indent).closeLast
  rw [List.cons_append, ← glyphsAll_append] at hopened
  exact hopened

end Shape

end Lox
