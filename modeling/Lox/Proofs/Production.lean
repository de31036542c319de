import Lox.Tree.Cursor
import Mathlib.Tactic.Common

/-!
# Productions

Two ways to say what a production does, each with one rule for every way to build one.

`Parsed.ReadsTo p c R` is about any outcome: if no error has been noticed at its end, then none had
been noticed at `c`, and `R` relates the tokens passed since then to the value and to where reading
stopped. A failure always leaves an error behind. `Parsed.Reads` is the same for a relation that does
not look at where reading stopped. `Parsed.Gives p v next` is about success: the production gives `v`
and stops at `next`.
-/

namespace Lox

/-- What has been passed between two cursors, if no error was noticed at the first. -/
structure Cursor.Passes (c : Cursor) (ts : List Token) (next : Cursor) : Prop where
  quiet : c.noticed = []
  ahead : c.ahead = ts ++ next.ahead
  site : next.site = c.site + ts.length

theorem Cursor.Passes.trans {c d e : Cursor} {ts us : List Token} (h : c.Passes ts d)
    (h' : d.Passes us e) : c.Passes (ts ++ us) e := by
  refine ⟨h.quiet, ?_, ?_⟩
  · rw [h.ahead, h'.ahead, List.append_assoc]
  · rw [h'.site, h.site, List.length_append, Nat.add_assoc]

namespace Parsed

variable {α β : Type} {m n : Nat}

/-- If no error has been noticed at the end, the tokens passed since a cursor are related to the
value and to the cursor at the end. -/
def ReadsTo (p : Parsed α n) (c : Cursor) (R : Site → List Token → α → Cursor → Prop) : Prop :=
  match p with
  | .done v next _ => next.noticed = [] → ∃ ts, c.Passes ts next ∧ R c.site ts v next
  | .failed next _ => next.noticed ≠ []

/-- If no error has been noticed at the end, the tokens passed since a cursor are related to the
value. -/
abbrev Reads (p : Parsed α n) (c : Cursor) (R : Site → List Token → α → Prop) : Prop :=
  p.ReadsTo c fun site ts v _ => R site ts v

/-- One relation and then another, which may depend on the value of the first. -/
def Then (R : Site → List Token → α → Prop) (S : α → Site → List Token → β → Prop) (site : Site)
    (ts : List Token) (w : β) : Prop :=
  ∃ us vs v, ts = us ++ vs ∧ R site us v ∧ S v (site + us.length) vs w

namespace ReadsTo

variable {c : Cursor} {R Q : Site → List Token → α → Cursor → Prop} {p : Parsed α n}

theorem mono (h : p.ReadsTo c R)
    (hRQ : ∀ ts v next, R c.site ts v next → Q c.site ts v next) : p.ReadsTo c Q := by
  cases p with
  | done v next shorter =>
    intro hquiet
    obtain ⟨ts, hpass, hR⟩ := h hquiet
    exact ⟨ts, hpass, hRQ ts v next hR⟩
  | failed next within => exact h

theorem weaken {p : Parsed α m} (h : p.ReadsTo c R) (hmn : m ≤ n) : (p.weaken hmn).ReadsTo c R := by
  cases p with
  | done => exact h
  | failed => exact h

theorem done {v : α} {h : c.remaining < n} (hR : R c.site [] v c) : (Parsed.done v c h).ReadsTo c R :=
  fun hquiet => ⟨[], ⟨hquiet, rfl, rfl⟩, hR⟩

/-- The second relation may depend on where the first production stopped. -/
theorem bind {S : α → Cursor → Site → List Token → β → Cursor → Prop}
    {f : (v : α) → (next : Cursor) → next.remaining < n → Parsed β n} (h : p.ReadsTo c R)
    (hf : ∀ v next h, (f v next h).ReadsTo next (S v next)) :
    (p.andThen f).ReadsTo c fun site ts w last =>
      ∃ us vs v next, ts = us ++ vs ∧ R site us v next ∧ S v next (site + us.length) vs w last := by
  cases p with
  | failed => exact h
  | done v next shorter =>
    have hf := hf v next shorter
    unfold Parsed.andThen
    dsimp only
    cases hfv : f v next shorter with
    | failed =>
      rw [hfv] at hf
      exact hf
    | done w last _ =>
      rw [hfv] at hf
      intro hquiet
      obtain ⟨us, hpass', hS⟩ := hf hquiet
      obtain ⟨ts, hpass, hR⟩ := h hpass'.quiet
      exact ⟨ts ++ us, hpass.trans hpass', ts, us, v, next, rfl, hR, hpass.site ▸ hS⟩

theorem map (f : α → β) (h : p.ReadsTo c R) :
    (p.map f).ReadsTo c fun site ts w next => ∃ v, R site ts v next ∧ w = f v := by
  cases p with
  | failed => exact h
  | done v next shorter =>
    intro hquiet
    obtain ⟨ts, hpass, hR⟩ := h hquiet
    exact ⟨ts, hpass, v, hR, rfl⟩

end ReadsTo

namespace Reads

variable {c : Cursor} {R Q : Site → List Token → α → Prop} {p : Parsed α n}

theorem mono (h : p.Reads c R) (hRQ : ∀ ts v, R c.site ts v → Q c.site ts v) : p.Reads c Q :=
  ReadsTo.mono h fun ts v _ => hRQ ts v

theorem weaken {p : Parsed α m} (h : p.Reads c R) (hmn : m ≤ n) : (p.weaken hmn).Reads c R :=
  ReadsTo.weaken h hmn

theorem done {v : α} {h : c.remaining < n} (hR : R c.site [] v) : (Parsed.done v c h).Reads c R :=
  ReadsTo.done hR

theorem andThen {S : α → Site → List Token → β → Prop}
    {f : (v : α) → (next : Cursor) → next.remaining < n → Parsed β n} (h : p.Reads c R)
    (hf : ∀ v next h, (f v next h).Reads next (S v)) : (p.andThen f).Reads c (Then R S) := by
  refine ReadsTo.mono (ReadsTo.bind h hf) ?_
  rintro _ w _ ⟨us, vs, v, _, rfl, hR, hS⟩
  exact ⟨us, vs, v, rfl, hR, hS⟩

theorem map (f : α → β) (h : p.Reads c R) : (p.map f).Reads c fun site ts w => ∃ v, R site ts v ∧ w = f v :=
  ReadsTo.map f h

end Reads

end Parsed

/-! ## Taking a token -/

/-- A cursor moves past a token. -/
structure Cursor.Steps (c : Cursor) (t : Token) (next : Cursor) : Prop where
  noticed : next.noticed = c.noticed
  ahead : c.ahead = t :: next.ahead
  site : next.site = c.site + 1

namespace Cursor

variable {α : Type} {c : Cursor} {k : Kind}

/-- A token that passes a test is the one ahead. -/
theorem steps_of_acceptBy? {test : Token → Option α} {v : α} {next : Cursor}
    {hlt : next.remaining < c.remaining} (h : c.acceptBy? test = some ⟨v, next, hlt⟩) :
    ∃ t, test t = some v ∧ c.Steps t next := by
  unfold acceptBy? at h
  split at h
  · cases h
  · next t rest hahead =>
    split at h
    · next value htest =>
      cases h
      exact ⟨t, htest, rfl, hahead, rfl⟩
    · cases h

theorem steps_of_accept? {t : Token} {next : Cursor} {hlt : next.remaining < c.remaining}
    (h : c.accept? k = some ⟨t, next, hlt⟩) : t.kind = k ∧ c.Steps t next := by
  obtain ⟨u, htest, hsteps⟩ := steps_of_acceptBy? h
  split at htest
  · next hk =>
    obtain rfl := Option.some.inj htest
    exact ⟨hk, hsteps⟩
  · cases htest

theorem Steps.sees {t : Token} {next : Cursor} (h : c.Steps t next) (hk : t.kind = k) : c.sees k = true := by
  simp [Cursor.sees, h.ahead, hk]

theorem sees_eq_false (h : c.accept? k = none) : c.sees k = false := by
  obtain ⟨ahead, site, line, noticed⟩ := c
  cases ahead with
  | nil => rfl
  | cons t rest =>
    by_contra hsees
    have hk : t.kind = k := by simpa [sees] using hsees
    simp [accept?, acceptBy?, hk] at h

end Cursor

namespace Parsed

variable {α : Type} {n : Nat} {c next : Cursor} {R : Site → List Token → α → Prop} {p : Parsed α n}

def One (k : Kind) (_ : Site) (ts : List Token) (t : Token) : Prop := ts = [t] ∧ t.kind = k

/-- A token of a kind and then a relation, which may depend on the token. -/
def OneThen (k : Kind) (S : Token → Site → List Token → α → Prop) (site : Site) (ts : List Token)
    (v : α) : Prop :=
  ∃ t us, ts = t :: us ∧ t.kind = k ∧ S t (site + 1) us v

/-- What is read after a token is read with the token before it. -/
theorem ReadsTo.step {t : Token} {R : Site → List Token → α → Cursor → Prop}
    (hsteps : c.Steps t next) (h : p.ReadsTo next R) :
    p.ReadsTo c fun site ts v last => ∃ us, ts = t :: us ∧ R (site + 1) us v last := by
  cases p with
  | failed => exact h
  | done v last =>
    intro hquiet
    obtain ⟨ts, hpass, hR⟩ := h hquiet
    refine ⟨t :: ts, ⟨hsteps.noticed ▸ hpass.quiet, ?_, ?_⟩, ts, rfl, hsteps.site ▸ hR⟩
    · rw [hsteps.ahead, hpass.ahead, List.cons_append]
    · rw [hpass.site, hsteps.site, List.length_cons]
      exact Nat.add_right_comm _ _ _

theorem Reads.step {t : Token} (hsteps : c.Steps t next) (h : p.Reads next R) :
    p.Reads c fun site ts v => ∃ us, ts = t :: us ∧ R (site + 1) us v :=
  ReadsTo.step hsteps h

theorem Reads.stepDone {t : Token} {v : α} {h : next.remaining < n} (hsteps : c.Steps t next)
    (hR : R c.site [t] v) : (Parsed.done v next h).Reads c R := by
  refine ((Reads.done (R := fun _ us w => us = [] ∧ w = v) ⟨rfl, rfl⟩).step hsteps).mono ?_
  rintro _ _ ⟨_, rfl, rfl, rfl⟩
  exact hR

theorem Reads.fail (what : Expected) : (c.fail what : Parsed α c.remaining).Reads c R :=
  List.cons_ne_nil _ _

theorem Reads.note {v : α} {t : Token} {e : SyntaxError} {h : (next.note t e).remaining < n} :
    (Parsed.done v (next.note t e) h).Reads c R :=
  fun hquiet => absurd hquiet (List.cons_ne_nil _ _)

/-- An error that is noticed under a condition shows that the condition does not hold. -/
theorem Reads.noteIf {condition : Bool} {e : SyntaxError}
    (h : p.Reads (c.noteIf condition e) R) : p.Reads c fun site ts v => condition = false ∧ R site ts v := by
  cases p with
  | failed => exact h
  | done v last =>
    intro hquiet
    obtain ⟨ts, hpass, hR⟩ := h hquiet
    have hnoticed := hpass.quiet
    unfold Cursor.noteIf at hnoticed
    cases condition with
    | true => exact absurd hnoticed (List.cons_ne_nil _ _)
    | false => exact ⟨ts, ⟨hnoticed, hpass.ahead, hpass.site⟩, rfl, hR⟩

theorem Reads.expect (k : Kind) (what : Expected) : (c.expect k what).Reads c (One k) := by
  unfold Cursor.expect
  split
  · next t next shorter h =>
    obtain ⟨hk, hsteps⟩ := Cursor.steps_of_accept? h
    exact .stepDone hsteps ⟨rfl, hk⟩
  · exact Reads.fail what

theorem Reads.oneThen {p : Parsed Token n} {k : Kind} {S : Token → Site → List Token → α → Prop}
    {f : (t : Token) → (next : Cursor) → next.remaining < n → Parsed α n} (h : p.Reads c (One k))
    (hf : ∀ t next h, (f t next h).Reads next (S t)) : (p.andThen f).Reads c (OneThen k S) := by
  refine (h.andThen hf).mono ?_
  rintro _ v ⟨_, us, t, rfl, ⟨rfl, hk⟩, hS⟩
  exact ⟨t, us, rfl, hk, hS⟩

/-! ## Success -/

/-- The production gives a value and stops at a cursor. -/
def Gives (p : Parsed α n) (v : α) (next : Cursor) : Prop := ∃ h, p = .done v next h

namespace Gives

variable {β : Type} {m : Nat} {v : α} {w : β} {last : Cursor}
  {f : (v : α) → (next : Cursor) → next.remaining < n → Parsed β n}

theorem done {h : next.remaining < n} : (Parsed.done v next h).Gives v next := ⟨h, rfl⟩

theorem weaken {p : Parsed α m} (h : p.Gives v next) (hmn : m ≤ n) : (p.weaken hmn).Gives v next := by
  obtain ⟨hlt, rfl⟩ := h
  exact ⟨Nat.lt_of_lt_of_le hlt hmn, rfl⟩

theorem andThen (h : p.Gives v next) (hf : ∀ h, (f v next h).Gives w last) : (p.andThen f).Gives w last := by
  obtain ⟨hlt, rfl⟩ := h
  exact hf hlt

/-- A weaker bound on what is left changes nothing in what is given. -/
theorem of_weaken {p : Parsed α m} {hmn : m ≤ n} (h : (p.weaken hmn).Gives v next) : p.Gives v next := by
  cases p with
  | done =>
    obtain ⟨_, h⟩ := h
    cases h
    exact done
  | failed =>
    obtain ⟨_, h⟩ := h
    cases h

theorem of_andThen
    (h : (p.andThen f).Gives w last) : ∃ v next h, p.Gives v next ∧ (f v next h).Gives w last := by
  cases p with
  | done v next hlt => exact ⟨v, next, hlt, done, h⟩
  | failed =>
    obtain ⟨_, h⟩ := h
    cases h

theorem map (f : α → β) (h : p.Gives v next) : (p.map f).Gives (f v) next :=
  h.andThen fun _ => done

theorem cast {ts : List Token} {site site' : Site} {line : Nat} {noticed : List Noticed}
    (h : p.Gives v ⟨ts, site, line, noticed⟩) (hsite : site = site') : p.Gives v ⟨ts, site', line, noticed⟩ :=
  hsite ▸ h

end Gives

end Parsed

namespace Cursor

variable {α : Type} {site : Site} {line : Nat} {noticed : List Noticed} {t : Token}
  {ts : List Token} {k : Kind}

theorem acceptBy?_cons {test : Token → Option α} {v : α} (h : test t = some v) :
    (Cursor.mk (t :: ts) site line noticed).acceptBy? test =
      some ⟨v, ⟨ts, site + 1, line, noticed⟩, Nat.lt_succ_self _⟩ := by
  simp only [acceptBy?, h]

theorem acceptBy?_eq_none {c : Cursor} {test : Token → Option α}
    (h : ∀ t ∈ c.ahead.head?, test t = none) : c.acceptBy? test = none := by
  unfold acceptBy?
  split
  · rfl
  · next t rest hahead => rw [h t (by rw [hahead]; rfl)]

theorem accept?_cons (h : t.kind = k) :
    (Cursor.mk (t :: ts) site line noticed).accept? k =
      some ⟨t, ⟨ts, site + 1, line, noticed⟩, Nat.lt_succ_self _⟩ :=
  acceptBy?_cons (if_pos h)

theorem accept?_eq_none {c : Cursor} (h : ∀ t ∈ c.ahead.head?, t.kind ≠ k) : c.accept? k = none :=
  acceptBy?_eq_none fun t ht => if_neg (h t ht)

theorem expect_gives (what : Expected) (h : t.kind = k) :
    ((Cursor.mk (t :: ts) site line noticed).expect k what).Gives t ⟨ts, site + 1, line, noticed⟩ := by
  unfold expect
  rw [accept?_cons h]
  exact .done

theorem noteIf_of_false {c : Cursor} {condition : Bool} (e : SyntaxError) (h : condition = false) :
    c.noteIf condition e = c := by
  subst h
  rfl

end Cursor

end Lox
