import Lox.Proofs.SideBySide
import Lox.Proofs.Verdict

/-!
# Reading comes to the end of the source

`Session.read_complete` is the main result. However badly a source is broken, every declaration that is begun passes at
least one token, so reading one declaration after the other comes to the end of the source. What is reported on the
way is what a reader reports that scans no further than it looks ahead (`Scan.reports`): each lexical error as soon as
the scan comes to it, and each syntax error while the token before which it was noticed is current. So every lexical
error is reported, in the order of the source.
-/

namespace Lox

variable {findings : List Finding} {site : Site}

/-- The error was found by scanning. -/
def StaticError.isLexical (e : StaticError) : Bool :=
  match e.cause with
  | .lexical _ => true
  | _ => false

/-! ## Progress -/

/-- The cursor behind the declaration that it stands before; at the end of the source it stays. -/
def Cursor.afterDeclaration (c : Cursor) : Cursor :=
  if h : 0 < c.remaining then (Stmt.readDeclaration c h).next else c

namespace Stmt

/-- A declaration passes at least one token, whether it succeeds or not. -/
theorem moves_readDeclaration (c : Cursor) (h : 0 < c.remaining) :
    ∃ used new, c.Moves used new (readDeclaration c h).next ∧ used ≠ [] := by
  obtain ⟨used, new, hmoves, -⟩ := (readDeclaration_alike (.refl c) h h).2.moves
  refine ⟨used, new, hmoves, ?_⟩
  rintro rfl
  have hlength := congrArg List.length hmoves.ahead
  exact Nat.ne_of_gt (readDeclaration c h).shorter hlength

/-- Reading takes no more rounds than there are tokens. -/
theorem exists_rounds (c : Cursor) : ∃ n ≤ c.remaining, Cursor.afterDeclaration^[n] c = (readAll c).2 := by
  rw [readAll]
  by_cases hend : c.remaining = 0
  · rw [dif_pos hend]
    exact ⟨0, Nat.zero_le _, rfl⟩
  · rw [dif_neg hend]
    have hpos := Nat.pos_of_ne_zero hend
    have hshorter := (readDeclaration c hpos).shorter
    obtain ⟨n, hn, hlast⟩ := exists_rounds (readDeclaration c hpos).next
    refine ⟨n + 1, by omega, ?_⟩
    rw [Function.iterate_succ_apply, Cursor.afterDeclaration, dif_pos hpos]
    exact hlast
termination_by c.remaining

end Stmt

/-! ## The order of reports -/

/-- The errors that were noticed while the token at a site was current. -/
def noticedAt (noticed : List Noticed) (site : Site) : List StaticError :=
  (noticed.filter (·.site = site)).map (·.error)

/-- The reports of a reader that scans no further than it looks ahead. A lexical error is reported when the scan comes
to it. Once the token at a site is current, or the end of the source is, everything is reported that the reader notices
there; only then the scan goes on, unless this is the last token that the reader comes to. -/
def Scan.reports (noted : Site → List StaticError) (last site : Site) : List Finding → List StaticError
  | [] => noted site
  | .error line e :: rest => .ofLexical line e :: reports noted last site rest
  | .token _ :: rest => noted site ++ if site < last then reports noted last (site + 1) rest else []

/-- Only what is noticed from the current site on is still to be reported. -/
theorem Scan.reports_congr {noted noted' : Site → List StaticError} {last : Site}
    (h : ∀ s, site ≤ s → noted s = noted' s) :
    reports noted last site findings = reports noted' last site findings := by
  induction findings generalizing site with
  | nil => exact h site (Nat.le_refl site)
  | cons f rest ih =>
    cases f with
    | error line e => exact congrArg _ (ih h)
    | token t =>
      have hrest := ih fun s hs => h s (Nat.le_trans (Nat.le_succ site) hs)
      rw [reports, reports, h site (Nat.le_refl site), hrest]

/-- The lexical errors stand in the order of their sites, from the first site on. -/
theorem Scan.le_of_mem_errorsWithPosition {p : Nat × StaticError} (h : p ∈ errorsWithPosition site findings) :
    site ≤ p.1 := by
  induction findings generalizing site with
  | nil => cases h
  | cons f rest ih =>
    cases f with
    | token t => exact Nat.le_trans (Nat.le_succ site) (ih h)
    | error line e =>
      rcases List.mem_cons.1 h with rfl | h
      · exact Nat.le_refl _
      · exact ih h

namespace Reading

variable {lexical : List (Site × StaticError)} {noticed : List Noticed} {site : Site}

/-- What was noticed before all lexical errors that are left is reported first. -/
theorem merge_cons_of_lt {n : Noticed} (h : ∀ p ∈ lexical, n.site < p.1) :
    merge lexical (n :: noticed) = n.error :: merge lexical noticed := by
  cases lexical with
  | nil => rfl
  | cons p lexical =>
    have hlt : ¬ p.1 ≤ n.site := Nat.not_le.2 (h p List.mem_cons_self)
    simp [merge, hlt]

/-- A lexical error that stands before all that was noticed is reported first. -/
theorem merge_cons_of_le {e : StaticError} (h : ∀ n ∈ noticed, site ≤ n.site) :
    merge ((site, e) :: lexical) noticed = e :: merge lexical noticed := by
  cases noticed with
  | nil => simp [merge]
  | cons n noticed => simp [merge, h n List.mem_cons_self]

/-- Of sorted errors those at the first site are reported before the lexical errors behind it. -/
theorem exists_later (hlexical : ∀ p ∈ lexical, site < p.1)
    (hsorted : noticed.Pairwise fun a b => a.site ≤ b.site) (hfrom : ∀ n ∈ noticed, site ≤ n.site) :
    ∃ later, later <:+ noticed ∧ (∀ n ∈ later, site < n.site) ∧
      merge lexical noticed = noticedAt noticed site ++ merge lexical later ∧
      ∀ s, site < s → noticedAt noticed s = noticedAt later s := by
  induction noticed with
  | nil => exact ⟨[], List.suffix_refl [], by simp, rfl, fun _ _ => rfl⟩
  | cons n noticed ih =>
    obtain ⟨hfirst, hsorted⟩ := List.pairwise_cons.1 hsorted
    rcases Nat.lt_or_eq_of_le (hfrom n List.mem_cons_self) with hlt | heq
    · -- From here on nothing was noticed at the site.
      have hlater : ∀ m ∈ n :: noticed, site < m.site := by
        rintro m (_ | ⟨_, hm⟩)
        · exact hlt
        · exact Nat.lt_of_lt_of_le hlt (hfirst m hm)
      have hnone : (n :: noticed).filter (·.site = site) = [] :=
        List.filter_eq_nil_iff.2 fun m hm => by simpa using Nat.ne_of_gt (hlater m hm)
      exact ⟨n :: noticed, List.suffix_refl _, hlater, by rw [noticedAt, hnone]; rfl, fun _ _ => rfl⟩
    · obtain ⟨later, hsuffix, hlater, hmerge, hother⟩ := ih hsorted fun m hm => hfrom m (List.mem_cons_of_mem n hm)
      refine ⟨later, hsuffix.trans (List.suffix_cons n noticed), hlater, ?_, fun s hs => ?_⟩
      · rw [merge_cons_of_lt fun p hp => heq ▸ hlexical p hp, hmerge]
        simp [noticedAt, ← heq]
      · rw [← hother s hs]
        simp [noticedAt, ← heq, Nat.ne_of_lt hs]

theorem merge_nil_left (noticed : List Noticed) : merge [] noticed = noticed.map (·.error) := by
  induction noticed with
  | nil => rfl
  | cons n noticed ih => exact congrArg (n.error :: ·) ih

theorem merge_nil (h : ∀ n ∈ noticed, n.site = site) : merge [] noticed = noticedAt noticed site := by
  have hall : noticed.filter (·.site = site) = noticed := List.filter_eq_self.2 fun n hn => decide_eq_true (h n hn)
  rw [merge_nil_left, noticedAt, hall]

/-- Merging by sites reports in the order of a reader that scans no further than it looks ahead. -/
theorem merge_eq_reports {findings : List Finding} {last : Site} {line : Nat} (hsite : site ≤ last)
    (hlast : last ≤ site + (Scan.mk findings line).tokens.length)
    (hsorted : noticed.Pairwise fun a b => a.site ≤ b.site)
    (hwithin : ∀ n ∈ noticed, site ≤ n.site ∧ n.site ≤ last) :
    merge ((Scan.errorsWithPosition site findings).filter (·.1 ≤ last)) noticed =
      Scan.reports (noticedAt noticed) last site findings := by
  induction findings generalizing site noticed with
  | nil => exact merge_nil fun n hn => Nat.le_antisymm ((hwithin n hn).2.trans hlast) (hwithin n hn).1
  | cons f rest ih =>
    cases f with
    | error line e =>
      rw [Scan.errorsWithPosition, List.filter_cons, if_pos (decide_eq_true hsite),
        merge_cons_of_le fun n hn => (hwithin n hn).1, ih hsite hlast hsorted hwithin]
      rfl
    | token t =>
      rw [Scan.errorsWithPosition, Scan.reports]
      split
      · next hlt =>
        obtain ⟨later, hsuffix, hlater, hmerge, hother⟩ := exists_later
          (fun p hp => Scan.le_of_mem_errorsWithPosition (List.mem_of_mem_filter hp)) hsorted
          fun n hn => (hwithin n hn).1
        have hrest := ih hlt (hlast.trans (Nat.le_of_eq (Nat.add_right_comm site 1 _).symm))
          (hsorted.sublist hsuffix.sublist) fun n hn => ⟨hlater n hn, (hwithin n (hsuffix.subset hn)).2⟩
        rw [hmerge, hrest, Scan.reports_congr fun s hs => hother s hs]
      · next hstop =>
        -- The scan does not come to the lexical errors behind the last token.
        have hnone : (Scan.errorsWithPosition (site + 1) rest).filter (·.1 ≤ last) = [] := by
          refine List.filter_eq_nil_iff.2 fun p hp hle => hstop ?_
          exact Nat.lt_of_lt_of_le (Scan.le_of_mem_errorsWithPosition hp) (of_decide_eq_true hle)
        rw [hnone, List.append_nil]
        exact merge_nil fun n hn => Nat.le_antisymm ((hwithin n hn).2.trans (Nat.not_lt.1 hstop)) (hwithin n hn).1

end Reading

/-- Of the reports of a reader that comes to the end, those of scanning are the lexical errors in the order of the
source. -/
theorem Scan.filter_reports {noted : Site → List StaticError} {last : Site} {line : Nat}
    (hlast : site + (Scan.mk findings line).tokens.length ≤ last)
    (h : ∀ s, ∀ e ∈ noted s, e.isLexical = false) :
    (reports noted last site findings).filter (·.isLexical) = (Scan.mk findings line).errors := by
  have hnone (s : Site) : (noted s).filter (·.isLexical) = [] :=
    List.filter_eq_nil_iff.2 fun e he => by rw [h s e he]; exact Bool.false_ne_true
  induction findings generalizing site with
  | nil => exact hnone site
  | cons f rest ih =>
    cases f with
    | error line e =>
      rw [reports, List.filter_cons_of_pos rfl, ih hlast]
      rfl
    | token t =>
      have hnext : site + 1 + (Scan.mk rest line).tokens.length ≤ last :=
        (Nat.le_of_eq (Nat.add_right_comm site 1 _)).trans hlast
      have hlt : site < last := Nat.lt_of_lt_of_le (Nat.lt_succ_self site) ((Nat.le_add_right _ _).trans hnext)
      rw [reports, if_pos hlt, List.filter_append, hnone site, ih hnext]
      rfl

theorem Scan.errorsWithPosition_eq_nil_iff {position line : Nat} :
    errorsWithPosition position findings = [] ↔ (Scan.mk findings line).errors = [] := by
  induction findings generalizing position with
  | nil => simp [errorsWithPosition, errors]
  | cons f rest ih =>
    cases f with
    | error line e => simp [errorsWithPosition, errors]
    | token t => exact ih

namespace Reading

variable (site : Site) (source : Text)

/-- The errors of a source are reported in the order of a reader that scans no further than it looks ahead. -/
theorem errors_eq_reports :
    let scan := Scan.ofSource source
    let last := (readTokens site scan.tokens scan.endLine).2
    (ofSource site source).errors = Scan.reports (noticedAt last.noticed.reverse) last.site site scan.findings := by
  intro scan last
  obtain ⟨new, hmoves, hnoticed, -⟩ := moves_readTokens site source
  have hsorted : last.noticed.reverse.Pairwise fun a b => a.site ≤ b.site := by
    rw [hnoticed]
    exact List.pairwise_reverse.2 hmoves.ordered
  refine @merge_eq_reports _ _ _ _ scan.endLine hmoves.site_le (Nat.le_of_eq hmoves.site) hsorted fun n hn => ?_
  have hbetween := hmoves.between n (hnoticed ▸ List.mem_reverse.1 hn)
  exact ⟨hbetween.first_le, hbetween.le_last⟩

/-- All lexical errors of a source are reported, in order. -/
theorem filter_errors : (ofSource site source).errors.filter (·.isLexical) = (Scan.ofSource source).errors := by
  obtain ⟨new, hmoves, hnoticed, -⟩ := moves_readTokens site source
  rw [errors_eq_reports]
  refine Scan.filter_reports (Nat.le_of_eq hmoves.site.symm) fun s e he => ?_
  obtain ⟨n, hn, rfl⟩ := List.mem_map.1 he
  have hmem : n ∈ new := hnoticed ▸ List.mem_reverse.1 (List.mem_filter.1 hn).1
  obtain ⟨t, e, hgrammar⟩ := (hmoves.between n hmem).grammar
  rw [hgrammar]
  rfl

theorem errors_ne_nil_iff :
    (ofSource site source).errors ≠ [] ↔ (Scan.ofSource source).errors ≠ [] ∨
      (readTokens site (Scan.ofSource source).tokens (Scan.ofSource source).endLine).2.noticed ≠ [] := by
  have hlexical : Scan.errorsWithPosition site (Scan.ofSource source).findings = [] ↔
      (Scan.ofSource source).errors = [] := Scan.errorsWithPosition_eq_nil_iff
  rw [Ne, errors_eq_nil_iff, hlexical, not_and_or]

end Reading

/-- Reading a source comes to its end, however badly it is broken: each declaration that is begun with a token ahead
passes some tokens, whether it succeeds or not, so after as many declarations as there are tokens, or fewer, none is
ahead. The errors are reported as they are found while the source is scanned one token ahead; those of scanning are
all that scanning the source alone finds, in the same order. An error is remembered exactly if one was reported. -/
theorem Session.read_complete (s : Session) (source : Text) :
    let scan := Scan.ofSource source
    let first : Cursor := ⟨scan.tokens, s.nextSite, scan.endLine, []⟩
    let last := (readTokens s.nextSite scan.tokens scan.endLine).2
    let after := (s.read source).1
    let notices := (s.read source).2.1
    let reading := (s.read source).2.2
    (∀ (c : Cursor) (h : 0 < c.remaining), ∃ used, used ≠ [] ∧
      c.ahead = used ++ (Stmt.readDeclaration c h).next.ahead ∧
      (Stmt.readDeclaration c h).next.site = c.site + used.length) ∧
    (∃ rounds ≤ scan.tokens.length, Cursor.afterDeclaration^[rounds] first = last) ∧
    (last.ahead = [] ∧ last.site = s.nextSite + scan.tokens.length) ∧
    reading.errors = Scan.reports (noticedAt last.noticed.reverse) last.site s.nextSite scan.findings ∧
    reading.errors.filter (·.isLexical) = scan.errors ∧
    (after.console.hadError = true ↔ s.console.hadError = true ∨ scan.errors ≠ [] ∨ last.noticed ≠ []) ∧
    (∃ reports ok, notices = reports ++ [.record (.parsed reading.program.length ok)] ∧
      (ok = false ↔ scan.errors ≠ [] ∨ last.noticed ≠ [])) := by
  intro scan first last after notices reading
  obtain ⟨new, hmoves, -, hend, -⟩ := Reading.moves_readTokens s.nextSite source
  have hflag := Reading.errors_ne_nil_iff s.nextSite source
  refine ⟨fun c h => ?_, Stmt.exists_rounds first, ⟨hend, hmoves.site⟩, Reading.errors_eq_reports _ _,
    Reading.filter_errors _ _, ?_, _, _, rfl, ?_⟩
  · obtain ⟨used, new, hmoves, hused⟩ := Stmt.moves_readDeclaration c h
    exact ⟨used, hused, hmoves.ahead, hmoves.site⟩
  · have hafter : after.console = (s.reportStatic (Reading.ofSource s.nextSite source).errors).1.console := rfl
    rw [← hflag, hafter, reportStatic_eq]
    simp
  · rw [← hflag]
    simp

end Lox
