import Lox.Proofs.Relocation
import Lox.Proofs.Surroundings
import Lox.Proofs.Verdict

/-!
# Sites are unambiguous

An expression is known by its site, and a distance is recorded under the site of the reference that it is about. So a
site must not stand for two expressions. `Session.trees` are the trees that a session gets from the sources that it is
asked about, whether there are errors in them or not. A place in them is the number of a tree and a path in it, and no
two places have expressions with the same site (`Session.serveAll_unambiguous`).

Within a tree this is `Phrase.path_eq`. From one tree to the next the sites only grow (`Session.Apart`).
-/

namespace Lox

/-- The phrase at a place of some trees, which is the number of a tree and a path in it. -/
def phraseAt? (trees : List Program) (place : Nat × List Nat) : Option Phrase :=
  trees[place.1]?.bind fun program => ((Phrase.stmts program).at? .start place.2).map Prod.snd

/-- The sites of the expressions in some trees. -/
def sitesOf (trees : List Program) : List Site :=
  trees.flatMap fun program => (Stmt.expressionsOfAll program).map Expr.site

/-- At a place of some trees stands an expression that refers to a name from a site. -/
def RefersAt (trees : List Program) (place : Nat × List Nat) (site : Site) : Prop :=
  ∃ e usage ref, phraseAt? trees place = some (.expr e) ∧ e.reference? = some (usage, ref) ∧ ref.site = site

section

variable {trees : List Program} {place place' : Nat × List Nat} {site : Site} {e e' : Expr}

theorem exists_of_phraseAt? {n : Phrase} (h : phraseAt? trees place = some n) :
    ∃ program b, trees[place.1]? = some program ∧ (Phrase.stmts program).at? .start place.2 = some (b, n) := by
  obtain ⟨program, hprogram, hmap⟩ := Option.bind_eq_some_iff.1 h
  obtain ⟨⟨b, n⟩, hpath, rfl⟩ := Option.map_eq_some_iff.1 hmap
  exact ⟨program, b, hprogram, hpath⟩

/-- The site of an expression in a tree is one of its sites. -/
theorem mem_of_at?_expr {program : Program} {b : Binder} {path : List Nat}
    (h : (Phrase.stmts program).at? .start path = some (b, .expr e)) :
    e.site ∈ (Stmt.expressionsOfAll program).map Expr.site := by
  have hmem : e.site ∈ (Phrase.stmts program).expressions.filterMap (some ∘ Expr.site) :=
    Phrase.mem_of_at? h (.head _)
  rwa [List.filterMap_eq_map] at hmem

/-- Where no two expressions have the same site, a site tells the place of its expression. -/
theorem place_eq (hnodup : (sitesOf trees).Nodup) (h : phraseAt? trees place = some (.expr e))
    (h' : phraseAt? trees place' = some (.expr e')) (hsite : e.site = e'.site) : place = place' := by
  obtain ⟨program, b, hprogram, hpath⟩ := exists_of_phraseAt? h
  obtain ⟨program', b', hprogram', hpath'⟩ := exists_of_phraseAt? h'
  have htree : place.1 = place'.1 :=
    eq_of_mem_blocks hnodup hprogram hprogram' (mem_of_at?_expr hpath) (hsite ▸ mem_of_at?_expr hpath')
  rw [← htree, hprogram] at hprogram'
  obtain rfl := Option.some.inj hprogram'
  have hsites := (List.nodup_flatMap.1 hnodup).1 program (List.mem_of_getElem? hprogram)
  rw [← List.filterMap_eq_map] at hsites
  exact Prod.ext htree (Phrase.path_eq (n := .stmts program) hsites hpath hpath' (.head _) (hsite ▸ .head _))

theorem mem_sitesOf (h : phraseAt? trees place = some (.expr e)) : e.site ∈ sitesOf trees := by
  obtain ⟨program, b, hprogram, hpath⟩ := exists_of_phraseAt? h
  exact List.mem_flatMap.2 ⟨program, List.mem_of_getElem? hprogram, mem_of_at?_expr hpath⟩

theorem phraseAt?_eq_some {program : Program} {i : Nat} (hprogram : trees[i]? = some program) {b : Binder} {n : Phrase}
    (h : Phrase.Reaches .start (.stmts program) b n) : ∃ path, phraseAt? trees (i, path) = some n := by
  obtain ⟨path, hpath⟩ := h.exists_path
  exact ⟨path, by simp [phraseAt?, hprogram, hpath]⟩

/-- Every reference in some trees has a place. -/
theorem exists_refersAt {program : Program} (hprogram : program ∈ trees)
    (hsite : site ∈ (Phrase.stmts program).sites) : ∃ place, RefersAt trees place site := by
  rw [Phrase.sites_eq] at hsite
  obtain ⟨e, he, hsite⟩ := List.mem_filterMap.1 hsite
  obtain ⟨⟨usage, ref⟩, hreference, rfl⟩ := Option.map_eq_some_iff.1 hsite
  obtain ⟨i, hi⟩ := List.mem_iff_getElem?.1 hprogram
  obtain ⟨b, hreaches⟩ := (Phrase.stmts program).exists_reaches_expr .start e he
  obtain ⟨path, hpath⟩ := phraseAt?_eq_some hi hreaches
  exact ⟨(i, path), e, usage, ref, hpath, hreference, rfl⟩

theorem Expr.site_of_reference? {p : Usage × Reference} (h : e.reference? = some p) : p.2.site = e.site := by
  cases e <;> cases h <;> rfl

end

namespace Session

/-- The source that a request is about. -/
def Request.source : Request → Text
  | .read source | .run _ _ source => source

/-- The trees that are read to answer requests, one for each of them, with or without errors. -/
def trees (s : Session) : List Request → List Program
  | [] => []
  | request :: rest => s.program request.source :: (s.serve request).trees rest

variable {s : Session} {read : List Program} {site : Site}

/-- The expressions of trees stand at different sites before those of a session, which has recorded no distance but
for references in these trees. -/
structure Apart (s : Session) (trees : List Program) : Prop where
  nodup : (sitesOf trees).Nodup
  before : ∀ site ∈ sitesOf trees, site < s.nextSite
  recorded : ∀ site, s.store.bindings[site]? ≠ none → ∃ program ∈ trees, site ∈ (Phrase.stmts program).sites

theorem nextSite_serve (s : Session) (request : Request) :
    (s.serve request).nextSite = (Reading.ofSource s.nextSite request.source).nextSite := by
  cases request with
  | read source => rfl
  | run limits steps source =>
    by_cases hsource : s.Accepts source
    · exact (run_of_accepts hsource limits steps).2.1
    · exact (run_of_not_accepts hsource limits steps).2

/-- Adding the distances of a program changes nothing at a site that is not in it. -/
theorem bindings_opening {source : Text} (hsite : site ∉ (Phrase.stmts (s.program source)).sites) :
    s.distances source site = s.store.bindings[site]? := by
  have hnone : (Stmt.bindAll (s.program source) .start).bindings.lookup site = none :=
    ((Phrase.stmts (s.program source)).adds .start).lookup hsite
  rw [Sound.distances_eq, hnone, Option.none_or]

theorem bindings_run {source : Text} (hsource : s.Accepts source) (limits : Limits) (steps : Nat) :
    (s.run limits steps source).session.store.bindings = (s.opening source).bindings :=
  (run_of_accepts hsource limits steps).1 ▸ (Machine.keeps_run limits steps _).bindings

theorem bindings_serve {request : Request} (hsite : site ∉ (Phrase.stmts (s.program request.source)).sites) :
    (s.serve request).store.bindings[site]? = s.store.bindings[site]? := by
  cases request with
  | read source => rfl
  | run limits steps source =>
    by_cases hsource : s.Accepts source
    · exact (congrArg (·[site]?) (bindings_run hsource limits steps)).trans (bindings_opening hsite)
    · exact congrArg (·.bindings[site]?) (run_of_not_accepts hsource limits steps).1

theorem not_mem_sites (hsite : site < s.nextSite) (source : Text) :
    site ∉ (Phrase.stmts (s.program source)).sites :=
  fun hmem => Nat.not_le.2 hsite (Sound.le_of_mem_sites hmem).1

/-- A request leaves the expressions that were read at different sites. -/
theorem Apart.serve (h : s.Apart read) (request : Request) :
    (s.serve request).Apart (read ++ [s.program request.source]) := by
  have hsited := Reading.sited s.nextSite request.source
  have hnext := Reading.nextSite_eq s.nextSite request.source
  have hmap : (Stmt.expressionsOfAll (s.program request.source)).map Expr.site =
      (Stmt.nodesOfAll (s.program request.source)).map TreeNode.site := by
    rw [Stmt.nodesOfAll, List.map_map]
    exact List.map_congr_left fun e _ => e.site_node.symm
  have hsites : sitesOf (read ++ [s.program request.source]) =
      sitesOf read ++ (Stmt.nodesOfAll (s.program request.source)).map TreeNode.site := by
    simp only [sitesOf, List.flatMap_append, List.flatMap_singleton, hmap]
  refine ⟨?_, ?_, fun site hsite => ?_⟩
  · rw [hsites]
    refine List.nodup_append.2 ⟨h.nodup, hsited.nodup, ?_⟩
    rintro site hread _ hmem rfl
    exact Nat.not_le.2 (h.before site hread) (hsited.within site hmem).1
  · rw [hsites, nextSite_serve, hnext]
    refine List.forall_mem_append.2 ⟨fun site hsite => ?_, fun site hsite => (hsited.within site hsite).2⟩
    exact Nat.lt_add_right _ (h.before site hsite)
  · by_cases hmem : site ∈ (Phrase.stmts (s.program request.source)).sites
    · exact ⟨_, List.mem_append_right _ (.head _), hmem⟩
    · obtain ⟨program, hprogram, hmem⟩ := h.recorded site (bindings_serve hmem ▸ hsite)
      exact ⟨program, List.mem_append_left _ hprogram, hmem⟩

theorem Apart.foldl (h : s.Apart read) (requests : List Request) :
    (requests.foldl Session.serve s).Apart (read ++ s.trees requests) := by
  induction requests generalizing s read with
  | nil => simpa [Session.trees] using h
  | cons request requests ih => simpa [Session.trees] using ih (h.serve request)

/-- Requests do not record anything about sites that were given out before. -/
theorem bindings_foldl (hsite : site < s.nextSite) (requests : List Request) :
    (requests.foldl Session.serve s).store.bindings[site]? = s.store.bindings[site]? := by
  induction requests generalizing s with
  | nil => rfl
  | cons request requests ih =>
    have hnext : site < (s.serve request).nextSite := by
      rw [nextSite_serve]
      exact Nat.lt_of_lt_of_le hsite (Reading.le_nextSite _ _)
    exact (ih hnext).trans (bindings_serve (not_mem_sites hsite _))

theorem apart_serveAll (color showTrace : Bool) (requests : List Request) :
    (serveAll color showTrace requests).Apart ((new color showTrace).trees requests) := by
  have hnew : (new color showTrace).Apart [] :=
    ⟨List.nodup_nil, nofun, fun _ h => absurd Std.TreeMap.getElem?_emptyc h⟩
  exact hnew.foldl requests

/-- Expressions are known by their sites. Whatever sources a session is asked to read or to run, with or without errors
in them, every expression in the trees that it gets stands at some place, and no two places have expressions with the
same site, neither in one tree nor in two; so no expression stands at two places. Everything that is recorded belongs to
one place in one tree, and adding the distances of any later program, or answering whatever later requests, leaves the
distance that is recorded about an earlier expression as it is, or leaves it without one. -/
theorem serveAll_unambiguous (color showTrace : Bool) (requests : List Request) :
    let s := serveAll color showTrace requests
    let trees := (new color showTrace).trees requests
    (∀ i program, trees[i]? = some program → ∀ e ∈ Stmt.expressionsOfAll program,
      ∃ path, phraseAt? trees (i, path) = some (.expr e)) ∧
    (∀ place place' e e', phraseAt? trees place = some (.expr e) → phraseAt? trees place' = some (.expr e') →
      e.site = e'.site → place = place') ∧
    (∀ site d, s.store.bindings[site]? = some d → ∃! place, RefersAt trees place site) ∧
    ∀ place e, phraseAt? trees place = some (.expr e) →
      (∀ source, (s.store.addBindings (Bound.ofProgram (s.program source)).bindings).bindings[e.site]? =
        s.store.bindings[e.site]?) ∧
      ∀ later, (serveAll color showTrace (requests ++ later)).store.bindings[e.site]? =
        s.store.bindings[e.site]? := by
  intro s trees
  have hapart : s.Apart trees := apart_serveAll color showTrace requests
  refine ⟨fun i program hprogram e he => ?_, fun _ _ _ _ h h' => place_eq hapart.nodup h h',
    fun site d hd => ?_, fun place e h => ?_⟩
  · obtain ⟨b, hreaches⟩ := (Phrase.stmts program).exists_reaches_expr .start e he
    exact phraseAt?_eq_some hprogram hreaches
  · obtain ⟨program, hprogram, hsite⟩ := hapart.recorded site (by simp [hd])
    obtain ⟨place, hplace⟩ := exists_refersAt hprogram hsite
    refine ⟨place, hplace, ?_⟩
    rintro place' ⟨e', usage', ref', h', href', hsite'⟩
    obtain ⟨e, usage, ref, h, href, rfl⟩ := hplace
    exact place_eq hapart.nodup h' h
      ((Expr.site_of_reference? href').symm.trans (hsite'.trans (Expr.site_of_reference? href)))
  · have hsite := hapart.before e.site (mem_sitesOf h)
    refine ⟨fun source => bindings_opening (not_mem_sites hsite source), fun later => ?_⟩
    rw [serveAll, List.foldl_append]
    exact bindings_foldl hsite later

end Session

/-- A loop whose increment is put behind its body, in a block that declares the name. -/
def incrementSource : Text := text "\x7bvar a;for(;a=a;a)a;\x7d"

/-- The increment of the loop refers to the name from one place, over the scopes of the body and of the loop, whatever
comes later. -/
theorem Session.serveAll_unambiguous_loop :
    let requests : List Request := [.run ⟨10, fun _ => ⟨0⟩⟩ 100 incrementSource]
    (serveAll false false requests).store.bindings[11]? = some 2 ∧
    (∃! place, RefersAt ((new false false).trees requests) place 11) ∧
    ∀ later, (serveAll false false (requests ++ later)).store.bindings[11]? = some 2 := by
  intro requests
  have hbinding : (serveAll false false requests).store.bindings[11]? = some 2 := by decide +kernel
  obtain ⟨-, -, hrecorded, hkept⟩ := serveAll_unambiguous false false requests
  obtain ⟨place, hplace, hunique⟩ := hrecorded 11 2 hbinding
  have ⟨e, usage, ref, he, href, hsite⟩ := hplace
  have hsite : e.site = 11 := (Expr.site_of_reference? href).symm.trans hsite
  refine ⟨hbinding, ⟨place, hplace, hunique⟩, fun later => ?_⟩
  rw [← hbinding, ← hsite]
  exact (hkept place e he).2 later

end Lox
