import Lox.Proofs.LayoutRun
import Lox.Proofs.Surroundings

/-!
# The references that a machine holds

A machine gets hold of code in three ways: in its control, in its tasks, and in the functions of its heap.
A step takes code apart and makes functions of it, but never makes up a reference. So code whose references
have some property is a lawful layout, with one place for all of it (`Layout.refers`), and what is true of the
references of the programs that were run is true of every reference at which a machine ever looks
(`Machine.Refers.consulted`).
-/

namespace Lox

variable {P Q : Reference → Prop}

/-- Code whose references have a property, wherever it stands. -/
def Layout.refers (P : Reference → Prop) : Layout Unit where
  top := ()
  opens _ _ := True
  declares _ _ := True
  reserves _ _ := True
  expr _ e := ∀ p ∈ e.references, P p.2
  stmt _ s := ∀ p ∈ s.references, P p.2
  routine _ r := ∀ p ∈ r.references, P p.2
  method _ r := ∀ p ∈ r.references, P p.2

theorem Stmt.references_subset_of_mem {s : Stmt} {ss : List Stmt} (h : s ∈ ss) :
    s.references ⊆ Stmt.referencesOfAll ss := by
  induction h with
  | head => exact List.subset_append_left _ _
  | tail _ _ ih => exact List.Subset.trans ih (List.subset_append_right _ _)

theorem Routine.references_subset_of_mem {r : Routine} {rs : List Routine} (h : r ∈ rs) :
    r.references ⊆ Routine.referencesOfAll rs := by
  induction h with
  | head => exact List.subset_append_left _ _
  | tail _ _ ih => exact List.Subset.trans ih (List.subset_append_right _ _)

/-- The references of a part are among those of the whole. -/
theorem Layout.refers_lawful (P : Reference → Prop) (recorded : Site → Option Nat) :
    (Layout.refers P).Lawful recorded where
  operands he e' he' p hp := he p (Expr.references_operand he' hp)
  assigned _ _ _ := trivial
  assignedTop _ _ _ := trivial
  expression he := he
  print he := he
  returns he := he
  branch {i condition yes no} hs := by
    cases no with
    | none =>
      obtain ⟨hcondition, hyes⟩ := List.forall_mem_append.1 hs
      exact ⟨hcondition, hyes, nofun⟩
    | some no =>
      obtain ⟨hothers, hno⟩ := List.forall_mem_append.1 hs
      obtain ⟨hcondition, hyes⟩ := List.forall_mem_append.1 hothers
      refine ⟨hcondition, hyes, ?_⟩
      rintro _ ⟨⟩
      exact hno
  loop hs := List.forall_mem_append.1 hs
  block hs := ⟨(), trivial, fun s hmem p hp => hs p (Stmt.references_subset_of_mem hmem hp)⟩
  declaration {i t e} hs := by
    refine ⟨trivial, fun e' he' => ?_⟩
    obtain rfl : e = some e' := he'
    exact hs
  function hs := ⟨trivial, hs⟩
  plainClass hs := ⟨trivial, fun m hm p hp => hs p (Routine.references_subset_of_mem hm hp)⟩
  subclass hs := by
    obtain ⟨hsuper, hmethods⟩ := List.forall_mem_append.1 hs
    exact ⟨trivial, hsuper, (), trivial, trivial,
      fun m hm p hp => hmethods p (Routine.references_subset_of_mem hm hp)⟩
  call {i r} hr := by
    cases r
    exact ⟨(), trivial, fun _ _ => trivial, fun s hs p hp => hr p (Stmt.references_subset_of_mem hs hp)⟩
  bind hr := ⟨(), trivial, trivial, hr⟩

/-- The references in the functions of a heap. -/
def Heap.Refers (P : Reference → Prop) (h : Heap) : Prop := (World.mk h fun _ => ()).LaidOut (.refers P)

theorem Heap.Refers.mono {h : Heap} (hh : h.Refers P) (hPQ : ∀ ref, P ref → Q ref) : h.Refers Q :=
  World.LaidOut.mono hh rfl rfl rfl rfl (fun _ _ hr p hp => hPQ p.2 (hr p hp))
    fun _ _ hr p hp => hPQ p.2 (hr p hp)

/-- The references of a machine, wherever it holds them. -/
def Machine.Refers (P : Reference → Prop) (m : Machine) : Prop :=
  ∃ recorded, m.LaidOut (.refers P) recorded fun _ => ()

namespace Machine.Refers

variable {m : Machine}

theorem start {program : Program} {s : Store} (hprogram : ∀ p ∈ Stmt.referencesOfAll program, P p.2)
    (hs : s.heap.Refers P) : (Machine.start program s).Refers P :=
  ⟨fun site => s.bindings[site]?, .start (fun _ => rfl) hs
    fun _ hmem p hp => hprogram p (Stmt.references_subset_of_mem hmem hp)⟩

theorem heap (h : m.Refers P) : m.store.heap.Refers P := by
  obtain ⟨recorded, hm⟩ := h
  exact hm.world

theorem run (h : m.Refers P) (limits : Limits) (n : Nat) : (m.run limits n).Refers P := by
  obtain ⟨recorded, hm⟩ := h
  obtain ⟨place, hrun, -⟩ := hm.run (P := fun _ => True) (Layout.refers_lawful P recorded) limits
    (fun _ _ _ => trivial) n trivial
  exact ⟨recorded, hrun⟩

/-- The reference that a machine is about to look up is one that it holds. -/
theorem consulted (h : m.Refers P) : ∀ ref ∈ m.consulted?, P ref := by
  obtain ⟨recorded, hm⟩ := h
  intro ref href
  unfold consulted? at href
  split at href
  case h_1 | h_2 | h_3 =>
    cases href
    exact hm.control (_, ref) (.head _)
  case h_4 =>
    cases href
    obtain _ | ⟨-, ⟨e, he⟩, -⟩ := hm.tasks nofun
    exact he (.assign, ref) (.head _)
  case h_5 => cases href

end Machine.Refers

end Lox
