import Mathlib.Data.Finset.Prod
import Mathlib.Data.Finset.Union

/-!
# Liveness along a run

A run is a sequence of accesses, each of which **reads and then writes** some variables. A variable is
live when the run reads it before it writes it (`Live`), and writing `d` clashes with `o` when `o` is read or
written by the same access or live after it (`Clash`): the two cannot share a register.

`scan` goes through a stretch of accesses backwards, with the variables live after it, and records the
clashes it meets. It misses neither a live variable (`mem_scan_of_live`) nor a clash of the stretch
(`mem_scan_of_clash`).
-/

namespace CoilLang.Liveness

variable {α : Type*}

structure Access (α : Type*) where
  reads : List α
  writes : List α

/-- The variable is read before it is written. -/
def Live (o : α) : List (Access α) → Prop
  | [] => False
  | a :: t => o ∈ a.reads ∨ (o ∉ a.writes ∧ Live o t)

/-- Somewhere `d` is written while `o` is accessed or live. -/
def Clash (d o : α) : List (Access α) → Prop
  | [] => False
  | a :: t => (d ∈ a.writes ∧ (o ∈ a.reads ∨ o ∈ a.writes ∨ Live o t)) ∨ Clash d o t

variable [DecidableEq α]

/-- What is live before an access, and the pairs it makes clash. -/
def back (a : Access α) (s : Finset α × Finset (α × α)) : Finset α × Finset (α × α) :=
  ((s.1 \ a.writes.toFinset) ∪ a.reads.toFinset,
    s.2 ∪ (a.writes.toFinset ×ˢ (s.1 ∪ a.reads.toFinset ∪ a.writes.toFinset)).filter fun e ↦ e.2 ≠ e.1)

/-- Backwards through a stretch of accesses. -/
def scan (run : List (Access α)) (s : Finset α × Finset (α × α)) : Finset α × Finset (α × α) :=
  run.foldr back s

variable {a : Access α} {run t : List (Access α)} {s s' : Finset α × Finset (α × α)} {d o : α}

theorem mem_back : o ∈ (back a s).1 ↔ o ∈ a.reads ∨ (o ∉ a.writes ∧ o ∈ s.1) := by
  simp only [back, Finset.mem_union, Finset.mem_sdiff, List.mem_toFinset]
  tauto

theorem mem_back_edges (hd : d ∈ a.writes) (ho : o ∈ a.reads ∨ o ∈ a.writes ∨ o ∈ s.1) (hne : o ≠ d) :
    (d, o) ∈ (back a s).2 := by
  refine Finset.mem_union_right _ (Finset.mem_filter.2 ⟨Finset.mem_product.2 ⟨?_, ?_⟩, hne⟩)
  · exact List.mem_toFinset.2 hd
  · simp only [Finset.mem_union, List.mem_toFinset]
    tauto

theorem mem_scan_of_live (ht : Live o t → o ∈ s.1) (h : Live o (run ++ t)) : o ∈ (scan run s).1 := by
  induction run with
  | nil => exact ht h
  | cons a run ih =>
    rw [scan, List.foldr_cons, mem_back]
    exact h.imp_right fun h ↦ ⟨h.1, ih h.2⟩

/-- A clash of the stretch is recorded; any other is one of what follows. -/
theorem mem_scan_of_clash (ht : Live o t → o ∈ s.1) (hne : o ≠ d) (h : Clash d o (run ++ t)) :
    (d, o) ∈ (scan run s).2 ∨ Clash d o t := by
  induction run with
  | nil => exact Or.inr h
  | cons a run ih =>
    rcases h with ⟨hd, ho⟩ | h
    · refine Or.inl (mem_back_edges hd ?_ hne)
      exact ho.imp_right (Or.imp_right (mem_scan_of_live ht))
    · exact (ih h).imp_left fun h ↦ Finset.mem_union_left _ h

theorem subset_scan_edges : s.2 ⊆ (scan run s).2 := by
  induction run with
  | nil => exact Finset.Subset.refl _
  | cons a run ih => exact ih.trans Finset.subset_union_left

/-- More variables live after a stretch, more before it. -/
theorem scan_mono (h : s.1 ⊆ s'.1) : (scan run s).1 ⊆ (scan run s').1 := by
  induction run with
  | nil => exact h
  | cons a run ih => exact Finset.union_subset_union_left (Finset.sdiff_subset_sdiff ih (Finset.Subset.refl _))

/-- What is live before a stretch is live after it or read in it. -/
theorem scan_subset {U : Finset α} (hs : s.1 ⊆ U) (hrun : ∀ a ∈ run, ∀ o ∈ a.reads, o ∈ U) :
    (scan run s).1 ⊆ U := by
  induction run with
  | nil => exact hs
  | cons a run ih =>
    rw [List.forall_mem_cons] at hrun
    refine Finset.union_subset (Finset.sdiff_subset.trans (ih hrun.2)) fun o ho ↦ ?_
    exact hrun.1 o (List.mem_toFinset.1 ho)

end CoilLang.Liveness
