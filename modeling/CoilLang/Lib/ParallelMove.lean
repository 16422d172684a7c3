import Mathlib.Data.List.Perm.Subperm
import Mathlib.Logic.Function.Basic

/-!
# Parallel moves, one after the other

A list of moves `(d, s)` read **in parallel** gives every `d` the value its `s` had before any of them
ran. `runMoves` runs moves **in order**. `Parallel tmp moves ρ ρ'` says that `ρ'` is the outcome of the
parallel moves from `ρ`, up to the register `tmp`.

Two rules take parallel moves apart. `Parallel.free` runs a move first whose destination no move
reads any more. `Parallel.cut` saves a destination in `tmp`, runs its move, and lets the others read
`tmp` in its place; it needs that **no move reads `tmp` yet**. When no move is free this holds by
counting (`sources_perm`): distinct destinations that are all read are as many as the reads, so the
sources are the destinations in another order, and `tmp` is none of them.
-/

namespace CoilLang

variable {R V : Type*} [DecidableEq R]

/-- Run moves in order; a move is a destination and a source. -/
def runMoves (moves : List (R × R)) (ρ : R → V) : R → V :=
  moves.foldl (fun ρ m ↦ Function.update ρ m.1 (ρ m.2)) ρ

omit [DecidableEq R] in
/-- What parallel moves lead to, up to `tmp`. -/
structure Parallel (tmp : R) (moves : List (R × R)) (ρ ρ' : R → V) : Prop where
  moved : ∀ m ∈ moves, ρ' m.1 = ρ m.2
  kept : ∀ r, r ∉ moves.map Prod.fst → r ≠ tmp → ρ' r = ρ r

@[simp] theorem runMoves_nil (ρ : R → V) : runMoves [] ρ = ρ := rfl

@[simp] theorem runMoves_cons (m : R × R) (moves : List (R × R)) (ρ : R → V) :
    runMoves (m :: moves) ρ = runMoves moves (Function.update ρ m.1 (ρ m.2)) := rfl

variable {tmp : R} {moves rest : List (R × R)} {m : R × R} {ρ ρ' : R → V}

namespace Parallel

omit [DecidableEq R] in
theorem nil : Parallel tmp [] ρ ρ := ⟨by simp, fun _ _ _ ↦ rfl⟩

omit [DecidableEq R] in
theorem perm (h : Parallel tmp rest ρ ρ') (hp : moves.Perm rest) : Parallel tmp moves ρ ρ' :=
  ⟨fun n hn ↦ h.moved n (hp.mem_iff.1 hn), fun r hr ↦ h.kept r fun hm ↦
    hr ((hp.map Prod.fst).mem_iff.2 hm)⟩

/-- A move whose destination no other move reads or writes can run first. -/
theorem free (hr : m.1 ∉ rest.map Prod.snd) (hw : m.1 ∉ rest.map Prod.fst) (ht : m.1 ≠ tmp)
    (h : Parallel tmp rest (Function.update ρ m.1 (ρ m.2)) ρ') :
    Parallel tmp (m :: rest) ρ ρ' where
  moved n hn := by
    rcases List.mem_cons.1 hn with rfl | hn
    · rw [h.kept _ hw ht, Function.update_self]
    · have hne : n.2 ≠ m.1 := fun he ↦ hr (he ▸ List.mem_map_of_mem hn)
      rw [h.moved n hn, Function.update_of_ne hne]
  kept r hm hrt := by
    rw [List.map_cons, List.mem_cons, not_or] at hm
    rw [h.kept r hm.2 hrt, Function.update_of_ne hm.1]

/-- Let the moves that read `d` read `tmp` in its place. -/
def reroute (tmp d : R) (moves : List (R × R)) : List (R × R) :=
  moves.map fun m ↦ (m.1, if m.2 = d then tmp else m.2)

@[simp] theorem length_reroute (tmp d : R) (moves : List (R × R)) :
    (reroute tmp d moves).length = moves.length := by
  simp [reroute]

@[simp] theorem map_fst_reroute (tmp d : R) (moves : List (R × R)) :
    (reroute tmp d moves).map Prod.fst = moves.map Prod.fst := by
  simp [reroute, Function.comp_def]

/-- With the value of its destination in `tmp`, any move can run first. -/
theorem cut (hs : tmp ∉ (m :: rest).map Prod.snd) (hw : m.1 ∉ rest.map Prod.fst) (ht : m.1 ≠ tmp)
    (h : Parallel tmp (reroute tmp m.1 rest) (runMoves [(tmp, m.1), m] ρ) ρ') :
    Parallel tmp (m :: rest) ρ ρ' := by
  have hread (n : R × R) (hn : n ∈ m :: rest) : n.2 ≠ tmp :=
    fun he ↦ hs (he ▸ List.mem_map_of_mem hn)
  have hrun (r : R) (h1 : r ≠ m.1) (h2 : r ≠ tmp) : runMoves [(tmp, m.1), m] ρ r = ρ r := by
    simp [Function.update_of_ne, h1, h2]
  refine ⟨fun n hn ↦ ?_, fun r hm hrt ↦ ?_⟩
  · rcases List.mem_cons.1 hn with rfl | hn'
    · rw [h.kept _ (by rwa [map_fst_reroute]) ht]
      simp [Function.update_of_ne (hread n hn)]
    · have hmoved := h.moved _ (List.mem_map_of_mem hn')
      by_cases he : n.2 = m.1
      · -- the value of `m.1` is in `tmp` by now
        rw [hmoved, if_pos he, he]
        simp [Function.update_of_ne ht.symm]
      · rw [hmoved, if_neg he]
        exact hrun _ he (hread n hn)
  · rw [List.map_cons, List.mem_cons, not_or] at hm
    rw [h.kept r (by rw [map_fst_reroute]; exact hm.2) hrt]
    exact hrun r hm.1 hrt

end Parallel

omit [DecidableEq R] in
/-- Distinct destinations that are all read are the sources in another order. -/
theorem sources_perm (hd : (moves.map Prod.fst).Nodup)
    (hread : ∀ m ∈ moves, m.1 ∈ moves.map Prod.snd) :
    (moves.map Prod.fst).Perm (moves.map Prod.snd) := by
  have hsub : (moves.map Prod.fst).Subperm (moves.map Prod.snd) := by
    refine List.subperm_of_subset hd fun r hr ↦ ?_
    obtain ⟨m, hm, rfl⟩ := List.mem_map.1 hr
    exact hread m hm
  exact hsub.perm_of_length_le (by simp)

end CoilLang
