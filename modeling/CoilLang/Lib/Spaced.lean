import Mathlib.Data.List.Nodup
import Mathlib.Data.List.Perm.Subperm

/-!
# Ranges of one length that do not overlap

Ranges of length `L` are given by where they start. When none overlaps another, the numbers of the windows of
length `L` in which they start are distinct, so **at most `n` of them start in a stretch of length `n * L`**
(`length_le_of_apart`).
-/

namespace CoilLang

/-- The ranges of length `L` from `x` and from `y` do not overlap. -/
def Apart (L x y : ℕ) : Prop := x + L ≤ y ∨ y + L ≤ x

instance (L x y : ℕ) : Decidable (Apart L x y) := inferInstanceAs (Decidable (_ ∨ _))

variable {L lo n x y : ℕ} {xs : List ℕ}

theorem Apart.symm (h : Apart L x y) : Apart L y x := Or.symm h

/-- Ranges that share a position do not lie apart. -/
theorem not_apart_of_mem {a : ℕ} (hx : x ≤ a ∧ a < x + L) (hy : y ≤ a ∧ a < y + L) : ¬Apart L x y := by
  unfold Apart
  omega

theorem Apart.window_ne (h : Apart L x y) (hL : 0 < L) (hx : lo ≤ x) (hy : lo ≤ y) :
    (x - lo) / L ≠ (y - lo) / L := by
  have key : ∀ {u v}, lo ≤ u → u + L ≤ v → (u - lo) / L < (v - lo) / L := by
    intro u v hu huv
    calc (u - lo) / L < (u - lo) / L + 1 := Nat.lt_succ_self _
      _ = (u - lo + L) / L := (Nat.add_div_right _ hL).symm
      _ ≤ (v - lo) / L := Nat.div_le_div_right (by omega)
  exact h.elim (fun h ↦ Nat.ne_of_lt (key hx h)) fun h ↦ Nat.ne_of_gt (key hy h)

/-- **At most `n` ranges start in a stretch of length `n * L`.** -/
theorem length_le_of_apart (hxs : ∀ x ∈ xs, lo ≤ x ∧ x < lo + n * L) (hapart : xs.Pairwise (Apart L)) :
    xs.length ≤ n := by
  rcases Nat.eq_zero_or_pos L with rfl | hL
  · cases xs with
    | nil => exact Nat.zero_le n
    | cons x xs =>
      have := hxs x List.mem_cons_self
      omega
  · have hnodup : (xs.map fun x ↦ (x - lo) / L).Nodup := by
      refine List.pairwise_map.2 (hapart.imp_of_mem fun hx hy h ↦ ?_)
      exact h.window_ne hL (hxs _ hx).1 (hxs _ hy).1
    have hsub : (xs.map fun x ↦ (x - lo) / L) ⊆ List.range n := by
      intro w hw
      obtain ⟨x, hx, rfl⟩ := List.mem_map.1 hw
      obtain ⟨hle, hlt⟩ := hxs x hx
      exact List.mem_range.2 ((Nat.div_lt_iff_lt_mul hL).2 (Nat.sub_lt_left_of_lt_add hle hlt))
    have hle := (List.subperm_of_subset hnodup hsub).length_le
    rwa [List.length_map, List.length_range] at hle

end CoilLang
