import Mathlib.Logic.Relation
import Mathlib.Data.Finset.Card

/-!
# Acyclic relations

A relation as a directed graph, acyclic when no vertex reaches itself. Two facts are needed of it.

* **Redirecting a vertex.** Replacing the edges out of one vertex keeps the graph acyclic exactly
  when none of the new targets reaches that vertex (`acyclic_redirect_iff`). Reaching the vertex is
  the same before and after, since a shortest way to it does not leave it.
* **Heights.** When only finitely many vertices have edges out of them, every vertex has a height,
  at most their number, that goes down along each edge (`exists_height_of_acyclic`).
-/

namespace Relation

variable {α : Type*} {E : α → α → Prop} {v : α} {T : α → Prop}

/-- No vertex reaches itself. -/
def Acyclic (E : α → α → Prop) : Prop :=
  ∀ u, ¬ TransGen E u u

/-- The graph with the edges out of `v` replaced by edges to `T`. -/
def Redirect (E : α → α → Prop) (v : α) (T : α → Prop) (u w : α) : Prop :=
  (u = v ∧ T w) ∨ (u ≠ v ∧ E u w)

theorem Redirect.self {w : α} (h : T w) : Redirect E v T v w :=
  Or.inl ⟨rfl, h⟩

/-- Redirecting the edges out of `v` changes nothing about who reaches `v`. -/
theorem reaches_redirect_iff {u : α} :
    ReflTransGen (Redirect E v T) u v ↔ ReflTransGen E u v := by
  constructor
  · intro h
    induction h using ReflTransGen.head_induction_on with
    | refl => exact ReflTransGen.refl
    | head hab _ ih =>
      rcases hab with ⟨rfl, -⟩ | ⟨-, hab⟩
      · exact ReflTransGen.refl
      · exact ih.head hab
  · intro h
    induction h using ReflTransGen.head_induction_on with
    | refl => exact ReflTransGen.refl
    | @head a b hab _ ih =>
      by_cases ha : a = v
      · rw [ha]
      · exact ih.head (Or.inr ⟨ha, hab⟩)

/-- A way through the redirected graph avoids `v` or passes it. -/
theorem transGen_redirect {a b : α} (h : TransGen (Redirect E v T) a b) :
    TransGen E a b ∨
      (ReflTransGen (Redirect E v T) a v ∧ TransGen (Redirect E v T) v b) := by
  induction h with
  | single hab =>
    rcases hab with ⟨rfl, hT⟩ | ⟨-, hab⟩
    · exact Or.inr ⟨ReflTransGen.refl, TransGen.single (Redirect.self hT)⟩
    · exact Or.inl (TransGen.single hab)
  | @tail b c hab hbc ih =>
    rcases ih with ih | ⟨hav, hvb⟩
    · rcases hbc with ⟨rfl, hT⟩ | ⟨-, hbc⟩
      · exact Or.inr ⟨hab.to_reflTransGen, TransGen.single (Redirect.self hT)⟩
      · exact Or.inl (ih.tail hbc)
    · exact Or.inr ⟨hav, hvb.tail hbc⟩

/-- **Redirecting a vertex** keeps a graph acyclic exactly when no new target reaches the vertex. -/
theorem acyclic_redirect_iff (hE : Acyclic E) :
    Acyclic (Redirect E v T) ↔ ∀ w, T w → ¬ ReflTransGen E w v := by
  constructor
  · intro h w hw hreach
    exact h v (TransGen.head' (Redirect.self hw) (reaches_redirect_iff.2 hreach))
  · intro h u hu
    rcases transGen_redirect hu with hu | ⟨huv, hvu⟩
    · exact hE u hu
    · obtain ⟨w, hvw, hwv⟩ := TransGen.head'_iff.1 (hvu.trans_left huv)
      rcases hvw with ⟨-, hT⟩ | ⟨hne, -⟩
      · exact h w hT (reaches_redirect_iff.1 hwv)
      · exact hne rfl

open Classical in
/-- **Heights.** With finitely many vertices that have edges, each vertex is as high as the number
of them it reaches. -/
theorem exists_height_of_acyclic (hE : Acyclic E) (D : Finset α) (hD : ∀ u w, E u w → u ∈ D) :
    ∃ height : α → ℕ, (∀ u, height u ≤ D.card) ∧ ∀ u w, E u w → height w < height u := by
  refine ⟨fun u ↦ (D.filter fun w ↦ ReflTransGen E u w).card,
    fun u ↦ Finset.card_le_card (Finset.filter_subset _ _), fun u w huw ↦ ?_⟩
  refine Finset.card_lt_card ⟨fun x hx ↦ ?_, fun hsub ↦ ?_⟩
  · obtain ⟨hxD, hwx⟩ := Finset.mem_filter.1 hx
    exact Finset.mem_filter.2 ⟨hxD, hwx.head huw⟩
  · have hu := hsub (Finset.mem_filter.2 ⟨hD u w huw, ReflTransGen.refl⟩)
    exact hE u (TransGen.head' huw (Finset.mem_filter.1 hu).2)

end Relation
