import Mathlib.Algebra.BigOperators.Group.Finset.Basic
import Mathlib.Algebra.Order.BigOperators.Group.Finset
import Mathlib.Algebra.Order.Ring.Int

/-!
# Walks along which no cycle gains

The edges of a graph carry an integer, what is **gained** by following them. When no cycle gains
(`NoGain`), a walk gains no more than some walk between the same ends that leaves no vertex twice
(`Walk.exists_simple`), so that its gain is bounded by what all vertices together can add, the last one
included (`Walk.gain_add_le`).
-/

namespace CoilLang.WalkGain

variable {α : Type*}

/-- A walk, with the vertices it leaves in order and what it gains. -/
inductive Walk (E : α → ℤ → α → Prop) : α → List α → ℤ → α → Prop
  | nil (a : α) : Walk E a [] 0 a
  | cons {a b c : α} {d e : ℤ} {l : List α} : E a d b → Walk E b l e c → Walk E a (a :: l) (d + e) c

/-- No walk that returns to its start gains. -/
def NoGain (E : α → ℤ → α → Prop) : Prop := ∀ a l d, Walk E a l d a → d ≤ 0

namespace Walk

variable {E : α → ℤ → α → Prop} {a b c : α} {d e : ℤ} {l l₁ l₂ : List α}

theorem append (h₁ : Walk E a l₁ d b) (h₂ : Walk E b l₂ e c) : Walk E a (l₁ ++ l₂) (d + e) c := by
  induction h₁ with
  | nil => rwa [List.nil_append, zero_add]
  | cons hab _ ih =>
    rw [add_assoc, List.cons_append]
    exact .cons hab (ih h₂)

/-- One more edge at the end. -/
theorem snoc (h : Walk E a l d b) (he : E b e c) : Walk E a (l ++ [b]) (d + e) c := by
  have hlast := Walk.cons he (.nil c)
  rw [add_zero] at hlast
  exact h.append hlast

/-- A walk in two parts, before and after it leaves a vertex. -/
theorem split (h : Walk E a (l₁ ++ b :: l₂) d c) :
    ∃ d₁ d₂, Walk E a l₁ d₁ b ∧ Walk E b (b :: l₂) d₂ c ∧ d = d₁ + d₂ := by
  induction l₁ generalizing a d with
  | nil =>
    obtain rfl : a = b := by cases h; rfl
    exact ⟨0, d, .nil a, h, (zero_add d).symm⟩
  | cons x l₁ ih =>
    cases h with
    | cons hab h =>
      obtain ⟨d₁, d₂, h₁, h₂, rfl⟩ := ih h
      exact ⟨_, d₂, .cons hab h₁, h₂, (add_assoc _ _ _).symm⟩

/-- Without its cycles a walk gains at least as much. -/
theorem exists_simple (hE : NoGain E) (h : Walk E a l d c) :
    ∃ l' d', Walk E a l' d' c ∧ d ≤ d' ∧ l'.Nodup ∧ c ∉ l' ∧ l' ⊆ l := by
  classical
  induction h with
  | nil a => exact ⟨[], 0, .nil a, le_rfl, List.nodup_nil, List.not_mem_nil, List.Subset.refl _⟩
  | @cons a b c d e l hab _ ih =>
    obtain ⟨l', e', hw, he, hnd, hc, hsub⟩ := ih
    by_cases hac : a = c
    · -- the whole walk is a cycle
      subst hac
      have hcycle := hE _ _ _ (.cons hab hw)
      exact ⟨[], 0, .nil a, by omega, List.nodup_nil, List.not_mem_nil, List.nil_subset _⟩
    by_cases hal : a ∈ l'
    · -- the part up to the return to `a` is one
      obtain ⟨l₁, l₂, rfl⟩ := List.append_of_mem hal
      obtain ⟨d₁, d₂, h₁, h₂, rfl⟩ := hw.split
      have hcycle := hE _ _ _ (.cons hab h₁)
      refine ⟨a :: l₂, d₂, h₂, by omega, (List.nodup_append.1 hnd).2.1, ?_, ?_⟩
      · exact fun hmem ↦ hc (List.mem_append_right _ hmem)
      · exact fun x hx ↦ List.mem_cons_of_mem _ (hsub (List.mem_append_right _ hx))
    · refine ⟨a :: l', d + e', .cons hab hw, by omega, List.nodup_cons.2 ⟨hal, hnd⟩, ?_, ?_⟩
      · exact fun hmem ↦ (List.mem_cons.1 hmem).elim (fun h ↦ hac h.symm) hc
      · exact List.cons_subset_cons _ hsub

theorem gain_le {w : α → ℕ} (hw : ∀ a d b, E a d b → d ≤ w a) (h : Walk E a l d c) :
    d ≤ (l.map w).sum := by
  induction h with
  | nil => exact le_rfl
  | cons hab _ ih =>
    have := hw _ _ _ hab
    rw [List.map_cons, List.sum_cons]
    push_cast at ih ⊢
    omega

/-- A walk inside `S` gains, with what its last vertex can still add, at most what all of `S` can. -/
theorem gain_add_le {w : α → ℕ} {S : Finset α} (hE : NoGain E) (hw : ∀ a d b, E a d b → d ≤ w a)
    (h : Walk E a l d c) (hl : ∀ x ∈ l, x ∈ S) (hc : c ∈ S ∨ w c = 0) :
    d + w c ≤ (∑ x ∈ S, w x : ℕ) := by
  classical
  obtain ⟨l', d', hw', hd, hnd, hcl, hsub⟩ := h.exists_simple hE
  have hgain : d' ≤ (∑ x ∈ l'.toFinset, w x : ℕ) :=
    (hw'.gain_le hw).trans_eq (by rw [List.sum_toFinset w hnd])
  have hS : l'.toFinset ⊆ S := fun x hx ↦ hl x (hsub (List.mem_toFinset.1 hx))
  rcases hc with hc | hc
  · have hle := Finset.sum_le_sum_of_subset (f := w) (Finset.insert_subset hc hS)
    rw [Finset.sum_insert (by rwa [List.mem_toFinset])] at hle
    omega
  · have hle := Finset.sum_le_sum_of_subset (f := w) hS
    omega

end Walk

/-- No cycle gains when every edge gains at most the rise of a potential. -/
theorem noGain_of_potential {E : α → ℤ → α → Prop} (φ : α → ℤ) (h : ∀ a d b, E a d b → d ≤ φ b - φ a) :
    NoGain E := by
  have hwalk : ∀ a l d b, Walk E a l d b → d ≤ φ b - φ a := by
    intro a l d b hw
    induction hw with
    | nil => omega
    | cons hab _ ih =>
      have := h _ _ _ hab
      omega
  intro a l d hw
  have := hwalk a l d a hw
  omega

end CoilLang.WalkGain
