import Mathlib.Algebra.Order.Group.Nat
import Mathlib.Order.Bounds.Basic
import Mathlib.Tactic.Ring

/-!
# Records laid out one field after another

A field is a size and an alignment. `Placed e fields offsets last` says that from byte `e` on each
field stands at **the least multiple of its alignment at or after the end of the field before it**, and
that the last one ends at `last`. There is exactly one such placement (`placed_iff`), the fields of
a placement do not overlap, and all end at `last` at most.

`IsRecord` adds the record's own alignment, the largest of its fields', and its size, the least multiple of
it that contains them. `recordSize` is that size; a record whose sizes are kept in a machine word
exists just when it fits (`IsRecord.size_eq`, `isRecord_record`).
-/

namespace CoilLang

/-- The least multiple of `a` from `n` on. -/
def roundUp (n a : ℕ) : ℕ := if n % a = 0 then n else (n / a + 1) * a

theorem isLeast_roundUp (n : ℕ) {a : ℕ} (ha : 0 < a) : IsLeast {m | a ∣ m ∧ n ≤ m} (roundUp n a) := by
  have hdiv := Nat.div_add_mod n a
  have hmod := Nat.mod_lt n ha
  unfold roundUp
  split
  · rename_i h
    exact ⟨⟨Nat.dvd_of_mod_eq_zero h, le_rfl⟩, fun m hm ↦ hm.2⟩
  · rename_i h
    refine ⟨⟨Nat.dvd_mul_left _ _, ?_⟩, fun m hm ↦ ?_⟩
    · have hmul : (n / a + 1) * a = a * (n / a) + a := by ring
      omega
    · obtain ⟨⟨k, rfl⟩, hk⟩ := hm
      have hlt : n / a < k := by
        by_contra hle
        have hmul := Nat.mul_le_mul_left a (Nat.le_of_not_lt hle)
        omega
      rw [Nat.mul_comm]
      exact Nat.mul_le_mul_left a hlt

theorem le_roundUp (n : ℕ) {a : ℕ} (ha : 0 < a) : n ≤ roundUp n a := (isLeast_roundUp n ha).1.2

/-- Sizes and alignments of fields, no alignment zero. -/
def Aligned (fields : List (ℕ × ℕ)) : Prop := ∀ f ∈ fields, 0 < f.2

/-- From `e` on every field stands as early as it can, and the last one ends at `last`. -/
def Placed : ℕ → List (ℕ × ℕ) → List ℕ → ℕ → Prop
  | e, [], [], last => last = e
  | e, f :: fields, o :: offsets, last =>
    IsLeast {m | f.2 ∣ m ∧ e ≤ m} o ∧ Placed (o + f.1) fields offsets last
  | _, _, _, _ => False

def offsetsFrom : ℕ → List (ℕ × ℕ) → List ℕ
  | _, [] => []
  | e, f :: fields => roundUp e f.2 :: offsetsFrom (roundUp e f.2 + f.1) fields

def endFrom : ℕ → List (ℕ × ℕ) → ℕ
  | e, [] => e
  | e, f :: fields => endFrom (roundUp e f.2 + f.1) fields

section
variable {e last : ℕ} {fields : List (ℕ × ℕ)} {offsets : List ℕ}

theorem placed_iff (hf : Aligned fields) :
    Placed e fields offsets last ↔ offsets = offsetsFrom e fields ∧ last = endFrom e fields := by
  induction fields generalizing e offsets with
  | nil => cases offsets <;> simp [Placed, offsetsFrom, endFrom]
  | cons f fields ih =>
    have hleast := isLeast_roundUp e (hf f List.mem_cons_self)
    have ih := fun {e} {offsets} ↦ @ih e offsets fun g hg ↦
      hf g (List.mem_cons_of_mem _ hg)
    cases offsets with
    | nil => simp [Placed, offsetsFrom]
    | cons o offsets =>
      rw [Placed, ih, offsetsFrom, endFrom, List.cons.injEq]
      refine ⟨fun ⟨ho, hos, hl⟩ ↦ ?_, fun ⟨⟨ho, hos⟩, hl⟩ ↦ ?_⟩
      · obtain rfl := ho.unique hleast
        exact ⟨⟨rfl, hos⟩, hl⟩
      · subst ho
        exact ⟨hleast, hos, hl⟩

theorem le_endFrom (hf : Aligned fields) : e ≤ endFrom e fields := by
  induction fields generalizing e with
  | nil => exact le_rfl
  | cons f fields ih =>
    have hle := le_roundUp e (hf f List.mem_cons_self)
    have hend := ih (e := roundUp e f.2 + f.1) fun g hg ↦ hf g (List.mem_cons_of_mem _ hg)
    rw [endFrom]
    omega

theorem Placed.le (h : Placed e fields offsets last) : e ≤ last := by
  induction fields generalizing e offsets with
  | nil =>
    cases offsets with
    | nil => exact h.ge
    | cons => exact h.elim
  | cons f fields ih =>
    cases offsets with
    | nil => exact h.elim
    | cons o offsets =>
      have h1 := h.1.1.2
      have h2 := ih h.2
      omega

/-- Each field lies between the ends of the placement. -/
theorem Placed.bounds (h : Placed e fields offsets last) :
    ∀ p ∈ offsets.zip fields, e ≤ p.1 ∧ p.1 + p.2.1 ≤ last := by
  induction fields generalizing e offsets with
  | nil => simp
  | cons f fields ih =>
    cases offsets with
    | nil => simp
    | cons o offsets =>
      have ho := h.1.1.2
      intro p hp
      rcases List.mem_cons.1 hp with rfl | hp
      · exact ⟨ho, h.2.le⟩
      · obtain ⟨h1, h2⟩ := ih h.2 p hp
        exact ⟨by omega, h2⟩

/-- No two fields overlap. -/
theorem Placed.disjoint (h : Placed e fields offsets last) :
    (offsets.zip fields).Pairwise fun p q ↦ p.1 + p.2.1 ≤ q.1 := by
  induction fields generalizing e offsets with
  | nil => simp
  | cons f fields ih =>
    cases offsets with
    | nil => simp
    | cons o offsets =>
      exact List.Pairwise.cons (fun q hq ↦ (h.2.bounds q hq).1) (ih h.2)

end

/-! ### Records -/

/-- The largest alignment of the fields, at least one. -/
def maxAlign (fields : List (ℕ × ℕ)) : ℕ := fields.foldl (fun a f ↦ max a f.2) 1

/-- The record of these fields: offsets, size and alignment. -/
structure IsRecord (fields : List (ℕ × ℕ)) (offsets : List ℕ) (size align : ℕ) : Prop where
  align_eq : align = maxAlign fields
  placed : ∃ last, Placed 0 fields offsets last ∧ IsLeast {m | align ∣ m ∧ last ≤ m} size

def recordSize (fields : List (ℕ × ℕ)) : ℕ := roundUp (endFrom 0 fields) (maxAlign fields)

theorem maxAlign_pos (fields : List (ℕ × ℕ)) : 0 < maxAlign fields := by
  have hle : ∀ (fields : List (ℕ × ℕ)) (a : ℕ), a ≤ fields.foldl (fun a f ↦ max a f.2) a := by
    intro fields
    induction fields with
    | nil => exact fun a ↦ le_rfl
    | cons f fields ih => exact fun a ↦ (le_max_left a f.2).trans (ih _)
  exact hle fields 1

namespace IsRecord

variable {fields : List (ℕ × ℕ)} {offsets : List ℕ} {size align : ℕ}

theorem size_eq (hf : Aligned fields) (h : IsRecord fields offsets size align) :
    size = recordSize fields := by
  obtain ⟨last, hp, hsize⟩ := h.placed
  rw [((placed_iff hf).1 hp).2, h.align_eq] at hsize
  exact hsize.unique (isLeast_roundUp _ (maxAlign_pos fields))

/-- The fields lie inside the record. -/
theorem inside (h : IsRecord fields offsets size align) :
    ∀ p ∈ offsets.zip fields, p.1 + p.2.1 ≤ size := by
  obtain ⟨last, hp, hsize⟩ := h.placed
  exact fun p hpm ↦ (hp.bounds p hpm).2.trans hsize.1.2

theorem disjoint (h : IsRecord fields offsets size align) :
    (offsets.zip fields).Pairwise fun p q ↦ p.1 + p.2.1 ≤ q.1 := by
  obtain ⟨last, hp, -⟩ := h.placed
  exact hp.disjoint

end IsRecord

theorem isRecord_record {fields : List (ℕ × ℕ)} (hf : Aligned fields) :
    IsRecord fields (offsetsFrom 0 fields) (recordSize fields) (maxAlign fields) :=
  ⟨rfl, _, (placed_iff hf).2 ⟨rfl, rfl⟩, isLeast_roundUp _ (maxAlign_pos fields)⟩

end CoilLang
