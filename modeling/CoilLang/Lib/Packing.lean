import Mathlib.Algebra.Group.Int.Defs
import Mathlib.Algebra.Group.Nat.Defs
import Mathlib.Data.List.Induction
import Mathlib.Data.Nat.Bits

/-!
# Packing digits into words

A list is cut into chunks of a fixed length, the last one possibly shorter (`chunks`), and the digits
of a chunk are packed into one 64-bit word, the first digit lowest (`pack`). **Every digit can be read back**
from its word by a shift and a mask (`digit_pack`), as long as the digits fit their width and the
chunk fits the word.
-/

namespace CoilLang

variable {α : Type}

/-! ### Chunks -/

/-- The list in chunks of length `n`; the last chunk holds what is left. -/
def chunks (n : ℕ) (l : List α) : List (List α) :=
  (List.range ((l.length + n - 1) / n)).map fun k ↦ (l.drop (n * k)).take n

theorem chunks_nil {n : ℕ} (hn : 0 < n) : chunks n ([] : List α) = [] := by
  have h : (n - 1) / n = 0 := Nat.div_eq_of_lt (by omega)
  simp [chunks, h]

@[simp] theorem length_chunks (n : ℕ) (l : List α) :
    (chunks n l).length = (l.length + n - 1) / n := by
  simp [chunks]

theorem chunks_cons {n : ℕ} (hn : 0 < n) {l : List α} (hl : l ≠ []) :
    chunks n l = l.take n :: chunks n (l.drop n) := by
  have hpos : 0 < l.length := List.length_pos_iff.2 hl
  have hlen : (l.length + n - 1) / n = ((l.drop n).length + n - 1) / n + 1 := by
    rw [List.length_drop]
    rcases Nat.lt_or_ge l.length n with hlt | hge
    · have h₁ : (l.length + n - 1) / n = 1 := by
        rw [Nat.div_eq_iff hn]
        omega
      have h₂ : (l.length - n + n - 1) / n = 0 := Nat.div_eq_of_lt (by omega)
      rw [h₁, h₂]
    · have h : l.length + n - 1 = (l.length - n + n - 1) + n := by omega
      rw [h, Nat.add_div_right _ hn]
  rw [chunks, hlen, List.range_succ_eq_map, List.map_cons, List.map_map, Nat.mul_zero, List.drop_zero,
    chunks]
  congr 1
  refine List.map_congr_left fun k _ ↦ ?_
  simp only [Function.comp_apply, List.drop_drop]
  rw [Nat.mul_succ, Nat.add_comm]

theorem getElem?_chunks {n : ℕ} (hn : 0 < n) {l : List α} {i : ℕ} (hi : i < l.length) :
    ∃ ch, (chunks n l)[i / n]? = some ch ∧ ch[i % n]? = l[i]? ∧ ch.length ≤ n := by
  have hk : i / n < (l.length + n - 1) / n := by
    rw [Nat.div_lt_iff_lt_mul hn]
    have h := Nat.div_add_mod (l.length + n - 1) n
    have hmod := Nat.mod_lt (l.length + n - 1) hn
    rw [Nat.mul_comm] at h
    omega
  refine ⟨(l.drop (n * (i / n))).take n, ?_, ?_, List.length_take_le _ _⟩
  · simp [chunks, hk]
  · rw [List.getElem?_take_of_lt (Nat.mod_lt i hn), List.getElem?_drop, Nat.div_add_mod]

/-! ### Digits of a word -/

/-- The digits `ds` of `width` bits each in one word, the first lowest. -/
def pack (width : ℕ) (ds : List UInt64) : UInt64 :=
  ds.zipIdx.foldl (fun acc d ↦ acc ||| d.1 <<< UInt64.ofNat (width * d.2)) 0

/-- Digit `i` of a word. -/
def digit (width : ℕ) (w : UInt64) (i : ℕ) : ℕ := w.toNat / 2 ^ (width * i) % 2 ^ width

theorem pack_append (width : ℕ) (ds : List UInt64) (d : UInt64) :
    pack width (ds ++ [d]) = pack width ds ||| d <<< UInt64.ofNat (width * ds.length) := by
  simp [pack, List.zipIdx_append]

/-- A digit put above the others. -/
theorem toNat_or_shiftLeft {a d : UInt64} {width m : ℕ} (ha : a.toNat < 2 ^ m)
    (hd : d.toNat < 2 ^ width) (hm : m < 64) (hfit : m + width ≤ 64) :
    (a ||| d <<< UInt64.ofNat m).toNat = a.toNat + d.toNat * 2 ^ m := by
  have hshift : (d <<< UInt64.ofNat m).toNat = d.toNat * 2 ^ m := by
    have hlt : d.toNat * 2 ^ m < 2 ^ 64 := by
      calc d.toNat * 2 ^ m < 2 ^ width * 2 ^ m := Nat.mul_lt_mul_of_pos_right hd (Nat.two_pow_pos m)
        _ = 2 ^ (m + width) := by rw [← Nat.pow_add, Nat.add_comm]
        _ ≤ 2 ^ 64 := Nat.pow_le_pow_right (by decide) hfit
    have hm' : (UInt64.ofNat m).toNat % 64 = m := by
      rw [UInt64.toNat_ofNat', Nat.mod_mod_of_dvd _ (by decide), Nat.mod_eq_of_lt hm]
    rw [UInt64.toNat_shiftLeft, hm', Nat.shiftLeft_eq, Nat.mod_eq_of_lt hlt]
  rw [UInt64.toNat_or, hshift, Nat.or_comm, Nat.mul_comm, ← Nat.two_pow_add_eq_or_of_lt ha,
    Nat.add_comm]

/-- **Every digit of a packed word can be read back.** -/
theorem digit_pack {width : ℕ} {ds : List UInt64} (hd : ∀ d ∈ ds, d.toNat < 2 ^ width)
    (hlen : width * ds.length ≤ 64) :
    (pack width ds).toNat < 2 ^ (width * ds.length) ∧
      ∀ i d, ds[i]? = some d → digit width (pack width ds) i = d.toNat := by
  induction ds using List.reverseRecOn with
  | nil => exact ⟨Nat.two_pow_pos _, fun i d hi ↦ (by cases hi)⟩
  | append_singleton ds d ih =>
    have hmul : width * (ds ++ [d]).length = width * ds.length + width := by
      rw [List.length_append, List.length_singleton, Nat.mul_succ]
    rw [hmul] at hlen ⊢
    obtain ⟨hlt, hdig⟩ := ih (fun e he ↦ hd e (List.mem_append_left _ he)) (by omega)
    have hdw := hd d (by simp)
    have hm : width * ds.length < 64 := by
      rcases Nat.eq_zero_or_pos width with rfl | hw
      · simp
      · omega
    have hnat := toNat_or_shiftLeft hlt hdw hm hlen
    rw [pack_append]
    constructor
    · rw [hnat]
      calc (pack width ds).toNat + d.toNat * 2 ^ (width * ds.length)
          < (d.toNat + 1) * 2 ^ (width * ds.length) := by rw [Nat.add_mul, Nat.one_mul]; omega
        _ ≤ 2 ^ width * 2 ^ (width * ds.length) := Nat.mul_le_mul_right _ hdw
        _ = 2 ^ (width * ds.length + width) := by rw [← Nat.pow_add, Nat.add_comm]
    · intro i e hi
      rw [digit, hnat]
      rcases Nat.lt_or_ge i ds.length with hlt' | hge
      · -- the digits below do not see the new one
        rw [List.getElem?_append_left hlt'] at hi
        obtain ⟨k, hk⟩ := Nat.exists_eq_add_of_lt hlt'
        have hpow : 2 ^ (width * ds.length) = 2 ^ (width * k) * 2 ^ width * 2 ^ (width * i) := by
          rw [← Nat.pow_add, ← Nat.pow_add, hk]
          congr 1
          rw [Nat.mul_add, Nat.mul_add, Nat.mul_one]
          omega
        rw [hpow, ← Nat.mul_assoc, Nat.add_mul_div_right _ _ (Nat.two_pow_pos _), ← Nat.mul_assoc,
          Nat.add_mul_mod_self_right]
        exact hdig i e hi
      · have hie : i = ds.length ∧ e = d := by
          rw [List.getElem?_append_right hge] at hi
          obtain ⟨hlt', heq⟩ := List.getElem?_eq_some_iff.1 hi
          have hzero : i - ds.length = 0 := by simpa using hlt'
          refine ⟨by omega, ?_⟩
          simpa [hzero] using heq.symm
        obtain ⟨rfl, rfl⟩ := hie
        rw [Nat.add_mul_div_right _ _ (Nat.two_pow_pos _), Nat.div_eq_of_lt hlt, Nat.zero_add,
          Nat.mod_eq_of_lt hdw]

end CoilLang
