import CoilLang.Machine.Slab
import Mathlib.Data.List.Nodup
import Mathlib.Data.List.TakeWhile

/-!
# Chunks and lists of the slab

The slots of a chunk are those the carving loop writes, and they lie inside the chunk. The lists by class change in
one place at a time. **Chunks do not overlap** (`Apart`), so both searches by sorted starts find the chunk an address
lies in.
-/

namespace CoilLang.Slab

/-! ### Slots of a chunk -/

/-- A chunk that was carved for its class. -/
structure Chunk.Wf (c : Chunk) : Prop where
  pos : 0 < c.slotSize
  first : c.ptr + c.firstOff = alignUp c.ptr c.slotAlign

theorem le_alignUp {align : ℕ} (h : 0 < align) (addr : ℕ) : addr ≤ alignUp addr align := by
  rw [alignUp]
  have := Nat.lt_div_mul_add (a := addr + align - 1) h
  omega

theorem carveLoop_eq {size last : ℕ} (hsize : 0 < size) {fuel p : ℕ} (hfuel : (last - p) / size ≤ fuel) :
    carveLoop size last fuel p = (List.range ((last - p) / size)).map fun k ↦ p + k * size := by
  induction fuel generalizing p with
  | zero =>
    rw [Nat.le_zero.mp hfuel]
    rfl
  | succ fuel ih =>
    rw [carveLoop]
    split
    · rename_i hle
      have hdiv : (last - p) / size = (last - (p + size)) / size + 1 := by
        have hsub : last - p = last - (p + size) + size := by omega
        rw [hsub, Nat.add_div_right _ hsize]
      rw [ih (by omega), hdiv, List.range_succ_eq_map, List.map_cons, List.map_map]
      refine congrArg₂ List.cons (by simp) (List.map_congr_left fun k _ ↦ ?_)
      simp [Nat.succ_mul, Nat.add_assoc, Nat.add_comm size]
    · rename_i hlt
      rw [Nat.div_eq_of_lt (by omega)]
      rfl

theorem Chunk.Wf.carve {c : Chunk} (h : c.Wf) :
    carveLoop c.slotSize (c.ptr + chunkBytes) chunkBytes (alignUp c.ptr c.slotAlign) = c.slots := by
  have hlen : c.ptr + chunkBytes - (c.ptr + c.firstOff) = chunkBytes - c.firstOff := by omega
  rw [← h.first, carveLoop_eq h.pos, hlen]
  · rfl
  · rw [hlen]
    exact (Nat.div_le_self _ _).trans (Nat.sub_le _ _)

theorem length_slots (c : Chunk) : c.slots.length = c.slotCount := by
  rw [Chunk.slots, List.length_map, List.length_range]

theorem Chunk.Wf.nodup_slots {c : Chunk} (h : c.Wf) : c.slots.Nodup := by
  refine List.nodup_range.map fun k k' hk ↦ ?_
  have : k * c.slotSize = k' * c.slotSize := by simpa using hk
  exact Nat.eq_of_mul_eq_mul_right h.pos this

theorem contains_of_mem_slots {c : Chunk} {p : ℕ} (hp : p ∈ c.slots) : c.contains p = true := by
  obtain ⟨k, hk, rfl⟩ := List.mem_map.mp hp
  have hk : k < c.slotCount := List.mem_range.mp hk
  have hroom : (k + 1) * c.slotSize ≤ chunkBytes - c.firstOff :=
    (Nat.mul_le_mul_right _ hk).trans (Nat.div_mul_le_self _ _)
  have hpos : 0 < c.slotSize := by
    by_contra h0
    have hzero : c.slotSize = 0 := by omega
    rw [Chunk.slotCount, hzero, Nat.div_zero] at hk
    omega
  rw [Nat.succ_mul] at hroom
  simp only [Chunk.contains, Bool.and_eq_true, decide_eq_true_eq]
  omega

/-! ### Lists by class -/

theorem onClass_some {key : Key} {f : FreeClass → FreeClass} {cs cs' : List FreeClass} (h : onClass key f cs = some cs') :
    ∃ pre c post, cs = pre ++ c :: post ∧ c.key = key ∧ cs' = pre ++ f c :: post := by
  induction cs generalizing cs' with
  | nil => cases h
  | cons c cs ih =>
    rw [onClass] at h
    split at h
    · rename_i hkey
      cases h
      exact ⟨[], c, cs, rfl, hkey, rfl⟩
    · obtain ⟨cs₁, h₁, rfl⟩ := Option.map_eq_some_iff.mp h
      obtain ⟨pre, c', post, rfl, hkey, rfl⟩ := ih h₁
      exact ⟨c :: pre, c', post, rfl, hkey, rfl⟩

theorem popFree_some {key : Key} {p : ℕ} {cs cs' : List FreeClass} (h : popFree key cs = some (p, cs')) :
    ∃ pre c post slots lowWater, cs = pre ++ c :: post ∧ c.key = key ∧ c.slots = slots ++ [p] ∧
      cs' = pre ++ ⟨c.key, slots, lowWater⟩ :: post := by
  induction cs generalizing cs' with
  | nil => cases h
  | cons c cs ih =>
    rw [popFree] at h
    split at h
    · rename_i hkey
      obtain ⟨q, hq, heq⟩ := Option.map_eq_some_iff.mp h
      cases heq
      obtain ⟨slots, hslots⟩ := List.getLast?_eq_some_iff.mp hq
      refine ⟨[], c, cs, slots, min c.lowWater slots.length, rfl, hkey, hslots, ?_⟩
      rw [hslots, List.dropLast_concat]
      rfl
    · obtain ⟨⟨q, cs₁⟩, h₁, heq⟩ := Option.map_eq_some_iff.mp h
      cases heq
      obtain ⟨pre, c', post, slots, lowWater, rfl, hkey, hslots, rfl⟩ := ih h₁
      exact ⟨c :: pre, c', post, slots, lowWater, rfl, hkey, hslots, rfl⟩

theorem popReleased_some {key : Key} {i : ℕ} {rs rs' : List (Key × List ℕ)} (h : popReleased key rs = some (i, rs')) :
    ∃ pre list post, rs = pre ++ (key, list ++ [i]) :: post ∧ rs' = pre ++ (key, list) :: post := by
  induction rs generalizing rs' with
  | nil => cases h
  | cons e rs ih =>
    obtain ⟨k, list⟩ := e
    rw [popReleased] at h
    split at h
    · rename_i hkey
      obtain ⟨j, hj, heq⟩ := Option.map_eq_some_iff.mp h
      cases heq
      obtain ⟨list', rfl⟩ := List.getLast?_eq_some_iff.mp hj
      exact ⟨[], list', rs, by rw [hkey]; rfl, by rw [hkey, List.dropLast_concat]; rfl⟩
    · obtain ⟨⟨j, rs₁⟩, h₁, heq⟩ := Option.map_eq_some_iff.mp h
      cases heq
      obtain ⟨pre, list', post, rfl, rfl⟩ := ih h₁
      exact ⟨(k, list) :: pre, list', post, rfl, rfl⟩

theorem count_pushReleased (key : Key) (i j : ℕ) (rs : List (Key × List ℕ)) :
    ((pushReleased key i rs).flatMap Prod.snd).count j = (rs.flatMap Prod.snd).count j + [i].count j := by
  induction rs with
  | nil => simp [pushReleased]
  | cons e rs ih =>
    obtain ⟨k, list⟩ := e
    rw [pushReleased]
    split
    · simp only [List.flatMap_cons, List.count_append]
      omega
    · simp only [List.flatMap_cons, List.count_append, ih]
      omega

theorem mem_pushReleased {key : Key} {i : ℕ} {rs : List (Key × List ℕ)} {e : Key × List ℕ}
    (h : e ∈ pushReleased key i rs) : ∀ j ∈ e.2, (∃ e' ∈ rs, e'.1 = e.1 ∧ j ∈ e'.2) ∨ (j = i ∧ key = e.1) := by
  induction rs with
  | nil =>
    intro j hj
    rw [pushReleased, List.mem_singleton] at h
    rw [h] at hj
    exact .inr ⟨List.mem_singleton.mp hj, by rw [h]⟩
  | cons e' rs ih =>
    obtain ⟨k, list⟩ := e'
    rw [pushReleased] at h
    intro j hj
    split at h
    · rename_i hkey
      rcases List.mem_cons.mp h with rfl | h
      · rcases List.mem_append.mp hj with hj | hj
        · exact .inl ⟨(k, list), List.mem_cons_self, rfl, hj⟩
        · exact .inr ⟨List.mem_singleton.mp hj, hkey.symm⟩
      · exact .inl ⟨e, List.mem_cons_of_mem _ h, rfl, hj⟩
    · rcases List.mem_cons.mp h with rfl | h
      · exact .inl ⟨(k, list), List.mem_cons_self, rfl, hj⟩
      · rcases ih h j hj with ⟨e', he', hk, hj⟩ | hi
        · exact .inl ⟨e', List.mem_cons_of_mem _ he', hk, hj⟩
        · exact .inr hi

theorem isReleased_setReleased (s : Slab) (i j : ℕ) (b : Bool) :
    (s.setReleased i b).isReleased j = if j = i then b else s.isReleased j := by
  have hlen : i < (s.releasedMask ++ List.replicate (i + 1 - s.releasedMask.length) false).length := by
    rw [List.length_append, List.length_replicate]
    omega
  rw [isReleased, setReleased, List.getD_eq_getElem?_getD, List.getElem?_set]
  by_cases hj : j = i
  · subst hj
    rw [if_pos rfl, if_pos hlen, if_pos rfl]
    rfl
  · rw [if_neg (Ne.symm hj), if_neg hj, isReleased, List.getD_eq_getElem?_getD]
    rcases Nat.lt_or_ge j s.releasedMask.length with hlt | hge
    · rw [List.getElem?_append_left hlt]
    · rw [List.getElem?_append_right hge, List.getElem?_eq_none hge, List.getElem?_replicate]
      split <;> rfl

/-! ### Searches in sorted starts -/

/-- The last of the entries not above `a` is not below any of them. -/
theorem getLast?_takeWhile {α : Type} {f : α → ℕ} {l : List α} (hsorted : l.Pairwise fun x y ↦ f x ≤ f y) {a : ℕ}
    {x : α} (hx : x ∈ l) (hxa : f x ≤ a) :
    ∃ y ∈ l, (l.takeWhile fun e ↦ f e ≤ a).getLast? = some y ∧ f x ≤ f y ∧ f y ≤ a := by
  induction l with
  | nil => cases hx
  | cons z l ih =>
    obtain ⟨hz, hsorted⟩ := List.pairwise_cons.mp hsorted
    have hza : f z ≤ a := by
      rcases List.mem_cons.mp hx with rfl | hx
      · exact hxa
      · exact (hz x hx).trans hxa
    rw [List.takeWhile_cons_of_pos (by simpa using hza)]
    rcases List.mem_cons.mp hx with rfl | hx
    · cases hl : (l.takeWhile fun e ↦ f e ≤ a).getLast? with
      | none =>
        rw [List.getLast?_eq_none_iff.mp hl]
        exact ⟨x, List.mem_cons_self, rfl, le_rfl, hxa⟩
      | some y =>
        have hy : y ∈ l.takeWhile fun e ↦ f e ≤ a := List.mem_of_getLast? hl
        refine ⟨y, List.mem_cons_of_mem _ ((List.takeWhile_prefix _).subset hy), ?_, ?_, ?_⟩
        · rw [List.getLast?_cons, hl]
          rfl
        · exact hz y ((List.takeWhile_prefix _).subset hy)
        · simpa using List.mem_takeWhile_imp hy
    · obtain ⟨y, hy, hlast, hle, hya⟩ := ih hsorted hx
      refine ⟨y, List.mem_cons_of_mem _ hy, ?_, hle, hya⟩
      rw [List.getLast?_cons, hlast]
      rfl

/-- Chunks do not overlap. -/
def Apart (cs : List Chunk) : Prop :=
  cs.Pairwise fun c d ↦ c.ptr + chunkBytes ≤ d.ptr ∨ d.ptr + chunkBytes ≤ c.ptr

theorem Apart.eq_of_contains {cs : List Chunk} (h : Apart cs) {i j : ℕ} {c d : Chunk} (hc : cs[i]? = some c)
    (hd : cs[j]? = some d) {p : ℕ} (hp : c.contains p = true) (hp' : d.contains p = true) : i = j := by
  obtain ⟨hi, rfl⟩ := List.getElem?_eq_some_iff.mp hc
  obtain ⟨hj, rfl⟩ := List.getElem?_eq_some_iff.mp hd
  simp only [Chunk.contains, Bool.and_eq_true, decide_eq_true_eq] at hp hp'
  rcases Nat.lt_trichotomy i j with hlt | heq | hgt
  · have := List.pairwise_iff_getElem.mp h i j hi hj hlt
    omega
  · exact heq
  · have := List.pairwise_iff_getElem.mp h j i hj hi hgt
    omega

theorem mem_starts {s : Slab} {e : ℕ × ℕ} : e ∈ s.starts ↔ ∃ c, s.chunks[e.2]? = some c ∧ c.ptr = e.1 := by
  rw [starts, List.mem_mergeSort, List.mem_iff_getElem?]
  simp only [List.getElem?_mapIdx, Option.map_eq_some_iff]
  constructor
  · rintro ⟨i, c, hc, rfl⟩
    exact ⟨c, hc, rfl⟩
  · rintro ⟨c, hc, he⟩
    exact ⟨e.2, c, hc, by rw [he]⟩

theorem sorted_starts (s : Slab) : s.starts.Pairwise fun x y ↦ x.1 ≤ y.1 := by
  refine (List.pairwise_mergeSort ?_ ?_ _).imp ?_
  · intro a b c hab hbc
    simp only [decide_eq_true_eq] at hab hbc ⊢
    omega
  · intro a b
    simp only [Bool.or_eq_true, decide_eq_true_eq]
    omega
  · intro a b hab
    simp only [decide_eq_true_eq] at hab
    omega

/-- The search finds the chunk of an address. -/
theorem chunkOf_eq {s : Slab} (hapart : Apart s.chunks) {i : ℕ} {c : Chunk} (hc : s.chunks[i]? = some c) {p : ℕ}
    (hp : c.contains p = true) : chunkOf s.starts p = some i := by
  have hrange := hp
  simp only [Chunk.contains, Bool.and_eq_true, decide_eq_true_eq] at hrange
  obtain ⟨⟨start, j⟩, hy, hlast, hle, hya⟩ := getLast?_takeWhile s.sorted_starts (x := (c.ptr, i))
    (mem_starts.mpr ⟨c, hc, rfl⟩) hrange.1
  obtain ⟨d, hd, rfl⟩ := mem_starts.mp hy
  have hlt : p < d.ptr + chunkBytes := by
    simp only at hle
    omega
  have hij := hapart.eq_of_contains hc hd hp (by simp only [Chunk.contains]; simp at hya; simp; omega)
  rw [chunkOf, hlast, hij]
  exact if_pos hlt

theorem contains_of_chunkOf {s : Slab} {p i : ℕ} (h : chunkOf s.starts p = some i) :
    ∃ c, s.chunks[i]? = some c ∧ c.contains p = true := by
  rw [chunkOf] at h
  split at h
  · cases h
  · rename_i start j hlast
    split at h
    · rename_i hlt
      cases h
      have hmem := List.mem_of_getLast? hlast
      obtain ⟨c, hc, rfl⟩ := mem_starts.mp ((List.takeWhile_prefix _).subset hmem)
      have hle : c.ptr ≤ p := by simpa using List.mem_takeWhile_imp hmem
      exact ⟨c, hc, by simp [Chunk.contains, hle, hlt]⟩
    · cases h

theorem mem_chunkStarts {s : Slab} {flags : List Bool} {a : ℕ} :
    a ∈ s.chunkStarts flags ↔ ∃ (i : ℕ) (c : Chunk), flags[i]? = some true ∧ s.chunks[i]? = some c ∧ c.ptr = a := by
  rw [chunkStarts, List.mem_mergeSort, List.mem_filterMap]
  constructor
  · rintro ⟨⟨b, i⟩, hmem, hptr⟩
    obtain ⟨hmem, hb⟩ := List.mem_filter.mp hmem
    obtain ⟨c, hc, rfl⟩ := Option.map_eq_some_iff.mp hptr
    have hget := List.mem_zipIdx_iff_getElem?.mp hmem
    exact ⟨i, c, by rw [hget]; exact congrArg some hb, hc, rfl⟩
  · rintro ⟨i, c, hi, hc, rfl⟩
    refine ⟨(true, i), List.mem_filter.mpr ⟨List.mem_zipIdx_iff_getElem?.mpr hi, rfl⟩, ?_⟩
    rw [hc]
    rfl

/-- The search for flagged chunks finds those that hold the address. -/
theorem inChunks_iff {s : Slab} (hapart : Apart s.chunks) (flags : List Bool) {i : ℕ} {c : Chunk}
    (hc : s.chunks[i]? = some c) {p : ℕ} (hp : c.contains p = true) :
    inChunks (s.chunkStarts flags) p = true ↔ flags[i]? = some true := by
  have hrange := hp
  simp only [Chunk.contains, Bool.and_eq_true, decide_eq_true_eq] at hrange
  have hsorted : (s.chunkStarts flags).Pairwise fun x y ↦ id x ≤ id y :=
    (List.pairwise_mergeSort (fun a b c hab hbc ↦ by simp at *; omega) (fun a b ↦ by simp; omega) _).imp
      fun {a b} h ↦ by simpa using h
  rw [inChunks]
  constructor
  · intro h
    split at h
    · cases h
    · rename_i start hlast
      have hlt : p < start + chunkBytes := by simpa using h
      have hmem := List.mem_of_getLast? hlast
      have hle : start ≤ p := by simpa using List.mem_takeWhile_imp hmem
      obtain ⟨j, d, hj, hd, rfl⟩ := mem_chunkStarts.mp ((List.takeWhile_prefix _).subset hmem)
      rw [hapart.eq_of_contains hc hd hp (by simp [Chunk.contains, hle, hlt])]
      exact hj
  · intro hi
    obtain ⟨y, -, hlast, hle, -⟩ := getLast?_takeWhile hsorted (x := c.ptr) (mem_chunkStarts.mpr ⟨i, c, hi, hc, rfl⟩)
      hrange.1
    simp only [id] at hlast hle
    rw [hlast]
    simp only [decide_eq_true_eq]
    omega

end CoilLang.Slab
