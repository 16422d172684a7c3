import CoilLang.Machine.SlabLookup
import CoilLang.Machine.SlabChunks
import Mathlib.Data.List.Induction

/-!
# The lookups are exact

**A slot offset is recognised exactly** (`isSlotOffset_iff`): offset times size is below `2 ^ 64` for 32-bit
numbers, so the product with the reciprocal does not wrap too far.

For the table, `Holds` says what is kept while chunks are added: the segments hold the chunks in their order,
and the entry of each bucket packs the indices of the chunks that reach into it. At most two chunks that do not
overlap reach into one bucket, which is what the two halves of an entry are for. So a **lookup finds the one
chunk that covers an address below `2 ^ 48`** (`Holds.position_eq_some_iff`).
-/

namespace CoilLang.SlabLookup

/-! ### Slot offsets -/

theorem reciprocal_le {M d : ℕ} (hM : 0 < M) : reciprocal M d ≤ M := by
  have := Nat.div_le_self (M - 1) d
  rw [reciprocal]
  omega

/-- **The multiplication tells divisibility** for all sizes and offsets. -/
theorem isSlotOffset_iff {slotSize : UInt32} (slotAlign firstOff rel : UInt32) (h : 0 < slotSize) :
    (PageMeta.new slotSize slotAlign firstOff).isSlotOffset rel = true ↔ slotSize.toNat ∣ rel.toNat := by
  have hd : 0 < slotSize.toNat := UInt32.lt_iff_toNat_lt.1 h
  have hlt : slotSize.toNat * rel.toNat < 2 ^ 64 :=
    calc slotSize.toNat * rel.toNat ≤ (2 ^ 32 - 1) * (2 ^ 32 - 1) :=
          Nat.mul_le_mul (Nat.le_pred_of_lt slotSize.toNat_lt) (Nat.le_pred_of_lt rel.toNat_lt)
      _ < 2 ^ 64 := by decide
  have hle := reciprocal_le (M := 2 ^ 64) (d := slotSize.toNat) (by decide)
  have hpos : 0 < reciprocal (2 ^ 64) slotSize.toNat := Nat.succ_pos _
  have hmagic : (PageMeta.new slotSize slotAlign firstOff).slotMagic.toNat =
      reciprocal (2 ^ 64) slotSize.toNat % 2 ^ 64 := by
    rw [PageMeta.new, UInt64.toNat_add, UInt64.toNat_div, UInt32.toNat_toUInt64]
    rfl
  have hprod : (rel.toUInt64 * (PageMeta.new slotSize slotAlign firstOff).slotMagic).toNat =
      rel.toNat * reciprocal (2 ^ 64) slotSize.toNat % 2 ^ 64 := by
    rw [UInt64.toNat_mul, hmagic, UInt32.toNat_toUInt64, Nat.mul_mod_mod]
  -- one less than the reciprocal does not wrap, also for size one, where the reciprocal itself does
  have hlast : ((PageMeta.new slotSize slotAlign firstOff).slotMagic - 1).toNat =
      reciprocal (2 ^ 64) slotSize.toNat - 1 := by
    rw [UInt64.toNat_sub, hmagic, show (1 : UInt64).toNat = 1 from rfl]
    omega
  rw [PageMeta.isSlotOffset, decide_eq_true_eq, UInt64.le_iff_toNat_le, hprod, hlast,
    ← mul_reciprocal_mod_lt_iff hd hlt]
  omega

/-! ### Segments -/

theorem two_pow_segOf (i : ℕ) : 2 ^ (segOf i).1 ≤ i / seg0 + 1 ∧ i / seg0 + 1 < 2 ^ ((segOf i).1 + 1) :=
  ⟨Nat.log2_self_le (Nat.succ_ne_zero _), Nat.lt_log2_self⟩

/-- The segments follow each other. -/
theorem seg_add_segOf (i : ℕ) : seg0 * (2 ^ (segOf i).1 - 1) + (segOf i).2 = i := by
  have h := (two_pow_segOf i).1
  have hdef : (segOf i).2 = i - seg0 * (2 ^ (segOf i).1 - 1) := rfl
  rw [hdef]
  rw [seg0] at h ⊢
  omega

theorem segOf_lt (i : ℕ) : (segOf i).2 < seg0 * 2 ^ (segOf i).1 := by
  have h := (two_pow_segOf i).2
  have hi := seg_add_segOf i
  rw [Nat.pow_succ] at h
  rw [seg0] at h hi ⊢
  omega

theorem segOf_injective {i j : ℕ} (h : segOf i = segOf j) : i = j := by
  rw [← seg_add_segOf i, ← seg_add_segOf j, h]

/-! ### Entries of the directory -/

namespace ChunkDir

variable {addr : UInt64} {root : ℕ → Option DirLeaf} {tag stop keyAddr cur : UInt64} {b q fuel i j : ℕ}
  {l : List ℕ}

/-- The entry of a bucket; zero where nothing is allocated. -/
def entryOf (root : ℕ → Option DirLeaf) (b : ℕ) : UInt64 :=
  ((root (b / 2 ^ 16)).getD fun _ ↦ 0) (b % 2 ^ 16)

def entry (d : ChunkDir) (b : ℕ) : UInt64 := entryOf (d.root.getD fun _ ↦ none) b

theorem split_of_lt (h : addr.toNat < 2 ^ 48) :
    split addr = some (addr.toNat / 2 ^ 16 / 2 ^ 16, addr.toNat / 2 ^ 16 % 2 ^ 16) := by
  have hhi : ((addr >>> 16) >>> 16).toNat < dirLen := by
    rw [toNat_shiftRight_16, toNat_shiftRight_16, dirLen]
    omega
  unfold split
  dsimp only
  rw [if_pos hhi, toNat_shiftRight_16, toNat_shiftRight_16, dirLen, Nat.and_two_pow_sub_one_eq_mod]

theorem split_of_ge (h : 2 ^ 48 ≤ addr.toNat) : split addr = none := by
  refine if_neg ?_
  rw [toNat_shiftRight_16, toNat_shiftRight_16, dirLen]
  omega

/-- Adds to the entry of a bucket. -/
def packAt (root : ℕ → Option DirLeaf) (q : ℕ) (tag : UInt64) : ℕ → Option DirLeaf :=
  let leaf := (root (q / 2 ^ 16)).getD fun _ ↦ 0
  Function.update root (q / 2 ^ 16)
    (some (Function.update leaf (q % 2 ^ 16) (pack (leaf (q % 2 ^ 16)) tag)))

theorem entryOf_packAt (root : ℕ → Option DirLeaf) (q : ℕ) (tag : UInt64) (b : ℕ) :
    entryOf (packAt root q tag) b = if b = q then pack (entryOf root q) tag else entryOf root b := by
  unfold entryOf packAt
  by_cases hhi : b / 2 ^ 16 = q / 2 ^ 16
  · rw [hhi, Function.update_self, Option.getD_some]
    by_cases hlo : b % 2 ^ 16 = q % 2 ^ 16
    · have hbq : b = q := by omega
      rw [hlo, Function.update_self, if_pos hbq]
    · rw [Function.update_of_ne hlo, if_neg fun h ↦ hlo (by rw [h])]
  · rw [Function.update_of_ne hhi, if_neg fun h ↦ hhi (by rw [h])]

theorem insertLoop_of_ge (h : stop ≤ keyAddr ∨ 2 ^ 48 ≤ keyAddr.toNat) :
    insertLoop tag stop fuel root keyAddr = root := by
  cases fuel with
  | zero => rfl
  | succ fuel =>
    unfold insertLoop
    split
    · rename_i hlt
      have hge := h.resolve_left (UInt64.not_le.2 hlt)
      rw [split_of_ge hge]
    · rfl

theorem insertLoop_succ (hkey : keyAddr.toNat = q * 2 ^ 16) (hq : q < 2 ^ 32) (h : keyAddr < stop) :
    insertLoop tag stop (fuel + 1) root keyAddr =
      insertLoop tag stop fuel (packAt root q tag) (keyAddr + 0x10000) := by
  have hlt : keyAddr.toNat < 2 ^ 48 := by omega
  have hdiv : keyAddr.toNat / 2 ^ 16 = q := by omega
  rw [insertLoop, if_pos h, split_of_lt hlt, hdiv]
  rfl

/-- A range of a chunk from `start` reaches into the bucket. -/
def Reaches (b start : ℕ) : Prop := b * 2 ^ 16 < start + 2 ^ 16 ∧ start < (b + 1) * 2 ^ 16

instance (b start : ℕ) : Decidable (Reaches b start) := inferInstanceAs (Decidable (_ ∧ _))

theorem toNat_bucketStart (start : UInt64) :
    (start &&& ~~~(0xffff : UInt64)).toNat = start.toNat / 2 ^ 16 * 2 ^ 16 := by
  have hmask : (~~~(0xffff : UInt64)).toNat = (2 ^ 48 - 1) <<< 16 := rfl
  rw [UInt64.toNat_and, hmask]
  refine Nat.eq_of_testBit_eq fun i ↦ ?_
  rw [Nat.testBit_and, Nat.testBit_shiftLeft, Nat.testBit_two_pow_sub_one, ← Nat.shiftLeft_eq,
    ← Nat.shiftRight_eq_div_pow, Nat.testBit_shiftLeft, Nat.testBit_shiftRight]
  by_cases hi : 16 ≤ i
  · rw [Nat.add_sub_cancel' hi]
    by_cases hi' : i < 64
    · simp [hi, show i - 16 < 48 by omega]
    · have hlt : start.toNat < 2 ^ i := start.toNat_lt.trans_le (Nat.pow_le_pow_right (by decide) (by omega))
      simp [Nat.testBit_lt_two_pow hlt]
  · simp [hi]

/-- **The loop goes over at most two buckets**, whatever the bound on its rounds: that of the start, and the
next one if the chunk straddles their border and the directory knows it. -/
theorem insertLoop_bucketStart (start : UInt64) (fuel : ℕ) :
    insertLoop tag (start + chunkBytes) (fuel + 2) root (start &&& ~~~(0xffff : UInt64)) =
      if start.toNat < 2 ^ 48 then
        if start.toNat % 2 ^ 16 = 0 ∨ 2 ^ 32 ≤ start.toNat / 2 ^ 16 + 1 then
          packAt root (start.toNat / 2 ^ 16) tag
        else packAt (packAt root (start.toNat / 2 ^ 16) tag) (start.toNat / 2 ^ 16 + 1) tag
      else root := by
  have hkey := toNat_bucketStart start
  have hbound := start.toNat_lt
  by_cases hlow : start.toNat < 2 ^ 48
  · rw [if_pos hlow]
    have hstop : (start + chunkBytes).toNat = start.toNat + 2 ^ 16 := by
      rw [UInt64.toNat_add, toNat_chunkBytes]
      omega
    have hlt : start &&& ~~~(0xffff : UInt64) < start + chunkBytes := by
      rw [UInt64.lt_iff_toNat_lt, hkey, hstop]
      omega
    have hnext : ((start &&& ~~~(0xffff : UInt64)) + 0x10000).toNat =
        (start.toNat / 2 ^ 16 + 1) * 2 ^ 16 := by
      rw [UInt64.toNat_add, hkey, toNat_bucketBytes]
      omega
    rw [insertLoop_succ hkey (by omega) hlt]
    generalize (start &&& ~~~(0xffff : UInt64)) + 0x10000 = next at hnext
    by_cases hsecond : start.toNat % 2 ^ 16 = 0 ∨ 2 ^ 32 ≤ start.toNat / 2 ^ 16 + 1
    · rw [if_pos hsecond]
      refine insertLoop_of_ge ?_
      rw [UInt64.le_iff_toNat_le, hstop, hnext]
      omega
    · have hlt' : next < start + chunkBytes := by
        rw [UInt64.lt_iff_toNat_lt, hstop, hnext]
        omega
      rw [if_neg hsecond, insertLoop_succ hnext (by omega) hlt']
      refine insertLoop_of_ge (.inl ?_)
      rw [UInt64.le_iff_toNat_le, hstop, UInt64.toNat_add, hnext, toNat_bucketBytes]
      omega
  · rw [if_neg hlow]
    exact insertLoop_of_ge (.inr (by omega))

/-- **An insertion adds the index to the buckets the chunk reaches into.** -/
theorem entry_insert (d : ChunkDir) (start : UInt64) (index : ℕ) (hb : b < 2 ^ 32) :
    (d.insert start index).entry b =
      if Reaches b start.toNat then pack (d.entry b) (UInt64.ofNat index + 1) else d.entry b := by
  have hreaches : Reaches b start.toNat ↔ start.toNat < 2 ^ 48 ∧
      (b = start.toNat / 2 ^ 16 ∨ start.toNat % 2 ^ 16 ≠ 0 ∧ b = start.toNat / 2 ^ 16 + 1) := by
    unfold Reaches
    omega
  unfold entry insert
  rw [Option.getD_some, insertLoop_bucketStart start 0]
  by_cases hlow : start.toNat < 2 ^ 48
  · rw [if_pos hlow]
    by_cases hsecond : start.toNat % 2 ^ 16 = 0 ∨ 2 ^ 32 ≤ start.toNat / 2 ^ 16 + 1
    · rw [if_pos hsecond, entryOf_packAt]
      have hiff : Reaches b start.toNat ↔ b = start.toNat / 2 ^ 16 := by
        rw [hreaches]
        omega
      by_cases hbq : b = start.toNat / 2 ^ 16
      · rw [if_pos hbq, if_pos (hiff.2 hbq), hbq]
      · rw [if_neg hbq, if_neg fun h ↦ hbq (hiff.1 h)]
    · rw [if_neg hsecond, entryOf_packAt, entryOf_packAt, entryOf_packAt, if_neg (Nat.succ_ne_self _)]
      by_cases hb₁ : b = start.toNat / 2 ^ 16 + 1
      · rw [if_pos hb₁, if_pos (hreaches.2 (by omega)), hb₁]
      · rw [if_neg hb₁]
        by_cases hb₀ : b = start.toNat / 2 ^ 16
        · rw [if_pos hb₀, if_pos (hreaches.2 (by omega)), hb₀]
        · have hnot : ¬Reaches b start.toNat := by
            rw [hreaches]
            omega
          rw [if_neg hb₀, if_neg hnot]
  · rw [if_neg hlow, if_neg fun h ↦ hlow (hreaches.1 h).1]

/-! ### Packed indices -/

/-- The indices an entry holds; each fits half a word with one added. -/
def Packs (e : UInt64) : List ℕ → Prop
  | [] => e.toNat = 0
  | [i] => i + 1 < 2 ^ 32 ∧ e.toNat = i + 1
  | [i, j] => i + 1 < 2 ^ 32 ∧ j + 1 < 2 ^ 32 ∧ e.toNat = i + 1 + (j + 1) * 2 ^ 32
  | _ => False

theorem toNat_lowHalf (e : UInt64) : (e &&& 0xffffffff).toNat = e.toNat % 2 ^ 32 := by
  rw [UInt64.toNat_and, show (0xffffffff : UInt64).toNat = 2 ^ 32 - 1 from rfl,
    Nat.and_two_pow_sub_one_eq_mod]

theorem toNat_highHalf (e : UInt64) : (e >>> 32).toNat = e.toNat / 2 ^ 32 := by
  rw [UInt64.toNat_shiftRight, show (32 : UInt64).toNat % 64 = 32 from rfl, Nat.shiftRight_eq_div_pow]

theorem toNat_tag (hi : i + 1 < 2 ^ 32) : (UInt64.ofNat i + 1).toNat = i + 1 := by
  rw [UInt64.toNat_add, UInt64.toNat_ofNat', show (1 : UInt64).toNat = 1 from rfl]
  omega

/-- An entry that does not hold two indices takes another one. -/
theorem Packs.pack (h : Packs cur l) (hl : l.length ≤ 1) (hi : i + 1 < 2 ^ 32) :
    Packs (pack cur (UInt64.ofNat i + 1)) (l ++ [i]) := by
  have htag := toNat_tag hi
  have hlow : cur &&& 0xffffffff = 0 ↔ cur.toNat % 2 ^ 32 = 0 := by
    rw [← UInt64.toNat_inj, toNat_lowHalf]
    rfl
  match l, h with
  | [], (h : cur.toNat = 0) =>
    rw [ChunkDir.pack, if_pos (hlow.2 (by rw [h, Nat.zero_mod]))]
    refine ⟨hi, ?_⟩
    rw [UInt64.toNat_or, h, Nat.zero_or, htag]
  | [k], h =>
    obtain ⟨hk, hcur⟩ := h
    have hnot : ¬cur &&& 0xffffffff = 0 := fun h0 ↦ by
      have := hlow.1 h0
      omega
    rw [ChunkDir.pack, if_neg hnot]
    refine ⟨hk, hi, ?_⟩
    rw [UInt64.toNat_or, UInt64.toNat_shiftLeft, htag, hcur, show (32 : UInt64).toNat % 64 = 32 from rfl,
      Nat.shiftLeft_eq, Nat.mod_eq_of_lt (by omega), Nat.or_comm, Nat.mul_comm (i + 1),
      ← Nat.two_pow_add_eq_or_of_lt hk, Nat.add_comm]
  | _ :: _ :: _, _ => simp at hl

/-- **Reading an entry gives back its indices**, to any test that `noIndex` fails. -/
theorem Packs.find? (h : Packs cur l) {p : ℕ → Bool} (hp : p noIndex = false) :
    [indexOf (cur &&& 0xffffffff), indexOf (cur >>> 32)].find? p = l.find? p := by
  have hindex : ∀ {t : UInt64} {n : ℕ}, t.toNat = n + 1 → indexOf t = n := fun {t n} ht ↦ by
    have hne : t ≠ 0 := fun h0 ↦ by
      rw [h0] at ht
      cases ht
    rw [indexOf, if_neg hne, ht, Nat.add_sub_cancel]
  have hzero : ∀ {t : UInt64}, t.toNat = 0 → indexOf t = noIndex := fun {t} ht ↦
    if_pos (UInt64.toNat_inj.1 ht)
  have hlow := toNat_lowHalf cur
  have hhigh := toNat_highHalf cur
  match l, h with
  | [], (h : cur.toNat = 0) =>
    rw [hzero (by rw [hlow, h, Nat.zero_mod]), hzero (by rw [hhigh, h, Nat.zero_div])]
    simp [hp]
  | [k], h =>
    obtain ⟨hk, hcur⟩ := h
    rw [hindex (n := k) (by omega), hzero (by omega)]
    simp [hp, List.find?_cons]
  | [k, j], h =>
    obtain ⟨hk, hj, hcur⟩ := h
    rw [hindex (n := k) (by omega), hindex (n := j) (by omega)]

/-- **What is looked at are the indices packed in the entry of the bucket.** -/
theorem candidates_find? {d : ChunkDir} (haddr : addr.toNat < 2 ^ 48)
    (h : Packs (d.entry (addr.toNat / 2 ^ 16)) l) {p : ℕ → Bool} (hp : p noIndex = false) :
    (d.candidates addr).find? p = l.find? p := by
  rw [← h.find? hp]
  have hnone : [noIndex, noIndex].find? p = [indexOf (0 &&& 0xffffffff), indexOf ((0 : UInt64) >>> 32)].find? p := rfl
  unfold candidates entry entryOf
  rw [split_of_lt haddr]
  cases d.root with
  | none => exact hnone
  | some root =>
    dsimp only [Option.getD_some]
    cases root (addr.toNat / 2 ^ 16 / 2 ^ 16) with
    | none => exact hnone
    | some leaf => rfl

theorem candidates_of_ge {d : ChunkDir} (haddr : 2 ^ 48 ≤ addr.toNat) :
    d.candidates addr = [noIndex, noIndex] := by
  unfold candidates
  rw [split_of_ge haddr]
  cases d.root with
  | none => rfl
  | some root => rfl

end ChunkDir

/-! ### Chunks that do not overlap -/

/-- The address is one of the chunk's. -/
def Chunk.Covers (c : Chunk) (addr : UInt64) : Prop :=
  c.ptr.toNat ≤ addr.toNat ∧ addr.toNat < c.ptr.toNat + 2 ^ 16

def Disjoint (cs : List Chunk) : Prop := (cs.map fun c ↦ c.ptr.toNat).Pairwise (Apart (2 ^ 16))

/-- The indices of the chunks that reach into a bucket. -/
def reaching (b : ℕ) (cs : List Chunk) : List ℕ :=
  (cs.zipIdx.filter fun p ↦ ChunkDir.Reaches b p.1.ptr.toNat).map Prod.snd

variable {cs : List Chunk} {c d : Chunk} {addr : UInt64} {b i j : ℕ} {t t' : ChunkTable}

theorem mem_reaching : i ∈ reaching b cs ↔ ∃ c, cs[i]? = some c ∧ ChunkDir.Reaches b c.ptr.toNat := by
  unfold reaching
  rw [List.mem_map]
  constructor
  · rintro ⟨⟨c, k⟩, hmem, rfl⟩
    obtain ⟨hc, hreach⟩ := List.mem_filter.1 hmem
    exact ⟨c, List.mem_zipIdx_iff_getElem?.1 hc, of_decide_eq_true hreach⟩
  · rintro ⟨c, hc, hreach⟩
    exact ⟨(c, i), List.mem_filter.2 ⟨List.mem_zipIdx_iff_getElem?.2 hc, decide_eq_true hreach⟩, rfl⟩

theorem reaching_append : reaching b (cs ++ [c]) =
    reaching b cs ++ if ChunkDir.Reaches b c.ptr.toNat then [cs.length] else [] := by
  unfold reaching
  rw [List.zipIdx_append, List.filter_append, List.map_append, Nat.zero_add]
  congr 1
  by_cases h : ChunkDir.Reaches b c.ptr.toNat
  · simp [h]
  · simp [h]

/-- **At most two chunks reach into a bucket.** -/
theorem length_reaching_le (h : Disjoint cs) (b : ℕ) : (reaching b cs).length ≤ 2 := by
  have hsub : ((cs.map fun c ↦ c.ptr.toNat).filter fun x ↦ ChunkDir.Reaches b x).length =
      (reaching b cs).length := by
    unfold reaching
    rw [List.length_map, ← List.zipIdx_map_fst 0 cs, List.map_map, List.filter_map, List.length_map,
      List.zipIdx_map_fst]
    rfl
  have hwindows : ∀ x ∈ (cs.map fun c ↦ c.ptr.toNat).filter fun x ↦ ChunkDir.Reaches b x,
      b * 2 ^ 16 + 1 - 2 ^ 16 ≤ x ∧ x < b * 2 ^ 16 + 1 - 2 ^ 16 + 2 * 2 ^ 16 := fun x hx ↦ by
    obtain ⟨hlow, hhigh⟩ := of_decide_eq_true (List.mem_filter.1 hx).2
    omega
  rw [← hsub]
  exact length_le_of_apart hwindows (List.Pairwise.sublist List.filter_sublist h)

theorem Disjoint.left {ds : List Chunk} (h : Disjoint (cs ++ ds)) : Disjoint cs := by
  unfold Disjoint at h
  rw [List.map_append] at h
  exact (List.pairwise_append.1 h).1

/-- **No address is covered twice.** -/
theorem Disjoint.eq_of_covers (h : Disjoint cs) (hi : cs[i]? = some c) (hj : cs[j]? = some d)
    (hc : c.Covers addr) (hd : d.Covers addr) : i = j := by
  have key : ∀ {i j : ℕ} {c d : Chunk}, cs[i]? = some c → cs[j]? = some d → c.Covers addr →
      d.Covers addr → ¬i < j := by
    intro i j c d hi hj hc hd hlt
    refine not_apart_of_mem hc hd ?_
    have hi' : (cs.map fun c ↦ c.ptr.toNat)[i]? = some c.ptr.toNat := by rw [List.getElem?_map, hi]; rfl
    have hj' : (cs.map fun c ↦ c.ptr.toNat)[j]? = some d.ptr.toNat := by rw [List.getElem?_map, hj]; rfl
    obtain ⟨hi₀, hi₁⟩ := List.getElem?_eq_some_iff.1 hi'
    obtain ⟨hj₀, hj₁⟩ := List.getElem?_eq_some_iff.1 hj'
    rw [← hi₁, ← hj₁]
    exact List.pairwise_iff_getElem.1 h i j hi₀ hj₀ hlt
  have hij := key hi hj hc hd
  have hji := key hj hi hd hc
  omega

/-- Below `2 ^ 48` the comparisons of the code do not wrap. -/
theorem contains_iff (haddr : addr.toNat < 2 ^ 48) : c.contains addr = true ↔ c.Covers addr := by
  unfold Chunk.contains Chunk.Covers
  rw [Bool.and_eq_true, decide_eq_true_eq, decide_eq_true_eq, UInt64.le_iff_toNat_le,
    UInt64.lt_iff_toNat_lt, UInt64.toNat_add, toNat_chunkBytes]
  have := c.ptr.toNat_lt
  omega

/-! ### The table -/

/-- What holds after the chunks were added. -/
structure Holds (cs : List Chunk) (t : ChunkTable) : Prop where
  len : t.len = cs.length
  room : cs.length ≤ seg0 * (2 ^ SlabLookup.segs - 1)
  shape : ∀ k seg, t.segs k = some seg → seg.length = seg0 * 2 ^ k
  entries : ∀ i c, cs[i]? = some c → (t.segs (segOf i).1).bind (·[(segOf i).2]?) = some (some c)
  dir : ∀ b < 2 ^ 32, ChunkDir.Packs (t.dir.entry b) (reaching b cs)

theorem holds_new : Holds [] .new where
  len := rfl
  room := Nat.zero_le _
  shape _ _ h := by cases h
  entries _ _ h := by cases h
  dir _ _ := rfl

theorem Holds.get_eq (h : Holds cs t) (i : ℕ) : t.get i = cs[i]? := by
  unfold ChunkTable.get
  rw [h.len]
  by_cases hi : cs.length ≤ i
  · rw [if_pos hi, List.getElem?_eq_none hi]
  · rw [if_neg hi, List.getElem?_eq_getElem (Nat.lt_of_not_le hi),
      h.entries i _ (List.getElem?_eq_getElem (Nat.lt_of_not_le hi))]
    rfl

theorem segOf_fst_lt : (segOf i).1 < SlabLookup.segs ↔ i < seg0 * (2 ^ SlabLookup.segs - 1) := by
  have hdef : (segOf i).1 = (i / seg0 + 1).log2 := rfl
  rw [hdef, Nat.log2_lt (Nat.succ_ne_zero _), seg0, SlabLookup.segs]
  omega

/-- A push appends. -/
theorem Holds.push (h : Holds cs t) (ht : t.push c = some t') (hdisj : Disjoint (cs ++ [c]))
    (hindex : c.ptr.toNat < 2 ^ 48 → cs.length + 1 < 2 ^ 32) : Holds (cs ++ [c]) t' := by
  unfold ChunkTable.push at ht
  dsimp only at ht
  by_cases hroom : (segOf t.len).1 < SlabLookup.segs
  · rw [if_pos hroom, h.len] at ht
    cases ht
    have hseg : ((t.segs (segOf cs.length).1).getD (List.replicate (seg0 * 2 ^ (segOf cs.length).1) none)).length =
        seg0 * 2 ^ (segOf cs.length).1 := by
      cases hk : t.segs (segOf cs.length).1 with
      | none => exact List.length_replicate
      | some seg => exact h.shape _ _ hk
    refine ⟨?_, ?_, ?_, ?_, ?_⟩
    · rw [List.length_append, List.length_singleton]
    · rw [h.len, segOf_fst_lt] at hroom
      rw [List.length_append, List.length_singleton]
      exact hroom
    · intro k seg hk
      dsimp only at hk
      by_cases hkey : k = (segOf cs.length).1
      · subst hkey
        rw [Function.update_self] at hk
        cases hk
        rw [List.length_set, hseg]
      · rw [Function.update_of_ne hkey] at hk
        exact h.shape k seg hk
    · intro i e he
      dsimp only
      by_cases hi : i = cs.length
      · subst hi
        rw [List.getElem?_concat_length] at he
        cases he
        rw [Function.update_self, Option.bind_some, List.getElem?_set_self (by rw [hseg]; exact segOf_lt _)]
      · have hlt : i < cs.length := by
          have := (List.getElem?_eq_some_iff.1 he).1
          rw [List.length_append, List.length_singleton] at this
          omega
        rw [List.getElem?_append_left hlt] at he
        have hold := h.entries i e he
        by_cases hkey : (segOf i).1 = (segOf cs.length).1
        · -- in the same segment the place is another one
          have hplace : (segOf cs.length).2 ≠ (segOf i).2 := fun heq ↦
            hi (segOf_injective (Prod.ext hkey heq.symm))
          rw [hkey] at hold ⊢
          rw [Function.update_self, Option.bind_some, List.getElem?_set_ne hplace]
          cases hk : t.segs (segOf cs.length).1 with
          | none => rw [hk] at hold; cases hold
          | some seg => rwa [hk] at hold
        · rwa [Function.update_of_ne hkey]
    · intro b hb
      dsimp only
      rw [ChunkDir.entry_insert _ _ _ hb, reaching_append]
      have hle := length_reaching_le hdisj b
      rw [reaching_append] at hle
      by_cases hreach : ChunkDir.Reaches b c.ptr.toNat
      · rw [if_pos hreach] at hle ⊢
        rw [if_pos hreach]
        rw [List.length_append, List.length_singleton] at hle
        refine (h.dir b hb).pack (by omega) (hindex ?_)
        have := hreach.2
        omega
      · rw [if_neg hreach, if_neg hreach, List.append_nil]
        exact h.dir b hb
  · rw [if_neg hroom] at ht
    cases ht

/-- Chunks the directory knows have indices that fit half a word. -/
def Indexed (cs : List Chunk) : Prop := ∀ i c, cs[i]? = some c → c.ptr.toNat < 2 ^ 48 → i + 1 < 2 ^ 32

theorem Indexed.left {ds : List Chunk} (h : Indexed (cs ++ ds)) : Indexed cs := fun i c hc ↦
  h i c (by rw [List.getElem?_append_left (List.getElem?_eq_some_iff.1 hc).1, hc])

theorem Holds.ofChunks (hdisj : Disjoint cs) (hindex : Indexed cs) (ht : ChunkTable.ofChunks cs = some t) :
    Holds cs t := by
  induction cs using List.reverseRecOn generalizing t with
  | nil =>
    cases ht
    exact holds_new
  | append_singleton cs c ih =>
    unfold ChunkTable.ofChunks at ht
    rw [List.foldlM_append] at ht
    obtain ⟨t₁, ht₁, hpush⟩ := Option.bind_eq_some_iff.1 ht
    have hpush' : t₁.push c = some t := by simpa using hpush
    refine (ih hdisj.left hindex.left ht₁).push hpush' hdisj (hindex cs.length c ?_)
    exact List.getElem?_concat_length

/-- **A lookup returns the chunk that covers the address**, and none if no chunk does. -/
theorem Holds.position_eq_some_iff (h : Holds cs t) (hdisj : Disjoint cs) (haddr : addr.toNat < 2 ^ 48) (i : ℕ) :
    t.position addr = some i ↔ ∃ c, cs[i]? = some c ∧ c.Covers addr := by
  have hroom := h.room
  have htest : (t.get ChunkDir.noIndex).any (·.contains addr) = false := by
    rw [h.get_eq, List.getElem?_eq_none]
    · rfl
    · rw [ChunkDir.noIndex]
      rw [seg0, SlabLookup.segs] at hroom
      omega
  have hpos : t.position addr =
      (reaching (addr.toNat / 2 ^ 16) cs).find? fun i ↦ (t.get i).any (·.contains addr) :=
    ChunkDir.candidates_find? haddr (h.dir _ (by omega)) htest
  have hcovers : ∀ {j : ℕ}, (t.get j).any (·.contains addr) = true ↔ ∃ c, cs[j]? = some c ∧ c.Covers addr := by
    intro j
    rw [h.get_eq, Option.any_eq_true]
    exact exists_congr fun c ↦ and_congr_right fun _ ↦ contains_iff haddr
  have hfound : ∀ {j : ℕ}, ((reaching (addr.toNat / 2 ^ 16) cs).find? fun i ↦ (t.get i).any (·.contains addr)) =
      some j → ∃ c, cs[j]? = some c ∧ c.Covers addr := fun {j} h ↦
    hcovers.1 (List.find?_some (p := fun i ↦ (t.get i).any (·.contains addr)) h)
  rw [hpos]
  constructor
  · exact hfound
  · intro hcov
    obtain ⟨c, hc, hin⟩ := hcov
    have hmem : i ∈ reaching (addr.toNat / 2 ^ 16) cs := by
      refine mem_reaching.2 ⟨c, hc, ?_⟩
      obtain ⟨hlow, hhigh⟩ := hin
      unfold ChunkDir.Reaches
      omega
    cases hfind : (reaching (addr.toNat / 2 ^ 16) cs).find? fun i ↦ (t.get i).any (·.contains addr) with
    | none => exact absurd (hcovers.2 ⟨c, hc, hin⟩) (List.find?_eq_none.1 hfind i hmem)
    | some j =>
      obtain ⟨d, hd, hin'⟩ := hfound hfind
      rw [hdisj.eq_of_covers hc hd hin hin']

theorem Holds.position_of_ge (h : Holds cs t) (haddr : 2 ^ 48 ≤ addr.toNat) : t.position addr = none := by
  have hroom := h.room
  unfold ChunkTable.position
  rw [ChunkDir.candidates_of_ge haddr]
  have hget : t.get ChunkDir.noIndex = none := by
    rw [h.get_eq, List.getElem?_eq_none]
    rw [ChunkDir.noIndex]
    rw [seg0, SlabLookup.segs] at hroom
    omega
  simp [hget]

/-! ### Chunks the directory knows -/

/-- The chunk lies where the directory can point to it. -/
def Chunk.Known (c : Chunk) : Prop := 0 < c.ptr.toNat ∧ c.ptr.toNat + 2 ^ 16 ≤ 2 ^ 48

/-- There are not more such chunks than indices. -/
theorem length_lt_of_known (hdisj : Disjoint cs) (hknown : ∀ c ∈ cs, c.Known) : cs.length < 2 ^ 32 := by
  have hrange : ∀ x ∈ cs.map fun c ↦ c.ptr.toNat, 1 ≤ x ∧ x < 1 + (2 ^ 32 - 1) * 2 ^ 16 := fun x hx ↦ by
    obtain ⟨c, hc, rfl⟩ := List.mem_map.1 hx
    obtain ⟨hpos, hend⟩ := hknown c hc
    omega
  have hle := length_le_of_apart hrange hdisj
  rw [List.length_map] at hle
  omega

/-- **The table takes them all.** -/
theorem exists_ofChunks (hdisj : Disjoint cs) (hknown : ∀ c ∈ cs, c.Known) :
    ∃ t, ChunkTable.ofChunks cs = some t ∧ Holds cs t := by
  have hindex : ∀ {ds : List Chunk}, ds.length < 2 ^ 32 → Indexed ds := fun hlen i c hc _ ↦ by
    have := (List.getElem?_eq_some_iff.1 hc).1
    omega
  have hlen := length_lt_of_known hdisj hknown
  suffices ∃ t, ChunkTable.ofChunks cs = some t by
    obtain ⟨t, ht⟩ := this
    exact ⟨t, ht, .ofChunks hdisj (hindex hlen) ht⟩
  induction cs using List.reverseRecOn with
  | nil => exact ⟨.new, rfl⟩
  | append_singleton cs c ih =>
    rw [List.length_append, List.length_singleton] at hlen
    obtain ⟨t, ht⟩ := ih hdisj.left (fun e he ↦ hknown e (List.mem_append_left _ he)) (by omega)
    have hholds := Holds.ofChunks hdisj.left (hindex (by omega)) ht
    have hroom : (segOf t.len).1 < SlabLookup.segs := by
      rw [segOf_fst_lt, hholds.len, seg0, SlabLookup.segs]
      omega
    unfold ChunkTable.ofChunks at ht ⊢
    rw [List.foldlM_append, ht]
    unfold ChunkTable.push
    dsimp only
    rw [Option.bind_eq_bind, Option.bind_some, List.foldlM_cons, if_pos hroom]
    exact ⟨_, rfl⟩

theorem position_eq_some_iff_of_known (h : Holds cs t) (hdisj : Disjoint cs) (hknown : ∀ c ∈ cs, c.Known)
    (addr : UInt64) (i : ℕ) : t.position addr = some i ↔ ∃ c, cs[i]? = some c ∧ c.Covers addr := by
  rcases Nat.lt_or_ge addr.toNat (2 ^ 48) with haddr | haddr
  · exact h.position_eq_some_iff hdisj haddr i
  · -- no known chunk covers the address
    rw [h.position_of_ge haddr]
    constructor
    · intro h
      cases h
    · intro hcov
      obtain ⟨c, hc, -, hlt⟩ := hcov
      have := (hknown c (List.mem_of_getElem? hc)).2
      omega

/-- **The lookups are exact**: a slot offset is recognised for each size, and an address is resolved to the chunk
that covers it, below the addresses the directory turns away. -/
theorem lookup_exact :
    (∀ slotSize slotAlign firstOff rel : UInt32, 0 < slotSize →
      ((PageMeta.new slotSize slotAlign firstOff).isSlotOffset rel = true ↔ slotSize.toNat ∣ rel.toNat)) ∧
    (∀ (cs : List Chunk) (t : ChunkTable), Disjoint cs → Indexed cs → ChunkTable.ofChunks cs = some t →
      ∀ addr : UInt64,
        (addr.toNat < 2 ^ 48 → ∀ i, t.position addr = some i ↔ ∃ c, cs[i]? = some c ∧ c.Covers addr) ∧
        (2 ^ 48 ≤ addr.toNat → t.position addr = none)) ∧
    (∀ cs : List Chunk, Disjoint cs → (∀ c ∈ cs, c.Known) →
      ∃ t, ChunkTable.ofChunks cs = some t ∧
        ∀ (addr : UInt64) (i : ℕ), t.position addr = some i ↔ ∃ c, cs[i]? = some c ∧ c.Covers addr) := by
  refine ⟨fun slotSize slotAlign firstOff rel h ↦ isSlotOffset_iff slotAlign firstOff rel h, ?_, ?_⟩
  · intro cs t hdisj hindex ht addr
    have hholds := Holds.ofChunks hdisj hindex ht
    exact ⟨hholds.position_eq_some_iff hdisj, hholds.position_of_ge⟩
  · intro cs hdisj hknown
    obtain ⟨t, ht, hholds⟩ := exists_ofChunks hdisj hknown
    exact ⟨t, ht, position_eq_some_iff_of_known hholds hdisj hknown⟩

/-- Two chunks that share a bucket. -/
def neighbours : List Chunk := [⟨0x28000, .new 24 8 8⟩, ⟨0x18000, .new 40 8 8⟩]

theorem lookup_exact_neighbours :
    ((PageMeta.new 24 8 8).isSlotOffset 48 = true ↔ (24 : UInt32).toNat ∣ (48 : UInt32).toNat) ∧
    ∃ t, ChunkTable.ofChunks neighbours = some t ∧ t.position 0x20000 = some 1 ∧ t.position 0x38000 = none := by
  have hdisj : Disjoint neighbours := by
    unfold Disjoint
    decide
  have hknown : ∀ c ∈ neighbours, c.Known := by
    unfold Chunk.Known
    decide
  refine ⟨lookup_exact.1 24 8 8 48 (by decide), ?_⟩
  obtain ⟨t, ht, hpos⟩ := lookup_exact.2.2 neighbours hdisj hknown
  have hindex : Indexed neighbours := fun i c hc _ ↦ by
    have := (List.getElem?_eq_some_iff.1 hc).1
    exact Nat.lt_trans (Nat.succ_lt_succ this) (by decide)
  refine ⟨t, ht, ?_, ?_⟩
  · exact (hpos 0x20000 1).2 ⟨⟨0x18000, .new 40 8 8⟩, rfl, by unfold Chunk.Covers; decide⟩
  · have hnone := (lookup_exact.2.1 neighbours t hdisj hindex ht 0x38000).1 (by decide)
    cases hfound : t.position 0x38000 with
    | none => rfl
    | some i =>
      obtain ⟨c, hc, hcov⟩ := (hnone i).1 hfound
      have hmem := List.mem_of_getElem? hc
      have hno : ∀ c ∈ neighbours, ¬c.Covers 0x38000 := by
        unfold Chunk.Covers
        decide
      exact absurd hcov (hno c hmem)

/-- A chunk the directory does not take. -/
def highChunk : Chunk := ⟨0x1000000000000, .new 24 8 8⟩

/-- **A chunk from `2 ^ 48` on is not found**: its addresses are covered and looked up in vain. -/
theorem position_misses_high :
    Disjoint [highChunk] ∧ highChunk.Covers 0x1000000000000 ∧
      (ChunkTable.ofChunks [highChunk]).map (·.position 0x1000000000000) = some none := by
  refine ⟨List.pairwise_singleton _ _, ?_, ?_⟩
  · unfold Chunk.Covers
    decide
  · decide +kernel

/-! ### The search of the slab -/

/-- A chunk of the slab, with its address as a word. -/
def ofSlab (c : Slab.Chunk) : Chunk :=
  ⟨.ofNat c.ptr, .new (.ofNat c.slotSize) (.ofNat c.slotAlign) (.ofNat c.firstOff)⟩

/-- **The table finds what a search of the chunks does**, so the directory refines the search in `Slab.chunkFor`. -/
theorem position_ofSlab {s : Slab} (hapart : Slab.Apart s.chunks)
    (hrange : ∀ c ∈ s.chunks, 0 < c.ptr ∧ c.ptr + 2 ^ 16 ≤ 2 ^ 48) :
    ∃ t, ChunkTable.ofChunks (s.chunks.map ofSlab) = some t ∧
      ∀ addr : UInt64, (t.position addr).bind (s.chunks[·]?) = s.chunkFor addr.toNat := by
  have hptr : ∀ c ∈ s.chunks, (ofSlab c).ptr.toNat = c.ptr := fun c hc ↦ by
    have := (hrange c hc).2
    exact UInt64.toNat_ofNat_of_lt' (by rw [UInt64.size]; omega)
  have hcovers : ∀ c ∈ s.chunks, ∀ addr, (ofSlab c).Covers addr ↔ c.contains addr.toNat = true := fun c hc addr ↦ by
    unfold Chunk.Covers Slab.Chunk.contains
    rw [hptr c hc, Bool.and_eq_true, decide_eq_true_eq, decide_eq_true_eq]
    rfl
  have hdisj : Disjoint (s.chunks.map ofSlab) := by
    unfold Disjoint
    rw [List.map_map, List.pairwise_map]
    refine hapart.imp_of_mem fun {c d} hc hd h ↦ ?_
    rw [Function.comp_apply, Function.comp_apply, hptr c hc, hptr d hd]
    exact h
  have hknown : ∀ c ∈ s.chunks.map ofSlab, c.Known := fun c hc ↦ by
    obtain ⟨e, he, rfl⟩ := List.mem_map.1 hc
    rw [Chunk.Known, hptr e he]
    exact hrange e he
  obtain ⟨t, ht, hholds⟩ := exists_ofChunks hdisj hknown
  refine ⟨t, ht, fun addr ↦ ?_⟩
  have hpos : ∀ i, t.position addr = some i ↔ ∃ c, s.chunks[i]? = some c ∧ c.contains addr.toNat = true := by
    intro i
    rw [position_eq_some_iff_of_known hholds hdisj hknown, List.getElem?_map]
    constructor
    · intro h
      obtain ⟨c', hc', hcov⟩ := h
      obtain ⟨c, hc, rfl⟩ := Option.map_eq_some_iff.1 hc'
      exact ⟨c, hc, (hcovers c (List.mem_of_getElem? hc) addr).1 hcov⟩
    · intro h
      obtain ⟨c, hc, hcov⟩ := h
      exact ⟨ofSlab c, by rw [hc]; rfl, (hcovers c (List.mem_of_getElem? hc) addr).2 hcov⟩
  cases hfor : s.chunkFor addr.toNat with
  | none =>
    cases hposition : t.position addr with
    | none => rfl
    | some i =>
      obtain ⟨c, hc, hcov⟩ := (hpos i).1 hposition
      exact absurd hcov (List.find?_eq_none.1 hfor c (List.mem_of_getElem? hc))
  | some c =>
    obtain ⟨i, hi⟩ := List.getElem?_of_mem (List.mem_of_find?_eq_some hfor)
    have hcov : c.contains addr.toNat = true :=
      List.find?_some (p := fun c : Slab.Chunk ↦ c.contains addr.toNat) hfor
    rw [(hpos i).2 ⟨c, hi, hcov⟩, Option.bind_some, hi]

end CoilLang.SlabLookup
