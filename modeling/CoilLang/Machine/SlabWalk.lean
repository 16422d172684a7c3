import CoilLang.Machine.SlabSafe
import CoilLang.Machine.SlabRelease

/-!
# What a walk still visits

A walk over the slots goes down from the last chunk. `ahead` lists the slots it has yet to return, in order:
`nextSlot` returns the first of them and leaves the others (`nextSlot_ahead`). A slot that is handed out while the
walk is under way may lie on either side of it; `walkPassed` tells which by comparing with the cursor, and **a slot
is passed exactly if it is not ahead** (`walkPassed_iff`). Nothing a client does to the slab in between moves a live
slot from one side to the other.
-/

namespace CoilLang.Slab

variable {s s' : Slab} {cur : SlotCursor} {out : List ℕ}

/-- Whether the walk will not visit `addr` any more: it has returned it, or `addr` lies in a chunk mapped after the
walk started. -/
def walkPassed (s : Slab) (cur : SlotCursor) (addr : ℕ) : Bool :=
  if !cur.started then false
  else
    match s.chunks.findIdx? (·.contains addr) with
    | none => false
    | some i => cur.chunk < i || (i == cur.chunk && (cur.remaining == 0 || cur.next < addr))

/-! ### The slots ahead -/

/-- `n` slots from `top` down. -/
def down (top size : ℕ) : ℕ → List ℕ
  | 0 => []
  | n + 1 => top :: down (top - size) size n

/-- The slots of chunk `i`, from the last one down, unless it is released. -/
def chunkDown (s : Slab) (i : ℕ) : List ℕ :=
  match s.chunks[i]? with
  | none => []
  | some c => if s.isReleased i then [] else c.slots.reverse

/-- The slots of the chunks below `n`, from the last chunk down. -/
def below (s : Slab) : ℕ → List ℕ
  | 0 => []
  | i + 1 => s.chunkDown i ++ s.below i

/-- The slots the walk has yet to return. -/
def ahead (s : Slab) (cur : SlotCursor) : List ℕ :=
  down cur.next cur.slotSize cur.remaining ++ s.below (if cur.started then cur.chunk else s.chunks.length)

theorem reverse_slots (c : Chunk) :
    c.slots.reverse = down (c.ptr + c.firstOff + (c.slotCount - 1) * c.slotSize) c.slotSize c.slotCount := by
  rw [Chunk.slots]
  induction c.slotCount with
  | zero => rfl
  | succ n ih =>
    rw [List.range_succ, List.map_append, List.reverse_append, ih, Nat.add_sub_cancel]
    show _ :: _ = _ :: down _ _ _
    cases n with
    | zero => rfl
    | succ n =>
      have htop : c.ptr + c.firstOff + (n + 1) * c.slotSize - c.slotSize = c.ptr + c.firstOff + n * c.slotSize := by
        rw [Nat.succ_mul]
        omega
      rw [htop]
      rfl

theorem chunkDown_eq {i : ℕ} {c : Chunk} (hc : s.chunks[i]? = some c) (hr : s.isReleased i = false) :
    s.chunkDown i = c.slots.reverse := by
  rw [chunkDown, hc]
  simp [hr]

theorem enterBelow_ahead (hrest : cur.remaining = 0) (hstart : cur.started = true) (n : ℕ) :
    s.below n = (s.enterBelow cur n).1.toList ++ s.ahead (s.enterBelow cur n).2 := by
  induction n with
  | zero =>
    rw [enterBelow, ahead]
    simp [hrest, hstart, down, below]
  | succ i ih =>
    rw [enterBelow, below, chunkDown]
    cases hc : s.chunks[i]? with
    | none => exact ih
    | some c =>
      dsimp only
      split
      · exact ih
      split
      · rename_i hcount
        rw [reverse_slots, hcount]
        exact ih
      · rename_i hcount
        obtain ⟨k, hk⟩ : ∃ k, c.slotCount = k + 1 := ⟨c.slotCount - 1, by omega⟩
        rw [reverse_slots, hk, ahead]
        simp [hstart, down]

/-- **The walk returns the first slot ahead**, or nothing when there is none. -/
theorem nextSlot_ahead (s : Slab) (cur : SlotCursor) :
    s.ahead cur = (s.nextSlot cur).1.toList ++ s.ahead (s.nextSlot cur).2 := by
  rw [nextSlot]
  split
  · rename_i hpos
    obtain ⟨k, hk⟩ : ∃ k, cur.remaining = k + 1 := ⟨cur.remaining - 1, by omega⟩
    simp [ahead, hk, down]
  · rename_i hzero
    have hzero : cur.remaining = 0 := by omega
    have hdown : down cur.next cur.slotSize cur.remaining = [] := by
      rw [hzero]
      rfl
    rw [enterNextChunk, ahead, hdown]
    split
    · rename_i hstart
      exact enterBelow_ahead hzero hstart _
    · have hrest : ({ cur with started := true } : SlotCursor).remaining = 0 := hzero
      exact enterBelow_ahead hrest rfl _

theorem nextSlot_some {p : ℕ} {cur' : SlotCursor} (h : s.nextSlot cur = (some p, cur')) :
    s.ahead cur = p :: s.ahead cur' := by
  rw [nextSlot_ahead, h]
  rfl

theorem nextSlot_none {cur' : SlotCursor} (h : s.nextSlot cur = (none, cur')) : s.ahead cur = [] := by
  have hcur : s.ahead cur' = [] := by
    have hstep := nextSlot_ahead s cur
    rw [nextSlot] at h
    split at h
    · cases h
    · rename_i hzero
      have henter : ∀ (c : SlotCursor) (n : ℕ), c.remaining = 0 → c.started = true →
          s.enterBelow c n = (none, cur') → s.ahead cur' = [] := by
        intro c n hrest hstart h
        induction n with
        | zero =>
          rw [enterBelow] at h
          cases h
          simp [ahead, hrest, hstart, down, below]
        | succ i ih =>
          rw [enterBelow] at h
          split at h
          · exact ih h
          · split at h
            · exact ih h
            split at h
            · exact ih h
            · cases h
      rw [enterNextChunk] at h
      split at h
      · rename_i hstart
        exact henter _ _ (by omega) hstart h
      · exact henter { cur with started := true } _ (show cur.remaining = 0 by omega) rfl h
  rw [nextSlot_ahead, h, hcur]
  rfl

/-! ### Where the cursor is -/

/-- The cursor of a walk under way: what remains of its chunk is what lies at the cursor and below. -/
structure CursorOk (s : Slab) (cur : SlotCursor) : Prop where
  rest : 0 < cur.remaining → cur.started = true ∧ s.isReleased cur.chunk = false ∧ ∃ c, s.chunks[cur.chunk]? = some c ∧
    c.slotSize = cur.slotSize ∧ cur.remaining < c.slotCount ∧
      cur.next = c.ptr + c.firstOff + (cur.remaining - 1) * c.slotSize
  chunk : cur.chunk ≤ s.chunks.length

theorem cursorOk_start (s : Slab) : CursorOk s {} where
  rest h := absurd h (Nat.lt_irrefl 0)
  chunk := Nat.zero_le _

theorem cursorOk_enterBelow (hrest : cur.remaining = 0) (hstart : cur.started = true) {n : ℕ}
    (hn : n ≤ s.chunks.length) :
    CursorOk s (s.enterBelow cur n).2 := by
  induction n with
  | zero =>
    refine ⟨fun h ↦ ?_, Nat.zero_le _⟩
    have h : 0 < cur.remaining := h
    omega
  | succ i ih =>
    rw [enterBelow]
    split
    · exact ih (by omega)
    · rename_i c hc
      split
      · exact ih (by omega)
      split
      · exact ih (by omega)
      · rename_i hr hcount
        refine ⟨fun h ↦ ⟨hstart, Bool.not_eq_true _ ▸ hr, c, hc, rfl, ?_, ?_⟩, ?_⟩
        · show c.slotCount - 1 < c.slotCount
          omega
        · have h : 0 < c.slotCount - 1 := h
          obtain ⟨k, hk⟩ : ∃ k, c.slotCount - 1 = k + 1 := ⟨c.slotCount - 2, by omega⟩
          show c.ptr + c.firstOff + (c.slotCount - 1) * c.slotSize - c.slotSize =
            c.ptr + c.firstOff + (c.slotCount - 1 - 1) * c.slotSize
          rw [hk, Nat.succ_mul]
          show _ = c.ptr + c.firstOff + k * c.slotSize
          omega
        · show i ≤ s.chunks.length
          omega

theorem CursorOk.nextSlot (h : CursorOk s cur) : CursorOk s (s.nextSlot cur).2 := by
  rw [Slab.nextSlot]
  split
  · rename_i hpos
    obtain ⟨hstart, hr, c, hc, hsize, hlt, hnext⟩ := h.rest hpos
    refine ⟨fun hrest ↦ ⟨hstart, hr, c, hc, hsize, ?_, ?_⟩, h.chunk⟩
    · show cur.remaining - 1 < c.slotCount
      omega
    · have hrest : 0 < cur.remaining - 1 := hrest
      obtain ⟨k, hk⟩ : ∃ k, cur.remaining - 1 = k + 1 := ⟨cur.remaining - 2, by omega⟩
      show cur.next - cur.slotSize = c.ptr + c.firstOff + (cur.remaining - 1 - 1) * c.slotSize
      rw [hnext, ← hsize, hk, Nat.succ_mul]
      show _ = c.ptr + c.firstOff + k * c.slotSize
      omega
  · rename_i hzero
    rw [enterNextChunk]
    split
    · rename_i hstart
      exact cursorOk_enterBelow (by omega) hstart h.chunk
    · have hrest : ({ cur with started := true } : SlotCursor).remaining = 0 := show cur.remaining = 0 by omega
      exact cursorOk_enterBelow hrest rfl le_rfl

/-- Chunks are only added, and those in use stay in use. -/
structure Extends (s s' : Slab) : Prop where
  chunks : s.chunks <+: s'.chunks
  resident : ∀ i c, s.chunks[i]? = some c → s.isReleased i = false → s'.isReleased i = false

theorem Extends.refl (s : Slab) : Extends s s := ⟨List.prefix_rfl, fun _ _ _ h ↦ h⟩

theorem Extends.getElem? (h : Extends s s') {i : ℕ} {c : Chunk} (hc : s.chunks[i]? = some c) :
    s'.chunks[i]? = some c := by
  obtain ⟨more, hmore⟩ := h.chunks
  rw [← hmore, List.getElem?_append_left (List.getElem?_eq_some_iff.mp hc).1]
  exact hc

theorem Extends.live (h : Extends s s') {p : ℕ} (hp : s.Live p) : s'.Live p := by
  obtain ⟨i, c, hc, hr, hpc⟩ := hp
  exact ⟨i, c, h.getElem? hc, h.resident i c hc hr, hpc⟩

theorem CursorOk.extends (h : CursorOk s cur) (he : Extends s s') : CursorOk s' cur where
  rest hrest := by
    obtain ⟨hstart, hr, c, hc, hmore⟩ := h.rest hrest
    exact ⟨hstart, he.resident _ c hc hr, c, he.getElem? hc, hmore⟩
  chunk := h.chunk.trans he.chunks.length_le

/-! ### Passed and ahead -/

theorem mem_down {top size n p : ℕ} (hn : ∀ k, n = k + 1 → k * size ≤ top) :
    p ∈ down top size n ↔ ∃ k < n, p = top - k * size := by
  induction n generalizing top with
  | zero => simp [down]
  | succ n ih =>
    have hle := hn n rfl
    rw [down, List.mem_cons, ih]
    · constructor
      · rintro (rfl | ⟨k, hk, rfl⟩)
        · exact ⟨0, by omega, by omega⟩
        · refine ⟨k + 1, by omega, ?_⟩
          rw [Nat.succ_mul]
          omega
      · rintro ⟨k, hk, rfl⟩
        cases k with
        | zero => exact .inl (by omega)
        | succ k =>
          refine .inr ⟨k, by omega, ?_⟩
          rw [Nat.succ_mul]
          omega
    · rintro k rfl
      rw [Nat.succ_mul] at hle
      omega

theorem nodup_down {top size n : ℕ} (hsize : 0 < size) (hn : ∀ k, n = k + 1 → k * size ≤ top) :
    (down top size n).Nodup := by
  induction n generalizing top with
  | zero => exact List.nodup_nil
  | succ n ih =>
    have hle := hn n rfl
    have hbelow : ∀ k, n = k + 1 → k * size ≤ top - size := by
      rintro k rfl
      rw [Nat.succ_mul] at hle
      omega
    refine List.nodup_cons.mpr ⟨fun hmem ↦ ?_, ih hbelow⟩
    obtain ⟨k, hk, htop⟩ := (mem_down hbelow).mp hmem
    have := Nat.le_mul_of_pos_left size (show 0 < n by omega)
    omega

theorem mem_below {n p : ℕ} :
    p ∈ s.below n ↔ ∃ i c, i < n ∧ s.chunks[i]? = some c ∧ s.isReleased i = false ∧ p ∈ c.slots := by
  induction n with
  | zero => simp [below]
  | succ n ih =>
    rw [below, List.mem_append, ih, chunkDown]
    constructor
    · rintro (h | ⟨i, c, hi, hmore⟩)
      · cases hc : s.chunks[n]? with
        | none =>
          rw [hc] at h
          cases h
        | some c =>
          rw [hc] at h
          dsimp only at h
          split at h
          · cases h
          · rename_i hr
            exact ⟨n, c, by omega, hc, Bool.not_eq_true _ ▸ hr, List.mem_reverse.mp h⟩
      · exact ⟨i, c, by omega, hmore⟩
    · rintro ⟨i, c, hi, hc, hr, hp⟩
      rcases Nat.lt_or_eq_of_le (Nat.le_of_lt_succ hi) with hlt | rfl
      · exact .inr ⟨i, c, hlt, hc, hr, hp⟩
      · rw [hc]
        simp [hr, hp]

/-- The slots left in the chunk of the cursor are slots of that chunk. -/
theorem CursorOk.slot_of_mem_down (h : CursorOk s cur) {p : ℕ} (hp : p ∈ down cur.next cur.slotSize cur.remaining) :
    ∃ c, s.chunks[cur.chunk]? = some c ∧ p ∈ c.slots := by
  have hpos : 0 < cur.remaining := by
    rcases Nat.eq_zero_or_pos cur.remaining with hzero | hpos
    · rw [hzero] at hp
      cases hp
    · exact hpos
  obtain ⟨-, -, c, hc, hsize, hlt, hnext⟩ := h.rest hpos
  obtain ⟨k, hk, rfl⟩ :=
    (mem_down (by rintro k hk; rw [hnext, ← hsize, show cur.remaining - 1 = k by omega]; omega)).mp hp
  have hkle : k * c.slotSize ≤ (cur.remaining - 1) * c.slotSize := Nat.mul_le_mul_right _ (by omega)
  have hslot : cur.next - k * cur.slotSize = c.ptr + c.firstOff + (cur.remaining - 1 - k) * c.slotSize := by
    rw [hnext, ← hsize, Nat.sub_mul (cur.remaining - 1) k]
    omega
  exact ⟨c, hc, hslot ▸ mem_slots (by omega)⟩

/-- What is ahead of a started walk: slots of the chunks below its own, and those of its own at the cursor or below. -/
theorem CursorOk.mem_ahead (h : CursorOk s cur) (hinv : Inv s out) (hstart : cur.started = true) {i p : ℕ} {c : Chunk}
    (hc : s.chunks[i]? = some c) (hr : s.isReleased i = false) (hp : p ∈ c.slots) :
    p ∈ s.ahead cur ↔ i < cur.chunk ∨ i = cur.chunk ∧ 0 < cur.remaining ∧ p ≤ cur.next := by
  have hbelow : p ∈ s.below cur.chunk ↔ i < cur.chunk := by
    rw [mem_below]
    constructor
    · rintro ⟨j, d, hj, hd, -, hpd⟩
      rw [hinv.slot_unique hc hd hp hpd]
      exact hj
    · exact fun hi ↦ ⟨i, c, hi, hc, hr, hp⟩
  rw [ahead, if_pos hstart, List.mem_append, hbelow, or_comm]
  refine or_congr_right ?_
  rcases Nat.eq_zero_or_pos cur.remaining with hzero | hpos
  · simp [hzero, down]
  obtain ⟨-, -, d, hd, hsize, hlt, hnext⟩ := h.rest hpos
  have hwf := hinv.wf d (List.mem_of_getElem? hd)
  constructor
  · intro hdown
    obtain ⟨e, he, hpe⟩ := h.slot_of_mem_down hdown
    obtain ⟨k, -, rfl⟩ :=
      (mem_down (by rintro k hk; rw [hnext, ← hsize, show cur.remaining - 1 = k by omega]; omega)).mp hdown
    exact ⟨hinv.slot_unique hc he hp hpe, hpos, Nat.sub_le _ _⟩
  · rintro ⟨rfl, -, hle⟩
    rw [hc] at hd
    cases hd
    obtain ⟨k, hk, rfl⟩ := List.mem_map.mp hp
    have hkle : k * c.slotSize ≤ (cur.remaining - 1) * c.slotSize := by omega
    have hkle : k ≤ cur.remaining - 1 := Nat.le_of_mul_le_mul_right hkle hwf.pos
    refine (mem_down (by rintro k hk; rw [hnext, ← hsize, show cur.remaining - 1 = k by omega]; omega)).mpr
      ⟨cur.remaining - 1 - k, by omega, ?_⟩
    rw [hnext, ← hsize, Nat.sub_mul (cur.remaining - 1) k]
    have := Nat.mul_le_mul_right c.slotSize hkle
    omega

theorem Inv.findIdx_contains (h : Inv s out) {i p : ℕ} {c : Chunk} (hc : s.chunks[i]? = some c) (hp : p ∈ c.slots) :
    s.chunks.findIdx? (·.contains p) = some i := by
  obtain ⟨hlt, hget⟩ := List.getElem?_eq_some_iff.mp hc
  refine List.findIdx?_eq_some_iff_getElem.mpr ⟨hlt, ?_, fun j hj ↦ ?_⟩
  · rw [hget]
    exact contains_of_mem_slots hp
  · intro hcontains
    have hjlt : j < s.chunks.length := hj.trans hlt
    have := h.apart.eq_of_contains (List.getElem?_eq_getElem hjlt) hc hcontains (contains_of_mem_slots hp)
    omega

/-- **A live slot is passed exactly if it is not ahead.** -/
theorem CursorOk.walkPassed_iff (h : CursorOk s cur) (hinv : Inv s out) {p : ℕ} (hp : s.Live p) :
    s.walkPassed cur p = true ↔ p ∉ s.ahead cur := by
  obtain ⟨i, c, hc, hr, hpc⟩ := hp
  cases hstart : cur.started with
  | false =>
    have hzero : cur.remaining = 0 := by
      rcases Nat.eq_zero_or_pos cur.remaining with hzero | hpos
      · exact hzero
      · rw [(h.rest hpos).1] at hstart
        cases hstart
    have hmem : p ∈ s.ahead cur := by
      rw [ahead, hstart]
      exact List.mem_append_right _ (mem_below.mpr ⟨i, c, (List.getElem?_eq_some_iff.mp hc).1, hc, hr, hpc⟩)
    simp [walkPassed, hstart, hmem]
  | true =>
    rw [h.mem_ahead hinv hstart hc hr hpc, walkPassed, hinv.findIdx_contains hc hpc, hstart]
    simp only [Bool.not_true, Bool.false_eq_true, if_false, Bool.or_eq_true, Bool.and_eq_true, decide_eq_true_eq,
      beq_iff_eq]
    omega

/-- Where a live slot lies does not change as chunks are added. -/
theorem CursorOk.mem_ahead_extends (h : CursorOk s cur) (hinv : Inv s out) {out' : List ℕ} (hinv' : Inv s' out')
    (he : Extends s s') {p : ℕ} (hp : s.Live p) : p ∈ s'.ahead cur ↔ p ∈ s.ahead cur := by
  have hpassed : s'.walkPassed cur p = s.walkPassed cur p := by
    obtain ⟨i, c, hc, -, hpc⟩ := hp
    rw [walkPassed, walkPassed, hinv.findIdx_contains hc hpc, hinv'.findIdx_contains (he.getElem? hc) hpc]
  have h₁ := h.walkPassed_iff hinv hp
  have h₂ := (h.extends he).walkPassed_iff hinv' (he.live hp)
  rw [hpassed, h₁] at h₂
  exact (not_iff_not.mp h₂).symm

theorem Inv.nodup_below (h : Inv s out) (n : ℕ) : (s.below n).Nodup := by
  induction n with
  | zero => exact List.nodup_nil
  | succ n ih =>
    rw [below]
    cases hc : s.chunks[n]? with
    | none =>
      rw [chunkDown, hc]
      exact ih
    | some c =>
      cases hr : s.isReleased n with
      | true =>
        rw [chunkDown, hc]
        simpa [hr] using ih
      | false =>
        rw [chunkDown_eq hc hr]
        refine List.Nodup.append ?_ ih fun p hp hp' ↦ ?_
        · exact List.nodup_reverse.mpr (h.wf c (List.mem_of_getElem? hc)).nodup_slots
        · obtain ⟨i, d, hi, hd, -, hpd⟩ := mem_below.mp hp'
          have := h.slot_unique hc hd (List.mem_reverse.mp hp) hpd
          omega

/-- No slot is ahead twice. -/
theorem CursorOk.nodup_ahead (h : CursorOk s cur) (hinv : Inv s out) : (s.ahead cur).Nodup := by
  rw [ahead]
  rcases Nat.eq_zero_or_pos cur.remaining with hzero | hpos
  · rw [hzero]
    exact hinv.nodup_below _
  obtain ⟨hstart, -, c, hc, hsize, hlt, hnext⟩ := h.rest hpos
  refine List.Nodup.append (nodup_down (hsize ▸ (hinv.wf c (List.mem_of_getElem? hc)).pos) ?_) (hinv.nodup_below _)
    fun p hp hp' ↦ ?_
  · rintro k hk
    rw [hnext, ← hsize, show cur.remaining - 1 = k by omega]
    omega
  · rw [if_pos hstart] at hp'
    obtain ⟨d, hd, hpd⟩ := h.slot_of_mem_down hp
    obtain ⟨i, e, hi, he, -, hpe⟩ := mem_below.mp hp'
    have := hinv.slot_unique hd he hpd hpe
    omega

/-! ### Allocating and freeing meanwhile -/

theorem chunks_of_carveSlots {ptr p : ℕ} {key : Key} {newChunk : Bool}
    (h : s.carveSlots ptr key newChunk = some (p, s')) :
    s'.chunks = (if newChunk then s.chunks ++ [⟨ptr, key.1, key.2, alignUp ptr key.2 - ptr⟩] else s.chunks) ∧
      s'.releasedMask = s.releasedMask := by
  rw [carveSlots] at h
  dsimp only at h
  split at h
  · cases h
  · cases h
    exact ⟨rfl, rfl⟩

theorem chunks_of_mapPage {os : Os} {key : Key} {p : ℕ} (h : s.mapPage os key = some (p, s')) :
    (∃ ptr, os.mmap s.chunks = some ptr ∧ s'.chunks = s.chunks ++ [⟨ptr, key.1, key.2, alignUp ptr key.2 - ptr⟩]) ∧
      s'.releasedMask = s.releasedMask := by
  obtain ⟨ptr, hptr, hcarve⟩ := Option.bind_eq_some_iff.mp h
  obtain ⟨hchunks, hmask⟩ := chunks_of_carveSlots hcarve
  exact ⟨⟨ptr, hptr, hchunks⟩, hmask⟩

/-- An allocation adds at most one chunk, mapped for its class, and releases none. -/
theorem chunks_of_alloc {os : Os} {layout : Layout} {p : ℕ} (h : s.alloc os layout = some (p, s')) :
    (s'.chunks = s.chunks ∨ ∃ ptr, os.mmap s.chunks = some ptr ∧ s'.chunks =
      s.chunks ++ [⟨ptr, (slotDims layout).1, (slotDims layout).2, alignUp ptr (slotDims layout).2 - ptr⟩]) ∧
      ∀ i, s.isReleased i = false → s'.isReleased i = false := by
  have hkeep : ∀ {t : Slab}, s'.releasedMask = t.releasedMask → ∀ i, s'.isReleased i = t.isReleased i := by
    intro t hmask i
    rw [isReleased, isReleased, hmask]
  rw [Slab.alloc] at h
  split at h
  · cases h
    exact ⟨.inl rfl, fun _ hr ↦ hr⟩
  · rw [carvePage] at h
    split at h
    · obtain ⟨hnew, hmask⟩ := chunks_of_mapPage h
      exact ⟨.inr hnew, fun i hr ↦ (hkeep hmask i).trans hr⟩
    · rename_i j released _
      split at h
      · obtain ⟨hnew, hmask⟩ := chunks_of_mapPage h
        exact ⟨.inr hnew, fun i hr ↦ (hkeep (t := s) hmask i).trans hr⟩
      · obtain ⟨hchunks, hmask⟩ := chunks_of_carveSlots h
        refine ⟨.inl hchunks, fun i hr ↦ (hkeep hmask i).trans ?_⟩
        rw [isReleased_setReleased]
        split
        · rfl
        · exact hr

theorem extends_alloc {os : Os} {layout : Layout} {p : ℕ} (h : s.alloc os layout = some (p, s')) : Extends s s' where
  chunks := (grows_alloc h).chunks
  resident i _ _ hr := (chunks_of_alloc h).2 i hr

theorem chunks_freeInClass (s : Slab) (key : Key) (p : ℕ) : (s.freeInClass key p).chunks = s.chunks ∧
    (s.freeInClass key p).releasedMask = s.releasedMask := by
  rw [freeInClass]
  split <;> exact ⟨rfl, rfl⟩

/-- Freeing at the cursor changes neither the chunks nor where the walk is. -/
theorem freeAtCursor_same (s : Slab) (cur : SlotCursor) (p : ℕ) :
    (s.freeAtCursor cur p).1.chunks = s.chunks ∧ (s.freeAtCursor cur p).1.releasedMask = s.releasedMask ∧
      ∃ n, (s.freeAtCursor cur p).2 = { cur with freeClass := n } := by
  rw [freeAtCursor]
  split
  · obtain ⟨hchunks, hmask⟩ := chunks_freeInClass s cur.cls p
    exact ⟨hchunks, hmask, _, rfl⟩
  · exact ⟨rfl, rfl, cur.freeClass, rfl⟩

theorem chunkDown_congr (hchunks : s'.chunks = s.chunks) (hmask : s'.releasedMask = s.releasedMask) (i : ℕ) :
    s'.chunkDown i = s.chunkDown i := by
  rw [chunkDown, chunkDown, isReleased, isReleased, hchunks, hmask]

theorem ahead_congr (hchunks : s'.chunks = s.chunks) (hmask : s'.releasedMask = s.releasedMask) (cur : SlotCursor)
    (n : ℕ) :
    s'.ahead { cur with freeClass := n } = s.ahead cur := by
  have hbelow : ∀ k, s'.below k = s.below k := by
    intro k
    induction k with
    | zero => rfl
    | succ k ih => rw [below, below, ih, chunkDown_congr hchunks hmask]
  rw [ahead, ahead, hbelow, hchunks]

theorem extends_congr (hchunks : s'.chunks = s.chunks) (hmask : s'.releasedMask = s.releasedMask) : Extends s s' where
  chunks := hchunks ▸ List.prefix_rfl
  resident i _ _ hr := by rw [isReleased, hmask]; exact hr

theorem CursorOk.withFreeClass (h : CursorOk s cur) (n : ℕ) : CursorOk s { cur with freeClass := n } where
  rest := h.rest
  chunk := h.chunk

theorem chunks_releaseIdle (s : Slab) (budget : List (Key × ℕ)) : (s.releaseIdle budget).2.chunks = s.chunks := by
  obtain ⟨hrel, -, -⟩ := foldl_idleStep (s.idleFree budget) (List.range s.chunks.length)
    { slab := s, budget } (releasedBy_nil s) List.nodup_range
  rw [releaseIdle]
  generalize (List.range s.chunks.length).foldl (idleStep (s.idleFree budget)) { slab := s, budget } = scan at hrel ⊢
  split <;> exact hrel.chunks

theorem chunks_releaseIdleChunks (os : Os) (s : Slab) : (s.releaseIdleChunks os).2.chunks = s.chunks := by
  rw [releaseIdleChunks]
  dsimp only
  split
  · rfl
  split
  · rfl
  split
  · rfl
  · exact chunks_releaseIdle _ _

/-! ### Even addresses -/

/-- Chunks whose slots are at even addresses, none at 0. -/
def EvenSlots (s : Slab) : Prop := ∀ c ∈ s.chunks, 0 < c.ptr ∧ 2 ∣ c.slotAlign ∧ 2 ∣ c.slotSize

theorem EvenSlots.of_mem (h : EvenSlots s) (hinv : Inv s out) {c : Chunk} (hc : c ∈ s.chunks) {p : ℕ}
    (hp : p ∈ c.slots) :
    p ≠ 0 ∧ 2 ∣ p := by
  obtain ⟨hpos, halign, hsize⟩ := h c hc
  obtain ⟨k, -, rfl⟩ := List.mem_map.mp hp
  refine ⟨by omega, Nat.dvd_add ?_ (Nat.dvd_mul_left_of_dvd hsize k)⟩
  rw [(hinv.wf c hc).first, alignUp]
  exact Nat.dvd_mul_left_of_dvd halign _

theorem EvenSlots.of_live (h : EvenSlots s) (hinv : Inv s out) {p : ℕ} (hp : s.Live p) : p ≠ 0 ∧ 2 ∣ p := by
  obtain ⟨i, c, hc, -, hpc⟩ := hp
  exact h.of_mem hinv (List.mem_of_getElem? hc) hpc

theorem EvenSlots.alloc (h : EvenSlots s) {os : Os} (hos : ∀ cs p, os.mmap cs = some p → 0 < p) {layout : Layout}
    (hlayout : 2 ∣ layout.align) {p : ℕ} (halloc : s.alloc os layout = some (p, s')) : EvenSlots s' := by
  rcases (chunks_of_alloc halloc).1 with hsame | ⟨ptr, hptr, hnew⟩
  · rw [EvenSlots, hsame]
    exact h
  · rw [EvenSlots, hnew]
    intro c hc
    rcases List.mem_append.mp hc with hc | hc
    · exact h c hc
    · rw [List.mem_singleton.mp hc]
      refine ⟨hos _ _ hptr, hlayout, ?_⟩
      show 2 ∣ alignUp layout.size layout.align
      rw [alignUp]
      exact Nat.dvd_mul_left_of_dvd hlayout _

end CoilLang.Slab
