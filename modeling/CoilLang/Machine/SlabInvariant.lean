import CoilLang.Machine.SlabChunks
import Mathlib.Data.List.Perm.Basic

/-!
# Each slot has one place

The invariant of the slab (`Inv`): an address is a **live** slot, one of a chunk that is not released, exactly
when it is held by a client or on a free list, and then it is so once. It is a statement about counts, so each
operation is checked by what it adds and takes: a slot handed out moves from a list to its holder, carving a chunk
makes its slots live and hands out each, and releasing a chunk takes all its slots off the lists.
-/

namespace CoilLang.Slab

/-- A slot of a chunk that is not released. -/
def Live (s : Slab) (p : ℕ) : Prop :=
  ∃ (i : ℕ) (c : Chunk), s.chunks[i]? = some c ∧ s.isReleased i = false ∧ p ∈ c.slots

structure Inv (s : Slab) (out : List ℕ) : Prop where
  wf : ∀ c ∈ s.chunks, c.Wf
  apart : Apart s.chunks
  live : ∀ p, s.Live p → out.count p + s.freeCount p = 1
  dead : ∀ p, ¬ s.Live p → out.count p + s.freeCount p = 0
  own : ∀ cls ∈ s.free, ∀ p ∈ cls.slots, ∃ (i : ℕ) (c : Chunk), s.chunks[i]? = some c ∧ p ∈ c.slots ∧ c.key = cls.key
  listed : ∀ i, (s.released.flatMap Prod.snd).count i = if s.isReleased i then 1 else 0
  keyed : ∀ e ∈ s.released, ∀ i ∈ e.2, ∃ c, s.chunks[i]? = some c ∧ c.key = e.1

theorem inv_empty : Inv {} [] where
  wf _ h := by cases h
  apart := List.Pairwise.nil
  live p := by
    rintro ⟨i, c, hc, -⟩
    cases hc
  dead _ _ := rfl
  own _ h := by cases h
  listed _ := rfl
  keyed _ h := by cases h

variable {s s' : Slab} {out out' : List ℕ}

/-! ### Where a slot is -/

/-- A slot lies in one chunk. -/
theorem Inv.slot_unique (h : Inv s out) {i j : ℕ} {c d : Chunk} (hc : s.chunks[i]? = some c) (hd : s.chunks[j]? = some d)
    {p : ℕ} (hp : p ∈ c.slots) (hp' : p ∈ d.slots) : i = j :=
  h.apart.eq_of_contains hc hd (contains_of_mem_slots hp) (contains_of_mem_slots hp')

theorem Inv.chunkFor_eq (h : Inv s out) {i : ℕ} {c : Chunk} (hc : s.chunks[i]? = some c) {p : ℕ} (hp : p ∈ c.slots) :
    s.chunkFor p = some c := by
  cases hf : s.chunkFor p with
  | none => exact absurd (contains_of_mem_slots hp) (List.find?_eq_none.mp hf c (List.mem_of_getElem? hc))
  | some d =>
    have hd : d.contains p = true := List.find?_some (p := fun c : Chunk ↦ c.contains p) hf
    obtain ⟨j, hj⟩ := List.mem_iff_getElem?.mp (List.mem_of_find?_eq_some hf)
    have hij := h.apart.eq_of_contains hc hj (contains_of_mem_slots hp) hd
    rw [← hij, hc] at hj
    exact hj.symm

theorem Inv.not_live (h : Inv s out) {i : ℕ} {c : Chunk} (hc : s.chunks[i]? = some c) (hr : s.isReleased i = true) {p : ℕ}
    (hp : p ∈ c.slots) : ¬ s.Live p := by
  rintro ⟨j, d, hd, hrj, hpd⟩
  rw [h.slot_unique hc hd hp hpd, hrj] at hr
  cases hr

theorem freeCount_pos {p : ℕ} : 0 < s.freeCount p ↔ ∃ cls ∈ s.free, p ∈ cls.slots := by
  rw [freeCount, List.count_pos_iff, List.mem_flatMap]

theorem Inv.live_of_out (h : Inv s out) {p : ℕ} (hp : p ∈ out) : s.Live p := by
  by_contra hdead
  have := h.dead p hdead
  have := List.count_pos_iff.mpr hp
  omega

theorem Inv.live_of_free (h : Inv s out) {cls : FreeClass} (hcls : cls ∈ s.free) {p : ℕ} (hp : p ∈ cls.slots) :
    s.Live p := by
  by_contra hdead
  have := h.dead p hdead
  have := freeCount_pos.mpr ⟨cls, hcls, hp⟩
  omega

/-- The invariant says what the slab promises. -/
theorem Inv.exact {st : State} (h : Inv st.slab st.out) : Exact st where
  once i c hc hr p hp := h.live p ⟨i, c, hc, hr, hp⟩
  ownClass i c hc p hp cls hcls hpc := by
    obtain ⟨j, d, hd, hpd, hkey⟩ := h.own cls hcls p hpc
    have hij := h.slot_unique hc hd hp hpd
    rw [← hij, hc] at hd
    cases hd
    exact hkey.symm
  gone i c hc hr p hp := by
    have := h.dead p (h.not_live hc hr hp)
    exact ⟨List.count_eq_zero.mp (by omega), by omega⟩
  listed := h.listed

/-! ### Moving slots between the lists and the clients -/

/-- The chunks and the released lists are the same. -/
structure SameChunks (s s' : Slab) : Prop where
  chunks : s'.chunks = s.chunks
  released : s'.released = s.released
  mask : s'.releasedMask = s.releasedMask

theorem SameChunks.isReleased (h : SameChunks s s') (i : ℕ) : s'.isReleased i = s.isReleased i := by
  rw [Slab.isReleased, h.mask]
  rfl

theorem SameChunks.live (h : SameChunks s s') (p : ℕ) : s'.Live p ↔ s.Live p := by
  simp only [Live, h.chunks, h.isReleased]

/-- Slots move between the free lists and the clients. -/
theorem Inv.move (h : Inv s out) (hsame : SameChunks s s')
    (hcount : ∀ p, out'.count p + s'.freeCount p = out.count p + s.freeCount p)
    (hown : ∀ cls ∈ s'.free, ∀ p ∈ cls.slots,
      ∃ (i : ℕ) (c : Chunk), s.chunks[i]? = some c ∧ p ∈ c.slots ∧ c.key = cls.key) : Inv s' out' where
  wf c hc := h.wf c (hsame.chunks ▸ hc)
  apart := hsame.chunks ▸ h.apart
  live p hp := (hcount p).trans (h.live p ((hsame.live p).mp hp))
  dead p hp := (hcount p).trans (h.dead p fun hl ↦ hp ((hsame.live p).mpr hl))
  own cls hcls p hp := by
    rw [hsame.chunks]
    exact hown cls hcls p hp
  listed i := by
    rw [hsame.released, hsame.isReleased]
    exact h.listed i
  keyed e he i hi := by
    rw [hsame.chunks]
    exact h.keyed e (hsame.released ▸ he) i hi

/-- A slot taken from a free list. -/
theorem Inv.popFree (h : Inv s out) {key : Key} {p : ℕ} {free : List FreeClass}
    (hpop : popFree key s.free = some (p, free)) : Inv { s with free } (p :: out) := by
  obtain ⟨pre, c, post, slots, lowWater, hfree, hkey, hslots, rfl⟩ := popFree_some hpop
  refine h.move ⟨rfl, rfl, rfl⟩ (fun q ↦ ?_) (fun cls hcls q hq ↦ ?_)
  · simp only [freeCount, hfree, List.flatMap_append, List.flatMap_cons, List.count_append, hslots, List.count_cons,
      List.count_nil]
    omega
  · rcases List.mem_append.mp hcls with hcls | hcls
    · exact h.own cls (by rw [hfree]; exact List.mem_append_left _ hcls) q hq
    rcases List.mem_cons.mp hcls with rfl | hcls
    · exact h.own c (by rw [hfree]; simp) q (by rw [hslots]; exact List.mem_append_left _ hq)
    · exact h.own cls (by rw [hfree]; exact List.mem_append_right _ (List.mem_cons_of_mem _ hcls)) q hq

/-- The slots of a class with more slots behind them. -/
theorem count_append_class {pre post : List FreeClass} (c : FreeClass) (slots : List ℕ) (p : ℕ) :
    ((pre ++ c.append slots :: post).flatMap FreeClass.slots).count p =
      ((pre ++ c :: post).flatMap FreeClass.slots).count p + slots.count p := by
  simp only [FreeClass.append, List.flatMap_append, List.flatMap_cons, List.count_append]
  omega

theorem mem_append_class {pre post : List FreeClass} {c cls : FreeClass} {slots : List ℕ}
    (hcls : cls ∈ pre ++ c.append slots :: post) {p : ℕ} (hp : p ∈ cls.slots) :
    (∃ d ∈ pre ++ c :: post, p ∈ d.slots ∧ d.key = cls.key) ∨ (p ∈ slots ∧ cls.key = c.key) := by
  rcases List.mem_append.mp hcls with hcls | hcls
  · exact .inl ⟨cls, List.mem_append_left _ hcls, hp, rfl⟩
  rcases List.mem_cons.mp hcls with rfl | hcls
  · rcases List.mem_append.mp hp with hp | hp
    · exact .inl ⟨c, by simp, hp, rfl⟩
    · exact .inr ⟨hp, rfl⟩
  · exact .inl ⟨cls, List.mem_append_right _ (List.mem_cons_of_mem _ hcls), hp, rfl⟩

/-- `free` has the slots of `s.free` and `slots`, which are of class `key`. -/
structure Adds (s : Slab) (key : Key) (slots : List ℕ) (free : List FreeClass) : Prop where
  count : ∀ p, (free.flatMap FreeClass.slots).count p = s.freeCount p + slots.count p
  mem : ∀ cls ∈ free, ∀ p ∈ cls.slots, (∃ d ∈ s.free, p ∈ d.slots ∧ d.key = cls.key) ∨ (p ∈ slots ∧ cls.key = key)

theorem adds_onClass {key : Key} {slots : List ℕ} {free : List FreeClass}
    (h : onClass key (.append slots) s.free = some free) : Adds s key slots free := by
  obtain ⟨pre, c, post, hfree, rfl, rfl⟩ := onClass_some h
  refine ⟨fun p ↦ ?_, fun cls hcls p hp ↦ ?_⟩
  · rw [count_append_class, freeCount, hfree]
  · rw [hfree]
    exact mem_append_class hcls hp

theorem adds_concat (s : Slab) (key : Key) (slots : List ℕ) (lowWater : ℕ) :
    Adds s key slots (s.free ++ [⟨key, slots, lowWater⟩]) := by
  refine ⟨fun p ↦ ?_, fun cls hcls p hp ↦ ?_⟩
  · simp [freeCount]
  · rcases List.mem_append.mp hcls with hcls | hcls
    · exact .inl ⟨cls, hcls, hp, rfl⟩
    · rw [List.mem_singleton.mp hcls] at hp ⊢
      exact .inr ⟨hp, rfl⟩

/-- Slots given to a free list by who holds them. -/
theorem Inv.adds (h : Inv s out) {key : Key} {slots : List ℕ} {free : List FreeClass} (hadds : Adds s key slots free)
    (hkey : ∀ p ∈ slots, ∃ (i : ℕ) (c : Chunk), s.chunks[i]? = some c ∧ p ∈ c.slots ∧ c.key = key)
    (hcount : ∀ p, out'.count p + slots.count p = out.count p) : Inv { s with free } out' := by
  refine h.move ⟨rfl, rfl, rfl⟩ (fun p ↦ ?_) (fun cls hcls p hp ↦ ?_)
  · have := hadds.count p
    have := hcount p
    show out'.count p + (free.flatMap FreeClass.slots).count p = _
    omega
  · rcases hadds.mem cls hcls p hp with ⟨d, hd, hpd, hk⟩ | ⟨hps, hk⟩
    · obtain ⟨i, c, hc, hpc, hck⟩ := h.own d hd p hpd
      exact ⟨i, c, hc, hpc, hck.trans hk⟩
    · obtain ⟨i, c, hc, hpc, hck⟩ := hkey p hps
      exact ⟨i, c, hc, hpc, hck.trans hk.symm⟩

theorem count_erase_add {p q : ℕ} (hp : p ∈ out) : (out.erase p).count q + [p].count q = out.count q := by
  rw [List.count_erase]
  by_cases hq : q = p
  · subst hq
    have := List.count_pos_iff.mpr hp
    simp
    omega
  · have hpq : p ≠ q := Ne.symm hq
    simp [hpq]

theorem Inv.freeInClass (h : Inv s out) {key : Key} {p : ℕ} (hp : p ∈ out)
    (hkey : ∃ (i : ℕ) (c : Chunk), s.chunks[i]? = some c ∧ p ∈ c.slots ∧ c.key = key) :
    Inv (s.freeInClass key p) (out.erase p) := by
  have hslots : ∀ q ∈ [p], ∃ (i : ℕ) (c : Chunk), s.chunks[i]? = some c ∧ q ∈ c.slots ∧ c.key = key := by
    intro q hq
    rw [List.mem_singleton.mp hq]
    exact hkey
  rw [Slab.freeInClass]
  cases hon : onClass key (.append [p]) s.free with
  | some free => exact h.adds (adds_onClass hon) hslots fun q ↦ count_erase_add hp
  | none => exact h.adds (adds_concat s key [p] 0) hslots fun q ↦ count_erase_add hp

theorem Inv.dealloc (h : Inv s out) {p : ℕ} (hp : p ∈ out) : Inv (s.dealloc p) (out.erase p) := by
  obtain ⟨i, c, hc, -, hpc⟩ := h.live_of_out hp
  rw [Slab.dealloc, h.chunkFor_eq hc hpc]
  exact h.freeInClass hp ⟨i, c, hc, hpc, rfl⟩

theorem Inv.giveBack (h : Inv s out) {key : Key} {batch : List ℕ} (hout : batch.Subperm out)
    (hkey : ∀ p ∈ batch, (s.chunkFor p).map Chunk.key = some key) : Inv (s.giveBack key batch) (out.diff batch) := by
  have hslots : ∀ p ∈ batch, ∃ (i : ℕ) (c : Chunk), s.chunks[i]? = some c ∧ p ∈ c.slots ∧ c.key = key := by
    intro p hp
    obtain ⟨i, c, hc, -, hpc⟩ := h.live_of_out (hout.subset hp)
    have := hkey p hp
    rw [h.chunkFor_eq hc hpc] at this
    exact ⟨i, c, hc, hpc, Option.some.inj this⟩
  have hcount : ∀ p, (out.diff batch).count p + batch.count p = out.count p := by
    intro p
    have := List.subperm_ext_iff.mp hout
    rw [List.count_diff]
    have hle : batch.count p ≤ out.count p := hout.count_le p
    omega
  rw [Slab.giveBack]
  split
  · rename_i hnil
    rw [hnil, List.diff_nil]
    exact h
  · cases hon : onClass key (.append batch) s.free with
    | some free => exact h.adds (adds_onClass hon) hslots hcount
    | none => exact h.adds (adds_concat s key batch batch.length) hslots hcount

/-! ### Carving -/

theorem adds_rest (s : Slab) (key : Key) (rest : List ℕ) :
    Adds s key rest.reverse (match onClass key (.append rest.reverse) s.free with
      | some free => free
      | none => if rest = [] then s.free else s.free ++ [⟨key, rest.reverse, rest.length⟩]) := by
  cases hon : onClass key (.append rest.reverse) s.free with
  | some free => exact adds_onClass hon
  | none =>
    dsimp only
    split
    · rename_i hnil
      rw [hnil]
      exact ⟨fun p ↦ rfl, fun cls hcls p hp ↦ .inl ⟨cls, hcls, hp, rfl⟩⟩
    · exact adds_concat s key rest.reverse rest.length

/-- A chunk whose slots were not live is carved: its first slot is handed out, the others are free. -/
theorem Inv.carve (h : Inv s out) {c : Chunk} (hc : c.Wf) {firstSlot : ℕ} {rest : List ℕ}
    (hslots : c.slots = firstSlot :: rest) (hnew : ∀ p ∈ c.slots, ¬ s.Live p)
    (hwf : ∀ d ∈ s'.chunks, d.Wf) (hapart : Apart s'.chunks)
    (hat : ∃ j : ℕ, s'.chunks[j]? = some c) (hmono : ∀ (i : ℕ) (d : Chunk), s.chunks[i]? = some d → s'.chunks[i]? = some d)
    (hlive : ∀ p, s'.Live p ↔ s.Live p ∨ p ∈ c.slots) (hadds : Adds s c.key rest.reverse s'.free)
    (hlisted : ∀ i, (s'.released.flatMap Prod.snd).count i = if s'.isReleased i then 1 else 0)
    (hkeyed : ∀ e ∈ s'.released, ∀ i ∈ e.2, ∃ c, s'.chunks[i]? = some c ∧ c.key = e.1) :
    Inv s' (firstSlot :: out) := by
  have hcount : ∀ p, (firstSlot :: out).count p + s'.freeCount p = out.count p + s.freeCount p + c.slots.count p := by
    intro p
    have := hadds.count p
    rw [hslots, freeCount, List.count_cons, List.count_cons, this, List.count_reverse]
    omega
  refine ⟨hwf, hapart, fun p hp ↦ ?_, fun p hp ↦ ?_, fun cls hcls p hp ↦ ?_, hlisted, hkeyed⟩
  · rw [hcount]
    by_cases hpc : p ∈ c.slots
    · have := h.dead p (hnew p hpc)
      have := List.count_eq_one_of_mem hc.nodup_slots hpc
      omega
    · have hold := ((hlive p).mp hp).resolve_right hpc
      have := h.live p hold
      have := List.count_eq_zero.mpr hpc
      omega
  · rw [hlive, not_or] at hp
    have := h.dead p hp.1
    have := List.count_eq_zero.mpr hp.2
    rw [hcount]
    omega
  · rcases hadds.mem cls hcls p hp with ⟨d, hd, hpd, hk⟩ | ⟨hps, hk⟩
    · obtain ⟨i, c', hc', hpc, hck⟩ := h.own d hd p hpd
      exact ⟨i, c', hmono i c' hc', hpc, hck.trans hk⟩
    · obtain ⟨j, hj⟩ := hat
      refine ⟨j, c, hj, ?_, hk.symm⟩
      rw [hslots]
      exact List.mem_cons_of_mem _ (List.mem_reverse.mp hps)

theorem Inv.lt_of_isReleased (h : Inv s out) {i : ℕ} (hi : s.isReleased i = true) :
    ∃ c, s.chunks[i]? = some c := by
  have hcount := h.listed i
  rw [hi, if_pos rfl] at hcount
  have hmem : i ∈ s.released.flatMap Prod.snd := List.count_pos_iff.mp (by omega)
  obtain ⟨e, he, hie⟩ := List.mem_flatMap.mp hmem
  obtain ⟨c, hc, -⟩ := h.keyed e he i hie
  exact ⟨c, hc⟩

theorem slotDims_pos (layout : Layout) : 0 < (slotDims layout).1 ∧ 0 < (slotDims layout).2 := by
  obtain ⟨k, hk⟩ := layout.powerOfTwo
  have halign : 0 < layout.align := by
    rw [hk]
    exact Nat.two_pow_pos k
  exact ⟨layout.pos.trans_le (le_alignUp halign _), halign⟩

theorem Inv.mapPage (h : Inv s out) {os : Os} {key : Key} (hsize : 0 < key.1) (halign : 0 < key.2) {p : ℕ}
    (hmap : s.mapPage os key = some (p, s')) : Inv s' (p :: out) := by
  obtain ⟨ptr, hptr, hcarve⟩ := Option.bind_eq_some_iff.mp hmap
  let c : Chunk := ⟨ptr, key.1, key.2, alignUp ptr key.2 - ptr⟩
  have hfirst : ptr + (alignUp ptr key.2 - ptr) = alignUp ptr key.2 := by
    have := le_alignUp halign ptr
    omega
  have hwf : c.Wf := ⟨hsize, hfirst⟩
  have hcut : carveLoop key.1 (ptr + chunkBytes) chunkBytes (alignUp ptr key.2) = c.slots := hwf.carve
  rw [carveSlots] at hcarve
  dsimp only at hcarve
  rw [hcut] at hcarve
  cases hslots : c.slots with
  | nil =>
    rw [hslots] at hcarve
    cases hcarve
  | cons firstSlot rest =>
    rw [hslots] at hcarve
    cases hcarve
    have hfar : ∀ d ∈ s.chunks, ptr + chunkBytes ≤ d.ptr ∨ d.ptr + chunkBytes ≤ ptr := os.apart _ _ hptr
    have hapart : Apart (s.chunks ++ [c]) := by
      refine List.pairwise_append.mpr ⟨h.apart, List.pairwise_singleton _ _, fun d hd d' hd' ↦ ?_⟩
      rw [List.mem_singleton.mp hd']
      exact (hfar d hd).symm
    have hlast : (s.chunks ++ [c])[s.chunks.length]? = some c := List.getElem?_concat_length
    have hmono : ∀ (i : ℕ) (d : Chunk), s.chunks[i]? = some d → (s.chunks ++ [c])[i]? = some d := by
      intro i d hd
      rwa [List.getElem?_append_left (List.getElem?_eq_some_iff.mp hd).1]
    have hfresh : s.isReleased s.chunks.length = false := by
      by_contra hr
      obtain ⟨d, hd⟩ := h.lt_of_isReleased (Bool.not_eq_false _ ▸ hr)
      exact Nat.lt_irrefl _ (List.getElem?_eq_some_iff.mp hd).1
    have hcases : ∀ (i : ℕ) (d : Chunk), (s.chunks ++ [c])[i]? = some d →
        s.chunks[i]? = some d ∨ (i = s.chunks.length ∧ d = c) := by
      intro i d hd
      rcases Nat.lt_or_ge i s.chunks.length with hi | hi
      · exact .inl (by rwa [List.getElem?_append_left hi] at hd)
      · rw [List.getElem?_append_right hi] at hd
        have hi0 : i - s.chunks.length = 0 := by
          have := (List.getElem?_eq_some_iff.mp hd).1
          rw [List.length_singleton] at this
          omega
        rw [hi0] at hd
        exact .inr ⟨by omega, (Option.some.inj hd).symm⟩
    refine h.carve hwf hslots (fun p hp ↦ ?_) (fun d hd ↦ ?_) hapart ⟨_, hlast⟩ hmono (fun p ↦ ?_)
      (adds_rest s key rest) h.listed fun e he i hi ↦ ?_
    · rintro ⟨i, d, hd, -, hpd⟩
      have hij := hapart.eq_of_contains hlast (hmono i d hd) (contains_of_mem_slots hp) (contains_of_mem_slots hpd)
      rw [← hij] at hd
      exact Nat.lt_irrefl _ (List.getElem?_eq_some_iff.mp hd).1
    · rcases List.mem_append.mp hd with hd | hd
      · exact h.wf d hd
      · rw [List.mem_singleton.mp hd]
        exact hwf
    · constructor
      · rintro ⟨i, d, hd, hr, hpd⟩
        rcases hcases i d hd with hd | ⟨-, rfl⟩
        · exact .inl ⟨i, d, hd, hr, hpd⟩
        · exact .inr hpd
      · rintro (⟨i, d, hd, hr, hpd⟩ | hp)
        · exact ⟨i, d, hmono i d hd, hr, hpd⟩
        · exact ⟨_, c, hlast, hfresh, hp⟩
    · obtain ⟨d, hd, hk⟩ := h.keyed e he i hi
      exact ⟨d, hmono i d hd, hk⟩

/-- A released chunk is carved again. -/
theorem Inv.recarve (h : Inv s out) {key : Key} {i : ℕ} {released : List (Key × List ℕ)}
    (hpop : popReleased key s.released = some (i, released)) :
    ∃ c, s.chunks[i]? = some c ∧ ∀ p s', ({ s with released }.setReleased i false).carveSlots c.ptr key false = some (p, s') →
      Inv s' (p :: out) := by
  obtain ⟨pre, list, post, hreleased, rfl⟩ := popReleased_some hpop
  obtain ⟨c, hc, hkey⟩ := h.keyed (key, list ++ [i]) (by rw [hreleased]; simp) i (by simp)
  refine ⟨c, hc, fun p s' hcarve ↦ ?_⟩
  obtain rfl : c.key = key := hkey
  have hwf := h.wf c (List.mem_of_getElem? hc)
  have hcounts : ∀ j, (s.released.flatMap Prod.snd).count j =
      ((pre ++ (c.key, list) :: post).flatMap Prod.snd).count j + [i].count j := by
    intro j
    simp only [hreleased, List.flatMap_append, List.flatMap_cons, List.count_append]
    omega
  have hr : s.isReleased i = true := by
    by_contra hf
    have h₁ := h.listed i
    rw [if_neg hf, hcounts] at h₁
    simp at h₁
  have hcut : carveLoop c.key.1 (c.ptr + chunkBytes) chunkBytes (alignUp c.ptr c.key.2) = c.slots := hwf.carve
  rw [carveSlots] at hcarve
  dsimp only at hcarve
  rw [hcut] at hcarve
  cases hslots : c.slots with
  | nil =>
    rw [hslots] at hcarve
    cases hcarve
  | cons firstSlot rest =>
    rw [hslots] at hcarve
    cases hcarve
    refine h.carve hwf hslots (fun p hp ↦ h.not_live hc hr hp) h.wf h.apart ⟨i, hc⟩ (fun _ _ hd ↦ hd) (fun p ↦ ?_)
      (adds_rest s c.key rest) (fun j ↦ ?_) fun e he j hj ↦ ?_
    · constructor
      · rintro ⟨j, d, hd, hrj, hpd⟩
        have hd : s.chunks[j]? = some d := hd
        have hrj : ({ s with released := pre ++ (c.key, list) :: post }.setReleased i false).isReleased j = false := hrj
        rw [isReleased_setReleased] at hrj
        by_cases hji : j = i
        · rw [hji, hc] at hd
          cases hd
          exact .inr hpd
        · rw [if_neg hji] at hrj
          exact .inl ⟨j, d, hd, hrj, hpd⟩
      · rintro (⟨j, d, hd, hrj, hpd⟩ | hp)
        · refine ⟨j, d, hd, ?_, hpd⟩
          show ({ s with released := pre ++ (c.key, list) :: post }.setReleased i false).isReleased j = false
          rw [isReleased_setReleased]
          split
          · rfl
          · exact hrj
        · refine ⟨i, c, hc, ?_, hp⟩
          show ({ s with released := pre ++ (c.key, list) :: post }.setReleased i false).isReleased i = false
          rw [isReleased_setReleased, if_pos rfl]
    · show ((pre ++ (c.key, list) :: post).flatMap Prod.snd).count j =
        if ({ s with released := pre ++ (c.key, list) :: post }.setReleased i false).isReleased j then 1 else 0
      have h₁ := h.listed j
      rw [hcounts] at h₁
      rw [isReleased_setReleased]
      by_cases hji : j = i
      · subst hji
        rw [hr, if_pos rfl] at h₁
        simp only [List.count_singleton_self] at h₁
        rw [if_pos rfl, if_neg (by decide)]
        omega
      · have hij : [i].count j = 0 := List.count_eq_zero.mpr fun hmem ↦ hji (List.mem_singleton.mp hmem)
        rw [if_neg hji]
        show _ = if s.isReleased j then 1 else 0
        omega
    · have he : e ∈ pre ++ (c.key, list) :: post := he
      rcases List.mem_append.mp he with he | he
      · exact h.keyed e (by rw [hreleased]; exact List.mem_append_left _ he) j hj
      rcases List.mem_cons.mp he with rfl | he
      · exact h.keyed (c.key, list ++ [i]) (by rw [hreleased]; simp) j (List.mem_append_left _ hj)
      · exact h.keyed e (by rw [hreleased]; exact List.mem_append_right _ (List.mem_cons_of_mem _ he)) j hj

theorem Inv.alloc (h : Inv s out) {os : Os} {layout : Layout} {p : ℕ} (halloc : s.alloc os layout = some (p, s')) :
    Inv s' (p :: out) := by
  obtain ⟨hsize, halign⟩ := slotDims_pos layout
  rw [Slab.alloc] at halloc
  cases hpop : Slab.popFree (slotDims layout) s.free with
  | some r =>
    obtain ⟨q, free⟩ := r
    rw [hpop] at halloc
    cases halloc
    exact h.popFree hpop
  | none =>
    rw [hpop] at halloc
    dsimp only at halloc
    rw [carvePage] at halloc
    cases hrel : popReleased (slotDims layout) s.released with
    | none =>
      rw [hrel] at halloc
      exact h.mapPage hsize halign halloc
    | some r =>
      obtain ⟨i, released⟩ := r
      obtain ⟨c, hc, hcarve⟩ := h.recarve hrel
      rw [hrel] at halloc
      dsimp only at halloc
      rw [hc] at halloc
      exact hcarve p s' halloc

theorem Inv.perm (h : Inv s out) (hperm : out.Perm out') : Inv s out' :=
  h.move ⟨rfl, rfl, rfl⟩ (fun p ↦ by rw [hperm.count_eq]) h.own

theorem Inv.allocBatch {os : Os} {layout : Layout} {n : ℕ} {batch : List ℕ} (h : Inv s out)
    (halloc : s.allocBatch os layout n = some (batch, s')) : Inv s' (batch ++ out) := by
  induction n generalizing s out batch s' with
  | zero =>
    cases halloc
    exact h
  | succ n ih =>
    obtain ⟨⟨p, s₁⟩, h₁, hrest⟩ := Option.bind_eq_some_iff.mp halloc
    obtain ⟨⟨batch₁, s₂⟩, h₂, hret⟩ := Option.bind_eq_some_iff.mp hrest
    cases hret
    have := ih (h.alloc h₁) h₂
    rwa [List.append_assoc]

end CoilLang.Slab
