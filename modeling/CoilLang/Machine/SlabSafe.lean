import CoilLang.Machine.SlabRelease

/-!
# No slot has two owners

Every step of a client keeps the invariant of the slab and that of the walks, so **in every run each slot of an
unreleased chunk is held once or free once** (`reachable_exact`), and an allocation returns a slot that nobody
holds. A walk may stop anywhere while the slab changes: chunks and free lists are only ever added behind the ones
there are, so the class a cursor remembers stays that of its slot, and the place of its free list stays valid.
-/

namespace CoilLang.Slab

variable {s s' : Slab} {out : List ℕ} {os : Os}

def keys (s : Slab) : List Key := s.free.map FreeClass.key

/-- Chunks and free lists are added at the end. -/
structure Grows (s s' : Slab) : Prop where
  chunks : s.chunks <+: s'.chunks
  keys : s.keys <+: s'.keys

theorem Grows.refl (s : Slab) : Grows s s := ⟨List.prefix_rfl, List.prefix_rfl⟩

theorem Grows.trans {s₁ s₂ s₃ : Slab} (h : Grows s₁ s₂) (h' : Grows s₂ s₃) : Grows s₁ s₃ :=
  ⟨h.chunks.trans h'.chunks, h.keys.trans h'.keys⟩

theorem grows_of_keys (hchunks : s'.chunks = s.chunks) (hkeys : s'.keys = s.keys) : Grows s s' :=
  ⟨hchunks ▸ List.prefix_rfl, hkeys ▸ List.prefix_rfl⟩

theorem keys_onClass {key : Key} {slots : List ℕ} {cs cs' : List FreeClass} (h : onClass key (.append slots) cs = some cs') :
    cs'.map FreeClass.key = cs.map FreeClass.key := by
  obtain ⟨pre, c, post, rfl, -, rfl⟩ := onClass_some h
  rw [List.map_append, List.map_append]
  rfl

theorem keys_popFree {key : Key} {p : ℕ} {cs cs' : List FreeClass} (h : popFree key cs = some (p, cs')) :
    cs'.map FreeClass.key = cs.map FreeClass.key := by
  obtain ⟨pre, c, post, slots, lowWater, rfl, -, -, rfl⟩ := popFree_some h
  rw [List.map_append, List.map_append]
  rfl

theorem grows_concat {cls : FreeClass} : Grows s { s with free := s.free ++ [cls] } :=
  ⟨List.prefix_rfl, by rw [keys, keys, List.map_append]; exact List.prefix_append _ _⟩

theorem grows_carveSlots {ptr p : ℕ} {key : Key} {newChunk : Bool} (h : s.carveSlots ptr key newChunk = some (p, s')) :
    Grows s s' := by
  rw [carveSlots] at h
  dsimp only at h
  split at h
  · cases h
  · rename_i firstSlot rest _
    cases h
    refine ⟨?_, ?_⟩
    · show s.chunks <+: if newChunk then s.chunks ++ _ else s.chunks
      split
      · exact List.prefix_append _ _
      · exact List.prefix_rfl
    · rw [keys, keys]
      dsimp only
      cases hon : onClass key (.append rest.reverse) s.free with
      | some free =>
        dsimp only
        exact (keys_onClass hon).symm ▸ List.prefix_rfl
      | none =>
        dsimp only
        split
        · exact List.prefix_rfl
        · rw [List.map_append]
          exact List.prefix_append _ _

theorem grows_mapPage {key : Key} {p : ℕ} (h : s.mapPage os key = some (p, s')) : Grows s s' := by
  obtain ⟨ptr, -, hcarve⟩ := Option.bind_eq_some_iff.mp h
  exact grows_carveSlots hcarve

theorem grows_alloc {layout : Layout} {p : ℕ} (h : s.alloc os layout = some (p, s')) : Grows s s' := by
  rw [Slab.alloc] at h
  split at h
  · rename_i q free hpop
    cases h
    exact grows_of_keys rfl (keys_popFree hpop)
  · rw [carvePage] at h
    split at h
    · exact grows_mapPage h
    · rename_i i released _
      split at h
      · have hgrows : Grows { s with released } s' := grows_mapPage h
        exact ⟨hgrows.chunks, hgrows.keys⟩
      · have hgrows : Grows ({ s with released }.setReleased i false) s' := grows_carveSlots h
        exact ⟨hgrows.chunks, hgrows.keys⟩

theorem grows_allocBatch {layout : Layout} {n : ℕ} {batch : List ℕ} (h : s.allocBatch os layout n = some (batch, s')) :
    Grows s s' := by
  induction n generalizing s batch s' with
  | zero =>
    cases h
    exact Grows.refl s
  | succ n ih =>
    obtain ⟨⟨p, s₁⟩, h₁, hrest⟩ := Option.bind_eq_some_iff.mp h
    obtain ⟨⟨batch₁, s₂⟩, h₂, hret⟩ := Option.bind_eq_some_iff.mp hrest
    cases hret
    exact (grows_alloc h₁).trans (ih h₂)

theorem grows_giveBack (key : Key) (batch : List ℕ) : Grows s (s.giveBack key batch) := by
  rw [giveBack]
  split
  · exact Grows.refl s
  · cases hon : onClass key (.append batch) s.free with
    | some free => exact grows_of_keys rfl (keys_onClass hon)
    | none => exact grows_concat

theorem grows_freeInClass (key : Key) (p : ℕ) : Grows s (s.freeInClass key p) := by
  rw [freeInClass]
  cases hon : onClass key (.append [p]) s.free with
  | some free => exact grows_of_keys rfl (keys_onClass hon)
  | none => exact grows_concat

theorem grows_dealloc (p : ℕ) : Grows s (s.dealloc p) := by
  rw [dealloc]
  split
  · exact Grows.refl s
  · exact grows_freeInClass _ p

theorem keys_map (f : FreeClass → FreeClass) (hf : ∀ c, (f c).key = c.key) :
    (s.free.map f).map FreeClass.key = s.keys := by
  rw [List.map_map, keys]
  exact List.map_congr_left fun c _ ↦ hf c

theorem grows_takeFreeIn (flags : List Bool) : Grows s (s.takeFreeIn flags).2 := by
  rw [takeFreeIn]
  split
  · exact Grows.refl s
  · exact grows_of_keys rfl (keys_map _ fun c ↦ rfl)

theorem grows_releaseChunks (os : Os) (flags : List Bool) : Grows s (s.releaseChunks os flags).2 := by
  have hfold : ∀ (fs : List (Bool × ℕ)) (st : ℕ × Slab),
      (fs.foldl releaseStep st).2.chunks = st.2.chunks ∧ (fs.foldl releaseStep st).2.free = st.2.free := by
    intro fs
    induction fs with
    | nil => exact fun st ↦ ⟨rfl, rfl⟩
    | cons f fs ih =>
      intro st
      have hstep : (releaseStep st f).2.chunks = st.2.chunks ∧ (releaseStep st f).2.free = st.2.free := by
        rw [releaseStep]
        split
        · split
          · exact ⟨rfl, rfl⟩
          · split <;> exact ⟨rfl, rfl⟩
        · exact ⟨rfl, rfl⟩
      exact ⟨(ih _).1.trans hstep.1, (ih _).2.trans hstep.2⟩
  obtain ⟨hchunks, hfree⟩ := hfold flags.zipIdx (0, s)
  rw [releaseChunks]
  split
  · exact Grows.refl s
  · generalize flags.zipIdx.foldl releaseStep (0, s) = st at hchunks hfree ⊢
    obtain ⟨bytes, s₁⟩ := st
    have hkeys : s₁.keys = s.keys := congrArg (List.map FreeClass.key) hfree
    refine grows_of_keys hchunks (Eq.trans ?_ hkeys)
    show (s₁.free.map _).map FreeClass.key = _
    exact keys_map _ fun c ↦ rfl

theorem grows_releaseIdleChunks (os : Os) : Grows s (s.releaseIdleChunks os).2 := by
  have hidle : ∀ (s : Slab) (budget : List (Key × ℕ)), Grows s (s.releaseIdle budget).2 := by
    intro s budget
    obtain ⟨hrel, -, -⟩ := foldl_idleStep (s.idleFree budget) (List.range s.chunks.length)
      { slab := s, budget } (releasedBy_nil s) List.nodup_range
    rw [releaseIdle]
    generalize (List.range s.chunks.length).foldl (idleStep (s.idleFree budget)) { slab := s, budget } = scan at hrel ⊢
    have hkeys : scan.slab.keys = s.keys := congrArg (List.map FreeClass.key) hrel.free
    split
    · exact grows_of_keys hrel.chunks hkeys
    · refine grows_of_keys hrel.chunks (Eq.trans ?_ hkeys)
      show (scan.slab.free.map _).map FreeClass.key = _
      exact keys_map _ fun c ↦ rfl
  have hmarked : ∀ n, Grows s { s with
      cyclesSinceScan := n, free := s.free.map fun c ↦ { c with lowWater := c.slots.length } } :=
    fun n ↦ grows_of_keys rfl (keys_map _ fun c ↦ rfl)
  rw [releaseIdleChunks]
  dsimp only
  split
  · exact grows_of_keys rfl rfl
  split
  · exact hmarked 0
  split
  · exact hmarked 0
  · exact (hmarked 0).trans (hidle _ _)

/-! ### Walks -/

/-- `p` is a slot of class `key`. -/
def SlotOf (s : Slab) (key : Key) (p : ℕ) : Prop :=
  ∃ (i : ℕ) (c : Chunk), s.chunks[i]? = some c ∧ p ∈ c.slots ∧ c.key = key

/-- The walk has slots of its chunk to return, the next one at the cursor. -/
structure Pending (s : Slab) (cur : SlotCursor) (c : Chunk) : Prop where
  mem : c ∈ s.chunks
  key : c.key = cur.cls
  size : c.slotSize = cur.slotSize
  remaining : cur.remaining < c.slotCount
  next : cur.next = c.ptr + c.firstOff + (cur.remaining - 1) * c.slotSize

structure WalkOk (s : Slab) (w : Walk) : Prop where
  slot : ∀ p, w.at? = some p → s.SlotOf w.cursor.cls p
  rest : 0 < w.cursor.remaining → ∃ c, Pending s w.cursor c
  list : w.cursor.freeClass ≠ 0 → s.keys[w.cursor.freeClass - 1]? = some w.cursor.cls

theorem SlotOf.grows {key : Key} {p : ℕ} (h : s.SlotOf key p) (hg : Grows s s') : s'.SlotOf key p := by
  obtain ⟨i, c, hc, hp, hk⟩ := h
  obtain ⟨more, hmore⟩ := hg.chunks
  refine ⟨i, c, ?_, hp, hk⟩
  rw [← hmore, List.getElem?_append_left (List.getElem?_eq_some_iff.mp hc).1]
  exact hc

theorem WalkOk.grows {w : Walk} (h : WalkOk s w) (hg : Grows s s') : WalkOk s' w where
  slot p hp := (h.slot p hp).grows hg
  rest hr := by
    obtain ⟨c, hc⟩ := h.rest hr
    exact ⟨c, hg.chunks.subset hc.mem, hc.key, hc.size, hc.remaining, hc.next⟩
  list hl := by
    have hget := h.list hl
    obtain ⟨more, hmore⟩ := hg.keys
    rw [← hmore, List.getElem?_append_left (List.getElem?_eq_some_iff.mp hget).1]
    exact hget

theorem walkOk_start (s : Slab) : WalkOk s {} where
  slot _ h := by cases h
  rest h := by cases h
  list h := absurd rfl h

theorem mem_slots {c : Chunk} {k : ℕ} (hk : k < c.slotCount) : c.ptr + c.firstOff + k * c.slotSize ∈ c.slots :=
  List.mem_map.mpr ⟨k, List.mem_range.mpr hk, rfl⟩

/-- The slot below the last one returned. -/
theorem Pending.below {cur : SlotCursor} {c : Chunk} (h : Pending s cur c) (hr : 0 < cur.remaining - 1) :
    cur.next - cur.slotSize = c.ptr + c.firstOff + (cur.remaining - 1 - 1) * c.slotSize := by
  obtain ⟨k, hk⟩ : ∃ k, cur.remaining - 1 = k + 1 := ⟨cur.remaining - 2, by omega⟩
  rw [h.next, ← h.size, hk, Nat.succ_mul]
  show _ = c.ptr + c.firstOff + k * c.slotSize
  omega

theorem walkOk_enterBelow (cur : SlotCursor) (hrest : cur.remaining = 0)
    (hlist : cur.freeClass ≠ 0 → s.keys[cur.freeClass - 1]? = some cur.cls) (n : ℕ) :
    WalkOk s ⟨(s.enterBelow cur n).2, (s.enterBelow cur n).1⟩ := by
  induction n with
  | zero =>
    refine ⟨fun p hp ↦ (by cases hp), fun hr ↦ ?_, hlist⟩
    have hr : 0 < cur.remaining := hr
    omega
  | succ i ih =>
    rw [enterBelow]
    split
    · exact ih
    · rename_i c hc
      split
      · exact ih
      split
      · exact ih
      · rename_i hcount
        have hmem := List.mem_of_getElem? hc
        refine ⟨fun p hp ↦ ?_, fun hr ↦ ⟨c, hmem, rfl, rfl, ?_, ?_⟩, fun hl ↦ absurd rfl hl⟩
        · cases hp
          exact ⟨i, c, hc, mem_slots (by omega), rfl⟩
        · show c.slotCount - 1 < c.slotCount
          omega
        · have hr : 0 < c.slotCount - 1 := hr
          obtain ⟨k, hk⟩ : ∃ k, c.slotCount - 1 = k + 1 := ⟨c.slotCount - 2, by omega⟩
          show c.ptr + c.firstOff + (c.slotCount - 1) * c.slotSize - c.slotSize =
            c.ptr + c.firstOff + (c.slotCount - 1 - 1) * c.slotSize
          rw [hk, Nat.succ_mul]
          show _ = c.ptr + c.firstOff + k * c.slotSize
          omega

theorem WalkOk.nextSlot {w : Walk} (h : WalkOk s w) :
    WalkOk s ⟨(s.nextSlot w.cursor).2, (s.nextSlot w.cursor).1⟩ := by
  rw [Slab.nextSlot]
  split
  · rename_i hpos
    obtain ⟨c, hc⟩ := h.rest hpos
    refine ⟨fun p hp ↦ ?_, fun hr ↦ ⟨c, hc.mem, hc.key, hc.size, ?_, hc.below hr⟩, h.list⟩
    · cases hp
      obtain ⟨i, hi⟩ := List.mem_iff_getElem?.mp hc.mem
      refine ⟨i, c, hi, ?_, hc.key⟩
      rw [hc.next]
      have := hc.remaining
      exact mem_slots (by omega)
    · have := hc.remaining
      show w.cursor.remaining - 1 < c.slotCount
      omega
  · rename_i hzero
    rw [enterNextChunk]
    split
    · exact walkOk_enterBelow w.cursor (by omega) h.list _
    · have hstart : ({ w.cursor with started := true } : SlotCursor).remaining = 0 := by
        show w.cursor.remaining = 0
        omega
      exact walkOk_enterBelow { w.cursor with started := true } hstart h.list _

theorem key_mem_freeInClass (key : Key) (p : ℕ) : key ∈ (s.freeInClass key p).keys := by
  rw [freeInClass, keys]
  cases hon : onClass key (.append [p]) s.free with
  | some free =>
    obtain ⟨pre, c, post, -, hkey, rfl⟩ := onClass_some hon
    exact List.mem_map.mpr ⟨c.append [p], by simp, hkey⟩
  | none => simp

theorem getElem?_keys_findIdx {key : Key} (h : key ∈ s.keys) : s.keys[s.free.findIdx (·.key = key)]? = some key := by
  obtain ⟨cls, hcls, hkey⟩ := List.mem_map.mp h
  have hlt : s.free.findIdx (·.key = key) < s.free.length :=
    List.findIdx_lt_length_of_exists ⟨cls, hcls, decide_eq_true hkey⟩
  have hget := List.findIdx_getElem (w := hlt)
  rw [keys, List.getElem?_map, List.getElem?_eq_getElem hlt]
  exact congrArg some (of_decide_eq_true hget)

/-- The slab and the cursor after the walk has freed its slot. -/
theorem Inv.freeAtCursor (h : Inv s out) {w : Walk} (hw : WalkOk s w) {p : ℕ} (hat : w.at? = some p) (hp : p ∈ out) :
    Inv (s.freeAtCursor w.cursor p).1 (out.erase p) ∧ Grows s (s.freeAtCursor w.cursor p).1 ∧
      WalkOk (s.freeAtCursor w.cursor p).1 { w with cursor := (s.freeAtCursor w.cursor p).2 } := by
  obtain ⟨i, c, hc, hpc, hkey⟩ := hw.slot p hat
  rw [Slab.freeAtCursor]
  split
  · have hgrows := grows_freeInClass (s := s) w.cursor.cls p
    have hw' := hw.grows hgrows
    refine ⟨h.freeInClass hp ⟨i, c, hc, hpc, hkey⟩, hgrows, hw'.slot, fun hr ↦ ?_, fun _ ↦ ?_⟩
    · obtain ⟨c, hc⟩ := hw'.rest hr
      exact ⟨c, hc.mem, hc.key, hc.size, hc.remaining, hc.next⟩
    · have hget := getElem?_keys_findIdx (key_mem_freeInClass (s := s) w.cursor.cls p)
      show (s.freeInClass w.cursor.cls p).keys[1 + _ - 1]? = _
      rw [Nat.add_sub_cancel_left]
      exact hget
  · rename_i hzero
    have hget := hw.list hzero
    rw [keys, List.getElem?_map] at hget
    obtain ⟨cls, hcls, hclsKey⟩ := Option.map_eq_some_iff.mp hget
    obtain ⟨hlt, rfl⟩ := List.getElem?_eq_some_iff.mp hcls
    have hmodify : s.free.modify (w.cursor.freeClass - 1) (.append [p]) =
        s.free.take (w.cursor.freeClass - 1) ++
          s.free[w.cursor.freeClass - 1].append [p] :: s.free.drop (w.cursor.freeClass - 1 + 1) := by
      rw [List.modify_eq_take_cons_drop hlt]
    have hfree : s.free = s.free.take (w.cursor.freeClass - 1) ++
        s.free[w.cursor.freeClass - 1] :: s.free.drop (w.cursor.freeClass - 1 + 1) := by
      rw [List.getElem_cons_drop, List.take_append_drop]
    have hadds : Adds s w.cursor.cls [p] (s.free.modify (w.cursor.freeClass - 1) (.append [p])) := by
      rw [hmodify]
      refine ⟨fun q ↦ ?_, fun cls hcls q hq ↦ ?_⟩
      · rw [count_append_class, freeCount, ← hfree]
      · rcases mem_append_class hcls hq with ⟨d, hd, hqd, hk⟩ | ⟨hqp, hk⟩
        · rw [← hfree] at hd
          exact .inl ⟨d, hd, hqd, hk⟩
        · exact .inr ⟨hqp, hk.trans hclsKey⟩
    have hkeys : (s.free.modify (w.cursor.freeClass - 1) (.append [p])).map FreeClass.key = s.keys := by
      rw [keys, hmodify, List.map_append, List.map_cons]
      conv_rhs => rw [hfree]
      rw [List.map_append, List.map_cons]
      rfl
    have hgrows : Grows s { s with free := s.free.modify (w.cursor.freeClass - 1) (.append [p]) } :=
      grows_of_keys rfl hkeys
    refine ⟨h.adds hadds (fun q hq ↦ ?_) (fun q ↦ count_erase_add hp), hgrows, hw.grows hgrows⟩
    rw [List.mem_singleton.mp hq]
    exact ⟨i, c, hc, hpc, hkey⟩

/-! ### Runs -/

structure State.Ok (st : State) : Prop where
  inv : Inv st.slab st.out
  walks : ∀ w, WalkOk st.slab (st.walks w)

theorem walkOk_update {walks : ℕ → Walk} (h : ∀ v, WalkOk s (walks v)) {w : ℕ} {x : Walk} (hx : WalkOk s x) (v : ℕ) :
    WalkOk s (Function.update walks w x v) := by
  rcases eq_or_ne v w with rfl | hne
  · rw [Function.update_self]
    exact hx
  · rw [Function.update_of_ne hne]
    exact h v

theorem State.Ok.step {st st' : State} (h : st.Ok) (hstep : Step os st st') : st'.Ok := by
  have hkeep : ∀ {slab : Slab}, Grows st.slab slab → ∀ w, WalkOk slab (st.walks w) :=
    fun hg w ↦ (h.walks w).grows hg
  cases hstep with
  | alloc layout halloc => exact ⟨h.inv.alloc halloc, hkeep (grows_alloc halloc)⟩
  | allocBatch layout n halloc => exact ⟨h.inv.allocBatch halloc, hkeep (grows_allocBatch halloc)⟩
  | giveBack key hout hkey => exact ⟨h.inv.giveBack hout hkey, hkeep (grows_giveBack _ _)⟩
  | free hout => exact ⟨h.inv.dealloc hout, hkeep (grows_dealloc _)⟩
  | startWalk w => exact ⟨h.inv, walkOk_update h.walks (walkOk_start _)⟩
  | nextSlot w => exact ⟨h.inv, walkOk_update h.walks (h.walks w).nextSlot⟩
  | freeAtCursor w hat hout =>
    obtain ⟨hinv, hgrows, hw⟩ := h.inv.freeAtCursor (h.walks w) hat hout
    exact ⟨hinv, walkOk_update (hkeep hgrows) hw⟩
  | takeFreeIn flags => exact ⟨h.inv.takeFreeIn flags, hkeep (grows_takeFreeIn flags)⟩
  | releaseIdleChunks => exact ⟨h.inv.releaseIdleChunks os, hkeep (grows_releaseIdleChunks os)⟩
  | releaseChunks flags hfree => exact ⟨h.inv.releaseChunks os hfree, hkeep (grows_releaseChunks os flags)⟩

theorem Reachable.ok {st : State} (h : Reachable os st) : st.Ok := by
  induction h with
  | refl => exact ⟨inv_empty, fun w ↦ walkOk_start _⟩
  | tail _ hstep ih => exact ih.step hstep

/-- **Every slot has one place, in every state of every run**, and an allocation returns a slot that is not held. -/
theorem reachable_exact (os : Os) (st : State) (h : Reachable os st) :
    Exact st ∧ ∀ (layout : Layout) (p : ℕ) (slab : Slab), st.slab.alloc os layout = some (p, slab) → p ∉ st.out := by
  refine ⟨h.ok.inv.exact, fun layout p slab halloc hmem ↦ ?_⟩
  have hinv := h.ok.inv.alloc halloc
  have hone := hinv.live p (hinv.live_of_out List.mem_cons_self)
  have := List.count_pos_iff.mpr hmem
  rw [List.count_cons_self] at hone
  omega

/-- A system that maps chunks upwards. -/
def upwards : Os where
  mmap cs := some ((cs.map fun c ↦ c.ptr + chunkBytes).foldr max chunkBytes)
  apart cs p hp c hc := by
    cases hp
    refine .inr ?_
    induction cs with
    | nil => cases hc
    | cons d cs ih =>
      rw [List.map_cons, List.foldr_cons]
      rcases List.mem_cons.mp hc with rfl | hc
      · exact le_max_left _ _
      · exact (ih hc).trans (le_max_right _ _)
  unix := true

/-- Two slots to a chunk. -/
def halfChunk : Layout := ⟨32768, 8, ⟨3, rfl⟩, by decide, by decide⟩

/-- Three slots are taken, from two chunks, and the second is freed. -/
theorem reachable_exact_three :
    ∃ st, Reachable upwards st ∧ st.out = [131072, 65536] ∧ st.slab.freeCount 98304 = 1 ∧ Exact st := by
  let s₁ : Slab := { chunks := [⟨65536, 32768, 8, 0⟩], free := [⟨(32768, 8), [98304], 1⟩] }
  let s₂ : Slab := { chunks := [⟨65536, 32768, 8, 0⟩], free := [⟨(32768, 8), [], 0⟩] }
  let s₃ : Slab :=
    { chunks := [⟨65536, 32768, 8, 0⟩, ⟨131072, 32768, 8, 0⟩], free := [⟨(32768, 8), [163840], 0⟩] }
  let s₄ : Slab :=
    { chunks := [⟨65536, 32768, 8, 0⟩, ⟨131072, 32768, 8, 0⟩], free := [⟨(32768, 8), [163840, 98304], 0⟩] }
  have h₁ : Reachable upwards { slab := s₁, out := [65536] } :=
    Relation.ReflTransGen.single (Step.alloc halfChunk (by decide))
  have h₂ : Reachable upwards { slab := s₂, out := [98304, 65536] } := h₁.tail (Step.alloc halfChunk (by decide))
  have h₃ : Reachable upwards { slab := s₃, out := [131072, 98304, 65536] } := h₂.tail (Step.alloc halfChunk (by decide))
  have h₄ : Reachable upwards { slab := s₄, out := [131072, 65536] } := by
    have hstep : Step upwards { slab := s₃, out := [131072, 98304, 65536] }
        { slab := s₃.dealloc 98304, out := [131072, 98304, 65536].erase 98304 } := Step.free (by decide)
    have hdealloc : s₃.dealloc 98304 = s₄ := by decide
    rw [hdealloc] at hstep
    exact h₃.tail hstep
  exact ⟨_, h₄, rfl, by decide, (reachable_exact upwards _ h₄).1⟩

end CoilLang.Slab
