import CoilLang.Machine.SlabInvariant
import Mathlib.Data.List.Flatten

/-!
# Taking slots and releasing chunks

The free slots of flagged chunks are taken off the lists, or dropped with their chunk. A chunk is released only
when **all its slots are on free lists**: the scan for idle chunks knows by counting, since the free slots
found in a chunk are distinct slots of it and as many as it has.
-/

namespace CoilLang.Slab

variable {s s' : Slab} {out : List ℕ}

/-! ### Dropping slots -/

/-- The free lists without the slots that `gone` holds of. -/
structure Drops (gone : ℕ → Bool) (s s' : Slab) : Prop where
  count : ∀ p, s'.freeCount p = if gone p then 0 else s.freeCount p
  mem : ∀ cls ∈ s'.free, ∃ d ∈ s.free, d.key = cls.key ∧ ∀ p ∈ cls.slots, p ∈ d.slots

theorem count_retain (gone : ℕ → Bool) (free : List FreeClass) (p : ℕ) :
    (free.flatMap fun c ↦ c.retain gone).count p =
      if gone p then 0 else (free.flatMap FreeClass.slots).count p := by
  induction free with
  | nil =>
    split <;> rfl
  | cons c free ih =>
    rw [List.flatMap_cons, List.flatMap_cons, List.count_append, List.count_append, ih, FreeClass.retain]
    cases hp : gone p with
    | true =>
      have hnot : p ∉ c.slots.filter fun q ↦ !gone q := by
        intro hmem
        have := (List.mem_filter.mp hmem).2
        rw [hp] at this
        cases this
      rw [List.count_eq_zero.mpr hnot]
      rfl
    | false => rw [List.count_filter (by rw [hp]; rfl)]; rfl

theorem drops_retain (gone : ℕ → Bool) (s : Slab) (lowWater : FreeClass → ℕ) :
    Drops gone s { s with free := s.free.map fun c ↦ { c with slots := c.retain gone, lowWater := lowWater c } } := by
  refine ⟨fun p ↦ ?_, fun cls hcls ↦ ?_⟩
  · rw [freeCount, freeCount, ← count_retain, List.flatMap_map]
  · obtain ⟨c, hc, rfl⟩ := List.mem_map.mp hcls
    exact ⟨c, hc, rfl, fun p hp ↦ (List.mem_filter.mp hp).1⟩

theorem Inv.takeFreeIn (h : Inv s out) (flags : List Bool) :
    Inv (s.takeFreeIn flags).2 ((s.takeFreeIn flags).1 ++ out) := by
  rw [Slab.takeFreeIn]
  split
  · exact h
  · have hdrops := drops_retain (inChunks (s.chunkStarts flags)) s fun c ↦
      min c.lowWater (c.retain (inChunks (s.chunkStarts flags))).length
    refine h.move ⟨rfl, rfl, rfl⟩ (fun p ↦ ?_) (fun cls hcls p hp ↦ ?_)
    · have hfree : (s.free.flatMap fun c ↦ c.slots.filter (inChunks (s.chunkStarts flags))).count p =
          if inChunks (s.chunkStarts flags) p then s.freeCount p else 0 := by
        rw [freeCount, ← List.filter_flatMap]
        cases hp : inChunks (s.chunkStarts flags) p with
        | true => exact List.count_filter hp
        | false =>
          refine List.count_eq_zero.mpr fun hmem ↦ ?_
          have := (List.mem_filter.mp hmem).2
          rw [hp] at this
          cases this
      rw [hdrops.count, List.count_append, hfree]
      split <;> omega
    · obtain ⟨d, hd, hkey, hsub⟩ := hdrops.mem cls hcls
      obtain ⟨i, c, hc, hpc, hk⟩ := h.own d hd p (hsub p hp)
      exact ⟨i, c, hc, hpc, hk.trans hkey⟩

/-! ### Released chunks -/

/-- The chunks `rel` have been released, and their slots are still on the lists. -/
structure ReleasedBy (s : Slab) (rel : List ℕ) (s' : Slab) : Prop where
  chunks : s'.chunks = s.chunks
  free : s'.free = s.free
  mask : ∀ j, s'.isReleased j = (s.isReleased j || decide (j ∈ rel))
  count : ∀ j, (s'.released.flatMap Prod.snd).count j = (s.released.flatMap Prod.snd).count j + rel.count j
  keyed : ∀ e ∈ s'.released, ∀ j ∈ e.2,
    (∃ e' ∈ s.released, e'.1 = e.1 ∧ j ∈ e'.2) ∨ ∃ c, s.chunks[j]? = some c ∧ c.key = e.1

theorem releasedBy_nil (s : Slab) : ReleasedBy s [] s where
  chunks := rfl
  free := rfl
  mask _ := by simp
  count _ := rfl
  keyed e he j hj := .inl ⟨e, he, rfl, hj⟩

theorem ReleasedBy.release {rel : List ℕ} (h : ReleasedBy s rel s') {i : ℕ} {c : Chunk} (hc : s.chunks[i]? = some c) :
    ReleasedBy s (rel ++ [i]) (s'.release i c) where
  chunks := h.chunks
  free := h.free
  mask j := by
    show (s'.setReleased i true).isReleased j = _
    rw [isReleased_setReleased, h.mask]
    by_cases hj : j = i
    · simp [hj]
    · simp [hj]
  count j := by
    show ((pushReleased c.key i s'.released).flatMap Prod.snd).count j = _
    rw [count_pushReleased, h.count, List.count_append, Nat.add_assoc]
  keyed e he j hj := by
    have hpushed : e ∈ pushReleased c.key i s'.released := he
    rcases mem_pushReleased hpushed j hj with ⟨e', he', hk, hj'⟩ | ⟨rfl, hk⟩
    · rcases h.keyed e' he' j hj' with ⟨e'', he'', hk', hj''⟩ | ⟨d, hd, hdk⟩
      · exact .inl ⟨e'', he'', hk'.trans hk, hj''⟩
      · exact .inr ⟨d, hd, hdk.trans hk⟩
    · exact .inr ⟨c, hc, hk⟩

/-- Chunks whose slots are all free are released, and their slots dropped. -/
theorem Inv.releasedBy (h : Inv s out) {rel : List ℕ} {s₁ : Slab} (hrel : ReleasedBy s rel s₁) (hnodup : rel.Nodup)
    (hfree : ∀ i ∈ rel, s.isReleased i = false ∧ s.AllFree i) (gone : ℕ → Bool)
    (hgone : ∀ (i : ℕ) (c : Chunk), s.chunks[i]? = some c → s.isReleased i = false → ∀ p ∈ c.slots, (gone p = true ↔ i ∈ rel))
    (hdrops : Drops gone s s') (hchunks : s'.chunks = s₁.chunks) (hreleased : s'.released = s₁.released)
    (hmask : s'.releasedMask = s₁.releasedMask) : Inv s' out := by
  have hisReleased : ∀ j, s'.isReleased j = (s.isReleased j || decide (j ∈ rel)) := by
    intro j
    rw [← hrel.mask, isReleased, hmask]
    rfl
  have hsame : s'.chunks = s.chunks := hchunks.trans hrel.chunks
  have hlive : ∀ p, s'.Live p ↔ ∃ (i : ℕ) (c : Chunk), s.chunks[i]? = some c ∧ s.isReleased i = false ∧ i ∉ rel ∧ p ∈ c.slots := by
    intro p
    simp only [Live, hsame, hisReleased, Bool.or_eq_false_iff, decide_eq_false_iff_not, and_assoc]
  refine ⟨fun c hc ↦ h.wf c (hsame ▸ hc), hsame ▸ h.apart, fun p hp ↦ ?_, fun p hp ↦ ?_, fun cls hcls p hp ↦ ?_,
    fun i ↦ ?_, fun e he i hi ↦ ?_⟩
  · obtain ⟨i, c, hc, hr, hi, hpc⟩ := (hlive p).mp hp
    have hnot : gone p = false := by
      by_contra hg
      exact hi ((hgone i c hc hr p hpc).mp (Bool.not_eq_false _ ▸ hg))
    rw [hdrops.count, hnot]
    exact h.live p ⟨i, c, hc, hr, hpc⟩
  · rw [hdrops.count]
    by_cases hl : s.Live p
    · obtain ⟨i, c, hc, hr, hpc⟩ := hl
      have hi : i ∈ rel := by
        by_contra hi
        exact hp ((hlive p).mpr ⟨i, c, hc, hr, hi, hpc⟩)
      have hpos := freeCount_pos.mpr ((hfree i hi).2 c hc p hpc)
      have hone := h.live p ⟨i, c, hc, hr, hpc⟩
      rw [(hgone i c hc hr p hpc).mpr hi, if_pos rfl]
      omega
    · have := h.dead p hl
      split <;> omega
  · obtain ⟨d, hd, hkey, hsub⟩ := hdrops.mem cls hcls
    obtain ⟨i, c, hc, hpc, hk⟩ := h.own d hd p (hsub p hp)
    exact ⟨i, c, hsame ▸ hc, hpc, hk.trans hkey⟩
  · rw [hreleased, hrel.count, hisReleased, h.listed]
    by_cases hi : i ∈ rel
    · rw [(hfree i hi).1, List.count_eq_one_of_mem hnodup hi]
      simp [hi]
    · rw [List.count_eq_zero.mpr hi]
      simp [hi]
  · rw [hsame]
    rcases hrel.keyed e (hreleased ▸ he) i hi with ⟨e', he', hk, hi'⟩ | hc
    · obtain ⟨c, hc, hck⟩ := h.keyed e' he' i hi'
      exact ⟨c, hc, hck.trans hk⟩
    · exact hc

/-! ### `release_chunks` -/

theorem foldl_releaseStep (flags : List (Bool × ℕ)) {rel : List ℕ} {n : ℕ} (h : ReleasedBy s rel s') (hnodup : rel.Nodup)
    (hfree : ∀ i ∈ rel, s.isReleased i = false) (hflags : (flags.map Prod.snd).Nodup)
    (hnew : ∀ f ∈ flags, f.2 ∉ rel) :
    ∃ rel', ReleasedBy s rel' (flags.foldl releaseStep (n, s')).2 ∧ rel'.Nodup ∧ (∀ i ∈ rel', s.isReleased i = false) ∧
      ∀ i, i ∈ rel' ↔ i ∈ rel ∨ ((true, i) ∈ flags ∧ s.isReleased i = false ∧ (s.chunks[i]?).isSome) := by
  induction flags generalizing rel n s' with
  | nil => exact ⟨rel, h, hnodup, hfree, fun i ↦ by simp⟩
  | cons f flags ih =>
    obtain ⟨b, i⟩ := f
    rw [List.map_cons, List.nodup_cons] at hflags
    obtain ⟨hnotin, hflags⟩ := hflags
    have hi : ∀ f ∈ flags, f.2 ≠ i := fun f hf heq ↦ hnotin (List.mem_map.mpr ⟨f, hf, heq⟩)
    have hold : ∀ f ∈ flags, f.2 ∉ rel := fun f hf ↦ hnew f (List.mem_cons_of_mem _ hf)
    have hir : i ∉ rel := hnew (b, i) List.mem_cons_self
    -- The flag changes nothing: it is off, or its chunk is missing or released.
    have hskip : releaseStep (n, s') (b, i) = (n, s') → ¬ (b = true ∧ s.isReleased i = false ∧ (s.chunks[i]?).isSome) →
        ∃ rel', ReleasedBy s rel' (((b, i) :: flags).foldl releaseStep (n, s')).2 ∧ rel'.Nodup ∧
          (∀ i ∈ rel', s.isReleased i = false) ∧
          ∀ j, j ∈ rel' ↔ j ∈ rel ∨ ((true, j) ∈ (b, i) :: flags ∧ s.isReleased j = false ∧ (s.chunks[j]?).isSome) := by
      intro hstep hoff
      obtain ⟨rel', h', hn', hf', hiff⟩ := ih (n := n) h hnodup hfree hflags hold
      refine ⟨rel', ?_, hn', hf', fun j ↦ ?_⟩
      · rw [List.foldl_cons, hstep]
        exact h'
      · rw [hiff, List.mem_cons]
        constructor
        · rintro (hj | ⟨hj, hrest⟩)
          · exact .inl hj
          · exact .inr ⟨.inr hj, hrest⟩
        · rintro (hj | ⟨hj | hj, hrest⟩)
          · exact .inl hj
          · cases hj
            exact absurd ⟨rfl, hrest⟩ hoff
          · exact .inr ⟨hj, hrest⟩
    cases b with
    | false => exact hskip rfl fun hoff ↦ Bool.false_ne_true hoff.1
    | true =>
      cases hc : s.chunks[i]? with
      | none =>
        refine hskip ?_ fun hoff ↦ ?_
        · rw [releaseStep, if_pos rfl]
          simp only [h.chunks, hc]
        · rw [hc] at hoff
          exact Bool.false_ne_true hoff.2.2
      | some c =>
        have hmask : s'.isReleased i = s.isReleased i := by
          rw [h.mask]
          simp [hir]
        cases hr : s.isReleased i with
        | true =>
          refine hskip ?_ fun hoff ↦ ?_
          · rw [releaseStep, if_pos rfl]
            simp only [h.chunks, hc, hmask, hr, if_true]
          · rw [hr] at hoff
            exact Bool.false_ne_true hoff.2.1.symm
        | false =>
          have hstep : releaseStep (n, s') (true, i) = (n + chunkBytes, s'.release i c) := by
            rw [releaseStep, if_pos rfl]
            simp only [h.chunks, hc, hmask, hr, Bool.false_eq_true, if_false]
          obtain ⟨rel', h', hn', hf', hiff⟩ := ih (n := n + chunkBytes) (h.release hc)
            (List.nodup_append.mpr ⟨hnodup, List.nodup_singleton i, fun j hj k hk ↦ by
              rw [List.mem_singleton.mp hk]
              exact fun heq ↦ hir (heq ▸ hj)⟩)
            (fun j hj ↦ by
              rcases List.mem_append.mp hj with hj | hj
              · exact hfree j hj
              · rw [List.mem_singleton.mp hj]
                exact hr)
            hflags
            (fun f hf hmem ↦ by
              rcases List.mem_append.mp hmem with hmem | hmem
              · exact hold f hf hmem
              · exact hi f hf (List.mem_singleton.mp hmem))
          refine ⟨rel', ?_, hn', hf', fun j ↦ ?_⟩
          · rw [List.foldl_cons, hstep]
            exact h'
          · rw [hiff, List.mem_append, List.mem_singleton, List.mem_cons]
            constructor
            · rintro ((hj | rfl) | ⟨hj, hrest⟩)
              · exact .inl hj
              · exact .inr ⟨.inl rfl, hr, by rw [hc]; rfl⟩
              · exact .inr ⟨.inr hj, hrest⟩
            · rintro (hj | ⟨hj | hj, hrest⟩)
              · exact .inl (.inl hj)
              · cases hj
                exact .inl (.inr rfl)
              · exact .inr ⟨hj, hrest⟩

theorem Inv.releaseChunks (h : Inv s out) (os : Os) {flags : List Bool}
    (hfree : ∀ i, flags[i]? = some true → s.isReleased i = false → s.AllFree i) :
    Inv (s.releaseChunks os flags).2 out := by
  rw [Slab.releaseChunks]
  split
  · exact h
  · have hidx : (flags.zipIdx.map Prod.snd).Nodup := by
      rw [List.zipIdx_map_snd]
      exact List.nodup_range'
    obtain ⟨rel, hrel, hnodup, hunreleased, hiff⟩ := foldl_releaseStep flags.zipIdx (n := 0) (releasedBy_nil s)
      List.nodup_nil (fun i hi ↦ (by cases hi)) hidx (fun f _ ↦ List.not_mem_nil)
    have hmem : ∀ i, (true, i) ∈ flags.zipIdx ↔ flags[i]? = some true := fun i ↦ List.mem_zipIdx_iff_getElem?
    generalize flags.zipIdx.foldl releaseStep (0, s) = st at hrel
    obtain ⟨bytes, s₁⟩ := st
    have hstarts : s₁.chunkStarts flags = s.chunkStarts flags := by
      rw [chunkStarts, chunkStarts, hrel.chunks]
    have hdrops := drops_retain (inChunks (s.chunkStarts flags)) s fun c ↦
      min c.lowWater (c.retain (inChunks (s.chunkStarts flags))).length
    have hfreeEq : s₁.free = s.free := hrel.free
    refine h.releasedBy hrel hnodup (fun i hi ↦ ⟨hunreleased i hi, ?_⟩) (inChunks (s.chunkStarts flags))
      (fun i c hc hr p hp ↦ ?_) ?_ rfl rfl rfl
    · rcases (hiff i).mp hi with hi | ⟨hi, hr, -⟩
      · cases hi
      · exact hfree i ((hmem i).mp hi) hr
    · rw [inChunks_iff h.apart flags hc (contains_of_mem_slots hp), hiff, hmem]
      constructor
      · intro hi
        exact .inr ⟨hi, hr, by rw [hc]; rfl⟩
      · rintro (hi | ⟨hi, -⟩)
        · cases hi
        · exact hi
    · refine ⟨fun p ↦ ?_, fun cls hcls ↦ ?_⟩
      · rw [← hdrops.count]
        simp only [freeCount, hstarts, hfreeEq]
      · simp only [hstarts, hfreeEq] at hcls
        exact hdrops.mem cls hcls

/-! ### `release_idle_chunks` -/

/-- A chunk in which as many free slots are found as it has slots is all free. -/
theorem Inv.allFree_of_idleFree (h : Inv s out) (budget : List (Key × ℕ)) {i : ℕ} {c : Chunk}
    (hc : s.chunks[i]? = some c) (hcount : s.idleFree budget i = c.slotCount) (hpos : s.idleFree budget i ≠ 0) :
    s.isReleased i = false ∧ s.AllFree i := by
  let listed := s.free.filter fun cls ↦ budget.any fun b ↦ b.1 = cls.key
  let found := (listed.flatMap FreeClass.slots).filter fun p ↦ chunkOf s.starts p = some i
  have hlength : found.length = c.slots.length := by
    rw [length_slots, ← hcount, idleFree, List.countP_eq_length_filter]
  have hfree : ∀ p ∈ found, (∃ cls ∈ s.free, p ∈ cls.slots) ∧ chunkOf s.starts p = some i := by
    intro p hp
    obtain ⟨hmem, hat⟩ := List.mem_filter.mp hp
    obtain ⟨cls, hcls, hpc⟩ := List.mem_flatMap.mp hmem
    exact ⟨⟨cls, (List.mem_filter.mp hcls).1, hpc⟩, of_decide_eq_true hat⟩
  have hall : (s.free.flatMap FreeClass.slots).Nodup := by
    refine List.nodup_iff_count_le_one.mpr fun p ↦ ?_
    show s.freeCount p ≤ 1
    by_cases hl : s.Live p
    · have := h.live p hl
      omega
    · have := h.dead p hl
      omega
  have hnodup : found.Nodup := by
    refine List.Nodup.filter _ (hall.sublist ?_)
    exact (List.filter_sublist).flatMap _
  have hslot : ∀ p ∈ found, p ∈ c.slots ∧ s.isReleased i = false := by
    intro p hp
    obtain ⟨⟨cls, hcls, hpc⟩, hat⟩ := hfree p hp
    obtain ⟨j, d, hd, hr, hpd⟩ := h.live_of_free hcls hpc
    have hj := chunkOf_eq h.apart hd (contains_of_mem_slots hpd)
    rw [hat] at hj
    cases hj
    rw [hc] at hd
    cases hd
    exact ⟨hpd, hr⟩
  have hperm : found.Perm c.slots :=
    (List.subperm_of_subset hnodup fun p hp ↦ (hslot p hp).1).perm_of_length_le hlength.ge
  constructor
  · obtain ⟨p, hp⟩ : ∃ p, p ∈ found := by
      refine List.exists_mem_of_length_pos ?_
      rw [hlength, length_slots, ← hcount]
      exact Nat.pos_of_ne_zero hpos
    exact (hslot p hp).2
  · intro d hd p hp
    rw [hc] at hd
    cases hd
    exact (hfree p (hperm.mem_iff.mpr hp)).1

theorem foldl_idleStep (freeSlots : ℕ → ℕ) (is : List ℕ) (scan : IdleScan)
    (h : ReleasedBy s scan.release scan.slab)
    (hnodup : (scan.release ++ is).Nodup) :
    ReleasedBy s (is.foldl (idleStep freeSlots) scan).release (is.foldl (idleStep freeSlots) scan).slab ∧
      (is.foldl (idleStep freeSlots) scan).release.Nodup ∧
      ∀ i ∈ (is.foldl (idleStep freeSlots) scan).release, i ∈ scan.release ∨
        ∃ c, s.chunks[i]? = some c ∧ freeSlots i = c.slotCount ∧ freeSlots i ≠ 0 := by
  induction is generalizing scan with
  | nil =>
    rw [List.append_nil] at hnodup
    exact ⟨h, hnodup, fun i hi ↦ .inl hi⟩
  | cons i is ih =>
    have hskip : (scan.release ++ is).Nodup :=
      hnodup.sublist (List.Sublist.append_left (List.sublist_cons_self i is) _)
    rw [List.foldl_cons]
    cases hc : s.chunks[i]? with
    | none =>
      have hstep : idleStep freeSlots scan i = scan := by
        rw [idleStep, h.chunks, hc]
      rw [hstep]
      exact ih scan h hskip
    | some c =>
      by_cases hoff : freeSlots i = 0 ∨ freeSlots i ≠ c.slotCount
      · have hstep : idleStep freeSlots scan i = scan := by
          rw [idleStep, h.chunks, hc]
          exact if_pos hoff
        rw [hstep]
        exact ih scan h hskip
      · cases hb : takeBudget c.key scan.budget with
        | none =>
          have hstep : idleStep freeSlots scan i = scan := by
            rw [idleStep, h.chunks, hc]
            dsimp only
            rw [if_neg hoff, hb]
          rw [hstep]
          exact ih scan h hskip
        | some budget =>
          have hstep : idleStep freeSlots scan i = ⟨scan.slab.release i c, budget, scan.release ++ [i]⟩ := by
            rw [idleStep, h.chunks, hc]
            dsimp only
            rw [if_neg hoff, hb]
          rw [hstep]
          have hassoc : scan.release ++ [i] ++ is = scan.release ++ i :: is := by simp
          obtain ⟨hrel, hn, hfrom⟩ := ih ⟨scan.slab.release i c, budget, scan.release ++ [i]⟩ (h.release hc)
            (hassoc ▸ hnodup)
          refine ⟨hrel, hn, fun j hj ↦ ?_⟩
          rcases hfrom j hj with hj | hj
          · rcases List.mem_append.mp hj with hj | hj
            · exact .inl hj
            · rw [List.mem_singleton.mp hj]
              rw [not_or, not_not] at hoff
              exact .inr ⟨c, hc, hoff.2, hoff.1⟩
          · exact .inr hj

theorem Inv.releaseIdle (h : Inv s out) (budget : List (Key × ℕ)) : Inv (s.releaseIdle budget).2 out := by
  obtain ⟨hrel, hnodup, hfrom⟩ := foldl_idleStep (s.idleFree budget) (List.range s.chunks.length)
    { slab := s, budget } (releasedBy_nil s) List.nodup_range
  rw [Slab.releaseIdle]
  generalize (List.range s.chunks.length).foldl (idleStep (s.idleFree budget)) { slab := s, budget } = scan at hrel hnodup hfrom ⊢
  obtain ⟨slab, left, release⟩ := scan
  dsimp only at hrel hnodup hfrom ⊢
  split
  · rename_i hnil
    subst hnil
    refine h.releasedBy hrel hnodup (fun i hi ↦ (by cases hi)) (fun _ ↦ false) (fun i c _ _ p _ ↦ by simp)
      ⟨fun p ↦ ?_, fun cls hcls ↦ ?_⟩ rfl rfl rfl
    · rw [freeCount, hrel.free]
      rfl
    · rw [hrel.free] at hcls
      exact ⟨cls, hcls, rfl, fun p hp ↦ hp⟩
  · have hdrops := drops_retain (fun p ↦ (chunkOf s.starts p).any (· ∈ release)) s fun c ↦
      (c.retain fun p ↦ (chunkOf s.starts p).any (· ∈ release)).length
    refine h.releasedBy hrel hnodup (fun i hi ↦ ?_) (fun p ↦ (chunkOf s.starts p).any (· ∈ release))
      (fun i c hc hr p hp ↦ ?_) ⟨fun p ↦ ?_, fun cls hcls ↦ ?_⟩ rfl rfl rfl
    · rcases hfrom i hi with hi | ⟨c, hc, hcount, hpos⟩
      · cases hi
      · exact h.allFree_of_idleFree budget hc hcount hpos
    · rw [chunkOf_eq h.apart hc (contains_of_mem_slots hp)]
      simp
    · rw [← hdrops.count]
      simp only [freeCount, hrel.free]
    · simp only [hrel.free] at hcls
      exact hdrops.mem cls hcls

theorem Inv.releaseIdleChunks (h : Inv s out) (os : Os) : Inv (s.releaseIdleChunks os).2 out := by
  have hcycles : Inv { s with cyclesSinceScan := s.cyclesSinceScan + 1 } out :=
    h.move ⟨rfl, rfl, rfl⟩ (fun _ ↦ rfl) h.own
  have hmarked : Inv { s with
      cyclesSinceScan := 0, free := s.free.map fun c ↦ { c with lowWater := c.slots.length } } out := by
    refine h.move ⟨rfl, rfl, rfl⟩ (fun p ↦ ?_) (fun cls hcls p hp ↦ ?_)
    · simp only [freeCount, List.flatMap_map]
    · obtain ⟨c, hc, rfl⟩ := List.mem_map.mp hcls
      exact h.own c hc p hp
  rw [Slab.releaseIdleChunks]
  dsimp only
  split
  · exact hcycles
  split
  · exact hmarked
  split
  · exact hmarked
  · exact hmarked.releaseIdle _

end CoilLang.Slab
