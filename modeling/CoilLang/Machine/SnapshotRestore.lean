import CoilLang.Machine.SnapshotCapture

/-!
# What a restore builds

Restoring allocates: the objects of the table first, then, while their words are written, the shared
objects the heap does not have yet. The addresses come from the allocator, so all that is known of
them is that **they are new, different and aligned**. A heap keeps its shared objects for good, so a
word can be read off the finished heap: `dec` is what a snapshot word stands for there.
-/

namespace CoilLang.Machine.Snapshot

/-! ### Shared objects -/

/-- The heap's shared object, if it has one. -/
def Heap.shared (h : Heap) : Single → Option ℕ
  | .unitEnum tag => h.unitEnums.lookup tag
  | .emptyTuple => h.emptyTuple

/-- What is assumed of the addresses of an allocator. -/
structure Allocator (addr : ℕ → ℕ) : Prop where
  inj : Function.Injective addr
  aligned : ∀ k, addr k % 2 = 0
  pos : ∀ k, addr k ≠ 0

/-- A heap whose next addresses are free and whose shared objects are what they should be. -/
structure Ready (addr : ℕ → ℕ) (h : Heap) : Prop where
  free : ∀ k, h.next ≤ k → h.find (addr k) = none
  valid : ∀ a o, h.find a = some o → a % 2 = 0 ∧ a ≠ 0
  shared : ∀ s a, h.shared s = some a → h.find a = some s.obj

/-- `h'` keeps the shared objects of `h`. -/
def Keeps (h h' : Heap) : Prop := ∀ s a, h.shared s = some a → h'.shared s = some a

theorem Keeps.trans {h h' h'' : Heap} (h₁ : Keeps h h') (h₂ : Keeps h' h'') : Keeps h h'' :=
  fun s a hs ↦ h₂ s a (h₁ s a hs)

/-- `h'` is `h` with more shared objects. -/
structure Shares (addr : ℕ → ℕ) (h h' : Heap) : Prop where
  ready : Ready addr h'
  keeps : Keeps h h'
  old : ∀ c o, h.find c = some o → h'.find c = some o
  new : ∀ c o, h'.find c = some o → h.find c = some o ∨ ∃ s, h'.shared s = some c
  fresh : ∀ s a, h'.shared s = some a → h.shared s = some a ∨ h.find a = none

section
variable {addr : ℕ → ℕ} {h h' h'' : Heap}

theorem Shares.refl (hr : Ready addr h) : Shares addr h h :=
  ⟨hr, fun _ _ ↦ id, fun _ _ ↦ id, fun _ _ ↦ .inl, fun _ _ ↦ .inl⟩

theorem Shares.trans (h₁ : Shares addr h h') (h₂ : Shares addr h' h'') : Shares addr h h'' := by
  refine ⟨h₂.ready, h₁.keeps.trans h₂.keeps, fun c o hc ↦ h₂.old c o (h₁.old c o hc), fun c o hc ↦ ?_,
    fun s a hs ↦ ?_⟩
  · rcases h₂.new c o hc with hc | hs
    · rcases h₁.new c o hc with hc | ⟨s, hs⟩
      · exact .inl hc
      · exact .inr ⟨s, h₂.keeps s c hs⟩
    · exact .inr hs
  · rcases h₂.fresh s a hs with hs | hnone
    · exact h₁.fresh s a hs
    · refine .inr ?_
      cases hc : h.find a with
      | none => rfl
      | some o =>
        rw [h₁.old a o hc] at hnone
        cases hnone

theorem find_insert (h : Heap) (a c : ℕ) (o : Obj) (n : ℕ) (us : AList fun _ : ℕ ↦ ℕ)
    (et : Option ℕ) : Heap.find ⟨h.objs.insert a o, h.classKinds, us, et, n⟩ c =
      if c = a then some o else h.find c := by
  unfold Heap.find
  split
  · rename_i hc
    rw [hc, AList.lookup_insert]
  · rename_i hc
    rw [AList.lookup_insert_ne hc]

/-- A new shared object. -/
theorem shares_alloc (ha : Allocator addr) (hr : Ready addr h) {s : Single} (hs : h.shared s = none)
    {us : AList fun _ : ℕ ↦ ℕ} {et : Option ℕ}
    (hself : Heap.shared ⟨h.objs.insert (addr h.next) s.obj, h.classKinds, us, et, h.next + 1⟩ s =
      some (addr h.next))
    (hother : ∀ t, t ≠ s →
      Heap.shared ⟨h.objs.insert (addr h.next) s.obj, h.classKinds, us, et, h.next + 1⟩ t = h.shared t) :
    Shares addr h ⟨h.objs.insert (addr h.next) s.obj, h.classKinds, us, et, h.next + 1⟩ := by
  have hfree := hr.free h.next le_rfl
  have hne : ∀ c o, h.find c = some o → c ≠ addr h.next := by
    rintro c o hc rfl
    rw [hfree] at hc
    cases hc
  refine ⟨⟨fun k hk ↦ ?_, fun c o hc ↦ ?_, fun t c ht ↦ ?_⟩, fun t c ht ↦ ?_, fun c o hc ↦ ?_,
    fun c o hc ↦ ?_, fun t c ht ↦ ?_⟩
  · have hk' : addr k ≠ addr h.next := fun heq ↦ by
      have := ha.inj heq
      simp only at hk
      omega
    rw [find_insert, if_neg hk']
    exact hr.free k (Nat.le_of_succ_le hk)
  · rw [find_insert] at hc
    split at hc
    · rename_i heq
      rw [heq]
      exact ⟨ha.aligned _, ha.pos _⟩
    · exact hr.valid c o hc
  · rw [find_insert]
    by_cases hts : t = s
    · subst hts
      rw [hself, Option.some.injEq] at ht
      rw [if_pos ht.symm]
    · rw [hother t hts] at ht
      have hc := hr.shared t c ht
      rw [if_neg (hne c _ hc), hc]
  · by_cases hts : t = s
    · rw [hts, hs] at ht
      cases ht
    · rw [hother t hts, ht]
  · rw [find_insert, if_neg (hne c o hc), hc]
  · rw [find_insert] at hc
    split at hc
    · rename_i heq
      exact .inr ⟨s, by rw [hself, heq]⟩
    · exact .inl hc
  · by_cases hts : t = s
    · rw [hts, hself, Option.some.injEq] at ht
      exact .inr (ht ▸ hfree)
    · exact .inl (hother t hts ▸ ht)

theorem immortalUnitEnum_spec (ha : Allocator addr) (hr : Ready addr h) (tag : ℕ) :
    Shares addr h (immortalUnitEnum addr h tag).2 ∧
      (immortalUnitEnum addr h tag).2.shared (.unitEnum tag) =
        some (immortalUnitEnum addr h tag).1 := by
  unfold immortalUnitEnum
  split
  · rename_i a hs
    exact ⟨.refl hr, hs⟩
  · rename_i hs
    have hself : (h.unitEnums.insert tag (addr h.next)).lookup tag = some (addr h.next) :=
      AList.lookup_insert _
    refine ⟨shares_alloc ha hr (s := .unitEnum tag) hs hself fun t ht ↦ ?_, hself⟩
    cases t with
    | unitEnum tag' =>
      have hne : tag' ≠ tag := fun heq ↦ ht (by rw [heq])
      exact AList.lookup_insert_ne hne
    | emptyTuple => rfl

theorem immortalEmptyTuple_spec (ha : Allocator addr) (hr : Ready addr h) :
    Shares addr h (immortalEmptyTuple addr h).2 ∧
      (immortalEmptyTuple addr h).2.shared .emptyTuple = some (immortalEmptyTuple addr h).1 := by
  unfold immortalEmptyTuple
  split
  · rename_i a hs
    exact ⟨.refl hr, hs⟩
  · rename_i hs
    refine ⟨shares_alloc ha hr (s := .emptyTuple) hs rfl fun t ht ↦ ?_, rfl⟩
    cases t with
    | unitEnum tag => rfl
    | emptyTuple => exact absurd rfl ht

/-! ### Words -/

/-- A snapshot word in a finished heap. -/
def dec (objects : List ℕ) (h : Heap) : SnapWord → ℕ
  | .raw v => v
  | .ref i e => objects.getD i 0 ||| e.toNat
  | .unitEnum tag e => (h.shared (.unitEnum tag)).getD 0 ||| e.toNat
  | .emptyTuple e => (h.shared .emptyTuple).getD 0 ||| e.toNat

/-- The singleton a snapshot word stands for. -/
def SnapWord.single? : SnapWord → Option Single
  | .unitEnum tag _ => some (.unitEnum tag)
  | .emptyTuple _ => some .emptyTuple
  | _ => none

theorem snapshotValue_spec (ha : Allocator addr) (hr : Ready addr h) (objects : List ℕ) (w : SnapWord) :
    Shares addr h (snapshotValue addr objects h w).2 ∧
      (∀ s, w.single? = some s → ((snapshotValue addr objects h w).2.shared s).isSome) ∧
      ∀ h'', Keeps (snapshotValue addr objects h w).2 h'' →
        (snapshotValue addr objects h w).1 = dec objects h'' w := by
  cases w with
  | raw v => exact ⟨.refl hr, fun _ hs ↦ (by cases hs), fun _ _ ↦ rfl⟩
  | ref i e => exact ⟨.refl hr, fun _ hs ↦ (by cases hs), fun _ _ ↦ rfl⟩
  | unitEnum tag e =>
    obtain ⟨hsh, hself⟩ := immortalUnitEnum_spec ha hr tag
    refine ⟨hsh, fun s hs ↦ ?_, fun h'' hk ↦ ?_⟩
    · cases hs
      exact Option.isSome_of_mem hself
    · simp only [snapshotValue, dec, hk _ _ hself, Option.getD_some]
  | emptyTuple e =>
    obtain ⟨hsh, hself⟩ := immortalEmptyTuple_spec ha hr
    refine ⟨hsh, fun s hs ↦ ?_, fun h'' hk ↦ ?_⟩
    · cases hs
      exact Option.isSome_of_mem hself
    · simp only [snapshotValue, dec, hk _ _ hself, Option.getD_some]

theorem Keeps.isSome (hk : Keeps h h') {s : Single} (hs : (h.shared s).isSome) :
    (h'.shared s).isSome := by
  obtain ⟨a, ha⟩ := Option.isSome_iff_exists.1 hs
  exact Option.isSome_of_mem (hk s a ha)

theorem snapshotValues_spec (ha : Allocator addr) (hr : Ready addr h) (objects : List ℕ)
    (ws : List SnapWord) :
    Shares addr h (snapshotValues addr objects h ws).2 ∧
      (∀ w ∈ ws, ∀ s, w.single? = some s →
        ((snapshotValues addr objects h ws).2.shared s).isSome) ∧
      ∀ h'', Keeps (snapshotValues addr objects h ws).2 h'' →
        (snapshotValues addr objects h ws).1 = ws.map (dec objects h'') := by
  induction ws generalizing h with
  | nil => exact ⟨.refl hr, fun _ hw ↦ (List.not_mem_nil hw).elim, fun _ _ ↦ rfl⟩
  | cons w ws ih =>
    obtain ⟨hsh, hsome, hdec⟩ := snapshotValue_spec ha hr objects w
    obtain ⟨hsh', hsome', hdec'⟩ := ih hsh.ready
    refine ⟨hsh.trans hsh', fun x hx s hs ↦ ?_, fun h'' hk ↦ ?_⟩
    · rcases List.mem_cons.1 hx with rfl | hx
      · exact hsh'.keeps.isSome (hsome s hs)
      · exact hsome' x hx s hs
    · rw [List.map_cons, ← hdec h'' (hsh'.keeps.trans hk), ← hdec' h'' hk]
      rfl

/-! ### Objects -/

/-- Allocating an object that is not shared. -/
theorem ready_alloc (ha : Allocator addr) (hr : Ready addr h) (o : Obj) :
    Ready addr (alloc addr h o).2 ∧ (alloc addr h o).2.find (addr h.next) = some o ∧
      ∀ c, c ≠ addr h.next → (alloc addr h o).2.find c = h.find c := by
  have hfind : ∀ c, (alloc addr h o).2.find c = if c = addr h.next then some o else h.find c :=
    fun c ↦ find_insert h (addr h.next) c o _ _ _
  refine ⟨⟨fun k hk ↦ ?_, fun c o' hc ↦ ?_, fun s c hs ↦ ?_⟩, by rw [hfind, if_pos rfl],
    fun c hc ↦ by rw [hfind, if_neg hc]⟩
  · have hle : h.next + 1 ≤ k := hk
    rw [hfind, if_neg fun heq ↦ by have := ha.inj heq; omega]
    exact hr.free k (by omega)
  · rw [hfind] at hc
    split at hc
    · rename_i heq
      rw [heq]
      exact ⟨ha.aligned _, ha.pos _⟩
    · exact hr.valid c o' hc
  · have hc := hr.shared s c hs
    rw [hfind, if_neg, hc]
    rintro rfl
    rw [hr.free h.next le_rfl] at hc
    cases hc

/-- The objects of the table are allocated: new addresses, all different. -/
structure Shelled (addr : ℕ → ℕ) (h : Heap) (as : List ℕ) (h' : Heap) : Prop where
  ready : Ready addr h'
  shared : h'.shared = h.shared
  nodup : as.Nodup
  free : ∀ a ∈ as, h.find a = none
  made : ∀ a ∈ as, (h'.find a).isSome
  old : ∀ c, c ∉ as → h'.find c = h.find c

theorem allocSnapshotShell_eq (h : Heap) (s : SnapObject) :
    ∃ o, allocSnapshotShell addr h s = alloc addr h o := by
  cases s with
  | boxed tag w => exact ⟨_, rfl⟩
  | _ => exact ⟨_, rfl⟩

theorem allocShells_spec (ha : Allocator addr) (hr : Ready addr h) (ss : List SnapObject) :
    Shelled addr h (allocShells addr h ss).1 (allocShells addr h ss).2 ∧
      (allocShells addr h ss).1.length = ss.length := by
  induction ss generalizing h with
  | nil =>
    exact ⟨⟨hr, rfl, List.nodup_nil, fun _ h ↦ (List.not_mem_nil h).elim,
      fun _ h ↦ (List.not_mem_nil h).elim, fun _ _ ↦ rfl⟩, rfl⟩
  | cons s ss ih =>
    obtain ⟨o, ho⟩ : ∃ o, allocSnapshotShell addr h s = alloc addr h o := allocSnapshotShell_eq h s
    obtain ⟨hr₁, hself, hother⟩ := ready_alloc ha hr o
    obtain ⟨hsh, hlen⟩ := ih hr₁
    have hfree : h.find (addr h.next) = none := hr.free h.next le_rfl
    have hnot : addr h.next ∉ (allocShells addr (alloc addr h o).2 ss).1 := fun hmem ↦ by
      have := hsh.free _ hmem
      rw [hself] at this
      cases this
    have hcons : allocShells addr h (s :: ss) =
        (addr h.next :: (allocShells addr (alloc addr h o).2 ss).1,
          (allocShells addr (alloc addr h o).2 ss).2) := by
      simp only [allocShells, ho]
      rfl
    rw [hcons]
    refine ⟨⟨hsh.ready, hsh.shared, List.nodup_cons.2 ⟨hnot, hsh.nodup⟩, fun a hmem ↦ ?_,
      fun a hmem ↦ ?_, fun c hc ↦ ?_⟩, by rw [List.length_cons, List.length_cons, hlen]⟩
    · rcases List.mem_cons.1 hmem with rfl | hmem
      · exact hfree
      · have hne : a ≠ addr h.next := fun heq ↦ hnot (heq ▸ hmem)
        rw [← hother a hne]
        exact hsh.free a hmem
    · rcases List.mem_cons.1 hmem with rfl | hmem
      · rw [hsh.old _ hnot, hself]
        rfl
      · exact hsh.made a hmem
    · rw [List.mem_cons, not_or] at hc
      rw [hsh.old c hc.2, hother c hc.1]

/-- The shared objects are not in the table. -/
def Apart (h : Heap) (as : List ℕ) : Prop := ∀ s a, h.shared s = some a → a ∉ as

theorem Shares.apart (hsh : Shares addr h h') {as : List ℕ} (hap : Apart h as)
    (hmade : ∀ a ∈ as, (h.find a).isSome) : Apart h' as := by
  intro s a hs hmem
  rcases hsh.fresh s a hs with hs | hnone
  · exact hap s a hs hmem
  · have := hmade a hmem
    rw [hnone] at this
    cases this

/-- `h'` is `h` with the objects of `pairs` written, and more shared objects. -/
structure Filled (addr : ℕ → ℕ) (objects : List ℕ) (h : Heap) (pairs : List (ℕ × SnapObject))
    (h' : Heap) : Prop where
  ready : Ready addr h'
  keeps : Keeps h h'
  apart : Apart h' objects
  made : ∀ a ∈ objects, (h'.find a).isSome
  old : ∀ c o, c ∉ pairs.map Prod.fst → h.find c = some o → h'.find c = some o
  new : ∀ c o, h'.find c = some o → (h.find c).isSome ∨ ∃ s, h'.shared s = some c
  singles : ∀ p ∈ pairs, ∀ w ∈ p.2.words, ∀ s, w.single? = some s → (h'.shared s).isSome
  built : ∀ p ∈ pairs, ∀ h'', Keeps h' h'' →
    h'.find p.1 = some (p.2.build (p.2.words.map (dec objects h'')))

theorem fill_spec (ha : Allocator addr) {objects : List ℕ} (hr : Ready addr h) (hap : Apart h objects)
    (hmade : ∀ a ∈ objects, (h.find a).isSome) {a : ℕ} (hmem : a ∈ objects) (s : SnapObject) :
    Filled addr objects h [(a, s)] (fill addr objects h a s) := by
  obtain ⟨hsh, hsome, hdec⟩ := snapshotValues_spec ha hr objects s.words
  set h₁ := (snapshotValues addr objects h s.words).2 with hh₁
  set vs := (snapshotValues addr objects h s.words).1 with hvs
  have hap₁ := hsh.apart hap hmade
  have hfind : ∀ c, (fill addr objects h a s).find c =
      if c = a then some (s.build vs) else h₁.find c := fun c ↦ find_insert h₁ a c _ _ _ _
  have hshared : (fill addr objects h a s).shared = h₁.shared := rfl
  obtain ⟨o, ho⟩ := Option.isSome_iff_exists.1 (hmade a hmem)
  have ho₁ := hsh.old a o ho
  refine ⟨⟨fun k hk ↦ ?_, fun c o' hc ↦ ?_, fun t c ht ↦ ?_⟩, hsh.keeps, hap₁, fun b hb ↦ ?_,
    fun c o' hc hold ↦ ?_, fun c o' hc ↦ ?_, fun p hp ↦ ?_, fun p hp h'' hk ↦ ?_⟩
  · have hfree := hsh.ready.free k hk
    rw [hfind, if_neg, hfree]
    rintro rfl
    rw [ho₁] at hfree
    cases hfree
  · rw [hfind] at hc
    split at hc
    · rename_i heq
      rw [heq]
      exact hsh.ready.valid a o ho₁
    · exact hsh.ready.valid c o' hc
  · have hne : c ≠ a := by
      rintro rfl
      exact hap₁ t c ht hmem
    rw [hfind, if_neg hne]
    exact hsh.ready.shared t c ht
  · rw [hfind]
    split
    · rfl
    · obtain ⟨ob, hob⟩ := Option.isSome_iff_exists.1 (hmade b hb)
      rw [hsh.old b ob hob]
      rfl
  · rw [hfind, if_neg (by simpa using hc)]
    exact hsh.old c o' hold
  · rw [hfind] at hc
    split at hc
    · rename_i heq
      rw [heq]
      exact .inl (hmade a hmem)
    · rcases hsh.new c o' hc with hc | hs
      · exact .inl (Option.isSome_of_mem hc)
      · exact .inr hs
  · rw [List.mem_singleton.1 hp]
    exact hsome
  · rw [List.mem_singleton.1 hp, hfind, if_pos rfl, hdec h'' hk]

theorem foldl_fill_spec (ha : Allocator addr) {objects : List ℕ} (hr : Ready addr h)
    (hap : Apart h objects) (hmade : ∀ a ∈ objects, (h.find a).isSome)
    {pairs : List (ℕ × SnapObject)} (hpairs : ∀ p ∈ pairs, p.1 ∈ objects)
    (hnd : (pairs.map Prod.fst).Nodup) :
    Filled addr objects h pairs (pairs.foldl (fun h p ↦ fill addr objects h p.1 p.2) h) := by
  induction pairs generalizing h with
  | nil =>
    exact ⟨hr, fun _ _ ↦ id, hap, hmade, fun _ _ _ ↦ id, fun _ _ hc ↦ .inl (Option.isSome_of_mem hc),
      fun _ hp ↦ (List.not_mem_nil hp).elim, fun _ hp ↦ (List.not_mem_nil hp).elim⟩
  | cons p pairs ih =>
    obtain ⟨hp, hnd⟩ := List.nodup_cons.1 hnd
    have h₁ := fill_spec ha hr hap hmade (hpairs p (by simp)) p.2
    have h₂ := ih h₁.ready h₁.apart h₁.made (fun q hq ↦ hpairs q (by simp [hq])) hnd
    refine ⟨h₂.ready, h₁.keeps.trans h₂.keeps, h₂.apart, h₂.made, fun c o hc hold ↦ ?_,
      fun c o hc ↦ ?_, fun q hq w hw s hs ↦ ?_, fun q hq h'' hk ↦ ?_⟩
    · rw [List.map_cons, List.mem_cons, not_or] at hc
      exact h₂.old c o hc.2 (h₁.old c o (by simpa using hc.1) hold)
    · rcases h₂.new c o hc with hc | hs
      · obtain ⟨o', ho'⟩ := Option.isSome_iff_exists.1 hc
        rcases h₁.new c o' ho' with hc | ⟨s, hs⟩
        · exact .inl hc
        · exact .inr ⟨s, h₂.keeps s c hs⟩
      · exact .inr hs
    · rcases List.mem_cons.1 hq with rfl | hq
      · exact h₂.keeps.isSome (h₁.singles q (by simp) w hw s hs)
      · exact h₂.singles q hq w hw s hs
    · rcases List.mem_cons.1 hq with rfl | hq
      -- what was written stays, since the later objects are other ones
      · exact h₂.old _ _ hp (h₁.built q (by simp) h'' (h₂.keeps.trans hk))
      · exact h₂.built q hq h'' hk

/-! ### Restoring -/

/-- **What a restore builds**: the objects of the table at new addresses, with the words that the
finished heap gives. -/
structure Restored (addr : ℕ → ℕ) (h : Heap) (snap : HeapSnapshot) (objects : List ℕ) (h' : Heap) :
    Prop where
  ready : Ready addr h'
  nodup : objects.Nodup
  length : objects.length = snap.objects.length
  free : ∀ a ∈ objects, h.find a = none
  apart : Apart h' objects
  old : ∀ c o, h.find c = some o → h'.find c = some o
  new : ∀ c o, h'.find c = some o → (h.find c).isSome ∨ c ∈ objects ∨ ∃ s, h'.shared s = some c
  singles : ∀ s ∈ snap.objects, ∀ w ∈ s.words, ∀ t, w.single? = some t → (h'.shared t).isSome
  roots : ∀ p ∈ snap.statics, ∀ t, p.2.single? = some t → (h'.shared t).isSome
  built : ∀ (i : ℕ) a s, objects[i]? = some a → snap.objects[i]? = some s →
    h'.find a = some (s.build (s.words.map (dec objects h')))

theorem restore_spec (ha : Allocator addr) (hr : Ready addr h) (snap : HeapSnapshot) :
    ∃ objects, Restored addr h snap objects (restoreSnapshot addr h snap).2 ∧
      (restoreSnapshot addr h snap).1 = snap.statics.map fun p ↦
        (p.1, dec objects (restoreSnapshot addr h snap).2 p.2) := by
  obtain ⟨hsh, hlen⟩ := allocShells_spec ha hr snap.objects
  set objects := (allocShells addr h snap.objects).1 with hobjects
  set h₁ := (allocShells addr h snap.objects).2 with hh₁
  have hap₁ : Apart h₁ objects := by
    intro s a hs hmem
    rw [hsh.shared] at hs
    have hfind := hr.shared s a hs
    rw [hsh.free a hmem] at hfind
    cases hfind
  have hfst : (objects.zip snap.objects).map Prod.fst = objects := List.map_fst_zip (Nat.le_of_eq hlen)
  have hfill := foldl_fill_spec ha hsh.ready hap₁ hsh.made
    (fun p (hp : p ∈ objects.zip snap.objects) ↦ (List.of_mem_zip hp).1) (by rw [hfst]; exact hsh.nodup)
  set h₂ := (objects.zip snap.objects).foldl (fun h p ↦ fill addr objects h p.1 p.2) h₁ with hh₂
  obtain ⟨hsh₃, hsome₃, hdec₃⟩ := snapshotValues_spec ha hfill.ready objects
    (snap.statics.map Prod.snd)
  set h₃ := (snapshotValues addr objects h₂ (snap.statics.map Prod.snd)).2 with hh₃
  have hres : restoreSnapshot addr h snap = ((snap.statics.map Prod.fst).zip
      (snapshotValues addr objects h₂ (snap.statics.map Prod.snd)).1, h₃) := rfl
  rw [hres]
  refine ⟨objects, ⟨hsh₃.ready, hsh.nodup, hlen, hsh.free, hsh₃.apart hfill.apart hfill.made,
    fun c o hc ↦ ?_, fun c o hc ↦ ?_, fun s hs w hw t ht ↦ ?_, fun p hp t ht ↦ ?_,
    fun i a s hi hs ↦ ?_⟩, ?_⟩
  · have hnot : c ∉ objects := fun hmem ↦ by
      rw [hsh.free c hmem] at hc
      cases hc
    refine hsh₃.old c o (hfill.old c o (by rwa [hfst]) ?_)
    rw [hsh.old c hnot, hc]
  · rcases hsh₃.new c o hc with hc | hs
    · rcases hfill.new c o hc with hc | ⟨s, hs⟩
      · by_cases hmem : c ∈ objects
        · exact .inr (.inl hmem)
        · rw [hsh.old c hmem] at hc
          exact .inl hc
      · exact .inr (.inr ⟨s, hsh₃.keeps s c hs⟩)
    · exact .inr (.inr hs)
  · obtain ⟨i, hi⟩ := List.mem_iff_getElem?.1 hs
    have hlt : i < objects.length := hlen ▸ (List.getElem?_eq_some_iff.1 hi).1
    have hpair : (objects[i], s) ∈ objects.zip snap.objects :=
      List.mem_of_getElem? (List.getElem?_zip_eq_some.2 ⟨List.getElem?_eq_getElem hlt, hi⟩)
    exact hsh₃.keeps.isSome (hfill.singles _ hpair w hw t ht)
  · exact hsome₃ p.2 (List.mem_map_of_mem hp) t ht
  · have hpair : (a, s) ∈ objects.zip snap.objects :=
      List.mem_of_getElem? (List.getElem?_zip_eq_some.2 ⟨hi, hs⟩)
    exact hsh₃.old _ _ (hfill.built _ hpair h₃ hsh₃.keeps)
  · simp only
    rw [hdec₃ h₃ fun _ _ ↦ id, List.map_map, List.zip_map']
    rfl

end

end CoilLang.Machine.Snapshot
