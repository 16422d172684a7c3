import CoilLang.Machine.GcMark
import CoilLang.Machine.GcObject
import CoilLang.Machine.GcSweep

/-!
# The heap inside the heap that never frees

`Embeds A h ρ L` says how the heap `h` stands for the ideal heap `A`: the objects of the ids `L` are in `h`, the
object of `id` at the address `ρ id`, with addresses for references, and `h` has no other objects. What the program
holds is in `L`, and **the objects that an open sweep lets through are closed under references**, so that nothing
the program comes to hold is freed. Ids outside `L` were freed; their objects are in `A` only.
-/

namespace CoilLang.Gc

open Machine.Snapshot (WordKind heapAddr)

/-- The bits of a word, where the object `id` is at `ρ id`. -/
def IWord.bits (ρ : ℕ → ℕ) : IWord → ℕ
  | .imm n => n
  | .ref id err => ρ id + err.toNat

theorem heapAddr_add {a : ℕ} (ha : 2 ∣ a) (err : Bool) : heapAddr (a + err.toNat) = a := by
  rw [heapAddr]
  cases err <;> simp only [Bool.toNat_false, Bool.toNat_true] <;> omega

/-- Objects that an open sweep keeps: it visited them already, or they are marked or fresh. -/
def Heap.Spared (h : Heap) (a : ℕ) : Prop := h.Ahead a → ∃ c, h.cells a = some c ∧ (c.marked || c.fresh) = true

/-- What the tables of the heap say. -/
def Heap.tables (h : Heap) : (ℕ → List WordKind) × List ℕ × List (Immortal × ℕ) × List ℕ × List ℕ :=
  (h.classKinds, h.finalizerTypes, h.immortals, h.strings, h.weaks)

structure Embeds (A : Ideal) (h : Heap) (ρ : ℕ → ℕ) (L : ℕ → Prop) : Prop where
  ok : h.Ok
  gray : h.gray = []
  kinds : h.classKinds = A.classKinds
  types : h.finalizerTypes = A.finalizerTypes
  immortals : h.immortals = A.immortals.map (Prod.map id ρ)
  strings : h.strings = A.interned.map ρ
  below : ∀ id o, A.objs id = some o → id < A.next ∧ ∀ id' err, IWord.ref id' err ∈ o.atoms → id' < A.next
  kinded : ∀ id o, A.objs id = some o → A.wellKinded o = true
  texts : ∀ id ∈ A.interned, ∃ s, A.objs id = some (.string s)
  cell : ∀ id, L id → ∃ o c, A.objs id = some o ∧ h.cells (ρ id) = some c ∧ c.obj = o.map (IWord.bits ρ) ∧
    (c.mayHoldRefs = false → o.elements?.isSome = true → ∀ w ∈ o.words, w.isRef = false)
  inj : ∀ id id', L id → L id' → ρ id = ρ id' → id = id'
  onto : ∀ a, (h.cells a).isSome = true → ∃ id, L id ∧ ρ id = a
  held : ∀ id, A.Strong id ∨ id ∈ A.interned → L id ∧ h.Spared (ρ id)
  closed : ∀ id id', L id ∧ h.Spared (ρ id) → A.Child id id' ∨ A.WeakChild id id' → L id' ∧ h.Spared (ρ id')
  weaks : ∀ id target, L id → A.objs id = some (.weak target false) → ρ id ∈ h.weaks
  unswept : h.phase ≠ .sweeping → h.cursor = none ∧ ∀ a c, h.cells a = some c → c.fresh = false
  swept : h.phase = .sweeping → ∀ a c, h.cells a = some c → ¬ h.Ahead a → c.marked = false ∧ c.fresh = false

variable {A A' : Ideal} {h h' : Heap} {ρ : ℕ → ℕ} {L : ℕ → Prop} {id id' : ℕ}

namespace Ideal

theorem isString_mono (hobjs : ∀ id s, A.objs id = some (.string s) → A'.objs id = some (.string s)) {w : IWord}
    (hw : A.isString w = true) : A'.isString w = true := by
  cases w with
  | imm => cases hw
  | ref id err =>
    rw [isString] at hw ⊢
    split at hw
    · rename_i s hs
      rw [hobjs id s hs]
    · cases hw

theorem wellKinded_mono (hkinds : A'.classKinds = A.classKinds)
    (hobjs : ∀ id s, A.objs id = some (.string s) → A'.objs id = some (.string s)) {o : Object IWord}
    (ho : A.wellKinded o = true) : A'.wellKinded o = true := by
  rw [wellKinded, Bool.and_eq_true, List.all_eq_true, List.all_eq_true] at ho ⊢
  rw [hkinds]
  refine ⟨ho.1, fun i hi ↦ ?_⟩
  have := ho.2 i hi
  rw [Bool.or_eq_true] at this ⊢
  exact this.imp_right (isString_mono hobjs)

/-- References are where marking looks for them. -/
theorem mem_scan_of_wellKinded {o : Object IWord} (ho : A.wellKinded o = true) {err : Bool}
    (hw : IWord.ref id err ∈ o.words) : ∃ b, (b, IWord.ref id err) ∈ o.scan A.classKinds true := by
  rw [wellKinded, Bool.and_eq_true, List.all_eq_true] at ho
  have := ho.1 _ hw
  rw [IWord.isRef, Bool.not_true, Bool.false_or, decide_eq_true_eq] at this
  obtain ⟨⟨b, w⟩, hmem, rfl⟩ := List.mem_map.mp this
  exact ⟨b, hmem⟩

/-- Keys are strings. -/
theorem isString_of_mem_scan {o : Object IWord} (ho : A.wellKinded o = true) {w : IWord}
    (hw : (false, w) ∈ o.scan A.classKinds true) : A.isString w = true := by
  rw [wellKinded, Bool.and_eq_true, List.all_eq_true, List.all_eq_true] at ho
  have := ho.2 _ hw
  rwa [Bool.false_or] at this

end Ideal

/-! ### Looking up -/

namespace Embeds

theorem isSome (hE : Embeds A h ρ L) (hid : L id) : (h.cells (ρ id)).isSome = true := by
  obtain ⟨o, c, -, hc, -⟩ := hE.cell id hid
  rw [hc]
  rfl

theorem addr (hE : Embeds A h ρ L) (hid : L id) (err : Bool) : heapAddr ((IWord.ref id err).bits ρ) = ρ id :=
  heapAddr_add (hE.ok.address (hE.isSome hid)).2 err

/-- A reference is looked up as the object it refers to. -/
theorem find_ref (hE : Embeds A h ρ L) (hid : L id) (err : Bool) :
    h.find (heapAddr ((IWord.ref id err).bits ρ)) = h.cells (ρ id) := by
  rw [hE.addr hid, hE.ok.find_eq]

theorem lt_next (hE : Embeds A h ρ L) (hid : L id) : id < A.next := by
  obtain ⟨o, -, ho, -⟩ := hE.cell id hid
  exact (hE.below id o ho).1

theorem cell_of (hE : Embeds A h ρ L) (hid : L id) {o : Object IWord} (ho : A.objs id = some o) :
    ∃ c, h.cells (ρ id) = some c ∧ c.obj = o.map (IWord.bits ρ) ∧
      (c.mayHoldRefs = false → o.elements?.isSome = true → ∀ w ∈ o.words, w.isRef = false) := by
  obtain ⟨o', c, ho', hmore⟩ := hE.cell id hid
  rw [ho] at ho'
  cases ho'
  exact ⟨c, hmore⟩

/-- The object at the address of an id. -/
theorem obj_of (hE : Embeds A h ρ L) (hid : L id) {c : Cell} (hc : h.cells (ρ id) = some c) :
    ∃ o, A.objs id = some o ∧ c.obj = o.map (IWord.bits ρ) ∧
      (c.mayHoldRefs = false → o.elements?.isSome = true → ∀ w ∈ o.words, w.isRef = false) := by
  obtain ⟨o, c', ho, hc', hmore⟩ := hE.cell id hid
  rw [hc] at hc'
  cases hc'
  exact ⟨o, ho, hmore⟩

/-- Outside a sweep all of the heap is kept. -/
theorem spared (hE : Embeds A h ρ L) (hphase : h.phase ≠ .sweeping) (a : ℕ) : h.Spared a :=
  fun hahead ↦ absurd hahead (Heap.not_ahead_of_none (hE.unswept hphase).1)

/-- Two words have the same bits only if they are the same, unless one is an immediate. -/
theorem bits_inj (hE : Embeds A h ρ L) (hid : L id) (hid' : L id') {err err' : Bool} :
    (IWord.ref id err).bits ρ = (IWord.ref id' err').bits ρ ↔ IWord.ref id err = .ref id' err' := by
  refine ⟨fun heq ↦ ?_, fun heq ↦ heq ▸ rfl⟩
  have haddr : ρ id = ρ id' := by rw [← hE.addr hid err, heq, hE.addr hid']
  cases hE.inj id id' hid hid' haddr
  have : err.toNat = err'.toNat := Nat.add_left_cancel heq
  cases err <;> cases err' <;> first | rfl | cases this

/-! ### Other heaps -/

/-- The heap may change in marks, tags and notes. -/
theorem congr (hE : Embeds A h ρ L) (hok : h'.Ok) (hgray : h'.gray = []) (htables : h'.tables = h.tables)
    (hsome : ∀ a, (h'.cells a).isSome = true → (h.cells a).isSome = true)
    (hcell : ∀ id c, L id → h.cells (ρ id) = some c → ∃ c', h'.cells (ρ id) = some c' ∧ c'.obj = c.obj ∧
      (c'.mayHoldRefs = false → c.mayHoldRefs = false ∨ ∀ id', ¬ A.Child id id'))
    (hspared : ∀ id, L id → (h'.Spared (ρ id) ↔ h.Spared (ρ id)))
    (hunswept : h'.phase ≠ .sweeping → h'.cursor = none ∧ ∀ a c, h'.cells a = some c → c.fresh = false)
    (hswept : h'.phase = .sweeping → ∀ a c, h'.cells a = some c → ¬ h'.Ahead a → c.marked = false ∧ c.fresh = false) :
    Embeds A h' ρ L := by
  obtain ⟨hkinds, htypes, himmortals, hstrings, hweaks⟩ :
      h'.classKinds = h.classKinds ∧ h'.finalizerTypes = h.finalizerTypes ∧ h'.immortals = h.immortals ∧
        h'.strings = h.strings ∧ h'.weaks = h.weaks := by
    simpa [Heap.tables] using htables
  refine { hE with
    ok := hok
    gray := hgray
    kinds := hkinds.trans hE.kinds
    types := htypes.trans hE.types
    immortals := himmortals.trans hE.immortals
    strings := hstrings.trans hE.strings
    cell := fun id hid ↦ ?_
    onto := fun a ha ↦ hE.onto a (hsome a ha)
    held := fun id hid ↦ ?_
    closed := fun id id' hid hchild ↦ ?_
    weaks := fun id target hid ho ↦ hweaks ▸ hE.weaks id target hid ho
    unswept := hunswept
    swept := hswept }
  · obtain ⟨o, c, ho, hc, hobj, hflag⟩ := hE.cell id hid
    obtain ⟨c', hc', hobj', hflag'⟩ := hcell id c hid hc
    refine ⟨o, c', ho, hc', hobj'.trans hobj, fun hfalse helems w hw ↦ ?_⟩
    rcases hflag' hfalse with hold | hnone
    · exact hflag hold helems w hw
    · cases w with
      | imm => rfl
      | ref id' err => exact absurd ⟨o, err, ho, hw⟩ (hnone id')
  · obtain ⟨hlive, hsp⟩ := hE.held id hid
    exact ⟨hlive, (hspared id hlive).mpr hsp⟩
  · obtain ⟨hlive, hsp⟩ := hE.closed id id' ⟨hid.1, (hspared id hid.1).mp hid.2⟩ hchild
    exact ⟨hlive, (hspared id' hlive).mpr hsp⟩

end Embeds

/-! ### Marking -/

/-- The references of the ideal heap between objects of the heap. -/
def Edge (A : Ideal) (ρ : ℕ → ℕ) (L : ℕ → Prop) (a b : ℕ) : Prop := ∃ id id', L id ∧ A.Child id id' ∧ ρ id = a ∧
    ρ id' = b

/-- No marked object refers to an unmarked one. -/
def Shaded (A : Ideal) (h : Heap) (ρ : ℕ → ℕ) (L : ℕ → Prop) : Prop :=
  ∀ id id', L id → h.isMarked (ρ id) = true → A.Child id id' → h.isMarked (ρ id') = true

namespace Embeds

/-- A reference is an item of the object that has it. -/
theorem resolve_ref (hE : Embeds A h ρ L) (hid : L id) (b err : Bool) :
    h.resolve (b, (IWord.ref id err).bits ρ) = some (b, ρ id) := by
  rw [Heap.resolve, hE.find_ref hid, if_pos (hE.isSome hid), hE.addr hid]

theorem cover (hE : Embeds A h ρ L) (hphase : h.phase ≠ .sweeping) (hid : L id) (hchild : A.Child id id') :
    Tricolour.Next h.items (ρ id) (ρ id') := by
  have hid' := (hE.closed id id' ⟨hid, hE.spared hphase _⟩ (.inl hchild)).1
  obtain ⟨o, err, ho, hw⟩ := hchild
  obtain ⟨c, hc, hobj, hflag⟩ := hE.cell_of hid ho
  have hscan : o.scan A.classKinds c.mayHoldRefs = o.scan A.classKinds true := by
    refine o.scan_flag _ _ fun hfalse ↦ ?_
    cases helems : o.elements? with
    | none => rfl
    | some => exact absurd (hflag hfalse (by rw [helems]; rfl) _ hw) (by simp [IWord.isRef])
  obtain ⟨b, hb⟩ := Ideal.mem_scan_of_wellKinded (hE.kinded id o ho) hw
  refine ⟨(b, ρ id'), ?_, rfl⟩
  rw [Heap.items_of_some hc, hobj, hE.kinds, Object.scan_map, hscan]
  exact List.mem_filterMap.mpr ⟨_, List.mem_map.mpr ⟨_, hb, rfl⟩, hE.resolve_ref hid' b err⟩

/-- What is marked only is a string, and has no references. -/
theorem leaves (hE : Embeds A h ρ L) (hphase : h.phase ≠ .sweeping) (a : ℕ) :
    Tricolour.Leaves (Edge A ρ L) (h.items a) := by
  rintro k hk b ⟨id, id', hid, hchild, rfl, -⟩
  cases hc : h.cells a with
  | none =>
    rw [Heap.items_of_none hc] at hk
    cases hk
  | some c =>
    obtain ⟨key, hkey, rfl⟩ := hE.onto a (Option.isSome_iff_exists.mpr ⟨c, hc⟩)
    obtain ⟨o, ho, hobj, -⟩ := hE.obj_of hkey hc
    rw [Heap.items_of_some hc, hobj, hE.kinds, Object.scan_map] at hk
    obtain ⟨i, hi, hres⟩ := List.mem_filterMap.mp hk
    obtain ⟨⟨b', w⟩, hw, rfl⟩ := List.mem_map.mp hi
    rw [Heap.resolve] at hres
    split at hres
    · obtain ⟨rfl, haddr⟩ := Prod.mk.inj (Option.some.inj hres)
      have hscan : (false, w) ∈ o.scan A.classKinds true := by
        cases hflag : c.mayHoldRefs with
        | true =>
          rw [hflag] at hw
          exact hw
        | false =>
          rw [hflag] at hw
          cases o with
          | array => cases hw
          | _ => exact hw
      have hstring := Ideal.isString_of_mem_scan (hE.kinded key o ho) hscan
      cases w with
      | imm => cases hstring
      | ref text err =>
        have htext := (hE.closed key text ⟨hkey, hE.spared hphase _⟩
          (.inl ⟨o, err, ho, Object.mem_words_of_mem_scan hscan⟩)).1
        cases hE.inj text id htext hid ((hE.addr htext err).symm.trans haddr)
        obtain ⟨o', _, ho', hmem⟩ := hchild
        rw [Ideal.isString, ho'] at hstring
        cases o' with
        | string => cases hmem
        | _ => cases hstring
    · cases hres

theorem marked (hE : Embeds A h ρ L) (hphase : h.phase ≠ .sweeping) (hm : Heap.Marked h h') (hgray : h'.gray = []) :
    Embeds A h' ρ L := by
  have hcursor : h'.cursor = none := hm.cursor.trans (hE.unswept hphase).1
  refine hE.congr (hm.ok hE.ok) hgray (by rw [hm.rest]; rfl) (fun a ha ↦ hm.isSome a ▸ ha) (fun id c hid hc ↦ ?_)
    (fun id hid ↦ ⟨fun _ ↦ hE.spared hphase _, fun _ hahead ↦ absurd hahead (Heap.not_ahead_of_none hcursor)⟩)
    (fun _ ↦ ⟨hcursor, fun a c' hc' ↦ ?_⟩) fun hsweeping ↦ absurd (hm.phase.symm.trans hsweeping) hphase
  · obtain ⟨c', hc', hobj, -⟩ := hm.cell' hc
    refine ⟨c', hc', hobj, fun hfalse ↦ ?_⟩
    rcases hm.clean _ c' hc' hfalse with ⟨d, hd, hflag⟩ | hitems
    · rw [hc] at hd
      cases hd
      exact .inl hflag
    · refine .inr fun id' hchild ↦ ?_
      obtain ⟨i, hi, -⟩ := hE.cover hphase hid hchild
      rw [hitems] at hi
      cases hi
  · obtain ⟨c, hc, -, hfresh⟩ := hm.cell hc'
    exact hfresh.trans ((hE.unswept hphase).2 a c hc)

theorem inv_marks (hE : Embeds A h ρ L) (hshaded : Shaded A h ρ L) : Tricolour.Inv (Edge A ρ L) h.marks where
  gray a ha := by
    rw [show h.marks.gray = [] from hE.gray] at ha
    cases ha
  scanned := by
    rintro - ha - - ⟨id, id', hid, hchild, rfl, rfl⟩
    exact hshaded id id' hid ha hchild

/-- Marking from the words `roots` of a heap without an open sweep. -/
theorem drain (hE : Embeds A h ρ L) (hphase : h.phase ≠ .sweeping) {h₁ : Heap} (hm : Heap.Marked h h₁)
    (hinv : Tricolour.Inv (Edge A ρ L) h₁.marks) :
    Embeds A h₁.drain ρ L ∧ Heap.Marked h h₁.drain ∧ Shaded A h₁.drain ρ L ∧
      ∀ a, h₁.isMarked a = true → h₁.drain.isMarked a = true := by
  have hs := hm.inSlots hE.ok.inSlots
  obtain ⟨hm', hgray, -⟩ := Heap.drain_spec hs
  obtain ⟨hkeep, hclosed, -⟩ := Heap.drain_marks (Edge A ρ L) hs
    (by
      rintro - - ⟨id, id', hid, hchild, rfl, rfl⟩
      rw [hm.items]
      exact hE.cover hphase hid hchild)
    (by rw [hm.items]; exact hE.leaves hphase) hinv
  exact ⟨hE.marked hphase (hm.trans hm') hgray, hm.trans hm', fun id id' hid ha hchild ↦
    hclosed _ ha _ ⟨id, id', hid, hchild, rfl, rfl⟩, hkeep⟩

/-- Marking the roots and draining the gray list. -/
theorem remark (hE : Embeds A h ρ L) (hphase : h.phase ≠ .sweeping) (hshaded : Shaded A h ρ L) (roots : List ℕ) :
    Embeds A (h.remarkRoots roots).drain ρ L ∧ Heap.Marked h (h.remarkRoots roots).drain ∧
      Shaded A (h.remarkRoots roots).drain ρ L ∧
      ∀ a, h.isMarked a = true ∨ h.IsRoot roots a → (h.remarkRoots roots).drain.isMarked a = true := by
  obtain ⟨hm, hmarks⟩ := Heap.remarkRoots_spec h roots
  obtain ⟨hE', hm', hshaded', hkeep⟩ := hE.drain hphase hm
    (hmarks ▸ (hE.inv_marks hshaded).visits (Heap.leaves_roots h roots))
  exact ⟨hE', hm', hshaded', fun a ha ↦ hkeep a (Heap.isMarked_remarkRoots.mpr ha)⟩

end Embeds

end CoilLang.Gc
