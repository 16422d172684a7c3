import CoilLang.Lib.Tricolour
import CoilLang.Machine.Gc

/-!
# Marking the heap

The marks of the headers and the gray list are a marking of the graph of live objects, whose edges are **the words
of an object that an address lookup resolves**: an integer that looks like an address is an edge too. Marking changes
nothing else but the note that an array holds no references, which it makes only where that is so (`Marked`). The
loop that drains the gray list always empties it (`drain_spec`).
-/

namespace CoilLang.Gc.Heap

open Tricolour
open Machine.Snapshot (heapAddr)

variable {h h' h'' : Heap} {a : ℕ}

/-! ### The graph -/

/-- The object that a scanned word resolves to. -/
def resolve (h : Heap) (i : Bool × ℕ) : Option (Bool × ℕ) :=
  if (h.find (heapAddr i.2)).isSome then some (i.1, heapAddr i.2) else none

def items (h : Heap) (a : ℕ) : List (Bool × ℕ) :=
  match h.cells a with
  | none => []
  | some c => (c.obj.scan h.classKinds c.mayHoldRefs).filterMap h.resolve

def marks (h : Heap) : Marks ℕ := ⟨h.isMarked, h.gray⟩

theorem items_of_none (hc : h.cells a = none) : h.items a = [] := by
  rw [items, hc]

theorem items_of_some {c : Cell} (hc : h.cells a = some c) :
    h.items a = (c.obj.scan h.classKinds c.mayHoldRefs).filterMap h.resolve := by
  rw [items, hc]

/-- What marking leaves as it is. -/
def face (c : Cell) : Object ℕ × Bool := (c.obj, c.fresh)

/-- The heap after some marking. -/
structure Marked (h h' : Heap) : Prop where
  rest : h' = { h with cells := h'.cells, gray := h'.gray }
  face : ∀ a, (h'.cells a).map face = (h.cells a).map face
  items : h'.items = h.items
  clean : ∀ a c', h'.cells a = some c' → c'.mayHoldRefs = false →
    (∃ c, h.cells a = some c ∧ c.mayHoldRefs = false) ∨ h.items a = []

theorem Marked.refl (h : Heap) : Marked h h where
  rest := rfl
  face _ := rfl
  items := rfl
  clean _ c hc hflag := .inl ⟨c, hc, hflag⟩

theorem Marked.slab (hm : Marked h h') : h'.slab = h.slab := by rw [hm.rest]

theorem Marked.phase (hm : Marked h h') : h'.phase = h.phase := by rw [hm.rest]

theorem Marked.cursor (hm : Marked h h') : h'.cursor = h.cursor := by rw [hm.rest]

theorem Marked.isSome (hm : Marked h h') (a : ℕ) : (h'.cells a).isSome = (h.cells a).isSome := by
  have := congrArg Option.isSome (hm.face a)
  rwa [Option.isSome_map, Option.isSome_map] at this

theorem Marked.find_isSome (hm : Marked h h') (a : ℕ) : (h'.find a).isSome = (h.find a).isSome := by
  rw [find, find]
  split
  · rfl
  · exact hm.isSome a

theorem Marked.resolve (hm : Marked h h') : h'.resolve = h.resolve := by
  funext i
  rw [Heap.resolve, Heap.resolve, hm.find_isSome]

theorem Marked.trans (hm : Marked h h') (hm' : Marked h' h'') : Marked h h'' where
  rest := by rw [hm'.rest, hm.rest]
  face a := (hm'.face a).trans (hm.face a)
  items := hm'.items.trans hm.items
  clean a c hc hflag := by
    rcases hm'.clean a c hc hflag with ⟨c', hc', hflag'⟩ | hitems
    · exact hm.clean a c' hc' hflag'
    · exact .inr (hm.items ▸ hitems)

/-- The cell before the marking. -/
theorem Marked.cell (hm : Marked h h') {c' : Cell} (hc : h'.cells a = some c') :
    ∃ c, h.cells a = some c ∧ c'.obj = c.obj ∧ c'.fresh = c.fresh := by
  have hf := hm.face a
  rw [hc] at hf
  obtain ⟨c, hc, hface⟩ := Option.map_eq_some_iff.mp hf.symm
  exact ⟨c, hc, (congrArg Prod.fst hface).symm, (congrArg Prod.snd hface).symm⟩

/-- The cell after the marking. -/
theorem Marked.cell' (hm : Marked h h') {c : Cell} (hc : h.cells a = some c) :
    ∃ c', h'.cells a = some c' ∧ c'.obj = c.obj ∧ c'.fresh = c.fresh := by
  have hf := hm.face a
  rw [hc] at hf
  obtain ⟨c', hc', hface⟩ := Option.map_eq_some_iff.mp hf
  exact ⟨c', hc', congrArg Prod.fst hface, congrArg Prod.snd hface⟩

/-- Live objects are in slots. -/
def InSlots (h : Heap) : Prop := ∀ a, (h.cells a).isSome = true → a ∈ h.slots

theorem Marked.inSlots (hm : Marked h h') (hs : h.InSlots) : h'.InSlots := by
  intro a ha
  rw [hm.isSome] at ha
  rw [slots, hm.rest]
  exact hs a ha

/-! ### Marking one object -/

theorem items_congr (hcells : ∀ a, (h'.cells a).map (fun c ↦ (c.obj, c.mayHoldRefs)) =
    (h.cells a).map fun c ↦ (c.obj, c.mayHoldRefs)) (hkinds : h'.classKinds = h.classKinds) : h'.items = h.items := by
  have hsome : ∀ a, (h'.cells a).isSome = (h.cells a).isSome := fun a ↦ by
    have := congrArg Option.isSome (hcells a)
    rwa [Option.isSome_map, Option.isSome_map] at this
  have hres : h'.resolve = h.resolve := by
    funext i
    rw [resolve, resolve, find, find]
    split
    · rfl
    · rw [hsome]
  funext a
  have hc := hcells a
  cases hcell : h.cells a with
  | none =>
    rw [hcell] at hc
    rw [items_of_none hcell, items_of_none (Option.map_eq_none_iff.mp hc)]
  | some c =>
    rw [hcell] at hc
    obtain ⟨c', hc', heq⟩ := Option.map_eq_some_iff.mp hc
    have hobj : c'.obj = c.obj := congrArg Prod.fst heq
    have hflag : c'.mayHoldRefs = c.mayHoldRefs := congrArg Prod.snd heq
    rw [items_of_some hcell, items_of_some hc', hobj, hflag, hres, hkinds]

theorem marked_markAt (gray : Bool) (h : Heap) (a : ℕ) : Marked h (h.markAt gray a) := by
  rw [markAt]
  split
  · exact .refl h
  · rename_i c hc
    split
    · exact .refl h
    · have hcells : ∀ (f : Cell → Object ℕ × Bool), f { c with marked := true } = f c → ∀ b,
          (Function.update h.cells a (some { c with marked := true }) b).map f = (h.cells b).map f := by
        intro f hf b
        rw [Function.update_apply]
        split
        · rename_i hb
          rw [hb, hc]
          exact congrArg some hf
        · rfl
      refine ⟨rfl, hcells face rfl, items_congr (hcells _ rfl) rfl, fun b c' hc' hflag ↦ .inl ?_⟩
      have hb := hcells (fun c ↦ (c.obj, c.mayHoldRefs)) rfl b
      rw [show Function.update h.cells a (some { c with marked := true }) b = some c' from hc'] at hb
      obtain ⟨d, hd, heq⟩ := Option.map_eq_some_iff.mp hb.symm
      exact ⟨d, hd, (congrArg Prod.snd heq).trans hflag⟩

theorem marks_markAt (gray : Bool) (h : Heap) (ha : (h.cells a).isSome = true) :
    (h.markAt gray a).marks = h.marks.visit (gray, a) := by
  obtain ⟨c, hc⟩ := Option.isSome_iff_exists.mp ha
  have hmarked : h.isMarked a = c.marked := by
    rw [isMarked, hc]
    rfl
  have hvisit : h.marks.visit (gray, a) = if c.marked then h.marks
      else ⟨Function.update h.isMarked a true, if gray then a :: h.gray else h.gray⟩ := by
    rw [← hmarked]
    rfl
  rw [hvisit, markAt, hc]
  dsimp only
  split
  · rfl
  · refine congrArg₂ Marks.mk (funext fun b ↦ ?_) rfl
    show (Function.update h.cells a (some { c with marked := true }) b).any Cell.marked = _
    rw [Function.update_apply, Function.update_apply]
    split <;> rfl

theorem find_isSome (ha : (h.find a).isSome = true) : (h.cells a).isSome = true := by
  rw [find] at ha
  split at ha
  · cases ha
  · exact ha

theorem marked_markItem (h : Heap) (i : Bool × ℕ) : Marked h (h.markItem i) := by
  rw [markItem]
  split
  · exact marked_markAt _ _ _
  · exact .refl h

theorem marks_markItem (h : Heap) (i : Bool × ℕ) :
    (h.markItem i).marks = ((h.resolve i).toList).foldl .visit h.marks := by
  rw [markItem, resolve]
  split
  · rename_i hi
    exact marks_markAt _ _ (find_isSome hi)
  · rfl

/-- Marking the words of a list is visiting what they resolve to. -/
theorem foldl_markItem (l : List (Bool × ℕ)) (h : Heap) :
    Marked h (l.foldl markItem h) ∧ (l.foldl markItem h).marks = (l.filterMap h.resolve).foldl .visit h.marks := by
  induction l generalizing h with
  | nil => exact ⟨.refl h, rfl⟩
  | cons i l ih =>
    obtain ⟨hm, hmarks⟩ := ih (h.markItem i)
    have hi := marked_markItem h i
    refine ⟨hi.trans hm, ?_⟩
    rw [List.foldl_cons, hmarks, hi.resolve, marks_markItem, List.filterMap_cons]
    cases h.resolve i <;> rfl

/-! ### Scanning an object -/

theorem mayBeRef_of_find (hs : h.InSlots) {v : ℕ} (hv : (h.find (heapAddr v)).isSome = true) : h.mayBeRef v = true := by
  obtain ⟨c, hc, hslot⟩ := List.mem_flatMap.mp (hs _ (find_isSome hv))
  have hcontains := Slab.contains_of_mem_slots hslot
  rw [Slab.Chunk.contains, Bool.and_eq_true, decide_eq_true_eq, decide_eq_true_eq] at hcontains
  have hne : heapAddr v ≠ 0 := by
    intro hzero
    rw [hzero, find, if_pos rfl] at hv
    cases hv
  rw [mayBeRef, Bool.and_eq_true, Bool.and_eq_true, decide_eq_true_eq, List.any_eq_true, List.any_eq_true]
  exact ⟨⟨hne, c, hc, decide_eq_true hcontains.1⟩, c, hc, decide_eq_true hcontains.2⟩

/-- A scan that found nothing that could be a reference found no object. -/
theorem items_eq_nil_of_any (hs : h.InSlots) {c : Cell} (hc : h.cells a = some c) {pointers : Bool} {elements : List ℕ}
    (he : c.obj.elements? = some (pointers, elements))
    (hany : h.anyRef pointers elements = false) : h.items a = [] := by
  have hnone : ∀ v ∈ elements, h.resolve (true, v) = none := by
    intro v hv
    rw [resolve]
    split
    · rename_i hfound
      have hv := List.any_eq_false.mp hany v hv
      split at hv
      · rw [decide_eq_true_eq, not_not] at hv
        rw [show heapAddr (true, v).2 = 0 from hv, find, if_pos rfl] at hfound
        cases hfound
      · exact absurd (mayBeRef_of_find hs hfound) hv
    · rfl
  rw [items_of_some hc]
  cases hobj : c.obj with
  | array p l =>
    rw [hobj] at he
    cases he
    rw [Object.scan]
    split
    · rw [List.filterMap_map]
      exact List.filterMap_eq_nil_iff.mpr hnone
    · rfl
  | bytes => rfl
  | _ =>
    rw [hobj] at he
    cases he

theorem marked_noRefs (hitems : h.items a = []) : Marked h (h.noRefs a) := by
  have hcells : ∀ b, ((h.noRefs a).cells b).map face = (h.cells b).map face := by
    intro b
    show (Function.update h.cells a _ b).map face = _
    rw [Function.update_apply]
    split
    · rename_i hb
      rw [hb, Option.map_map]
      rfl
    · rfl
  have hres : (h.noRefs a).resolve = h.resolve := by
    funext i
    rw [resolve, resolve, find, find]
    split
    · rfl
    · have := congrArg Option.isSome (hcells (heapAddr i.2))
      rw [Option.isSome_map, Option.isSome_map] at this
      rw [this]
  refine ⟨rfl, hcells, funext fun b ↦ ?_, fun b c' hc' hflag ↦ ?_⟩
  · have hb : (h.noRefs a).cells b =
        if b = a then (h.cells a).map fun c ↦ { c with mayHoldRefs := false } else h.cells b :=
      Function.update_apply _ _ _ _
    split at hb
    · rename_i hba
      subst hba
      rw [hitems]
      cases hc : h.cells b with
      | none =>
        rw [hc] at hb
        exact items_of_none hb
      | some c =>
        rw [hc] at hb
        rw [items_of_some hc] at hitems
        rw [items_of_some hb, hres]
        cases hobj : c.obj with
        | array p l => rfl
        | _ =>
          rw [hobj] at hitems
          exact hitems
    · cases hc : h.cells b with
      | none => rw [items_of_none hc, items_of_none (hb.trans hc)]
      | some c =>
        rw [items_of_some hc, items_of_some (hb.trans hc), hres]
        rfl
  · rcases eq_or_ne b a with rfl | hne
    · exact .inr hitems
    · refine .inl ⟨c', ?_, hflag⟩
      rw [← hc']
      exact (Function.update_of_ne hne _ _).symm

theorem marks_noRefs (h : Heap) (a : ℕ) : (h.noRefs a).marks = h.marks := by
  refine congrArg₂ Marks.mk (funext fun b ↦ ?_) rfl
  show (Function.update h.cells a _ b).any Cell.marked = (h.cells b).any Cell.marked
  rw [Function.update_apply]
  split
  · rename_i hb
    rw [hb]
    cases h.cells a <;> rfl
  · rfl

/-- Scanning an object visits its items. -/
theorem markReferences_spec (hs : h.InSlots) (a : ℕ) :
    Marked h (h.markReferences a) ∧ (h.markReferences a).marks = (h.items a).foldl .visit h.marks := by
  rw [markReferences]
  split
  · rename_i hc
    rw [items_of_none hc]
    exact ⟨.refl h, rfl⟩
  · rename_i c hc
    rw [items_of_some hc]
    obtain ⟨hm, hmarks⟩ := foldl_markItem (c.obj.scan h.classKinds c.mayHoldRefs) h
    dsimp only
    split
    · exact ⟨hm, hmarks⟩
    · rename_i pointers elements he
      split
      · rename_i hclean
        rw [Bool.and_eq_true, Bool.not_eq_true'] at hclean
        have hitems := items_eq_nil_of_any hs hc he hclean.2
        refine ⟨hm.trans (marked_noRefs ?_), (marks_noRefs _ _).trans hmarks⟩
        rw [hm.items]
        exact hitems
      · exact ⟨hm, hmarks⟩

/-! ### Draining the gray list -/

theorem marked_pop {rest : List ℕ} : Marked h { h with gray := rest } where
  rest := rfl
  face _ := rfl
  items := rfl
  clean _ c hc hflag := .inl ⟨c, hc, hflag⟩

/-- A quantum is that many scans. -/
theorem markQuantum_spec (n : ℕ) (hs : h.InSlots) :
    Marked h (markQuantum n h).1 ∧ (markQuantum n h).1.marks = (Marks.scan h.items)^[n] h.marks ∧
      (markQuantum n h).2 = decide ((markQuantum n h).1.gray = []) := by
  induction n generalizing h with
  | zero => exact ⟨.refl h, rfl, rfl⟩
  | succ n ih =>
    rw [markQuantum]
    split
    · rename_i hgray
      have hscan : ∀ k, (Marks.scan h.items)^[k] h.marks = h.marks := by
        intro k
        exact Function.iterate_fixed (scan_of_nil hgray) k
      exact ⟨.refl h, (hscan _).symm, (decide_eq_true hgray).symm⟩
    · rename_i a rest hgray
      have hpop : Marked h { h with gray := rest } := marked_pop
      obtain ⟨hm, hmarks⟩ := markReferences_spec (hpop.inSlots hs) a
      obtain ⟨hrest, hiter, hdone⟩ := ih ((hpop.trans hm).inSlots hs)
      refine ⟨(hpop.trans hm).trans hrest, ?_, hdone⟩
      rw [hiter, Function.iterate_succ_apply, hmarks, (hpop.trans hm).items, hpop.items]
      congr 1
      exact (scan_of_cons (m := h.marks) hgray).symm

theorem resolve_mem_slots (hs : h.InSlots) {i j : Bool × ℕ} (hi : h.resolve i = some j) : j.2 ∈ h.slots := by
  rw [resolve] at hi
  split at hi
  · rename_i hfound
    cases hi
    exact hs _ (find_isSome hfound)
  · cases hi

theorem items_mem_slots (hs : h.InSlots) {i : Bool × ℕ} (hi : i ∈ h.items a) : i.2 ∈ h.slots := by
  cases hc : h.cells a with
  | none =>
    rw [items_of_none hc] at hi
    cases hi
  | some c =>
    rw [items_of_some hc] at hi
    obtain ⟨j, -, hj⟩ := List.mem_filterMap.mp hi
    exact resolve_mem_slots hs hj

theorem weight_iterate {items : ℕ → List (Bool × ℕ)} {V : Finset ℕ} (hV : ∀ a, ∀ i ∈ items a, i.2 ∈ V) (n : ℕ)
    (m : Marks ℕ) :
    weight V ((Marks.scan items)^[n] m) ≤ weight V m := by
  induction n generalizing m with
  | zero => exact le_rfl
  | succ n ih =>
    rw [Function.iterate_succ_apply]
    refine (ih _).trans ?_
    by_cases hgray : m.gray = []
    · rw [scan_of_nil hgray]
    · exact (weight_scan hV hgray).le

/-- **Draining empties the gray list**, by scans only. -/
theorem drain_spec (hs : h.InSlots) :
    Marked h h.drain ∧ h.drain.gray = [] ∧ ∃ k, h.drain.marks = (Marks.scan h.items)^[k] h.marks := by
  let V := h.slots.toFinset
  let I : Heap → Prop := fun s ↦ Marked h s ∧ ∃ k, s.marks = (Marks.scan h.items)^[k] h.marks
  have hI : ∀ s, I s → I (markQuantum usizeMax s).1 := by
    rintro s ⟨hm, k, hk⟩
    obtain ⟨hm', hmarks, -⟩ := markQuantum_spec usizeMax (hm.inSlots hs)
    refine ⟨hm.trans hm', usizeMax + k, ?_⟩
    rw [hmarks, hm.items, hk, Function.iterate_add_apply]
  have hμ : ∀ s, I s → (!(markQuantum usizeMax s).2) = true →
      weight V (markQuantum usizeMax s).1.marks < weight V s.marks := by
    rintro s ⟨hm, -⟩ hmore
    obtain ⟨-, hmarks, hdone⟩ := markQuantum_spec usizeMax (hm.inSlots hs)
    have hV : ∀ a, ∀ i ∈ s.items a, i.2 ∈ V := by
      intro a i hi
      rw [hm.items] at hi
      exact List.mem_toFinset.mpr (items_mem_slots hs hi)
    have hgray : s.marks.gray ≠ [] := by
      intro hgray
      rw [hdone, Bool.not_eq_true', decide_eq_false_iff_not] at hmore
      refine hmore ?_
      show (markQuantum usizeMax s).1.marks.gray = []
      rw [hmarks, Function.iterate_fixed (scan_of_nil hgray)]
      exact hgray
    rw [hmarks, show usizeMax = (usizeMax - 1) + 1 from rfl, Function.iterate_succ_apply]
    exact (weight_iterate hV _ _).trans_lt (weight_scan hV hgray)
  have hI₀ : I h := ⟨.refl h, 0, rfl⟩
  have hfuel : weight V h.marks < 2 * h.slots.length + h.gray.length + 1 := by
    have hle : ({a ∈ V | h.marks.marked a = false}.card) ≤ h.slots.length :=
      (Finset.card_filter_le _ _).trans (List.toFinset_card_le _)
    show 2 * _ + h.gray.length < _
    omega
  let body : Heap → Heap × Bool := fun s ↦ ((markQuantum usizeMax s).1, !(markQuantum usizeMax s).2)
  have hbody : ∀ s, I s → I (body s).1 := hI
  have hlower : ∀ s, I s → (body s).2 = true → weight V (body s).1.marks < weight V s.marks := hμ
  obtain ⟨r, hr⟩ := repeatUntil_terminates hbody (fun s ↦ weight V s.marks) hlower hI₀ hfuel
  obtain ⟨s, hs', hstop, rfl⟩ := repeatUntil_spec hbody hI₀ hr
  have hdrain : h.drain = (markQuantum usizeMax s).1 := by
    rw [drain, hr]
    rfl
  obtain ⟨hm, hk⟩ := hI s hs'
  obtain ⟨-, -, hdone⟩ := markQuantum_spec usizeMax (hs'.1.inSlots hs)
  rw [hdrain]
  refine ⟨hm, ?_, hk⟩
  rw [Bool.not_eq_false', hdone, decide_eq_true_eq] at hstop
  exact hstop

/-! ### What is marked -/

/-- Draining keeps the tricolour invariant, so that marked objects point at marked ones, and marks what the gray
objects reach and nothing else. -/
theorem drain_marks (edge : ℕ → ℕ → Prop) (hs : h.InSlots) (hcover : ∀ a b, edge a b → Next h.items a b)
    (hleaf : ∀ a, Leaves edge (h.items a)) (hinv : Inv edge h.marks) :
    (∀ a, h.isMarked a = true → h.drain.isMarked a = true) ∧
      (∀ a, h.drain.isMarked a = true → ∀ b, edge a b → h.drain.isMarked b = true) ∧
      ∀ S : ℕ → Prop, (∀ a, h.isMarked a = true → Reach (Next h.items) S a) →
        ∀ a, h.drain.isMarked a = true → Reach (Next h.items) S a := by
  obtain ⟨-, hgray, k, hmarks⟩ := drain_spec hs
  have hiter : ∀ k, Inv edge ((Marks.scan h.items)^[k] h.marks) ∧
      (∀ a, h.isMarked a = true → ((Marks.scan h.items)^[k] h.marks).marked a = true) ∧
      ∀ S : ℕ → Prop, (∀ a, h.isMarked a = true → Reach (Next h.items) S a) →
        ∀ a, ((Marks.scan h.items)^[k] h.marks).marked a = true → Reach (Next h.items) S a := by
    intro k
    induction k with
    | zero => exact ⟨hinv, fun _ ha ↦ ha, fun _ hS ↦ hS⟩
    | succ k ih =>
      obtain ⟨hinv, hkeep, hreach⟩ := ih
      rw [Function.iterate_succ_apply']
      refine ⟨hinv.scan hcover hleaf, fun a ha ↦ ?_, fun S hS a ha ↦ reach_of_scan (hreach S hS) hinv.gray ha⟩
      have := hkeep a ha
      rw [Marks.scan]
      split
      · exact this
      · exact ((visited_foldl _ _).marked a).mpr (.inl this)
  obtain ⟨hinv', hkeep, hreach⟩ := hiter k
  rw [← hmarks] at hinv' hkeep hreach
  refine ⟨hkeep, fun a ha ↦ hinv'.scanned a ha ?_, hreach⟩
  show a ∉ h.drain.gray
  rw [hgray]
  exact List.not_mem_nil

/-- Marking roots: they are marked, what was marked stays so, and nothing else. -/
theorem remarkRoots_spec (h : Heap) (roots : List ℕ) :
    Marked h (h.remarkRoots roots) ∧ (h.remarkRoots roots).marks =
      ((roots.map fun v ↦ (true, v)).filterMap h.resolve).foldl .visit h.marks := by
  rw [remarkRoots, ← List.foldl_map (f := fun v ↦ (true, v)) (g := markItem)]
  exact foldl_markItem _ h

theorem leaves_roots {edge : ℕ → ℕ → Prop} (h : Heap) (roots : List ℕ) :
    Leaves edge ((roots.map fun v ↦ (true, v)).filterMap h.resolve) := by
  intro k hk
  obtain ⟨i, hi, hres⟩ := List.mem_filterMap.mp hk
  obtain ⟨v, -, rfl⟩ := List.mem_map.mp hi
  rw [resolve] at hres
  split at hres <;> cases hres

/-- An object a root word resolves to. -/
def IsRoot (h : Heap) (roots : List ℕ) (a : ℕ) : Prop := ∃ v ∈ roots, heapAddr v = a ∧ (h.find a).isSome = true

theorem Marked.isRoot (hm : Marked h h') (roots : List ℕ) : h'.IsRoot roots = h.IsRoot roots := by
  funext a
  rw [IsRoot, IsRoot, hm.find_isSome]

theorem isMarked_remarkRoots {roots : List ℕ} :
    (h.remarkRoots roots).isMarked a = true ↔ h.isMarked a = true ∨ h.IsRoot roots a := by
  show (h.remarkRoots roots).marks.marked a = true ↔ _
  rw [(remarkRoots_spec h roots).2, (visited_foldl _ _).marked]
  refine or_congr_right ⟨?_, ?_⟩
  · rintro ⟨j, hj, rfl⟩
    obtain ⟨i, hi, hres⟩ := List.mem_filterMap.mp hj
    obtain ⟨v, hv, rfl⟩ := List.mem_map.mp hi
    rw [resolve] at hres
    split at hres
    · rename_i hfound
      cases hres
      exact ⟨v, hv, rfl, hfound⟩
    · cases hres
  · rintro ⟨v, hv, rfl, hfound⟩
    refine ⟨(true, heapAddr v), List.mem_filterMap.mpr ⟨(true, v), List.mem_map.mpr ⟨v, hv, rfl⟩, ?_⟩, rfl⟩
    rw [resolve, if_pos hfound]

end CoilLang.Gc.Heap
