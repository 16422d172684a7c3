import CoilLang.Machine.GcEmbeds

/-!
# A cycle, on the heap that never frees

The steps of a cycle after the mark, as the ideal heap sees them. Clearing the weak handles whose targets are not
marked, and forgetting the strings that are not, is a reclaim (`Embeds.startSweep`): what a program reaches is marked
by then. The sweep is nothing at all (`Embeds.swept`): ids leave the set of those in the heap one by one, and the
objects that the sweep lets through are closed under references at every moment of it.
-/

namespace CoilLang.Gc

open Machine.Snapshot (heapAddr)

/-! ### Clearing weak handles -/

namespace Heap

variable {h h' h'' : Heap} {a b : ℕ}

/-- The object at `a` is a weak handle to what is in the heap and not marked. -/
def WeakDead (h : Heap) (a : ℕ) : Prop := ∃ c target, h.cells a = some c ∧ c.obj = .weak target false ∧
  (h.find (heapAddr target)).any (!·.marked) = true

/-- Some handles to what is not marked were cleared. -/
structure Cleared (h h' : Heap) : Prop where
  rest : h' = { h with cells := h'.cells, weaks := h'.weaks }
  cell : ∀ a, h'.cells a = h.cells a ∨
    h.WeakDead a ∧ h'.cells a = (h.cells a).map fun c ↦ { c with obj := .weak 0 true }

/-- The header of an object. -/
def header (c : Cell) : Bool × Bool × Bool := (c.marked, c.fresh, c.mayHoldRefs)

theorem Cleared.header (hc : Cleared h h') (a : ℕ) : (h'.cells a).map header = (h.cells a).map header := by
  rcases hc.cell a with hsame | ⟨-, hclear⟩
  · rw [hsame]
  · rw [hclear, Option.map_map]
    rfl

theorem Cleared.isSome (hc : Cleared h h') (a : ℕ) : (h'.cells a).isSome = (h.cells a).isSome := by
  have := congrArg Option.isSome (hc.header a)
  rwa [Option.isSome_map, Option.isSome_map] at this

theorem Cleared.unmarked (hc : Cleared h h') (a : ℕ) :
    (h'.find a).any (!·.marked) = (h.find a).any (!·.marked) := by
  rw [find, find]
  split
  · rfl
  · have := congrArg (Option.any fun p : Bool × Bool × Bool ↦ !p.1) (hc.header a)
    rwa [Option.any_map, Option.any_map] at this

theorem Cleared.isMarked (hc : Cleared h h') (a : ℕ) : h'.isMarked a = h.isMarked a := by
  have := congrArg (Option.any Prod.fst) (hc.header a)
  rwa [Option.any_map, Option.any_map] at this

/-- A handle that is not cleared was never touched. -/
theorem Cleared.of_weak (hc : Cleared h h') {c : Cell} {target : ℕ} (ha : h'.cells a = some c)
    (hobj : c.obj = .weak target false) : h.cells a = some c := by
  rcases hc.cell a with hsame | ⟨-, hclear⟩
  · exact hsame ▸ ha
  · rw [ha] at hclear
    obtain ⟨d, -, hd⟩ := Option.map_eq_some_iff.mp hclear.symm
    rw [← hd] at hobj
    cases hobj

theorem Cleared.trans (hc : Cleared h h') (hc' : Cleared h' h'') : Cleared h h'' where
  rest := by rw [hc'.rest, hc.rest]
  cell a := by
    rcases hc'.cell a with hsame | ⟨⟨c, target, ha, hobj, hdead⟩, hclear⟩
    · rw [hsame]
      exact hc.cell a
    · have hold := hc.of_weak ha hobj
      rw [hc.unmarked] at hdead
      refine .inr ⟨⟨c, target, hold, hobj, hdead⟩, ?_⟩
      rw [hclear, ha, hold]

theorem clearWeak_spec (h : Heap) (a : ℕ) : Cleared h (h.clearWeak a) ∧ (∀ b ∈ h.weaks, b ∈ (h.clearWeak a).weaks) ∧
    ∀ c target, (h.clearWeak a).find a = some c → c.obj = .weak target false →
      a ∈ (h.clearWeak a).weaks ∧ (h.find (heapAddr target)).any (!·.marked) = false := by
  have hrefl : Cleared h h := ⟨rfl, fun _ ↦ .inl rfl⟩
  rw [clearWeak]
  split
  · rename_i hnone
    exact ⟨hrefl, fun _ hb ↦ hb, fun c _ hc ↦ (by rw [hnone] at hc; cases hc)⟩
  · rename_i c hc
    split
    · rename_i target hobj
      have hcell : a ≠ 0 ∧ h.cells a = some c := by
        rw [find] at hc
        split at hc
        · cases hc
        · exact ⟨‹_›, hc⟩
      split
      · rename_i hdead
        refine ⟨⟨rfl, fun b ↦ ?_⟩, fun _ hb ↦ hb, fun c' target' hc' hobj' ↦ ?_⟩
        · show Function.update h.cells a _ b = _ ∨ _ ∧ Function.update h.cells a _ b = _
          rw [Function.update_apply]
          split
          · rename_i hb
            subst hb
            refine .inr ⟨⟨c, target, hcell.2, hobj, hdead⟩, ?_⟩
            rw [hcell.2]
            rfl
          · exact .inl rfl
        · rw [find, if_neg hcell.1] at hc'
          cases (Function.update_self a _ h.cells).symm.trans hc'
          cases hobj'
      · rename_i hlive
        refine ⟨⟨rfl, fun _ ↦ .inl rfl⟩, fun b hb ↦ List.mem_append_left _ hb, fun c' target' hc' hobj' ↦
          ⟨List.mem_append_right _ (List.mem_singleton_self a), ?_⟩⟩
        cases hc.symm.trans hc'
        cases hobj.symm.trans hobj'
        exact Bool.not_eq_true _ ▸ hlive
    · rename_i hweak
      exact ⟨hrefl, fun _ hb ↦ hb, fun c' target hc' hobj ↦
        absurd hobj (Option.some.inj (hc.symm.trans hc') ▸ hweak target)⟩

theorem foldl_clearWeak (l : List ℕ) (h : Heap) : Cleared h (l.foldl clearWeak h) ∧
    (∀ b ∈ h.weaks, b ∈ (l.foldl clearWeak h).weaks) ∧
    ∀ a ∈ l, ∀ c target, (l.foldl clearWeak h).find a = some c → c.obj = .weak target false →
      a ∈ (l.foldl clearWeak h).weaks ∧ ((l.foldl clearWeak h).find (heapAddr target)).any (!·.marked) = false := by
  induction l generalizing h with
  | nil => exact ⟨⟨rfl, fun _ ↦ .inl rfl⟩, fun _ hb ↦ hb, fun _ ha ↦ absurd ha List.not_mem_nil⟩
  | cons a l ih =>
    obtain ⟨hclear, hkeep, hdone⟩ := clearWeak_spec h a
    obtain ⟨hclear', hkeep', hdone'⟩ := ih (h.clearWeak a)
    refine ⟨hclear.trans hclear', fun b hb ↦ hkeep' b (hkeep b hb), fun b hb c target hc hobj ↦ ?_⟩
    rcases List.mem_cons.mp hb with rfl | hb
    · have hc' : (h.clearWeak b).find b = some c := by
        rw [List.foldl_cons, find] at hc
        rw [find]
        split at hc
        · cases hc
        · rename_i hzero
          rw [if_neg hzero]
          exact hclear'.of_weak hc hobj
      obtain ⟨hmem, hlive⟩ := hdone c target hc' hobj
      exact ⟨hkeep' b hmem, ((hclear.trans hclear').unmarked _).trans hlive⟩
    · exact hdone' b hb c target hc hobj

/-- Clearing: **the handles that stay uncleared are listed, and their targets are marked** if they are in the heap. -/
theorem clearDeadWeaks_spec (h : Heap) : Cleared h h.clearDeadWeaks ∧
    ∀ a ∈ h.weaks, ∀ c target, h.clearDeadWeaks.find a = some c → c.obj = .weak target false →
      a ∈ h.clearDeadWeaks.weaks ∧ (h.clearDeadWeaks.find (heapAddr target)).any (!·.marked) = false := by
  obtain ⟨hclear, -, hdone⟩ := foldl_clearWeak (h.weaks.dedup.insertionSort (· ≤ ·)) { h with weaks := [] }
  have hsame : Cleared h { h with weaks := [] } := ⟨rfl, fun _ ↦ .inl rfl⟩
  refine ⟨hsame.trans hclear, fun a ha ↦ hdone a ?_⟩
  exact (List.perm_insertionSort (· ≤ ·) _).mem_iff.mpr (List.mem_dedup.mpr ha)

theorem any_unmarked (ha : (h.cells a).isSome = true) : (h.cells a).any (!·.marked) = !h.isMarked a := by
  obtain ⟨c, hc⟩ := Option.isSome_iff_exists.mp ha
  rw [isMarked, hc]
  rfl

/-- At its start the sweep has all objects ahead of it. -/
theorem Ok.mem_ahead_start (hok : h.Ok) (ha : (h.cells a).isSome = true) : a ∈ h.slab.ahead {} := by
  obtain ⟨i, c, hc, hr, hp⟩ := hok.live ha
  exact List.mem_append_right _ (Slab.mem_below.mpr ⟨i, c, (List.getElem?_eq_some_iff.mp hc).1, hc, hr, hp⟩)

theorem beginSweep_eq (hphase : h.phase ≠ .sweeping) :
    h.beginSweep = { h.unlinkUnmarkedInterns with phase := .sweeping, cursor := some {} } := by
  rw [beginSweep, if_neg hphase]

theorem Ok.beginSweep (hok : h.Ok) (hphase : h.phase ≠ .sweeping) :
    h.beginSweep.Ok ∧ ∀ a, (h.cells a).isSome = true → h.beginSweep.Ahead a := by
  rw [beginSweep_eq hphase]
  refine ⟨⟨hok.out, hok.even, fun cur hcur ↦ ?_⟩, fun a ha ↦ ⟨{}, rfl, hok.mem_ahead_start ha⟩⟩
  cases hcur
  exact ⟨Slab.cursorOk_start _, ⟨fun _ hp ↦ (by cases hp), fun hrest ↦ absurd hrest (Nat.lt_irrefl 0),
    fun hclass ↦ absurd rfl hclass⟩⟩

end Heap

/-! ### Reclaiming -/

variable {A : Ideal} {h h' : Heap} {ρ : ℕ → ℕ} {L : ℕ → Prop}

namespace Ideal

variable {dead kept : ℕ → Bool} {id id' : ℕ}

/-- An object after a reclaim is an old one, unless it is a handle that was cleared. -/
theorem objs_reclaim {o : Object IWord} (ho : (A.reclaim dead kept).objs id = some o) :
    dead id = true ∧ o = .weak (.imm 0) true ∨ dead id = false ∧ A.objs id = some o := by
  replace ho : (if dead id then some (.weak (.imm 0) true) else A.objs id) = some o := ho
  cases hd : dead id with
  | true =>
    rw [hd, if_pos rfl] at ho
    exact .inl ⟨rfl, (Option.some.inj ho).symm⟩
  | false =>
    rw [hd, if_neg (by simp)] at ho
    exact .inr ⟨rfl, ho⟩

theorem objs_reclaim_of_not (hd : dead id = false) : (A.reclaim dead kept).objs id = A.objs id := by
  show (if dead id then _ else A.objs id) = _
  rw [hd, if_neg (by simp)]

theorem string_reclaim (kept : ℕ → Bool)
    (hdead : ∀ id, dead id = true → ∃ target, A.objs id = some (.weak target false)) (id : ℕ) (s : String)
    (ho : A.objs id = some (.string s)) : (A.reclaim dead kept).objs id = some (.string s) := by
  cases hd : dead id with
  | true =>
    obtain ⟨target, ho'⟩ := hdead id hd
    rw [ho] at ho'
    cases ho'
  | false => rw [objs_reclaim_of_not hd, ho]

theorem child_of_reclaim (hchild : (A.reclaim dead kept).Child id id') : A.Child id id' := by
  obtain ⟨o, err, ho, hw⟩ := hchild
  rcases objs_reclaim ho with ⟨-, rfl⟩ | ⟨-, ho⟩
  · cases hw
  · exact ⟨o, err, ho, hw⟩

theorem weakChild_of_reclaim (hchild : (A.reclaim dead kept).WeakChild id id') : dead id = false ∧
    A.WeakChild id id' := by
  obtain ⟨err, ho⟩ := hchild
  rcases objs_reclaim ho with ⟨-, hcases⟩ | ⟨hd, ho⟩
  · cases hcases
  · exact ⟨hd, err, ho⟩

end Ideal

/-! ### Starting the sweep -/

namespace Embeds

/-- What the program reaches is in the heap and marked. -/
theorem marked_of_reachable (hE : Embeds A h ρ L) (hphase : h.phase ≠ .sweeping) (hshaded : Shaded A h ρ L)
    (hstrong : ∀ id, A.Strong id → h.isMarked (ρ id) = true) {id : ℕ} (hid : A.Reachable id) :
    L id ∧ h.isMarked (ρ id) = true := by
  obtain ⟨r, hr, hpath⟩ := hid
  induction hpath with
  | refl => exact ⟨(hE.held r (.inl hr)).1, hstrong r hr⟩
  | tail _ hchild ih => exact ⟨(hE.closed _ _ ⟨ih.1, hE.spared hphase _⟩ (.inl hchild)).1, hshaded _ _ ih.1 ih.2 hchild⟩

/-- Handles whose targets are not marked are cleared. -/
theorem cleared (hE : Embeds A h ρ L) (hphase : h.phase ≠ .sweeping) :
    ∃ dead : ℕ → Bool, (∀ id, dead id = true → ∃ target, A.objs id = some (.weak target false) ∧
        ∀ id' err, target = .ref id' err → h.isMarked (ρ id') = false) ∧
      Embeds (A.reclaim dead fun _ ↦ true) h.clearDeadWeaks ρ L ∧ Heap.Cleared h h.clearDeadWeaks ∧
      ∀ id id', L id → (A.reclaim dead fun _ ↦ true).WeakChild id id' → h.isMarked (ρ id') = true := by
  classical
  obtain ⟨hclear, hdone⟩ := Heap.clearDeadWeaks_spec h
  set h₁ := h.clearDeadWeaks with hh₁
  obtain ⟨hcursor, hfresh⟩ := hE.unswept hphase
  have hphase₁ : h₁.phase = h.phase := by rw [hclear.rest]
  have hcursor₁ : h₁.cursor = none := by rw [hclear.rest]; exact hcursor
  have hok₁ : h₁.Ok := hE.ok.congr (by rw [hclear.rest]) hclear.isSome (by rw [hclear.rest])
  have hspared₁ : ∀ a, h₁.Spared a := fun a hahead ↦ absurd hahead (Heap.not_ahead_of_none hcursor₁)
  let dead : ℕ → Bool := fun id ↦ decide (L id ∧ h₁.cells (ρ id) ≠ h.cells (ρ id))
  have hdead : ∀ id, dead id = true → L id ∧ h.WeakDead (ρ id) ∧
      h₁.cells (ρ id) = (h.cells (ρ id)).map fun c ↦ { c with obj := .weak 0 true } := by
    intro id hid
    obtain ⟨hlive, hne⟩ := of_decide_eq_true hid
    exact ⟨hlive, (hclear.cell (ρ id)).resolve_left hne⟩
  have hweak : ∀ id, dead id = true → ∃ target, A.objs id = some (.weak target false) ∧
      ∀ id' err, target = .ref id' err → h.isMarked (ρ id') = false := by
    intro id hid
    obtain ⟨hlive, ⟨c, target, hc, hobj, htarget⟩, -⟩ := hdead id hid
    obtain ⟨o, ho, hmap, -⟩ := hE.obj_of hlive hc
    rw [hobj] at hmap
    cases o with
    | weak w cleared =>
      obtain ⟨rfl, rfl⟩ := Object.weak.inj hmap
      refine ⟨w, ho, ?_⟩
      rintro id' err rfl
      have hid' := (hE.closed id id' ⟨hlive, hE.spared hphase _⟩ (.inr ⟨err, ho⟩)).1
      rwa [hE.find_ref hid', Heap.any_unmarked (hE.isSome hid'), Bool.not_eq_true'] at htarget
    | _ => cases hmap
  have hstring := Ideal.string_reclaim (A := A) (fun _ ↦ true) fun id hid ↦ (hweak id hid).imp fun _ ht ↦ ht.1
  have hcell : ∀ {id}, L id → dead id = false → h₁.cells (ρ id) = h.cells (ρ id) := by
    intro id hlive hd
    by_contra hne
    have := of_decide_eq_false hd
    exact this ⟨hlive, hne⟩
  -- A handle that stays is listed, and its target is marked.
  have hstay : ∀ id target, L id → dead id = false → A.objs id = some (.weak target false) →
      ρ id ∈ h₁.weaks ∧ (h.find (heapAddr (target.bits ρ))).any (!·.marked) = false := by
    intro id target hlive hd ho
    obtain ⟨c, hc, hobj, -⟩ := hE.cell_of hlive ho
    have hfind : h₁.find (ρ id) = some c := by rw [hok₁.find_eq, hcell hlive hd, hc]
    obtain ⟨hmem, hlive⟩ := hdone (ρ id) (hE.weaks id target hlive ho) c (target.bits ρ) hfind hobj
    exact ⟨hmem, (hclear.unmarked _).symm.trans hlive⟩
  have htables : h₁.gray = h.gray ∧ h₁.classKinds = h.classKinds ∧ h₁.finalizerTypes = h.finalizerTypes ∧
      h₁.immortals = h.immortals := by
    rw [hclear.rest]
    exact ⟨rfl, rfl, rfl, rfl⟩
  refine ⟨dead, hweak, { hE with
    ok := hok₁
    gray := htables.1.trans hE.gray
    kinds := htables.2.1.trans hE.kinds
    types := htables.2.2.1.trans hE.types
    immortals := htables.2.2.2.trans hE.immortals
    strings := ?_
    below := fun id o ho ↦ ?_
    kinded := fun id o ho ↦ ?_
    texts := fun id hid ↦ ?_
    cell := fun id hid ↦ ?_
    onto := fun a ha ↦ hE.onto a (hclear.isSome a ▸ ha)
    held := fun id hid ↦ ⟨?_, hspared₁ _⟩
    closed := fun id id' hid hrefers ↦ ⟨?_, hspared₁ _⟩
    weaks := fun id target hid ho ↦ ?_
    unswept := fun _ ↦ ⟨hcursor₁, fun a c hc ↦ ?_⟩
    swept := fun hsweeping ↦ absurd (hphase₁.symm.trans hsweeping) hphase }, hclear, fun id id' hid hrefers ↦ ?_⟩
  · rw [hclear.rest, Ideal.reclaim, List.filter_true]
    exact hE.strings
  · rcases Ideal.objs_reclaim ho with ⟨hd, rfl⟩ | ⟨-, ho⟩
    · exact ⟨hE.lt_next (hdead id hd).1, fun id' err hw ↦ by simp [Object.atoms] at hw⟩
    · exact hE.below id o ho
  · rcases Ideal.objs_reclaim ho with ⟨-, rfl⟩ | ⟨-, ho⟩
    · rfl
    · have hkinds : (A.reclaim dead fun _ ↦ true).classKinds = A.classKinds := rfl
      exact Ideal.wellKinded_mono hkinds hstring (hE.kinded id o ho)
  · obtain ⟨s, hs⟩ := hE.texts id (List.mem_of_mem_filter hid)
    exact ⟨s, hstring id s hs⟩
  · cases hd : dead id with
    | true =>
      obtain ⟨o, c, ho, hc, -⟩ := hE.cell id hid
      refine ⟨.weak (.imm 0) true, { c with obj := .weak 0 true }, if_pos hd, ?_, rfl, fun _ helems ↦ by cases helems⟩
      · rw [(hdead id hd).2.2, hc]
        rfl
    | false =>
      obtain ⟨o, c, ho, hmore⟩ := hE.cell id hid
      refine ⟨o, c, (Ideal.objs_reclaim_of_not hd).trans ho, ?_⟩
      rw [hcell hid hd]
      exact hmore
  · exact (hE.held id (hid.imp_right List.mem_of_mem_filter)).1
  · exact (hE.closed id id' ⟨hid.1, hE.spared hphase _⟩
      (hrefers.imp Ideal.child_of_reclaim fun hw ↦ (Ideal.weakChild_of_reclaim hw).2)).1
  · rcases Ideal.objs_reclaim ho with ⟨-, hcases⟩ | ⟨hd, ho⟩
    · cases hcases
    · exact (hstay id target hid hd ho).1
  · have := hclear.header a
    rw [hc] at this
    obtain ⟨d, hd, heq⟩ := Option.map_eq_some_iff.mp this.symm
    exact (congrArg (fun p ↦ p.2.1) heq).symm.trans (hfresh a d hd)
  · obtain ⟨hd, err, ho⟩ := Ideal.weakChild_of_reclaim hrefers
    have hid' := (hE.closed id id' ⟨hid, hE.spared hphase _⟩ (.inr ⟨err, ho⟩)).1
    have := (hstay id _ hid hd ho).2
    rwa [hE.find_ref hid', Heap.any_unmarked (hE.isSome hid'), Bool.not_eq_false'] at this

/-- The sweep starts: strings that are not marked are forgotten. -/
theorem beginSweep (hE : Embeds A h ρ L) (hphase : h.phase ≠ .sweeping) (hshaded : Shaded A h ρ L)
    (hstrong : ∀ id, A.Strong id → h.isMarked (ρ id) = true)
    (hweak : ∀ id id', L id → A.WeakChild id id' → h.isMarked (ρ id') = true) :
    ∃ kept : ℕ → Bool, (∀ id ∈ A.interned, kept id = false → h.isMarked (ρ id) = false) ∧
      Embeds { A with interned := A.interned.filter kept } h.beginSweep ρ L ∧ h.beginSweep.phase = .sweeping := by
  obtain ⟨-, hfresh⟩ := hE.unswept hphase
  have hbegin := Heap.beginSweep_eq hphase
  obtain ⟨hok, hahead⟩ := hE.ok.beginSweep hphase
  have hspared : ∀ id, L id → (h.beginSweep.Spared (ρ id) ↔ h.isMarked (ρ id) = true) := by
    intro id hid
    have hsome := hE.isSome hid
    obtain ⟨c, hc⟩ := Option.isSome_iff_exists.mp hsome
    have hcells : h.beginSweep.cells (ρ id) = some c := by
      rw [hbegin]
      exact hc
    have hmarked : h.isMarked (ρ id) = c.marked := by
      rw [Heap.isMarked, hc]
      rfl
    rw [hmarked]
    constructor
    · intro hsp
      obtain ⟨d, hd, hkeep⟩ := hsp (hahead _ hsome)
      rw [hcells] at hd
      cases hd
      rwa [hfresh _ c hc, Bool.or_false] at hkeep
    · intro hmark _
      exact ⟨c, hcells, by rw [hmark, Bool.true_or]⟩
  refine ⟨fun id ↦ h.isMarked (ρ id), fun _ _ hkept ↦ hkept, ⟨hok, ?_, ?_, ?_, ?_, ?_, hE.below, hE.kinded,
    fun id hid ↦ hE.texts id (List.mem_of_mem_filter hid), ?_, hE.inj, ?_, fun id hid ↦ ?_, fun id id' hid hrefers ↦ ?_,
    ?_, fun hphase' ↦ absurd ?_ hphase', fun _ a c hc hnot ↦ absurd (hahead a ?_) hnot⟩, ?_⟩
  · rw [hbegin]
    exact hE.gray
  · rw [hbegin]
    exact hE.kinds
  · rw [hbegin]
    exact hE.types
  · rw [hbegin]
    exact hE.immortals
  · rw [hbegin]
    show h.strings.filter h.isMarked = _
    rw [hE.strings, List.filter_map]
    rfl
  · rw [hbegin]
    exact hE.cell
  · rw [hbegin]
    exact hE.onto
  · rcases hid with hstrong' | hmem
    · have hid := (hE.held id (.inl hstrong')).1
      exact ⟨hid, (hspared id hid).mpr (hstrong id hstrong')⟩
    · obtain ⟨hmem, hmark⟩ := List.mem_filter.mp hmem
      have hid := (hE.held id (.inr hmem)).1
      exact ⟨hid, (hspared id hid).mpr hmark⟩
  · have hmark := (hspared id hid.1).mp hid.2
    have hid' := (hE.closed id id' ⟨hid.1, hE.spared hphase _⟩ hrefers).1
    refine ⟨hid', (hspared id' hid').mpr ?_⟩
    rcases hrefers with hchild | hwc
    · exact hshaded id id' hid.1 hmark hchild
    · exact hweak id id' hid.1 hwc
  · rw [hbegin]
    exact hE.weaks
  · rw [hbegin]
  · rw [hbegin] at hc
    exact Option.isSome_iff_exists.mpr ⟨c, hc⟩
  · rw [hbegin]

/-- **Starting the sweep is a reclaim** of handles and strings that nothing reaches. -/
theorem startSweep (hE : Embeds A h ρ L) (hphase : h.phase ≠ .sweeping) (hshaded : Shaded A h ρ L)
    (hstrong : ∀ id, A.Strong id → h.isMarked (ρ id) = true) :
    ∃ dead kept : ℕ → Bool, A.Collects [] (A.reclaim dead kept) ∧
      Embeds (A.reclaim dead kept) h.clearDeadWeaks.beginSweep ρ L ∧
      h.clearDeadWeaks.beginSweep.phase = .sweeping := by
  obtain ⟨dead, hdead, hE₁, hclear, hweak⟩ := hE.cleared hphase
  have hunreached : ∀ {id}, h.isMarked (ρ id) = false → ¬ A.Reachable id := by
    intro id hmark hreach
    rw [(hE.marked_of_reachable hphase hshaded hstrong hreach).2] at hmark
    cases hmark
  have hshaded₁ : Shaded (A.reclaim dead fun _ ↦ true) h.clearDeadWeaks ρ L := by
    intro id id' hid hmark hchild
    rw [hclear.isMarked] at hmark ⊢
    exact hshaded id id' hid hmark (Ideal.child_of_reclaim hchild)
  obtain ⟨kept, hkept, hE₂, hsweeping⟩ := hE₁.beginSweep (by rw [hclear.rest]; exact hphase) hshaded₁
    (fun id hid ↦ by rw [hclear.isMarked]; exact hstrong id hid)
    fun id id' hid hrefers ↦ by rw [hclear.isMarked]; exact hweak id id' hid hrefers
  rw [Ideal.reclaim, List.filter_true] at hE₂ hkept
  refine ⟨dead, kept, .reclaim dead kept (fun id hid ↦ ?_) fun id hid hk ↦ ?_, hE₂, hsweeping⟩
  · obtain ⟨target, ho, htarget⟩ := hdead id hid
    exact ⟨target, ho, fun id' err heq ↦ hunreached (htarget id' err heq)⟩
  · have := hkept id hid hk
    rw [hclear.isMarked] at this
    exact hunreached this

/-! ### Sweeping -/

/-- One visit of the sweep. -/
theorem visit (hE : Embeds A h ρ L) (hphase : h.phase = .sweeping) (hok : h'.Ok) {a : ℕ} (hs : Heap.Swept h h' a) :
    Embeds A h' ρ fun id ↦ L id ∧ (h'.cells (ρ id)).isSome = true := by
  obtain ⟨c, hc, hcells⟩ := hs.cell
  have hself : h'.cells a = Heap.visited c := by rw [hcells, Function.update_self]
  have hother : ∀ {b}, b ≠ a → h'.cells b = h.cells b := fun hne ↦ by rw [hcells, Function.update_of_ne hne]
  have hvisited : ∀ {c'}, Heap.visited c = some c' → (c.marked || c.fresh) = true ∧ c'.obj = c.obj ∧
      c'.mayHoldRefs = c.mayHoldRefs ∧ c'.marked = false ∧ c'.fresh = false := by
    intro c' hc'
    rw [Heap.visited] at hc'
    split at hc'
    · rename_i hkeep
      cases hc'
      exact ⟨hkeep, rfl, rfl, rfl, rfl⟩
    · cases hc'
  have hkept : ∀ {id}, L id → h.Spared (ρ id) → (h'.cells (ρ id)).isSome = true := by
    intro id hid hsp
    rcases eq_or_ne (ρ id) a with heq | hne
    · obtain ⟨d, hd, hkeep⟩ := hsp (heq ▸ hs.ahead)
      rw [heq, hc] at hd
      cases hd
      rw [heq, hself, Heap.visited, if_pos hkeep]
      rfl
    · rw [hother hne]
      exact hE.isSome hid
  have hspared : ∀ {id}, L id → (h'.cells (ρ id)).isSome = true → (h'.Spared (ρ id) ↔ h.Spared (ρ id)) := by
    intro id hid hsome
    have hahead := hs.ahead' (ρ id) (hE.isSome hid)
    rcases eq_or_ne (ρ id) a with heq | hne
    · rw [heq, hself] at hsome
      obtain ⟨c', hc'⟩ := Option.isSome_iff_exists.mp hsome
      refine ⟨fun _ _ ↦ ⟨c, heq ▸ hc, (hvisited hc').1⟩, fun _ hahead' ↦ absurd heq (hahead.mp hahead').2⟩
    · rw [Heap.Spared, Heap.Spared, hother hne, hahead]
      simp only [ne_eq, hne, not_false_iff, and_true]
  refine ⟨hok, by rw [hs.rest]; exact hE.gray, by rw [hs.rest]; exact hE.kinds, by rw [hs.rest]; exact hE.types,
    by rw [hs.rest]; exact hE.immortals, by rw [hs.rest]; exact hE.strings, hE.below, hE.kinded, hE.texts,
    fun id hid ↦ ?_, fun id id' hid hid' ↦ hE.inj id id' hid.1 hid'.1, fun b hb ↦ ?_, fun id hid ↦ ?_,
    fun id id' hid hrefers ↦ ?_, fun id target hid ho ↦ ?_, fun hnot ↦ absurd ?_ hnot, fun _ b c' hc' hnot ↦ ?_⟩
  · obtain ⟨o, d, ho, hd, hobj, hflag⟩ := hE.cell id hid.1
    rcases eq_or_ne (ρ id) a with heq | hne
    · have hsome := hid.2
      rw [heq, hc] at hd
      cases hd
      rw [heq, hself] at hsome
      obtain ⟨c', hc'⟩ := Option.isSome_iff_exists.mp hsome
      obtain ⟨-, hobj', hflag', -⟩ := hvisited hc'
      exact ⟨o, c', ho, by rw [heq, hself, hc'], hobj'.trans hobj, fun hfalse ↦ hflag (hflag' ▸ hfalse)⟩
    · exact ⟨o, d, ho, by rw [hother hne, hd], hobj, hflag⟩
  · have hsome : (h.cells b).isSome = true := by
      rcases eq_or_ne b a with rfl | hne
      · rw [hc]
        rfl
      · rwa [hother hne] at hb
    obtain ⟨id, hid, rfl⟩ := hE.onto b hsome
    exact ⟨id, ⟨hid, hb⟩, rfl⟩
  · obtain ⟨hlive, hsp⟩ := hE.held id hid
    have hsome := hkept hlive hsp
    exact ⟨⟨hlive, hsome⟩, (hspared hlive hsome).mpr hsp⟩
  · obtain ⟨hlive, hsp⟩ := hE.closed id id' ⟨hid.1.1, (hspared hid.1.1 hid.1.2).mp hid.2⟩ hrefers
    have hsome := hkept hlive hsp
    exact ⟨⟨hlive, hsome⟩, (hspared hlive hsome).mpr hsp⟩
  · rw [hs.rest]
    exact hE.weaks id target hid.1 ho
  · rw [hs.rest]
    exact hphase
  · rcases eq_or_ne b a with rfl | hne
    · rw [hself] at hc'
      exact (hvisited hc').2.2.2
    · rw [hother hne] at hc'
      refine hE.swept hphase b c' hc' fun hahead ↦ hnot ?_
      exact (hs.ahead' b (by rw [hc']; rfl)).mpr ⟨hahead, hne⟩

/-- No object is ahead any more. -/
theorem walked (hE : Embeds A h ρ L) (hphase : h.phase = .sweeping)
    (hnone : ∀ b, (h.cells b).isSome = true → ¬ h.Ahead b) (hok : Heap.Ok { h with cursor := none }) :
    Embeds A { h with cursor := none } ρ L := by
  have hahead : ∀ a, ¬ Heap.Ahead { h with cursor := none } a := fun a ↦ Heap.not_ahead_of_none rfl
  refine hE.congr hok hE.gray rfl (fun _ ha ↦ ha) (fun id c _ hc ↦ ⟨c, hc, rfl, .inl⟩) (fun id hid ↦ ?_)
    (fun hnot ↦ absurd hphase hnot) fun _ a c hc _ ↦ hE.swept hphase a c hc (hnone a ?_)
  · exact ⟨fun _ hcur ↦ absurd hcur (hnone _ (hE.isSome hid)), fun _ hcur ↦ absurd hcur (hahead _)⟩
  · exact Option.isSome_iff_exists.mpr ⟨c, hc⟩

/-- The sweep is over: all marks are gone. -/
theorem finishSweepCycle (hE : Embeds A h ρ L) (hphase : h.phase = .sweeping) (hcur : h.cursor = none) (env : Env) :
    Embeds A (h.finishSweepCycle env) ρ L ∧ ∀ a, (h.finishSweepCycle env).isMarked a = false := by
  have hclean : ∀ a c, h.cells a = some c → c.marked = false ∧ c.fresh = false := fun a c hc ↦
    hE.swept hphase a c hc (Heap.not_ahead_of_none hcur)
  have hahead : ∀ a, ¬ (h.finishSweepCycle env).Ahead a := fun a ↦ Heap.not_ahead_of_none rfl
  refine ⟨hE.congr (hE.ok.finishSweepCycle env) hE.gray rfl (fun _ ha ↦ ha) (fun id c _ hc ↦ ⟨c, hc, rfl, .inl⟩)
    (fun id hid ↦ ?_) (fun _ ↦ ⟨rfl, fun a c hc ↦ (hclean a c hc).2⟩) fun hsweeping ↦ (by cases hsweeping),
    fun a ↦ ?_⟩
  · exact ⟨fun _ hahead ↦ absurd hahead (Heap.not_ahead_of_none hcur), fun _ h' ↦ absurd h' (hahead _)⟩
  · show (h.cells a).any Cell.marked = false
    cases hc : h.cells a with
    | none => rfl
    | some c => exact (hclean a c hc).1

/-- **The ideal heap sees nothing of a sweep.** -/
theorem sweeps (env : Env) (A : Ideal) (ρ : ℕ → ℕ) :
    Heap.Invariant env (fun h ↦ h.phase = .sweeping ∧ ∃ L, Embeds A h ρ L)
      fun h ↦ h.phase = .idle ∧ (∀ a, h.isMarked a = false) ∧ ∃ L, Embeds A h ρ L where
  step := by
    rintro h ⟨hphase, L, hE⟩ hcur
    obtain ⟨hok, ⟨hdone, hnone⟩ | ⟨a, hs⟩⟩ := Heap.sweepOne_cases hE.ok hcur
    · rw [hdone] at hok ⊢
      exact ⟨hphase, L, hE.walked hphase hnone hok⟩
    · refine ⟨?_, _, hE.visit hphase hok hs⟩
      rw [hs.rest]
      exact hphase
  finish := by
    rintro h ⟨hphase, L, hE⟩ hcur
    obtain ⟨hE', hwhite⟩ := hE.finishSweepCycle hphase hcur env
    exact ⟨rfl, hwhite, L, hE'⟩
  ok := fun h ⟨_, _, hE⟩ ↦ hE.ok
  sweeping := fun h hh ↦ hh.1

end Embeds

end CoilLang.Gc
