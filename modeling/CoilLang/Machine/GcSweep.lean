import CoilLang.Machine.GcMark

/-!
# Sweeping the heap

The sweep visits each object ahead of its cursor once: it is freed if it is neither marked nor fresh, and loses mark
and tag otherwise (`Swept`). Objects behind the cursor are left alone, and **an object that is allocated meanwhile is
behind the cursor or fresh**, so the sweep frees nothing that was not there, unmarked, when it began.
-/

namespace CoilLang.Gc.Heap

open Slab (Inv CursorOk WalkOk)
open Machine.Snapshot (WordKind)

variable {h h' : Heap} {a : ℕ}

/-! ### The slab and the objects -/

/-- The objects are in the slots that the slab has handed out, and the sweep is a walk of the slab. -/
structure Ok (h : Heap) : Prop where
  out : ∃ out, Inv h.slab out ∧ ∀ a, (h.cells a).isSome = true ↔ a ∈ out
  even : h.slab.EvenSlots
  cursor : ∀ cur, h.cursor = some cur → CursorOk h.slab cur ∧ WalkOk h.slab ⟨cur, none⟩

theorem Ok.live (hok : h.Ok) (ha : (h.cells a).isSome = true) : h.slab.Live a := by
  obtain ⟨out, hinv, hout⟩ := hok.out
  exact hinv.live_of_out ((hout a).mp ha)

theorem Ok.inSlots (hok : h.Ok) : h.InSlots := by
  intro a ha
  obtain ⟨i, c, hc, -, hp⟩ := hok.live ha
  exact List.mem_flatMap.mpr ⟨c, List.mem_of_getElem? hc, hp⟩

/-- Objects are at even addresses, none at 0. -/
theorem Ok.address (hok : h.Ok) (ha : (h.cells a).isSome = true) : a ≠ 0 ∧ 2 ∣ a := by
  obtain ⟨out, hinv, -⟩ := hok.out
  exact hok.even.of_live hinv (hok.live ha)

theorem Ok.find_eq (hok : h.Ok) (a : ℕ) : h.find a = h.cells a := by
  rw [find]
  split
  · rename_i hzero
    cases hc : h.cells a with
    | none => rfl
    | some c => exact absurd hzero (hok.address (Option.isSome_iff_exists.mpr ⟨c, hc⟩)).1
  · rfl

/-- The same slab, with objects in the same slots. -/
theorem Ok.congr (hok : h.Ok) (hslab : h'.slab = h.slab) (hcells : ∀ a, (h'.cells a).isSome = (h.cells a).isSome)
    (hcursor : h'.cursor = h.cursor) : h'.Ok where
  out := by
    obtain ⟨out, hinv, hout⟩ := hok.out
    exact ⟨out, hslab ▸ hinv, fun a ↦ (hcells a).symm ▸ hout a⟩
  even := hslab ▸ hok.even
  cursor cur hcur := hslab ▸ hok.cursor cur (hcursor ▸ hcur)

theorem Marked.ok (hm : Marked h h') (hok : h.Ok) : h'.Ok :=
  hok.congr hm.slab hm.isSome hm.cursor

theorem ok_start (classKinds : ℕ → List WordKind) : Ok { classKinds } where
  out := ⟨[], Slab.inv_empty, fun _ ↦ ⟨nofun, nofun⟩⟩
  even := fun _ hc ↦ absurd hc List.not_mem_nil
  cursor _ hcur := by cases hcur

/-! ### Ahead of the sweep -/

/-- The sweep has yet to visit `a`. -/
def Ahead (h : Heap) (a : ℕ) : Prop := ∃ cur, h.cursor = some cur ∧ a ∈ h.slab.ahead cur

theorem not_ahead_of_none (hcur : h.cursor = none) : ¬ h.Ahead a := by
  rintro ⟨cur, hsome, -⟩
  rw [hcur] at hsome
  cases hsome

/-- Looking for the next object passes free slots only. -/
theorem nextObject_spec {n : ℕ} {cur : Slab.SlotCursor} (hcur : CursorOk h.slab cur)
    (hwalk : WalkOk h.slab ⟨cur, none⟩) (hn : (h.slab.ahead cur).length < n) :
    ((∃ cur', h.nextObject n cur = (none, cur')) ∧ ∀ p ∈ h.slab.ahead cur, h.cells p = none) ∨
      ∃ a cur' skipped, h.nextObject n cur = (some a, cur') ∧ (h.cells a).isSome = true ∧
        h.slab.ahead cur = skipped ++ a :: h.slab.ahead cur' ∧ (∀ p ∈ skipped, h.cells p = none) ∧
        CursorOk h.slab cur' ∧ WalkOk h.slab ⟨cur', some a⟩ := by
  induction n generalizing cur with
  | zero => exact absurd hn (Nat.not_lt_zero _)
  | succ n ih =>
    have hcur' := hcur.nextSlot
    have hwalk' := hwalk.nextSlot
    rw [nextObject]
    cases hnext : h.slab.nextSlot cur with
    | mk r cur' =>
      rw [hnext] at hcur' hwalk'
      dsimp only at hcur' hwalk'
      cases r with
      | none =>
        refine .inl ⟨⟨cur', rfl⟩, ?_⟩
        rw [Slab.nextSlot_none hnext]
        exact fun p hp ↦ absurd hp List.not_mem_nil
      | some p =>
        have hahead := Slab.nextSlot_some hnext
        dsimp only
        split
        · rename_i hlive
          exact .inr ⟨p, cur', [], rfl, hlive, hahead, fun _ hq ↦ absurd hq List.not_mem_nil, hcur', hwalk'⟩
        · rename_i hfree
          have hfree : h.cells p = none := Option.not_isSome_iff_eq_none.mp hfree
          rw [hahead, List.length_cons] at hn
          rcases ih hcur' ⟨fun _ hq ↦ (by cases hq), hwalk'.rest, hwalk'.list⟩ (by omega) with
            ⟨hnone, hall⟩ | ⟨a, cur'', skipped, hfound, hlive, hsplit, hskip, hmore⟩
          · refine .inl ⟨hnone, fun q hq ↦ ?_⟩
            rcases List.mem_cons.mp (hahead ▸ hq) with rfl | hq
            · exact hfree
            · exact hall q hq
          · refine .inr ⟨a, cur'', p :: skipped, hfound, hlive, ?_, fun q hq ↦ ?_, hmore⟩
            · rw [hahead, hsplit]
              rfl
            · rcases List.mem_cons.mp hq with rfl | hq
              · exact hfree
              · exact hskip q hq

/-- What the sweep leaves of an object it visits. -/
def visited (c : Cell) : Option Cell :=
  if c.marked || c.fresh then some { c with marked := false, fresh := false } else none

/-- One visit of the sweep, to the object at `a`. -/
structure Swept (h h' : Heap) (a : ℕ) : Prop where
  ahead : h.Ahead a
  ahead' : ∀ b, (h.cells b).isSome = true → (h'.Ahead b ↔ h.Ahead b ∧ b ≠ a)
  cell : ∃ c, h.cells a = some c ∧ h'.cells = Function.update h.cells a (visited c)
  rest : h' = { h with slab := h'.slab, cells := h'.cells, cursor := h'.cursor }
  shorter : h'.aheadLength < h.aheadLength

theorem aheadLength_some {cur : Slab.SlotCursor} (hcur : h.cursor = some cur) :
    h.aheadLength = (h.slab.ahead cur).length := by
  rw [aheadLength, hcur]
  rfl

/-- One step of the sweep visits an object, or finds that none is left. -/
theorem sweepOne_cases (hok : h.Ok) (hcur : h.cursor.isSome = true) : h.sweepOne.Ok ∧
    (h.sweepOne = { h with cursor := none } ∧ (∀ b, (h.cells b).isSome = true → ¬ h.Ahead b) ∨
      ∃ a, Swept h h.sweepOne a) := by
  obtain ⟨cur, hcur⟩ := Option.isSome_iff_exists.mp hcur
  obtain ⟨hcursor, hwalk⟩ := hok.cursor cur hcur
  have hlen := aheadLength_some hcur
  rcases nextObject_spec hcursor hwalk (n := h.aheadLength + 1) (by omega) with
    ⟨⟨cur', hnone⟩, hfree⟩ | ⟨a, cur', skipped, hfound, hlive, hsplit, hskip, hcursor', hwalk'⟩
  · have hone : h.sweepOne = { h with cursor := none } := by
      rw [sweepOne, hcur]
      dsimp only
      rw [hnone]
    rw [hone]
    refine ⟨⟨hok.out, hok.even, fun _ hc ↦ (by cases hc)⟩, .inl ⟨rfl, ?_⟩⟩
    rintro b hb ⟨cur'', hcur'', hmem⟩
    rw [hcur] at hcur''
    cases hcur''
    rw [hfree b hmem] at hb
    cases hb
  obtain ⟨c, hc⟩ := Option.isSome_iff_exists.mp hlive
  obtain ⟨out, hinv, hout⟩ := hok.out
  have hmem : a ∈ h.slab.ahead cur := hsplit ▸ List.mem_append_right _ List.mem_cons_self
  have hnodup := hcursor.nodup_ahead hinv
  have hrest : ∀ b, (h.cells b).isSome = true → (b ∈ h.slab.ahead cur' ↔ b ∈ h.slab.ahead cur ∧ b ≠ a) := by
    intro b hb
    rw [hsplit] at hnodup ⊢
    have hnot := (List.nodup_cons.mp (List.nodup_append.mp hnodup).2.1).1
    constructor
    · intro hb'
      refine ⟨List.mem_append_right _ (List.mem_cons_of_mem _ hb'), ?_⟩
      rintro rfl
      exact hnot hb'
    · rintro ⟨hb', hne⟩
      rcases List.mem_append.mp hb' with hsk | hcons
      · rw [hskip b hsk] at hb
        cases hb
      · rcases List.mem_cons.mp hcons with rfl | hb'
        · exact absurd rfl hne
        · exact hb'
  have hshort : (h.slab.ahead cur').length < (h.slab.ahead cur).length := by
    rw [hsplit, List.length_append, List.length_cons]
    omega
  have hahead : h.Ahead a := ⟨cur, hcur, hmem⟩
  have hiff : ∀ {t : Heap} {cur'' : Slab.SlotCursor}, t.cursor = some cur'' →
      t.slab.ahead cur'' = h.slab.ahead cur' → ∀ b, (h.cells b).isSome = true → (t.Ahead b ↔ h.Ahead b ∧ b ≠ a) := by
    intro t cur'' ht hsame b hb
    constructor
    · rintro ⟨c₁, hc₁, hmem₁⟩
      rw [ht] at hc₁
      cases hc₁
      obtain ⟨hb', hne⟩ := (hrest b hb).mp (hsame ▸ hmem₁)
      exact ⟨⟨cur, hcur, hb'⟩, hne⟩
    · rintro ⟨⟨c₁, hc₁, hmem₁⟩, hne⟩
      rw [hcur] at hc₁
      cases hc₁
      exact ⟨cur'', ht, hsame.symm ▸ (hrest b hb).mpr ⟨hmem₁, hne⟩⟩
  have hone : h.sweepOne = if c.marked || c.fresh then
      { h with
        cells := Function.update h.cells a (some { c with marked := false, fresh := false })
        cursor := some cur' }
      else { h with
        slab := (h.slab.freeAtCursor cur' a).1
        cells := Function.update h.cells a none
        cursor := some (h.slab.freeAtCursor cur' a).2 } := by
    rw [sweepOne, hcur]
    dsimp only
    rw [hfound]
    dsimp only
    rw [hc]
  have hwalk'' : WalkOk h.slab ⟨cur', none⟩ := ⟨fun _ hq ↦ (by cases hq), hwalk'.rest, hwalk'.list⟩
  rw [hone]
  split
  · rename_i hkeep
    have hcells : ∀ b, (Function.update h.cells a (some { c with marked := false, fresh := false }) b).isSome =
        (h.cells b).isSome := by
      intro b
      rw [Function.update_apply]
      split
      · rename_i hb
        rw [hb, hc]
        rfl
      · rfl
    refine ⟨⟨⟨out, hinv, fun b ↦ (hcells b).symm ▸ hout b⟩, hok.even, fun c₁ hc₁ ↦ ?_⟩, .inr ⟨a, hahead, hiff rfl rfl,
      ⟨c, hc, ?_⟩, rfl, ?_⟩⟩
    · cases hc₁
      exact ⟨hcursor', hwalk''⟩
    · rw [visited, if_pos hkeep]
    · rw [hlen, aheadLength_some (h := { h with cells := _, cursor := some cur' }) rfl]
      exact hshort
  · rename_i hkeep
    obtain ⟨hchunks, hmask, n, hcur''⟩ := Slab.freeAtCursor_same h.slab cur' a
    obtain ⟨hinv', -, hwalk₁⟩ := hinv.freeAtCursor hwalk' rfl ((hout a).mp hlive)
    have hsame : (h.slab.freeAtCursor cur' a).1.ahead (h.slab.freeAtCursor cur' a).2 = h.slab.ahead cur' := by
      rw [hcur'']
      exact Slab.ahead_congr hchunks hmask cur' n
    refine ⟨⟨⟨out.erase a, hinv', fun b ↦ ?_⟩, ?_, fun c₁ hc₁ ↦ ?_⟩,
      .inr ⟨a, hahead, hiff rfl hsame, ⟨c, hc, ?_⟩, rfl, ?_⟩⟩
    · show (Function.update h.cells a none b).isSome = true ↔ _
      have hcount : out.count a + h.slab.freeCount a = 1 := hinv.live a (hok.live hlive)
      rw [Function.update_apply]
      split
      · rename_i hb
        subst hb
        have hpos := List.count_pos_iff.mpr ((hout b).mp hlive)
        have hzero : b ∉ out.erase b := by
          intro hmem
          have := List.count_pos_iff.mpr hmem
          rw [List.count_erase_self] at this
          omega
        simp [hzero]
      · rename_i hb
        rw [hout b, List.mem_erase_of_ne hb]
    · show Slab.EvenSlots _
      rw [Slab.EvenSlots, hchunks]
      exact hok.even
    · cases hc₁
      refine ⟨?_, ⟨fun _ hq ↦ (by cases hq), hwalk₁.rest, hwalk₁.list⟩⟩
      rw [hcur'']
      exact (hcursor'.extends (Slab.extends_congr hchunks hmask)).withFreeClass n
    · rw [visited, if_neg hkeep]
    · rw [hlen, aheadLength_some (h := { h with
        slab := (h.slab.freeAtCursor cur' a).1, cells := _, cursor := some (h.slab.freeAtCursor cur' a).2 }) rfl]
      show ((h.slab.freeAtCursor cur' a).1.ahead (h.slab.freeAtCursor cur' a).2).length < _
      rw [hsame]
      exact hshort

/-! ### Whole sweeps -/

/-- What holds at every step of a sweep and gives `Q` at its end. -/
structure Invariant (env : Env) (P Q : Heap → Prop) : Prop where
  step : ∀ h, P h → h.cursor.isSome = true → P h.sweepOne
  finish : ∀ h, P h → h.cursor = none → Q (h.finishSweepCycle env)
  ok : ∀ h, P h → h.Ok
  sweeping : ∀ h, P h → h.phase = .sweeping

variable {env : Env} {P Q : Heap → Prop}

theorem Invariant.sweepLoop (hP : Invariant env P Q) {n : ℕ} (hh : P h) :
    P (h.sweepLoop env n).1 ∨ Q (h.sweepLoop env n).1 := by
  induction n generalizing h with
  | zero =>
    rw [Heap.sweepLoop]
    split
    · rename_i hnone
      exact .inr (hP.finish h hh (Option.isNone_iff_eq_none.mp hnone))
    · exact .inl hh
  | succ n ih =>
    rw [Heap.sweepLoop]
    split
    · rename_i hnone
      exact .inr (hP.finish h hh (Option.isNone_iff_eq_none.mp hnone))
    · rename_i hsome
      refine ih (hP.step h hh ?_)
      rw [← Option.not_isNone, Bool.not_eq_true']
      exact Bool.not_eq_true _ ▸ hsome

theorem Invariant.sweepQuantum (hP : Invariant env P Q) {n : ℕ} (hh : P h) :
    P (h.sweepQuantum env n).1 ∨ Q (h.sweepQuantum env n).1 := by
  rw [Heap.sweepQuantum, if_neg (by rw [hP.sweeping h hh]; simp)]
  exact hP.sweepLoop hh

theorem Invariant.sweepRest (hP : Invariant env P Q) {n : ℕ} (hh : P h) (hn : h.aheadLength < n) :
    P (sweepRest n h) ∧ (sweepRest n h).cursor = none := by
  induction n generalizing h with
  | zero => exact absurd hn (Nat.not_lt_zero _)
  | succ n ih =>
    rw [Heap.sweepRest]
    split
    · rename_i hsome
      have hnext := hP.step h hh hsome
      rcases (sweepOne_cases (hP.ok h hh) hsome).2 with ⟨hdone, -⟩ | ⟨a, hswept⟩
      · have hnone : h.sweepOne.cursor = none := by rw [hdone]
        have hrest : Heap.sweepRest n h.sweepOne = h.sweepOne := by
          cases n with
          | zero => rfl
          | succ n => rw [Heap.sweepRest, hnone]; rfl
        rw [hrest]
        exact ⟨hnext, hnone⟩
      · have := hswept.shorter
        exact ih hnext (by omega)
    · rename_i hnone
      exact ⟨hh, Option.not_isSome_iff_eq_none.mp hnone⟩

/-- **A sweep that is finished ends**, in what the invariant gives. -/
theorem Invariant.finishSweep (hP : Invariant env P Q) (hh : P h) : Q (h.finishSweep env) := by
  rw [Heap.finishSweep, if_neg (by rw [hP.sweeping h hh]; simp)]
  obtain ⟨hrest, hnone⟩ := hP.sweepRest hh (Nat.lt_succ_self _)
  exact hP.finish _ hrest hnone

theorem Ok.finishSweepCycle (hok : h.Ok) (env : Env) : (h.finishSweepCycle env).Ok where
  out := by
    obtain ⟨out, hinv, hout⟩ := hok.out
    exact ⟨out, hinv.releaseIdleChunks env.os, hout⟩
  even := by
    show Slab.EvenSlots (h.slab.releaseIdleChunks env.os).2
    rw [Slab.EvenSlots, Slab.chunks_releaseIdleChunks]
    exact hok.even
  cursor _ hcur := by cases hcur

/-! ### Allocating meanwhile -/

/-- A new object is in a slot that held none. It is black while marking, and fresh if it is ahead of a sweep. -/
structure Placed (h h' : Heap) (p : ℕ) (obj : Object ℕ) (mayHoldRefs : Bool) : Prop where
  free : h.cells p = none
  ok : h'.Ok
  ahead : ∀ b, (h.cells b).isSome = true → (h'.Ahead b ↔ h.Ahead b)
  cell : ∃ c : Cell, h'.cells = Function.update h.cells p (some c) ∧ c.obj = obj ∧ c.mayHoldRefs = mayHoldRefs ∧
    c.marked = decide (h.phase = .marking) ∧ (c.fresh = true ↔ h.phase = .sweeping ∧ h'.Ahead p)
  rest : h' = { h with
    slab := h'.slab
    cells := h'.cells
    weaks := if obj.isWeak then h.weaks ++ [p] else h.weaks
    finalizable := if obj.hasFinalizer h.finalizerTypes then h.finalizable ++ [p] else h.finalizable }

theorem alloc_spec (hok : h.Ok) {obj : Object ℕ} {mayHoldRefs : Bool} {q : ℕ}
    (halloc : h.alloc env obj mayHoldRefs = some (q, h')) : Placed h h' q obj mayHoldRefs := by
  obtain ⟨⟨p, slab⟩, hslab, hplace⟩ := Option.map_eq_some_iff.mp halloc
  obtain ⟨rfl, rfl⟩ := Prod.mk.inj hplace
  obtain ⟨out, hinv, hout⟩ := hok.out
  have hinv' := hinv.alloc hslab
  have hextends := Slab.extends_alloc hslab
  have hcount : (p :: out).count p + slab.freeCount p = 1 := hinv'.live p (hinv'.live_of_out List.mem_cons_self)
  have hnot : p ∉ out := by
    intro hmem
    have := List.count_pos_iff.mpr hmem
    rw [List.count_cons_self] at hcount
    omega
  have hfree : h.cells p = none := by
    cases hc : h.cells p with
    | none => rfl
    | some c => exact absurd ((hout p).mp (Option.isSome_iff_exists.mpr ⟨c, hc⟩)) hnot
  refine ⟨hfree, ⟨⟨p :: out, hinv', fun b ↦ ?_⟩, hok.even.alloc env.mapped (env.even _) hslab, fun cur hcur ↦ ?_⟩,
    fun b hb ↦ ?_, ⟨_, rfl, rfl, rfl, rfl, ?_⟩, rfl⟩
  · show (Function.update h.cells p _ b).isSome = true ↔ _
    rw [Function.update_apply, List.mem_cons]
    split
    · rename_i hb
      simp [hb]
    · rename_i hb
      rw [hout b]
      simp [hb]
  · obtain ⟨hcursor, hwalk⟩ := hok.cursor cur hcur
    exact ⟨hcursor.extends hextends, hwalk.grows (Slab.grows_alloc hslab)⟩
  · constructor
    · rintro ⟨cur, hcur, hmem⟩
      exact ⟨cur, hcur, ((hok.cursor cur hcur).1.mem_ahead_extends hinv hinv' hextends (hok.live hb)).mp hmem⟩
    · rintro ⟨cur, hcur, hmem⟩
      exact ⟨cur, hcur, ((hok.cursor cur hcur).1.mem_ahead_extends hinv hinv' hextends (hok.live hb)).mpr hmem⟩
  · show (decide (h.phase = .sweeping) && h.cursor.any fun cur ↦ !slab.walkPassed cur p) = true ↔ _
    rw [Bool.and_eq_true, decide_eq_true_eq]
    refine and_congr_right fun _ ↦ ?_
    cases hcur : h.cursor with
    | none =>
      refine ⟨fun hf ↦ (by cases hf), ?_⟩
      rintro ⟨cur, hsome, -⟩
      exact absurd (hcur.symm.trans hsome) (by simp)
    | some cur =>
      have hpassed := ((hok.cursor cur hcur).1.extends hextends).walkPassed_iff hinv'
        (hinv'.live_of_out List.mem_cons_self)
      show (!slab.walkPassed cur p) = true ↔ _
      rw [Bool.not_eq_true', ← Bool.not_eq_true, hpassed, not_not]
      constructor
      · exact fun hmem ↦ ⟨cur, hcur, hmem⟩
      · rintro ⟨cur', hcur', hmem⟩
        have : some cur' = some cur := hcur'.symm.trans hcur
        cases this
        exact hmem

end CoilLang.Gc.Heap
