import CoilLang.Machine.GcCycle

/-!
# What a collection leaves

Safety says that nothing in use is freed; here is that **all else is freed**. A lazy sweep, with allocations and
writes between its quanta, leaves the objects that were marked when it began and the ones allocated since
(`LazySweep.sweep_exact`), and a collection in one call leaves what the roots reach and nothing else (`collect_exact`),
where an integer that looks like an address counts as a reference.
-/

namespace CoilLang.Gc.Heap

open Tricolour
open Machine.Snapshot (WordKind heapAddr)

variable {h h' h₀ : Heap} {env : Env} {keep : ℕ → Option (Object ℕ)}

/-! ### Lazy sweeps -/

/-- The objects that are marked. -/
def markedObjects (h : Heap) (a : ℕ) : Option (Object ℕ) := ((h.cells a).filter Cell.marked).map Cell.obj

/-- A sweep of `h₀` in any number of quanta, while the program allocates and writes. `keep` says which objects the
program counts on: those marked at the start, and the new ones. -/
inductive LazySweep (env : Env) (h₀ : Heap) : (ℕ → Option (Object ℕ)) → Heap → Prop
  | start : LazySweep env h₀ h₀.markedObjects h₀.beginSweep
  | sweep {keep : ℕ → Option (Object ℕ)} {h : Heap} (n : ℕ) (hrun : LazySweep env h₀ keep h) :
    LazySweep env h₀ keep (h.sweepQuantum env n).1
  | finish {keep : ℕ → Option (Object ℕ)} {h : Heap} (hrun : LazySweep env h₀ keep h) :
    LazySweep env h₀ keep (h.finishSweep env)
  | alloc {keep : ℕ → Option (Object ℕ)} {h h' : Heap} {obj : Object ℕ} {mayHoldRefs : Bool} {p : ℕ}
    (hrun : LazySweep env h₀ keep h) (hphase : h.phase = .sweeping)
    (halloc : h.alloc env obj mayHoldRefs = some (p, h')) : LazySweep env h₀ (Function.update keep p (some obj)) h'
  | write {keep : ℕ → Option (Object ℕ)} {h : Heap} {a : ℕ} {c : Cell} (obj : Object ℕ) (mayHoldRefs : Bool)
    (hrun : LazySweep env h₀ keep h) (hkeep : (keep a).isSome = true) (hcell : h.cells a = some c) :
    LazySweep env h₀ (Function.update keep a (some obj))
      { h with cells := Function.update h.cells a (some { c with obj, mayHoldRefs }) }

/-- What holds while the sweep is open: the kept objects are in the heap and the sweep lets them through, and the
others are ahead of it. -/
structure Keeps (keep : ℕ → Option (Object ℕ)) (h : Heap) : Prop where
  ok : h.Ok
  phase : h.phase = .sweeping
  kept : ∀ a o, keep a = some o → ∃ c, h.cells a = some c ∧ c.obj = o ∧ (h.Ahead a → (c.marked || c.fresh) = true)
  others : ∀ a c, h.cells a = some c → keep a = none → h.Ahead a ∧ (c.marked || c.fresh) = false
  clean : ∀ a c, h.cells a = some c → ¬ h.Ahead a → c.marked = false ∧ c.fresh = false

/-- What holds when it is over. -/
structure Kept (keep : ℕ → Option (Object ℕ)) (h : Heap) : Prop where
  ok : h.Ok
  phase : h.phase = .idle
  exact : ∀ a, (h.cells a).map Cell.obj = keep a
  clean : ∀ a c, h.cells a = some c → c.marked = false ∧ c.fresh = false

theorem Keeps.visit (hk : Keeps keep h) (hok : h'.Ok) {a : ℕ} (hs : Swept h h' a) : Keeps keep h' := by
  obtain ⟨c, hc, hcells⟩ := hs.cell
  have hself : h'.cells a = visited c := by rw [hcells, Function.update_self]
  have hother : ∀ {b}, b ≠ a → h'.cells b = h.cells b := fun hne ↦ by rw [hcells, Function.update_of_ne hne]
  have hnot : ∀ {c'}, h'.cells a = some c' → ¬ h'.Ahead a := fun hc' hahead ↦
    ((hs.ahead' a (by rw [hc]; rfl)).mp hahead).2 rfl
  refine ⟨hok, by rw [hs.rest]; exact hk.phase, fun b o hb ↦ ?_, fun b c' hc' hb ↦ ?_, fun b c' hc' hb ↦ ?_⟩
  · obtain ⟨d, hd, hobj, hthrough⟩ := hk.kept b o hb
    rcases eq_or_ne b a with rfl | hne
    · cases hc.symm.trans hd
      have hself' : h'.cells b = some { c with marked := false, fresh := false } := by
        rw [hself, visited, if_pos (hthrough hs.ahead)]
      exact ⟨_, hself', hobj, fun hahead ↦ absurd hahead (hnot hself')⟩
    · refine ⟨d, (hother hne).trans hd, hobj, fun hahead ↦ hthrough ?_⟩
      exact ((hs.ahead' b (by rw [hd]; rfl)).mp hahead).1
  · rcases eq_or_ne b a with rfl | hne
    · have := (hk.others b c hc hb).2
      rw [hself, visited, this] at hc'
      cases hc'
    · rw [hother hne] at hc'
      obtain ⟨hahead, hfree⟩ := hk.others b c' hc' hb
      exact ⟨(hs.ahead' b (by rw [hc']; rfl)).mpr ⟨hahead, hne⟩, hfree⟩
  · rcases eq_or_ne b a with rfl | hne
    · rw [hself, visited] at hc'
      split at hc'
      · cases hc'
        exact ⟨rfl, rfl⟩
      · cases hc'
    · rw [hother hne] at hc'
      exact hk.clean b c' hc' fun hahead ↦ hb ((hs.ahead' b (by rw [hc']; rfl)).mpr ⟨hahead, hne⟩)

theorem Keeps.walked (hk : Keeps keep h) (hnone : ∀ b, (h.cells b).isSome = true → ¬ h.Ahead b)
    (hok : Ok { h with cursor := none }) : Keeps keep { h with cursor := none } := by
  refine ⟨hok, hk.phase, fun b o hb ↦ ?_, fun b c hc hb ↦ ?_, fun b c hc _ ↦ ?_⟩
  · obtain ⟨c, hc, hobj, -⟩ := hk.kept b o hb
    exact ⟨c, hc, hobj, fun hahead ↦ absurd hahead (not_ahead_of_none rfl)⟩
  · exact absurd (hk.others b c hc hb).1 (hnone b (Option.isSome_iff_exists.mpr ⟨c, hc⟩))
  · exact hk.clean b c hc (hnone b (Option.isSome_iff_exists.mpr ⟨c, hc⟩))

theorem Keeps.finishSweepCycle (hk : Keeps keep h) (hcur : h.cursor = none) (env : Env) :
    Kept keep (h.finishSweepCycle env) := by
  refine ⟨hk.ok.finishSweepCycle env, rfl, fun a ↦ ?_, fun a c hc ↦ hk.clean a c hc (not_ahead_of_none hcur)⟩
  show (h.cells a).map Cell.obj = keep a
  cases hkeep : keep a with
  | some o =>
    obtain ⟨c, hc, hobj, -⟩ := hk.kept a o hkeep
    rw [hc, ← hobj]
    rfl
  | none =>
    cases hc : h.cells a with
    | none => rfl
    | some c => exact absurd (hk.others a c hc hkeep).1 (not_ahead_of_none hcur)

theorem Keeps.sweeps (env : Env) (keep : ℕ → Option (Object ℕ)) : Invariant env (Keeps keep) (Kept keep) where
  step h hk hcur := by
    obtain ⟨hok, ⟨hdone, hnone⟩ | ⟨a, hs⟩⟩ := sweepOne_cases hk.ok hcur
    · rw [hdone] at hok ⊢
      exact hk.walked hnone hok
    · exact hk.visit hok hs
  finish h hk hcur := hk.finishSweepCycle hcur env
  ok h hk := hk.ok
  sweeping h hk := hk.phase

/-- A new object is kept. -/
theorem Keeps.alloc (hk : Keeps keep h) {obj : Object ℕ} {mayHoldRefs : Bool} {p : ℕ}
    (halloc : h.alloc env obj mayHoldRefs = some (p, h')) : Keeps (Function.update keep p (some obj)) h' := by
  have hp := alloc_spec hk.ok halloc
  obtain ⟨c, hcells, hobj, -, hmark, hfresh⟩ := hp.cell
  have hself : h'.cells p = some c := by rw [hcells, Function.update_self]
  refine ⟨hp.ok, by rw [hp.rest]; exact hk.phase, fun a o ha ↦ ?_, fun a d hd ha ↦ ?_, fun a d hd ha ↦ ?_⟩
  · rcases eq_or_ne a p with rfl | hne
    · rw [Function.update_self] at ha
      refine ⟨c, hself, hobj.trans (Option.some.inj ha), fun hahead ↦ ?_⟩
      rw [hfresh.mpr ⟨hk.phase, hahead⟩, Bool.or_true]
    · rw [Function.update_of_ne hne] at ha
      obtain ⟨d, hd, hobj', hthrough⟩ := hk.kept a o ha
      refine ⟨d, by rw [hcells, Function.update_of_ne hne, hd], hobj', fun hahead ↦ hthrough ?_⟩
      exact (hp.ahead a (by rw [hd]; rfl)).mp hahead
  · have hne : a ≠ p := by
      rintro rfl
      rw [Function.update_self] at ha
      cases ha
    rw [Function.update_of_ne hne] at ha
    rw [hcells, Function.update_of_ne hne] at hd
    obtain ⟨hahead, hfree⟩ := hk.others a d hd ha
    exact ⟨(hp.ahead a (by rw [hd]; rfl)).mpr hahead, hfree⟩
  · rcases eq_or_ne a p with rfl | hne
    · cases hself.symm.trans hd
      rw [hmark, hk.phase, ← Bool.not_eq_true (c.fresh), hfresh]
      exact ⟨rfl, fun hs ↦ ha hs.2⟩
    · rw [hcells, Function.update_of_ne hne] at hd
      exact hk.clean a d hd fun hahead ↦ ha ((hp.ahead a (by rw [hd]; rfl)).mpr hahead)

/-- Writing over a kept object. -/
theorem isSome_write {a : ℕ} {c c' : Cell} (hc : h.cells a = some c) (b : ℕ) :
    (Function.update h.cells a (some c') b).isSome = (h.cells b).isSome := by
  rw [Function.update_apply]
  split
  · rename_i hb
    rw [hb, hc]
    rfl
  · rfl

theorem Keeps.write (hk : Keeps keep h) {a : ℕ} {c : Cell} (hc : h.cells a = some c) (obj : Object ℕ)
    (mayHoldRefs : Bool) (hkeep : (keep a).isSome = true) : Keeps (Function.update keep a (some obj))
      { h with cells := Function.update h.cells a (some { c with obj, mayHoldRefs }) } := by
  obtain ⟨old, hold⟩ := Option.isSome_iff_exists.mp hkeep
  refine ⟨hk.ok.congr rfl (isSome_write hc) rfl, hk.phase, fun b o hb ↦ ?_, fun b d hd hb ↦ ?_, fun b d hd hb ↦ ?_⟩
  · rcases eq_or_ne b a with rfl | hne
    · rw [Function.update_self] at hb
      obtain ⟨d, hd, -, hthrough⟩ := hk.kept b old hold
      cases hc.symm.trans hd
      exact ⟨_, Function.update_self _ _ _, Option.some.inj hb, hthrough⟩
    · rw [Function.update_of_ne hne] at hb
      obtain ⟨d, hd, hmore⟩ := hk.kept b o hb
      exact ⟨d, (Function.update_of_ne hne _ _).trans hd, hmore⟩
  · have hne : b ≠ a := by
      rintro rfl
      rw [Function.update_self] at hb
      cases hb
    rw [Function.update_of_ne hne] at hb
    exact hk.others b d ((Function.update_of_ne hne _ _).symm.trans hd) hb
  · rcases eq_or_ne b a with rfl | hne
    · cases (Function.update_self _ _ _).symm.trans hd
      exact hk.clean b c hc hb
    · exact hk.clean b d ((Function.update_of_ne hne _ _).symm.trans hd) hb

theorem Kept.write (hk : Kept keep h) {a : ℕ} {c : Cell} (hc : h.cells a = some c) (obj : Object ℕ)
    (mayHoldRefs : Bool) : Kept (Function.update keep a (some obj))
      { h with cells := Function.update h.cells a (some { c with obj, mayHoldRefs }) } := by
  refine ⟨hk.ok.congr rfl (isSome_write hc) rfl, hk.phase, fun b ↦ ?_, fun b d hd ↦ ?_⟩
  · show (Function.update h.cells a _ b).map Cell.obj = Function.update keep a (some obj) b
    rw [Function.update_apply, Function.update_apply]
    split
    · rfl
    · exact hk.exact b
  · rcases eq_or_ne b a with rfl | hne
    · cases (Function.update_self _ _ _).symm.trans hd
      exact hk.clean b c hc
    · exact hk.clean b d ((Function.update_of_ne hne _ _).symm.trans hd)

/-- At its start the sweep has all objects ahead, and keeps the marked ones. -/
theorem Ok.keeps (hok : h.Ok) (hphase : h.phase ≠ .sweeping) (hfresh : ∀ a c, h.cells a = some c → c.fresh = false) :
    Keeps h.markedObjects h.beginSweep := by
  obtain ⟨hok', hahead⟩ := hok.beginSweep hphase
  have hcells : h.beginSweep.cells = h.cells := by rw [beginSweep_eq hphase]; rfl
  refine ⟨hok', by rw [beginSweep_eq hphase], fun a o ha ↦ ?_, fun a c hc ha ↦ ?_, fun a c hc hnot ↦ ?_⟩
  · obtain ⟨c, hc, hobj⟩ := Option.map_eq_some_iff.mp ha
    obtain ⟨hc, hmark⟩ := Option.filter_eq_some_iff.mp hc
    exact ⟨c, by rw [hcells, hc], hobj, fun _ ↦ by rw [hmark, Bool.true_or]⟩
  · rw [hcells] at hc
    refine ⟨hahead a (by rw [hc]; rfl), ?_⟩
    rw [markedObjects, hc, Option.map_eq_none_iff] at ha
    rw [hfresh a c hc, Bool.or_false]
    cases hmark : c.marked with
    | false => rfl
    | true =>
      rw [Option.filter_some, if_pos hmark] at ha
      cases ha
  · rw [hcells] at hc
    exact absurd (hahead a (by rw [hc]; rfl)) hnot

theorem LazySweep.keeps (hok : h₀.Ok) (hphase : h₀.phase ≠ .sweeping)
    (hfresh : ∀ a c, h₀.cells a = some c → c.fresh = false) (hrun : LazySweep env h₀ keep h) :
    Keeps keep h ∨ Kept keep h := by
  induction hrun with
  | start => exact .inl (hok.keeps hphase hfresh)
  | @sweep keep h n hrun ih =>
    rcases ih with hk | hk
    · exact (Keeps.sweeps env keep).sweepQuantum hk
    · rw [sweepQuantum, if_pos (by rw [hk.phase]; simp)]
      exact .inr hk
  | @finish keep h hrun ih =>
    rcases ih with hk | hk
    · exact .inr ((Keeps.sweeps env keep).finishSweep hk)
    · rw [finishSweep, if_pos (by rw [hk.phase]; simp)]
      exact .inr hk
  | alloc hrun hsweeping halloc ih =>
    rcases ih with hk | hk
    · exact .inl (hk.alloc halloc)
    · exact absurd (hk.phase.symm.trans hsweeping) (by simp)
  | write obj mayHoldRefs hrun hkeep hcell ih =>
    exact ih.imp (fun hk ↦ hk.write hcell obj mayHoldRefs hkeep) fun hk ↦ hk.write hcell obj mayHoldRefs

/-- **A lazy sweep keeps the marked objects and the new ones**, with what was last written to them, at every moment,
and when it is over the heap holds nothing else. -/
theorem LazySweep.sweep_exact (hok : h₀.Ok) (hphase : h₀.phase ≠ .sweeping)
    (hfresh : ∀ a c, h₀.cells a = some c → c.fresh = false) (hrun : LazySweep env h₀ keep h) :
    (∀ a o, keep a = some o → (h.cells a).map Cell.obj = some o) ∧
      (h.phase ≠ .sweeping → ∀ a, (h.cells a).map Cell.obj = keep a) := by
  rcases hrun.keeps hok hphase hfresh with hk | hk
  · refine ⟨fun a o ha ↦ ?_, fun hnot ↦ absurd hk.phase hnot⟩
    obtain ⟨c, hc, hobj, -⟩ := hk.kept a o ha
    rw [hc, ← hobj]
    rfl
  · exact ⟨fun a o ha ↦ (hk.exact a).trans ha, fun _ ↦ hk.exact⟩

theorem finishSweep_phase (env : Env) (h : Heap) : (h.finishSweep env).phase ≠ .sweeping := by
  rw [finishSweep]
  split
  · assumption
  · simp [finishSweepCycle]

/-- The first object of a heap. -/
theorem Ok.first {classKinds : ℕ → List WordKind} {obj : Object ℕ} {mayHoldRefs : Bool} {p : ℕ}
    (halloc : Heap.alloc env { classKinds } obj mayHoldRefs = some (p, h)) : h.Ok ∧ h.phase = .idle ∧
      ∃ c, h.cells = Function.update (fun _ ↦ none) p (some c) ∧ c.obj = obj ∧ c.marked = false ∧ c.fresh = false := by
  have hp := alloc_spec (ok_start classKinds) halloc
  obtain ⟨c, hcells, hobj, -, hmark, hfresh⟩ := hp.cell
  refine ⟨hp.ok, by rw [hp.rest], c, hcells, hobj, hmark, ?_⟩
  rw [← Bool.not_eq_true, hfresh]
  exact fun hs ↦ nomatch hs.1

/-- An object that nothing marked goes, one that is allocated meanwhile stays. -/
theorem LazySweep.sweep_exact_alloc : ∃ p h q h',
    Heap.alloc Env.upwards { classKinds := fun _ ↦ [] } (.instance 1 false []) true = some (p, h) ∧
      h.beginSweep.alloc Env.upwards (.instance 2 false []) true = some (q, h') ∧
      ∀ a, ((h'.finishSweep Env.upwards).cells a).map Cell.obj =
        Function.update h.markedObjects q (some (.instance 2 false [])) a := by
  obtain ⟨p, h, q, h', h₁, h₂⟩ : ∃ p h q h',
      Heap.alloc Env.upwards { classKinds := fun _ ↦ [] } (.instance 1 false []) true = some (p, h) ∧
        h.beginSweep.alloc Env.upwards (.instance 2 false []) true = some (q, h') := ⟨_, _, _, _, rfl, rfl⟩
  obtain ⟨hok, hphase, c, hcells, -, -, hfresh⟩ := Ok.first h₁
  have hnot : h.phase ≠ .sweeping := by rw [hphase]; simp
  have hclean : ∀ a d, h.cells a = some d → d.fresh = false := by
    intro a d hd
    rw [hcells, Function.update_apply] at hd
    split at hd
    · cases hd
      exact hfresh
    · cases hd
  have hsweeping : h.beginSweep.phase = .sweeping := by rw [beginSweep_eq hnot]
  have hdone := LazySweep.sweep_exact hok hnot hclean (LazySweep.start.alloc hsweeping h₂).finish
  exact ⟨p, h, q, h', h₁, h₂, hdone.2 (finishSweep_phase _ _)⟩

/-! ### Collections -/

/-- No cycle is open, and none has left a trace. -/
structure Resting (h : Heap) : Prop where
  ok : h.Ok
  phase : h.phase = .idle
  clean : ∀ a c, h.cells a = some c → c.marked = false ∧ c.fresh = false

theorem Resting.white (hh : h.Resting) (a : ℕ) : h.isMarked a = false := by
  rw [isMarked]
  cases hc : h.cells a with
  | none => rfl
  | some c => exact (hh.clean a c hc).1

/-- **A full mark marks what the roots reach** and changes nothing else. -/
theorem Resting.mark (hh : h.Resting) (hkeys : ∀ a, Leaves (Next h.items) (h.items a)) (roots : List ℕ) :
    Marked { h with phase := .marking, gray := [] } (h.beginMark roots).drain ∧
      ∀ a, (h.beginMark roots).drain.isMarked a = true ↔ Reach (Next h.items) (h.IsRoot roots) a := by
  have hbegin : h.beginMark roots = remarkRoots { h with phase := .marking, gray := [] } roots := by
    rw [beginMark, if_neg (by rw [hh.phase]; simp)]
  rw [hbegin]
  obtain ⟨h₀, hh₀⟩ : ∃ h₀ : Heap, h₀ = { h with phase := .marking, gray := [] } := ⟨_, rfl⟩
  have hitems : h₀.items = h.items := by rw [hh₀]; exact items_congr (fun _ ↦ rfl) rfl
  have hroot : h₀.IsRoot roots = h.IsRoot roots := by rw [hh₀]; rfl
  have hwhite : ∀ a, h₀.isMarked a = false := by rw [hh₀]; exact hh.white
  have hslots : h₀.InSlots := by rw [hh₀]; exact hh.ok.inSlots
  rw [← hh₀, ← hitems, ← hroot]
  rw [← hitems] at hkeys
  obtain ⟨hm, hmarks⟩ := remarkRoots_spec h₀ roots
  have hslots' := hm.inSlots hslots
  have hinv : Inv (Next h₀.items) h₀.marks := inv_white hwhite (by rw [hh₀]; rfl)
  obtain ⟨hkeep, hclosed, honly⟩ := drain_marks (Next h₀.items) hslots'
    (by rw [hm.items]; exact fun _ _ hn ↦ hn) (by rw [hm.items]; exact hkeys)
    (hmarks ▸ hinv.visits (leaves_roots h₀ roots))
  refine ⟨hm.trans (drain_spec hslots').1, fun a ↦ ⟨fun ha ↦ ?_, fun ha ↦ ?_⟩⟩
  · rw [hm.items] at honly
    refine honly (h₀.IsRoot roots) (fun b hb ↦ ?_) a ha
    rcases isMarked_remarkRoots.mp hb with hold | hroot
    · rw [hwhite] at hold
      cases hold
    · exact .root hroot
  · exact ha.of_closed (fun b hb ↦ hkeep b (isMarked_remarkRoots.mpr (.inr hb))) fun b d hb hn ↦ hclosed b hb d hn

theorem markedObjects_isSome (h : Heap) (a : ℕ) : (h.markedObjects a).isSome = h.isMarked a := by
  rw [markedObjects, isMarked, Option.isSome_map]
  cases h.cells a with
  | none => rfl
  | some c =>
    rw [Option.filter_some]
    show (if c.marked = true then some c else none).isSome = c.marked
    cases c.marked <;> rfl

end CoilLang.Gc.Heap
