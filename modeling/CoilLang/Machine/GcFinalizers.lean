import CoilLang.Machine.GcRefines

/-!
# No drop is lost

An object of a type with a `drop` owes it until a finalizer claims it. What owes a drop is on the list of finalizable
objects, is marked while a mark is open and is let through by an open sweep (`Owes`), so that **a cycle never frees an
object that owes its drop** (`Vm.CycleRun.owes_kept`). This is about cycles at safepoints: an explicit collection marks
again from nothing after its finalizers, and frees what they made unreachable without its drop.
-/

namespace CoilLang.Gc

open Machine.Snapshot (WordKind heapAddr)

variable {A A' : Ideal} {V V' : Vm} {ρ : ℕ → ℕ} {L : ℕ → Prop} {id : ℕ} {env : Env}

/-! ### Marks only grow -/

namespace Heap

variable {h : Heap}

theorem drain_mono (hs : h.InSlots) (hgray : ∀ a ∈ h.gray, h.isMarked a = true) {a : ℕ} (ha : h.isMarked a = true) :
    h.drain.isMarked a = true :=
  (drain_marks (fun _ _ ↦ False) hs nofun (fun _ _ _ _ ↦ not_false) (Tricolour.inv_of_gray hgray)).1 a ha

/-- Visiting some nodes and draining the gray list. -/
theorem visits_mono {h₁ : Heap} {l : List (Bool × ℕ)} (hs : h.InSlots) (hgray : h.gray = []) (hm : Marked h h₁)
    (hmarks : h₁.marks = l.foldl .visit h.marks) : Marked h h₁.drain ∧ h₁.drain.gray = [] ∧
      ∀ a, h.isMarked a = true ∨ (∃ i ∈ l, i.2 = a) → h₁.drain.isMarked a = true := by
  obtain ⟨hm', hgray', -⟩ := drain_spec (hm.inSlots hs)
  have hinv : Tricolour.Inv (fun _ _ ↦ False) h₁.marks := by
    rw [hmarks]
    refine (Tricolour.inv_of_gray fun a ha ↦ ?_).visits fun _ _ _ ↦ not_false
    rw [show h.marks.gray = [] from hgray] at ha
    cases ha
  refine ⟨hm.trans hm', hgray', fun a ha ↦ drain_mono (hm.inSlots hs) hinv.gray ?_⟩
  show h₁.marks.marked a = true
  rw [hmarks, (Tricolour.visited_foldl _ _).marked]
  exact ha

theorem remark_mono (hs : h.InSlots) (hgray : h.gray = []) (roots : List ℕ) :
    Marked h (h.remarkRoots roots).drain ∧ (h.remarkRoots roots).drain.gray = [] ∧
      ∀ a, h.isMarked a = true → (h.remarkRoots roots).drain.isMarked a = true := by
  obtain ⟨hm, hmarks⟩ := remarkRoots_spec h roots
  obtain ⟨hm', hgray', hkeep⟩ := visits_mono hs hgray hm hmarks
  exact ⟨hm', hgray', fun a ha ↦ hkeep a (.inl ha)⟩

theorem shade_mono (hs : h.InSlots) (hgray : h.gray = []) {queue : List ℕ}
    (hqueue : ∀ a ∈ queue, (h.cells a).isSome = true) :
    Marked h (h.shadeForFinalizer queue).drain ∧ (h.shadeForFinalizer queue).drain.gray = [] ∧
      ∀ a, h.isMarked a = true ∨ a ∈ queue → (h.shadeForFinalizer queue).drain.isMarked a = true := by
  obtain ⟨hm, hmarks⟩ := shadeForFinalizer_spec queue hqueue
  obtain ⟨hm', hgray', hkeep⟩ := visits_mono hs hgray hm hmarks
  exact ⟨hm', hgray', fun a ha ↦ hkeep a (ha.imp_right fun hmem ↦ ⟨_, List.mem_map_of_mem hmem, rfl⟩)⟩

end Heap

/-! ### Where the objects that owe a drop are -/

structure Owes (h : Heap) : Prop where
  listed : ∀ a c, h.cells a = some c → c.obj.pending h.finalizerTypes = true → a ∈ h.finalizable
  marked : h.phase = .marking → ∀ a c, h.cells a = some c → c.obj.pending h.finalizerTypes = true → c.marked = true
  spared : ∀ a c, h.cells a = some c → c.obj.pending h.finalizerTypes = true → h.Ahead a → (c.marked || c.fresh) = true

/-- Objects that owe a drop are still there. -/
def Heap.KeepsOwing (h h' : Heap) : Prop := ∀ a c, h.cells a = some c → c.obj.pending h.finalizerTypes = true →
  ∃ c', h'.cells a = some c' ∧ c'.obj = c.obj

theorem Heap.KeepsOwing.trans {h h' h'' : Heap} (hk : h.KeepsOwing h') (hk' : h'.KeepsOwing h'')
    (htypes : h'.finalizerTypes = h.finalizerTypes) : h.KeepsOwing h'' := by
  intro a c hc hp
  obtain ⟨c', hc', hobj⟩ := hk a c hc hp
  obtain ⟨c'', hc'', hobj'⟩ := hk' a c' hc' (by rw [hobj, htypes]; exact hp)
  exact ⟨c'', hc'', hobj'.trans hobj⟩

namespace Owes

variable {h h' : Heap}

/-- An object is written over; if the new one owes a drop, it is one that the program may hold. -/
theorem setCell (ho : Owes V.heap) {a : ℕ} {c : Cell} {obj : Object ℕ} {flag : Bool}
    (hlisted : obj.pending V.heap.finalizerTypes = true → a ∈ V.heap.finalizable)
    (hmarked : obj.pending V.heap.finalizerTypes = true → V.heap.phase = .marking → c.marked = true)
    (hspared : obj.pending V.heap.finalizerTypes = true → V.heap.Ahead a → (c.marked || c.fresh) = true) :
    Owes (V.setCell a { c with obj, mayHoldRefs := flag }).heap := by
  have hcells : ∀ b d, (V.setCell a { c with obj, mayHoldRefs := flag }).heap.cells b = some d →
      b = a ∧ d = { c with obj, mayHoldRefs := flag } ∨ b ≠ a ∧ V.heap.cells b = some d := by
    intro b d hd
    replace hd : Function.update V.heap.cells a (some { c with obj, mayHoldRefs := flag }) b = some d := hd
    rw [Function.update_apply] at hd
    split at hd
    · rename_i hb
      exact .inl ⟨hb, (Option.some.inj hd).symm⟩
    · rename_i hb
      exact .inr ⟨hb, hd⟩
  refine ⟨fun b d hd hp ↦ ?_, fun hphase b d hd hp ↦ ?_, fun b d hd hp hahead ↦ ?_⟩
  · rcases hcells b d hd with ⟨rfl, rfl⟩ | ⟨-, hd⟩
    · exact hlisted hp
    · exact ho.listed b d hd hp
  · rcases hcells b d hd with ⟨rfl, rfl⟩ | ⟨-, hd⟩
    · exact hmarked hp hphase
    · exact ho.marked hphase b d hd hp
  · rcases hcells b d hd with ⟨rfl, rfl⟩ | ⟨-, hd⟩
    · exact hspared hp hahead
    · exact ho.spared b d hd hp hahead

/-- The new object owes no more than the old one. -/
theorem setLess (ho : Owes V.heap) {a : ℕ} {c : Cell} (hc : V.heap.cells a = some c) {obj : Object ℕ} {flag : Bool}
    (hless : obj.pending V.heap.finalizerTypes = true → c.obj.pending V.heap.finalizerTypes = true) :
    Owes (V.setCell a { c with obj, mayHoldRefs := flag }).heap :=
  ho.setCell (fun hp ↦ ho.listed a c hc (hless hp)) (fun hp hphase ↦ ho.marked hphase a c hc (hless hp))
    fun hp hahead ↦ ho.spared a c hc (hless hp) hahead

/-- A new object is listed, black while marking and fresh ahead of a sweep. -/
theorem placed (ho : Owes h) {p : ℕ} {obj : Object ℕ} {flag : Bool} (hp : Heap.Placed h h' p obj flag)
    (hcursor : h.phase ≠ .sweeping → h.cursor = none) : Owes h' := by
  obtain ⟨c, hcells, hobj, -, hmark, hfresh⟩ := hp.cell
  have hphase : h'.phase = h.phase := by rw [hp.rest]
  have htypes : h'.finalizerTypes = h.finalizerTypes := by rw [hp.rest]
  have hcell : ∀ a d, h'.cells a = some d → a = p ∧ d = c ∨ h.cells a = some d := by
    intro a d hd
    rw [hcells, Function.update_apply] at hd
    split at hd
    · rename_i ha
      exact .inl ⟨ha, (Option.some.inj hd).symm⟩
    · exact .inr hd
  have hlist : ∀ a, a ∈ h.finalizable ∨ obj.hasFinalizer h.finalizerTypes = true ∧ a = p → a ∈ h'.finalizable := by
    intro a ha
    rw [hp.rest]
    show a ∈ if _ then _ else _
    split
    · rcases ha with ha | ⟨-, rfl⟩
      · exact List.mem_append_left _ ha
      · exact List.mem_append_right _ (List.mem_singleton_self _)
    · rename_i hno
      exact ha.resolve_right fun hn ↦ hno hn.1
  rw [← htypes] at hlist
  refine ⟨fun a d hd hpend ↦ ?_, fun hmarking a d hd hpend ↦ ?_, fun a d hd hpend hahead ↦ ?_⟩
  · rcases hcell a d hd with ⟨rfl, rfl⟩ | hd
    · rw [Object.pending, Bool.and_eq_true, hobj] at hpend
      exact hlist a (.inr ⟨hpend.1, rfl⟩)
    · exact hlist a (.inl (ho.listed a d hd (htypes ▸ hpend)))
  · rcases hcell a d hd with ⟨rfl, rfl⟩ | hd
    · rw [hmark, decide_eq_true_eq]
      exact hphase.symm.trans hmarking
    · exact ho.marked (hphase.symm.trans hmarking) a d hd (htypes ▸ hpend)
  · rcases hcell a d hd with ⟨rfl, rfl⟩ | hd
    · have hsweeping : h.phase = .sweeping := by
        by_contra hnot
        have hcur : h'.cursor = h.cursor := by rw [hp.rest]
        exact Heap.not_ahead_of_none (hcur.trans (hcursor hnot)) hahead
      rw [hfresh.mpr ⟨hsweeping, hahead⟩, Bool.or_true]
    · exact ho.spared a d hd (htypes ▸ hpend) ((hp.ahead a (by rw [hd]; rfl)).mp hahead)

/-- More is marked. -/
theorem mark (ho : Owes h) (hm : Heap.Marked h h') (hkeep : ∀ a, h.isMarked a = true → h'.isMarked a = true)
    (hcursor : h.cursor = none) : Owes h' := by
  have htypes : h'.finalizerTypes = h.finalizerTypes := by rw [hm.rest]
  refine ⟨fun a c' hc' hp ↦ ?_, fun hmarking a c' hc' hp ↦ ?_, fun a c' hc' hp hahead ↦
    absurd hahead (Heap.not_ahead_of_none (hm.cursor.trans hcursor))⟩
  all_goals
    obtain ⟨c, hc, hobj, -⟩ := hm.cell hc'
    rw [hobj, htypes] at hp
  · rw [hm.rest]
    exact ho.listed a c hc hp
  · have hmark := hkeep a (by
      rw [Heap.isMarked, hc]
      exact ho.marked (hm.phase.symm.trans hmarking) a c hc hp)
    rwa [Heap.isMarked, hc'] at hmark

/-- Unmarked objects that owe a drop are queued, so that all are marked once the queue is. -/
theorem of_queued (hok : h.Ok) (hcursor : h.cursor = none)
    (hlisted : ∀ a c, h.cells a = some c → c.obj.pending h.finalizerTypes = true → a ∈ h.finalizable)
    (hm : Heap.Marked h.unmarkedFinalizable.2 h')
    (hmark : ∀ a, h.isMarked a = true ∨ a ∈ h.unmarkedFinalizable.1 → h'.isMarked a = true) : Owes h' := by
  have htypes : h'.finalizerTypes = h.finalizerTypes := by rw [hm.rest]; rfl
  have hlist : ∀ a c, h.cells a = some c → c.obj.pending h.finalizerTypes = true →
    a ∈ h.unmarkedFinalizable.2.finalizable := by
    intro a c hc hp
    refine List.mem_filter.mpr ⟨?_, ?_⟩
    · exact (List.perm_insertionSort (· ≤ ·) _).mem_iff.mpr (List.mem_dedup.mpr (hlisted a c hc hp))
    · rw [Heap.owesDrop, hok.find_eq, hc]
      exact hp
  have hall : ∀ a c, h.cells a = some c → c.obj.pending h.finalizerTypes = true → h'.isMarked a = true := by
    intro a c hc hp
    refine hmark a ?_
    cases hcase : h.isMarked a with
    | true => exact .inl rfl
    | false => exact .inr (List.mem_filter.mpr ⟨hlist a c hc hp, by rw [hcase]; rfl⟩)
  refine ⟨fun a c' hc' hp ↦ ?_, fun _ a c' hc' hp ↦ ?_, fun a c' hc' hp hahead ↦
    absurd hahead (Heap.not_ahead_of_none (hm.cursor.trans hcursor))⟩
  all_goals
    obtain ⟨c, hc, hobj, -⟩ := hm.cell hc'
    rw [hobj, htypes] at hp
  · rw [hm.rest]
    exact hlist a c hc hp
  · have := hall a c hc hp
    rwa [Heap.isMarked, hc'] at this

theorem keeps_of_marked (hm : Heap.Marked h h') : h.KeepsOwing h' := by
  intro a c hc _
  obtain ⟨c', hc', hobj, -⟩ := hm.cell' hc
  exact ⟨c', hc', hobj⟩

theorem pending_cleared {c : Cell} {target : ℕ} (hobj : c.obj = .weak target false) (types : List ℕ) :
    c.obj.pending types = false := by
  rw [hobj]
  rfl

/-- The sweep starts with all marked that owe a drop. -/
theorem startSweep (ho : Owes h) (hphase : h.phase = .marking) :
    Owes h.clearDeadWeaks.beginSweep ∧ h.KeepsOwing h.clearDeadWeaks.beginSweep := by
  obtain ⟨hclear, -⟩ := Heap.clearDeadWeaks_spec h
  obtain ⟨h₁, hh₁⟩ : ∃ h₁, h₁ = h.clearDeadWeaks := ⟨_, rfl⟩
  rw [← hh₁] at hclear ⊢
  have hbegin : h₁.beginSweep = { h₁.unlinkUnmarkedInterns with phase := .sweeping, cursor := some {} } :=
    Heap.beginSweep_eq (by rw [hclear.rest, hphase]; simp)
  have hcells : h₁.beginSweep.cells = h₁.cells := by rw [hbegin]; rfl
  have htypes : h₁.beginSweep.finalizerTypes = h.finalizerTypes := by
    rw [hbegin]
    show h₁.finalizerTypes = _
    rw [hclear.rest]
  have hlist : h₁.beginSweep.finalizable = h.finalizable := by
    rw [hbegin]
    show h₁.finalizable = _
    rw [hclear.rest]
  have hback : ∀ a c, h₁.cells a = some c → c.obj.pending h.finalizerTypes = true → h.cells a = some c := by
    intro a c hc hp
    rcases hclear.cell a with hsame | ⟨-, hcleared⟩
    · exact hsame ▸ hc
    · rw [hc] at hcleared
      obtain ⟨d, -, hd⟩ := Option.map_eq_some_iff.mp hcleared.symm
      rw [← hd] at hp
      cases hp
  refine ⟨⟨fun a c hc hp ↦ ?_, fun hmarking ↦ ?_, fun a c hc hp _ ↦ ?_⟩, fun a c hc hp ↦ ?_⟩
  · rw [hcells] at hc
    rw [htypes] at hp
    rw [hlist]
    exact ho.listed a c (hback a c hc hp) hp
  · rw [hbegin] at hmarking
    cases hmarking
  · rw [hcells] at hc
    rw [htypes] at hp
    rw [ho.marked hphase a c (hback a c hc hp) hp, Bool.true_or]
  · refine ⟨c, ?_, rfl⟩
    rw [hcells]
    rcases hclear.cell a with hsame | ⟨⟨d, target, hd, hobj, -⟩, -⟩
    · rw [hsame, hc]
    · cases hc.symm.trans hd
      rw [pending_cleared hobj] at hp
      cases hp

/-- One visit of the sweep. -/
theorem visit (ho : Owes h) {a : ℕ} (hs : Heap.Swept h h' a) (hphase : h.phase = .sweeping) :
    Owes h' ∧ h.KeepsOwing h' := by
  obtain ⟨c, hc, hcells⟩ := hs.cell
  have htypes : h'.finalizerTypes = h.finalizerTypes := by rw [hs.rest]
  have hcell : ∀ b d, h'.cells b = some d → b = a ∧ Heap.visited c = some d ∨ b ≠ a ∧ h.cells b = some d := by
    intro b d hd
    rw [hcells, Function.update_apply] at hd
    split at hd
    · exact .inl ⟨‹_›, hd⟩
    · exact .inr ⟨‹_›, hd⟩
  have hvisited : ∀ {d}, Heap.visited c = some d → d.obj = c.obj := by
    intro d hd
    rw [Heap.visited] at hd
    split at hd
    · cases hd
      rfl
    · cases hd
  refine ⟨⟨fun b d hd hp ↦ ?_, fun hmarking ↦ ?_, fun b d hd hp hahead ↦ ?_⟩, fun b d hd hp ↦ ?_⟩
  · rw [htypes] at hp
    rw [hs.rest]
    rcases hcell b d hd with ⟨rfl, hv⟩ | ⟨-, hd⟩
    · exact ho.listed b c hc (hvisited hv ▸ hp)
    · exact ho.listed b d hd hp
  · have hsweeping : h'.phase = .sweeping := by rw [hs.rest]; exact hphase
    exact absurd (hsweeping.symm.trans hmarking) (by simp)
  · rw [htypes] at hp
    rcases hcell b d hd with ⟨rfl, hv⟩ | ⟨-, hd⟩
    · exact absurd rfl ((hs.ahead' b (by rw [hc]; rfl)).mp hahead).2
    · exact ho.spared b d hd hp ((hs.ahead' b (by rw [hd]; rfl)).mp hahead).1
  · rcases eq_or_ne b a with rfl | hne
    · cases hc.symm.trans hd
      rw [hcells, Function.update_self, Heap.visited, if_pos (ho.spared b c hc hp hs.ahead)]
      exact ⟨_, rfl, rfl⟩
    · exact ⟨d, by rw [hcells, Function.update_of_ne hne, hd], rfl⟩

/-- **A sweep keeps what owes a drop.** -/
theorem sweeps (env : Env) (h₀ : Heap) : Heap.Invariant env
    (fun h ↦ h.Ok ∧ h.phase = .sweeping ∧ Owes h ∧ h.finalizerTypes = h₀.finalizerTypes ∧ h₀.KeepsOwing h)
    fun h ↦ Owes h ∧ h₀.KeepsOwing h where
  step h := by
    rintro ⟨hok, hphase, ho, htypes, hkeeps⟩ hcur
    obtain ⟨hok', ⟨hdone, hnone⟩ | ⟨a, hs⟩⟩ := Heap.sweepOne_cases hok hcur
    · rw [hdone] at hok' ⊢
      refine ⟨hok', hphase, ⟨ho.listed, ho.marked, fun a c hc hp hahead ↦ ?_⟩, htypes, hkeeps⟩
      exact absurd hahead (Heap.not_ahead_of_none rfl)
    · obtain ⟨ho', hkept⟩ := ho.visit hs hphase
      exact ⟨hok', by rw [hs.rest]; exact hphase, ho', by rw [hs.rest]; exact htypes, hkeeps.trans hkept htypes⟩
  finish h := by
    rintro ⟨hok, hphase, ho, -, hkeeps⟩ hcur
    exact ⟨⟨ho.listed, nofun, fun _ _ _ _ hahead ↦ absurd hahead (Heap.not_ahead_of_none rfl)⟩, hkeeps⟩
  ok h hh := hh.1
  sweeping h hh := hh.2.1

end Owes

/-! ### Steps -/

namespace Owes

theorem startCycle (ho : Owes V.heap) (hok : V.heap.Ok) (hcursor : V.heap.cursor = none)
    (hidle : V.heap.phase = .idle) :
    Owes V.startCycle.heap ∧ V.heap.KeepsOwing V.startCycle.heap := by
  obtain ⟨h₀, hh₀⟩ : ∃ h₀ : Heap, h₀ = { V.heap with phase := .marking, gray := [] } := ⟨_, rfl⟩
  have hbegin : V.heap.beginMark V.collectRoots = h₀.remarkRoots V.collectRoots := by
    rw [Heap.beginMark, if_neg (by rw [hidle]; simp), hh₀]
  have hslots₀ : h₀.InSlots := by rw [hh₀]; exact hok.inSlots
  obtain ⟨hm₁, hgray₁, -⟩ := Heap.remark_mono hslots₀ (by rw [hh₀]) V.collectRoots
  obtain ⟨h₁, hh₁⟩ : ∃ h₁ : Heap, h₁ = (h₀.remarkRoots V.collectRoots).drain := ⟨_, rfl⟩
  rw [← hh₁] at hm₁ hgray₁
  obtain ⟨hm₂, hgray₂, -⟩ := Heap.remark_mono (hm₁.inSlots hslots₀) hgray₁ (h₁.immortals.map Prod.snd ++ V.roots)
  obtain ⟨h₂, hh₂⟩ : ∃ h₂ : Heap, h₂ = (h₁.remarkRoots (h₁.immortals.map Prod.snd ++ V.roots)).drain := ⟨_, rfl⟩
  rw [← hh₂] at hm₂ hgray₂
  have hcycle : V.startCycle = if h₂.unmarkedFinalizable.1 = [] then
      { V with heap := h₂.unmarkedFinalizable.2 }.startSweep
      else { V with
        heap := (h₂.unmarkedFinalizable.2.shadeForFinalizer h₂.unmarkedFinalizable.1).drain
        mode := .marking h₂.unmarkedFinalizable.1 } := by
    rw [hh₂, hh₁, ← hbegin]
    rfl
  have hm := hm₁.trans hm₂
  have hok₂ : h₂.Ok := hm.ok (by rw [hh₀]; exact hok.congr rfl (fun _ ↦ rfl) rfl)
  have hcursor₂ : h₂.cursor = none := hm.cursor.trans (by rw [hh₀]; exact hcursor)
  have hphase₂ : h₂.phase = .marking := hm.phase.trans (by rw [hh₀])
  have hlisted : ∀ a c, h₂.cells a = some c → c.obj.pending h₂.finalizerTypes = true → a ∈ h₂.finalizable := by
    intro a c hc hp
    obtain ⟨d, hd, hobj, -⟩ := hm.cell hc
    rw [hh₀] at hm hd
    rw [hobj, show h₂.finalizerTypes = V.heap.finalizerTypes by rw [hm.rest]] at hp
    rw [hm.rest]
    exact ho.listed a d hd hp
  have hkeeps₀ : V.heap.KeepsOwing h₂ := by
    intro a c hc _
    rw [hh₀] at hm
    obtain ⟨c', hc', hobj, -⟩ :=
      hm.cell' (show Heap.cells { V.heap with phase := .marking, gray := [] } a = some c from hc)
    exact ⟨c', hc', hobj⟩
  have htypes₂ : h₂.finalizerTypes = V.heap.finalizerTypes := by
    rw [hm.rest, hh₀]
  have hkeeps₂ : V.heap.KeepsOwing h₂.unmarkedFinalizable.2 := hkeeps₀
  rw [hcycle]
  split
  · rename_i hnone
    have ho₂ : Owes h₂.unmarkedFinalizable.2 := by
      refine of_queued hok₂ hcursor₂ hlisted (.refl _) fun a ha ↦ ?_
      rw [hnone] at ha
      exact ha.resolve_right List.not_mem_nil
    obtain ⟨ho₃, hkeeps₃⟩ := ho₂.startSweep hphase₂
    exact ⟨ho₃, hkeeps₂.trans hkeeps₃ htypes₂⟩
  · have hsome : ∀ a ∈ h₂.unmarkedFinalizable.1, (h₂.cells a).isSome = true := by
      intro a ha
      obtain ⟨-, c, hc, -⟩ := Heap.unmarkedFinalizable_spec ha
      rw [← hok₂.find_eq, hc]
      rfl
    obtain ⟨hm₃, -, hmark⟩ := Heap.shade_mono (h := h₂.unmarkedFinalizable.2) hok₂.inSlots hgray₂ hsome
    exact ⟨of_queued hok₂ hcursor₂ hlisted hm₃ hmark, hkeeps₂.trans (keeps_of_marked hm₃) htypes₂⟩

theorem finishMark (ho : Owes V.heap) (hok : V.heap.Ok) (hgray : V.heap.gray = []) (hcursor : V.heap.cursor = none)
    (hphase : V.heap.phase = .marking) : Owes V.finishMark.heap ∧ V.heap.KeepsOwing V.finishMark.heap := by
  obtain ⟨hm, -, hmark⟩ := Heap.remark_mono hok.inSlots hgray V.collectRoots
  obtain ⟨ho', hkeeps⟩ := (ho.mark hm hmark hcursor).startSweep (hm.phase.trans hphase)
  exact ⟨ho', (keeps_of_marked hm).trans hkeeps (by rw [hm.rest])⟩

theorem refl_keeps (h : Heap) : h.KeepsOwing h := fun _ c hc _ ↦ ⟨c, hc, rfl⟩

theorem sweepQuantum {h : Heap} (ho : Owes h) (hok : h.Ok) (env : Env) (n : ℕ) :
    Owes (h.sweepQuantum env n).1 ∧ h.KeepsOwing (h.sweepQuantum env n).1 := by
  by_cases hphase : h.phase = .sweeping
  · rcases (sweeps env h).sweepQuantum ⟨hok, hphase, ho, rfl, refl_keeps h⟩ with ⟨-, -, ho', -, hkeeps⟩ | hdone
    · exact ⟨ho', hkeeps⟩
    · exact hdone
  · rw [Heap.sweepQuantum, if_pos hphase]
    exact ⟨ho, refl_keeps h⟩

theorem finishSweep {h : Heap} (ho : Owes h) (hok : h.Ok) (env : Env) :
    Owes (h.finishSweep env) ∧ h.KeepsOwing (h.finishSweep env) := by
  by_cases hphase : h.phase = .sweeping
  · exact (sweeps env h).finishSweep ⟨hok, hphase, ho, rfl, refl_keeps h⟩
  · rw [Heap.finishSweep, if_pos hphase]
    exact ⟨ho, refl_keeps h⟩

theorem pending_of_claim {W : Type} {o o' : Object W} (hclaim : o.claim = some o') {types : List ℕ}
    (hp : o'.pending types = true) : o.pending types = true := by
  obtain ⟨-, -, htype, -, -, hfinal, -⟩ := Object.claim_spec hclaim
  rw [Object.pending, Bool.and_eq_true, Bool.not_eq_true', Object.hasFinalizer] at hp ⊢
  exact ⟨htype ▸ hp.1, hfinal hp.2⟩

theorem runFinalizer (ho : Owes V.heap) (hok : V.heap.Ok) (a : ℕ) : Owes (V.runFinalizer a).2.heap ∧
    ∀ b c, V.heap.cells b = some c → ∃ c', (V.runFinalizer a).2.heap.cells b = some c' ∧
      (c'.obj = c.obj ∨ c.obj.claim = some c'.obj) := by
  have hsame : ∀ b c, V.heap.cells b = some c → ∃ c', V.heap.cells b = some c' ∧
      (c'.obj = c.obj ∨ c.obj.claim = some c'.obj) := fun b c hc ↦ ⟨c, hc, .inl rfl⟩
  rw [Vm.runFinalizer, hok.find_eq]
  cases hc : V.heap.cells a with
  | none => exact ⟨ho, hsame⟩
  | some c =>
    dsimp only
    cases hclaim : c.obj.claim with
    | none => exact ⟨ho, hsame⟩
    | some o =>
      refine ⟨ho.setLess hc (pending_of_claim hclaim), fun b d hd ↦ ?_⟩
      rcases eq_or_ne b a with rfl | hne
      · cases hc.symm.trans hd
        exact ⟨_, Function.update_self _ _ _, .inr hclaim⟩
      · exact ⟨d, (Function.update_of_ne hne _ _).trans hd, .inl rfl⟩

theorem startCycle_mode (V : Vm) (q : List ℕ) : V.startCycle.mode ≠ .collecting q := by
  unfold Vm.startCycle
  dsimp only
  split <;> nofun

theorem runFinalizer_mode (V : Vm) (a : ℕ) : (V.runFinalizer a).2.mode = V.mode := by
  rw [Vm.runFinalizer]
  split
  · rfl
  · split <;> rfl

/-- A step of the collector, other than for an explicit collection. -/
theorem gc (hR : Represents A V ρ L) (ho : Owes V.heap) (hmode : ∀ q, V.mode ≠ .collecting q) {g : Vm.GcStep}
    (hg : g ≠ .startCollect) {more : List Obs} (hstep : V.gc env g = some (more, V')) :
    Owes V'.heap ∧ (∀ q, V'.mode ≠ .collecting q) ∧ ∀ a c, V.heap.cells a = some c →
      c.obj.pending V.heap.finalizerTypes = true →
        ∃ c', V'.heap.cells a = some c' ∧ (c'.obj = c.obj ∨ c.obj.claim = some c'.obj) := by
  have hok := hR.embeds.ok
  have hcursor := fun hphase ↦ (hR.embeds.unswept hphase).1
  have hweak : ∀ {h'}, V.heap.KeepsOwing h' → ∀ a c, V.heap.cells a = some c →
      c.obj.pending V.heap.finalizerTypes = true →
        ∃ c', h'.cells a = some c' ∧ (c'.obj = c.obj ∨ c.obj.claim = some c'.obj) := fun hk a c hc hp ↦
    (hk a c hc hp).imp fun _ h ↦ ⟨h.1, .inl h.2⟩
  unfold Vm.gc at hstep
  split at hstep
  · rename_i hrunning
    split at hstep
    · rename_i hidle
      cases hstep
      obtain ⟨ho', hkeeps⟩ := ho.startCycle hok (hcursor (by rw [hidle]; simp)) hidle
      exact ⟨ho', startCycle_mode V, hweak hkeeps⟩
    · cases hstep
  · rename_i hmarking
    cases hstep
    obtain ⟨hphase, -⟩ := hR.marking hmarking
    obtain ⟨ho', hkeeps⟩ := ho.finishMark hok hR.embeds.gray (hcursor (by rw [hphase]; simp)) hphase
    exact ⟨ho', nofun, hweak hkeeps⟩
  · rename_i n hrunning
    cases hstep
    obtain ⟨ho', hkeeps⟩ := ho.sweepQuantum hok env n
    exact ⟨ho', hmode, hweak hkeeps⟩
  · rename_i hrunning
    cases hstep
    obtain ⟨ho', hkeeps⟩ := ho.finishSweep hok env
    exact ⟨ho', hmode, hweak hkeeps⟩
  · exact absurd rfl hg
  · rename_i hcollecting
    exact absurd hcollecting (hmode _)
  · rename_i a queue hmarking
    cases hstep
    obtain ⟨ho', hkeeps⟩ := runFinalizer (V := { V with mode := .marking queue }) ho hok a
    refine ⟨ho', fun q hq ↦ ?_, fun b c hc _ ↦ hkeeps b c hc⟩
    cases (runFinalizer_mode _ a).symm.trans hq
  · rename_i a queue hcollecting
    exact absurd hcollecting (hmode _)
  · cases hstep

/-! ### The program -/

theorem register {h : Heap} (ho : Owes h) (hok : h.Ok) (hphase : h.phase ≠ .marking) (hcursor : h.cursor = none)
    (typeId : ℕ) : Owes (h.registerFinalizerType typeId) := by
  rw [Heap.registerFinalizerType]
  split
  · exact ho
  · refine ⟨fun a c hc hp ↦ ?_, fun hmarking ↦ absurd hmarking hphase, fun a c _ _ hahead ↦
      absurd hahead (Heap.not_ahead_of_none hcursor)⟩
    replace hc : h.cells a = some c := hc
    have hsome : (h.cells a).isSome = true := by rw [hc]; rfl
    rw [Object.pending, Bool.and_eq_true, Object.hasFinalizer, Option.any_eq_true] at hp
    obtain ⟨⟨type, htype, hmem⟩, hfinal⟩ := hp
    rcases List.mem_cons.mp (of_decide_eq_true hmem) with rfl | hold
    · refine List.mem_append_right _ (List.mem_filter.mpr ⟨List.mem_filter.mpr ⟨hok.mem_ahead_start hsome, hsome⟩, ?_⟩)
      rw [hc]
      exact decide_eq_true htype
    · refine List.mem_append_left _ (ho.listed a c hc ?_)
      rw [Object.pending, Bool.and_eq_true, Object.hasFinalizer, Option.any_eq_true]
      exact ⟨⟨type, htype, decide_eq_true hold⟩, hfinal⟩

theorem alloc (hR : Represents A V ρ L) (ho : Owes V.heap) {obj : Object ℕ} {flag : Bool} {r : ℕ × Heap}
    (halloc : V.heap.alloc env obj flag = some r) : Owes r.2 :=
  ho.placed (Heap.alloc_spec hR.embeds.ok halloc) fun hphase ↦ (hR.embeds.unswept hphase).1

theorem store (hR : Represents A V ρ L) (ho : Owes V.heap) {i : ℕ} {payload : Object (ℕ ⊕ ℕ)} {note : Bool} {o o' : Obs}
    (hideal : A.exec (.store i payload note) = some (o, A'))
    (hstep : V.exec env (.store i payload note) = some (o', V')) : Owes V'.heap := by
  rw [Ideal.exec] at hideal
  split at hideal
  · cases hideal
  · rename_i id err hw
    obtain ⟨old, hold, hwrite⟩ := Option.bind_eq_some_iff.mp hideal
    dsimp only at hwrite
    split at hwrite
    · rename_i hok
      obtain ⟨-, haddr, -, c, hfind, hc, hobj, -⟩ := hR.object hw hold
      simp only [Ideal.writable, Bool.and_eq_true, decide_eq_true_eq, Object.typeId?_map, Object.isFinalized_map] at hok
      obtain ⟨⟨⟨⟨-, htype⟩, hfinal⟩, -⟩, -⟩ := hok
      rw [Vm.exec, haddr, hfind] at hstep
      cases hstep
      refine ho.setLess hc fun hp ↦ ?_
      rw [hobj]
      rw [Object.pending, Object.hasFinalizer, Object.typeId?_map, Object.isFinalized_map] at hp ⊢
      rwa [← htype, ← hfinal]
    · cases hwrite

theorem lengthen {h : Heap} (ho : Owes h) (a : ℕ) : Owes { h with finalizable := h.finalizable ++ [a] } :=
  ⟨fun b c hc hp ↦ List.mem_append_left _ (ho.listed b c hc hp), ho.marked, ho.spared⟩

theorem tagEnum (hR : Represents A V ρ L) (ho : Owes V.heap) {i typeId : ℕ} {o o' : Obs}
    (hideal : A.exec (.tagEnum i typeId) = some (o, A')) (hstep : V.exec env (.tagEnum i typeId) = some (o', V')) :
    Owes V'.heap := by
  rw [Ideal.exec] at hideal
  split at hideal
  · rename_i id hw
    obtain ⟨old, hold, -⟩ := Option.map_eq_some_iff.mp hideal
    obtain ⟨⟨-, hsp, hmark⟩, -, hword, c, hfind, hc, -⟩ := hR.object hw hold
    rw [Vm.exec, hword rfl, hfind] at hstep
    dsimp only at hstep
    cases htag : c.obj.tagEnum typeId with
    | none =>
      rw [htag] at hstep
      cases hstep
      exact ho
    | some new =>
      rw [htag] at hstep
      cases hstep
      obtain ⟨-, -, htype, -⟩ := Object.tagEnum_spec htag
      have hmarked : V.heap.phase = .marking → c.marked = true := fun hphase ↦ by
        have := hmark hphase
        rwa [Heap.isMarked, hc] at this
      have hspared : V.heap.Ahead (ρ id) → (c.marked || c.fresh) = true := fun hahead ↦ by
        obtain ⟨d, hd, hkept⟩ := hsp hahead
        cases hc.symm.trans hd
        exact hkept
      rw [Heap.noteEnumType]
      split
      · have hmem : ρ id ∈ V.heap.finalizable ++ [V.word i] :=
          List.mem_append_right _ (List.mem_singleton.mpr (hword rfl).symm)
        have hset : Owes ((V.onHeap fun h ↦ { h with finalizable := h.finalizable ++ [V.word i] }).setCell (ρ id)
            { c with obj := new }).heap :=
          (ho.lengthen (V.word i)).setCell (fun _ ↦ hmem) (fun _ ↦ hmarked) fun _ ↦ hspared
        exact hset
      · rename_i hnot
        refine ho.setCell (fun hp ↦ absurd ?_ hnot) (fun _ ↦ hmarked) fun _ ↦ hspared
        rw [Object.pending, Bool.and_eq_true, Object.hasFinalizer, htype] at hp
        exact of_decide_eq_true hp.1
  · cases hideal

/-- A step of the program; types are registered between cycles. -/
theorem exec (hR : Represents A V ρ L) (ho : Owes V.heap) {i : Instr} {o o' : Obs} (hideal : A.exec i = some (o, A'))
    (hstep : V.exec env i = some (o', V')) (hregister : ∀ typeId, i = .register typeId → V.heap.phase = .idle) :
    Owes V'.heap := by
  cases i with
  | imm n =>
    cases hstep
    exact ho
  | select places =>
    cases hstep
    exact ho
  | int i =>
    cases hstep
    exact ho
  | same i j =>
    cases hstep
    exact ho
  | look i =>
    rw [Vm.exec] at hstep
    split at hstep <;> cases hstep <;> exact ho
  | load i k =>
    rw [Vm.exec] at hstep
    split at hstep <;> cases hstep <;> exact ho
  | store i payload note => exact ho.store hR hideal hstep
  | tagEnum i typeId => exact ho.tagEnum hR hideal hstep
  | alloc payload mayHoldRefs =>
    obtain ⟨r, halloc, heq⟩ := Option.map_eq_some_iff.mp hstep
    cases heq
    exact ho.alloc hR halloc
  | immortal key =>
    obtain ⟨r, himm, heq⟩ := Option.map_eq_some_iff.mp hstep
    cases heq
    rw [Heap.immortal] at himm
    split at himm
    · cases himm
      exact ho
    · obtain ⟨r', halloc, rfl⟩ := Option.map_eq_some_iff.mp himm
      have ho' := ho.alloc hR halloc
      exact ⟨ho'.listed, ho'.marked, ho'.spared⟩
  | intern s =>
    obtain ⟨r, hintern, heq⟩ := Option.map_eq_some_iff.mp hstep
    cases heq
    rw [Heap.intern] at hintern
    split at hintern
    · cases hintern
      exact ho
    · obtain ⟨r', halloc, rfl⟩ := Option.map_eq_some_iff.mp hintern
      have ho' := ho.alloc hR halloc
      exact ⟨ho'.listed, ho'.marked, ho'.spared⟩
  | internRef i =>
    rw [Vm.exec] at hstep
    split at hstep
    · cases hstep
      show Owes (V.heap.internRef _ _).2
      rw [Heap.internRef]
      split
      · exact ho
      · exact ⟨ho.listed, ho.marked, ho.spared⟩
    · cases hstep
      exact ho
  | upgrade i =>
    rw [Vm.exec] at hstep
    split at hstep
    · cases hstep
      rw [Heap.resurrectDuringMark]
      split
      · rename_i hphase
        obtain ⟨hm, -, hkeep⟩ := Heap.remark_mono hR.embeds.ok.inSlots hR.embeds.gray [_]
        exact ho.mark hm hkeep (hR.embeds.unswept (by rw [hphase]; simp)).1
      · exact ho
    · cases hstep
      exact ho
  | register typeId =>
    cases hstep
    have hidle := hregister typeId rfl
    exact ho.register hR.embeds.ok (by rw [hidle]; simp) (hR.embeds.unswept (by rw [hidle]; simp)).1 typeId

theorem exec_mode {i : Instr} {o : Obs} (hstep : V.exec env i = some (o, V')) : V'.mode = V.mode := by
  cases i with
  | alloc | immortal | intern =>
    obtain ⟨r, -, heq⟩ := Option.map_eq_some_iff.mp hstep
    cases heq
    rfl
  | look | load | store | internRef | upgrade =>
    rw [Vm.exec] at hstep
    split at hstep <;> cases hstep <;> rfl
  | tagEnum =>
    rw [Vm.exec] at hstep
    split at hstep
    · cases hstep
      rfl
    · split at hstep <;> cases hstep <;> rfl
  | _ =>
    cases hstep
    rfl

end Owes

/-! ### Runs -/

variable {classKinds : ℕ → List WordKind} {P : Ideal.Program} {seen : List Obs}

/-- The runs without an explicit collection, in which types are registered between cycles. -/
inductive Vm.CycleRun (env : Env) (classKinds : ℕ → List WordKind) (P : Ideal.Program) : List Obs → Vm → Prop
  | start : CycleRun env classKinds P [] { heap := { classKinds } }
  | exec {seen : List Obs} {V V' : Vm} {o : Obs} (hrun : CycleRun env classKinds P seen V)
    (hstep : V.exec env (P seen) = some (o, V')) (hfresh : ¬ V.StaleIntern (P seen))
    (hregister : ∀ typeId, P seen = .register typeId → V.heap.phase = .idle) :
      CycleRun env classKinds P (seen ++ [o]) V'
  | gc {seen more : List Obs} {V V' : Vm} {g : GcStep} (hrun : CycleRun env classKinds P seen V)
    (hg : g ≠ .startCollect) (hstep : V.gc env g = some (more, V')) : CycleRun env classKinds P (seen ++ more) V'

theorem Vm.CycleRun.run (hrun : Vm.CycleRun env classKinds P seen V) : Vm.Run env classKinds P seen V := by
  induction hrun with
  | start => exact .start
  | exec _ hstep hfresh _ ih => exact ih.exec hstep hfresh
  | gc _ _ hstep ih => exact ih.gc hstep

theorem Vm.CycleRun.owes (hsafe : Ideal.Safe classKinds P) (hrun : Vm.CycleRun env classKinds P seen V) :
    Owes V.heap ∧ ∀ q, V.mode ≠ .collecting q := by
  induction hrun with
  | start => exact ⟨⟨nofun, nofun, nofun⟩, nofun⟩
  | exec hrun hstep hfresh hregister ih =>
    obtain ⟨A, hrunA, ρ, L, hR⟩ := hrun.run.represents hsafe
    obtain ⟨⟨o', A'⟩, hideal⟩ := Option.isSome_iff_exists.mp (hsafe _ A hrunA)
    exact ⟨ih.1.exec hR hideal hstep hregister, Owes.exec_mode hstep ▸ ih.2⟩
  | gc hrun hg hstep ih =>
    obtain ⟨A, -, ρ, L, hR⟩ := hrun.run.represents hsafe
    obtain ⟨ho, hmode, -⟩ := ih.1.gc hR ih.2 hg hstep
    exact ⟨ho, hmode⟩

/-- Registers a type, drops the one object of it, and goes on. -/
def Ideal.dropsOne : Ideal.Program := fun seen ↦
  [Instr.register 7, .alloc (.instance 7 false []) true, .select []].getD seen.length (.imm 0)

/-- A finalizer of an explicit collection makes an object of its type and lets go of it: the collection frees it. -/
theorem Vm.collect_loses_drop : ∃ a, ((Vm.steps Env.upwards { heap := { classKinds := fun _ ↦ [] } }
    [.inl (.register 7), .inl (.alloc (.instance 7 false []) true), .inl (.select []), .inr .startCollect,
      .inr .runFinalizer, .inl (.alloc (.instance 7 false []) true), .inl (.select [])]).bind fun r ↦
        (r.2.gc Env.upwards .finishCollect).map fun s ↦
          ((r.2.heap.cells a).any fun c ↦ c.obj.pending r.2.heap.finalizerTypes, (s.2.heap.cells a).isSome)) =
      some (true, false) :=
  ⟨98304, by decide +kernel⟩

end CoilLang.Gc
