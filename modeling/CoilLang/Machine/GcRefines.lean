import CoilLang.Machine.GcProgram

/-!
# The collector refines a heap that never frees

Every step of the collector is a collection of the ideal heap, or nothing (`Represents.gc`). With the steps of the
program this makes a run of the machine, with its cycles, sweeps and finalizers anywhere between the steps of the
program, **a run of the program on a heap that never frees** (`Vm.Run.refines`): the program cannot tell them apart,
and finds every object it reaches where it left it.
-/

namespace CoilLang.Gc

open Machine.Snapshot (WordKind heapAddr)

variable {A A' : Ideal} {V V' : Vm} {ρ : ℕ → ℕ} {L : ℕ → Prop} {id : ℕ} {env : Env}

/-! ### Marking for a cycle -/

namespace Heap

variable {h : Heap}

theorem shadeForFinalizer_spec (queue : List ℕ) (hqueue : ∀ a ∈ queue, (h.cells a).isSome = true) :
    Marked h (h.shadeForFinalizer queue) ∧
      (h.shadeForFinalizer queue).marks = (queue.map (Prod.mk true)).foldl .visit h.marks := by
  rw [shadeForFinalizer]
  induction queue generalizing h with
  | nil => exact ⟨.refl h, rfl⟩
  | cons a queue ih =>
    have hm := marked_markAt true h a
    obtain ⟨hm', hmarks⟩ := ih (h := h.markAt true a) fun b hb ↦
      (hm.isSome b).trans (hqueue b (List.mem_cons_of_mem _ hb))
    refine ⟨hm.trans hm', ?_⟩
    rw [List.foldl_cons, hmarks, marks_markAt true h (hqueue a List.mem_cons_self)]
    rfl

/-- What is queued is in the heap, not marked, and owes its `drop`. -/
theorem unmarkedFinalizable_spec {a : ℕ} (ha : a ∈ h.unmarkedFinalizable.1) :
    h.isMarked a = false ∧ ∃ c, h.find a = some c ∧ c.obj.pending h.finalizerTypes = true := by
  obtain ⟨hlist, hmark⟩ := List.mem_filter.mp ha
  obtain ⟨-, howes⟩ := List.mem_filter.mp hlist
  rw [Bool.not_eq_true'] at hmark
  refine ⟨hmark, ?_⟩
  rw [owesDrop] at howes
  cases hc : h.find a with
  | none =>
    rw [hc] at howes
    cases howes
  | some c =>
    rw [hc] at howes
    exact ⟨c, rfl, howes⟩

end Heap

theorem shaded_of_white {h : Heap} (hwhite : ∀ a, h.isMarked a = false) : Shaded A h ρ L := by
  intro id id' _ hmark
  rw [hwhite] at hmark
  cases hmark

namespace Embeds

variable {h : Heap}

theorem setQueue (hE : Embeds A h ρ L) {queue : List ℕ} (hqueue : ∀ id ∈ queue, L id ∧ h.Spared (ρ id)) :
    Embeds { A with queue } h ρ L := by
  refine { hE with held := fun id hid ↦ ?_ }
  rcases hid with (hroot | himm | hmem) | hinterned
  · exact hE.held id (.inl (.inl hroot))
  · exact hE.held id (.inl (.inr (.inl himm)))
  · exact hqueue id hmem
  · exact hE.held id (.inr hinterned)

/-- Words of the program and immortal objects are roots. -/
theorem isRoot (hE : Embeds A h ρ L) {roots : List ℕ} (hroots : roots = A.roots.map (IWord.bits ρ))
    (hqueue : A.queue = [])
    (hid : A.Strong id) : h.IsRoot (h.immortals.map Prod.snd ++ roots) (ρ id) := by
  have hlive := (hE.held id (.inl hid)).1
  have hfound : (h.find (ρ id)).isSome = true := by
    rw [hE.ok.find_eq]
    exact hE.isSome hlive
  rcases hid with ⟨err, hmem⟩ | ⟨key, hmem⟩ | hmem
  · refine ⟨(IWord.ref id err).bits ρ, List.mem_append_right _ ?_, hE.addr hlive err, hfound⟩
    rw [hroots]
    exact List.mem_map_of_mem hmem
  · refine ⟨ρ id, List.mem_append_left _ ?_, hE.addr hlive false, hfound⟩
    rw [hE.immortals, List.map_map]
    exact List.mem_map.mpr ⟨(key, id), hmem, rfl⟩
  · rw [hqueue] at hmem
    cases hmem

/-- After the roots are marked, so is what the program holds. -/
theorem markRoots (hE : Embeds A h ρ L) (hphase : h.phase ≠ .sweeping) (hshaded : Shaded A h ρ L) {roots words : List ℕ}
    (hroots : roots = A.roots.map (IWord.bits ρ)) (hqueue : A.queue = [])
    (hwords : words = h.immortals.map Prod.snd ++ roots) :
    Embeds A (h.remarkRoots words).drain ρ L ∧ (h.remarkRoots words).drain.phase = h.phase ∧
      (h.remarkRoots words).drain.immortals = h.immortals ∧ Shaded A (h.remarkRoots words).drain ρ L ∧
      ∀ id, A.Strong id → (h.remarkRoots words).drain.isMarked (ρ id) = true := by
  obtain ⟨hE', hm, hshaded', hmark⟩ := hE.remark hphase hshaded words
  refine ⟨hE', hm.phase, by rw [hm.rest], hshaded', fun id hid ↦ hmark _ (.inr ?_)⟩
  rw [hwords]
  exact hE.isRoot hroots hqueue hid

/-- The objects that owe a `drop` are unmarked, so that nothing reaches them. -/
theorem queue_spec (hE : Embeds A h ρ L) (hphase : h.phase ≠ .sweeping) (hshaded : Shaded A h ρ L)
    (hstrong : ∀ id, A.Strong id → h.isMarked (ρ id) = true) (hempty : A.queue = []) :
    ∃ queue : List ℕ, h.unmarkedFinalizable.1 = queue.map ρ ∧ (∀ id ∈ queue, L id) ∧
      A.Collects [] { A with queue } := by
  have hall : ∀ l : List ℕ, (∀ a ∈ l, a ∈ h.unmarkedFinalizable.1) → ∃ queue : List ℕ, l = queue.map ρ ∧ ∀ id ∈ queue,
      L id ∧ ¬ A.Reachable id ∧ ∃ o, A.objs id = some o ∧ o.pending A.finalizerTypes = true := by
    intro l
    induction l with
    | nil => exact fun _ ↦ ⟨[], rfl, fun _ hid ↦ absurd hid List.not_mem_nil⟩
    | cons a l ih =>
      intro hl
      obtain ⟨queue, rfl, hqueue⟩ := ih fun b hb ↦ hl b (List.mem_cons_of_mem _ hb)
      obtain ⟨hmark, c, hc, hpending⟩ := Heap.unmarkedFinalizable_spec (hl a List.mem_cons_self)
      rw [hE.ok.find_eq] at hc
      obtain ⟨id, hid, rfl⟩ := hE.onto a (by rw [hc]; rfl)
      obtain ⟨o, ho, hobj, -⟩ := hE.obj_of hid hc
      refine ⟨id :: queue, rfl, fun id' hid' ↦ ?_⟩
      rcases List.mem_cons.mp hid' with rfl | hid'
      · refine ⟨hid, fun hreach ↦ ?_, o, ho, ?_⟩
        · rw [(hE.marked_of_reachable hphase hshaded hstrong hreach).2] at hmark
          cases hmark
        · rwa [hobj, Object.pending_map, hE.types] at hpending
      · exact hqueue id' hid'
  obtain ⟨queue, heq, hqueue⟩ := hall _ fun _ ha ↦ ha
  exact ⟨queue, heq, fun id hid ↦ (hqueue id hid).1, .enqueue queue hempty fun id hid ↦ (hqueue id hid).2⟩

/-- Queued objects are marked with what they reach. -/
theorem shade (hE : Embeds A h ρ L) (hphase : h.phase ≠ .sweeping) (hshaded : Shaded A h ρ L)
    (hstrong : ∀ id, A.Strong id → h.isMarked (ρ id) = true) {queue : List ℕ} (hqueue : ∀ id ∈ queue, L id) :
    Embeds { A with queue } (h.shadeForFinalizer (queue.map ρ)).drain ρ L ∧
      (h.shadeForFinalizer (queue.map ρ)).drain.phase = h.phase ∧
      Shaded { A with queue } (h.shadeForFinalizer (queue.map ρ)).drain ρ L ∧
      ∀ id, Ideal.Strong { A with queue } id → (h.shadeForFinalizer (queue.map ρ)).drain.isMarked (ρ id) = true := by
  have hsome : ∀ a ∈ queue.map ρ, (h.cells a).isSome = true := by
    intro a ha
    obtain ⟨id, hid, rfl⟩ := List.mem_map.mp ha
    exact hE.isSome (hqueue id hid)
  obtain ⟨hm, hmarks⟩ := Heap.shadeForFinalizer_spec _ hsome
  have hleaves : Tricolour.Leaves (Edge A ρ L) ((queue.map ρ).map (Prod.mk true)) := by
    intro k hk
    obtain ⟨a, -, heq⟩ := List.mem_map.mp hk
    cases heq
  obtain ⟨hE', hm', hshaded', hkeep⟩ := hE.drain hphase hm (hmarks ▸ (hE.inv_marks hshaded).visits hleaves)
  have hmarked : ∀ a, h.isMarked a = true ∨ a ∈ queue.map ρ →
    (h.shadeForFinalizer (queue.map ρ)).drain.isMarked a = true := by
    intro a ha
    refine hkeep a ?_
    show (h.shadeForFinalizer (queue.map ρ)).marks.marked a = true
    rw [hmarks, (Tricolour.visited_foldl _ _).marked]
    exact ha.imp_right fun hmem ↦ ⟨(true, a), List.mem_map_of_mem hmem, rfl⟩
  have hphase' : (h.shadeForFinalizer (queue.map ρ)).drain.phase = h.phase := hm'.phase
  refine ⟨hE'.setQueue fun id hid ↦ ⟨hqueue id hid, hE'.spared (hphase'.symm ▸ hphase) _⟩, hphase', hshaded', ?_⟩
  rintro id (hroot | himm | hmem)
  · exact hmarked _ (.inl (hstrong id (.inl hroot)))
  · exact hmarked _ (.inl (hstrong id (.inr (.inl himm))))
  · exact hmarked _ (.inr (List.mem_map_of_mem hmem))

end Embeds

namespace Represents

/-! ### Steps of the collector -/

/-- The program runs on, with a sweep open or not. -/
theorem of_running (hmode : V.mode = .running) (hroots : V.roots = A.roots.map (IWord.bits ρ)) (hempty : A.queue = [])
    (hheap : (V.heap.phase = .sweeping ∧ ∃ L, Embeds A V.heap ρ L) ∨
      V.heap.phase = .idle ∧ (∀ a, V.heap.isMarked a = false) ∧ ∃ L, Embeds A V.heap ρ L) : ∃ L,
        Represents A V ρ L := by
  rcases hheap with ⟨hphase, L, hE⟩ | ⟨hphase, hwhite, L, hE⟩
  · refine ⟨L, hE, hroots, ?_, fun _ hidle ↦ ?_, fun hmarking ↦ ?_, fun hmarking ↦ ?_⟩
    · rw [hmode, hphase]
      exact ⟨by simp, hempty⟩
    all_goals
      rw [hphase] at *
      contradiction
  · refine ⟨L, hE, hroots, ?_, fun _ _ ↦ hwhite, fun hmarking ↦ ?_, fun hmarking ↦ ?_⟩
    · rw [hmode, hphase]
      exact ⟨by simp, hempty⟩
    all_goals
      rw [hphase] at hmarking
      cases hmarking

theorem running (hR : Represents A V ρ L) (hmode : V.mode = .running) : V.heap.phase ≠ .marking ∧ A.queue = [] := by
  have := hR.agrees
  rwa [hmode] at this

/-- A sweep is finished in one go. -/
theorem finishSweep (hR : Represents A V ρ L) (hmode : V.mode = .running) (env : Env) :
    (∃ L', Represents A (V.onHeap (·.finishSweep env)) ρ L') ∧ (V.heap.finishSweep env).phase = .idle := by
  obtain ⟨hphase, hempty⟩ := hR.running hmode
  cases hcase : V.heap.phase with
  | marking => exact absurd hcase hphase
  | idle =>
    have hsame : V.heap.finishSweep env = V.heap := by rw [Heap.finishSweep, if_pos (by rw [hcase]; simp)]
    rw [Vm.onHeap, hsame]
    exact ⟨⟨L, hR⟩, hcase⟩
  | sweeping =>
    have hdone := (Embeds.sweeps env A ρ).finishSweep ⟨hcase, L, hR.embeds⟩
    exact ⟨of_running hmode hR.roots hempty (.inr hdone), hdone.1⟩

theorem sweepQuantum (hR : Represents A V ρ L) (hmode : V.mode = .running) (n : ℕ) (env : Env) :
    ∃ L', Represents A (V.onHeap fun h ↦ (h.sweepQuantum env n).1) ρ L' := by
  obtain ⟨-, hempty⟩ := hR.running hmode
  by_cases hcase : V.heap.phase = .sweeping
  · exact of_running hmode hR.roots hempty ((Embeds.sweeps env A ρ).sweepQuantum ⟨hcase, L, hR.embeds⟩)
  · have hsame : (V.heap.sweepQuantum env n).1 = V.heap := by rw [Heap.sweepQuantum, if_pos hcase]
    rw [Vm.onHeap, hsame]
    exact ⟨L, hR⟩

end Represents

/-- The sweep starts where what the program holds is marked. -/
theorem Embeds.runs (hE : Embeds A V.heap ρ L) (hroots : V.roots = A.roots.map (IWord.bits ρ)) (hempty : A.queue = [])
    (hphase : V.heap.phase ≠ .sweeping) (hshaded : Shaded A V.heap ρ L)
    (hstrong : ∀ id, A.Strong id → V.heap.isMarked (ρ id) = true) :
    ∃ A', A.Collects [] A' ∧ ∃ L', Represents A' V.startSweep ρ L' := by
  obtain ⟨dead, kept, hcollects, hE', hsweeping⟩ := hE.startSweep hphase hshaded hstrong
  exact ⟨_, hcollects, Represents.of_running rfl hroots hempty (.inl ⟨hsweeping, L, hE'⟩)⟩

/-- The objects that owe a `drop` are queued, in whichever mode, or the sweep starts. -/
theorem Embeds.queues (hE : Embeds A V.heap ρ L) (hroots : V.roots = A.roots.map (IWord.bits ρ)) (hempty : A.queue = [])
    (hphase : V.heap.phase ≠ .sweeping) (hshaded : Shaded A V.heap ρ L)
    (hstrong : ∀ id, A.Strong id → V.heap.isMarked (ρ id) = true) :
    (V.heap.unmarkedFinalizable.1 = [] → ∃ A', A.Collects [] A' ∧
      ∃ L', Represents A' { V with heap := V.heap.unmarkedFinalizable.2 }.startSweep ρ L') ∧
    ∀ mode : List ℕ → Mode, (∀ q, mode q ≠ .running) →
      (∀ q : List ℕ, (mode (q.map ρ)).Agrees ρ q V.heap.phase) →
      ∃ A', A.Collects [] A' ∧ ∃ L', Represents A'
        { V with
          heap := (V.heap.unmarkedFinalizable.2.shadeForFinalizer V.heap.unmarkedFinalizable.1).drain
          mode := mode V.heap.unmarkedFinalizable.1 } ρ L' := by
  have hE₁ : Embeds A V.heap.unmarkedFinalizable.2 ρ L := hE.setFinalizable _
  refine ⟨fun _ ↦ Embeds.runs (V := { V with heap := V.heap.unmarkedFinalizable.2 }) hE₁ hroots hempty hphase hshaded
    hstrong, fun mode hnot hagrees ↦ ?_⟩
  obtain ⟨queue, heq, hqueue, hcollects⟩ := hE.queue_spec hphase hshaded hstrong hempty
  rw [heq]
  obtain ⟨hE', hphase', hshaded', hstrong'⟩ := hE₁.shade hphase hshaded hstrong hqueue
  refine ⟨_, hcollects, L, hE', hroots, ?_, fun hmode ↦ absurd hmode (hnot _), fun _ ↦ hshaded', fun _ ↦ hstrong'⟩
  show (mode (queue.map ρ)).Agrees ρ queue _
  rw [hphase']
  exact hagrees queue

namespace Represents

theorem startCycle (hR : Represents A V ρ L) (hmode : V.mode = .running) (hidle : V.heap.phase = .idle) :
    ∃ A', A.Collects [] A' ∧ ∃ L', Represents A' V.startCycle ρ L' := by
  have hE := hR.embeds
  obtain ⟨-, hempty⟩ := hR.running hmode
  obtain ⟨hcursor, hfresh⟩ := hE.unswept (by rw [hidle]; simp)
  -- The mark opens.
  obtain ⟨h₀, hh₀⟩ : ∃ h₀ : Heap, h₀ = { V.heap with phase := .marking, gray := [] } := ⟨_, rfl⟩
  have hphase₀ : h₀.phase = .marking := by rw [hh₀]
  have himmortals₀ : h₀.immortals = V.heap.immortals := by rw [hh₀]
  have hwhite₀ : ∀ a, h₀.isMarked a = false := by
    rw [hh₀]
    exact hR.white hmode hidle
  have hE₀ : Embeds A h₀ ρ L := by
    rw [hh₀]
    exact hE.congr (hE.ok.congr rfl (fun _ ↦ rfl) rfl) rfl rfl (fun _ ha ↦ ha) (fun id c _ hc ↦ ⟨c, hc, rfl, .inl⟩)
      (fun _ _ ↦ Iff.rfl) (fun _ ↦ ⟨hcursor, hfresh⟩) fun hsweeping ↦ by cases hsweeping
  have hbegin : V.heap.beginMark V.collectRoots = h₀.remarkRoots V.collectRoots := by
    rw [Heap.beginMark, if_neg (by rw [hidle]; simp), hh₀]
  obtain ⟨hE₁, hphase₁, himmortals₁, hshaded₁, -⟩ := hE₀.markRoots (by rw [hphase₀]; simp) (shaded_of_white hwhite₀)
    hR.roots hempty (show V.collectRoots = _ by rw [himmortals₀]; rfl)
  rw [← hbegin] at hE₁ hphase₁ himmortals₁ hshaded₁
  obtain ⟨h₁, hh₁⟩ : ∃ h₁ : Heap, h₁ = (V.heap.beginMark V.collectRoots).drain := ⟨_, rfl⟩
  rw [← hh₁] at hE₁ hphase₁ himmortals₁ hshaded₁
  have himmortals : h₁.immortals = V.heap.immortals := himmortals₁.trans himmortals₀
  obtain ⟨hE₂, hphase₂, -, hshaded₂, hstrong₂⟩ :=
    hE₁.markRoots (by rw [hphase₁, hphase₀]; simp) hshaded₁ hR.roots hempty
    (rfl : h₁.immortals.map Prod.snd ++ V.roots = _)
  obtain ⟨h₂, hh₂⟩ : ∃ h₂ : Heap, h₂ = (h₁.remarkRoots (h₁.immortals.map Prod.snd ++ V.roots)).drain := ⟨_, rfl⟩
  rw [← hh₂] at hE₂ hphase₂ hshaded₂ hstrong₂
  have hmarking : h₂.phase = .marking := by rw [hphase₂, hphase₁, hphase₀]
  obtain ⟨hsweeps, hqueues⟩ := Embeds.queues (V := { V with heap := h₂ }) hE₂ hR.roots hempty
    (by simp [hmarking]) hshaded₂ hstrong₂
  have hcycle : V.startCycle = if h₂.unmarkedFinalizable.1 = [] then
      { V with heap := h₂.unmarkedFinalizable.2 }.startSweep
      else { V with
        heap := (h₂.unmarkedFinalizable.2.shadeForFinalizer h₂.unmarkedFinalizable.1).drain
        mode := .marking h₂.unmarkedFinalizable.1 } := by
    rw [hh₂, hh₁]
    rfl
  rw [hcycle]
  split
  · exact hsweeps ‹_›
  · exact hqueues .marking (fun _ ↦ by simp) fun q ↦ ⟨hmarking, rfl⟩

theorem marking (hR : Represents A V ρ L) {queue : List ℕ} (hmode : V.mode = .marking queue) :
    V.heap.phase = .marking ∧ queue = A.queue.map ρ := by
  have := hR.agrees
  rwa [hmode] at this

theorem collecting (hR : Represents A V ρ L) {queue : List ℕ} (hmode : V.mode = .collecting queue) :
    V.heap.phase = .idle ∧ queue = A.queue.map ρ := by
  have := hR.agrees
  rwa [hmode] at this

theorem finishMark (hR : Represents A V ρ L) (hmode : V.mode = .marking []) :
    ∃ A', A.Collects [] A' ∧ ∃ L', Represents A' V.finishMark ρ L' := by
  obtain ⟨hphase, hqueue⟩ := hR.marking hmode
  have hempty : A.queue = [] := List.map_eq_nil_iff.mp hqueue.symm
  have hnot : V.heap.phase ≠ .sweeping := by rw [hphase]; simp
  obtain ⟨hE, hphase', -, hshaded, hstrong⟩ := hR.embeds.markRoots hnot (hR.shaded hphase) hR.roots hempty
    (rfl : V.collectRoots = _)
  exact Embeds.runs (V := V.onHeap fun h ↦ (h.remarkRoots V.collectRoots).drain) hE hR.roots hempty
    (ne_of_eq_of_ne hphase' hnot) hshaded hstrong

end Represents

/-- Marking outside a cycle, where nothing is marked. -/
theorem Embeds.markFromRoots {h : Heap} (hE : Embeds A h ρ L) (hidle : h.phase = .idle)
    (hwhite : ∀ a, h.isMarked a = false)
    {roots words : List ℕ} (hroots : roots = A.roots.map (IWord.bits ρ)) (hempty : A.queue = [])
    (hwords : words = h.immortals.map Prod.snd ++ roots) :
    Embeds A (h.markFromRoots words) ρ L ∧ (h.markFromRoots words).phase = .idle ∧
      Shaded A (h.markFromRoots words) ρ L ∧ ∀ id, A.Strong id → (h.markFromRoots words).isMarked (ρ id) = true := by
  have hgray : { h with gray := [] } = h := by rw [← hE.gray]
  obtain ⟨hE', hphase', -, hshaded, hstrong⟩ :=
    hE.markRoots (by rw [hidle]; simp) (shaded_of_white hwhite) hroots hempty hwords
  rw [Heap.markFromRoots, hgray]
  exact ⟨hE', hphase'.trans hidle, hshaded, hstrong⟩

namespace Represents

theorem startCollect (hR : Represents A V ρ L) (hmode : V.mode = .running) (env : Env) :
    ∃ A', A.Collects [] A' ∧ ∃ L', Represents A' (V.startCollect env) ρ L' := by
  obtain ⟨-, hempty⟩ := hR.running hmode
  obtain ⟨⟨L₁, hR₁⟩, hidle₁⟩ := hR.finishSweep hmode env
  obtain ⟨V₁, hV₁⟩ : ∃ V₁ : Vm, V₁ = V.onHeap (·.finishSweep env) := ⟨_, rfl⟩
  have hopen : (V.onHeap fun h ↦ if h.phase = .sweeping then h.finishSweep env else h) = V₁ := by
    rw [hV₁, Vm.onHeap, Vm.onHeap]
    congr 1
    split
    · rfl
    · rename_i hnot
      rw [Heap.finishSweep, if_pos hnot]
  rw [← hV₁] at hR₁
  have hmode₁ : V₁.mode = .running := by rw [hV₁]; exact hmode
  have hidle₁ : V₁.heap.phase = .idle := by rw [hV₁]; exact hidle₁
  obtain ⟨hE₂, hidle₂, hshaded₂, hstrong₂⟩ := hR₁.embeds.markFromRoots hidle₁ (hR₁.white hmode₁ hidle₁) hR₁.roots hempty
    (rfl : V₁.collectRoots = _)
  obtain ⟨h₂, hh₂⟩ : ∃ h₂ : Heap, h₂ = V₁.heap.markFromRoots V₁.collectRoots := ⟨_, rfl⟩
  rw [← hh₂] at hE₂ hidle₂ hshaded₂ hstrong₂
  obtain ⟨hsweeps, hqueues⟩ := Embeds.queues (V := { V₁ with heap := h₂ }) hE₂ hR₁.roots hempty (by simp [hidle₂])
    hshaded₂ hstrong₂
  have hcollect : V.startCollect env = if h₂.unmarkedFinalizable.1 = [] then
      { V₁ with heap := h₂.unmarkedFinalizable.2 }.startSweep.onHeap (·.finishSweep env)
      else { V₁ with
        heap := (h₂.unmarkedFinalizable.2.shadeForFinalizer h₂.unmarkedFinalizable.1).drain
        mode := .collecting h₂.unmarkedFinalizable.1 } := by
    rw [Vm.startCollect, hopen, hh₂]
    rfl
  rw [hcollect]
  split
  · obtain ⟨A', hcollects, L', hR'⟩ := hsweeps ‹_›
    exact ⟨A', hcollects, (hR'.finishSweep rfl env).1⟩
  · exact hqueues .collecting (fun _ ↦ by simp) fun q ↦ ⟨hidle₂, rfl⟩

theorem finishCollect (hR : Represents A V ρ L) (hmode : V.mode = .collecting []) (env : Env) :
    ∃ A', A.Collects [] A' ∧ ∃ L', Represents A' (V.finishCollect env) ρ L' := by
  have hE := hR.embeds
  obtain ⟨hidle, hqueue⟩ := hR.collecting hmode
  have hempty : A.queue = [] := List.map_eq_nil_iff.mp hqueue.symm
  obtain ⟨hcursor, hfresh⟩ := hE.unswept (by rw [hidle]; simp)
  have hsome : ∀ a, (V.heap.unmark.cells a).isSome = (V.heap.cells a).isSome := fun a ↦ Option.isSome_map
  have hwhite : ∀ a, V.heap.unmark.isMarked a = false := by
    intro a
    show ((V.heap.cells a).map fun c ↦ { c with marked := false }).any Cell.marked = false
    cases V.heap.cells a <;> rfl
  have hE₁ : Embeds A V.heap.unmark ρ L := by
    refine hE.congr (hE.ok.congr rfl hsome rfl) hE.gray rfl (fun a ha ↦ hsome a ▸ ha) (fun id c _ hc ↦ ?_)
      (fun id _ ↦
        ⟨fun _ ↦ hE.spared (by rw [hidle]; simp) _, fun _ hahead ↦ absurd hahead (Heap.not_ahead_of_none hcursor)⟩)
      (fun _ ↦ ⟨hcursor, fun a c' hc' ↦ ?_⟩) fun hsweeping ↦ absurd (hidle.symm.trans hsweeping) (by simp)
    · refine ⟨{ c with marked := false }, ?_, rfl, .inl⟩
      show (V.heap.cells (ρ id)).map _ = _
      rw [hc]
      rfl
    · obtain ⟨c, hc, rfl⟩ := Option.map_eq_some_iff.mp hc'
      exact hfresh a c hc
  obtain ⟨hE₂, hidle₂, hshaded₂, hstrong₂⟩ := hE₁.markFromRoots hidle hwhite hR.roots hempty
    (rfl : (V.onHeap Heap.unmark).collectRoots = _)
  obtain ⟨A', hcollects, L', hR'⟩ := Embeds.runs
    (V := (V.onHeap Heap.unmark).onHeap (·.markFromRoots (V.onHeap Heap.unmark).collectRoots)) hE₂ hR.roots hempty
    (ne_of_eq_of_ne hidle₂ (by simp)) hshaded₂ hstrong₂
  exact ⟨A', hcollects, (hR'.finishSweep rfl env).1⟩

/-- The first object of the queue gets its turn. -/
theorem dequeue (hR : Represents A V ρ L) {ids : List ℕ} (hqueue : A.queue = id :: ids) {mode : Mode}
    (hnot : mode ≠ .running) (hagrees : mode.Agrees ρ ids V.heap.phase) :
    Represents { A with queue := ids } { V with mode } ρ L := by
  have hmem : ∀ id' ∈ ids, id' ∈ A.queue := fun id' hid' ↦ hqueue ▸ List.mem_cons_of_mem _ hid'
  have hstrong : ∀ id', Ideal.Strong { A with queue := ids } id' → A.Strong id' := fun id' hid' ↦
    hid'.imp_right (Or.imp_right (hmem id'))
  exact ⟨hR.embeds.setQueue fun id' hid' ↦ hR.embeds.held id' (.inl (.inr (.inr (hmem id' hid')))), hR.roots, hagrees,
    fun hmode ↦ absurd hmode hnot, hR.shaded, fun hphase id' hid' ↦ hR.strong hphase id' (hstrong id' hid')⟩

theorem runFinalizer (hR : Represents A V ρ L) {a : ℕ} {queue : List ℕ} (hqueue : a :: queue = A.queue.map ρ)
    {mode : Mode}
    (hnot : mode ≠ .running) (hagrees : ∀ ids : List ℕ, queue = ids.map ρ → mode.Agrees ρ ids V.heap.phase) :
    ∃ A', A.Collects [.bool ({ V with mode }.runFinalizer a).1] A' ∧
      Represents A' ({ V with mode }.runFinalizer a).2 ρ L := by
  obtain ⟨id, ids, hA, rfl, hids⟩ := List.map_eq_cons_iff.mp hqueue.symm
  have hid : Holdable V.heap ρ L id := hR.holdable (.inr (.inr (hA ▸ List.mem_cons_self)))
  have hR₁ := hR.dequeue hA hnot (hagrees ids hids.symm)
  obtain ⟨o, c, ho, hc, hobj, -⟩ := hR.embeds.cell id hid.1
  have hfind : V.heap.find (ρ id) = some c := (hR.embeds.ok.find_eq _).trans hc
  rw [Vm.runFinalizer, show Heap.find _ (ρ id) = some c from hfind]
  dsimp only
  rw [hobj, Object.claim_map]
  cases hclaim : o.claim with
  | none => exact ⟨_, .skip id ids o hA ho hclaim, hR₁⟩
  | some o' =>
    obtain ⟨-, hwords, -, hscan, helems, -, hstring, -, hweak⟩ := Object.claim_spec hclaim
    have hpush := hR₁.push (w := .ref id false) fun id' err heq ↦ by cases heq; exact hid
    exact ⟨_, .finalize id ids o o' hA ho hclaim, hpush.setSame hid ho hc hwords hscan helems hstring hweak⟩

/-- **A step of the collector is a collection of the ideal heap.** -/
theorem gc (hR : Represents A V ρ L) {g : Vm.GcStep} {more : List Obs} (hstep : V.gc env g = some (more, V')) :
    ∃ A', A.Collects more A' ∧ ∃ L', Represents A' V' ρ L' := by
  unfold Vm.gc at hstep
  split at hstep
  · rename_i hmode
    split at hstep
    · rename_i hidle
      cases hstep
      exact hR.startCycle hmode hidle
    · cases hstep
  · rename_i hmode
    cases hstep
    exact hR.finishMark hmode
  · rename_i n hmode
    cases hstep
    exact ⟨A, .quiet, hR.sweepQuantum hmode n env⟩
  · rename_i hmode
    cases hstep
    exact ⟨A, .quiet, (hR.finishSweep hmode env).1⟩
  · rename_i hmode
    cases hstep
    exact hR.startCollect hmode env
  · rename_i hmode
    cases hstep
    exact hR.finishCollect hmode env
  · rename_i a queue hmode
    cases hstep
    obtain ⟨hphase, hqueue⟩ := hR.marking hmode
    obtain ⟨A', hcollects, hR'⟩ := hR.runFinalizer hqueue (show Mode.marking queue ≠ .running by simp) fun ids hids ↦
      ⟨hphase, hids⟩
    exact ⟨A', hcollects, L, hR'⟩
  · rename_i a queue hmode
    cases hstep
    obtain ⟨hphase, hqueue⟩ := hR.collecting hmode
    obtain ⟨A', hcollects, hR'⟩ :=
      hR.runFinalizer hqueue (show Mode.collecting queue ≠ .running by simp) fun ids hids ↦ ⟨hphase, hids⟩
    exact ⟨A', hcollects, L, hR'⟩
  · cases hstep

end Represents

/-! ### Runs -/

variable {classKinds : ℕ → List WordKind} {P : Ideal.Program} {seen : List Obs}

theorem represents_start (classKinds : ℕ → List WordKind) :
    Represents { classKinds } { heap := { classKinds } } (fun _ ↦ 0) fun _ ↦ False where
  embeds := by
    refine ⟨Heap.ok_start classKinds, rfl, rfl, rfl, rfl, rfl, nofun, nofun, nofun, nofun, nofun, nofun, ?_, ?_, nofun,
      fun _ ↦ ⟨rfl, nofun⟩, nofun⟩
    · rintro id ((⟨err, hroot⟩ | ⟨key, himm⟩ | hqueue) | hinterned)
      · cases hroot
      · cases himm
      · cases hqueue
      · cases hinterned
    · exact fun _ _ hid ↦ absurd hid.1 id
  roots := rfl
  agrees := ⟨by simp, rfl⟩
  white _ _ _ := rfl
  shaded := nofun
  strong := nofun

/-- A run of the machine is a run of the ideal heap that shows the program the same. -/
theorem Vm.Run.represents (hsafe : Ideal.Safe classKinds P) (hrun : Vm.Run env classKinds P seen V) :
    ∃ A, Ideal.Run classKinds P seen A ∧ ∃ ρ L, Represents A V ρ L := by
  induction hrun with
  | start => exact ⟨_, .start, _, _, represents_start classKinds⟩
  | @exec seen V V' o hrun hstep hfresh ih =>
    obtain ⟨A, hrunA, ρ, L, hR⟩ := ih
    obtain ⟨⟨o', A'⟩, hideal⟩ := Option.isSome_iff_exists.mp (hsafe seen A hrunA)
    obtain ⟨rfl, hR'⟩ := hR.exec hideal hstep hfresh
    exact ⟨A', hrunA.exec hideal, hR'⟩
  | gc hrun hstep ih =>
    obtain ⟨A, hrunA, ρ, L, hR⟩ := ih
    obtain ⟨A', hcollects, hR'⟩ := hR.gc hstep
    exact ⟨A', hrunA.gc hcollects, ρ, hR'⟩

/-- What the program reaches is in the heap, and no sweep frees it. -/
theorem Represents.kept_of_reachable (hR : Represents A V ρ L) (hid : A.Reachable id) : L id ∧
    V.heap.Spared (ρ id) := by
  obtain ⟨r, hr, hpath⟩ := hid
  induction hpath with
  | refl => exact hR.embeds.held r (.inl hr)
  | tail _ hchild ih => exact hR.embeds.closed _ _ ih (.inl hchild)

namespace Ideal

theorem exec_ne_missing {i : Instr} {o : Obs} (h : A.exec i = some (o, A')) : o ≠ .missing := by
  rintro rfl
  cases i <;> simp only [exec] at h <;> grind [Option.map_eq_some_iff, Option.bind_eq_some_iff]

/-- On the ideal heap nothing is ever missing. -/
theorem Run.not_missing (hrun : Run classKinds P seen A) : Obs.missing ∉ seen := by
  induction hrun with
  | start => exact List.not_mem_nil
  | exec hrun hstep ih =>
    intro hmem
    rcases List.mem_append.mp hmem with hmem | hmem
    · exact ih hmem
    · exact exec_ne_missing hstep (List.mem_singleton.mp hmem).symm
  | gc hrun hstep ih =>
    intro hmem
    rcases List.mem_append.mp hmem with hmem | hmem
    · exact ih hmem
    · cases hstep with
      | finalize => cases List.mem_singleton.mp hmem
      | skip => cases List.mem_singleton.mp hmem
      | _ => cases hmem

end Ideal

/-- The machine after some steps of the program and the collector, and what the program saw of them. -/
def Vm.steps (env : Env) : Vm → List (Instr ⊕ GcStep) → Option (List Obs × Vm)
  | V, [] => some ([], V)
  | V, .inl i :: more => (V.exec env i).bind fun r ↦ (steps env r.2 more).map fun s ↦ (r.1 :: s.1, s.2)
  | V, .inr g :: more => (V.gc env g).bind fun r ↦ (steps env r.2 more).map fun s ↦ (r.1 ++ s.1, s.2)

/-- A finalizer looks up a text that was interned before the cycle and stores the string: the sweep frees it. -/
theorem Vm.stale_intern_missing : ((Vm.steps Env.upwards { heap := { classKinds := fun _ ↦ [] } }
    [.inl (.register 7), .inl (.alloc (.instance 1 false [5]) true), .inl (.intern "x"),
      .inl (.alloc (.instance 7 false []) true), .inl (.select [0]), .inr .startCycle, .inr .runFinalizer,
      .inl (.intern "x"), .inl (.store 0 (.instance 1 false [.inl 2]) true), .inl (.select [0]), .inr .finishMark,
      .inr .finishSweep, .inl (.load 0 0), .inl (.look 1)]).map fun r ↦ r.1.getLast?) = some (some .missing) := by
  decide +kernel

end CoilLang.Gc
