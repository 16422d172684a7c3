import CoilLang.Machine.TaskFinish

/-!
# Every step of the machine keeps the scheduler's invariant

Cancelling and ending tasks, suspending, the loop of `task_run_next` and the natives, one lemma each,
and from these the invariant of every reachable state (`VmReachable.inv`).

While a task runs it is the current one, and no task is off the queue. At the head of the loop no
task runs. Within an iteration the picked task is held, until it runs or ends.
-/

namespace CoilLang.Task

variable {s : Scheduler} {held : TaskId → Prop} {run dying : Option TaskId}

/-! ### Cancelling a task -/

section Cancel

variable {id : TaskId} {rec : TaskRec}

/-- A task that has not run owns no scope. -/
theorem Inv.ownedChildrenFinished_of_not_started (h : Inv s held run none)
    (hrec : s.tasks id = some rec) (hstart : rec.started = false) (hroot : id ≠ Task.root) :
    s.ownedChildrenFinished id = true := by
  refine List.all_eq_true.2 fun i hi ↦ ?_
  obtain ⟨sc, hsc, rfl⟩ := h.mem_scopesOwnedBy.1 hi
  obtain ⟨r, hr, -, hst⟩ := h.owner i sc hsc (by simp)
  rw [hrec, Option.some.injEq] at hr
  subst hr
  exact absurd hst (by simp [hstart, hroot])

/-- Taking a ready task off the run queue. -/
theorem Inv.hold (h : Inv s held run dying) (hready : s.isReady id = true) (q : List TaskId)
    (hnodup : q.Nodup) (hq : ∀ t, t ∈ q ↔ t ∈ s.runQueue ∧ t ≠ id) :
    Inv { s with runQueue := q } (fun t ↦ held t ∨ t = id) run dying where
  task := h.task
  root := h.root
  task_lt := h.task_lt
  scope_lt := h.scope_lt
  order_nodup := h.order_nodup
  order_iff := h.order_iff
  scope i sc hi :=
    ⟨(h.scope i sc hi).nodup, (h.scope i sc hi).child, (h.scope i sc hi).count⟩
  owner := h.owner
  child := h.child
  live := h.live
  underflow := h.underflow
  queue_nodup := hnodup
  queue_iff t := by
    rw [hq, h.queue_iff, not_or, and_assoc]
    rfl
  running := h.running
  run_some := h.run_some
  held_ready t ht := by
    rcases ht with ht | rfl
    · exact h.held_ready t ht
    · exact hready

theorem Inv.deliverCancel (h : Inv s held run dying) (hrec : s.tasks id = some rec)
    (hroot : id ≠ Task.root) (hstart : rec.started = true) :
    Inv (s.deliverCancel id rec) held run dying := by
  have hok := h.task id rec hrec
  unfold Scheduler.deliverCancel
  simp only
  split
  · exact h.touch_data hrec rfl rfl (fun h ↦ h)
      ⟨hok.1, hok.2, hok.3, hok.4, fun _ ↦ hstart, fun hid ↦ absurd hid hroot⟩
  · rename_i hcond
    have hb : rec.state = .blocked := by
      by_contra hne
      exact hcond (.inr (.inr hne))
    refine Inv.dropWait ?_ _ _
    exact h.touch_wake hrec hb rfl rfl rfl rfl rfl (fun _ ↦ hstart) fun hid ↦ absurd hid hroot

/-- A task to cancel that never ran is ready, in the queue, and owns no scope: it can be finished once
it is taken off the queue. -/
theorem Inv.unstarted (h : Inv s held run none) (hrec : s.tasks id = some rec)
    (hcond : ¬ (id = Task.root ∨ rec.state.finished = true ∨ rec.state = .ending ∨
      rec.cancel ≠ .none)) (hstart : rec.started = false) :
    Inv { s with runQueue := s.runQueue.filter fun t ↦ t ≠ id } (fun t ↦ held t ∨ t = id) run none ∧
      id ≠ Task.root ∧ rec.state = .ready ∧ s.ownedChildrenFinished id = true := by
  obtain ⟨hroot, hfin, hend, -⟩ : id ≠ Task.root ∧ ¬ rec.state.finished = true ∧
      rec.state ≠ .ending ∧ ¬ rec.cancel ≠ .none := by simpa only [not_or] using hcond
  have hready : rec.state = .ready := by
    have := (h.task id rec hrec).started
    cases hst : rec.state <;> simp_all [TaskState.finished]
  have hisready : s.isReady id = true := by simp [Scheduler.isReady, hrec, hready]
  exact ⟨h.hold hisready _ (h.queue_nodup.filter _) (by simp), hroot, hready,
    h.ownedChildrenFinished_of_not_started hrec hstart hroot⟩

/-- **Cancelling a task** that is not held keeps the invariant. -/
theorem Inv.requestCancel (h : Inv s held run none) (hheld : ¬ held id) :
    Inv (s.requestCancel id) held run none := by
  unfold Scheduler.requestCancel
  split
  · exact h
  rename_i rec hrec
  split
  · exact h
  rename_i hcond
  split
  · rename_i hstart
    obtain ⟨hh, hroot, hready, hdone⟩ := h.unstarted hrec hcond (by simpa using hstart)
    refine (hh.finalize id hrec hroot (.inr ⟨hready, .inr rfl⟩) rfl hdone).held_congr fun t ↦ ?_
    refine ⟨fun ht ↦ ht.1.resolve_right ht.2, fun ht ↦ ⟨.inl ht, ?_⟩⟩
    rintro rfl
    exact hheld ht
  · rename_i hstart
    exact h.deliverCancel hrec (fun hid ↦ hcond (.inl hid)) (by simpa using hstart)

@[simp] theorem requestCancel_current (s : Scheduler) (id : TaskId) :
    (s.requestCancel id).current = s.current := by
  unfold Scheduler.requestCancel
  split
  · rfl
  · split
    · rfl
    · split
      · simp
      · unfold Scheduler.deliverCancel
        simp only
        split
        · rfl
        · rw [dropWait_current]
          rfl

theorem Inv.requestCancels (ids : List TaskId) (h : Inv s held run none)
    (hids : ∀ id ∈ ids, ¬ held id) : Inv (s.requestCancels ids) held run none :=
  List.foldlRecOn (motive := fun s ↦ Inv s held run none) ids _ h
    fun _ h id hid ↦ h.requestCancel (hids id hid)

theorem mem_ownedChildren {c : TaskId} (h : c ∈ s.ownedChildren id) :
    ∃ i ∈ s.scopesOwnedBy id, ∃ sc, s.scopes i = some sc ∧ c ∈ sc.children := by
  obtain ⟨i, hi, hc⟩ := List.mem_flatMap.1 h
  rcases hsc : s.scopes i with - | sc
  · simp [hsc] at hc
  · exact ⟨i, hi, sc, hsc, by simpa [hsc] using hc⟩

theorem Inv.lt_of_mem_ownedChildren (h : Inv s held run dying) {c : TaskId}
    (hc : c ∈ s.ownedChildren id) : id < c := by
  obtain ⟨i, hi, sc, hsc, hmem⟩ := mem_ownedChildren hc
  obtain ⟨sc', hsc', hown⟩ := h.mem_scopesOwnedBy.1 hi
  rw [hsc, Option.some.injEq] at hsc'
  rw [← hown, ← hsc']
  exact ((h.scope i sc hsc).child c hmem).1

/-- The tasks off the queue: the picked one alone, until it runs, ends or waits for its children. -/
theorem Inv.cancelWaitsForChildren (h : Inv s (· = id) none none) (hroot : id ≠ Task.root) :
    Inv (s.cancelWaitsForChildren id).2
      (fun t ↦ (s.cancelWaitsForChildren id).1 = false ∧ t = id) none none := by
  unfold Scheduler.cancelWaitsForChildren
  split
  · exact h.held_congr (by simp)
  · split
    · exact h.held_congr (by simp)
    · have h₁ : Inv (s.requestCancels (s.ownedChildren id)) (· = id) none none :=
        h.requestCancels _ fun c hc ↦ (h.lt_of_mem_ownedChildren hc).ne'
      simp only
      split
      · exact h₁.held_congr (by simp)
      · rename_i hdone
        have hready := h₁.held_ready id rfl
        split
        · rename_i rec₁ hrec₁
          have hst : rec₁.state = .ready := by simpa [Scheduler.isReady, hrec₁] using hready
          have hok := h₁.task id rec₁ hrec₁
          have hstart : rec₁.started = true := by
            by_contra hne
            exact hdone (h₁.ownedChildrenFinished_of_not_started hrec₁ (by simpa using hne) hroot)
          have hend : rec₁.ending = none := by
            rw [← Option.not_isSome_iff_eq_none, ← hok.ending_iff, hst]
            simp
          have hnot : id ∉ (s.requestCancels (s.ownedChildren id)).runQueue := by
            rw [h₁.queue_iff]
            simp
          refine h₁.touch hrec₁ _ rfl (by simp [hst, TaskState.finished]) (fun h ↦ h)
            ⟨by simp, by simp [hend], hok.3, fun _ ↦ .inl hstart, hok.5, fun hid ↦ absurd hid hroot⟩
            h₁.queue_nodup (by simp [hnot]) (fun t ht ↦ by simp [ht]) (by simp) (by simp)
            fun _ _ ↦ Iff.rfl
        · rename_i hnone
          simp [Scheduler.isReady, hnone] at hready

end Cancel

/-! ### Ending a task -/

section End

variable {id : TaskId} {rec : TaskRec} {state : TaskState}

/-- Writing a scope's record keeps the invariant when owner, children and count stay. -/
theorem Inv.setScope (h : Inv s held run dying) {i : ScopeId} {sc sc' : ScopeRec}
    (hi : s.scopes i = some sc) (howner : sc'.owner = sc.owner)
    (hchildren : sc'.children = sc.children) (hunf : sc'.unfinished = sc.unfinished) :
    Inv (s.setScope i sc') held run dying := by
  have hback : ∀ {j sj}, (s.setScope i sc').scopes j = some sj → ∃ sj', s.scopes j = some sj' ∧
      sj.owner = sj'.owner ∧ sj.children = sj'.children ∧ sj.unfinished = sj'.unfinished := by
    intro j sj hj
    by_cases hji : j = i
    · subst hji
      have : sc' = sj := by simpa [Scheduler.setScope] using hj
      subst this
      exact ⟨sc, hi, howner, hchildren, hunf⟩
    · exact ⟨sj, by simpa [Scheduler.setScope, hji] using hj, rfl, rfl, rfl⟩
  refine ⟨h.task, h.root, h.task_lt, ?_, h.order_nodup, ?_, ?_, ?_, ?_, h.live, h.underflow,
    h.queue_nodup, h.queue_iff, h.running, h.run_some, h.held_ready⟩
  · intro j sj hj
    obtain ⟨sj', hj', -⟩ := hback hj
    exact h.scope_lt j sj' hj'
  · intro j
    rw [show (s.setScope i sc').scopeOrder = s.scopeOrder from rfl, h.order_iff]
    by_cases hji : j = i
    · simp [Scheduler.setScope, hji, hi]
    · simp [Scheduler.setScope, hji]
  · intro j sj hj
    obtain ⟨sj', hj', ho, hc, hu⟩ := hback hj
    obtain ⟨hnd, hchild, hcount⟩ := h.scope j sj' hj'
    exact ⟨hc ▸ hnd, by rwa [ho, hc], by rwa [hu, hc]⟩
  · intro j sj hj hd
    obtain ⟨sj', hj', ho, -⟩ := hback hj
    rw [ho] at hd ⊢
    exact h.owner j sj' hj' hd
  · intro t r ht hr
    obtain ⟨sj, hj, hmem⟩ := h.child t r ht hr
    by_cases hji : r.scope = i
    · rw [hji, hi, Option.some.injEq] at hj
      exact ⟨sc', by simp [Scheduler.setScope, hji], by rwa [hchildren, hj]⟩
    · exact ⟨sj, by simpa [Scheduler.setScope, hji] using hj, hmem⟩

theorem Inv.failScope (h : Inv s held run dying) (i : ScopeId) (panic : Option String) :
    Inv (s.failScope i panic) held run dying := by
  unfold Scheduler.failScope
  split
  · rename_i hi
    exact h.setScope hi rfl rfl rfl
  · exact h

theorem Inv.closeScope (h : Inv s held run dying) (i : ScopeId) :
    Inv (s.closeScope i) held run dying := by
  unfold Scheduler.closeScope
  split
  · rename_i sc hi
    exact h.setScope hi rfl rfl rfl
  · exact h

/-- A task off the queue is marked as ending. -/
theorem Inv.markEnding (h : Inv s held run none) (hrec : s.tasks id = some rec)
    (hroot : id ≠ Task.root) (honly : ∀ t, held t ∨ run = some t ↔ t = id)
    (hst : rec.state = .ready ∧ held id ∨ rec.state = .running) (hfin : state.finished = true)
    (panic : Option String) :
    Inv (s.setTask id { rec with state := .ending, ending := some state, panic := panic })
      (fun _ ↦ False) none none := by
  have hok := h.task id rec hrec
  have hblock : rec.block = none := by
    rw [← Option.not_isSome_iff_eq_none, ← hok.blocked_iff]
    rcases hst with ⟨hst, -⟩ | hst <;> simp [hst]
  have hqueue : id ∉ s.runQueue := by
    rw [h.queue_iff]
    rcases hst with ⟨-, hheld⟩ | hst
    · simp [hheld]
    · simp [Scheduler.isReady, hrec, hst]
  have hother : ∀ t, t ≠ id → ¬ held t ∧ run ≠ some t := fun t ht ↦
    ⟨fun hh ↦ ht ((honly t).1 (.inl hh)), fun hr ↦ ht ((honly t).1 (.inr hr))⟩
  refine h.touch hrec s.runQueue rfl ?_ (fun h ↦ h) ?_ h.queue_nodup (by simp [hqueue])
    (fun t ht ↦ ⟨Iff.rfl, by simp [(hother t ht).1]⟩) (fun h ↦ h.elim) (by simp)
    fun t ht ↦ by simp [(hother t ht).2]
  · rcases hst with ⟨hst, -⟩ | hst <;> simp [hst, TaskState.finished]
  · refine ⟨by simp [hblock], by simp, fun st hst ↦ ?_, by simp, hok.cancel_started,
      fun hid ↦ absurd hid hroot⟩
    rw [← Option.some.inj hst]
    exact hfin

/-- The first part of ending the one task off the queue. -/
theorem Inv.beginEnd (h : Inv s held run none) (hroot : id ≠ Task.root)
    (honly : ∀ t, held t ∨ run = some t ↔ t = id) (hfin : state.finished = true)
    (panic : Option String) : ∃ rec, s.tasks id = some rec ∧
      Inv (s.beginEnd id rec state panic).2 (fun _ ↦ False) none none := by
  obtain ⟨rec, hrec, hst⟩ : ∃ rec, s.tasks id = some rec ∧
      (rec.state = .ready ∧ held id ∨ rec.state = .running) := by
    rcases (honly id).2 rfl with hid | hid
    · obtain ⟨rec, hrec, hst⟩ := Scheduler.isReady_iff.1 (h.held_ready id hid)
      exact ⟨rec, hrec, .inl ⟨hst, hid⟩⟩
    · obtain ⟨rec, hrec⟩ := h.run_some id hid
      exact ⟨rec, hrec, .inr ((h.running id rec hrec).2 hid)⟩
  have hmark := (h.markEnding hrec hroot honly hst hfin (panic.or rec.panic)).failScope
    rec.scope panic
  exact ⟨rec, hrec, List.foldlRecOn (motive := fun s ↦ Inv s (fun _ ↦ False) none none) _ _ hmark
    fun _ h i _ ↦ h.closeScope i⟩

/-- **Ending the one task off the queue** (running, or held) leaves every task on it. -/
theorem Inv.taskEnd (h : Inv s held run none) (hroot : id ≠ Task.root)
    (honly : ∀ t, held t ∨ run = some t ↔ t = id) (hfin : state.finished = true)
    (panic : Option String) : Inv (s.taskEnd id state panic) (fun _ ↦ False) none none := by
  obtain ⟨rec, hrec, h₁⟩ := h.beginEnd hroot honly hfin panic
  have h₂ := h₁.requestCancels (s.beginEnd id rec state panic).1 fun _ _ h ↦ h
  unfold Scheduler.taskEnd
  rw [hrec]
  simp only
  split
  · rename_i hcond
    obtain ⟨hany, hdone⟩ := Bool.and_eq_true_iff.1 hcond
    obtain ⟨rec₂, hrec₂, hst₂⟩ := (Option.any_eq_true _ _).1 hany
    exact (h₂.finalize id hrec₂ hroot (.inl (by simpa using hst₂)) hfin hdone).held_congr (by simp)
  · exact h₂

end End

/-! ### Suspending -/

section Suspend

variable {rec rec' : TaskRec} {block : Option Block} {resultSlot : Bool}

/-- A suspension with a cancel waiting: the task is at the front of the queue. -/
theorem suspendAt_cancelled (hrec : s.tasks s.current = some rec) (hcancel : rec.cancel = .requested)
    (hshield : rec.shield = 0) :
    s.suspendAt block resultSlot = { s.dropWait s.current block with
      tasks := Function.update s.tasks s.current (some { rec with
        timerSeq := none, block := none, state := .ready
        wake := some (if resultSlot then .unit else .retry) })
      runQueue := s.current :: s.runQueue } := by
  unfold Scheduler.suspendAt
  rw [hrec]
  simp only [setTask_dropWait]
  simp [hcancel, hshield, Scheduler.setTask]

/-- A suspension without one. -/
theorem suspendAt_blocked (hrec : s.tasks s.current = some rec)
    (hcancel : ¬ (rec.cancel = .requested ∧ rec.shield = 0)) (b : Block) :
    s.suspendAt (some b) resultSlot =
      s.setTask s.current { rec with block := some b, state := .blocked } := by
  have hc : (rec.cancel == .requested && rec.shield == 0) = false := by
    simpa [Bool.and_eq_false_iff, not_and_or] using hcancel
  unfold Scheduler.suspendAt
  rw [hrec]
  simp [hc]

/-- A `yield_now`: the task is at the back of the queue. -/
theorem suspendAt_yield (hrec : s.tasks s.current = some rec)
    (hcancel : ¬ (rec.cancel = .requested ∧ rec.shield = 0)) (hqueue : s.current ∉ s.runQueue) :
    s.suspendAt none resultSlot = { s.setTask s.current { rec with
        block := none, state := .ready, wake := some (if resultSlot then .unit else .retry) } with
      runQueue := s.runQueue ++ [s.current] } := by
  have hc : (rec.cancel == .requested && rec.shield == 0) = false := by
    simpa [Bool.and_eq_false_iff, not_and_or] using hcancel
  have hhead : s.runQueue.head? ≠ some s.current := fun hh ↦
    hqueue (List.mem_of_mem_head? (by simp [hh]))
  unfold Scheduler.suspendAt
  rw [hrec]
  simp [hc, hhead]

/-- **Suspending the running task** puts it on the queue, or blocks it. -/
theorem Inv.suspendAt (h : Inv s (fun _ ↦ False) (some s.current) none) (block : Option Block)
    (resultSlot : Bool) : Inv (s.suspendAt block resultSlot) (fun _ ↦ False) none none := by
  obtain ⟨rec, hrec⟩ := h.run_some _ rfl
  have hst : rec.state = .running := (h.running _ rec hrec).2 rfl
  have hok := h.task _ rec hrec
  have hend : rec.ending = none := by
    rw [← Option.not_isSome_iff_eq_none, ← hok.ending_iff, hst]
    simp
  have hqueue : s.current ∉ s.runQueue := by
    rw [h.queue_iff]
    simp [Scheduler.isReady, hrec, hst]
  have hother : ∀ t, t ≠ s.current → (none = some t ↔ some s.current = some t) := by
    intro t ht
    simp [Ne.symm ht]
  -- every outcome keeps all but these fields of the record
  have hready : ∀ (seq : Option ℕ) (wake : Option Wake), TaskOk s.current
      { rec with timerSeq := seq, block := none, state := .ready, wake := wake } := fun seq wake ↦
    ⟨by simp, by simp [hend], hok.3, by simp, hok.5,
      fun hid ↦ ⟨rfl, by simp, (hok.root_alive hid).2.2⟩⟩
  have hstate : TaskState.finished rec.state = false := by simp [hst, TaskState.finished]
  by_cases hc : rec.cancel = .requested ∧ rec.shield = 0
  · rw [suspendAt_cancelled hrec hc.1 hc.2]
    have ht : Inv { s.setTask s.current { rec with
          timerSeq := none, block := none, state := .ready
          wake := some (if resultSlot then .unit else .retry) } with
        runQueue := s.current :: s.runQueue } (fun _ ↦ False) none none :=
      h.touch hrec _ rfl hstate.symm (fun h ↦ h) (hready none _)
        (List.nodup_cons.2 ⟨hqueue, h.queue_nodup⟩) (by simp) (fun t ht ↦ ⟨by simp [ht], Iff.rfl⟩)
        (fun _ ↦ rfl) (by simp) hother
    obtain ⟨io, cond, thread, hdrop⟩ := dropWait_eq s s.current block
    rw [hdrop]
    exact ht.frame rfl rfl rfl rfl rfl rfl rfl rfl
  rcases block with - | b
  · rw [suspendAt_yield hrec hc hqueue]
    exact h.touch hrec _ rfl hstate.symm (fun h ↦ h) (hready rec.timerSeq _)
      (h.queue_nodup.append (by simp) (by simpa using hqueue)) (by simp)
      (fun t ht ↦ ⟨by simp [ht], Iff.rfl⟩) (fun _ ↦ rfl) (by simp) hother
  · rw [suspendAt_blocked hrec hc]
    refine h.touch_same hrec rfl hstate.symm (fun h ↦ h) ?_ (by simp [hst]) (by simp) hother
    exact ⟨by simp, by simp [hend], hok.3, fun _ ↦ hok.started (.inl hst), hok.5,
      fun hid ↦ ⟨rfl, by simp, (hok.root_alive hid).2.2⟩⟩

end Suspend

/-! ### The loop -/

section Loop

variable {id : TaskId}

/-- The queue holds ready tasks only, so the first one is picked. -/
theorem Inv.popReady (h : Inv s (fun _ ↦ False) run none) :
    s.popReady s.runQueue = (s.runQueue.head?, s.runQueue.tail) := by
  rcases hq : s.runQueue with - | ⟨id, q⟩
  · rfl
  · have hready := ((h.queue_iff id).1 (by simp [hq])).1
    rw [Scheduler.isReady] at hready
    simp [Scheduler.popReady, hready]

/-- The picked task is held. -/
theorem Inv.pick (h : Inv s (fun _ ↦ False) none none) {q : List TaskId}
    (hq : s.runQueue = id :: q) : Inv { s with runQueue := q } (· = id) none none := by
  have hnodup := h.queue_nodup
  rw [hq, List.nodup_cons] at hnodup
  have hready := ((h.queue_iff id).1 (by simp [hq])).1
  refine (h.hold hready q hnodup.2 fun t ↦ ?_).held_congr (by simp)
  rw [hq, List.mem_cons]
  constructor
  · intro ht
    exact ⟨.inr ht, fun htid ↦ hnodup.1 (htid ▸ ht)⟩
  · rintro ⟨ht | ht, hne⟩
    · exact absurd ht hne
    · exact ht

/-- A held task runs. -/
theorem Inv.resume (h : Inv s (· = id) none none) {rec rec' : TaskRec} (hrec : s.tasks id = some rec)
    (hscope : rec'.scope = rec.scope) (hstate : rec'.state = .running)
    (hblock : rec'.block = rec.block) (hend : rec'.ending = rec.ending)
    (hstart : rec'.started = true ∨ id = Task.root ∧ rec'.started = rec.started)
    (hcancel : rec'.cancel = rec.cancel) :
    Inv (s.setTask id rec') (fun _ ↦ False) (some id) none := by
  have hst : rec.state = .ready := by
    simpa [Scheduler.isReady, hrec] using h.held_ready id rfl
  have hok := h.task id rec hrec
  have hblock' : rec.block = none := by
    rw [← Option.not_isSome_iff_eq_none, ← hok.blocked_iff, hst]
    simp
  have hend' : rec.ending = none := by
    rw [← Option.not_isSome_iff_eq_none, ← hok.ending_iff, hst]
    simp
  have hqueue : id ∉ s.runQueue := by
    rw [h.queue_iff]
    simp
  refine h.touch hrec s.runQueue hscope (by simp [hst, hstate, TaskState.finished]) ?_ ?_
    h.queue_nodup (by simp [hqueue, hstate]) (fun t ht ↦ ⟨Iff.rfl, by simp [ht]⟩) (fun h ↦ h.elim)
    (by simp [hstate]) fun t ht ↦ by simp [Ne.symm ht]
  · intro hs
    rcases hstart with hstart | ⟨-, hstart⟩
    · exact hstart
    · rw [hstart, hs]
  · refine ⟨by simp [hstate, hblock, hblock'], by simp [hstate, hend, hend'], ?_, ?_, ?_, ?_⟩
    · intro st hs
      simp [hend, hend'] at hs
    · intro _
      exact hstart.imp_right And.left
    · intro hc
      rw [hcancel] at hc
      rcases hstart with hstart | ⟨-, hstart⟩
      · exact hstart
      · rw [hstart]
        exact hok.cancel_started hc
    · intro hid
      exact ⟨by simp [hstate, TaskState.finished], by simp [hstate],
        hcancel.trans (hok.root_alive hid).2.2⟩

theorem Inv.resumeRoot (h : Inv s (· = Task.root) none none) :
    Inv s.resumeRoot (fun _ ↦ False) (some s.resumeRoot.current) none := by
  obtain ⟨rec, hrec⟩ := h.root
  have h₁ : Inv (s.setTask Task.root { rec with state := .running, wake := none })
      (fun _ ↦ False) (some Task.root) none :=
    h.resume hrec rfl rfl rfl rfl (.inr ⟨rfl, rfl⟩) rfl
  unfold Scheduler.resumeRoot
  rw [hrec]
  exact h₁.frame rfl rfl rfl rfl rfl rfl rfl rfl

theorem Inv.switchInFailed (h : Inv s held run none) :
    Inv (s.switchInFailed id) held run none := by
  unfold Scheduler.switchInFailed
  split
  · rename_i rec hrec
    have hok := h.task id rec hrec
    exact h.touch_data hrec rfl rfl (fun h ↦ h) ⟨hok.1, hok.2, hok.3, hok.4, hok.5, hok.6⟩
  · exact h

theorem Inv.switchIn (h : Inv s (· = id) none none) :
    Inv (s.switchIn id) (fun _ ↦ False) (some id) none := by
  obtain ⟨rec, hrec, -⟩ := Scheduler.isReady_iff.1 (h.held_ready id rfl)
  have h₁ : Inv (s.setTask id { rec with state := .running, started := true, wake := none })
      (fun _ ↦ False) (some id) none :=
    h.resume hrec rfl rfl rfl rfl (.inl rfl) rfl
  unfold Scheduler.switchIn
  rw [hrec]
  exact h₁.frame rfl rfl rfl rfl rfl rfl rfl rfl

@[simp] theorem switchIn_current (s : Scheduler) (id : TaskId) : (s.switchIn id).current = id := by
  unfold Scheduler.switchIn
  split <;> rfl

@[simp] theorem takeCancel_current (s : Scheduler) : s.takeCancel.2.current = s.current := by
  unfold Scheduler.takeCancel
  split
  · split <;> rfl
  · rfl

theorem Inv.takeCancel (h : Inv s held run none) (hroot : s.current ≠ Task.root) :
    Inv s.takeCancel.2 held run none := by
  unfold Scheduler.takeCancel
  split
  · rename_i rec hrec
    split
    · exact h
    · rename_i hc
      have hok := h.task _ rec hrec
      have hcancel : rec.cancel = .requested := by
        by_contra hne
        exact hc (.inl hne)
      exact h.touch_data hrec rfl rfl (fun h ↦ h) ⟨hok.1, hok.2, hok.3, hok.4,
        fun _ ↦ hok.cancel_started (by simp [hcancel]), fun hid ↦ absurd hid hroot⟩
  · exact h

theorem Inv.enterTask (h : Inv s (· = id) none none) (hroot : id ≠ Task.root) (w : World) :
    Inv (s.enterTask id w).2 (fun _ ↦ False)
      (if (s.enterTask id w).1 then some (s.enterTask id w).2.current else none) none := by
  unfold Scheduler.enterTask
  split
  · exact h.switchInFailed.taskEnd hroot (by simp) rfl _
  · have h₁ := h.switchIn.takeCancel (by simpa using hroot)
    have hcur : (s.switchIn id).takeCancel.2.current = id := by simp
    simp only
    split
    · simpa [hcur] using h₁
    · exact h₁.taskEnd hroot (by simp [eq_comm]) rfl _

/-! ### Waiting for events -/

theorem Inv.takeKey (h : Inv s held run dying) (key : ℕ) :
    Inv (s.takeKey key).1 held run dying := by
  unfold Scheduler.takeKey
  split
  · exact h
  · refine Inv.wakeIf ?_ _ _ _
    exact h.frame rfl rfl rfl rfl rfl rfl rfl rfl

theorem Inv.takePosted (h : Inv s held run dying) : Inv s.takePosted.1 held run dying := by
  have h₁ : Inv { s with posted := [] } held run dying := h.frame rfl rfl rfl rfl rfl rfl rfl rfl
  exact List.foldlRecOn (motive := fun acc : Scheduler × Bool ↦ Inv acc.1 held run dying) s.posted _
    h₁ fun _ h key _ ↦ h.takeKey key

theorem Inv.takeToken (h : Inv s held run dying) (token : WaitToken) :
    Inv (s.takeToken token) held run dying := by
  unfold Scheduler.takeToken
  split
  · exact h
  · refine Inv.makeReady ?_ _ _
    exact h.frame rfl rfl rfl rfl rfl rfl rfl rfl

theorem Inv.timerExpired (h : Inv s held run dying) (t : TaskId × Option Block) :
    Inv (s.timerExpired t) held run dying := by
  unfold Scheduler.timerExpired
  split
  · exact (h.dropWait _ _).makeReady _ _
  · exact (h.dropWait _ _).makeReady _ _
  · exact h.makeReady _ _
  · exact h

theorem Inv.takeEvents (h : Inv s held run dying) (ready : List WaitToken) (posted : List ℕ)
    (now : ℕ) : Inv (s.takeEvents ready posted now) held run dying := by
  have h₁ : Inv (if s.ioWaits.isEmpty then s else ready.foldl Scheduler.takeToken s)
      held run dying := by
    split
    · exact h
    · exact List.foldlRecOn (motive := fun s ↦ Inv s held run dying) ready _ h
        fun _ h token _ ↦ h.takeToken token
  have h₂ := (h₁.frame rfl rfl rfl rfl rfl rfl rfl rfl : Inv { (if s.ioWaits.isEmpty then s else
      ready.foldl Scheduler.takeToken s) with
    posted := (if s.ioWaits.isEmpty then s else ready.foldl Scheduler.takeToken s).posted ++ posted }
      held run dying).takePosted
  unfold Scheduler.takeEvents
  refine List.foldlRecOn (motive := fun s ↦ Inv s held run dying) _ _ ?_
    fun _ h t _ ↦ h.timerExpired t
  exact h₂.frame rfl rfl rfl rfl rfl rfl rfl rfl

theorem Inv.waitEvents (h : Inv s held run dying) (ready : List WaitToken) (posted : List ℕ)
    (now : ℕ) : Inv (s.waitEvents ready posted now).2 held run dying := by
  unfold Scheduler.waitEvents
  simp only
  split
  · exact h.takePosted
  · have h₁ : Inv s.takePosted.1.nextDeadline.2 held run dying :=
      h.takePosted.frame rfl rfl rfl rfl rfl rfl rfl rfl
    split
    · exact h₁
    · exact h₁.takeEvents _ _ _

/-- With no task ready or running, the root is blocked. -/
theorem Inv.root_blocked (h : Inv s (fun _ ↦ False) none none) (hready : s.isReady Task.root = false)
    {rec : TaskRec} (hrec : s.tasks Task.root = some rec) : rec.state = .blocked := by
  have hrun := h.running _ rec hrec
  have halive := (h.task _ rec hrec).root_alive rfl
  cases hst : rec.state <;> simp_all [Scheduler.isReady, TaskState.finished]

theorem Inv.deadlock (h : Inv s (fun _ ↦ False) none none) (hready : s.isReady Task.root = false) :
    Inv s.deadlock (fun _ ↦ False) none none := by
  unfold Scheduler.deadlock
  split
  · rename_i rec hrec
    refine Inv.makeReady ?_ _ _
    have heq : { rec with state := .blocked } = rec := by
      rw [← h.root_blocked hready hrec]
    rw [heq, Scheduler.setTask, ← hrec, Function.update_eq_self]
    exact h
  · exact h

/-- No task was woken: the tasks are as they were. -/
theorem takeKey_tasks {key : ℕ} (h : (s.takeKey key).2 = false) :
    (s.takeKey key).1.tasks = s.tasks := by
  unfold Scheduler.takeKey at h ⊢
  split
  · rfl
  · rename_i hkey
    rw [hkey] at h
    simp only at h ⊢
    rw [Scheduler.wakeIf, h]
    rfl

theorem takeKeys_tasks (keys : List ℕ) (acc : Scheduler × Bool)
    (h : (keys.foldl (fun acc key ↦ ((acc.1.takeKey key).1, acc.2 || (acc.1.takeKey key).2))
      acc).2 = false) :
    (keys.foldl (fun acc key ↦ ((acc.1.takeKey key).1, acc.2 || (acc.1.takeKey key).2))
      acc).1.tasks = acc.1.tasks ∧ acc.2 = false := by
  induction keys generalizing acc with
  | nil => exact ⟨rfl, h⟩
  | cons key keys ih =>
    obtain ⟨htasks, hfalse⟩ := ih _ h
    rw [Bool.or_eq_false_iff] at hfalse
    exact ⟨htasks.trans (takeKey_tasks hfalse.2), hfalse.1⟩

theorem takePosted_tasks (h : s.takePosted.2 = false) : s.takePosted.1.tasks = s.tasks :=
  (takeKeys_tasks s.posted _ h).1

/-- Nothing could wake a task: none was woken, and none waits for IO or a thread. -/
theorem waitEvents_eq_false {ready : List WaitToken} {posted : List ℕ} {now : ℕ}
    (h : (s.waitEvents ready posted now).1 = false) :
    (s.waitEvents ready posted now).2 = s.takePosted.1.nextDeadline.2 ∧
      s.takePosted.1.tasks = s.tasks ∧ s.takePosted.1.ioWaits = [] ∧
        s.takePosted.1.threadWaits = [] := by
  unfold Scheduler.waitEvents at h ⊢
  simp only [Prod.fst_swap, Prod.snd_swap] at h ⊢
  by_cases hany : s.takePosted.2 = true
  · rw [if_pos hany] at h
    exact absurd h (by simp)
  · rw [if_neg hany] at h ⊢
    split at h
    · rename_i hidle
      rw [if_pos hidle]
      obtain ⟨hwaits, -⟩ := Bool.and_eq_true_iff.1 hidle
      obtain ⟨hio, hthread⟩ := Bool.and_eq_true_iff.1 hwaits
      exact ⟨rfl, takePosted_tasks (by simpa using hany), List.isEmpty_iff.1 hio,
        List.isEmpty_iff.1 hthread⟩
    · exact absurd h (by simp)

/-- The root is not ready when nothing was in the queue and nothing could wake a task. -/
theorem Inv.root_not_ready (h : Inv s (fun _ ↦ False) run dying) (hqueue : s.runQueue = [])
    {ready : List WaitToken} {posted : List ℕ} {now : ℕ}
    (hwoken : (s.waitEvents ready posted now).1 = false) :
    (s.waitEvents ready posted now).2.isReady Task.root = false := by
  obtain ⟨heq, htasks, -⟩ := waitEvents_eq_false hwoken
  have hroot := h.queue_iff Task.root
  rw [heq, Scheduler.isReady]
  show (s.takePosted.1.tasks Task.root).any _ = false
  rw [htasks]
  simpa [hqueue, Scheduler.isReady] using hroot

/-- **One iteration of the loop** keeps the invariant. -/
theorem Inv.runNext (h : Inv s (fun _ ↦ False) none none) (w : World) :
    Inv (s.runNext w).2 (fun _ ↦ False)
      (if (s.runNext w).1 then some (s.runNext w).2.current else none) none := by
  unfold Scheduler.runNext
  rw [h.popReady]
  rcases hq : s.runQueue with - | ⟨id, q⟩
  · simp only [List.head?_nil, List.tail_nil]
    have h₁ : Inv { s with runQueue := [] } (fun _ ↦ False) none none :=
      h.frame rfl rfl rfl hq.symm rfl rfl rfl rfl
    have h₂ := h₁.waitEvents w.ready w.posted w.now
    split
    · exact h₂
    · rename_i hwoken
      exact h₂.deadlock (h₁.root_not_ready rfl (by simpa using hwoken))
  · simp only [List.head?_cons, List.tail_cons]
    have h₁ := h.pick hq
    split
    · rename_i hid
      subst hid
      exact h₁.resumeRoot
    · rename_i hroot
      have h₂ := h₁.cancelWaitsForChildren hroot
      split
      · rename_i hwaits
        exact h₂.held_congr (by simp [hwaits])
      · rename_i hwaits
        exact (h₂.held_congr (by simpa using hwaits)).enterTask hroot w

end Loop

/-! ### The natives -/

section Natives

/-- The scheduler starts with the root task running. -/
theorem Inv.new (nested : ℕ) :
    Inv (Scheduler.new nested) (fun _ ↦ False) (some Task.root) none := by
  have htask : ∀ id rec, (Scheduler.new nested).tasks id = some rec →
      id = Task.root ∧ rec = { TaskRec.new 0 with state := .running } := by
    intro id rec h
    by_cases hid : id = Task.root
    · refine ⟨hid, ?_⟩
      simpa [Scheduler.new, hid, eq_comm] using h
    · simp [Scheduler.new, hid] at h
  have hroot : (Scheduler.new nested).tasks Task.root =
      some { TaskRec.new 0 with state := .running } := by simp [Scheduler.new]
  refine ⟨?_, ⟨_, hroot⟩, ?_, by simp [Scheduler.new], by simp [Scheduler.new],
    by simp [Scheduler.new], by simp [Scheduler.new], by simp [Scheduler.new], ?_, ?_, rfl,
    by simp [Scheduler.new], ?_, ?_, ?_, by simp⟩
  · intro id rec h
    obtain ⟨rfl, rfl⟩ := htask id rec h
    exact ⟨by simp [TaskRec.new], by simp [TaskRec.new], by simp [TaskRec.new], by simp,
      by simp [TaskRec.new], by simp [TaskRec.new, TaskState.finished]⟩
  · intro id rec h
    rw [(htask id rec h).1]
    exact Nat.zero_lt_one
  · intro id rec hid h
    exact absurd (htask id rec h).1 hid
  · show 0 = _
    refine (Finset.card_eq_zero.2 (Finset.eq_empty_of_forall_notMem fun id hid ↦ ?_)).symm
    obtain ⟨hlt, hne, -⟩ := Scheduler.mem_liveTasks.1 hid
    exact hne (Nat.lt_one_iff.1 hlt)
  · intro id
    have : (Scheduler.new nested).isReady id = false := by
      rw [Bool.eq_false_iff]
      intro h
      obtain ⟨rec, hrec, hst⟩ := Scheduler.isReady_iff.1 h
      rw [(htask id rec hrec).2] at hst
      simp at hst
    rw [this]
    simp [Scheduler.new]
  · intro id rec h
    obtain ⟨rfl, rfl⟩ := htask id rec h
    simp
  · intro id hid
    rw [← Option.some.inj hid]
    exact ⟨_, hroot⟩

/-- A scope opened by the running task. -/
theorem Inv.openScope (h : Inv s held (some s.current) none) :
    Inv s.openScope.2 held (some s.openScope.2.current) none := by
  have hfresh : s.scopes s.nextScope = none := by
    rcases hsc : s.scopes s.nextScope with - | sc
    · rfl
    · exact absurd (h.scope_lt _ sc hsc) (lt_irrefl _)
  have hold : ∀ {i sc}, s.scopes i = some sc → i ≠ s.nextScope := by
    rintro i sc hi rfl
    simp [hfresh] at hi
  have hback : ∀ {i sc}, s.openScope.2.scopes i = some sc →
      (i = s.nextScope ∧ sc = ⟨s.current, [], 0, false, none⟩) ∨ s.scopes i = some sc := by
    intro i sc hi
    by_cases his : i = s.nextScope
    · exact .inl ⟨his, by simpa [Scheduler.openScope, his, eq_comm] using hi⟩
    · exact .inr (by simpa [Scheduler.openScope, his] using hi)
  refine ⟨h.task, h.root, h.task_lt, ?_, ?_, ?_, ?_, ?_, ?_, h.live, h.underflow, h.queue_nodup,
    h.queue_iff, h.running, h.run_some, h.held_ready⟩
  · intro i sc hi
    show i < s.nextScope + 1
    rcases hback hi with ⟨rfl, -⟩ | hi
    · exact Int.lt_succ _
    · exact (h.scope_lt i sc hi).trans (Int.lt_succ _)
  · refine h.order_nodup.append (by simp) ?_
    simp [h.order_iff, hfresh]
  · intro i
    show i ∈ s.scopeOrder ++ [s.nextScope] ↔ _
    rw [List.mem_append, h.order_iff, List.mem_singleton]
    by_cases his : i = s.nextScope
    · simp [Scheduler.openScope, his]
    · simp [Scheduler.openScope, his]
  · intro i sc hi
    rcases hback hi with ⟨rfl, rfl⟩ | hi
    · exact ⟨by simp, by simp, rfl⟩
    · exact ⟨(h.scope i sc hi).nodup, (h.scope i sc hi).child, (h.scope i sc hi).count⟩
  · intro i sc hi hd
    rcases hback hi with ⟨rfl, rfl⟩ | hi
    · obtain ⟨rec, hrec⟩ := h.run_some _ rfl
      have hst := (h.running _ rec hrec).2 rfl
      exact ⟨rec, hrec, by simp [hst, TaskState.finished], (h.task _ rec hrec).started (.inl hst)⟩
    · exact h.owner i sc hi hd
  · intro id rec hid hrec
    obtain ⟨sc, hsc, hmem⟩ := h.child id rec hid hrec
    exact ⟨sc, by simpa [Scheduler.openScope, hold hsc] using hsc, hmem⟩

/-- **Spawning** on an open scope: the new task is counted, listed and queued. -/
theorem Inv.addTask (h : Inv s held run none) {i : ScopeId} {sc : ScopeRec}
    (hi : s.scopes i = some sc) : Inv (s.addTask i).2 held run none := by
  have heq : (s.addTask i).2 = { s with
      tasks := Function.update s.tasks s.nextTask (some (TaskRec.new i))
      scopes := Function.update s.scopes i (some { sc with
        children := sc.children ++ [s.nextTask], unfinished := sc.unfinished + 1 })
      nextTask := s.nextTask + 1
      live := s.live + 1
      runQueue := s.runQueue ++ [s.nextTask] } := by
    simp [Scheduler.addTask, Scheduler.addChild, hi, Scheduler.setScope]
  rw [heq]
  have hfresh : s.tasks s.nextTask = none := by
    rcases hrec : s.tasks s.nextTask with - | rec
    · rfl
    · exact absurd (h.task_lt _ rec hrec) (lt_irrefl _)
  have hold : ∀ {t rec}, s.tasks t = some rec → t ≠ s.nextTask := by
    rintro t rec ht rfl
    simp [hfresh] at ht
  have hback : ∀ {j sj}, Function.update s.scopes i (some { sc with
      children := sc.children ++ [s.nextTask], unfinished := sc.unfinished + 1 }) j = some sj →
      ∃ sj', s.scopes j = some sj' ∧ sj.owner = sj'.owner ∧
        (j = i ∧ sj.children = sj'.children ++ [s.nextTask] ∧ sj.unfinished = sj'.unfinished + 1 ∨
          j ≠ i ∧ sj.children = sj'.children ∧ sj.unfinished = sj'.unfinished) := by
    intro j sj hj
    by_cases hji : j = i
    · subst hji
      rw [Function.update_self, Option.some.injEq] at hj
      subst hj
      exact ⟨sc, hi, rfl, .inl ⟨rfl, rfl, rfl⟩⟩
    · rw [Function.update_of_ne hji] at hj
      exact ⟨sj, hj, rfl, .inr ⟨hji, rfl, rfl⟩⟩
  have hchildold : ∀ {j sj c}, s.scopes j = some sj → c ∈ sj.children → c ≠ s.nextTask := by
    intro j sj c hj hc
    obtain ⟨-, rec, hrec, -⟩ := (h.scope j sj hj).child c hc
    exact hold hrec
  have hcount : ∀ {j sj}, s.scopes j = some sj →
      (sj.children.filter fun t ↦ (Function.update s.tasks s.nextTask (some (TaskRec.new i)) t).any
        fun r ↦ !r.state.finished) = sj.children.filter s.unfinished := by
    intro j sj hj
    refine List.filter_congr fun c hc ↦ ?_
    simp [Scheduler.unfinished, hchildold hj hc]
  refine ⟨?_, ?_, ?_, ?_, h.order_nodup, ?_, ?_, ?_, ?_, ?_, h.underflow, ?_, ?_, ?_, ?_, ?_⟩
  · intro t rec ht
    rcases update_eq_some_iff.1 ht with ⟨rfl, rfl⟩ | ⟨-, ht⟩
    · refine ⟨by simp [TaskRec.new], by simp [TaskRec.new], by simp [TaskRec.new],
        by simp [TaskRec.new], by simp [TaskRec.new], fun _ ↦ ?_⟩
      exact ⟨rfl, by simp [TaskRec.new], rfl⟩
    · exact h.task t rec ht
  · obtain ⟨rec, hrec⟩ := h.root
    exact ⟨rec, by simpa [hold hrec] using hrec⟩
  · intro t rec ht
    show t < s.nextTask + 1
    rcases update_eq_some_iff.1 ht with ⟨rfl, rfl⟩ | ⟨-, ht⟩
    · exact Nat.lt_succ_self _
    · exact (h.task_lt t rec ht).trans (Nat.lt_succ_self _)
  · intro j sj hj
    obtain ⟨sj', hj', -⟩ := hback hj
    exact h.scope_lt j sj' hj'
  · intro j
    rw [h.order_iff]
    by_cases hji : j = i
    · simp [hji, hi]
    · simp [hji]
  · intro j sj hj
    obtain ⟨sj', hj', howner, ⟨hji, hch, hunf⟩ | ⟨hji, hch, hunf⟩⟩ := hback hj
    · obtain ⟨hnd, hchild, hcnt⟩ := h.scope j sj' hj'
      refine ⟨?_, ?_, ?_⟩
      · rw [hch]
        exact hnd.append (by simp) (by simpa using fun hmem ↦ hchildold hj' hmem rfl)
      · intro c hc
        rw [hch, List.mem_append, List.mem_singleton] at hc
        rw [howner]
        rcases hc with hc | rfl
        · obtain ⟨hlt, rec, hrec, hscope⟩ := hchild c hc
          exact ⟨hlt, rec, by simpa [hold hrec] using hrec, hscope⟩
        · obtain ⟨rec, hrec, -⟩ := h.owner j sj' hj' (by simp)
          exact ⟨h.task_lt _ rec hrec, TaskRec.new i, by simp, hji.symm⟩
      · rw [hunf, hch, List.filter_append, List.length_append, hcnt]
        congr 1
        · exact (congrArg List.length (hcount hj')).symm
        · simp [Scheduler.unfinished, TaskRec.new, TaskState.finished]
    · obtain ⟨hnd, hchild, hcnt⟩ := h.scope j sj' hj'
      refine ⟨hch ▸ hnd, fun c hc ↦ ?_, ?_⟩
      · rw [hch] at hc
        obtain ⟨hlt, rec, hrec, hscope⟩ := hchild c hc
        exact ⟨howner ▸ hlt, rec, by simpa [hold hrec] using hrec, hscope⟩
      · rw [hunf, hch, hcnt]
        exact (congrArg List.length (hcount hj')).symm
  · intro j sj hj hd
    obtain ⟨sj', hj', howner, -⟩ := hback hj
    obtain ⟨rec, hrec, hfin, hst⟩ := h.owner j sj' hj' (by simp)
    rw [howner]
    exact ⟨rec, by simpa [hold hrec] using hrec, hfin, hst⟩
  · intro t rec ht hrec
    rcases update_eq_some_iff.1 hrec with ⟨rfl, rfl⟩ | ⟨-, hrec⟩
    · exact ⟨_, Function.update_self .., by simp⟩
    · obtain ⟨sj, hj, hmem⟩ := h.child t rec ht hrec
      by_cases hji : rec.scope = i
      · rw [hji, hi, Option.some.injEq] at hj
        exact ⟨_, by rw [hji]; exact Function.update_self .., by simp [hj, hmem]⟩
      · exact ⟨sj, by simpa [hji] using hj, hmem⟩
  · show s.live + 1 = _
    have hroot : s.nextTask ≠ Task.root := by
      obtain ⟨rec, hrec⟩ := h.root
      exact (Nat.zero_lt_of_lt (h.task_lt _ rec hrec)).ne'
    have hnot : s.nextTask ∉ s.liveTasks := fun hmem ↦
      lt_irrefl _ (Scheduler.mem_liveTasks.1 hmem).1
    rw [h.live, ← Finset.card_insert_of_notMem hnot]
    refine congrArg Finset.card ?_
    ext t
    rw [Finset.mem_insert, Scheduler.mem_liveTasks, Scheduler.mem_liveTasks]
    by_cases ht : t = s.nextTask
    · simp [ht, hroot, Scheduler.unfinished, TaskRec.new, TaskState.finished]
    · simp only [ht, false_or, Scheduler.unfinished, Function.update_of_ne ht]
      rw [show t < s.nextTask + 1 ↔ t < s.nextTask from
        ⟨fun hlt ↦ lt_of_le_of_ne (Nat.lt_succ_iff.1 hlt) ht, fun hlt ↦ hlt.trans (Nat.lt_succ_self _)⟩]
  · refine h.queue_nodup.append (by simp) ?_
    simp [h.queue_iff, Scheduler.isReady, hfresh]
  · intro t
    show t ∈ s.runQueue ++ [s.nextTask] ↔ _
    rw [List.mem_append, List.mem_singleton, h.queue_iff]
    by_cases ht : t = s.nextTask
    · subst ht
      have hheld : ¬ held s.nextTask := fun hh ↦ by
        have := h.held_ready _ hh
        simp [Scheduler.isReady, hfresh] at this
      simp [Scheduler.isReady, TaskRec.new, hheld]
    · simp [Scheduler.isReady, ht]
  · intro t rec ht
    rcases update_eq_some_iff.1 ht with ⟨rfl, rfl⟩ | ⟨-, ht⟩
    · have : run ≠ some s.nextTask := fun hrun ↦ by
        obtain ⟨rec, hrec⟩ := h.run_some _ hrun
        exact hold hrec rfl
      simp [TaskRec.new, this]
    · exact h.running t rec ht
  · intro t ht
    obtain ⟨rec, hrec⟩ := h.run_some t ht
    exact ⟨rec, by simpa [hold hrec] using hrec⟩
  · intro t ht
    obtain ⟨rec, hrec, hst⟩ := Scheduler.isReady_iff.1 (h.held_ready t ht)
    exact Scheduler.isReady_iff.2 ⟨rec, by simpa [hold hrec] using hrec, hst⟩

theorem Inv.notifyCond (h : Inv s held run dying) (cond : CondId) :
    Inv (s.notifyCond cond) held run dying := by
  refine Inv.wakeAll ?_ _ _ _
  exact h.frame rfl rfl rfl rfl rfl rfl rfl rfl

theorem Inv.addTimer (h : Inv s held run dying) (id : TaskId) (deadline : ℕ) :
    Inv (s.addTimer id deadline) held run dying := by
  unfold Scheduler.addTimer
  split
  · rename_i rec hrec
    have hok := h.task id rec hrec
    have h₁ : Inv (s.setTask id { rec with timerSeq := some s.nextTimer }) held run dying :=
      h.touch_data hrec rfl rfl (fun h ↦ h) ⟨hok.1, hok.2, hok.3, hok.4, hok.5, hok.6⟩
    exact h₁.frame rfl rfl rfl rfl rfl rfl rfl rfl
  · exact h.frame rfl rfl rfl rfl rfl rfl rfl rfl

@[simp] theorem addTimer_current (s : Scheduler) (id : TaskId) (deadline : ℕ) :
    (s.addTimer id deadline).current = s.current := by
  unfold Scheduler.addTimer
  split <;> rfl

theorem Inv.parkIo (h : Inv s held run dying) (deadline : Option ℕ) :
    Inv (s.parkIo deadline) held run dying := by
  have h₁ : Inv (s.addIoWait s.current).2 held run dying :=
    h.frame rfl rfl rfl rfl rfl rfl rfl rfl
  unfold Scheduler.parkIo
  split
  · exact h₁.addTimer _ _
  · exact h₁

@[simp] theorem parkIo_current (s : Scheduler) (deadline : Option ℕ) :
    (s.parkIo deadline).current = s.current := by
  unfold Scheduler.parkIo
  split
  · exact addTimer_current ..
  · rfl

/-- The task that runs changes a part of its record the invariant does not read. -/
theorem Inv.setShield (h : Inv s held run dying) {id : TaskId} {rec : TaskRec}
    (hrec : s.tasks id = some rec) (n : ℕ) :
    Inv (s.setTask id { rec with shield := n }) held run dying := by
  have hok := h.task id rec hrec
  exact h.touch_data hrec rfl rfl (fun h ↦ h) ⟨hok.1, hok.2, hok.3, hok.4, hok.5, hok.6⟩

end Natives

/-! ### Every step -/

/-- The invariant between steps: no task is held, and the current one runs unless the machine is at
the head of the loop. -/
def Scheduler.Sound (s : Scheduler) (picking : Bool) : Prop :=
  Inv s (fun _ ↦ False) (if picking then none else some s.current) none

/-- The invariant of the machine. -/
def VmInv (vm : Vm) : Prop :=
  ∀ s, vm.sched = some s → s.Sound vm.picking

section Step

variable {flow : TaskFlow} {s' : Scheduler}

theorem dropIdle_eq_some (h : s.dropIdle = some s') : s' = s := by
  unfold Scheduler.dropIdle at h
  split at h
  · simp at h
  · exact (Option.some.inj h).symm

theorem sound_removeScope (h : s.Sound false) {id : ScopeId} (hdone : s.childrenFinished id = true) :
    (s.removeScope id).Sound false := by
  unfold Scheduler.Sound
  rw [removeScope_current]
  exact h.removeScope_of_finished hdone

theorem sound_taskScopeClose (h : s.Sound false) (id : ScopeId) (nested : ℕ) :
    VmInv ⟨(s.taskScopeClose id nested).2,
      decide ((s.taskScopeClose id nested).1 = .switched)⟩ := by
  unfold Scheduler.taskScopeClose
  split
  · rintro _ ⟨⟩
    exact h
  · rename_i sc hsc
    split
    · rintro _ ⟨⟩
      exact h
    · have h₁ : (s.setScope id { sc with closed := true }).Sound false := h.setScope hsc rfl rfl rfl
      simp only
      split
      · rename_i hdone
        split
        · rintro _ ⟨⟩
          exact h₁
        · intro s' hs'
          rw [dropIdle_eq_some hs']
          exact sound_removeScope h₁ hdone
      · split
        · rintro _ ⟨⟩
          exact h₁
        · rintro _ ⟨⟩
          exact h₁.suspendAt _ _

theorem sound_taskSpawn (h : s.Sound false) (scope : ScopeId) :
    VmInv (Vm.after (s.taskSpawn scope)) := by
  unfold Scheduler.taskSpawn
  split
  · rename_i hopen
    obtain ⟨sc, hsc, -⟩ := (Option.any_eq_true _ _).1 hopen
    rintro _ ⟨⟩
    have hcur : (s.addTask scope).2.current = s.current := by
      simp [Scheduler.addTask, Scheduler.addChild, hsc, Scheduler.setScope]
    show Inv _ _ (some (s.addTask scope).2.current) _
    rw [hcur]
    exact h.addTask hsc
  · rintro _ ⟨⟩
    exact h

theorem sound_taskJoin (h : s.Sound false) (id : TaskId) (nested : ℕ) :
    VmInv (Vm.after (s.taskJoin id nested)) := by
  unfold Scheduler.taskJoin
  split
  · rintro _ ⟨⟩
    exact h
  · rename_i rec hrec
    split
    · rintro _ ⟨⟩
      exact h
    · split
      · rintro _ ⟨⟩
        exact h
      · have hok := Inv.task h id rec hrec
        have h₁ : (s.setTask id { rec with joiners := rec.joiners ++ [s.current] }).Sound false :=
          h.touch_data hrec rfl rfl (fun h ↦ h) ⟨hok.1, hok.2, hok.3, hok.4, hok.5, hok.6⟩
        simp only
        split
        · rintro _ ⟨⟩
          exact h₁
        · rintro _ ⟨⟩
          exact h₁.suspendAt _ _

theorem sound_taskSleep (h : s.Sound false) (deadline nested : ℕ) :
    VmInv (Vm.after (s.taskSleep deadline nested)) := by
  unfold Scheduler.taskSleep
  split
  · rintro _ ⟨⟩
    exact h
  · rintro _ ⟨⟩
    refine Inv.suspendAt ?_ _ _
    rw [addTimer_current]
    exact h.addTimer _ _

theorem sound_taskYield (h : s.Sound false) (nested : ℕ) :
    VmInv (Vm.after (s.taskYield nested)) := by
  unfold Scheduler.taskYield
  split
  · rintro _ ⟨⟩
    exact h
  · rintro _ ⟨⟩
    exact h.suspendAt _ _

theorem sound_taskCondWait (h : s.Sound false) (cond : CondId) (nested : ℕ) :
    VmInv (Vm.after (s.taskCondWait cond nested)) := by
  unfold Scheduler.taskCondWait
  split
  · rintro _ ⟨⟩
    exact h
  · rintro _ ⟨⟩
    refine Inv.suspendAt ?_ _ _
    exact h.frame rfl rfl rfl rfl rfl rfl rfl rfl

theorem sound_taskShieldEnter (h : s.Sound false) : s.taskShieldEnter.Sound false := by
  unfold Scheduler.taskShieldEnter
  split
  · rename_i rec hrec
    exact h.setShield hrec _
  · exact h

theorem sound_taskShieldExit (h : s.Sound false) (nested : ℕ) :
    VmInv (Vm.after (s.taskShieldExit nested)) := by
  unfold Scheduler.taskShieldExit
  split
  · rintro _ ⟨⟩
    exact h
  · rename_i rec hrec
    have h₁ : (s.setTask s.current { rec with shield := rec.shield - 1 }).Sound false :=
      h.setShield hrec _
    simp only
    split
    · rintro _ ⟨⟩
      exact h₁
    · rintro _ ⟨⟩
      exact h₁.suspendAt _ _

theorem sound_taskScopeOpen {sched : Option Scheduler} {nested : ℕ} {r : ScopeId × Scheduler}
    (h : VmInv ⟨sched, false⟩) (hr : taskScopeOpen sched nested = some r) : r.2.Sound false := by
  unfold taskScopeOpen at hr
  split at hr
  · rw [← Option.some.inj hr]
    exact (Inv.new nested).openScope
  · split at hr
    · rw [← Option.some.inj hr]
      exact Inv.openScope (h _ rfl)
    · split at hr
      · rw [← Option.some.inj hr]
        exact (Inv.new nested).openScope
      · simp at hr

/-- **Every step of the machine keeps the invariant.** -/
theorem VmStep.inv {vm vm' : Vm} (hstep : VmStep vm vm') (h : VmInv vm) : VmInv vm' := by
  cases hstep with
  | scopeOpen hr =>
    rintro _ ⟨⟩
    exact sound_taskScopeOpen h hr
  | scopeClose s id nested => exact sound_taskScopeClose (h s rfl) id nested
  | scopeError s id hdone =>
    intro s' hs'
    rw [dropIdle_eq_some hs']
    refine sound_removeScope (h s rfl) ?_
    rcases hsc : s.scopes id with - | sc
    · simp [Scheduler.childrenFinished, hsc]
    · simp [Scheduler.childrenFinished, hsc, (hdone sc hsc).2.2]
  | spawn s scope => exact sound_taskSpawn (h s rfl) scope
  | join s id nested => exact sound_taskJoin (h s rfl) id nested
  | sleep s deadline nested => exact sound_taskSleep (h s rfl) deadline nested
  | yield s nested => exact sound_taskYield (h s rfl) nested
  | cancel s id =>
    rintro _ ⟨⟩
    unfold Scheduler.Sound
    rw [requestCancel_current]
    exact Inv.requestCancel (h s rfl) fun hf ↦ hf
  | shieldEnter s =>
    rintro _ ⟨⟩
    exact sound_taskShieldEnter (h s rfl)
  | shieldExit s nested => exact sound_taskShieldExit (h s rfl) nested
  | condWait s cond nested => exact sound_taskCondWait (h s rfl) cond nested
  | condNotify s cond =>
    rintro _ ⟨⟩
    show Inv _ _ (some (s.notifyCond cond).current) _
    rw [Scheduler.notifyCond, wakeAll_current]
    exact Inv.notifyCond (h s rfl) cond
  | @suspendThread s nested _ =>
    rintro _ ⟨⟩
    refine Inv.suspendAt ?_ _ _
    exact Inv.frame (h s rfl) rfl rfl rfl rfl rfl rfl rfl rfl
  | @suspendIo s nested _ deadline =>
    rintro _ ⟨⟩
    refine Inv.suspendAt ?_ _ _
    rw [parkIo_current]
    exact Inv.parkIo (h s rfl) deadline
  | @suspendIoRetry s nested _ deadline =>
    rintro _ ⟨⟩
    refine Inv.suspendAt ?_ _ _
    rw [parkIo_current]
    exact Inv.parkIo (h s rfl) deadline
  | @finished s hroot =>
    rintro _ ⟨⟩
    exact Inv.taskEnd (h s rfl) hroot (by simp [eq_comm]) rfl _
  | @recoverPanic s rec hroot hrec msg =>
    rintro _ ⟨⟩
    split
    · exact Inv.taskEnd (h s rfl) hroot (by simp [eq_comm]) rfl _
    · exact Inv.taskEnd (h s rfl) hroot (by simp [eq_comm]) rfl _
  | teardown =>
    rintro _ ⟨⟩
  | post s picking key =>
    rintro _ ⟨⟩
    exact Inv.frame (h s rfl) rfl rfl rfl rfl rfl rfl rfl rfl
  | rehash picking horder =>
    rintro _ ⟨⟩
    have hs := h _ rfl
    exact { hs with
      order_nodup := horder.nodup_iff.1 hs.order_nodup
      order_iff := fun i ↦ horder.mem_iff.symm.trans (hs.order_iff i)
      scope := fun i sc hi ↦
        ⟨(hs.scope i sc hi).nodup, (hs.scope i sc hi).child, (hs.scope i sc hi).count⟩ }
  | pick s w =>
    rintro _ ⟨⟩
    have := Inv.runNext (h s rfl) w
    unfold Scheduler.Sound
    cases hr : (s.runNext w).1 <;> simpa [hr] using this

/-- The invariant holds in every reachable state. -/
theorem VmReachable.inv {vm : Vm} (h : VmReachable vm) : VmInv vm := by
  induction h with
  | refl =>
    rintro _ ⟨⟩
  | tail _ hstep ih => exact hstep.inv ih

end Step

end CoilLang.Task
