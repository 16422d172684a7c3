import CoilLang.Machine.TaskCancel

/-!
# Runs that lose no cancel

Which steps of the machine keep `CancelOk`: all but an iteration of the loop that cancels the task
that suspended last while this is blocked. Such an iteration is reachable, and loses the cancel
(`cancel_lost`); in runs without one no cancel is lost (`careful_cancel_delivered`).
-/

namespace CoilLang.Task

/-- The tasks `cancelWaitsForChildren` cancels. -/
def Scheduler.childCancels (s : Scheduler) (id : TaskId) : List TaskId :=
  match s.tasks id with
  | none => []
  | some rec =>
    if rec.cancel ≠ .requested ∨ 0 < rec.shield ∨ s.ownedChildrenFinished id then []
    else s.ownedChildren id

/-- The cancels of a task whose resuming overflowed the stack. -/
def Scheduler.overflowStale (s : Scheduler) (id : TaskId) : Bool :=
  (s.tasks id).any fun rec ↦
    (s.beginEnd id rec .failed (some stackOverflow)).2.cancelsStale
      (s.beginEnd id rec .failed (some stackOverflow)).1

/-- The iteration cancels the task that suspended last while this is blocked outside a `shield`: one
of the children of the picked task, which has a cancel to deliver, or a task that the picked one
cancels as it fails to resume. -/
def Scheduler.pickStale (s : Scheduler) (w : World) : Bool :=
  match s.popReady s.runQueue with
  | (none, _) => false
  | (some id, q) =>
    let s₁ := { s with runQueue := q }
    let (waits, s₂) := s₁.cancelWaitsForChildren id
    id != root && (s₁.cancelsStale (s₁.childCancels id) ||
      (!waits && w.overflow && (s₂.switchInFailed id).overflowStale id))

variable {s s' : Scheduler} {held : TaskId → Prop} {run dying : Option TaskId} {id : TaskId}
  {rec : TaskRec}

/-! ### Cancelling children, ending a task -/

theorem CancelOk.cancelWaitsForChildren (hinv : Inv s (· = id) none none)
    (hstale : s.cancelsStale (s.childCancels id) = false) (h : CancelOk s none) :
    CancelOk (s.cancelWaitsForChildren id).2 none := by
  unfold Scheduler.cancelWaitsForChildren
  unfold Scheduler.childCancels at hstale
  split
  · exact h
  · rename_i rec hrec
    rw [hrec] at hstale
    simp only at hstale
    split
    · exact h
    · rename_i hcond
      rw [if_neg hcond] at hstale
      have hids : ∀ c ∈ s.ownedChildren id, ¬ c = id := fun c hc ↦
        (hinv.lt_of_mem_ownedChildren hc).ne'
      have hinv₁ := hinv.requestCancels _ hids
      have h₁ := h.requestCancels _ hinv hids hstale
      simp only
      split
      · exact h₁
      · rename_i hdone
        split
        · refine h₁.touch id rfl rfl fun _ ↦ ⟨rfl, fun _ ↦ ?_⟩
          by_contra hnot
          exact hdone (hinv₁.ownedChildrenFinished_iff.2 hnot)
        · exact h₁

theorem CancelOk.beginEnd (h : CancelOk s none) (id : TaskId) (rec : TaskRec) (state : TaskState)
    (panic : Option String) : CancelOk (s.beginEnd id rec state panic).2 none := by
  have h₁ : CancelOk (s.setTask id { rec with
      state := .ending, ending := some state, panic := panic.or rec.panic }) none := by
    refine h.touch id rfl rfl fun hund ↦ absurd hund (not_undelivered ?_)
    simp
  have h₂ : CancelOk ((s.setTask id { rec with
      state := .ending, ending := some state, panic := panic.or rec.panic }).failScope
        rec.scope panic) none := by
    unfold Scheduler.failScope
    split
    · rename_i hi
      exact h₁.setScope hi rfl fun hne ↦ hne
    · exact h₁
  refine List.foldlRecOn (motive := fun s ↦ CancelOk s none) _ _ h₂ fun s' h i _ ↦ ?_
  unfold Scheduler.closeScope
  split
  · rename_i hi
    exact h.setScope hi rfl fun hne ↦ hne
  · exact h

theorem beginEnd_current (s : Scheduler) (id : TaskId) (rec : TaskRec) (state : TaskState)
    (panic : Option String) : (s.beginEnd id rec state panic).2.current = s.current := by
  refine List.foldlRecOn (motive := fun s' : Scheduler ↦ s'.current = s.current) _ _ ?_
    fun s' h i _ ↦ ?_
  · unfold Scheduler.failScope
    split <;> rfl
  · unfold Scheduler.closeScope
    split <;> exact h

/-- A task that ends cancels its siblings and children, not itself. -/
theorem Inv.ne_of_mem_beginEnd {state : TaskState} {panic : Option String}
    (h : Inv (s.beginEnd id rec state panic).2 held run dying) {c : TaskId}
    (hc : c ∈ (s.beginEnd id rec state panic).1) : c ≠ id := by
  rcases List.mem_append.1 hc with hc | hc
  · split at hc
    · simpa using (List.mem_filter.1 hc).2
    · simp at hc
  · exact (h.lt_of_mem_ownedChildren hc).ne'

theorem CancelOk.taskEnd (hinv : Inv s held run none) (hroot : id ≠ Task.root)
    (honly : ∀ t, held t ∨ run = some t ↔ t = id) {state : TaskState}
    (hfin : state.finished = true) (panic : Option String)
    (hstale : ∀ rec, s.tasks id = some rec → (s.beginEnd id rec state panic).2.cancelsStale
      (s.beginEnd id rec state panic).1 = false) (h : CancelOk s none) :
    CancelOk (s.taskEnd id state panic) none := by
  obtain ⟨rec, hrec, hinv₁⟩ := hinv.beginEnd hroot honly hfin panic
  have hinv₂ := hinv₁.requestCancels (s.beginEnd id rec state panic).1 fun _ _ h ↦ h
  have h₂ := (h.beginEnd id rec state panic).requestCancels (s.beginEnd id rec state panic).1
    hinv₁ (fun _ _ h ↦ h) (hstale rec hrec)
  unfold Scheduler.taskEnd
  rw [hrec]
  simp only
  split
  · rename_i hcond
    obtain ⟨hany, hdone⟩ := Bool.and_eq_true_iff.1 hcond
    obtain ⟨rec₂, hrec₂, hst₂⟩ := (Option.any_eq_true _ _).1 hany
    exact h₂.finalize id hinv₂ hrec₂ hroot (.inl (by simpa using hst₂)) hfin hdone
  · exact h₂

/-- The running task ends: `current` is right. -/
theorem CancelOk.taskEnd_current (hinv : Inv s (fun _ ↦ False) (some id) none)
    (hcur : s.current = id) (hroot : id ≠ Task.root) {state : TaskState}
    (hfin : state.finished = true) (panic : Option String) (h : CancelOk s none) :
    CancelOk (s.taskEnd id state panic) none := by
  refine CancelOk.taskEnd hinv hroot (by simp [eq_comm]) hfin panic (fun rec hrec ↦ ?_) h
  obtain ⟨rec', hrec', hinv₁⟩ := hinv.beginEnd hroot (by simp [eq_comm]) hfin panic
  rw [hrec, Option.some.injEq] at hrec'
  subst hrec'
  refine cancelsStale_of_ne _ fun c hc ↦ ?_
  rw [beginEnd_current, hcur]
  exact hinv₁.ne_of_mem_beginEnd hc

/-! ### Suspending -/

/-- A task suspends blocked only if it has no cancel to take. -/
theorem CancelOk.suspendAt (hinv : Inv s (fun _ ↦ False) (some s.current) none)
    (block : Option Block) (resultSlot : Bool) (h : CancelOk s none) :
    CancelOk (s.suspendAt block resultSlot) none := by
  obtain ⟨rec, hrec⟩ := hinv.run_some _ rfl
  have hst : rec.state = .running := (hinv.running _ rec hrec).2 rfl
  by_cases hc : rec.cancel = .requested ∧ rec.shield = 0
  · rw [suspendAt_cancelled hrec hc.1 hc.2]
    refine h.touch s.current rfl (dropWait_scopes ..) fun hund ↦ ?_
    exact absurd hund (not_undelivered (by simp))
  rcases block with - | b
  · have hqueue : s.current ∉ s.runQueue := by
      rw [hinv.queue_iff]
      simp [Scheduler.isReady, hrec, hst]
    rw [suspendAt_yield hrec hc hqueue]
    exact h.touch s.current rfl rfl fun hund ↦
      absurd hund (not_undelivered (by simp))
  · rw [suspendAt_blocked hrec hc]
    exact h.touch s.current rfl rfl fun hund ↦
      absurd ⟨hund.2.2.2, hund.2.1⟩ hc

/-! ### The loop -/

theorem CancelOk.switchIn (h : CancelOk s none) (id : TaskId) : CancelOk (s.switchIn id) none := by
  unfold Scheduler.switchIn
  split
  · exact h.touch id rfl rfl fun hund ↦ absurd hund (not_undelivered (by simp))
  · exact h.frame rfl rfl

theorem CancelOk.resumeRoot (h : CancelOk s none) : CancelOk s.resumeRoot none := by
  unfold Scheduler.resumeRoot
  split
  · exact h.touch Task.root rfl rfl fun hund ↦
      absurd hund (not_undelivered (by simp))
  · exact h.frame rfl rfl

theorem CancelOk.takeCancel (h : CancelOk s none) : CancelOk s.takeCancel.2 none := by
  unfold Scheduler.takeCancel
  split
  · split
    · exact h
    · refine h.touch s.current rfl rfl fun hund ↦ ?_
      have := hund.2.2.2
      simp at this
  · exact h

theorem CancelOk.switchInFailed (h : CancelOk s none) (hready : s.isReady id = true) :
    CancelOk (s.switchInFailed id) none := by
  obtain ⟨rec, hrec, hst⟩ := Scheduler.isReady_iff.1 hready
  unfold Scheduler.switchInFailed
  rw [hrec]
  exact h.touch id rfl rfl fun hund ↦ absurd hund (not_undelivered (by simp [hst]))

theorem CancelOk.enterTask (hinv : Inv s (· = id) none none) (hroot : id ≠ Task.root) (w : World)
    (hstale : w.overflow = true → (s.switchInFailed id).overflowStale id = false)
    (h : CancelOk s none) : CancelOk (s.enterTask id w).2 none := by
  unfold Scheduler.enterTask
  split
  · rename_i hover
    refine CancelOk.taskEnd hinv.switchInFailed hroot (by simp) rfl _ (fun rec hrec ↦ ?_)
      (h.switchInFailed (hinv.held_ready id rfl))
    simpa [Scheduler.overflowStale, hrec] using hstale hover
  · have h₁ := (h.switchIn id).takeCancel
    simp only
    split
    · exact h₁
    · exact CancelOk.taskEnd_current (hinv.switchIn.takeCancel (by simpa using hroot)) (by simp)
        hroot rfl _ h₁

/-! ### Events -/

theorem CancelOk.takeKey (h : CancelOk s none) (key : ℕ) : CancelOk (s.takeKey key).1 none := by
  unfold Scheduler.takeKey
  split
  · exact h
  · refine CancelOk.wakeIf ?_ _ _ _
    exact h.frame rfl rfl

theorem CancelOk.takePosted (h : CancelOk s none) : CancelOk s.takePosted.1 none :=
  List.foldlRecOn (motive := fun acc : Scheduler × Bool ↦ CancelOk acc.1 none) s.posted _
    (h.frame rfl rfl) fun _ h key _ ↦ h.takeKey key

theorem CancelOk.takeToken (h : CancelOk s none) (token : WaitToken) :
    CancelOk (s.takeToken token) none := by
  unfold Scheduler.takeToken
  split
  · exact h
  · refine CancelOk.makeReady ?_ _ _
    exact h.frame rfl rfl

theorem CancelOk.dropWait (h : CancelOk s none) (id : TaskId) (b : Option Block) :
    CancelOk (s.dropWait id b) none :=
  h.frame (dropWait_tasks ..) (dropWait_scopes ..)

theorem CancelOk.timerExpired (h : CancelOk s none) (t : TaskId × Option Block) :
    CancelOk (s.timerExpired t) none := by
  unfold Scheduler.timerExpired
  split
  · exact (h.dropWait _ _).makeReady _ _
  · exact (h.dropWait _ _).makeReady _ _
  · exact h.makeReady _ _
  · exact h

theorem CancelOk.takeEvents (h : CancelOk s none) (ready : List WaitToken) (posted : List ℕ)
    (now : ℕ) : CancelOk (s.takeEvents ready posted now) none := by
  have h₁ : CancelOk (if s.ioWaits.isEmpty then s else ready.foldl Scheduler.takeToken s) none := by
    split
    · exact h
    · exact List.foldlRecOn (motive := fun s ↦ CancelOk s none) ready _ h
        fun _ h token _ ↦ h.takeToken token
  unfold Scheduler.takeEvents
  generalize (if s.ioWaits.isEmpty then s else ready.foldl Scheduler.takeToken s) = s₁ at h₁ ⊢
  have h₂ : CancelOk { s₁ with posted := s₁.posted ++ posted } none := h₁.frame rfl rfl
  refine List.foldlRecOn (motive := fun s ↦ CancelOk s none) _ _ ?_ fun _ h t _ ↦ h.timerExpired t
  exact h₂.takePosted.frame rfl rfl

theorem CancelOk.waitEvents (h : CancelOk s none) (ready : List WaitToken) (posted : List ℕ)
    (now : ℕ) : CancelOk (s.waitEvents ready posted now).2 none := by
  unfold Scheduler.waitEvents
  simp only
  split
  · exact h.takePosted
  · have h₁ : CancelOk s.takePosted.1.nextDeadline.2 none := h.takePosted.frame rfl rfl
    split
    · exact h₁
    · exact h₁.takeEvents _ _ _

/-- The root is never cancelled. -/
theorem CancelOk.deadlock (hinv : Inv s held run dying) (h : CancelOk s none) :
    CancelOk s.deadlock none := by
  unfold Scheduler.deadlock
  split
  · rename_i rec hrec
    refine CancelOk.makeReady ?_ _ _
    refine h.touch Task.root rfl rfl fun hund ↦ ?_
    have hnone := ((hinv.task _ rec hrec).root_alive rfl).2.2
    have := hund.2.2.2
    simp [hnone] at this
  · exact h

/-- **An iteration of the loop that cancels no task taken for the running one** loses no cancel. -/
theorem CancelOk.runNext (hinv : Inv s (fun _ ↦ False) none none) (w : World)
    (hstale : s.pickStale w = false) (h : CancelOk s none) : CancelOk (s.runNext w).2 none := by
  unfold Scheduler.runNext
  unfold Scheduler.pickStale at hstale
  rw [hinv.popReady] at hstale ⊢
  rcases hq : s.runQueue with - | ⟨id, q⟩
  · simp only [List.head?_nil, List.tail_nil]
    have hinv₁ : Inv { s with runQueue := [] } (fun _ ↦ False) none none :=
      hinv.frame rfl rfl rfl hq.symm rfl rfl rfl rfl
    have h₁ : CancelOk { s with runQueue := [] } none := h.frame rfl rfl
    have h₂ := h₁.waitEvents w.ready w.posted w.now
    split
    · exact h₂
    · exact CancelOk.deadlock (hinv₁.waitEvents _ _ _) h₂
  · simp only [hq, List.head?_cons, List.tail_cons] at hstale ⊢
    have hinv₁ := hinv.pick hq
    have h₁ : CancelOk { s with runQueue := q } none := h.frame rfl rfl
    split
    · exact h₁.resumeRoot
    · rename_i hroot
      have hne : (id != Task.root) = true := by simpa using hroot
      rw [hne, Bool.true_and, Bool.or_eq_false_iff] at hstale
      have hinv₂ := hinv₁.cancelWaitsForChildren hroot
      have h₂ := CancelOk.cancelWaitsForChildren hinv₁ hstale.1 h₁
      split
      · exact h₂
      · rename_i hwaits
        refine CancelOk.enterTask (hinv₂.held_congr (by simpa using hwaits)) hroot w
          (fun hover ↦ ?_) h₂
        have hwaits : ({ s with runQueue := q }.cancelWaitsForChildren id).1 = false := by
          simpa using hwaits
        simpa [hwaits, hover] using hstale.2

/-! ### The natives -/

/-- The running task has nothing undelivered. -/
theorem Inv.current_not_undelivered (h : Inv s held (some s.current) dying) {owner : TaskId}
    (hcur : owner = s.current) (rec : TaskRec) (hrec : s.tasks owner = some rec) :
    ¬ rec.Undelivered := by
  subst hcur
  refine not_undelivered fun hst ↦ ?_
  have := (h.running _ rec hrec).2 rfl
  simp [hst] at this

theorem Inv.staleCancel_eq_false (h : Inv s held (some s.current) dying) (id : TaskId) :
    s.staleCancel id = false := by
  unfold Scheduler.staleCancel
  by_cases hid : id = s.current
  · obtain ⟨rec, hrec⟩ := h.run_some _ rfl
    have hst := (h.running _ rec hrec).2 rfl
    subst hid
    simp [hrec, hst]
  · simp [hid]

/-- The cancels of the machine's scheduler are delivered. -/
def VmCancelOk (vm : Vm) : Prop :=
  ∀ s, vm.sched = some s → CancelOk s none

theorem CancelOk.openScope (hinv : Inv s held run dying) (h : CancelOk s none) :
    CancelOk s.openScope.2 none := by
  intro t r ht hund
  obtain ⟨hb, hw⟩ := h t r ht hund
  refine ⟨hb, fun hd ↦ ?_⟩
  obtain ⟨i, sc, hi, hown, hne⟩ := hw hd
  have his : i ≠ s.nextScope := fun heq ↦ (hinv.scope_lt i sc hi).ne heq
  exact ⟨i, sc, by simpa [Scheduler.openScope, his] using hi, hown, hne⟩

theorem CancelOk.new (nested : ℕ) : CancelOk (Scheduler.new nested) none := by
  intro t r ht hund
  refine absurd hund (not_undelivered fun hst ↦ ?_)
  by_cases hid : t = Task.root
  · have : { TaskRec.new 0 with state := .running } = r := by simpa [Scheduler.new, hid] using ht
    rw [← this] at hst
    simp at hst
  · simp [Scheduler.new, hid] at ht

theorem CancelOk.addTask (h : CancelOk s none) {i : ScopeId} {sc : ScopeRec}
    (hi : s.scopes i = some sc) : CancelOk (s.addTask i).2 none := by
  have h₁ : CancelOk (s.setScope i { sc with
      children := sc.children ++ [s.nextTask], unfinished := sc.unfinished + 1 }) none :=
    h.setScope hi rfl fun _ ↦ Nat.succ_ne_zero _
  refine h₁.touch s.nextTask ?_ ?_ fun hund ↦
    absurd hund (@not_undelivered (TaskRec.new i) (by simp [TaskRec.new]))
  · simp [Scheduler.addTask, Scheduler.addChild, hi]
  · simp [Scheduler.addTask, Scheduler.addChild, hi]

theorem CancelOk.addTimer (h : CancelOk s none) (id : TaskId) (deadline : ℕ) :
    CancelOk (s.addTimer id deadline) none := by
  unfold Scheduler.addTimer
  split
  · rename_i rec hrec
    exact h.touch id rfl rfl (h id rec hrec)
  · exact h.frame rfl rfl

theorem CancelOk.parkIo (h : CancelOk s none) (deadline : Option ℕ) :
    CancelOk (s.parkIo deadline) none := by
  have h₁ : CancelOk (s.addIoWait s.current).2 none := h.frame rfl rfl
  unfold Scheduler.parkIo
  split
  · exact h₁.addTimer _ _
  · exact h₁

theorem cancelOk_taskScopeClose (hinv : s.Sound false) (h : CancelOk s none) (id : ScopeId)
    (nested : ℕ) (picking : Bool) : VmCancelOk ⟨(s.taskScopeClose id nested).2, picking⟩ := by
  unfold Scheduler.taskScopeClose
  split
  · rintro _ ⟨⟩
    exact h
  · rename_i sc hsc
    split
    · rintro _ ⟨⟩
      exact h
    · rename_i hown
      have hown : sc.owner = s.current := by simpa using hown
      have hinv₁ : (s.setScope id { sc with closed := true }).Sound false :=
        hinv.setScope hsc rfl rfl rfl
      have h₁ : CancelOk (s.setScope id { sc with closed := true }) none :=
        h.setScope hsc rfl fun hne ↦ hne
      simp only
      split
      · split
        · rintro _ ⟨⟩
          exact h₁
        · intro s' hs'
          rw [dropIdle_eq_some hs']
          refine h₁.removeScope fun sc' hsc' rec hrec ↦ ?_
          have : sc' = { sc with closed := true } := by
            simpa [Scheduler.setScope, eq_comm] using hsc'
          subst this
          exact Inv.current_not_undelivered hinv hown rec hrec
      · split
        · rintro _ ⟨⟩
          exact h₁
        · rintro _ ⟨⟩
          exact CancelOk.suspendAt hinv₁ _ _ h₁

theorem cancelOk_taskSpawn (h : CancelOk s none) (scope : ScopeId) :
    VmCancelOk (Vm.after (s.taskSpawn scope)) := by
  unfold Scheduler.taskSpawn
  split
  · rename_i hopen
    obtain ⟨sc, hsc, -⟩ := (Option.any_eq_true _ _).1 hopen
    rintro _ ⟨⟩
    exact h.addTask hsc
  · rintro _ ⟨⟩
    exact h

theorem cancelOk_taskJoin (hinv : s.Sound false) (h : CancelOk s none) (id : TaskId)
    (nested : ℕ) : VmCancelOk (Vm.after (s.taskJoin id nested)) := by
  unfold Scheduler.taskJoin
  split
  · rintro _ ⟨⟩
    exact h
  · rename_i rec hrec
    split
    · rintro _ ⟨⟩
      exact h
    · split
      · rintro _ ⟨⟩
        exact h
      · have hok := Inv.task hinv id rec hrec
        have hinv₁ : (s.setTask id { rec with joiners := rec.joiners ++ [s.current] }).Sound false :=
          hinv.touch_data hrec rfl rfl (fun h ↦ h) ⟨hok.1, hok.2, hok.3, hok.4, hok.5, hok.6⟩
        have h₁ : CancelOk (s.setTask id { rec with joiners := rec.joiners ++ [s.current] }) none :=
          h.touch id rfl rfl (h id rec hrec)
        simp only
        split
        · rintro _ ⟨⟩
          exact h₁
        · rintro _ ⟨⟩
          exact CancelOk.suspendAt hinv₁ _ _ h₁

theorem cancelOk_taskSleep (hinv : s.Sound false) (h : CancelOk s none) (deadline nested : ℕ) :
    VmCancelOk (Vm.after (s.taskSleep deadline nested)) := by
  unfold Scheduler.taskSleep
  split
  · rintro _ ⟨⟩
    exact h
  · rintro _ ⟨⟩
    refine CancelOk.suspendAt ?_ _ _ (h.addTimer _ _)
    rw [addTimer_current]
    exact hinv.addTimer _ _

theorem cancelOk_taskYield (hinv : s.Sound false) (h : CancelOk s none) (nested : ℕ) :
    VmCancelOk (Vm.after (s.taskYield nested)) := by
  unfold Scheduler.taskYield
  split
  · rintro _ ⟨⟩
    exact h
  · rintro _ ⟨⟩
    exact CancelOk.suspendAt hinv _ _ h

theorem cancelOk_taskCondWait (hinv : s.Sound false) (h : CancelOk s none) (cond : CondId)
    (nested : ℕ) : VmCancelOk (Vm.after (s.taskCondWait cond nested)) := by
  unfold Scheduler.taskCondWait
  split
  · rintro _ ⟨⟩
    exact h
  · rintro _ ⟨⟩
    refine CancelOk.suspendAt ?_ _ _ (h.frame rfl rfl)
    exact hinv.frame rfl rfl rfl rfl rfl rfl rfl rfl

/-- The running task opens or leaves a `shield`. -/
theorem CancelOk.setShield (hinv : s.Sound false) (h : CancelOk s none)
    (hrec : s.tasks s.current = some rec) (n : ℕ) :
    CancelOk (s.setTask s.current { rec with shield := n }) none := by
  refine h.touch s.current rfl rfl fun hund ↦ absurd hund (not_undelivered ?_)
  intro hst
  have := (Inv.running hinv _ rec hrec).2 rfl
  simp [show rec.state = .blocked from hst] at this

theorem cancelOk_taskShieldExit (hinv : s.Sound false) (h : CancelOk s none) (nested : ℕ) :
    VmCancelOk (Vm.after (s.taskShieldExit nested)) := by
  unfold Scheduler.taskShieldExit
  split
  · rintro _ ⟨⟩
    exact h
  · rename_i rec hrec
    have hinv₁ : (s.setTask s.current { rec with shield := rec.shield - 1 }).Sound false :=
      hinv.setShield hrec _
    have h₁ := CancelOk.setShield hinv h hrec (rec.shield - 1)
    simp only
    split
    · rintro _ ⟨⟩
      exact h₁
    · rintro _ ⟨⟩
      exact CancelOk.suspendAt hinv₁ _ _ h₁

theorem cancelOk_taskScopeOpen {sched : Option Scheduler} {nested : ℕ} {r : ScopeId × Scheduler}
    (hinv : VmInv ⟨sched, false⟩) (h : VmCancelOk ⟨sched, false⟩)
    (hr : taskScopeOpen sched nested = some r) : CancelOk r.2 none := by
  unfold taskScopeOpen at hr
  split at hr
  · rw [← Option.some.inj hr]
    exact (CancelOk.new nested).openScope (Inv.new nested)
  · split at hr
    · rw [← Option.some.inj hr]
      exact CancelOk.openScope (hinv _ rfl) (h _ rfl)
    · split at hr
      · rw [← Option.some.inj hr]
        exact (CancelOk.new nested).openScope (Inv.new nested)
      · simp at hr

/-! ### Careful runs -/

/-- A step of the machine; an iteration of the loop only if it cancels no suspended task that it takes
for the running one. -/
inductive CarefulStep : Vm → Vm → Prop where
  | run {sched : Option Scheduler} {vm' : Vm} (h : VmStep ⟨sched, false⟩ vm') :
    CarefulStep ⟨sched, false⟩ vm'
  | post (s : Scheduler) (key) :
    CarefulStep ⟨some s, true⟩ ⟨some { s with posted := s.posted ++ [key] }, true⟩
  | rehash {s : Scheduler} {order : List ScopeId} (h : s.scopeOrder.Perm order) :
    CarefulStep ⟨some s, true⟩ ⟨some { s with scopeOrder := order }, true⟩
  | pick (s : Scheduler) (w : World) (h : s.pickStale w = false) :
    CarefulStep ⟨some s, true⟩ ⟨some (s.runNext w).2, !(s.runNext w).1⟩

theorem CarefulStep.step {vm vm' : Vm} (h : CarefulStep vm vm') : VmStep vm vm' := by
  cases h with
  | run h => exact h
  | post s key => exact .post s true key
  | rehash h => exact .rehash true h
  | pick s w _ => exact .pick s w

/-- The steps that are not careful are the iterations ruled out. -/
theorem VmStep.careful_or {vm vm' : Vm} (h : VmStep vm vm') : CarefulStep vm vm' ∨
    ∃ s w, vm = ⟨some s, true⟩ ∧ vm' = ⟨some (s.runNext w).2, !(s.runNext w).1⟩ ∧
      s.pickStale w = true := by
  obtain ⟨sched, picking⟩ := vm
  cases picking with
  | false => exact .inl (.run h)
  | true =>
    cases h with
    | post s _ key => exact .inl (.post s key)
    | rehash _ horder => exact .inl (.rehash horder)
    | pick s w =>
      cases hstale : s.pickStale w with
      | false => exact .inl (.pick s w hstale)
      | true => exact .inr ⟨s, w, rfl, rfl, hstale⟩

/-- A step the running task takes loses no cancel. -/
theorem VmStep.cancelOk {sched : Option Scheduler} {vm' : Vm} (hstep : VmStep ⟨sched, false⟩ vm')
    (hinv : VmInv ⟨sched, false⟩) (h : VmCancelOk ⟨sched, false⟩) : VmCancelOk vm' := by
  cases hstep with
  | scopeOpen hr =>
    rintro _ ⟨⟩
    exact cancelOk_taskScopeOpen hinv h hr
  | scopeClose s id nested => exact cancelOk_taskScopeClose (hinv s rfl) (h s rfl) id nested _
  | scopeError s id hdone =>
    intro s' hs'
    rw [dropIdle_eq_some hs']
    refine (h s rfl).removeScope fun sc hsc rec hrec ↦ ?_
    exact Inv.current_not_undelivered (hinv s rfl) (hdone sc hsc).1 rec hrec
  | spawn s scope => exact cancelOk_taskSpawn (h s rfl) scope
  | join s id nested => exact cancelOk_taskJoin (hinv s rfl) (h s rfl) id nested
  | sleep s deadline nested => exact cancelOk_taskSleep (hinv s rfl) (h s rfl) deadline nested
  | yield s nested => exact cancelOk_taskYield (hinv s rfl) (h s rfl) nested
  | cancel s id =>
    rintro _ ⟨⟩
    exact (h s rfl).requestCancel (hinv s rfl) (Inv.staleCancel_eq_false (hinv s rfl) id)
  | shieldEnter s =>
    rintro _ ⟨⟩
    unfold Scheduler.taskShieldEnter
    split
    · rename_i rec hrec
      exact CancelOk.setShield (hinv s rfl) (h s rfl) hrec _
    · exact h s rfl
  | shieldExit s nested => exact cancelOk_taskShieldExit (hinv s rfl) (h s rfl) nested
  | condWait s cond nested => exact cancelOk_taskCondWait (hinv s rfl) (h s rfl) cond nested
  | condNotify s cond =>
    rintro _ ⟨⟩
    refine CancelOk.wakeAll ?_ _ _ _
    exact (h s rfl).frame rfl rfl
  | @suspendThread s nested _ =>
    rintro _ ⟨⟩
    refine CancelOk.suspendAt ?_ _ _ ((h s rfl).frame rfl rfl)
    exact Inv.frame (hinv s rfl) rfl rfl rfl rfl rfl rfl rfl rfl
  | @suspendIo s nested _ deadline =>
    rintro _ ⟨⟩
    refine CancelOk.suspendAt ?_ _ _ ((h s rfl).parkIo deadline)
    rw [parkIo_current]
    exact Inv.parkIo (hinv s rfl) deadline
  | @suspendIoRetry s nested _ deadline =>
    rintro _ ⟨⟩
    refine CancelOk.suspendAt ?_ _ _ ((h s rfl).parkIo deadline)
    rw [parkIo_current]
    exact Inv.parkIo (hinv s rfl) deadline
  | @finished s hroot =>
    rintro _ ⟨⟩
    exact CancelOk.taskEnd_current (hinv s rfl) rfl hroot rfl _ (h s rfl)
  | @recoverPanic s rec hroot hrec msg =>
    rintro _ ⟨⟩
    split
    · exact CancelOk.taskEnd_current (hinv s rfl) rfl hroot rfl _ (h s rfl)
    · exact CancelOk.taskEnd_current (hinv s rfl) rfl hroot rfl _ (h s rfl)
  | teardown =>
    rintro _ ⟨⟩
  | post s _ key =>
    rintro _ ⟨⟩
    exact (h s rfl).frame rfl rfl
  | rehash _ horder =>
    rintro _ ⟨⟩
    exact (h _ rfl).frame rfl rfl

theorem CarefulStep.cancelOk {vm vm' : Vm} (hstep : CarefulStep vm vm') (hinv : VmInv vm)
    (h : VmCancelOk vm) : VmCancelOk vm' := by
  cases hstep with
  | run hstep => exact hstep.cancelOk hinv h
  | post s key =>
    rintro _ ⟨⟩
    exact (h s rfl).frame rfl rfl
  | rehash horder =>
    rintro _ ⟨⟩
    exact (h _ rfl).frame rfl rfl
  | pick s w hstale =>
    rintro _ ⟨⟩
    exact CancelOk.runNext (hinv s rfl) w hstale (h s rfl)

/-- A state of the machine after careful steps. -/
def CarefulReachable (vm : Vm) : Prop :=
  Relation.ReflTransGen CarefulStep ⟨none, false⟩ vm

theorem CarefulReachable.reachable {vm : Vm} (h : CarefulReachable vm) : VmReachable vm :=
  Relation.ReflTransGen.mono (fun _ _ hstep ↦ CarefulStep.step hstep) _ _ h

theorem CarefulReachable.cancelOk {vm : Vm} (h : CarefulReachable vm) : VmCancelOk vm := by
  induction h with
  | refl =>
    rintro _ ⟨⟩
  | tail hreach hstep ih => exact hstep.cancelOk (CarefulReachable.reachable hreach).inv ih

/-- No cancel is lost: a started task that is blocked outside every `shield` with a cancel requested
waits for an unfinished child of a scope it owns. -/
def NoCancelLost (s : Scheduler) : Prop :=
  ∀ id rec, s.tasks id = some rec → rec.started = true → rec.shield = 0 → rec.state = .blocked →
    rec.cancel = .requested → rec.block = some .cancel ∧
      ∃ i sc c, s.scopes i = some sc ∧ sc.owner = id ∧ c ∈ sc.children ∧ s.unfinished c = true

/-- **In a careful run no cancel is lost**, in any state. -/
theorem careful_cancel_delivered {s : Scheduler} {picking : Bool}
    (h : CarefulReachable ⟨some s, picking⟩) : NoCancelLost s := by
  intro id rec hrec hstart hshield hst hcancel
  have hinv : s.Sound picking := h.reachable.inv s rfl
  obtain ⟨hb, hw⟩ := h.cancelOk s rfl id rec hrec ⟨hstart, hshield, hst, hcancel⟩
  obtain ⟨i, sc, hsc, hown, hne⟩ := hw (by simp)
  refine ⟨hb, i, sc, ?_⟩
  rw [(hinv.scope i sc hsc).count] at hne
  obtain ⟨c, hc⟩ := List.exists_mem_of_length_pos (Nat.pos_iff_ne_zero.2 hne)
  exact ⟨c, hsc, hown, (List.mem_filter.1 hc).1, (List.mem_filter.1 hc).2⟩

/-- Nothing ready, nothing posted, no overflow. -/
def World.quiet : World := ⟨false, false, [], [], 0⟩

/-- The root opens a scope, spawns a task there and goes to sleep. -/
def parentReady : Scheduler :=
  (((Scheduler.new 0).openScope.2.taskSpawn 1).2.taskSleep 1000 0).2

/-- The task runs, opens a scope of its own, spawns a task there and yields to it. -/
def childReady : Scheduler :=
  (((parentReady.runNext .quiet).2.openScope.2.taskSpawn 2).2.taskYield 0).2

/-- This task runs. -/
def childRuns : Scheduler :=
  (childReady.runNext .quiet).2

section Run

/-- An iteration of the loop in a careful run. -/
theorem CarefulReachable.pick (h : CarefulReachable ⟨some s, true⟩) {w : World}
    (hstale : s.pickStale w = false) {b : Bool} (hrun : (s.runNext w).1 = b) :
    CarefulReachable ⟨some (s.runNext w).2, !b⟩ := by
  subst hrun
  exact h.tail (.pick s w hstale)

/-- A native in a careful run. -/
theorem CarefulReachable.native (h : CarefulReachable ⟨some s, false⟩) {r : TaskFlow × Scheduler}
    (hstep : VmStep ⟨some s, false⟩ (Vm.after r)) {b : Bool} (hflow : decide (r.1 = .switched) = b) :
    CarefulReachable ⟨some r.2, b⟩ := by
  subst hflow
  exact h.tail (.run hstep)

theorem CarefulReachable.scopeOpen (h : CarefulReachable ⟨some s, false⟩)
    (hnested : s.baseNested = 0) : CarefulReachable ⟨some s.openScope.2, false⟩ := by
  have hopen : taskScopeOpen (some s) 0 = some s.openScope := by simp [taskScopeOpen, hnested]
  exact h.tail (.run (.scopeOpen hopen))

end Run

theorem careful_childRuns : CarefulReachable ⟨some childRuns, false⟩ := by
  have h₀ : CarefulReachable ⟨some (Scheduler.new 0).openScope.2, false⟩ :=
    Relation.ReflTransGen.refl.tail (.run (@VmStep.scopeOpen none 0 _ rfl))
  have h₁ : CarefulReachable ⟨some parentReady, true⟩ :=
    (h₀.native (.spawn _ 1) (b := false) (by decide +kernel)).native (.sleep _ 1000 0)
      (by decide +kernel)
  have h₂ : CarefulReachable ⟨some (parentReady.runNext .quiet).2, false⟩ :=
    h₁.pick (by decide +kernel) (b := true) (by decide +kernel)
  have h₃ : CarefulReachable ⟨some childReady, true⟩ :=
    ((h₂.scopeOpen (by decide +kernel)).native (.spawn _ 2) (b := false) (by decide +kernel)).native
      (.yield _ 0) (by decide +kernel)
  exact h₃.pick (by decide +kernel) (b := true) (by decide +kernel)

/-- The child goes to sleep: no cancel is lost. -/
theorem careful_cancel_delivered_sleep :
    CarefulReachable ⟨some (childRuns.taskSleep 100 0).2, true⟩ ∧
      NoCancelLost (childRuns.taskSleep 100 0).2 :=
  have h : CarefulReachable ⟨some (childRuns.taskSleep 100 0).2, true⟩ :=
    careful_childRuns.native (.sleep childRuns 100 0) (by decide +kernel)
  ⟨h, careful_cancel_delivered h⟩

/-- **A cancel is lost**: the child cancels its parent, which yielded to it, and goes to sleep. Picked
next, the parent cancels its child, which is suspended, but taken for the running task. -/
theorem cancel_lost : ∃ s : Scheduler, VmReachable ⟨some s, true⟩ ∧ ¬ NoCancelLost s := by
  have h₁ : CarefulReachable ⟨some (childRuns.requestCancel 1), false⟩ :=
    careful_childRuns.tail (.run (.cancel childRuns 1))
  have h₂ : CarefulReachable ⟨some ((childRuns.requestCancel 1).taskSleep 100 0).2, true⟩ :=
    h₁.native (.sleep _ 100 0) (by decide +kernel)
  have hpick := h₂.reachable.tail (.pick _ .quiet)
  have hrun : (((childRuns.requestCancel 1).taskSleep 100 0).2.runNext .quiet).1 = false := by
    decide +kernel
  rw [hrun] at hpick
  refine ⟨_, hpick, fun h ↦ ?_⟩
  -- the child: asleep, with a cancel that nothing delivers
  have hany : ((((childRuns.requestCancel 1).taskSleep 100 0).2.runNext .quiet).2.tasks 2).any
      (fun rec ↦ rec.started && rec.shield == 0 && rec.state == .blocked &&
        rec.cancel == .requested && rec.block == some .sleep) = true := by decide +kernel
  obtain ⟨rec, hrec, hall⟩ := (Option.any_eq_true _ _).1 hany
  simp only [Bool.and_eq_true, beq_iff_eq] at hall
  obtain ⟨⟨⟨⟨hstart, hshield⟩, hst⟩, hcancel⟩, hblock⟩ := hall
  have := (h 2 rec hrec hstart hshield hst hcancel).1
  simp [hblock] at this

end CoilLang.Task
