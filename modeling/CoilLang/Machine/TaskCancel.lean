import CoilLang.Machine.VmInvariant

/-!
# Cancels that reach suspended tasks

A cancel is delivered at the task's next suspension point, or **at once if it is suspended now**: no
task should be blocked with a cancel requested, outside every `shield`, unless it waits for the tasks
of its own scopes to stop (`CancelOk`).

`requestCancel` takes a task to be running when its id is `current`. Between a suspension and the
next switch `current` still names the task that suspended, and the loop itself requests cancels
there: a picked task with a cancel to deliver cancels its children. If one of these has just
suspended, it is left blocked (`cancel_lost`).

Every other step keeps `CancelOk`: so does the iteration, unless it cancels the task that suspended
last while that is blocked (`Scheduler.pickStale`).
-/

namespace CoilLang.Task

/-- Suspended with a cancel that should have been delivered. -/
def TaskRec.Undelivered (rec : TaskRec) : Prop :=
  rec.started = true ∧ rec.shield = 0 ∧ rec.state = .blocked ∧ rec.cancel = .requested

/-- A scope the task owns counts an unfinished child. -/
def Scheduler.WaitsForChild (s : Scheduler) (id : TaskId) : Prop :=
  ∃ i sc, s.scopes i = some sc ∧ sc.owner = id ∧ sc.unfinished ≠ 0

/-- A suspended task whose cancel is not delivered waits for unfinished children. While a task is
being finished its scope's owner, `done`, may have none left. -/
def CancelOk (s : Scheduler) (done : Option TaskId) : Prop :=
  ∀ id rec, s.tasks id = some rec → rec.Undelivered →
    rec.block = some .cancel ∧ (done ≠ some id → s.WaitsForChild id)

variable {s s' : Scheduler} {held : TaskId → Prop} {run dying done : Option TaskId} {id : TaskId}
  {rec rec' : TaskRec}

theorem Inv.ownedChildrenFinished_iff (h : Inv s held run dying) :
    s.ownedChildrenFinished id = true ↔ ¬ s.WaitsForChild id := by
  unfold Scheduler.ownedChildrenFinished
  rw [List.all_eq_true]
  constructor
  · rintro hall ⟨i, sc, hsc, hown, hne⟩
    have := hall i (h.mem_scopesOwnedBy.2 ⟨sc, hsc, hown⟩)
    simp [Scheduler.childrenFinished, hsc, hne] at this
  · intro hnot i hi
    obtain ⟨sc, hsc, hown⟩ := h.mem_scopesOwnedBy.1 hi
    have hzero : sc.unfinished = 0 := by
      by_contra hne
      exact hnot ⟨i, sc, hsc, hown, hne⟩
    simp [Scheduler.childrenFinished, hsc, hzero]

/-! ### Writing records -/

theorem CancelOk.frame (h : CancelOk s done) (htasks : s'.tasks = s.tasks)
    (hscopes : s'.scopes = s.scopes) : CancelOk s' done := by
  unfold CancelOk Scheduler.WaitsForChild at h ⊢
  rwa [htasks, hscopes]

/-- A record that is not undelivered may be written. -/
theorem CancelOk.touch (h : CancelOk s done) (id : TaskId)
    (htasks : s'.tasks = Function.update s.tasks id (some rec'))
    (hscopes : s'.scopes = s.scopes)
    (hrec' : rec'.Undelivered → rec'.block = some .cancel ∧ (done ≠ some id → s.WaitsForChild id)) :
    CancelOk s' done := by
  intro t r ht hund
  rw [htasks] at ht
  have hw : s'.WaitsForChild t ↔ s.WaitsForChild t := by
    unfold Scheduler.WaitsForChild
    rw [hscopes]
  rw [hw]
  rcases update_eq_some_iff.1 ht with ⟨rfl, rfl⟩ | ⟨-, ht⟩
  · exact hrec' hund
  · exact h t r ht hund

/-- A task that is not blocked has no cancel undelivered. -/
theorem not_undelivered (h : rec.state ≠ .blocked) : ¬ rec.Undelivered := fun hund ↦ h hund.2.2.1

theorem CancelOk.makeReady (h : CancelOk s done) (id : TaskId) (wake : Wake) :
    CancelOk (s.makeReady id wake) done := by
  unfold Scheduler.makeReady
  split
  · split
    · refine h.touch id rfl rfl fun hund ↦ absurd hund (not_undelivered ?_)
      simp
    · exact h
  · exact h

/-- Made ready, the owner has nothing undelivered. -/
theorem CancelOk.makeReady_owner (h : CancelOk s (some id)) (wake : Wake) :
    CancelOk (s.makeReady id wake) none := by
  intro t r ht hund
  have hok := h.makeReady id wake t r ht hund
  refine ⟨hok.1, fun _ ↦ hok.2 fun hid ↦ ?_⟩
  obtain rfl := Option.some.inj hid
  unfold Scheduler.makeReady at ht
  split at ht
  · rename_i rec hrec
    split at ht
    · rcases update_eq_some_iff.1 ht with ⟨-, rfl⟩ | ⟨hne, -⟩
      · exact not_undelivered (by simp) hund
      · exact hne rfl
    · rename_i hst
      rw [hrec, Option.some.injEq] at ht
      exact not_undelivered (ht ▸ hst) hund
  · rename_i hnone
    simp [hnone] at ht

theorem CancelOk.wakeIf (h : CancelOk s done) (b : Block) (wake : Wake) (j : TaskId) :
    CancelOk (s.wakeIf b wake j) done := by
  unfold Scheduler.wakeIf
  split
  · exact h.makeReady j wake
  · exact h

theorem CancelOk.wakeAll (h : CancelOk s done) (b : Block) (wake : Wake) (ids : List TaskId) :
    CancelOk (s.wakeAll b wake ids) done :=
  List.foldlRecOn (motive := fun s ↦ CancelOk s done) ids _ h fun _ h j _ ↦ h.wakeIf b wake j

theorem CancelOk.checkScopeDone (h : CancelOk s done) (i : ScopeId) :
    CancelOk (s.checkScopeDone i) done := by
  unfold Scheduler.checkScopeDone
  split
  · split
    · exact h
    · exact h.wakeIf _ _ _
  · exact h

/-- Writing a scope's record with the same owner and count. -/
theorem CancelOk.setScope (h : CancelOk s done) {i : ScopeId} {sc sc' : ScopeRec}
    (hi : s.scopes i = some sc) (howner : sc'.owner = sc.owner)
    (hunf : sc.unfinished ≠ 0 → sc'.unfinished ≠ 0) : CancelOk (s.setScope i sc') done := by
  intro t r ht hund
  obtain ⟨hb, hw⟩ := h t r ht hund
  refine ⟨hb, fun hd ↦ ?_⟩
  obtain ⟨j, sj, hj, hown, hne⟩ := hw hd
  by_cases hji : j = i
  · subst hji
    rw [hi, Option.some.injEq] at hj
    subst hj
    exact ⟨j, sc', by simp [Scheduler.setScope], howner.trans hown, hunf hne⟩
  · exact ⟨j, sj, by simpa [Scheduler.setScope, hji] using hj, hown, hne⟩

/-! ### Finishing a task -/

/-- Forgetting a scope of a task without undelivered cancels. -/
theorem CancelOk.removeScope (h : CancelOk s done) {i : ScopeId}
    (hown : ∀ sc, s.scopes i = some sc → ∀ rec, s.tasks sc.owner = some rec → ¬ rec.Undelivered) :
    CancelOk (s.removeScope i) done := by
  rcases hsc : s.scopes i with - | sc
  · rwa [show s.removeScope i = s by simp [Scheduler.removeScope, hsc]]
  · intro t r ht hund
    have htask := (tasks_removeScope_of_some hsc ht).2
    obtain ⟨hb, hw⟩ := h t r htask hund
    refine ⟨hb, fun hd ↦ ?_⟩
    obtain ⟨j, sj, hj, hownj, hne⟩ := hw hd
    have hji : j ≠ i := by
      rintro rfl
      exact hown sj hj r (hownj ▸ htask) hund
    exact ⟨j, sj, by simpa [removeScope_scopes, hji] using hj, hownj, hne⟩

theorem CancelOk.removeScopes (l : List ScopeId) (id : TaskId) (h : CancelOk s done)
    (hl : ∀ i ∈ l, ∀ sc, s.scopes i = some sc → sc.owner = id)
    (hid : ∀ rec, s.tasks id = some rec → ¬ rec.Undelivered) :
    CancelOk (l.foldl Scheduler.removeScope s) done := by
  induction l generalizing s with
  | nil => exact h
  | cons i l ih =>
    have hi := hl i List.mem_cons_self
    refine ih (h.removeScope fun sc hsc rec hrec ↦ hid rec (hi sc hsc ▸ hrec)) ?_ fun rec hrec ↦ ?_
    · intro j hj sc hsc
      rw [removeScope_scopes] at hsc
      by_cases hji : j = i
      · simp [hji] at hsc
      · rw [Function.update_of_ne hji] at hsc
        exact hl j (List.mem_cons_of_mem i hj) sc hsc
    · refine hid rec ?_
      rcases hsc : s.scopes i with - | sc
      · rwa [show s.removeScope i = s by simp [Scheduler.removeScope, hsc]] at hrec
      · exact (tasks_removeScope_of_some hsc hrec).2

theorem finish_tasks (s : Scheduler) (id : TaskId) (rec : TaskRec) (i : ScopeId) :
    (s.finish id rec i).tasks = Function.update s.tasks id (some rec) := by
  unfold Scheduler.finish Scheduler.decUnfinished
  split <;> rfl

theorem finish_scopes {i : ScopeId} {sc : ScopeRec} (hi : s.scopes i = some sc) :
    (s.finish id rec i).scopes =
      Function.update s.scopes i (some { sc with unfinished := sc.unfinished - 1 }) := by
  simp [Scheduler.finish, Scheduler.decUnfinished, Scheduler.decLive, Scheduler.setScope, hi]

/-- A child less: the scope's owner may have none left. -/
theorem CancelOk.finish (h : CancelOk s none) {i : ScopeId} {sc : ScopeRec}
    (hi : s.scopes i = some sc) (hfin : rec'.state.finished = true) :
    CancelOk (s.finish id rec' i) (some sc.owner) := by
  intro t r ht hund
  rw [finish_tasks] at ht
  rcases update_eq_some_iff.1 ht with ⟨-, rfl⟩ | ⟨-, htask⟩
  · exact absurd hund (not_undelivered fun hst ↦ by simp [hst, TaskState.finished] at hfin)
  obtain ⟨hb, hw⟩ := h t r htask hund
  refine ⟨hb, fun hd ↦ ?_⟩
  obtain ⟨j, sj, hj, hown, hne⟩ := hw (by simp)
  have hji : j ≠ i := by
    rintro rfl
    rw [hi, Option.some.injEq] at hj
    exact hd (by rw [hj, hown])
  exact ⟨j, sj, by simpa [finish_scopes hi, hji] using hj, hown, hne⟩

/-- The record, the counters and the scopes of a task that finishes: only its scope's owner may be
left without an unfinished child. -/
theorem CancelOk.settle (hinv : Inv s held run none) (hrec : s.tasks id = some rec)
    (hroot : id ≠ Task.root) (hfrom : Finishing held id rec) {state : TaskState}
    (hfin : state.finished = true) (hdone : s.ownedChildrenFinished id = true) {sc : ScopeRec}
    (hsc : s.scopes rec.scope = some sc) (h : CancelOk s none) :
    CancelOk (s.settle id rec state) (some sc.owner) := by
  have hf := (hinv.finishing hrec hroot hfrom hfin hdone).1
  have h₁ : CancelOk (s.finish id { rec with state := state, ending := none } rec.scope)
      (some sc.owner) := h.finish hsc hfin
  rw [settle_eq hfrom hfin]
  refine h₁.removeScopes _ id (fun i hi sc' hsc' ↦ ?_) fun r hr ↦ ?_
  · obtain ⟨sc'', hsc'', hown⟩ := hf.mem_scopesOwnedBy.1 hi
    rw [hsc', Option.some.injEq] at hsc''
    rw [hsc'', hown]
  · rw [finish_tasks, Function.update_self, Option.some.injEq] at hr
    subst hr
    exact not_undelivered fun hst ↦ by simp [show state = .blocked from hst, TaskState.finished] at hfin

theorem CancelOk.wakeWaiters (h : CancelOk s done) (hfin : rec.state.finished = true) :
    CancelOk (s.wakeWaiters id rec) done := by
  have h₁ : CancelOk (s.setTask id { rec with joiners := [] }) done := by
    refine h.touch id rfl rfl fun hund ↦ absurd hund (not_undelivered ?_)
    intro hst
    simp [show rec.state = .blocked from hst, TaskState.finished] at hfin
  exact (h₁.wakeAll _ _ _).checkScopeDone _

/-- The owner of a task's scope, after the task is settled. -/
theorem Inv.settle_scope (hinv : Inv s held run none) (hrec : s.tasks id = some rec)
    (hroot : id ≠ Task.root) (hfrom : Finishing held id rec) {state : TaskState}
    (hfin : state.finished = true) (hdone : s.ownedChildrenFinished id = true) {sc : ScopeRec}
    (hsc : s.scopes rec.scope = some sc) :
    ∃ sc', (s.settle id rec state).scopes rec.scope = some sc' ∧ sc'.owner = sc.owner := by
  have hf := (hinv.finishing hrec hroot hfrom hfin hdone).1
  obtain ⟨sc₀, hsc₀, hmem⟩ := hinv.child id rec hroot hrec
  rw [hsc, Option.some.injEq] at hsc₀
  have hlt := ((hinv.scope _ sc hsc).child id (hsc₀ ▸ hmem)).1
  rw [settle_eq hfrom hfin, removeScopes_scopes]
  refine ⟨{ sc with unfinished := sc.unfinished - 1 }, ?_, rfl⟩
  rw [if_neg, finish_scopes hsc, Function.update_self]
  intro hmem'
  obtain ⟨sc', hsc', hown⟩ := hf.mem_scopesOwnedBy.1 hmem'
  rw [finish_scopes hsc, Function.update_self, Option.some.injEq] at hsc'
  rw [← hsc'] at hown
  exact hlt.ne hown

/-- **Finishing a task** wakes its scope's owner when that waits for the last child. -/
theorem CancelOk.finalize (id : TaskId) (hinv : Inv s held run none) (hrec : s.tasks id = some rec)
    (hroot : id ≠ Task.root) (hfrom : Finishing held id rec) {state : TaskState}
    (hfin : state.finished = true) (hdone : s.ownedChildrenFinished id = true)
    (h : CancelOk s none) : CancelOk (s.finalize id state) none := by
  induction id using Nat.strong_induction_on generalizing s held rec state with
  | _ id ih =>
  obtain ⟨sc, hsc, -⟩ := hinv.child id rec hroot hrec
  obtain ⟨sc', hsc', hown⟩ := hinv.settle_scope hrec hroot hfrom hfin hdone hsc
  obtain ⟨hinv₁, hrec₁⟩ := hinv.settle hrec hroot hfrom hfin hdone
  have hinv₂ := hinv₁.wakeWaiters hrec₁
  have h₂ : CancelOk ((s.settle id rec state).wakeWaiters id
      { rec with state := state, ending := none }) (some sc.owner) :=
    (CancelOk.settle hinv hrec hroot hfrom hfin hdone hsc h).wakeWaiters hfin
  have hscopes := wakeWaiters_scopes (s.settle id rec state) id
    { rec with state := state, ending := none }
  rw [Scheduler.finalize, hrec]
  simp only [hrec₁]
  generalize (s.settle id rec state).wakeWaiters id { rec with state := state, ending := none } = s₂
    at hinv₂ h₂ hscopes ⊢
  have hsc₂ : s₂.scopes rec.scope = some sc' := by rw [hscopes, hsc']
  obtain ⟨ownerRec, howner, -⟩ := hinv₂.owner _ sc' hsc₂ (by simp)
  rw [hown] at howner
  by_cases hown₂ : s₂.ownedChildrenFinished sc.owner = true
  · have hdo : s₂.doneOwner rec.scope = some (sc.owner, ownerRec) := by
      simp [Scheduler.doneOwner, hsc₂, hown, hown₂, howner]
    simp only [hdo]
    -- an owner that ends or is made ready has nothing undelivered; else it does not wait for this
    have hfree : ¬ ownerRec.Undelivered → CancelOk s₂ none := by
      intro hnot t r ht hund
      obtain ⟨hb, hw⟩ := h₂ t r ht hund
      refine ⟨hb, fun _ ↦ hw fun heq ↦ ?_⟩
      obtain rfl := Option.some.inj heq
      rw [howner, Option.some.injEq] at ht
      exact hnot (ht ▸ hund)
    have hok := hinv₂.task _ ownerRec howner
    split
    · rename_i final hend
      have hending : ownerRec.state = .ending := hok.ending_iff.2 (by simp [hend])
      have hok₂ := hfree (not_undelivered (by simp [hending]))
      have hne : sc.owner ≠ Task.root := fun ho ↦ (hok.root_alive ho).2.1 hending
      split
      · rename_i hlt
        exact ih _ hlt hinv₂ howner hne (.inl hending) (hok.ending_finished _ hend) hown₂ hok₂
      · exact hok₂
    · split
      · exact h₂.makeReady_owner _
      · rename_i hcancel
        exact hfree fun hund ↦ hcancel (h₂ _ ownerRec howner hund).1
  · have hdo : s₂.doneOwner rec.scope = none := by
      simp [Scheduler.doneOwner, hsc₂, hown, hown₂]
    simp only [hdo]
    intro t r ht hund
    obtain ⟨hb, hw⟩ := h₂ t r ht hund
    refine ⟨hb, fun _ ↦ ?_⟩
    by_cases htown : t = sc.owner
    · rw [htown]
      by_contra hnot
      exact hown₂ (hinv₂.ownedChildrenFinished_iff.2 hnot)
    · exact hw (by simpa using Ne.symm htown)

/-! ### Cancelling tasks -/

/-- Cancelling `id` now would find it current though it is suspended: the test for the running task
takes it for that. -/
def Scheduler.staleCancel (s : Scheduler) (id : TaskId) : Bool :=
  id == s.current && (s.tasks id).any fun rec ↦
    rec.started && rec.shield == 0 && rec.state == .blocked && rec.cancel == .none

/-- Cancelling the listed tasks in turn does so for one of them. -/
def Scheduler.cancelsStale (s : Scheduler) : List TaskId → Bool
  | [] => false
  | id :: ids => s.staleCancel id || (s.requestCancel id).cancelsStale ids

theorem CancelOk.deliverCancel (h : CancelOk s none) (hrec : s.tasks id = some rec)
    (hcancel : rec.cancel = .none) (hstale : s.staleCancel id = false) :
    CancelOk (s.deliverCancel id rec) none := by
  unfold Scheduler.deliverCancel
  simp only
  split
  · rename_i hcond
    refine h.touch id rfl rfl fun hund ↦ ?_
    obtain ⟨hstart, hshield, hst, -⟩ := hund
    have hcur : id = s.current := by
      rcases hcond with hpos | hcur | hne
      · exact absurd hshield (Nat.pos_iff_ne_zero.1 hpos)
      · exact hcur
      · exact absurd hst hne
    have : s.staleCancel id = true := by
      unfold Scheduler.staleCancel
      rw [hrec, ← hcur]
      simp [show rec.started = true from hstart, show rec.shield = 0 from hshield,
        show rec.state = .blocked from hst, hcancel]
    rw [this] at hstale
    exact absurd hstale (by simp)
  · refine h.touch id (by rw [dropWait_tasks]; rfl) (by rw [dropWait_scopes]; rfl)
      fun hund ↦ absurd hund (not_undelivered (by simp))

/-- **Cancelling a task** reaches it, unless it is taken for the running one. -/
theorem CancelOk.requestCancel (hinv : Inv s held run none) (hstale : s.staleCancel id = false)
    (h : CancelOk s none) : CancelOk (s.requestCancel id) none := by
  unfold Scheduler.requestCancel
  split
  · exact h
  rename_i rec hrec
  split
  · exact h
  rename_i hcond
  split
  · rename_i hstart
    obtain ⟨hh, hroot, hready, hdone⟩ := hinv.unstarted hrec hcond (by simpa using hstart)
    exact CancelOk.finalize id hh hrec hroot (.inr ⟨hready, .inr rfl⟩) rfl hdone (h.frame rfl rfl)
  · refine h.deliverCancel hrec ?_ hstale
    by_contra hne
    exact hcond (.inr (.inr (.inr hne)))

theorem CancelOk.requestCancels (ids : List TaskId) (hinv : Inv s held run none)
    (hids : ∀ id ∈ ids, ¬ held id) (hstale : s.cancelsStale ids = false) (h : CancelOk s none) :
    CancelOk (s.requestCancels ids) none := by
  induction ids generalizing s with
  | nil => exact h
  | cons id ids ih =>
    obtain ⟨hid, hrest⟩ := Bool.or_eq_false_iff.1 hstale
    exact ih (hinv.requestCancel (hids id List.mem_cons_self))
      (fun c hc ↦ hids c (List.mem_cons_of_mem id hc)) hrest (h.requestCancel hinv hid)

/-- The current task is not among the cancelled: no cancel is lost. -/
theorem cancelsStale_of_ne (ids : List TaskId) (h : ∀ id ∈ ids, id ≠ s.current) :
    s.cancelsStale ids = false := by
  induction ids generalizing s with
  | nil => rfl
  | cons id ids ih =>
    refine Bool.or_eq_false_iff.2 ⟨?_, ih fun c hc ↦ ?_⟩
    · simp [Scheduler.staleCancel, h id List.mem_cons_self]
    · rw [requestCancel_current]
      exact h c (List.mem_cons_of_mem id hc)

end CoilLang.Task
