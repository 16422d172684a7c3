import CoilLang.Machine.TaskInvariant

/-!
# Finishing tasks

Forgetting a scope, finishing a task, and cancelling or ending one keep the scheduler's invariant.

A task is finished in two stages. First its record and the two counters change: its scopes are then
owned by a finished task, which is what `dying` allows for. Then these scopes are forgotten; all of
their children have finished, so no unfinished record goes.
-/

namespace CoilLang.Task

variable {s : Scheduler} {held : TaskId → Prop} {run dying : Option TaskId}

/-! ### Forgetting a scope -/

/-- A scope that counts no unfinished child has none. -/
theorem ScopeOk.unfinished_of_zero {i : ScopeId} {sc : ScopeRec} (h : ScopeOk s i sc)
    (hzero : sc.unfinished = 0) {c : TaskId} (hc : c ∈ sc.children) : s.unfinished c = false := by
  have hnil := List.length_eq_zero_iff.1 (h.count.symm.trans hzero)
  by_contra hne
  have := List.mem_filter.2 ⟨hc, by simpa using hne⟩
  rw [hnil] at this
  simp at this

/-- A task is a child of one scope only: the one of its record. -/
theorem Inv.scope_of_child (h : Inv s held run dying) {i : ScopeId} {sc : ScopeRec} {c : TaskId}
    {rec : TaskRec} (hi : s.scopes i = some sc) (hc : c ∈ sc.children)
    (hrec : s.tasks c = some rec) : rec.scope = i := by
  obtain ⟨-, r, hr, hri⟩ := (h.scope i sc hi).child c hc
  rw [hrec, Option.some.injEq] at hr
  rw [hr, hri]

section RemoveScope

variable {i : ScopeId} {sc : ScopeRec}

@[simp] theorem removeScope_tasks (hi : s.scopes i = some sc) :
    (s.removeScope i).tasks = fun t ↦ if t ∈ sc.children then none else s.tasks t := by
  rw [Scheduler.removeScope, hi]

@[simp] theorem removeScope_scopes (s : Scheduler) (i : ScopeId) :
    (s.removeScope i).scopes = Function.update s.scopes i none := by
  unfold Scheduler.removeScope
  split
  · rfl
  · rename_i hi
    funext j
    by_cases h : j = i
    · simp [h, hi]
    · simp [h]

/-- The children forgotten with a scope were finished, so no unfinished task goes. -/
theorem unfinished_removeScope (h : Inv s held run dying) (hi : s.scopes i = some sc)
    (hzero : sc.unfinished = 0) (t : TaskId) : (s.removeScope i).unfinished t = s.unfinished t := by
  rw [Scheduler.unfinished, removeScope_tasks hi]
  by_cases ht : t ∈ sc.children
  · rw [(h.scope i sc hi).unfinished_of_zero hzero ht]
    simp [ht]
  · simp [ht, Scheduler.unfinished]

theorem isReady_of_unfinished_eq_false {t : TaskId} (h : s.unfinished t = false) : s.isReady t = false := by
  unfold Scheduler.unfinished at h
  unfold Scheduler.isReady
  rcases htask : s.tasks t with - | rec
  · rfl
  · rw [htask] at h
    cases hst : rec.state <;> simp_all [TaskState.finished]

theorem isReady_removeScope (h : Inv s held run dying) (hi : s.scopes i = some sc)
    (hzero : sc.unfinished = 0) (t : TaskId) : (s.removeScope i).isReady t = s.isReady t := by
  rw [Scheduler.isReady, removeScope_tasks hi]
  by_cases ht : t ∈ sc.children
  · rw [isReady_of_unfinished_eq_false ((h.scope i sc hi).unfinished_of_zero hzero ht)]
    simp [ht]
  · simp [ht, Scheduler.isReady]

theorem tasks_removeScope_of_some {t : TaskId} {rec : TaskRec} (hi : s.scopes i = some sc)
    (ht : (s.removeScope i).tasks t = some rec) : t ∉ sc.children ∧ s.tasks t = some rec := by
  rw [removeScope_tasks hi] at ht
  by_cases hc : t ∈ sc.children
  · simp [hc] at ht
  · exact ⟨hc, by simpa [hc] using ht⟩

theorem not_mem_children_of_unfinished (h : Inv s held run dying) (hi : s.scopes i = some sc)
    (hzero : sc.unfinished = 0) {t : TaskId} {rec : TaskRec} (ht : s.tasks t = some rec)
    (hfin : rec.state.finished = false) : t ∉ sc.children := by
  intro hc
  have := (h.scope i sc hi).unfinished_of_zero hzero hc
  simp [Scheduler.unfinished, ht, hfin] at this

/-- **Forgetting a scope whose children have finished** keeps the invariant. -/
theorem Inv.removeScope (h : Inv s held run dying) (hi : s.scopes i = some sc)
    (hzero : sc.unfinished = 0) : Inv (s.removeScope i) held run dying where
  task t rec ht := h.task t rec (tasks_removeScope_of_some hi ht).2
  root := by
    obtain ⟨rec, hrec⟩ := h.root
    refine ⟨rec, ?_⟩
    have hroot : Task.root ∉ sc.children := fun hc ↦
      absurd ((h.scope i sc hi).child _ hc).1 (Nat.not_lt_zero _)
    simpa [removeScope_tasks hi, hroot] using hrec
  task_lt t rec ht := by
    rw [show (s.removeScope i).nextTask = s.nextTask by simp [Scheduler.removeScope, hi]]
    exact h.task_lt t rec (tasks_removeScope_of_some hi ht).2
  scope_lt j sj hj := by
    rw [show (s.removeScope i).nextScope = s.nextScope by simp [Scheduler.removeScope, hi]]
    rw [removeScope_scopes] at hj
    by_cases hji : j = i
    · simp [hji] at hj
    · exact h.scope_lt j sj (by simpa [hji] using hj)
  order_nodup := by
    rw [show (s.removeScope i).scopeOrder = s.scopeOrder.erase i by simp [Scheduler.removeScope, hi]]
    exact h.order_nodup.erase i
  order_iff j := by
    rw [show (s.removeScope i).scopeOrder = s.scopeOrder.erase i by simp [Scheduler.removeScope, hi],
      h.order_nodup.mem_erase_iff, h.order_iff, removeScope_scopes]
    by_cases hji : j = i
    · simp [hji]
    · simp [hji]
  scope j sj hj := by
    rw [removeScope_scopes] at hj
    have hji : j ≠ i := by
      rintro rfl
      simp at hj
    have hj' : s.scopes j = some sj := by simpa [hji] using hj
    obtain ⟨hnd, hchild, hcount⟩ := h.scope j sj hj'
    refine ⟨hnd, fun c hc ↦ ⟨(hchild c hc).1, ?_⟩, ?_⟩
    · obtain ⟨rec, hrec, hrj⟩ := (hchild c hc).2
      have hcsc : c ∉ sc.children := fun hc' ↦
        hji (hrj.symm.trans (h.scope_of_child hi hc' hrec))
      exact ⟨rec, by simpa [removeScope_tasks hi, hcsc] using hrec, hrj⟩
    · rw [hcount]
      congr 1
      exact List.filter_congr fun c _ ↦ (unfinished_removeScope h hi hzero c).symm
  owner j sj hj hd := by
    rw [removeScope_scopes] at hj
    have hji : j ≠ i := by
      rintro rfl
      simp at hj
    obtain ⟨rec, hrec, hfin, hst⟩ := h.owner j sj (by simpa [hji] using hj) hd
    have hnot := not_mem_children_of_unfinished h hi hzero hrec hfin
    exact ⟨rec, by simpa [removeScope_tasks hi, hnot] using hrec, hfin, hst⟩
  child t rec ht hrec := by
    obtain ⟨hnot, hrec⟩ := tasks_removeScope_of_some hi hrec
    obtain ⟨sj, hj, hmem⟩ := h.child t rec ht hrec
    refine ⟨sj, ?_, hmem⟩
    have hji : rec.scope ≠ i := by
      intro hji
      rw [hji, hi, Option.some.injEq] at hj
      exact hnot (hj ▸ hmem)
    simpa [hji] using hj
  live := by
    rw [show (s.removeScope i).live = s.live by simp [Scheduler.removeScope, hi], h.live]
    refine congrArg Finset.card ?_
    unfold Scheduler.liveTasks
    rw [show (s.removeScope i).nextTask = s.nextTask by simp [Scheduler.removeScope, hi]]
    exact Finset.filter_congr fun t _ ↦ by rw [unfinished_removeScope h hi hzero]
  underflow := by
    rw [show (s.removeScope i).underflow = s.underflow by simp [Scheduler.removeScope, hi]]
    exact h.underflow
  queue_nodup := by
    rw [show (s.removeScope i).runQueue = s.runQueue by simp [Scheduler.removeScope, hi]]
    exact h.queue_nodup
  queue_iff t := by
    rw [show (s.removeScope i).runQueue = s.runQueue by simp [Scheduler.removeScope, hi],
      isReady_removeScope h hi hzero]
    exact h.queue_iff t
  running t rec ht := h.running t rec (tasks_removeScope_of_some hi ht).2
  run_some t ht := by
    obtain ⟨rec, hrec⟩ := h.run_some t ht
    have hst := (h.running t rec hrec).2 ht
    have hnot := not_mem_children_of_unfinished h hi hzero hrec (by simp [hst, TaskState.finished])
    exact ⟨rec, by simpa [removeScope_tasks hi, hnot] using hrec⟩
  held_ready t ht := by
    rw [isReady_removeScope h hi hzero]
    exact h.held_ready t ht

end RemoveScope

/-! ### Finishing a task -/

section Finish

variable {id : TaskId} {rec rec' : TaskRec} {sc : ScopeRec}

/-- The scheduler after the first stage: the record is written and both counters go down. -/
def Scheduler.finish (s : Scheduler) (id : TaskId) (rec : TaskRec) (i : ScopeId) : Scheduler :=
  ((s.setTask id rec).decLive).decUnfinished i

theorem finish_eq (hi : s.scopes i = some sc) (hlive : s.live ≠ 0) (hzero : sc.unfinished ≠ 0) :
    s.finish id rec i = { s with
      tasks := Function.update s.tasks id (some rec)
      scopes := Function.update s.scopes i (some { sc with unfinished := sc.unfinished - 1 })
      live := s.live - 1 } := by
  have h₁ : (s.live == 0) = false := by simpa using hlive
  have h₂ : (sc.unfinished == 0) = false := by simpa using hzero
  simp [Scheduler.finish, Scheduler.decUnfinished, Scheduler.decLive, Scheduler.setTask,
    Scheduler.setScope, hi, h₁, h₂]

/-- Finishing `id` changes no other task. -/
theorem unfinished_finish {s' : Scheduler} (htasks : s'.tasks = Function.update s.tasks id (some rec'))
    (hfin : rec'.state.finished = true) (t : TaskId) :
    s'.unfinished t = (s.unfinished t && t != id) := by
  unfold Scheduler.unfinished
  rw [htasks]
  by_cases h : t = id
  · simp [h, hfin]
  · simp [h]

/-- One unfinished element less in a list without duplicates. -/
theorem length_filter_finish {l : List TaskId} (hnd : l.Nodup) (hmem : id ∈ l)
    (hunf : s.unfinished id = true) :
    (l.filter fun t ↦ s.unfinished t && t != id).length = (l.filter s.unfinished).length - 1 := by
  have hmem' : id ∈ l.filter s.unfinished := List.mem_filter.2 ⟨hmem, hunf⟩
  rw [← List.length_erase_of_mem hmem', (hnd.filter _).erase_eq_filter, List.filter_filter]
  congr 1
  exact List.filter_congr fun t _ ↦ Bool.and_comm _ _

theorem Inv.mem_liveTasks (h : Inv s held run dying) (hrec : s.tasks id = some rec)
    (hroot : id ≠ Task.root) (hfin : rec.state.finished = false) : id ∈ s.liveTasks := by
  refine Scheduler.mem_liveTasks.2 ⟨h.task_lt id rec hrec, hroot, ?_⟩
  simp [Scheduler.unfinished, hrec, hfin]

/-- **A task's record and the counters change as it finishes**: the invariant holds but for the
scopes it opened. -/
theorem Inv.finish (h : Inv s held run none) (hrec : s.tasks id = some rec)
    (hroot : id ≠ Task.root) (hfin : rec.state.finished = false) (hrun : rec.state ≠ .running)
    (hqueue : id ∉ s.runQueue) (hscope : rec'.scope = rec.scope)
    (hfin' : rec'.state.finished = true) (hok : TaskOk id rec') :
    Inv (s.finish id rec' rec.scope) (fun t ↦ held t ∧ t ≠ id) run (some id) := by
  obtain ⟨sc, hsc, hmem⟩ := h.child id rec hroot hrec
  have hunf : s.unfinished id = true := by simp [Scheduler.unfinished, hrec, hfin]
  obtain ⟨hnd, hchild, hcount⟩ := h.scope _ _ hsc
  have hlive : s.live ≠ 0 := by
    rw [h.live]
    exact Finset.card_ne_zero_of_mem (h.mem_liveTasks hrec hroot hfin)
  have hzero : sc.unfinished ≠ 0 := by
    rw [hcount]
    exact List.length_pos_of_mem (List.mem_filter.2 ⟨hmem, hunf⟩) |>.ne'
  rw [finish_eq hsc hlive hzero]
  have hscopes : ∀ {j sj}, Function.update s.scopes rec.scope
      (some { sc with unfinished := sc.unfinished - 1 }) j = some sj →
      ∃ sj', s.scopes j = some sj' ∧ sj.owner = sj'.owner ∧ sj.children = sj'.children ∧
        sj.unfinished = if j = rec.scope then sj'.unfinished - 1 else sj'.unfinished := by
    intro j sj hj
    by_cases hji : j = rec.scope
    · subst hji
      rw [Function.update_self, Option.some.injEq] at hj
      exact ⟨sc, hsc, by simp [← hj]⟩
    · rw [Function.update_of_ne hji] at hj
      exact ⟨sj, hj, by simp [hji]⟩
  have hnotrun : run ≠ some id := fun hr ↦ hrun ((h.running id rec hrec).2 hr)
  have hstate : rec'.state ≠ .ready ∧ rec'.state ≠ .running := by
    constructor <;> intro hst <;> simp [hst, TaskState.finished] at hfin'
  refine ⟨?_, ?_, ?_, ?_, h.order_nodup, ?_, ?_, ?_, ?_, ?_, h.underflow, h.queue_nodup, ?_, ?_,
    ?_, ?_⟩
  · intro t r ht
    rcases update_eq_some_iff.1 ht with ⟨rfl, rfl⟩ | ⟨-, ht⟩
    · exact hok
    · exact h.task t r ht
  · obtain ⟨r, hr⟩ := h.root
    exact ⟨r, by simpa [Ne.symm hroot] using hr⟩
  · intro t r ht
    rcases update_eq_some_iff.1 ht with ⟨rfl, rfl⟩ | ⟨-, ht⟩
    · exact h.task_lt _ _ hrec
    · exact h.task_lt t r ht
  · intro j sj hj
    obtain ⟨sj', hj', -⟩ := hscopes hj
    exact h.scope_lt j sj' hj'
  · intro j
    rw [h.order_iff]
    by_cases hji : j = rec.scope
    · simp [hji, hsc]
    · simp [hji]
  · intro j sj hj
    obtain ⟨sj', hj', howner, hchildren, hunfj⟩ := hscopes hj
    obtain ⟨hndj, hchildj, hcountj⟩ := h.scope j sj' hj'
    refine ⟨hchildren ▸ hndj, fun c hc ↦ ?_, ?_⟩
    · rw [howner]
      rw [hchildren] at hc
      refine ⟨(hchildj c hc).1, ?_⟩
      obtain ⟨r, hr, hrj⟩ := (hchildj c hc).2
      by_cases hcid : c = id
      · subst hcid
        rw [hrec, Option.some.injEq] at hr
        exact ⟨rec', by simp, by rw [hscope, hr, hrj]⟩
      · exact ⟨r, by simpa [hcid] using hr, hrj⟩
    · rw [hunfj, hchildren]
      rw [List.filter_congr fun c _ ↦ unfinished_finish rfl hfin' c]
      split
      · rename_i hji
        subst hji
        rw [hsc, Option.some.injEq] at hj'
        rw [hcountj, length_filter_finish hndj (hj' ▸ hmem) hunf]
      · rename_i hji
        rw [hcountj]
        congr 1
        refine List.filter_congr fun c hc ↦ ?_
        have hcid : c ≠ id := by
          rintro rfl
          exact hji (h.scope_of_child hj' hc hrec).symm
        simp [hcid]
  · intro j sj hj hd
    obtain ⟨sj', hj', howner, -⟩ := hscopes hj
    obtain ⟨r, hr, hrf, hrs⟩ := h.owner j sj' hj' (by simp)
    have hid : sj'.owner ≠ id := by
      rintro hid
      exact hd (by rw [howner, hid])
    rw [howner]
    exact ⟨r, by simpa [hid] using hr, hrf, hrs⟩
  · intro t r ht hr
    have key : ∀ i, (∃ sj, s.scopes i = some sj ∧ t ∈ sj.children) →
        ∃ sj, Function.update s.scopes rec.scope
          (some { sc with unfinished := sc.unfinished - 1 }) i = some sj ∧ t ∈ sj.children := by
      rintro i ⟨sj, hj, hmemj⟩
      by_cases hi : i = rec.scope
      · subst hi
        rw [hsc, Option.some.injEq] at hj
        exact ⟨_, Function.update_self .., hj ▸ hmemj⟩
      · exact ⟨sj, by rwa [Function.update_of_ne hi], hmemj⟩
    rcases update_eq_some_iff.1 hr with ⟨rfl, rfl⟩ | ⟨-, hr⟩
    · exact key _ (hscope ▸ h.child _ _ ht hrec)
    · exact key _ (h.child t r ht hr)
  · show s.live - 1 = _
    rw [h.live, ← Finset.card_erase_of_mem (h.mem_liveTasks hrec hroot hfin)]
    refine congrArg Finset.card ?_
    ext t
    rw [Finset.mem_erase, Scheduler.mem_liveTasks, Scheduler.mem_liveTasks]
    by_cases ht : t = id
    · simp [ht, Scheduler.unfinished, hfin']
    · simp [ht, Scheduler.unfinished]
  · intro t
    by_cases ht : t = id
    · subst ht
      simp [hqueue, Scheduler.isReady, hstate.1]
    · simp [h.queue_iff, Scheduler.isReady, ht]
  · intro t r hr
    rcases update_eq_some_iff.1 hr with ⟨rfl, rfl⟩ | ⟨-, hr⟩
    · simp [hstate.2, hnotrun]
    · exact h.running t r hr
  · intro t ht
    have htid : t ≠ id := by
      rintro rfl
      exact hnotrun ht
    obtain ⟨r, hr⟩ := h.run_some t ht
    exact ⟨r, by simpa [htid] using hr⟩
  · rintro t ⟨ht, htid⟩
    simpa [Scheduler.isReady, htid] using h.held_ready t ht

end Finish

/-! ### Forgetting the scopes of a finished task -/

section RemoveScopes

variable {i j : ScopeId} {id t : TaskId}

theorem childrenFinished_removeScope (h : s.childrenFinished i = true) :
    (s.removeScope j).childrenFinished i = true := by
  unfold Scheduler.childrenFinished at h ⊢
  rw [removeScope_scopes]
  by_cases hij : i = j
  · simp [hij]
  · rwa [Function.update_of_ne hij]

theorem Inv.removeScope_of_finished (h : Inv s held run dying)
    (hi : s.childrenFinished i = true) : Inv (s.removeScope i) held run dying := by
  rcases hsc : s.scopes i with - | sc
  · rwa [show s.removeScope i = s by simp [Scheduler.removeScope, hsc]]
  · refine h.removeScope hsc ?_
    simpa [Scheduler.childrenFinished, hsc] using hi

theorem Inv.removeScopes (l : List ScopeId) (h : Inv s held run dying)
    (hl : ∀ i ∈ l, s.childrenFinished i = true) :
    Inv (l.foldl Scheduler.removeScope s) held run dying := by
  induction l generalizing s with
  | nil => exact h
  | cons i l ih =>
    refine ih (h.removeScope_of_finished (hl i List.mem_cons_self)) fun j hj ↦ ?_
    exact childrenFinished_removeScope (hl j (List.mem_cons_of_mem i hj))

theorem removeScopes_scopes (l : List ScopeId) (s : Scheduler) (i : ScopeId) :
    (l.foldl Scheduler.removeScope s).scopes i = if i ∈ l then none else s.scopes i := by
  induction l generalizing s with
  | nil => rfl
  | cons j l ih =>
    rw [List.foldl_cons, ih, removeScope_scopes]
    by_cases hl : i ∈ l
    · simp [hl]
    · by_cases hij : i = j
      · simp [hij]
      · simp [hl, hij]

/-- A task that is no child of the scopes forgotten keeps its record. -/
theorem removeScopes_tasks (l : List ScopeId) (s : Scheduler)
    (h : ∀ i ∈ l, ∀ sc, s.scopes i = some sc → t ∉ sc.children) :
    (l.foldl Scheduler.removeScope s).tasks t = s.tasks t := by
  induction l generalizing s with
  | nil => rfl
  | cons j l ih =>
    rw [List.foldl_cons, ih]
    · rcases hsc : s.scopes j with - | sc
      · simp [Scheduler.removeScope, hsc]
      · rw [removeScope_tasks hsc]
        simp [h j List.mem_cons_self sc hsc]
    · intro i hi sc hsc
      rw [removeScope_scopes] at hsc
      by_cases hij : i = j
      · simp [hij] at hsc
      · rw [Function.update_of_ne hij] at hsc
        exact h i (List.mem_cons_of_mem j hi) sc hsc

theorem mem_scopesOwnedBy :
    i ∈ s.scopesOwnedBy id ↔ i ∈ s.scopeOrder ∧ ∃ sc, s.scopes i = some sc ∧ sc.owner = id := by
  simp [Scheduler.scopesOwnedBy, Option.any_eq_true]

theorem Inv.mem_scopesOwnedBy (h : Inv s held run dying) :
    i ∈ s.scopesOwnedBy id ↔ ∃ sc, s.scopes i = some sc ∧ sc.owner = id := by
  rw [Task.mem_scopesOwnedBy]
  refine ⟨And.right, fun hsc ↦ ⟨?_, hsc⟩⟩
  obtain ⟨sc, hsc, -⟩ := hsc
  exact (h.order_iff i).2 (by simp [hsc])

/-- Once the scopes of the finished task are forgotten, nothing dies. -/
theorem Inv.dead (h : Inv s held run (some id))
    (hnone : ∀ i sc, s.scopes i = some sc → sc.owner ≠ id) : Inv s held run none :=
  { h with
    owner := fun i sc hi _ ↦ h.owner i sc hi fun hd ↦ hnone i sc hi (Option.some.inj hd).symm }

/-- **Forgetting every scope a finished task opened.** Its own record stays. -/
theorem Inv.removeOwned (h : Inv s held run (some id)) (hdone : s.ownedChildrenFinished id = true) :
    Inv ((s.scopesOwnedBy id).foldl Scheduler.removeScope s) held run none ∧
      ((s.scopesOwnedBy id).foldl Scheduler.removeScope s).tasks id = s.tasks id := by
  constructor
  · refine (h.removeScopes _ (List.all_eq_true.1 hdone)).dead fun i sc hi hown ↦ ?_
    rw [removeScopes_scopes] at hi
    split at hi
    · simp at hi
    · rename_i hnot
      exact hnot (h.mem_scopesOwnedBy.2 ⟨sc, hi, hown⟩)
  · refine removeScopes_tasks _ s fun i hi sc hsc hc ↦ ?_
    obtain ⟨sc', hsc', hown⟩ := h.mem_scopesOwnedBy.1 hi
    rw [hsc, Option.some.injEq] at hsc'
    have hlt := ((h.scope i sc hsc).child id hc).1
    rw [hsc', hown] at hlt
    exact lt_irrefl id hlt

end RemoveScopes

/-! ### `finalize` -/

section Finalize

variable {id : TaskId} {rec : TaskRec} {state : TaskState}

/-- The counters of a task's scope going down keeps children finished. -/
theorem ownedChildrenFinished_finish (h : Inv s held run dying) {rec' : TaskRec}
    (hdone : s.ownedChildrenFinished id = true) (i : ScopeId) :
    (s.finish id rec' i).ownedChildrenFinished id = true := by
  unfold Scheduler.ownedChildrenFinished at hdone ⊢
  rw [List.all_eq_true] at hdone ⊢
  intro j hj
  obtain ⟨hord, sc, hsc, hown⟩ := mem_scopesOwnedBy.1 hj
  have hsc' : ∃ sc', s.scopes j = some sc' ∧ sc'.owner = id ∧
      (sc'.unfinished = 0 → sc.unfinished = 0) := by
    rcases hi : s.scopes i with - | si
    · refine ⟨sc, ?_, hown, fun h ↦ h⟩
      simpa [Scheduler.finish, Scheduler.decUnfinished, Scheduler.decLive, hi] using hsc
    · by_cases hij : j = i
      · subst hij
        refine ⟨si, hi, ?_⟩
        have : sc = { si with unfinished := si.unfinished - 1 } := by
          simpa [Scheduler.finish, Scheduler.decUnfinished, Scheduler.decLive, hi,
            Scheduler.setScope, eq_comm] using hsc
        subst this
        exact ⟨hown, fun h ↦ by simp [h]⟩
      · refine ⟨sc, ?_, hown, fun h ↦ h⟩
        simpa [Scheduler.finish, Scheduler.decUnfinished, Scheduler.decLive, hi,
          Scheduler.setScope, hij] using hsc
  obtain ⟨sc', hsc', hown', hzero⟩ := hsc'
  have := hdone j (h.mem_scopesOwnedBy.2 ⟨sc', hsc', hown'⟩)
  simp only [Scheduler.childrenFinished, hsc, hsc', beq_iff_eq] at this ⊢
  exact hzero this

/-- The state a task may be finished from: its frames are gone, or it never ran and was taken off the
run queue. -/
def Finishing (held : TaskId → Prop) (id : TaskId) (rec : TaskRec) : Prop :=
  rec.state = .ending ∨ rec.state = .ready ∧ held id

theorem Finishing.not_finished (h : Finishing held id rec) : rec.state.finished = false := by
  rcases h with hst | ⟨hst, -⟩ <;> simp [hst, TaskState.finished]

theorem settle_eq (hfrom : Finishing held id rec) (hfin : state.finished = true) :
    s.settle id rec state = ((s.finish id { rec with state := state, ending := none }
      rec.scope).scopesOwnedBy id).foldl Scheduler.removeScope
        (s.finish id { rec with state := state, ending := none } rec.scope) := by
  simp [Scheduler.settle, hfrom.not_finished, hfin, Scheduler.finish]

/-- The first stage of `settle`, with what the second stage needs. -/
theorem Inv.finishing (h : Inv s held run none) (hrec : s.tasks id = some rec)
    (hroot : id ≠ Task.root) (hfrom : Finishing held id rec) (hfin : state.finished = true)
    (hdone : s.ownedChildrenFinished id = true) :
    Inv (s.finish id { rec with state := state, ending := none } rec.scope)
        (fun t ↦ held t ∧ t ≠ id) run (some id) ∧
      (s.finish id { rec with state := state, ending := none } rec.scope).ownedChildrenFinished
        id = true := by
  have hok := h.task id rec hrec
  have hst : rec.state ≠ .running ∧ rec.state ≠ .blocked := by
    rcases hfrom with hst | ⟨hst, -⟩ <;> simp [hst]
  have hqueue : id ∉ s.runQueue := by
    rw [h.queue_iff]
    rcases hfrom with hst | ⟨-, hheld⟩
    · simp [Scheduler.isReady, hrec, hst]
    · simp [hheld]
  have hblock : rec.block = none := by
    rw [← Option.not_isSome_iff_eq_none, ← hok.blocked_iff]
    exact hst.2
  have hstates : state ≠ .blocked ∧ state ≠ .ending ∧ state ≠ .running := by
    refine ⟨?_, ?_, ?_⟩ <;> intro hs <;> simp [hs, TaskState.finished] at hfin
  have hok' : TaskOk id { rec with state := state, ending := none } :=
    ⟨by simp [hblock, hstates], by simp [hstates], by simp, by simp [hstates],
      hok.cancel_started, fun hid ↦ absurd hid hroot⟩
  exact ⟨h.finish hrec hroot hfrom.not_finished hst.1 hqueue rfl hfin hok',
    ownedChildrenFinished_finish h hdone rec.scope⟩

theorem Inv.settle (h : Inv s held run none) (hrec : s.tasks id = some rec)
    (hroot : id ≠ Task.root) (hfrom : Finishing held id rec) (hfin : state.finished = true)
    (hdone : s.ownedChildrenFinished id = true) :
    Inv (s.settle id rec state) (fun t ↦ held t ∧ t ≠ id) run none ∧
      (s.settle id rec state).tasks id = some { rec with state := state, ending := none } := by
  obtain ⟨hf, hdone'⟩ := h.finishing hrec hroot hfrom hfin hdone
  obtain ⟨hr, htasks⟩ := hf.removeOwned hdone'
  rw [settle_eq hfrom hfin]
  refine ⟨hr, htasks.trans ?_⟩
  unfold Scheduler.finish Scheduler.decUnfinished
  split <;> simp [Scheduler.decLive, Scheduler.setScope]

theorem doneOwner_eq_some {i : ScopeId} {owner : TaskId} (h : s.doneOwner i = some (owner, rec)) :
    s.ownedChildrenFinished owner = true ∧ s.tasks owner = some rec := by
  unfold Scheduler.doneOwner at h
  split at h
  · split at h
    · rename_i hdone
      obtain ⟨r, hr, heq⟩ := Option.map_eq_some_iff.1 h
      obtain ⟨rfl, rfl⟩ := Prod.mk.inj heq
      exact ⟨hdone, hr⟩
    · simp at h
  · simp at h

@[simp] theorem wakeWaiters_scopes (s : Scheduler) (id : TaskId) (rec : TaskRec) :
    (s.wakeWaiters id rec).scopes = s.scopes := by
  simp [Scheduler.wakeWaiters]

theorem Inv.wakeWaiters (h : Inv s held run dying) (hrec : s.tasks id = some rec) :
    Inv (s.wakeWaiters id rec) held run dying := by
  have hok := h.task id rec hrec
  have h₁ : Inv (s.setTask id { rec with joiners := [] }) held run dying :=
    h.touch_data hrec rfl rfl (fun h ↦ h)
      ⟨hok.1, hok.2, hok.3, hok.4, hok.5, hok.6⟩
  exact (h₁.wakeAll _ _ _).checkScopeDone _

/-- A task's scope is owned by an older task. -/
theorem Inv.owner_lt (h : Inv s held run dying) (hroot : id ≠ Task.root)
    (hrec : s.tasks id = some rec) {i : ScopeId} (hi : rec.scope = i) {owner : TaskId}
    {ownerRec : TaskRec} {s' : Scheduler} (hscopes : s'.scopes = s.scopes)
    (howner : s'.doneOwner i = some (owner, ownerRec)) : owner < id := by
  obtain ⟨sc, hsc, hmem⟩ := h.child id rec hroot hrec
  subst hi
  have hlt := ((h.scope _ sc hsc).child id hmem).1
  unfold Scheduler.doneOwner at howner
  rw [hscopes, hsc] at howner
  simp only at howner
  split at howner
  · obtain ⟨r, -, heq⟩ := Option.map_eq_some_iff.1 howner
    exact (Prod.mk.inj heq).1 ▸ hlt
  · simp at howner

/-- **Finishing a task keeps the invariant**, whatever owners finish with it. -/
theorem Inv.finalize (id : TaskId) (h : Inv s held run none) (hrec : s.tasks id = some rec)
    (hroot : id ≠ Task.root) (hfrom : Finishing held id rec) (hfin : state.finished = true)
    (hdone : s.ownedChildrenFinished id = true) :
    Inv (s.finalize id state) (fun t ↦ held t ∧ t ≠ id) run none := by
  induction id using Nat.strong_induction_on generalizing s held rec state with
  | _ id ih =>
  obtain ⟨h₁, hrec₁⟩ := h.settle hrec hroot hfrom hfin hdone
  rw [Scheduler.finalize, hrec]
  simp only [hrec₁]
  have h₂ := h₁.wakeWaiters hrec₁
  split
  · exact h₂
  · rename_i owner ownerRec howner
    obtain ⟨hdone', howner'⟩ : _ ∧ _ := doneOwner_eq_some howner
    split
    · rename_i final hend
      split
      · rename_i hlt
        have hok := h₂.task owner ownerRec howner'
        have hending : ownerRec.state = .ending := hok.ending_iff.2 (by simp [hend])
        have hne : owner ≠ Task.root := fun ho ↦ (hok.root_alive ho).2.1 hending
        refine (ih owner hlt h₂ howner' hne (.inl hending) (hok.ending_finished _ hend)
          hdone').held_congr fun t ↦ ⟨And.left, fun ht ↦ ⟨ht, ?_⟩⟩
        rintro rfl
        have := h₂.held_ready t ht
        simp [Scheduler.isReady, howner', hending] at this
      · rename_i hnot
        exact absurd (h₁.owner_lt hroot hrec₁ rfl (wakeWaiters_scopes ..) howner) hnot
    · split
      · exact h₂.makeReady _ _
      · exact h₂

/-- **Induction over a finish**: what each of its parts keeps, the whole keeps. -/
theorem Inv.finalize_induction (P : Scheduler → Prop)
    (hsettle : ∀ {s held id rec state}, Inv s held run none → s.tasks id = some rec →
      id ≠ Task.root → Finishing held id rec → state.finished = true →
      s.ownedChildrenFinished id = true → P s → P (s.settle id rec state))
    (hwake : ∀ {s held id rec}, Inv s held run none → s.tasks id = some rec →
      rec.state.finished = true → P s → P (s.wakeWaiters id rec))
    (hready : ∀ {s held id rec}, Inv s held run none → s.tasks id = some rec →
      rec.block = some .cancel → P s → P (s.makeReady id .unit))
    (id : TaskId) (h : Inv s held run none) (hrec : s.tasks id = some rec)
    (hroot : id ≠ Task.root) (hfrom : Finishing held id rec) (hfin : state.finished = true)
    (hdone : s.ownedChildrenFinished id = true) (hP : P s) : P (s.finalize id state) := by
  induction id using Nat.strong_induction_on generalizing s held rec state with
  | _ id ih =>
  obtain ⟨h₁, hrec₁⟩ := h.settle hrec hroot hfrom hfin hdone
  have hP₂ := hwake h₁ hrec₁ hfin (hsettle h hrec hroot hfrom hfin hdone hP)
  rw [Scheduler.finalize, hrec]
  simp only [hrec₁]
  have h₂ := h₁.wakeWaiters hrec₁
  split
  · exact hP₂
  · rename_i owner ownerRec howner
    obtain ⟨hdone', howner'⟩ := doneOwner_eq_some howner
    split
    · rename_i final hend
      split
      · rename_i hlt
        have hok := h₂.task owner ownerRec howner'
        have hending : ownerRec.state = .ending := hok.ending_iff.2 (by simp [hend])
        have hne : owner ≠ Task.root := fun ho ↦ (hok.root_alive ho).2.1 hending
        exact ih owner hlt h₂ howner' hne (.inl hending) (hok.ending_finished _ hend) hdone' hP₂
      · exact hP₂
    · split
      · rename_i hcancel
        exact hready h₂ howner' hcancel hP₂
      · exact hP₂

/-! ### The current task is left alone -/

@[simp] theorem removeScope_current (s : Scheduler) (i : ScopeId) :
    (s.removeScope i).current = s.current := by
  unfold Scheduler.removeScope
  split <;> rfl

@[simp] theorem settle_current (s : Scheduler) (id : TaskId) (rec : TaskRec) (state : TaskState) :
    (s.settle id rec state).current = s.current := by
  unfold Scheduler.settle
  refine List.foldlRecOn (motive := fun s' ↦ s'.current = s.current) _ _ ?_
    fun s' h i _ ↦ (removeScope_current s' i).trans h
  split
  · unfold Scheduler.decUnfinished
    split <;> rfl
  · rfl

@[simp] theorem wakeWaiters_current (s : Scheduler) (id : TaskId) (rec : TaskRec) :
    (s.wakeWaiters id rec).current = s.current := by
  simp [Scheduler.wakeWaiters, Scheduler.setTask]

@[simp] theorem finalize_current (s : Scheduler) (id : TaskId) (state : TaskState) :
    (s.finalize id state).current = s.current := by
  induction id using Nat.strong_induction_on generalizing s state with
  | _ id ih =>
  rw [Scheduler.finalize]
  split
  · rfl
  · simp only
    split
    · exact settle_current ..
    · split
      · simp
      · split
        · split
          · rename_i hlt
            simp [ih _ hlt]
          · simp
        · split <;> simp

end Finalize

end CoilLang.Task
