import Mathlib.Data.Finset.Card
import CoilLang.Machine.VmTask

/-!
# The scheduler's bookkeeping

The invariant that every operation of the scheduler keeps (`Inv`), and what it says about the waits
(`Waits`).

Operations go through states in which the invariant does not quite hold. These are covered by its
parameters: `held`, the tasks taken off the run queue to be run or dropped; `run`, the task that is
running, if any; `dying`, the task that is being finished and whose scopes have not been forgotten
yet. At the head of the loop and while a task runs, nothing is held and nothing dies.

Most operations write one task's record and perhaps the run queue. `Inv.touch` says once when this
keeps the invariant. What is left are the operations that change the tree of tasks and scopes:
opening a scope, spawning, and finishing a task, which forgets its scopes and may finish the owner of
its own scope in turn.
-/

namespace CoilLang.Task

namespace Scheduler

variable (s : Scheduler)

/-- The task is there and has not finished. -/
def unfinished (id : TaskId) : Bool :=
  (s.tasks id).any fun rec ↦ !rec.state.finished

/-- The task is there and ready. -/
def isReady (id : TaskId) : Bool :=
  (s.tasks id).any fun rec ↦ rec.state == .ready

theorem isReady_iff {s : Scheduler} {id : TaskId} :
    s.isReady id = true ↔ ∃ rec, s.tasks id = some rec ∧ rec.state = .ready := by
  simp [isReady, Option.any_eq_true]

/-- The child tasks not finished yet. -/
def liveTasks : Finset TaskId :=
  (Finset.range s.nextTask).filter fun id ↦ id ≠ root ∧ s.unfinished id = true

theorem mem_liveTasks {s : Scheduler} {id : TaskId} :
    id ∈ s.liveTasks ↔ id < s.nextTask ∧ id ≠ root ∧ s.unfinished id = true := by
  simp [liveTasks]

end Scheduler

/-- What holds of each task's record. -/
structure TaskOk (id : TaskId) (rec : TaskRec) : Prop where
  blocked_iff : rec.state = .blocked ↔ rec.block.isSome = true
  ending_iff : rec.state = .ending ↔ rec.ending.isSome = true
  ending_finished : ∀ st, rec.ending = some st → st.finished = true
  started : rec.state = .running ∨ rec.state = .blocked → rec.started = true ∨ id = root
  cancel_started : rec.cancel ≠ .none → rec.started = true
  root_alive : id = root → rec.state.finished = false ∧ rec.state ≠ .ending ∧ rec.cancel = .none

/-- What holds of each open scope: its children are there, younger than its owner, and counted. -/
structure ScopeOk (s : Scheduler) (i : ScopeId) (sc : ScopeRec) : Prop where
  nodup : sc.children.Nodup
  child : ∀ c ∈ sc.children, sc.owner < c ∧ ∃ rec, s.tasks c = some rec ∧ rec.scope = i
  count : sc.unfinished = (sc.children.filter s.unfinished).length

/-- The scheduler's invariant. -/
structure Inv (s : Scheduler) (held : TaskId → Prop) (run dying : Option TaskId) : Prop where
  task : ∀ id rec, s.tasks id = some rec → TaskOk id rec
  root : ∃ rec, s.tasks root = some rec
  task_lt : ∀ id rec, s.tasks id = some rec → id < s.nextTask
  scope_lt : ∀ i sc, s.scopes i = some sc → i < s.nextScope
  order_nodup : s.scopeOrder.Nodup
  order_iff : ∀ i, i ∈ s.scopeOrder ↔ (s.scopes i).isSome = true
  scope : ∀ i sc, s.scopes i = some sc → ScopeOk s i sc
  owner : ∀ i sc, s.scopes i = some sc → dying ≠ some sc.owner →
    ∃ rec, s.tasks sc.owner = some rec ∧ rec.state.finished = false ∧
      (rec.started = true ∨ sc.owner = Task.root)
  child : ∀ id rec, id ≠ Task.root → s.tasks id = some rec →
    ∃ sc, s.scopes rec.scope = some sc ∧ id ∈ sc.children
  live : s.live = s.liveTasks.card
  underflow : s.underflow = false
  queue_nodup : s.runQueue.Nodup
  queue_iff : ∀ id, id ∈ s.runQueue ↔ s.isReady id = true ∧ ¬ held id
  running : ∀ id rec, s.tasks id = some rec → (rec.state = .running ↔ run = some id)
  run_some : ∀ id, run = some id → ∃ rec, s.tasks id = some rec
  held_ready : ∀ id, held id → s.isReady id = true

/-! ### Writing one record -/

section Touch

variable {s : Scheduler} {id : TaskId} {rec rec' : TaskRec}

@[simp] theorem setTask_tasks (s : Scheduler) (id : TaskId) (rec : TaskRec) :
    (s.setTask id rec).tasks = Function.update s.tasks id (some rec) := rfl

@[simp] theorem setTask_scopes (s : Scheduler) (id : TaskId) (rec : TaskRec) :
    (s.setTask id rec).scopes = s.scopes := rfl

theorem update_eq_some_iff {s : Scheduler} {id t : TaskId} {r rec : TaskRec} :
    Function.update s.tasks id (some r) t = some rec ↔
      (t = id ∧ r = rec) ∨ (t ≠ id ∧ s.tasks t = some rec) := by
  by_cases h : t = id
  · simp [h]
  · simp [h]

/-- A record that is written over keeps whether the task is finished: no task's is changed. -/
theorem unfinished_update (hrec : s.tasks id = some rec)
    (hfin : rec'.state.finished = rec.state.finished) (t : TaskId) :
    (Function.update s.tasks id (some rec') t).any (fun r ↦ !r.state.finished) =
      s.unfinished t := by
  by_cases h : t = id
  · subst h
    simp [Scheduler.unfinished, hrec, hfin]
  · simp [Scheduler.unfinished, h]

/-- **Writing one record** keeps the invariant, with a new run queue that differs at that task only,
when the task stays in its scope, is finished as before and stays started. -/
theorem Inv.touch {held held' : TaskId → Prop} {run run' dying : Option TaskId}
    (h : Inv s held run dying) (hrec : s.tasks id = some rec) (q : List TaskId)
    (hscope : rec'.scope = rec.scope) (hfin : rec'.state.finished = rec.state.finished)
    (hstart : rec.started = true → rec'.started = true) (hok : TaskOk id rec')
    (hnodup : q.Nodup) (hself : id ∈ q ↔ rec'.state = .ready ∧ ¬ held' id)
    (hother : ∀ t, t ≠ id → (t ∈ q ↔ t ∈ s.runQueue) ∧ (held' t ↔ held t))
    (hheld : held' id → rec'.state = .ready) (hrun : rec'.state = .running ↔ run' = some id)
    (hrun' : ∀ t, t ≠ id → (run' = some t ↔ run = some t)) :
    Inv { s.setTask id rec' with runQueue := q } held' run' dying where
  task t r ht := by
    rcases update_eq_some_iff.1 ht with ⟨rfl, rfl⟩ | ⟨-, ht⟩
    · exact hok
    · exact h.task t r ht
  root := by
    obtain ⟨r, hr⟩ := h.root
    by_cases hid : Task.root = id
    · exact ⟨rec', by simp [hid]⟩
    · exact ⟨r, by simpa [hid] using hr⟩
  task_lt t r ht := by
    rcases update_eq_some_iff.1 ht with ⟨rfl, rfl⟩ | ⟨-, ht⟩
    · exact h.task_lt _ _ hrec
    · exact h.task_lt t r ht
  scope_lt := h.scope_lt
  order_nodup := h.order_nodup
  order_iff := h.order_iff
  scope i sc hi := by
    obtain ⟨hnd, hchild, hcount⟩ := h.scope i sc hi
    refine ⟨hnd, fun c hc ↦ ⟨(hchild c hc).1, ?_⟩, ?_⟩
    · obtain ⟨r, hr, hri⟩ := (hchild c hc).2
      by_cases hcid : c = id
      · subst hcid
        rw [hrec, Option.some.injEq] at hr
        exact ⟨rec', by simp, by rw [hscope, hr, hri]⟩
      · exact ⟨r, by simpa [hcid] using hr, hri⟩
    · rw [hcount]
      congr 1
      exact List.filter_congr fun c _ ↦ (unfinished_update hrec hfin c).symm
  owner i sc hi hd := by
    obtain ⟨r, hr, hrf, hrs⟩ := h.owner i sc hi hd
    by_cases hid : sc.owner = id
    · rw [hid, hrec, Option.some.injEq] at hr
      subst hr
      exact ⟨rec', by simp [hid], hfin.trans hrf, hrs.imp_left hstart⟩
    · exact ⟨r, by simpa [hid] using hr, hrf, hrs⟩
  child t r ht hr := by
    rcases update_eq_some_iff.1 hr with ⟨rfl, rfl⟩ | ⟨-, hr⟩
    · rw [hscope]
      exact h.child _ _ ht hrec
    · exact h.child t r ht hr
  live := by
    refine h.live.trans (congrArg Finset.card ?_)
    refine Finset.filter_congr fun t _ ↦ ?_
    rw [← unfinished_update hrec hfin t]
    rfl
  underflow := h.underflow
  queue_nodup := hnodup
  queue_iff t := by
    by_cases ht : t = id
    · subst ht
      simpa [Scheduler.isReady] using hself
    · rw [show t ∈ _ ↔ _ from (hother t ht).1, h.queue_iff t, (hother t ht).2]
      simp [Scheduler.isReady, ht]
  running t r hr := by
    rcases update_eq_some_iff.1 hr with ⟨rfl, rfl⟩ | ⟨hne, hr⟩
    · exact hrun
    · rw [h.running t r hr, hrun' t hne]
  run_some t ht := by
    by_cases hid : t = id
    · exact ⟨rec', by simp [hid]⟩
    · obtain ⟨r, hr⟩ := h.run_some t ((hrun' t hid).1 ht)
      exact ⟨r, by simpa [hid] using hr⟩
  held_ready t ht := by
    by_cases hid : t = id
    · subst hid
      simpa [Scheduler.isReady] using hheld ht
    · simpa [Scheduler.isReady, hid] using h.held_ready t ((hother t hid).2.1 ht)

/-- The same with the run queue as it was. -/
theorem Inv.touch_same {held : TaskId → Prop} {run run' dying : Option TaskId}
    (h : Inv s held run dying) (hrec : s.tasks id = some rec)
    (hscope : rec'.scope = rec.scope) (hfin : rec'.state.finished = rec.state.finished)
    (hstart : rec.started = true → rec'.started = true) (hok : TaskOk id rec')
    (hready : rec'.state = .ready ↔ rec.state = .ready)
    (hrun : rec'.state = .running ↔ run' = some id)
    (hrun' : ∀ t, t ≠ id → (run' = some t ↔ run = some t)) :
    Inv (s.setTask id rec') held run' dying := by
  refine h.touch hrec s.runQueue hscope hfin hstart hok h.queue_nodup ?_
    (fun _ _ ↦ ⟨Iff.rfl, Iff.rfl⟩) ?_ hrun hrun'
  · rw [h.queue_iff, hready]
    simp [Scheduler.isReady, hrec]
  · intro hid
    rw [hready]
    simpa [Scheduler.isReady, hrec] using h.held_ready id hid

/-- The same when the task's state stays too. -/
theorem Inv.touch_data {held : TaskId → Prop} {run dying : Option TaskId}
    (h : Inv s held run dying) (hrec : s.tasks id = some rec)
    (hscope : rec'.scope = rec.scope) (hstate : rec'.state = rec.state)
    (hstart : rec.started = true → rec'.started = true) (hok : TaskOk id rec') :
    Inv (s.setTask id rec') held run dying :=
  h.touch_same hrec hscope (by rw [hstate]) hstart hok (by rw [hstate])
    (by rw [hstate, h.running id rec hrec]) fun _ _ ↦ Iff.rfl

/-- A blocked task made ready goes to the back of the run queue. -/
theorem Inv.touch_wake {held : TaskId → Prop} {run dying : Option TaskId}
    (h : Inv s held run dying) (hrec : s.tasks id = some rec) (hb : rec.state = .blocked)
    (hscope : rec'.scope = rec.scope) (hstart : rec'.started = rec.started)
    (hready : rec'.state = .ready) (hblock : rec'.block = none) (hend : rec'.ending = rec.ending)
    (hcancel : rec'.cancel ≠ .none → rec.started = true)
    (hroot : id = Task.root → rec'.cancel = .none) :
    Inv { s.setTask id rec' with runQueue := s.runQueue ++ [id] } held run dying := by
  have hok := h.task id rec hrec
  have hnot : id ∉ s.runQueue := by
    rw [h.queue_iff]
    simp [Scheduler.isReady, hrec, hb]
  have hheld : ¬ held id := by
    intro hid
    have := h.held_ready id hid
    simp [Scheduler.isReady, hrec, hb] at this
  have hend' : rec.ending = none := by
    rw [← Option.not_isSome_iff_eq_none, ← hok.ending_iff, hb]
    simp
  refine h.touch hrec _ hscope (by simp [hready, hb, TaskState.finished]) (by simp [hstart]) ?_
    (h.queue_nodup.append (by simp) (by simpa using hnot)) (by simp [hready, hheld]) ?_
    (fun _ ↦ hready) ?_ fun _ _ ↦ Iff.rfl
  · refine ⟨by simp [hready, hblock], by simp [hready, hend, hend'], ?_, by simp [hready], ?_, ?_⟩
    · intro st hst
      rw [hend, hend'] at hst
      simp at hst
    · intro hc
      rw [hstart]
      exact hcancel hc
    · intro hid
      exact ⟨by simp [hready, TaskState.finished], by simp [hready], hroot hid⟩
  · intro t ht
    simp [ht]
  · rw [hready, ← h.running id rec hrec, hb]
    simp

end Touch

/-! ### Operations that leave the tree alone -/

section Frame

variable {s s' : Scheduler} {held : TaskId → Prop} {run dying : Option TaskId}

/-- The invariant is about the tasks, the scopes, the run queue and the counters alone. -/
theorem Inv.frame (h : Inv s held run dying) (htasks : s'.tasks = s.tasks)
    (hscopes : s'.scopes = s.scopes) (horder : s'.scopeOrder = s.scopeOrder)
    (hqueue : s'.runQueue = s.runQueue) (hlive : s'.live = s.live)
    (hnext : s'.nextTask = s.nextTask) (hnext' : s'.nextScope = s.nextScope)
    (hunder : s'.underflow = s.underflow) : Inv s' held run dying := by
  have hunf : s'.unfinished = s.unfinished := by
    funext t
    rw [Scheduler.unfinished, Scheduler.unfinished, htasks]
  have hready : s'.isReady = s.isReady := by
    funext t
    rw [Scheduler.isReady, Scheduler.isReady, htasks]
  obtain ⟨h₁, h₂, h₃, h₄, h₅, h₆, h₇, h₈, h₉, h₁₀, h₁₁, h₁₂, h₁₃, h₁₄, h₁₅, h₁₆⟩ := h
  refine ⟨?_, ?_, ?_, ?_, ?_, ?_, fun i sc hi ↦ ?_, ?_, ?_, ?_, ?_, ?_, ?_, ?_, ?_, ?_⟩
  · rwa [htasks]
  · rwa [htasks]
  · rwa [htasks, hnext]
  · rwa [hscopes, hnext']
  · rwa [horder]
  · rwa [horder, hscopes]
  · rw [hscopes] at hi
    obtain ⟨hnd, hchild, hcount⟩ := h₇ i sc hi
    exact ⟨hnd, by rwa [htasks], by rwa [hunf]⟩
  · rwa [hscopes, htasks]
  · rwa [hscopes, htasks]
  · rw [hlive, h₁₀, Scheduler.liveTasks, Scheduler.liveTasks, hnext, hunf]
  · rwa [hunder]
  · rwa [hqueue]
  · rwa [hqueue, hready]
  · rwa [htasks]
  · rwa [htasks]
  · rwa [hready]

theorem Inv.held_congr {held' : TaskId → Prop} (h : Inv s held run dying)
    (heq : ∀ t, held t ↔ held' t) : Inv s held' run dying := by
  rwa [show held' = held from funext fun t ↦ propext (heq t).symm]

@[simp] theorem makeReady_scopes (s : Scheduler) (id : TaskId) (wake : Wake) :
    (s.makeReady id wake).scopes = s.scopes := by
  unfold Scheduler.makeReady
  split
  · split <;> rfl
  · rfl

@[simp] theorem wakeIf_scopes (s : Scheduler) (b : Block) (wake : Wake) (j : TaskId) :
    (s.wakeIf b wake j).scopes = s.scopes := by
  unfold Scheduler.wakeIf
  split
  · exact makeReady_scopes ..
  · rfl

@[simp] theorem wakeAll_scopes (s : Scheduler) (b : Block) (wake : Wake) (ids : List TaskId) :
    (s.wakeAll b wake ids).scopes = s.scopes :=
  List.foldlRecOn (motive := fun s' ↦ s'.scopes = s.scopes) ids _ rfl
    fun s' h j _ ↦ (wakeIf_scopes s' b wake j).trans h

@[simp] theorem checkScopeDone_scopes (s : Scheduler) (i : ScopeId) :
    (s.checkScopeDone i).scopes = s.scopes := by
  unfold Scheduler.checkScopeDone
  split
  · split
    · rfl
    · exact wakeIf_scopes ..
  · rfl

@[simp] theorem makeReady_current (s : Scheduler) (id : TaskId) (wake : Wake) :
    (s.makeReady id wake).current = s.current := by
  unfold Scheduler.makeReady
  split
  · split <;> rfl
  · rfl

@[simp] theorem wakeIf_current (s : Scheduler) (b : Block) (wake : Wake) (j : TaskId) :
    (s.wakeIf b wake j).current = s.current := by
  unfold Scheduler.wakeIf
  split
  · exact makeReady_current ..
  · rfl

@[simp] theorem wakeAll_current (s : Scheduler) (b : Block) (wake : Wake) (ids : List TaskId) :
    (s.wakeAll b wake ids).current = s.current :=
  List.foldlRecOn (motive := fun s' ↦ s'.current = s.current) ids _ rfl
    fun s' h j _ ↦ (wakeIf_current s' b wake j).trans h

@[simp] theorem checkScopeDone_current (s : Scheduler) (i : ScopeId) :
    (s.checkScopeDone i).current = s.current := by
  unfold Scheduler.checkScopeDone
  split
  · split
    · rfl
    · exact wakeIf_current ..
  · rfl

theorem Inv.makeReady (h : Inv s held run dying) (id : TaskId) (wake : Wake) :
    Inv (s.makeReady id wake) held run dying := by
  unfold Scheduler.makeReady
  split
  · rename_i rec hrec
    split
    · rename_i hb
      have hok := h.task id rec hrec
      exact h.touch_wake hrec hb rfl rfl rfl rfl rfl hok.cancel_started
        fun hid ↦ (hok.root_alive hid).2.2
    · exact h
  · exact h

theorem Inv.wakeIf (h : Inv s held run dying) (b : Block) (wake : Wake) (j : TaskId) :
    Inv (s.wakeIf b wake j) held run dying := by
  unfold Scheduler.wakeIf
  split
  · exact h.makeReady j wake
  · exact h

theorem Inv.wakeAll (h : Inv s held run dying) (b : Block) (wake : Wake) (ids : List TaskId) :
    Inv (s.wakeAll b wake ids) held run dying :=
  List.foldlRecOn (motive := fun s ↦ Inv s held run dying) ids _ h fun _ h j _ ↦ h.wakeIf b wake j

theorem Inv.checkScopeDone (h : Inv s held run dying) (i : ScopeId) :
    Inv (s.checkScopeDone i) held run dying := by
  unfold Scheduler.checkScopeDone
  split
  · split
    · exact h
    · exact h.wakeIf _ _ _
  · exact h

theorem setTask_dropWait (s : Scheduler) (t id : TaskId) (rec : TaskRec) (b : Option Block) :
    (s.setTask t rec).dropWait id b = (s.dropWait id b).setTask t rec := by
  unfold Scheduler.dropWait
  split <;> rfl

/-- `dropWait` writes wait tables only. -/
theorem dropWait_eq (s : Scheduler) (id : TaskId) (b : Option Block) :
    ∃ io cond thread, s.dropWait id b =
      { s with ioWaits := io, condWaits := cond, threadWaits := thread } := by
  unfold Scheduler.dropWait
  split <;> exact ⟨_, _, _, rfl⟩

@[simp] theorem dropWait_tasks (s : Scheduler) (id : TaskId) (b : Option Block) :
    (s.dropWait id b).tasks = s.tasks := by
  obtain ⟨io, cond, thread, h⟩ := dropWait_eq s id b
  rw [h]

@[simp] theorem dropWait_scopes (s : Scheduler) (id : TaskId) (b : Option Block) :
    (s.dropWait id b).scopes = s.scopes := by
  obtain ⟨io, cond, thread, h⟩ := dropWait_eq s id b
  rw [h]

@[simp] theorem dropWait_current (s : Scheduler) (id : TaskId) (b : Option Block) :
    (s.dropWait id b).current = s.current := by
  obtain ⟨io, cond, thread, h⟩ := dropWait_eq s id b
  rw [h]

theorem Inv.dropWait (h : Inv s held run dying) (id : TaskId) (b : Option Block) :
    Inv (s.dropWait id b) held run dying := by
  unfold Scheduler.dropWait
  split <;> exact h.frame rfl rfl rfl rfl rfl rfl rfl rfl

end Frame

end CoilLang.Task
