import CoilLang.Machine.VmInvariant

/-!
# Wait tables and blocked tasks

The scheduler keeps who waits for IO, for another OS thread and for a condition in three tables, and
in each task's record what it is blocked on. **The two agree** in every reachable state (`Waits`): an
entry of the IO or thread table is there exactly when its task is blocked on it, and a task blocked
on a condition is listed there. The one exception is the root task, which a deadlock wakes without
taking it off the list of the condition it waited for.

A suspension first writes the table and then blocks the task, so `Waits` is about the table and a
function `on` that tells what each task is blocked on, or about to be.
-/

namespace CoilLang.Task

/-- Blocks that have an entry in a table. -/
def Block.isWait : Block → Bool
  | .io _ | .ioRetry _ | .cond _ | .thread _ => true
  | _ => false

/-- What a task is blocked on. -/
def Scheduler.blockOf (s : Scheduler) (id : TaskId) : Option Block :=
  (s.tasks id).bind TaskRec.block

/-- The wait tables agree with what each task is blocked on. -/
structure Waits (s : Scheduler) (on : TaskId → Option Block) : Prop where
  io_iff : ∀ token id, (token, id) ∈ s.ioWaits ↔
    on id = some (.io token) ∨ on id = some (.ioRetry token)
  io_keys : (s.ioWaits.map Prod.fst).Nodup
  io_lt : ∀ w ∈ s.ioWaits, w.1 < s.nextToken
  thread_iff : ∀ key id, (key, id) ∈ s.threadWaits ↔ on id = some (.thread key)
  thread_keys : (s.threadWaits.map Prod.fst).Nodup
  thread_lt : ∀ w ∈ s.threadWaits, w.1 < s.nextThreadKey
  mem_cond : ∀ c id, on id = some (.cond c) → id ∈ s.condWaits c
  of_mem_cond : ∀ c id, id ∈ s.condWaits c → id = root ∨ on id = some (.cond c)

/-- The wait tables do not differ. -/
structure SameTables (s s' : Scheduler) : Prop where
  io : s'.ioWaits = s.ioWaits
  thread : s'.threadWaits = s.threadWaits
  cond : s'.condWaits = s.condWaits
  token : s'.nextToken = s.nextToken
  key : s'.nextThreadKey = s.nextThreadKey

/-- Nothing about waits differs. -/
structure SameWaits (s s' : Scheduler) : Prop where
  tables : SameTables s s'
  block : ∀ id b, b.isWait = true → (s'.blockOf id = some b ↔ s.blockOf id = some b)

variable {s s' s'' : Scheduler} {on on' : TaskId → Option Block} {held : TaskId → Prop}
  {run dying : Option TaskId} {id : TaskId} {rec rec' : TaskRec}

theorem SameTables.trans (h : SameTables s s') (h' : SameTables s' s'') : SameTables s s'' :=
  ⟨h'.io.trans h.io, h'.thread.trans h.thread, h'.cond.trans h.cond, h'.token.trans h.token,
    h'.key.trans h.key⟩

theorem SameWaits.refl (s : Scheduler) : SameWaits s s :=
  ⟨⟨rfl, rfl, rfl, rfl, rfl⟩, fun _ _ _ ↦ Iff.rfl⟩

theorem SameWaits.trans (h : SameWaits s s') (h' : SameWaits s' s'') : SameWaits s s'' :=
  ⟨h.tables.trans h'.tables, fun id b hb ↦ (h'.block id b hb).trans (h.block id b hb)⟩

/-- Only the blocks that have an entry matter. -/
theorem Waits.congr (h : Waits s on)
    (hon : ∀ id b, b.isWait = true → (on' id = some b ↔ on id = some b)) : Waits s on' where
  io_iff token id := by
    rw [h.io_iff, hon id _ rfl, hon id _ rfl]
  io_keys := h.io_keys
  io_lt := h.io_lt
  thread_iff key id := by
    rw [h.thread_iff, hon id _ rfl]
  thread_keys := h.thread_keys
  thread_lt := h.thread_lt
  mem_cond c id hc := h.mem_cond c id ((hon id _ rfl).1 hc)
  of_mem_cond c id hc := (h.of_mem_cond c id hc).imp_right (hon id _ rfl).2

/-- The tables are all of the scheduler that matters. -/
theorem Waits.frame (h : Waits s on) (hsame : SameTables s s') : Waits s' on := by
  obtain ⟨hio, hthread, hcond, htoken, hkey⟩ := hsame
  obtain ⟨h₁, h₂, h₃, h₄, h₅, h₆, h₇, h₈⟩ := h
  refine ⟨?_, ?_, ?_, ?_, ?_, ?_, ?_, ?_⟩
  · rwa [hio]
  · rwa [hio]
  · rwa [hio, htoken]
  · rwa [hthread]
  · rwa [hthread]
  · rwa [hthread, hkey]
  · rwa [hcond]
  · rwa [hcond]

theorem SameWaits.waits (h : SameWaits s s') (hw : Waits s s.blockOf) : Waits s' s'.blockOf :=
  (hw.congr h.block).frame h.tables

/-! ### What writing a record does to the blocks -/

theorem blockOf_setTask (s : Scheduler) (id : TaskId) (rec : TaskRec) :
    (s.setTask id rec).blockOf = Function.update s.blockOf id rec.block := by
  funext t
  by_cases h : t = id
  · simp [Scheduler.blockOf, h]
  · simp [Scheduler.blockOf, h]

theorem blockOf_of_tasks (h : s.tasks id = some rec) : s.blockOf id = rec.block := by
  simp [Scheduler.blockOf, h]

/-! ### Operations that leave the waits alone -/

/-- Writing a record keeps the waits when its block does not change, or has no entry. -/
theorem sameWaits_touch (hrec : s.tasks id = some rec) (q : List TaskId)
    (hblock : ∀ b, b.isWait = true → (rec'.block = some b ↔ rec.block = some b)) :
    SameWaits s { s.setTask id rec' with runQueue := q } := by
  refine ⟨⟨rfl, rfl, rfl, rfl, rfl⟩, fun t b hb ↦ ?_⟩
  by_cases h : t = id
  · subst h
    simpa [Scheduler.blockOf, hrec] using hblock b hb
  · simp [Scheduler.blockOf, h]

theorem sameWaits_setTask (hrec : s.tasks id = some rec)
    (hblock : ∀ b, b.isWait = true → (rec'.block = some b ↔ rec.block = some b)) :
    SameWaits s (s.setTask id rec') :=
  sameWaits_touch hrec s.runQueue hblock

theorem sameWaits_makeReady (hblock : ∀ b, s.blockOf id = some b → b.isWait = false)
    (wake : Wake) : SameWaits s (s.makeReady id wake) := by
  unfold Scheduler.makeReady
  split
  · rename_i rec hrec
    split
    · refine sameWaits_touch hrec _ fun b hb ↦ ?_
      rw [blockOf_of_tasks hrec] at hblock
      simp only [reduceCtorEq, false_iff]
      intro hrb
      simp [hblock b hrb] at hb
    · exact .refl s
  · exact .refl s

theorem sameWaits_wakeIf {b : Block} (hb : b.isWait = false) (wake : Wake) (j : TaskId) :
    SameWaits s (s.wakeIf b wake j) := by
  unfold Scheduler.wakeIf
  split
  · rename_i hon
    obtain ⟨rec, hrec, hrb⟩ := (Option.any_eq_true _ _).1 hon
    refine sameWaits_makeReady (fun b' hb' ↦ ?_) wake
    rw [blockOf_of_tasks hrec, beq_iff_eq.1 hrb, Option.some.injEq] at hb'
    rwa [← hb']
  · exact .refl s

theorem sameWaits_wakeAll {b : Block} (hb : b.isWait = false) (wake : Wake) (ids : List TaskId) :
    SameWaits s (s.wakeAll b wake ids) :=
  List.foldlRecOn (motive := SameWaits s) ids _ (.refl s)
    fun _ h j _ ↦ h.trans (sameWaits_wakeIf hb wake j)

theorem sameWaits_checkScopeDone (i : ScopeId) : SameWaits s (s.checkScopeDone i) := by
  unfold Scheduler.checkScopeDone
  split
  · split
    · exact .refl s
    · exact sameWaits_wakeIf rfl _ _
  · exact .refl s

/-- A finished task is blocked on nothing, so forgetting it changes no wait. -/
theorem Inv.sameWaits_removeScope (h : Inv s held run dying) {i : ScopeId}
    (hi : s.childrenFinished i = true) : SameWaits s (s.removeScope i) := by
  rcases hsc : s.scopes i with - | sc
  · rw [show s.removeScope i = s by simp [Scheduler.removeScope, hsc]]
    exact .refl s
  · have hzero : sc.unfinished = 0 := by simpa [Scheduler.childrenFinished, hsc] using hi
    have htasks := removeScope_tasks hsc
    rw [Scheduler.removeScope, hsc] at htasks ⊢
    refine ⟨⟨rfl, rfl, rfl, rfl, rfl⟩, fun t b _ ↦ ?_⟩
    unfold Scheduler.blockOf
    rw [htasks]
    by_cases ht : t ∈ sc.children
    · have hfin := (h.scope i sc hsc).unfinished_of_zero hzero ht
      rcases hrec : s.tasks t with - | rec
      · simp [ht]
      · have hnone : rec.block = none := by
          rw [← Option.not_isSome_iff_eq_none, ← (h.task t rec hrec).blocked_iff]
          intro hst
          simp [Scheduler.unfinished, hrec, hst, TaskState.finished] at hfin
        simp [ht, hnone]
    · simp [ht]

theorem Inv.sameWaits_removeScopes (l : List ScopeId) (h : Inv s held run dying)
    (hl : ∀ i ∈ l, s.childrenFinished i = true) :
    SameWaits s (l.foldl Scheduler.removeScope s) := by
  induction l generalizing s with
  | nil => exact .refl s
  | cons i l ih =>
    have hi := hl i List.mem_cons_self
    refine (h.sameWaits_removeScope hi).trans (ih (h.removeScope_of_finished hi) fun j hj ↦ ?_)
    exact childrenFinished_removeScope (hl j (List.mem_cons_of_mem i hj))

theorem sameWaits_finish (hrec : s.tasks id = some rec) (hblock : rec'.block = rec.block)
    (i : ScopeId) : SameWaits s (s.finish id rec' i) := by
  have h := sameWaits_setTask (s := s) hrec fun b _ ↦ by rw [hblock]
  have h' : SameWaits s (s.setTask id rec').decLive := ⟨⟨h.1.1, h.1.2, h.1.3, h.1.4, h.1.5⟩, h.2⟩
  unfold Scheduler.finish Scheduler.decUnfinished
  split
  · exact ⟨⟨h'.1.1, h'.1.2, h'.1.3, h'.1.4, h'.1.5⟩, h'.2⟩
  · exact h'

theorem Inv.sameWaits_settle (h : Inv s held run none) (hrec : s.tasks id = some rec)
    (hroot : id ≠ Task.root) (hfrom : Finishing held id rec) {state : TaskState}
    (hfin : state.finished = true) (hdone : s.ownedChildrenFinished id = true) :
    SameWaits s (s.settle id rec state) := by
  obtain ⟨hf, hdone'⟩ := h.finishing hrec hroot hfrom hfin hdone
  rw [settle_eq hfrom hfin]
  have h₁ : SameWaits s (s.finish id { rec with state := state, ending := none } rec.scope) := by
    refine sameWaits_finish hrec ?_ rec.scope
    rfl
  exact h₁.trans (hf.sameWaits_removeScopes _ (List.all_eq_true.1 hdone'))

theorem sameWaits_wakeWaiters (hrec : s.tasks id = some rec) :
    SameWaits s (s.wakeWaiters id rec) := by
  have h₁ : SameWaits s (s.setTask id { rec with joiners := [] }) :=
    sameWaits_setTask hrec fun _ _ ↦ Iff.rfl
  exact (h₁.trans (sameWaits_wakeAll rfl _ _)).trans (sameWaits_checkScopeDone _)

theorem Inv.sameWaits_finalize (id : TaskId) (h : Inv s held run none)
    (hrec : s.tasks id = some rec) (hroot : id ≠ Task.root) (hfrom : Finishing held id rec)
    {state : TaskState} (hfin : state.finished = true)
    (hdone : s.ownedChildrenFinished id = true) : SameWaits s (s.finalize id state) := by
  refine Inv.finalize_induction (SameWaits s) ?_ ?_ ?_ id h hrec hroot hfrom hfin hdone (.refl s)
  · intro s' held' t r st h' hr hroot' hfrom' hfin' hdone' hsame
    exact hsame.trans (h'.sameWaits_settle hr hroot' hfrom' hfin' hdone')
  · intro s' held' t r _ hr _ hsame
    exact hsame.trans (sameWaits_wakeWaiters hr)
  · intro s' held' t r _ hr hcancel hsame
    refine hsame.trans (sameWaits_makeReady (fun b hb ↦ ?_) _)
    rw [blockOf_of_tasks hr, hcancel, Option.some.injEq] at hb
    rw [← hb]
    rfl

/-! ### Releasing a task from its wait -/

theorem eq_of_mem_keys {l : List (ℕ × TaskId)} (hnd : (l.map Prod.fst).Nodup) {k : ℕ} {t u : TaskId}
    (ht : (k, t) ∈ l) (hu : (k, u) ∈ l) : t = u :=
  congrArg Prod.snd (List.inj_on_of_nodup_map hnd ht hu rfl)

theorem nodup_filter_keys {l : List (ℕ × TaskId)} (hnd : (l.map Prod.fst).Nodup)
    (p : ℕ × TaskId → Bool) : ((l.filter p).map Prod.fst).Nodup :=
  hnd.sublist (List.filter_sublist.map _)

/-- The entry of a token the task is blocked on goes. -/
theorem Waits.release_io (h : Waits s on) {token : WaitToken}
    (hon : on id = some (.io token) ∨ on id = some (.ioRetry token)) :
    Waits { s with ioWaits := s.ioWaits.filter fun w ↦ w.1 ≠ token }
      (Function.update on id none) := by
  have hmem := (h.io_iff token id).2 hon
  refine ⟨fun k t ↦ ?_, nodup_filter_keys h.io_keys _, fun w hw ↦ h.io_lt w (List.mem_filter.1 hw).1,
    fun k t ↦ ?_, h.thread_keys, h.thread_lt, fun c t ht ↦ ?_, fun c t ht ↦ ?_⟩
  · rw [List.mem_filter, decide_eq_true_eq]
    by_cases ht : t = id
    · subst ht
      rw [Function.update_self]
      simp only [reduceCtorEq, or_self, iff_false]
      rintro ⟨hk, hne⟩
      rcases (h.io_iff k t).1 hk with hk | hk <;> rcases hon with hon | hon <;>
        simp_all
    · rw [Function.update_of_ne ht, h.io_iff]
      refine and_iff_left_of_imp fun hk (hne : k = token) ↦ ht ?_
      exact eq_of_mem_keys h.io_keys ((h.io_iff k t).2 hk) (hne ▸ hmem)
  · rw [h.thread_iff]
    by_cases ht : t = id
    · subst ht
      rcases hon with hon | hon <;> simp [hon]
    · rw [Function.update_of_ne ht]
  · by_cases htid : t = id
    · simp [htid] at ht
    · rw [Function.update_of_ne htid] at ht
      exact h.mem_cond c t ht
  · refine (h.of_mem_cond c t ht).imp_right fun hc ↦ ?_
    have htid : t ≠ id := by
      rintro rfl
      rcases hon with hon | hon <;> simp [hon] at hc
    rwa [Function.update_of_ne htid]

/-- The entry of a key the task is blocked on goes. -/
theorem Waits.release_thread (h : Waits s on) {key : ℕ} (hon : on id = some (.thread key)) :
    Waits { s with threadWaits := s.threadWaits.filter fun w ↦ w.1 ≠ key }
      (Function.update on id none) := by
  have hmem := (h.thread_iff key id).2 hon
  refine ⟨fun k t ↦ ?_, h.io_keys, h.io_lt, fun k t ↦ ?_, nodup_filter_keys h.thread_keys _,
    fun w hw ↦ h.thread_lt w (List.mem_filter.1 hw).1, fun c t ht ↦ ?_, fun c t ht ↦ ?_⟩
  · rw [h.io_iff]
    by_cases ht : t = id
    · subst ht
      simp [hon]
    · rw [Function.update_of_ne ht]
  · rw [List.mem_filter, decide_eq_true_eq]
    by_cases ht : t = id
    · subst ht
      rw [Function.update_self]
      simp only [reduceCtorEq, iff_false]
      rintro ⟨hk, hne⟩
      have := (h.thread_iff k t).1 hk
      simp_all
    · rw [Function.update_of_ne ht, h.thread_iff]
      refine and_iff_left_of_imp fun hk (hne : k = key) ↦ ht ?_
      exact eq_of_mem_keys h.thread_keys ((h.thread_iff k t).2 hk) (hne ▸ hmem)
  · by_cases htid : t = id
    · simp [htid] at ht
    · rw [Function.update_of_ne htid] at ht
      exact h.mem_cond c t ht
  · refine (h.of_mem_cond c t ht).imp_right fun hc ↦ ?_
    have htid : t ≠ id := by
      rintro rfl
      simp [hon] at hc
    rwa [Function.update_of_ne htid]

/-- The task goes off the list of the condition it is blocked on. -/
theorem Waits.release_cond (h : Waits s on) {cond : CondId} (hon : on id = some (.cond cond)) :
    Waits { s with
      condWaits := Function.update s.condWaits cond ((s.condWaits cond).filter fun t ↦ t ≠ id) }
      (Function.update on id none) := by
  have hlist : ∀ c t, t ∈ Function.update s.condWaits cond
      ((s.condWaits cond).filter fun t ↦ t ≠ id) c ↔ t ∈ s.condWaits c ∧ (c = cond → t ≠ id) := by
    intro c t
    by_cases hc : c = cond
    · simp [hc]
    · simp [hc]
  refine ⟨fun k t ↦ ?_, h.io_keys, h.io_lt, fun k t ↦ ?_, h.thread_keys, h.thread_lt,
    fun c t ht ↦ ?_, fun c t ht ↦ ?_⟩
  · rw [h.io_iff]
    by_cases ht : t = id
    · subst ht
      simp [hon]
    · rw [Function.update_of_ne ht]
  · rw [h.thread_iff]
    by_cases ht : t = id
    · subst ht
      simp [hon]
    · rw [Function.update_of_ne ht]
  · by_cases htid : t = id
    · simp [htid] at ht
    · rw [Function.update_of_ne htid] at ht
      exact (hlist c t).2 ⟨h.mem_cond c t ht, fun _ ↦ htid⟩
  · obtain ⟨ht, hne⟩ := (hlist c t).1 ht
    rcases h.of_mem_cond c t ht with hroot | hc
    · exact .inl hroot
    · have htid : t ≠ id := by
        rintro rfl
        rw [hon, Option.some.injEq, Block.cond.injEq] at hc
        exact hne hc.symm rfl
      exact .inr (by rwa [Function.update_of_ne htid])

/-- **Forgetting the wait of a task** and unblocking it. -/
theorem Waits.release (h : Waits s on) (id : TaskId) :
    Waits (s.dropWait id (on id)) (Function.update on id none) := by
  have hother : (∀ b, on id = some b → b.isWait = false) →
      Waits s (Function.update on id none) := by
    intro hnot
    refine h.congr fun t b hb ↦ ?_
    by_cases ht : t = id
    · subst ht
      rw [Function.update_self]
      simp only [reduceCtorEq, false_iff]
      intro hon
      simp [hnot b hon] at hb
    · rw [Function.update_of_ne ht]
  unfold Scheduler.dropWait
  split
  · rename_i hon
    exact h.release_io (.inl hon)
  · rename_i hon
    exact h.release_io (.inr hon)
  · rename_i hon
    exact h.release_cond hon
  · rename_i hon
    exact h.release_thread hon
  · rename_i h₁ h₂ h₃ h₄
    refine hother fun b hb ↦ ?_
    cases b <;> first | rfl | simp_all

end CoilLang.Task