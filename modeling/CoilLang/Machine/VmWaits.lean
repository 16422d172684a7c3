import CoilLang.Machine.TaskWaits

/-!
# Every step keeps the wait tables right

The operations of the machine keep `Waits`, and with it every reachable state is **well kept**
(`reachable_bookkeeping`).

An operation that unblocks a task forgets its wait first (`Waits.release`). The exceptions go one by
one: a notify clears the whole list of its condition, a timer may find that its task was woken
before, and a deadlock wakes the root only.
-/

namespace CoilLang.Task

variable {s s' : Scheduler} {on : TaskId → Option Block} {held : TaskId → Prop}
  {run dying : Option TaskId} {id : TaskId} {rec : TaskRec}

/-! ### Waking a task -/

theorem sameTables_makeReady (s : Scheduler) (id : TaskId) (wake : Wake) :
    SameTables s (s.makeReady id wake) := by
  unfold Scheduler.makeReady
  split
  · split <;> exact ⟨rfl, rfl, rfl, rfl, rfl⟩
  · exact ⟨rfl, rfl, rfl, rfl, rfl⟩

theorem sameTables_wakeAll (s : Scheduler) (b : Block) (wake : Wake) (ids : List TaskId) :
    SameTables s (s.wakeAll b wake ids) := by
  refine List.foldlRecOn (motive := SameTables s) ids _ ⟨rfl, rfl, rfl, rfl, rfl⟩ fun s' h j _ ↦ ?_
  unfold Scheduler.wakeIf
  split
  · exact h.trans (sameTables_makeReady s' j wake)
  · exact h

/-- Made ready or not blocked at all, the task is blocked on nothing. -/
theorem Inv.blockOf_makeReady (h : Inv s held run dying) (id : TaskId) (wake : Wake) :
    (s.makeReady id wake).blockOf = Function.update s.blockOf id none := by
  have hnone : s.blockOf id = none → s.blockOf = Function.update s.blockOf id none := fun hb ↦ by
    rw [← hb, Function.update_eq_self]
  unfold Scheduler.makeReady
  split
  · rename_i rec hrec
    split
    · exact blockOf_setTask s id _
    · rename_i hst
      refine hnone ?_
      rw [blockOf_of_tasks hrec, ← Option.not_isSome_iff_eq_none,
        ← (h.task id rec hrec).blocked_iff]
      exact hst
  · rename_i hrec
    exact hnone (by simp [Scheduler.blockOf, hrec])

theorem Waits.makeReady (hinv : Inv s held run dying) (wake : Wake)
    (h : Waits s (Function.update s.blockOf id none)) :
    Waits (s.makeReady id wake) (s.makeReady id wake).blockOf := by
  rw [hinv.blockOf_makeReady]
  exact h.frame (sameTables_makeReady s id wake)

/-- `dropWait` reads the tables only. -/
theorem SameTables.dropWait (h : SameTables s s') (id : TaskId) (b : Option Block) :
    SameTables (s.dropWait id b) (s'.dropWait id b) := by
  obtain ⟨hio, hthread, hcond, htoken, hkey⟩ := h
  rcases b with - | b
  · exact ⟨hio, hthread, hcond, htoken, hkey⟩
  · cases b <;> exact ⟨by simp [Scheduler.dropWait, hio], by simp [Scheduler.dropWait, hthread],
      by simp [Scheduler.dropWait, hcond], htoken, hkey⟩

/-! ### Cancelling and ending -/

theorem Waits.deliverCancel (h : Waits s s.blockOf) (hrec : s.tasks id = some rec) :
    Waits (s.deliverCancel id rec) (s.deliverCancel id rec).blockOf := by
  unfold Scheduler.deliverCancel
  simp only
  split
  · refine SameWaits.waits ?_ h
    exact sameWaits_setTask hrec fun _ _ ↦ Iff.rfl
  · have hrel := h.release id
    rw [blockOf_of_tasks hrec] at hrel
    have hblock : ∀ t : Scheduler, (t.dropWait id rec.block).blockOf = t.blockOf := fun t ↦ by
      unfold Scheduler.blockOf
      rw [dropWait_tasks]
    rw [hblock]
    have hset : ∀ rec', SameTables s { s.setTask id rec' with runQueue := s.runQueue ++ [id] } := fun _ ↦
      ⟨rfl, rfl, rfl, rfl, rfl⟩
    refine Waits.frame ?_ ((hset _).dropWait id rec.block)
    convert hrel using 1
    exact blockOf_setTask s id _

/-- Cancelling keeps the wait tables right. -/
theorem Waits.requestCancel (hinv : Inv s held run none) (h : Waits s s.blockOf) :
    Waits (s.requestCancel id) (s.requestCancel id).blockOf := by
  unfold Scheduler.requestCancel
  split
  · exact h
  rename_i rec hrec
  split
  · exact h
  rename_i hcond
  split
  · rename_i hstart
    obtain ⟨hh, hroot, hready, hdone⟩ := hinv.unstarted hrec hcond (by simpa using hstart)
    have h₁ : SameWaits s { s with runQueue := s.runQueue.filter fun t ↦ t ≠ id } :=
      ⟨⟨rfl, rfl, rfl, rfl, rfl⟩, fun _ _ _ ↦ Iff.rfl⟩
    exact (h₁.trans (hh.sameWaits_finalize id hrec hroot (.inr ⟨hready, .inr rfl⟩) rfl
      hdone)).waits h
  · exact h.deliverCancel hrec

theorem Waits.requestCancels (ids : List TaskId) (hinv : Inv s held run none)
    (hids : ∀ id ∈ ids, ¬ held id) (h : Waits s s.blockOf) :
    Waits (s.requestCancels ids) (s.requestCancels ids).blockOf := by
  refine (List.foldlRecOn (motive := fun s ↦ Inv s held run none ∧ Waits s s.blockOf) ids _
    ⟨hinv, h⟩ fun _ h id hid ↦ ⟨h.1.requestCancel (hids id hid), ?_⟩).2
  exact Waits.requestCancel h.1 h.2

theorem Waits.cancelWaitsForChildren (hinv : Inv s (· = id) none none) (h : Waits s s.blockOf) :
    Waits (s.cancelWaitsForChildren id).2 (s.cancelWaitsForChildren id).2.blockOf := by
  unfold Scheduler.cancelWaitsForChildren
  split
  · exact h
  · split
    · exact h
    · have hids : ∀ c ∈ s.ownedChildren id, ¬ c = id := fun c hc ↦
        (hinv.lt_of_mem_ownedChildren hc).ne'
      have hinv₁ := hinv.requestCancels _ hids
      have h₁ := h.requestCancels _ hinv hids
      simp only
      split
      · exact h₁
      · split
        · rename_i rec₁ hrec₁
          have hst : rec₁.state = .ready := by
            simpa [Scheduler.isReady, hrec₁] using hinv₁.held_ready id rfl
          have hblock : rec₁.block = none := by
            rw [← Option.not_isSome_iff_eq_none, ← (hinv₁.task id rec₁ hrec₁).blocked_iff, hst]
            simp
          refine SameWaits.waits ?_ h₁
          refine sameWaits_setTask hrec₁ fun b hb ↦ ?_
          simp only [hblock, reduceCtorEq, iff_false, Option.some.injEq]
          rintro rfl
          simp [Block.isWait] at hb
        · exact h₁

theorem sameWaits_setScope (s : Scheduler) (i : ScopeId) (sc : ScopeRec) :
    SameWaits s (s.setScope i sc) :=
  ⟨⟨rfl, rfl, rfl, rfl, rfl⟩, fun _ _ _ ↦ Iff.rfl⟩

theorem sameWaits_beginEnd (hrec : s.tasks id = some rec) (state : TaskState)
    (panic : Option String) : SameWaits s (s.beginEnd id rec state panic).2 := by
  have h₁ : SameWaits s (s.setTask id { rec with
      state := .ending, ending := some state, panic := panic.or rec.panic }) :=
    sameWaits_setTask hrec fun _ _ ↦ Iff.rfl
  have h₂ : SameWaits s ((s.setTask id { rec with
      state := .ending, ending := some state, panic := panic.or rec.panic }).failScope
        rec.scope panic) := by
    refine h₁.trans ?_
    unfold Scheduler.failScope
    split
    · exact sameWaits_setScope _ _ _
    · exact .refl _
  refine List.foldlRecOn (motive := SameWaits s) _ _ h₂ fun s' h i _ ↦ h.trans ?_
  unfold Scheduler.closeScope
  split
  · exact sameWaits_setScope _ _ _
  · exact .refl _

theorem Waits.taskEnd (hinv : Inv s held run none) (hroot : id ≠ Task.root)
    (honly : ∀ t, held t ∨ run = some t ↔ t = id) {state : TaskState}
    (hfin : state.finished = true) (panic : Option String) (h : Waits s s.blockOf) :
    Waits (s.taskEnd id state panic) (s.taskEnd id state panic).blockOf := by
  obtain ⟨rec, hrec, hinv₁⟩ := hinv.beginEnd hroot honly hfin panic
  have hinv₂ := hinv₁.requestCancels (s.beginEnd id rec state panic).1 fun _ _ h ↦ h
  have h₂ := ((sameWaits_beginEnd hrec state panic).waits h).requestCancels
    (s.beginEnd id rec state panic).1 hinv₁ fun _ _ h ↦ h
  unfold Scheduler.taskEnd
  rw [hrec]
  simp only
  split
  · rename_i hcond
    obtain ⟨hany, hdone⟩ := Bool.and_eq_true_iff.1 hcond
    obtain ⟨rec₂, hrec₂, hst₂⟩ := (Option.any_eq_true _ _).1 hany
    exact (hinv₂.sameWaits_finalize id hrec₂ hroot (.inl (by simpa using hst₂)) hfin hdone).waits h₂
  · exact h₂

/-! ### Suspending -/

theorem Inv.blockOf_current (h : Inv s held (some s.current) none) :
    s.blockOf s.current = none := by
  obtain ⟨rec, hrec⟩ := h.run_some _ rfl
  rw [blockOf_of_tasks hrec, ← Option.not_isSome_iff_eq_none, ← (h.task _ rec hrec).blocked_iff,
    (h.running _ rec hrec).2 rfl]
  simp

/-- **Suspending the current task**: the tables hold its wait already. -/
theorem Waits.suspendAt (hinv : Inv s (fun _ ↦ False) (some s.current) none) {block : Option Block}
    (resultSlot : Bool) (h : Waits s (Function.update s.blockOf s.current block)) :
    Waits (s.suspendAt block resultSlot) (s.suspendAt block resultSlot).blockOf := by
  obtain ⟨rec, hrec⟩ := hinv.run_some _ rfl
  have hst : rec.state = .running := (hinv.running _ rec hrec).2 rfl
  by_cases hc : rec.cancel = .requested ∧ rec.shield = 0
  · -- the cancel is delivered at once, and the wait forgotten
    rw [suspendAt_cancelled hrec hc.1 hc.2]
    have hrel := h.release s.current
    rw [Function.update_self, Function.update_idem] at hrel
    refine Waits.frame (s := s.dropWait s.current block) ?_ ⟨rfl, rfl, rfl, rfl, rfl⟩
    convert hrel using 1
    exact blockOf_setTask s s.current _
  rcases block with - | b
  · have hqueue : s.current ∉ s.runQueue := by
      rw [hinv.queue_iff]
      simp [Scheduler.isReady, hrec, hst]
    rw [suspendAt_yield hrec hc hqueue]
    refine Waits.frame (s := s) ?_ ⟨rfl, rfl, rfl, rfl, rfl⟩
    convert h using 1
    exact blockOf_setTask s s.current _
  · rw [suspendAt_blocked hrec hc, blockOf_setTask]
    exact h.frame ⟨rfl, rfl, rfl, rfl, rfl⟩

/-- A suspension on something without an entry. -/
theorem Waits.suspendAt_plain (hinv : Inv s (fun _ ↦ False) (some s.current) none)
    {block : Option Block} (hblock : ∀ b, block = some b → b.isWait = false) (resultSlot : Bool)
    (h : Waits s s.blockOf) :
    Waits (s.suspendAt block resultSlot) (s.suspendAt block resultSlot).blockOf := by
  refine Waits.suspendAt hinv resultSlot (h.congr fun t b hb ↦ ?_)
  by_cases ht : t = s.current
  · subst ht
    rw [Function.update_self, hinv.blockOf_current]
    simp only [reduceCtorEq, iff_false]
    intro hb'
    simp [hblock b hb'] at hb
  · rw [Function.update_of_ne ht]

/-! ### The loop -/

theorem sameWaits_switchInFailed (s : Scheduler) (id : TaskId) :
    SameWaits s (s.switchInFailed id) := by
  unfold Scheduler.switchInFailed
  split
  · rename_i rec hrec
    exact sameWaits_setTask hrec fun _ _ ↦ Iff.rfl
  · exact .refl s

theorem sameWaits_switchIn (s : Scheduler) (id : TaskId) : SameWaits s (s.switchIn id) := by
  unfold Scheduler.switchIn
  split
  · rename_i rec hrec
    have h : SameWaits s (s.setTask id { rec with state := .running, started := true, wake := none }) :=
      sameWaits_setTask hrec fun _ _ ↦ Iff.rfl
    exact ⟨⟨h.1.1, h.1.2, h.1.3, h.1.4, h.1.5⟩, h.2⟩
  · exact ⟨⟨rfl, rfl, rfl, rfl, rfl⟩, fun _ _ _ ↦ Iff.rfl⟩

theorem sameWaits_resumeRoot (s : Scheduler) : SameWaits s s.resumeRoot := by
  unfold Scheduler.resumeRoot
  split
  · rename_i rec hrec
    have h : SameWaits s (s.setTask Task.root { rec with state := .running, wake := none }) :=
      sameWaits_setTask hrec fun _ _ ↦ Iff.rfl
    exact ⟨⟨h.1.1, h.1.2, h.1.3, h.1.4, h.1.5⟩, h.2⟩
  · exact ⟨⟨rfl, rfl, rfl, rfl, rfl⟩, fun _ _ _ ↦ Iff.rfl⟩

theorem sameWaits_takeCancel (s : Scheduler) : SameWaits s s.takeCancel.2 := by
  unfold Scheduler.takeCancel
  split
  · rename_i rec hrec
    split
    · exact .refl s
    · exact sameWaits_setTask hrec fun _ _ ↦ Iff.rfl
  · exact .refl s

theorem Waits.enterTask (hinv : Inv s (· = id) none none) (hroot : id ≠ Task.root) (w : World)
    (h : Waits s s.blockOf) : Waits (s.enterTask id w).2 (s.enterTask id w).2.blockOf := by
  unfold Scheduler.enterTask
  split
  · exact Waits.taskEnd hinv.switchInFailed hroot (by simp) rfl _
      ((sameWaits_switchInFailed s id).waits h)
  · have h₁ := ((sameWaits_switchIn s id).trans (sameWaits_takeCancel _)).waits h
    simp only
    split
    · exact h₁
    · exact Waits.taskEnd (hinv.switchIn.takeCancel (by simpa using hroot)) hroot
        (by simp [eq_comm]) rfl _ h₁

/-! ### Events -/

theorem mem_of_lookup_eq_some {l : List (ℕ × TaskId)} {k : ℕ} (h : l.lookup k = some id) :
    (k, id) ∈ l := by
  induction l with
  | nil => simp at h
  | cons w l ih =>
    obtain ⟨k', t⟩ := w
    rw [List.lookup_cons] at h
    by_cases hk : k = k'
    · subst hk
      have : t = id := by simpa using h
      exact this ▸ List.mem_cons_self
    · rw [beq_false_of_ne hk] at h
      exact List.mem_cons_of_mem _ (ih h)

theorem Waits.takeKey (hinv : Inv s held run dying) (key : ℕ) (h : Waits s s.blockOf) :
    Waits (s.takeKey key).1 (s.takeKey key).1.blockOf := by
  unfold Scheduler.takeKey
  split
  · exact h
  · rename_i id hkey
    have hon := (h.thread_iff key id).1 (mem_of_lookup_eq_some hkey)
    have hwake : ∀ t : Scheduler, t.tasks = s.tasks →
        t.wakeIf (.thread key) .retry id = t.makeReady id .retry := by
      intro t ht
      unfold Scheduler.blockOf at hon
      obtain ⟨rec, hrec, hb⟩ := Option.bind_eq_some_iff.1 hon
      simp [Scheduler.wakeIf, Scheduler.blockedOn, ht, hrec, hb]
    have hinv₁ : Inv { s with threadWaits := s.threadWaits.filter fun w ↦ w.1 ≠ key }
        held run dying := hinv.frame rfl rfl rfl rfl rfl rfl rfl rfl
    simp only
    rw [hwake]
    · exact Waits.makeReady hinv₁ _ (h.release_thread hon)
    · rfl

theorem Waits.takePosted (hinv : Inv s held run dying) (h : Waits s s.blockOf) :
    Waits s.takePosted.1 s.takePosted.1.blockOf := by
  have key : Inv s.takePosted.1 held run dying ∧ Waits s.takePosted.1 s.takePosted.1.blockOf := by
    refine List.foldlRecOn (motive := fun acc : Scheduler × Bool ↦
      Inv acc.1 held run dying ∧ Waits acc.1 acc.1.blockOf) s.posted _ ⟨?_, ?_⟩
      fun _ h key _ ↦ ⟨h.1.takeKey key, Waits.takeKey h.1 key h.2⟩
    · exact hinv.frame rfl rfl rfl rfl rfl rfl rfl rfl
    · exact h.frame ⟨rfl, rfl, rfl, rfl, rfl⟩
  exact key.2

theorem Waits.takeToken (hinv : Inv s held run dying) (token : WaitToken) (h : Waits s s.blockOf) :
    Waits (s.takeToken token) (s.takeToken token).blockOf := by
  unfold Scheduler.takeToken
  split
  · exact h
  · rename_i id htoken
    have hon := (h.io_iff token id).1 (mem_of_lookup_eq_some htoken)
    have hinv₁ : Inv { s with ioWaits := s.ioWaits.filter fun w ↦ w.1 ≠ token }
        held run dying := hinv.frame rfl rfl rfl rfl rfl rfl rfl rfl
    exact Waits.makeReady hinv₁ _ (h.release_io hon)

/-- An expired timer's task is blocked as it was when the timers were read, or it has been woken since
and its token is gone. -/
def Expired (s : Scheduler) (t : TaskId × Option Block) : Prop :=
  s.blockOf t.1 = t.2 ∨ s.blockOf t.1 = none ∧
    ∀ token, t.2 = some (.io token) ∨ t.2 = some (.ioRetry token) → ∀ id, (token, id) ∉ s.ioWaits

/-- Blocked as the timer says, the task's wait is released; woken before, there is none. -/
theorem Waits.release_expired {t : TaskId × Option Block} (ht : Expired s t)
    (hwait : ∀ b, t.2 = some b → b.isWait = true → ∃ token, b = .io token ∨ b = .ioRetry token)
    (h : Waits s s.blockOf) :
    Waits (s.dropWait t.1 t.2) (Function.update s.blockOf t.1 none) := by
  rcases ht with hon | ⟨hnone, hgone⟩
  · rw [← hon]
    exact h.release t.1
  · rw [← hnone, Function.update_eq_self]
    have hfilter : ∀ token, t.2 = some (.io token) ∨ t.2 = some (.ioRetry token) →
        (s.ioWaits.filter fun w ↦ w.1 ≠ token) = s.ioWaits := by
      intro token hb
      refine List.filter_eq_self.2 fun w hw ↦ ?_
      simp only [ne_eq, decide_not, Bool.not_eq_true', decide_eq_false_iff_not]
      rintro rfl
      exact hgone w.1 hb w.2 hw
    unfold Scheduler.dropWait
    split
    · rename_i token hb
      rw [hfilter token (.inl hb)]
      exact h
    · rename_i token hb
      rw [hfilter token (.inr hb)]
      exact h
    · rename_i hb
      obtain ⟨token, hb' | hb'⟩ := hwait _ hb rfl <;> simp at hb'
    · rename_i hb
      obtain ⟨token, hb' | hb'⟩ := hwait _ hb rfl <;> simp at hb'
    · exact h

theorem Waits.timerExpired (hinv : Inv s held run dying) {t : TaskId × Option Block}
    (ht : Expired s t) (h : Waits s s.blockOf) :
    Waits (s.timerExpired t) (s.timerExpired t).blockOf := by
  have hdrop : (s.dropWait t.1 t.2).blockOf = s.blockOf := by
    unfold Scheduler.blockOf
    rw [dropWait_tasks]
  unfold Scheduler.timerExpired
  split
  · rename_i token hb
    refine Waits.makeReady (hinv.dropWait _ _) _ (hdrop ▸ h.release_expired ht fun b hb' _ ↦ ?_)
    exact ⟨token, .inl (Option.some.inj (hb'.symm.trans hb))⟩
  · rename_i token hb
    refine Waits.makeReady (hinv.dropWait _ _) _ (hdrop ▸ h.release_expired ht fun b hb' _ ↦ ?_)
    exact ⟨token, .inr (Option.some.inj (hb'.symm.trans hb))⟩
  · rename_i hb
    have := h.release_expired ht fun b hb' hwait ↦ by
      rw [← Option.some.inj (hb.symm.trans hb')] at hwait
      simp [Block.isWait] at hwait
    rw [hb] at this
    exact Waits.makeReady hinv _ this
  · exact h

theorem Inv.timerExpired_eq (h : Inv s held run dying) (t : TaskId × Option Block) :
    s.timerExpired t = s ∨ (s.timerExpired t).blockOf = Function.update s.blockOf t.1 none ∧
      (s.timerExpired t).ioWaits = (s.dropWait t.1 t.2).ioWaits := by
  have hdrop : (s.dropWait t.1 t.2).blockOf = s.blockOf := by
    unfold Scheduler.blockOf
    rw [dropWait_tasks]
  unfold Scheduler.timerExpired
  split
  · exact .inr ⟨by rw [(h.dropWait _ _).blockOf_makeReady, hdrop], (sameTables_makeReady ..).io⟩
  · exact .inr ⟨by rw [(h.dropWait _ _).blockOf_makeReady, hdrop], (sameTables_makeReady ..).io⟩
  · rename_i hb
    exact .inr ⟨h.blockOf_makeReady _ _, by rw [(sameTables_makeReady ..).io, hb]; rfl⟩
  · exact .inl rfl

theorem mem_ioWaits_dropWait {b : Option Block} {t : TaskId} {k : WaitToken}
    (h : (k, id) ∈ (s.dropWait t b).ioWaits) :
    (k, id) ∈ s.ioWaits ∧ b ≠ some (.io k) ∧ b ≠ some (.ioRetry k) := by
  unfold Scheduler.dropWait at h
  split at h
  · obtain ⟨hmem, hne⟩ := List.mem_filter.1 h
    exact ⟨hmem, by simpa using Ne.symm (of_decide_eq_true hne), by simp⟩
  · obtain ⟨hmem, hne⟩ := List.mem_filter.1 h
    exact ⟨hmem, by simp, by simpa using Ne.symm (of_decide_eq_true hne)⟩
  · exact ⟨h, by simp, by simp⟩
  · exact ⟨h, by simp, by simp⟩
  · rename_i hio hretry _ _
    exact ⟨h, hio k, hretry k⟩

/-- Waking one expired timer's task keeps what is known of the others. -/
theorem Expired.timerExpired (hinv : Inv s held run dying) {t u : TaskId × Option Block}
    (ht : Expired s t) (hu : Expired s u) : Expired (s.timerExpired t) u := by
  rcases hinv.timerExpired_eq t with heq | ⟨hblock, hio⟩
  · rwa [heq]
  have hsub : ∀ k id, (k, id) ∈ (s.timerExpired t).ioWaits →
      (k, id) ∈ s.ioWaits ∧ t.2 ≠ some (.io k) ∧ t.2 ≠ some (.ioRetry k) := fun k id hmem ↦
    mem_ioWaits_dropWait (hio ▸ hmem)
  unfold Expired
  rw [hblock]
  by_cases hut : u.1 = t.1
  · -- the same task: it is blocked on nothing now, and its token is gone
    rw [hut, Function.update_self]
    refine .inr ⟨rfl, fun k hk id hmem ↦ ?_⟩
    obtain ⟨hmem, hne⟩ := hsub k id hmem
    rcases hu with hu | ⟨-, hgone⟩
    · rw [hut] at hu
      rcases ht with ht | ⟨ht, -⟩
      · rw [← ht, hu] at hne
        rcases hk with hk | hk
        · exact hne.1 hk
        · exact hne.2 hk
      · rw [← hu, ht] at hk
        simp at hk
    · exact hgone k hk id hmem
  · rw [Function.update_of_ne hut]
    rcases hu with hu | ⟨hnone, hgone⟩
    · exact .inl hu
    · exact .inr ⟨hnone, fun k hk id hmem ↦ hgone k hk id (hsub k id hmem).1⟩

theorem Waits.timersExpired (l : List (TaskId × Option Block)) (hinv : Inv s held run dying)
    (hl : ∀ t ∈ l, Expired s t) (h : Waits s s.blockOf) :
    Waits (l.foldl Scheduler.timerExpired s) (l.foldl Scheduler.timerExpired s).blockOf := by
  induction l generalizing s with
  | nil => exact h
  | cons t l ih =>
    have ht := hl t List.mem_cons_self
    refine ih (hinv.timerExpired t) (fun u hu ↦ ?_) (Waits.timerExpired hinv ht h)
    exact ht.timerExpired hinv (hl u (List.mem_cons_of_mem t hu))

theorem Waits.takeEvents (hinv : Inv s held run dying) (ready : List WaitToken) (posted : List ℕ)
    (now : ℕ) (h : Waits s s.blockOf) :
    Waits (s.takeEvents ready posted now) (s.takeEvents ready posted now).blockOf := by
  have h₁ : Inv (if s.ioWaits.isEmpty then s else ready.foldl Scheduler.takeToken s)
      held run dying ∧ Waits (if s.ioWaits.isEmpty then s else ready.foldl Scheduler.takeToken s)
        (if s.ioWaits.isEmpty then s else ready.foldl Scheduler.takeToken s).blockOf := by
    split
    · exact ⟨hinv, h⟩
    · exact List.foldlRecOn (motive := fun s ↦ Inv s held run dying ∧ Waits s s.blockOf) ready _
        ⟨hinv, h⟩ fun _ h token _ ↦ ⟨h.1.takeToken token, Waits.takeToken h.1 token h.2⟩
  unfold Scheduler.takeEvents
  generalize (if s.ioWaits.isEmpty then s else ready.foldl Scheduler.takeToken s) = s₁ at h₁ ⊢
  obtain ⟨hinv₁, h₁⟩ := h₁
  have hinv₂ : Inv { s₁ with posted := s₁.posted ++ posted }.takePosted.1 held run dying :=
    (hinv₁.frame rfl rfl rfl rfl rfl rfl rfl rfl : Inv { s₁ with posted := s₁.posted ++ posted }
      held run dying).takePosted
  have h₂ : Waits { s₁ with posted := s₁.posted ++ posted }.takePosted.1
      { s₁ with posted := s₁.posted ++ posted }.takePosted.1.blockOf :=
    Waits.takePosted (hinv₁.frame rfl rfl rfl rfl rfl rfl rfl rfl :
      Inv { s₁ with posted := s₁.posted ++ posted } held run dying) (h₁.frame ⟨rfl, rfl, rfl, rfl, rfl⟩)
  simp only
  generalize { s₁ with posted := s₁.posted ++ posted }.takePosted.1 = s₂ at hinv₂ h₂ ⊢
  have hinv₃ : Inv (s₂.expiredTimers now).2 held run dying :=
    hinv₂.frame rfl rfl rfl rfl rfl rfl rfl rfl
  refine Waits.timersExpired _ hinv₃ ?_ ?_
  · intro t ht
    obtain ⟨u, -, rfl⟩ := List.mem_map.1 ht
    exact .inl rfl
  · exact h₂.frame ⟨rfl, rfl, rfl, rfl, rfl⟩

theorem Waits.waitEvents (hinv : Inv s held run dying) (ready : List WaitToken) (posted : List ℕ)
    (now : ℕ) (h : Waits s s.blockOf) :
    Waits (s.waitEvents ready posted now).2 (s.waitEvents ready posted now).2.blockOf := by
  unfold Scheduler.waitEvents
  simp only
  have h₁ := Waits.takePosted hinv h
  split
  · exact h₁
  · have hinv₂ : Inv s.takePosted.1.nextDeadline.2 held run dying :=
      hinv.takePosted.frame rfl rfl rfl rfl rfl rfl rfl rfl
    have h₂ : Waits s.takePosted.1.nextDeadline.2 s.takePosted.1.nextDeadline.2.blockOf :=
      h₁.frame ⟨rfl, rfl, rfl, rfl, rfl⟩
    split
    · exact h₂
    · exact Waits.takeEvents hinv₂ _ _ _ h₂

/-- A deadlock: no task waits for IO or a thread, so waking the root leaves at most its entry in the
list of a condition. -/
theorem Waits.deadlock (hinv : Inv s (fun _ ↦ False) none none)
    (hready : s.isReady Task.root = false) (hio : s.ioWaits = []) (hthread : s.threadWaits = [])
    (h : Waits s s.blockOf) : Waits s.deadlock s.deadlock.blockOf := by
  unfold Scheduler.deadlock
  split
  · rename_i rec hrec
    have heq : { rec with state := .blocked } = rec := by
      rw [← hinv.root_blocked hready hrec]
    rw [heq, Scheduler.setTask, ← hrec, Function.update_eq_self]
    refine Waits.makeReady hinv _ ?_
    refine ⟨fun k t ↦ ?_, h.io_keys, h.io_lt, fun k t ↦ ?_, h.thread_keys, h.thread_lt,
      fun c t ht ↦ ?_, fun c t ht ↦ ?_⟩
    · have hnot := (not_iff_not.2 (h.io_iff k t)).1 (by simp [hio])
      by_cases htid : t = Task.root
      · simp [hio, htid]
      · simp [hio, htid, hnot]
    · have hnot := (not_iff_not.2 (h.thread_iff k t)).1 (by simp [hthread])
      by_cases htid : t = Task.root
      · simp [hthread, htid]
      · simp [hthread, htid, hnot]
    · by_cases htid : t = Task.root
      · simp [htid] at ht
      · rw [Function.update_of_ne htid] at ht
        exact h.mem_cond c t ht
    · by_cases htid : t = Task.root
      · exact .inl htid
      · rw [Function.update_of_ne htid]
        exact h.of_mem_cond c t ht
  · exact h

/-- **One iteration of the loop** keeps the wait tables right. -/
theorem Waits.runNext (hinv : Inv s (fun _ ↦ False) none none) (w : World)
    (h : Waits s s.blockOf) : Waits (s.runNext w).2 (s.runNext w).2.blockOf := by
  unfold Scheduler.runNext
  rw [hinv.popReady]
  rcases hq : s.runQueue with - | ⟨id, q⟩
  · simp only [List.head?_nil, List.tail_nil]
    have hinv₁ : Inv { s with runQueue := [] } (fun _ ↦ False) none none :=
      hinv.frame rfl rfl rfl hq.symm rfl rfl rfl rfl
    have h₁ : Waits { s with runQueue := [] } { s with runQueue := [] }.blockOf :=
      h.frame ⟨rfl, rfl, rfl, rfl, rfl⟩
    have h₂ := Waits.waitEvents hinv₁ w.ready w.posted w.now h₁
    split
    · exact h₂
    · rename_i hwoken
      have hwoken : ({ s with runQueue := [] }.waitEvents w.ready w.posted w.now).1 = false := by
        simpa using hwoken
      obtain ⟨heq, -, hio, hthread⟩ := waitEvents_eq_false hwoken
      refine Waits.deadlock (hinv₁.waitEvents _ _ _) (hinv₁.root_not_ready rfl hwoken) ?_ ?_ h₂
      · rw [heq]
        exact hio
      · rw [heq]
        exact hthread
  · simp only [List.head?_cons, List.tail_cons]
    have hinv₁ := hinv.pick hq
    have h₁ : Waits { s with runQueue := q } { s with runQueue := q }.blockOf :=
      h.frame ⟨rfl, rfl, rfl, rfl, rfl⟩
    split
    · exact (sameWaits_resumeRoot _).waits h₁
    · rename_i hroot
      have hinv₂ := hinv₁.cancelWaitsForChildren hroot
      have h₂ := Waits.cancelWaitsForChildren hinv₁ h₁
      split
      · exact h₂
      · rename_i hwaits
        exact Waits.enterTask (hinv₂.held_congr (by simpa using hwaits)) hroot w h₂

/-! ### The natives -/

theorem Waits.new (nested : ℕ) : Waits (Scheduler.new nested) (Scheduler.new nested).blockOf := by
  have hnone : ∀ id, (Scheduler.new nested).blockOf id = none := by
    intro id
    by_cases hid : id = Task.root
    · simp [Scheduler.blockOf, Scheduler.new, hid, TaskRec.new]
    · simp [Scheduler.blockOf, Scheduler.new, hid]
  refine ⟨fun k t ↦ ?_, by simp [Scheduler.new], by simp [Scheduler.new], fun k t ↦ ?_,
    by simp [Scheduler.new], by simp [Scheduler.new], fun c t ht ↦ ?_, by simp [Scheduler.new]⟩
  · rw [hnone]
    simp [Scheduler.new]
  · rw [hnone]
    simp [Scheduler.new]
  · rw [hnone] at ht
    simp at ht

theorem Inv.blockOf_wakeAll (h : Inv s held run dying) (b : Block) (wake : Wake)
    (ids : List TaskId) (id : TaskId) : (s.wakeAll b wake ids).blockOf id =
      if id ∈ ids ∧ s.blockOf id = some b then none else s.blockOf id := by
  induction ids generalizing s with
  | nil => simp [Scheduler.wakeAll]
  | cons j ids ih =>
    have hj : (s.wakeIf b wake j).blockOf =
        if s.blockOf j = some b then Function.update s.blockOf j none else s.blockOf := by
      have hon : s.blockedOn j b = true ↔ s.blockOf j = some b := by
        simp [Scheduler.blockedOn, Scheduler.blockOf, Option.any_eq_true, Option.bind_eq_some_iff]
      unfold Scheduler.wakeIf
      by_cases hb : s.blockOf j = some b
      · rw [if_pos (hon.2 hb), if_pos hb, h.blockOf_makeReady]
      · rw [if_neg (fun hh ↦ hb (hon.1 hh)), if_neg hb]
    show ((s.wakeIf b wake j).wakeAll b wake ids).blockOf id = _
    rw [ih (h.wakeIf b wake j), hj]
    by_cases hb : s.blockOf j = some b
    · rw [if_pos hb]
      by_cases hid : id = j
      · simp [hid, hb]
      · simp [hid]
    · rw [if_neg hb]
      by_cases hid : id = j
      · simp [hid, hb]
      · simp [hid]

/-- A notify clears the list of its condition and wakes whoever is blocked on it. -/
theorem Waits.notifyCond (hinv : Inv s held run dying) (cond : CondId) (h : Waits s s.blockOf) :
    Waits (s.notifyCond cond) (s.notifyCond cond).blockOf := by
  have hinv₁ : Inv { s with condWaits := Function.update s.condWaits cond [] } held run dying :=
    hinv.frame rfl rfl rfl rfl rfl rfl rfl rfl
  have hblock : ∀ id, (s.notifyCond cond).blockOf id =
      if s.blockOf id = some (.cond cond) then none else s.blockOf id := by
    intro id
    rw [Scheduler.notifyCond, hinv₁.blockOf_wakeAll]
    have hsame : { s with condWaits := Function.update s.condWaits cond [] }.blockOf = s.blockOf := rfl
    rw [hsame]
    by_cases hb : s.blockOf id = some (.cond cond)
    · rw [if_pos ⟨h.mem_cond cond id hb, hb⟩, if_pos hb]
    · rw [if_neg fun hh ↦ hb hh.2, if_neg hb]
  refine Waits.frame ?_ (sameTables_wakeAll
    { s with condWaits := Function.update s.condWaits cond [] } (.cond cond) (.status statusOk)
    (s.condWaits cond))
  refine ⟨fun k t ↦ ?_, h.io_keys, h.io_lt, fun k t ↦ ?_, h.thread_keys, h.thread_lt,
    fun c t ht ↦ ?_, fun c t ht ↦ ?_⟩
  · rw [h.io_iff, hblock]
    by_cases hb : s.blockOf t = some (.cond cond)
    · simp [hb]
    · rw [if_neg hb]
  · rw [h.thread_iff, hblock]
    by_cases hb : s.blockOf t = some (.cond cond)
    · simp [hb]
    · rw [if_neg hb]
  · rw [hblock] at ht
    by_cases hb : s.blockOf t = some (.cond cond)
    · simp [hb] at ht
    · rw [if_neg hb] at ht
      have hc : c ≠ cond := by
        rintro rfl
        exact hb ht
      simpa [hc] using h.mem_cond c t ht
  · have hc : c ≠ cond := by
      rintro rfl
      simp at ht
    have ht : t ∈ s.condWaits c := by simpa [hc] using ht
    refine (h.of_mem_cond c t ht).imp_right fun hb ↦ ?_
    rw [hblock, if_neg, hb]
    rw [hb]
    simpa using hc

theorem blockOf_addTimer (s : Scheduler) (id : TaskId) (deadline : ℕ) :
    (s.addTimer id deadline).blockOf = s.blockOf := by
  unfold Scheduler.addTimer
  split
  · rename_i rec hrec
    refine (blockOf_setTask _ id _).trans ?_
    rw [← blockOf_of_tasks hrec]
    exact Function.update_eq_self id s.blockOf
  · rfl

theorem sameTables_addTimer (s : Scheduler) (id : TaskId) (deadline : ℕ) :
    SameTables s (s.addTimer id deadline) := by
  unfold Scheduler.addTimer
  split <;> exact ⟨rfl, rfl, rfl, rfl, rfl⟩

/-- A fresh token for a task that is not blocked. -/
theorem Waits.addIoWait (h : Waits s s.blockOf) (hnone : s.blockOf id = none) {b : Block}
    (hb : b = .io s.nextToken ∨ b = .ioRetry s.nextToken) :
    Waits (s.addIoWait id).2 (Function.update s.blockOf id (some b)) := by
  have hfresh : (s.ioWaits.filter fun w ↦ w.1 ≠ s.nextToken) = s.ioWaits := by
    refine List.filter_eq_self.2 fun w hw ↦ ?_
    simpa using (h.io_lt w hw).ne
  unfold Scheduler.addIoWait
  rw [hfresh]
  refine ⟨fun k t ↦ ?_, ?_, fun w hw ↦ ?_, fun k t ↦ ?_, h.thread_keys, h.thread_lt,
    fun c t ht ↦ ?_, fun c t ht ↦ ?_⟩
  · rw [List.mem_cons, h.io_iff, Prod.mk.injEq]
    by_cases ht : t = id
    · subst ht
      rcases hb with rfl | rfl <;> simp [hnone, eq_comm]
    · simp [ht]
  · show (s.nextToken :: s.ioWaits.map Prod.fst).Nodup
    refine List.nodup_cons.2 ⟨fun hmem ↦ ?_, h.io_keys⟩
    obtain ⟨w, hw, hwk⟩ := List.mem_map.1 hmem
    exact (h.io_lt w hw).ne hwk
  · show w.1 < s.nextToken + 1
    rcases List.mem_cons.1 hw with rfl | hw
    · exact Nat.lt_succ_self _
    · exact (h.io_lt w hw).trans (Nat.lt_succ_self _)
  · rw [h.thread_iff]
    by_cases ht : t = id
    · subst ht
      rcases hb with rfl | rfl <;> simp [hnone]
    · simp [ht]
  · by_cases htid : t = id
    · subst htid
      rcases hb with rfl | rfl <;> simp at ht
    · exact h.mem_cond c t (by simpa [htid] using ht)
  · refine (h.of_mem_cond c t ht).imp_right fun hc ↦ ?_
    have htid : t ≠ id := by
      rintro rfl
      simp [hnone] at hc
    simpa [htid] using hc

/-- A fresh key for a task that is not blocked. -/
theorem Waits.addThreadWait (h : Waits s s.blockOf) (hnone : s.blockOf id = none) :
    Waits (s.addThreadWait id s.nextThreadKey)
      (Function.update s.blockOf id (some (.thread s.nextThreadKey))) := by
  have hfresh : (s.threadWaits.filter fun w ↦ w.1 ≠ s.nextThreadKey) = s.threadWaits := by
    refine List.filter_eq_self.2 fun w hw ↦ ?_
    simpa using (h.thread_lt w hw).ne
  unfold Scheduler.addThreadWait
  rw [hfresh]
  refine ⟨fun k t ↦ ?_, h.io_keys, h.io_lt, fun k t ↦ ?_, ?_, fun w hw ↦ ?_,
    fun c t ht ↦ ?_, fun c t ht ↦ ?_⟩
  · rw [h.io_iff]
    by_cases ht : t = id
    · simp [ht, hnone]
    · simp [ht]
  · rw [List.mem_cons, h.thread_iff, Prod.mk.injEq]
    by_cases ht : t = id
    · simp [ht, hnone, eq_comm]
    · simp [ht]
  · show (s.nextThreadKey :: s.threadWaits.map Prod.fst).Nodup
    refine List.nodup_cons.2 ⟨fun hmem ↦ ?_, h.thread_keys⟩
    obtain ⟨w, hw, hwk⟩ := List.mem_map.1 hmem
    exact (h.thread_lt w hw).ne hwk
  · show w.1 < s.nextThreadKey + 1
    rcases List.mem_cons.1 hw with rfl | hw
    · exact Nat.lt_succ_self _
    · exact (h.thread_lt w hw).trans (Nat.lt_succ_self _)
  · by_cases htid : t = id
    · simp [htid] at ht
    · exact h.mem_cond c t (by simpa [htid] using ht)
  · refine (h.of_mem_cond c t ht).imp_right fun hc ↦ ?_
    have htid : t ≠ id := by
      rintro rfl
      simp [hnone] at hc
    simpa [htid] using hc

/-- One more task on the list of a condition, which is not blocked yet. -/
theorem Waits.addCondWait (h : Waits s s.blockOf) (hnone : s.blockOf id = none) (cond : CondId) :
    Waits { s with condWaits := Function.update s.condWaits cond (s.condWaits cond ++ [id]) }
      (Function.update s.blockOf id (some (.cond cond))) := by
  refine ⟨fun k t ↦ ?_, h.io_keys, h.io_lt, fun k t ↦ ?_, h.thread_keys, h.thread_lt,
    fun c t ht ↦ ?_, fun c t ht ↦ ?_⟩
  · rw [h.io_iff]
    by_cases ht : t = id
    · simp [ht, hnone]
    · simp [ht]
  · rw [h.thread_iff]
    by_cases ht : t = id
    · simp [ht, hnone]
    · simp [ht]
  · by_cases htid : t = id
    · have hc : cond = c := by simpa [htid] using ht
      simp [hc, htid]
    · have hmem := h.mem_cond c t (by simpa [htid] using ht)
      by_cases hc : c = cond
      · subst hc
        simp [hmem]
      · simpa [hc] using hmem
  · by_cases htid : t = id
    · subst htid
      by_cases hc : c = cond
      · simp [hc]
      · have hmem : t ∈ s.condWaits c := by simpa [hc] using ht
        refine (h.of_mem_cond c t hmem).imp_right fun hb ↦ ?_
        simp [hnone] at hb
    · have hmem : t ∈ s.condWaits c := by
        by_cases hc : c = cond
        · subst hc
          simpa [htid] using ht
        · simpa [hc] using ht
      exact (h.of_mem_cond c t hmem).imp_right fun hb ↦ by simpa [htid] using hb

theorem Waits.parkIo (hinv : Inv s held (some s.current) none) (h : Waits s s.blockOf)
    (deadline : Option ℕ) {b : Block} (hb : b = .io s.nextToken ∨ b = .ioRetry s.nextToken) :
    Waits (s.parkIo deadline) (Function.update (s.parkIo deadline).blockOf s.current (some b)) := by
  have h₁ := h.addIoWait hinv.blockOf_current hb
  unfold Scheduler.parkIo
  split
  · rw [blockOf_addTimer]
    exact h₁.frame (sameTables_addTimer ..)
  · exact h₁

/-! ### Every step -/

/-- The wait tables of the machine's scheduler are right. -/
def VmWaits (vm : Vm) : Prop :=
  ∀ s, vm.sched = some s → Waits s s.blockOf

theorem waits_taskScopeClose (hinv : s.Sound false) (h : Waits s s.blockOf) (id : ScopeId)
    (nested : ℕ) (picking : Bool) : VmWaits ⟨(s.taskScopeClose id nested).2, picking⟩ := by
  unfold Scheduler.taskScopeClose
  split
  · rintro _ ⟨⟩
    exact h
  · rename_i sc hsc
    split
    · rintro _ ⟨⟩
      exact h
    · have hinv₁ : (s.setScope id { sc with closed := true }).Sound false :=
        hinv.setScope hsc rfl rfl rfl
      have h₁ := (sameWaits_setScope s id { sc with closed := true }).waits h
      simp only
      split
      · rename_i hdone
        split
        · rintro _ ⟨⟩
          exact h₁
        · intro s' hs'
          rw [dropIdle_eq_some hs']
          exact (Inv.sameWaits_removeScope hinv₁ hdone).waits h₁
      · split
        · rintro _ ⟨⟩
          exact h₁
        · rintro _ ⟨⟩
          exact h₁.suspendAt_plain hinv₁ (by rintro _ ⟨⟩; rfl) _

theorem waits_taskSpawn (hinv : s.Sound false) (h : Waits s s.blockOf) (scope : ScopeId) :
    VmWaits (Vm.after (s.taskSpawn scope)) := by
  unfold Scheduler.taskSpawn
  split
  · rename_i hopen
    obtain ⟨sc, hsc, -⟩ := (Option.any_eq_true _ _).1 hopen
    rintro _ ⟨⟩
    refine SameWaits.waits ⟨?_, fun t b _ ↦ ?_⟩ h
    · simp only [Scheduler.addTask, Scheduler.addChild, hsc]
      exact ⟨rfl, rfl, rfl, rfl, rfl⟩
    · have hfresh : s.blockOf s.nextTask = none := by
        rcases hrec : s.tasks s.nextTask with - | rec
        · simp [Scheduler.blockOf, hrec]
        · exact absurd (Inv.task_lt hinv _ rec hrec) (lt_irrefl _)
      by_cases ht : t = s.nextTask
      · rw [ht, hfresh]
        simp [Scheduler.addTask, Scheduler.addChild, hsc, Scheduler.blockOf, TaskRec.new,
          Scheduler.setScope]
      · simp [Scheduler.addTask, Scheduler.addChild, hsc, Scheduler.blockOf, Scheduler.setScope, ht]
  · rintro _ ⟨⟩
    exact h

theorem waits_taskJoin (hinv : s.Sound false) (h : Waits s s.blockOf) (id : TaskId) (nested : ℕ) :
    VmWaits (Vm.after (s.taskJoin id nested)) := by
  unfold Scheduler.taskJoin
  split
  · rintro _ ⟨⟩
    exact h
  · rename_i rec hrec
    split
    · rintro _ ⟨⟩
      exact h
    · split
      · rintro _ ⟨⟩
        exact h
      · have hok := Inv.task hinv id rec hrec
        have hinv₁ : (s.setTask id { rec with joiners := rec.joiners ++ [s.current] }).Sound false :=
          hinv.touch_data hrec rfl rfl (fun h ↦ h) ⟨hok.1, hok.2, hok.3, hok.4, hok.5, hok.6⟩
        have hsame : SameWaits s (s.setTask id { rec with joiners := rec.joiners ++ [s.current] }) :=
          sameWaits_setTask hrec fun _ _ ↦ Iff.rfl
        simp only
        split
        · rintro _ ⟨⟩
          exact hsame.waits h
        · rintro _ ⟨⟩
          exact (hsame.waits h).suspendAt_plain hinv₁ (by rintro _ ⟨⟩; rfl) _

theorem waits_taskSleep (hinv : s.Sound false) (h : Waits s s.blockOf) (deadline nested : ℕ) :
    VmWaits (Vm.after (s.taskSleep deadline nested)) := by
  unfold Scheduler.taskSleep
  split
  · rintro _ ⟨⟩
    exact h
  · rintro _ ⟨⟩
    refine Waits.suspendAt_plain ?_ (by rintro _ ⟨⟩; rfl) _ ?_
    · rw [addTimer_current]
      exact hinv.addTimer _ _
    · rw [blockOf_addTimer]
      exact h.frame (sameTables_addTimer ..)

theorem waits_taskYield (hinv : s.Sound false) (h : Waits s s.blockOf) (nested : ℕ) :
    VmWaits (Vm.after (s.taskYield nested)) := by
  unfold Scheduler.taskYield
  split
  · rintro _ ⟨⟩
    exact h
  · rintro _ ⟨⟩
    exact h.suspendAt_plain hinv (by simp) _

theorem waits_taskCondWait (hinv : s.Sound false) (h : Waits s s.blockOf) (cond : CondId)
    (nested : ℕ) : VmWaits (Vm.after (s.taskCondWait cond nested)) := by
  unfold Scheduler.taskCondWait
  split
  · rintro _ ⟨⟩
    exact h
  · rintro _ ⟨⟩
    refine Waits.suspendAt ?_ _ (h.addCondWait (Inv.blockOf_current hinv) cond)
    exact hinv.frame rfl rfl rfl rfl rfl rfl rfl rfl

theorem sameWaits_setShield (hrec : s.tasks id = some rec) (n : ℕ) :
    SameWaits s (s.setTask id { rec with shield := n }) :=
  sameWaits_setTask hrec fun _ _ ↦ Iff.rfl

theorem waits_taskShieldExit (hinv : s.Sound false) (h : Waits s s.blockOf) (nested : ℕ) :
    VmWaits (Vm.after (s.taskShieldExit nested)) := by
  unfold Scheduler.taskShieldExit
  split
  · rintro _ ⟨⟩
    exact h
  · rename_i rec hrec
    have hinv₁ : (s.setTask s.current { rec with shield := rec.shield - 1 }).Sound false :=
      hinv.setShield hrec _
    have h₁ := (sameWaits_setShield hrec (rec.shield - 1)).waits h
    simp only
    split
    · rintro _ ⟨⟩
      exact h₁
    · rintro _ ⟨⟩
      exact h₁.suspendAt_plain hinv₁ (by simp) _

theorem waits_taskScopeOpen {sched : Option Scheduler} {nested : ℕ} {r : ScopeId × Scheduler}
    (h : VmWaits ⟨sched, false⟩) (hr : taskScopeOpen sched nested = some r) :
    Waits r.2 r.2.blockOf := by
  unfold taskScopeOpen at hr
  split at hr
  · rw [← Option.some.inj hr]
    exact (Waits.new nested).frame ⟨rfl, rfl, rfl, rfl, rfl⟩
  · split at hr
    · rw [← Option.some.inj hr]
      exact (h _ rfl).frame ⟨rfl, rfl, rfl, rfl, rfl⟩
    · split at hr
      · rw [← Option.some.inj hr]
        exact (Waits.new nested).frame ⟨rfl, rfl, rfl, rfl, rfl⟩
      · simp at hr

/-- **Every step of the machine keeps the wait tables right.** -/
theorem VmStep.waits {vm vm' : Vm} (hstep : VmStep vm vm') (hinv : VmInv vm) (h : VmWaits vm) :
    VmWaits vm' := by
  cases hstep with
  | scopeOpen hr =>
    rintro _ ⟨⟩
    exact waits_taskScopeOpen h hr
  | scopeClose s id nested => exact waits_taskScopeClose (hinv s rfl) (h s rfl) id nested _
  | scopeError s id hdone =>
    intro s' hs'
    rw [dropIdle_eq_some hs']
    refine (Inv.sameWaits_removeScope (hinv s rfl) ?_).waits (h s rfl)
    rcases hsc : s.scopes id with - | sc
    · simp [Scheduler.childrenFinished, hsc]
    · simp [Scheduler.childrenFinished, hsc, (hdone sc hsc).2.2]
  | spawn s scope => exact waits_taskSpawn (hinv s rfl) (h s rfl) scope
  | join s id nested => exact waits_taskJoin (hinv s rfl) (h s rfl) id nested
  | sleep s deadline nested => exact waits_taskSleep (hinv s rfl) (h s rfl) deadline nested
  | yield s nested => exact waits_taskYield (hinv s rfl) (h s rfl) nested
  | cancel s id =>
    rintro _ ⟨⟩
    exact Waits.requestCancel (hinv s rfl) (h s rfl)
  | shieldEnter s =>
    rintro _ ⟨⟩
    unfold Scheduler.taskShieldEnter
    split
    · rename_i rec hrec
      exact (sameWaits_setShield hrec _).waits (h s rfl)
    · exact h s rfl
  | shieldExit s nested => exact waits_taskShieldExit (hinv s rfl) (h s rfl) nested
  | condWait s cond nested => exact waits_taskCondWait (hinv s rfl) (h s rfl) cond nested
  | condNotify s cond =>
    rintro _ ⟨⟩
    exact Waits.notifyCond (hinv s rfl) cond (h s rfl)
  | @suspendThread s nested _ =>
    rintro _ ⟨⟩
    refine Waits.suspendAt ?_ _ ((h s rfl).addThreadWait (Inv.blockOf_current (hinv s rfl)))
    exact Inv.frame (hinv s rfl) rfl rfl rfl rfl rfl rfl rfl rfl
  | @suspendIo s nested _ deadline =>
    rintro _ ⟨⟩
    refine Waits.suspendAt ?_ _ ?_
    · rw [parkIo_current]
      exact Inv.parkIo (hinv s rfl) deadline
    · rw [parkIo_current]
      exact Waits.parkIo (hinv s rfl) (h s rfl) deadline (.inl rfl)
  | @suspendIoRetry s nested _ deadline =>
    rintro _ ⟨⟩
    refine Waits.suspendAt ?_ _ ?_
    · rw [parkIo_current]
      exact Inv.parkIo (hinv s rfl) deadline
    · rw [parkIo_current]
      exact Waits.parkIo (hinv s rfl) (h s rfl) deadline (.inr rfl)
  | @finished s hroot =>
    rintro _ ⟨⟩
    exact Waits.taskEnd (hinv s rfl) hroot (by simp [eq_comm]) rfl _ (h s rfl)
  | @recoverPanic s rec hroot hrec msg =>
    rintro _ ⟨⟩
    split
    · exact Waits.taskEnd (hinv s rfl) hroot (by simp [eq_comm]) rfl _ (h s rfl)
    · exact Waits.taskEnd (hinv s rfl) hroot (by simp [eq_comm]) rfl _ (h s rfl)
  | teardown =>
    rintro _ ⟨⟩
  | post s picking key =>
    rintro _ ⟨⟩
    exact (h s rfl).frame ⟨rfl, rfl, rfl, rfl, rfl⟩
  | rehash picking horder =>
    rintro _ ⟨⟩
    exact (h _ rfl).frame ⟨rfl, rfl, rfl, rfl, rfl⟩
  | pick s w =>
    rintro _ ⟨⟩
    exact Waits.runNext (hinv s rfl) w (h s rfl)

theorem VmReachable.waits {vm : Vm} (h : VmReachable vm) : VmWaits vm := by
  induction h with
  | refl =>
    rintro _ ⟨⟩
  | tail hreach hstep ih => exact hstep.waits (VmReachable.inv hreach) ih

/-! ### The bookkeeping of every reachable state -/

/-- The scheduler's records, counters and tables are consistent. -/
structure Bookkeeping (s : Scheduler) : Prop where
  /-- A ready task is in the run queue exactly once. -/
  ready_queued : ∀ id, s.isReady id = true → s.runQueue.count id = 1
  /-- `live` counts the child tasks not finished. -/
  live_eq : ∃ tasks : Finset TaskId, tasks.card = s.live ∧
    ∀ id, id ∈ tasks ↔ id ≠ root ∧ s.unfinished id = true
  /-- A scope's `unfinished` counts its children not finished. -/
  unfinished_eq : ∀ i sc, s.scopes i = some sc → sc.children.Nodup ∧
    sc.unfinished = (sc.children.filter s.unfinished).length
  /-- No counter was ever taken below zero. -/
  no_underflow : s.underflow = false
  /-- A task is blocked iff it has a reason to be. -/
  blocked_iff : ∀ id rec, s.tasks id = some rec → (rec.state = .blocked ↔ rec.block.isSome = true)
  /-- The wait tables agree with what each task is blocked on. -/
  waits : Waits s s.blockOf
  /-- The scope of an unfinished child is open and lists it. -/
  scope_open : ∀ id rec, id ≠ root → s.tasks id = some rec → rec.state.finished = false →
    ∃ sc, s.scopes rec.scope = some sc ∧ id ∈ sc.children
  /-- A scheduler that is forgotten for being idle has no unfinished child. -/
  idle_done : s.idle = true → ∀ id, id ≠ root → s.unfinished id = false

/-- **In every reachable state** the scheduler's bookkeeping is right. -/
theorem reachable_bookkeeping {s : Scheduler} {picking : Bool}
    (h : VmReachable ⟨some s, picking⟩) : Bookkeeping s := by
  have hinv : s.Sound picking := h.inv s rfl
  have hlive : ∀ id, id ∈ s.liveTasks ↔ id ≠ root ∧ s.unfinished id = true := by
    intro id
    rw [Scheduler.mem_liveTasks]
    refine and_iff_right_of_imp fun hid ↦ ?_
    obtain ⟨rec, hrec, -⟩ := (Option.any_eq_true _ _).1 hid.2
    exact hinv.task_lt id rec hrec
  refine ⟨fun id hid ↦ ?_, ⟨s.liveTasks, hinv.live.symm, hlive⟩, fun i sc hi ↦ ?_, hinv.underflow,
    fun id rec hrec ↦ (hinv.task id rec hrec).blocked_iff, h.waits s rfl,
    fun id rec hid hrec _ ↦ hinv.child id rec hid hrec, fun hidle id hid ↦ ?_⟩
  · exact List.count_eq_one_of_mem hinv.queue_nodup ((hinv.queue_iff id).2 ⟨hid, fun hf ↦ hf⟩)
  · exact ⟨(hinv.scope i sc hi).nodup, (hinv.scope i sc hi).count⟩
  · by_contra hunf
    have hmem := (hlive id).2 ⟨hid, by simpa using hunf⟩
    have hzero : s.live = 0 := by
      have := (Bool.and_eq_true_iff.1 (Bool.and_eq_true_iff.1 hidle).1).1
      simpa using this
    rw [hinv.live, Finset.card_eq_zero] at hzero
    rw [hzero] at hmem
    simp at hmem

/-- The root opened a scope, spawned a task and waits for the scope's end: the task is queued. -/
theorem reachable_bookkeeping_waiting : ∃ s : Scheduler, VmReachable ⟨some s, true⟩ ∧
    s.runQueue = [1] ∧ s.live = 1 ∧ s.blockOf root = some (.scope 1) ∧ Bookkeeping s := by
  let s₀ := (Scheduler.new 0).openScope.2
  let s₁ := (s₀.taskSpawn 1).2
  let s₂ := (s₁.setScope 1 ⟨root, [1], 1, true, none⟩).suspendAt (some (.scope 1)) true
  have hreach : VmReachable ⟨some s₂, true⟩ :=
    ((Relation.ReflTransGen.refl.tail (@VmStep.scopeOpen none 0 _ rfl)).tail
      (VmStep.spawn s₀ 1)).tail (VmStep.scopeClose s₁ 1 0)
  exact ⟨s₂, hreach, rfl, rfl, rfl, reachable_bookkeeping hreach⟩

end CoilLang.Task
