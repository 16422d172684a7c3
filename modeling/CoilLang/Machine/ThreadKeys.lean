import CoilLang.Machine.VmWaits

/-!
# Thread waits and posted keys

A task that waits for another OS thread has an entry in the table of thread waits under a key, and the
other thread posts that key. **Only a suspension adds an entry**, and only the scheduler's own take
removes posted keys, with the entries they belong to: every other operation keeps the posted keys and
at most drops entries (`Fewer`).
-/

namespace CoilLang.Task

/-- The posted keys are the same, no thread wait is new and no key was used. -/
structure Fewer (s s' : Scheduler) : Prop where
  waits : s'.threadWaits ⊆ s.threadWaits
  posted : s'.posted = s.posted
  key : s'.nextThreadKey = s.nextThreadKey

variable {s s' s'' : Scheduler} {id : TaskId} {rec : TaskRec}

theorem Fewer.refl (s : Scheduler) : Fewer s s := ⟨fun _ h ↦ h, rfl, rfl⟩

theorem Fewer.trans (h : Fewer s s') (h' : Fewer s' s'') : Fewer s s'' :=
  ⟨fun _ hw ↦ h.waits (h'.waits hw), h'.posted.trans h.posted, h'.key.trans h.key⟩

theorem Fewer.of_eq (hw : s'.threadWaits = s.threadWaits) (hp : s'.posted = s.posted)
    (hk : s'.nextThreadKey = s.nextThreadKey) : Fewer s s' :=
  ⟨fun _ h ↦ hw ▸ h, hp, hk⟩

theorem Fewer.foldl {α : Type*} {f : Scheduler → α → Scheduler} (hf : ∀ s a, Fewer s (f s a))
    (l : List α) (s : Scheduler) : Fewer s (l.foldl f s) :=
  List.foldlRecOn (motive := Fewer s) l f (.refl s) fun _ h a _ ↦ h.trans (hf _ a)

/-! ### Waking and finishing -/

theorem fewer_makeReady (s : Scheduler) (id : TaskId) (wake : Wake) : Fewer s (s.makeReady id wake) := by
  unfold Scheduler.makeReady
  split
  · split
    · exact .of_eq rfl rfl rfl
    · exact .refl s
  · exact .refl s

theorem fewer_wakeIf (s : Scheduler) (b : Block) (wake : Wake) (j : TaskId) :
    Fewer s (s.wakeIf b wake j) := by
  unfold Scheduler.wakeIf
  split
  · exact fewer_makeReady s j wake
  · exact .refl s

theorem fewer_wakeAll (s : Scheduler) (b : Block) (wake : Wake) (ids : List TaskId) :
    Fewer s (s.wakeAll b wake ids) :=
  Fewer.foldl (fun s j ↦ fewer_wakeIf s b wake j) ids s

theorem fewer_checkScopeDone (s : Scheduler) (i : ScopeId) : Fewer s (s.checkScopeDone i) := by
  unfold Scheduler.checkScopeDone
  split
  · split
    · exact .refl s
    · exact fewer_wakeIf s _ _ _
  · exact .refl s

theorem fewer_removeScope (s : Scheduler) (i : ScopeId) : Fewer s (s.removeScope i) := by
  unfold Scheduler.removeScope
  split
  · exact .of_eq rfl rfl rfl
  · exact .refl s

theorem fewer_decUnfinished (s : Scheduler) (i : ScopeId) : Fewer s (s.decUnfinished i) := by
  unfold Scheduler.decUnfinished
  split
  · exact .of_eq rfl rfl rfl
  · exact .refl s

theorem fewer_settle (s : Scheduler) (id : TaskId) (rec : TaskRec) (state : TaskState) :
    Fewer s (s.settle id rec state) := by
  have h₁ : Fewer s (s.setTask id { rec with state := state, ending := none }).decLive :=
    .of_eq rfl rfl rfl
  unfold Scheduler.settle
  simp only
  refine Fewer.trans ?_ (Fewer.foldl fewer_removeScope _ _)
  split
  · exact h₁.trans (fewer_decUnfinished _ _)
  · exact h₁

theorem fewer_wakeWaiters (s : Scheduler) (id : TaskId) (rec : TaskRec) :
    Fewer s (s.wakeWaiters id rec) := by
  have h₁ : Fewer s (s.setTask id { rec with joiners := [] }) := .of_eq rfl rfl rfl
  exact (h₁.trans (fewer_wakeAll _ _ _ _)).trans (fewer_checkScopeDone _ _)

theorem fewer_finalize (s : Scheduler) (id : TaskId) (state : TaskState) :
    Fewer s (s.finalize id state) := by
  induction id using Nat.strong_induction_on generalizing s state with
  | _ id ih =>
    unfold Scheduler.finalize
    split
    · exact .refl s
    rename_i rec hrec
    have h₁ := fewer_settle s id rec state
    simp only
    split
    · exact h₁
    rename_i rec₁ hrec₁
    have h₂ := h₁.trans (fewer_wakeWaiters _ id rec₁)
    split
    · exact h₂
    split
    · split
      · rename_i hlt
        exact h₂.trans (ih _ hlt _ _)
      · exact h₂
    · split
      · exact h₂.trans (fewer_makeReady _ _ _)
      · exact h₂

/-! ### Cancelling and ending -/

theorem fewer_dropWait (s : Scheduler) (id : TaskId) (b : Option Block) : Fewer s (s.dropWait id b) := by
  rcases b with - | b
  · exact .refl s
  · cases b with
    | thread key => exact ⟨fun _ h ↦ (List.mem_filter.1 h).1, rfl, rfl⟩
    | _ => exact .of_eq rfl rfl rfl

theorem fewer_deliverCancel (s : Scheduler) (id : TaskId) (rec : TaskRec) :
    Fewer s (s.deliverCancel id rec) := by
  unfold Scheduler.deliverCancel
  simp only
  split
  · exact .of_eq rfl rfl rfl
  · refine Fewer.trans ?_ (fewer_dropWait _ id rec.block)
    exact .of_eq rfl rfl rfl

theorem fewer_requestCancel (s : Scheduler) (id : TaskId) : Fewer s (s.requestCancel id) := by
  unfold Scheduler.requestCancel
  split
  · exact .refl s
  split
  · exact .refl s
  split
  · refine Fewer.trans ?_ (fewer_finalize _ id .dropped)
    exact .of_eq rfl rfl rfl
  · exact fewer_deliverCancel s id _

theorem fewer_requestCancels (s : Scheduler) (ids : List TaskId) : Fewer s (s.requestCancels ids) :=
  Fewer.foldl fewer_requestCancel ids s

theorem fewer_cancelWaitsForChildren (s : Scheduler) (id : TaskId) :
    Fewer s (s.cancelWaitsForChildren id).2 := by
  unfold Scheduler.cancelWaitsForChildren
  split
  · exact .refl s
  split
  · exact .refl s
  have h₁ := fewer_requestCancels s (s.ownedChildren id)
  simp only
  split
  · exact h₁
  split
  · exact h₁.trans (.of_eq rfl rfl rfl)
  · exact h₁

theorem fewer_closeScope (s : Scheduler) (i : ScopeId) : Fewer s (s.closeScope i) := by
  unfold Scheduler.closeScope
  split
  · exact .of_eq rfl rfl rfl
  · exact .refl s

theorem fewer_failScope (s : Scheduler) (i : ScopeId) (panic : Option String) :
    Fewer s (s.failScope i panic) := by
  unfold Scheduler.failScope
  split
  · exact .of_eq rfl rfl rfl
  · exact .refl s

theorem fewer_taskEnd (s : Scheduler) (id : TaskId) (state : TaskState) (panic : Option String) :
    Fewer s (s.taskEnd id state panic) := by
  unfold Scheduler.taskEnd
  split
  · exact .refl s
  rename_i rec hrec
  have h₁ : Fewer s (s.setTask id { rec with
      state := .ending, ending := some state, panic := panic.or rec.panic }) := .of_eq rfl rfl rfl
  have h₂ : Fewer s (s.beginEnd id rec state panic).2 :=
    (h₁.trans (fewer_failScope _ _ _)).trans (Fewer.foldl fewer_closeScope _ _)
  have h₃ := h₂.trans (fewer_requestCancels _ (s.beginEnd id rec state panic).1)
  simp only
  split
  · exact h₃.trans (fewer_finalize _ id state)
  · exact h₃

/-! ### Suspending and switching -/

theorem fewer_suspendAt (s : Scheduler) (block : Option Block) (resultSlot : Bool) :
    Fewer s (s.suspendAt block resultSlot) := by
  unfold Scheduler.suspendAt
  split
  · exact .refl s
  rename_i rec hrec
  have h₁ : Fewer s (if (rec.cancel == .requested && rec.shield == 0) = true then
      { (s.setTask s.current { rec with timerSeq := none }).dropWait s.current block with
        runQueue := s.current :: s.runQueue } else s) := by
    split
    · have hset : Fewer s (s.setTask s.current { rec with timerSeq := none }) := .of_eq rfl rfl rfl
      exact (hset.trans (fewer_dropWait _ s.current block)).trans (.of_eq rfl rfl rfl)
    · exact .refl s
  simp only
  split
  · exact h₁.trans (.of_eq rfl rfl rfl)
  · exact h₁.trans (.of_eq rfl rfl rfl)

theorem fewer_enterTask (s : Scheduler) (id : TaskId) (w : World) : Fewer s (s.enterTask id w).2 := by
  have hswitch : Fewer s (s.switchIn id) := by
    unfold Scheduler.switchIn
    split
    · exact .of_eq rfl rfl rfl
    · exact .of_eq rfl rfl rfl
  have htake : ∀ t : Scheduler, Fewer t t.takeCancel.2 := by
    intro t
    unfold Scheduler.takeCancel
    split
    · split
      · exact .refl t
      · exact .of_eq rfl rfl rfl
    · exact .refl t
  have hfailed : Fewer s (s.switchInFailed id) := by
    unfold Scheduler.switchInFailed
    split
    · exact .of_eq rfl rfl rfl
    · exact .refl s
  unfold Scheduler.enterTask
  split
  · exact hfailed.trans (fewer_taskEnd _ _ _ _)
  · have h₁ := hswitch.trans (htake _)
    simp only
    split
    · exact h₁
    · exact h₁.trans (fewer_taskEnd _ _ _ _)

theorem fewer_notifyCond (s : Scheduler) (cond : CondId) : Fewer s (s.notifyCond cond) := by
  refine Fewer.trans ?_ (fewer_wakeAll _ _ _ _)
  exact .of_eq rfl rfl rfl

theorem fewer_addTimer (s : Scheduler) (id : TaskId) (deadline : ℕ) :
    Fewer s (s.addTimer id deadline) := by
  unfold Scheduler.addTimer
  simp only
  split
  · exact .of_eq rfl rfl rfl
  · exact .of_eq rfl rfl rfl

theorem fewer_parkIo (s : Scheduler) (deadline : Option ℕ) : Fewer s (s.parkIo deadline) := by
  have h₁ : Fewer s (s.addIoWait s.current).2 := .of_eq rfl rfl rfl
  cases deadline with
  | none => exact h₁
  | some d => exact h₁.trans (fewer_addTimer _ _ _)

theorem fewer_dropIdle (h : s.dropIdle = some s') : Fewer s s' := by
  unfold Scheduler.dropIdle at h
  split at h
  · cases h
  · cases h
    exact .refl s

/-! ### Taking posted keys -/

theorem fst_ne_of_lookup_eq_none {l : List (ℕ × TaskId)} {k : ℕ} (h : l.lookup k = none)
    {p : ℕ × TaskId} (hp : p ∈ l) : p.1 ≠ k := by
  intro hk
  have := List.lookup_eq_none_iff.1 h p hp
  simp [hk] at this

theorem fewer_takeKey (s : Scheduler) (key : ℕ) : Fewer s (s.takeKey key).1 := by
  unfold Scheduler.takeKey
  split
  · exact .refl s
  · refine Fewer.trans ?_ (fewer_wakeIf _ _ _ _)
    exact ⟨fun _ h ↦ (List.mem_filter.1 h).1, rfl, rfl⟩

theorem fst_ne_of_mem_takeKey {key : ℕ} {p : ℕ × TaskId}
    (hp : p ∈ (s.takeKey key).1.threadWaits) : p.1 ≠ key := by
  unfold Scheduler.takeKey at hp
  split at hp
  · rename_i hkey
    exact fst_ne_of_lookup_eq_none hkey hp
  · have hmem := (fewer_wakeIf _ _ _ _).waits hp
    exact of_decide_eq_true (List.mem_filter.1 hmem).2

/-- The posted keys `keys` are taken, with the waits under them. -/
structure Taken (s s' : Scheduler) (keys : List ℕ) : Prop where
  waits : ∀ p ∈ s'.threadWaits, p ∈ s.threadWaits ∧ p.1 ∉ keys
  posted : s'.posted = []
  key : s'.nextThreadKey = s.nextThreadKey

theorem Fewer.taken {keys : List ℕ} (h : Fewer s s') (h' : Taken s' s'' keys) : Taken s s'' keys :=
  ⟨fun p hp ↦ ⟨h.waits (h'.waits p hp).1, (h'.waits p hp).2⟩, h'.posted, h'.key.trans h.key⟩

theorem Taken.fewer {keys : List ℕ} (h : Taken s s' keys) (h' : Fewer s' s'') : Taken s s'' keys :=
  ⟨fun p hp ↦ h.waits p (h'.waits hp), h'.posted.trans h.posted, h'.key.trans h.key⟩

theorem takePosted_taken (s : Scheduler) : Taken s s.takePosted.1 s.posted := by
  have key : ∀ (l : List ℕ) (acc : Scheduler × Bool),
      let r := l.foldl (fun acc key ↦ ((acc.1.takeKey key).1, acc.2 || (acc.1.takeKey key).2)) acc
      Fewer acc.1 r.1 ∧ ∀ p ∈ r.1.threadWaits, p.1 ∉ l := by
    intro l
    induction l with
    | nil => exact fun acc ↦ ⟨.refl _, fun p hp ↦ by simp⟩
    | cons k l ih =>
      intro acc
      obtain ⟨hfewer, hwaits⟩ := ih ((acc.1.takeKey k).1, acc.2 || (acc.1.takeKey k).2)
      refine ⟨(fewer_takeKey _ _).trans hfewer, fun p hp ↦ ?_⟩
      have hne : p.1 ≠ k := fst_ne_of_mem_takeKey (hfewer.waits hp)
      simp [hne, hwaits p hp]
  obtain ⟨hfewer, hwaits⟩ := key s.posted ({ s with posted := [] }, false)
  exact ⟨fun p hp ↦ ⟨hfewer.waits hp, hwaits p hp⟩, hfewer.posted, hfewer.key⟩

/-- A task that was woken. -/
def TaskRec.woken (wake : Wake) (rec : TaskRec) : TaskRec :=
  { rec with state := .ready, block := none, timerSeq := none, wake := some wake }

variable {held : TaskId → Prop} {run dying : Option TaskId}

theorem Inv.tasks_wakeIf (hinv : Inv s held run dying) (b : Block) (wake : Wake) (j id : TaskId) :
    (s.wakeIf b wake j).tasks id = if id = j ∧ s.blockOf id = some b then
      (s.tasks id).map (TaskRec.woken wake) else s.tasks id := by
  unfold Scheduler.wakeIf Scheduler.blockOf
  cases hrec : s.tasks j with
  | none =>
    rw [if_neg (by simp [Scheduler.blockedOn, hrec]), if_neg]
    rintro ⟨rfl, hb⟩
    simp [hrec] at hb
  | some rec =>
    by_cases hb : rec.block = some b
    · have hst : rec.state = .blocked := (hinv.task j rec hrec).blocked_iff.2 (by simp [hb])
      rw [if_pos (by simp [Scheduler.blockedOn, hrec, hb]), Scheduler.makeReady, hrec]
      simp only
      rw [if_pos hst]
      by_cases hid : id = j
      · subst hid
        simp [hrec, hb, TaskRec.woken]
      · simp [hid]
    · rw [if_neg (by simp [Scheduler.blockedOn, hrec, hb]), if_neg]
      rintro ⟨rfl, hb'⟩
      exact hb (by simpa [hrec] using hb')

theorem Inv.tasks_wakeAll (hinv : Inv s held run dying) (b : Block) (wake : Wake) (ids : List TaskId)
    (id : TaskId) : (s.wakeAll b wake ids).tasks id = if id ∈ ids ∧ s.blockOf id = some b then
      (s.tasks id).map (TaskRec.woken wake) else s.tasks id := by
  induction ids generalizing s with
  | nil => simp [Scheduler.wakeAll]
  | cons j ids ih =>
    show ((s.wakeIf b wake j).wakeAll b wake ids).tasks id = _
    rw [ih (hinv.wakeIf b wake j)]
    have htasks := hinv.tasks_wakeIf b wake j id
    by_cases hj : id = j ∧ s.blockOf id = some b
    · rw [if_pos hj] at htasks
      have hnone : (s.wakeIf b wake j).blockOf id = none := by
        unfold Scheduler.blockOf
        rw [htasks]
        cases s.tasks id <;> rfl
      rw [if_neg (by simp [hnone]), if_pos ⟨by simp [hj.1], hj.2⟩, htasks]
    · rw [if_neg hj] at htasks
      have hsame : (s.wakeIf b wake j).blockOf id = s.blockOf id := by
        unfold Scheduler.blockOf
        rw [htasks]
      rw [hsame, htasks]
      refine if_congr ?_ rfl rfl
      rw [List.mem_cons]
      tauto

theorem Waits.tasks_notifyCond (hinv : Inv s held run dying) (h : Waits s s.blockOf) (cond : CondId)
    (id : TaskId) : (s.notifyCond cond).tasks id = if s.blockOf id = some (.cond cond) then
      (s.tasks id).map (TaskRec.woken (.status statusOk)) else s.tasks id := by
  have hinv₁ : Inv { s with condWaits := Function.update s.condWaits cond [] } held run dying :=
    hinv.frame rfl rfl rfl rfl rfl rfl rfl rfl
  rw [Scheduler.notifyCond, hinv₁.tasks_wakeAll]
  exact if_congr (and_iff_right_of_imp (h.mem_cond cond id)) rfl rfl

theorem Waits.tasks_takeKey (hinv : Inv s held run dying) (h : Waits s s.blockOf) (key : ℕ) (id : TaskId) :
    (s.takeKey key).1.tasks id = if s.blockOf id = some (.thread key) then
      (s.tasks id).map (TaskRec.woken .retry) else s.tasks id := by
  unfold Scheduler.takeKey
  split
  · rename_i hkey
    rw [if_neg]
    intro hb
    exact fst_ne_of_lookup_eq_none hkey ((h.thread_iff key id).2 hb) rfl
  · rename_i t hkey
    have hinv₁ : Inv { s with threadWaits := s.threadWaits.filter fun w ↦ w.1 ≠ key } held run dying :=
      hinv.frame rfl rfl rfl rfl rfl rfl rfl rfl
    refine (hinv₁.tasks_wakeIf _ _ _ _).trans (if_congr (and_iff_right_of_imp fun hb ↦ ?_) rfl rfl)
    exact eq_of_mem_keys h.thread_keys ((h.thread_iff key id).2 hb) (mem_of_lookup_eq_some hkey)

theorem Waits.tasks_takePosted (hinv : Inv s held run dying) (h : Waits s s.blockOf) (id : TaskId) :
    s.takePosted.1.tasks id = if ∃ key ∈ s.posted, s.blockOf id = some (.thread key) then
      (s.tasks id).map (TaskRec.woken .retry) else s.tasks id := by
  have key : ∀ (l : List ℕ) (acc : Scheduler × Bool), Inv acc.1 held run dying →
      Waits acc.1 acc.1.blockOf →
      (l.foldl (fun acc key ↦ ((acc.1.takeKey key).1, acc.2 || (acc.1.takeKey key).2)) acc).1.tasks id =
        if ∃ key ∈ l, acc.1.blockOf id = some (.thread key) then
          (acc.1.tasks id).map (TaskRec.woken .retry) else acc.1.tasks id := by
    intro l
    induction l with
    | nil => exact fun acc _ _ ↦ by simp
    | cons k l ih =>
      intro acc hinv h
      rw [List.foldl_cons, ih ((acc.1.takeKey k).1, acc.2 || (acc.1.takeKey k).2) (hinv.takeKey k)
        (h.takeKey hinv k)]
      have htasks := Waits.tasks_takeKey hinv h k id
      by_cases hk : acc.1.blockOf id = some (.thread k)
      · rw [if_pos hk] at htasks
        have hnone : (acc.1.takeKey k).1.blockOf id = none := by
          unfold Scheduler.blockOf
          rw [htasks]
          cases acc.1.tasks id <;> rfl
        rw [if_neg (by simp [hnone]), if_pos ⟨k, List.mem_cons_self, hk⟩, htasks]
      · rw [if_neg hk] at htasks
        have hsame : (acc.1.takeKey k).1.blockOf id = acc.1.blockOf id := by
          unfold Scheduler.blockOf
          rw [htasks]
        simp [hsame, htasks, hk]
  refine (key s.posted _ (hinv.frame rfl rfl rfl rfl rfl rfl rfl rfl) ?_)
  exact h.frame ⟨rfl, rfl, rfl, rfl, rfl⟩

/-! ### An iteration of the loop -/

theorem fewer_takeToken (s : Scheduler) (token : WaitToken) : Fewer s (s.takeToken token) := by
  unfold Scheduler.takeToken
  split
  · exact .refl s
  · refine Fewer.trans ?_ (fewer_makeReady _ _ _)
    exact .of_eq rfl rfl rfl

theorem fewer_timerExpired (s : Scheduler) (t : TaskId × Option Block) : Fewer s (s.timerExpired t) := by
  unfold Scheduler.timerExpired
  split
  · exact (fewer_dropWait s t.1 t.2).trans (fewer_makeReady _ _ _)
  · exact (fewer_dropWait s t.1 t.2).trans (fewer_makeReady _ _ _)
  · exact fewer_makeReady _ _ _
  · exact .refl s

theorem takeEvents_taken (s : Scheduler) (ready : List WaitToken) (posted : List ℕ) (now : ℕ) :
    Taken s (s.takeEvents ready posted now) (s.posted ++ posted) := by
  have h₁ : Fewer s (if s.ioWaits.isEmpty then s else ready.foldl Scheduler.takeToken s) := by
    split
    · exact .refl s
    · exact Fewer.foldl fewer_takeToken ready s
  set s₁ := if s.ioWaits.isEmpty then s else ready.foldl Scheduler.takeToken s with hs₁
  have h₂ := takePosted_taken { s₁ with posted := s₁.posted ++ posted }
  set s₂ := { s₁ with posted := s₁.posted ++ posted }.takePosted.1 with hs₂
  have h₃ : Fewer s₂ (s.takeEvents ready posted now) := by
    have hexp : Fewer s₂ (s₂.expiredTimers now).2 := .of_eq rfl rfl rfl
    exact hexp.trans (Fewer.foldl fewer_timerExpired _ _)
  rw [← h₁.posted]
  exact ⟨fun p hp ↦ ⟨h₁.waits (h₂.waits p (h₃.waits hp)).1, (h₂.waits p (h₃.waits hp)).2⟩,
    h₃.posted.trans h₂.posted, (h₃.key.trans h₂.key).trans h₁.key⟩

namespace Scheduler

/-- No task is ready and none was posted, but something may still wake one: the scheduler sleeps, and
keys may be posted meanwhile. -/
def sleeps (s : Scheduler) : Bool :=
  match s.popReady s.runQueue with
  | (none, q) =>
    let (s₁, any) := { s with runQueue := q }.takePosted
    let (deadline, s₂) := s₁.nextDeadline
    !any && !(s₂.ioWaits.isEmpty && s₂.threadWaits.isEmpty && deadline.isNone)
  | (some _, _) => false

end Scheduler

/-- **Posted keys after an iteration**: as before, or all taken with the waits under them, and those
posted while the scheduler slept too. -/
theorem runNext_keys (s : Scheduler) (w : World) :
    (Fewer s (s.runNext w).2 ∧ s.sleeps = false) ∨
      Taken s (s.runNext w).2 (s.posted ++ if s.sleeps then w.posted else []) := by
  unfold Scheduler.runNext Scheduler.sleeps
  rcases s.popReady s.runQueue with ⟨_ | id, q⟩
  · refine .inr ?_
    simp only
    have h₀ : Fewer s { s with runQueue := q } := .of_eq rfl rfl rfl
    have h₁ := h₀.taken (takePosted_taken { s with runQueue := q })
    set s₁ := { s with runQueue := q }.takePosted.1 with hs₁
    have h₂ : Taken s s₁.nextDeadline.2 s.posted := h₁.fewer (.of_eq rfl rfl rfl)
    unfold Scheduler.waitEvents
    simp only [Prod.fst_swap, Prod.snd_swap]
    by_cases hany : { s with runQueue := q }.takePosted.2 = true
    · simpa [hany] using h₁
    by_cases hnone : (s₁.nextDeadline.2.ioWaits.isEmpty && s₁.nextDeadline.2.threadWaits.isEmpty &&
        s₁.nextDeadline.1.isNone) = true
    · -- nothing could wake a task: a deadlock
      have hdead : Fewer s₁.nextDeadline.2 s₁.nextDeadline.2.deadlock := by
        unfold Scheduler.deadlock
        split
        · refine Fewer.trans ?_ (fewer_makeReady _ _ _)
          exact .of_eq rfl rfl rfl
        · exact .refl _
      rw [if_neg hany, if_pos hnone]
      simpa [hnone, ← hs₁] using h₂.fewer hdead
    · have h₃ := takeEvents_taken s₁.nextDeadline.2 w.ready w.posted w.now
      have h₄ : Taken s (s₁.nextDeadline.2.takeEvents w.ready w.posted w.now)
          (s.posted ++ w.posted) := by
        refine ⟨fun p hp ↦ ?_, h₃.posted, h₃.key.trans h₂.key⟩
        obtain ⟨hmem, hnot⟩ := h₃.waits p hp
        rw [h₂.posted, List.nil_append] at hnot
        exact ⟨(h₂.waits p hmem).1, by simp [(h₂.waits p hmem).2, hnot]⟩
      rw [if_neg hany, if_neg hnone]
      have hsleeps : (!{ s with runQueue := q }.takePosted.2 &&
          !(s₁.nextDeadline.2.ioWaits.isEmpty && s₁.nextDeadline.2.threadWaits.isEmpty &&
            s₁.nextDeadline.1.isNone)) = true := by
        simp only [Bool.not_eq_true] at hany hnone
        rw [hany, hnone]
        rfl
      rw [if_pos hsleeps]
      exact h₄
  · refine .inl ⟨?_, rfl⟩
    have h₁ : Fewer s { s with runQueue := q } := .of_eq rfl rfl rfl
    simp only
    split
    · refine h₁.trans ?_
      unfold Scheduler.resumeRoot
      split
      · exact .of_eq rfl rfl rfl
      · exact .of_eq rfl rfl rfl
    · have h₂ := h₁.trans (fewer_cancelWaitsForChildren _ id)
      split
      · exact h₂
      · exact h₂.trans (fewer_enterTask _ _ _)

/-! ### The natives -/

theorem fewer_taskScopeClose {i : ScopeId} {nested : ℕ} (h : (s.taskScopeClose i nested).2 = some s') :
    Fewer s s' := by
  unfold Scheduler.taskScopeClose at h
  split at h
  · cases h
    exact .refl s
  rename_i sc hsc
  have h₁ : Fewer s (s.setScope i { sc with closed := true }) := .of_eq rfl rfl rfl
  split at h
  · cases h
    exact .refl s
  simp only at h
  split at h
  · split at h
    · cases h
      exact h₁
    · exact (h₁.trans (fewer_removeScope _ i)).trans (fewer_dropIdle h)
  · split at h
    · cases h
      exact h₁
    · cases h
      exact h₁.trans (fewer_suspendAt _ _ _)

theorem fewer_taskSpawn (s : Scheduler) (i : ScopeId) : Fewer s (s.taskSpawn i).2 := by
  unfold Scheduler.taskSpawn
  split
  · have h₁ : Fewer s (s.addChild i s.nextTask) := by
      unfold Scheduler.addChild
      split
      · exact .of_eq rfl rfl rfl
      · exact .refl s
    exact h₁.trans (.of_eq rfl rfl rfl)
  · exact .refl s

theorem fewer_taskJoin (s : Scheduler) (id : TaskId) (nested : ℕ) : Fewer s (s.taskJoin id nested).2 := by
  unfold Scheduler.taskJoin
  split
  · exact .refl s
  rename_i rec hrec
  have h₁ : Fewer s (s.setTask id { rec with joiners := rec.joiners ++ [s.current] }) :=
    .of_eq rfl rfl rfl
  split
  · exact .refl s
  split
  · exact .refl s
  simp only
  split
  · exact h₁
  · exact h₁.trans (fewer_suspendAt _ _ _)

theorem fewer_taskSleep (s : Scheduler) (deadline nested : ℕ) :
    Fewer s (s.taskSleep deadline nested).2 := by
  unfold Scheduler.taskSleep
  split
  · exact .refl s
  · exact (fewer_addTimer _ _ _).trans (fewer_suspendAt _ _ _)

theorem fewer_taskYield (s : Scheduler) (nested : ℕ) : Fewer s (s.taskYield nested).2 := by
  unfold Scheduler.taskYield
  split
  · exact .refl s
  · exact fewer_suspendAt _ _ _

theorem fewer_taskCondWait (s : Scheduler) (cond : CondId) (nested : ℕ) :
    Fewer s (s.taskCondWait cond nested).2 := by
  unfold Scheduler.taskCondWait
  split
  · exact .refl s
  · refine Fewer.trans ?_ (fewer_suspendAt _ _ _)
    exact .of_eq rfl rfl rfl

theorem fewer_taskShieldExit (s : Scheduler) (nested : ℕ) : Fewer s (s.taskShieldExit nested).2 := by
  unfold Scheduler.taskShieldExit
  split
  · exact .refl s
  rename_i rec hrec
  have h₁ : Fewer s (s.setTask s.current { rec with shield := rec.shield - 1 }) := .of_eq rfl rfl rfl
  simp only
  split
  · exact h₁
  · exact h₁.trans (fewer_suspendAt _ _ _)

theorem fewer_taskSuspendThread (s : Scheduler) :
    Fewer (s.addThreadWait s.current s.nextThreadKey) s.taskSuspendThread :=
  fewer_suspendAt _ _ _

/-- **A step adds no thread wait**, unless it is the suspension of one: the scheduler stays, nothing is
posted and no key is used. -/
theorem VmStep.fewer {vm vm' : Vm} (hstep : VmStep vm vm') (hrun : vm.picking = false)
    (hs : vm.sched = some s) (hs' : vm'.sched = some s') (hbase : s'.baseNested = s.baseNested)
    (hposted : s'.posted = s.posted) (hkey : s'.nextThreadKey = s.nextThreadKey) : Fewer s s' := by
  cases hstep with
  | @scopeOpen _ nested r hopen =>
    cases hs
    cases hs'
    unfold taskScopeOpen at hopen
    simp only at hopen
    split at hopen
    · cases hopen
      exact .of_eq rfl rfl rfl
    · rename_i hne
      split at hopen
      · cases hopen
        exact absurd hbase.symm hne
      · cases hopen
  | scopeClose =>
    cases hs
    exact fewer_taskScopeClose hs'
  | scopeError =>
    cases hs
    exact (fewer_removeScope _ _).trans (fewer_dropIdle hs')
  | spawn =>
    cases hs
    cases hs'
    exact fewer_taskSpawn _ _
  | join =>
    cases hs
    cases hs'
    exact fewer_taskJoin _ _ _
  | sleep =>
    cases hs
    cases hs'
    exact fewer_taskSleep _ _ _
  | yield =>
    cases hs
    cases hs'
    exact fewer_taskYield _ _
  | cancel =>
    cases hs
    cases hs'
    exact fewer_requestCancel _ _
  | shieldEnter =>
    cases hs
    cases hs'
    unfold Scheduler.taskShieldEnter
    split
    · exact .of_eq rfl rfl rfl
    · exact .refl s
  | shieldExit =>
    cases hs
    cases hs'
    exact fewer_taskShieldExit _ _
  | condWait =>
    cases hs
    cases hs'
    exact fewer_taskCondWait _ _ _
  | condNotify =>
    cases hs
    cases hs'
    exact fewer_notifyCond _ _
  | suspendThread =>
    cases hs
    cases hs'
    have hsucc : s.taskSuspendThread.nextThreadKey = s.nextThreadKey + 1 :=
      (fewer_taskSuspendThread s).key
    omega
  | suspendIo =>
    cases hs
    cases hs'
    exact (fewer_parkIo _ _).trans (fewer_suspendAt _ _ _)
  | suspendIoRetry =>
    cases hs
    cases hs'
    exact (fewer_parkIo _ _).trans (fewer_suspendAt _ _ _)
  | finished =>
    cases hs
    cases hs'
    exact fewer_taskEnd _ _ _ _
  | recoverPanic =>
    cases hs
    cases hs'
    split
    · exact fewer_taskEnd _ _ _ _
    · exact fewer_taskEnd _ _ _ _
  | teardown => cases hs'
  | post =>
    cases hs
    cases hs'
    simp at hposted
  | rehash =>
    cases hs
    cases hs'
    exact .of_eq rfl rfl rfl
  | pick => cases hrun

end CoilLang.Task
