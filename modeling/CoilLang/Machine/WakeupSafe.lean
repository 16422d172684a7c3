import CoilLang.Machine.Wakeup

/-!
# No lost wakeup

While no native parks inside a callback, **a task is not left waiting for an object that was released**:
its waiter is in the object's list, taken off it or posted, and while it is in the list and the object
is ready or was released since, a releasing thread is still to take that list (`Safe`). A posted key
belongs to the wait of the task it wakes: keys are not used twice.

Inside a callback both fail.
-/

namespace CoilLang.Task

theorem ThreadObj.guarded_attempt {o o' : ThreadObj} (h : o.attempt = some o') :
    o'.guarded = o.guarded := by
  unfold ThreadObj.attempt at h
  split at h <;> cases h <;> rfl

theorem ThreadObj.guarded_release {o o' : ThreadObj} {r : Release} (h : o.release r = some o') :
    o'.guarded = o.guarded := by
  unfold ThreadObj.release at h
  split at h <;> cases h <;> rfl

namespace System

variable {y y' : System} {s : Scheduler}

/-- A waiter that is registered or on its way. -/
def Known (y : System) (w : Waiter) : Prop := (∃ o, w ∈ y.waiters o) ∨ w ∈ y.flying ∨ w ∈ y.wakes

/-- Key `k` will be posted: its waiter is in the list of `o`, or was taken off it. -/
def Due (y : System) (k o : ℕ) : Prop :=
  ∃ w, y.Own w ∧ w.key = k ∧ (w ∈ y.waiters o ∨ w ∈ y.flying ∨ w ∈ y.wakes)

/-- The part of `Safe` about the scheduler. -/
structure SafeSched (y : System) (s : Scheduler) : Prop where
  posted : s.posted = y.wakes.map Waiter.key
  own : ∀ w ∈ y.wakes, y.Own w
  /-- A key that is not used yet belongs to the task that is about to suspend. -/
  key : ∀ w, y.Known w → y.Own w → w.key < s.nextThreadKey ∨ (w.key = s.nextThreadKey ∧
    y.native.parked = true ∧ w.task = s.current ∧ w.obj = y.native.last)
  right : ∀ w, y.Known w → y.Own w → ∀ id, (w.key, id) ∈ s.threadWaits →
    w.task = id ∧ w.obj = y.awaits w.key
  due : ∀ p ∈ s.threadWaits, y.Due p.1 (y.awaits p.1)
  parked : y.native.parked = true → y.Due s.nextThreadKey y.native.last

/-- What holds between the steps as long as no native parks inside a callback. -/
structure Safe (y : System) : Prop where
  vm : VmReachable y.vm
  flat : y.Flat
  parked : y.native.parked = true →
    y.native.inside = [] ∧ y.native.checking = none ∧ y.vm.picking = false
  old : ∀ w, y.Known w → ∀ g, w.waker = some g → g ≤ y.waker
  one : ∀ w w', y.Known w → y.Known w' → y.Own w → y.Own w' → w.key = w'.key → w.obj = w'.obj
  obj : ∀ o, ∀ w ∈ y.waiters o, y.Own w → w.obj = o
  held : ∀ o, y.native.checking = some o → (y.objs o).guarded = true → (y.objs o).attempt = none
  ready : ∀ o, (y.objs o).attempt ≠ none →
    ((∃ w ∈ y.waiters o, y.Own w) ∨ y.native.checking = some o) → 0 < y.releasing o
  signalled : ∀ o, ∀ w ∈ y.waiters o, y.Own w → y.signalled w.key = true → 0 < y.releasing o
  sched : ∀ s, y.vm.sched = some s → SafeSched y s

theorem Safe.not_parked (h : Safe y) (hfree : y.native.free) : y.native.parked = false := by
  cases hp : y.native.parked with
  | false => rfl
  | true =>
    rw [hfree.2 (h.parked hp).1] at hp
    cases hp

theorem safe_start (objs : ℕ → ThreadObj) : Safe (start objs) := by
  have hknown : ∀ w, ¬(start objs).Known w := by
    rintro w (⟨o, ho⟩ | ho | ho) <;> cases ho
  refine ⟨.refl, fun h ↦ absurd rfl h, fun h ↦ (by cases h), fun w hw ↦ absurd hw (hknown w),
    fun w _ hw ↦ absurd hw (hknown w), fun o w hw ↦ (by cases hw), fun o ho ↦ (by cases ho),
    fun o _ ho ↦ ?_, fun o w hw ↦ (by cases hw), fun s hs ↦ (by cases hs)⟩
  rcases ho with ⟨w, hw, -⟩ | ho
  · cases hw
  · cases ho

/-! ### Steps of the machine -/

theorem Safe.opens (h : Safe y) {nested : ℕ} {r : ScopeId × Scheduler}
    (hopen : taskScopeOpen y.vm.sched nested = some r) (hrun : y.vm.picking = false)
    (hfree : y.native.free) (hnew : ∀ s, y.vm.sched = some s → s.baseNested ≠ nested) :
    Safe { y with vm := ⟨some r.2, false⟩, waker := y.waker + 1, wakes := [] } := by
  have hparked := h.not_parked hfree
  set y' : System := { y with vm := ⟨some r.2, false⟩, waker := y.waker + 1, wakes := [] } with hy'
  have hknown : ∀ w, y'.Known w → y.Known w := by
    rintro w (hw | hw | hw)
    · exact .inl hw
    · exact .inr (.inl hw)
    · cases hw
  have hown : ∀ w, y'.Known w → ¬y'.Own w := by
    intro w hw ho
    have hle : y.waker + 1 ≤ y.waker := h.old w (hknown w hw) _ ho
    omega
  have hr : r.2 = (Scheduler.new nested).openScope.2 := by
    unfold taskScopeOpen at hopen
    split at hopen
    · cases hopen
      rfl
    · rename_i s hs
      rw [if_neg (hnew s hs)] at hopen
      split at hopen
      · cases hopen
        rfl
      · cases hopen
  have hstep : VmStep y.vm ⟨some r.2, false⟩ := by
    have hvm : y.vm = ⟨y.vm.sched, false⟩ := by rw [← hrun]
    rw [hvm]
    exact .scopeOpen hopen
  refine ⟨h.vm.tail hstep, h.flat, fun hp ↦ ?_, fun w hw g hg ↦ ?_, fun w _ hw _ ho ↦ absurd ho (hown w hw),
    fun o w hw ho ↦ absurd ho (hown w (.inl ⟨o, hw⟩)), h.held, fun o ho hor ↦ ?_,
    fun o w hw ho ↦ absurd ho (hown w (.inl ⟨o, hw⟩)), fun s hs ↦ ?_⟩
  · rw [show y'.native.parked = false from hparked] at hp
    cases hp
  · exact (h.old w (hknown w hw) g hg).trans (Nat.le_succ _)
  · rcases hor with ⟨w, hw, ho'⟩ | hc
    · exact absurd ho' (hown w (.inl ⟨o, hw⟩))
    · exact absurd (hfree.1.symm.trans hc) (by simp)
  · obtain rfl : r.2 = s := Option.some.inj hs
    refine ⟨by rw [hr]; rfl, fun w hw ↦ (by cases hw), fun w hw ho ↦ absurd ho (hown w hw),
      fun w hw ho ↦ absurd ho (hown w hw), fun p hp ↦ ?_, fun hp ↦ ?_⟩
    · rw [hr] at hp
      cases hp
    · rw [show y'.native.parked = false from hparked] at hp
      cases hp

/-- Steps that change the machine only. -/
theorem Safe.vm_step (h : Safe y) {vm' : Vm} (hstep : VmStep y.vm vm') (hparked : y.native.parked = false)
    (hs : ∀ s', vm'.sched = some s' → ∃ s, y.vm.sched = some s ∧ Fewer s s') :
    Safe { y with vm := vm' } := by
  refine ⟨h.vm.tail hstep, h.flat, fun hp ↦ ?_, h.old, h.one, h.obj, h.held, h.ready, h.signalled,
    fun s' hs' ↦ ?_⟩
  · rw [show y.native.parked = true from hp] at hparked
    cases hparked
  · obtain ⟨s, hs, hfewer⟩ := hs s' hs'
    obtain ⟨hposted, hown, hkey, hright, hdue, -⟩ := h.sched s hs
    refine ⟨hfewer.posted.trans hposted, hown, fun w hw ho ↦ ?_, fun w hw ho id hid ↦
      hright w hw ho id (hfewer.waits hid), fun p hp ↦ hdue p (hfewer.waits hp), fun hp ↦ ?_⟩
    · rcases hkey w hw ho with hlt | ⟨-, hp, -⟩
      · exact .inl (hfewer.key.symm ▸ hlt)
      · rw [hparked] at hp
        cases hp
    · rw [show y.native.parked = true from hp] at hparked
      cases hparked

theorem Safe.pick (h : Safe y) (hvm : y.vm = ⟨some s, true⟩) {w : World} {posted rest : List Waiter}
    (hperm : y.flying.Perm (posted ++ rest)) (hkeys : w.posted = posted.map Waiter.key)
    (hsleep : s.sleeps = false → posted = []) :
    Safe { y with
      vm := ⟨some (s.runNext w).2, !(s.runNext w).1⟩
      flying := rest
      wakes := if (s.runNext w).2.posted = [] then [] else y.wakes } := by
  have hsched : y.vm.sched = some s := by rw [hvm]
  obtain ⟨hposted, hown, hkey, hright, hdue, -⟩ := h.sched s hsched
  have hparked : y.native.parked = false := by
    cases hp : y.native.parked with
    | false => rfl
    | true =>
      have := (h.parked hp).2.2
      rw [hvm] at this
      cases this
  set y' : System := { y with
    vm := ⟨some (s.runNext w).2, !(s.runNext w).1⟩
    flying := rest
    wakes := if (s.runNext w).2.posted = [] then [] else y.wakes } with hy'
  have hwakes : ∀ v ∈ y'.wakes, v ∈ y.wakes := by
    intro v hv
    simp only [hy'] at hv
    split at hv
    · cases hv
    · exact hv
  have hflying : ∀ v, v ∈ y.flying ↔ v ∈ posted ∨ v ∈ rest := fun v ↦ by
    rw [hperm.mem_iff, List.mem_append]
  have hknown : ∀ v, y'.Known v → y.Known v := by
    rintro v (hv | hv | hv)
    · exact .inl hv
    · exact .inr (.inl ((hflying v).2 (.inr hv)))
    · exact .inr (.inr (hwakes v hv))
  have hfalse : ¬y'.native.parked = true := by
    show ¬y.native.parked = true
    simp [hparked]
  refine ⟨h.vm.tail (hvm ▸ .pick s w), h.flat, fun hp ↦ absurd hp hfalse,
    fun v hv ↦ h.old v (hknown v hv), fun v v' hv hv' ↦ h.one v v' (hknown v hv) (hknown v' hv'),
    h.obj, h.held, h.ready, h.signalled, fun s' hs' ↦ ?_⟩
  obtain rfl : (s.runNext w).2 = s' := Option.some.inj hs'
  have hkey' : (s.runNext w).2.nextThreadKey = s.nextThreadKey := by
    rcases runNext_keys s w with ⟨hf, -⟩ | ht
    · exact hf.key
    · exact ht.key
  have hwaits : (s.runNext w).2.threadWaits ⊆ s.threadWaits := by
    rcases runNext_keys s w with ⟨hf, -⟩ | ht
    · exact hf.waits
    · exact fun p hp ↦ (ht.waits p hp).1
  refine ⟨?_, fun v hv ↦ hown v (hwakes v hv), fun v hv ho ↦ ?_,
    fun v hv ho id hid ↦ hright v (hknown v hv) ho id (hwaits hid), fun p hp ↦ ?_,
    fun hp ↦ absurd hp hfalse⟩
  · show (s.runNext w).2.posted = (if (s.runNext w).2.posted = [] then [] else y.wakes).map Waiter.key
    split
    · assumption
    · rename_i hne
      rcases runNext_keys s w with ⟨hf, -⟩ | ht
      · rw [hf.posted, hposted]
      · exact absurd ht.posted hne
  · rcases hkey v (hknown v hv) ho with hlt | ⟨-, hp, -⟩
    · exact .inl (hkey'.symm ▸ hlt)
    · exact absurd hp hfalse
  · -- a wait that is still there was not among the keys taken
    obtain ⟨v, ho, hk, hv⟩ := hdue p (hwaits hp)
    refine ⟨v, ho, hk, ?_⟩
    rcases runNext_keys s w with ⟨hf, hns⟩ | ht
    · rcases hv with hv | hv | hv
      · exact .inl hv
      · rw [hflying, hsleep hns] at hv
        exact .inr (.inl (hv.resolve_left (by simp)))
      · refine .inr (.inr ?_)
        show v ∈ if (s.runNext w).2.posted = [] then [] else y.wakes
        rw [if_neg]
        · exact hv
        · rw [hf.posted, hposted]
          intro hnil
          rw [List.map_eq_nil_iff] at hnil
          rw [hnil] at hv
          cases hv
    · have hnot := (ht.waits p hp).2
      rw [List.mem_append, not_or] at hnot
      rcases hv with hv | hv | hv
      · exact .inl hv
      · rcases (hflying v).1 hv with hv | hv
        · cases hs : s.sleeps with
          | false =>
            rw [hsleep hs] at hv
            cases hv
          | true =>
            rw [hs, hkeys, ← hk] at hnot
            exact absurd (List.mem_map_of_mem hv) hnot.2
        · exact .inr (.inl hv)
      · rw [hposted, ← hk] at hnot
        exact absurd (List.mem_map_of_mem hv) hnot.1

/-! ### Registering and suspending -/

theorem Safe.push (h : Safe y) (hvm : y.vm = ⟨some s, false⟩) {o : ℕ}
    (ho : y.native.checking = some o) : Safe (y.register s o) := by
  have hsched : y.vm.sched = some s := by rw [hvm]
  have hin : y.native.inside = [] := h.flat (by simp [ho])
  have hparked : ¬y.native.parked = true := by
    intro hp
    rw [(h.parked hp).2.1] at ho
    cases ho
  obtain ⟨hposted, hown, hkey, hright, hdue, -⟩ := h.sched s hsched
  have hlast : (y.register s o).native.last = o := if_pos hin
  have hlt : ∀ w, y.Known w → y.Own w → w.key < s.nextThreadKey := by
    intro w hw how
    exact (hkey w hw how).resolve_right fun hn ↦ hparked hn.2.1
  set w₀ : Waiter := ⟨some y.waker, s.nextThreadKey, s.current, o⟩ with hw₀
  have hmem : ∀ w o', w ∈ (y.register s o).waiters o' ↔ w ∈ y.waiters o' ∨ (o' = o ∧ w = w₀) := by
    intro w o'
    by_cases hoo : o' = o
    · subst hoo
      simp [register, hw₀]
    · simp [register, hoo]
  have hknown : ∀ w, (y.register s o).Known w → y.Known w ∨ w = w₀ := by
    rintro w (⟨o', hw⟩ | hw | hw)
    · rcases (hmem w o').1 hw with hw | ⟨-, rfl⟩
      · exact .inl (.inl ⟨o', hw⟩)
      · exact .inr rfl
    · exact .inl (.inr (.inl hw))
    · exact .inl (.inr (.inr hw))
  have hmono : ∀ k o', y.Due k o' → (y.register s o).Due k o' := by
    rintro k o' ⟨w, how, hk, hw | hw⟩
    · exact ⟨w, how, hk, .inl ((hmem w o').2 (.inl hw))⟩
    · exact ⟨w, how, hk, .inr hw⟩
  have hbound : ∀ p ∈ s.threadWaits, p.1 < s.nextThreadKey := (h.vm.waits s hsched).thread_lt
  refine ⟨h.vm, fun _ ↦ hin, fun _ ↦ ⟨hin, rfl, by rw [show (y.register s o).vm = y.vm from rfl, hvm]⟩,
    fun w hw g hg ↦ ?_, fun w w' hw hw' how how' hkk ↦ ?_, fun o' w hw how ↦ ?_, fun o' hc ↦ (by cases hc),
    fun o' hready hor ↦ ?_, fun o' w hw how hsig ↦ ?_, fun s' hs' ↦ ?_⟩
  · rcases hknown w hw with hw | rfl
    · exact h.old w hw g hg
    · obtain rfl : y.waker = g := Option.some.inj hg
      exact Nat.le_refl _
  · rcases hknown w hw with hw | rfl
    · rcases hknown w' hw' with hw' | rfl
      · exact h.one w w' hw hw' how how' hkk
      · exact absurd hkk (hlt w hw how).ne
    · rcases hknown w' hw' with hw' | rfl
      · exact absurd hkk.symm (hlt w' hw' how').ne
      · rfl
  · rcases (hmem w o').1 hw with hw | ⟨rfl, rfl⟩
    · exact h.obj o' w hw how
    · rfl
  · rcases hor with ⟨w, hw, how⟩ | hc
    · rcases (hmem w o').1 hw with hw | ⟨rfl, -⟩
      · exact h.ready o' hready (.inl ⟨w, hw, how⟩)
      · exact h.ready o' hready (.inr ho)
    · cases hc
  · rcases (hmem w o').1 hw with hw | ⟨-, rfl⟩
    · have hne : w.key ≠ s.nextThreadKey := (hlt w (.inl ⟨o', hw⟩) how).ne
      have hsig' : y.signalled w.key = true := by
        rw [← hsig]
        exact (Function.update_of_ne hne _ _).symm
      exact h.signalled o' w hw how hsig'
    · rw [show (y.register s o).signalled w₀.key = false from Function.update_self _ _ _] at hsig
      cases hsig
  · obtain rfl : s = s' := Option.some.inj (hsched.symm.trans hs')
    refine ⟨hposted, hown, fun w hw how ↦ ?_, fun w hw how id hid ↦ ?_, fun p hp ↦ hmono _ _ (hdue p hp),
      fun _ ↦ ?_⟩
    · rcases hknown w hw with hw | rfl
      · exact .inl (hlt w hw how)
      · exact .inr ⟨rfl, rfl, rfl, hlast.symm⟩
    · rcases hknown w hw with hw | rfl
      · exact hright w hw how id hid
      · exact absurd (hbound _ hid) (Nat.lt_irrefl _)
    · rw [hlast]
      exact ⟨w₀, rfl, rfl, .inl ((hmem w₀ o).2 (.inr ⟨rfl, rfl⟩))⟩

theorem Safe.suspend (h : Safe y) (hvm : y.vm = ⟨some s, false⟩) {nested : ℕ}
    (hparked : y.native.parked = true) (hswitch : s.tasksCanSwitch nested) :
    Safe { y with
      vm := ⟨some s.taskSuspendThread, true⟩
      native := { y.native with parked := false }
      awaits := Function.update y.awaits s.nextThreadKey y.native.last } := by
  have hsched : y.vm.sched = some s := by rw [hvm]
  obtain ⟨hposted, hown, hkey, hright, hdue, hpark⟩ := h.sched s hsched
  have hfewer := fewer_taskSuspendThread s
  have hwaits : ∀ p ∈ s.taskSuspendThread.threadWaits, p = (s.nextThreadKey, s.current) ∨
      (p ∈ s.threadWaits ∧ p.1 ≠ s.nextThreadKey) := by
    intro p hp
    rcases List.mem_cons.1 (hfewer.waits hp) with rfl | hp
    · exact .inl rfl
    · exact .inr ⟨(List.mem_filter.1 hp).1, of_decide_eq_true (List.mem_filter.1 hp).2⟩
  refine ⟨h.vm.tail (hvm ▸ .suspendThread hswitch), h.flat, fun hp ↦ (by cases hp), h.old, h.one, h.obj,
    h.held, h.ready, h.signalled, fun s' hs' ↦ ?_⟩
  obtain rfl : s.taskSuspendThread = s' := Option.some.inj hs'
  have hsucc : s.taskSuspendThread.nextThreadKey = s.nextThreadKey + 1 := hfewer.key
  refine ⟨hfewer.posted.trans hposted, hown, fun w hw how ↦ .inl ?_, fun w hw how id hid ↦ ?_,
    fun p hp ↦ ?_, fun hp ↦ (by cases hp)⟩
  · rw [hsucc]
    rcases hkey w hw how with hlt | ⟨heq, -⟩
    · omega
    · omega
  · rcases hwaits _ hid with heq | ⟨hid, hne⟩
    · obtain ⟨hk, rfl⟩ := Prod.mk.injEq _ _ _ _ ▸ heq
      rcases hkey w hw how with hlt | ⟨-, -, htask, hobj⟩
      · omega
      · refine ⟨htask, ?_⟩
        rw [hobj]
        show _ = Function.update y.awaits s.nextThreadKey y.native.last w.key
        rw [hk, Function.update_self]
    · obtain ⟨htask, hobj⟩ := hright w hw how id hid
      exact ⟨htask, hobj.trans (Function.update_of_ne hne _ _).symm⟩
  · rcases hwaits p hp with rfl | ⟨hp, hne⟩
    · have haw : Function.update y.awaits s.nextThreadKey y.native.last s.nextThreadKey = y.native.last :=
        Function.update_self _ _ _
      simp only [haw]
      exact hpark hparked
    · have haw : Function.update y.awaits s.nextThreadKey y.native.last p.1 = y.awaits p.1 :=
        Function.update_of_ne hne _ _
      simp only [haw]
      exact hdue p hp

/-! ### Steps of other threads -/

theorem Safe.released (h : Safe y) {o : ℕ} {r : Release} {obj : ThreadObj}
    (hrel : (y.objs o).release r = some obj)
    (hlock : (y.objs o).guarded = true → y.native.checking ≠ some o) : Safe (y.released o obj) := by
  have hpos : 0 < (y.released o obj).releasing o := by
    show 0 < Function.update y.releasing o (y.releasing o + 1) o
    rw [Function.update_self]
    omega
  have hkeep : ∀ o', o' ≠ o → (y.released o obj).releasing o' = y.releasing o' :=
    fun o' hne ↦ Function.update_of_ne hne _ _
  have hobjs : ∀ o', o' ≠ o → (y.released o obj).objs o' = y.objs o' :=
    fun o' hne ↦ Function.update_of_ne hne _ _
  refine ⟨h.vm, h.flat, h.parked, h.old, h.one, h.obj, fun o' hc hg ↦ ?_, fun o' hready hor ↦ ?_,
    fun o' w hw how hsig ↦ ?_, fun s hs ↦ ?_⟩
  · by_cases hoo : o' = o
    · subst hoo
      rw [show (y.released o' obj).objs o' = obj from Function.update_self _ _ _,
        ThreadObj.guarded_release hrel] at hg
      exact absurd hc (hlock hg)
    · rw [hobjs o' hoo] at hg ⊢
      exact h.held o' hc hg
  · by_cases hoo : o' = o
    · exact hoo ▸ hpos
    · rw [hkeep o' hoo]
      rw [hobjs o' hoo] at hready
      exact h.ready o' hready hor
  · by_cases hoo : o' = o
    · exact hoo ▸ hpos
    · rw [hkeep o' hoo]
      rcases Bool.or_eq_true_iff.1 hsig with hsig | hsig
      · exact h.signalled o' w hw how hsig
      · -- the waiter of a key is in one list only
        obtain ⟨v, hv, hkv⟩ := List.any_eq_true.1 hsig
        obtain ⟨hov, hk⟩ := of_decide_eq_true hkv
        have hsame := h.one v w (.inl ⟨o, hv⟩) (.inl ⟨o', hw⟩) hov how hk
        rw [h.obj o v hv hov, h.obj o' w hw how] at hsame
        exact absurd hsame.symm hoo
  · obtain ⟨hposted, hown, hkey, hright, hdue, hpark⟩ := h.sched s hs
    exact ⟨hposted, hown, hkey, hright, hdue, hpark⟩

theorem Safe.use (h : Safe y) {o : ℕ} {obj : ThreadObj} (hobj : (y.objs o).attempt = some obj) :
    Safe { y with objs := Function.update y.objs o obj } := by
  refine ⟨h.vm, h.flat, h.parked, h.old, h.one, h.obj, fun o' hc hg ↦ ?_, fun o' hready hor ↦ ?_,
    h.signalled, fun s hs ↦ ?_⟩
  · by_cases hoo : o' = o
    · subst hoo
      simp only [Function.update_self, ThreadObj.guarded_attempt hobj] at hg
      rw [h.held o' hc hg] at hobj
      cases hobj
    · simp only [Function.update_of_ne hoo] at hg ⊢
      exact h.held o' hc hg
  · by_cases hoo : o' = o
    · subst hoo
      exact h.ready o' (by simp [hobj]) hor
    · simp only [Function.update_of_ne hoo] at hready
      exact h.ready o' hready hor
  · obtain ⟨hposted, hown, hkey, hright, hdue, hpark⟩ := h.sched s hs
    exact ⟨hposted, hown, hkey, hright, hdue, hpark⟩

theorem Safe.take (h : Safe y) {o : ℕ}
    (hlock : (y.objs o).guarded = false → y.native.checking ≠ some o) :
    Safe { y with
      waiters := Function.update y.waiters o []
      releasing := Function.update y.releasing o (y.releasing o - 1)
      flying := y.flying ++ y.waiters o } := by
  set y' : System := { y with
    waiters := Function.update y.waiters o []
    releasing := Function.update y.releasing o (y.releasing o - 1)
    flying := y.flying ++ y.waiters o } with hy'
  have hmem : ∀ w o', w ∈ y'.waiters o' ↔ o' ≠ o ∧ w ∈ y.waiters o' := by
    intro w o'
    by_cases hoo : o' = o
    · subst hoo
      simp [hy']
    · simp [hy', hoo]
  have hflying : ∀ w, w ∈ y'.flying ↔ w ∈ y.flying ∨ w ∈ y.waiters o := fun w ↦ List.mem_append
  have hknown : ∀ w, y'.Known w → y.Known w := by
    rintro w (⟨o', hw⟩ | hw | hw)
    · exact .inl ⟨o', ((hmem w o').1 hw).2⟩
    · rcases (hflying w).1 hw with hw | hw
      · exact .inr (.inl hw)
      · exact .inl ⟨o, hw⟩
    · exact .inr (.inr hw)
  have hmono : ∀ k o', y.Due k o' → y'.Due k o' := by
    rintro k o' ⟨w, how, hk, hw | hw | hw⟩
    · by_cases hoo : o' = o
      · exact ⟨w, how, hk, .inr (.inl ((hflying w).2 (.inr (hoo ▸ hw))))⟩
      · exact ⟨w, how, hk, .inl ((hmem w o').2 ⟨hoo, hw⟩)⟩
    · exact ⟨w, how, hk, .inr (.inl ((hflying w).2 (.inl hw)))⟩
    · exact ⟨w, how, hk, .inr (.inr hw)⟩
  have hkeep : ∀ o', o' ≠ o → y'.releasing o' = y.releasing o' :=
    fun o' hne ↦ Function.update_of_ne hne _ _
  refine ⟨h.vm, h.flat, h.parked, fun w hw ↦ h.old w (hknown w hw),
    fun w w' hw hw' ↦ h.one w w' (hknown w hw) (hknown w' hw'),
    fun o' w hw ↦ h.obj o' w ((hmem w o').1 hw).2, h.held, fun o' hready hor ↦ ?_,
    fun o' w hw how hsig ↦ ?_, fun s hs ↦ ?_⟩
  · rcases hor with ⟨w, hw, how⟩ | hc
    · obtain ⟨hoo, hw⟩ := (hmem w o').1 hw
      rw [hkeep o' hoo]
      exact h.ready o' hready (.inl ⟨w, hw, how⟩)
    · by_cases hoo : o' = o
      · -- whoever is about to register holds the object's lock, so the object is not ready
        subst hoo
        cases hg : (y.objs o').guarded with
        | false => exact absurd hc (hlock hg)
        | true => exact absurd (h.held o' hc hg) hready
      · rw [hkeep o' hoo]
        exact h.ready o' hready (.inr hc)
  · obtain ⟨hoo, hw⟩ := (hmem w o').1 hw
    rw [hkeep o' hoo]
    exact h.signalled o' w hw how hsig
  · obtain ⟨hposted, hown, hkey, hright, hdue, hpark⟩ := h.sched s hs
    exact ⟨hposted, hown, fun w hw ↦ hkey w (hknown w hw), fun w hw ↦ hright w (hknown w hw),
      fun p hp ↦ hmono _ _ (hdue p hp), fun hp ↦ hmono _ _ (hpark hp)⟩

theorem Safe.post (h : Safe y) {picking : Bool} (hvm : y.vm = ⟨some s, picking⟩) {w : Waiter}
    {rest : List Waiter} (hperm : y.flying.Perm (w :: rest)) (how : y.Own w) :
    Safe { y with
      vm := ⟨some { s with posted := s.posted ++ [w.key] }, picking⟩
      flying := rest
      wakes := y.wakes ++ [w] } := by
  have hsched : y.vm.sched = some s := by rw [hvm]
  set y' : System := { y with
    vm := ⟨some { s with posted := s.posted ++ [w.key] }, picking⟩
    flying := rest
    wakes := y.wakes ++ [w] } with hy'
  have hmoved : ∀ v, v ∈ y'.flying ∨ v ∈ y'.wakes ↔ v ∈ y.flying ∨ v ∈ y.wakes := by
    intro v
    rw [hperm.mem_iff]
    simp only [hy', List.mem_append, List.mem_cons, List.not_mem_nil, or_false]
    tauto
  have hknown : ∀ v, y'.Known v ↔ y.Known v := fun v ↦ or_congr_right (hmoved v)
  have hmono : ∀ k o, y.Due k o → y'.Due k o := by
    rintro k o ⟨v, hov, hk, hv⟩
    exact ⟨v, hov, hk, hv.imp_right (hmoved v).2⟩
  obtain ⟨hposted, hown, hkey, hright, hdue, hpark⟩ := h.sched s hsched
  have hpick : ∀ hp : y.native.parked = true, picking = false := by
    intro hp
    have := (h.parked hp).2.2
    rwa [hvm] at this
  refine ⟨h.vm.tail (hvm ▸ .post s picking w.key), h.flat, fun hp ↦ ?_,
    fun v hv ↦ h.old v ((hknown v).1 hv), fun v v' hv hv' ↦ h.one v v' ((hknown v).1 hv) ((hknown v').1 hv'),
    h.obj, h.held, h.ready, h.signalled, fun s' hs' ↦ ?_⟩
  · exact ⟨(h.parked hp).1, (h.parked hp).2.1, hpick hp⟩
  · obtain rfl : { s with posted := s.posted ++ [w.key] } = s' := Option.some.inj hs'
    refine ⟨?_, fun v hv ↦ ?_, fun v hv ↦ hkey v ((hknown v).1 hv), fun v hv ↦ hright v ((hknown v).1 hv),
      fun p hp ↦ hmono _ _ (hdue p hp), fun hp ↦ hmono _ _ (hpark hp)⟩
    · show s.posted ++ [w.key] = (y.wakes ++ [w]).map Waiter.key
      rw [hposted, List.map_append]
      rfl
    · rcases List.mem_append.1 hv with hv | hv
      · exact hown v hv
      · rw [List.mem_singleton.1 hv]
        exact how

theorem Safe.postElsewhere (h : Safe y) {w : Waiter} {rest : List Waiter}
    (hperm : y.flying.Perm (w :: rest)) (hother : ¬y.Own w ∨ y.vm.sched = none) :
    Safe { y with flying := rest } := by
  have hsub : ∀ v ∈ rest, v ∈ y.flying := fun v hv ↦ hperm.mem_iff.2 (List.mem_cons_of_mem _ hv)
  have hknown : ∀ v, Known { y with flying := rest } v → y.Known v := by
    rintro v (hv | hv | hv)
    · exact .inl hv
    · exact .inr (.inl (hsub v hv))
    · exact .inr (.inr hv)
  refine ⟨h.vm, h.flat, h.parked, fun v hv ↦ h.old v (hknown v hv),
    fun v v' hv hv' ↦ h.one v v' (hknown v hv) (hknown v' hv'), h.obj, h.held, h.ready, h.signalled,
    fun s hs ↦ ?_⟩
  have hother : ¬y.Own w := hother.resolve_right fun hn ↦ by
    rw [show y.vm.sched = some s from hs] at hn
    cases hn
  have hmono : ∀ k o, y.Due k o → Due { y with flying := rest } k o := by
    rintro k o ⟨v, hov, hk, hv | hv | hv⟩
    · exact ⟨v, hov, hk, .inl hv⟩
    · rcases List.mem_cons.1 (hperm.mem_iff.1 hv) with rfl | hv
      · exact absurd hov hother
      · exact ⟨v, hov, hk, .inr (.inl hv)⟩
    · exact ⟨v, hov, hk, .inr (.inr hv)⟩
  obtain ⟨hposted, hown, hkey, hright, hdue, hpark⟩ := h.sched s hs
  exact ⟨hposted, hown, fun v hv ↦ hkey v (hknown v hv), fun v hv ↦ hright v (hknown v hv),
    fun p hp ↦ hmono _ _ (hdue p hp), fun hp ↦ hmono _ _ (hpark hp)⟩

theorem Safe.other (h : Safe y) {o : ℕ} {w : Waiter} (hw : w.waker = none) :
    Safe { y with waiters := Function.update y.waiters o (y.waiters o ++ [w]) } := by
  set y' : System := { y with waiters := Function.update y.waiters o (y.waiters o ++ [w]) } with hy'
  have hown : ¬y.Own w := by
    unfold Own
    rw [hw]
    simp
  have hmem : ∀ v o', v ∈ y'.waiters o' ↔ v ∈ y.waiters o' ∨ (o' = o ∧ v = w) := by
    intro v o'
    by_cases hoo : o' = o
    · subst hoo
      simp [hy']
    · simp [hy', hoo]
  have hmem' : ∀ v o', y.Own v → v ∈ y'.waiters o' → v ∈ y.waiters o' := by
    intro v o' hov hv
    rcases (hmem v o').1 hv with hv | ⟨-, rfl⟩
    · exact hv
    · exact absurd hov hown
  have hknown : ∀ v, y'.Known v → y.Known v ∨ v = w := by
    rintro v (⟨o', hv⟩ | hv | hv)
    · rcases (hmem v o').1 hv with hv | ⟨-, rfl⟩
      · exact .inl (.inl ⟨o', hv⟩)
      · exact .inr rfl
    · exact .inl (.inr (.inl hv))
    · exact .inl (.inr (.inr hv))
  have hknown' : ∀ v, y.Own v → y'.Known v → y.Known v := by
    intro v hov hv
    refine (hknown v hv).resolve_right ?_
    rintro rfl
    exact hown hov
  have hmono : ∀ k o', y.Due k o' → y'.Due k o' := by
    rintro k o' ⟨v, hov, hk, hv | hv⟩
    · exact ⟨v, hov, hk, .inl ((hmem v o').2 (.inl hv))⟩
    · exact ⟨v, hov, hk, .inr hv⟩
  refine ⟨h.vm, h.flat, h.parked, fun v hv g hg ↦ ?_,
    fun v v' hv hv' hov hov' ↦ h.one v v' (hknown' v hov hv) (hknown' v' hov' hv') hov hov',
    fun o' v hv hov ↦ h.obj o' v (hmem' v o' hov hv) hov, h.held, fun o' hready hor ↦ ?_,
    fun o' v hv hov ↦ h.signalled o' v (hmem' v o' hov hv) hov, fun s hs ↦ ?_⟩
  · rcases hknown v hv with hv | rfl
    · exact h.old v hv g hg
    · rw [hw] at hg
      cases hg
  · rcases hor with ⟨v, hv, hov⟩ | hc
    · exact h.ready o' hready (.inl ⟨v, hmem' v o' hov hv, hov⟩)
    · exact h.ready o' hready (.inr hc)
  · obtain ⟨hposted, hwakes, hkey, hright, hdue, hpark⟩ := h.sched s hs
    exact ⟨hposted, hwakes, fun v hv hov ↦ hkey v (hknown' v hov hv) hov,
      fun v hv hov ↦ hright v (hknown' v hov hv) hov, fun p hp ↦ hmono _ _ (hdue p hp),
      fun hp ↦ hmono _ _ (hpark hp)⟩

/-! ### Runs -/

/-- Steps that change the native only, when nothing is registered. -/
theorem Safe.setNative (h : Safe y) (hparked : y.native.parked = false) {n : Native}
    (hn : n.parked = false) (hflat : n.checking ≠ none → n.inside = [])
    (hcheck : ∀ o, n.checking = some o → (y.objs o).attempt = none) : Safe { y with native := n } := by
  have hfalse : ¬n.parked = true := by simp [hn]
  refine ⟨h.vm, hflat, fun hp ↦ absurd hp hfalse, h.old, h.one, h.obj, fun o hc _ ↦ hcheck o hc,
    fun o hready hor ↦ ?_, h.signalled, fun s hs ↦ ?_⟩
  · rcases hor with hw | hc
    · exact h.ready o hready (.inl hw)
    · exact absurd (hcheck o hc) hready
  · obtain ⟨hposted, hown, hkey, hright, hdue, -⟩ := h.sched s hs
    refine ⟨hposted, hown, fun w hw how ↦ ?_, hright, hdue, fun hp ↦ absurd hp hfalse⟩
    refine (hkey w hw how).imp_right fun hp ↦ ?_
    rw [hparked] at hp
    exact absurd hp.2.1 (by simp)

/-- **Every step keeps the system safe** unless a native is about to park inside a callback after it. -/
theorem Safe.step (h : Safe y) (hstep : y.Step y') (hflat : y'.Flat) : Safe y' := by
  cases hstep with
  | opens hopen hrun hfree _ hnew => exact h.opens hopen hrun hfree hnew
  | @machine s vm' hvm hs hrun hfree hnest hsame =>
    refine h.vm_step hvm (h.not_parked hfree) fun s' hs' ↦ ⟨s, hs, ?_⟩
    obtain ⟨hbase, hposted, hkey⟩ := hsame s' hs'
    exact hvm.fewer hrun hs hs' hbase hposted hkey
  | pick hvm hperm _ hkeys hsleep => exact h.pick hvm hperm hkeys hsleep
  | @check s nested o hvm hfree _ hwait =>
    refine h.setNative (h.not_parked hfree) (h.not_parked hfree) (fun hc ↦ hflat hc) fun o' ho' ↦ ?_
    obtain rfl : o = o' := Option.some.inj ho'
    exact hwait
  | push hvm ho => exact h.push hvm ho
  | @enter s nested o obj hvm hfree _ _ hlock =>
    refine (h.use hlock).setNative (h.not_parked hfree) (h.not_parked hfree)
      (fun hc ↦ absurd hfree.1 hc) fun o' ho' ↦ ?_
    have hnone := hfree.1
    rw [show y.native.checking = some o' from ho'] at hnone
    cases hnone
  | @leave o rest obj hin hcheck hunlock =>
    have hparked : y.native.parked = false := by
      cases hp : y.native.parked with
      | false => rfl
      | true =>
        rw [(h.parked hp).1] at hin
        cases hin
    refine (h.released hunlock fun _ ↦ by simp [hcheck]).setNative hparked hparked
      (fun hc ↦ absurd rfl hc) fun o' ho' ↦ ?_
    cases ho'
  | suspend hvm _ _ hparked hswitch => exact h.suspend hvm hparked hswitch
  | use hobj => exact h.use hobj
  | release hrel hlock => exact h.released hrel hlock
  | take _ hlock => exact h.take hlock
  | post hvm hperm hown => exact h.post hvm hperm hown
  | postElsewhere hperm hother => exact h.postElsewhere hperm hother
  | other hw => exact h.other hw

/-- A run of the system. -/
def Run (objs : ℕ → ThreadObj) : System → Prop := Relation.ReflTransGen Step (start objs)

/-- A run in which no native parks inside a callback. -/
def FlatRun (objs : ℕ → ThreadObj) : System → Prop :=
  Relation.ReflTransGen (fun y y' ↦ y.Step y' ∧ y'.Flat) (start objs)

theorem FlatRun.safe {objs : ℕ → ThreadObj} (h : FlatRun objs y) : Safe y := by
  induction h with
  | refl => exact safe_start objs
  | tail _ hstep ih => exact ih.step hstep.1 hstep.2

/-- No wakeup is lost, and none reaches another wait. -/
structure NoLostWakeup (y : System) (s : Scheduler) : Prop where
  /-- A task whose object is ready, or was released since, is ready once the releasing threads have
  posted their keys and the scheduler has taken them. -/
  thread : ∀ id key, s.blockOf id = some (.thread key) →
    ((y.objs (y.awaits key)).attempt ≠ none ∨ y.signalled key = true) →
    y.releasing (y.awaits key) = 0 → (∀ w ∈ y.flying, y.Own w → w.key ≠ key) →
    s.takePosted.1.isReady id = true
  cond : ∀ c id, s.blockOf id = some (.cond c) → (s.notifyCond c).isReady id = true
  /-- Posted keys wake tasks that are blocked on them. -/
  woken : ∀ id, s.takePosted.1.tasks id ≠ s.tasks id →
    ∃ w ∈ y.wakes, s.blockOf id = some (.thread w.key)
  /-- A key wakes the task that registered it, from the wait it registered it for. -/
  right : ∀ w ∈ y.wakes, ∀ id, s.blockOf id = some (.thread w.key) →
    w.task = id ∧ w.obj = y.awaits w.key
  cond_right : ∀ c id, (s.notifyCond c).tasks id ≠ s.tasks id → s.blockOf id = some (.cond c)

/-- A mutex and a channel. -/
def mutexAndChannel (locked : Bool) (o : ℕ) : ThreadObj :=
  if o = 0 then .mutex locked else .channel [] false

/-- A scheduler whose root opened a scope and spawned a task. -/
def spawned : Scheduler := ((Scheduler.new 0).openScope.2.taskSpawn 1).2

def inScope (objs : ℕ → ThreadObj) : System :=
  { start objs with vm := ⟨some spawned, false⟩, waker := 1 }

theorem flatRun_inScope (objs : ℕ → ThreadObj) : FlatRun objs (inScope objs) := by
  have hopen : (start objs).Step
      { start objs with vm := ⟨some (Scheduler.new 0).openScope.2, false⟩, waker := 1 } :=
    @Step.opens (start objs) 0 _ rfl rfl ⟨rfl, fun _ ↦ rfl⟩ rfl fun s hs ↦ by cases hs
  have hspawn : System.Step
      { start objs with vm := ⟨some (Scheduler.new 0).openScope.2, false⟩, waker := 1 }
      (inScope objs) := by
    refine .machine (.spawn _ 1) rfl rfl ⟨rfl, fun _ ↦ rfl⟩ (fun hne ↦ absurd rfl hne) fun s' hs' ↦ ?_
    cases hs'
    exact ⟨rfl, rfl, rfl⟩
  exact (Relation.ReflTransGen.refl.tail ⟨hopen, fun hne ↦ absurd rfl hne⟩).tail
    ⟨hspawn, fun hne ↦ absurd rfl hne⟩

theorem run_of_flatRun {objs : ℕ → ThreadObj} (h : FlatRun objs y) : Run objs y :=
  Relation.ReflTransGen.mono (fun _ _ hstep ↦ hstep.1) _ _ h

end System

end CoilLang.Task
