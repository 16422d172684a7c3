import Mathlib.Logic.Relation
import CoilLang.Machine.Task

/-!
# Switching between tasks

The VM's side of the scheduler, `machine/src/vm_task.rs`: the `task_*` natives, suspending the
current task, the loop of `task_run_next`, ending and cancelling tasks.

The machine is either **running** a task or **picking** the next one, at the head of that loop
(`Vm`). A native that suspends leaves it picking; an iteration of the loop leaves it running when it
switched a task in. `VmStep` has one constructor for each native, for each way the running task can
stop, for what other OS threads may do, and for the iteration. What an iteration cannot decide from
the scheduler (whether resuming overflows the stack, whether a frame has a cleanup pad, which handles
are ready, what time it is) is given to it.

Between a suspension and the next switch `current` is still the task that suspended.
-/

namespace CoilLang.Task

/-- Outcome of a `task_*` native. -/
inductive TaskFlow where
  /-- Push this result and continue. -/
  | value (v : ℤ)
  /-- The current task suspended. -/
  | switched
  | panic (msg : String)
deriving DecidableEq

def stackOverflow : String :=
  "stack overflow: recursion exceeds the VM's operand stack limit"

namespace Scheduler

variable (s : Scheduler)

/-- Child tasks exist and this nesting level owns the scheduler, so a suspension point can switch. -/
def tasksCanSwitch (nested : ℕ) : Bool :=
  decide (0 < s.live) && s.baseNested == nested

/-! ### Cancelling and ending tasks -/

/-- A started task that can be cancelled now: record the cancel and, if the task is suspended
outside a `shield`, make it ready so that it is delivered. -/
def deliverCancel (id : TaskId) (rec : TaskRec) : Scheduler :=
  let rec' := { rec with cancel := .requested }
  if 0 < rec.shield ∨ id = s.current ∨ rec.state ≠ .blocked then s.setTask id rec'
  else
    let wake := match rec.block with
      | some (.thread _) | some (.ioRetry _) => Wake.retry
      | _ => Wake.unit
    { s.setTask id { rec' with block := none, timerSeq := none, state := .ready, wake := some wake }
      with runQueue := s.runQueue ++ [id] }.dropWait id rec.block

/-- Cancel task `id`. A task that never ran is dropped. -/
def requestCancel (id : TaskId) : Scheduler :=
  match s.tasks id with
  | none => s
  | some rec =>
    if id = root ∨ rec.state.finished ∨ rec.state = .ending ∨ rec.cancel ≠ .none then s
    else if !rec.started then
      { s with runQueue := s.runQueue.filter fun t ↦ t ≠ id }.finalize id .dropped
    else s.deliverCancel id rec

/-- Cancel the listed tasks in turn. -/
def requestCancels (ids : List TaskId) : Scheduler :=
  ids.foldl requestCancel s

/-- The children of a task's open scopes, in table order. -/
def ownedChildren (task : TaskId) : List TaskId :=
  (s.scopesOwnedBy task).flatMap fun i ↦ ((s.scopes i).map ScopeRec.children).getD []

/-- Task `id` has a cancel to deliver but its scopes still have running tasks: cancel those and block
until they stop. -/
def cancelWaitsForChildren (id : TaskId) : Bool × Scheduler :=
  match s.tasks id with
  | none => (false, s)
  | some rec =>
    if rec.cancel ≠ .requested ∨ 0 < rec.shield ∨ s.ownedChildrenFinished id then (false, s)
    else
      let s₁ := s.requestCancels (s.ownedChildren id)
      if s₁.ownedChildrenFinished id then (false, s₁)
      else match s₁.tasks id with
        | some rec => (true, s₁.setTask id { rec with state := .blocked, block := some .cancel })
        | none => (true, s₁)

/-- A panic fails the scope; the first message stays. -/
def failScope (scope : ScopeId) (panic : Option String) : Scheduler :=
  match panic, s.scopes scope with
  | some msg, some sc => s.setScope scope { sc with failed := some (sc.failed.getD msg) }
  | _, _ => s

/-- Close a scope: no more spawns. -/
def closeScope (scope : ScopeId) : Scheduler :=
  match s.scopes scope with
  | some sc => s.setScope scope { sc with closed := true }
  | none => s

/-- The other children of a task's scope. -/
def siblings (id : TaskId) (scope : ScopeId) : List TaskId :=
  (((s.scopes scope).map ScopeRec.children).getD []).filter fun c ↦ c ≠ id

/-- Mark task `id` as ending: a panic fails its scope, the scopes it opened are closed. With the tasks
to cancel: after a panic its siblings, then the tasks of the scopes it opened. -/
def beginEnd (id : TaskId) (rec : TaskRec) (state : TaskState) (panic : Option String) :
    List TaskId × Scheduler :=
  let s₁ := s.setTask id { rec with
    state := .ending, ending := some state, panic := panic.or rec.panic }
  let s₂ := s₁.failScope rec.scope panic
  let s₃ := (s₂.scopesOwnedBy id).foldl closeScope s₂
  ((if panic.isSome then s₂.siblings id rec.scope else []) ++ s₃.ownedChildren id, s₃)

/-- Task `id` stopped running as `state`. A panic fails its scope and cancels its siblings; the tasks
of scopes it opened are cancelled, and it finishes once they have. -/
def taskEnd (id : TaskId) (state : TaskState) (panic : Option String) : Scheduler :=
  match s.tasks id with
  | none => s
  | some rec =>
    let (cancel, s₁) := s.beginEnd id rec state panic
    let s₂ := s₁.requestCancels cancel
    if (s₂.tasks id).any (fun r ↦ r.state == .ending) && s₂.ownedChildrenFinished id then
      s₂.finalize id state
    else s₂

/-! ### Suspending -/

/-- Suspend the current task. `block: none` is `yield_now`, ready again at the back of the queue.
With a cancel waiting, the task is switched out and straight back in, which delivers it. -/
def suspendAt (block : Option Block) (resultSlot : Bool) : Scheduler :=
  match s.tasks s.current with
  | none => s
  | some rec =>
    let cancelled : Bool := rec.cancel == .requested && rec.shield == 0
    let s₁ := if cancelled then
        { (s.setTask s.current { rec with timerSeq := none }).dropWait s.current block with
          runQueue := s.current :: s.runQueue }
      else s
    let rec₁ := if cancelled then { rec with timerSeq := none } else rec
    match if cancelled then none else block with
    | some b => s₁.setTask s.current { rec₁ with block := some b, state := .blocked }
    | none =>
      { s₁.setTask s.current { rec₁ with
          block := none, state := .ready, wake := some (if resultSlot then .unit else .retry) } with
        runQueue := if s₁.runQueue.head? = some s.current then s₁.runQueue
          else s₁.runQueue ++ [s.current] }

/-! ### The loop of `task_run_next` -/

/-- Pop the run queue up to the first ready task. -/
def popReady : List TaskId → Option TaskId × List TaskId
  | [] => (none, [])
  | id :: q =>
    if (s.tasks id).any fun rec ↦ rec.state == .ready then (some id, q) else popReady q

/-- Continue the root task where it suspended. -/
def resumeRoot : Scheduler :=
  match s.tasks root with
  | some rec =>
    { s.setTask root { rec with state := .running, wake := none } with current := root }
  | none => { s with current := root }

/-- Resuming child `id` failed: its wake value is taken, nothing else. -/
def switchInFailed (id : TaskId) : Scheduler :=
  match s.tasks id with
  | some rec => s.setTask id { rec with wake := none }
  | none => s

/-- Resume child `id` above the root's words. -/
def switchIn (id : TaskId) : Scheduler :=
  match s.tasks id with
  | some rec =>
    { s.setTask id { rec with state := .running, started := true, wake := none } with current := id }
  | none => { s with current := id }

/-- The task just switched in has a cancel to deliver: mark it unwinding. -/
def takeCancel : Bool × Scheduler :=
  match s.tasks s.current with
  | some rec =>
    if rec.cancel ≠ .requested ∨ 0 < rec.shield then (false, s)
    else (true, s.setTask s.current { rec with cancel := .unwinding })
  | none => (false, s)

/-- Wake the task behind a ready handle. -/
def takeToken (token : WaitToken) : Scheduler :=
  match s.ioWaits.lookup token with
  | none => s
  | some id =>
    let wake := match (s.tasks id).bind TaskRec.block with
      | some (.ioRetry _) => Wake.retry
      | _ => Wake.io false
    { s with ioWaits := s.ioWaits.filter fun w ↦ w.1 ≠ token }.makeReady id wake

/-- A timer of `t.1`, blocked on `t.2`, has expired. -/
def timerExpired (t : TaskId × Option Block) : Scheduler :=
  match t.2 with
  | some (.io _) => (s.dropWait t.1 t.2).makeReady t.1 (.io true)
  | some (.ioRetry _) => (s.dropWait t.1 t.2).makeReady t.1 .retry
  | some .sleep => s.makeReady t.1 .unit
  | _ => s

/-- Wake what the reactor, other threads and the clock allow. -/
def takeEvents (ready : List WaitToken) (posted : List ℕ) (now : ℕ) : Scheduler :=
  let s₁ := if s.ioWaits.isEmpty then s else ready.foldl takeToken s
  let s₂ := { s₁ with posted := s₁.posted ++ posted }.takePosted.1
  let (expired, s₃) := s₂.expiredTimers now
  expired.foldl timerExpired s₃

/-- No task is ready: wait for IO readiness, a timer or another OS thread. `false` when nothing could
ever wake a task. -/
def waitEvents (ready : List WaitToken) (posted : List ℕ) (now : ℕ) : Bool × Scheduler :=
  let (any, s₁) := s.takePosted.swap
  if any then (true, s₁)
  else
    let (deadline, s₂) := s₁.nextDeadline
    if s₂.ioWaits.isEmpty && s₂.threadWaits.isEmpty && deadline.isNone then (false, s₂)
    else (true, s₂.takeEvents ready posted now)

/-- Every task waits on another: wake the root with a deadlock status. -/
def deadlock : Scheduler :=
  match s.tasks root with
  | some rec => (s.setTask root { rec with state := .blocked }).makeReady root (.status statusDeadlock)
  | none => s

end Scheduler

/-- What an iteration of the loop meets outside the scheduler. -/
structure World where
  /-- Resuming the task overflows the stack. -/
  overflow : Bool
  /-- Some frame of the task has a cleanup pad. -/
  pad : Bool
  /-- Tokens of the handles that became ready. -/
  ready : List WaitToken
  /-- Keys other threads post while the scheduler waits. -/
  posted : List ℕ
  now : ℕ

/-- The machine: its scheduler, if one is there, and whether it is at the head of the loop. -/
structure Vm where
  sched : Option Scheduler
  picking : Bool

namespace Scheduler

variable (s : Scheduler)

/-- Switch the picked child in and deliver its cancel: `true` when it runs on. -/
def enterTask (id : TaskId) (w : World) : Bool × Scheduler :=
  if w.overflow then (false, (s.switchInFailed id).taskEnd id .failed (some stackOverflow))
  else
    let (taken, s₁) := (s.switchIn id).takeCancel
    if !taken || w.pad then (true, s₁)
    -- nothing to unwind: it ends here
    else (false, s₁.taskEnd id .dropped none)

/-- One iteration of the loop: `true` when a task runs on. -/
def runNext (w : World) : Bool × Scheduler :=
  match s.popReady s.runQueue with
  | (none, q) =>
    let (woken, s₁) := { s with runQueue := q }.waitEvents w.ready w.posted w.now
    (false, if woken then s₁ else s₁.deadlock)
  | (some id, q) =>
    let s₁ := { s with runQueue := q }
    if id = root then (true, s₁.resumeRoot)
    else
      let (waits, s₂) := s₁.cancelWaitsForChildren id
      if waits then (false, s₂) else s₂.enterTask id w

/-! ### The natives -/

/-- Forget the scheduler once no scope or task is left. -/
def dropIdle : Option Scheduler :=
  if s.idle then none else some s

/-- The scope body returned: wait for its children. -/
def taskScopeClose (id : ScopeId) (nested : ℕ) : TaskFlow × Option Scheduler :=
  match s.scopes id with
  | none => (.panic "task scope is not open", some s)
  | some sc =>
    if sc.owner ≠ s.current then
      (.panic "a task scope must end in the task that opened it", some s)
    else
      let s₁ := s.setScope id { sc with closed := true }
      if s₁.childrenFinished id then
        if sc.failed.isSome then (.value statusPanicked, some s₁)
        else (.value statusOk, (s₁.removeScope id).dropIdle)
      else if !s₁.tasksCanSwitch nested then
        (.panic "cannot wait for tasks inside a native callback", some s₁)
      else (.switched, some (s₁.suspendAt (some (.scope id)) true))

def taskSpawn (scope : ScopeId) : TaskFlow × Scheduler :=
  if (s.scopes scope).any fun sc ↦ !sc.closed then
    let (id, s₁) := s.addTask scope
    (.value id, s₁)
  else (.panic "spawn on a task scope that has ended", s)

/-- Wait for task `id`; returns its status. -/
def taskJoin (id : TaskId) (nested : ℕ) : TaskFlow × Scheduler :=
  match s.tasks id with
  | none => (.value statusOk, s)
  | some rec =>
    if rec.state.finished then (.value (statusOf rec.state), s)
    else if id = s.current then (.panic "a task cannot join itself", s)
    else
      let s₁ := s.setTask id { rec with joiners := rec.joiners ++ [s.current] }
      if !s₁.tasksCanSwitch nested then
        (.panic "cannot wait for a task inside a native callback", s₁)
      else (.switched, s₁.suspendAt (some (.join id)) true)

/-- Sleep until `deadline`. -/
def taskSleep (deadline nested : ℕ) : TaskFlow × Scheduler :=
  if !s.tasksCanSwitch nested then (.value 0, s)
  else (.switched, (s.addTimer s.current deadline).suspendAt (some .sleep) true)

/-- Let other ready tasks run first. -/
def taskYield (nested : ℕ) : TaskFlow × Scheduler :=
  if !(s.tasksCanSwitch nested && !s.runQueue.isEmpty) then (.value 0, s)
  else (.switched, s.suspendAt none true)

/-- Wait for a notify of `cond`. -/
def taskCondWait (cond : CondId) (nested : ℕ) : TaskFlow × Scheduler :=
  if !s.tasksCanSwitch nested then (.value statusDeadlock, s)
  else (.switched, { s with
    condWaits := Function.update s.condWaits cond (s.condWaits cond ++ [s.current]) }.suspendAt
      (some (.cond cond)) true)

/-- A native parked the task on a `thread` object. -/
def taskSuspendThread : Scheduler :=
  (s.addThreadWait s.current s.nextThreadKey).suspendAt (some (.thread s.nextThreadKey)) false

/-- Record an IO wait of the current task with its timeout, if any. -/
def parkIo (deadline : Option ℕ) : Scheduler :=
  match deadline with
  | some d => (s.addIoWait s.current).2.addTimer s.current d
  | none => (s.addIoWait s.current).2

/-- IO park inside a scope. -/
def taskSuspendIo (deadline : Option ℕ) : Scheduler :=
  (s.parkIo deadline).suspendAt (some (.io s.nextToken)) true

/-- IO park of a native that runs again afterwards. -/
def taskSuspendIoRetry (deadline : Option ℕ) : Scheduler :=
  (s.parkIo deadline).suspendAt (some (.ioRetry s.nextToken)) false

def taskShieldEnter : Scheduler :=
  match s.tasks s.current with
  | some rec => s.setTask s.current { rec with shield := rec.shield + 1 }
  | none => s

/-- Leaving the last `shield` delivers a cancel that waited for it. -/
def taskShieldExit (nested : ℕ) : TaskFlow × Scheduler :=
  match s.tasks s.current with
  | none => (.value 0, s)
  | some rec =>
    let s₁ := s.setTask s.current { rec with shield := rec.shield - 1 }
    if s.current = root ∨ 0 < rec.shield - 1 ∨ rec.cancel ≠ .requested ∨ s.baseNested ≠ nested then
      (.value 0, s₁)
    else (.switched, s₁.suspendAt none true)

end Scheduler

/-- Open a scope; the first one starts the scheduler. `none` is the panic of a scope inside a native
callback of a running scope. -/
def taskScopeOpen (sched : Option Scheduler) (nested : ℕ) : Option (ScopeId × Scheduler) :=
  match sched with
  | none => some (Scheduler.new nested).openScope
  | some s =>
    if s.baseNested = nested then some s.openScope
    else if s.idle then some (Scheduler.new nested).openScope
    else none

/-! ### Steps of the machine -/

/-- The machine after a native: at the head of the loop if it suspended. -/
def Vm.after (r : TaskFlow × Scheduler) : Vm :=
  ⟨some r.2, decide (r.1 = .switched)⟩

/-- One step of the machine. Except for the last constructor the running task takes it. -/
inductive VmStep : Vm → Vm → Prop where
  | scopeOpen {sched nested r} (h : taskScopeOpen sched nested = some r) :
    VmStep ⟨sched, false⟩ ⟨some r.2, false⟩
  | scopeClose (s id nested) :
    VmStep ⟨some s, false⟩
      ⟨(s.taskScopeClose id nested).2, decide ((s.taskScopeClose id nested).1 = .switched)⟩
  /-- The `task` module asks for a scope's error after `task_scope_close` reported a panic: it is the
  scope's owner, and the children have finished. -/
  | scopeError (s : Scheduler) (id : ScopeId)
    (h : ∀ sc, s.scopes id = some sc →
      sc.owner = s.current ∧ sc.closed = true ∧ sc.unfinished = 0) :
    VmStep ⟨some s, false⟩ ⟨(s.removeScope id).dropIdle, false⟩
  | spawn (s scope) : VmStep ⟨some s, false⟩ (Vm.after (s.taskSpawn scope))
  | join (s id nested) : VmStep ⟨some s, false⟩ (Vm.after (s.taskJoin id nested))
  | sleep (s deadline nested) : VmStep ⟨some s, false⟩ (Vm.after (s.taskSleep deadline nested))
  | yield (s nested) : VmStep ⟨some s, false⟩ (Vm.after (s.taskYield nested))
  | cancel (s : Scheduler) (id) : VmStep ⟨some s, false⟩ ⟨some (s.requestCancel id), false⟩
  | shieldEnter (s : Scheduler) : VmStep ⟨some s, false⟩ ⟨some s.taskShieldEnter, false⟩
  | shieldExit (s nested) : VmStep ⟨some s, false⟩ (Vm.after (s.taskShieldExit nested))
  | condWait (s cond nested) : VmStep ⟨some s, false⟩ (Vm.after (s.taskCondWait cond nested))
  | condNotify (s : Scheduler) (cond) : VmStep ⟨some s, false⟩ ⟨some (s.notifyCond cond), false⟩
  | suspendThread {s : Scheduler} {nested} (h : s.tasksCanSwitch nested) :
    VmStep ⟨some s, false⟩ ⟨some s.taskSuspendThread, true⟩
  | suspendIo {s : Scheduler} {nested} (h : s.tasksCanSwitch nested) (deadline) :
    VmStep ⟨some s, false⟩ ⟨some (s.taskSuspendIo deadline), true⟩
  | suspendIoRetry {s : Scheduler} {nested} (h : s.tasksCanSwitch nested) (deadline) :
    VmStep ⟨some s, false⟩ ⟨some (s.taskSuspendIoRetry deadline), true⟩
  /-- The running child's body returned. -/
  | finished {s : Scheduler} (h : s.current ≠ root) :
    VmStep ⟨some s, false⟩ ⟨some (s.taskEnd s.current .done none), true⟩
  /-- The running child panicked, or finished unwinding a cancel. -/
  | recoverPanic {s : Scheduler} {rec : TaskRec} (h : s.current ≠ root)
    (hrec : s.tasks s.current = some rec) (msg : Option String) :
    VmStep ⟨some s, false⟩
      ⟨some (if msg.isNone ∧ rec.cancel = .unwinding then s.taskEnd s.current .dropped none
        else s.taskEnd s.current .failed (some (msg.getD ""))), true⟩
  /-- The root task panicked: every task is forgotten. -/
  | teardown {s : Scheduler} (h : s.current = root) : VmStep ⟨some s, false⟩ ⟨none, false⟩
  /-- Another OS thread posts a key. -/
  | post (s : Scheduler) (picking key) :
    VmStep ⟨some s, picking⟩ ⟨some { s with posted := s.posted ++ [key] }, picking⟩
  /-- The table of scopes is gone through in another order from now on. -/
  | rehash {s : Scheduler} {order : List ScopeId} (picking) (h : s.scopeOrder.Perm order) :
    VmStep ⟨some s, picking⟩ ⟨some { s with scopeOrder := order }, picking⟩
  /-- One iteration of the loop of `task_run_next`. -/
  | pick (s : Scheduler) (w : World) :
    VmStep ⟨some s, true⟩ ⟨some (s.runNext w).2, !(s.runNext w).1⟩

/-- A state of the machine, from the start on: no scheduler, code running. -/
def VmReachable (vm : Vm) : Prop :=
  Relation.ReflTransGen VmStep ⟨none, false⟩ vm

end CoilLang.Task
