import Mathlib.Data.Finset.Card
import Mathlib.Data.List.Sort

/-!
# Task scheduler state

The scheduler of `machine/src/task.rs`: one VM, one OS thread, a FIFO run queue. A task is a
coroutine the scheduler resumes; the **root** task is the code that opened the first scope. This
module has the records and the operations on them; switching, waking and ending tasks is in `VmTask`.

Of a task's record the parts that hold its saved stack (`coro`, `inner`, `ctx_index`, `resume_ip`,
`resume_sp`) are left out, and of an IO wait the layout of the value it returns.

Maps are functions to `Option`. The order in which a hash map is gone through matters in one place,
the scopes of a task, so the scopes carry their table order (`scopeOrder`), which may change between
operations.

`live` and `unfinished` are unsigned; `underflow` records that one of them was taken below zero.
-/

namespace CoilLang.Task

abbrev TaskId := ℕ
abbrev ScopeId := ℤ
abbrev CondId := ℤ
abbrev WaitToken := ℕ

/-- The task that opened the scheduler's first scope. -/
def root : TaskId := 0

def statusOk : ℤ := 0
def statusPanicked : ℤ := 1
def statusCancelled : ℤ := 2
/-- Every task waits on another task: nothing can run again. -/
def statusDeadlock : ℤ := 3

inductive TaskState where
  | ready
  | running
  | blocked
  | done
  | failed
  /-- Cancelled: never started, or unwound running its `defer`s. -/
  | dropped
  /-- Its frames are gone; it finishes once the tasks of the scopes it opened have. -/
  | ending
deriving DecidableEq

def TaskState.finished : TaskState → Bool
  | .done | .failed | .dropped => true
  | _ => false

/-- Cancellation progress of a task. -/
inductive Cancel where
  | none
  /-- Delivered when the task next suspends (or leaves its last `shield`). -/
  | requested
  /-- Running its `defer`s; it is not cancelled again. -/
  | unwinding
deriving DecidableEq

/-- What a blocked task waits on. -/
inductive Block where
  | io (token : WaitToken)
  | join (id : TaskId)
  | scope (id : ScopeId)
  | sleep
  /-- Cancelled: waits for the tasks of its scopes to stop before it unwinds. -/
  | cancel
  | cond (cond : CondId)
  | thread (key : ℕ)
  | ioRetry (token : WaitToken)
deriving DecidableEq

/-- The value a task's suspension point returns when it runs again. -/
inductive Wake where
  | unit
  | status (n : ℤ)
  | io (timedOut : Bool)
  | retry
deriving DecidableEq

structure TaskRec where
  scope : ScopeId
  state : TaskState
  block : Option Block
  wake : Option Wake
  /-- Timer entry that may wake this task (stale entries are skipped). -/
  timerSeq : Option ℕ
  joiners : List TaskId
  panic : Option String
  /-- It has run at least once. -/
  started : Bool
  cancel : Cancel
  /-- Open `task::shield` sections: a cancel waits until they end. -/
  shield : ℕ
  /-- The state an ending task finishes in. -/
  ending : Option TaskState

def TaskRec.new (scope : ScopeId) : TaskRec where
  scope := scope
  state := .ready
  block := none
  wake := none
  timerSeq := none
  joiners := []
  panic := none
  started := false
  cancel := .none
  shield := 0
  ending := none

structure ScopeRec where
  owner : TaskId
  children : List TaskId
  /-- Children not finished yet. -/
  unfinished : ℕ
  /-- The body returned; no more spawns. -/
  closed : Bool
  /-- First child panic message (fails the scope). -/
  failed : Option String

structure Scheduler where
  tasks : TaskId → Option TaskRec
  scopes : ScopeId → Option ScopeRec
  /-- The open scopes in the order the table is gone through. -/
  scopeOrder : List ScopeId
  runQueue : List TaskId
  /-- `(deadline, seq, task)`, earliest first. -/
  timers : List (ℕ × ℕ × TaskId)
  ioWaits : List (WaitToken × TaskId)
  condWaits : CondId → List TaskId
  threadWaits : List (ℕ × TaskId)
  /-- Keys other OS threads posted and the scheduler has not taken yet. -/
  posted : List ℕ
  nextThreadKey : ℕ
  /-- The reactor's next wait token. -/
  nextToken : WaitToken
  current : TaskId
  /-- `nested_depth` the scheduler runs at; switches only happen there. -/
  baseNested : ℕ
  /-- Child tasks not finished yet. -/
  live : ℕ
  nextTask : TaskId
  nextScope : ScopeId
  nextTimer : ℕ
  underflow : Bool

namespace Scheduler

def new (baseNested : ℕ) : Scheduler where
  tasks := Function.update (fun _ ↦ none) root (some { TaskRec.new 0 with state := .running })
  scopes := fun _ ↦ none
  scopeOrder := []
  runQueue := []
  timers := []
  ioWaits := []
  condWaits := fun _ ↦ []
  threadWaits := []
  posted := []
  nextThreadKey := 1
  nextToken := 0
  current := root
  baseNested := baseNested
  live := 0
  nextTask := 1
  nextScope := 1
  nextTimer := 0
  underflow := false

variable (s : Scheduler)

/-- Write the record of a task. -/
def setTask (id : TaskId) (rec : TaskRec) : Scheduler :=
  { s with tasks := Function.update s.tasks id (some rec) }

/-- Write the record of a scope. -/
def setScope (id : ScopeId) (sc : ScopeRec) : Scheduler :=
  { s with scopes := Function.update s.scopes id (some sc) }

/-- Nothing is left to schedule. -/
def idle : Bool :=
  s.live == 0 && s.scopeOrder.isEmpty && s.current == root

def openScope : ScopeId × Scheduler :=
  (s.nextScope, { s with
    scopes := Function.update s.scopes s.nextScope (some ⟨s.current, [], 0, false, none⟩)
    scopeOrder := s.scopeOrder ++ [s.nextScope]
    nextScope := s.nextScope + 1 })

/-- Count a new child in its scope. -/
def addChild (scope : ScopeId) (id : TaskId) : Scheduler :=
  match s.scopes scope with
  | some sc =>
    s.setScope scope { sc with children := sc.children ++ [id], unfinished := sc.unfinished + 1 }
  | none => s

/-- Register a child task in its scope and queue it. -/
def addTask (scope : ScopeId) : TaskId × Scheduler :=
  let id := s.nextTask
  let s₁ := s.addChild scope id
  (id, { s₁ with
    tasks := Function.update s₁.tasks id (some (TaskRec.new scope))
    nextTask := id + 1
    live := s₁.live + 1
    runQueue := s₁.runQueue ++ [id] })

/-- Order of the timer heap. -/
def timerLE (a b : ℕ × ℕ × TaskId) : Bool :=
  a.1 < b.1 || (a.1 == b.1 && a.2.1 ≤ b.2.1)

def addTimer (task : TaskId) (deadline : ℕ) : Scheduler :=
  let s₁ := { s with
    timers := s.timers.orderedInsert (fun a b ↦ timerLE a b = true) (deadline, s.nextTimer, task)
    nextTimer := s.nextTimer + 1 }
  match s.tasks task with
  | some rec => s₁.setTask task { rec with timerSeq := some s.nextTimer }
  | none => s₁

/-- Mark `id` ready to continue with `wake`. -/
def makeReady (id : TaskId) (wake : Wake) : Scheduler :=
  match s.tasks id with
  | some rec =>
    if rec.state = .blocked then
      { s.setTask id { rec with
          state := .ready, block := none, timerSeq := none, wake := some wake } with
        runQueue := s.runQueue ++ [id] }
    else s
  | none => s

/-- Status `join` reports for a finished task. -/
def statusOf : TaskState → ℤ
  | .failed => statusPanicked
  | .dropped => statusCancelled
  | _ => statusOk

def childrenFinished (scope : ScopeId) : Bool :=
  match s.scopes scope with
  | some sc => sc.unfinished == 0
  | none => true

/-- Scopes owned by `task`, still open, in table order. -/
def scopesOwnedBy (task : TaskId) : List ScopeId :=
  s.scopeOrder.filter fun i ↦ (s.scopes i).any fun sc ↦ sc.owner == task

/-- Every child of every scope `owner` opened has finished. -/
def ownedChildrenFinished (owner : TaskId) : Bool :=
  (s.scopesOwnedBy owner).all s.childrenFinished

/-- Whether `id` is blocked on `b`. -/
def blockedOn (id : TaskId) (b : Block) : Bool :=
  (s.tasks id).any fun rec ↦ rec.block == some b

/-- Wake `j` with `wake` if it is blocked on `b`. -/
def wakeIf (b : Block) (wake : Wake) (j : TaskId) : Scheduler :=
  if s.blockedOn j b then s.makeReady j wake else s

/-- Wake the listed tasks that are blocked on `b`. -/
def wakeAll (b : Block) (wake : Wake) (ids : List TaskId) : Scheduler :=
  ids.foldl (fun s j ↦ s.wakeIf b wake j) s

/-- Wake a scope's owner once its body returned and every child finished. -/
def checkScopeDone (scope : ScopeId) : Scheduler :=
  match s.scopes scope with
  | some sc =>
    if !sc.closed || !s.childrenFinished scope then s
    else s.wakeIf (.scope scope)
      (.status (if sc.failed.isSome then statusPanicked else statusOk)) sc.owner
  | none => s

/-- Forget a finished scope and its children's records. -/
def removeScope (scope : ScopeId) : Scheduler :=
  match s.scopes scope with
  | some sc => { s with
      scopes := Function.update s.scopes scope none
      scopeOrder := s.scopeOrder.erase scope
      tasks := fun t ↦ if t ∈ sc.children then none else s.tasks t }
  | none => s

/-- `live -= 1`. -/
def decLive : Scheduler :=
  { s with live := s.live - 1, underflow := s.underflow || s.live == 0 }

/-- `unfinished -= 1` in a task's scope. -/
def decUnfinished (scope : ScopeId) : Scheduler :=
  match s.scopes scope with
  | some sc =>
    { s.setScope scope { sc with unfinished := sc.unfinished - 1 } with
      underflow := s.underflow || sc.unfinished == 0 }
  | none => s

/-- The part of `finalize` before `after_finish`: the record, the counters, the scopes it opened. -/
def settle (id : TaskId) (rec : TaskRec) (state : TaskState) : Scheduler :=
  let s₁ := (s.setTask id { rec with state := state, ending := none }).decLive
  let s₂ := if !rec.state.finished && state.finished then s₁.decUnfinished rec.scope else s₁
  (s₂.scopesOwnedBy id).foldl removeScope s₂

/-- The part of `after_finish` before the scope's owner is looked at: wake the joiners, and the
owner when it waits for the end of the scope. -/
def wakeWaiters (id : TaskId) (rec : TaskRec) : Scheduler :=
  ((s.setTask id { rec with joiners := [] }).wakeAll (.join id) (.status (statusOf rec.state))
    rec.joiners).checkScopeDone rec.scope

/-- The owner of a scope all of whose scopes' children have finished, with its record. -/
def doneOwner (scope : ScopeId) : Option (TaskId × TaskRec) :=
  match s.scopes scope with
  | some sc =>
    if s.ownedChildrenFinished sc.owner then (s.tasks sc.owner).map (sc.owner, ·) else none
  | none => none

/-- Task `id` stopped running: it finishes as `state`, forgets the scopes it opened and wakes whoever
waits for it (`after_finish`). Its scope's owner may have waited for it too: to finish itself, or to
unwind a cancel.

The recursion goes from a task to its scope's owner, which is older; the source has no such test, and
`owner_lt` shows that it always holds. -/
def finalize (s : Scheduler) (id : TaskId) (state : TaskState) : Scheduler :=
  match s.tasks id with
  | none => s
  | some rec =>
    let s₁ := s.settle id rec state
    match s₁.tasks id with
    | none => s₁
    | some rec₁ =>
      let s₂ := s₁.wakeWaiters id rec₁
      match s₂.doneOwner rec₁.scope with
      | none => s₂
      | some (owner, ownerRec) =>
        match ownerRec.ending with
        | some final => if owner < id then s₂.finalize owner final else s₂
        | none => if ownerRec.block = some .cancel then s₂.makeReady owner .unit else s₂
termination_by id

/-- Record that `task` waits for `key`. -/
def addThreadWait (task : TaskId) (key : ℕ) : Scheduler :=
  { s with
    nextThreadKey := key + 1
    threadWaits := (key, task) :: s.threadWaits.filter fun w ↦ w.1 ≠ key }

/-- Record that `task` waits for the readiness of a handle it registers. -/
def addIoWait (task : TaskId) : WaitToken × Scheduler :=
  (s.nextToken, { s with
    nextToken := s.nextToken + 1
    ioWaits := (s.nextToken, task) :: s.ioWaits.filter fun w ↦ w.1 ≠ s.nextToken })

/-- Wake every task waiting on condition `cond`. -/
def notifyCond (cond : CondId) : Scheduler :=
  { s with condWaits := Function.update s.condWaits cond [] }.wakeAll (.cond cond)
    (.status statusOk) (s.condWaits cond)

/-- Take the thread wait behind one posted key: the scheduler, and whether a task was woken. -/
def takeKey (key : ℕ) : Scheduler × Bool :=
  match s.threadWaits.lookup key with
  | none => (s, false)
  | some id =>
    let s₁ := { s with threadWaits := s.threadWaits.filter fun w ↦ w.1 ≠ key }
    (s₁.wakeIf (.thread key) .retry id, s₁.blockedOn id (.thread key))

/-- Wake the tasks whose thread waits were posted, and whether there was one. -/
def takePosted : Scheduler × Bool :=
  s.posted.foldl (fun acc key ↦ ((acc.1.takeKey key).1, acc.2 || (acc.1.takeKey key).2))
    ({ s with posted := [] }, false)

/-- Forget the wait behind `block`. -/
def dropWait (id : TaskId) : Option Block → Scheduler
  | some (.io token) | some (.ioRetry token) =>
    { s with ioWaits := s.ioWaits.filter fun w ↦ w.1 ≠ token }
  | some (.cond cond) =>
    { s with
      condWaits := Function.update s.condWaits cond ((s.condWaits cond).filter fun t ↦ t ≠ id) }
  | some (.thread key) => { s with threadWaits := s.threadWaits.filter fun w ↦ w.1 ≠ key }
  | _ => s

/-- Whether a timer entry is the one its task waits for. -/
def timerLive (t : ℕ × ℕ × TaskId) : Bool :=
  (s.tasks t.2.2).any fun rec ↦ rec.timerSeq == some t.2.1

/-- Earliest live timer deadline; stale entries before it are dropped. -/
def nextDeadline : Option ℕ × Scheduler :=
  let timers := s.timers.dropWhile fun t ↦ !s.timerLive t
  (timers.head?.map Prod.fst, { s with timers := timers })

/-- Pop every expired timer: the live ones' tasks with what they are blocked on. -/
def expiredTimers (now : ℕ) : List (TaskId × Option Block) × Scheduler :=
  let due := s.timers.takeWhile fun t ↦ t.1 ≤ now
  ((due.filter s.timerLive).map fun t ↦ (t.2.2, (s.tasks t.2.2).bind TaskRec.block),
    { s with timers := s.timers.dropWhile fun t ↦ t.1 ≤ now })

end Scheduler

end CoilLang.Task
