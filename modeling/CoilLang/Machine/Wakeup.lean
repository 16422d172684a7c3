import CoilLang.Machine.ThreadKeys

/-!
# Tasks that wait for other threads

A task may wait for a `thread` object: a thread's result, a channel, a mutex, a name lookup
(`machine/src/thread.rs`, `task.rs`). The native **checks** the object, **registers** the task's waker
and key in the object's list of waiters and returns; the machine then **suspends** the task, which runs
the native again once the key was posted. On the other side a thread **releases** the object, **takes**
the list and **posts** the keys one by one. These are separate critical sections, on the object's lock,
the list's lock and the lock of the posted keys, and any other steps may come between them; `System.Step`
has one constructor for each.

For a thread's result and a channel the check is made under the object's lock, which a release takes
too; for a mutex and a lookup it is made under the list's lock, which only the taking side takes.

`with_lock` runs a callback with the lock held. **The waiter stays armed in the callback**, where the
machine cannot switch tasks: a native in it that finds its object not ready registers the task all the
same, returns a dummy value, and when the callback returns the machine suspends the task at `with_lock`.

A scheduler has a waker of its own, so the waiters of one that is gone post elsewhere. Waiters carry,
for the record, the task and the object they were registered for, `awaits` is the object of the native a
suspended task runs again, and `signalled` tells whether the object was released since its registration.
-/

namespace CoilLang.Task

/-- What a task can wait for. Values are numbers. -/
inductive ThreadObj where
  /-- `JoinState`: the result of a thread, until it is taken. -/
  | join (result : Option ℕ)
  /-- `ChannelInner`. -/
  | channel (queue : List ℕ) (closed : Bool)
  /-- `MutexInner`. -/
  | mutex (locked : Bool)
  /-- `Lookup`: the addresses of a name, until they are taken. -/
  | lookup (result : Option ℕ)
deriving DecidableEq

/-- What frees an object. -/
inductive Release where
  | storeResult (v : ℕ)
  | send (v : ℕ)
  | close
  | unlock
  | resolve (v : ℕ)
deriving DecidableEq

namespace ThreadObj

/-- `join`, `recv`, `lock` or the reader of a lookup, when it need not wait. -/
def attempt : ThreadObj → Option ThreadObj
  | .join (some _) => some (.join none)
  | .channel (_ :: q) closed => some (.channel q closed)
  | .channel [] true => some (.channel [] true)
  | .mutex false => some (.mutex true)
  | .lookup (some _) => some (.lookup none)
  | _ => none

def release : ThreadObj → Release → Option ThreadObj
  | .join _, .storeResult v => some (.join (some v))
  | .channel q false, .send v => some (.channel (q ++ [v]) false)
  | .channel q _, .close => some (.channel q true)
  | .mutex true, .unlock => some (.mutex false)
  | .lookup _, .resolve v => some (.lookup (some v))
  | _, _ => none

/-- Whether a task that finds the object not ready registers under the object's own lock. -/
def guarded : ThreadObj → Bool
  | .join _ | .channel _ _ => true
  | .mutex _ | .lookup _ => false

end ThreadObj

/-- An entry of an object's list of waiters: whom to post what key to. -/
structure Waiter where
  /-- The scheduler's waker; `none` is one of another machine. -/
  waker : Option ℕ
  key : ℕ
  task : TaskId
  obj : ℕ
deriving DecidableEq

/-- The native the machine is in. -/
structure Native where
  /-- The mutexes whose `with_lock` callbacks run, innermost first. -/
  inside : List ℕ
  /-- It found this object not ready, still holds the lock it looked under, and registers next. -/
  checking : Option ℕ
  /-- `THREAD_PARKED`: the task was registered. -/
  parked : Bool
  /-- The object of the native that runs again if the task is suspended now. -/
  last : ℕ

/-- The machine can go on to another native. -/
def Native.free (n : Native) : Prop := n.checking = none ∧ (n.inside = [] → n.parked = false)

structure System where
  vm : Vm
  /-- The scheduler's waker. -/
  waker : ℕ
  objs : ℕ → ThreadObj
  waiters : ℕ → List Waiter
  /-- Threads that released the object and did not take its list yet. -/
  releasing : ℕ → ℕ
  /-- Taken off a list, not posted yet. -/
  flying : List Waiter
  /-- Behind the posted keys. -/
  wakes : List Waiter
  native : Native
  awaits : ℕ → ℕ
  signalled : ℕ → Bool

namespace System

/-- The machine has just started. -/
def start (objs : ℕ → ThreadObj) : System where
  vm := ⟨none, false⟩
  waker := 0
  objs := objs
  waiters := fun _ ↦ []
  releasing := fun _ ↦ 0
  flying := []
  wakes := []
  native := ⟨[], none, false, 0⟩
  awaits := fun _ ↦ 0
  signalled := fun _ ↦ false

variable (y : System)

/-- The waiter posts to the scheduler that is there. -/
def Own (w : Waiter) : Prop := w.waker = some y.waker

instance (w : Waiter) : Decidable (y.Own w) := inferInstanceAs (Decidable (_ = _))

/-- Object `o` becomes `obj` and its releasing thread is about to wake the waiters. -/
def released (o : ℕ) (obj : ThreadObj) : System :=
  { y with
    objs := Function.update y.objs o obj
    releasing := Function.update y.releasing o (y.releasing o + 1)
    signalled := fun k ↦ y.signalled k || (y.waiters o).any fun w ↦ decide (y.Own w ∧ w.key = k) }

/-- The running task found `o` not ready and registers itself. -/
def register (s : Scheduler) (o : ℕ) : System :=
  { y with
    waiters := Function.update y.waiters o
      (y.waiters o ++ [⟨some y.waker, s.nextThreadKey, s.current, o⟩])
    native := ⟨y.native.inside, none, true, if y.native.inside = [] then o else y.native.last⟩
    signalled := Function.update y.signalled s.nextThreadKey false }

inductive Step : System → System → Prop where
  /-- The first scope starts a scheduler. -/
  | opens {y : System} {nested r} (h : taskScopeOpen y.vm.sched nested = some r)
    (hrun : y.vm.picking = false) (hfree : y.native.free) (hbase : y.native.inside = [])
    (hnew : ∀ s, y.vm.sched = some s → s.baseNested ≠ nested) :
    Step y { y with vm := ⟨some r.2, false⟩, waker := y.waker + 1, wakes := [] }
  /-- Any other step of the running task that keeps the scheduler or drops it, posts nothing and does
  not wait for a thread. In a callback it cannot switch. -/
  | machine {y : System} {s vm'} (hstep : VmStep y.vm vm') (hs : y.vm.sched = some s)
    (hrun : y.vm.picking = false) (hfree : y.native.free)
    (hnest : y.native.inside ≠ [] → vm'.picking = false)
    (hsame : ∀ s', vm'.sched = some s' →
      s'.baseNested = s.baseNested ∧ s'.posted = s.posted ∧ s'.nextThreadKey = s.nextThreadKey) :
    Step y { y with vm := vm' }
  /-- An iteration of the loop. Keys are posted during it only while the scheduler sleeps. -/
  | pick {y : System} {s} (hvm : y.vm = ⟨some s, true⟩) {w : World} {posted rest : List Waiter}
    (hperm : y.flying.Perm (posted ++ rest)) (hown : ∀ v ∈ posted, y.Own v)
    (hkeys : w.posted = posted.map Waiter.key) (hsleep : s.sleeps = false → posted = []) :
    Step y { y with
      vm := ⟨some (s.runNext w).2, !(s.runNext w).1⟩
      flying := rest
      wakes := if (s.runNext w).2.posted = [] then [] else y.wakes }
  /-- A native finds its object not ready. -/
  | check {y : System} {s nested o} (hvm : y.vm = ⟨some s, false⟩) (hfree : y.native.free)
    (harmed : y.native.inside = [] → s.tasksCanSwitch nested) (hwait : (y.objs o).attempt = none) :
    Step y { y with native := { y.native with checking := some o } }
  /-- It registers the task and lets go of its locks. -/
  | push {y : System} {s o} (hvm : y.vm = ⟨some s, false⟩) (ho : y.native.checking = some o) :
    Step y (y.register s o)
  /-- `with_lock` takes its mutex and calls the callback. -/
  | enter {y : System} {s nested o obj} (hvm : y.vm = ⟨some s, false⟩) (hfree : y.native.free)
    (harmed : y.native.inside = [] → s.tasksCanSwitch nested) (hobj : y.objs o = .mutex false)
    (hlock : (y.objs o).attempt = some obj) :
    Step y { y with
      objs := Function.update y.objs o obj
      native := { y.native with inside := o :: y.native.inside } }
  /-- The callback returned. -/
  | leave {y : System} {o rest obj} (hin : y.native.inside = o :: rest)
    (hcheck : y.native.checking = none) (hunlock : (y.objs o).release .unlock = some obj) :
    Step y { y.released o obj with native := ⟨rest, none, y.native.parked, o⟩ }
  /-- The native returned and the task was registered. -/
  | suspend {y : System} {s nested} (hvm : y.vm = ⟨some s, false⟩) (hin : y.native.inside = [])
    (hcheck : y.native.checking = none) (hparked : y.native.parked = true)
    (hswitch : s.tasksCanSwitch nested) :
    Step y { y with
      vm := ⟨some s.taskSuspendThread, true⟩
      native := { y.native with parked := false }
      awaits := Function.update y.awaits s.nextThreadKey y.native.last }
  /-- Someone need not wait for an object. -/
  | use {y : System} {o obj} (h : (y.objs o).attempt = some obj) :
    Step y { y with objs := Function.update y.objs o obj }
  /-- Someone releases an object, under its own lock if it has one. -/
  | release {y : System} {o r obj} (h : (y.objs o).release r = some obj)
    (hlock : (y.objs o).guarded = true → y.native.checking ≠ some o) : Step y (y.released o obj)
  /-- The releasing thread takes the list of waiters, under the list's lock. -/
  | take {y : System} {o} (h : 0 < y.releasing o)
    (hlock : (y.objs o).guarded = false → y.native.checking ≠ some o) :
    Step y { y with
      waiters := Function.update y.waiters o []
      releasing := Function.update y.releasing o (y.releasing o - 1)
      flying := y.flying ++ y.waiters o }
  /-- It posts a key. -/
  | post {y : System} {s picking w rest} (hvm : y.vm = ⟨some s, picking⟩)
    (hperm : y.flying.Perm (w :: rest)) (hown : y.Own w) :
    Step y { y with
      vm := ⟨some { s with posted := s.posted ++ [w.key] }, picking⟩
      flying := rest
      wakes := y.wakes ++ [w] }
  /-- The scheduler of the waker is another one or is gone. -/
  | postElsewhere {y : System} {w rest} (hperm : y.flying.Perm (w :: rest))
    (hother : ¬y.Own w ∨ y.vm.sched = none) : Step y { y with flying := rest }
  /-- A task of another machine registers itself. -/
  | other {y : System} {o w} (hw : w.waker = none) :
    Step y { y with waiters := Function.update y.waiters o (y.waiters o ++ [w]) }

/-- No native is about to park inside a callback. -/
def Flat : Prop := y.native.checking ≠ none → y.native.inside = []

end System

end CoilLang.Task
