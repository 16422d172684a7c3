import CoilLang.Lib.Loop
import CoilLang.Machine.SlabWalk
import CoilLang.Machine.Snapshot
import Mathlib.Data.List.ReduceOption
import Mathlib.Data.List.Sort

/-!
# The collector

Heap objects live in slots of the slab. A cycle of the collector marks what the roots reach, clears the weak handles
whose target is not marked and forgets the interned strings that are not, and then sweeps slot by slot from a
cursor, a few objects at a time, **while the program goes on allocating**. An object allocated in a slot the sweep
has yet to reach is tagged fresh, so that the sweep lets it through. Objects that owe a `drop` are marked before it
runs; these finalizers are program code that runs with the cycle open.

Words are numbers. A slot that holds no object is a poisoned one (`none`). Byte counts, the nursery, evacuation and
shared-heap epochs are not part of this model, and a member is looked up like any word.
-/

namespace CoilLang.Gc

open Machine.Snapshot (WordKind packedWordKind heapAddr)

/-! ### Objects -/

/-- Objects that hold no references. -/
inductive Handle
  | library | stream | thread | sender | receiver | mutex | rwLock
  deriving DecidableEq, Repr

/-- Objects over words `W`. A table is an instance with named fields: pairs of a key and a member. The links of a
coroutine are the one it delegates to and the one that delegates to it. -/
inductive Object (W : Type)
  | string (s : String)
  | instance (typeId : ℕ) (finalized : Bool) (slots : List W)
  | table (typeId : ℕ) (finalized : Bool) (fields : List (W × W))
  | enum (tag typeId : ℕ) (finalized : Bool) (kinds : UInt8) (payload : List W)
  | tuple (kinds : UInt8) (elements : List W)
  | array (pointers : Bool) (elements : List W)
  | bytes (data : List UInt8)
  | coroutine (savedStack : List W) (savedLiveMask : ℕ) (pendingSend : W) (links : List W)
  | boxed (tag : ℕ) (payload : W)
  | root (payload : Option W)
  | weak (target : W) (cleared : Bool)
  | fn (entry arity : ℕ) (isRest : Bool) (captures capturedArgs : List W) (dicts : List (Option W))
  | handle (what : Handle)
  deriving DecidableEq

namespace Object

variable {W X : Type}

/-- The header byte. -/
def kind : Object W → ℕ
  | .string _ => 1
  | .instance .. => 2
  | .table .. => 2
  | .enum .. => 3
  | .tuple .. => 5
  | .array .. => 6
  | .bytes _ => 6
  | .coroutine .. => 7
  | .boxed .. => 8
  | .root _ => 9
  | .weak .. => 10
  | .fn .. => 12
  | .handle .library => 4
  | .handle .stream => 13
  | .handle .thread => 14
  | .handle .sender => 15
  | .handle .receiver => 16
  | .handle .mutex => 17
  | .handle .rwLock => 18

def map (f : W → X) : Object W → Object X
  | .string s => .string s
  | .instance typeId finalized slots => .instance typeId finalized (slots.map f)
  | .table typeId finalized fields => .table typeId finalized (fields.map (Prod.map f f))
  | .enum tag typeId finalized kinds payload => .enum tag typeId finalized kinds (payload.map f)
  | .tuple kinds elements => .tuple kinds (elements.map f)
  | .array pointers elements => .array pointers (elements.map f)
  | .bytes data => .bytes data
  | .coroutine stack mask send links => .coroutine (stack.map f) mask (f send) (links.map f)
  | .boxed tag payload => .boxed tag (f payload)
  | .root payload => .root (payload.map f)
  | .weak target cleared => .weak (f target) cleared
  | .fn entry arity isRest captures args dicts =>
    .fn entry arity isRest (captures.map f) (args.map f) (dicts.map (Option.map f))
  | .handle what => .handle what

/-- The words a program reads from an object. A weak handle is upgraded, not read. -/
def words : Object W → List W
  | .instance _ _ slots => slots
  | .table _ _ fields => fields.flatMap fun f ↦ [f.1, f.2]
  | .enum _ _ _ _ payload => payload
  | .tuple _ elements => elements
  | .array _ elements => elements
  | .coroutine stack _ send links => stack ++ send :: links
  | .boxed _ payload => [payload]
  | .root payload => payload.toList
  | .fn _ _ _ captures args dicts => captures ++ args ++ dicts.reduceOption
  | _ => []

/-- The words whose kind is not scalar. -/
def unscalar (kind : ℕ → WordKind) (words : List W) : List W :=
  (words.zipIdx.filter fun w ↦ kind w.2 ≠ .scalar).map Prod.fst

/-- The words of a suspended stack that its mask names; an empty mask names all. -/
def liveStack (mask : ℕ) (stack : List W) : List W :=
  (stack.zipIdx.filter fun w ↦ mask = 0 ∨ 64 ≤ w.2 ∨ mask.testBit w.2).map Prod.fst

/-- The words marking looks at, with whether what they point at has to be scanned in turn: the keys of a table are
strings and are marked only. -/
def scan (classKinds : ℕ → List WordKind) (mayHoldRefs : Bool) : Object W → List (Bool × W)
  | .instance typeId _ slots => (unscalar (fun i ↦ ((classKinds typeId)[i]?).getD .unknown) slots).map (true, ·)
  | .table _ _ fields => fields.flatMap fun f ↦ [(false, f.1), (true, f.2)]
  | .enum _ _ _ kinds payload => (unscalar (packedWordKind kinds) payload).map (true, ·)
  | .tuple kinds elements => (unscalar (packedWordKind kinds) elements).map (true, ·)
  | .array _ elements => if mayHoldRefs then elements.map (true, ·) else []
  | .coroutine stack mask send links => (liveStack mask stack ++ send :: links).map (true, ·)
  | .boxed _ payload => [(true, payload)]
  | .root payload => payload.toList.map (true, ·)
  | .fn _ _ _ captures args dicts => (captures ++ args ++ dicts.reduceOption).map (true, ·)
  | _ => []

/-- The elements of an array and whether they are known to be pointers. -/
def elements? : Object W → Option (Bool × List W)
  | .array pointers elements => some (pointers, elements)
  | .bytes _ => some (false, [])
  | _ => none

def typeId? : Object W → Option ℕ
  | .instance typeId _ _ => some typeId
  | .table typeId _ _ => some typeId
  | .enum _ typeId _ _ _ => some typeId
  | _ => none

def isFinalized : Object W → Bool
  | .instance _ finalized _ => finalized
  | .table _ finalized _ => finalized
  | .enum _ _ finalized _ _ => finalized
  | _ => false

def isWeak : Object W → Bool
  | .weak .. => true
  | _ => false

/-- Of a type with a `drop`. -/
def hasFinalizer (types : List ℕ) (o : Object W) : Bool := o.typeId?.any (· ∈ types)

/-- Owes its `drop`. -/
def pending (types : List ℕ) (o : Object W) : Bool := o.hasFinalizer types && !o.isFinalized

/-- Takes the right to run the `drop`, once. Enums without a type are shared and never finalized. -/
def claim : Object W → Option (Object W)
  | .instance typeId finalized slots => if finalized then none else some (.instance typeId true slots)
  | .table typeId finalized fields => if finalized then none else some (.table typeId true fields)
  | .enum tag typeId finalized kinds payload =>
    if typeId = 0 then some (.enum tag typeId finalized kinds payload)
    else if finalized then none
    else some (.enum tag typeId true kinds payload)
  | _ => none

/-- Gives an enum with a payload its type. -/
def tagEnum (typeId : ℕ) : Object W → Option (Object W)
  | .enum tag _ finalized kinds payload =>
    if payload = [] then none else some (.enum tag typeId finalized kinds payload)
  | _ => none

end Object

/-- The objects a heap has one of. -/
inductive Immortal
  | unitEnum (tag : ℕ)
  | emptyTuple
  | plainFn (entry arity : ℕ) (isRest : Bool)
  deriving DecidableEq, Repr

def Immortal.obj {W : Type} : Immortal → Object W
  | .unitEnum tag => .enum tag 0 false 0 []
  | .emptyTuple => .tuple 0 []
  | .plainFn entry arity isRest => .fn entry arity isRest [] [] []

/-! ### The heap -/

/-- An object and its header. An array that was scanned and not written since holds no references. -/
structure Cell where
  obj : Object ℕ
  marked : Bool
  fresh : Bool
  mayHoldRefs : Bool

inductive GcPhase
  | idle
  | marking
  | sweeping
  deriving DecidableEq, Repr

structure Heap where
  slab : Slab := {}
  cells : ℕ → Option Cell := fun _ ↦ none
  phase : GcPhase := .idle
  /-- Top first. -/
  gray : List ℕ := []
  cursor : Option Slab.SlotCursor := none
  /-- The intern table. -/
  strings : List ℕ := []
  weaks : List ℕ := []
  finalizable : List ℕ := []
  finalizerTypes : List ℕ := []
  immortals : List (Immortal × ℕ) := []
  /-- The word kinds of a class's fields. -/
  classKinds : ℕ → List WordKind

/-- The system, and the layout of each kind of object. Objects are aligned, so that bit 0 of an address is free. -/
structure Env where
  os : Slab.Os
  layout : ℕ → Slab.Layout
  even : ∀ k, 2 ∣ (layout k).align
  mapped : ∀ cs p, os.mmap cs = some p → 0 < p

/-- A system that maps page after page, for objects of half a page. -/
def Env.upwards : Env where
  os := Slab.upwards
  layout _ := Slab.halfChunk
  even _ := by decide
  mapped cs p h := by
    cases h
    induction cs with
    | nil => decide
    | cons c cs ih =>
      rw [List.map_cons, List.foldr_cons]
      omega

namespace Heap

def find (h : Heap) (a : ℕ) : Option Cell := if a = 0 then none else h.cells a

def isMarked (h : Heap) (a : ℕ) : Bool := (h.cells a).any Cell.marked

def mayBeRef (h : Heap) (v : ℕ) : Bool :=
  heapAddr v ≠ 0 && h.slab.chunks.any (·.ptr ≤ heapAddr v) && h.slab.chunks.any (heapAddr v < ·.ptr + Slab.chunkBytes)

/-! ### Allocating -/

/-- Writes an object into a slot. It is black while marking, and fresh if the sweep has yet to reach it. -/
def place (h : Heap) (slab : Slab) (p : ℕ) (obj : Object ℕ) (mayHoldRefs : Bool) : Heap :=
  { h with
    slab
    cells := Function.update h.cells p (some
      { obj
        marked := h.phase = .marking
        fresh := h.phase = .sweeping && h.cursor.any fun cur ↦ !slab.walkPassed cur p
        mayHoldRefs })
    weaks := if obj.isWeak then h.weaks ++ [p] else h.weaks
    finalizable := if obj.hasFinalizer h.finalizerTypes then h.finalizable ++ [p] else h.finalizable }

def alloc (env : Env) (h : Heap) (obj : Object ℕ) (mayHoldRefs : Bool) : Option (ℕ × Heap) :=
  (h.slab.alloc env.os (env.layout obj.kind)).map fun r ↦ (r.1, h.place r.2 r.1 obj mayHoldRefs)

/-- The interned string with the text. -/
def findString (h : Heap) (s : String) : Option ℕ :=
  h.strings.find? fun a ↦ (h.cells a).any (·.obj = .string s)

def intern (env : Env) (h : Heap) (s : String) : Option (ℕ × Heap) :=
  match h.findString s with
  | some a => some (a, h)
  | none => (h.alloc env (.string s) true).map fun r ↦ (r.1, { r.2 with strings := r.1 :: r.2.strings })

/-- Interns the string at `a` itself, unless its text is interned already. -/
def internRef (h : Heap) (a : ℕ) (s : String) : ℕ × Heap :=
  match h.findString s with
  | some b => (b, h)
  | none => (a, { h with strings := a :: h.strings })

/-- The shared object of a key. -/
def immortal (env : Env) (h : Heap) (key : Immortal) : Option (ℕ × Heap) :=
  match h.immortals.lookup key with
  | some a => some (a, h)
  | none => (h.alloc env key.obj true).map fun r ↦ (r.1, { r.2 with immortals := (key, r.1) :: r.2.immortals })

/-! ### Marking -/

/-- Marks the object at `a`; `gray` puts it on the gray list. -/
def markAt (gray : Bool) (h : Heap) (a : ℕ) : Heap :=
  match h.cells a with
  | none => h
  | some c =>
    if c.marked then h
    else
      { h with
        cells := Function.update h.cells a (some { c with marked := true })
        gray := if gray then a :: h.gray else h.gray }

/-- Marks what a word points at, if anything. -/
def markItem (h : Heap) (i : Bool × ℕ) : Heap :=
  if (h.find (heapAddr i.2)).isSome then h.markAt i.1 (heapAddr i.2) else h

/-- Notes that the array at `a` holds no references. -/
def noRefs (h : Heap) (a : ℕ) : Heap :=
  { h with cells := Function.update h.cells a ((h.cells a).map fun c ↦ { c with mayHoldRefs := false }) }

/-- Whether an element could be a reference; one known to be a pointer is, unless it is null. -/
def anyRef (h : Heap) (pointers : Bool) (elements : List ℕ) : Bool :=
  elements.any fun v ↦ if pointers then heapAddr v ≠ 0 else h.mayBeRef v

def markReferences (h : Heap) (a : ℕ) : Heap :=
  match h.cells a with
  | none => h
  | some c =>
    let h' := (c.obj.scan h.classKinds c.mayHoldRefs).foldl markItem h
    match c.obj.elements? with
    | none => h'
    | some (pointers, elements) =>
      if c.mayHoldRefs && !h.anyRef pointers elements then h'.noRefs a else h'

/-- Scans up to `n` gray objects; says whether none is left. -/
def markQuantum : ℕ → Heap → Heap × Bool
  | 0, h => (h, h.gray = [])
  | n + 1, h =>
    match h.gray with
    | [] => (h, true)
    | a :: rest => markQuantum n ({ h with gray := rest }.markReferences a)

def usizeMax : ℕ := 2 ^ 64 - 1

/-- The slots of all chunks. -/
def slots (h : Heap) : List ℕ := h.slab.chunks.flatMap Slab.Chunk.slots

/-- `while !mark_quantum(usize::MAX) {}`. Each slot is scanned at most once, which bounds the rounds. -/
def drain (h : Heap) : Heap :=
  (repeatUntil (fun h ↦ ((markQuantum usizeMax h).1, !(markQuantum usizeMax h).2))
    (2 * h.slots.length + h.gray.length + 1) h).getD h

def remarkRoots (h : Heap) (roots : List ℕ) : Heap := roots.foldl (fun h v ↦ h.markItem (true, v)) h

def beginMark (h : Heap) (roots : List ℕ) : Heap :=
  if h.phase ≠ .idle then h else remarkRoots { h with phase := .marking, gray := [] } roots

def markFromRoots (h : Heap) (roots : List ℕ) : Heap := (remarkRoots { h with gray := [] } roots).drain

/-- Marks what `v` reaches if a mark is open: program code may hold it from now on. -/
def resurrectDuringMark (h : Heap) (v : ℕ) : Heap :=
  if h.phase = .marking then (h.markItem (true, v)).drain else h

/-! ### Weak handles and finalizers -/

/-- Clears the weak handle at `a` if its target is not marked; keeps it listed if it stays uncleared. -/
def clearWeak (h : Heap) (a : ℕ) : Heap :=
  match h.find a with
  | none => h
  | some c =>
    match c.obj with
    | .weak target false =>
      if (h.find (heapAddr target)).any (!·.marked) then
        { h with cells := Function.update h.cells a (some { c with obj := .weak 0 true }) }
      else { h with weaks := h.weaks ++ [a] }
    | _ => h

def clearDeadWeaks (h : Heap) : Heap :=
  (h.weaks.dedup.insertionSort (· ≤ ·)).foldl clearWeak { h with weaks := [] }

/-- The object at `a` still owes its `drop`. -/
def owesDrop (h : Heap) (a : ℕ) : Bool := (h.find a).any (·.obj.pending h.finalizerTypes)

/-- The unmarked objects that owe their `drop`, in address order; those that owe none leave the list. -/
def unmarkedFinalizable (h : Heap) : List ℕ × Heap :=
  let list := (h.finalizable.dedup.insertionSort (· ≤ ·)).filter h.owesDrop
  (list.filter fun a ↦ !h.isMarked a, { h with finalizable := list })

/-- Marks the queued objects before their `drop`s run. -/
def shadeForFinalizer (h : Heap) (queue : List ℕ) : Heap := queue.foldl (markAt true) h

/-- The objects of the heap, in slab order. -/
def objects (h : Heap) : List ℕ := (h.slab.ahead {}).filter fun a ↦ (h.cells a).isSome

def registerFinalizerType (h : Heap) (typeId : ℕ) : Heap :=
  if typeId = 0 ∨ typeId ∈ h.finalizerTypes then h
  else
    { h with
      finalizerTypes := typeId :: h.finalizerTypes
      finalizable := h.finalizable ++
        h.objects.filter fun a ↦ (h.cells a).any fun c ↦ c.obj.typeId? = some typeId }

def noteEnumType (h : Heap) (a typeId : ℕ) : Heap :=
  if typeId ∈ h.finalizerTypes then { h with finalizable := h.finalizable ++ [a] } else h

/-! ### Sweeping -/

def unlinkUnmarkedInterns (h : Heap) : Heap := { h with strings := h.strings.filter h.isMarked }

def beginSweep (h : Heap) : Heap :=
  if h.phase = .sweeping then h
  else { h.unlinkUnmarkedInterns with phase := .sweeping, cursor := some {} }

/-- How many slots the sweep has yet to visit. -/
def aheadLength (h : Heap) : ℕ := (h.cursor.map fun cur ↦ (h.slab.ahead cur).length).getD 0

/-- The next object of the walk: free slots are skipped. -/
def nextObject (h : Heap) : ℕ → Slab.SlotCursor → Option ℕ × Slab.SlotCursor
  | 0, cur => (none, cur)
  | n + 1, cur =>
    match h.slab.nextSlot cur with
    | (none, cur) => (none, cur)
    | (some p, cur) => if (h.cells p).isSome then (some p, cur) else nextObject h n cur

/-- Visits the next object: an unmarked one is freed unless it is fresh, a kept one loses mark and tag. -/
def sweepOne (h : Heap) : Heap :=
  match h.cursor with
  | none => h
  | some cur =>
    match h.nextObject (h.aheadLength + 1) cur with
    | (none, _) => { h with cursor := none }
    | (some a, cur) =>
      match h.cells a with
      | none => { h with cursor := some cur }
      | some c =>
        if c.marked || c.fresh then
          { h with
            cells := Function.update h.cells a (some { c with marked := false, fresh := false })
            cursor := some cur }
        else
          let freed := h.slab.freeAtCursor cur a
          { h with slab := freed.1, cells := Function.update h.cells a none, cursor := some freed.2 }

def finishSweepCycle (env : Env) (h : Heap) : Heap :=
  { h with slab := (h.slab.releaseIdleChunks env.os).2, phase := .idle, cursor := none }

/-- At most `n` more objects; says whether the sweep is finished. -/
def sweepLoop (env : Env) : ℕ → Heap → Heap × Bool
  | 0, h => if h.cursor.isNone then (h.finishSweepCycle env, true) else (h, false)
  | n + 1, h => if h.cursor.isNone then (h.finishSweepCycle env, true) else sweepLoop env n h.sweepOne

def sweepQuantum (env : Env) (n : ℕ) (h : Heap) : Heap × Bool :=
  if h.phase ≠ .sweeping then (h, true) else sweepLoop env n h

/-- `while self.gc_sweep_cursor.is_some() { self.sweep_one() }`, at most `n` rounds. -/
def sweepRest : ℕ → Heap → Heap
  | 0, h => h
  | n + 1, h => if h.cursor.isSome then sweepRest n h.sweepOne else h

def finishSweep (env : Env) (h : Heap) : Heap :=
  if h.phase ≠ .sweeping then h
  else finishSweepCycle env (sweepRest (h.aheadLength + 1) h)

/-- Marks and sweeps in one call: `extraRoots` and the immortal objects are the roots. -/
def collect (env : Env) (h : Heap) (extraRoots : List ℕ) : Heap :=
  let h := if h.phase = .sweeping then h.finishSweep env else h
  let roots := h.immortals.map Prod.snd ++ extraRoots
  let h := if h.phase = .idle then h.beginMark roots else h.markFromRoots roots
  (h.drain.clearDeadWeaks.beginSweep).finishSweep env

def unmark (h : Heap) : Heap :=
  { h with cells := fun a ↦ (h.cells a).map fun c ↦ { c with marked := false } }

end Heap

/-! ### The machine -/

/-- What the machine is doing: running the program, or the finalizers left in the queue of an open cycle or of an
explicit collection. -/
inductive Mode
  | running
  | marking (queue : List ℕ)
  | collecting (queue : List ℕ)
  deriving DecidableEq, Repr

/-- The heap and the words the program holds: stack, statics and handles. -/
structure Vm where
  heap : Heap
  roots : List ℕ := []
  mode : Mode := .running

/-- What a program does with heap objects. Words are named by their place among the roots; in a new payload
`Sum.inr k` is word `k` of the old one. -/
inductive Instr
  | imm (n : ℕ)
  | select (places : List ℕ)
  | int (i : ℕ)
  | same (i j : ℕ)
  | look (i : ℕ)
  | load (i k : ℕ)
  | store (i : ℕ) (payload : Object (ℕ ⊕ ℕ)) (note : Bool)
  | tagEnum (i typeId : ℕ)
  | alloc (payload : Object ℕ) (mayHoldRefs : Bool)
  | immortal (key : Immortal)
  | intern (s : String)
  | internRef (i : ℕ)
  | upgrade (i : ℕ)
  | register (typeId : ℕ)

/-- What a program sees of a step. -/
inductive Obs
  | silent
  | int (n : ℕ)
  | bool (b : Bool)
  | shape (o : Object Unit)
  | missing
  deriving DecidableEq

namespace Vm

def word (V : Vm) (i : ℕ) : ℕ := V.roots.getD i 0

def push (V : Vm) (v : ℕ) : Vm := { V with roots := V.roots ++ [v] }

/-- The program holds a new object. -/
def hold (V : Vm) (r : ℕ × Heap) : Obs × Vm := (.silent, { V with heap := r.2, roots := V.roots ++ [r.1] })

def setCell (V : Vm) (a : ℕ) (c : Cell) : Vm :=
  { V with heap := { V.heap with cells := Function.update V.heap.cells a (some c) } }

/-- One step of the program; `none` when the system has no memory. -/
def exec (env : Env) (V : Vm) : Instr → Option (Obs × Vm)
  | .imm n => some (.silent, V.push n)
  | .select places => some (.silent, { V with roots := places.map V.word })
  | .int i => some (.int (V.word i), V)
  | .same i j => some (.bool (V.word i = V.word j), V)
  | .look i =>
    match V.heap.find (heapAddr (V.word i)) with
    | none => some (.missing, V)
    | some c => some (.shape (c.obj.map fun _ ↦ ()), V)
  | .load i k =>
    match (V.heap.find (heapAddr (V.word i))).bind (·.obj.words[k]?) with
    | none => some (.missing, V)
    | some w => some (.silent, V.push w)
  | .store i payload note =>
    match V.heap.find (heapAddr (V.word i)) with
    | none => some (.missing, V)
    | some c => some (.silent, V.setCell (heapAddr (V.word i))
        { c with
          obj := payload.map (Sum.elim V.word fun k ↦ c.obj.words.getD k 0)
          mayHoldRefs := c.mayHoldRefs || note })
  | .tagEnum i typeId =>
    match V.heap.find (V.word i) with
    | none => some (.silent, V)
    | some c =>
      match c.obj.tagEnum typeId with
      | none => some (.silent, V)
      | some o =>
        let V := V.setCell (V.word i) { c with obj := o }
        some (.silent, { V with heap := V.heap.noteEnumType (V.word i) typeId })
  | .alloc payload mayHoldRefs => (V.heap.alloc env (payload.map V.word) mayHoldRefs).map V.hold
  | .immortal key => (V.heap.immortal env key).map V.hold
  | .intern s => (V.heap.intern env s).map V.hold
  | .internRef i =>
    match (V.heap.find (V.word i)).map Cell.obj with
    | some (.string s) => some (V.hold (V.heap.internRef (V.word i) s))
    | _ => some (.missing, V)
  | .upgrade i =>
    match (V.heap.find (V.word i)).map Cell.obj with
    | some (.weak target false) =>
      some (.bool true, { V with heap := V.heap.resurrectDuringMark target }.push target)
    | _ => some (.bool false, V)
  | .register typeId => some (.silent, { V with heap := V.heap.registerFinalizerType typeId })

/-! ### Safepoints -/

/-- Immortal objects and the words the program holds. -/
def collectRoots (V : Vm) : List ℕ := V.heap.immortals.map Prod.snd ++ V.roots

def onHeap (V : Vm) (f : Heap → Heap) : Vm := { V with heap := f V.heap }

/-- Weak handles are cleared before anything is freed. -/
def startSweep (V : Vm) : Vm := { V.onHeap fun h ↦ h.clearDeadWeaks.beginSweep with mode := .running }

/-- Marks to completion and queues the objects that owe a `drop`; without any the sweep starts at once. -/
def startCycle (V : Vm) : Vm :=
  let V := V.onHeap fun h ↦ (h.beginMark V.collectRoots).drain
  let V := V.onHeap fun h ↦ (h.remarkRoots V.collectRoots).drain
  let (queue, heap) := V.heap.unmarkedFinalizable
  if queue = [] then { V with heap }.startSweep
  else { V with heap := (heap.shadeForFinalizer queue).drain, mode := .marking queue }

/-- Ends the mark after the finalizers. -/
def finishMark (V : Vm) : Vm := (V.onHeap fun h ↦ (h.remarkRoots V.collectRoots).drain).startSweep

/-- Marks and queues for an explicit collection; without finalizers it sweeps at once. -/
def startCollect (env : Env) (V : Vm) : Vm :=
  let V := V.onHeap fun h ↦ if h.phase = .sweeping then h.finishSweep env else h
  let V := V.onHeap (·.markFromRoots V.collectRoots)
  let (queue, heap) := V.heap.unmarkedFinalizable
  if queue = [] then { V with heap }.startSweep.onHeap (·.finishSweep env)
  else { V with heap := (heap.shadeForFinalizer queue).drain, mode := .collecting queue }

/-- Marks again from nothing after the finalizers, and sweeps. -/
def finishCollect (env : Env) (V : Vm) : Vm :=
  let V := V.onHeap Heap.unmark
  (V.onHeap (·.markFromRoots V.collectRoots)).startSweep.onHeap (·.finishSweep env)

/-- Starts the `drop` of the object at `a`, unless it ran already: the program now holds the object. -/
def runFinalizer (V : Vm) (a : ℕ) : Bool × Vm :=
  match V.heap.find a with
  | none => (false, V)
  | some c =>
    match c.obj.claim with
    | none => (false, V)
    | some o => (true, (V.setCell a { c with obj := o }).push a)

/-- What the collector does at a safepoint. -/
inductive GcStep
  | startCycle
  | finishMark
  | sweep (n : ℕ)
  | finishSweep
  | startCollect
  | finishCollect
  | runFinalizer
  deriving DecidableEq, Repr

/-- One step of the collector, where the machine allows it. The program sees that a finalizer starts. -/
def gc (env : Env) (V : Vm) (g : GcStep) : Option (List Obs × Vm) :=
  match g, V.mode with
  | .startCycle, .running => if V.heap.phase = .idle then some ([], V.startCycle) else none
  | .finishMark, .marking [] => some ([], V.finishMark)
  | .sweep n, .running => some ([], V.onHeap fun h ↦ (h.sweepQuantum env n).1)
  | .finishSweep, .running => some ([], V.onHeap (·.finishSweep env))
  | .startCollect, .running => some ([], V.startCollect env)
  | .finishCollect, .collecting [] => some ([], V.finishCollect env)
  | .runFinalizer, .marking (a :: queue) =>
    let r := { V with mode := .marking queue }.runFinalizer a
    some ([.bool r.1], r.2)
  | .runFinalizer, .collecting (a :: queue) =>
    let r := { V with mode := .collecting queue }.runFinalizer a
    some ([.bool r.1], r.2)
  | _, _ => none

end Vm

end CoilLang.Gc
