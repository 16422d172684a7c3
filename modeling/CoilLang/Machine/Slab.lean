import Mathlib.Algebra.Group.Nat.Defs
import Mathlib.Data.List.Basic
import Mathlib.Data.List.Count
import Mathlib.Data.List.Perm.Subperm
import Mathlib.Logic.Function.Basic
import Mathlib.Logic.Relation

/-!
# The slab of size classes

Heap objects live in **slots** of 64 KiB chunks. A chunk is carved whole into slots of one size class, and its
slots go to the free list of that class. A chunk whose slots are all free may give its pages back to the
system; it stays mapped, waits on a list of released chunks and is carved again before a new one is mapped.

Addresses are natural numbers. What `mmap` returns is up to the system (`Os`): a range that overlaps no chunk,
or a failure, which ends the process. The nursery is not part of this model, and the chunk that holds an
address is found by a search of the chunk table where the code asks its directory.
-/

namespace CoilLang.Slab

/-- Bytes of a chunk. -/
def chunkBytes : ℕ := 64 * 1024

/-- Sweep cycles between two scans for idle chunks. -/
def releaseWindow : ℕ := 8

/-- Slot size and alignment. -/
abbrev Key := ℕ × ℕ

def alignUp (addr align : ℕ) : ℕ := (addr + align - 1) / align * align

/-- What is allocated: objects that fit a chunk. -/
structure Layout where
  size : ℕ
  align : ℕ
  powerOfTwo : ∃ k, align = 2 ^ k
  pos : 0 < size
  fits : alignUp size align ≤ chunkBytes

def slotDims (layout : Layout) : Key := (alignUp layout.size layout.align, layout.align)

structure Chunk where
  ptr : ℕ
  slotSize : ℕ
  slotAlign : ℕ
  firstOff : ℕ
  deriving DecidableEq

namespace Chunk

def key (c : Chunk) : Key := (c.slotSize, c.slotAlign)

def contains (c : Chunk) (addr : ℕ) : Bool := c.ptr ≤ addr && addr < c.ptr + chunkBytes

def slotCount (c : Chunk) : ℕ := (chunkBytes - c.firstOff) / c.slotSize

/-- The addresses of the slots. -/
def slots (c : Chunk) : List ℕ := (List.range c.slotCount).map fun k ↦ c.ptr + c.firstOff + k * c.slotSize

end Chunk

/-- Free slots of one class; `pop` takes the last one. -/
structure FreeClass where
  key : Key
  slots : List ℕ
  /-- Shortest the list got since the last scan. -/
  lowWater : ℕ
  deriving DecidableEq

/-- The system: where a new chunk is mapped, given the chunks there are, and whether pages can be given back. -/
structure Os where
  mmap : List Chunk → Option ℕ
  apart : ∀ cs p, mmap cs = some p → ∀ c ∈ cs, p + chunkBytes ≤ c.ptr ∨ c.ptr + chunkBytes ≤ p
  unix : Bool

end Slab

structure Slab where
  chunks : List Slab.Chunk := []
  free : List Slab.FreeClass := []
  /-- Chunks whose pages were given back, by class. -/
  released : List (Slab.Key × List ℕ) := []
  cyclesSinceScan : ℕ := 0
  releasedMask : List Bool := []
  deriving DecidableEq

namespace Slab

/-! ### Lists by class -/

/-- Changes the first class with the key. -/
def onClass (key : Key) (f : FreeClass → FreeClass) : List FreeClass → Option (List FreeClass)
  | [] => none
  | c :: cs => if c.key = key then some (f c :: cs) else (onClass key f cs).map (c :: ·)

/-- Takes a slot of the class. -/
def popFree (key : Key) : List FreeClass → Option (ℕ × List FreeClass)
  | [] => none
  | c :: cs =>
    if c.key = key then
      c.slots.getLast?.map fun p ↦
        (p, { c with slots := c.slots.dropLast, lowWater := min c.lowWater c.slots.dropLast.length } :: cs)
    else (popFree key cs).map fun r ↦ (r.1, c :: r.2)

def popReleased (key : Key) : List (Key × List ℕ) → Option (ℕ × List (Key × List ℕ))
  | [] => none
  | (k, list) :: rs =>
    if k = key then list.getLast?.map fun i ↦ (i, (k, list.dropLast) :: rs)
    else (popReleased key rs).map fun r ↦ (r.1, (k, list) :: r.2)

def pushReleased (key : Key) (i : ℕ) : List (Key × List ℕ) → List (Key × List ℕ)
  | [] => [(key, [i])]
  | (k, list) :: rs => if k = key then (k, list ++ [i]) :: rs else (k, list) :: pushReleased key i rs

def FreeClass.append (slots : List ℕ) (c : FreeClass) : FreeClass := { c with slots := c.slots ++ slots }

variable (s : Slab)

def isReleased (i : ℕ) : Bool := s.releasedMask.getD i false

def setReleased (i : ℕ) (released : Bool) : Slab :=
  { s with releasedMask := (s.releasedMask ++ List.replicate (i + 1 - s.releasedMask.length) false).set i released }

def chunkFor (addr : ℕ) : Option Chunk := s.chunks.find? (·.contains addr)

/-! ### Allocation -/

/-- The slots of size `size` from `p` to `last`. -/
def carveLoop (size last : ℕ) : ℕ → ℕ → List ℕ
  | 0, _ => []
  | fuel + 1, p => if p + size ≤ last then p :: carveLoop size last fuel (p + size) else []

/-- Hands out the first slot of a chunk and lists the others as free. -/
def carveSlots (ptr : ℕ) (key : Key) (newChunk : Bool) : Option (ℕ × Slab) :=
  let first := alignUp ptr key.2
  match carveLoop key.1 (ptr + chunkBytes) chunkBytes first with
  | [] => none
  | firstSlot :: rest =>
    -- The free list pops from its back: the chunk is handed out in address order.
    let free := match onClass key (.append rest.reverse) s.free with
      | some free => free
      | none => if rest = [] then s.free else s.free ++ [⟨key, rest.reverse, rest.length⟩]
    let chunks := if newChunk then s.chunks ++ [⟨ptr, key.1, key.2, first - ptr⟩] else s.chunks
    some (firstSlot, { s with free, chunks })

def mapPage (os : Os) (key : Key) : Option (ℕ × Slab) :=
  (os.mmap s.chunks).bind fun ptr ↦ s.carveSlots ptr key true

/-- A released chunk of the class before a new one. -/
def carvePage (os : Os) (key : Key) : Option (ℕ × Slab) :=
  match popReleased key s.released with
  | none => s.mapPage os key
  | some (i, released) =>
    match s.chunks[i]? with
    | none => { s with released }.mapPage os key
    | some c => ({ s with released }.setReleased i false).carveSlots c.ptr key false

def alloc (os : Os) (layout : Layout) : Option (ℕ × Slab) :=
  match popFree (slotDims layout) s.free with
  | some (p, free) => some (p, { s with free })
  | none => s.carvePage os (slotDims layout)

/-- `n` slots at once; the last of the batch is the one a plain `alloc` returns first. -/
def allocBatch (os : Os) (layout : Layout) : ℕ → Slab → Option (List ℕ × Slab)
  | 0, s => some ([], s)
  | n + 1, s => do
    let (p, s) ← s.alloc os layout
    let (batch, s) ← allocBatch os layout n s
    return (batch ++ [p], s)

/-! ### Freeing -/

/-- Slots of a batch that were never written. -/
def giveBack (key : Key) (slots : List ℕ) : Slab :=
  if slots = [] then s
  else match onClass key (.append slots) s.free with
    | some free => { s with free }
    | none => { s with free := s.free ++ [⟨key, slots, slots.length⟩] }

def freeInClass (key : Key) (p : ℕ) : Slab :=
  match onClass key (.append [p]) s.free with
  | some free => { s with free }
  | none => { s with free := s.free ++ [⟨key, [p], 0⟩] }

def dealloc (p : ℕ) : Slab :=
  match s.chunkFor p with
  | none => s
  | some c => s.freeInClass c.key p

/-! ### Walking the slots -/

/-- A walk over the slots of the resident chunks, from the last one down. -/
structure SlotCursor where
  started : Bool := false
  /-- The chunk the walk is in. -/
  chunk : ℕ := 0
  remaining : ℕ := 0
  /-- Not read any more when nothing remains. -/
  next : ℕ := 0
  slotSize : ℕ := 0
  cls : Key := (0, 0)
  /-- One more than the place of the class's free list, once a slot of this chunk was freed. -/
  freeClass : ℕ := 0
  deriving DecidableEq

def enterBelow (cur : SlotCursor) : ℕ → Option ℕ × SlotCursor
  | 0 => (none, { cur with chunk := 0 })
  | i + 1 =>
    match s.chunks[i]? with
    | none => enterBelow cur i
    | some c =>
      if s.isReleased i then enterBelow cur i
      else if c.slotCount = 0 then enterBelow cur i
      else
        let top := c.ptr + c.firstOff + (c.slotCount - 1) * c.slotSize
        (some top,
          { cur with
            chunk := i, slotSize := c.slotSize, cls := c.key, freeClass := 0, remaining := c.slotCount - 1,
            next := top - c.slotSize })

def enterNextChunk (cur : SlotCursor) : Option ℕ × SlotCursor :=
  if cur.started then s.enterBelow cur cur.chunk
  else s.enterBelow { cur with started := true } s.chunks.length

def nextSlot (cur : SlotCursor) : Option ℕ × SlotCursor :=
  if 0 < cur.remaining then
    (some cur.next, { cur with next := cur.next - cur.slotSize, remaining := cur.remaining - 1 })
  else s.enterNextChunk cur

/-- Frees the slot the walk returned last: the cursor knows its class. -/
def freeAtCursor (cur : SlotCursor) (p : ℕ) : Slab × SlotCursor :=
  if cur.freeClass = 0 then
    let s := s.freeInClass cur.cls p
    (s, { cur with freeClass := 1 + s.free.findIdx (·.key = cur.cls) })
  else ({ s with free := s.free.modify (cur.freeClass - 1) (.append [p]) }, cur)

/-! ### Releasing chunks -/

/-- Gives back the pages of chunk `i`. -/
def release (i : ℕ) (c : Chunk) : Slab :=
  let s := s.setReleased i true
  { s with released := pushReleased c.key i s.released }

/-- The starts of all chunks with their places, sorted. -/
def starts : List (ℕ × ℕ) :=
  (s.chunks.mapIdx fun i c ↦ (c.ptr, i)).mergeSort fun a b ↦ a.1 < b.1 ∨ a.1 = b.1 ∧ a.2 ≤ b.2

/-- The chunk of an address, by the sorted starts. -/
def chunkOf (starts : List (ℕ × ℕ)) (addr : ℕ) : Option ℕ :=
  match (starts.takeWhile fun e ↦ e.1 ≤ addr).getLast? with
  | none => none
  | some (start, i) => if addr < start + chunkBytes then some i else none

/-- Takes one chunk of the class from the budget. -/
def takeBudget (key : Key) : List (Key × ℕ) → Option (List (Key × ℕ))
  | [] => none
  | (k, left) :: bs =>
    if k = key then (if left = 0 then none else some ((k, left - 1) :: bs))
    else (takeBudget key bs).map ((k, left) :: ·)

/-- The slab during a scan, what is left of the budget, and the chunks released. -/
structure IdleScan where
  slab : Slab
  budget : List (Key × ℕ)
  release : List ℕ := []

/-- Releases chunk `i` if all its slots are free and its class has budget. -/
def idleStep (freeSlots : ℕ → ℕ) (scan : IdleScan) (i : ℕ) : IdleScan :=
  match scan.slab.chunks[i]? with
  | none => scan
  | some c =>
    if freeSlots i = 0 ∨ freeSlots i ≠ c.slotCount then scan
    else match takeBudget c.key scan.budget with
      | none => scan
      | some budget => ⟨scan.slab.release i c, budget, scan.release ++ [i]⟩

/-- Slots that each class did not need, in chunks, for the classes that have two or more. -/
def idleBudget : List (Key × ℕ) :=
  (s.free.map fun c ↦ (c.key, c.lowWater / (chunkBytes / c.key.1))).filter fun b ↦ 2 ≤ b.2

/-- The free slots, of classes with a budget, in chunk `i`. -/
def idleFree (budget : List (Key × ℕ)) (i : ℕ) : ℕ :=
  ((s.free.filter fun c ↦ budget.any fun b ↦ b.1 = c.key).flatMap FreeClass.slots).countP fun p ↦
    chunkOf s.starts p = some i

/-- Drops the slots that `gone` holds of. -/
def FreeClass.retain (gone : ℕ → Bool) (c : FreeClass) : List ℕ := c.slots.filter fun p ↦ !gone p

/-- Releases chunks that are all free, within the budget, and drops their slots. -/
def releaseIdle (budget : List (Key × ℕ)) : ℕ × Slab :=
  let scan := (List.range s.chunks.length).foldl (idleStep (s.idleFree budget)) { slab := s, budget }
  let gone := fun p ↦ (chunkOf s.starts p).any (· ∈ scan.release)
  let s' := scan.slab
  if scan.release = [] then (0, s')
  else
    (scan.release.length * chunkBytes,
      { s' with free := s'.free.map fun c ↦
        { c with slots := c.retain gone, lowWater := (c.retain gone).length } })

/-- Gives back the pages of chunks that were not needed in the last cycles. -/
def releaseIdleChunks (os : Os) : ℕ × Slab :=
  let s := { s with cyclesSinceScan := s.cyclesSinceScan + 1 }
  if s.cyclesSinceScan < releaseWindow then (0, s)
  else
    let budget := s.idleBudget
    let s :=
      { s with cyclesSinceScan := 0, free := s.free.map fun c ↦ { c with lowWater := c.slots.length } }
    if !os.unix then (0, s)
    else if budget = [] then (0, s)
    else s.releaseIdle budget

/-- The sorted starts of the chunks flagged. -/
def chunkStarts (flags : List Bool) : List ℕ :=
  ((flags.zipIdx.filter Prod.fst).filterMap fun f ↦ s.chunks[f.2]?.map Chunk.ptr).mergeSort (· ≤ ·)

/-- Whether an address lies in a chunk with one of the sorted starts. -/
def inChunks (starts : List ℕ) (addr : ℕ) : Bool :=
  match (starts.takeWhile (· ≤ addr)).getLast? with
  | none => false
  | some start => addr < start + chunkBytes

/-- Takes the free slots of the flagged chunks off the free lists. -/
def takeFreeIn (flags : List Bool) : List ℕ × Slab :=
  let starts := s.chunkStarts flags
  if starts = [] then ([], s)
  else
    (s.free.flatMap fun c ↦ c.slots.filter (inChunks starts),
      { s with free := s.free.map fun c ↦
        { c with
          slots := c.retain (inChunks starts), lowWater := min c.lowWater (c.retain (inChunks starts)).length } })

/-- Releases chunk `i` if it is flagged and not released yet. -/
def releaseStep (st : ℕ × Slab) (flag : Bool × ℕ) : ℕ × Slab :=
  if flag.1 then
    match st.2.chunks[flag.2]? with
    | none => st
    | some c =>
      if st.2.isReleased flag.2 then st else (st.1 + chunkBytes, st.2.release flag.2 c)
  else st

/-- Gives back the pages of the flagged chunks, whose slots are all free. -/
def releaseChunks (os : Os) (flags : List Bool) : ℕ × Slab :=
  if !os.unix ∨ true ∉ flags then (0, s)
  else
    let (bytes, s') := flags.zipIdx.foldl releaseStep (0, s)
    let starts := s'.chunkStarts flags
    (bytes,
      { s' with free := s'.free.map fun c ↦
        { c with
          slots := c.retain (inChunks starts), lowWater := min c.lowWater (c.retain (inChunks starts)).length } })

end Slab

/-! ### The slab and its clients -/

namespace Slab

/-- A walk and the slot it returned last. -/
structure Walk where
  cursor : SlotCursor := {}
  at? : Option ℕ := none
  deriving DecidableEq

/-- The slab, the slots its clients hold, each as often as they hold it, and the walks under way. -/
structure State where
  slab : Slab := {}
  out : List ℕ := []
  walks : ℕ → Walk := fun _ ↦ {}

/-- All slots of chunk `i` are on a free list. -/
def AllFree (s : Slab) (i : ℕ) : Prop :=
  ∀ c, s.chunks[i]? = some c → ∀ p ∈ c.slots, ∃ cls ∈ s.free, p ∈ cls.slots

/-- What a client may do: a slot is freed by who holds it, a batch is given back under the class it was taken
with, the walk frees the slot it stands at, and a chunk is released when all its slots are free. Slots taken by
`takeFreeIn` are held by the caller, who frees them one by one. -/
inductive Step (os : Os) : State → State → Prop
  | alloc {st p slab} (layout) (h : st.slab.alloc os layout = some (p, slab)) :
    Step os st { st with slab, out := p :: st.out }
  | allocBatch {st batch slab} (layout n) (h : st.slab.allocBatch os layout n = some (batch, slab)) :
    Step os st { st with slab, out := batch ++ st.out }
  | giveBack {st} (key) {batch : List ℕ} (hout : batch.Subperm st.out)
    (hkey : ∀ p ∈ batch, (st.slab.chunkFor p).map Chunk.key = some key) :
    Step os st { st with slab := st.slab.giveBack key batch, out := st.out.diff batch }
  | free {st p} (hout : p ∈ st.out) : Step os st { st with slab := st.slab.dealloc p, out := st.out.erase p }
  | startWalk {st} (w) : Step os st { st with walks := Function.update st.walks w {} }
  | nextSlot {st} (w) : Step os st
    { st with
      walks := Function.update st.walks w
        ⟨(st.slab.nextSlot (st.walks w).cursor).2, (st.slab.nextSlot (st.walks w).cursor).1⟩ }
  | freeAtCursor {st p} (w) (hat : (st.walks w).at? = some p) (hout : p ∈ st.out) : Step os st
    { slab := (st.slab.freeAtCursor (st.walks w).cursor p).1
      out := st.out.erase p
      walks := Function.update st.walks w
        { st.walks w with cursor := (st.slab.freeAtCursor (st.walks w).cursor p).2 } }
  | takeFreeIn {st} (flags) : Step os st
    { st with slab := (st.slab.takeFreeIn flags).2, out := (st.slab.takeFreeIn flags).1 ++ st.out }
  | releaseIdleChunks {st} : Step os st { st with slab := (st.slab.releaseIdleChunks os).2 }
  | releaseChunks {st} (flags)
    (hfree : ∀ i, flags[i]? = some true → st.slab.isReleased i = false → st.slab.AllFree i) :
    Step os st { st with slab := (st.slab.releaseChunks os flags).2 }

/-- The states of all runs from an empty slab. -/
def Reachable (os : Os) : State → Prop := Relation.ReflTransGen (Step os) {}

/-- How often an address is on a free list. -/
def freeCount (s : Slab) (p : ℕ) : ℕ := (s.free.flatMap FreeClass.slots).count p

/-- Every slot of an unreleased chunk is held once or on one free list once, that of its class; no slot of a
released chunk is held or free; and the released chunks are those on the released lists, once each. -/
structure Exact (st : State) : Prop where
  once : ∀ (i : ℕ) (c : Chunk), st.slab.chunks[i]? = some c → st.slab.isReleased i = false → ∀ p ∈ c.slots,
    st.out.count p + st.slab.freeCount p = 1
  ownClass : ∀ (i : ℕ) (c : Chunk), st.slab.chunks[i]? = some c → ∀ p ∈ c.slots, ∀ cls ∈ st.slab.free, p ∈ cls.slots →
    cls.key = c.key
  gone : ∀ (i : ℕ) (c : Chunk), st.slab.chunks[i]? = some c → st.slab.isReleased i = true → ∀ p ∈ c.slots,
    p ∉ st.out ∧ st.slab.freeCount p = 0
  listed : ∀ i, (st.slab.released.flatMap Prod.snd).count i = if st.slab.isReleased i then 1 else 0

end Slab

end CoilLang
