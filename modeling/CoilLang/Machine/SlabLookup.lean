import CoilLang.Lib.Reciprocal
import CoilLang.Lib.Spaced
import Mathlib.Logic.Function.Basic

/-!
# Finding the slot of an address

A probe of an address asks two questions. Whether an offset from the first slot of a chunk starts a slot is
answered by a multiplication with the reciprocal of the slot size, kept with the chunk (`isSlotOffset`). Which
chunk holds the address is answered by the **chunk directory**: for each bucket of 64 KiB it keeps the indices
of the chunks that reach into it, at most two, packed into one word. The chunks themselves are in a table of
segments, each twice as long as the one before.

The directory has two levels, each indexed by 16 bits of the bucket number, so it knows addresses below `2 ^ 48`
only; `split` turns the others away.
-/

namespace CoilLang.SlabLookup

/-- Bytes of a chunk. -/
def chunkBytes : UInt64 := 0x10000

theorem toNat_shiftRight_16 (x : UInt64) : (x >>> 16).toNat = x.toNat / 2 ^ 16 := by
  rw [UInt64.toNat_shiftRight, show (16 : UInt64).toNat % 64 = 16 from rfl, Nat.shiftRight_eq_div_pow]

theorem toNat_chunkBytes : chunkBytes.toNat = 2 ^ 16 := rfl

theorem toNat_bucketBytes : (0x10000 : UInt64).toNat = 2 ^ 16 := rfl

/-! ### Slot offsets -/

structure PageMeta where
  slotSize : UInt32
  slotAlign : UInt32
  firstOff : UInt32
  /-- `2 ^ 64 / slotSize` rounded up, wrapping. -/
  slotMagic : UInt64
  deriving DecidableEq

namespace PageMeta

def new (slotSize slotAlign firstOff : UInt32) : PageMeta :=
  ⟨slotSize, slotAlign, firstOff, 0xffffffffffffffff / slotSize.toUInt64 + 1⟩

/-- Whether `rel`, an offset from the first slot, starts a slot. -/
def isSlotOffset (m : PageMeta) (rel : UInt32) : Bool := rel.toUInt64 * m.slotMagic ≤ m.slotMagic - 1

end PageMeta

structure Chunk where
  ptr : UInt64
  info : PageMeta
  deriving DecidableEq

def Chunk.contains (c : Chunk) (addr : UInt64) : Bool := c.ptr ≤ addr && addr < c.ptr + chunkBytes

/-! ### The directory -/

/-- Entries of each level. -/
def dirLen : ℕ := 2 ^ 16

abbrev DirLeaf := ℕ → UInt64

/-- Both levels are allocated when they are first written to, with zeros. -/
structure ChunkDir where
  root : Option (ℕ → Option DirLeaf)

namespace ChunkDir

def empty : ChunkDir := ⟨none⟩

/-- The places in the two levels. -/
def split (addr : UInt64) : Option (ℕ × ℕ) :=
  let key := addr >>> 16
  let hi := (key >>> 16).toNat
  if hi < dirLen then some (hi, key.toNat &&& (dirLen - 1)) else none

/-- Adds an index to an entry: to the low half, or to the high half if that is taken. -/
def pack (cur tag : UInt64) : UInt64 :=
  if cur &&& 0xffffffff = 0 then cur ||| tag else cur ||| (tag <<< 32)

/-- Goes over the buckets from `keyAddr` up to `stop`. -/
def insertLoop (tag stop : UInt64) : ℕ → (ℕ → Option DirLeaf) → UInt64 → ℕ → Option DirLeaf
  | 0, root, _ => root
  | fuel + 1, root, keyAddr =>
    if keyAddr < stop then
      match split keyAddr with
      | none => root
      | some (hi, lo) =>
        let leaf := (root hi).getD fun _ ↦ 0
        insertLoop tag stop fuel
          (Function.update root hi (some (Function.update leaf lo (pack (leaf lo) tag)))) (keyAddr + 0x10000)
    else root

/-- A chunk reaches into two buckets at most, so the loop ends after two rounds (`insertLoop_bucketStart`). -/
def insert (d : ChunkDir) (start : UInt64) (index : ℕ) : ChunkDir :=
  ⟨some (insertLoop (UInt64.ofNat index + 1) (start + chunkBytes) 2 (d.root.getD fun _ ↦ none)
    (start &&& ~~~0xffff))⟩

/-- What `usize::MAX` stands for: no index. -/
def noIndex : ℕ := 2 ^ 64 - 1

def indexOf (t : UInt64) : ℕ := if t = 0 then noIndex else t.toNat - 1

/-- The indices of the chunks that may contain `addr`. -/
def candidates (d : ChunkDir) (addr : UInt64) : List ℕ :=
  match d.root, split addr with
  | some root, some (hi, lo) =>
    match root hi with
    | some leaf => [indexOf (leaf lo &&& 0xffffffff), indexOf (leaf lo >>> 32)]
    | none => [noIndex, noIndex]
  | _, _ => [noIndex, noIndex]

end ChunkDir

/-! ### The table -/

def segs : ℕ := 32

/-- Entries of the first segment. -/
def seg0 : ℕ := 64

/-- The segment of an entry, and its place there. -/
def segOf (i : ℕ) : ℕ × ℕ :=
  let k := (i / seg0 + 1).log2
  (k, i - seg0 * (2 ^ k - 1))

structure ChunkTable where
  /-- A segment that is allocated; its entries, those written to. -/
  segs : ℕ → Option (List (Option Chunk))
  len : ℕ
  dir : ChunkDir
  /-- All chunks lie in the range from `lo` to `hi`. -/
  lo : UInt64
  hi : UInt64

namespace ChunkTable

def new : ChunkTable := ⟨fun _ ↦ none, 0, .empty, 0xffffffffffffffff, 0⟩

def mayContain (t : ChunkTable) (addr : UInt64) : Bool := t.lo ≤ addr && addr < t.hi

def get (t : ChunkTable) (i : ℕ) : Option Chunk :=
  if t.len ≤ i then none else ((t.segs (segOf i).1).bind (·[(segOf i).2]?)).join

/-- Adds a chunk; a full table panics. -/
def push (t : ChunkTable) (c : Chunk) : Option ChunkTable :=
  let r := segOf t.len
  if r.1 < SlabLookup.segs then
    let seg := (t.segs r.1).getD (List.replicate (seg0 * 2 ^ r.1) none)
    some {
      segs := Function.update t.segs r.1 (some (seg.set r.2 (some c)))
      len := t.len + 1
      dir := t.dir.insert c.ptr t.len
      lo := min t.lo c.ptr
      hi := max t.hi (c.ptr + chunkBytes) }
  else none

/-- The index of the chunk that contains `addr`. -/
def position (t : ChunkTable) (addr : UInt64) : Option ℕ :=
  (t.dir.candidates addr).find? fun i ↦ (t.get i).any (·.contains addr)

/-- The table after the chunks were added in their order. -/
def ofChunks (cs : List Chunk) : Option ChunkTable := cs.foldlM push new

end ChunkTable

end CoilLang.SlabLookup
