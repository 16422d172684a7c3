import CoilLang.Common.IntArith
import Mathlib.Data.Finset.Card
import Mathlib.Data.List.Basic
import Mathlib.Data.Nat.Log

/-!
# The key index

An insertion-ordered hash index that maps keys to dense slot numbers. The index owns no keys: the
owner keeps its entries in a list of its own indexed by slot, and beside them the index keeps

* `table`: `cap` cells (a power of two) of linear-probing positions, `0` empty, `-1` a removed entry's
  place, `slot + 1` otherwise, then one more cell that **counts the occupied ones**, live and removed;
* `hashes`: each slot's key hash, as the owner computed it;
* `live`: `1` while the slot holds an entry, `0` once it is removed.

Slots never move on their own: only `compact` renumbers them, after the owner has compacted its own
lists with `retain`. The arguments of the natives are arrays on the heap; here they are the lists these
hold, all different. A native whose arguments are malformed answers `-1` or `false` and changes nothing.

`place` loops until it finds a free cell. It gets a number of rounds here, and `none` stands for
a loop that has not ended by then.
-/

namespace CoilLang.Machine

/-- The cell of a table, `EMPTY` past its end. -/
def cell (table : List ℤ) (i : ℕ) : ℤ := table.getD i 0

def empty : ℤ := 0

def removed : ℤ := -1

def minCap : ℕ := 8

/-- The probe start for hash `h`: its high bits folded into the low ones the mask keeps. -/
def home (h : Word) (mask : ℕ) : ℕ :=
  let h := h ^^^ h.sshiftRight 32
  let h := h ^^^ h.sshiftRight 16
  h.toNat &&& mask

def capLoop (n cap : ℕ) : ℕ :=
  if h : 0 < cap ∧ cap < (n + 1) * 2 then capLoop n (cap * 2) else cap
termination_by (n + 1) * 2 - cap

/-- The smallest table size (a power of two, at least `minCap`) that keeps `n` entries at most half
full. -/
def capFor (n : ℕ) : ℕ := capLoop n minCap

/-- A table's size, when it is well formed. -/
def cells (table : List ℤ) : Option ℕ :=
  match table.length with
  | 0 => none
  | cap + 1 => if cap = 2 ^ cap.log2 then some cap else none

/-- An empty table with room for `n` entries before it grows. -/
def table (n : ℤ) : List ℤ := List.replicate (capFor (min (max n 0) (2 ^ 28)).toNat + 1) empty

/-! ### Probing -/

/-- The rounds of `probe`: whether slot `after` was met is `past`. -/
def probeLoop (table : List ℤ) (hashes : List Word) (mask : ℕ) (h : Word) (after : ℤ) :
    ℕ → ℕ → Bool → ℤ
  | 0, _, _ => -1
  | n + 1, i, past =>
    let e := cell table i
    if e = empty then -1
    else if 0 < e then
      if past then
        if hashes[(e - 1).toNat]? = some h then e - 1
        else probeLoop table hashes mask h after n ((i + 1) &&& mask) past
      else probeLoop table hashes mask h after n ((i + 1) &&& mask) (e - 1 = after)
    else probeLoop table hashes mask h after n ((i + 1) &&& mask) past

/-- The next live slot whose hash is `h`, in probe order after slot `after` (`-1` starts at the
first), or `-1` when there is none. -/
def probe (table : List ℤ) (hashes : List Word) (cap : ℕ) (h : Word) (after : ℤ) : ℤ :=
  probeLoop table hashes (cap - 1) h after cap (home h (cap - 1)) (after < 0)

/-- The first empty or removed cell from `i` on gets slot `s`; whether it was an empty one. -/
def placeLoop (table : List ℤ) (mask s : ℕ) : ℕ → ℕ → Option (List ℤ × Bool)
  | 0, _ => none
  | n + 1, i =>
    let e := cell table i
    if e = empty ∨ e = removed then some (table.set i (s + 1), e = empty)
    else placeLoop table mask s n ((i + 1) &&& mask)

/-- Put slot `s` (hash `h`) in the first empty or removed cell of its probe sequence. -/
def place (fuel : ℕ) (table : List ℤ) (cap : ℕ) (h : Word) (s : ℕ) : Option (List ℤ × Bool) :=
  placeLoop table (cap - 1) s fuel (home h (cap - 1))

/-- Place the live slots from `s` on. -/
def rebuildLoop (fuel cap : ℕ) : List (Word × Word) → ℕ → List ℤ → Option (List ℤ)
  | [], _, table => some table
  | (h, l) :: rest, s, table =>
    if l ≠ 0 then (place fuel table cap h s).bind fun r ↦ rebuildLoop fuel cap rest (s + 1) r.1
    else rebuildLoop fuel cap rest (s + 1) table

def liveCount (live : List Word) : ℕ := live.countP (· ≠ 0)

/-- The table over the live slots at the size that keeps `extra` more entries under half full. -/
def rebuild (fuel : ℕ) (hashes live : List Word) (extra : ℕ) : Option (List ℤ) :=
  let n := liveCount live
  let cap := capFor (n + extra)
  (rebuildLoop fuel cap (hashes.zip live) 0 (List.replicate (cap + 1) empty)).map
    fun table ↦ table.set cap n

/-- The rounds of `remove` for slot `s`. -/
def removeLoop (table : List ℤ) (mask s : ℕ) : ℕ → ℕ → Option (List ℤ)
  | 0, _ => none
  | n + 1, i =>
    let e := cell table i
    if e = empty then none
    else if e = s + 1 then some (table.set i removed)
    else removeLoop table mask s n ((i + 1) &&& mask)

/-! ### The operations -/

/-- The three lists of an index. -/
structure KeyIndex where
  table : List ℤ
  hashes : List Word
  live : List Word
  deriving DecidableEq, Repr

namespace KeyIndex

/-- A new slot for a key with hash `h`, growing the table when it would pass half full. -/
def insert (fuel : ℕ) (k : KeyIndex) (h : Word) : Option (KeyIndex × ℤ) :=
  match cells k.table with
  | none => some (k, -1)
  | some cap =>
    if k.hashes.length ≠ k.live.length then some (k, -1)
    else
      let s := k.hashes.length
      let occupied := (cell k.table cap).toNat
      let table := if cap < (occupied + 1) * 2 then rebuild fuel k.hashes k.live 1 else some k.table
      table.bind fun table ↦
        let cap := table.length - 1
        (place fuel table cap h s).map fun r ↦
          (⟨if r.2 then r.1.set cap (cell r.1 cap + 1) else r.1, k.hashes ++ [h], k.live ++ [1]⟩, s)

/-- Mark live slot `slot` removed; whether it was live. -/
def remove (k : KeyIndex) (slot : ℤ) : KeyIndex × Bool :=
  match cells k.table with
  | none => (k, false)
  | some cap =>
    if slot < 0 then (k, false)
    else
      match k.live[slot.toNat]?, k.hashes[slot.toNat]? with
      | some l, some h =>
        if l = 0 then (k, false)
        else
          match removeLoop k.table (cap - 1) slot.toNat cap (home h (cap - 1)) with
          | some table => (⟨table, k.hashes, k.live.set slot.toNat 0⟩, true)
          | none => (k, false)
      | _, _ => (k, false)

/-- The elements of `v` whose slot is live. -/
def keepLive {α : Type} (v : List α) (live : List Word) : List α :=
  ((v.zip live).filter fun p ↦ p.2 ≠ 0).map Prod.fst

/-- Drop the elements of `v` whose slot is not live; the new length, or `-1` when `v` is not as long
as `live`. -/
def retain {α : Type} (v : List α) (live : List Word) : List α × ℤ :=
  if v.length ≠ live.length then (v, -1)
  else (keepLive v live, (keepLive v live).length)

/-- Drop the removed slots, renumbering the rest in order, and rebuild the table; the live count. -/
def compact (fuel : ℕ) (k : KeyIndex) : Option (KeyIndex × ℤ) :=
  if cells k.table = none ∨ k.hashes.length ≠ k.live.length then some (k, -1)
  else
    let hashes := keepLive k.hashes k.live
    let live := List.replicate hashes.length 1
    (rebuild fuel hashes live 0).map fun table ↦ (⟨table, hashes, live⟩, hashes.length)

/-- No entries; the table keeps its size. -/
def clear (k : KeyIndex) : KeyIndex :=
  ⟨if cells k.table = none then k.table else List.replicate k.table.length empty, [], []⟩

end KeyIndex

/-! ### Runs of an index and its entry list -/

/-- An index with the owner's list of entries. -/
structure Keyed (α : Type) where
  index : KeyIndex
  entries : List α

/-- The calls of an owner: an inserted entry is pushed on its list, and the list is compacted with
`retain` before the index is. With a new table the owner starts over. -/
inductive Call (α : Type)
  | table (n : ℤ)
  | insert (h : Word) (x : α)
  | remove (slot : ℤ)
  | retain
  | compact
  | clear

namespace Keyed

variable {α : Type}

/-- An empty index with room for `n` entries. -/
def new (n : ℤ) : Keyed α := ⟨⟨Machine.table n, [], []⟩, []⟩

def step (fuel : ℕ) (k : Keyed α) : Call α → Option (Keyed α)
  | .table n => some (new n)
  | .insert h x => (k.index.insert fuel h).map fun r ↦ ⟨r.1, k.entries ++ [x]⟩
  | .remove slot => some ⟨(k.index.remove slot).1, k.entries⟩
  | .retain => some ⟨k.index, (KeyIndex.retain k.entries k.index.live).1⟩
  | .compact => (k.index.compact fuel).map fun r ↦ ⟨r.1, k.entries⟩
  | .clear => some ⟨k.index.clear, []⟩

/-- A run of calls from an empty index with room for `n` entries. -/
def run (fuel : ℕ) (n : ℤ) (calls : List (Call α)) : Option (Keyed α) :=
  calls.foldlM (step fuel) (new n)

end Keyed

end CoilLang.Machine
