import Mathlib.Algebra.Group.Nat.Defs
import Mathlib.Data.List.AList

/-!
# Heap snapshots

`capture` copies the objects that a list of roots reaches into a table: a word that is a reference
becomes the index of its object, everything else is kept bit for bit. The table grows while it is
walked, so **an object is numbered when it is first met and encoded when its turn comes**. `restore`
allocates all objects of the table before it writes a word, so that a reference can point anywhere.

Enums without a payload and the empty tuple are shared singletons of a heap: a reference to one is
kept by what it is, not by its index, and comes back as the restoring heap's own.

A word is a number here, with an address in it when bit 0 (which marks a niche `Err`) is cleared.
The allocator is not modelled: `addr n` is the address of the `n`-th allocation.
-/

namespace CoilLang.Machine.Snapshot

/-! ### Objects -/

/-- What a word may hold (`WORD_*`). -/
inductive WordKind
  | unknown
  | scalar
  | pointer
  | byte
  deriving DecidableEq, Repr

/-- The kind of a two-bit code. -/
def WordKind.ofCode : ℕ → WordKind
  | 0 => .unknown
  | 1 => .scalar
  | 2 => .pointer
  | _ => .byte

/-- Kind of word `i` in a packed byte; later words are unknown. -/
def packedWordKind (kinds : UInt8) (i : ℕ) : WordKind :=
  if i < 4 then WordKind.ofCode (kinds.toNat >>> (2 * i) &&& 3) else .unknown

/-- The payload of a box: a word or an object, by its address. -/
inductive Member
  | value (v : ℕ)
  | object (a : ℕ)
  deriving DecidableEq, Repr

/-- The objects that have no snapshot form. -/
inductive Unsupported
  | fn | coroutine | stream | thread | sender | receiver | mutex | rwLock | library | root | weak
  deriving DecidableEq, Repr

/-- The objects of a heap. An array that is not packed keeps its element kind only if that is
`pointer`; an instance without slots is an untyped one. -/
inductive Obj
  | string (s : String)
  | bytes (b : List UInt8)
  | array (pointer : Bool) (words : List ℕ)
  | tuple (kinds : UInt8) (words : List ℕ)
  | enum (tag typeId : ℕ) (kinds : UInt8) (words : List ℕ)
  | instance (typeId : ℕ) (slots : Option (List ℕ))
  | boxed (tag : ℕ) (payload : Member)
  | other (what : Unsupported)
  deriving DecidableEq, Repr

/-- The objects of which a heap keeps a shared one. -/
inductive Single
  | unitEnum (tag : ℕ)
  | emptyTuple
  deriving DecidableEq, Repr

def Obj.single? : Obj → Option Single
  | .enum tag _ _ [] => some (.unitEnum tag)
  | .tuple _ [] => some .emptyTuple
  | _ => none

/-- The shared object. -/
def Single.obj : Single → Obj
  | .unitEnum tag => .enum tag 0 0 []
  | .emptyTuple => .tuple 0 []

/-- Why an object cannot be part of a snapshot, if it can't. -/
def unsupported : Obj → Option String
  | .other .fn => some "a function value"
  | .other .coroutine => some "a coroutine"
  | .other .stream => some "a stream"
  | .other .thread => some "a thread handle"
  | .other .sender => some "a channel sender"
  | .other .receiver => some "a channel receiver"
  | .other .mutex => some "a mutex"
  | .other .rwLock => some "a read-write lock"
  | .other .library => some "a native library handle"
  | .other .root => some "a GC root handle"
  | .other .weak => some "a weak reference"
  | _ => none

/-- A heap: its objects by address, the shared objects, and how many allocations it has made. -/
structure Heap where
  objs : AList fun _ : ℕ ↦ Obj
  /-- The word kinds of a class's fields. -/
  classKinds : ℕ → List WordKind
  unitEnums : AList fun _ : ℕ ↦ ℕ
  emptyTuple : Option ℕ
  next : ℕ

namespace Heap

def find (h : Heap) (a : ℕ) : Option Obj := h.objs.lookup a

/-- Kind of field `i` of class `typeId`. -/
def fieldKind (h : Heap) (typeId i : ℕ) : WordKind := ((h.classKinds typeId)[i]?).getD .unknown

end Heap

/-- The address in a word, bit 0 cleared. -/
def heapAddr (v : ℕ) : ℕ := v - v % 2

def elemKind (pointer : Bool) : WordKind := if pointer then .pointer else .unknown

/-! ### The snapshot -/

/-- One word of a snapshot. -/
inductive SnapWord
  | raw (v : ℕ)
  | ref (index : ℕ) (errBit : Bool)
  | unitEnum (tag : ℕ) (errBit : Bool)
  | emptyTuple (errBit : Bool)
  deriving DecidableEq, Repr

inductive SnapObject
  | string (s : String)
  | bytes (b : List UInt8)
  | array (pointer : Bool) (words : List SnapWord)
  | tuple (kinds : UInt8) (words : List SnapWord)
  | enum (tag typeId : ℕ) (kinds : UInt8) (words : List SnapWord)
  | instance (typeId : ℕ) (words : List SnapWord)
  | boxed (tag : ℕ) (word : SnapWord)
  deriving DecidableEq, Repr

/-- Objects plus the static slots that hold the roots. -/
structure HeapSnapshot where
  objects : List SnapObject
  statics : List (ℕ × SnapWord)
  deriving DecidableEq, Repr

/-- One step from a root to a value. -/
inductive SnapStep
  | element (i : ℕ)
  | tupleElement (i : ℕ)
  | payload (i : ℕ)
  | field (typeId index : ℕ)
  | boxed
  deriving DecidableEq, Repr

/-- A value reachable from a root that has no snapshot form. -/
structure SnapshotError where
  root : ℕ
  path : List SnapStep
  what : String
  deriving DecidableEq, Repr

/-- A root to capture: its static slot, its value, and the slot's word kind. -/
structure SnapRoot where
  slot : ℕ
  value : ℕ
  kind : WordKind
  deriving DecidableEq, Repr

/-! ### Capturing -/

/-- Where an object was met first. -/
inductive Parent
  | root (i : ℕ)
  | object (i : ℕ) (step : SnapStep)

/-- The objects in table order, by address, with their parents. -/
abbrev Found := List (ℕ × Parent)

/-- The number of an object in the table, in 32 bits. -/
def index (found : Found) (a : ℕ) : Option ℕ := (found.findIdx? (·.1 = a)).map (· % 2 ^ 32)

/-- Go up to the root; an object's parent stands before it in the table. -/
def errorFrom (found : Found) (what : String) : ℕ → Parent → List SnapStep → SnapshotError
  | _, .root i, path => ⟨i, path, what⟩
  | 0, .object _ _, path => ⟨0, path, what⟩
  | n + 1, .object i step, path =>
    match found[i]? with
    | some (_, parent) => errorFrom found what n parent (step :: path)
    | none => ⟨0, path, what⟩

def error (found : Found) (parent : Parent) (what : String) : SnapshotError :=
  errorFrom found what (found.length + 1) parent []

/-- The snapshot form of a reference to object `o` at `a`, which gets the next number if it is new. -/
def objectWord (found : Found) (a : ℕ) (o : Obj) (errBit : Bool) (parent : Parent) :
    Except SnapshotError (SnapWord × Found) :=
  match o.single? with
  | some (.unitEnum tag) => .ok (.unitEnum tag errBit, found)
  | some .emptyTuple => .ok (.emptyTuple errBit, found)
  | none =>
    match unsupported o with
    | some what => .error (error found parent what)
    | none =>
      match index found a with
      | some i => .ok (.ref i errBit, found)
      | none => .ok (.ref (found.length % 2 ^ 32) errBit, found ++ [(a, parent)])

/-- The snapshot form of word `v` of kind `kind`. -/
def word (h : Heap) (found : Found) (v : ℕ) (kind : WordKind) (parent : Parent) :
    Except SnapshotError (SnapWord × Found) :=
  if kind = .scalar ∨ kind = .byte then .ok (.raw v, found)
  else if heapAddr v = 0 then .ok (.raw v, found)
  else
    match h.find (heapAddr v) with
    | none => .ok (.raw v, found)
    | some o => objectWord found (heapAddr v) o (v % 2 = 1) parent

/-- The words from word `i` on. -/
def words (h : Heap) (kindAt : ℕ → WordKind) (parent : ℕ → Parent) :
    ℕ → List ℕ → Found → Except SnapshotError (List SnapWord × Found)
  | _, [], found => .ok ([], found)
  | i, v :: vs, found =>
    match word h found v (kindAt i) (parent i) with
    | .error e => .error e
    | .ok (w, found) =>
      match words h kindAt parent (i + 1) vs found with
      | .error e => .error e
      | .ok (ws, found) => .ok (w :: ws, found)

/-- The payload of a box. A member object is in the heap. -/
def memberWord (h : Heap) (found : Found) (m : Member) (parent : Parent) :
    Except SnapshotError (SnapWord × Found) :=
  match m with
  | .value v => word h found v .unknown parent
  | .object a =>
    match h.find a with
    | some o => objectWord found a o false parent
    | none => .ok (.raw a, found)

/-- Snapshot object `i` of the table, which is `o`. Unsupported objects are refused before they get into
the table. -/
def object (h : Heap) (found : Found) (i : ℕ) (o : Obj) :
    Except SnapshotError (SnapObject × Found) :=
  match o with
  | .string s => .ok (.string s, found)
  | .bytes b => .ok (.bytes b, found)
  | .array pointer ws =>
    (words h (fun _ ↦ elemKind pointer) (fun j ↦ .object i (.element j)) 0 ws found).map
      fun r ↦ (.array pointer r.1, r.2)
  | .tuple kinds ws =>
    (words h (packedWordKind kinds) (fun j ↦ .object i (.tupleElement j)) 0 ws found).map
      fun r ↦ (.tuple kinds r.1, r.2)
  | .enum tag typeId kinds ws =>
    (words h (packedWordKind kinds) (fun j ↦ .object i (.payload j)) 0 ws found).map
      fun r ↦ (.enum tag typeId kinds r.1, r.2)
  | .instance _ none =>
    .error (error found ((found[i]?.map Prod.snd).getD (.root 0)) "an untyped instance")
  | .instance typeId (some ws) =>
    (words h (h.fieldKind typeId) (fun j ↦ .object i (.field typeId j)) 0 ws found).map
      fun r ↦ (.instance typeId r.1, r.2)
  | .boxed tag m =>
    (memberWord h found m (.object i .boxed)).map fun r ↦ (.boxed tag r.1, r.2)
  | .other what => .error (error found (.root 0) ((unsupported (.other what)).getD ""))

/-- Walk the table from `next` on, while it grows. -/
def captureLoop (h : Heap) :
    ℕ → Found → List SnapObject → Option (Except SnapshotError (Found × List SnapObject))
  | 0, _, _ => none
  | n + 1, found, objects =>
    match found[objects.length]? with
    | none => some (.ok (found, objects))
    | some (a, _) =>
      match h.find a with
      | none => none
      | some o =>
        match object h found objects.length o with
        | .error e => some (.error e)
        | .ok (s, found) => captureLoop h n found (objects ++ [s])

/-- The kinds of the roots' slots. -/
def rootKind (roots : List SnapRoot) (i : ℕ) : WordKind :=
  ((roots[i]?).map SnapRoot.kind).getD .unknown

/-- Copy everything `roots` reach into a snapshot. -/
def captureSnapshot (fuel : ℕ) (h : Heap) (roots : List SnapRoot) :
    Option (Except SnapshotError HeapSnapshot) :=
  match words h (rootKind roots) .root 0 (roots.map SnapRoot.value) [] with
  | .error e => some (.error e)
  | .ok (ws, found) =>
    (captureLoop h fuel found []).map fun r ↦
      r.map fun t ↦ ⟨t.2, (roots.map SnapRoot.slot).zip ws⟩

/-! ### Restoring -/

section Restore
variable (addr : ℕ → ℕ)

def alloc (h : Heap) (o : Obj) : ℕ × Heap :=
  (addr h.next, { h with objs := h.objs.insert (addr h.next) o, next := h.next + 1 })

/-- A shared arity-0 enum for `tag`, allocated once per tag. -/
def immortalUnitEnum (h : Heap) (tag : ℕ) : ℕ × Heap :=
  match h.unitEnums.lookup tag with
  | some a => (a, h)
  | none =>
    let (a, h) := alloc addr h (Single.unitEnum tag).obj
    (a, { h with unitEnums := h.unitEnums.insert tag a })

/-- The shared empty tuple. -/
def immortalEmptyTuple (h : Heap) : ℕ × Heap :=
  match h.emptyTuple with
  | some a => (a, h)
  | none =>
    let (a, h) := alloc addr h Single.emptyTuple.obj
    (a, { h with emptyTuple := some a })

/-- The word of a snapshot word, the objects of the table at `objects`. -/
def snapshotValue (objects : List ℕ) (h : Heap) : SnapWord → ℕ × Heap
  | .raw v => (v, h)
  | .ref i errBit => (objects.getD i 0 ||| errBit.toNat, h)
  | .unitEnum tag errBit =>
    let (a, h) := immortalUnitEnum addr h tag
    (a ||| errBit.toNat, h)
  | .emptyTuple errBit =>
    let (a, h) := immortalEmptyTuple addr h
    (a ||| errBit.toNat, h)

def snapshotValues (objects : List ℕ) (h : Heap) : List SnapWord → List ℕ × Heap
  | [] => ([], h)
  | w :: ws =>
    let (v, h) := snapshotValue addr objects h w
    let (vs, h) := snapshotValues objects h ws
    (v :: vs, h)

/-- The words of a snapshot object. -/
def SnapObject.words : SnapObject → List SnapWord
  | .string _ => []
  | .bytes _ => []
  | .array _ ws => ws
  | .tuple _ ws => ws
  | .enum _ _ _ ws => ws
  | .instance _ ws => ws
  | .boxed _ w => [w]

/-- A box's payload: a plain reference is an object. -/
def memberOf (w : SnapWord) (v : ℕ) : Member :=
  match w with
  | .ref _ false => .object v
  | _ => .value v

/-- The object with these words. -/
def SnapObject.build (s : SnapObject) (vs : List ℕ) : Obj :=
  match s with
  | .string s => .string s
  | .bytes b => .bytes b
  | .array pointer _ => .array pointer vs
  | .tuple kinds _ => .tuple kinds vs
  | .enum tag typeId kinds _ => .enum tag typeId kinds vs
  | .instance typeId _ => .instance typeId (some vs)
  | .boxed tag w => .boxed tag (memberOf w (vs.headD 0))

/-- An object of the right kind and size with zero words. -/
def allocSnapshotShell (h : Heap) (s : SnapObject) : ℕ × Heap :=
  match s with
  | .boxed tag _ => alloc addr h (.boxed tag (.value 0))
  | _ => alloc addr h (s.build (List.replicate s.words.length 0))

def allocShells (h : Heap) : List SnapObject → List ℕ × Heap
  | [] => ([], h)
  | s :: ss =>
    let (a, h) := allocSnapshotShell addr h s
    let (as, h) := allocShells h ss
    (a :: as, h)

/-- Write the words of the object at `a`. -/
def fill (objects : List ℕ) (h : Heap) (a : ℕ) (s : SnapObject) : Heap :=
  let (vs, h) := snapshotValues addr objects h s.words
  { h with objs := h.objs.insert a (s.build vs) }

/-- Rebuild a snapshot; each static slot's value. -/
def restoreSnapshot (h : Heap) (snapshot : HeapSnapshot) : List (ℕ × ℕ) × Heap :=
  let (objects, h) := allocShells addr h snapshot.objects
  let h := (objects.zip snapshot.objects).foldl (fun h p ↦ fill addr objects h p.1 p.2) h
  let (vs, h) := snapshotValues addr objects h (snapshot.statics.map Prod.snd)
  ((snapshot.statics.map Prod.fst).zip vs, h)

end Restore

end CoilLang.Machine.Snapshot
