import CoilLang.Machine.Snapshot

/-!
# Structural equality of values

`==` on heap values compares contents: strings by their text, arrays, tuples, enums, boxes and records part
by part, everything else by its word. `valuesEq` tries a walk without memory first (`flatEq`) and then
one that **pairs the objects it meets**, one map for each direction, so that it ends on cyclic values. An
object that is met again must stand opposite the object it stood opposite before.

The walks of the source recurse without a bound; here they take fuel and give `none` when it runs out.
The contents of a value are its tree (`unfold`), which an acyclic value has.
-/

namespace CoilLang.Machine.ValueEq

open Snapshot (Obj Member Heap)

/-! ### The walk without memory -/

def recordTypeIdBase : ℕ := 0x8000

def recordTypeIdEnd : ℕ := 0xFF00

def fsMetadataTypeId : ℕ := 0xFFFC

def ffiStructTypeId : ℕ := 0xFFFB

/-- Whether `typeId` names a record. -/
def isRecordTypeId (typeId : ℕ) : Bool :=
  (recordTypeIdBase ≤ typeId ∧ typeId < recordTypeIdEnd) ∨ typeId = fsMetadataTypeId ∨
    typeId = ffiStructTypeId

/-- The slots of two records of one shape. -/
def recordSlots (typeId : ℕ) (slots : Option (List ℕ)) (typeId' : ℕ) (slots' : Option (List ℕ)) :
    Option (List ℕ × List ℕ) :=
  if !isRecordTypeId typeId || !isRecordTypeId typeId' then none
  else do
    let sa ← slots
    let sb ← slots'
    if sa.length = sb.length then some (sa, sb) else none

/-- An answer when no address can be met twice: identical words, words that are not pointers, strings,
and enums with at most one word of payload that is itself flat. `some none` asks for the full walk. -/
def flatEq (h : Heap) : ℕ → ℕ → ℕ → Option (Option Bool)
  | 0, _, _ => none
  | fuel + 1, a, b =>
    if a = b then some (some true)
    else if a = 0 ∨ b = 0 ∨ a % 2 ≠ b % 2 then some (some false)
    else if a % 2 ≠ 0 then flatEq h fuel (a - 1) (b - 1)
    else
      match h.find a, h.find b with
      | some oa, some ob =>
        match oa, ob with
        | .string s, .string t => some (some (s == t))
        | .enum tag _ _ xs, .enum tag' _ _ ys =>
          if tag ≠ tag' ∨ xs.length ≠ ys.length then some (some false)
          else
            match xs, ys with
            | [], [] => some (some true)
            | [x], [y] => flatEq h fuel x y
            | _, _ => some none
        | .array _ _, _ => some none
        | .bytes _, _ => some none
        | .tuple _ _, _ => some none
        | .boxed _ _, _ => some none
        | .instance typeId slots, .instance typeId' slots' =>
          if (recordSlots typeId slots typeId' slots').isSome then some none else some (some false)
        | _, _ => some (some false)
      | _, _ => some (some false)

/-! ### The walk that pairs objects -/

/-- The objects already assumed equal, in both directions. -/
structure Maps where
  fwd : List (ℕ × ℕ)
  rev : List (ℕ × ℕ)

def Maps.empty : Maps := ⟨[], []⟩

def Maps.insert (m : Maps) (a b : ℕ) : Maps := ⟨(a, b) :: m.fwd, (b, a) :: m.rev⟩

/-- What a walk from two words gives. -/
abbrev Walk := ℕ → ℕ → Maps → Option (Bool × Maps)

/-- All parts in turn, until two differ. -/
def allEq (f : Walk) : List ℕ → List ℕ → Maps → Option (Bool × Maps)
  | x :: xs, y :: ys, m => do
    let (r, m) ← f x y m
    if r then allEq f xs ys m else some (false, m)
  | _, _, m => some (true, m)

/-- The elements of an array, packed or not. -/
def arrayWords : Obj → Option (List ℕ)
  | .bytes b => some (b.map UInt8.toNat)
  | .array _ ws => some ws
  | _ => none

/-- The word of a box's payload. -/
def memberWord : Member → ℕ
  | .value v => v
  | .object a => a

/-- Two objects, part by part. -/
def objectsEq (f : Walk) (oa ob : Obj) (m : Maps) : Option (Bool × Maps) :=
  match oa, ob with
  | .bytes x, .bytes y => if x.length ≠ y.length then some (false, m) else some (x == y, m)
  | .tuple _ xs, .tuple _ ys => if xs.length ≠ ys.length then some (false, m) else allEq f xs ys m
  | .string s, .string t => some (s == t, m)
  | .enum tag _ _ xs, .enum tag' _ _ ys =>
    if tag ≠ tag' ∨ xs.length ≠ ys.length then some (false, m) else allEq f xs ys m
  | .boxed _ p, .boxed _ q => f (memberWord p) (memberWord q) m
  | .instance typeId slots, .instance typeId' slots' =>
    match recordSlots typeId slots typeId' slots' with
    | some (sa, sb) => allEq f sa sb m
    | none => some (false, m)
  | oa, ob =>
    match arrayWords oa, arrayWords ob with
    | some xs, some ys => if xs.length ≠ ys.length then some (false, m) else allEq f xs ys m
    | _, _ => some (false, m)

def valuesEqRec (h : Heap) : ℕ → Walk
  | 0, _, _, _ => none
  | fuel + 1, a, b, m =>
    if a = b then some (true, m)
    else if a = 0 ∨ b = 0 then some (false, m)
    else if a % 2 ≠ b % 2 then some (false, m)
    else if a % 2 ≠ 0 then valuesEqRec h fuel (a - 1) (b - 1) m
    else
      match m.fwd.lookup a with
      | some mapped => some (mapped == b, m)
      | none =>
        match m.rev.lookup b with
        | some mapped => some (mapped == a, m)
        | none =>
          let m := m.insert a b
          match h.find a, h.find b with
          | some oa, some ob => objectsEq (valuesEqRec h fuel) oa ob m
          | _, _ => some (false, m)

/-- Deep equality of two words. -/
def valuesEq (h : Heap) (fuel a b : ℕ) : Option Bool := do
  match ← flatEq h fuel a b with
  | some r => some r
  | none =>
    let (r, _) ← valuesEqRec h fuel a b Maps.empty
    some r

/-! ### Contents -/

/-- What kind of aggregate an object is, as far as `==` cares. -/
inductive Label
  | array
  | tuple
  | enum (tag : ℕ)
  | boxed
  | record
  deriving DecidableEq, Repr

/-- What `==` sees of an object: a text, parts under a label, or only that it is this object. -/
inductive View
  | text (s : String)
  | node (l : Label) (parts : List ℕ)
  | self
  deriving DecidableEq, Repr

def view : Obj → View
  | .string s => .text s
  | .bytes b => .node .array (b.map UInt8.toNat)
  | .array _ ws => .node .array ws
  | .tuple _ ws => .node .tuple ws
  | .enum tag _ _ ws => .node (.enum tag) ws
  | .boxed _ p => .node .boxed [memberWord p]
  | .instance typeId (some slots) => if isRecordTypeId typeId then .node .record slots else .self
  | .instance _ none => .self
  | .other _ => .self

/-- Contents: a plain word, the payload of an `Err`, a text, or a labelled list of contents. -/
inductive Tree
  | word (w : ℕ)
  | err (t : Tree)
  | text (s : String)
  | node (l : Label) (ts : List Tree)

/-- The contents of a word, up to a depth. -/
def unfold (h : Heap) : ℕ → ℕ → Option Tree
  | 0, _ => none
  | n + 1, w =>
    if w % 2 ≠ 0 then (unfold h n (w - 1)).map .err
    else
      match (h.find w).map view with
      | some (.text s) => some (.text s)
      | some (.node l parts) => (parts.mapM (unfold h n)).map (.node l)
      | _ => some (.word w)

/-- The word has contents `t`: what hangs on it is acyclic. -/
def HasTree (h : Heap) (w : ℕ) (t : Tree) : Prop := ∃ n, unfold h n w = some t

end CoilLang.Machine.ValueEq
