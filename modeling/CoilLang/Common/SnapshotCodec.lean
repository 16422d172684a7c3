import CoilLang.Lib.Packing

/-!
# The words of a heap snapshot

A heap snapshot is stored in the constant pool as `u64` words:

    MAGIC, total_words, n_objects, n_statics,
    n_statics slot words, word list of the n_statics values,
    n_objects objects

An object is a header word `kind | aux << 8 | extra << 32` and its body. A word list is its length, its
2-bit tags (32 per word) and one payload word per entry; a byte string is its length and its bytes packed
little-endian.

`encode` and `decode` follow the source. Where the source **indexes a slice or adds without a check**,
the decoder here can stop with a `panic`, so that its absence is a theorem and not an assumption. A slice
is a list that fits the address space (`Slice`), and `usize` is 64 bits wide, so the conversions of words
to `usize` all succeed.
-/

namespace CoilLang.SnapshotCodec

/-- First word of every encoded snapshot. -/
def snapshotMagic : UInt64 := 0x534e4150434f494c

/-- Words before the statics: magic, total length, object count, static count. -/
def headerWords : ℕ := 4

/-- One word of a snapshot object (or of a static slot). -/
inductive SnapWord
  | raw (v : UInt64)
  | ref (index : UInt32) (errBit : Bool)
  | unitEnum (tag : UInt32) (errBit : Bool)
  | emptyTuple (errBit : Bool)
  deriving DecidableEq, Repr

/-- One heap object of a snapshot. -/
inductive SnapObject
  | string (s : String)
  | bytes (b : List UInt8)
  | array (elemKind : UInt8) (words : List SnapWord)
  | tuple (kinds : UInt8) (words : List SnapWord)
  | enum (tag typeId : UInt32) (kinds : UInt8) (words : List SnapWord)
  | instance (typeId : UInt32) (words : List SnapWord)
  | boxed (tag : UInt16) (word : SnapWord)
  deriving DecidableEq

/-- Objects plus the static slots that hold the roots. -/
structure HeapSnapshot where
  objects : List SnapObject
  statics : List (UInt32 × SnapWord)
  deriving DecidableEq

/-- Why encoded words are not a snapshot. -/
inductive SnapshotDecodeError
  | badMagic
  | truncated
  | length
  | badObjectKind (kind : UInt64)
  | badRef (index : UInt32)
  | badUtf8
  deriving DecidableEq, Repr

/-- How decoding stops short: it returns an error, or the program panics. -/
inductive Stop
  | panic
  | error (e : SnapshotDecodeError)
  deriving DecidableEq, Repr

/-- A slice of words: it fits the address space. -/
structure Slice where
  words : List UInt64
  length_lt : words.length < 2 ^ 60

/-! ### Encoding -/

def SnapWord.tag : SnapWord → UInt64
  | .raw _ => 0
  | .ref .. => 1
  | .unitEnum .. => 2
  | .emptyTuple _ => 3

def SnapWord.payload : SnapWord → UInt64
  | .raw v => v
  | .ref index errBit => index.toUInt64 <<< 1 ||| errBit.toUInt64
  | .unitEnum tag errBit => tag.toUInt64 <<< 1 ||| errBit.toUInt64
  | .emptyTuple errBit => errBit.toUInt64

def encodeBytes (bytes : List UInt8) : List UInt64 :=
  UInt64.ofNat bytes.length :: (chunks 8 bytes).map fun chunk ↦ pack 8 (chunk.map UInt8.toUInt64)

def encodeWords (words : List SnapWord) : List UInt64 :=
  UInt64.ofNat words.length ::
    ((chunks 32 words).map fun chunk ↦ pack 2 (chunk.map SnapWord.tag)) ++ words.map SnapWord.payload

def header (kind aux extra : UInt64) : UInt64 := kind ||| aux <<< 8 ||| extra <<< 32

def encodeObject : SnapObject → List UInt64
  | .string s => header 0 0 0 :: encodeBytes s.toByteArray.data.toList
  | .bytes b => header 1 0 0 :: encodeBytes b
  | .array elemKind words => header 2 elemKind.toUInt64 0 :: encodeWords words
  | .tuple kinds words => header 3 kinds.toUInt64 0 :: encodeWords words
  | .enum tag typeId kinds words =>
    header 4 kinds.toUInt64 tag.toUInt64 :: typeId.toUInt64 :: encodeWords words
  | .instance typeId words => header 5 0 typeId.toUInt64 :: encodeWords words
  | .boxed tag word => header 6 0 tag.toUInt64 :: encodeWords [word]

/-- What follows the header. -/
def HeapSnapshot.encodeBody (s : HeapSnapshot) : List UInt64 :=
  s.statics.map (fun e ↦ e.1.toUInt64) ++ encodeWords (s.statics.map Prod.snd) ++
    s.objects.flatMap encodeObject

/-- Words for the constant pool. -/
def HeapSnapshot.encode (s : HeapSnapshot) : List UInt64 :=
  [snapshotMagic, UInt64.ofNat (headerWords + s.encodeBody.length), UInt64.ofNat s.objects.length,
    UInt64.ofNat s.statics.length] ++ s.encodeBody

/-! ### Reading -/

/-- Index a slice. -/
def index (words : List UInt64) (i : ℕ) : Except Stop UInt64 :=
  match words[i]? with
  | some w => .ok w
  | none => .error .panic

/-- Add without a check for overflow. -/
def usizeAdd (a b : ℕ) : Except Stop ℕ := if a + b < 2 ^ 64 then .ok (a + b) else .error .panic

structure Reader where
  slice : Slice
  pos : ℕ

namespace Reader

def next (r : Reader) : Except Stop (UInt64 × Reader) :=
  match r.slice.words[r.pos]? with
  | some w => do
    let pos ← usizeAdd r.pos 1
    .ok (w, { r with pos })
  | none => .error (.error .truncated)

def take (r : Reader) (n : ℕ) : Except Stop (List UInt64 × Reader) :=
  if r.pos + n < 2 ^ 64 ∧ r.pos + n ≤ r.slice.words.length then
    .ok ((r.slice.words.drop r.pos).take n, { r with pos := r.pos + n })
  else .error (.error .truncated)

def len (r : Reader) : Except Stop (ℕ × Reader) := do
  let (w, r) ← r.next
  .ok (w.toNat, r)

end Reader

def divCeil (a b : ℕ) : ℕ := (a + b - 1) / b

/-- The bytes of a word, the lowest first. -/
def toLeBytes (w : UInt64) : List UInt8 := (List.range 8).map fun i ↦ UInt8.ofNat (digit 8 w i)

/-- A word of a snapshot, from its tag and payload. -/
def snapWord (tag : ℕ) (raw : UInt64) : Except Stop SnapWord :=
  match tag with
  | 0 => .ok (.raw raw)
  | 1 =>
    if (raw >>> 1).toNat < 2 ^ 32 then .ok (.ref (raw >>> 1).toUInt32 (raw &&& 1 ≠ 0))
    else .error (.error (.badRef 0xffffffff))
  | 2 => .ok (.unitEnum (raw >>> 1).toUInt32 (raw &&& 1 ≠ 0))
  | _ => .ok (.emptyTuple (raw &&& 1 ≠ 0))

/-- The entries of a word list, from entry `i` on. -/
def snapWords (tags : List UInt64) : ℕ → List UInt64 → Except Stop (List SnapWord)
  | _, [] => .ok []
  | i, raw :: payload => do
    let t ← index tags (i / 32)
    let w ← snapWord (digit 2 t (i % 32)) raw
    let ws ← snapWords tags (i + 1) payload
    .ok (w :: ws)

namespace Reader

def bytes (r : Reader) : Except Stop (List UInt8 × Reader) := do
  let (len, r) ← r.len
  let (packed, r) ← r.take (divCeil len 8)
  .ok ((packed.flatMap toLeBytes).take len, r)

def words (r : Reader) : Except Stop (List SnapWord × Reader) := do
  let (len, r) ← r.len
  let (tags, r) ← r.take (divCeil len 32)
  let (payload, r) ← r.take len
  let ws ← snapWords tags 0 payload
  .ok (ws, r)

def object (r : Reader) : Except Stop (SnapObject × Reader) := do
  let (header, r) ← r.next
  let aux := (header >>> 8).toUInt8
  let extra := (header >>> 32).toUInt32
  match (header &&& 0xff).toNat with
  | 0 =>
    let (b, r) ← r.bytes
    match String.fromUTF8? ⟨b.toArray⟩ with
    | some s => .ok (.string s, r)
    | none => .error (.error .badUtf8)
  | 1 =>
    let (b, r) ← r.bytes
    .ok (.bytes b, r)
  | 2 =>
    let (ws, r) ← r.words
    .ok (.array aux ws, r)
  | 3 =>
    let (ws, r) ← r.words
    .ok (.tuple aux ws, r)
  | 4 =>
    let (typeId, r) ← r.next
    let (ws, r) ← r.words
    .ok (.enum extra typeId.toUInt32 aux ws, r)
  | 5 =>
    let (ws, r) ← r.words
    .ok (.instance extra ws, r)
  | 6 =>
    let (ws, r) ← r.words
    match ws with
    | [word] => .ok (.boxed extra.toUInt16 word, r)
    | _ => .error (.error .length)
  | _ => .error (.error (.badObjectKind (header &&& 0xff)))

def objects : ℕ → Reader → Except Stop (List SnapObject × Reader)
  | 0, r => .ok ([], r)
  | n + 1, r => do
    let (o, r) ← r.object
    let (os, r) ← objects n r
    .ok (o :: os, r)

end Reader

/-! ### Decoding -/

/-- The slots as `u32`, paired with their values. -/
def pairStatics : List UInt64 → List SnapWord → Except Stop (List (UInt32 × SnapWord))
  | slot :: slots, w :: ws =>
    if slot.toNat < 2 ^ 32 then do
      let rest ← pairStatics slots ws
      .ok ((slot.toUInt32, w) :: rest)
    else .error (.error .length)
  | _, _ => .ok []

def SnapObject.words : SnapObject → List SnapWord
  | .string _ | .bytes _ => []
  | .array _ ws | .tuple _ ws | .enum _ _ _ ws | .instance _ ws => ws
  | .boxed _ w => [w]

/-- A reference past the object table. -/
def checkWord (n : ℕ) : SnapWord → Except Stop Unit
  | .ref index _ => if index.toNat < n then .ok () else .error (.error (.badRef index))
  | _ => .ok ()

def checkWords (n : ℕ) : List SnapWord → Except Stop Unit
  | [] => .ok ()
  | w :: ws => do
    checkWord n w
    checkWords n ws

def HeapSnapshot.checkRefs (s : HeapSnapshot) : Except Stop Unit := do
  checkWords s.objects.length (s.statics.map Prod.snd)
  checkWords s.objects.length (s.objects.flatMap SnapObject.words)

/-- The slice up to `n`. -/
def Slice.prefix? (s : Slice) (n : ℕ) : Option Slice :=
  if n ≤ s.words.length then
    some ⟨s.words.take n, Nat.lt_of_le_of_lt (List.length_take_le' n s.words) s.length_lt⟩
  else none

/-- What follows once the slice is cut at the claimed total: the counts of the header, the statics and
the objects. -/
def decodeBody (words : Slice) (total : ℕ) : Except Stop HeapSnapshot := do
  let nObjects := (← index words.words 2).toNat
  let nStatics := (← index words.words 3).toNat
  let r : Reader := ⟨words, headerWords⟩
  let (slots, r) ← r.take nStatics
  let (roots, r) ← r.words
  if roots.length ≠ nStatics then .error (.error .length)
  else
    let statics ← pairStatics slots roots
    if words.words.length < nObjects then .error (.error .length)
    else
      let (objects, r) ← Reader.objects nObjects r
      if r.pos ≠ total then .error (.error .length)
      else
        let snapshot : HeapSnapshot := ⟨objects, statics⟩
        snapshot.checkRefs
        .ok snapshot

/-- Decode and check a snapshot: every reference must name an object. -/
def decode (words : Slice) : Except Stop HeapSnapshot :=
  if words.words.head? ≠ some snapshotMagic then .error (.error .badMagic)
  else if words.words.length < headerWords then .error (.error .truncated)
  else do
    let total ← index words.words 1
    match words.prefix? total.toNat with
    | none => .error (.error .truncated)
    | some cut => decodeBody cut total.toNat

end CoilLang.SnapshotCodec
