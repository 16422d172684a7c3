import Mathlib.Algebra.Group.Nat.Defs
import Mathlib.Data.List.Basic

/-!
# String storage with in-place append

A string is stored inline, as an owned copy, or as a view `[start, start + len)` of a buffer that other
strings share. A buffer only grows at its tail: `concat` on a string that **ends exactly where the
claimed bytes end** claims the bytes behind it with a compare-and-swap and copies only the second
operand there. Any number of threads may work on the same strings, so a call of `concat` is two steps here:
`concat` goes up to the compare-and-swap, `finish` copies and returns, and anything may happen between them.

A byte that was never written reads as `none`, and so does every byte of a freed buffer: a string that
reads one has no contents (`asStr`). What the strings are meant to be is the other half of this module,
`ImmStrings`: a list of byte strings that only grows.
-/

namespace CoilLang.StrBuf

/-- Longest string stored in the object itself. -/
def inlineMax : ℕ := 30

/-- Smallest capacity of a buffer created by concat. -/
def minSharedCap : ℕ := 32

/-- Slices shorter than this are copied. -/
def viewMinLen : ℕ := 64

/-- A view may pin a buffer at most this many times its own length. -/
def viewRetainMax : ℕ := 8

/-- A reference-counted byte buffer; `[0, used)` is claimed. -/
structure SharedBuf where
  refs : ℕ
  used : ℕ
  cap : ℕ
  bytes : List (Option UInt8)
  deriving DecidableEq, Repr

/-- A new buffer holding `parts` back to back, with room for `cap` bytes. -/
def SharedBuf.withParts (cap : ℕ) (parts : List UInt8) : SharedBuf :=
  ⟨1, parts.length, cap, parts.map some ++ List.replicate (cap - parts.length) none⟩

/-- Contents of a string; a shared one names its buffer by its address. -/
inductive StrData
  | inline (len : ℕ) (bytes : List UInt8)
  | owned (s : List UInt8)
  | shared (buf start len accounted : ℕ)
  deriving DecidableEq, Repr

/-- The second operand of a concat: a string of the heap, or any other text. -/
inductive Tail
  | text (s : List UInt8)
  | value (i : ℕ)
  deriving DecidableEq, Repr

/-- Bytes `[start, start + n)` of a buffer, claimed by a call. -/
structure Claim where
  buf : ℕ
  start : ℕ
  n : ℕ
  deriving DecidableEq, Repr

/-- A call of `concat` between the compare-and-swap and the copy: its operands, and the bytes it has
claimed if the compare-and-swap was tried and succeeded. -/
structure Pending where
  head : ℕ
  tail : Tail
  claim : Option Claim
  deriving DecidableEq, Repr

/-- The call reads string `i`. -/
def Pending.borrows (p : Pending) (i : ℕ) : Bool := p.head = i ∨ p.tail = .value i

/-- The buffers by address, and the strings and the calls of `concat` in the order they came. A freed
buffer, a dropped string and a call that has returned leave a hole. -/
structure State where
  bufs : List (Option SharedBuf)
  vals : List (Option StrData)
  calls : List (Option Pending)
  deriving DecidableEq, Repr

def State.init : State := ⟨[], [], []⟩

namespace State

def buf? (s : State) (b : ℕ) : Option SharedBuf := s.bufs[b]?.join

def val? (s : State) (i : ℕ) : Option StrData := s.vals[i]?.join

def call? (s : State) (k : ℕ) : Option Pending := s.calls[k]?.join

/-- The contents of a string. -/
def asStr (s : State) : StrData → Option (List UInt8)
  | .inline len bytes => some (bytes.take len)
  | .owned t => some t
  | .shared b start len _ => do
    let buf ← s.buf? b
    let cells := (buf.bytes.drop start).take len
    if cells.length = len then cells.mapM id else none

/-- The second operand; a text from elsewhere is like an owned copy. -/
def tail? (s : State) : Tail → Option StrData
  | .text t => some (.owned t)
  | .value i => s.val? i

def setBuf (s : State) (b : ℕ) (buf : Option SharedBuf) : State := { s with bufs := s.bufs.set b buf }

/-- The string with the next number. -/
def push (s : State) (v : StrData) : State := { s with vals := s.vals ++ [some v] }

/-- Another handle of a buffer. -/
def clone (s : State) (b : ℕ) : State :=
  match s.buf? b with
  | some buf => s.setBuf b (some { buf with refs := buf.refs + 1 })
  | none => s

/-- A handle less; the last one frees the buffer. -/
def release (s : State) (b : ℕ) : State :=
  match s.buf? b with
  | some buf =>
    if buf.refs ≠ 1 then s.setBuf b (some { buf with refs := buf.refs - 1 }) else s.setBuf b none
  | none => s

end State

def StrData.inline? (t : List UInt8) : Option StrData :=
  if inlineMax < t.length then none
  else some (.inline t.length (t ++ List.replicate (inlineMax - t.length) 0))

/-- A copy of `t`: inline when it fits, else an exact-size string. -/
def StrData.copyOf (t : List UInt8) : StrData := (StrData.inline? t).getD (.owned t)

/-- A shared string, or `none` when `len` or `accounted` needs more than 32 bits. -/
def StrData.shared? (b start len accounted : ℕ) : Option StrData :=
  if len < 2 ^ 32 ∧ accounted < 2 ^ 32 then some (.shared b start len accounted) else none

namespace State

/-- A new buffer holding `t`, with room for `cap` bytes, and a string for all of it; an owned copy
when the string does not fit a shared one. -/
def pushBuf (s : State) (cap accounted : ℕ) (t : List UInt8) : State :=
  match StrData.shared? s.bufs.length 0 t.length accounted with
  | some v => { s with bufs := s.bufs ++ [some (SharedBuf.withParts cap t)] }.push v
  | none => s.push (.owned t)

/-- Claim bytes if they start exactly where the claimed bytes end and the buffer has room. -/
def tryClaim (s : State) (c : Claim) : Option State := do
  let buf ← s.buf? c.buf
  if c.start + c.n ≤ buf.cap ∧ buf.used = c.start then
    some (s.setBuf c.buf (some { buf with used := c.start + c.n }))
  else none

/-- Copy bytes into a buffer. -/
def write (s : State) (b start : ℕ) (t : List UInt8) : State :=
  match s.buf? b with
  | some buf =>
    s.setBuf b (some { buf with
      bytes := buf.bytes.take start ++ t.map some ++ buf.bytes.drop (start + t.length) })
  | none => s

end State

/-- The index is between characters: at an end, or not at a continuation byte. -/
def isCharBoundary (t : List UInt8) (i : ℕ) : Bool :=
  i = 0 ∨ i = t.length ∨ ∃ b ∈ t[i]?, b < 0x80 ∨ 0xc0 ≤ b

/-- The bytes from `i` up to `j`, if both are between characters. -/
def getRange (t : List UInt8) (i j : ℕ) : Option (List UInt8) :=
  if i ≤ j ∧ j ≤ t.length ∧ isCharBoundary t i ∧ isCharBoundary t j then some ((t.drop i).take (j - i))
  else none

/-! ### Steps -/

inductive Action
  | new (t : List UInt8)
  | concat (head : ℕ) (tail : Tail)
  | finish (call : ℕ)
  | slice (i start stop : ℕ)
  | read (i : ℕ)
  | drop (i : ℕ)
  deriving DecidableEq, Repr

/-- What a step returns: nothing, the number of a call, the number of a new string, no string,
contents; or it has read bytes that are not there. -/
inductive Output
  | unit
  | started (call : ℕ)
  | created (i : ℕ)
  | refused
  | contents (t : List UInt8)
  | undefined
  deriving DecidableEq, Repr

namespace State

/-- A string made of a text. -/
def new (s : State) (t : List UInt8) : State × Output :=
  (s.push (StrData.copyOf t), .created s.vals.length)

/-- The bytes behind a shared string that `concat` tries to claim. -/
def claimFor (v : StrData) (h t : List UInt8) : Option Claim :=
  match v with
  | .shared b start len _ =>
    if inlineMax < h.length + t.length ∧ h.length + t.length < 2 ^ 32 then
      some ⟨b, start + len, t.length⟩
    else none
  | _ => none

/-- The compare-and-swap of `concat`, if it is tried: what has been claimed, and the state after it. -/
def startClaim (s : State) (v : StrData) (h t : List UInt8) : State × Option Claim :=
  match claimFor v h t with
  | some c =>
    match s.tryClaim c with
    | some s' => (s', some c)
    | none => (s, none)
  | none => (s, none)

/-- `concat` up to the compare-and-swap. -/
def concat (s : State) (i : ℕ) (tail : Tail) : Option (State × Output) := do
  let v ← s.val? i
  let w ← s.tail? tail
  match s.asStr v, s.asStr w with
  | some h, some t =>
    let (s', claim) := s.startClaim v h t
    some ({ s' with calls := s.calls ++ [some ⟨i, tail, claim⟩] }, .started s.calls.length)
  | _, _ => some (s, .undefined)

/-- The rest of `concat`: in place if the bytes were claimed, else a copy of both operands. -/
def finish (s : State) (k : ℕ) : Option (State × Output) := do
  let p ← s.call? k
  let v ← s.val? p.head
  let w ← s.tail? p.tail
  match s.asStr v, s.asStr w with
  | some h, some t =>
    let done : State := { s with calls := s.calls.set k none }
    let total := h.length + t.length
    if total ≤ inlineMax then
      some (done.push (.inline total (h ++ t ++ List.replicate (inlineMax - total) 0)),
        .created s.vals.length)
    else
      match v, p.claim with
      | .shared b start _ _, some c =>
        some (((done.write c.buf c.start t).clone b).push (.shared b start total t.length),
          .created s.vals.length)
      | _, _ =>
        let cap := max (total * 2) minSharedCap
        some (done.pushBuf cap cap (h ++ t), .created s.vals.length)
  | _, _ => some (s, .undefined)

/-- A view of a part of a shared string, when it is long enough for the buffer it pins. -/
def view? (s : State) (v : StrData) (start : ℕ) (part : List UInt8) : Option State :=
  match v with
  | .shared b first _ _ =>
    match s.buf? b with
    | some buf =>
      if buf.cap ≤ part.length * viewRetainMax then
        (StrData.shared? b (first + start) part.length 0).map fun w ↦ (s.clone b).push w
      else none
    | none => none
  | _ => none

/-- Bytes `[start, stop)` of a string: a short part is copied, a long one of a shared string is a view,
any other goes into a buffer of its own. -/
def slice (s : State) (i start stop : ℕ) : Option (State × Output) := do
  let v ← s.val? i
  match s.asStr v with
  | none => some (s, .undefined)
  | some t =>
    match getRange t start stop with
    | none => some (s, .refused)
    | some part =>
      if part.length < viewMinLen then some (s.push (StrData.copyOf part), .created s.vals.length)
      else
        some ((s.view? v start part).getD (s.pushBuf part.length part.length part),
          .created s.vals.length)

def read (s : State) (i : ℕ) : Option (State × Output) := do
  let v ← s.val? i
  match s.asStr v with
  | some t => some (s, .contents t)
  | none => some (s, .undefined)

/-- A string goes away, unless a call of `concat` still reads it. -/
def drop (s : State) (i : ℕ) : Option (State × Output) := do
  let v ← s.val? i
  if s.calls.any (·.any (·.borrows i)) then none
  else
    let gone : State := { s with vals := s.vals.set i none }
    match v with
    | .shared b _ _ _ => some (gone.release b, .unit)
    | _ => some (gone, .unit)

/-- One step, if it is possible: the strings it names exist, and the call it finishes is under way. -/
def step (s : State) : Action → Option (State × Output)
  | .new t => some (s.new t)
  | .concat i tail => s.concat i tail
  | .finish k => s.finish k
  | .slice i start stop => s.slice i start stop
  | .read i => s.read i
  | .drop i => s.drop i

/-- The steps of any number of threads, in any order. -/
def run (s : State) : List Action → Option (State × List Output)
  | [] => some (s, [])
  | a :: as => do
    let (s, o) ← s.step a
    let (s, os) ← s.run as
    some (s, o :: os)

end State

/-! ### What strings are -/

/-- Immutable strings: each has its contents from the moment it exists, and a call of `concat` has its
result from the moment it starts. -/
structure ImmStrings where
  vals : List (List UInt8)
  calls : List (List UInt8)
  deriving DecidableEq, Repr

namespace ImmStrings

def init : ImmStrings := ⟨[], []⟩

def push (a : ImmStrings) (t : List UInt8) : ImmStrings × Output :=
  ({ a with vals := a.vals ++ [t] }, .created a.vals.length)

def tailBytes (a : ImmStrings) : Tail → Option (List UInt8)
  | .text t => some t
  | .value i => a.vals[i]?

def step (a : ImmStrings) : Action → Option (ImmStrings × Output)
  | .new t => some (a.push t)
  | .concat i tail => do
    let h ← a.vals[i]?
    let t ← a.tailBytes tail
    some ({ a with calls := a.calls ++ [h ++ t] }, .started a.calls.length)
  | .finish k => do
    let t ← a.calls[k]?
    some (a.push t)
  | .slice i start stop => do
    let t ← a.vals[i]?
    match getRange t start stop with
    | none => some (a, .refused)
    | some part => some (a.push part)
  | .read i => do
    let t ← a.vals[i]?
    some (a, .contents t)
  | .drop _ => some (a, .unit)

def run (a : ImmStrings) : List Action → Option (ImmStrings × List Output)
  | [] => some (a, [])
  | act :: acts => do
    let (a, o) ← a.step act
    let (a, os) ← a.run acts
    some (a, o :: os)

end ImmStrings

end CoilLang.StrBuf
