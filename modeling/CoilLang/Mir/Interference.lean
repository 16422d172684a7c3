import CoilLang.Lib.Liveness
import CoilLang.Lib.Loop
import CoilLang.Mir.Inst

/-!
# Register interference

Which slotted values of a function are live at the same time. The emitter decides which values have a slot,
which slotted words reading a value reads and which instructions are emitted at their consumer (`Slots`).
Each block is walked backwards from what is live after it; the walks are repeated until the sets of live
values at the block starts stay the same (`liveness`), and the walks over the final sets record the edges. A φ
is written **on each incoming edge**, over what that edge keeps.

The terminator that matches on an enum word and binds its payload is part of this model. It binds the payload
when it is taken, and `PayloadsBound` says of a function that no path reads it after a miss.
-/

namespace CoilLang.Mir.Interference

open Liveness

/-! ### Functions -/

inductive Terminator
  | jump (dest : BlockId)
  | br (cond : ValueId) (taken notTaken : BlockId)
  /-- Taken, the words of the payload are bound. -/
  | jumpIfMatch (scrutinee : ValueId) (tag : ℕ) (payloads : List ValueId) (taken notTaken : BlockId)
  | ret (lo hi : Option ValueId)
  | unreachable
  deriving DecidableEq

namespace Terminator

def succs : Terminator → List BlockId
  | jump d => [d]
  | br _ t n | jumpIfMatch _ _ _ t n => [t, n]
  | ret .. | unreachable => []

/-- The values a terminator reads, counting the payloads a match leaves on the stack. -/
def termUses : Terminator → List ValueId
  | br c _ _ => [c]
  | jumpIfMatch s _ payloads _ _ => s :: payloads
  | ret lo hi => lo.toList ++ hi.toList
  | jump _ | unreachable => []

end Terminator

structure Block where
  id : BlockId
  insts : List MirInst
  term : Option Terminator
  deriving DecidableEq

/-- Blocks are numbered by their positions. -/
structure Func where
  types : List MirTy
  blocks : List Block
  id_eq : ∀ (i : ℕ) (b : Block), blocks[i]? = some b → b.id = i

/-- What the emitter decides about values. -/
structure Slots (f : Func) where
  slot : ValueId → Bool
  /-- The slotted words reading a value reads. -/
  read : ValueId → List ValueId
  /-- Emitted at the consumer. -/
  inlineDef : MirInst → Bool
  slot_lt : ∀ v, slot v = true → v < f.types.length

namespace Block

variable (b : Block)

def headPhis : List MirInst := b.insts.takeWhile MirInst.isPhi

def phiDests : List ValueId := b.headPhis.map MirInst.dest

end Block

def phiArgs : MirInst → List (BlockId × ValueId)
  | .phi _ _ args => args
  | _ => []

/-- The live values at the start of each block. -/
abbrev LiveIn := List (Finset ValueId)

def LiveIn.at (L : LiveIn) (i : ℕ) : Finset ValueId := (L[i]?).getD ∅

section Walk

variable {f : Func} (p : Slots f)

/-- The slotted words the φs of `c` read on the edge from `pred`. -/
def phiReads (pred : BlockId) (c : Block) : List ValueId :=
  c.headPhis.flatMap fun i ↦ ((phiArgs i).filter (·.1 = pred)).flatMap fun a ↦ p.read a.2

/-- What is live after block `b`. -/
def liveOut (L : LiveIn) (b : Block) : Finset ValueId :=
  (b.term.elim [] Terminator.succs).toFinset.biUnion fun s ↦
    (f.blocks[s]?).elim ∅ fun c ↦ L.at s ∪ (phiReads p b.id c).toFinset

/-- What an instruction reads and writes where it is emitted. -/
def instAccess (i : MirInst) : Access ValueId := ⟨i.operands.flatMap p.read, i.dests.filter p.slot⟩

def body (b : Block) : List (Access ValueId) :=
  (b.insts.filter fun i ↦ !(i.isPhi || p.inlineDef i)).map (instAccess p)

/-- The slotted words a terminator reads. -/
def termReads : Terminator → List ValueId
  | .jumpIfMatch s .. => p.read s
  | t => t.termUses.flatMap p.read

/-- The slotted words of the payload a terminator may bind. -/
def termWrites : Terminator → List ValueId
  | .jumpIfMatch _ _ payloads _ _ => payloads.filter p.slot
  | _ => []

def termAccess (b : Block) : Access ValueId := ⟨b.term.elim [] (termReads p), b.term.elim [] (termWrites p)⟩

/-- What is live after the φs of a block, and the edges its body and terminator record. -/
def walkBody (L : LiveIn) (b : Block) : Finset ValueId × Finset (ValueId × ValueId) :=
  scan (body p b ++ [termAccess p b]) (liveOut p L b, ∅)

/-- Pairs of a value of the first set and another one of the second. -/
def pairs (s t : Finset ValueId) : Finset (ValueId × ValueId) := (s ×ˢ t).filter fun e ↦ e.2 ≠ e.1

/-- One backward walk of a block: what is live at its start, and the edges recorded. -/
def walk (L : LiveIn) (b : Block) : Finset ValueId × Finset (ValueId × ValueId) :=
  let (live, edges) := walkBody p L b
  (live \ b.phiDests.toFinset,
    edges ∪ pairs (b.phiDests.filter p.slot).toFinset
      ((live ∪ b.phiDests.toFinset).filter fun o ↦ p.slot o = true))

/-- Walk block `i` once more; whether something changed. -/
def visit (s : LiveIn × Bool) (i : ℕ) : LiveIn × Bool :=
  match f.blocks[i]? with
  | none => s
  | some b =>
    let live := (walk p s.1 b).1
    if live ≠ s.1.at i then (s.1.set i live, true) else s

/-- All blocks once, the last one first. -/
def round (L : LiveIn) : LiveIn × Bool := (List.range f.blocks.length).reverse.foldl (visit p) (L, false)

/-- The live values at the block starts, within `fuel` rounds. -/
def liveness (fuel : ℕ) : Option LiveIn :=
  repeatUntil (round p) fuel (List.replicate f.blocks.length ∅)

/-- A φ against what its incoming edges keep live. -/
def phiEdges (L : LiveIn) (i : MirInst) : Finset (ValueId × ValueId) :=
  if p.slot i.dest then
    ((phiArgs i).map Prod.fst).toFinset.biUnion fun pred ↦
      (f.blocks[pred]?).elim ∅ fun b ↦ pairs {i.dest} (liveOut p L b)
  else ∅

def edges (L : LiveIn) : Finset (ValueId × ValueId) :=
  (f.blocks.toFinset.biUnion fun b ↦ (walk p L b).2) ∪
    f.blocks.toFinset.biUnion fun b ↦ b.headPhis.toFinset.biUnion (phiEdges p L)

/-- The values below `n` that an edge joins to `v`. -/
def neighbours (n : ℕ) (edges : Finset (ValueId × ValueId)) (v : ValueId) : Finset ValueId :=
  ((edges.filter fun e ↦ e.1 = v ∧ e.2 < n).image Prod.snd) ∪
    ((edges.filter fun e ↦ e.2 = v ∧ e.1 < n).image Prod.fst)

/-- Which slotted values are live at the same time, as an adjacency list by value. -/
def interference (fuel : ℕ) : Option (List (Finset ValueId)) :=
  (liveness p fuel).map fun L ↦
    (List.range f.types.length).map (neighbours f.types.length (edges p L))

end Walk

/-! ### Execution paths -/

section Paths

variable {f : Func} (p : Slots f)

/-- Where control goes from a block, and the payload bound on the way. -/
inductive Exit : Terminator → List ValueId → BlockId → Prop
  | jump {d : BlockId} : Exit (.jump d) [] d
  | branch {c : ValueId} {t n d : BlockId} : d = t ∨ d = n → Exit (.br c t n) [] d
  | hit {s : ValueId} {tag : ℕ} {payloads : List ValueId} {t n : BlockId} :
    Exit (.jumpIfMatch s tag payloads t n) payloads t
  | miss {s : ValueId} {tag : ℕ} {payloads : List ValueId} {t n : BlockId} :
    Exit (.jumpIfMatch s tag payloads t n) [] n

/-- The φs of `c` are copied on the edge from `pred`, all at once. -/
def phiAccess (pred : BlockId) (c : Block) : Access ValueId := ⟨phiReads p pred c, c.phiDests.filter p.slot⟩

/-- Every φ of `c` has an incoming for `pred`. -/
def HasIncomings (pred : BlockId) (c : Block) : Prop := ∀ i ∈ c.headPhis, pred ∈ (phiArgs i).map Prod.fst

/-- What an execution path reads and writes from the body of block `i` to the end of some block. -/
inductive Path : BlockId → List (Access ValueId) → Prop
  | last {i : BlockId} {b : Block} : f.blocks[i]? = some b →
    Path i (body p b ++ [⟨b.term.elim [] (termReads p), []⟩])
  | step {i s : BlockId} {b c : Block} {term : Terminator} {bound : List ValueId}
    {t : List (Access ValueId)} : f.blocks[i]? = some b → b.term = some term → Exit term bound s →
    f.blocks[s]? = some c → HasIncomings i c → Path s t →
    Path i (body p b ++ ⟨termReads p term, bound.filter p.slot⟩ :: phiAccess p i c :: t)

/-- No path reads the payload of a match after missing it, unless it is bound anew. -/
def PayloadsBound : Prop :=
  ∀ i b s tag payloads taken notTaken c t, f.blocks[i]? = some b →
    b.term = some (.jumpIfMatch s tag payloads taken notTaken) → f.blocks[notTaken]? = some c →
    HasIncomings i c → Path p notTaken t → ∀ v ∈ payloads, p.slot v = true →
      ¬ Live v (phiAccess p i c :: t)

end Paths

end CoilLang.Mir.Interference
