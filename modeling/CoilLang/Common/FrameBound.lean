import CoilLang.Common.Verify

/-!
# The frame reserve

How far one frame can raise the cursor of the operand stack. Every word is given the most words it leaves
above the cursor it starts at and the highest slot it names (`counts`). The words of one frame, as
`Verify.roots` tells them apart, add up to a `Bound`: the **sum of the pushes** above the **highest slot**.
`frameReserve` is the largest bound of a frame, or that of the whole program when a branch cannot be decoded,
and the widest arity of a call. A `LOAD` or `STORE` of more than three slots makes it panic.
-/

namespace CoilLang

/-! ### Fields of an operand -/

namespace Byte

variable (b : Byte)

/-- Bits 16 to 23. -/
def field16 : ℕ := b.operandU32 >>> 16 &&& 0xFF

/-- Bits 8 to 15. -/
def field8 : ℕ := b.operandU32 >>> 8 &&& 0xFF

/-- Bits 0 to 7. -/
def field0 : ℕ := b.operandU32 &&& 0xFF

/-- How many slots a `LOAD` or `STORE` names. -/
def loadStoreCount : ℕ := if b.inner = 0 then 1 else b.inner

/-- Slot `i` of a `LOAD` or `STORE`, unless there is none in the word. -/
def loadStoreSlotAt (i : ℕ) : Option ℕ :=
  if b.inner = 0 then some (b.operandU32 &&& 0xFFFFFF)
  else
    match i with
    | 0 => some b.field0
    | 1 => some b.field8
    | 2 => some b.field16
    | _ => none

def incDecParts : ℕ × Bool × Bool :=
  (b.operandU32 >>> 3, b.operandU32 &&& 0b100 ≠ 0, b.operandU32 &&& 0b010 ≠ 0)

def binSlotImmParts : ℕ × ℕ × ℤ := (b.inner, b.field16, (BitVec.ofNat 16 b.operandU32).toInt)

def binSlotSlotParts : ℕ × ℕ × ℕ := (b.inner, b.field16, b.field8)

def binSlotImmStoreParts : ℕ × ℕ × ℕ := (b.inner, b.field16, b.low16)

def binSlotSlotStoreParts : ℕ × ℕ × ℕ × ℕ := (b.inner, b.field16, b.field8, b.field0)

def binSlotImmJmpfParts : ℕ × ℕ × ℕ := (b.inner, b.field16, b.low16)

def binSlotSlotJmpfParts : ℕ × ℕ × ℕ := (b.inner, b.field16, b.low16)

def binSlotSlotConstJmpfParts : ℕ × ℕ × ℕ := (b.inner, b.field16, b.low16)

def denseAbcParts : ℕ × ℕ × ℕ × ℕ := (b.denseKind, b.field16, b.field8, b.field0)

def denseMoveParts : ℕ × ℕ := (b.field8, b.field0)

def denseUnaryParts : ℕ × ℕ × ℕ := (b.denseKind, b.field8, b.field0)

/-- Kind, destination, immediate and whether it is a pool index. -/
def denseConstParts : ℕ × ℕ × ℕ × Bool := (b.denseKind &&& 0x7F, b.field16, b.low16, b.poolFlag)

/-- Kind, destination, arity, base and tag, the last three from the pool. -/
def denseMakeKParts (pool : List UInt64) : Option (ℕ × ℕ × ℕ × ℕ × ℕ) :=
  (pool[b.low16]?).map fun entry ↦
    (b.denseKind, b.field16, entry.toNat >>> 8 &&& 0xFF, entry.toNat &&& 0xFF, entry.toNat >>> 16 &&& 0xFF)

/-- Destination, flags, native, base and arity, the last three from the pool. -/
def denseHostCallParts (pool : List UInt64) : Option (ℕ × ℕ × ℕ × ℕ × ℕ) :=
  (pool[b.low16]?).map fun entry ↦
    (b.denseKind, b.operandU32 >>> 16 &&& 0x3, entry.toNat &&& 0xFFFF, entry.toNat >>> 16 &&& 0xFF,
      entry.toNat >>> 24 &&& 0xFF)

/-- Destination, arity and layout of a dense object. -/
def unpackMakeObject : ℕ × ℕ × ℕ := (b.denseKind, b.field16, b.low16)

def makeArity : ℕ :=
  match b.bytecode with
  | .makeEnumK | .makeEnumReturnK | .makeTupleK => b.field0
  | _ => b.low16

end Byte

namespace FrameBound

/-! ### Counts of a word -/

/-- One more than the highest of some slots. -/
def hi (slots : List ℕ) : ℕ := slots.max?.elim 0 (· + 1)

/-- The slots a `LOAD` or `STORE` names. -/
def loadStoreSlots (b : Byte) : Option (List ℕ) := (List.range b.loadStoreCount).mapM b.loadStoreSlotAt

/-- The low byte of a descriptor: the second slot of a comparison. -/
def descSlot (entry : Option UInt64) : ℕ := entry.elim 0 fun v ↦ v.toNat &&& 0xFF

/-- The highest of the destination and `arity` slots from `base` on. -/
def window (dest base arity : ℕ) : ℕ := hi [dest, base + max arity 1 - 1]

/-- Most words a word leaves above the cursor it started at, and the highest slot it names, plus one. -/
def counts (b : Byte) (pool : List UInt64) (matchPayload : ℕ) : Option (ℕ × ℕ) :=
  match b.bytecode with
  | .loadReturnSlot => some (0, hi [b.operandU32])
  | .tailCall => some (0, hi [b.callParts.1])
  | .binSlotImmJmpf | .binSlotImmJmpt => some (0, hi [b.binSlotImmJmpfParts.2.1])
  | .binSlotSlotJmpf | .binSlotSlotJmpt =>
    some (0, hi [b.binSlotSlotJmpfParts.2.1, descSlot pool[b.binSlotSlotJmpfParts.2.2]?])
  | .binSlotSlotConstJmpt =>
    some (0, hi [b.binSlotSlotConstJmpfParts.2.1, descSlot pool[b.binSlotSlotConstJmpfParts.2.2]?])
  -- The hit edge pops the scrutinee and pushes its payload.
  | .jumpIfMatch => some (matchPayload, 0)
  -- The caller keeps the result of a call.
  | .call | .callIndirect => some (2, 0)
  | .makeCoro | .resumeCoro | .yieldFromCoro => some (1, 0)
  | .load => (loadStoreSlots b).map fun slots ↦ (b.loadStoreCount, hi slots)
  | .store | .storePop => (loadStoreSlots b).map fun slots ↦ (0, hi slots)
  | .seek => some (0, b.operandU32)
  | .inc | .dec => some (1, hi [b.incDecParts.1])
  | .binSlotImm => some (1, hi [b.binSlotImmParts.2.1])
  | .binSlotSlot => some (1, hi [b.binSlotSlotParts.2.1, b.binSlotSlotParts.2.2])
  | .binSlotImmStore =>
    some (0, hi [b.binSlotImmStoreParts.2.1, (pool[b.binSlotImmStoreParts.2.2]?).elim 0 descTarget])
  | .binSlotSlotStore =>
    some (0, hi [b.binSlotSlotStoreParts.2.1, b.binSlotSlotStoreParts.2.2.1, b.binSlotSlotStoreParts.2.2.2])
  | .unpackAt => some (0, (b.operandU32 &&& 0xFFFF) + b.operandU32 >>> 16)
  | .unpack => some (b.operandU32, 0)
  | .arrayPin | .indexPin | .indexPinUnchecked | .storeIndexPin | .storeIndexPinUnchecked =>
    some (0, hi [b.operandU32])
  | .denseBin | .denseBin2 | .denseBinJmpf | .denseCmp | .denseIndex | .denseIndexJmpf | .denseStoreIndex
  | .denseFieldLoad | .denseFieldStore | .denseArrayPush =>
    some (0, hi [b.denseAbcParts.2.1, b.denseAbcParts.2.2.1, b.denseAbcParts.2.2.2])
  | .denseMake => some (0, window b.denseAbcParts.2.1 b.denseAbcParts.2.2.2 b.denseAbcParts.2.2.1)
  | .denseMakeK =>
    some (0, (b.denseMakeKParts pool).elim 0 fun p ↦ window p.2.1 p.2.2.2.1 p.2.2.1)
  | .denseMakeObject => some (0, hi [b.unpackMakeObject.1])
  | .denseHostCall =>
    some (0, (b.denseHostCallParts pool).elim 0 fun p ↦ window p.1 p.2.2.2.1 p.2.2.2.2)
  | .denseConst => some (0, hi [b.denseConstParts.2.1])
  | .denseMove | .denseArrayLen => some (0, hi [b.denseMoveParts.1, b.denseMoveParts.2])
  | .denseUnary | .denseCast => some (0, hi [b.denseUnaryParts.2.1, b.denseUnaryParts.2.2])
  | .densePush => some (b.denseMoveParts.1, b.denseMoveParts.2 + b.denseMoveParts.1)
  | .vLoad | .vStore => some (0, hi [b.denseAbcParts.2.2.1, b.denseAbcParts.2.2.2])
  | .vBin => some (0, hi [b.denseAbcParts.2.2.1])
  | .vReduce => some (0, hi [b.denseAbcParts.2.1])
  | .vMask => some (0, hi [b.denseMoveParts.1])
  | .vScan | .vLoop => some (0, hi [b.denseAbcParts.2.1, b.denseAbcParts.2.2.1, b.denseAbcParts.2.2.2])
  -- One new word at most (pops, if any, come first).
  | .duplicate | .const | .string | .codePtr | .init | .initTyped | .makeEnum | .makeEnumK | .makeTuple
  | .makeTupleK | .makeArray | .makeArrayK | .makeDict | .makePolyFn | .makePolyFnCapture | .makeFn
  | .loadStatic | .ffiLoad | .ffiInvoke | .declareFFI | .hostInvoke => some (1, 0)
  -- Leaves the frame, jumps, pops or works in place.
  | _ => some (0, 0)

/-- What one word does: to the program counter, and at most to the cursor. -/
structure Step extends Verify.Step where
  push : ℕ
  slots : ℕ

def step (b : Byte) (pool : List UInt64) (matchPayload : ℕ) : Option Step :=
  (counts b pool matchPayload).map fun c ↦ ⟨Verify.step b pool, c.1, c.2⟩

/-! ### Bounds -/

def u64Max : ℕ := 2 ^ 64 - 1

def saturatingAdd (a b : ℕ) : ℕ := min (a + b) u64Max

/-- The pushes of some words in sum, and their highest slot. -/
structure Bound where
  push : ℕ := 0
  slots : ℕ := 0

def Bound.add (t : Bound) (s : Step) : Bound := ⟨saturatingAdd t.push s.push, max t.slots s.slots⟩

def Bound.words (t : Bound) : ℕ := saturatingAdd t.push t.slots

/-- The greatest of some numbers, 0 for none. -/
def maxOr0 (xs : List ℕ) : ℕ := xs.max?.getD 0

def wholeProgram (steps : List Step) : ℕ := (steps.foldl Bound.add {}).words

/-- Each word added to the bound of its root. -/
def perRoot (steps : List Step) (roots : List ℕ) : List Bound :=
  (steps.zip roots).foldl (fun bounds p ↦ bounds.modify p.2 (·.add p.1)) (List.replicate steps.length {})

def frameWords (steps : List Step) : ℕ :=
  match Verify.roots (steps.map Step.toStep) with
  | some roots => maxOr0 ((perRoot steps roots).map Bound.words)
  | none => wholeProgram steps

/-- Host natives build `Option` and `Result` payloads of one word. -/
def hostPayload : ℕ := 2

/-- The first dense kind that makes an enum. -/
def makeEnumKind : ℕ := 2

/-- The payload width of the enum a word makes, if it makes one. -/
def payloadWidth (pool : List UInt64) (b : Byte) : Option ℕ :=
  match b.bytecode with
  | .makeEnum | .makeEnumReturn | .makeEnumK | .makeEnumReturnK => some b.makeArity
  | .denseMake => if makeEnumKind ≤ b.denseAbcParts.1 then some b.denseAbcParts.2.2.1 else none
  | .denseMakeK => ((b.denseMakeKParts pool).filter fun p ↦ makeEnumKind ≤ p.1).map (·.2.2.1)
  | _ => none

def widestPayload (code : List Byte) (pool : List UInt64) : ℕ :=
  max (maxOr0 (code.filterMap (payloadWidth pool))) hostPayload

/-- `CALL` and `TailCall`. -/
def isCall (i : Instruction) : Bool :=
  match i with
  | .call | .tailCall => true
  | _ => false

/-- The widest arity of a call. -/
def widestArity (code : List Byte) : ℕ :=
  maxOr0 ((code.filter fun b ↦ isCall b.bytecode).map (·.callParts.1))

/-- What the machine keeps free for the frames of one program. -/
structure FrameReserve where
  words : ℕ
  matchPayload : ℕ
  deriving DecidableEq

/-- The reserve for every frame the code can run, unless a word panics. -/
def frameReserve (code : List Byte) (pool : List UInt64) : Option FrameReserve :=
  let matchPayload := widestPayload code pool
  (code.mapM fun b ↦ step b pool matchPayload).map fun steps ↦
    ⟨max (saturatingAdd (frameWords steps) (widestArity code)) 1, matchPayload⟩

end FrameBound

end CoilLang
