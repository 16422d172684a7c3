import Mathlib.Data.Nat.Notation

/-!
# Instructions and encoded words

The instruction set in the order of its discriminants, and a word of bytecode: an instruction with one
32-bit operand. The fields of an operand are read by shifts and masks, as the machine and the verifier read
them.
-/

namespace CoilLang

inductive Instruction
  | halt | noop | duplicate | pop | const | store | load | call | return | jmp | jmpt | jmpf | string | data
  | inc | dec | add | sub | mul | div | mod | addf | subf | mulf | divf | modf | not | neg | and | or | shl
  | shr | xor | eq | neq | le | leq | lef | leqf | gt | geq | gtf | geqf | print | format | stringify
  | native | init | set | makeEnum | jumpIfMatch | unpack | loadField | storePop | unpackAt | ffiLoad
  | ffiInvoke | declareFFI | makeTuple | makeArray | index | makeDict | getField | setField | hostInvoke
  | loadReturnSlot | constReturnImm | binSlotImm | cmpJmpf | binReturn | binSlotSlot | binSlotImmJmpf
  | logNotJmpf | makeCoro | resumeCoro | yieldCoro | yieldFromCoro | pow | powF | bitand | bitor
  | storeIndex | logNot | doneCoro | arrayPush | arrayLen | callIndirect | boxValue | unboxValue
  | makePolyFn | dynAdd | dynSub | dynMul | dynDiv | dynMod | dynCmp | dynEq | dynNe | dynPrint | codePtr
  | makePolyFnCapture | panic | dictEntries | makeFn | loadStatic | storeStatic | tailCall | castIntToFloat
  | castFloatToInt | castIntToByte | castByteToInt | castIntToBool | castBoolToInt | binSlotSlotJmpf
  | binSlotImmStore | binSlotSlotStore | seek | optionNicheToHeap | heapOptionToNiche | pairJumpIfTag
  | pairToHeap | heapToPair | returnPair | hostInvokeNiche | floatChainStore | binSlotSlotConstJmpf | negf
  | initTyped | cmpJmpt | binSlotImmJmpt | logNotJmpt | binSlotSlotJmpt | binSlotSlotConstJmpt
  | indexUnchecked | storeIndexUnchecked | arrayPin | indexPin | indexPinUnchecked | storeIndexPin
  | storeIndexPinUnchecked | denseBin | denseCmp | denseConst | denseMove | denseUnary | denseCast | vLoad
  | vStore | vBin | vMove | vReduce | vFma | denseIndex | denseStoreIndex | denseArrayLen | denseMake
  | densePush | denseArrayPush | denseFieldLoad | denseFieldStore | denseMakeObject | denseBin2
  | denseBinJmpf | denseIndexJmpf | makeEnumReturn | tagEnumType | makeEnumK | makeEnumReturnK | makeTupleK
  | denseMakeK | tagArrayKind | makeArrayK | eqf | neqf | restoreSnapshot | vMask | vScan | vLoop
  | freeEarly | cow | ieq | ineq | denseHostCall
  deriving DecidableEq

/-- The last discriminant. -/
def Instruction.last : ℕ := 182

/-- An encoded word. -/
structure Byte where
  bytecode : Instruction
  operand : UInt32 := 0
  deriving DecidableEq

namespace Byte

variable (b : Byte)

/-- The operand as a number. -/
def operandU32 : ℕ := b.operand.toNat

/-- Whether bit 31 is set: a pool index in `CONST` and in `DenseConst`. -/
def poolFlag : Bool := b.operandU32 >>> 31 &&& 1 ≠ 0

/-- A `CONST` operand without the flag. -/
def constIndex : ℕ := b.operandU32 &&& 0x7FFFFFFF

def low16 : ℕ := b.operandU32 &&& 0xFFFF

/-- Arity and target of `CALL`, `TailCall` and `MakeCoro`. -/
def callParts : ℕ × ℕ := (b.operandU32 >>> 24 &&& 0x7F, b.operandU32 &&& 0xFFFFFF)

/-- Two words `[payload, tag]` or one. -/
def callRetWords : ℕ := if b.operandU32 >>> 31 &&& 1 ≠ 0 then 2 else 1

def returnWords : ℕ := if 2 ≤ b.operandU32 then 2 else 1

/-- The high byte: the inner instruction of a fused word. -/
def inner : ℕ := b.operandU32 >>> 24

/-- The target field of `CmpJmpf` and `LogNotJmpf`, a pc or a pool index. -/
def jmpfTarget : ℕ := b.operandU32 &&& 0xFFFF

/-- Bit 16: the target field is a pool index. -/
def jmpfIsPool : Bool := b.operandU32 >>> 16 &&& 1 ≠ 0

/-- The high byte of a dense word. -/
def denseKind : ℕ := b.operandU32 >>> 24

end Byte

/-- The jump target in the high half of a descriptor. -/
def descTarget (desc : UInt64) : ℕ := desc.toNat >>> 32

end CoilLang
