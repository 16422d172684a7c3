import CoilLang.Common.Verify

/-!
# Control flow of the machine

The part of the interpreter that moves the program counter and the call frames. What a word does to the
operand stack is left open: a conditional jump may go either way, and an indirect call may find any function
the program can hold. **Every run of the machine is a run here**, so what holds of all runs here holds of
the machine.

The code reads jump targets out of operands and pool entries itself (`jumpTarget`), apart from the verifier.
Coroutines, tasks, unwinding and the host move whole frames and leave their counters alone (`park`,
`resume`, `discard`, `host`).
-/

namespace CoilLang.Machine.Control

open Verify (VerifyLimits)
open SnapshotCodec (Slice)

/-- A loaded program. -/
structure Image where
  code : List Byte
  constants : Slice
  limits : VerifyLimits

/-! ### Decoding -/

/-- Where a taken jump goes. -/
def jumpTarget (pool : List UInt64) (b : Byte) : Option ℕ :=
  match b.bytecode with
  | .jmp | .jmpf | .jmpt => some b.operandU32
  | .cmpJmpf | .cmpJmpt | .logNotJmpf | .logNotJmpt =>
    if b.jmpfIsPool then (pool[b.jmpfTarget]?).map UInt64.toNat else some b.jmpfTarget
  | .binSlotImmJmpf | .binSlotImmJmpt | .binSlotSlotJmpf | .binSlotSlotJmpt =>
    (pool[b.low16]?).map descTarget
  | .jumpIfMatch => (pool[b.low16]?).map UInt64.toNat
  | _ => none

/-- The pool indices the word reads without a test. -/
def poolReads (b : Byte) : List ℕ :=
  match b.bytecode with
  | .const => if b.poolFlag then [b.constIndex] else []
  | .denseConst => if b.poolFlag then [b.low16] else []
  | .cmpJmpf | .cmpJmpt | .logNotJmpf | .logNotJmpt => if b.jmpfIsPool then [b.jmpfTarget] else []
  | .binSlotImmJmpf | .binSlotImmJmpt | .binSlotSlotJmpf | .binSlotSlotJmpt | .jumpIfMatch
  | .binSlotImmStore | .denseMakeK | .denseHostCall => [b.low16]
  | _ => []

/-- The string the word loads. -/
def stringReads (b : Byte) : List ℕ :=
  match b.bytecode with
  | .string => [b.operandU32]
  | _ => []

/-- The static slots the word reads or writes. -/
def staticUses (constants : Slice) (b : Byte) : List ℕ :=
  match b.bytecode with
  | .loadStatic | .storeStatic => [b.operandU32]
  | .restoreSnapshot =>
    match (Verify.suffix constants b.operandU32).map SnapshotCodec.decode with
    | some (.ok s) => s.statics.map fun w ↦ w.1.toNat
    | _ => []
  | _ => []

/-- How many words the instruction occupies with its tail or body. -/
def width (b : Byte) : ℕ :=
  match b.bytecode with
  | .denseBin2 | .denseBinJmpf | .denseIndexJmpf => 2
  | .vScan => 1 + (b.denseKind &&& 0x3F)
  | .vLoop => 1 + (b.denseKind &&& 0x7F)
  | _ => 1

/-- Instructions after which the next one is run, unless a jump is taken. -/
def continues : CoilLang.Instruction → Bool
  | .halt | .return | .loadReturnSlot | .constReturnImm | .binReturn | .returnPair | .makeEnumReturn
  | .makeEnumReturnK | .tailCall | .panic | .set | .optionNicheToHeap | .heapOptionToNiche
  | .pairJumpIfTag | .pairToHeap | .heapToPair | .hostInvokeNiche | .floatChainStore
  | .binSlotSlotConstJmpf | .jmp | .call => false
  | _ => true

/-- The jumps that may stand behind `DenseBinJmpf` and `DenseIndexJmpf`. -/
def isTailJump : CoilLang.Instruction → Bool
  | .binSlotSlotJmpf | .binSlotSlotJmpt | .binSlotImmJmpf | .binSlotImmJmpt => true
  | _ => false

/-- How many words a return leaves. -/
def returned (b : Byte) : Option ℕ :=
  match b.bytecode with
  | .return => some (if 2 ≤ b.returnWords then 2 else 1)
  | .loadReturnSlot | .constReturnImm | .binReturn | .makeEnumReturn | .makeEnumReturnK => some 1
  | _ => none

/-- A callee that begins with `if arg ? imm { return k }`: the return it would jump to. -/
def unaryBase (img : Image) (target : ℕ) : Option Byte := do
  let entry ← img.code[target]?
  if (entry.bytecode = .binSlotImmJmpt ∨ entry.bytecode = .binSlotImmJmpf) ∧
      entry.operandU32 >>> 16 &&& 0xFF = 0 then
    let packed ← img.constants.words[entry.low16]?
    let ret ← img.code[descTarget packed]?
    if ret.bytecode = .constReturnImm then some ret else none
  else none

/-! ### Frames -/

/-- A call frame: code with the counter it is at or resumes at and, if a `CALL` opened it, the words that
`CALL` expects; or the arguments left over for the result of the function above. -/
inductive Frame
  | code (ip : ℕ) (want : Option ℕ)
  | stub
  deriving DecidableEq

/-- The frames, innermost first, and those set aside by coroutines and tasks. -/
structure State where
  frames : List Frame
  parked : List (List Frame)

/-- What a step does that the outside can see. -/
inductive Event
  | silent
  | jump (t : ℕ)
  | call (t : ℕ)
  | returned (want words : ℕ)
  deriving DecidableEq

/-- The event of a return. -/
def returnEvent : Option ℕ → ℕ → Event
  | some want, words => .returned want words
  | none, _ => .silent

/-- An offset an indirect call may enter: one inside the code, or one that the program holds in a function
object or the host in its tables. -/
def Enters (img : Image) (offsets : ℕ → Prop) (t : ℕ) : Prop := t < img.code.length ∨ offsets t

section Step

variable (img : Image) (offsets : ℕ → Prop)

inductive Step : State → Event → State → Prop
  | next {pc want rest parked b} : img.code[pc]? = some b → continues b.bytecode = true →
    Step ⟨.code pc want :: rest, parked⟩ .silent ⟨.code (pc + width b) want :: rest, parked⟩
  | jump {pc want rest parked b t} : img.code[pc]? = some b →
    jumpTarget img.constants.words b = some t →
    Step ⟨.code pc want :: rest, parked⟩ (.jump t) ⟨.code t want :: rest, parked⟩
  /-- The jump behind a dense word. -/
  | tailJump {pc want rest parked b u t} : img.code[pc]? = some b →
    b.bytecode = .denseBinJmpf ∨ b.bytecode = .denseIndexJmpf → img.code[pc + 1]? = some u →
    isTailJump u.bytecode = true → jumpTarget img.constants.words u = some t →
    Step ⟨.code pc want :: rest, parked⟩ (.jump t) ⟨.code t want :: rest, parked⟩
  /-- A match that fails runs the `Unpack` behind it as well. -/
  | unpack {pc want rest parked b u} : img.code[pc]? = some b → b.bytecode = .jumpIfMatch →
    img.code[pc + 1]? = some u → u.bytecode = .unpack →
    Step ⟨.code pc want :: rest, parked⟩ .silent ⟨.code (pc + 2) want :: rest, parked⟩
  | call {pc want rest parked b} : img.code[pc]? = some b → b.bytecode = .call →
    b.callParts.2 ≠ 0 →
    Step ⟨.code pc want :: rest, parked⟩ (.call b.callParts.2)
      ⟨.code b.callParts.2 (some b.callRetWords) :: .code (pc + 1) want :: rest, parked⟩
  /-- Without a target the frame opens on the next word. -/
  | callNext {pc want rest parked b} : img.code[pc]? = some b → b.bytecode = .call →
    b.callParts.2 = 0 →
    Step ⟨.code pc want :: rest, parked⟩ .silent
      ⟨.code (pc + 1) (some b.callRetWords) :: .code (pc + 2) want :: rest, parked⟩
  /-- A base case that returns without a frame. -/
  | callBase {pc want rest parked b r} : img.code[pc]? = some b → b.bytecode = .call →
    b.callParts.1 = 1 → b.callParts.2 ≠ 0 → unaryBase img b.callParts.2 = some r →
    Step ⟨.code pc want :: rest, parked⟩ (.returned b.callRetWords 1)
      ⟨.code (pc + 1) want :: rest, parked⟩
  /-- The finalizer of an object that is finalized already is not run; a zero stands for its result. -/
  | callFinalized {pc want rest parked b} : img.code[pc]? = some b → b.bytecode = .call →
    b.callParts.1 = 1 →
    Step ⟨.code pc want :: rest, parked⟩ .silent ⟨.code (pc + 1) want :: rest, parked⟩
  | tailCall {pc want rest parked b} : img.code[pc]? = some b → b.bytecode = .tailCall →
    Step ⟨.code pc want :: rest, parked⟩ (.call b.callParts.2)
      ⟨.code b.callParts.2 want :: rest, parked⟩
  | callIndirect {pc want rest parked b t} : img.code[pc]? = some b → b.bytecode = .callIndirect →
    Enters img offsets t →
    Step ⟨.code pc want :: rest, parked⟩ (.call t)
      ⟨.code t none :: .code (pc + 1) want :: rest, parked⟩
  /-- More arguments than the function takes wait in a stub for its result. -/
  | callOver {pc want rest parked b t} : img.code[pc]? = some b → b.bytecode = .callIndirect →
    Enters img offsets t →
    Step ⟨.code pc want :: rest, parked⟩ (.call t)
      ⟨.code t none :: .stub :: .code (pc + 1) want :: rest, parked⟩
  /-- The result of an over-applied call is called, or keeps the arguments as a partial application. -/
  | overCall {rest parked t} : Enters img offsets t →
    Step ⟨.stub :: rest, parked⟩ (.call t) ⟨.code t none :: rest, parked⟩
  | overOver {rest parked t} : Enters img offsets t →
    Step ⟨.stub :: rest, parked⟩ (.call t) ⟨.code t none :: .stub :: rest, parked⟩
  | overPartial {rest parked} : Step ⟨.stub :: rest, parked⟩ .silent ⟨rest, parked⟩
  | ret {pc want rest parked b words} : img.code[pc]? = some b → returned b = some words →
    Step ⟨.code pc want :: rest, parked⟩ (returnEvent want words) ⟨rest, parked⟩
  | makeCoro {pc want rest parked b} : img.code[pc]? = some b → b.bytecode = .makeCoro →
    Step ⟨.code pc want :: rest, parked⟩ .silent
      ⟨.code (pc + 1) want :: rest, [.code b.callParts.2 none] :: parked⟩
  | park {seg rest parked} : Step ⟨seg ++ rest, parked⟩ .silent ⟨rest, seg :: parked⟩
  | resume {frames before seg after} :
    Step ⟨frames, before ++ seg :: after⟩ .silent ⟨seg ++ frames, before ++ after⟩
  | discard {seg rest parked} : Step ⟨seg ++ rest, parked⟩ .silent ⟨rest, parked⟩
  | host {frames parked t} : Enters img offsets t →
    Step ⟨frames, parked⟩ .silent ⟨.code t none :: frames, parked⟩

/-- The states a run from `s` passes through. -/
inductive Run : State → State → Prop
  | refl {s} : Run s s
  | tail {s s' s'' e} : Run s s' → Step img offsets s' e s'' → Run s s''

end Step

/-- Execution starts in one frame that no call opened. -/
def start (entry : ℕ) : State := ⟨[.code entry none], []⟩

end CoilLang.Machine.Control
