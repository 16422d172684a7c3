import CoilLang.Common.Opcode
import CoilLang.Common.SnapshotCodec
import CoilLang.Lib.Loop
import CoilLang.Lib.UnionFind

/-!
# Load-time verification

`verifyBytecode` checks every operand the machine trusts without a test: retired instructions, targets of
jumps and calls, pool, string and static indices, and the inner instruction of a fused word. `verifyCalls`
then checks the **return widths** of direct calls. It splits the code into frames, linked by fall-through and
jumps (`frameRoots`), collects for each frame the widths its returns leave, lets widths flow back over tail
calls until nothing changes, and compares them with what each call expects.
-/

namespace CoilLang.Verify

open SnapshotCodec (Slice Stop SnapshotDecodeError HeapSnapshot)

/-! ### Frames -/

/-- Where a word may branch. -/
inductive Jump
  | none
  | «to» (t : ℕ)
  /-- The target cannot be decoded. -/
  | unknown
  deriving DecidableEq

/-- What a word does with the program counter. -/
structure Step where
  jump : Jump := .none
  falls : Bool := true

/-- A target in the high half of a pool entry. -/
def poolTarget (entry : Option UInt64) : Jump :=
  match entry with
  | some v => .to (descTarget v)
  | none => .unknown

/-- A target that is a pc or, with `isPool`, a pool entry. -/
def directOrPool (pool : List UInt64) (t : ℕ) (isPool : Bool) : Jump :=
  if isPool then
    match pool[t]? with
    | some v => .to v.toNat
    | none => .unknown
  else .to t

def step (b : Byte) (pool : List UInt64) : Step :=
  match b.bytecode with
  -- These leave the frame, or stop the machine.
  | .halt | .return | .loadReturnSlot | .constReturnImm | .binReturn | .returnPair | .makeEnumReturn
  | .makeEnumReturnK | .tailCall | .panic | .set | .optionNicheToHeap | .heapOptionToNiche | .pairJumpIfTag
  | .pairToHeap | .heapToPair | .hostInvokeNiche | .floatChainStore | .binSlotSlotConstJmpf =>
    ⟨.none, false⟩
  | .jmp => ⟨.to b.operandU32, false⟩
  | .jmpf | .jmpt => ⟨.to b.operandU32, true⟩
  | .cmpJmpf | .cmpJmpt => ⟨directOrPool pool b.jmpfTarget b.jmpfIsPool, true⟩
  | .logNotJmpf | .logNotJmpt => ⟨directOrPool pool b.jmpfTarget b.jmpfIsPool, true⟩
  | .binSlotImmJmpf | .binSlotImmJmpt => ⟨poolTarget pool[b.low16]?, true⟩
  | .binSlotSlotJmpf | .binSlotSlotJmpt => ⟨poolTarget pool[b.low16]?, true⟩
  | .binSlotSlotConstJmpt => ⟨poolTarget pool[b.low16]?, true⟩
  | .jumpIfMatch =>
    match pool[b.low16]? with
    | some t => ⟨.to t.toNat, true⟩
    | none => ⟨.unknown, true⟩
  | _ => ⟨.none, true⟩

/-- Link word `pc` with what it falls and jumps to. -/
def link (n pc : ℕ) (s : Step) (parent : List ℕ) : Option (List ℕ) :=
  let parent := if s.falls && pc + 1 < n then UnionFind.union parent pc (pc + 1) else parent
  match s.jump with
  | .to t => some (if t < n then UnionFind.union parent pc t else parent)
  | .none => some parent
  | .unknown => none

/-- All words from `pc` on. -/
def linkAll (n : ℕ) : ℕ → List Step → List ℕ → Option (List ℕ)
  | _, [], parent => some parent
  | pc, s :: steps, parent => (link n pc s parent).bind (linkAll n (pc + 1) steps)

/-- For each pc the lowest pc of its frame, unless a branch cannot be decoded. -/
def roots (steps : List Step) : Option (List ℕ) :=
  (linkAll steps.length 0 steps (List.range steps.length)).map fun parent ↦
    (UnionFind.allRoots parent steps.length).2

def frameRoots (code : List Byte) (pool : List UInt64) : Option (List ℕ) :=
  roots (code.map fun b ↦ step b pool)

/-! ### Operands -/

/-- Why an archive's bytecode was rejected. -/
structure BytecodeError where
  pc : ℕ
  reason : String

/-- How verification stops short: with an error, or with a panic in the snapshot decoder. -/
inductive Reject
  | panic
  | error (e : BytecodeError)

/-- Sizes of the tables the bytecode indexes. -/
structure VerifyLimits where
  strings : ℕ
  staticSlots : ℕ

/-- Instructions kept only for their discriminants. -/
def isRetired : Instruction → Bool
  | .data | .set | .optionNicheToHeap | .heapOptionToNiche | .pairJumpIfTag | .pairToHeap | .heapToPair
  | .returnPair | .hostInvokeNiche | .floatChainStore | .binSlotSlotConstJmpf => true
  | _ => false

section Checks

def fail {α : Type} (pc : ℕ) (reason : String) : Except Reject α := .error (.error ⟨pc, reason⟩)

/-- The end of the code is a legal target: it leaves the program. -/
def checkJump (len pc target : ℕ) (what : String) : Except Reject Unit :=
  if len < target then fail pc s!"{what} target {target} past end ({len})" else .ok ()

def checkEntry (len pc target : ℕ) (what : String) : Except Reject Unit :=
  if len ≤ target then fail pc s!"{what} entry {target} out of range ({len})" else .ok ()

def checkPool (pool : List UInt64) (pc idx : ℕ) (what : String) : Except Reject UInt64 :=
  match pool[idx]? with
  | some w => .ok w
  | none => fail pc s!"{what} pool index {idx} out of range ({pool.length})"

def checkInner (pc code : ℕ) (what : String) : Except Reject Unit :=
  if Instruction.last < code then fail pc s!"{what} inner opcode {code} out of range" else .ok ()

def snapshotErrorText : SnapshotDecodeError → String
  | .badMagic => "not a heap snapshot"
  | .truncated => "heap snapshot is truncated"
  | .length => "heap snapshot length does not match its contents"
  | .badObjectKind k => s!"heap snapshot has unknown object kind {k}"
  | .badRef i => s!"heap snapshot refers to missing object {i}"
  | .badUtf8 => "heap snapshot string is not UTF-8"

/-- The words of the pool from `n` on. -/
def suffix (constants : Slice) (n : ℕ) : Option Slice :=
  if n ≤ constants.words.length then
    some ⟨constants.words.drop n, by
      have := constants.length_lt
      rw [List.length_drop]
      omega⟩
  else none

def checkSnapshot (constants : Slice) (limits : VerifyLimits) (pc operand : ℕ) :
    Except Reject Unit :=
  match suffix constants operand with
  | none => fail pc s!"RestoreSnapshot at pool index {operand}: {snapshotErrorText .truncated}"
  | some words =>
    match SnapshotCodec.decode words with
    | .error .panic => .error .panic
    | .error (.error e) => fail pc s!"RestoreSnapshot at pool index {operand}: {snapshotErrorText e}"
    | .ok s =>
      match s.statics.find? fun w ↦ decide (limits.staticSlots ≤ w.1.toNat) with
      | some (slot, _) =>
        fail pc s!"RestoreSnapshot static slot {slot} out of range ({limits.staticSlots})"
      | none => .ok ()

end Checks

/-- The target of a compare-and-jump word: its field, or the pool entry the field names. -/
def jmpTarget (pool : List UInt64) (pc : ℕ) (b : Byte) (what : String) : Except Reject ℕ :=
  if b.jmpfIsPool then (checkPool pool pc b.jmpfTarget what).map UInt64.toNat else .ok b.jmpfTarget

def checkDirectOrPool (pool : List UInt64) (len pc : ℕ) (b : Byte) (what : String) :
    Except Reject Unit := do
  let target ← jmpTarget pool pc b what
  checkJump len pc target what

/-- A jump whose descriptor lies in the pool, after the check of its inner instruction. -/
def checkDesc (pool : List UInt64) (len pc : ℕ) (b : Byte) (what : String) : Except Reject Unit := do
  checkInner pc b.inner what
  let desc ← checkPool pool pc b.low16 what
  checkJump len pc (descTarget desc) what

/-- The float index of a descriptor with a constant. -/
def descFloat (desc : UInt64) : ℕ := desc.toNat >>> 16 &&& 0xFFFF

/-- The operand of one word. -/
def verifyByte (len : ℕ) (constants : Slice) (limits : VerifyLimits) (pc : ℕ) (b : Byte) :
    Except Reject Unit :=
  let pool := constants.words
  if isRetired b.bytecode then fail pc s!"retired opcode {b.bytecode.ctorIdx}"
  else
    match b.bytecode with
    | .jmp | .jmpf | .jmpt => checkJump len pc b.operandU32 "jump"
    | .call | .tailCall | .makeCoro => checkEntry len pc b.callParts.2 "call"
    | .codePtr | .makePolyFn => checkEntry len pc b.operandU32 "function"
    | .const => if b.poolFlag then (checkPool pool pc b.constIndex "CONST") *> .ok () else .ok ()
    | .denseConst => if b.poolFlag then (checkPool pool pc b.low16 "DenseConst") *> .ok () else .ok ()
    | .string =>
      if limits.strings ≤ b.operandU32 then
        fail pc s!"string index {b.operandU32} out of range ({limits.strings})"
      else .ok ()
    | .restoreSnapshot => checkSnapshot constants limits pc b.operandU32
    | .loadStatic | .storeStatic =>
      if limits.staticSlots ≤ b.operandU32 then
        fail pc s!"static slot {b.operandU32} out of range ({limits.staticSlots})"
      else .ok ()
    | .jumpIfMatch => do
      let target ← checkPool pool pc b.low16 "JumpIfMatch"
      checkJump len pc target.toNat "JumpIfMatch"
    | .binSlotImm => checkInner pc b.inner "BinSlotImm"
    | .binSlotSlot => checkInner pc b.inner "BinSlotSlot"
    | .binSlotSlotStore => checkInner pc b.inner "BinSlotSlotStore"
    | .binReturn => checkInner pc b.inner "BinReturn"
    | .cmpJmpf | .cmpJmpt => do
      checkInner pc b.inner "CmpJmp"
      checkDirectOrPool pool len pc b "CmpJmp"
    | .logNotJmpf | .logNotJmpt => checkDirectOrPool pool len pc b "LogNotJmp"
    | .binSlotImmJmpf | .binSlotImmJmpt => checkDesc pool len pc b "BinSlotImmJmp"
    | .binSlotSlotJmpf | .binSlotSlotJmpt => checkDesc pool len pc b "BinSlotSlotJmp"
    | .binSlotSlotConstJmpt => do
      let desc ← checkPool pool pc b.low16 "BinSlotSlotConstJmp"
      let _ ← checkPool pool pc (descFloat desc) "BinSlotSlotConstJmp float"
      checkJump len pc (descTarget desc) "BinSlotSlotConstJmp"
    | .binSlotImmStore => do
      checkInner pc b.inner "BinSlotImmStore"
      let _ ← checkPool pool pc b.low16 "BinSlotImmStore"
      .ok ()
    | .denseMakeK => (checkPool pool pc b.low16 "DenseMakeK") *> .ok ()
    | .denseHostCall => (checkPool pool pc b.low16 "DenseHostCall") *> .ok ()
    | _ => .ok ()

/-! ### Return widths -/

/-- How many words a return leaves, if the word is one. -/
def returnWidth (b : Byte) : Option ℕ :=
  match b.bytecode with
  | .return => some b.returnWords
  | .loadReturnSlot | .constReturnImm | .binReturn | .makeEnumReturn | .makeEnumReturnK => some 1
  | _ => none

/-- The frame of a pc. -/
def rootAt (roots : List ℕ) (pc : ℕ) : ℕ := (roots[pc]?).getD 0

/-- Bit `w` of entry `root`: some return of that frame leaves `w` words. -/
abbrev Widths := List (BitVec 8)

def Widths.at (ws : Widths) (i : ℕ) : BitVec 8 := (ws[i]?).getD 0

/-- The widths of the frames' own returns, word by word from `pc`. -/
def ownWidths (roots : List ℕ) : ℕ → List Byte → Widths → Widths
  | _, [], ws => ws
  | pc, b :: code, ws =>
    ownWidths roots (pc + 1) code <|
      match returnWidth b with
      | some words => ws.set (rootAt roots pc) (ws.at (rootAt roots pc) ||| 1#8 <<< words)
      | none => ws

/-- The frames a tail call leads from and to. Calls of pc 0 are left out. -/
def tailEdges (roots : List ℕ) : ℕ → List Byte → List (ℕ × ℕ)
  | _, [] => []
  | pc, b :: code =>
    if b.bytecode = .tailCall ∧ b.callParts.2 ≠ 0 then
      (rootAt roots pc, rootAt roots b.callParts.2) :: tailEdges roots (pc + 1) code
    else tailEdges roots (pc + 1) code

/-- One edge: a tail call returns to the caller of the frame it left. -/
def mergeEdge (s : Widths × Bool) (e : ℕ × ℕ) : Widths × Bool :=
  let merged := s.1.at e.1 ||| s.1.at e.2
  if merged ≠ s.1.at e.1 then (s.1.set e.1 merged, true) else s

/-- All edges once; whether something changed. -/
def mergeRound (tails : List (ℕ × ℕ)) (ws : Widths) : Widths × Bool :=
  tails.foldl mergeEdge (ws, false)

/-- The lowest bit that is set. -/
def trailingZeros (w : BitVec 8) : ℕ := ((List.range 8).find? fun i ↦ w.getLsbD i).getD 8

/-- The expectations of the direct calls, word by word from `pc`. -/
def checkCalls (roots : List ℕ) (ws : Widths) : ℕ → List Byte → Except Reject Unit
  | _, [] => .ok ()
  | pc, b :: code =>
    if b.bytecode ≠ .call ∨ b.callParts.2 = 0 then checkCalls roots ws (pc + 1) code
    else
      let other := ws.at (rootAt roots b.callParts.2) &&& ~~~(1#8 <<< b.callRetWords)
      if other ≠ 0 then
        fail pc (s!"call to {b.callParts.2} expects {b.callRetWords} return words, " ++
          s!"its frame returns {trailingZeros other}")
      else checkCalls roots ws (pc + 1) code

/-- Every direct call expects the width its target's frame returns. Each round that changes something
raises an entry below 256, so the rounds given suffice. -/
def verifyCalls (code : List Byte) (pool : List UInt64) : Except Reject Unit :=
  match frameRoots code pool with
  | none => .ok ()
  | some roots =>
    let ws := ownWidths roots 0 code (List.replicate code.length 0)
    match repeatUntil (mergeRound (tailEdges roots 0 code)) (255 * code.length + 1) ws with
    | some ws => checkCalls roots ws 0 code
    | none => .error .panic

/-- The words of the code, from `pc`. -/
def verifyBytes (len : ℕ) (constants : Slice) (limits : VerifyLimits) :
    ℕ → List Byte → Except Reject Unit
  | _, [] => .ok ()
  | pc, b :: code => do
    verifyByte len constants limits pc b
    verifyBytes len constants limits (pc + 1) code

/-- Check every word of `code`, then its calls. -/
def verifyBytecode (code : List Byte) (constants : Slice) (limits : VerifyLimits) :
    Except Reject Unit := do
  verifyBytes code.length constants limits 0 code
  verifyCalls code constants.words

end CoilLang.Verify
