import CoilLang.Common.Opcode

/-!
# Stack IL

The ops the back end links, shakes and lowers. A label is a mark between ops: it takes no word of the
bytecode, and jumps and entries name it by its id, a `u32` of the source. Every other op emits code. Source
locations are left out.
-/

namespace CoilLang.Il

/-- Lowering annotation of a jump. -/
structure FuseHint where
  nofuse : Bool := false
  deriving DecidableEq

inductive IlJumpKind
  | unconditional
  | jumpIfFalse
  | jumpIfTrue
  | jumpIfMatch (tag arity : UInt32)
  deriving DecidableEq

inductive EntryKind
  | call
  | tailCall
  | makeCoro
  | codePtr
  | makePolyFn
  deriving DecidableEq

/-- One IL instruction. `byte` is the escape hatch for words without a variant of their own. -/
inductive IlOp
  | byte (byte : Byte)
  | load (slot : UInt32)
  | storePop (slot : UInt32)
  | const (imm : Int32)
  | constPool (idx : UInt32)
  | string (idx : UInt32)
  | dup
  | pop
  | logNot
  | index
  | indexUnchecked
  | arrayPin (slot : UInt32)
  | makeTuple (arity : UInt32) (kinds : UInt8)
  | makeArray (arity : UInt32) (elemKind : UInt8)
  | makeEnum (tag arity : UInt16) (kinds : UInt8)
  | boxValue (tag : UInt32)
  | unboxValue (tag : UInt32)
  | loadField (index : UInt32)
  | getField
  | setField (index : Option UInt32)
  | hostInvoke (arity : UInt32) (layout : UInt8)
  | print
  | return (retWords : UInt32)
  | halt
  | bin (op : Instruction)
  | binSlotImm (op slot : UInt8) (imm : Int16)
  | binSlotSlot (op a b : UInt8)
  | loadReturnSlot (slot : UInt32)
  | constReturnImm (imm : UInt32)
  | binReturn (op : Instruction)
  | label (id : ℕ)
  | jump (kind : IlJumpKind) (target : ℕ) (hint : FuseHint)
  | entry (kind : EntryKind) (arity : UInt32) (target : ℕ) (retWords : UInt32)
  | prologueJmp
  deriving DecidableEq

namespace IlOp

def bindLabel : IlOp → Option ℕ
  | .label id => some id
  | _ => none

def emitsCode : IlOp → Bool
  | .label _ => false
  | _ => true

/-- The label a jump or an entry names. -/
def target? : IlOp → Option ℕ
  | .jump _ t _ => some t
  | .entry _ _ t _ => some t
  | _ => none

def isJump : IlOp → Bool
  | .jump .. => true
  | _ => false

theorem emitsCode_of_target? {op : IlOp} {t : ℕ} (h : op.target? = some t) : op.emitsCode = true := by
  cases op <;> first | rfl | cases h

end IlOp

end CoilLang.Il
