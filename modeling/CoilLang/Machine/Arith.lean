import CoilLang.Common.IntExact

/-!
# The evaluators of the machine

The operators on `int` words are executed in several places: by the plain stack handlers, by the
fused slot instructions and by the dense kernels. Each place decodes its own opcode and then goes
through the shared arithmetic, so **on the opcode of an operator all give its outcome**
(`fused_evalBin_opcode`, `dense_evalBin_kind`).

The float opcodes and the 32-bit lanes are left out. `EQ` and `NEQ` compare values of any type and
probe the heap; on integers the compiler emits `IEQ` and `INEQ`.
-/

namespace CoilLang.Machine

/-- An ordering or equality predicate. -/
inductive Cmp
  | lt
  | le
  | gt
  | ge
  | eq
  | ne
  deriving DecidableEq, Repr

/-- The predicate on two `int` words. -/
def cmp : Cmp → Word → Word → Bool
  | .lt, a, b => a.toInt < b.toInt
  | .le, a, b => a.toInt ≤ b.toInt
  | .gt, a, b => b.toInt < a.toInt
  | .ge, a, b => b.toInt ≤ a.toInt
  | .eq, a, b => a.toInt = b.toInt
  | .ne, a, b => a.toInt ≠ b.toInt

/-- The word of a `bool`. -/
def ofBool (b : Bool) : Word := if b then 1 else 0

/-- A word read as a `bool`: its low byte is `1`. -/
def asBool (w : Word) : Bool := w.setWidth 8 = 1

def and (a b : Word) : Bool := asBool a && asBool b

def or (a b : Word) : Bool := asBool a || asBool b

/-! ### Stack and fused instructions -/

/-- The binary opcodes on words other than floats; `halt` is any opcode that is none. -/
inductive Instruction
  | add
  | sub
  | mul
  | div
  | mod
  | pow
  | bitAnd
  | bitOr
  | shl
  | shr
  | xor
  | and
  | or
  | le
  | leq
  | gt
  | geq
  | eq
  | neq
  | ieq
  | ineq
  | halt
  deriving DecidableEq, Repr

/-- What the equality of values asks of the heap. -/
structure HeapView where
  mayBeRef : Word → Bool
  valuesEq : Word → Word → Bool

def eqValues (heap : HeapView) (lhs rhs : Word) : Bool :=
  if lhs = rhs then true
  else if !heap.mayBeRef lhs || !heap.mayBeRef rhs then false
  else heap.valuesEq lhs rhs

namespace Fused

/-- A fused binary op; the plain stack handlers call it too. -/
def evalBin (heap : HeapView) (op : Instruction) (lhs rhs : Word) : IntResult :=
  match op with
  | .add => IntArith.int .add lhs rhs
  | .sub => IntArith.int .sub lhs rhs
  | .mul => IntArith.int .mul lhs rhs
  | .div => IntArith.int .div lhs rhs
  | .mod => IntArith.int .rem lhs rhs
  | .pow => IntArith.int .pow lhs rhs
  | .bitAnd => IntArith.int .bitAnd lhs rhs
  | .bitOr => IntArith.int .bitOr lhs rhs
  | .shl => IntArith.int .shl lhs rhs
  | .shr => IntArith.int .shr lhs rhs
  | .xor => IntArith.int .xor lhs rhs
  | .and => .ok (ofBool (Machine.and lhs rhs))
  | .or => .ok (ofBool (Machine.or lhs rhs))
  | .le => .ok (ofBool (cmp .lt lhs rhs))
  | .leq => .ok (ofBool (cmp .le lhs rhs))
  | .gt => .ok (ofBool (cmp .gt lhs rhs))
  | .geq => .ok (ofBool (cmp .ge lhs rhs))
  | .eq => .ok (ofBool (eqValues heap lhs rhs))
  | .neq => .ok (ofBool !eqValues heap lhs rhs)
  | .ieq => .ok (ofBool (cmp .eq lhs rhs))
  | .ineq => .ok (ofBool (cmp .ne lhs rhs))
  | .halt => .ok 0

/-- The condition of a fused compare-branch: a result read as a `bool`, a trap read as `false`. -/
def evalCmp (heap : HeapView) (op : Instruction) (lhs rhs : Word) : Bool :=
  let bits (op : IntOp) : Bool :=
    match IntArith.int op lhs rhs with
    | .ok r => asBool r
    | .error _ => false
  match op with
  | .le => cmp .lt lhs rhs
  | .leq => cmp .le lhs rhs
  | .gt => cmp .gt lhs rhs
  | .geq => cmp .ge lhs rhs
  | .eq => eqValues heap lhs rhs
  | .neq => !eqValues heap lhs rhs
  | .ieq => cmp .eq lhs rhs
  | .ineq => cmp .ne lhs rhs
  | .and => Machine.and lhs rhs
  | .or => Machine.or lhs rhs
  | .bitAnd => bits .bitAnd
  | .bitOr => bits .bitOr
  | .xor => bits .xor
  | .add | .sub | .mul | .div | .mod | .pow | .shl | .shr | .halt => false

end Fused

/-- The unary stack instructions on `int` words. -/
inductive UnaryInstruction
  | inc
  | dec
  | not
  | logNot
  | neg
  deriving DecidableEq, Repr

def execUnary : UnaryInstruction → Word → IntResult
  | .inc, a => IntArith.add a 1
  | .dec, a => IntArith.sub a 1
  | .not, a => .ok (~~~a)
  | .logNot, a => .ok (ofBool !(a ≠ 0))
  | .neg, a => IntArith.neg a

/-! ### Dense instructions -/

namespace Dense

/-- The 64-bit int lanes. -/
inductive Kind
  | iadd64
  | isub64
  | imul64
  | idiv64
  | irem64
  | iand64
  | ior64
  | ixor64
  | ishl64
  | ishr64
  | ipow64
  deriving DecidableEq, Repr

def evalBin : Kind → Word → Word → IntResult
  | .iadd64, a, b => IntArith.int .add a b
  | .isub64, a, b => IntArith.int .sub a b
  | .imul64, a, b => IntArith.int .mul a b
  | .idiv64, a, b => IntArith.int .div a b
  | .irem64, a, b => IntArith.int .rem a b
  | .iand64, a, b => IntArith.int .bitAnd a b
  | .ior64, a, b => IntArith.int .bitOr a b
  | .ixor64, a, b => IntArith.int .xor a b
  | .ishl64, a, b => IntArith.int .shl a b
  | .ishr64, a, b => IntArith.int .shr a b
  | .ipow64, a, b => IntArith.int .pow a b

/-- A compare of the `i64` lane. -/
def evalCmp (pred : Cmp) (a b : Word) : Word := ofBool (cmp pred a b)

inductive UnaryKind
  | neg
  | not
  /-- Trailing zero bits, 64 for zero. -/
  | ctz
  /-- Clear the lowest set bit. -/
  | blsr
  deriving DecidableEq, Repr

def evalUnary : UnaryKind → Word → IntResult
  | .neg, a => IntArith.neg a
  | .not, a => .ok (ofBool !(a ≠ 0))
  | .ctz, a => .ok a.ctz
  | .blsr, a => .ok (a &&& (a - 1))

end Dense

/-! ### The opcodes of an operator -/

/-- The stack opcode of an operator on `int`. -/
def opcode : IntOp → Instruction
  | .add => .add
  | .sub => .sub
  | .mul => .mul
  | .div => .div
  | .rem => .mod
  | .pow => .pow
  | .bitAnd => .bitAnd
  | .bitOr => .bitOr
  | .xor => .xor
  | .shl => .shl
  | .shr => .shr

/-- The stack opcode of a compare on `int`. -/
def cmpOpcode : Cmp → Instruction
  | .lt => .le
  | .le => .leq
  | .gt => .gt
  | .ge => .geq
  | .eq => .ieq
  | .ne => .ineq

def denseKind : IntOp → Dense.Kind
  | .add => .iadd64
  | .sub => .isub64
  | .mul => .imul64
  | .div => .idiv64
  | .rem => .irem64
  | .pow => .ipow64
  | .bitAnd => .iand64
  | .bitOr => .ior64
  | .xor => .ixor64
  | .shl => .ishl64
  | .shr => .ishr64

theorem fused_evalBin_opcode (heap : HeapView) (op : IntOp) (a b : Word) :
    Fused.evalBin heap (opcode op) a b = IntArith.int op a b := by
  cases op <;> rfl

theorem dense_evalBin_kind (op : IntOp) (a b : Word) :
    Dense.evalBin (denseKind op) a b = IntArith.int op a b := by
  cases op <;> rfl

theorem fused_evalBin_cmpOpcode (heap : HeapView) (op : Cmp) (a b : Word) :
    Fused.evalBin heap (cmpOpcode op) a b = .ok (ofBool (cmp op a b)) := by
  cases op <;> rfl

theorem fused_evalCmp_cmpOpcode (heap : HeapView) (op : Cmp) (a b : Word) :
    Fused.evalCmp heap (cmpOpcode op) a b = cmp op a b := by
  cases op <;> rfl

end CoilLang.Machine
