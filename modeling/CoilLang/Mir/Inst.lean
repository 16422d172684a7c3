import CoilLang.Common.IntArith

/-!
# MIR instructions

The SSA instructions over 64-bit words: constants, integer and Boolean arithmetic, comparisons,
word casts and φs, and **every other instruction** (calls, loads and stores, allocation, printing,
...) as an operation `MirOp` on operand words, with one or two results. An operation is classified
as the compiler classifies it: an **effect barrier** always runs, an operation that **may trap**
(a checked index) runs for its trap, and the rest only read.

Floats are outside this development, so the type `f64`, its constants and the casts from and to it
do not occur, and the only cast left keeps the word. The terminator that matches on an enum word
and binds its payload is left out as well.
-/

namespace CoilLang.Mir

abbrev ValueId := ℕ

abbrev BlockId := ℕ

/-- Types of SSA values, the numeric ones and the one-word heap and niche words. -/
inductive MirTy
  | bottom
  | i64
  | bool
  | heapRef
  | nicheOpt
  | nicheRes
  | value
  deriving DecidableEq, Repr

namespace MirTy

def isInt (t : MirTy) : Bool := t = i64

def isNumeric (t : MirTy) : Bool := t = i64 ∨ t = bool

def isHeapWord (t : MirTy) : Bool := t = heapRef ∨ t = nicheOpt ∨ t = nicheRes

def isSpecialized (t : MirTy) : Bool := ¬ (t = bottom ∨ t = value)

/-- Least upper bound. -/
def join (a b : MirTy) : MirTy :=
  if a = b then a
  else if a = bottom then b
  else if b = bottom then a
  else
    match a, b with
    | heapRef, nicheOpt | nicheOpt, heapRef => nicheOpt
    | heapRef, nicheRes | nicheRes, heapRef => nicheRes
    | _, _ => value

def le (a b : MirTy) : Bool := a.join b = b

def asStr : MirTy → String
  | bottom => "bottom"
  | i64 => "i64"
  | bool => "bool"
  | heapRef => "heapref"
  | nicheOpt => "niche_opt"
  | nicheRes => "niche_res"
  | value => "value"

end MirTy

/-- Typed immediate. -/
inductive MirConst
  | i64 (x : Word)
  | bool (b : Bool)
  deriving DecidableEq, Repr

namespace MirConst

def ty : MirConst → MirTy
  | i64 _ => .i64
  | bool _ => .bool

/-- The word a constant is at run time: a `bool` is 0 or 1. -/
def word : MirConst → Word
  | i64 x => x
  | bool b => if b then 1 else 0

end MirConst

inductive MirBinOp
  | add | sub | mul | div | rem | bitAnd | bitOr | xor | shl | shr | pow
  deriving DecidableEq, Repr

namespace MirBinOp

/-- `**` is an `i64` operation only (floats apart). -/
def takes (op : MirBinOp) (ty : MirTy) : Bool := op ≠ pow ∨ ty = .i64

def requiresInt (op : MirBinOp) : Bool :=
  op = bitAnd ∨ op = bitOr ∨ op = xor ∨ op = shl ∨ op = shr

end MirBinOp

inductive MirCmpOp
  | lt | le | gt | ge | eq | ne
  deriving DecidableEq, Repr

inductive MirUnaryOp
  | neg | not
  deriving DecidableEq, Repr

/-- The instructions outside the arithmetic: what they are and the immediates they carry. -/
inductive MirOp
  | hostInvoke (nativeId : ℕ) (isPure : Bool)
  | ffi (op operand : ℕ)
  /-- `destHi` takes the second word of a two-slot call. -/
  | call (target : ℕ) (destHi : Option ValueId)
  | callIndirect (dicts : ℕ)
  | matchPayload (index : ℕ)
  | heapFieldLoad (index : ℕ)
  | heapFieldStore (index : ℕ)
  | index (unchecked : Bool)
  | storeIndex (unchecked : Bool)
  | arrayLen
  | resumeCoro
  | yield (isFrom receive : Bool)
  | doneCoro
  | loadStatic (slot : ℕ)
  | storeStatic (slot : ℕ)
  | homeLoad (home : ℕ)
  | homeStore (home : ℕ)
  | clearWord
  | keepAlive
  | panicStore (index : ℕ)
  | arrayPush
  | alloc (kind kinds : ℕ)
  | gcBarrier
  | deopt
  | string (idx : ℕ)
  | codePtr (target : ℕ)
  | print
  | freeEarly (deep : Bool)
  | panic
  | format
  | stringify (tag : Option ℕ)
  | cow (unique : Bool) (field : Option ℕ)
  | strEq (ne : Bool)
  | byteScan (form : ℕ)
  /-- `pos` takes the block position while the body runs. -/
  | vecLoop (form : ℕ) (pos : Option ValueId)
  deriving DecidableEq, Repr

namespace MirOp

/-- An impure call, an allocation or a store: it runs even when its value is unused. -/
def isEffectBarrier : MirOp → Bool
  | hostInvoke _ isPure => !isPure
  | ffi .. | call .. | callIndirect .. | resumeCoro | yield .. | alloc .. | gcBarrier | deopt
  | heapFieldStore .. | storeIndex .. | storeStatic .. | homeStore .. | clearWord | keepAlive
  | panicStore .. | arrayPush | print | freeEarly .. | panic | format | stringify ..
  | vecLoop .. | cow .. => true
  | _ => false

/-- A checked index, or a vector loop. -/
def mayTrap : MirOp → Bool
  | index unchecked => !unchecked
  | vecLoop .. => true
  | _ => false

def isMatchPayload : MirOp → Bool
  | matchPayload .. => true
  | _ => false

/-- The second result. -/
def hi : MirOp → Option ValueId
  | call _ h => h
  | vecLoop _ p => p
  | _ => none

/-- Only effect barriers have two results. -/
theorem hi_eq_none_of_not_isEffectBarrier {k : MirOp} (h : k.isEffectBarrier = false) :
    k.hi = none := by
  cases k <;> first | rfl | cases h

end MirOp

/-- Value-producing instruction. -/
inductive MirInst
  | const (dest : ValueId) (c : MirConst)
  | bin (dest : ValueId) (op : MirBinOp) (ty : MirTy) (lhs rhs : ValueId)
  | cmp (dest : ValueId) (op : MirCmpOp) (ty : MirTy) (lhs rhs : ValueId)
  | unary (dest : ValueId) (op : MirUnaryOp) (src : ValueId)
  /-- The same word retyped. -/
  | cast (dest : ValueId) (ty : MirTy) (src : ValueId)
  | phi (dest : ValueId) (ty : MirTy) (args : List (BlockId × ValueId))
  /-- Any other instruction. -/
  | op (dest : ValueId) (k : MirOp) (args : List ValueId)
  deriving DecidableEq, Repr

namespace MirInst

def dest : MirInst → ValueId
  | const d .. | bin d .. | cmp d .. | unary d .. | cast d .. | phi d .. | op d .. => d

/-- The second result. -/
def hi : MirInst → Option ValueId
  | op _ k _ => k.hi
  | _ => none

def dests (i : MirInst) : List ValueId := i.dest :: i.hi.toList

def isPhi : MirInst → Bool
  | phi .. => true
  | _ => false

def operands : MirInst → List ValueId
  | const .. => []
  | bin _ _ _ lhs rhs | cmp _ _ _ lhs rhs => [lhs, rhs]
  | unary _ _ src | cast _ _ src => [src]
  | phi _ _ args => args.map Prod.snd
  | op _ _ args => args

def rewriteValues (r : ValueId → ValueId) : MirInst → MirInst
  | const d c => const d c
  | bin d o ty lhs rhs => bin d o ty (r lhs) (r rhs)
  | cmp d o ty lhs rhs => cmp d o ty (r lhs) (r rhs)
  | unary d o src => unary d o (r src)
  | cast d ty src => cast d ty (r src)
  | phi d ty args => phi d ty (args.map fun a ↦ (a.1, r a.2))
  | op d k args => op d k (args.map r)

def isEffectBarrier : MirInst → Bool
  | op _ k _ => k.isEffectBarrier
  | _ => false

@[simp] theorem rewriteValues_dest (r : ValueId → ValueId) (i : MirInst) :
    (i.rewriteValues r).dest = i.dest := by
  cases i <;> rfl

@[simp] theorem rewriteValues_hi (r : ValueId → ValueId) (i : MirInst) :
    (i.rewriteValues r).hi = i.hi := by
  cases i <;> rfl

@[simp] theorem rewriteValues_dests (r : ValueId → ValueId) (i : MirInst) :
    (i.rewriteValues r).dests = i.dests := by
  cases i <;> rfl

theorem rewriteValues_id (i : MirInst) : i.rewriteValues id = i := by
  cases i <;> simp [rewriteValues]

@[simp] theorem rewriteValues_isPhi (r : ValueId → ValueId) (i : MirInst) :
    (i.rewriteValues r).isPhi = i.isPhi := by
  cases i <;> rfl

@[simp] theorem rewriteValues_isEffectBarrier (r : ValueId → ValueId) (i : MirInst) :
    (i.rewriteValues r).isEffectBarrier = i.isEffectBarrier := by
  cases i <;> rfl

theorem operands_rewriteValues (r : ValueId → ValueId) (i : MirInst) :
    (i.rewriteValues r).operands = i.operands.map r := by
  cases i <;> simp [rewriteValues, operands, Function.comp_def]

theorem dest_mem_dests (i : MirInst) : i.dest ∈ i.dests := List.mem_cons_self

end MirInst

inductive Terminator
  | jump (dest : BlockId)
  /-- `taken` when `cond` is true. -/
  | br (cond : ValueId) (taken notTaken : BlockId)
  | ret (lo hi : Option ValueId)
  | unreachable
  deriving DecidableEq, Repr

namespace Terminator

def succs : Terminator → List BlockId
  | jump d => [d]
  | br _ t n => [t, n]
  | ret .. | unreachable => []

/-- The values a terminator reads. -/
def operands : Terminator → List ValueId
  | br c _ _ => [c]
  | ret lo hi => lo.toList ++ hi.toList
  | jump _ | unreachable => []

def rewriteValues (r : ValueId → ValueId) : Terminator → Terminator
  | br c t n => br (r c) t n
  | ret lo hi => ret (lo.map r) (hi.map r)
  | t => t

@[simp] theorem rewriteValues_succs (r : ValueId → ValueId) (t : Terminator) :
    (t.rewriteValues r).succs = t.succs := by
  cases t <;> rfl

theorem rewriteValues_id (t : Terminator) : t.rewriteValues id = t := by
  cases t <;> simp [rewriteValues]

end Terminator

end CoilLang.Mir
