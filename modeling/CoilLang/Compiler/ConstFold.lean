import CoilLang.Machine.Arith
import CoilLang.Mir.Instcombine

/-!
# The constant folders

Constants are folded at six places of the compiler: on expressions, to find the value of a
`const` (`evalExpr`) and of a loop condition (`evalConst`); in the checker, for range warnings
(`constIntOp`); in the typed tree (`constant`); in MIR (`evalI64`, `foldMul`); and on three
neighbouring instructions (`tryFoldConstBin`). A folder may decline to fold, but **what it folds to is
what the machine computes**, so an operation that traps is never folded.

`evaluators_agree` collects this with the exactness of the machine's own evaluators. Not part of it
is `~`, which both expression folders treat like `!`.
-/

namespace CoilLang.Compiler

open Machine (Cmp cmp ofBool)

/-- A constant that is an `int` or a `bool`. -/
inductive Lit
  | int (w : Word)
  | bool (b : Bool)
  deriving DecidableEq, Repr

/-! ### Expressions and their value at run time -/

/-- Expressions over `int` and `bool`; `not` is `~`. -/
inductive Expr
  | integer (n : Word)
  | bool (b : Bool)
  | identifier (x : String)
  | group (e : Expr)
  | positive (e : Expr)
  | negate (e : Expr)
  | not (e : Expr)
  | logicalNot (e : Expr)
  | bin (op : IntOp) (l r : Expr)
  | cmp (op : Cmp) (l r : Expr)
  | and (l r : Expr)
  | or (l r : Expr)
  deriving DecidableEq, Repr

/-- The value of an expression or its trap; `none` when it is not well typed. -/
abbrev Run := Option (Except IntTrap Lit)

namespace Run

def onInt : Run → (Word → Run) → Run
  | some (.ok (.int a)), k => k a
  | some (.error t), _ => some (.error t)
  | _, _ => none

def onBool : Run → (Bool → Run) → Run
  | some (.ok (.bool b)), k => k b
  | some (.error t), _ => some (.error t)
  | _, _ => none

def ofInt (r : IntResult) : Run := some (r.map Lit.int)

end Run

/-- Two values of one type compared; only equality is defined on `bool`. -/
def cmpLit (op : Cmp) : Lit → Lit → Run
  | .int a, .int b => some (.ok (.bool (cmp op a b)))
  | .bool a, .bool b =>
    match op with
    | .eq => some (.ok (.bool (a == b)))
    | .ne => some (.ok (.bool (a != b)))
    | _ => none
  | _, _ => none

/-- What the machine computes for an expression, with `vars` the values of its names. -/
def Expr.run (vars : String → Lit) : Expr → Run
  | .integer n => some (.ok (.int n))
  | .bool b => some (.ok (.bool b))
  | .identifier x => some (.ok (vars x))
  | .group e => e.run vars
  | .positive e => (e.run vars).onInt fun a ↦ some (.ok (.int a))
  | .negate e => (e.run vars).onInt fun a ↦ .ofInt (IntArith.neg a)
  | .not e => (e.run vars).onInt fun a ↦ some (.ok (.int (~~~a)))
  | .logicalNot e =>
    match e.run vars with
    | some (.ok (.int a)) => some (.ok (.bool (a = 0)))
    | some (.ok (.bool b)) => some (.ok (.bool !b))
    | some (.error t) => some (.error t)
    | none => none
  | .bin op l r =>
    (l.run vars).onInt fun a ↦ (r.run vars).onInt fun b ↦ .ofInt (IntArith.int op a b)
  | .cmp op l r =>
    match l.run vars, r.run vars with
    | some (.ok a), some (.ok b) => cmpLit op a b
    | some (.error t), _ => some (.error t)
    | some (.ok _), some (.error t) => some (.error t)
    | _, _ => none
  | .and l r => (l.run vars).onBool fun a ↦
      if a then (r.run vars).onBool fun b ↦ some (.ok (.bool b)) else some (.ok (.bool false))
  | .or l r => (l.run vars).onBool fun a ↦
      if a then some (.ok (.bool true)) else (r.run vars).onBool fun b ↦ some (.ok (.bool b))

/-! ### Folding the value of a `const` -/

/-- The operations on two `int` constants; `**` is not folded. -/
def foldIntOp : IntOp → Word → Word → Option Word
  | .add, a, b => (IntArith.add a b).toOption
  | .sub, a, b => (IntArith.sub a b).toOption
  | .mul, a, b => (IntArith.mul a b).toOption
  | .div, a, b => (IntArith.div a b).toOption
  | .rem, a, b => (IntArith.rem a b).toOption
  | .bitAnd, a, b => some (a &&& b)
  | .bitOr, a, b => some (a ||| b)
  | .xor, a, b => some (a ^^^ b)
  | .shl, a, b => (IntArith.shl a b).toOption
  | .shr, a, b => (IntArith.shr a b).toOption
  | .pow, _, _ => none

/-- A compare of two constants: equality on all, an order on `int`. -/
def foldCmpLit : Cmp → Lit → Lit → Option Lit
  | .eq, a, b => some (.bool (a = b))
  | .ne, a, b => some (.bool (a ≠ b))
  | op, .int a, .int b => some (.bool (cmp op a b))
  | _, _, _ => none

/-- Evaluate a pure expression using `env` for const identifiers. -/
def evalExpr (env : String → Option Lit) : Expr → Option Lit
  | .integer n => some (.int n)
  | .bool b => some (.bool b)
  | .identifier x => env x
  | .group e | .positive e => evalExpr env e
  | .negate e =>
    match evalExpr env e with
    | some (.int n) => (IntArith.neg n).toOption.map .int
    | _ => none
  | .not e | .logicalNot e =>
    match evalExpr env e with
    | some (.int n) => some (.bool (n = 0))
    | some (.bool b) => some (.bool !b)
    | none => none
  | .bin op l r =>
    match evalExpr env l, evalExpr env r with
    | some (.int a), some (.int b) => (foldIntOp op a b).map .int
    | _, _ => none
  | .cmp op l r =>
    match evalExpr env l, evalExpr env r with
    | some a, some b => foldCmpLit op a b
    | _, _ => none
  | .and .. | .or .. => none

/-! ### Folding a loop condition -/

namespace Lit

def asBool : Lit → Bool
  | int a => a ≠ 0
  | bool b => b

def asInt : Lit → Word
  | int a => a
  | bool b => ofBool b

end Lit

/-- The arithmetic a loop condition may hold. -/
def evalArith : IntOp → Word → Word → Option Word
  | .add, a, b => (IntArith.add a b).toOption
  | .sub, a, b => (IntArith.sub a b).toOption
  | .mul, a, b => (IntArith.mul a b).toOption
  | .div, a, b => (IntArith.div a b).toOption
  | .rem, a, b => (IntArith.rem a b).toOption
  | _, _, _ => none

/-- Evaluate a pure compile-time form; `lookup` resolves `const` bindings by name. -/
def evalConst (lookup : String → Option Lit) : Expr → Option Lit
  | .integer n => some (.int n)
  | .bool b => some (.bool b)
  | .identifier x => lookup x
  | .group e | .positive e => evalConst lookup e
  | .not e | .logicalNot e => (evalConst lookup e).map fun v ↦ .bool !v.asBool
  | .negate e =>
    match evalConst lookup e with
    | some (.int n) => (IntArith.neg n).toOption.map .int
    | _ => none
  | .and l r =>
    match evalConst lookup l with
    | some a =>
      if a.asBool then (evalConst lookup r).map fun b ↦ .bool b.asBool else some (.bool false)
    | none => none
  | .or l r =>
    match evalConst lookup l with
    | some a =>
      if a.asBool then some (.bool true) else (evalConst lookup r).map fun b ↦ .bool b.asBool
    | none => none
  | .cmp op l r =>
    match evalConst lookup l, evalConst lookup r with
    | some a, some b => some (.bool (cmp op a.asInt b.asInt))
    | _, _ => none
  | .bin op l r =>
    match evalConst lookup l, evalConst lookup r with
    | some a, some b => (evalArith op a.asInt b.asInt).map .int
    | _, _ => none

/-! ### The other folders -/

/-- The value of `+ - * ** <<` on integer literals; `<<` only when nothing is shifted out. -/
def constIntOp : IntOp → Word → Word → Option Word
  | .add, l, r => (IntArith.add l r).toOption
  | .sub, l, r => (IntArith.sub l r).toOption
  | .mul, l, r => (IntArith.mul l r).toOption
  | .pow, l, r =>
    if 0 ≤ r.toInt ∧ r.toInt < 2 ^ 32 then (IntArith.checkedPow l r.toNat).toOption else none
  | .shl, l, r =>
    if 0 ≤ r.toInt ∧ r.toInt < 63 then (IntArith.mul l ((1 : Word) <<< r.toNat)).toOption else none
  | _, _, _ => none

/-- The operators of the typed tree on primitive words. -/
inductive BinOp
  | int (op : IntOp)
  | cmp (op : Cmp)
  /-- Floats, strings, and operators of other types. -/
  | other
  deriving DecidableEq, Repr

/-- The type of a folded operation. -/
inductive LitTy
  | int
  | bool
  | other
  deriving DecidableEq, Repr

/-- An operator on literals. A trap does not fold: the operation stays and traps at run time. An index
lowers `i % n` as a Euclidean remainder, which agrees on non-negative operands only. -/
def constant (op : BinOp) (a b : Lit) (t : LitTy) : Option Lit :=
  match a, b with
  | .int a, .int b =>
    if t = .bool then
      match op with
      | .cmp op => some (.bool (cmp op a b))
      | _ => none
    else if t = .int then
      match op with
      | .int .rem => if 0 ≤ a.toInt ∧ 0 < b.toInt then (IntArith.rem a b).toOption.map .int else none
      | .int op => (IntArith.int op a b).toOption.map .int
      | _ => none
    else none
  | .bool a, .bool b =>
    if t = .bool then
      match op with
      | .cmp .eq => some (.bool (a = b))
      | .cmp .ne => some (.bool (a ≠ b))
      | _ => none
    else none
  | _, _ => none

/-- Unary minus of a literal, in the typed tree. -/
def constantNeg : Lit → LitTy → Option Lit
  | .int a, .int => (IntArith.neg a).toOption.map .int
  | _, _ => none

/-- The product of two constants, in strength reduction. -/
def foldMul (x y : Word) : Option Word := (IntArith.mul x y).toOption

/-- The value of a `CONST` instruction that holds it inline: bit 31 says that it does not. -/
def constInlineValue (operand : BitVec 32) : Option Word :=
  if operand.msb then none else some (operand.signExtend 64)

/-- Two inline constants and an instruction as one constant; no result of two 31-bit numbers
overflows. -/
def tryFoldConstBin (x y : BitVec 32) (op : Machine.Instruction) : Option Word :=
  match constInlineValue x, constInlineValue y with
  | some a, some b =>
    match op with
    | .add => some (a + b)
    | .sub => some (a - b)
    | .mul => some (a * b)
    | .div => if b ≠ 0 then some (a.sdiv b) else none
    | .mod => if b ≠ 0 then some (a.srem b) else none
    | _ => none
  | _, _ => none

/-! ### The expression folders -/

namespace Expr

/-- `~` occurs. -/
def hasNot : Expr → Bool
  | integer _ | bool _ | identifier _ => false
  | group e | positive e | negate e | logicalNot e => e.hasNot
  | not _ => true
  | bin _ l r | cmp _ l r | and l r | or l r => l.hasNot || r.hasNot

end Expr

namespace Run

/-- Well typed, and with the value `v`. -/
def Is (r : Run) (v : Lit) : Prop := ∀ res, r = some res → res = .ok v

theorem onInt_is {r : Run} {a : Word} (h : r.Is (.int a)) {k : Word → Run} {v : Lit}
    (hk : (k a).Is v) : (r.onInt k).Is v := by
  intro res hres
  rcases r with _ | t | ⟨w⟩ | b
  · cases hres
  · cases h _ rfl
  · cases h _ rfl
    exact hk res hres
  · cases hres

theorem onBool_is {r : Run} {b : Bool} (h : r.Is (.bool b)) {k : Bool → Run} {v : Lit}
    (hk : (k b).Is v) : (r.onBool k).Is v := by
  intro res hres
  rcases r with _ | t | w | ⟨b'⟩
  · cases hres
  · cases h _ rfl
  · cases hres
  · cases h _ rfl
    exact hk res hres

/-- The value of a `bool` expression that is well typed is no `int`. -/
theorem onBool_of_int {r : Run} {a : Word} (h : r.Is (.int a)) {k : Bool → Run} {v : Lit} :
    (r.onBool k).Is v := by
  intro res hres
  rcases r with _ | t | w | b
  · cases hres
  · cases h _ rfl
  · cases hres
  · cases h _ rfl

theorem onInt_of_bool {r : Run} {b : Bool} (h : r.Is (.bool b)) {k : Word → Run} {v : Lit} :
    (r.onInt k).Is v := by
  intro res hres
  rcases r with _ | t | w | b'
  · cases hres
  · cases h _ rfl
  · cases h _ rfl
  · cases hres

theorem ofInt_is {r : IntResult} {w : Word} (h : r.toOption = some w) : (ofInt r).Is (.int w) := by
  rw [Mir.toOption_eq_some h]
  rintro _ ⟨⟩
  rfl

theorem some_is (v : Lit) : Run.Is (some (.ok v)) v := by
  rintro _ ⟨⟩
  rfl

end Run

section
variable {vars : String → Lit} {env : String → Option Lit}

theorem foldIntOp_sound {op : IntOp} {a b w : Word} (h : foldIntOp op a b = some w) :
    (IntArith.int op a b).toOption = some w := by
  cases op with
  | pow => cases h
  | _ => exact h

theorem evalArith_sound {op : IntOp} {a b w : Word} (h : evalArith op a b = some w) :
    (IntArith.int op a b).toOption = some w := by
  cases op with
  | add | sub | mul | div | rem => exact h
  | _ => cases h

theorem logicalNot_is {e : Expr} {v : Lit} (h : (e.run vars).Is v) :
    (e.logicalNot.run vars).Is (.bool !v.asBool) := by
  intro res hres
  simp only [Expr.run] at hres
  cases hr : e.run vars with
  | none => rw [hr] at hres; cases hres
  | some r =>
    obtain rfl := h r hr
    rw [hr] at hres
    cases v with
    | int a =>
      cases hres
      simp [Lit.asBool]
    | bool b =>
      cases hres
      rfl

theorem cmp_is {op : Cmp} {l r : Expr} {a b : Lit} (hl : (l.run vars).Is a) (hr : (r.run vars).Is b)
    {v : Lit} (hv : (cmpLit op a b).Is v) : ((Expr.cmp op l r).run vars).Is v := by
  intro res hres
  simp only [Expr.run] at hres
  cases hlr : l.run vars with
  | none => rw [hlr] at hres; cases hres
  | some x =>
    obtain rfl := hl x hlr
    rw [hlr] at hres
    cases hrr : r.run vars with
    | none => rw [hrr] at hres; cases hres
    | some y =>
      obtain rfl := hr y hrr
      rw [hrr] at hres
      exact hv res hres

theorem foldCmpLit_sound {op : Cmp} {a b v : Lit} (h : foldCmpLit op a b = some v) :
    (cmpLit op a b).Is v := by
  rcases a with x | x <;> rcases b with y | y
  · have hv : v = .bool (cmp op x y) := by
      cases op <;> simp only [foldCmpLit, Option.some.injEq] at h <;>
        simp [← h, Machine.cmp, BitVec.toInt_inj]
    rw [hv]
    exact Run.some_is _
  · rintro res ⟨⟩
  · rintro res ⟨⟩
  · cases op with
    | eq =>
      cases h
      rintro res ⟨⟩
      cases x <;> cases y <;> rfl
    | ne =>
      cases h
      rintro res ⟨⟩
      cases x <;> cases y <;> rfl
    | _ => cases h

/-- **A folded expression has the value the folder gives**, whatever the names it did not look up
stand for. -/
theorem evalExpr_sound (henv : ∀ x v, env x = some v → vars x = v) {e : Expr}
    (hnot : e.hasNot = false) {v : Lit} (h : evalExpr env e = some v) : (e.run vars).Is v := by
  induction e generalizing v with
  | integer n | bool b =>
    cases h
    exact Run.some_is _
  | identifier x =>
    rw [Expr.run, henv x v h]
    exact Run.some_is _
  | group e ih => exact ih hnot h
  | positive e ih =>
    cases v with
    | int a => exact Run.onInt_is (ih hnot h) (Run.some_is _)
    | bool b => exact Run.onInt_of_bool (ih hnot h)
  | negate e ih =>
    simp only [evalExpr] at h
    split at h
    · rename_i n hn
      obtain ⟨w, hw, rfl⟩ := Option.map_eq_some_iff.1 h
      exact Run.onInt_is (ih hnot hn) (Run.ofInt_is hw)
    · cases h
  | not e ih => cases hnot
  | logicalNot e ih =>
    simp only [evalExpr] at h
    split at h
    · rename_i n hn
      cases h
      simpa [Lit.asBool] using logicalNot_is (ih hnot hn)
    · rename_i b hb
      cases h
      exact logicalNot_is (ih hnot hb)
    · cases h
  | bin op l r ihl ihr =>
    obtain ⟨hl, hr⟩ := Bool.or_eq_false_iff.1 hnot
    simp only [evalExpr] at h
    split at h
    · rename_i a b ha hb
      obtain ⟨w, hw, rfl⟩ := Option.map_eq_some_iff.1 h
      exact Run.onInt_is (ihl hl ha) (Run.onInt_is (ihr hr hb) (Run.ofInt_is (foldIntOp_sound hw)))
    · cases h
  | cmp op l r ihl ihr =>
    obtain ⟨hl, hr⟩ := Bool.or_eq_false_iff.1 hnot
    simp only [evalExpr] at h
    split at h
    · rename_i a b ha hb
      exact cmp_is (ihl hl ha) (ihr hr hb) (foldCmpLit_sound h)
    · cases h
  | and l r => cases h
  | or l r => cases h

/-- Two booleans compare as their words do. -/
theorem cmpLit_asInt (op : Cmp) (a b : Lit) : (cmpLit op a b).Is (.bool (cmp op a.asInt b.asInt)) := by
  rcases a with x | x <;> rcases b with y | y
  · exact Run.some_is _
  · rintro res ⟨⟩
  · rintro res ⟨⟩
  · cases op with
    | eq =>
      rintro res ⟨⟩
      cases x <;> cases y <;> rfl
    | ne =>
      rintro res ⟨⟩
      cases x <;> cases y <;> rfl
    | _ => rintro res ⟨⟩

theorem asBool_is {r : Run} {v : Lit} (h : r.Is v) :
    (r.onBool fun b ↦ some (.ok (.bool b))).Is (.bool v.asBool) := by
  cases v with
  | int a => exact Run.onBool_of_int h
  | bool b => exact Run.onBool_is h (Run.some_is _)

theorem evalConst_sound (henv : ∀ x v, env x = some v → vars x = v) {e : Expr}
    (hnot : e.hasNot = false) {v : Lit} (h : evalConst env e = some v) : (e.run vars).Is v := by
  induction e generalizing v with
  | integer n | bool b =>
    cases h
    exact Run.some_is _
  | identifier x =>
    rw [Expr.run, henv x v h]
    exact Run.some_is _
  | group e ih => exact ih hnot h
  | positive e ih =>
    cases v with
    | int a => exact Run.onInt_is (ih hnot h) (Run.some_is _)
    | bool b => exact Run.onInt_of_bool (ih hnot h)
  | negate e ih =>
    simp only [evalConst] at h
    split at h
    · rename_i n hn
      obtain ⟨w, hw, rfl⟩ := Option.map_eq_some_iff.1 h
      exact Run.onInt_is (ih hnot hn) (Run.ofInt_is hw)
    · cases h
  | not e ih => cases hnot
  | logicalNot e ih =>
    obtain ⟨w, hw, rfl⟩ := Option.map_eq_some_iff.1 h
    exact logicalNot_is (ih hnot hw)
  | bin op l r ihl ihr =>
    obtain ⟨hl, hr⟩ := Bool.or_eq_false_iff.1 hnot
    simp only [evalConst] at h
    split at h
    · rename_i a b ha hb
      obtain ⟨w, hw, rfl⟩ := Option.map_eq_some_iff.1 h
      -- an operand that is a `bool` is not well typed
      cases a with
      | bool x => exact Run.onInt_of_bool (ihl hl ha)
      | int x =>
        refine Run.onInt_is (ihl hl ha) ?_
        cases b with
        | bool y => exact Run.onInt_of_bool (ihr hr hb)
        | int y => exact Run.onInt_is (ihr hr hb) (Run.ofInt_is (evalArith_sound hw))
    · cases h
  | cmp op l r ihl ihr =>
    obtain ⟨hl, hr⟩ := Bool.or_eq_false_iff.1 hnot
    simp only [evalConst] at h
    split at h
    · rename_i a b ha hb
      cases h
      exact cmp_is (ihl hl ha) (ihr hr hb) (cmpLit_asInt op a b)
    · cases h
  | and l r ihl ihr =>
    obtain ⟨hl, hr⟩ := Bool.or_eq_false_iff.1 hnot
    simp only [evalConst] at h
    split at h
    · rename_i a ha
      cases a with
      | int x => exact Run.onBool_of_int (ihl hl ha)
      | bool x =>
        refine Run.onBool_is (ihl hl ha) ?_
        cases x with
        | false =>
          cases h
          exact Run.some_is _
        | true =>
          obtain ⟨b, hb, rfl⟩ := Option.map_eq_some_iff.1 h
          exact asBool_is (ihr hr hb)
    · cases h
  | or l r ihl ihr =>
    obtain ⟨hl, hr⟩ := Bool.or_eq_false_iff.1 hnot
    simp only [evalConst] at h
    split at h
    · rename_i a ha
      cases a with
      | int x => exact Run.onBool_of_int (ihl hl ha)
      | bool x =>
        refine Run.onBool_is (ihl hl ha) ?_
        cases x with
        | true =>
          cases h
          exact Run.some_is _
        | false =>
          obtain ⟨b, hb, rfl⟩ := Option.map_eq_some_iff.1 h
          exact asBool_is (ihr hr hb)
    · cases h

end

/-! ### The other folders fold to what the machine computes -/

theorem toInt_one_shiftLeft {n : ℕ} (hn : n < 63) : ((1 : Word) <<< n).toInt = 2 ^ n := by
  have hlt : (2 : ℤ) ^ n < 2 ^ 63 := pow_lt_pow_right₀ (by norm_num) hn
  rw [show (1 : Word) = 1#64 from rfl, ← BitVec.twoPow_eq, ← IntArith.ofInt_two_pow]
  refine BitVec.toInt_ofInt_eq_self (by decide) ?_ hlt
  have : (0 : ℤ) ≤ 2 ^ n := by positivity
  omega

theorem constIntOp_sound {op : IntOp} {l r w : Word} (h : constIntOp op l r = some w) :
    IntArith.int op l r = .ok w := by
  cases op with
  | add | sub | mul => exact Mir.toOption_eq_some h
  | pow =>
    simp only [constIntOp] at h
    split at h
    · rename_i hr
      rw [IntArith.checkedPow_eq] at h
      show IntArith.pow l r = _
      rw [IntArith.pow_eq, IntArith.exactOrTrap, IntArith.exact, if_neg (by omega),
        IntArith.toNat_of_nonneg hr.1]
      exact Mir.toOption_eq_some h
    · cases h
  | shl =>
    simp only [constIntOp] at h
    split at h
    · rename_i hr
      have hn : r.toNat < 63 := by
        rw [← IntArith.toNat_of_nonneg hr.1]
        omega
      have hmul := Mir.toOption_eq_some h
      rw [IntArith.mul, toInt_one_shiftLeft hn] at hmul
      obtain ⟨-, -, hw⟩ := IntArith.checked_eq_ok.1 hmul
      have hexact : IntArith.exact .shl l.toInt r.toInt = .ok (l.toInt * 2 ^ r.toNat) := by
        rw [← IntArith.toNat_of_nonneg hr.1]
        exact if_pos ⟨hr.1, by omega⟩
      show IntArith.shl l r = _
      rw [IntArith.shl_eq, hexact, ← hw]
      exact congrArg Except.ok BitVec.ofInt_toInt
    · cases h
  | _ => cases h

/-- What the machine computes for an operator of the typed tree. -/
def BinOp.run : BinOp → Lit → Lit → Run
  | .int op, .int a, .int b => .ofInt (IntArith.int op a b)
  | .cmp op, a, b => cmpLit op a b
  | _, _, _ => none

theorem ofInt_of_toOption {r : IntResult} {v : Lit} (h : r.toOption.map Lit.int = some v) :
    Run.ofInt r = some (.ok v) := by
  obtain ⟨w, hw, rfl⟩ := Option.map_eq_some_iff.1 h
  rw [Mir.toOption_eq_some hw]
  rfl

theorem constant_sound {op : BinOp} {a b v : Lit} {t : LitTy} (h : constant op a b t = some v) :
    op.run a b = some (.ok v) := by
  rcases a with x | x <;> rcases b with y | y
  · simp only [constant] at h
    split at h
    · cases op with
      | cmp op =>
        cases h
        rfl
      | _ => cases h
    · split at h
      · cases op with
        | int op =>
          cases op with
          | rem =>
            simp only at h
            split at h
            · exact ofInt_of_toOption h
            · cases h
          | _ => exact ofInt_of_toOption h
        | _ => cases h
      · cases h
  · cases h
  · cases h
  · simp only [constant] at h
    split at h
    · cases op with
      | cmp op =>
        cases op with
        | eq | ne =>
          cases h
          cases x <;> cases y <;> rfl
        | _ => cases h
      | _ => cases h
    · cases h

/-- An inline constant is a number of 31 bits. -/
theorem constInlineValue_range {x : BitVec 32} {a : Word} (h : constInlineValue x = some a) :
    0 ≤ a.toInt ∧ a.toInt < 2 ^ 31 := by
  unfold constInlineValue at h
  split at h
  · cases h
  · rename_i hmsb
    cases h
    rw [BitVec.toInt_signExtend_of_le (by decide), BitVec.toInt_eq_toNat_of_msb (by simpa using hmsb)]
    have := BitVec.toNat_lt_of_msb_false (by simpa using hmsb)
    omega

theorem tryFoldConstBin_sound {x y : BitVec 32} {a b w : Word} {op : IntOp}
    (hx : constInlineValue x = some a) (hy : constInlineValue y = some b)
    (h : tryFoldConstBin x y (Machine.opcode op) = some w) : IntArith.int op a b = .ok w := by
  obtain ⟨ha₀, ha₁⟩ := constInlineValue_range hx
  obtain ⟨hb₀, hb₁⟩ := constInlineValue_range hy
  -- a result in the range of a word, given by the wrapping operation
  have hok : ∀ {r : ℤ} {w : Word}, w = BitVec.ofInt 64 r → -2 ^ 63 ≤ r → r < 2 ^ 63 →
      IntArith.checked r = .ok w := fun hw hl hr ↦ by rw [hw, IntArith.checked, if_pos ⟨hl, hr⟩]
  simp only [tryFoldConstBin, hx, hy] at h
  cases op with
  | add =>
    cases h
    refine hok (by rw [BitVec.ofInt_add, BitVec.ofInt_toInt, BitVec.ofInt_toInt]) ?_ ?_ <;> omega
  | sub =>
    cases h
    refine hok (BitVec.eq_of_toInt_eq ?_) (by omega) (by omega)
    rw [BitVec.toInt_sub, BitVec.toInt_ofInt]
  | mul =>
    cases h
    refine hok (by rw [BitVec.ofInt_mul, BitVec.ofInt_toInt, BitVec.ofInt_toInt]) ?_ ?_ <;> nlinarith
  | div =>
    simp only [Machine.opcode] at h
    split at h
    · rename_i hb
      cases h
      show IntArith.div a b = _
      rw [IntArith.div, if_neg hb]
      have hle := Int.natAbs_tdiv_le_natAbs a.toInt b.toInt
      refine hok (BitVec.eq_of_toInt_eq ?_) (by omega) (by omega)
      rw [BitVec.toInt_sdiv, BitVec.toInt_ofInt]
    · cases h
  | rem =>
    simp only [Machine.opcode] at h
    split at h
    · rename_i hb
      cases h
      show IntArith.rem a b = _
      rw [IntArith.rem, if_neg hb, ← BitVec.toInt_srem, BitVec.ofInt_toInt]
    · cases h
  | _ => cases h

/-! ### All evaluators -/

/-- The operator of a MIR instruction. -/
def mirOp : Mir.MirBinOp → IntOp
  | .add => .add
  | .sub => .sub
  | .mul => .mul
  | .div => .div
  | .rem => .rem
  | .bitAnd => .bitAnd
  | .bitOr => .bitOr
  | .xor => .xor
  | .shl => .shl
  | .shr => .shr
  | .pow => .pow

def mirCmpOp : Mir.MirCmpOp → Cmp
  | .lt => .lt
  | .le => .le
  | .gt => .gt
  | .ge => .ge
  | .eq => .eq
  | .ne => .ne

/-- The evaluators of a binary operator on `int` against its outcome: the machine's give it, and what
a folder gives is it. -/
structure BinAgrees (op : IntOp) (a b : Word) (out : IntResult) : Prop where
  shared : IntArith.int op a b = out
  power : op = .pow → IntArith.powBySquaring a b = out
  fused : ∀ heap, Machine.Fused.evalBin heap (Machine.opcode op) a b = out
  dense : Machine.Dense.evalBin (Machine.denseKind op) a b = out
  tree : ∀ v, constant (.int op) (.int a) (.int b) .int = some v → out.map Lit.int = .ok v
  mir : ∀ o w, mirOp o = op → Mir.evalI64 o a b = some w → out = .ok w
  product : ∀ w, op = .mul → foldMul a b = some w → out = .ok w
  checker : ∀ w, constIntOp op a b = some w → out = .ok w
  inline : ∀ x y w, constInlineValue x = some a → constInlineValue y = some b →
    tryFoldConstBin x y (Machine.opcode op) = some w → out = .ok w

/-- The evaluators of a compare. -/
structure CmpAgrees (op : Cmp) (a b : Word) (out : Bool) : Prop where
  fused : ∀ heap, Machine.Fused.evalBin heap (Machine.cmpOpcode op) a b = .ok (ofBool out)
  branch : ∀ heap, Machine.Fused.evalCmp heap (Machine.cmpOpcode op) a b = out
  dense : Machine.Dense.evalCmp op a b = ofBool out
  tree : ∀ v, constant (.cmp op) (.int a) (.int b) .bool = some v → v = .bool out
  mir : ∀ o c, mirCmpOp o = op → Mir.evalCmpConst o .i64 (.i64 a) (.i64 b) = some c → c = out

/-- The evaluators of unary minus. -/
structure NegAgrees (a : Word) (out : IntResult) : Prop where
  shared : IntArith.neg a = out
  stack : Machine.execUnary .neg a = out
  dense : Machine.Dense.evalUnary .neg a = out
  tree : ∀ v, constantNeg (.int a) .int = some v → out.map Lit.int = .ok v
  mir : ∀ c, Mir.evalNeg (.i64 a) = some c → ∃ w, c = .i64 w ∧ out = .ok w

theorem binAgrees (op : IntOp) (a b : Word) : BinAgrees op a b (IntArith.int op a b) where
  shared := rfl
  power h := by
    subst h
    exact IntArith.powBySquaring_eq a b
  fused heap := Machine.fused_evalBin_opcode heap op a b
  dense := Machine.dense_evalBin_kind op a b
  tree v h := by
    have hv := constant_sound h
    exact Option.some.inj hv
  mir o w ho h := by
    subst ho
    have hw := Mir.evalI64_sound h
    cases o <;> exact hw
  product w hop h := by
    subst hop
    exact Mir.toOption_eq_some h
  checker w h := constIntOp_sound h
  inline x y w hx hy h := tryFoldConstBin_sound hx hy h

theorem cmpAgrees (op : Cmp) (a b : Word) : CmpAgrees op a b (cmp op a b) where
  fused heap := Machine.fused_evalBin_cmpOpcode heap op a b
  branch heap := Machine.fused_evalCmp_cmpOpcode heap op a b
  dense := rfl
  tree v h := by
    cases h
    rfl
  mir o c ho h := by
    subst ho
    cases h
    cases o <;> simp [Mir.evalCmp, Machine.cmp, mirCmpOp, BitVec.toInt_inj]

theorem negAgrees (a : Word) : NegAgrees a (IntArith.checked (-a.toInt)) where
  shared := rfl
  stack := rfl
  dense := rfl
  tree v h := Option.some.inj (ofInt_of_toOption h)
  mir c h := by
    obtain ⟨w, hw, rfl⟩ := Option.map_eq_some_iff.1 h
    exact ⟨w, rfl, Mir.toOption_eq_some hw⟩

/-- **All integer evaluators agree**, and are exact or trap: the outcome is the mathematical result
when it fits in a word, the trap of the operator where it is not defined, else overflow; `<<` keeps the
low 64 bits. A folded expression without `~` has at run time the value it was folded to. -/
theorem evaluators_agree :
    (∀ op a b, BinAgrees op a b (IntArith.outcome op a.toInt b.toInt)) ∧
    (∀ op a b, CmpAgrees op a b (cmp op a b)) ∧
    (∀ a, NegAgrees a (IntArith.checked (-a.toInt))) ∧
    (∀ (r : ℤ) (w : Word), IntArith.checked r = .ok w ↔ -2 ^ 63 ≤ r ∧ r < 2 ^ 63 ∧ w.toInt = r) ∧
    ∀ (vars : String → Lit) (env : String → Option Lit), (∀ x v, env x = some v → vars x = v) →
      ∀ e : Expr, e.hasNot = false → ∀ v, evalExpr env e = some v ∨ evalConst env e = some v →
        ∀ res, e.run vars = some res → res = .ok v := by
  refine ⟨fun op a b ↦ ?_, cmpAgrees, negAgrees, fun r w ↦ IntArith.checked_eq_ok, ?_⟩
  · rw [← IntArith.int_eq_outcome]
    exact binAgrees op a b
  · intro vars env henv e hnot v h
    rcases h with h | h
    · exact evalExpr_sound henv hnot h
    · exact evalConst_sound henv hnot h

/-- `(-2) ** 63` by all evaluators, and a folded `1 + 2 * 3 < 8`. -/
theorem evaluators_agree_pow_and_fold :
    IntArith.powBySquaring (-2) 63 = IntArith.outcome .pow (-2) 63 ∧
      ∀ res, (Expr.cmp .lt (.bin .add (.integer 1) (.bin .mul (.integer 2) (.identifier "n")))
        (.integer 8)).run (fun _ ↦ .int 3) = some res → res = .ok (.bool true) :=
  ⟨(evaluators_agree.1 .pow (-2) 63).power rfl,
    evaluators_agree.2.2.2.2 (fun _ ↦ .int 3) (fun _ ↦ some (.int 3)) (by simp) _ (by decide) _
      (.inl (by decide))⟩

/-- `1 << 63` drops the bit that leaves the word: the exact result does not fit, and there is no
trap. -/
theorem shl_drops_bits :
    IntArith.int .shl 1 63 = .ok (BitVec.ofInt 64 (-2 ^ 63)) ∧
      IntArith.exactOrTrap .shl 1 63 = .error .overflow := by
  decide

end CoilLang.Compiler
