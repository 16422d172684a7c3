import Mathlib.Data.BitVec
import Mathlib.Data.Nat.Basic

/-!
# Coil integer arithmetic

An `int` operation **either gives the exact result or traps**: the interpreter raises the trap as a
panic, and a constant folder leaves a trapping operation for run time. The operands are 64-bit
words read as signed integers. `MIN % -1` is the exact remainder `0`, not a trap.
-/

namespace CoilLang

/-- One 64-bit word of the machine. -/
abbrev Word := BitVec 64

/-- Why an int operation has no result. -/
inductive IntTrap
  | overflow
  | divByZero
  | negativeExponent
  | shiftOutOfRange
  deriving DecidableEq, Repr

namespace IntTrap

/-- The panic message. -/
def message : IntTrap → String
  | overflow => "integer overflow"
  | divByZero => "division by zero"
  | negativeExponent => "negative exponent"
  | shiftOutOfRange => "shift count out of range"

end IntTrap

abbrev IntResult := Except IntTrap Word

namespace IntArith

/-- The word of an integer that fits in one, else overflow: what the checked operations of the
standard library compute. -/
def checked (r : ℤ) : IntResult :=
  if -2 ^ 63 ≤ r ∧ r < 2 ^ 63 then .ok (BitVec.ofInt 64 r) else .error .overflow

def add (a b : Word) : IntResult := checked (a.toInt + b.toInt)

def sub (a b : Word) : IntResult := checked (a.toInt - b.toInt)

def mul (a b : Word) : IntResult := checked (a.toInt * b.toInt)

def neg (a : Word) : IntResult := checked (-a.toInt)

def div (a b : Word) : IntResult :=
  if b = 0 then .error .divByZero else checked (a.toInt.tdiv b.toInt)

def rem (a b : Word) : IntResult :=
  if b = 0 then .error .divByZero else .ok (BitVec.ofInt 64 (a.toInt.tmod b.toInt))

/-- The shift counts `0..=63`. -/
def shiftCount (b : Word) : Prop := 0 ≤ b.toInt ∧ b.toInt < 64

instance (b : Word) : Decidable (shiftCount b) :=
  inferInstanceAs (Decidable (0 ≤ b.toInt ∧ b.toInt < 64))

/-- Bits shifted out are dropped. -/
def shl (a b : Word) : IntResult :=
  if shiftCount b then .ok (a <<< b.toNat) else .error .shiftOutOfRange

def shr (a b : Word) : IntResult :=
  if shiftCount b then .ok (a.sshiftRight b.toNat) else .error .shiftOutOfRange

def pow (a b : Word) : IntResult :=
  if b.toInt < 0 then .error .negativeExponent
  else if a = 0 then .ok (if b = 0 then 1 else 0)
  else if a = 1 then .ok 1
  else if a = -1 then .ok (if b.toInt % 2 = 0 then 1 else -1)
  else if 2 ^ 32 ≤ b.toInt then .error .overflow
  else checked (a.toInt ^ b.toNat)

/-! ### Operations that give a constant whatever the other operand is -/

theorem checked_zero : checked 0 = .ok 0 := by decide

theorem sub_self (a : Word) : sub a a = .ok 0 := by
  rw [sub, Int.sub_self, checked_zero]

theorem mul_zero (a : Word) : mul a 0 = .ok 0 := by
  rw [mul, show (0 : Word).toInt = 0 from rfl, Int.mul_zero, checked_zero]

theorem zero_mul (a : Word) : mul 0 a = .ok 0 := by
  rw [mul, show (0 : Word).toInt = 0 from rfl, Int.zero_mul, checked_zero]

theorem rem_one (a : Word) : rem a 1 = .ok 0 := by
  rw [rem, if_neg (by decide), show (1 : Word).toInt = 1 from rfl, Int.tmod_one]
  rfl

/-! ### Operations that give back an operand -/

theorem checked_toInt (a : Word) : checked a.toInt = .ok a := by
  have hlo : -2 ^ 63 ≤ a.toInt := BitVec.le_toInt a
  have hhi : a.toInt < 2 ^ 63 := BitVec.toInt_lt
  rw [checked, if_pos ⟨hlo, hhi⟩, BitVec.ofInt_toInt]

theorem add_zero (a : Word) : add a 0 = .ok a := by
  show checked (a.toInt + 0) = _
  rw [Int.add_zero, checked_toInt]

theorem zero_add (a : Word) : add 0 a = .ok a := by
  show checked (0 + a.toInt) = _
  rw [Int.zero_add, checked_toInt]

theorem sub_zero (a : Word) : sub a 0 = .ok a := by
  show checked (a.toInt - 0) = _
  rw [Int.sub_zero, checked_toInt]

theorem mul_one (a : Word) : mul a 1 = .ok a := by
  show checked (a.toInt * 1) = _
  rw [Int.mul_one, checked_toInt]

theorem one_mul (a : Word) : mul 1 a = .ok a := by
  show checked (1 * a.toInt) = _
  rw [Int.one_mul, checked_toInt]

theorem div_one (a : Word) : div a 1 = .ok a := by
  show (if (1 : Word) = 0 then _ else checked (a.toInt.tdiv 1)) = _
  rw [if_neg (by decide), Int.tdiv_one, checked_toInt]

theorem shl_zero (a : Word) : shl a 0 = .ok a := by
  rw [shl, if_pos (by decide)]
  exact congrArg Except.ok (BitVec.shiftLeft_zero a)

theorem shr_zero (a : Word) : shr a 0 = .ok a := by
  rw [shr, if_pos (by decide)]
  exact congrArg Except.ok BitVec.sshiftRight_zero

/-- Doubling overflows as the multiplication by two does. -/
theorem two_mul (a : Word) : mul 2 a = add a a := by
  show checked (2 * a.toInt) = checked (a.toInt + a.toInt)
  rw [Int.two_mul]

theorem mul_two (a : Word) : mul a 2 = add a a := by
  rw [← two_mul, mul, mul, Int.mul_comm]

end IntArith

end CoilLang
