import CoilLang.Common.IntArith
import Mathlib.Algebra.Order.Ring.Abs
import Mathlib.Algebra.Order.Ring.Int
import Mathlib.Algebra.Ring.Parity
import Mathlib.Data.Int.Bitwise
import Mathlib.Tactic.Linarith
import Mathlib.Tactic.Ring

/-!
# Integer arithmetic is exact

The operators on 64-bit words against the operators on the integers. `exact` is the mathematical
result of an operator, or the trap that stands for it not being defined (a zero divisor, a negative
exponent, a shift count outside `0..=63`). **Each operator gives the exact result when it fits in a
word, and else overflows** (`int_eq_outcome`); the one exception is `<<`, which drops the bits shifted
out.

The power is computed by repeated squaring, where an intermediate square may overflow. That is no
loss: a square is taken only when it divides the result, so it overflows only when the result does
(`checkedPow_eq`).
-/

namespace CoilLang

/-- A binary operator on two `int` words. -/
inductive IntOp
  | add
  | sub
  | mul
  | div
  | rem
  | pow
  | bitAnd
  | bitOr
  | xor
  | shl
  | shr
  deriving DecidableEq, Repr

namespace IntArith

/-- The exact `int` result, or the trap. -/
def int : IntOp → Word → Word → IntResult
  | .add, a, b => add a b
  | .sub, a, b => sub a b
  | .mul, a, b => mul a b
  | .div, a, b => div a b
  | .rem, a, b => rem a b
  | .pow, a, b => pow a b
  | .bitAnd, a, b => .ok (a &&& b)
  | .bitOr, a, b => .ok (a ||| b)
  | .xor, a, b => .ok (a ^^^ b)
  | .shl, a, b => shl a b
  | .shr, a, b => shr a b

/-! ### The exact results -/

/-- The result of an operator on integers: truncated division with the sign of the remainder that of
the dividend, bits in two's complement, shifts by a power of two rounding down. -/
def exact : IntOp → ℤ → ℤ → Except IntTrap ℤ
  | .add, x, y => .ok (x + y)
  | .sub, x, y => .ok (x - y)
  | .mul, x, y => .ok (x * y)
  | .div, x, y => if y = 0 then .error .divByZero else .ok (x.tdiv y)
  | .rem, x, y => if y = 0 then .error .divByZero else .ok (x.tmod y)
  | .pow, x, y => if y < 0 then .error .negativeExponent else .ok (x ^ y.toNat)
  | .bitAnd, x, y => .ok (x.land y)
  | .bitOr, x, y => .ok (x.lor y)
  | .xor, x, y => .ok (x.xor y)
  | .shl, x, y => if 0 ≤ y ∧ y < 64 then .ok (x * 2 ^ y.toNat) else .error .shiftOutOfRange
  | .shr, x, y => if 0 ≤ y ∧ y < 64 then .ok (x / 2 ^ y.toNat) else .error .shiftOutOfRange

/-- The exact result when it fits in a word, else overflow. -/
def exactOrTrap (op : IntOp) (x y : ℤ) : IntResult := (exact op x y).bind checked

/-- The same, except that `<<` keeps the low 64 bits. -/
def outcome (op : IntOp) (x y : ℤ) : IntResult :=
  if op = .shl then (exact op x y).map (BitVec.ofInt 64) else exactOrTrap op x y

theorem checked_eq_ok {r : ℤ} {w : Word} :
    checked r = .ok w ↔ -2 ^ 63 ≤ r ∧ r < 2 ^ 63 ∧ w.toInt = r := by
  unfold checked
  split
  · rename_i h
    obtain ⟨hl, hr⟩ := h
    have hself : (BitVec.ofInt 64 r).toInt = r := BitVec.toInt_ofInt_eq_self (by decide) hl hr
    constructor
    · intro hw
      cases hw
      exact ⟨hl, hr, hself⟩
    · rintro ⟨-, -, rfl⟩
      rw [BitVec.ofInt_toInt]
  · rename_i h
    constructor
    · intro hw
      cases hw
    · rintro ⟨hl, hr, -⟩
      exact absurd ⟨hl, hr⟩ h

theorem toInt_range (a : Word) : -2 ^ 63 ≤ a.toInt ∧ a.toInt < 2 ^ 63 :=
  ⟨BitVec.le_toInt a, BitVec.toInt_lt⟩

theorem checked_overflow {r : ℤ} (h : 2 ^ 63 < |r|) : checked r = .error .overflow := by
  unfold checked
  rw [if_neg]
  rintro ⟨hl, hr⟩
  rw [lt_abs] at h
  omega

theorem toInt_eq_zero {a : Word} : a.toInt = 0 ↔ a = 0 := by
  rw [← BitVec.toInt_inj, show (0 : Word).toInt = 0 from rfl]

/-! ### Power by repeated squaring -/

/-- The loop of `checked_pow`: `acc * base ^ exp`. -/
def powLoop (exp : ℕ) (base acc : Word) : IntResult :=
  if h : exp ≤ 1 then
    if exp = 1 then mul acc base else .ok acc
  else
    let acc' : IntResult := if exp % 2 = 1 then mul acc base else .ok acc
    acc'.bind fun acc ↦ (mul base base).bind fun base ↦ powLoop (exp / 2) base acc
termination_by exp

def checkedPow (a : Word) (exp : ℕ) : IntResult :=
  if exp = 0 then .ok 1 else powLoop exp a 1

/-- `a ** b` as computed. -/
def powBySquaring (a b : Word) : IntResult :=
  if b.toInt < 0 then .error .negativeExponent
  else if a = 0 then .ok (if b = 0 then 1 else 0)
  else if a = 1 then .ok 1
  else if a = -1 then .ok (if b.toInt % 2 = 0 then 1 else -1)
  else if 2 ^ 32 ≤ b.toInt then .error .overflow
  else checkedPow a b.toNat

/-- `2 ^ 63` is no square, so a square that does not fit is past it. -/
theorem sq_overflow {x : ℤ} (h : 2 ^ 63 ≤ x * x) : 2 ^ 63 < x * x := by
  refine lt_of_le_of_ne h fun heq ↦ ?_
  have hx : (x.natAbs : ℤ) * x.natAbs = 2 ^ 63 := by rw [Int.natAbs_mul_self', heq]
  have hlt : x.natAbs < 3037000500 ∨ 3037000500 ≤ x.natAbs := lt_or_ge _ _
  rcases hlt with hlt | hge
  · have : (x.natAbs : ℤ) ≤ 3037000499 := by omega
    nlinarith
  · have : (3037000500 : ℤ) ≤ x.natAbs := by omega
    nlinarith

/-- A product that does not fit, or whose square does not, does not fit with the power of it. -/
theorem checked_mul_pow {r x : ℤ} {k : ℕ} (hk : 0 < k) (hr : r = 0 → x = 0)
    (hx : x = 0 → -2 ^ 63 ≤ r ∧ r < 2 ^ 63)
    (h : ¬(-2 ^ 63 ≤ r ∧ r < 2 ^ 63) ∨ ¬(-2 ^ 63 ≤ x * x ∧ x * x < 2 ^ 63)) :
    checked (r * (x * x) ^ k) = .error .overflow := by
  have hx0 : x ≠ 0 := by
    rintro rfl
    rcases h with h | h
    · exact h (hx rfl)
    · exact h (by decide)
  have hr1 : 1 ≤ |r| := Int.one_le_abs fun h ↦ hx0 (hr h)
  have hsq1 : 1 ≤ x * x := by
    have := mul_self_pos.2 hx0
    omega
  have hpow : x * x ≤ (x * x) ^ k := le_self_pow₀ hsq1 (by omega)
  have hpos : 0 ≤ (x * x) ^ k := le_trans (by omega) hpow
  have habs : |r * (x * x) ^ k| = |r| * (x * x) ^ k := by
    rw [abs_mul, abs_of_nonneg hpos]
  by_cases hbig : 2 ^ 63 ≤ x * x
  · refine checked_overflow ?_
    rw [habs]
    have := sq_overflow hbig
    nlinarith
  · have hr' : ¬(-2 ^ 63 ≤ r ∧ r < 2 ^ 63) := h.resolve_right fun h ↦ h ⟨by omega, by omega⟩
    by_cases hone : x * x = 1
    · rw [hone, one_pow, Int.mul_one, checked, if_neg hr']
    · refine checked_overflow ?_
      have h4 : 2 ≤ x * x := by omega
      have hr63 : 2 ^ 63 ≤ |r| := by
        rw [le_abs]
        omega
      rw [habs]
      nlinarith

theorem checked_error {r : ℤ} {t : IntTrap} (h : checked r = .error t) :
    ¬(-2 ^ 63 ≤ r ∧ r < 2 ^ 63) ∧ t = .overflow := by
  unfold checked at h
  split at h
  · cases h
  · rename_i hr
    cases h
    exact ⟨hr, rfl⟩

/-- **A square overflows only when the power does.** -/
theorem powLoop_eq {exp : ℕ} (hexp : 0 < exp) {base acc : Word} (hacc : acc = 0 → base = 0) :
    powLoop exp base acc = checked (acc.toInt * base.toInt ^ exp) := by
  induction exp using Nat.strong_induction_on generalizing base acc with
  | _ exp ih =>
    unfold powLoop
    split
    · obtain rfl : exp = 1 := by omega
      rw [if_pos rfl, pow_one, mul]
    rename_i hgt
    have hacc' : acc.toInt = 0 → base.toInt = 0 := fun h ↦
      toInt_eq_zero.2 (hacc (toInt_eq_zero.1 h))
    -- the product so far, and the result as its product with the square
    obtain ⟨r, hr, hsplit, hr0, hfits⟩ : ∃ r : ℤ,
        (if exp % 2 = 1 then mul acc base else .ok acc) = checked r ∧
          acc.toInt * base.toInt ^ exp = r * (base.toInt * base.toInt) ^ (exp / 2) ∧
          (r = 0 → base.toInt = 0) ∧ (base.toInt = 0 → -2 ^ 63 ≤ r ∧ r < 2 ^ 63) := by
      by_cases hodd : exp % 2 = 1
      · refine ⟨acc.toInt * base.toInt, if_pos hodd, ?_, fun h ↦ ?_, fun h ↦ ?_⟩
        · have hexp' : exp = 2 * (exp / 2) + 1 := by omega
          rw [← sq, ← pow_mul, mul_assoc, ← pow_succ', ← hexp']
        · exact (mul_eq_zero.1 h).elim hacc' id
        · rw [h, Int.mul_zero]
          decide
      · refine ⟨acc.toInt, (if_neg hodd).trans (checked_toInt acc).symm, ?_, hacc',
          fun _ ↦ toInt_range acc⟩
        have hexp' : exp = 2 * (exp / 2) := by omega
        rw [← sq, ← pow_mul, ← hexp']
    simp only [hr]
    rw [hsplit, mul]
    cases hcr : checked r with
    | error t =>
      obtain ⟨hnr, rfl⟩ := checked_error hcr
      rw [checked_mul_pow (by omega) hr0 hfits (.inl hnr)]
      rfl
    | ok w =>
      obtain ⟨-, -, hw⟩ := checked_eq_ok.1 hcr
      cases hcs : checked (base.toInt * base.toInt) with
      | error t =>
        obtain ⟨hns, rfl⟩ := checked_error hcs
        rw [checked_mul_pow (by omega) hr0 hfits (.inr hns)]
        rfl
      | ok s =>
        obtain ⟨-, -, hs⟩ := checked_eq_ok.1 hcs
        have hs0 : w = 0 → s = 0 := fun h ↦ by
          rw [← toInt_eq_zero, hs, hr0 (hw ▸ toInt_eq_zero.2 h), Int.mul_zero]
        have hrec := ih (exp / 2) (by omega) (by omega) hs0
        rw [hw, hs] at hrec
        exact hrec

/-- Power by repeated squaring is the exact power when it fits. -/
theorem checkedPow_eq (a : Word) (exp : ℕ) : checkedPow a exp = checked (a.toInt ^ exp) := by
  unfold checkedPow
  split
  · rename_i h
    rw [h, pow_zero]
    rfl
  · rw [powLoop_eq (by omega) (fun h ↦ absurd h (by decide)), show (1 : Word).toInt = 1 from rfl,
      Int.one_mul]

theorem powBySquaring_eq (a b : Word) : powBySquaring a b = pow a b := by
  rw [powBySquaring, pow, checkedPow_eq]

/-! ### Bits -/

/-- A word with its sign bit set is the negative number whose complement it holds. -/
theorem toInt_of_msb {a : Word} (h : a.msb = true) : a.toInt = Int.negSucc (~~~a).toNat := by
  rw [BitVec.toInt_eq_msb_cond, if_pos h, BitVec.toNat_not]
  have := a.isLt
  omega

theorem toInt_of_not_msb {a : Word} (h : a.msb = false) : a.toInt = Int.ofNat a.toNat := by
  rw [BitVec.toInt_eq_msb_cond, h]
  rfl

theorem toNat_eq_of_bits {m : ℕ} {a : Word} (h : ∀ i, m.testBit i = a.getLsbD i) : a.toNat = m :=
  Nat.eq_of_testBit_eq fun i ↦ (h i).symm

theorem toNat_and_not (a b : Word) : (a &&& ~~~b).toNat = a.toNat.ldiff b.toNat := by
  refine toNat_eq_of_bits fun i ↦ ?_
  rw [Nat.testBit_ldiff, BitVec.testBit_toNat, BitVec.testBit_toNat, BitVec.getLsbD_and,
    BitVec.getLsbD_not]
  by_cases hi : i < 64
  · simp [hi]
  · simp [BitVec.getLsbD_of_ge a i (not_lt.1 hi)]

theorem toInt_and_eq (a b : Word) : (a &&& b).toInt = a.toInt.land b.toInt := by
  cases ha : a.msb <;> cases hb : b.msb
  · rw [toInt_of_not_msb ha, toInt_of_not_msb hb, toInt_of_not_msb (by simp [ha])]
    exact congrArg Int.ofNat (BitVec.toNat_and ..)
  · rw [toInt_of_not_msb ha, toInt_of_msb hb, toInt_of_not_msb (by simp [ha])]
    have h := toNat_and_not a (~~~b)
    rw [BitVec.not_not] at h
    exact congrArg Int.ofNat h
  · rw [toInt_of_msb ha, toInt_of_not_msb hb, toInt_of_not_msb (by simp [hb])]
    have h := toNat_and_not b (~~~a)
    rw [BitVec.not_not, BitVec.and_comm] at h
    exact congrArg Int.ofNat h
  · rw [toInt_of_msb ha, toInt_of_msb hb, toInt_of_msb (by simp [ha, hb]), BitVec.not_and]
    exact congrArg Int.negSucc (BitVec.toNat_or ..)

theorem toInt_or_eq (a b : Word) : (a ||| b).toInt = a.toInt.lor b.toInt := by
  cases ha : a.msb <;> cases hb : b.msb
  · rw [toInt_of_not_msb ha, toInt_of_not_msb hb, toInt_of_not_msb (by simp [ha, hb])]
    exact congrArg Int.ofNat (BitVec.toNat_or ..)
  · rw [toInt_of_not_msb ha, toInt_of_msb hb, toInt_of_msb (by simp [hb]), BitVec.not_or,
      BitVec.and_comm]
    exact congrArg Int.negSucc (toNat_and_not ..)
  · rw [toInt_of_msb ha, toInt_of_not_msb hb, toInt_of_msb (by simp [ha]), BitVec.not_or]
    exact congrArg Int.negSucc (toNat_and_not ..)
  · rw [toInt_of_msb ha, toInt_of_msb hb, toInt_of_msb (by simp [ha]), BitVec.not_or]
    exact congrArg Int.negSucc (BitVec.toNat_and ..)

theorem toInt_xor_eq (a b : Word) : (a ^^^ b).toInt = a.toInt.xor b.toInt := by
  cases ha : a.msb <;> cases hb : b.msb
  · rw [toInt_of_not_msb ha, toInt_of_not_msb hb, toInt_of_not_msb (by simp [ha, hb])]
    exact congrArg Int.ofNat (BitVec.toNat_xor ..)
  · rw [toInt_of_not_msb ha, toInt_of_msb hb, toInt_of_msb (by simp [ha, hb]), BitVec.not_xor_right]
    exact congrArg Int.negSucc (BitVec.toNat_xor ..)
  · rw [toInt_of_msb ha, toInt_of_not_msb hb, toInt_of_msb (by simp [ha, hb]), BitVec.not_xor_left]
    exact congrArg Int.negSucc (BitVec.toNat_xor ..)
  · rw [toInt_of_msb ha, toInt_of_msb hb, toInt_of_not_msb (by simp [ha, hb])]
    have h : a ^^^ b = ~~~a ^^^ ~~~b := by
      rw [← BitVec.not_xor_left, ← BitVec.not_xor_right, BitVec.not_not]
    rw [h]
    exact congrArg Int.ofNat (BitVec.toNat_xor ..)

/-! ### Each operator -/

theorem rem_eq (a b : Word) : rem a b = exactOrTrap .rem a.toInt b.toInt := by
  unfold rem exactOrTrap exact
  simp only [toInt_eq_zero]
  split
  · rfl
  · rename_i hb
    have hb' : b.toInt ≠ 0 := fun h ↦ hb (toInt_eq_zero.1 h)
    -- the remainder is no larger than the dividend
    have hle : (a.toInt.tmod b.toInt).natAbs ≤ a.toInt.natAbs := by
      rw [Int.natAbs_tmod]
      exact Nat.mod_le ..
    have hsmall : (a.toInt.tmod b.toInt).natAbs < b.toInt.natAbs := by
      rw [Int.natAbs_tmod]
      exact Nat.mod_lt _ (by omega)
    have ha := toInt_range a
    have hb := toInt_range b
    have hfit : -2 ^ 63 ≤ a.toInt.tmod b.toInt ∧ a.toInt.tmod b.toInt < 2 ^ 63 := by omega
    exact (if_pos hfit).symm

theorem toNat_of_nonneg {b : Word} (h : 0 ≤ b.toInt) : b.toInt.toNat = b.toNat := by
  rw [BitVec.toInt_eq_toNat_of_msb]
  · rfl
  · by_contra hm
    rw [toInt_of_msb (by simpa using hm)] at h
    omega

theorem shr_eq (a b : Word) : shr a b = exactOrTrap .shr a.toInt b.toInt := by
  by_cases hb : shiftCount b
  · have hval : (a.sshiftRight b.toNat).toInt = a.toInt / 2 ^ b.toNat := by
      rw [BitVec.toInt_sshiftRight, Int.shiftRight_eq_div_pow]
      norm_cast
    have hexact : exact .shr a.toInt b.toInt = .ok (a.sshiftRight b.toNat).toInt := by
      rw [hval, ← toNat_of_nonneg hb.1]
      exact if_pos hb
    rw [shr, if_pos hb, exactOrTrap, hexact]
    exact (checked_toInt _).symm
  · have hexact : exact .shr a.toInt b.toInt = .error .shiftOutOfRange := if_neg hb
    rw [shr, if_neg hb, exactOrTrap, hexact]
    rfl

theorem ofInt_two_pow (n : ℕ) : BitVec.ofInt 64 (2 ^ n) = BitVec.twoPow 64 n := by
  refine BitVec.eq_of_toNat_eq ?_
  rw [BitVec.toNat_twoPow, show ((2 : ℤ) ^ n) = ((2 ^ n : ℕ) : ℤ) by norm_cast,
    BitVec.ofInt_natCast, BitVec.toNat_ofNat]

theorem shl_eq (a b : Word) : shl a b = (exact .shl a.toInt b.toInt).map (BitVec.ofInt 64) := by
  by_cases hb : shiftCount b
  · have hval : a <<< b.toNat = BitVec.ofInt 64 (a.toInt * 2 ^ b.toNat) := by
      rw [BitVec.ofInt_mul, BitVec.ofInt_toInt, BitVec.shiftLeft_eq_mul_twoPow, ofInt_two_pow]
    have hexact : exact .shl a.toInt b.toInt = .ok (a.toInt * 2 ^ b.toNat) := by
      rw [← toNat_of_nonneg hb.1]
      exact if_pos hb
    rw [shl, if_pos hb, hexact, hval]
    rfl
  · have hexact : exact .shl a.toInt b.toInt = .error .shiftOutOfRange := if_neg hb
    rw [shl, if_neg hb, hexact]
    rfl

/-- Powers of numbers other than `0` and `±1` leave the words well before the exponent leaves 32
bits. -/
theorem checked_pow_overflow {x : ℤ} (hx : 2 ≤ |x|) {n : ℕ} (hn : 64 ≤ n) :
    checked (x ^ n) = .error .overflow := by
  refine checked_overflow ?_
  rw [abs_pow]
  calc (2 : ℤ) ^ 63 < 2 ^ 64 := by norm_num
    _ ≤ 2 ^ n := pow_le_pow_right₀ (by norm_num) hn
    _ ≤ |x| ^ n := pow_le_pow_left₀ (by norm_num) hx n

theorem pow_eq (a b : Word) : pow a b = exactOrTrap .pow a.toInt b.toInt := by
  unfold pow
  simp only [exactOrTrap, exact]
  by_cases hneg : b.toInt < 0
  · rw [if_pos hneg, if_pos hneg]
    rfl
  rw [if_neg hneg, if_neg hneg, toNat_of_nonneg (not_lt.1 hneg)]
  show _ = checked (a.toInt ^ b.toNat)
  split
  · rename_i ha
    rw [ha, show (0 : Word).toInt = 0 from rfl]
    split
    · rename_i hb
      rw [hb, show (0 : Word).toNat = 0 from rfl, pow_zero]
      rfl
    · rename_i hb
      have hn : b.toNat ≠ 0 := fun h ↦ hb (BitVec.eq_of_toNat_eq h)
      rw [zero_pow hn]
      rfl
  split
  · rename_i ha
    rw [ha, show (1 : Word).toInt = 1 from rfl, one_pow]
    rfl
  split
  · rename_i ha
    have hpar : b.toInt % 2 = 0 ↔ Even b.toNat := by
      rw [← toNat_of_nonneg (not_lt.1 hneg), Nat.even_iff]
      omega
    rw [ha, show (-1 : Word).toInt = -1 from rfl]
    split
    · rename_i h
      rw [(hpar.1 h).neg_one_pow]
      rfl
    · rename_i h
      rw [(Nat.not_even_iff_odd.1 fun h' ↦ h (hpar.2 h')).neg_one_pow]
      rfl
  split
  · rename_i ha₀ ha₁ ha₂ hb
    have hx : 2 ≤ |a.toInt| := by
      have h₀ : a.toInt ≠ 0 := fun h ↦ ha₀ (toInt_eq_zero.1 h)
      have h₁ : a.toInt ≠ 1 := fun h ↦ ha₁ (BitVec.eq_of_toInt_eq (h.trans (by rfl)))
      have h₂ : a.toInt ≠ -1 := fun h ↦ ha₂ (BitVec.eq_of_toInt_eq (h.trans (by rfl)))
      rw [le_abs]
      omega
    have hn : 64 ≤ b.toNat := by
      rw [← toNat_of_nonneg (not_lt.1 hneg)]
      omega
    exact (checked_pow_overflow hx hn).symm
  · rfl

/-- **Every operator is exact or traps**, but for the bits `<<` drops. -/
theorem int_eq_outcome (op : IntOp) (a b : Word) : int op a b = outcome op a.toInt b.toInt := by
  cases op with
  | add | sub | mul => rfl
  | div =>
    simp only [int, div, outcome, exactOrTrap, exact, toInt_eq_zero]
    split <;> rfl
  | rem => exact rem_eq a b
  | pow => exact pow_eq a b
  | bitAnd =>
    show Except.ok (a &&& b) = checked (a.toInt.land b.toInt)
    rw [← toInt_and_eq, checked_toInt]
  | bitOr =>
    show Except.ok (a ||| b) = checked (a.toInt.lor b.toInt)
    rw [← toInt_or_eq, checked_toInt]
  | xor =>
    show Except.ok (a ^^^ b) = checked (a.toInt.xor b.toInt)
    rw [← toInt_xor_eq, checked_toInt]
  | shl => exact shl_eq a b
  | shr => exact shr_eq a b

end IntArith

end CoilLang
