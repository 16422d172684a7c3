import Mathlib.Algebra.Order.Ring.Nat
import Mathlib.Tactic.Ring

/-!
# Divisibility by a multiplication

For a modulus `M` the **reciprocal** of `d` is `M / d` rounded up. The remainder of `n` times the reciprocal is
small exactly when `d` divides `n`, as long as `d * n < M`: with `reciprocal * d = M + e` and `n = q * d + r`, it
is `q * e + r * reciprocal`, which does not wrap, and where the first term is below the reciprocal
(`mul_reciprocal_mod`).
-/

namespace CoilLang

/-- `M / d` rounded up. -/
def reciprocal (M d : ℕ) : ℕ := (M - 1) / d + 1

variable {M d n : ℕ}

/-- The reciprocal is too large by less than `1 / d`. -/
theorem exists_reciprocal_mul_eq (hd : 0 < d) (hM : 0 < M) : ∃ e < d, reciprocal M d * d = M + e := by
  have hdiv := Nat.div_add_mod (M - 1) d
  have hmod := Nat.mod_lt (M - 1) hd
  refine ⟨d - 1 - (M - 1) % d, by omega, ?_⟩
  rw [reciprocal, Nat.add_mul, Nat.mul_comm ((M - 1) / d), Nat.one_mul]
  omega

/-- What is left of `n` times the reciprocal. -/
theorem mul_reciprocal_mod {e : ℕ} (hd : 0 < d) (h : d * n < M) (he : e < d)
    (hc : reciprocal M d * d = M + e) :
    n * reciprocal M d % M = n / d * e + n % d * reciprocal M d := by
  have hn := Nat.div_add_mod n d
  have hr := Nat.mod_lt n hd
  have hsplit : n * reciprocal M d = n / d * e + n % d * reciprocal M d + n / d * M := by
    calc n * reciprocal M d
        = (d * (n / d) + n % d) * reciprocal M d := by rw [hn]
      _ = n / d * (reciprocal M d * d) + n % d * reciprocal M d := by ring
      _ = n / d * e + n % d * reciprocal M d + n / d * M := by rw [hc]; ring
  -- times `d` the rest is `e * n + r * M`, and both `e * n < M` and `r < d`
  have hlt : n / d * e + n % d * reciprocal M d < M := by
    refine Nat.lt_of_mul_lt_mul_left (a := d) ?_
    have hen : e * n < M := (Nat.mul_le_mul_right n he.le).trans_lt h
    calc d * (n / d * e + n % d * reciprocal M d)
        = d * (n / d) * e + n % d * (reciprocal M d * d) := by ring
      _ = e * (d * (n / d) + n % d) + n % d * M := by rw [hc]; ring
      _ < M + n % d * M := by rw [hn]; exact Nat.add_lt_add_right hen _
      _ = (n % d + 1) * M := by ring
      _ ≤ d * M := Nat.mul_le_mul_right M hr
  rw [hsplit, Nat.add_mul_mod_self_right, Nat.mod_eq_of_lt hlt]

/-- **A product that is small after wrapping tells divisibility.** -/
theorem mul_reciprocal_mod_lt_iff (hd : 0 < d) (h : d * n < M) :
    n * reciprocal M d % M < reciprocal M d ↔ d ∣ n := by
  obtain ⟨e, he, hc⟩ := exists_reciprocal_mul_eq hd (Nat.zero_lt_of_lt h)
  rw [mul_reciprocal_mod hd h he hc, Nat.dvd_iff_mod_eq_zero]
  constructor
  · intro hlt
    by_contra hr
    have hle : 1 * reciprocal M d ≤ n % d * reciprocal M d :=
      Nat.mul_le_mul_right _ (Nat.pos_of_ne_zero hr)
    omega
  · intro hr
    -- `q * e ≤ n`, and `n` is below the reciprocal
    have hqe : n / d * e ≤ n := (Nat.mul_le_mul_left _ he.le).trans (Nat.div_mul_le_self n d)
    have hn : n < reciprocal M d := by
      refine Nat.lt_of_mul_lt_mul_left (a := d) ?_
      rw [Nat.mul_comm d (reciprocal M d), hc]
      omega
    rw [hr, Nat.zero_mul, Nat.add_zero]
    exact hqe.trans_lt hn

end CoilLang
