/-
Restoring division on natural numbers: the divisor starts `k` bits to the left and moves right, and every position gives
one quotient bit by a trial subtraction.

Nothing in this file is about a particular circuit. `Partial` is the state of the loop, `keep` and `subtract` are its two
step rules, and `quotient_eq` and `remainder_eq` read the result off when the divisor is back in place. A zero divisor is
never greater than the remainder, so its quotient bits are all one: `zero_divisor`.
-/
import Mathlib.Tactic

namespace FpgaLearning.RestoringDivision

/-- the quotient bits above position `k` are in `q` and `r` is what is left of the dividend -/
structure Partial (n d k q r : ℕ) : Prop where
  sum : n = q * (d * 2 ^ k) + r
  small : r < d * 2 ^ k

variable {n d k q r : ℕ}

theorem Partial.start (h : n < d * 2 ^ k) : Partial n d k 0 n := ⟨by simp, h⟩

/-- the trial subtraction fails -/
theorem Partial.keep (h : Partial n d (k + 1) q r) (hlt : r < d * 2 ^ k) : Partial n d k (2 * q) r := by
  refine ⟨?_, hlt⟩
  calc n = q * (d * 2 ^ (k + 1)) + r := h.sum
    _ = 2 * q * (d * 2 ^ k) + r := by ring

/-- the trial subtraction succeeds -/
theorem Partial.subtract (h : Partial n d (k + 1) q r) (hle : d * 2 ^ k ≤ r) :
    Partial n d k (2 * q + 1) (r - d * 2 ^ k) := by
  have hsmall := h.small
  rw [show d * 2 ^ (k + 1) = 2 * (d * 2 ^ k) by ring] at hsmall
  refine ⟨?_, by omega⟩
  calc n = q * (d * 2 ^ (k + 1)) + r := h.sum
    _ = q * (d * 2 ^ (k + 1)) + (d * 2 ^ k + (r - d * 2 ^ k)) := by rw [Nat.add_sub_cancel' hle]
    _ = (2 * q + 1) * (d * 2 ^ k) + (r - d * 2 ^ k) := by ring

theorem Partial.quotient_eq (h : Partial n d 0 q r) : q = n / d := by
  have hsum := h.sum
  have hsmall := h.small
  rw [pow_zero, mul_one] at hsum hsmall
  rw [hsum, mul_comm q d, Nat.mul_add_div (by omega), Nat.div_eq_of_lt hsmall, add_zero]

theorem Partial.remainder_eq (h : Partial n d 0 q r) : r = n % d := by
  have hsum := h.sum
  have hsmall := h.small
  rw [pow_zero, mul_one] at hsum hsmall
  rw [hsum, mul_comm q d, Nat.mul_add_mod, Nat.mod_eq_of_lt hsmall]

/-- one step of the loop against a zero divisor: the quotient bit is one -/
theorem zero_divisor (h : q + 1 = 2 ^ k) : 2 * q + 1 + 1 = 2 ^ (k + 1) := by rw [pow_succ, ← h]; ring

end FpgaLearning.RestoringDivision
