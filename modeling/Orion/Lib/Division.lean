import Mathlib.Data.Nat.Bitwise
import Mathlib.Tactic.Ring

/-!
# Restoring division

A number is divided from its highest bit down: with each bit the remainder doubles, and the divisor is taken
from it if it is there (`Divided.take`, `Divided.skip`).  What is known in between is the quotient and the
remainder of the bits that were read (`Divided`).
-/

namespace Orion.Lib

/-- The quotient and the remainder of `p`. -/
structure Divided (p d q r : ℕ) : Prop where
  eq : p = q * d + r
  lt : r < d

namespace Divided

variable {p d q r b : ℕ}

theorem zero (hd : 0 < d) : Divided 0 d 0 0 := ⟨by simp, hd⟩

theorem take (h : Divided p d q r) (hb : b < 2) (hle : d ≤ 2 * r + b) :
    Divided (2 * p + b) d (2 * q + 1) (2 * r + b - d) where
  eq := by
    have hq : (2 * q + 1) * d = 2 * (q * d) + d := by ring
    rw [hq, h.eq]
    omega
  lt := by
    have hlt := h.lt
    omega

theorem skip (h : Divided p d q r) (hlt : 2 * r + b < d) : Divided (2 * p + b) d (2 * q) (2 * r + b) where
  eq := by
    have hq : 2 * q * d = 2 * (q * d) := by ring
    rw [hq, h.eq]
    omega
  lt := hlt

/-- The remainder is not above what was read. -/
theorem remainder_le (h : Divided p d q r) : r ≤ p := by
  rw [h.eq]
  exact Nat.le_add_left r (q * d)

theorem quotient_eq (h : Divided p d q r) : q = p / d := by
  have hd : 0 < d := (Nat.zero_le r).trans_lt h.lt
  rw [h.eq, Nat.add_comm, Nat.add_mul_div_right r q hd, Nat.div_eq_of_lt h.lt, Nat.zero_add]

theorem remainder_eq (h : Divided p d q r) : r = p % d := by
  rw [h.eq, Nat.mul_add_mod_self_right, Nat.mod_eq_of_lt h.lt]

end Divided

/-- The bits of a number down to one of them. -/
theorem div_two_pow_eq (n i : ℕ) : n / 2 ^ i = 2 * (n / 2 ^ (i + 1)) + n / 2 ^ i % 2 := by
  rw [pow_succ, ← Nat.div_div_eq_div_mul]
  exact (Nat.div_add_mod (n / 2 ^ i) 2).symm

end Orion.Lib
