import Orion.Lib.Division

/-!
# Division on i686 (`kernel/i686/builtins.c`)

The compiler calls these functions for every 64-bit division of the 32-bit kernel.
-/

namespace Orion.Builtins

open Orion.Lib

/-! ## The functions -/

/-- The quotient and the remainder. -/
structure Division where
  q : BitVec 64
  r : BitVec 64
  deriving Repr, DecidableEq

/-- The body of the loop. -/
def turn (n d : BitVec 64) (i : ℕ) (s : Division) : Division :=
  let r := (s.r <<< 1) ||| ((n >>> i) &&& 1#64)
  if r ≥ d then ⟨s.q ||| (1#64 <<< i), r - d⟩ else ⟨s.q, r⟩

/-- What the loop has after `done` turns; the next one is for the bit `63 - done`. -/
def turns (n d : BitVec 64) : ℕ → Division
  | 0 => ⟨0, 0⟩
  | done + 1 => turn n d (63 - done) (turns n d done)

def udivmod64 (n d : BitVec 64) : Division := if d = 0 then ⟨BitVec.allOnes 64, n⟩ else turns n d 64

def udivdi3 (n d : BitVec 64) : BitVec 64 := (udivmod64 n d).q

def umoddi3 (n d : BitVec 64) : BitVec 64 := (udivmod64 n d).r

def udivmoddi4 (n d : BitVec 64) : Division := udivmod64 n d

/-! ## Words as numbers -/

theorem toNat_bit (n : BitVec 64) (i : ℕ) : ((n >>> i) &&& 1#64).toNat = n.toNat / 2 ^ i % 2 := by
  rw [BitVec.toNat_and, BitVec.toNat_ushiftRight, Nat.shiftRight_eq_div_pow]
  exact Nat.and_one_is_mod _

/-- A remainder without its top bit is doubled, and has room for a bit. -/
theorem toNat_shift {r b : BitVec 64} (hr : r.toNat < 2 ^ 63) (hb : b.toNat < 2) :
    ((r <<< 1) ||| b).toNat = 2 * r.toNat + b.toNat := by
  have hdouble : (r <<< 1).toNat = 2 ^ 1 * r.toNat := by
    rw [BitVec.toNat_shiftLeft, Nat.shiftLeft_eq]
    omega
  rw [BitVec.toNat_or, hdouble, ← Nat.two_pow_add_eq_or_of_lt (by omega)]

/-- A quotient gets a bit below all of its others. -/
theorem toNat_set {q : BitVec 64} {i k : ℕ} (hq : q.toNat = k * 2 ^ (i + 1)) (hi : i < 64) :
    (q ||| (1#64 <<< i)).toNat = (2 * k + 1) * 2 ^ i := by
  have hbit : (1#64 <<< i).toNat = 2 ^ i := by
    rw [BitVec.toNat_shiftLeft, BitVec.toNat_ofNat, Nat.shiftLeft_eq]
    have hlt : 2 ^ i < 2 ^ 64 := Nat.pow_lt_pow_right (by decide) hi
    rw [Nat.one_mod_eq_one.mpr (by decide), one_mul, Nat.mod_eq_of_lt hlt]
  rw [BitVec.toNat_or, hbit, hq, Nat.mul_comm k,
    ← Nat.two_pow_add_eq_or_of_lt (Nat.pow_lt_pow_right (by decide) (Nat.lt_add_one i))]
  ring

/-! ## The loop -/

/-- The bits from `i` on were read. -/
def Scanned (n d : BitVec 64) (i : ℕ) (s : Division) : Prop :=
  ∃ k, s.q.toNat = k * 2 ^ i ∧ Divided (n.toNat / 2 ^ i) d.toNat k s.r.toNat

/-- The remainder is not above the bits that were read, so its top bit is clear as long as there are more,
also where the divisor is above `2 ^ 63`. -/
theorem Scanned.remainder_lt {n d : BitVec 64} {i : ℕ} {s : Division} (h : Scanned n d (i + 1) s) :
    s.r.toNat < 2 ^ 63 := by
  obtain ⟨k, -, hdiv⟩ := h
  have hn := n.isLt
  calc s.r.toNat ≤ n.toNat / 2 ^ (i + 1) := hdiv.remainder_le
    _ ≤ n.toNat / 2 ^ 1 := Nat.div_le_div_left (Nat.pow_le_pow_right (by decide) (by omega)) (by decide)
    _ < 2 ^ 63 := by omega

theorem turn_scanned {n d : BitVec 64} {i : ℕ} (hi : i < 64) {s : Division} (h : Scanned n d (i + 1) s) :
    Scanned n d i (turn n d i s) := by
  have htop := h.remainder_lt
  obtain ⟨k, hq, hdiv⟩ := h
  have hbit : ((n >>> i) &&& 1#64).toNat < 2 := by
    rw [toNat_bit]
    exact Nat.mod_lt _ (by decide)
  have hshift := toNat_shift htop hbit
  have hread : n.toNat / 2 ^ i = 2 * (n.toNat / 2 ^ (i + 1)) + ((n >>> i) &&& 1#64).toNat := by
    rw [toNat_bit]
    exact div_two_pow_eq n.toNat i
  rw [turn]
  split
  · next hle =>
    have hle' : d.toNat ≤ 2 * s.r.toNat + ((n >>> i) &&& 1#64).toNat := by
      rw [← hshift]
      exact hle
    refine ⟨2 * k + 1, toNat_set hq hi, ?_⟩
    rw [hread, BitVec.toNat_sub_of_le hle, hshift]
    exact hdiv.take hbit hle'
  · next hlt =>
    have hlt' : 2 * s.r.toNat + ((n >>> i) &&& 1#64).toNat < d.toNat := by
      rw [← hshift]
      exact BitVec.not_le.mp hlt
    refine ⟨2 * k, ?_, ?_⟩
    · rw [hq, pow_succ]
      ring
    · rw [hread, hshift]
      exact hdiv.skip hlt'

theorem turns_scanned {n d : BitVec 64} (hd : d ≠ 0) : ∀ {done left : ℕ}, done + left = 64 →
    Scanned n d left (turns n d done) := by
  intro done
  induction done with
  | zero =>
    intro left hleft
    obtain rfl : left = 64 := by omega
    refine ⟨0, rfl, ?_⟩
    rw [Nat.div_eq_of_lt n.isLt]
    exact Divided.zero (Nat.pos_of_ne_zero fun h => hd (BitVec.eq_of_toNat_eq h))
  | succ done ih =>
    intro left hleft
    rw [turns, show 63 - done = left by omega]
    exact turn_scanned (by omega) (ih (by omega))

theorem udivmod64_divided (n d : BitVec 64) (hd : d ≠ 0) :
    Divided n.toNat d.toNat (udivmod64 n d).q.toNat (udivmod64 n d).r.toNat := by
  obtain ⟨k, hq, hdiv⟩ := turns_scanned (n := n) hd (show 64 + 0 = 64 from rfl)
  rw [pow_zero, Nat.mul_one] at hq
  rw [pow_zero, Nat.div_one, ← hq] at hdiv
  rw [udivmod64, if_neg hd]
  exact hdiv

/-- **Division is exact**, and doubling the remainder never loses a bit. -/
theorem udivmod64_exact (n d : BitVec 64) (hd : d ≠ 0) :
    n.toNat = (udivmod64 n d).q.toNat * d.toNat + (udivmod64 n d).r.toNat ∧
      (udivmod64 n d).r.toNat < d.toNat ∧
      ∀ done < 64, ((turns n d done).r <<< 1).toNat = 2 * (turns n d done).r.toNat := by
  have hdiv := udivmod64_divided n d hd
  refine ⟨hdiv.eq, hdiv.lt, fun done hdone => ?_⟩
  obtain ⟨left, hleft⟩ : ∃ left, done + (left + 1) = 64 := ⟨63 - done, by omega⟩
  have htop := (turns_scanned (n := n) hd hleft).remainder_lt
  rw [BitVec.toNat_shiftLeft, Nat.shiftLeft_eq]
  omega

/-- A divisor above `2 ^ 63`. -/
theorem udivmod64_exact_large :
    (-1#64).toNat = (udivmod64 (-1#64) (-2#64)).q.toNat * (-2#64).toNat + (udivmod64 (-1#64) (-2#64)).r.toNat ∧
      (udivmod64 (-1#64) (-2#64)).r.toNat < (-2#64).toNat ∧
      ∀ done < 64, ((turns (-1#64) (-2#64) done).r <<< 1).toNat = 2 * (turns (-1#64) (-2#64) done).r.toNat :=
  udivmod64_exact (-1#64) (-2#64) (by decide)

/-- The functions of the compiler divide as `/` and `%` do. -/
theorem udivdi3_eq (n d : BitVec 64) (hd : d ≠ 0) : udivdi3 n d = n / d := by
  apply BitVec.eq_of_toNat_eq
  rw [BitVec.toNat_udiv]
  exact (udivmod64_divided n d hd).quotient_eq

theorem umoddi3_eq (n d : BitVec 64) (hd : d ≠ 0) : umoddi3 n d = n % d := by
  apply BitVec.eq_of_toNat_eq
  rw [BitVec.toNat_umod]
  exact (udivmod64_divided n d hd).remainder_eq

end Orion.Builtins
