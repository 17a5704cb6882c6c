import Orion.Lib.Traced

/-!
# The machine under the network code

The kernel is built for two architectures, which differ in the width of `size_t`.  The network code
reaches the outside through the timer and the network device; a `World` says what these two do, call
by call:

* `ticks k` — the `k`-th reading of `timer_ticks()`;
* `frames k` — the frames that the `k`-th call of `netdev_poll` delivers;
* `txOk k` — whether the `k`-th call of `netdev_tx` succeeds.

The Internet checksum and 32-bit arithmetic, which `net.c` and `dhcp.c` both have, are here too.
-/

namespace Orion

inductive Arch where
  | x86_64
  | i686
  deriving Repr, DecidableEq

/-- The width of `size_t`. -/
def Arch.sizeBits : Arch → ℕ
  | .x86_64 => 64
  | .i686 => 32

structure World where
  arch : Arch
  hz : ℕ
  ticks : ℕ → ℕ
  frames : ℕ → List Buffer
  txOk : ℕ → Bool

/-- A machine whose device delivers nothing. -/
def World.quiet : World := ⟨.x86_64, 100, fun k => k, fun _ => [], fun _ => true⟩

/-! ## Machine integers -/

def u16 (n : ℕ) : ℕ := n % 2 ^ 16

def u32 (n : ℕ) : ℕ := n % 2 ^ 32

def u64 (n : ℕ) : ℕ := n % 2 ^ 64

/-- Subtraction of 32-bit values. -/
def sub32 (a b : ℕ) : ℕ := u32 (a + 2 ^ 32 - b)

/-- A value converted to `size_t`. -/
def Arch.size (a : Arch) (n : ℕ) : ℕ := n % 2 ^ a.sizeBits

/-- A difference of two small values (below `2^16`), converted to `size_t`. -/
def Arch.sizeSub (a : Arch) (m n : ℕ) : ℕ := a.size (m + 2 ^ a.sizeBits - n)

theorem u32_lt (n : ℕ) : u32 n < 2 ^ 32 := Nat.mod_lt _ (by norm_num)

theorem u32_of_lt {n : ℕ} (h : n < 2 ^ 32) : u32 n = n := Nat.mod_eq_of_lt h

theorem u64_of_lt {n : ℕ} (h : n < 2 ^ 64) : u64 n = n := Nat.mod_eq_of_lt h

theorem Arch.sizeBits_ge (a : Arch) : 32 ≤ a.sizeBits := by
  cases a <;> simp [Arch.sizeBits]

theorem Arch.le_two_pow (a : Arch) : 2 ^ 32 ≤ 2 ^ a.sizeBits :=
  Nat.pow_le_pow_right (by norm_num) a.sizeBits_ge

/-- The difference is exact when it is not negative. -/
theorem Arch.sizeSub_of_le (a : Arch) {m n : ℕ} (h : n ≤ m) (hm : m < 2 ^ 32) :
    a.sizeSub m n = m - n := by
  have hw := a.le_two_pow
  unfold Arch.sizeSub Arch.size
  rw [show m + 2 ^ a.sizeBits - n = m - n + 2 ^ a.sizeBits by omega, Nat.add_mod_right]
  exact Nat.mod_eq_of_lt (by omega)

/-- A negative difference becomes a huge one. -/
theorem Arch.sizeSub_of_lt (a : Arch) {m n : ℕ} (h : m < n) :
    a.sizeSub m n = m + 2 ^ a.sizeBits - n := by
  have hw := a.le_two_pow
  unfold Arch.sizeSub Arch.size
  exact Nat.mod_eq_of_lt (by omega)

/-! ## The clock -/

/-- Milliseconds at the `k`-th reading of the timer, as `now_ms` computes them. -/
def World.ms (w : World) (k : ℕ) : ℕ := u32 (u64 (w.ticks k * 1000) / w.hz)

/-! ## The Internet checksum -/

/-- The sum of the big-endian 16-bit words of a byte string, padded with a zero byte. -/
def sumWords : List UInt8 → ℕ
  | a :: b :: rest => a.toNat * 256 + b.toNat + sumWords rest
  | [a] => a.toNat * 256
  | [] => 0

/-- `while (sum >> 16) sum = (sum & 0xffff) + (sum >> 16);` -/
def foldCarry : ℕ → ℕ → ℕ
  | 0, sum => sum
  | fuel + 1, sum => if sum / 2 ^ 16 = 0 then sum else foldCarry fuel (sum % 2 ^ 16 + sum / 2 ^ 16)

/-- The folded complement of a 32-bit sum, which three turns fold. -/
def foldSum (sum : ℕ) : ℕ := 0xffff - foldCarry 3 (u32 sum) % 2 ^ 16

/-- `checksum16`, and `dhcp_checksum16`. -/
def checksum16 (data : List UInt8) : ℕ := foldSum (sumWords data)

end Orion
