import Mathlib.Data.List.Range
import Mathlib.Tactic.Ring

/-!
# Texts made of chunks

A table is often written row after row, and each row cell after cell.  `chunks n f` are `n` chunks, the
`k`-th of which is `f k`; where all have one length, the place of a byte is known (`getElem?_chunks`), and
numbering through the rows is numbering through the whole (`chunks_grid`).
-/

namespace Orion

variable {α : Type*}

/-- The chunks `f 0`, `f 1`, …, one after another. -/
def chunks (n : ℕ) (f : ℕ → List α) : List α := (List.range n).flatMap f

@[simp] theorem chunks_zero (f : ℕ → List α) : chunks 0 f = [] := rfl

theorem chunks_succ (n : ℕ) (f : ℕ → List α) : chunks (n + 1) f = chunks n f ++ f n := by
  simp [chunks, List.range_succ]

theorem chunks_congr {n : ℕ} {f g : ℕ → List α} (h : ∀ k < n, f k = g k) : chunks n f = chunks n g := by
  induction n with
  | zero => rfl
  | succ n ih =>
    rw [chunks_succ, chunks_succ, ih fun k hk => h k (by omega), h n (by omega)]

theorem mem_chunks {n : ℕ} {f : ℕ → List α} {a : α} : a ∈ chunks n f ↔ ∃ k < n, a ∈ f k := by
  simp [chunks]

variable {m : ℕ} {f : ℕ → List α}

theorem length_chunks (hf : ∀ k, (f k).length = m) (n : ℕ) : (chunks n f).length = n * m := by
  induction n with
  | zero => simp
  | succ n ih => rw [chunks_succ, List.length_append, ih, hf, Nat.add_mul, Nat.one_mul]

theorem getElem?_chunks (hf : ∀ k, (f k).length = m) {n k j : ℕ} (hk : k < n) (hj : j < m) :
    (chunks n f)[k * m + j]? = (f k)[j]? := by
  induction n with
  | zero => omega
  | succ n ih =>
    have hlen := length_chunks hf n
    rw [chunks_succ]
    rcases Nat.lt_or_ge k n with hlt | hge
    · have hin : (k + 1) * m ≤ n * m := Nat.mul_le_mul_right m hlt
      rw [Nat.add_mul, Nat.one_mul] at hin
      rw [List.getElem?_append_left (by omega)]
      exact ih hlt
    · obtain rfl : k = n := by omega
      rw [List.getElem?_append_right (by omega), hlen, Nat.add_sub_cancel_left]

/-- Rows of numbered cells are cells that are numbered through. -/
theorem chunks_grid (g : ℕ → List α) (n m : ℕ) :
    chunks n (fun y => chunks m fun x => g (y * m + x)) = chunks (n * m) g := by
  induction n with
  | zero => simp
  | succ n ih =>
    rw [chunks_succ, ih, Nat.add_mul, Nat.one_mul, chunks, chunks, chunks, List.range_add,
      List.flatMap_append, List.flatMap_map]

end Orion
