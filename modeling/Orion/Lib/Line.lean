import Mathlib.Algebra.Order.Ring.Int
import Mathlib.Logic.Function.Iterate
import Mathlib.Tactic.Linarith
import Mathlib.Tactic.LinearCombination
import Mathlib.Tactic.Ring

/-!
# Digital lines

A walk on the grid from `(0, 0)` to `(dx, dy)`, steered by an accumulated error.  With `i` steps along
the one axis and `j` along the other the error is `dx * (j + 1) - dy * (i + 1)`, and it stays so close to
0 that the walk takes a step along the longer axis every time (`Steered`), and reaches both ends at once
(`walk_end_iff`).
-/

namespace Orion.Lib

structure Walker where
  i : ℤ
  j : ℤ
  err : ℤ
  deriving DecidableEq

namespace Walker

/-- A step along the first axis, along the second one, or both. -/
def step (dx dy : ℤ) (s : Walker) : Walker where
  i := if -dy ≤ 2 * s.err then s.i + 1 else s.i
  j := if 2 * s.err ≤ dx then s.j + 1 else s.j
  err := s.err - (if -dy ≤ 2 * s.err then dy else 0) + if 2 * s.err ≤ dx then dx else 0

/-- The walk after `n` steps. -/
def walk (dx dy : ℤ) (n : ℕ) : Walker := (step dx dy)^[n] ⟨0, 0, dx - dy⟩

theorem walk_succ (dx dy : ℤ) (n : ℕ) : walk dx dy (n + 1) = step dx dy (walk dx dy n) :=
  Function.iterate_succ_apply' (step dx dy) n ⟨0, 0, dx - dy⟩

/-! ## The two axes -/

/-- The walk with its axes changed. -/
def swap (s : Walker) : Walker := ⟨s.j, s.i, -s.err⟩

theorem step_swap (dx dy : ℤ) (s : Walker) : step dy dx s.swap = (step dx dy s).swap := by
  have hi : -dx ≤ 2 * -s.err ↔ 2 * s.err ≤ dx := by omega
  have hj : 2 * -s.err ≤ dy ↔ -dy ≤ 2 * s.err := by omega
  simp only [step, swap, hi, hj, mk.injEq, true_and]
  ring

theorem walk_swap (dx dy : ℤ) (n : ℕ) : walk dy dx n = (walk dx dy n).swap := by
  induction n with
  | zero =>
    show Walker.mk 0 0 (dy - dx) = ⟨0, 0, -(dx - dy)⟩
    rw [neg_sub]
  | succ n ih => rw [walk_succ, walk_succ, ih, step_swap]

/-! ## The error -/

/-- A walk whose first axis is the longer one, after `n` steps. -/
structure Steered (dx dy : ℤ) (n : ℕ) (s : Walker) : Prop where
  steps : s.i = n
  nonneg : 0 ≤ s.j
  le_steps : s.j ≤ s.i
  err_eq : s.err = dx * (s.j + 1) - dy * (s.i + 1)
  lower : -dy ≤ 2 * s.err
  upper : 2 * s.err ≤ 3 * dx - 2 * dy

section

variable {dx dy : ℤ} (hdy : 0 ≤ dy) (hlong : dy ≤ dx)

include hdy hlong

theorem Steered.step {n : ℕ} {s : Walker} (h : Steered dx dy n s) : Steered dx dy (n + 1) (s.step dx dy) := by
  obtain ⟨hsteps, hnonneg, hle, herr, hlower, hupper⟩ := h
  have hnext : s.i + 1 = (n + 1 : ℕ) := by
    rw [hsteps]
    rfl
  unfold Walker.step
  rw [if_pos hlower, if_pos hlower]
  by_cases hj : 2 * s.err ≤ dx
  · rw [if_pos hj, if_pos hj]
    refine ⟨hnext, ?_, ?_, ?_, ?_, ?_⟩ <;> dsimp only
    · linarith
    · linarith
    · linear_combination herr
    · linarith
    · linarith
  · rw [if_neg hj, if_neg hj]
    refine ⟨hnext, ?_, ?_, ?_, ?_, ?_⟩ <;> dsimp only
    · exact hnonneg
    · linarith
    · linear_combination herr
    · linarith
    · linarith

theorem steered (n : ℕ) : Steered dx dy n (walk dx dy n) := by
  induction n with
  | zero =>
    refine ⟨rfl, le_rfl, le_rfl, ?_, ?_, ?_⟩
    · show dx - dy = dx * (0 + 1) - dy * (0 + 1)
      ring
    · show -dy ≤ 2 * (dx - dy)
      linarith
    · show 2 * (dx - dy) ≤ 3 * dx - 2 * dy
      linarith
  | succ n ih =>
    rw [walk_succ]
    exact ih.step hdy hlong

/-- The shorter axis is not left. -/
theorem Steered.le {n : ℕ} {s : Walker} (h : Steered dx dy n s) (hn : n ≤ dx) : s.j ≤ dy := by
  have hi : s.i ≤ dx := h.steps.trans_le hn
  by_contra hover
  have hmul : dy * s.i ≤ dy * dx := mul_le_mul_of_nonneg_left hi hdy
  have hnext : dx * (dy + 1) ≤ dx * s.j := mul_le_mul_of_nonneg_left (by omega) (hdy.trans hlong)
  have herr := h.err_eq
  have hupper := h.upper
  have hle := h.le_steps
  linarith

/-- At the end of the longer axis the shorter one is at its end, too. -/
theorem Steered.end_eq {n : ℕ} {s : Walker} (h : Steered dx dy n s) (hn : n = dx) : s.j = dy := by
  have hi : s.i = dx := h.steps.trans hn
  refine le_antisymm (h.le hdy hlong hn.le) ?_
  by_contra hunder
  have hnext : dx * (s.j + 1) ≤ dx * dy := mul_le_mul_of_nonneg_left (by omega) (hdy.trans hlong)
  have herr := h.err_eq
  have hlower := h.lower
  have hnonneg := h.nonneg
  rw [hi] at herr
  linarith

end

/-! ## The walk -/

section

variable {dx dy : ℤ} (hdx : 0 ≤ dx) (hdy : 0 ≤ dy)

include hdx hdy

/-- The longer axis is the first one or, with the axes changed, the second one. -/
theorem longer_first {P : ℤ → ℤ → Walker → Prop} {n : ℕ} (hswap : ∀ a b s, P a b (swap s) → P b a s)
    (hfirst : ∀ a b, 0 ≤ b → b ≤ a → P a b (walk a b n)) : P dx dy (walk dx dy n) := by
  rcases le_total dy dx with hlong | hlong
  · exact hfirst dx dy hdy hlong
  · refine hswap dy dx _ ?_
    rw [← walk_swap]
    exact hfirst dy dx hdx hlong

/-- **The walk stays between its ends**, and the error small. -/
theorem walk_inside {n : ℕ} (hn : n ≤ max dx dy) :
    (0 ≤ (walk dx dy n).i ∧ (walk dx dy n).i ≤ dx) ∧ (0 ≤ (walk dx dy n).j ∧ (walk dx dy n).j ≤ dy) ∧
      |2 * (walk dx dy n).err| ≤ 3 * max dx dy := by
  have hmain := longer_first hdx hdy (n := n) (P := fun a b s => n ≤ max a b →
    (0 ≤ s.i ∧ s.i ≤ a) ∧ (0 ≤ s.j ∧ s.j ≤ b) ∧ |2 * s.err| ≤ 3 * max a b)
  refine hmain ?_ ?_ hn
  · intro a b s h hle
    obtain ⟨hi, hj, herr⟩ := h (by rwa [max_comm])
    refine ⟨hj, hi, ?_⟩
    rw [max_comm, ← abs_neg, ← mul_neg]
    exact herr
  · intro a b hb hlong hle
    rw [max_eq_left hlong] at hle ⊢
    have h := steered hb hlong n
    have hsteps := h.steps
    refine ⟨⟨by omega, by omega⟩, ⟨h.nonneg, h.le hb hlong hle⟩, abs_le.mpr ⟨?_, ?_⟩⟩
    · have hlower := h.lower
      linarith
    · have hupper := h.upper
      linarith

/-- **Both ends are reached at once, and not before.** -/
theorem walk_end_iff {n : ℕ} (hn : n ≤ max dx dy) :
    ((walk dx dy n).i = dx ∧ (walk dx dy n).j = dy) ↔ n = max dx dy := by
  have hmain := longer_first hdx hdy (n := n) (P := fun a b s => n ≤ max a b →
    ((s.i = a ∧ s.j = b) ↔ n = max a b))
  refine hmain ?_ ?_ hn
  · intro a b s h hle
    rw [and_comm, max_comm]
    exact h (by rwa [max_comm])
  · intro a b hb hlong hle
    rw [max_eq_left hlong]
    have h := steered hb hlong n
    constructor
    · intro hend
      exact h.steps.symm.trans hend.1
    · intro heq
      exact ⟨h.steps.trans heq, h.end_eq hb hlong heq⟩

end

/-- A step is at most one along each axis. -/
theorem step_near (dx dy : ℤ) (s : Walker) :
    (s.i ≤ (step dx dy s).i ∧ (step dx dy s).i ≤ s.i + 1) ∧
      (s.j ≤ (step dx dy s).j ∧ (step dx dy s).j ≤ s.j + 1) := by
  unfold step
  dsimp only
  constructor
  · split <;> omega
  · split <;> omega

end Walker

end Orion.Lib
