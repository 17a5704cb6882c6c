import Mathlib.Data.List.Basic

/-!
# Work under interruption

A system with work to do takes steps of its own, and others disturb it.  Every own step takes one off
the work that is left; of the other events some bring new work, `cost` at most.  As soon as the own steps
of a run make up for the work and for all that was brought, the system was done at some moment of it.
-/

namespace Orion.Lib

universe u v

variable {σ : Type u} {ε : Type v}

/-- `left` measures the work as long as the system is not done; `Ok` is the invariant meanwhile. -/
structure Working (step : σ → ε → σ) (own brings : ε → Bool) (cost : ℕ) (Ok Done : σ → Prop) (left : σ → ℕ) :
    Prop where
  keeps : ∀ s e, Ok s → ¬ Done s → Ok (step s e)
  works : ∀ s e, Ok s → ¬ Done s → own e = true → left (step s e) + 1 ≤ left s
  disturbs : ∀ s e, Ok s → ¬ Done s → own e = false →
    left (step s e) ≤ left s + if brings e = true then cost else 0
  finished : ∀ s, Ok s → left s = 0 → Done s

/-- **The work is done at some moment** of every run with enough steps. -/
theorem Working.arrives {step : σ → ε → σ} {own brings : ε → Bool} {cost : ℕ} {Ok Done : σ → Prop} {left : σ → ℕ}
    (h : Working step own brings cost Ok Done left) {s : σ} (hs : Ok s) (es : List ε)
    (henough : left s + cost * es.countP brings ≤ es.countP own) :
    ∃ pre, pre <+: es ∧ Done (pre.foldl step s) ∧ Ok (pre.foldl step s) := by
  induction es generalizing s with
  | nil =>
    refine ⟨[], List.nil_prefix, h.finished s hs ?_, hs⟩
    exact Nat.le_zero.mp (Nat.le_trans (Nat.le_add_right _ _) henough)
  | cons e es ih =>
    by_cases hdone : Done s
    · exact ⟨[], List.nil_prefix, hdone, hs⟩
    · have hbrought : cost * (e :: es).countP brings = cost * es.countP brings + if brings e = true then cost else 0 := by
        rw [List.countP_cons, Nat.mul_add]
        by_cases hbrings : brings e = true
        · rw [if_pos hbrings, if_pos hbrings, Nat.mul_one]
        · rw [if_neg hbrings, if_neg hbrings, Nat.mul_zero]
      rw [hbrought] at henough
      have hnext : left (step s e) + cost * es.countP brings ≤ es.countP own := by
        cases hown : own e with
        | true =>
          have hless := h.works s e hs hdone hown
          rw [List.countP_cons_of_pos hown] at henough
          omega
        | false =>
          have hmore := h.disturbs s e hs hdone hown
          rw [List.countP_cons_of_neg (by rw [hown]; exact Bool.false_ne_true)] at henough
          omega
      obtain ⟨pre, hpre, harrived⟩ := ih (h.keeps s e hs hdone) hnext
      exact ⟨e :: pre, List.cons_prefix_cons.mpr ⟨rfl, hpre⟩, harrived⟩

end Orion.Lib
