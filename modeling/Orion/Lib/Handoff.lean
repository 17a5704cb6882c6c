import Mathlib.Logic.Function.Basic
import Orion.Lib.Ring

/-!
# Rings whose slots are handed over

A ring of `n` slots between a side that fills them and a side that empties them.  Each slot has a flag,
`full`, which says whose slot it is, and each side has an index of its own; no side reads the index of
the other.  The filling side waits for a slot that is not full and hands it over, the emptying side
waits for a full slot and gives it back.  `Handoff` relates flags, slots and indices to the whole
history: the list of all values that were handed over, and the number of values that were given back.
All `n` slots can be full.

* `Handoff.not_full_iff`, `Handoff.full_iff` — what the two flag tests say about the history;
* `Handoff.give`, `Handoff.take` — the two steps that change a flag;
* `Handoff.frame` — what is not full may be written in any number of steps;
* `Handoff.oldest` — the slot that the emptying side looks at holds the next value in order.
-/

namespace Orion.Lib

universe u

variable {α : Type u}

/-- Flags, slots and indices after `given` was handed over and the first `taken` values of it were given
back. -/
structure Handoff (n : ℕ) (full : ℕ → Bool) (slots : ℕ → α) (fill drain : ℕ) (given : List α)
    (taken : ℕ) : Prop where
  fill_eq : fill = given.length % n
  drain_eq : drain = taken % n
  taken_le : taken ≤ given.length
  fits : given.length ≤ taken + n
  flag : ∀ i, taken ≤ i → i < taken + n → full (i % n) = decide (i < given.length)
  slot : ∀ i, taken ≤ i → ∀ h : i < given.length, slots (i % n) = given[i]

namespace Handoff

variable {n fill drain taken : ℕ} {full : ℕ → Bool} {slots : ℕ → α} {given : List α}

theorem start (hfull : ∀ i, full i = false) : Handoff n full slots 0 0 [] 0 where
  fill_eq := (Nat.zero_mod n).symm
  drain_eq := (Nat.zero_mod n).symm
  taken_le := Nat.le_refl 0
  fits := Nat.zero_le _
  flag := by
    intro i _ _
    rw [hfull]
    rfl
  slot := by simp

section

variable (h : Handoff n full slots fill drain given taken)

include h

/-- A free slot means room, and room means that the next slot is free. -/
theorem not_full_iff (hn : 0 < n) : full fill = false ↔ given.length < taken + n := by
  have hle := h.taken_le
  have hfits := h.fits
  rw [h.fill_eq]
  constructor
  · intro hfree
    by_contra hge
    -- the next slot is the one of the oldest value
    have hround : given.length = taken + n := by omega
    have hflag := h.flag taken (Nat.le_refl _) (by omega)
    rw [decide_eq_true (by omega), ← Nat.add_mod_right, ← hround, hfree] at hflag
    exact Bool.false_ne_true hflag
  · intro hroom
    rw [h.flag _ hle hroom]
    exact decide_eq_false (Nat.lt_irrefl _)

theorem full_iff (hn : 0 < n) : full drain = true ↔ taken < given.length := by
  rw [h.drain_eq, h.flag taken (Nat.le_refl _) (by omega), decide_eq_true_iff]

theorem oldest (hlt : taken < given.length) : slots drain = given[taken] := by
  rw [h.drain_eq]
  exact h.slot taken (Nat.le_refl _) hlt

/-- The slots of the values inside are full, so that what is written elsewhere does not reach them. -/
theorem frame {slots' : ℕ → α} (hslots : ∀ j, full j = true → slots' j = slots j) :
    Handoff n full slots' fill drain given taken where
  fill_eq := h.fill_eq
  drain_eq := h.drain_eq
  taken_le := h.taken_le
  fits := h.fits
  flag := h.flag
  slot := by
    intro i hi hlt
    have hfits := h.fits
    rw [hslots, h.slot i hi hlt]
    rw [h.flag i hi (by omega)]
    exact decide_eq_true hlt

/-- The next slot is handed over with the value `x` in it. -/
theorem give (hn : 0 < n) (hfree : full fill = false) {x : α} (hx : slots fill = x) :
    Handoff n (Function.update full fill true) slots ((fill + 1) % n) drain (given ++ [x]) taken := by
  have hroom := (h.not_full_iff hn).mp hfree
  have hle := h.taken_le
  refine ⟨?_, h.drain_eq, ?_, ?_, ?_, ?_⟩
  · rw [h.fill_eq, Nat.mod_add_mod, List.length_append, List.length_singleton]
  · rw [List.length_append]
    omega
  · rw [List.length_append, List.length_singleton]
    omega
  · intro i hi hlt
    rw [List.length_append, List.length_singleton]
    rcases Nat.lt_trichotomy i given.length with hbefore | rfl | hbehind
    · have hne : i % n ≠ fill := by
        intro heq
        have hsame := Ring.Holds.wrapped_inj (Nat.le_of_lt hbefore) (by omega) (heq.trans h.fill_eq)
        omega
      rw [Function.update_of_ne hne, h.flag i hi hlt, decide_eq_true hbefore, decide_eq_true (by omega)]
    · rw [← h.fill_eq, Function.update_self, decide_eq_true (Nat.lt_succ_self _)]
    · have hne : i % n ≠ fill := by
        intro heq
        have hsame := Ring.Holds.wrapped_inj (Nat.le_of_lt hbehind) (by omega) (h.fill_eq.symm.trans heq.symm)
        omega
      rw [Function.update_of_ne hne, h.flag i hi hlt, decide_eq_false (by omega),
        decide_eq_false (by omega)]
  · intro i hi hlt
    rw [List.length_append, List.length_singleton] at hlt
    rcases Nat.lt_succ_iff_lt_or_eq.mp hlt with hbefore | rfl
    · rw [h.slot i hi hbefore, List.getElem_append_left hbefore]
    · rw [← h.fill_eq, hx, List.getElem_concat_length rfl]

/-- The slot of the oldest value is given back. -/
theorem take (hn : 0 < n) (hready : full drain = true) :
    Handoff n (Function.update full drain false) slots fill ((drain + 1) % n) given (taken + 1) := by
  have hlt := (h.full_iff hn).mp hready
  have hfits := h.fits
  refine ⟨h.fill_eq, ?_, hlt, by omega, ?_, ?_⟩
  · rw [h.drain_eq, Nat.mod_add_mod]
  · intro i hi hi'
    rcases Nat.lt_or_ge i (taken + n) with hold | hnew
    · have hne : i % n ≠ drain := by
        intro heq
        have hsame := Ring.Holds.wrapped_inj (by omega : taken ≤ i) hold (h.drain_eq.symm.trans heq.symm)
        omega
      rw [Function.update_of_ne hne, h.flag i (by omega) hold]
    · -- one round behind the slot that was given back
      obtain rfl : i = taken + n := by omega
      rw [Nat.add_mod_right, ← h.drain_eq, Function.update_self, decide_eq_false (by omega)]
  · exact fun i hi hlt => h.slot i (by omega) hlt

end

end Handoff

end Orion.Lib
