import Mathlib.Data.List.Basic
import Mathlib.Data.Nat.ModEq
import Mathlib.Logic.Function.Basic

/-!
# Rings with one free slot

A ring of `n` slots holds at most `n - 1` values: `head` is where the next value goes, `tail` is the
oldest one, and the ring is empty when they are equal.  `Ring.Holds` relates the slots and the two
indices to the whole history: the list of all values that were ever put in, and the number of values
that were taken out.

* `Ring.Holds.full_iff`, `Ring.Holds.empty_iff` — what the two index tests say about the history;
* `Ring.Holds.extend`, `Ring.Holds.release` — values that go in and out, any number at once;
* `Ring.Holds.push`, `Ring.Holds.pop` — the operations on one value;
* `Ring.Holds.oldest` — the slot at `tail` is the next value in order.
-/

namespace Orion

universe u

variable {α : Type u}

/-- The slots and the indices after `accepted` was put in and the first `released` values of it were
taken out again. -/
structure Ring.Holds (n : ℕ) (slots : ℕ → α) (head tail : ℕ) (accepted : List α) (released : ℕ) :
    Prop where
  head_eq : head = accepted.length % n
  tail_eq : tail = released % n
  released_le : released ≤ accepted.length
  fits : accepted.length < released + n
  slot : ∀ i, released ≤ i → ∀ h : i < accepted.length, slots (i % n) = accepted[i]

namespace Ring.Holds

variable {n head tail released : ℕ} {slots : ℕ → α} {accepted : List α}

theorem start (hn : 0 < n) : Ring.Holds n slots 0 0 [] 0 where
  head_eq := (Nat.zero_mod n).symm
  tail_eq := (Nat.zero_mod n).symm
  released_le := Nat.le_refl 0
  fits := by simpa using hn
  slot := by simp

/-- Two positions less than `n` apart share a slot only if they are the same. -/
theorem wrapped_inj {i j : ℕ} (hij : i ≤ j) (hj : j < i + n) (h : i % n = j % n) : i = j := by
  have hd : n ∣ j - i := (Nat.modEq_iff_dvd' hij).mp h
  have hzero : j - i = 0 := Nat.eq_zero_of_dvd_of_lt hd (by omega)
  omega

/-- A position of a value inside and one behind the last do not share a slot, as far as there is
room. -/
theorem wrapped_ne {i j k length : ℕ} (hi : released ≤ i) (hlen : i < length)
    (hroom : length + k < released + n) (hj : j ≤ k) : i % n ≠ (length + j) % n := by
  intro heq
  have hsame := wrapped_inj (by omega : i ≤ length + j) (by omega) heq
  omega

section

variable (h : Ring.Holds n slots head tail accepted released)

include h

theorem pos : 0 < n := by
  have h1 := h.released_le
  have h2 := h.fits
  omega

theorem head_lt : head < n := h.head_eq ▸ Nat.mod_lt _ h.pos

theorem tail_lt : tail < n := h.tail_eq ▸ Nat.mod_lt _ h.pos

/-- The indices are equal exactly when everything was taken out. -/
theorem empty_iff : tail = head ↔ released = accepted.length := by
  rw [h.head_eq, h.tail_eq]
  constructor
  · exact wrapped_inj h.released_le h.fits
  · intro heq
    rw [heq]

/-- The next head is the tail exactly when `n - 1` values are inside. -/
theorem full_iff : (head + 1) % n = tail ↔ accepted.length = released + (n - 1) := by
  have hpos := h.pos
  have hle := h.released_le
  have hfits := h.fits
  rw [h.head_eq, h.tail_eq, Nat.mod_add_mod]
  constructor
  · intro heq
    by_contra hne
    have hsame := wrapped_inj (Nat.le_succ_of_le hle) (by omega) heq.symm
    omega
  · intro heq
    have hround : accepted.length + 1 = released + n := by omega
    rw [hround, Nat.add_mod_right]

theorem oldest (hne : released < accepted.length) : slots tail = accepted[released] := by
  rw [h.tail_eq]
  exact h.slot released (Nat.le_refl _) hne

/-- Values go in behind the last one, and the slots of the others stay. -/
theorem extend {slots' : ℕ → α} {xs : List α} (hroom : accepted.length + xs.length < released + n)
    (hnew : ∀ j, ∀ hj : j < xs.length, slots' ((accepted.length + j) % n) = xs[j])
    (hold : ∀ i, released ≤ i → i < accepted.length → slots' (i % n) = slots (i % n)) :
    Ring.Holds n slots' ((head + xs.length) % n) tail (accepted ++ xs) released where
  head_eq := by rw [h.head_eq, Nat.mod_add_mod, List.length_append]
  tail_eq := h.tail_eq
  released_le := by
    rw [List.length_append]
    exact Nat.le_add_right_of_le h.released_le
  fits := by
    rw [List.length_append]
    exact hroom
  slot := by
    intro i hi hlen
    rcases Nat.lt_or_ge i accepted.length with hlt | hge
    · rw [hold i hi hlt, h.slot i hi hlt, List.getElem_append_left hlt]
    · obtain ⟨j, rfl⟩ := Nat.exists_eq_add_of_le hge
      rw [List.length_append] at hlen
      rw [hnew j (by omega), List.getElem_append_right hge]
      simp only [Nat.add_sub_cancel_left]

theorem push (hroom : (head + 1) % n ≠ tail) (x : α) :
    Ring.Holds n (Function.update slots head x) ((head + 1) % n) tail (accepted ++ [x]) released := by
  have hfull := h.full_iff.not.mp hroom
  have hfits := h.fits
  have hpos := h.pos
  have hone : accepted.length + [x].length < released + n := by
    rw [List.length_singleton]
    omega
  refine h.extend hone ?_ ?_
  · intro j hj
    obtain rfl : j = 0 := Nat.lt_one_iff.mp hj
    rw [Nat.add_zero, ← h.head_eq, Function.update_self]
    rfl
  · -- an older value is in another slot
    intro i hi hlen
    have hslot := wrapped_ne hi hlen hone (Nat.zero_le _)
    rw [Nat.add_zero, ← h.head_eq] at hslot
    rw [Function.update_of_ne hslot]

/-- The oldest values go out. -/
theorem release {k : ℕ} (hk : released + k ≤ accepted.length) :
    Ring.Holds n slots head ((tail + k) % n) accepted (released + k) where
  head_eq := h.head_eq
  tail_eq := by rw [h.tail_eq, Nat.mod_add_mod]
  released_le := hk
  fits := by
    have hfits := h.fits
    omega
  slot := fun i hi hlen => h.slot i (by omega) hlen

theorem pop (hne : released < accepted.length) :
    Ring.Holds n slots head ((tail + 1) % n) accepted (released + 1) :=
  h.release hne

end

end Ring.Holds

end Orion
