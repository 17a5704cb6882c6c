import Mathlib.Logic.Function.Basic
import Orion.Lib.Ring

/-!
# Rings with free-running counters

A ring of `n` slots between a side that puts values in and a side that takes them out, each with a counter
that runs on: the slot is the counter modulo `n`, and all `n` slots can be in use.  `Sliding` relates the
slots to the whole history: the list of all values that were ever put in, and the number of values that
were taken out.  The counters are kept in 16 bits, of which `n` divides the range.

* `Sliding.push`, `Sliding.pop` — one value goes in or out;
* `Sliding.frame` — slots without a value may be written;
* `counter_slot`, `counter_eq_iff` — what the 16 bits of a counter still tell.
-/

namespace Orion.Lib

universe u

variable {α : Type u}

/-- The slots after the values `sent` were put in and the first `taken` of them were taken out. -/
structure Sliding (n : ℕ) (slots : ℕ → α) (sent : List α) (taken : ℕ) : Prop where
  taken_le : taken ≤ sent.length
  fits : sent.length ≤ taken + n
  slot : ∀ i, taken ≤ i → ∀ h : i < sent.length, slots (i % n) = sent[i]

namespace Sliding

variable {n taken : ℕ} {slots : ℕ → α} {sent : List α}

theorem start : Sliding n slots [] 0 := ⟨Nat.le_refl 0, Nat.zero_le _, nofun⟩

section

variable (h : Sliding n slots sent taken)

include h

theorem oldest (hlt : taken < sent.length) : slots (taken % n) = sent[taken] := h.slot taken (Nat.le_refl _) hlt

omit h in
/-- While there is room, the next slot is none of those with a value in them. -/
theorem slot_ne (hroom : sent.length < taken + n) {i : ℕ} (hi : taken ≤ i) (hlt : i < sent.length) :
    i % n ≠ sent.length % n := by
  intro heq
  have hsame := Ring.Holds.wrapped_inj (Nat.le_of_lt hlt) (by omega) heq
  omega

/-- Writes beside the values are not seen. -/
theorem frame {slots' : ℕ → α}
    (hslots : ∀ i, taken ≤ i → i < sent.length → slots' (i % n) = slots (i % n)) : Sliding n slots' sent taken where
  taken_le := h.taken_le
  fits := h.fits
  slot := fun i hi hlt => (hslots i hi hlt).trans (h.slot i hi hlt)

/-- A write to the next slot. -/
theorem update (hroom : sent.length < taken + n) (x : α) :
    Sliding n (Function.update slots (sent.length % n) x) sent taken :=
  h.frame fun _ hi hlt => Function.update_of_ne (slot_ne hroom hi hlt) ..

/-- The value in the next slot is put in. -/
theorem push (hroom : sent.length < taken + n) {x : α} (hx : slots (sent.length % n) = x) :
    Sliding n slots (sent ++ [x]) taken where
  taken_le := by
    rw [List.length_append]
    exact Nat.le_add_right_of_le h.taken_le
  fits := by
    rw [List.length_append, List.length_singleton]
    exact hroom
  slot := by
    intro i hi hlt
    rw [List.length_append, List.length_singleton] at hlt
    rcases Nat.lt_succ_iff_lt_or_eq.mp hlt with hold | rfl
    · rw [h.slot i hi hold, List.getElem_append_left hold]
    · rw [hx, List.getElem_concat_length rfl]

theorem pop (hlt : taken < sent.length) : Sliding n slots sent (taken + 1) where
  taken_le := hlt
  fits := by
    have hfits := h.fits
    omega
  slot := fun i hi => h.slot i (Nat.le_of_succ_le hi)

end

end Sliding

/-! ## Counters of 16 bits -/

/-- The slot is that of the whole count. -/
theorem counter_slot {n : ℕ} (hn : n ∣ 65536) (count : ℕ) : (UInt16.ofNat count).toNat % n = count % n := by
  rw [UInt16.toNat_ofNat']
  exact Nat.mod_mod_of_dvd count hn

theorem counter_succ (count : ℕ) : UInt16.ofNat count + 1 = UInt16.ofNat (count + 1) := by
  rw [UInt16.ofNat_add]
  rfl

/-- Counts that are near are told apart. -/
theorem counter_eq_iff {a b : ℕ} (hab : a ≤ b) (hb : b < a + 65536) :
    UInt16.ofNat a = UInt16.ofNat b ↔ a = b := by
  constructor
  · intro heq
    have hmod : a % 65536 = b % 65536 := by
      have hnat := congrArg UInt16.toNat heq
      rwa [UInt16.toNat_ofNat', UInt16.toNat_ofNat'] at hnat
    exact Ring.Holds.wrapped_inj hab hb hmod
  · rintro rfl
    rfl

end Orion.Lib
