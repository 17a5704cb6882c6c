import Mathlib.Data.List.DropRight
import Mathlib.Data.List.TakeWhile
import Mathlib.Logic.Function.Basic

/-!
# Cursors

A text in memory is scanned by cursors: one goes up as long as the characters are of a kind (`scanUp`), one
goes down (`scanDown`), and a loop copies what is between two of them (`copyUp`).  In terms of the list of
characters between two places (`slice`) they are `takeWhile` and `dropWhile`, `rdropWhile` and `take`.
-/

namespace Orion.Lib

variable {α : Type*}

/-! ## Slices -/

/-- What is in memory from `a` up to `b`. -/
def slice (raw : ℕ → α) (a b : ℕ) : List α := (List.range' a (b - a)).map raw

theorem slice_of_le (raw : ℕ → α) {a b : ℕ} (h : b ≤ a) : slice raw a b = [] := by
  rw [slice, Nat.sub_eq_zero_of_le h]
  rfl

theorem slice_cons (raw : ℕ → α) {a b : ℕ} (h : a < b) : slice raw a b = raw a :: slice raw (a + 1) b := by
  rw [slice, show b - a = (b - (a + 1)) + 1 by omega, List.range'_succ, List.map_cons, slice]

@[simp] theorem length_slice (raw : ℕ → α) (a b : ℕ) : (slice raw a b).length = b - a := by
  rw [slice, List.length_map, List.length_range']

theorem slice_append (raw : ℕ → α) {a b c : ℕ} (hab : a ≤ b) (hbc : b ≤ c) :
    slice raw a b ++ slice raw b c = slice raw a c := by
  rw [slice, slice, slice, ← List.map_append, show c - a = (b - a) + (c - b) by omega, ← List.range'_append_1,
    Nat.add_sub_cancel' hab]

theorem slice_concat (raw : ℕ → α) {a b : ℕ} (h : a ≤ b) :
    slice raw a (b + 1) = slice raw a b ++ [raw b] := by
  rw [← slice_append raw h (Nat.le_succ b), slice_cons raw (Nat.lt_succ_self b), slice_of_le raw le_rfl]

/-! ## Scans -/

section

variable (raw : ℕ → α) (go : α → Bool)

def scanUpLoop : ℕ → ℕ → ℕ
  | 0, p => p
  | left + 1, p => if go (raw p) then scanUpLoop left (p + 1) else p

/-- `while (p < hi && go(raw[p])) p++;` -/
def scanUp (hi p : ℕ) : ℕ := scanUpLoop raw go (hi - p) p

def scanDownLoop : ℕ → ℕ → ℕ
  | 0, z => z
  | left + 1, z => if go (raw (z - 1)) then scanDownLoop left (z - 1) else z

/-- `while (z > lo && go(raw[z - 1])) z--;` -/
def scanDown (lo z : ℕ) : ℕ := scanDownLoop raw go (z - lo) z

/-- Where the cursor stops: what it passed, and what is in front of it. -/
structure ScannedUp (raw : ℕ → α) (go : α → Bool) (hi p q : ℕ) : Prop where
  ge : p ≤ q
  le : q ≤ hi
  passed : slice raw p q = (slice raw p hi).takeWhile go
  ahead : slice raw q hi = (slice raw p hi).dropWhile go

theorem scanUp_spec {hi p : ℕ} (h : p ≤ hi) : ScannedUp raw go hi p (scanUp raw go hi p) := by
  unfold scanUp
  generalize hleft : hi - p = left
  induction left generalizing p with
  | zero =>
    obtain rfl : p = hi := by omega
    have hnil := slice_of_le raw (le_refl p)
    exact ⟨le_rfl, le_rfl, by rw [scanUpLoop, hnil]; rfl, by rw [scanUpLoop, hnil]; rfl⟩
  | succ left ih =>
    have hcons := slice_cons raw (show p < hi by omega)
    rw [scanUpLoop]
    split
    · next hgo =>
      have hnext := ih (show p + 1 ≤ hi by omega) (by omega)
      refine ⟨by have hge := hnext.ge; omega, hnext.le, ?_, ?_⟩
      · have hlt : p < scanUpLoop raw go left (p + 1) := hnext.ge
        rw [slice_cons raw hlt, hnext.passed, hcons, List.takeWhile_cons_of_pos hgo]
      · rw [hnext.ahead, hcons, List.dropWhile_cons_of_pos hgo]
    · next hgo =>
      refine ⟨le_rfl, h, ?_, ?_⟩
      · rw [slice_of_le raw le_rfl, hcons, List.takeWhile_cons_of_neg hgo]
      · rw [hcons, List.dropWhile_cons_of_neg hgo]

theorem scanDown_spec {lo z : ℕ} (h : lo ≤ z) : lo ≤ scanDown raw go lo z ∧ scanDown raw go lo z ≤ z ∧
    slice raw lo (scanDown raw go lo z) = (slice raw lo z).rdropWhile go := by
  unfold scanDown
  generalize hleft : z - lo = left
  induction left generalizing z with
  | zero =>
    obtain rfl : z = lo := by omega
    rw [scanDownLoop, slice_of_le raw le_rfl]
    exact ⟨le_rfl, le_rfl, rfl⟩
  | succ left ih =>
    have hconcat := slice_concat raw (show lo ≤ z - 1 by omega)
    rw [Nat.sub_add_cancel (by omega)] at hconcat
    rw [scanDownLoop]
    split
    · next hgo =>
      obtain ⟨hge, hle, hslice⟩ := ih (show lo ≤ z - 1 by omega) (by omega)
      refine ⟨hge, by omega, ?_⟩
      rw [hslice, hconcat, List.rdropWhile_concat_pos _ _ _ hgo]
    · next hgo =>
      refine ⟨h, le_rfl, ?_⟩
      rw [hconcat, List.rdropWhile_concat_neg _ _ _ hgo]

end

/-! ## Copies -/

/-- What is behind `v` is copied to the places from `o` on, until `z` or until only the last place of the
buffer is left: the next place, and the buffer. -/
def copyUp (raw : ℕ → α) (cap z : ℕ) : ℕ → ℕ → ℕ → (ℕ → α) → ℕ × (ℕ → α)
  | 0, _, o, out => (o, out)
  | left + 1, v, o, out =>
    if v < z ∧ o + 1 < cap then copyUp raw cap z left (v + 1) (o + 1) (Function.update out o (raw v))
    else (o, out)

/-- A text at the beginning of a buffer. -/
def overwritten (out : ℕ → α) (s : List α) : ℕ → α := fun i => s[i]?.getD (out i)

theorem overwritten_concat (out : ℕ → α) (s : List α) (c : α) :
    Function.update (overwritten out s) s.length c = overwritten out (s ++ [c]) := by
  funext i
  rcases Nat.lt_trichotomy i s.length with hlt | rfl | hgt
  · rw [Function.update_of_ne hlt.ne, overwritten, overwritten, List.getElem?_append_left hlt]
  · rw [Function.update_self, overwritten, List.getElem?_concat_length]
    rfl
  · rw [Function.update_of_ne hgt.ne', overwritten, overwritten, List.getElem?_eq_none hgt.le,
      List.getElem?_eq_none (by rw [List.length_append, List.length_singleton]; omega)]

/-- Beyond the text the buffer is as it was. -/
theorem overwritten_of_le (out : ℕ → α) {s : List α} {i : ℕ} (h : s.length ≤ i) :
    overwritten out s i = out i := by
  rw [overwritten, List.getElem?_eq_none h]
  rfl

theorem overwritten_last (out : ℕ → α) (s : List α) (c : α) : overwritten out (s ++ [c]) s.length = c := by
  rw [← overwritten_concat, Function.update_self]

theorem overwritten_update (out : ℕ → α) (c : α) {s : List α} (hs : s ≠ []) :
    overwritten (Function.update out 0 c) s = overwritten out s := by
  funext i
  cases i with
  | zero =>
    rw [overwritten, overwritten, List.getElem?_eq_getElem (List.length_pos_of_ne_nil hs)]
    rfl
  | succ i => rw [overwritten, overwritten, Function.update_of_ne (Nat.succ_ne_zero i)]

theorem slice_overwritten (out : ℕ → α) (s t : List α) : slice (overwritten out (s ++ t)) 0 s.length = s := by
  apply List.ext_getElem?
  intro i
  rcases Nat.lt_or_ge i s.length with hlt | hge
  · rw [slice, List.getElem?_map, List.getElem?_range' (by omega), Option.map_some, overwritten, Nat.zero_add,
      Nat.one_mul, List.getElem?_append_left hlt, List.getElem?_eq_getElem hlt]
    rfl
  · rw [List.getElem?_eq_none hge, List.getElem?_eq_none (by rw [length_slice]; omega)]

theorem copyUp_spec (raw : ℕ → α) (cap : ℕ) (out : ℕ → α) (done : List α) {left v z : ℕ} (hvz : v ≤ z)
    (hleft : z - v ≤ left) (hdone : done.length ≤ cap - 1) :
    copyUp raw cap z left v done.length (overwritten out done) =
      let s := (done ++ slice raw v z).take (cap - 1)
      (s.length, overwritten out s) := by
  induction left generalizing v done with
  | zero =>
    rw [slice_of_le raw (by omega), List.append_nil, List.take_of_length_le hdone]
    rfl
  | succ left ih =>
    rw [copyUp]
    split
    · next hroom =>
      have hnext := ih (done ++ [raw v]) (v := v + 1) hroom.1 (by omega)
        (by rw [List.length_append, List.length_singleton]; omega)
      rw [List.length_append, List.length_singleton, List.append_assoc, List.singleton_append,
        ← slice_cons raw hroom.1] at hnext
      rw [overwritten_concat]
      exact hnext
    · next hstop =>
      have hcut : (done ++ slice raw v z).take (cap - 1) = done := by
        rcases Nat.lt_or_ge v z with hlt | hge
        · rw [List.take_append_of_le_length (by omega), List.take_of_length_le hdone]
        · rw [slice_of_le raw hge, List.append_nil, List.take_of_length_le hdone]
      rw [hcut]

end Orion.Lib
