import Orion.Desktop.Model
import Orion.Lib.Line

/-!
# Lines on the canvas (`paint_line`)

A stroke of the mouse is drawn point by point.  The loop ends only at a turn at which both coordinates
are those of the end; it is a walk of `Orion.Lib.Walker`, reflected and moved.
-/

namespace Orion.Desktop

open Orion.Lib (Walker)
open Orion.Lib.Walker (walk)

/-! ## The source -/

/-- `x0`, `y0` and `err` at the head of a turn. -/
@[ext] structure Pen where
  x : ℤ
  y : ℤ
  err : ℤ
  deriving Repr, DecidableEq

/-- What a turn calls. -/
def Pen.call (p : Pen) : Call := .paintAt p.x p.y

/-- The rest of a turn that does not end the loop. -/
def paintTurn (dx sx dy sy : ℤ) (p : Pen) : Pen :=
  let e2 := p.err * 2
  let p := if e2 ≥ dy then { p with err := p.err + dy, x := p.x + sx } else p
  if e2 ≤ dx then { p with err := p.err + dx, y := p.y + sy } else p

/-- The turns of the loop, if it ends. -/
def paintLoop (x1 y1 dx sx dy sy : ℤ) : ℕ → Pen → Option (List Pen)
  | 0, _ => none
  | fuel + 1, p =>
    if p.x = x1 ∧ p.y = y1 then some [p]
    else (paintLoop x1 y1 dx sx dy sy fuel (paintTurn dx sx dy sy p)).map (p :: ·)

def paintLine (fuel : ℕ) (x0 y0 x1 y1 : ℤ) : Option (List Pen) :=
  let dx := if x1 > x0 then x1 - x0 else x0 - x1
  let sx := if x0 < x1 then 1 else -1
  let dy := -(if y1 > y0 then y1 - y0 else y0 - y1)
  let sy := if y0 < y1 then 1 else -1
  paintLoop x1 y1 dx sx dy sy fuel ⟨x0, y0, dx + dy⟩

/-! ## The walk -/

section

variable (x0 y0 sx sy : ℤ)

/-- Where the pen is when the walk is there. -/
def penAt (s : Walker) : Pen := ⟨x0 + sx * s.i, y0 + sy * s.j, s.err⟩

theorem paintTurn_penAt (dx dy : ℤ) (s : Walker) :
    paintTurn dx sx (-dy) sy (penAt x0 y0 sx sy s) = penAt x0 y0 sx sy (s.step dx dy) := by
  have hx : s.err * 2 ≥ -dy ↔ -dy ≤ 2 * s.err := by omega
  have hy : s.err * 2 ≤ dx ↔ 2 * s.err ≤ dx := by omega
  unfold paintTurn penAt Walker.step
  simp only [hx, hy]
  split <;> split <;> apply Pen.ext <;> dsimp only <;> ring

/-- The loop goes on until the walk is at its end. -/
theorem paintLoop_eq {dx dy x1 y1 : ℤ} (hx : ∀ i, x0 + sx * i = x1 ↔ i = dx)
    (hy : ∀ j, y0 + sy * j = y1 ↔ j = dy) (hdx : 0 ≤ dx) (hdy : 0 ≤ dy) {last : ℕ}
    (hlast : (last : ℤ) = max dx dy) {fuel n : ℕ} (hn : n ≤ last) (hfuel : last - n < fuel) :
    paintLoop x1 y1 dx sx (-dy) sy fuel (penAt x0 y0 sx sy (walk dx dy n)) =
      some ((List.range' n (last + 1 - n)).map fun k => penAt x0 y0 sx sy (walk dx dy k)) := by
  induction fuel generalizing n with
  | zero => omega
  | succ fuel ih =>
    have hend := Walker.walk_end_iff hdx hdy (n := n) (by omega)
    rw [paintLoop]
    split
    · next hat =>
      have heq : (n : ℤ) = max dx dy := hend.mp ⟨(hx _).mp hat.1, (hy _).mp hat.2⟩
      have hone : last + 1 - n = 1 := by omega
      rw [hone]
      rfl
    · next hmore =>
      have hlt : n < last := by
        refine lt_of_le_of_ne hn fun heq => hmore ?_
        have hends := hend.mpr (by omega)
        exact ⟨(hx _).mpr hends.1, (hy _).mpr hends.2⟩
      rw [paintTurn_penAt, ← Walker.walk_succ, ih hlt (by omega), Option.map_some,
        show last + 1 - n = (last + 1 - (n + 1)) + 1 by omega, List.range'_succ, List.map_cons]

end

/-- The distance and the direction along one axis. -/
theorem along (a b : ℤ) : (if b > a then b - a else a - b) = |b - a| ∧
    ∀ i, a + (if a < b then 1 else -1) * i = b ↔ i = |b - a| := by
  rcases lt_or_ge a b with hlt | hge
  · rw [if_pos hlt, if_pos hlt, abs_of_pos (by omega)]
    exact ⟨rfl, fun i => by omega⟩
  · rw [if_neg (not_lt.mpr hge), if_neg (not_lt.mpr hge), abs_of_nonpos (by omega)]
    exact ⟨(neg_sub b a).symm, fun i => by omega⟩

theorem paintLine_eq (x0 y0 x1 y1 : ℤ) {last fuel : ℕ} (hlast : (last : ℤ) = max |x1 - x0| |y1 - y0|)
    (hfuel : last < fuel) :
    paintLine fuel x0 y0 x1 y1 = some ((List.range (last + 1)).map fun k =>
      penAt x0 y0 (if x0 < x1 then 1 else -1) (if y0 < y1 then 1 else -1) (walk |x1 - x0| |y1 - y0| k)) := by
  obtain ⟨hdx, hx⟩ := along x0 x1
  obtain ⟨hdy, hy⟩ := along y0 y1
  have hloop := paintLoop_eq x0 y0 _ _ hx hy (abs_nonneg _) (abs_nonneg _) hlast (Nat.zero_le last) hfuel
  rw [Nat.sub_zero, ← List.range_eq_range'] at hloop
  have hstart : penAt x0 y0 (if x0 < x1 then 1 else -1) (if y0 < y1 then 1 else -1)
      (walk |x1 - x0| |y1 - y0| 0) = ⟨x0, y0, |x1 - x0| + -|y1 - y0|⟩ := by
    show Pen.mk (x0 + _ * 0) (y0 + _ * 0) (|x1 - x0| - |y1 - y0|) = _
    rw [mul_zero, mul_zero, add_zero, add_zero, sub_eq_add_neg]
  rw [hstart] at hloop
  rw [paintLine]
  simp only [hdx, hdy]
  exact hloop

/-- One axis: the walk along it is between the ends, and goes from the one to the other. -/
theorem axis_between (a b : ℤ) {i : ℤ} (hi : 0 ≤ i ∧ i ≤ |b - a|) :
    min a b ≤ a + (if a < b then 1 else -1) * i ∧ a + (if a < b then 1 else -1) * i ≤ max a b := by
  obtain ⟨hpos, hle⟩ := hi
  rcases lt_or_ge a b with hlt | hge
  · rw [abs_of_pos (by omega)] at hle
    rw [if_pos hlt]
    omega
  · rw [abs_of_nonpos (by omega)] at hle
    rw [if_neg (not_lt.mpr hge)]
    omega

theorem axis_near (a b : ℤ) {i j : ℤ} (h : i ≤ j ∧ j ≤ i + 1) :
    |(a + (if a < b then 1 else -1) * j) - (a + (if a < b then 1 else -1) * i)| ≤ 1 := by
  obtain ⟨hle, hnext⟩ := h
  rw [abs_le]
  split <;> omega

/-- **A line ends, and is connected.**  The errors are small: on a screen with at most 715827882 columns and
lines all numbers of the loop fit 32 bits. -/
theorem paint_line_connected (x0 y0 x1 y1 : ℤ) :
    ∃ pens, (∀ fuel : ℕ, max |x1 - x0| |y1 - y0| < fuel → paintLine fuel x0 y0 x1 y1 = some pens) ∧
      (pens.length : ℤ) = max |x1 - x0| |y1 - y0| + 1 ∧
      (pens.map Pen.call).head? = some (.paintAt x0 y0) ∧
      (pens.map Pen.call).getLast? = some (.paintAt x1 y1) ∧
      (∀ k p q, pens[k]? = some p → pens[k + 1]? = some q → |q.x - p.x| ≤ 1 ∧ |q.y - p.y| ≤ 1) ∧
      (∀ p ∈ pens, (min x0 x1 ≤ p.x ∧ p.x ≤ max x0 x1) ∧ min y0 y1 ≤ p.y ∧ p.y ≤ max y0 y1) ∧
      ∀ p ∈ pens, |2 * p.err| ≤ 3 * max |x1 - x0| |y1 - y0| := by
  have hdx := abs_nonneg (x1 - x0)
  have hdy := abs_nonneg (y1 - y0)
  obtain ⟨last, hlast⟩ := Int.eq_ofNat_of_zero_le (hdx.trans (le_max_left _ |y1 - y0|))
  let pen := fun k => penAt x0 y0 (if x0 < x1 then 1 else -1) (if y0 < y1 then 1 else -1)
    (walk |x1 - x0| |y1 - y0| k)
  have hmem : ∀ p ∈ (List.range (last + 1)).map pen,
      ∃ k : ℕ, (k : ℤ) ≤ max |x1 - x0| |y1 - y0| ∧ pen k = p := by
    intro p hp
    obtain ⟨k, hk, rfl⟩ := List.mem_map.mp hp
    have hlt := List.mem_range.mp hk
    exact ⟨k, by omega, rfl⟩
  refine ⟨(List.range (last + 1)).map pen, ?_, ?_, ?_, ?_, ?_, ?_, ?_⟩
  · intro fuel hfuel
    exact paintLine_eq x0 y0 x1 y1 hlast.symm (by omega)
  · rw [List.length_map, List.length_range, hlast]
    rfl
  · rw [List.range_succ_eq_map, List.map_cons, List.map_cons, List.head?_cons]
    show some (Call.paintAt (x0 + _ * 0) (y0 + _ * 0)) = _
    rw [mul_zero, mul_zero, add_zero, add_zero]
  · rw [List.range_succ, List.map_append, List.map_append, List.map_singleton, List.map_singleton,
      List.getLast?_concat]
    obtain ⟨hi, hj⟩ := (Walker.walk_end_iff hdx hdy hlast.ge).mpr hlast.symm
    have hx := ((along x0 x1).2 _).mpr hi
    have hy := ((along y0 y1).2 _).mpr hj
    exact congrArg some (congrArg₂ Call.paintAt hx hy)
  · intro k p q hp hq
    rw [List.getElem?_map] at hp hq
    obtain ⟨_, hk, rfl⟩ := Option.map_eq_some_iff.mp hp
    obtain ⟨_, hnext, rfl⟩ := Option.map_eq_some_iff.mp hq
    obtain ⟨_, rfl⟩ := List.getElem?_eq_some_iff.mp hk
    obtain ⟨_, rfl⟩ := List.getElem?_eq_some_iff.mp hnext
    rw [List.getElem_range, List.getElem_range]
    obtain ⟨hi, hj⟩ := Walker.step_near |x1 - x0| |y1 - y0| (walk |x1 - x0| |y1 - y0| k)
    rw [← Walker.walk_succ] at hi hj
    exact ⟨axis_near x0 x1 hi, axis_near y0 y1 hj⟩
  · intro p hp
    obtain ⟨k, hk, rfl⟩ := hmem p hp
    obtain ⟨hi, hj, -⟩ := Walker.walk_inside hdx hdy hk
    exact ⟨axis_between x0 x1 hi, axis_between y0 y1 hj⟩
  · intro p hp
    obtain ⟨k, hk, rfl⟩ := hmem p hp
    exact (Walker.walk_inside hdx hdy hk).2.2

end Orion.Desktop
