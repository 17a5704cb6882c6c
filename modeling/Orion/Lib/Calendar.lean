import Mathlib.Algebra.BigOperators.Intervals
import Mathlib.Algebra.Order.BigOperators.Group.Finset
import Mathlib.Data.Prod.Lex

/-!
# Dates

The Gregorian calendar, from the year 0 on.  The number of a date is the number of days in front of it: the
first day has the number 0, the next day the next number, and a later date a larger one.
-/

namespace Orion.Lib

open Finset

/-! ## Years and months -/

def Leap (y : ℕ) : Prop := 4 ∣ y ∧ ¬ 100 ∣ y ∨ 400 ∣ y

instance : DecidablePred Leap := fun y => inferInstanceAs (Decidable (4 ∣ y ∧ ¬ 100 ∣ y ∨ 400 ∣ y))

def yearLength (y : ℕ) : ℕ := if Leap y then 366 else 365

def monthLength (y : ℕ) : ℕ → ℕ
  | 2 => if Leap y then 29 else 28
  | 4 | 6 | 9 | 11 => 30
  | _ => 31

theorem monthLength_pos (y m : ℕ) : 1 ≤ monthLength y m := by
  unfold monthLength
  split
  · split <;> decide
  all_goals decide

theorem monthLength_le (y m : ℕ) : monthLength y m ≤ 31 := by
  unfold monthLength
  split
  · split <;> decide
  all_goals decide

def daysBeforeYear (y : ℕ) : ℕ := ∑ z ∈ range y, yearLength z

def daysBeforeMonth (y m : ℕ) : ℕ := ∑ z ∈ Ico 1 m, monthLength y z

theorem daysBeforeYear_succ (y : ℕ) : daysBeforeYear (y + 1) = daysBeforeYear y + yearLength y :=
  sum_range_succ yearLength y

theorem daysBeforeMonth_succ (y : ℕ) {m : ℕ} (hm : 1 ≤ m) :
    daysBeforeMonth y (m + 1) = daysBeforeMonth y m + monthLength y m :=
  sum_Ico_succ_top hm (monthLength y)

theorem daysBeforeYear_mono : Monotone daysBeforeYear := by
  intro a b hab
  exact sum_le_sum_of_subset (range_mono hab)

theorem daysBeforeMonth_mono (y : ℕ) : Monotone (daysBeforeMonth y) := by
  intro a b hab
  exact sum_le_sum_of_subset (Ico_subset_Ico_right hab)

theorem daysBeforeYear_le (y : ℕ) : daysBeforeYear y ≤ 366 * y := by
  induction y with
  | zero => exact le_rfl
  | succ y ih =>
    have hlength : yearLength y ≤ 366 := by
      unfold yearLength
      split <;> decide
    rw [daysBeforeYear_succ]
    omega

/-- The twelve months are a year. -/
theorem daysBeforeMonth_end (y : ℕ) : daysBeforeMonth y 13 = yearLength y := by
  show ∑ z ∈ Ico 1 13, monthLength y z = yearLength y
  rw [sum_Ico_eq_sum_range]
  simp only [sum_range_succ, sum_range_zero, monthLength, yearLength]
  split <;> rfl

/-- The leap days are those of every fourth year but of three in four centuries. -/
theorem daysBeforeYear_eq (y : ℕ) :
    daysBeforeYear (y + 1) + y / 100 = 365 * (y + 1) + 1 + y / 4 + y / 400 := by
  induction y with
  | zero => rfl
  | succ y ih =>
    rw [daysBeforeYear_succ, yearLength]
    split
    · next hleap =>
      unfold Leap at hleap
      omega
    · next hleap =>
      unfold Leap at hleap
      omega

theorem daysBeforeYear_epoch : daysBeforeYear 1970 = 719528 := by
  have h : daysBeforeYear 1970 + 1969 / 100 = 365 * 1970 + 1 + 1969 / 4 + 1969 / 400 := daysBeforeYear_eq 1969
  omega

/-! ## Dates -/

structure Date where
  year : ℕ
  month : ℕ
  day : ℕ
  month_pos : 1 ≤ month
  month_le : month ≤ 12
  day_pos : 1 ≤ day
  day_le : day ≤ monthLength year month
  deriving DecidableEq

namespace Date

instance : LT Date where
  lt a b := a.year < b.year ∨ a.year = b.year ∧ (a.month < b.month ∨ a.month = b.month ∧ a.day < b.day)

/-- The number of days in front of a date. -/
def dayNumber (d : Date) : ℕ := daysBeforeYear d.year + (daysBeforeMonth d.year d.month + (d.day - 1))

theorem inMonth (d : Date) :
    daysBeforeMonth d.year d.month + (d.day - 1) < daysBeforeMonth d.year (d.month + 1) := by
  rw [daysBeforeMonth_succ d.year d.month_pos]
  have hpos := d.day_pos
  have hle := d.day_le
  omega

theorem inYear (d : Date) : d.dayNumber < daysBeforeYear (d.year + 1) := by
  have hmonth := d.inMonth
  have hend : daysBeforeMonth d.year (d.month + 1) ≤ daysBeforeMonth d.year 13 :=
    daysBeforeMonth_mono d.year (Nat.succ_le_succ d.month_le)
  rw [daysBeforeMonth_end] at hend
  rw [dayNumber, daysBeforeYear_succ]
  omega

/-- **A later date has a larger number.** -/
theorem dayNumber_lt {a b : Date} (h : a < b) : a.dayNumber < b.dayNumber := by
  obtain hyear | ⟨hyear, hmonth | ⟨hmonth, hday⟩⟩ := h
  · calc a.dayNumber < daysBeforeYear (a.year + 1) := a.inYear
      _ ≤ daysBeforeYear b.year := daysBeforeYear_mono hyear
      _ ≤ b.dayNumber := Nat.le_add_right _ _
  · have hblock := a.inMonth
    have hmono := daysBeforeMonth_mono a.year (show a.month + 1 ≤ b.month from hmonth)
    rw [dayNumber, dayNumber, ← hyear]
    omega
  · have hpos := a.day_pos
    rw [dayNumber, dayNumber, ← hyear, ← hmonth]
    omega

def first : Date := ⟨0, 1, 1, le_rfl, by decide, le_rfl, by decide⟩

theorem dayNumber_first : first.dayNumber = 0 := rfl

/-- The day after. -/
def next (d : Date) : Date :=
  if hday : d.day < monthLength d.year d.month then
    ⟨d.year, d.month, d.day + 1, d.month_pos, d.month_le, Nat.succ_pos _, hday⟩
  else if hmonth : d.month < 12 then
    ⟨d.year, d.month + 1, 1, Nat.succ_pos _, hmonth, le_rfl, monthLength_pos _ _⟩
  else ⟨d.year + 1, 1, 1, le_rfl, by decide, le_rfl, monthLength_pos _ _⟩

/-- **The next day has the next number.** -/
theorem dayNumber_next (d : Date) : d.next.dayNumber = d.dayNumber + 1 := by
  have hpos := d.day_pos
  have hle := d.day_le
  have hend := daysBeforeMonth_succ d.year d.month_pos
  unfold next
  split
  · show daysBeforeYear d.year + (daysBeforeMonth d.year d.month + d.day) = d.dayNumber + 1
    rw [dayNumber]
    omega
  · next hday =>
    split
    · show daysBeforeYear d.year + (daysBeforeMonth d.year (d.month + 1) + 0) = d.dayNumber + 1
      rw [dayNumber]
      omega
    · next hmonth =>
      have hlast : d.month = 12 := le_antisymm d.month_le (not_lt.mp hmonth)
      rw [hlast, daysBeforeMonth_end] at hend
      show daysBeforeYear (d.year + 1) + (0 + 0) = d.dayNumber + 1
      rw [dayNumber, daysBeforeYear_succ, hlast]
      rw [hlast] at hday hle
      omega

end Date

/-! ## Times of day -/

structure TimeOfDay where
  hour : ℕ
  minute : ℕ
  second : ℕ
  hour_lt : hour < 24
  minute_lt : minute < 60
  second_lt : second < 60
  deriving DecidableEq

namespace TimeOfDay

instance : LT TimeOfDay where
  lt a b := a.hour < b.hour ∨
    a.hour = b.hour ∧ (a.minute < b.minute ∨ a.minute = b.minute ∧ a.second < b.second)

/-- The seconds since midnight. -/
def seconds (t : TimeOfDay) : ℕ := t.hour * 3600 + t.minute * 60 + t.second

theorem seconds_lt {a b : TimeOfDay} (h : a < b) : a.seconds < b.seconds := by
  have hminute := a.minute_lt
  have hsecond := a.second_lt
  unfold seconds
  obtain hhour | ⟨hhour, hminute' | ⟨hminute', hsecond'⟩⟩ := h <;> omega

end TimeOfDay

structure DateTime where
  date : Date
  time : TimeOfDay
  deriving DecidableEq

namespace DateTime

instance : LT DateTime where
  lt a b := a.date < b.date ∨ a.date = b.date ∧ a.time < b.time

/-- The number of the day, and the seconds of it that are over. -/
def reading (d : DateTime) : ℕ × ℕ := (d.date.dayNumber, d.time.seconds)

/-- **A later time has a larger reading.** -/
theorem reading_lt {a b : DateTime} (h : a < b) : toLex a.reading < toLex b.reading := by
  rw [Prod.Lex.toLex_lt_toLex]
  obtain hdate | ⟨hdate, htime⟩ := h
  · exact .inl (Date.dayNumber_lt hdate)
  · exact .inr ⟨congrArg Date.dayNumber hdate, TimeOfDay.seconds_lt htime⟩

end DateTime

end Orion.Lib
