import Orion.Lib.Calendar
import Mathlib.Tactic.IntervalCases

/-!
# The time for certificates (`kernel/tls.c`)

The clock chip gives the date and the time in one of four formats, and validation wants the number of the day
and the seconds since midnight.
-/

namespace Orion.Tls

open Orion.Lib

/-! ## The clock chip -/

/-- What the `t`-th read of the data port gives, by the register that is selected. -/
abbrev Rtc := ℕ → UInt8 → UInt8

/-- The bit that goes out with the number of the register masks interrupts, and is no part of it. -/
def cmos (rtc : Rtc) (reg : UInt8) (t : ℕ) : UInt8 := rtc t ((0x80 ||| reg) &&& 0x7f)

structure Snapshot where
  sec : UInt8
  min : UInt8
  hour : UInt8
  day : UInt8
  mon : UInt8
  year : UInt8
  cent : UInt8
  regb : UInt8
  deriving Repr, DecidableEq

/-- The eight registers, one read after the other. -/
def readRegisters (rtc : Rtc) (t : ℕ) : Snapshot where
  sec := cmos rtc 0 t
  min := cmos rtc 2 (t + 1)
  hour := cmos rtc 4 (t + 2)
  day := cmos rtc 7 (t + 3)
  mon := cmos rtc 8 (t + 4)
  year := cmos rtc 9 (t + 5)
  cent := cmos rtc 0x32 (t + 6)
  regb := cmos rtc 0x0B (t + 7)

/-- `while (cmos(0x0A) & 0x80u) {}`: the next read behind it, if it ends. -/
def awaitUpdate (rtc : Rtc) : ℕ → ℕ → Option ℕ
  | 0, _ => none
  | fuel + 1, t => if cmos rtc 0x0A t &&& 0x80 ≠ 0 then awaitUpdate rtc fuel (t + 1) else some (t + 1)

def rtcSnapshotLoop (rtc : Rtc) (fuel : ℕ) : ℕ → ℕ → Option (Option Snapshot)
  | 0, _ => some none
  | retries + 1, t => do
    let t ← awaitUpdate rtc fuel t
    let r₁ := readRegisters rtc t
    let t ← awaitUpdate rtc fuel (t + 8)
    let r₂ := readRegisters rtc t
    if r₁ = r₂ then some (some r₂) else rtcSnapshotLoop rtc fuel retries (t + 8)

/-- `none` while it still waits, and `some none` when no two rounds agree. -/
def rtcSnapshot (rtc : Rtc) (fuel t : ℕ) : Option (Option Snapshot) := rtcSnapshotLoop rtc fuel 8 t

/-! ## The time -/

def bcd (x : ℕ) : ℕ := (x &&& 15) + 10 * ((x >>> 4) &&& 15)

def leap (y : ℕ) : Bool := y % 4 = 0 ∧ y % 100 ≠ 0 ∨ y % 400 = 0

/-- The conversion of a register, by the format in register B. -/
def plain (b x : UInt8) : ℕ := if b &&& 0x04 = 0 then bcd x.toNat % 256 else x.toNat

/-- The conversion of the hours. -/
def plainHour (b h : UInt8) : ℕ :=
  let pm := h &&& 0x80 ≠ 0
  let h := plain b (h &&& 0x7f)
  if b &&& 0x02 = 0 then
    let h := if pm ∧ h < 12 then (h + 12) % 256 else h
    if ¬ pm ∧ h = 12 then 0 else h
  else h

def md : List UInt32 := [31, 28, 31, 30, 31, 30, 31, 31, 30, 31, 30, 31]

/-- The days of so many years from 1970 on. -/
def yearDays (years : ℕ) : UInt32 :=
  (List.range' 1970 years).foldl (fun days z => days + if leap z then 366 else 365) 0

/-- The days of so many months of the year come on top. -/
def monthDays (yy : ℕ) (days : UInt32) (months : ℕ) : UInt32 :=
  (List.range' 1 months).foldl
    (fun days z => days + (md.getD (z - 1) 0 + if z = 2 ∧ leap yy then 1 else 0)) days

/-- The rest of `tls_time`, behind the snapshot. -/
def civilTime (r : Snapshot) : Option (UInt32 × UInt32) :=
  let s := plain r.regb r.sec
  let m := plain r.regb r.min
  let h := plainHour r.regb r.hour
  let d := plain r.regb r.day
  let mo := plain r.regb r.mon
  let y := plain r.regb r.year
  let c := plain r.regb r.cent
  let yy := if c ≥ 19 ∧ c ≤ 99 then c * 100 + y else if y < 70 then 2000 + y else 1900 + y
  if yy < 2020 ∨ yy > 2199 ∨ mo < 1 ∨ mo > 12 ∨ d < 1 ∨ d > 31 ∨ h > 23 ∨ m > 59 ∨ s > 60 then none
  else
    let unixDays := monthDays yy (yearDays (yy - 1970)) (mo - 1)
    let maxd := md.getD (mo - 1) 0 + if mo = 2 ∧ leap yy then 1 else 0
    if UInt32.ofNat d > maxd then none
    else
      let unixDays := unixDays + (UInt32.ofNat d - 1)
      some (719528 + unixDays, UInt32.ofNat h * 3600 + UInt32.ofNat m * 60 + UInt32.ofNat s)

/-- The days and the seconds; `some none` where the source returns 0. -/
def tlsTime (rtc : Rtc) (fuel t : ℕ) : Option (Option (UInt32 × UInt32)) := do
  match ← rtcSnapshot rtc fuel t with
  | none => some none
  | some r => some (civilTime r)

/-! ## Formats -/

structure Format where
  binary : Bool
  hours24 : Bool

namespace Format

/-- A number below 100 in a register. -/
def field (f : Format) (n : ℕ) : UInt8 := .ofNat (if f.binary then n else 16 * (n / 10) + n % 10)

/-- The hours; on twelve hours the top bit is for the afternoon, and the first hour is called twelve. -/
def hourField (f : Format) (h : ℕ) : UInt8 :=
  if f.hours24 then f.field h else (if h < 12 then 0 else 0x80) ||| f.field ((h + 11) % 12 + 1)

/-- Register B tells the format; its other bits are free. -/
structure Told (f : Format) (b : UInt8) : Prop where
  binary : b &&& 0x04 = 0 ↔ f.binary = false
  hours24 : b &&& 0x02 = 0 ↔ f.hours24 = false

end Format

/-- The registers hold the time in a format. -/
structure Encodes (f : Format) (dt : DateTime) (r : Snapshot) : Prop where
  sec : r.sec = f.field dt.time.second
  min : r.min = f.field dt.time.minute
  hour : r.hour = f.hourField dt.time.hour
  day : r.day = f.field dt.date.day
  mon : r.mon = f.field dt.date.month
  year : r.year = f.field (dt.date.year % 100)
  cent : r.cent = f.field (dt.date.year / 100)
  regb : f.Told r.regb

section

variable {f : Format} {b : UInt8} (hb : f.Told b)

theorem bcd_digits {a c : ℕ} (ha : a < 16) (hc : c < 16) : bcd (16 * a + c) = 10 * a + c := by
  have hlow : (16 * a + c) &&& 15 = (16 * a + c) % 16 := Nat.and_two_pow_sub_one_eq_mod (16 * a + c) 4
  have hhigh : (16 * a + c) / 2 ^ 4 &&& 15 = (16 * a + c) / 16 % 16 :=
    Nat.and_two_pow_sub_one_eq_mod ((16 * a + c) / 2 ^ 4) 4
  rw [bcd, Nat.shiftRight_eq_div_pow, hlow, hhigh]
  omega

theorem toNat_field {n : ℕ} (hn : n < 100) :
    (f.field n).toNat = if f.binary then n else 16 * (n / 10) + n % 10 := by
  rw [Format.field, UInt8.toNat_ofNat']
  split <;> omega

/-- The hours leave the top bit free. -/
theorem field_low {n : ℕ} (hn : n < 24) : (f.field n).toNat < 128 := by
  rw [toNat_field (by omega)]
  split <;> omega

theorem top_bit {x : UInt8} (hx : x.toNat < 128) : x &&& 0x80 = 0 ∧ x &&& 0x7f = x ∧
    ((0x80 : UInt8) ||| x) &&& 0x80 ≠ 0 ∧ ((0x80 : UInt8) ||| x) &&& 0x7f = x := by
  have hall : ∀ n : Fin 128, let x := UInt8.ofNat n; x &&& 0x80 = 0 ∧ x &&& 0x7f = x ∧
      ((0x80 : UInt8) ||| x) &&& 0x80 ≠ 0 ∧ ((0x80 : UInt8) ||| x) &&& 0x7f = x := by decide
  have h := hall ⟨x.toNat, hx⟩
  simpa only [UInt8.ofNat_toNat] using h

include hb

/-- A register gives its number back. -/
theorem plain_field {n : ℕ} (hn : n < 100) : plain b (f.field n) = n := by
  have htold := hb.binary
  have hnat := toNat_field (f := f) hn
  rw [plain, hnat]
  cases hbin : f.binary with
  | false =>
    rw [if_pos (htold.mpr hbin), if_neg Bool.false_ne_true, bcd_digits (by omega) (by omega)]
    omega
  | true =>
    have hset : ¬ b &&& 0x04 = 0 := fun hzero => Bool.false_ne_true ((htold.mp hzero).symm.trans hbin)
    rw [if_neg hset, if_pos rfl]

theorem plainHour_hourField {h : ℕ} (hh : h < 24) : plainHour b (f.hourField h) = h := by
  have htold := hb.hours24
  rw [Format.hourField]
  cases hfull : f.hours24 with
  | true =>
    have hset : ¬ b &&& 0x02 = 0 := fun hzero => Bool.false_ne_true ((htold.mp hzero).symm.trans hfull)
    obtain ⟨-, hlow, -⟩ := top_bit (field_low (f := f) hh)
    rw [if_pos rfl, plainHour]
    simp only
    rw [if_neg hset, hlow, plain_field hb (by omega)]
  | false =>
    have hclear := htold.mpr hfull
    have htwelve : (h + 11) % 12 + 1 < 24 := by omega
    obtain ⟨hfree, hlow, htop, hrest⟩ := top_bit (field_low (f := f) htwelve)
    have hplain := plain_field hb (show (h + 11) % 12 + 1 < 100 by omega)
    rw [if_neg Bool.false_ne_true, plainHour]
    simp only
    rw [if_pos hclear]
    split
    · -- in the morning
      rw [show (0 : UInt8) ||| f.field ((h + 11) % 12 + 1) = f.field ((h + 11) % 12 + 1) from UInt8.zero_or,
        hfree, hlow, hplain]
      simp only [ne_eq, not_true_eq_false, false_and, if_false, not_false_eq_true, true_and]
      split <;> omega
    · rw [hrest, hplain]
      simp only [htop, not_true_eq_false, false_and, if_false, ne_eq, not_false_eq_true, true_and]
      split <;> omega

end

/-! ## The days -/

theorem leap_iff (y : ℕ) : leap y = true ↔ Leap y := by
  unfold leap Leap
  rw [decide_eq_true_iff]
  omega

theorem yearDays_eq {years : ℕ} (h : years ≤ 230) :
    (yearDays years).toNat + 719528 = daysBeforeYear (1970 + years) := by
  induction years with
  | zero => exact (Nat.zero_add _).trans daysBeforeYear_epoch.symm
  | succ years ih =>
    have hprev := ih (by omega)
    have hbound := daysBeforeYear_le (1970 + years)
    have hstep : yearDays (years + 1) = yearDays years + if leap (1970 + years) then 366 else 365 := by
      unfold yearDays
      rw [List.range'_1_concat, List.foldl_append]
      rfl
    rw [hstep, ← Nat.add_assoc, daysBeforeYear_succ, yearLength, UInt32.toNat_add]
    by_cases hleap : Leap (1970 + years)
    · rw [if_pos hleap, if_pos ((leap_iff _).mpr hleap), show UInt32.toNat 366 = 366 from rfl]
      omega
    · rw [if_neg hleap, if_neg (fun h => hleap ((leap_iff _).mp h)), show UInt32.toNat 365 = 365 from rfl]
      omega

/-- The table of the months. -/
theorem md_eq (y : ℕ) {m : ℕ} (hpos : 1 ≤ m) (hle : m ≤ 12) :
    (md.getD (m - 1) 0 + if m = 2 ∧ leap y then 1 else 0).toNat = monthLength y m := by
  have hiff := leap_iff y
  by_cases hleap : Leap y
  · simp only [hiff.mpr hleap, and_true]
    interval_cases m
    case «2» => exact (if_pos hleap).symm
    all_goals rfl
  · have hno : ¬ leap y = true := fun h => hleap (hiff.mp h)
    simp only [hno]
    interval_cases m
    case «2» => exact (if_neg hleap).symm
    all_goals rfl

theorem monthDays_eq (yy : ℕ) (days : UInt32) {months : ℕ} (h : months ≤ 12)
    (hroom : days.toNat + daysBeforeMonth yy 13 < 2 ^ 32) :
    (monthDays yy days months).toNat = days.toNat + daysBeforeMonth yy (1 + months) := by
  induction months with
  | zero => rfl
  | succ months ih =>
    have hprev := ih (by omega)
    have hstep : monthDays yy days (months + 1) = monthDays yy days months +
        (md.getD (1 + months - 1) 0 + if 1 + months = 2 ∧ leap yy then 1 else 0) := by
      unfold monthDays
      rw [List.range'_1_concat, List.foldl_append]
      rfl
    have hmono := daysBeforeMonth_mono yy (show 1 + months + 1 ≤ 13 by omega)
    rw [daysBeforeMonth_succ yy (by omega)] at hmono
    rw [hstep, ← Nat.add_assoc, daysBeforeMonth_succ yy (by omega), UInt32.toNat_add,
      md_eq yy (by omega) (by omega), hprev]
    omega

/-- The time is one of those that the source takes. -/
def InRange (dt : DateTime) : Prop := 2020 ≤ dt.date.year ∧ dt.date.year ≤ 2199

theorem toNat_word {n : ℕ} (h : n ≤ 59) : (UInt32.ofNat n).toNat = n := 
  UInt32.toNat_ofNat_of_lt' (h.trans_lt (by decide))

/-- The sum that the days are. -/
theorem days_eq {d : Date} (h : 2020 ≤ d.year ∧ d.year ≤ 2199) :
    (719528 + (monthDays d.year (yearDays (d.year - 1970)) (d.month - 1) +
      (UInt32.ofNat d.day - 1)) : UInt32).toNat = d.dayNumber := by
  have hday := d.day_le.trans (monthLength_le d.year d.month)
  have hmonth := d.month_le
  have hend : d.month + 1 ≤ 13 := Nat.succ_le_succ hmonth
  have hcount := d.inMonth.trans_le (daysBeforeMonth_mono d.year hend)
  have hyears := yearDays_eq (show d.year - 1970 ≤ 230 by omega)
  rw [show 1970 + (d.year - 1970) = d.year by omega] at hyears
  have hbound := daysBeforeYear_le (d.year + 1)
  rw [daysBeforeYear_succ, ← daysBeforeMonth_end] at hbound
  have hmonths := monthDays_eq d.year (yearDays (d.year - 1970)) (show d.month - 1 ≤ 12 by omega) (by omega)
  rw [Nat.add_sub_cancel' d.month_pos] at hmonths
  have hbefore : (UInt32.ofNat d.day - 1).toNat = d.day - 1 := by
    have hword := toNat_word (show d.day ≤ 59 by omega)
    have hone : (1 : UInt32) ≤ UInt32.ofNat d.day := by
      rw [UInt32.le_iff_toNat_le, hword]
      exact d.day_pos
    rw [UInt32.toNat_sub_of_le _ _ hone, hword]
    rfl
  have hepoch : UInt32.toNat 719528 = 719528 := rfl
  rw [UInt32.toNat_add, UInt32.toNat_add, hmonths, hbefore, hepoch, Date.dayNumber]
  omega

theorem seconds_eq (t : TimeOfDay) :
    (UInt32.ofNat t.hour * 3600 + UInt32.ofNat t.minute * 60 + UInt32.ofNat t.second).toNat = t.seconds := by
  have hhour := t.hour_lt
  have hminute := t.minute_lt
  have hsecond := t.second_lt
  rw [UInt32.toNat_add, UInt32.toNat_add, UInt32.toNat_mul, UInt32.toNat_mul, toNat_word (by omega),
    toNat_word (by omega), toNat_word (by omega), show UInt32.toNat 3600 = 3600 from rfl,
    show UInt32.toNat 60 = 60 from rfl, TimeOfDay.seconds]
  omega

/-- No date has a day behind the end of its month. -/
theorem day_fits (d : Date) :
    ¬ UInt32.ofNat d.day > md.getD (d.month - 1) 0 + if d.month = 2 ∧ leap d.year then 1 else 0 := by
  have hday := d.day_le.trans (monthLength_le d.year d.month)
  rw [gt_iff_lt, UInt32.lt_iff_toNat_lt, toNat_word (by omega), md_eq d.year d.month_pos d.month_le]
  exact not_lt.mpr d.day_le

/-- The registers give the time back. -/
theorem civilTime_encoded {f : Format} {dt : DateTime} {r : Snapshot} (henc : Encodes f dt r)
    (hyear : InRange dt) :
    ∃ days seconds, civilTime r = some (days, seconds) ∧ (days.toNat, seconds.toNat) = dt.reading := by
  obtain ⟨d, t⟩ := dt
  obtain ⟨hsec, hmin, hhour, hday, hmon, hyea, hcent, hb⟩ := henc
  obtain ⟨hfirst, hlast⟩ : 2020 ≤ d.year ∧ d.year ≤ 2199 := hyear
  have hdays := d.day_le.trans (monthLength_le d.year d.month)
  have hpos := d.day_pos
  have hmonth₁ := d.month_pos
  have hmonth₂ := d.month_le
  have hhours := t.hour_lt
  have hminutes := t.minute_lt
  have hseconds := t.second_lt
  have hcivil : (if d.year / 100 ≥ 19 ∧ d.year / 100 ≤ 99 then d.year / 100 * 100 + d.year % 100
      else if d.year % 100 < 70 then 2000 + d.year % 100 else 1900 + d.year % 100) = d.year := by
    rw [if_pos (by omega)]
    omega
  have hvalid : ¬ (d.year < 2020 ∨ d.year > 2199 ∨ d.month < 1 ∨ d.month > 12 ∨ d.day < 1 ∨ d.day > 31 ∨
      t.hour > 23 ∨ t.minute > 59 ∨ t.second > 60) := by omega
  refine ⟨_, _, ?_, congrArg₂ Prod.mk (days_eq ⟨hfirst, hlast⟩) (seconds_eq t)⟩
  rw [civilTime, hsec, hmin, hhour, hday, hmon, hyea, hcent]
  simp only
  rw [plain_field hb (show t.second < 100 by omega), plain_field hb (show t.minute < 100 by omega),
    plainHour_hourField hb hhours, plain_field hb (show d.day < 100 by omega),
    plain_field hb (show d.month < 100 by omega), plain_field hb (show d.year % 100 < 100 by omega),
    plain_field hb (show d.year / 100 < 100 by omega), hcivil, if_neg hvalid, if_neg (day_fits d)]

/-! ## The snapshot -/

section

variable {rtc : Rtc}

/-- The wait ends when the flag is clear. -/
theorem awaitUpdate_ends {t u : ℕ} (htu : t ≤ u) (hclear : cmos rtc 0x0A u &&& 0x80 = 0) :
    ∃ bound t', ∀ fuel ≥ bound, awaitUpdate rtc fuel t = some t' := by
  induction htu using Nat.decreasingInduction with
  | self =>
    refine ⟨1, u + 1, fun fuel hfuel => ?_⟩
    obtain ⟨fuel, rfl⟩ := Nat.exists_eq_add_of_le' hfuel
    rw [awaitUpdate, if_neg (not_not.mpr hclear)]
  | of_succ t _ ih =>
    obtain ⟨bound, t', hends⟩ := ih
    by_cases hbusy : cmos rtc 0x0A t &&& 0x80 = 0
    · refine ⟨1, t + 1, fun fuel hfuel => ?_⟩
      obtain ⟨fuel, rfl⟩ := Nat.exists_eq_add_of_le' hfuel
      rw [awaitUpdate, if_neg (not_not.mpr hbusy)]
    · refine ⟨bound + 1, t', fun fuel hfuel => ?_⟩
      obtain ⟨fuel, rfl⟩ := Nat.exists_eq_add_of_le' (show 1 ≤ fuel by omega)
      rw [awaitUpdate, if_pos hbusy]
      exact hends fuel (by omega)

/-- The registers do not change, and updates end. -/
structure Stable (rtc : Rtc) (r : Snapshot) : Prop where
  registers : ∀ t, readRegisters rtc t = r
  ends : ∀ t, ∃ u ≥ t, cmos rtc 0x0A u &&& 0x80 = 0

theorem rtcSnapshot_stable {r : Snapshot} (h : Stable rtc r) (t : ℕ) :
    ∃ bound, ∀ fuel ≥ bound, rtcSnapshot rtc fuel t = some (some r) := by
  obtain ⟨u₁, hu₁, hclear₁⟩ := h.ends t
  obtain ⟨bound₁, t₁, hends₁⟩ := awaitUpdate_ends hu₁ hclear₁
  obtain ⟨u₂, hu₂, hclear₂⟩ := h.ends (t₁ + 8)
  obtain ⟨bound₂, t₂, hends₂⟩ := awaitUpdate_ends hu₂ hclear₂
  refine ⟨max bound₁ bound₂, fun fuel hfuel => ?_⟩
  show (awaitUpdate rtc fuel t).bind _ = _
  rw [hends₁ fuel (by omega), Option.bind_some]
  show (awaitUpdate rtc fuel (t₁ + 8)).bind _ = _
  rw [hends₂ fuel (by omega), Option.bind_some, h.registers, h.registers, if_pos rfl]

end

/-! ## The clock -/

theorem tlsTime_encoded {f : Format} {dt : DateTime} {r : Snapshot} (henc : Encodes f dt r)
    (hyear : InRange dt) {rtc : Rtc} {fuel t : ℕ} (hsnap : rtcSnapshot rtc fuel t = some (some r)) :
    ∃ days seconds, tlsTime rtc fuel t = some (some (days, seconds)) ∧
      (days.toNat, seconds.toNat) = dt.reading := by
  obtain ⟨days, seconds, hcivil, hreading⟩ := civilTime_encoded henc hyear
  refine ⟨days, seconds, ?_, hreading⟩
  rw [tlsTime, hsnap]
  exact congrArg some hcivil

/-- **The clock of certificate validation.** -/
theorem tls_time_right {f : Format} {dt : DateTime} {r : Snapshot} (henc : Encodes f dt r)
    (hyear : InRange dt) (rtc : Rtc) (t : ℕ) :
    (∀ fuel, rtcSnapshot rtc fuel t = some (some r) → ∃ days seconds,
      tlsTime rtc fuel t = some (some (days, seconds)) ∧
        days.toNat = dt.date.dayNumber ∧ seconds.toNat = dt.time.seconds) ∧
    (Stable rtc r → ∃ bound, ∀ fuel ≥ bound, rtcSnapshot rtc fuel t = some (some r)) ∧
    ∀ {f' : Format} {dt' : DateTime} {r' : Snapshot} (rtc' : Rtc) (fuel fuel' t' : ℕ)
      (days seconds days' seconds' : UInt32), Encodes f' dt' r' → InRange dt' → dt < dt' →
      rtcSnapshot rtc fuel t = some (some r) → tlsTime rtc fuel t = some (some (days, seconds)) →
      rtcSnapshot rtc' fuel' t' = some (some r') → tlsTime rtc' fuel' t' = some (some (days', seconds')) →
      days < days' ∨ days = days' ∧ seconds < seconds' := by
  refine ⟨fun fuel hsnap => ?_, fun hstable => rtcSnapshot_stable hstable t, ?_⟩
  · obtain ⟨days, seconds, hrun, hreading⟩ := tlsTime_encoded henc hyear hsnap
    exact ⟨days, seconds, hrun, (Prod.mk.inj hreading).1, (Prod.mk.inj hreading).2⟩
  · intro f' dt' r' rtc' fuel fuel' t' days seconds days' seconds' henc' hyear' hlater hsnap hrun hsnap' hrun'
    obtain ⟨_, _, hrun₁, hreading⟩ := tlsTime_encoded henc hyear hsnap
    obtain ⟨_, _, hrun₂, hreading'⟩ := tlsTime_encoded henc' hyear' hsnap'
    obtain ⟨rfl, rfl⟩ := Prod.mk.inj (Option.some.inj (Option.some.inj (hrun.symm.trans hrun₁)))
    obtain ⟨rfl, rfl⟩ := Prod.mk.inj (Option.some.inj (Option.some.inj (hrun'.symm.trans hrun₂)))
    have hlt := DateTime.reading_lt hlater
    rw [← hreading, ← hreading', Prod.Lex.toLex_lt_toLex] at hlt
    rw [UInt32.lt_iff_toNat_lt, UInt32.lt_iff_toNat_lt, ← UInt32.toNat_inj]
    exact hlt

/-- A clock that stands still. -/
def Snapshot.held (r : Snapshot) : Rtc := fun _ reg =>
  if reg = 0 then r.sec else if reg = 2 then r.min else if reg = 4 then r.hour else if reg = 7 then r.day
  else if reg = 8 then r.mon else if reg = 9 then r.year else if reg = 0x32 then r.cent
  else if reg = 0x0B then r.regb else 0

theorem stable_held (r : Snapshot) : Stable r.held r where
  registers _ := rfl
  ends t := ⟨t, le_rfl, show (0 : UInt8) &&& 0x80 = 0 by decide⟩

/-- The end of the twelfth hour of a leap day, and the midnight behind it. -/
theorem tls_time_right_leapDay :
    let noon : DateTime := ⟨⟨2024, 2, 29, by decide, by decide, by decide, by decide⟩,
      ⟨12, 59, 59, by decide, by decide, by decide⟩⟩
    let midnight : DateTime := ⟨⟨2024, 3, 1, by decide, by decide, by decide, by decide⟩,
      ⟨0, 0, 0, by decide, by decide, by decide⟩⟩
    let r : Snapshot := ⟨0x59, 0x59, 0x92, 0x29, 0x02, 0x24, 0x20, 0x00⟩
    let r' : Snapshot := ⟨0, 0, 0, 1, 3, 24, 20, 0x06⟩
    ∃ fuel days seconds days' seconds', tlsTime r.held fuel 0 = some (some (days, seconds)) ∧
      days.toNat = noon.date.dayNumber ∧ seconds.toNat = noon.time.seconds ∧
      tlsTime r'.held fuel 0 = some (some (days', seconds')) ∧ days'.toNat = midnight.date.dayNumber ∧
      (days < days' ∨ days = days' ∧ seconds < seconds') := by
  intro noon midnight r r'
  have hnoon : Encodes ⟨false, false⟩ noon r := by
    constructor
    case regb => exact ⟨by decide, by decide⟩
    all_goals decide
  have hmidnight : Encodes ⟨true, true⟩ midnight r' := by
    constructor
    case regb => exact ⟨by decide, by decide⟩
    all_goals decide
  have hyear : InRange noon := ⟨by decide, by decide⟩
  have hyear' : InRange midnight := ⟨by decide, by decide⟩
  have hright := tls_time_right hnoon hyear r.held 0
  have hright' := tls_time_right hmidnight hyear' r'.held 0
  obtain ⟨bound, hsnap⟩ := hright.2.1 (stable_held r)
  obtain ⟨bound', hsnap'⟩ := hright'.2.1 (stable_held r')
  have hfirst := hsnap (max bound bound') (le_max_left _ _)
  have hsecond := hsnap' (max bound bound') (le_max_right _ _)
  obtain ⟨days, seconds, hrun, hdays, hseconds⟩ := hright.1 _ hfirst
  obtain ⟨days', seconds', hrun', hdays', -⟩ := hright'.1 _ hsecond
  have hlater : noon < midnight := .inl (.inr ⟨by decide, .inl (by decide)⟩)
  exact ⟨_, days, seconds, days', seconds', hrun, hdays, hseconds, hrun', hdays',
    hright.2.2 _ _ _ _ _ _ _ _ hmidnight hyear' hlater hfirst hrun hsecond hrun'⟩

end Orion.Tls
