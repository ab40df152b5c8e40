import Mathlib.Tactic.Ring

/-!
# Dates

The clock of the kernel and the calendar of the library. `get_date_time` of `rtc.c` reads the
registers of the real time clock and counts the seconds with the `mktime` of `rtc.h`;
`sys_time` passes on 32 bits of the count, and `calcDate` of `time.c` takes it apart.
-/

namespace Qwin.Date

open List

/-- `struct tm` without `tm_isdst`, which nothing sets. -/
@[ext] structure Tm where
  sec : ℤ
  min : ℤ
  hour : ℤ
  mday : ℤ
  mon : ℤ
  year : ℤ
  wday : ℤ
  yday : ℤ
  deriving DecidableEq

/-! ## The kernel -/

/-- `mktime`. February is the last month of its year, since it has the leap day. -/
def mktime (tm : Tm) : ℤ :=
  let mon := if tm.mon - 2 ≤ 0 then tm.mon - 2 + 12 else tm.mon - 2
  let year := if tm.mon - 2 ≤ 0 then tm.year - 1 else tm.year
  ((((year.tdiv 4 - year.tdiv 100 + year.tdiv 400 + (367 * mon).tdiv 12 + tm.mday) +
    year * 365 - 719499) * 24 + tm.hour) * 60 + tm.min) * 60 + tm.sec

def bcd2dec (bcd : ℕ) : ℕ := bcd / 16 * 10 + bcd % 16

/-- `get_date_time`, with the registers of the clock. The fields of `DATE` and `TIME` have as
many bits as the source gives them. -/
def getDateTime (reg : ℕ → ℕ) : ℤ :=
  mktime
    { year := (bcd2dec (reg 9) % 2 ^ 7 : ℕ) + 2000
      mon := (bcd2dec (reg 8) % 2 ^ 4 : ℕ)
      mday := (bcd2dec (reg 7) % 2 ^ 5 : ℕ)
      hour := (bcd2dec (reg 4) % 2 ^ 5 : ℕ)
      min := (bcd2dec (reg 2) % 2 ^ 6 : ℕ)
      sec := (bcd2dec (reg 0) % 2 ^ 6 : ℕ)
      wday := 0
      yday := 0 }

def sysTime (reg : ℕ → ℕ) : ℕ := (getDateTime reg % 2 ^ 32).toNat

/-! ## The library -/

def leapYear (year : ℕ) : Bool := year % 4 = 0 ∧ (year % 100 ≠ 0 ∨ year % 400 = 0)

def daysInYear (year : ℕ) : ℕ := if leapYear year then 366 else 365

/-- `dim`: the table `daysInMonth`, with a day more in a leap year -/
def dim (leap : Bool) (month : ℕ) : ℕ :=
  [31, 28, 31, 30, 31, 30, 31, 31, 30, 31, 30, 31].getD month 0 +
    if month = 1 ∧ leap = true then 1 else 0

theorem daysInYear_pos (year : ℕ) : 0 < daysInYear year := by
  unfold daysInYear
  split <;> decide

/-- The `for` loop over the months: the month and the days that are left. -/
def monthLoop (leap : Bool) (month days : ℕ) : ℕ × ℕ :=
  if month < 12 then
    if dim leap month ≤ days then monthLoop leap (month + 1) (days - dim leap month)
    else (month, days)
  else (month, days)
termination_by 12 - month

/-- The `while` loop over the years: the year, the days that are left, and the day of the week
of the first day of the year. -/
def yearLoop (year days dayOfWeek : ℕ) : ℕ × ℕ × ℕ :=
  if daysInYear year ≤ days then
    let next := dayOfWeek + if leapYear year then 2 else 1
    yearLoop (year + 1) (days - daysInYear year) (if 7 ≤ next then next - 7 else next)
  else (year, days, dayOfWeek)
termination_by days
decreasing_by
  have := daysInYear_pos year
  omega

def calcDate (seconds : ℕ) : Tm :=
  let minutes := seconds / 60
  let hours := minutes / 60
  let days := hours / 24
  let (year, yday, dayOfWeek) := yearLoop 1970 days 4
  let (month, mday) := monthLoop (leapYear year) 0 yday
  { sec := (seconds - minutes * 60 : ℕ)
    min := (minutes - hours * 60 : ℕ)
    hour := (hours - days * 24 : ℕ)
    mday := (mday + 1 : ℕ)
    mon := month
    year := year
    wday := ((dayOfWeek + yday) % 7 : ℕ)
    yday := yday }

/-! ## The calendar -/

def daysOfYears (year : ℕ) : ℕ → ℕ
  | 0 => 0
  | k + 1 => daysInYear year + daysOfYears (year + 1) k

def daysOfMonths (leap : Bool) (m : ℕ) : ℕ := ((List.range m).map (dim leap)).sum

/-- A day in the calendar, with the months counted from one, and a time of the day. -/
structure Moment where
  year : ℕ
  month : ℕ
  day : ℕ
  hour : ℕ
  min : ℕ
  sec : ℕ

namespace Moment

structure Valid (x : Moment) : Prop where
  year : 2000 ≤ x.year ∧ x.year ≤ 2099
  month : 1 ≤ x.month ∧ x.month ≤ 12
  day : 1 ≤ x.day ∧ x.day ≤ dim (leapYear x.year) (x.month - 1)
  hour : x.hour < 24
  min : x.min < 60
  sec : x.sec < 60

def yday (x : Moment) : ℕ := daysOfMonths (leapYear x.year) (x.month - 1) + (x.day - 1)

def days (x : Moment) : ℕ := daysOfYears 1970 (x.year - 1970) + x.yday

/-- The first of January 1970 was a Thursday. -/
def wday (x : Moment) : ℕ := (4 + x.days) % 7

def seconds (x : Moment) : ℕ := ((x.days * 24 + x.hour) * 60 + x.min) * 60 + x.sec

def tm (x : Moment) : Tm where
  sec := x.sec
  min := x.min
  hour := x.hour
  mday := x.day
  mon := x.month - 1
  year := x.year
  wday := x.wday
  yday := x.yday

end Moment

def bcd (n : ℕ) : ℕ := n / 10 * 16 + n % 10

def rtc (x : Moment) : ℕ → ℕ
  | 0 => bcd x.sec
  | 2 => bcd x.min
  | 4 => bcd x.hour
  | 7 => bcd x.day
  | 8 => bcd x.month
  | 9 => bcd (x.year - 2000)
  | _ => 0

theorem bcd2dec_bcd (n : ℕ) : bcd2dec (bcd n) = n := by
  unfold bcd2dec bcd
  omega

/-! ## The loops of `calcDate` -/

theorem monthLoop_eq (leap : Bool) {k r : ℕ} (hr : r < dim leap k) (hk : k < 12) :
    ∀ j ≤ k, monthLoop leap j (((List.range' j (k - j)).map (dim leap)).sum + r) = (k, r) := by
  intro j hj
  induction hd : k - j generalizing j with
  | zero =>
    obtain rfl : j = k := by omega
    rw [monthLoop, if_pos hk]
    simp only [List.range'_zero, map_nil, sum_nil, Nat.zero_add]
    rw [if_neg (not_le.2 hr)]
  | succ n ih =>
    have hle : dim leap j ≤ ((List.range' j (n + 1)).map (dim leap)).sum + r := by
      rw [List.range'_succ, map_cons, sum_cons]
      omega
    rw [monthLoop, if_pos (by omega), if_pos hle, List.range'_succ, map_cons, sum_cons,
      show dim leap j + ((List.range' (j + 1) n).map (dim leap)).sum + r - dim leap j =
        ((List.range' (j + 1) n).map (dim leap)).sum + r by omega]
    exact ih (j + 1) (by omega) (by omega)

theorem monthLoop_daysOfMonths (leap : Bool) {k r : ℕ} (hr : r < dim leap k) (hk : k < 12) :
    monthLoop leap 0 (daysOfMonths leap k + r) = (k, r) := by
  rw [daysOfMonths, range_eq_range']
  exact monthLoop_eq leap hr hk 0 (Nat.zero_le k)

theorem exists_month (leap : Bool) {n : ℕ} (hn : n < if leap then 366 else 365) :
    ∃ k r, k < 12 ∧ r < dim leap k ∧ n = daysOfMonths leap k + r := by
  have hall : ∀ m, n < daysOfMonths leap m → m ≤ 12 →
      ∃ k r, k < 12 ∧ r < dim leap k ∧ n = daysOfMonths leap k + r := by
    intro m hm hle
    induction m with
    | zero => exact absurd hm (Nat.not_lt_zero n)
    | succ m ih =>
      by_cases hlt : n < daysOfMonths leap m
      · exact ih hlt (by omega)
      · refine ⟨m, n - daysOfMonths leap m, by omega, ?_, by omega⟩
        rw [daysOfMonths, range_succ, map_append, sum_append] at hm
        simp only [map_cons, map_nil, sum_cons, sum_nil] at hm
        unfold daysOfMonths at hlt ⊢
        omega
  refine hall 12 (lt_of_lt_of_le hn ?_) le_rfl
  cases leap <;> decide

theorem yearLoop_eq {r : ℕ} (k : ℕ) {year dow : ℕ} (hr : r < daysInYear (year + k)) (hdow : dow < 7) :
    yearLoop year (daysOfYears year k + r) dow = (year + k, r, (dow + daysOfYears year k) % 7) := by
  induction k generalizing year dow with
  | zero =>
    rw [yearLoop, daysOfYears, if_neg (by simpa using hr)]
    simp only [Nat.zero_add, Nat.add_zero, Nat.mod_eq_of_lt hdow]
  | succ k ih =>
    have hweek : (if 7 ≤ dow + (if leapYear year then 2 else 1)
        then dow + (if leapYear year then 2 else 1) - 7
        else dow + (if leapYear year then 2 else 1)) = (dow + daysInYear year) % 7 := by
      unfold daysInYear
      split_ifs <;> omega
    rw [yearLoop, daysOfYears, if_pos (by omega)]
    dsimp only
    rw [hweek, show daysInYear year + daysOfYears (year + 1) k + r - daysInYear year =
      daysOfYears (year + 1) k + r by omega,
      ih (by rwa [Nat.add_right_comm]) (Nat.mod_lt _ (by decide)), Nat.mod_add_mod,
      Nat.add_assoc, Nat.add_assoc, Nat.add_comm 1 k]

theorem exists_year (year days : ℕ) :
    ∃ k r, r < daysInYear (year + k) ∧ days = daysOfYears year k + r := by
  induction days using Nat.strong_induction_on generalizing year with
  | _ days ih =>
    by_cases hlt : days < daysInYear year
    · exact ⟨0, days, hlt, (Nat.zero_add days).symm⟩
    · have hpos := daysInYear_pos year
      obtain ⟨k, r, hr, hd⟩ := ih (days - daysInYear year) (by omega) (year + 1)
      refine ⟨k + 1, r, ?_, ?_⟩
      · rwa [Nat.add_right_comm] at hr
      · rw [daysOfYears]
        omega

/-! ## The count of `mktime` -/

/-- The days that `mktime` counts up to the first of a month. -/
theorem mktime_month : ∀ k < 100, ∀ m < 12,
    mktime ⟨0, 0, 0, 1, (m + 1 : ℕ), (2000 + k : ℕ), 0, 0⟩ =
      (daysOfYears 1970 (30 + k) + daysOfMonths (leapYear (2000 + k)) m : ℕ) * 86400 := by
  decide +kernel

theorem mktime_add (s m h d mon year : ℤ) : mktime ⟨s, m, h, d, mon, year, 0, 0⟩ =
    mktime ⟨0, 0, 0, 1, mon, year, 0, 0⟩ + (((d - 1) * 24 + h) * 60 + m) * 60 + s := by
  unfold mktime
  dsimp only
  ring

theorem dim_le (leap : Bool) : ∀ m < 12, dim leap m ≤ 31 := by
  cases leap <;> decide

theorem getDateTime_rtc {x : Moment} (h : x.Valid) : getDateTime (rtc x) = x.seconds := by
  obtain ⟨hy, hm, hd, hh, hmin, hs⟩ := h
  have hday := dim_le (leapYear x.year) (x.month - 1) (by omega)
  have hmonth := mktime_month (x.year - 2000) (by omega) (x.month - 1) (by omega)
  rw [show 2000 + (x.year - 2000) = x.year by omega,
    show 30 + (x.year - 2000) = x.year - 1970 by omega,
    show x.month - 1 + 1 = x.month by omega] at hmonth
  unfold getDateTime rtc
  simp only [bcd2dec_bcd]
  rw [Nat.mod_eq_of_lt (by omega : x.year - 2000 < 2 ^ 7), Nat.mod_eq_of_lt (by omega : x.month < 2 ^ 4),
    Nat.mod_eq_of_lt (by omega : x.day < 2 ^ 5), Nat.mod_eq_of_lt (by omega : x.hour < 2 ^ 5),
    Nat.mod_eq_of_lt (by omega : x.min < 2 ^ 6), Nat.mod_eq_of_lt (by omega : x.sec < 2 ^ 6),
    mktime_add, show ((x.year - 2000 : ℕ) : ℤ) + 2000 = (x.year : ℤ) by omega, hmonth]
  unfold Moment.seconds Moment.days Moment.yday
  push_cast [Nat.cast_sub hd.1]
  ring

theorem yday_lt {x : Moment} (hm : 1 ≤ x.month ∧ x.month ≤ 12)
    (hd : 1 ≤ x.day ∧ x.day ≤ dim (leapYear x.year) (x.month - 1)) :
    x.yday < daysInYear x.year := by
  have hall : ∀ leap, ∀ m < 12, daysOfMonths leap m + dim leap m ≤ if leap then 366 else 365 := by
    decide
  have := hall (leapYear x.year) (x.month - 1) (by omega)
  unfold Moment.yday daysInYear
  omega

theorem daysOfYears_le (year k : ℕ) : daysOfYears year k ≤ 366 * k := by
  induction k generalizing year with
  | zero => exact Nat.le_refl 0
  | succ k ih =>
    have := ih (year + 1)
    have : daysInYear year ≤ 366 := by
      unfold daysInYear
      split <;> decide
    rw [daysOfYears]
    omega

theorem seconds_lt {x : Moment} (h : x.Valid) : x.seconds < 2 ^ 32 := by
  have hyday := yday_lt h.month h.day
  have hyears := daysOfYears_le 1970 (x.year - 1970)
  have hlast : daysInYear x.year ≤ 366 := by
    unfold daysInYear
    split <;> decide
  have hdays : x.days < 47580 := by
    have := h.year
    unfold Moment.days
    omega
  have := h.hour
  have := h.min
  have := h.sec
  unfold Moment.seconds
  omega

theorem calcDate_seconds {x : Moment} (hy : 1970 ≤ x.year) (hm : 1 ≤ x.month ∧ x.month ≤ 12)
    (hd : 1 ≤ x.day ∧ x.day ≤ dim (leapYear x.year) (x.month - 1))
    (hh : x.hour < 24) (hmin : x.min < 60) (hs : x.sec < 60) : calcDate x.seconds = x.tm := by
  have hminutes : x.seconds / 60 = (x.days * 24 + x.hour) * 60 + x.min := by
    unfold Moment.seconds
    omega
  have hhours : ((x.days * 24 + x.hour) * 60 + x.min) / 60 = x.days * 24 + x.hour := by omega
  have hdays : (x.days * 24 + x.hour) / 24 = x.days := by omega
  have hyear : yearLoop 1970 x.days 4 =
      (x.year, x.yday, (4 + daysOfYears 1970 (x.year - 1970)) % 7) := by
    have hlast : x.yday < daysInYear (1970 + (x.year - 1970)) := by
      rw [Nat.add_sub_cancel' hy]
      exact yday_lt hm hd
    have := yearLoop_eq (x.year - 1970) hlast (by decide : 4 < 7)
    rwa [Nat.add_sub_cancel' hy] at this
  have hmonth : monthLoop (leapYear x.year) 0 x.yday = (x.month - 1, x.day - 1) :=
    monthLoop_daysOfMonths (leapYear x.year) (by omega) (by omega)
  unfold calcDate
  dsimp only
  rw [hminutes, hhours, hdays, hyear]
  dsimp only
  rw [hmonth]
  have hsec : x.seconds - ((x.days * 24 + x.hour) * 60 + x.min) * 60 = x.sec := by
    unfold Moment.seconds
    omega
  have hmin' : (x.days * 24 + x.hour) * 60 + x.min - (x.days * 24 + x.hour) * 60 = x.min := by omega
  have hhour' : x.days * 24 + x.hour - x.days * 24 = x.hour := by omega
  have hwday : ((4 + daysOfYears 1970 (x.year - 1970)) % 7 + x.yday) % 7 = x.wday := by
    unfold Moment.wday Moment.days
    omega
  rw [hsec, hmin', hhour', hwday, Nat.sub_add_cancel hd.1]
  unfold Moment.tm
  rw [Nat.cast_sub hm.1, Nat.cast_one]

/-- Every count of seconds belongs to a day of the calendar. -/
theorem calcDate_in_calendar (n : ℕ) : ∃ month year : ℕ, month ≤ 11 ∧
    (calcDate n).mon = month ∧ (calcDate n).year = year ∧
    1 ≤ (calcDate n).mday ∧ (calcDate n).mday ≤ dim (leapYear year) month := by
  obtain ⟨k, r, hr, hdays⟩ := exists_year 1970 (n / 60 / 60 / 24)
  obtain ⟨m, q, hm, hq, rfl⟩ := exists_month (leapYear (1970 + k)) hr
  have hyear := yearLoop_eq k hr (by decide : 4 < 7)
  have hmonth := monthLoop_daysOfMonths (leapYear (1970 + k)) hq hm
  have hdate : (calcDate n).mon = m ∧ (calcDate n).year = (1970 + k : ℕ) ∧
      (calcDate n).mday = (q + 1 : ℕ) := by
    unfold calcDate
    dsimp only
    rw [hdays, hyear]
    dsimp only
    rw [hmonth]
    exact ⟨rfl, rfl, rfl⟩
  refine ⟨m, 1970 + k, by omega, hdate.1, hdate.2.1, ?_, ?_⟩
  · rw [hdate.2.2]
    omega
  · rw [hdate.2.2]
    exact_mod_cast hq

/-- What the clock shows comes back from `calcDate`, and `calcDate` gives a day of the calendar
for every count of seconds. -/
theorem date_round_trip :
    (∀ x : Moment, x.Valid → calcDate (sysTime (rtc x)) = x.tm) ∧
    ∀ n < 2 ^ 32, ∃ month year : ℕ, month ≤ 11 ∧ (calcDate n).mon = month ∧
      (calcDate n).year = year ∧ 1 ≤ (calcDate n).mday ∧
      (calcDate n).mday ≤ dim (leapYear year) month := by
  refine ⟨fun x h => ?_, fun n _ => calcDate_in_calendar n⟩
  have htime : sysTime (rtc x) = x.seconds := by
    have := seconds_lt h
    rw [sysTime, getDateTime_rtc h]
    omega
  rw [htime]
  have := h.year
  exact calcDate_seconds (by omega) h.month h.day h.hour h.min h.sec

/-- The leap day of 2024, a Thursday. -/
theorem date_round_trip_leap_day : (⟨2024, 2, 29, 23, 59, 59⟩ : Moment).Valid ∧
    calcDate (sysTime (rtc ⟨2024, 2, 29, 23, 59, 59⟩)) = ⟨59, 59, 23, 29, 1, 2024, 4, 59⟩ := by
  have hvalid : (⟨2024, 2, 29, 23, 59, 59⟩ : Moment).Valid :=
    ⟨by decide, by decide, by decide, by decide, by decide, by decide⟩
  refine ⟨hvalid, (date_round_trip.1 _ hvalid).trans ?_⟩
  decide +kernel

end Qwin.Date
