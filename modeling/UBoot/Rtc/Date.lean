/-
# Seconds and dates

`to_tm`, `GregorianDay` and `mktime` of `drivers/rtc/date.c`, on a 32 bit machine. An `int` is a
number, `unsigned int` and `unsigned long` are 32 bits, and a read outside of a table has no result.
The years of the range are those in which every fourth year is a leap year.
-/

import UBoot.Lib.Calendar
import Mathlib.Data.List.Lex
import Mathlib.Tactic.IntervalCases

namespace UBoot.Rtc

open UBoot.Lib UBoot.Lib.Calendar

def FEBRUARY : Nat := 2
def STARTOFTIME : Int := 1970
def SECDAY : Int := 86400

/-- `leapyear` -/
def leapyear (year : Int) : Prop := year.tmod 4 = 0

instance (year : Int) : Decidable (leapyear year) := inferInstanceAs (Decidable (_ = _))

/-- `days_in_year` -/
def days_in_year (a : Int) : Int := if leapyear a then 366 else 365

/-- `month_days`, as it is initialised. -/
def month_days : List Int := [31, 28, 31, 30, 31, 30, 31, 31, 30, 31, 30, 31]

/-- `MonthOffset` -/
def MonthOffset : List Int := [0, 31, 59, 90, 120, 151, 181, 212, 243, 273, 304, 334]

/-- `MonthOffset[mon - 1]` -/
def offsetOf (mon : Int) : Option Int :=
  if mon < 1 then none else MonthOffset[(mon - 1).toNat]?

/-- The fields of `struct rtc_time` that are set. -/
structure rtc_time where
  tm_sec : Int
  tm_min : Int
  tm_hour : Int
  tm_mday : Int
  tm_mon : Int
  tm_year : Int
  tm_wday : Int

/-- `GregorianDay` -/
def GregorianDay (tm : rtc_time) : Option rtc_time := do
  let lastYear := tm.tm_year - 1
  let leapsToDate := lastYear.tdiv 4 - lastYear.tdiv 100 + lastYear.tdiv 400
  let day : Int :=
    if tm.tm_year.tmod 4 = 0 ∧ (tm.tm_year.tmod 100 ≠ 0 ∨ tm.tm_year.tmod 400 = 0) ∧
      2 < tm.tm_mon then 1 else 0
  let offset ← offsetOf tm.tm_mon
  let day := day + (lastYear * 365 + leapsToDate + offset + tm.tm_mday)
  return { tm with tm_wday := day.tmod 7 }

theorem days_in_year_pos (i : Int) : 0 < days_in_year i := by
  rw [days_in_year]
  split <;> decide

/-- The loop over the years. -/
def yearLoop (i day : Int) : Int × Int :=
  if days_in_year i ≤ day then yearLoop (i + 1) (day - days_in_year i) else (i, day)
termination_by day.toNat
decreasing_by
  have := days_in_year_pos i
  omega

/-- The loop over the months, from that on whose length is in front of the table. -/
def monthLoop : List Int → Int → Int → Option (Int × Int)
  | [], _, _ => none
  | n :: table, i, day => if n ≤ day then monthLoop table (i + 1) (day - n) else some (i, day)

/-- `to_tm`, with the table of the lengths of the months. -/
def to_tm (month_days : List Int) (tim : Int) : Option (List Int × rtc_time) := do
  let hms := tim.tmod SECDAY
  let (year, day) := yearLoop STARTOFTIME (tim.tdiv SECDAY)
  let month_days := if leapyear year then month_days.set (FEBRUARY - 1) 29 else month_days
  let (mon, day) ← monthLoop month_days 1 day
  let month_days := month_days.set (FEBRUARY - 1) 28
  let tm ← GregorianDay
    { tm_sec := (hms.tmod 3600).tmod 60, tm_min := (hms.tmod 3600).tdiv 60,
      tm_hour := hms.tdiv 3600, tm_mday := day + 1, tm_mon := mon, tm_year := year, tm_wday := 0 }
  return (month_days, tm)

/-- The year and the month that begin with March: 1..12 are 11, 12, 1..10. -/
def fromMarch (year mon : BitVec 32) : BitVec 32 × BitVec 32 :=
  if 0 ≥ (mon - 2).toInt then (year - 1, mon - 2 + 12) else (year, mon - 2)

/-- `mktime` -/
def mktime (year mon day hour min sec : BitVec 32) : BitVec 32 :=
  let (year, mon) := fromMarch year mon
  ((((year / 4 - year / 100 + year / 400 + 367 * mon / 12 + day) + year * 365 - 719499) * 24 +
    hour) * 60 + min) * 60 + sec

/-- `mktime` of the fields of a `struct rtc_time`. -/
def seconds (tm : rtc_time) : BitVec 32 :=
  mktime (.ofInt 32 tm.tm_year) (.ofInt 32 tm.tm_mon) (.ofInt 32 tm.tm_mday)
    (.ofInt 32 tm.tm_hour) (.ofInt 32 tm.tm_min) (.ofInt 32 tm.tm_sec)

/-- The first of January 1970 among the days of the calendar. -/
def epoch : Nat := 719528

/-- The seconds from 1970 to a moment. -/
def since (m : Moment) : Nat := 86400 * (m.number - epoch) + m.clock

/-- A moment with its weekday. -/
def shown (m : Moment) : rtc_time where
  tm_sec := m.sec
  tm_min := m.min
  tm_hour := m.hour
  tm_mday := m.mday
  tm_mon := m.mon
  tm_year := m.year
  tm_wday := m.weekday

/-! ## Years and months -/

theorem yearStart_epoch : yearStart 1970 = epoch := by
  have hyears : yearStart 1970 + 1969 / 100 = 365 * 1970 + 1969 / 4 + 1969 / 400 + 1 :=
    yearStart_succ 1969
  rw [epoch]
  omega

theorem leapyear_iff {y : Nat} (hle : 1970 ≤ y) (hlt : y < 2100) : leapyear y ↔ Leap y := by
  rw [leapyear, Leap, Int.tmod_eq_emod_of_nonneg (Int.natCast_nonneg y)]
  omega

theorem days_in_year_eq {y : Nat} (hle : 1970 ≤ y) (hlt : y < 2100) :
    days_in_year y = yearLength y := by
  rw [days_in_year, yearLength]
  simp only [leapyear_iff hle hlt]
  split <;> rfl

theorem yearLoop_eq {i r : Nat} (hi : 1970 ≤ i) (h : yearStart i + r < yearStart 2100) :
    ∃ y r' : Nat, yearLoop i r = (↑y, ↑r') ∧ 1970 ≤ y ∧ y < 2100 ∧
      yearStart y + r' = yearStart i + r ∧ r' < yearLength y := by
  induction r using Nat.strong_induction_on generalizing i with
  | _ r ih =>
      have hlt : i < 2100 := Nat.lt_of_not_le fun hle => by
        have := yearStart_mono hle
        omega
      have hyear := days_in_year_eq hi hlt
      have hpos := days_in_year_pos i
      rw [yearLoop]
      by_cases hle : yearLength i ≤ r
      · have hnext : yearStart (i + 1) = yearStart i + yearLength i := rfl
        obtain ⟨y, r', heq, h1970, h2100, hsum, hr⟩ :=
          ih (r - yearLength i) (by omega) (by omega : 1970 ≤ i + 1) (by omega)
        refine ⟨y, r', ?_, h1970, h2100, by omega, hr⟩
        rw [if_pos (by omega), hyear, ← heq]
        congr 1
        omega
      · exact ⟨i, r, if_neg (by omega), hi, hlt, rfl, by omega⟩

theorem monthLoop_eq {l : List Nat} {k r : Nat} (hk : k < l.length) (hle : (l.take k).sum ≤ r)
    (hlt : r < (l.take k).sum + l[k]) (i : Int) :
    monthLoop (l.map Nat.cast) i r = some (i + k, ↑(r - (l.take k).sum)) := by
  induction l generalizing k r i with
  | nil => exact absurd hk (Nat.not_lt_zero k)
  | cons n l ih =>
      rw [List.map_cons, monthLoop]
      cases k with
      | zero =>
          have hr : r < n := by simpa using hlt
          rw [if_neg (by omega)]
          simp
      | succ k =>
          rw [List.take_succ_cons, List.sum_cons] at hle ⊢
          rw [List.take_succ_cons, List.sum_cons, List.getElem_cons_succ] at hlt
          have hrest := ih (Nat.lt_of_succ_lt_succ hk) (r := r - n) (by omega) (by omega) (i + 1)
          have hcast : (r : Int) - n = ↑(r - n) := by omega
          rw [if_pos (by omega), hcast, hrest]
          congr 2
          · omega
          · omega

theorem table_eq {y : Nat} (hle : 1970 ≤ y) (hlt : y < 2100) :
    (if leapyear y then month_days.set (FEBRUARY - 1) 29 else month_days) =
      (monthLengths y).map Nat.cast := by
  rw [monthLengths]
  simp only [leapyear_iff hle hlt]
  split <;> rfl

/-! ## Days -/

/-- The days in front of a month: those of the offsets, and the 29th of February. -/
theorem offsetOf_eq (year : Nat) {mon : Nat} (hpos : 0 < mon) (hle : mon ≤ 12) :
    offsetOf mon = some ((((monthLengths year).take (mon - 1)).sum : Nat) -
      (if Leap year ∧ 2 < mon then 1 else 0 : Int)) := by
  have hnot : ¬(mon : Int) < 1 := by omega
  have hindex : ((mon : Int) - 1).toNat = mon - 1 := by omega
  rw [offsetOf, if_neg hnot, hindex]
  by_cases hleap : Leap year
  · interval_cases mon <;> simp [MonthOffset, monthLengths, hleap]
  · interval_cases mon <;> simp [MonthOffset, monthLengths, hleap]

theorem GregorianDay_eq (m : Moment) (hyear : 0 < m.year) (wday : Int) :
    GregorianDay { shown m with tm_wday := wday } = some (shown m) := by
  obtain ⟨y, hy⟩ := Nat.exists_eq_add_of_lt hyear
  have hstart := yearStart_succ y
  have hmon := m.mon_pos
  have hmday := m.mday_pos
  have hoffset := offsetOf_eq m.year m.mon_pos m.mon_le
  have hlast : (m.year : Int) - 1 = (y : Int) := by omega
  have hleap : ((m.year : Int).tmod 4 = 0 ∧ ((m.year : Int).tmod 100 ≠ 0 ∨
      (m.year : Int).tmod 400 = 0) ∧ 2 < (m.mon : Int)) ↔ Leap m.year ∧ 2 < m.mon := by
    simp only [Int.tmod_eq_emod_of_nonneg (Int.natCast_nonneg m.year), Leap]
    omega
  have hnumber : m.number = yearStart (y + 1) + m.monthStart + (m.mday - 1) := by
    rw [Date.number, hy, Nat.zero_add]
  rw [GregorianDay]
  dsimp only [shown]
  rw [hoffset, hlast]
  simp only [hleap, Int.tdiv_eq_ediv_of_nonneg (Int.natCast_nonneg y)]
  dsimp only [Option.bind_eq_bind, Option.bind_some, Option.pure_def]
  congr 2
  rw [Date.weekday, hnumber, Date.monthStart]
  generalize ((monthLengths m.year).take (m.mon - 1)).sum = start
  generalize (if Leap m.year ∧ 2 < m.mon then 1 else 0 : Int) = leapday
  have hday : leapday + ((y : Int) * 365 + ((y : Int) / 4 - (y : Int) / 100 + (y : Int) / 400) +
      ((start : Int) - leapday) + m.mday) + 371 =
        ↑(yearStart (y + 1) + start + (m.mday - 1) + 6) := by
    omega
  rw [Int.tmod_eq_emod_of_nonneg (by omega)]
  omega

/-- A day and a second of the day, as the loops find them. -/
theorem to_tm_eq {t : Nat} (h : t / 86400 + epoch < yearStart 2100) :
    ∃ m : Moment, to_tm month_days t = some (month_days, shown m) ∧ since m = t ∧
      1970 ≤ m.year ∧ m.year < 2100 := by
  have hday : (t : Int).tdiv SECDAY = ↑(t / 86400) := by
    rw [Int.tdiv_eq_ediv_of_nonneg (Int.natCast_nonneg t)]
    rfl
  have hhms : (t : Int).tmod SECDAY = ↑(t % 86400) := by
    rw [Int.tmod_eq_emod_of_nonneg (Int.natCast_nonneg t)]
    rfl
  rw [Nat.add_comm, ← yearStart_epoch] at h
  obtain ⟨y, r, hloop, hle, hlt, hsum, hr⟩ := yearLoop_eq le_rfl h
  rw [← sum_monthLengths] at hr
  obtain ⟨k, hk, hmonth, hnext⟩ := Lib.exists_place hr
  have hmonths := monthLoop_eq hk hmonth hnext 1
  have hlength : (monthLengths y).length = 12 := rfl
  let m : Moment :=
    { year := y, mon := k + 1, mday := r - ((monthLengths y).take k).sum + 1
      mon_pos := Nat.succ_pos k
      mon_le := by omega
      mday_pos := Nat.succ_pos _
      mday_le := by
        rw [Nat.add_sub_cancel, List.getD_eq_getElem _ 0 hk]
        omega
      hour := t % 86400 / 3600, min := t % 86400 % 3600 / 60, sec := t % 86400 % 3600 % 60
      hour_lt := by omega
      min_lt := by omega
      sec_lt := by omega }
  refine ⟨m, ?_, ?_, hle, hlt⟩
  · rw [to_tm, hday, hhms, STARTOFTIME]
    have hstart : ((1970 : Nat) : Int) = 1970 := rfl
    rw [← hstart, hloop]
    dsimp only
    rw [table_eq hle hlt, hmonths]
    have hhour : ((t % 86400 : Nat) : Int).tdiv 3600 = m.hour := rfl
    have hmin : (((t % 86400 : Nat) : Int).tmod 3600).tdiv 60 = m.min := rfl
    have hsec : (((t % 86400 : Nat) : Int).tmod 3600).tmod 60 = m.sec := rfl
    have hmday : ((r - ((monthLengths y).take k).sum : Nat) : Int) + 1 = m.mday := rfl
    have hmon : (1 : Int) + k = m.mon := Int.add_comm 1 k
    have hyear : (y : Int) = m.year := rfl
    have htable : ((monthLengths y).map Nat.cast).set (FEBRUARY - 1) 28 = month_days := rfl
    dsimp only [Option.bind_eq_bind, Option.bind_some]
    rw [hhour, hmin, hsec, hmday, hmon, hyear, htable]
    have hgregorian := GregorianDay_eq m (by omega : 0 < m.year) 0
    dsimp only [shown] at hgregorian
    rw [hgregorian]
    rfl
  · have hnumber : m.number = yearStart y + ((monthLengths y).take k).sum +
        (r - ((monthLengths y).take k).sum) := rfl
    have hclock : m.clock =
        (t % 86400 / 3600 * 60 + t % 86400 % 3600 / 60) * 60 + t % 86400 % 3600 % 60 := rfl
    rw [yearStart_epoch] at hsum
    rw [since, hnumber, hclock]
    omega

/-! ## Gauss's formula -/

theorem udiv_ofNat {a b : Nat} (ha : a < 2 ^ 32) (hb : b < 2 ^ 32) :
    BitVec.ofNat 32 a / BitVec.ofNat 32 b = BitVec.ofNat 32 (a / b) := by
  rw [BitVec.udiv_def, BitVec.toNat_ofNat, BitVec.toNat_ofNat, Nat.mod_eq_of_lt ha,
    Nat.mod_eq_of_lt hb]

/-- The year and the month that begin with March. -/
def marchYear (d : Date) : Nat := if d.mon ≤ 2 then d.year - 1 else d.year
def marchMonth (d : Date) : Nat := if d.mon ≤ 2 then d.mon + 10 else d.mon - 2

theorem fromMarch_eq (d : Date) (h : 0 < d.year) :
    fromMarch (.ofNat 32 d.year) (.ofNat 32 d.mon) =
      (.ofNat 32 (marchYear d), .ofNat 32 (marchMonth d)) := by
  have hpos := d.mon_pos
  have hle := d.mon_le
  rw [marchYear, marchMonth, fromMarch]
  have hyear : BitVec.ofNat 32 d.year - 1 = .ofNat 32 (d.year - 1) :=
    BitVec.ofNat_sub_ofNat_of_le _ 1 (by decide) h
  rw [hyear]
  generalize d.mon = mon at hpos hle
  interval_cases mon <;> rfl

/-- From March on the months in front of a month have 367 twelfths of a month each. -/
theorem twelfths (year : Nat) {mon : Nat} (hpos : 0 < mon) (hle : mon ≤ 12) :
    if mon ≤ 2 then 367 * (mon + 10) / 12 = ((monthLengths year).take (mon - 1)).sum + 336
    else 367 * (mon - 2) / 12 + 29 + (if Leap year then 1 else 0) =
      ((monthLengths year).take (mon - 1)).sum := by
  by_cases hleap : Leap year
  · interval_cases mon <;> simp [monthLengths, hleap]
  · interval_cases mon <;> simp [monthLengths, hleap]

theorem yearLength_eq (y : Nat) : yearLength y = 365 + if Leap y then 1 else 0 := by
  rw [yearLength]
  split <;> rfl

theorem gauss (d : Date) (h : 0 < d.year) :
    marchYear d / 4 + marchYear d / 400 + 367 * marchMonth d / 12 + d.mday + marchYear d * 365 +
      29 = d.number + marchYear d / 100 := by
  obtain ⟨y, hy⟩ := Nat.exists_eq_add_of_lt h
  rw [Nat.zero_add] at hy
  have hstart := yearStart_succ y
  have hnext := yearStart_succ (y + 1)
  have hmday := d.mday_pos
  have hmonths := twelfths d.year d.mon_pos d.mon_le
  rw [yearStart, yearLength_eq] at hnext
  rw [Date.number, Date.monthStart, marchYear, marchMonth]
  rw [hy] at hmonths ⊢
  generalize (if Leap (y + 1) then 1 else 0) = leapday at hnext hmonths
  generalize ((monthLengths (y + 1)).take (d.mon - 1)).sum = start at hmonths ⊢
  generalize yearStart (y + 1) = days at hstart hnext ⊢
  by_cases hearly : d.mon ≤ 2
  · rw [if_pos hearly] at hmonths ⊢
    rw [if_pos hearly, Nat.add_sub_cancel]
    generalize 367 * (d.mon + 10) / 12 = months at hmonths ⊢
    clear hnext
    omega
  · rw [if_neg hearly] at hmonths ⊢
    rw [if_neg hearly]
    generalize 367 * (d.mon - 2) / 12 = months at hmonths ⊢
    clear hstart
    omega

/-- The days of `mktime`, where nothing is cut off. -/
theorem mktime_days {y mon : Nat} (mday days : Nat) (hy : y < 2100) (hmon : mon ≤ 12)
    (h : y / 4 + y / 400 + 367 * mon / 12 + mday + y * 365 = days + 719499 + y / 100) :
    BitVec.ofNat 32 y / 4 - BitVec.ofNat 32 y / 100 + BitVec.ofNat 32 y / 400 +
      367 * BitVec.ofNat 32 mon / 12 + BitVec.ofNat 32 mday + BitVec.ofNat 32 y * 365 - 719499 =
        BitVec.ofNat 32 days := by
  have hsmall : y < 2 ^ 32 := by omega
  have hfour : BitVec.ofNat 32 y / 4 = .ofNat 32 (y / 4) := udiv_ofNat hsmall (by decide)
  have hhundred : BitVec.ofNat 32 y / 100 = .ofNat 32 (y / 100) := udiv_ofNat hsmall (by decide)
  have hfourhundred : BitVec.ofNat 32 y / 400 = .ofNat 32 (y / 400) :=
    udiv_ofNat hsmall (by decide)
  have hmonths : BitVec.ofNat 32 (367 * mon) / 12 = .ofNat 32 (367 * mon / 12) :=
    udiv_ofNat (by omega) (by decide)
  have hprod : 367 * BitVec.ofNat 32 mon = .ofNat 32 (367 * mon) := BitVec.ofNat_mul_ofNat 367 mon
  have hyears : BitVec.ofNat 32 y * 365 = .ofNat 32 (y * 365) := BitVec.ofNat_mul_ofNat y 365
  rw [hprod, hfour, hhundred, hfourhundred, hmonths, hyears,
    BitVec.ofNat_sub_ofNat_of_le _ _ (by omega) (by omega), BitVec.ofNat_add_ofNat,
    BitVec.ofNat_add_ofNat, BitVec.ofNat_add_ofNat, BitVec.ofNat_add_ofNat]
  have hoffset : (719499 : BitVec 32) = .ofNat 32 719499 := rfl
  have hdays : y / 4 - y / 100 + y / 400 + 367 * mon / 12 + mday + y * 365 - 719499 = days := by
    omega
  rw [hoffset, BitVec.ofNat_sub_ofNat_of_le _ _ (by decide) (by omega), hdays]

theorem seconds_eq (m : Moment) (hle : 1970 ≤ m.year) (hlt : m.year < 2100) :
    seconds (shown m) = .ofNat 32 (since m) := by
  have hgauss := gauss m.toDate (by omega)
  have hyear : marchYear m.toDate ≤ m.year := by
    rw [marchYear]
    split <;> omega
  have hmonth : marchMonth m.toDate ≤ 12 := by
    have := m.mon_le
    rw [marchMonth]
    split <;> omega
  have hepoch : epoch ≤ m.number := by
    rw [← yearStart_epoch]
    exact (yearStart_mono hle).trans m.yearStart_le
  have hdays := mktime_days m.mday (m.number - epoch) (hyear.trans_lt hlt) hmonth (by
    rw [epoch] at hepoch ⊢
    omega)
  rw [seconds, shown, mktime]
  simp only [BitVec.ofInt_natCast]
  rw [fromMarch_eq m.toDate (by omega)]
  dsimp only
  have hclock : since m = (((m.number - epoch) * 24 + m.hour) * 60 + m.min) * 60 + m.sec := by
    rw [since, Moment.clock]
    omega
  rw [hdays, hclock]
  simp only [BitVec.ofNat_add, BitVec.ofNat_mul]
  rfl

/-! ## The round trip -/

/-- A number of seconds that fits an `int` is shown as the moment so long after the start of 1970,
from which `mktime` makes it again, and every moment of the range is shown for what `mktime` makes
of it. The table is as it was. -/
structure CalendarRight : Prop where
  seconds_back : ∀ t : Int, 0 ≤ t → t < 2 ^ 31 → ∃ m : Moment,
    to_tm month_days t = some (month_days, shown m) ∧ (since m : Int) = t ∧
      ((seconds (shown m)).toNat : Int) = t
  moment_back : ∀ m : Moment, 1970 ≤ m.year →
    [m.year, m.mon, m.mday, m.hour, m.min, m.sec] ≤ [2038, 1, 19, 3, 14, 7] →
    to_tm month_days (seconds (shown m)).toInt = some (month_days, shown m)

/-- A moment of the range is less than 2 to the 31 seconds after its start. -/
theorem since_lt (m : Moment)
    (h : [m.year, m.mon, m.mday, m.hour, m.min, m.sec] ≤ [2038, 1, 19, 3, 14, 7]) :
    since m < 2 ^ 31 ∧ m.year < 2100 := by
  have hpos := m.mon_pos
  have hmday := m.mday_pos
  have hclock := m.clock_lt
  have hyears : yearStart 2038 + 2037 / 100 = 365 * 2038 + 2037 / 4 + 2037 / 400 + 1 :=
    yearStart_succ 2037
  rw [← not_lt] at h
  simp only [List.cons_lt_cons_iff, List.lt_irrefl, and_false, or_false, not_or, not_and] at h
  obtain ⟨hyear, hrest⟩ := h
  rw [since, epoch]
  rcases Nat.lt_or_ge m.year 2038 with hlt | hge
  · have hnumber := m.number_lt hlt
    exact ⟨by omega, by omega⟩
  · -- the last days
    have heq : m.year = 2038 := by omega
    obtain ⟨hmon, hdays⟩ := hrest heq.symm
    have hone : m.mon = 1 := by omega
    obtain ⟨hday, hhours⟩ := hdays hone.symm
    have hstart : m.monthStart = 0 := by
      rw [Date.monthStart, hone]
      rfl
    have hhour := m.hour_lt
    have hmin := m.min_lt
    have hsec := m.sec_lt
    rw [Date.number, hstart, heq, Moment.clock]
    omega

/-- Moments of these years are told apart by their seconds. -/
theorem since_injective {m m' : Moment} (h : 1970 ≤ m.year) (h' : 1970 ≤ m'.year)
    (heq : since m = since m') : shown m = shown m' := by
  have hclock := m.clock_lt
  have hclock' := m'.clock_lt
  have hstart := (yearStart_mono h).trans m.yearStart_le
  have hstart' := (yearStart_mono h').trans m'.yearStart_le
  rw [yearStart_epoch] at hstart hstart'
  rw [since, since] at heq
  have hdate : m.toDate = m'.toDate := Date.number_injective (by omega)
  have hseconds : m.clock = m'.clock := by omega
  have := m.min_lt
  have := m'.min_lt
  have := m.sec_lt
  have := m'.sec_lt
  rw [Moment.clock, Moment.clock] at hseconds
  have hhour : m.hour = m'.hour := by omega
  have hmin : m.min = m'.min := by omega
  have hsec : m.sec = m'.sec := by omega
  rw [shown, shown, hdate, hhour, hmin, hsec]

theorem calendarRight : CalendarRight where
  seconds_back t hle hlt := by
    obtain ⟨t, rfl⟩ := Int.eq_ofNat_of_zero_le hle
    have hyears : yearStart 2100 + 2099 / 100 = 365 * 2100 + 2099 / 4 + 2099 / 400 + 1 :=
      yearStart_succ 2099
    obtain ⟨m, hm, hsince, h1970, h2100⟩ := to_tm_eq (t := t) (by rw [epoch]; omega)
    refine ⟨m, hm, congrArg _ hsince, ?_⟩
    rw [seconds_eq m h1970 h2100, hsince, BitVec.toNat_ofNat]
    omega
  moment_back m hle h := by
    obtain ⟨hlt, h2100⟩ := since_lt m h
    have hyears : yearStart 2100 + 2099 / 100 = 365 * 2100 + 2099 / 4 + 2099 / 400 + 1 :=
      yearStart_succ 2099
    obtain ⟨m', hm, hsince, h1970, -⟩ := to_tm_eq (t := since m) (by rw [epoch]; omega)
    have hint : (seconds (shown m)).toInt = since m := by
      rw [seconds_eq m hle h2100, BitVec.toInt_eq_toNat_of_lt] <;> rw [BitVec.toNat_ofNat] <;> omega
    rw [hint, hm, since_injective h1970 hle hsince]

end UBoot.Rtc
