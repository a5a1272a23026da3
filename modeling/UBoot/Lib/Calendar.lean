/-
# The Gregorian calendar

Dates have a number: the days before them, from the first of January of the year 0 on, if the
calendar is taken back so far. Different dates have different numbers, and the weekday is the
number up to a multiple of seven.
-/

import Mathlib.Algebra.Order.BigOperators.Group.List
import Mathlib.Algebra.Order.Group.Nat
import Mathlib.Data.List.GetD
import Mathlib.Data.Nat.Cast.Order.Ring

namespace UBoot.Lib

/-- The place of a number among pieces that follow each other. -/
theorem exists_place {l : List Nat} {r : Nat} (h : r < l.sum) :
    ∃ k, ∃ hk : k < l.length, (l.take k).sum ≤ r ∧ r < (l.take k).sum + l[k] := by
  induction l generalizing r with
  | nil => exact absurd h (Nat.not_lt_zero r)
  | cons n l ih =>
      by_cases hr : r < n
      · exact ⟨0, Nat.succ_pos _, Nat.zero_le r, by simpa using hr⟩
      · rw [List.sum_cons] at h
        obtain ⟨k, hk, hle, hlt⟩ := ih (by omega : r - n < l.sum)
        refine ⟨k + 1, Nat.succ_lt_succ hk, ?_, ?_⟩
        · rw [List.take_succ_cons, List.sum_cons]
          omega
        · rw [List.take_succ_cons, List.sum_cons, List.getElem_cons_succ]
          omega

theorem sum_take_succ_le {l : List Nat} {j k : Nat} (hjk : j < k) (hj : j < l.length) :
    (l.take j).sum + l[j] ≤ (l.take k).sum := by
  rw [← List.sum_take_succ l j hj]
  exact (List.take_sublist_take_left hjk).sum_le_sum fun _ _ => Nat.zero_le _

namespace Calendar

/-- A year with a 29th of February. -/
def Leap (y : Nat) : Prop := y % 4 = 0 ∧ (y % 100 ≠ 0 ∨ y % 400 = 0)

instance : DecidablePred Leap := fun y => by
  unfold Leap
  infer_instance

def yearLength (y : Nat) : Nat := if Leap y then 366 else 365

/-- The lengths of the months of a year. -/
def monthLengths (y : Nat) : List Nat :=
  [31, if Leap y then 29 else 28, 31, 30, 31, 30, 31, 31, 30, 31, 30, 31]

/-- The days in front of a year. -/
def yearStart : Nat → Nat
  | 0 => 0
  | y + 1 => yearStart y + yearLength y

theorem sum_monthLengths (y : Nat) : (monthLengths y).sum = yearLength y := by
  rw [monthLengths, yearLength]
  split <;> rfl

/-- A leap year more every four years, less every hundred, more every four hundred. -/
theorem yearStart_succ (y : Nat) :
    yearStart (y + 1) + y / 100 = 365 * (y + 1) + y / 4 + y / 400 + 1 := by
  induction y with
  | zero => rfl
  | succ y ih =>
      rw [yearStart, yearLength]
      split
      · next hleap =>
          rw [Leap] at hleap
          omega
      · next hleap =>
          rw [Leap] at hleap
          omega

theorem yearStart_mono {y y' : Nat} (h : y ≤ y') : yearStart y ≤ yearStart y' := by
  induction h with
  | refl => exact le_rfl
  | step _ ih => exact ih.trans (Nat.le_add_right _ _)

/-- A date of the calendar. -/
@[ext]
structure Date where
  year : Nat
  mon : Nat
  mday : Nat
  mon_pos : 0 < mon
  mon_le : mon ≤ 12
  mday_pos : 0 < mday
  mday_le : mday ≤ (monthLengths year).getD (mon - 1) 0

namespace Date

/-- The days in front of the month of a date, in its year. -/
def monthStart (d : Date) : Nat := ((monthLengths d.year).take (d.mon - 1)).sum

/-- The days in front of a date. -/
def number (d : Date) : Nat := yearStart d.year + d.monthStart + (d.mday - 1)

/-- The days since the last Sunday. The year 1 began on a Monday. -/
def weekday (d : Date) : Nat := (d.number + 6) % 7

theorem lt_length (d : Date) : d.mon - 1 < (monthLengths d.year).length := by
  have hlength : (monthLengths d.year).length = 12 := rfl
  have := d.mon_pos
  have := d.mon_le
  omega

/-- A date is before a later month of its year. -/
theorem monthStart_lt (d : Date) {k : Nat} (h : d.mon - 1 < k) :
    d.monthStart + (d.mday - 1) < ((monthLengths d.year).take k).sum := by
  have htake := sum_take_succ_le h d.lt_length
  have hle := d.mday_le
  have hpos := d.mday_pos
  rw [List.getD_eq_getElem _ 0 d.lt_length] at hle
  rw [monthStart]
  omega

/-- A date is before a later year. -/
theorem number_lt (d : Date) {y : Nat} (h : d.year < y) : d.number < yearStart y := by
  have hmonth := d.monthStart_lt d.lt_length
  have hnext : yearStart (d.year + 1) = yearStart d.year + yearLength d.year := rfl
  have hmono : yearStart (d.year + 1) ≤ yearStart y := yearStart_mono h
  rw [List.take_length, sum_monthLengths] at hmonth
  rw [number]
  omega

theorem yearStart_le (d : Date) : yearStart d.year ≤ d.number := by
  rw [number]
  omega

/-- Different dates have different numbers. -/
theorem number_injective {d d' : Date} (h : d.number = d'.number) : d = d' := by
  have hyear : d.year = d'.year := by
    rcases Nat.lt_trichotomy d.year d'.year with hlt | heq | hlt
    · have := d.number_lt hlt
      have := d'.yearStart_le
      omega
    · exact heq
    · have := d'.number_lt hlt
      have := d.yearStart_le
      omega
  have hmon : d.mon = d'.mon := by
    have hpos := d.mon_pos
    have hpos' := d'.mon_pos
    rcases Nat.lt_trichotomy (d.mon - 1) (d'.mon - 1) with hlt | heq | hlt
    · have hbefore := d.monthStart_lt hlt
      rw [hyear] at hbefore
      rw [number, number, hyear] at h
      change d.monthStart + _ < d'.monthStart at hbefore
      omega
    · omega
    · have hbefore := d'.monthStart_lt hlt
      rw [← hyear] at hbefore
      rw [number, number, hyear] at h
      change d'.monthStart + _ < d.monthStart at hbefore
      omega
  have hmday : d.mday = d'.mday := by
    have hpos := d.mday_pos
    have hpos' := d'.mday_pos
    rw [number, number, monthStart, monthStart, hyear, hmon] at h
    omega
  exact Date.ext hyear hmon hmday

end Date

/-- A date and a time of the day. -/
structure Moment extends Date where
  hour : Nat
  min : Nat
  sec : Nat
  hour_lt : hour < 24
  min_lt : min < 60
  sec_lt : sec < 60

namespace Moment

/-- The seconds of the day in front of a moment. -/
def clock (m : Moment) : Nat := (m.hour * 60 + m.min) * 60 + m.sec

theorem clock_lt (m : Moment) : m.clock < 86400 := by
  have := m.hour_lt
  have := m.min_lt
  have := m.sec_lt
  rw [clock]
  omega

end Moment

end Calendar

end UBoot.Lib
