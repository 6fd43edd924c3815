import Mathlib.Algebra.BigOperators.Intervals
import Mathlib.Tactic.IntervalCases

/-! The Gregorian calendar: lengths of months and years, and instants counted in seconds from
the beginning of a year. -/

namespace Calendar

def IsLeapYear (y : Nat) : Prop := y % 4 = 0 ∧ (y % 100 ≠ 0 ∨ y % 400 = 0)

instance (y : Nat) : Decidable (IsLeapYear y) := inferInstanceAs (Decidable (_ ∧ _))

/-- Months are counted from 1. -/
def monthLength (y m : Nat) : Nat :=
  if m = 2 then if IsLeapYear y then 29 else 28
  else if m = 4 ∨ m = 6 ∨ m = 9 ∨ m = 11 then 30
  else 31

def yearLength (y : Nat) : Nat := if IsLeapYear y then 366 else 365

def daysBeforeYear (epoch y : Nat) : Nat := ∑ k ∈ Finset.Ico epoch y, yearLength k

def daysBeforeMonth (y m : Nat) : Nat := ∑ k ∈ Finset.Ico 1 m, monthLength y k

/-- The days before each month of a year of 365 days. -/
def monthStarts : List Nat := [0, 31, 59, 90, 120, 151, 181, 212, 243, 273, 304, 334]

/-- A second of a day of the calendar. -/
structure Instant where
  year : Nat
  month : Nat
  day : Nat
  hour : Nat
  minute : Nat
  second : Nat
  month_mem : 1 ≤ month ∧ month ≤ 12
  day_mem : 1 ≤ day ∧ day ≤ monthLength year month
  hour_lt : hour < 24
  minute_lt : minute < 60
  second_lt : second < 60

namespace Instant

def days (epoch : Nat) (i : Instant) : Nat :=
  daysBeforeYear epoch i.year + daysBeforeMonth i.year i.month + (i.day - 1)

def seconds (epoch : Nat) (i : Instant) : Nat :=
  86400 * i.days epoch + 3600 * i.hour + 60 * i.minute + i.second

end Instant

theorem monthLength_le (y m : Nat) : monthLength y m ≤ 31 := by
  unfold monthLength
  repeat' split
  all_goals omega

theorem Instant.fields_lt (i : Instant) :
    i.second < 60 ∧ i.minute < 60 ∧ i.hour < 24 ∧ i.day < 32 ∧ i.month < 13 :=
  ⟨i.second_lt, i.minute_lt, i.hour_lt,
    Nat.lt_succ_of_le (i.day_mem.2.trans (monthLength_le i.year i.month)),
    Nat.lt_succ_of_le i.month_mem.2⟩

theorem daysBeforeYear_succ {epoch y : Nat} (h : epoch ≤ y) :
    daysBeforeYear epoch (y + 1) = daysBeforeYear epoch y + yearLength y :=
  Finset.sum_Ico_succ_top h _

theorem daysBeforeMonth_succ {y m : Nat} (h : 1 ≤ m) :
    daysBeforeMonth y (m + 1) = daysBeforeMonth y m + monthLength y m :=
  Finset.sum_Ico_succ_top h _

/-- The days of the earlier months, with the leap day from March on. -/
theorem daysBeforeMonth_eq (y : Nat) {m : Nat} (hm : m < 12) :
    daysBeforeMonth y (m + 1) =
      monthStarts.getD m 0 + if 2 ≤ m ∧ IsLeapYear y then 1 else 0 := by
  have hsum : ∀ leap : Bool, ∀ m < 12,
      (∑ k ∈ Finset.Ico 1 (m + 1), if k = 2 then if leap = true then 29 else 28 else if k = 4 ∨
        k = 6 ∨ k = 9 ∨ k = 11 then 30 else 31) =
        monthStarts.getD m 0 + if 2 ≤ m ∧ leap = true then 1 else 0 := by
    decide
  have h := hsum (decide (IsLeapYear y)) m hm
  simp only [decide_eq_true_eq] at h
  exact h

/-- Between two years that are a multiple of 100 every fourth year is a leap year. -/
theorem daysBeforeYear_eq {epoch y : Nat} (h : epoch ≤ y)
    (hleap : ∀ k, epoch ≤ k → k < y → (IsLeapYear k ↔ k % 4 = 0)) :
    daysBeforeYear epoch y + (epoch + 3) / 4 = 365 * (y - epoch) + (y + 3) / 4 := by
  induction y, h using Nat.le_induction with
  | base => simp [daysBeforeYear]
  | succ y hy ih =>
    have hlast := hleap y hy (Nat.lt_succ_self y)
    have hrest := ih fun k hk hlt => hleap k hk (by omega)
    rw [daysBeforeYear_succ hy]
    unfold yearLength
    split
    · rename_i hc
      have := hlast.mp hc
      omega
    · rename_i hc
      have := mt hlast.mpr hc
      omega

end Calendar
