import Mathlib.Algebra.Ring.Nat
import Mathlib.Algebra.Ring.Int.Defs
import Mathlib.Tactic.IntervalCases

/-!
# The proleptic Gregorian calendar

Days counted one year and one month after another: `dayNumber` adds up the lengths of the years
and months that have passed since the first of January of year 0.

The closed forms are what an algorithm computes with. `daysBeforeYear_closed` divides instead of
summing, and **`dayNumber_eq_shifted`** is the count with the year begun in March, so that the leap
day is its last and the months before any month are a linear formula.
-/

namespace Chromulate.Calendar

def isLeap (year : Nat) : Bool := year % 4 = 0 && (year % 100 ≠ 0 || year % 400 = 0)

def yearLength (year : Nat) : Nat := if isLeap year then 366 else 365

/-- The days of a month, January being 1. -/
def monthLength (year month : Nat) : Nat :=
  match month with
  | 2 => if isLeap year then 29 else 28
  | 4 | 6 | 9 | 11 => 30
  | _ => 31

def daysBeforeYear (year : Nat) : Nat := ((List.range year).map yearLength).sum

/-- The days of a year before one of its months. -/
def daysBeforeMonth (year month : Nat) : Nat :=
  ((List.range (month - 1)).map fun k => monthLength year (k + 1)).sum

/-- The days from the first of January of year 0 to a date. -/
def dayNumber (year month day : Nat) : Nat :=
  daysBeforeYear year + daysBeforeMonth year month + (day - 1)

/-- The date is one. -/
def Occurs (year month day : Nat) : Prop :=
  1 ≤ month ∧ month ≤ 12 ∧ 1 ≤ day ∧ day ≤ monthLength year month

instance (year month day : Nat) : Decidable (Occurs year month day) :=
  inferInstanceAs (Decidable (_ ∧ _))

theorem isLeap_iff {year : Nat} :
    isLeap year ↔ year % 4 = 0 ∧ (year % 100 ≠ 0 ∨ year % 400 = 0) := by
  simp [isLeap]

theorem monthLength_le (year month : Nat) : monthLength year month ≤ 31 := by
  unfold monthLength
  split
  · split <;> omega
  all_goals omega

/-! ## Closed forms -/

theorem daysBeforeYear_add_one (year : Nat) :
    daysBeforeYear (year + 1) = daysBeforeYear year + yearLength year := by
  unfold daysBeforeYear
  rw [List.range_succ, List.map_append, List.sum_append, List.map_singleton, List.sum_singleton]

theorem daysBeforeYear_closed (year : Nat) :
    daysBeforeYear (year + 1) + year / 100 = 365 * year + 366 + year / 4 + year / 400 := by
  induction year with
  | zero => rfl
  | succ year ih =>
    have h4 : (year + 1) / 4 = year / 4 + if (year + 1) % 4 = 0 then 1 else 0 := by
      split_ifs <;> omega
    have h100 : (year + 1) / 100 = year / 100 + if (year + 1) % 100 = 0 then 1 else 0 := by
      split_ifs <;> omega
    have h400 : (year + 1) / 400 = year / 400 + if (year + 1) % 400 = 0 then 1 else 0 := by
      split_ifs <;> omega
    have hlength : yearLength (year + 1) + (if (year + 1) % 100 = 0 then 1 else 0) =
        365 + (if (year + 1) % 4 = 0 then 1 else 0) +
          if (year + 1) % 400 = 0 then 1 else 0 := by
      rw [yearLength]
      by_cases hleap : isLeap (year + 1)
      · rw [if_pos hleap]
        rw [isLeap_iff] at hleap
        split_ifs <;> omega
      · rw [if_neg hleap]
        rw [isLeap_iff] at hleap
        split_ifs <;> omega
    rw [daysBeforeYear_add_one, h4, h100, h400]
    omega

/-- The days of a year that begins in March before one of its months, March being 0. -/
def shiftedDays (k : Nat) : Nat := (153 * k + 2) / 5

variable {month : Nat}

/-- January and February come before any leap day, and end the shifted year. -/
theorem daysBeforeMonth_of_le_two (year : Nat) (hlow : 1 ≤ month) (hhigh : month ≤ 2) :
    daysBeforeMonth year month + 306 = shiftedDays ((month + 9) % 12) := by
  unfold daysBeforeMonth shiftedDays
  interval_cases month <;> simp [monthLength]

/-- From March on, the leap day has passed if there is one. -/
theorem daysBeforeMonth_of_two_lt (year : Nat) (hlow : 2 < month) (hhigh : month ≤ 12) :
    daysBeforeMonth year month + 306 = yearLength year + shiftedDays ((month + 9) % 12) := by
  unfold daysBeforeMonth shiftedDays yearLength
  interval_cases month <;> cases hleap : isLeap year <;> simp [List.range_succ, monthLength, hleap]

/-- **The count by shifted years.** -/
theorem dayNumber_eq_shifted {year : Nat} (hyear : 1 ≤ year) (hlow : 1 ≤ month) (hhigh : month ≤ 12)
    (day : Nat) : let n := if month ≤ 2 then year - 1 else year
    dayNumber year month day + n / 100 =
      365 * n + n / 4 + n / 400 + 60 + shiftedDays ((month + 9) % 12) + (day - 1) := by
  intro n
  have hsucc := daysBeforeYear_closed n
  rw [dayNumber]
  by_cases hmonth : month ≤ 2
  · have hn : n + 1 = year := by
      simp only [n, if_pos hmonth]
      omega
    have hdays := daysBeforeMonth_of_le_two year hlow hmonth
    rw [hn] at hsucc
    omega
  · have hn : n = year := if_neg hmonth
    have hdays := daysBeforeMonth_of_two_lt year (Nat.lt_of_not_le hmonth) hhigh
    rw [hn] at hsucc ⊢
    rw [daysBeforeYear_add_one] at hsucc
    omega

end Chromulate.Calendar
