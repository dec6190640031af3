import Mathlib.Tactic.IntervalCases

/-!
# The Gregorian calendar

Days counted year by year and month by month, and the closed forms that count them with
divisions: `leaps` for the years, and for the months a year that begins in March, whose
months are 30 and 31 days long as `367 * n / 12` grows.
-/

namespace Ulysses.Lib.Calendar

def isLeap (year : Nat) : Bool := year % 4 = 0 && (year % 100 ≠ 0 || year % 400 = 0)

/-- 1 in a leap year. -/
def leapDay (year : Nat) : Nat := if isLeap year then 1 else 0

def daysInMonth (year : Nat) : Nat → Nat
  | 2 => 28 + leapDay year
  | 4 | 6 | 9 | 11 => 30
  | _ => 31

/-- The days of the months before `month`. -/
def daysBeforeMonth (year month : Nat) : Nat :=
  ((List.range (month - 1)).map fun i => daysInMonth year (i + 1)).sum

/-- The days of the years from `first` on, before `year`. -/
def daysBeforeYear (first year : Nat) : Nat :=
  ((List.range (year - first)).map fun i => 365 + leapDay (first + i)).sum

/-- The leap years up to `year`. -/
def leaps (year : Nat) : Nat := year / 4 - year / 100 + year / 400

theorem leaps_succ (year : Nat) : leaps (year + 1) = leaps year + leapDay (year + 1) := by
  have hle : year / 100 ≤ year / 4 := Nat.div_le_div_left (by decide) (by decide)
  have h100 : 100 ∣ year + 1 → 4 ∣ year + 1 := Nat.dvd_trans (by decide)
  have h400 : 400 ∣ year + 1 → 100 ∣ year + 1 := Nat.dvd_trans (by decide)
  unfold leaps leapDay isLeap
  simp only [Nat.succ_div, Bool.and_eq_true, Bool.or_eq_true, decide_eq_true_eq, ne_eq,
    ← Nat.dvd_iff_mod_eq_zero]
  generalize year / 4 = a, year / 100 = b, year / 400 = c at hle
  -- the three divisions step together in this order
  by_cases d4 : 4 ∣ year + 1
  · by_cases d100 : 100 ∣ year + 1
    · by_cases d400 : 400 ∣ year + 1
      · simp only [d4, d100, d400, if_true, not_true, false_or, and_true]
        omega
      · simp only [d4, d100, d400, if_true, if_false, not_true, or_false, and_false]
        omega
    · simp only [d4, d100, mt h400 d100, if_true, if_false, not_false_eq_true, true_or, and_true]
      omega
  · simp only [d4, mt h100 d4, mt h400 (mt h100 d4), if_false, false_and]
    omega

theorem daysBeforeYear_succ {first year : Nat} (h : first ≤ year) :
    daysBeforeYear first (year + 1) = daysBeforeYear first year + (365 + leapDay year) := by
  unfold daysBeforeYear
  rw [Nat.succ_sub h, List.range_succ, List.map_append, List.sum_append_nat, List.map_singleton,
    List.sum_singleton, Nat.add_sub_cancel' h]

/-- The years before `year` have 365 days and their leap days. -/
theorem daysBeforeYear_eq {first n : Nat} :
    daysBeforeYear (first + 1) (first + 1 + n) + leaps first = 365 * n + leaps (first + n) := by
  induction n with
  | zero => simp [daysBeforeYear]
  | succ n ih =>
    have hleaps : leaps (first + n + 1) = leaps (first + n) + leapDay (first + 1 + n) := by
      rw [leaps_succ, Nat.add_right_comm]
    rw [← Nat.add_assoc, daysBeforeYear_succ (Nat.le_add_right _ _), ← Nat.add_assoc first n 1,
      hleaps]
    omega

theorem daysBeforeMonth_march (year : Nat) {month : Nat} (h3 : 3 ≤ month) (h12 : month ≤ 12) :
    daysBeforeMonth year month = 367 * (month - 2) / 12 + 29 + leapDay year := by
  unfold daysBeforeMonth
  interval_cases month <;> simp [List.range_succ, daysInMonth] <;> omega

theorem daysBeforeMonth_january (year : Nat) {month : Nat} (h1 : 1 ≤ month) (h2 : month ≤ 2) :
    367 * (month + 10) / 12 = daysBeforeMonth year month + 336 := by
  unfold daysBeforeMonth
  interval_cases month <;> rfl

end Ulysses.Lib.Calendar
