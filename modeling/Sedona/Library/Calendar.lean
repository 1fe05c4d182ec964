import Mathlib.Algebra.BigOperators.Intervals
import Mathlib.Algebra.Order.BigOperators.Group.Finset
import Mathlib.Tactic.IntervalCases

/-!
# The Calendar

Dates of the Gregorian calendar, continued back to the year 0. The ordinal of a date is the number of
days before it since the first day of the year 0, and the day of the week follows from it.

## Main results

* `Date.ordinal_next`: the ordinal of the next day is one more.
* `Date.ordinal_injective`: a date is known from its ordinal.
* `daysBeforeYear_eq`: the closed form of the days before a year.
* `Date.weekday_next`: days of the week follow each other.
-/

namespace Calendar

open Finset

/-! ### Years and months -/

/-- A leap year. -/
def IsLeap (y : ℕ) : Prop := y % 4 = 0 ∧ (y % 100 ≠ 0 ∨ y % 400 = 0)

instance (y : ℕ) : Decidable (IsLeap y) := inferInstanceAs (Decidable (_ ∧ _))

/-- The days of a year. -/
def daysInYear (y : ℕ) : ℕ := if IsLeap y then 366 else 365

/-- The days of a month, which are counted from 1. -/
def daysInMonth (y m : ℕ) : ℕ :=
  if m = 2 then (if IsLeap y then 29 else 28)
  else if m = 4 ∨ m = 6 ∨ m = 9 ∨ m = 11 then 30
  else 31

/-- The days from the year 0 on before a year. -/
def daysBeforeYear (y : ℕ) : ℕ := ∑ i ∈ range y, daysInYear i

/-- The days of a year before a month. -/
def daysBeforeMonth (y m : ℕ) : ℕ := ∑ i ∈ Ico 1 m, daysInMonth y i

variable {y m : ℕ}

theorem daysInYear_pos (y : ℕ) : 0 < daysInYear y := by
  unfold daysInYear
  split <;> decide

theorem daysInMonth_pos (y m : ℕ) : 0 < daysInMonth y m := by
  unfold daysInMonth
  split_ifs <;> decide

theorem daysBeforeYear_succ (y : ℕ) :
    daysBeforeYear (y + 1) = daysBeforeYear y + daysInYear y := sum_range_succ ..

theorem daysBeforeMonth_one (y : ℕ) : daysBeforeMonth y 1 = 0 := by
  rw [daysBeforeMonth, Ico_self, sum_empty]

theorem daysBeforeMonth_succ (hm : 1 ≤ m) :
    daysBeforeMonth y (m + 1) = daysBeforeMonth y m + daysInMonth y m := sum_Ico_succ_top hm _

/-- The months make up the year. -/
theorem daysBeforeMonth_thirteen (y : ℕ) : daysBeforeMonth y 13 = daysInYear y := by
  by_cases hleap : IsLeap y <;>
    simp [daysBeforeMonth_succ, daysBeforeMonth_one, daysInMonth, daysInYear, hleap]

/-- The leap years before a year are one in four, but one in a hundred less, and one in four hundred
more. -/
theorem daysBeforeYear_eq (y : ℕ) :
    daysBeforeYear y + (y + 99) / 100 = 365 * y + (y + 3) / 4 + (y + 399) / 400 := by
  induction y with
  | zero => rfl
  | succ y ih =>
      rw [daysBeforeYear_succ, daysInYear]
      split
      · rename_i hleap
        obtain ⟨h4, h⟩ := hleap
        omega
      · rename_i hleap
        rw [IsLeap, not_and_or, not_or, not_not] at hleap
        omega

theorem daysBeforeYear_mono : Monotone daysBeforeYear := fun _ _ h =>
  sum_le_sum_of_subset (range_subset_range.mpr h)

theorem daysBeforeMonth_mono (y : ℕ) : Monotone (daysBeforeMonth y) := fun _ _ h =>
  sum_le_sum_of_subset (Ico_subset_Ico le_rfl h)

/-! ### Dates -/

/-- A date of the calendar. -/
@[ext] structure Date where
  year : ℕ
  month : ℕ
  day : ℕ
  month_pos : 1 ≤ month
  month_le : month ≤ 12
  day_pos : 1 ≤ day
  day_le : day ≤ daysInMonth year month
deriving DecidableEq

namespace Date

/-- The number of days before a date. -/
def ordinal (d : Date) : ℕ :=
  daysBeforeYear d.year + daysBeforeMonth d.year d.month + (d.day - 1)

/-- The next day. -/
def next (d : Date) : Date :=
  if hday : d.day < daysInMonth d.year d.month then
    { d with day := d.day + 1, day_pos := Nat.le_add_left .., day_le := hday }
  else if hmonth : d.month < 12 then
    { year := d.year, month := d.month + 1, day := 1, month_pos := Nat.le_add_left ..,
      month_le := hmonth, day_pos := le_rfl, day_le := daysInMonth_pos .. }
  else
    { year := d.year + 1, month := 1, day := 1, month_pos := le_rfl, month_le := by decide,
      day_pos := le_rfl, day_le := daysInMonth_pos .. }

variable (d : Date)

/-- The ordinals of the days of a month. -/
theorem ordinal_lt_month :
    d.ordinal < daysBeforeYear d.year + daysBeforeMonth d.year (d.month + 1) := by
  have h₁ := d.day_pos
  have h₂ := d.day_le
  rw [ordinal, daysBeforeMonth_succ d.month_pos]
  omega

/-- The ordinals of the days of a year. -/
theorem ordinal_lt_year : d.ordinal < daysBeforeYear (d.year + 1) := by
  refine d.ordinal_lt_month.trans_le ?_
  rw [daysBeforeYear_succ, ← daysBeforeMonth_thirteen]
  exact Nat.add_le_add_left (daysBeforeMonth_mono _ (Nat.succ_le_succ d.month_le)) _

theorem le_ordinal_month : daysBeforeYear d.year + daysBeforeMonth d.year d.month ≤ d.ordinal :=
  Nat.le_add_right ..

theorem le_ordinal_year : daysBeforeYear d.year ≤ d.ordinal :=
  (Nat.le_add_right ..).trans d.le_ordinal_month

/-- The next day has the next ordinal. -/
theorem ordinal_next : d.next.ordinal = d.ordinal + 1 := by
  have hpos := d.day_pos
  have hle := d.day_le
  unfold next
  split
  · simp only [ordinal]
    omega
  · rename_i hday
    have hlast : d.day = daysInMonth d.year d.month := by omega
    split
    · simp only [ordinal, daysBeforeMonth_succ d.month_pos]
      omega
    · rename_i hmonth
      have hdec : d.month = 12 := by
        have := d.month_le
        omega
      have hyear := daysBeforeMonth_thirteen d.year
      rw [daysBeforeMonth_succ (by decide), ← hdec] at hyear
      simp only [ordinal, daysBeforeYear_succ, daysBeforeMonth_one, ← hyear]
      omega

/-- A date is known from its ordinal. -/
theorem ordinal_injective : Function.Injective ordinal := by
  intro d e h
  have hyear : d.year = e.year := by
    rcases Nat.lt_trichotomy d.year e.year with hlt | heq | hlt
    · have := (d.ordinal_lt_year.trans_le (daysBeforeYear_mono hlt)).trans_le e.le_ordinal_year
      exact absurd h this.ne
    · exact heq
    · have := (e.ordinal_lt_year.trans_le (daysBeforeYear_mono hlt)).trans_le d.le_ordinal_year
      exact absurd h this.ne'
  have hmonth : d.month = e.month := by
    rcases Nat.lt_trichotomy d.month e.month with hlt | heq | hlt
    · have h₁ := d.ordinal_lt_month
      have h₂ := daysBeforeMonth_mono d.year (show d.month + 1 ≤ e.month from hlt)
      have h₃ := e.le_ordinal_month
      rw [hyear] at h₁ h₂
      omega
    · exact heq
    · have h₁ := e.ordinal_lt_month
      have h₂ := daysBeforeMonth_mono e.year (show e.month + 1 ≤ d.month from hlt)
      have h₃ := d.le_ordinal_month
      rw [hyear] at h₃
      omega
  have hday : d.day = e.day := by
    have h₁ := d.day_pos
    have h₂ := e.day_pos
    rw [ordinal, ordinal, hyear, hmonth] at h
    omega
  exact Date.ext hyear hmonth hday

/-! ### Days of the week -/

/-- The day of the week, where Sunday is 0. The first day of the year 0 is a Saturday. -/
def weekday : ℕ := (d.ordinal + 6) % 7

theorem weekday_next : d.next.weekday = (d.weekday + 1) % 7 := by
  rw [weekday, weekday, ordinal_next]
  omega

end Date

end Calendar
