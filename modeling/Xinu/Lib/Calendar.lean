/-
# The Gregorian calendar

Years, months and days of the (proleptic) Gregorian calendar, and the number of days from the first
day of a year on.  A `Date` carries that its month has its day.

A date is computed by taking off years, and then months, as long as what is left has as many days
(`passed`).
-/
import Mathlib.Algebra.BigOperators.Intervals
import Mathlib.Tactic

namespace Gregorian

/-! ## 1. Years and months -/

/-- The leap years. -/
def IsLeap (y : Nat) : Prop := y % 4 = 0 ∧ (y % 100 ≠ 0 ∨ y % 400 = 0)

instance (y : Nat) : Decidable (IsLeap y) := inferInstanceAs (Decidable (_ ∧ _))

def yearDays (y : Nat) : Nat := if IsLeap y then 366 else 365

/-- January is 0. -/
def monthDays (y m : Nat) : Nat :=
  if m = 1 then if IsLeap y then 29 else 28
  else if m = 3 ∨ m = 5 ∨ m = 8 ∨ m = 10 then 30
  else 31

/-- The days of a year in the months before one. -/
def daysBeforeMonth (y m : Nat) : Nat := ∑ i ∈ Finset.Ico 0 m, monthDays y i

/-- The days in the years from one to another. -/
def daysBeforeYear (epoch y : Nat) : Nat := ∑ i ∈ Finset.Ico epoch y, yearDays i

@[ext] structure Date where
  year : Nat
  month : Nat
  day : Nat
  valid : month < 12 ∧ 1 ≤ day ∧ day ≤ monthDays year month

/-- The number of days since January 1 of a year. -/
def Date.number (epoch : Nat) (d : Date) : Nat :=
  daysBeforeYear epoch d.year + daysBeforeMonth d.year d.month + (d.day - 1)

/-- The day of the week `n` days after the day `first` of a week; Sunday is 0. -/
def weekday (first n : Nat) : Nat := (first + n) % 7

variable {epoch y y' m n k e r : Nat} {d : Date}

theorem daysBeforeMonth_succ (y m : Nat) :
    daysBeforeMonth y (m + 1) = daysBeforeMonth y m + monthDays y m :=
  Finset.sum_Ico_succ_top (Nat.zero_le m) _

theorem daysBeforeMonth_mono (y : Nat) {m' : Nat} (h : m ≤ m') :
    daysBeforeMonth y m ≤ daysBeforeMonth y m' :=
  Finset.sum_le_sum_of_subset (Finset.Ico_subset_Ico_right h)

theorem daysBeforeYear_succ (h : epoch ≤ y) :
    daysBeforeYear epoch (y + 1) = daysBeforeYear epoch y + yearDays y :=
  Finset.sum_Ico_succ_top h _

theorem daysBeforeYear_mono (h : y ≤ y') : daysBeforeYear epoch y ≤ daysBeforeYear epoch y' :=
  Finset.sum_le_sum_of_subset (Finset.Ico_subset_Ico_right h)

/-- The days before each month of a year. -/
theorem daysBeforeMonth_eq (y : Nat) (h : m ≤ 12) :
    daysBeforeMonth y m =
      [0, 31, 59, 90, 120, 151, 181, 212, 243, 273, 304, 334, 365].getD m 0 +
        if 2 ≤ m ∧ IsLeap y then 1 else 0 := by
  induction m with
  | zero => rfl
  | succ m ih =>
    have hm : m < 12 := h
    rw [daysBeforeMonth_succ, ih hm.le, monthDays]
    by_cases hl : IsLeap y <;> interval_cases m <;> simp [hl]

/-- The months make up the year. -/
theorem daysBeforeMonth_year (y : Nat) : daysBeforeMonth y 12 = yearDays y := by
  rw [daysBeforeMonth_eq y le_rfl, yearDays]
  by_cases hl : IsLeap y <;> simp [hl]

/-- A date is in its year. -/
theorem Date.number_bounds (h : epoch ≤ d.year) :
    daysBeforeYear epoch d.year ≤ d.number epoch ∧
      d.number epoch < daysBeforeYear epoch (d.year + 1) := by
  obtain ⟨hm, hd1, hd⟩ := d.valid
  have hmono := daysBeforeMonth_mono d.year (show d.month + 1 ≤ 12 from hm)
  rw [daysBeforeMonth_succ, daysBeforeMonth_year] at hmono
  rw [daysBeforeYear_succ h, Date.number]
  omega

/-! ## 2. Taking off units -/

/-- Units are taken off from the `k`-th on, `n` at most, as long as what is left has them. -/
def passed (size : Nat → Nat) : Nat → Nat → Nat → Nat × Nat
  | 0, k, r => (k, r)
  | n + 1, k, r => if size k > r then (k, r) else passed size n (k + 1) (r - size k)

/-- **What is left** is less than the next unit. -/
theorem passed_spec {size : Nat → Nat} (he : e ≤ k + n) (h : r < ∑ i ∈ Finset.Ico k e, size i) :
    (k ≤ (passed size n k r).1 ∧ (passed size n k r).1 < e) ∧
      ∑ i ∈ Finset.Ico k (passed size n k r).1, size i + (passed size n k r).2 = r ∧
      (passed size n k r).2 < size (passed size n k r).1 := by
  have hke : k < e := by
    by_contra hno
    rw [Finset.Ico_eq_empty (by omega), Finset.sum_empty] at h
    omega
  induction n generalizing k r with
  | zero => omega
  | succ n ih =>
    rw [passed]
    by_cases hlt : size k > r
    · rw [if_pos hlt]
      exact ⟨⟨le_rfl, hke⟩, by simp, hlt⟩
    · rw [if_neg hlt]
      rw [Finset.sum_eq_sum_Ico_succ_bot hke] at h
      have hnext : k + 1 < e := by
        by_contra hno
        rw [Finset.Ico_eq_empty (by omega), Finset.sum_empty] at h
        omega
      obtain ⟨⟨h1, h2⟩, h3, h4⟩ := ih (r := r - size k) (by omega) (by omega) hnext
      refine ⟨⟨by omega, h2⟩, ?_, h4⟩
      rw [Finset.sum_eq_sum_Ico_succ_bot (by omega)]
      omega

end Gregorian
