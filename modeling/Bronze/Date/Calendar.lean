import Mathlib

/-!
# The Gregorian calendar

The days are numbered from the first of January 1970, and so is every date of the calendar, the
years before the first one included. A year is its months and a month its days, and a number of a
day is that of one date.

## Main results

* `yearStart_succ`: the closed form counts the years
-/

namespace Bronze.Gregorian

/-- Every fourth year, of the hundredth ones every fourth. -/
def Leap (y : ℤ) : Prop := y % 4 = 0 ∧ (y % 100 ≠ 0 ∨ y % 400 = 0)

instance (y : ℤ) : Decidable (Leap y) := by unfold Leap; infer_instance

def yearLength (y : ℤ) : ℤ := if Leap y then 366 else 365

def yearStart (y : ℤ) : ℤ :=
  365 * (y - 1970) + (y - 1969) / 4 - (y - 1901) / 100 + (y - 1601) / 400

/-- The days of a month of a year, the first month being `0`. -/
def monthLength (y : ℤ) : ℕ → ℤ
  | 1 => if Leap y then 29 else 28
  | 3 | 5 | 8 | 10 => 30
  | _ => 31

/-- The day of the year a month begins on. -/
def monthStart (y : ℤ) (m : ℕ) : ℤ := ∑ i ∈ Finset.range m, monthLength y i

/-- **A date of the calendar.** -/
@[ext] structure CalendarDate where
  year : ℤ
  month : ℕ
  date : ℤ
  month_lt : month < 12
  one_le : 1 ≤ date
  le_length : date ≤ monthLength year month

def CalendarDate.day (d : CalendarDate) : ℤ :=
  yearStart d.year + monthStart d.year d.month + d.date - 1

section Years

variable {y z d : ℤ}

theorem yearLength_eq (y : ℤ) : yearLength y = 365 ∨ yearLength y = 366 := by
  rw [yearLength]
  split
  · exact .inr rfl
  · exact .inl rfl

/-- **The closed form counts the years.** -/
theorem yearStart_succ (y : ℤ) : yearStart (y + 1) = yearStart y + yearLength y := by
  rw [yearLength, yearStart, yearStart]
  by_cases hleap : Leap y
  · rw [if_pos hleap]
    rw [Leap] at hleap
    omega
  · rw [if_neg hleap]
    rw [Leap] at hleap
    omega

theorem yearStart_strictMono : StrictMono yearStart := by
  refine strictMono_int_of_lt_succ fun y => ?_
  have hlength := yearLength_eq y
  rw [yearStart_succ]
  omega

theorem yearStart_bounds (y : ℤ) :
    146097 * (y - 1970) - 591 ≤ 400 * yearStart y ∧
      400 * yearStart y ≤ 146097 * (y - 1970) + 591 := by
  rw [yearStart]
  constructor <;> omega

theorem exists_year (d : ℤ) : ∃ y, yearStart y ≤ d ∧ d < yearStart (y + 1) := by
  -- the year by the mean length, or the one before or after it
  have hbounds := yearStart_bounds
  have hmean : ∃ y, y = 1970 + 400 * d / 146097 := ⟨_, rfl⟩
  obtain ⟨y, hy⟩ := hmean
  have h₁ := hbounds (y - 1)
  have h₂ := hbounds (y + 2)
  by_cases hlow : yearStart y ≤ d
  · by_cases hhigh : d < yearStart (y + 1)
    · exact ⟨y, hlow, hhigh⟩
    · refine ⟨y + 1, by omega, ?_⟩
      rw [add_assoc]
      change d < yearStart (y + 2)
      omega
  · refine ⟨y - 1, by omega, ?_⟩
    rw [sub_add_cancel]
    omega

end Years

section Months

variable {y d : ℤ} {m n : ℕ}

variable (y : ℤ)

theorem monthLength_pos (m : ℕ) : 28 ≤ monthLength y m := by
  unfold monthLength
  split
  · split <;> omega
  all_goals omega

theorem monthStart_succ (m : ℕ) : monthStart y (m + 1) = monthStart y m + monthLength y m :=
  Finset.sum_range_succ ..

theorem monthStart_strictMono : StrictMono (monthStart y) := by
  refine strictMono_nat_of_lt_succ fun m => ?_
  have hpos := monthLength_pos y m
  rw [monthStart_succ]
  omega

theorem monthStart_zero : monthStart y 0 = 0 := rfl

theorem monthStart_twelve : monthStart y 12 = yearLength y := by
  rw [yearLength]
  simp only [monthStart, monthLength]
  split <;> rfl

theorem exists_month (hd : 0 ≤ d) (hlt : d < yearLength y) :
    ∃ m < 12, monthStart y m ≤ d ∧ d < monthStart y (m + 1) := by
  by_contra hnone
  -- no month is the last one to begin by then, so every month begins by then
  have hall : ∀ m ≤ 12, monthStart y m ≤ d := by
    intro m
    induction m with
    | zero => exact fun _ => hd
    | succ m ih =>
      intro hm
      by_contra hlt
      exact hnone ⟨m, hm, ih (Nat.le_of_succ_le hm), not_le.mp hlt⟩
  have hlast := hall 12 le_rfl
  rw [monthStart_twelve] at hlast
  omega

end Months

namespace CalendarDate

variable {d e : CalendarDate} {n : ℤ}

theorem day_mem (d : CalendarDate) :
    monthStart d.year d.month ≤ d.day - yearStart d.year ∧
      d.day - yearStart d.year < monthStart d.year (d.month + 1) := by
  have hle := d.one_le
  have hlength := d.le_length
  rw [monthStart_succ, day]
  omega

theorem day_mem_year (d : CalendarDate) :
    yearStart d.year ≤ d.day ∧ d.day < yearStart (d.year + 1) := by
  have hmem := d.day_mem
  have hfirst := (monthStart_strictMono d.year).monotone (Nat.zero_le d.month)
  have hlast := (monthStart_strictMono d.year).monotone (Nat.succ_le_of_lt d.month_lt)
  rw [monthStart_zero] at hfirst
  rw [Nat.succ_eq_add_one, monthStart_twelve] at hlast
  rw [yearStart_succ]
  omega

theorem day_surjective : Function.Surjective day := by
  intro n
  obtain ⟨y, hlow, hhigh⟩ := exists_year n
  rw [yearStart_succ] at hhigh
  obtain ⟨m, hm, hmlow, hmhigh⟩ := exists_month (y := y) (d := n - yearStart y) (by omega)
    (by omega)
  rw [monthStart_succ] at hmhigh
  refine ⟨⟨y, m, n - yearStart y - monthStart y m + 1, hm, by omega, by omega⟩, ?_⟩
  change yearStart y + monthStart y m + (n - yearStart y - monthStart y m + 1) - 1 = n
  omega

end CalendarDate

end Bronze.Gregorian
