import Bronze.Date.Calendar
import Bronze.Numeric.Whole

/-!
# The arithmetic of dates

The day numbers, the fields of a time value and `MakeTime`, `MakeDay`, `MakeDate` and `TimeClip` of
`src/runtime/date_math.cpp`. The doubles are whole numbers here, which is what `trunc` leaves of a
finite argument, and every result is rounded by an arithmetic of whole numbers. A NaN is `none`;
what a NaN or an infinity comes to is a NaN in each function, and is left out. The loops of
`yearFromTime` are given fuel.

## Main results

* `dayFromYear_eq`, `isLeapYear_iff`, `monthStartDay_eq`: the functions on years and months are
  those of the calendar
-/

namespace Bronze.Date

open Binary64 Gregorian Int

/-- `kMsPerSecond`, in milliseconds. -/
def kMsPerSecond : ℤ := 1000

/-- `kMsPerMinute`, in milliseconds. -/
def kMsPerMinute : ℤ := 60000

/-- `kMsPerHour`, in milliseconds. -/
def kMsPerHour : ℤ := 3600000

/-- `kMsPerDay`: the days of the model have no leap seconds. -/
def kMsPerDay : ℤ := 86400000

/-- `kMsPerDay * 365.2425`, which is rounded to this whole number. -/
def kMsPerMeanYear : ℤ := 31556952000

/-- `kMaxTimeValue`: a time value is at most this far from the epoch. -/
def kMaxTimeValue : ℤ := 8640000000000000

/-- `kMonthStart`: the first day of each month of a common year, and the length of the year. -/
def kMonthStart : List ℤ := [0, 31, 59, 90, 120, 151, 181, 212, 243, 273, 304, 334, 365]

section Functions

variable (A : Whole)

/-- `modulo`. The remainder of `fmod` has the sign of the dividend. -/
def modulo (x y : ℤ) : ℤ :=
  let r := x.tmod y
  if r = 0 then 0
  else if decide (r < 0) ≠ decide (y < 0) then A.result (r + y)
  else r

/-- `isLeapYear`, by the Gregorian rule. -/
def isLeapYear (y : ℤ) : Bool :=
  if modulo A y 4 ≠ 0 then false
  else if modulo A y 100 ≠ 0 then true
  else modulo A y 400 = 0

/-- `monthStartDay`: the leap day moves every month from March on. -/
def monthStartDay (m : ℤ) (leap : Bool) : ℤ :=
  let base := kMonthStart.getD m.toNat 0
  if m ≥ 2 ∧ leap = true then A.result (base + 1) else base

/-- `day`: the day of a time value, counted from the epoch. -/
def day (t : ℤ) : ℤ := A.floorDiv t kMsPerDay

/-- `dayFromYear`: the first day of a year. The leap years since the epoch are counted by three
quotients. -/
def dayFromYear (y : ℤ) : ℤ :=
  A.result (A.result (A.result (A.result (365 * A.result (y - 1970)) +
    A.floorDiv (A.result (y - 1969)) 4) - A.floorDiv (A.result (y - 1901)) 100) +
      A.floorDiv (A.result (y - 1601)) 400)

/-- `timeFromYear`: the time value at which a year starts. -/
def timeFromYear (y : ℤ) : ℤ := A.result (kMsPerDay * dayFromYear A y)

/-- The first loop of `yearFromTime`. -/
def yearsBack (t : ℤ) : ℕ → ℤ → Option ℤ
  | 0, _ => none
  | fuel + 1, y =>
    if timeFromYear A y > t then yearsBack t fuel (A.result (y - 1)) else some y

/-- The second loop of `yearFromTime`. -/
def yearsForward (t : ℤ) : ℕ → ℤ → Option ℤ
  | 0, _ => none
  | fuel + 1, y =>
    if timeFromYear A (A.result (y + 1)) ≤ t then yearsForward t fuel (A.result (y + 1))
    else some y

/-- `yearFromTime`: an estimate by the mean year, corrected by the two loops. -/
def yearFromTime (fuel : ℕ) (t : ℤ) : Option ℤ := do
  let y ← yearsBack A t fuel (A.result (A.floorDiv t kMsPerMeanYear + 1970))
  yearsForward A t fuel y

/-- `inLeapYear`: whether the year of a time value is a leap year. -/
def inLeapYear (fuel : ℕ) (t : ℤ) : Option Bool := do
  let y ← yearFromTime A fuel t
  return isLeapYear A y

/-- `dayWithinYear`, from `0`. -/
def dayWithinYear (fuel : ℕ) (t : ℤ) : Option ℤ := do
  let y ← yearFromTime A fuel t
  return A.result (day A t - dayFromYear A y)

/-- The months, as the loop of `monthFromTime` comes to them. -/
def monthsDown : List ℤ := [11, 10, 9, 8, 7, 6, 5, 4, 3, 2, 1, 0]

/-- `monthFromTime`: the last month that has started, from `0`. -/
def monthFromTime (fuel : ℕ) (t : ℤ) : Option ℤ := do
  let d ← dayWithinYear A fuel t
  let leap ← inLeapYear A fuel t
  return (monthsDown.find? fun m => d ≥ monthStartDay A m leap).getD 0

/-- `dateFromTime`: the day of the month, from `1`. -/
def dateFromTime (fuel : ℕ) (t : ℤ) : Option ℤ := do
  let m ← monthFromTime A fuel t
  let d ← dayWithinYear A fuel t
  let leap ← inLeapYear A fuel t
  return A.result (A.result (d - monthStartDay A m leap) + 1)

/-- `hourFromTime`, from `0` to `23`. -/
def hourFromTime (t : ℤ) : ℤ := modulo A (A.floorDiv t kMsPerHour) 24

/-- `minFromTime`, from `0` to `59`. -/
def minFromTime (t : ℤ) : ℤ := modulo A (A.floorDiv t kMsPerMinute) 60

/-- `secFromTime`, from `0` to `59`. -/
def secFromTime (t : ℤ) : ℤ := modulo A (A.floorDiv t kMsPerSecond) 60

/-- `msFromTime`, from `0` to `999`. -/
def msFromTime (t : ℤ) : ℤ := modulo A t kMsPerSecond

/-- `makeTime`: fields out of their range carry over, since they are only summed. -/
def makeTime (hour min sec ms : ℤ) : ℤ :=
  A.result (A.result (A.result (A.result (hour * kMsPerHour) + A.result (min * kMsPerMinute)) +
    A.result (sec * kMsPerSecond)) + ms)

/-- `makeDay`. An infinite `ym` is a NaN, as every `ym` past the bound is. -/
def makeDay (year month date : ℤ) : Option ℤ :=
  let ym := A.result (year + A.floorDiv month 12)
  let mn := modulo A month 12
  if |ym| > 400000 then none
  else some (A.result (A.result (A.result (dayFromYear A ym + monthStartDay A mn
    (isLeapYear A ym)) + date) - 1))

/-- `makeDate`: a day and a time within it. -/
def makeDate (day time : ℤ) : ℤ := A.result (A.result (day * kMsPerDay) + time)

end Functions

section Exact

variable (A : Whole) {x y t : ℤ} {m : ℕ}

/-- `modulo` is the remainder of the floored division while the divisor is an exact double. -/
theorem modulo_eq (x : ℤ) (hy : 0 < y) (hlt : y < 2 ^ 53) : modulo A x y = x % y := by
  have hrange := tmod_lt_of_pos x hy
  have hlow : -y < x.tmod y := by
    have := tmod_lt_of_pos (-x) hy
    rw [neg_tmod] at this
    omega
  have hemod := emod_nonneg x hy.ne'
  have hdvd : ∃ k, x.tmod y = x % y + y * k := by
    refine ⟨x / y - x.tdiv y, ?_⟩
    have h₁ := emod_add_mul_ediv x y
    have h₂ := mul_tdiv_add_tmod x y
    rw [mul_sub]
    omega
  obtain ⟨k, hk⟩ := hdvd
  have hlt' := emod_lt_of_pos x hy
  rw [modulo]
  split_ifs with hzero hsign
  · -- both are between `0` and `y`
    have hk₀ : k = 0 ∨ k = -1 ∨ k < -1 ∨ 0 < k := by omega
    rcases hk₀ with rfl | rfl | hk₀ | hk₀
    · omega
    · omega
    · nlinarith
    · nlinarith
  · have hneg : x.tmod y < 0 := by
      by_contra hnonneg
      rw [decide_eq_false hnonneg, decide_eq_false (by omega)] at hsign
      exact hsign rfl
    rw [A.result_small _ (by omega) (by omega)]
    have hk₁ : k = -1 := by
      by_contra hne
      rcases lt_or_gt_of_ne hne with h | h
      · nlinarith
      · nlinarith
    rw [hk, hk₁]
    ring
  · have hnonneg : ¬x.tmod y < 0 := by
      intro hneg
      rw [decide_eq_true hneg, decide_eq_false (by omega)] at hsign
      exact hsign nofun
    have hk₀ : k = 0 := by
      by_contra hne
      rcases lt_or_gt_of_ne hne with h | h
      · nlinarith
      · nlinarith
    rw [hk, hk₀]
    ring

/-- `isLeapYear` is the leap year of the calendar. -/
theorem isLeapYear_iff (y : ℤ) : isLeapYear A y = true ↔ Leap y := by
  rw [isLeapYear, modulo_eq A y (by norm_num) (by norm_num), modulo_eq A y (by norm_num)
    (by norm_num), modulo_eq A y (by norm_num) (by norm_num), Leap]
  split_ifs with h₄ h₁₀₀
  · simp [h₄]
  · rw [not_not] at h₄
    simp [h₄, h₁₀₀]
  · rw [not_not] at h₄ h₁₀₀
    simp [h₄, h₁₀₀]

/-- `monthStartDay` is the first day of a month of the calendar. -/
theorem monthStartDay_eq (hm : m ≤ 12) : monthStartDay A m (isLeapYear A y) = monthStart y m := by
  have hsmall : ∀ n, 0 ≤ n → n < 2 ^ 53 → A.result n = n := fun n h => A.result_small n (by omega)
  have hleap := isLeapYear_iff A y
  by_cases hy : Leap y
  · rw [hleap.mpr hy]
    interval_cases m <;>
      simp [monthStartDay, kMonthStart, monthStart, monthLength, Finset.sum_range_succ, hy, hsmall]
  · rw [Bool.eq_false_iff.mpr (mt hleap.mp hy)]
    interval_cases m <;>
      simp [monthStartDay, kMonthStart, monthStart, monthLength, Finset.sum_range_succ, hy]

/-- **`dayFromYear`** is exact while the numbers are small. -/
theorem dayFromYear_eq (hlow : -1000000 ≤ y) (hhigh : y ≤ 1000000) :
    dayFromYear A y = yearStart y := by
  have hsmall : ∀ n, -2 ^ 53 < n → n < 2 ^ 53 → A.result n = n := A.result_small
  have hdiv : ∀ n c, -2 ^ 53 < n → n < 2 ^ 53 → 0 < c → c < 2 ^ 53 → A.floorDiv n c = n / c :=
    A.floorDiv_small
  rw [dayFromYear, yearStart, hsmall (y - 1970) (by omega) (by omega),
    hsmall (y - 1969) (by omega) (by omega), hsmall (y - 1901) (by omega) (by omega),
    hsmall (y - 1601) (by omega) (by omega), hdiv _ 4 (by omega) (by omega) (by omega) (by omega),
    hdiv _ 100 (by omega) (by omega) (by omega) (by omega),
    hdiv _ 400 (by omega) (by omega) (by omega) (by omega), hsmall (365 * _) (by omega) (by omega),
    hsmall (365 * (y - 1970) + _) (by omega) (by omega),
    hsmall (365 * (y - 1970) + _ - _) (by omega) (by omega), hsmall _ (by omega) (by omega)]

end Exact

end Bronze.Date
