import Bronze.Date.DateMath

/-!
# Time values and dates

The fields of a time value are those of the date of its day and of the time within it, and put
together again they are the time value. `MakeDay` numbers the days as the calendar does, but for a
year it rejects: a year and a date that make up for one another can name a day of the range.

## Main results

* `yearFromTime_eq`: the loops find the year, after at most one correction
-/

namespace Bronze.Date

open Binary64 Gregorian Option Nat Whole

section Fields

variable (A : Whole) {t y : ℤ} {fuel : ℕ}

theorem day_eq (hlow : -kMaxTimeValue ≤ t) (hhigh : t ≤ kMaxTimeValue) :
    day A t = t / kMsPerDay := by
  rw [kMaxTimeValue] at hlow hhigh
  exact A.floorDiv_small _ _ (by omega) (by omega) (by rw [kMsPerDay]; omega)
    (by rw [kMsPerDay]; omega)

theorem timeFromYear_eq (hlow : -276000 ≤ y) (hhigh : y ≤ 280000) :
    timeFromYear A y = kMsPerDay * yearStart y := by
  have hbounds := yearStart_bounds y
  rw [timeFromYear, dayFromYear_eq A (by omega) (by omega), kMsPerDay]
  exact A.result_small _ (by omega) (by omega)

theorem year_bounds {d : ℤ} (hlow : -100000000 ≤ d) (hhigh : d ≤ 100000000)
    (hy : yearStart y ≤ d ∧ d < yearStart (y + 1)) : -271900 ≤ y ∧ y ≤ 275800 := by
  have h₁ := yearStart_bounds y
  have h₂ := yearStart_bounds (y + 1)
  omega

theorem timeFromYear_le (hlow : -276000 ≤ y) (hhigh : y ≤ 280000) :
    timeFromYear A y ≤ t ↔ yearStart y ≤ t / kMsPerDay := by
  rw [timeFromYear_eq A hlow hhigh, Int.le_ediv_iff_mul_le (by rw [kMsPerDay]; norm_num), mul_comm]

theorem yearsBack_stop (fuel : ℕ) (h : timeFromYear A y ≤ t) :
    yearsBack A t (fuel + 1) y = some y := by
  rw [yearsBack, if_neg (not_lt.mpr h)]

theorem yearsForward_stop (fuel : ℕ) (h : ¬timeFromYear A (A.result (y + 1)) ≤ t) :
    yearsForward A t (fuel + 1) y = some y := by
  rw [yearsForward, if_neg h]

/-- **The loops of `yearFromTime` find the year.** The estimate is at most one year out, so each
loop is left at its second test. -/
theorem yearFromTime_eq (fuel : ℕ) (hlow : -kMaxTimeValue ≤ t) (hhigh : t ≤ kMaxTimeValue)
    (hy : yearStart y ≤ t / kMsPerDay ∧ t / kMsPerDay < yearStart (y + 1)) :
    yearFromTime A (fuel + 2) t = some y := by
  rw [kMaxTimeValue] at hlow hhigh
  have hday : -100000000 ≤ t / kMsPerDay ∧ t / kMsPerDay ≤ 100000000 := by
    rw [kMsPerDay]
    omega
  obtain ⟨hylow, hyhigh⟩ := year_bounds hday.1 hday.2 hy
  obtain ⟨e, he⟩ : ∃ e, e = t / kMsPerMeanYear + 1970 := ⟨_, rfl⟩
  -- the estimate is the year, the one before it or the one after it
  have hout : y - 1 ≤ e ∧ e ≤ y + 1 := by
    have h₁ := yearStart_bounds y
    have h₂ := yearStart_bounds (y + 1)
    rw [kMsPerMeanYear] at he
    rw [kMsPerDay] at hy
    omega
  have hestimate : A.result (A.floorDiv t kMsPerMeanYear + 1970) = e := by
    rw [A.floorDiv_small t kMsPerMeanYear (by omega) (by omega) (by rw [kMsPerMeanYear]; omega)
      (by rw [kMsPerMeanYear]; omega), ← he]
    exact A.result_small _ (by omega) (by omega)
  have hbegun : ∀ z, y - 3 ≤ z → z ≤ y + 3 → (timeFromYear A z ≤ t ↔ z ≤ y) := by
    intro z hlow hhigh
    rw [timeFromYear_le A (by omega) (by omega)]
    constructor
    · intro hle
      have hlt := yearStart_strictMono.lt_iff_lt.mp (hle.trans_lt hy.2)
      omega
    · intro hle
      exact (yearStart_strictMono.monotone hle).trans hy.1
  have hnext : ∀ z, y - 3 ≤ z → z ≤ y + 3 → A.result (z + 1) = z + 1 ∧ A.result (z - 1) = z - 1 :=
    fun z hlow hhigh => ⟨A.result_small _ (by omega) (by omega),
      A.result_small _ (by omega) (by omega)⟩
  have hback : yearsBack A t (fuel + 2) e = some (min e y) := by
    by_cases hle : e ≤ y
    · rw [yearsBack_stop A _ ((hbegun e (by omega) (by omega)).mpr hle), min_eq_left hle]
    · obtain rfl : e = y + 1 := by omega
      rw [yearsBack, if_pos (not_le.mp (mt (hbegun _ (by omega) (by omega)).mp hle)),
        (hnext _ (by omega) (by omega)).2, add_sub_cancel_right,
        yearsBack_stop A _ ((hbegun y (by omega) (by omega)).mpr le_rfl), min_eq_right (by omega)]
  have hforward : yearsForward A t (fuel + 2) (min e y) = some y := by
    have hstop : ¬timeFromYear A (A.result (y + 1)) ≤ t := by
      rw [(hnext y (by omega) (by omega)).1, hbegun _ (by omega) (by omega)]
      omega
    by_cases hle : y ≤ e
    · rw [min_eq_right hle, yearsForward_stop A _ hstop]
    · obtain rfl : e = y - 1 := by omega
      rw [min_eq_left (by omega), yearsForward, (hnext _ (by omega) (by omega)).1, sub_add_cancel,
        if_pos ((hbegun y (by omega) (by omega)).mpr le_rfl), yearsForward_stop A _ hstop]
  rw [yearFromTime, hestimate, hback]
  exact hforward

/-- The last of the numbers below `n` at which an increasing function is not past `d`. -/
theorem find?_down {f : ℕ → ℤ} (hf : StrictMono f) {p : ℕ → Bool} {d : ℤ} {m n : ℕ} (hm : m < n)
    (hp : ∀ i < n, p i = decide (f i ≤ d)) (hlow : f m ≤ d) (hhigh : d < f (m + 1)) :
    (List.range n).reverse.find? p = some m := by
  induction n with
  | zero => exact absurd hm (not_lt_zero m)
  | succ n ih =>
    rw [List.range_succ, List.reverse_append, List.reverse_singleton, List.singleton_append,
      List.find?_cons, hp n (lt_succ_self n)]
    by_cases hmn : m = n
    · subst hmn
      rw [decide_eq_true hlow]
    · have hpast : ¬f n ≤ d := by
        have hle := hf.monotone (show m + 1 ≤ n by omega)
        omega
      rw [decide_eq_false hpast]
      exact ih (by omega) fun i hi => hp i (hi.trans (lt_succ_self n))

/-- **The fields of the date** of a time value are those of the date of its day. -/
theorem fields_eq (fuel : ℕ) (hlow : -kMaxTimeValue ≤ t) (hhigh : t ≤ kMaxTimeValue)
    {c : CalendarDate} (hc : c.day = t / kMsPerDay) :
    yearFromTime A (fuel + 2) t = some c.year ∧
      monthFromTime A (fuel + 2) t = some (c.month : ℤ) ∧
        dateFromTime A (fuel + 2) t = some c.date := by
  have hyear : yearFromTime A (fuel + 2) t = some c.year :=
    yearFromTime_eq A fuel hlow hhigh (hc ▸ c.day_mem_year)
  have hleap : inLeapYear A (fuel + 2) t = some (isLeapYear A c.year) := by
    rw [inLeapYear, hyear]
    rfl
  have hbounds : -100000000 ≤ c.day ∧ c.day ≤ 100000000 := by
    rw [hc, kMsPerDay]
    rw [kMaxTimeValue] at hlow hhigh
    omega
  obtain ⟨hylow, hyhigh⟩ := year_bounds hbounds.1 hbounds.2 c.day_mem_year
  have hmem := c.day_mem
  have hmonths := (monthStart_strictMono c.year).monotone (succ_le_of_lt c.month_lt)
  have hfirst := (monthStart_strictMono c.year).monotone (zero_le c.month)
  rw [monthStart_zero] at hfirst
  rw [succ_eq_add_one, monthStart_twelve] at hmonths
  have hlength := yearLength_eq c.year
  have hwithin : dayWithinYear A (fuel + 2) t = some (c.day - yearStart c.year) := by
    rw [dayWithinYear, hyear, bind_eq_bind, bind_some, day_eq A hlow hhigh, ← hc,
      dayFromYear_eq A (by omega) (by omega), A.result_small _ (by omega) (by omega)]
    rfl
  have hmonth : monthFromTime A (fuel + 2) t = some (c.month : ℤ) := by
    have hdown : monthsDown = (List.range 12).reverse.map Nat.cast := rfl
    rw [monthFromTime, hwithin, hleap]
    simp only [bind_eq_bind, bind_some, hdown, List.find?_map]
    rw [find?_down (monthStart_strictMono c.year) c.month_lt (fun i hi => ?_) hmem.1 hmem.2]
    · rfl
    · simp [monthStartDay_eq A hi.le]
  refine ⟨hyear, hmonth, ?_⟩
  rw [dateFromTime, hmonth, hwithin, hleap]
  simp only [bind_eq_bind, bind_some, pure_def, some.injEq]
  rw [monthStartDay_eq A c.month_lt.le, A.result_small (_ - _) (by omega) (by omega),
    A.result_small _ (by omega) (by omega), CalendarDate.day]
  omega

end Fields

/-! ## Making a time value -/

section Making

variable (A : Whole) {t year month date : ℤ}

theorem makeTime_fields (hlow : -kMaxTimeValue ≤ t) (hhigh : t ≤ kMaxTimeValue) :
    makeTime A (hourFromTime A t) (minFromTime A t) (secFromTime A t) (msFromTime A t) =
      t % kMsPerDay := by
  rw [kMaxTimeValue] at hlow hhigh
  have hdiv : ∀ c, 0 < c → c < 2 ^ 53 → A.floorDiv t c = t / c := fun c =>
    A.floorDiv_small t c (by omega) (by omega)
  rw [hourFromTime, minFromTime, secFromTime, msFromTime,
    hdiv kMsPerHour (by rw [kMsPerHour]; omega) (by rw [kMsPerHour]; omega),
    hdiv kMsPerMinute (by rw [kMsPerMinute]; omega) (by rw [kMsPerMinute]; omega),
    hdiv kMsPerSecond (by rw [kMsPerSecond]; omega) (by rw [kMsPerSecond]; omega),
    modulo_eq A _ (by omega) (by omega), modulo_eq A _ (by omega) (by omega),
    modulo_eq A _ (by omega) (by omega),
    modulo_eq A _ (by rw [kMsPerSecond]; omega) (by rw [kMsPerSecond]; omega), makeTime]
  simp only [kMsPerHour, kMsPerMinute, kMsPerSecond, kMsPerDay]
  rw [A.result_small (t / 3600000 % 24 * 3600000) (by omega) (by omega),
    A.result_small (t / 60000 % 60 * 60000) (by omega) (by omega),
    A.result_small (t / 1000 % 60 * 1000) (by omega) (by omega),
    A.result_small (_ + t / 60000 % 60 * 60000) (by omega) (by omega),
    A.result_small (_ + t / 1000 % 60 * 1000) (by omega) (by omega),
    A.result_small _ (by omega) (by omega)]
  omega

theorem makeDate_eq {d time : ℤ} (hlow : -100000000 ≤ d) (hhigh : d ≤ 100000000)
    (htime : 0 ≤ time ∧ time < kMsPerDay) : makeDate A d time = kMsPerDay * d + time := by
  rw [kMsPerDay] at htime
  rw [makeDate, kMsPerDay, A.result_small (d * 86400000) (by omega) (by omega),
    A.result_small _ (by omega) (by omega), mul_comm]

/-- The day number of a year, a month of it and a day of the month, any of which may be out of
range: the months roll the year. -/
def mathematicalDay (year month date : ℤ) : ℤ :=
  yearStart (year + month / 12) + monthStart (year + month / 12) (month % 12).toNat + date - 1

theorem monthStart_mem (year month : ℤ) : 0 ≤ monthStart year (month % 12).toNat ∧
    monthStart year (month % 12).toNat < yearLength year := by
  have hlt : (month % 12).toNat < 12 := by omega
  have hmono := monthStart_strictMono year
  have hle := hmono.monotone (zero_le (month % 12).toNat)
  have hless := hmono hlt
  rw [monthStart_twelve] at hless
  exact ⟨hle, hless⟩

theorem monthStart_year_lt {y z : ℤ} (month : ℤ) (h : y < z) :
    yearStart y + monthStart y (month % 12).toNat <
      yearStart z + monthStart z (month % 12).toNat := by
  have hy := monthStart_mem y month
  have hz := monthStart_mem z month
  have hle := yearStart_strictMono.monotone (show y + 1 ≤ z by omega)
  rw [yearStart_succ] at hle
  omega

/-- What `makeDay` adds up, at a year it does not reject. -/
theorem makeDay_eq (hlow : -400000 ≤ year + A.floorDiv month 12)
    (hhigh : year + A.floorDiv month 12 ≤ 400000) :
    makeDay A year month date = some (A.result (A.result
      (yearStart (year + A.floorDiv month 12) +
        monthStart (year + A.floorDiv month 12) (month % 12).toNat + date) - 1)) := by
  have hym : A.result (year + A.floorDiv month 12) = year + A.floorDiv month 12 :=
    A.result_small _ (by omega) (by omega)
  have hmonth : month % 12 = ((month % 12).toNat : ℤ) := by omega
  obtain ⟨hmlow, hmhigh⟩ := monthStart_mem (year + A.floorDiv month 12) month
  have hbounds := yearStart_bounds (year + A.floorDiv month 12)
  have hlength := yearLength_eq (year + A.floorDiv month 12)
  rw [makeDay, hym, if_neg (not_lt.mpr (abs_le.mpr ⟨hlow, hhigh⟩)),
    modulo_eq A month (by norm_num) (by norm_num), dayFromYear_eq A (by omega) (by omega)]
  nth_rewrite 1 [hmonth]
  rw [monthStartDay_eq A (by omega), A.result_small (yearStart _ + _) (by omega) (by omega)]

/-- **`MakeDay` numbers the days as the calendar does**, of those that `TimeClip` keeps, exactly
for the years up to 400000 either way whose months roll as they should. -/
theorem makeDay_eq_iff (hlow : -100000000 ≤ mathematicalDay year month date)
    (hhigh : mathematicalDay year month date ≤ 100000000) :
    makeDay A year month date = some (mathematicalDay year month date) ↔
      |year + month / 12| ≤ 400000 ∧ A.floorDiv month 12 = month / 12 := by
  constructor
  · intro hmake
    -- the year that is added up is small
    have hsmall : -400000 ≤ year + A.floorDiv month 12 ∧ year + A.floorDiv month 12 ≤ 400000 := by
      by_contra hnot
      have hpast : |A.result (year + A.floorDiv month 12)| > 400000 := by
        rw [gt_iff_lt, lt_abs]
        by_cases hrange : -2 ^ 53 < year + A.floorDiv month 12 ∧ year + A.floorDiv month 12 < 2 ^ 53
        · rw [A.result_small _ hrange.1 hrange.2]
          omega
        · have := A.result_large (year + A.floorDiv month 12) (by omega)
          omega
      rw [makeDay, if_pos hpast] at hmake
      cases hmake
    rw [makeDay_eq A hsmall.1 hsmall.2, some.injEq] at hmake
    generalize hsum : yearStart (year + A.floorDiv month 12) +
      monthStart (year + A.floorDiv month 12) (month % 12).toNat + date = sum at hmake
    -- a large sum leaves a large day
    have hexact : mathematicalDay year month date = sum - 1 := by
      by_cases hrange : -2 ^ 53 < sum ∧ sum < 2 ^ 53
      · rw [A.result_small sum hrange.1 hrange.2] at hmake
        by_cases hrange' : -2 ^ 53 < sum - 1
        · rw [← hmake, A.result_small _ hrange' (by omega)]
        · have := A.result_large (sum - 1) (by omega)
          omega
      · have hlarge := A.result_large sum (by omega)
        by_cases hrange' : -2 ^ 53 < A.result sum - 1 ∧ A.result sum - 1 < 2 ^ 53
        · rw [A.result_small _ hrange'.1 hrange'.2] at hmake
          omega
        · have := A.result_large (A.result sum - 1) (by omega)
          omega
    rw [mathematicalDay] at hexact
    have hyear : year + A.floorDiv month 12 = year + month / 12 := by
      rcases lt_trichotomy (year + A.floorDiv month 12) (year + month / 12) with h | h | h
      · have := monthStart_year_lt month h
        omega
      · exact h
      · have := monthStart_year_lt month h
        omega
    exact ⟨hyear ▸ abs_le.mpr hsmall, by omega⟩
  · rintro ⟨hyear, hroll⟩
    obtain ⟨hylow, hyhigh⟩ := abs_le.mp hyear
    rw [makeDay_eq A (hroll ▸ hylow) (hroll ▸ hyhigh), hroll]
    rw [mathematicalDay] at hlow hhigh ⊢
    rw [A.result_small (_ + date) (by omega) (by omega), A.result_small _ (by omega) (by omega)]

/-- The leap day of 2000, in double precision. -/
theorem makeDay_eq_iff_leapDay :
    mathematicalDay 2000 1 29 = 11016 ∧
      (makeDay .double 2000 1 29 = some (mathematicalDay 2000 1 29) ↔
        |(2000 : ℤ) + 1 / 12| ≤ 400000 ∧ double.floorDiv 1 12 = 1 / 12) :=
  ⟨by decide +kernel, makeDay_eq_iff .double (by decide +kernel) (by decide +kernel)⟩

/-- The epoch, as a day of January 400001, is rejected. -/
theorem makeDay_rejects : ¬∀ year month date : ℤ,
    -100000000 ≤ mathematicalDay year month date → mathematicalDay year month date ≤ 100000000 →
      makeDay .double year month date = some (mathematicalDay year month date) := by
  intro hall
  have hday : mathematicalDay 400001 0 (1 - yearStart 400001) = 0 := by decide +kernel
  have hmake := hall 400001 0 (1 - yearStart 400001) (by rw [hday]; norm_num)
    (by rw [hday]; norm_num)
  have hyear : double.result (400001 + double.floorDiv 0 12) = 400001 := by
    rw [double.floorDiv_small 0 12 (by norm_num) (by norm_num) (by norm_num) (by norm_num)]
    exact double.result_small _ (by norm_num) (by norm_num)
  rw [makeDay, hyear] at hmake
  cases hmake

/-- A month below `2 ^ 53` rolls as it should. -/
theorem makeDay_eq_iff_of_month (hmlow : -2 ^ 53 < month) (hmhigh : month < 2 ^ 53)
    (hlow : -100000000 ≤ mathematicalDay year month date)
    (hhigh : mathematicalDay year month date ≤ 100000000) :
    makeDay A year month date = some (mathematicalDay year month date) ↔
      |year + month / 12| ≤ 400000 := by
  rw [makeDay_eq_iff A hlow hhigh, and_iff_left]
  exact A.floorDiv_small month 12 hmlow hmhigh (by norm_num) (by norm_num)

/-- A date of the calendar has the day number of its year, its month and its day. -/
theorem mathematicalDay_date (c : CalendarDate) :
    mathematicalDay c.year c.month c.date = c.day := by
  have hlt := c.month_lt
  have hdiv : (c.month : ℤ) / 12 = 0 := by omega
  have hmod : ((c.month : ℤ) % 12).toNat = c.month := by omega
  simp [mathematicalDay, hdiv, hmod, CalendarDate.day]

theorem makeDay_date (c : CalendarDate) (hlow : -100000000 ≤ c.day) (hhigh : c.day ≤ 100000000) :
    makeDay A c.year c.month c.date = some c.day := by
  have hlt := c.month_lt
  obtain ⟨hylow, hyhigh⟩ := year_bounds hlow hhigh c.day_mem_year
  have hdiv : (c.month : ℤ) / 12 = 0 := by omega
  rw [← mathematicalDay_date] at hlow hhigh ⊢
  refine (makeDay_eq_iff_of_month A (by omega) (by omega) hlow hhigh).mpr ?_
  rw [abs_le]
  omega

end Making

/-- **A time value is put together again from its fields, and a date is found again from its
day.** Each of the loops of `yearFromTime` is left at its second test. -/
theorem decomposition_round_trips (A : Whole) {fuel : ℕ} (hfuel : 2 ≤ fuel) :
    (∀ t, -kMaxTimeValue ≤ t → t ≤ kMaxTimeValue → ∃ (Y : ℤ) (M : ℕ) (D : ℤ),
      yearFromTime A fuel t = some Y ∧ monthFromTime A fuel t = some (M : ℤ) ∧
      dateFromTime A fuel t = some D ∧ timeFromYear A Y ≤ t ∧ t < timeFromYear A (Y + 1) ∧
      M ≤ 11 ∧ 1 ≤ D ∧ D ≤ monthLength Y M ∧
      (makeDay A Y M D).map (fun d => makeDate A d (makeTime A (hourFromTime A t)
        (minFromTime A t) (secFromTime A t) (msFromTime A t))) = some t) ∧
    ∀ c : CalendarDate, -100000000 ≤ c.day → c.day ≤ 100000000 →
      makeDay A c.year c.month c.date = some c.day ∧
      yearFromTime A fuel (makeDate A c.day 0) = some c.year ∧
      monthFromTime A fuel (makeDate A c.day 0) = some (c.month : ℤ) ∧
      dateFromTime A fuel (makeDate A c.day 0) = some c.date := by
  obtain ⟨fuel, rfl⟩ : ∃ k, fuel = k + 2 := ⟨fuel - 2, by omega⟩
  constructor
  · intro t hlow hhigh
    obtain ⟨c, hc⟩ := CalendarDate.day_surjective (t / kMsPerDay)
    obtain ⟨hyear, hmonth, hdate⟩ := fields_eq A fuel hlow hhigh hc
    have hday : -100000000 ≤ c.day ∧ c.day ≤ 100000000 := by
      rw [hc, kMsPerDay]
      rw [kMaxTimeValue] at hlow hhigh
      omega
    obtain ⟨hylow, hyhigh⟩ := year_bounds hday.1 hday.2 c.day_mem_year
    have hmem := c.day_mem_year
    rw [hc] at hmem
    refine ⟨c.year, c.month, c.date, hyear, hmonth, hdate, ?_, ?_, le_of_lt_succ c.month_lt,
      c.one_le, c.le_length, ?_⟩
    · exact (timeFromYear_le A (by omega) (by omega)).mpr hmem.1
    · rw [← not_le, timeFromYear_le A (by omega) (by omega), not_le]
      exact hmem.2
    · rw [makeDay_date A c hday.1 hday.2, map_some, some.injEq,
        makeTime_fields A hlow hhigh, makeDate_eq A hday.1 hday.2, hc]
      · exact Int.mul_ediv_add_emod t kMsPerDay
      · exact ⟨Int.emod_nonneg _ (by rw [kMsPerDay]; omega),
          Int.emod_lt_of_pos _ (by rw [kMsPerDay]; omega)⟩
  · intro c hlow hhigh
    have htime : makeDate A c.day 0 = kMsPerDay * c.day := by
      simp [makeDate_eq A hlow hhigh ⟨le_rfl, by rw [kMsPerDay]; omega⟩]
    have hc : c.day = makeDate A c.day 0 / kMsPerDay := by
      rw [htime, Int.mul_ediv_cancel_left _ (by rw [kMsPerDay]; omega)]
    refine ⟨makeDay_date A c hlow hhigh, fields_eq A fuel ?_ ?_ hc⟩
    · rw [htime, kMsPerDay, kMaxTimeValue]
      omega
    · rw [htime, kMsPerDay, kMaxTimeValue]
      omega

/-- In double precision, with two turns for each loop. -/
theorem decomposition_round_trips_double :
    2 ≤ 2 ∧ ∃ (Y : ℤ) (M : ℕ) (D : ℤ), yearFromTime .double 2 951782400000 = some Y ∧
      monthFromTime .double 2 951782400000 = some (M : ℤ) ∧
      dateFromTime .double 2 951782400000 = some D ∧ 1 ≤ D ∧ D ≤ monthLength Y M := by
  obtain ⟨Y, M, D, hyear, hmonth, hdate, -, -, -, hone, hlength, -⟩ :=
    (decomposition_round_trips .double (le_refl 2)).1 951782400000 (by decide) (by decide)
  exact ⟨le_rfl, Y, M, D, hyear, hmonth, hdate, hone, hlength⟩

end Bronze.Date
