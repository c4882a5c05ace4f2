import Bronze.Numeric.Binary64

/-!
# Whole numbers in floating point

A program that keeps whole numbers in doubles rounds the result of every operation. A whole number
below `2 ^ 53` is kept, one at or past it stays there, and the floor of the quotient of two whole
numbers below `2 ^ 53` is the one of the exact quotient. Nothing else about the rounding is used
where this is enough.

## Main results

* `floor_signed_div`: the floor of a quotient in double precision
-/

namespace Bronze.Binary64

open Option

/-! ## Signed numbers -/

/-- The number of double precision nearest to `x`; past the range `x` stands for an infinity. -/
def signed (x : ℚ) : ℚ := if 0 ≤ x then (nearest x).getD x else -(nearest (-x)).getD (-x)

section Rounding

variable {x : ℚ} {n c : ℤ}

theorem abs_roundEven_sub (x : ℚ) : |roundEven x - x| ≤ 1 / 2 := by
  have hfloor := Int.floor_le x
  have hlt := Int.lt_floor_add_one x
  rw [abs_le, roundEven]
  split_ifs <;> push_cast <;> constructor <;> linarith

/-- Off the smallest numbers, the last place is `2 ^ -52` of the first. -/
theorem lastPlace_le (hpos : 0 < x) (hlow : (2 : ℚ) ^ (-1022 : ℤ) ≤ x) :
    lastPlace x = Int.log 2 x - 52 ∧ (2 : ℚ) ^ lastPlace x * 2 ^ 52 ≤ x := by
  have hlog : -1022 ≤ Int.log 2 x := by
    rw [← Int.zpow_le_iff_le_log one_lt_two hpos]
    exact_mod_cast hlow
  have hplace : lastPlace x = Int.log 2 x - 52 := max_eq_left (by omega)
  refine ⟨hplace, ?_⟩
  rw [hplace, ← zpow_natCast, ← zpow_add₀ two_ne_zero]
  have := Int.zpow_log_le_self (b := 2) Nat.one_lt_two hpos
  simpa using this

/-- **The relative error** of a rounding is at most `2 ^ -53`. -/
theorem abs_nearest_sub (hpos : 0 < x) (hlow : (2 : ℚ) ^ (-1022 : ℤ) ≤ x) :
    |(nearest x).getD x - x| * 2 ^ 53 ≤ x := by
  obtain ⟨-, hplace⟩ := lastPlace_le hpos hlow
  rw [nearest]
  split
  · have hunit : (0 : ℚ) < (2 : ℚ) ^ lastPlace x := by positivity
    have hround := abs_roundEven_sub (x / (2 : ℚ) ^ lastPlace x)
    rw [getD_some]
    have hfactor : (roundEven (x / (2 : ℚ) ^ lastPlace x) : ℚ) * (2 : ℚ) ^ lastPlace x - x =
        (roundEven (x / (2 : ℚ) ^ lastPlace x) - x / (2 : ℚ) ^ lastPlace x) *
          (2 : ℚ) ^ lastPlace x := by
      field_simp
    rw [hfactor, abs_mul, abs_of_pos hunit]
    calc _ ≤ 1 / 2 * (2 : ℚ) ^ lastPlace x * 2 ^ 53 := by gcongr
      _ = (2 : ℚ) ^ lastPlace x * 2 ^ 52 := by ring
      _ ≤ x := hplace
  · rw [getD_none, sub_self, abs_zero, zero_mul]
    exact hpos.le

theorem tiny_mul_le : (2 : ℚ) ^ (-1022 : ℤ) * 2 ^ 53 ≤ 1 := by
  rw [← zpow_natCast, ← zpow_add₀ two_ne_zero]
  exact zpow_le_one_of_nonpos₀ one_le_two (by norm_num)

theorem signed_neg (x : ℚ) : signed (-x) = -signed x := by
  rcases lt_trichotomy x 0 with hneg | rfl | hpos
  · rw [signed, signed, if_pos (by linarith), if_neg (by linarith), neg_neg]
  · simp [signed, nearest, roundEven]
  · rw [signed, signed, if_neg (by linarith), if_pos hpos.le, neg_neg]

theorem signed_of_pos (hpos : 0 < x) : signed x = (nearest x).getD x := if_pos hpos.le

/-- A whole number below `2 ^ 53` is kept. -/
theorem signed_small (hlow : -2 ^ 53 < n) (hhigh : n < 2 ^ 53) : signed n = n := by
  have hpos : ∀ m : ℕ, 0 < m → m < 2 ^ 53 → signed m = m := by
    intro m hm hlt
    rw [signed_of_pos (by exact_mod_cast hm),
      nearest_of_representable (representable_natCast hlt) (by exact_mod_cast hm), getD_some]
  rcases Int.lt_trichotomy n 0 with hneg | rfl | hgt
  · obtain ⟨m, rfl⟩ := Int.exists_eq_neg_ofNat hneg.le
    have := hpos m (by omega) (by omega)
    push_cast
    rw [signed_neg, this]
  · simp [signed, nearest, roundEven]
  · obtain ⟨m, rfl⟩ := Int.eq_ofNat_of_zero_le hgt.le
    exact_mod_cast hpos m (by omega) (by omega)

/-- The error at a quotient of whole numbers below `2 ^ 53` is less than the unit of the
quotients. -/
theorem abs_signed_div_sub (hlow : -2 ^ 53 < n) (hhigh : n < 2 ^ 53) (hc : 0 < c)
    (hclt : c < 2 ^ 53) : |signed ((n : ℚ) / c) - n / c| < 1 / c := by
  have hcq : (0 : ℚ) < c := by exact_mod_cast hc
  have hpos : ∀ m : ℤ, 0 < m → m < 2 ^ 53 → |signed ((m : ℚ) / c) - m / c| < 1 / c := by
    intro m hm hlt
    have hq : (0 : ℚ) < m / c := by positivity
    have hsmall : (2 : ℚ) ^ (-1022 : ℤ) ≤ m / c := by
      rw [le_div_iff₀ hcq]
      calc (2 : ℚ) ^ (-1022 : ℤ) * c ≤ (2 : ℚ) ^ (-1022 : ℤ) * 2 ^ 53 := by
            gcongr
            exact_mod_cast hclt.le
        _ ≤ 1 := tiny_mul_le
        _ ≤ m := by exact_mod_cast hm
    have herror := abs_nearest_sub hq hsmall
    rw [signed_of_pos hq, lt_div_iff₀ hcq]
    rw [le_div_iff₀ hcq] at herror
    have hmlt : (m : ℚ) < 2 ^ 53 := by exact_mod_cast hlt
    by_contra hge
    rw [not_lt] at hge
    nlinarith
  rcases Int.lt_trichotomy n 0 with hneg | rfl | hgt
  · have hmirror := hpos (-n) (by omega) (by omega)
    rw [Int.cast_neg, neg_div, signed_neg] at hmirror
    rwa [neg_sub_neg, abs_sub_comm] at hmirror
  · have hzero : signed 0 = 0 := by simp [signed, nearest, roundEven]
    simp only [Int.cast_zero, zero_div, hzero, sub_zero, abs_zero]
    positivity
  · exact hpos n hgt hhigh

/-- **The floor of a quotient** of whole numbers below `2 ^ 53` is that of the exact quotient. -/
theorem floor_signed_div (hlow : -2 ^ 53 < n) (hhigh : n < 2 ^ 53) (hc : 0 < c)
    (hclt : c < 2 ^ 53) : ⌊signed ((n : ℚ) / c)⌋ = n / c := by
  have hcq : (0 : ℚ) < c := by exact_mod_cast hc
  have hdivmod := Int.emod_add_mul_ediv n c
  have hnonneg := Int.emod_nonneg n hc.ne'
  have hlt := Int.emod_lt_of_pos n hc
  have hq : (n : ℚ) / c = (n / c : ℤ) + ((n % c : ℤ) : ℚ) / c := by
    field_simp
    exact_mod_cast (by linarith : n = c * (n / c) + n % c)
  rcases hnonneg.eq_or_lt with hzero | hpos
  · -- an exact quotient is a whole number below `2 ^ 53`
    have hexact : (n : ℚ) / c = (n / c : ℤ) := by
      rw [hq, ← hzero]
      simp
    have hbounds : -2 ^ 53 < n / c ∧ n / c < 2 ^ 53 := by
      constructor
      · rw [Int.lt_ediv_iff_mul_lt hc (Int.dvd_of_emod_eq_zero hzero.symm)]
        nlinarith
      · exact Int.ediv_lt_of_lt_mul hc (by nlinarith)
    simp [hexact, signed_small hbounds.1 hbounds.2]
  · have herror := abs_lt.mp (abs_signed_div_sub hlow hhigh hc hclt)
    have hone : (1 : ℚ) ≤ (n % c : ℤ) := by exact_mod_cast hpos
    have hless : ((n % c : ℤ) : ℚ) ≤ c - 1 := by exact_mod_cast Int.le_sub_one_of_lt hlt
    have hrest : (1 : ℚ) / c ≤ ((n % c : ℤ) : ℚ) / c := by gcongr
    have hrest' : ((n % c : ℤ) : ℚ) / c ≤ 1 - 1 / c := by
      rw [div_le_iff₀ hcq, sub_mul, one_mul, div_mul_cancel₀ _ hcq.ne']
      exact hless
    rw [Int.floor_eq_iff]
    constructor <;> linarith [herror.1, herror.2]

/-- A whole number at or past `2 ^ 53` stays there. -/
theorem le_floor_signed {m : ℕ} (hm : 2 ^ 53 ≤ m) : (2 : ℚ) ^ 53 ≤ signed m := by
  have hmq : (2 : ℚ) ^ 53 ≤ m := by exact_mod_cast hm
  have hpos : (0 : ℚ) < m := by positivity
  have hlow : (2 : ℚ) ^ (-1022 : ℤ) ≤ m := by
    refine le_trans ?_ hmq
    nlinarith [tiny_mul_le]
  obtain ⟨hplace, -⟩ := lastPlace_le hpos hlow
  rw [signed_of_pos hpos, nearest]
  split
  · rw [getD_some, hplace]
    have hlog : 53 ≤ Int.log 2 (m : ℚ) := by
      rw [← Int.zpow_le_iff_le_log one_lt_two hpos]
      exact_mod_cast hmq
    have hself : (2 : ℚ) ^ Int.log 2 (m : ℚ) ≤ m := by
      exact_mod_cast Int.zpow_log_le_self (b := 2) Nat.one_lt_two hpos
    have hunit : (0 : ℚ) < (2 : ℚ) ^ (Int.log 2 (m : ℚ) - 52) := by positivity
    have hsplit : ((2 ^ 52 : ℤ) : ℚ) * (2 : ℚ) ^ (Int.log 2 (m : ℚ) - 52) =
        (2 : ℚ) ^ Int.log 2 (m : ℚ) := by
      rw [zpow_sub₀ two_ne_zero]
      push_cast
      field_simp
    have hround : ((2 ^ 52 : ℤ) : ℚ) ≤
        roundEven ((m : ℚ) / (2 : ℚ) ^ (Int.log 2 (m : ℚ) - 52)) := by
      have hfloor : ((2 ^ 52 : ℤ) : ℚ) ≤ (m : ℚ) / (2 : ℚ) ^ (Int.log 2 (m : ℚ) - 52) := by
        rw [le_div_iff₀ hunit, hsplit]
        exact hself
      exact_mod_cast (Int.le_floor.mpr hfloor).trans (floor_le_roundEven _)
    calc (2 : ℚ) ^ 53 ≤ (2 : ℚ) ^ Int.log 2 (m : ℚ) := by
          exact_mod_cast zpow_le_zpow_right₀ (one_le_two (α := ℚ)) hlog
      _ = ((2 ^ 52 : ℤ) : ℚ) * (2 : ℚ) ^ (Int.log 2 (m : ℚ) - 52) := hsplit.symm
      _ ≤ _ := by gcongr
  · rw [getD_none]
    exact hmq

end Rounding

/-- **An arithmetic of whole numbers** that is exact below `2 ^ 53`: what the result of a sum or a
product is rounded to, and the floor of a rounded quotient. -/
structure Whole where
  result : ℤ → ℤ
  floorDiv : ℤ → ℤ → ℤ
  result_small : ∀ n, -2 ^ 53 < n → n < 2 ^ 53 → result n = n
  result_large : ∀ n, n ≤ -2 ^ 53 ∨ 2 ^ 53 ≤ n → result n ≤ -2 ^ 53 ∨ 2 ^ 53 ≤ result n
  floorDiv_small : ∀ n c, -2 ^ 53 < n → n < 2 ^ 53 → 0 < c → c < 2 ^ 53 → floorDiv n c = n / c

namespace Whole

def double : Whole where
  result := fun n => ⌊signed n⌋
  floorDiv := fun n c => ⌊signed ((n : ℚ) / c)⌋
  result_small := fun n hlow hhigh => by simp [signed_small hlow hhigh]
  result_large := by
    rintro n (hlow | hhigh)
    · left
      obtain ⟨m, rfl⟩ := Int.exists_eq_neg_ofNat (hlow.trans (by norm_num))
      have hlarge := le_floor_signed (m := m) (by omega)
      rw [Int.floor_le_iff]
      push_cast
      rw [signed_neg]
      linarith
    · right
      obtain ⟨m, rfl⟩ := Int.eq_ofNat_of_zero_le ((by norm_num : (0 : ℤ) ≤ 2 ^ 53).trans hhigh)
      rw [Int.le_floor]
      exact_mod_cast le_floor_signed (m := m) (by omega)
  floorDiv_small := fun _ _ hlow hhigh hc hclt => floor_signed_div hlow hhigh hc hclt

end Whole

end Bronze.Binary64
