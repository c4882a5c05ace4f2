import Bronze.Numeric.Shortest

/-!
# Half precision

The magnitudes of half precision in the order of their bit patterns: five bits of exponent and ten
of mantissa, the pattern `0x7C00` standing for the value `2 ^ 16` that an infinity takes the place
of. A rational is rounded to the nearest of them, of two to the even pattern.

## Main definitions

* `value`: the magnitude of a pattern
* `Nearest`: the pattern a rational is rounded to

## Main results

* `value_strictMono`: the magnitudes are in the order of their patterns
* `nearest_pattern`: rounding in units of the last place gives the nearest pattern
* `Nearest.infinity_iff`: what is rounded to an infinity
-/

namespace Bronze.Binary16

open Binary64 (roundEven roundEven_of_close abs_roundEven_sub)

/-- The pattern of an infinity. -/
def infinity : ℕ := 0x7C00

/-- The magnitude of a pattern: subnormal, or with a leading one. -/
def value (n : ℕ) : ℚ :=
  if n / 1024 = 0 then (n % 1024 : ℕ) * (2 : ℚ) ^ (-24 : ℤ)
  else (1024 + n % 1024 : ℕ) * (2 : ℚ) ^ ((n / 1024 : ℕ) - 25 : ℤ)

/-- The pattern that a rational is rounded to, of two the even one. -/
structure Nearest (a : ℚ) (n : ℕ) : Prop where
  le : n ≤ infinity
  near : ∀ m ≤ infinity, |a - value n| ≤ |a - value m|
  even : ∀ m ≤ infinity, |a - value m| = |a - value n| → m = n ∨ n % 2 = 0

/-- A whole number of units, of at most eleven bits and with the leading one unless subnormal. -/
theorem value_units {e q : ℕ} (hq : q ≤ 2048) (hlow : e = 0 ∨ 1024 ≤ q) :
    value (e * 1024 + q) = q * (2 : ℚ) ^ (e - 24 : ℤ) := by
  rcases Nat.lt_or_ge q 1024 with hsmall | hbig
  · obtain rfl : e = 0 := by omega
    rw [value, if_pos (by omega)]
    simp [Nat.mod_eq_of_lt hsmall]
  · rw [value, if_neg (by omega)]
    rcases hq.lt_or_eq with hlt | rfl
    · have hexp : (e * 1024 + q) / 1024 = e + 1 := by omega
      have hmantissa : 1024 + (e * 1024 + q) % 1024 = q := by omega
      rw [hexp, hmantissa]
      congr 2
      push_cast
      ring
    · -- the carry goes into the exponent
      have hexp : (e * 1024 + 2048) / 1024 = e + 2 := by omega
      have hmantissa : 1024 + (e * 1024 + 2048) % 1024 = 1024 := by omega
      rw [hexp, hmantissa]
      push_cast
      rw [show (e : ℤ) + 2 - 25 = e - 24 + 1 by ring, zpow_add_one₀ two_ne_zero]
      ring

/-- Every pattern is a whole number of units, its exponent field the unit. -/
theorem exists_units (n : ℕ) : ∃ e q : ℕ, n = e * 1024 + q ∧ q < 2048 ∧ (e = 0 ∨ 1024 ≤ q) ∧
    e = n / 1024 - 1 := by
  rcases Nat.lt_or_ge n 1024 with hsmall | hbig
  · exact ⟨0, n, by omega, by omega, .inl rfl, by omega⟩
  · exact ⟨n / 1024 - 1, n - (n / 1024 - 1) * 1024, by omega, by omega, .inr (by omega), rfl⟩

/-- **The magnitudes are in the order of their patterns.** -/
theorem value_strictMono : StrictMono value := by
  refine strictMono_nat_of_lt_succ fun n => ?_
  obtain ⟨e, q, rfl, hq, hlow, -⟩ := exists_units n
  rw [value_units hq.le hlow, add_assoc,
    value_units hq (hlow.imp id fun h => h.trans (Nat.le_succ q))]
  push_cast
  have hunit : (0 : ℚ) < (2 : ℚ) ^ (e - 24 : ℤ) := by positivity
  linarith

theorem value_zero : value 0 = 0 := by
  simp [value]

theorem value_infinity : value infinity = 2 ^ 16 := by
  norm_num [value, infinity]

/-- From the leading one of a unit on, the magnitudes are whole numbers of it. -/
theorem exists_multiple {e m : ℕ} (h : e = 0 ∨ (e + 1) * 1024 ≤ m) :
    ∃ k : ℤ, value m = k * (2 : ℚ) ^ (e - 24 : ℤ) := by
  obtain ⟨e', q, rfl, hq, hlow, he'⟩ := exists_units m
  have hle : e ≤ e' := by omega
  refine ⟨q * 2 ^ (e' - e), ?_⟩
  rw [value_units hq.le hlow]
  push_cast
  rw [mul_assoc, ← zpow_natCast, ← zpow_add₀ two_ne_zero, Nat.cast_sub hle]
  congr 2
  ring

/-! ## Rounding in units -/

section Rounding

variable {a : ℚ}

/-- No integer is nearer than the rounded one, and of two it is the even one. -/
theorem abs_sub_roundEven_le (x : ℚ) (k : ℤ) : |x - roundEven x| ≤ |x - k| ∧
    (|x - k| = |x - roundEven x| → k = roundEven x ∨ roundEven x % 2 = 0) := by
  have hround : |x - roundEven x| ≤ 1 / 2 := by
    rw [abs_sub_comm]
    exact abs_roundEven_sub x
  rcases lt_or_ge |x - k| (1 / 2) with hlt | hge
  · have hk := roundEven_of_close hlt
    rw [hk]
    exact ⟨le_rfl, fun _ => .inl rfl⟩
  refine ⟨hround.trans hge, fun heq => .inr ?_⟩
  have hhalf : |x - roundEven x| = 1 / 2 := le_antisymm hround (heq ▸ hge)
  have hfloor := Int.floor_le x
  have hceil := Int.lt_floor_add_one x
  -- a distance of one half leaves the case of the tie
  rw [roundEven] at hhalf ⊢
  split_ifs at hhalf ⊢ with hlow hhigh heven
  · rw [abs_of_nonneg (by linarith)] at hhalf
    linarith
  · push_cast at hhalf
    rw [abs_of_neg (by linarith)] at hhalf
    linarith
  · exact heven
  · omega

/-- The exponent field less one, of the unit of a rational. -/
def unitOf (a : ℚ) : ℕ := (Int.log 2 a + 14).toNat

/-- **Rounding in units of the last place** gives the nearest pattern. -/
theorem nearest_pattern (hpos : 0 < a) (hlt : a < 2 ^ 16) {q : ℕ}
    (hq : roundEven (a / (2 : ℚ) ^ (unitOf a - 24 : ℤ)) = q) :
    q ≤ 2048 ∧ (unitOf a = 0 ∨ 1024 ≤ q) ∧ Nearest a (unitOf a * 1024 + q) := by
  have hlog : (2 : ℚ) ^ Int.log 2 a ≤ a := Int.zpow_log_le_self (b := 2) one_lt_two hpos
  have hlog' : a < (2 : ℚ) ^ (Int.log 2 a + 1) := Int.lt_zpow_succ_log_self (b := 2) one_lt_two a
  have hexp : Int.log 2 a ≤ 15 := by
    have hbig : (2 : ℚ) ^ Int.log 2 a < (2 : ℚ) ^ (16 : ℤ) := hlog.trans_lt (by exact_mod_cast hlt)
    have := (zpow_lt_zpow_iff_right₀ (one_lt_two (α := ℚ))).mp hbig
    omega
  have hunit : (0 : ℚ) < (2 : ℚ) ^ (unitOf a - 24 : ℤ) := by positivity
  generalize he : unitOf a = e at *
  have hfield : Int.log 2 a ≤ (e : ℤ) - 14 ∧ (e = 0 ∨ Int.log 2 a = e - 14) ∧ e ≤ 29 := by
    rw [← he, unitOf]
    omega
  generalize hu : (2 : ℚ) ^ (e - 24 : ℤ) = u at *
  have htimes : ∀ k : ℕ, (2 : ℚ) ^ (k + (e - 24) : ℤ) = 2 ^ k * u := by
    intro k
    rw [zpow_add₀ two_ne_zero, zpow_natCast, hu]
  -- at most 2048 units, and at least 1024 of them unless subnormal
  have habove : a / u < 2048 := by
    rw [div_lt_iff₀ hunit, show (2048 : ℚ) = 2 ^ 11 by norm_num, ← htimes]
    exact hlog'.trans_le (zpow_le_zpow_right₀ one_le_two (by push_cast; omega))
  have hbelow : e = 0 ∨ 1024 * u ≤ a := by
    refine hfield.2.1.imp id fun h => ?_
    rw [show (1024 : ℚ) = 2 ^ 10 by norm_num, ← htimes]
    refine le_trans (zpow_le_zpow_right₀ one_le_two ?_) hlog
    push_cast
    omega
  have hle : q ≤ 2048 := by
    have : (q : ℤ) ≤ 2048 := hq ▸ Binary64.roundEven_le (by exact_mod_cast habove)
    omega
  have hge : e = 0 ∨ 1024 ≤ q := by
    refine hbelow.imp id fun h => ?_
    have hmono : roundEven ((1024 : ℤ) : ℚ) ≤ roundEven (a / u) := by
      refine Binary64.roundEven_mono ?_
      rw [le_div_iff₀ hunit]
      exact_mod_cast h
    rw [Binary64.roundEven_intCast, hq] at hmono
    omega
  have hvalue : value (e * 1024 + q) = q * u := by
    rw [value_units hle hge, hu]
  have hscale : ∀ x : ℚ, |a - x * u| = |a / u - x| * u := by
    intro x
    rw [← abs_of_pos hunit, ← abs_mul, sub_mul, abs_of_pos hunit, div_mul_cancel₀ a hunit.ne']
  have hgrid : ∀ k : ℤ, |a - value (e * 1024 + q)| ≤ |a - k * u| ∧
      (|a - k * u| = |a - value (e * 1024 + q)| → k = q ∨ q % 2 = 0) := by
    intro k
    obtain ⟨hnear, htie⟩ := abs_sub_roundEven_le (a / u) k
    rw [hq] at hnear htie
    push_cast at hnear htie
    rw [hvalue, hscale, hscale]
    refine ⟨mul_le_mul_of_nonneg_right hnear hunit.le, fun heq => ?_⟩
    rcases htie (mul_right_cancel₀ hunit.ne' heq) with h | h
    · exact .inl h
    · exact .inr (by omega)
  have hnearest : ∀ m, |a - value (e * 1024 + q)| ≤ |a - value m| ∧
      (|a - value m| = |a - value (e * 1024 + q)| → m = e * 1024 + q ∨ q % 2 = 0) := by
    intro m
    by_cases hm : e = 0 ∨ (e + 1) * 1024 ≤ m
    · obtain ⟨k, hk⟩ := exists_multiple hm
      rw [hu] at hk
      obtain ⟨hnear, htie⟩ := hgrid k
      rw [← hk] at hnear htie
      refine ⟨hnear, fun heq => (htie heq).imp (fun h => ?_) id⟩
      refine value_strictMono.injective ?_
      rw [hvalue, hk, h]
      norm_cast
    · -- below the leading one: farther than the leading one itself
      obtain ⟨hne, hsmall⟩ := not_or.mp hm
      have hfirst : value m < 1024 * u := by
        have := value_strictMono (show m < e * 1024 + 1024 by omega)
        rwa [value_units (by norm_num) (.inr le_rfl), hu] at this
      have hone := hbelow.resolve_left hne
      obtain ⟨hnear, -⟩ := hgrid 1024
      push_cast at hnear
      rw [abs_of_nonneg (a := a - 1024 * u) (by linarith)] at hnear
      rw [abs_of_pos (a := a - value m) (by linarith)]
      exact ⟨by linarith, fun heq => absurd heq (by linarith)⟩
  refine ⟨hle, hge, ?_, fun m _ => (hnearest m).1, fun m _ heq => ?_⟩
  · rw [infinity]
    omega
  · refine ((hnearest m).2 heq).imp id fun h => ?_
    omega

/-- From `2 ^ 16` on there is nothing nearer than the pattern of an infinity. -/
theorem nearest_infinity (h : 2 ^ 16 ≤ a) : Nearest a infinity := by
  refine ⟨le_rfl, fun m hm => ?_, fun _ _ _ => .inr rfl⟩
  have hle : value m ≤ value infinity := value_strictMono.monotone hm
  have hinf := value_infinity
  rw [abs_of_nonneg (by linarith), abs_of_nonneg (by linarith)]
  linarith

theorem nearest_zero : Nearest 0 0 := by
  refine ⟨Nat.zero_le _, fun m _ => ?_, fun _ _ _ => .inr rfl⟩
  rw [value_zero, sub_self, abs_zero]
  exact abs_nonneg _

/-- A magnitude of half precision is rounded to its own pattern. -/
theorem Nearest.pattern_eq {m n : ℕ} (h : Nearest (value m) n) (hm : m ≤ infinity) : n = m := by
  have hzero := h.near m hm
  rw [sub_self, abs_zero] at hzero
  exact value_strictMono.injective (sub_eq_zero.mp (abs_nonpos_iff.mp hzero)).symm

/-- **What is rounded to an infinity**: everything from half a unit below `2 ^ 16` on. -/
theorem Nearest.infinity_iff {n : ℕ} (h : Nearest a n) : n = infinity ↔ 65520 ≤ a := by
  have hlast : value 0x7BFF = 65504 := by norm_num [value]
  have hinf : value infinity = 65536 := by rw [value_infinity]; norm_num
  constructor
  · rintro rfl
    have hnear := h.near 0x7BFF (by norm_num [infinity])
    rw [hlast, hinf] at hnear
    by_contra hlt
    rw [abs_of_neg (by linarith)] at hnear
    rcases abs_cases (a - 65504) with ⟨habs, -⟩ | ⟨habs, -⟩ <;> linarith
  · intro hge
    by_contra hne
    have hle : n ≤ 0x7BFF := by
      have := h.le
      rw [infinity] at this hne
      omega
    have hvalue : value n ≤ 65504 := hlast ▸ value_strictMono.monotone hle
    have hnear := h.near infinity le_rfl
    have htie := h.even infinity le_rfl
    rw [hinf] at hnear htie
    rw [abs_of_nonneg (a := a - value n) (by linarith)] at hnear htie
    have hfar : |a - 65536| ≤ a - 65504 := by
      rw [abs_le]
      constructor <;> linarith
    -- only the tie is left, which is not rounded to the odd pattern
    have heq : |a - 65536| = a - value n := le_antisymm (by linarith) hnear
    have hsame : value n = value 0x7BFF := by
      rw [hlast]
      linarith
    obtain rfl := value_strictMono.injective hsame
    rcases htie heq with h | h
    · exact hne h.symm
    · norm_num at h

end Rounding

end Bronze.Binary16
