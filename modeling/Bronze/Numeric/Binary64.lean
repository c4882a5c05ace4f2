import Mathlib

/-!
# Double precision and the shortest decimals that read back

A positive number of double precision is a rational `M * 2 ^ E` with `M < 2 ^ 53`. A rational is
read as the nearest such number, ties to even; a decimal of a number is the shortest whose reading
is that number, the digits being the nearest of their length. Both are computed exactly.

## Main results

* `nearest_of_representable`: a magnitude is read as itself
* `shortest_spec`: the shortest digits exist, have no leading zero, and read back
-/

namespace Bronze.Binary64

open List Nat Int

/-- The integer nearest to `x`; of two, the even one. -/
def roundEven (x : ℚ) : ℤ :=
  if 2 * (x - ⌊x⌋) < 1 then ⌊x⌋
  else if 1 < 2 * (x - ⌊x⌋) then ⌊x⌋ + 1
  else if ⌊x⌋ % 2 = 0 then ⌊x⌋ else ⌊x⌋ + 1

@[simp] theorem roundEven_intCast (n : ℤ) : roundEven n = n := by
  simp [roundEven]

theorem floor_le_roundEven (x : ℚ) : ⌊x⌋ ≤ roundEven x := by
  rw [roundEven]
  split_ifs <;> omega

/-! ## The numbers of double precision -/

/-- A nonnegative number of double precision. -/
def Representable (x : ℚ) : Prop :=
  ∃ (M : ℕ) (E : ℤ), M < 2 ^ 53 ∧ -1074 ≤ E ∧ x = M * (2 : ℚ) ^ E ∧ x < (2 : ℚ) ^ (1024 : ℤ)

/-- The exponent of the last place of the numbers around `x`. -/
def lastPlace (x : ℚ) : ℤ :=
  max (Int.log 2 x - 52) (-1074)

/-- The number of double precision nearest to `x`, none where it is out of range. -/
def nearest (x : ℚ) : Option ℚ :=
  let y := roundEven (x / (2 : ℚ) ^ lastPlace x) * (2 : ℚ) ^ lastPlace x
  if y < (2 : ℚ) ^ (1024 : ℤ) then some y else none

variable {x : ℚ} {n : ℕ}

theorem Representable.nonneg (h : Representable x) : 0 ≤ x := by
  obtain ⟨M, E, -, -, rfl, -⟩ := h
  positivity

theorem Representable.exists_places (h : Representable x) (hpos : 0 < x) :
    ∃ n : ℤ, x = n * (2 : ℚ) ^ lastPlace x := by
  obtain ⟨M, E, hM, hE, hx, -⟩ := h
  have htwo : (2 : ℚ) ≠ 0 := two_ne_zero
  -- the last place is no larger than the unit the number is written in
  have hle : lastPlace x ≤ E := by
    refine max_le ?_ hE
    have hlog : (2 : ℚ) ^ log 2 x ≤ x := zpow_log_le_self one_lt_two hpos
    have hlt : x < (2 : ℚ) ^ (E + 53) := by
      rw [hx, zpow_add₀ htwo, mul_comm]
      have : (M : ℚ) < (2 : ℚ) ^ (53 : ℤ) := by
        exact_mod_cast hM
      gcongr
    have := (zpow_lt_zpow_iff_right₀ (one_lt_two (α := ℚ))).mp (hlog.trans_lt hlt)
    omega
  obtain ⟨k, hk⟩ := eq_ofNat_of_zero_le (sub_nonneg.mpr hle)
  refine ⟨M * 2 ^ k, ?_⟩
  have hEk : E = k + lastPlace x := by omega
  calc x = M * (2 : ℚ) ^ E := hx
    _ = M * ((2 : ℚ) ^ (k : ℤ) * (2 : ℚ) ^ lastPlace x) := by rw [hEk, zpow_add₀ htwo]
    _ = _ := by push_cast; rw [zpow_natCast]; ring

/-- **A number of double precision is read as itself.** -/
theorem nearest_of_representable (h : Representable x) (hpos : 0 < x) : nearest x = some x := by
  obtain ⟨n, hn⟩ := h.exists_places hpos
  have hplace : (2 : ℚ) ^ lastPlace x ≠ 0 := zpow_ne_zero _ two_ne_zero
  have hdiv : x / (2 : ℚ) ^ lastPlace x = n := by
    rw [div_eq_iff hplace]
    exact hn
  obtain ⟨-, -, -, -, -, hlt⟩ := h
  rw [nearest, hdiv, roundEven_intCast, ← hn]
  exact if_pos hlt

/-- A whole number below `2 ^ 53` is one of double precision. -/
theorem representable_natCast (h : n < 2 ^ 53) : Representable n := by
  refine ⟨n, 0, h, by norm_num, by simp, ?_⟩
  have hn : (n : ℚ) < (2 : ℚ) ^ (53 : ℤ) := by exact_mod_cast h
  exact hn.trans (zpow_lt_zpow_right₀ one_lt_two (by norm_num))

theorem representable_zero : Representable 0 := by
  simpa using representable_natCast (n := 0) (by norm_num)

theorem roundEven_nonneg (h : 0 ≤ x) : 0 ≤ roundEven x :=
  (floor_nonneg.mpr h).trans (floor_le_roundEven x)

theorem roundEven_le {n : ℤ} (h : x < n) : roundEven x ≤ n := by
  have hfloor : ⌊x⌋ < n := floor_lt.mpr h
  rw [roundEven]
  split_ifs <;> omega

/-- At most `2 ^ 53` last places. -/
theorem places_lt (x : ℚ) : x / (2 : ℚ) ^ lastPlace x < (2 : ℚ) ^ 53 := by
  rw [div_lt_iff₀ (by positivity), ← zpow_natCast, ← zpow_add₀ two_ne_zero]
  refine (lt_zpow_succ_log_self (b := 2) one_lt_two x).trans_le ?_
  refine zpow_le_zpow_right₀ (by norm_num) ?_
  have := le_max_left (log 2 x - 52) (-1074)
  rw [← lastPlace] at this
  omega

/-- **What a number is read as is one of double precision.** -/
theorem representable_of_nearest {y : ℚ} (hx : 0 ≤ x) (h : nearest x = some y) :
    Representable y := by
  rw [nearest] at h
  split at h
  · rename_i hlt
    cases h
    obtain ⟨n, hn⟩ := eq_ofNat_of_zero_le
      (roundEven_nonneg (div_nonneg hx (by positivity : (0 : ℚ) ≤ (2 : ℚ) ^ lastPlace x)))
    rw [hn] at hlt ⊢
    have hle : (n : ℤ) ≤ 2 ^ 53 := by
      rw [← hn]
      exact roundEven_le (by exact_mod_cast places_lt x)
    have hbound : -1074 ≤ lastPlace x := le_max_right _ _
    rcases lt_or_ge n (2 ^ 53) with hfits | hfull
    · exact ⟨n, lastPlace x, hfits, hbound, by norm_cast, hlt⟩
    · -- the carry goes into the exponent
      obtain rfl : n = 2 ^ 53 := by
        omega
      refine ⟨2 ^ 52, lastPlace x + 1, by norm_num, by omega, ?_, hlt⟩
      rw [zpow_add₀ two_ne_zero]
      ring
  · cases h

/-- A finite number of double precision, its sign apart. -/
structure Magnitude where
  value : ℚ
  representable : Representable value
  deriving DecidableEq

theorem Magnitude.ext {a b : Magnitude} (h : a.value = b.value) : a = b := by
  cases a
  cases b
  cases h
  rfl

/-- The number a list of decimal digits spells. -/
def ofDecimal (digits : List ℕ) : ℕ :=
  digits.foldl (fun value d => 10 * value + d) 0

theorem foldl_decimal (digits : List ℕ) (value : ℕ) :
    digits.foldl (fun value d => 10 * value + d) value =
      value * 10 ^ digits.length + ofDecimal digits := by
  induction digits generalizing value with
  | nil => simp [ofDecimal]
  | cons d digits ih =>
    rw [ofDecimal, foldl_cons, foldl_cons, ih, ih (10 * 0 + d), length_cons]
    ring

theorem ofDecimal_append (a b : List ℕ) :
    ofDecimal (a ++ b) = ofDecimal a * 10 ^ b.length + ofDecimal b := by
  rw [ofDecimal, foldl_append, foldl_decimal, ← ofDecimal]

theorem ofDecimal_cons (d : ℕ) (digits : List ℕ) :
    ofDecimal (d :: digits) = d * 10 ^ digits.length + ofDecimal digits := by
  rw [ofDecimal, foldl_cons, foldl_decimal]
  ring

@[simp] theorem ofDecimal_replicate_zero (n : ℕ) : ofDecimal (List.replicate n 0) = 0 := by
  induction n with
  | zero => rfl
  | succ n ih => rw [replicate_succ, ofDecimal_cons, ih, zero_mul]

/-- The decimal digits of a number, the first one first. -/
def decimal (n : ℕ) : List ℕ :=
  (digits 10 n).reverse

theorem ofDecimal_reverse (digits : List ℕ) : ofDecimal digits.reverse = ofDigits 10 digits := by
  induction digits with
  | nil => rfl
  | cons d digits ih =>
    rw [reverse_cons, ofDecimal_append, ih, ofDigits_cons]
    simp [ofDecimal]
    ring

theorem ofDecimal_decimal (n : ℕ) : ofDecimal (decimal n) = n := by
  rw [decimal, ofDecimal_reverse, ofDigits_digits]

theorem decimal_lt {d : ℕ} (h : d ∈ decimal n) : d < 10 :=
  digits_lt_base (by norm_num) (mem_reverse.mp h)

theorem decimal_ne_nil (h : n ≠ 0) : decimal n ≠ [] := by
  simpa [decimal, digits_eq_nil_iff_eq_zero] using h

theorem head_decimal_ne_zero (h : n ≠ 0) : (decimal n).head? ≠ some 0 := by
  have hne : digits 10 n ≠ [] := digits_ne_nil_iff_ne_zero.mpr h
  rw [decimal, head?_reverse, getLast?_eq_getLast_of_ne_nil hne]
  simpa using getLast_digit_ne_zero 10 h

theorem length_decimal {k : ℕ} (hle : 10 ^ k ≤ n) (hlt : n < 10 ^ (k + 1)) :
    (decimal n).length = k + 1 := by
  have hne : n ≠ 0 := fun h => by simp [h] at hle
  rw [decimal, length_reverse, length_digits 10 n (by norm_num) hne,
    log_eq_of_pow_le_of_lt_pow hle hlt]

/-- `x` in units of its `j`-th digit after the first. -/
def scaled (x : ℚ) (j : ℕ) : ℚ := x / (10 : ℚ) ^ (Int.log 10 x - j)

/-- The two decimals around `x` whose last digit is the `j`-th after the first, the nearer one
first. Below a power of two the numbers are closer, so the farther one may be read as `x` alone. -/
def neighbours (x : ℚ) (j : ℕ) : List ℤ :=
  [roundEven (scaled x j), 2 * ⌊scaled x j⌋ + 1 - roundEven (scaled x j)]

def readsBack (x : ℚ) (j : ℕ) (c : ℤ) : Bool :=
  nearest (c * (10 : ℚ) ^ (Int.log 10 x - j)) = some x

/-- The shortest digits that are read as `x`, and the exponent of the first. -/
def shortest (x : ℚ) : List ℕ × ℤ :=
  match (List.range ((Int.log 10 x + 1074).toNat + 1)).findSome? fun j =>
      ((neighbours x j).find? (readsBack x j)).map (j, ·) with
  | some (j, c) =>
    -- rounding may have carried into one more digit
    if c = 10 ^ (j + 1) then ([1], Int.log 10 x + 1) else (decimal c.toNat, Int.log 10 x)
  | none => ([], 0)

section Shortest

variable {x : ℚ}

theorem scaled_mem (hpos : 0 < x) (j : ℕ) :
    (10 : ℚ) ^ j ≤ scaled x j ∧ scaled x j < (10 : ℚ) ^ (j + 1) := by
  have hten : (10 : ℚ) ≠ 0 := by norm_num
  have hscale : (0 : ℚ) < (10 : ℚ) ^ (log 10 x - j) := by positivity
  rw [scaled]
  constructor
  · rw [le_div_iff₀ hscale, ← zpow_natCast, ← zpow_add₀ hten]
    have := zpow_log_le_self (b := 10) (r := x) (by norm_num) hpos
    simpa using this
  · rw [div_lt_iff₀ hscale, ← zpow_natCast, ← zpow_add₀ hten]
    have := lt_zpow_succ_log_self (b := 10) (by norm_num) x
    have hexp : ((j + 1 : ℕ) : ℤ) + (log 10 x - j) = log 10 x + 1 := by
      push_cast
      ring
    rw [hexp]
    exact_mod_cast this

theorem neighbours_mem (hpos : 0 < x) {j : ℕ} {c : ℤ} (hc : c ∈ neighbours x j) :
    (10 : ℤ) ^ j ≤ c ∧ c ≤ (10 : ℤ) ^ (j + 1) := by
  obtain ⟨hle, hlt⟩ := scaled_mem hpos j
  have hfloor : (10 : ℤ) ^ j ≤ ⌊scaled x j⌋ := le_floor.mpr (by exact_mod_cast hle)
  have hfloor' : ⌊scaled x j⌋ < (10 : ℤ) ^ (j + 1) := floor_lt.mpr (by exact_mod_cast hlt)
  have hround := floor_le_roundEven (scaled x j)
  have hround' : roundEven (scaled x j) ≤ ⌊scaled x j⌋ + 1 := by
    rw [roundEven]
    split_ifs <;> omega
  rcases mem_pair.mp hc with rfl | rfl <;> omega

variable (h : Representable x)

include h

theorem neg_le_log (hpos : 0 < x) : -1074 ≤ log 10 x := by
  obtain ⟨n, hn⟩ := h.exists_places hpos
  have hplace : (0 : ℚ) < (2 : ℚ) ^ lastPlace x := by positivity
  have hone : (1 : ℚ) ≤ n := by
    have : 0 < (n : ℚ) := pos_of_mul_pos_left (hn ▸ hpos) hplace.le
    exact_mod_cast this
  refine (zpow_le_iff_le_log (by norm_num) hpos).mp ?_
  calc ((10 : ℕ) : ℚ) ^ (-1074 : ℤ) ≤ (2 : ℚ) ^ (-1074 : ℤ) := by
        rw [zpow_neg, zpow_neg]
        refine inv_anti₀ (by positivity) ?_
        exact zpow_le_zpow_left₀ (by norm_num) (by norm_num) (by norm_num)
    _ ≤ (2 : ℚ) ^ lastPlace x := zpow_le_zpow_right₀ one_le_two (le_max_right _ _)
    _ ≤ n * (2 : ℚ) ^ lastPlace x := le_mul_of_one_le_left hplace.le hone
    _ = x := hn.symm

theorem exists_readsBack (hpos : 0 < x) : ∃ j, j < (log 10 x + 1074).toNat + 1 ∧
    ∃ c ∈ neighbours x j, readsBack x j c = true := by
  refine ⟨(log 10 x + 1074).toNat, lt_succ_self _, _, mem_cons_self, ?_⟩
  obtain ⟨n, hn⟩ := h.exists_places hpos
  obtain ⟨k, hk⟩ := eq_ofNat_of_zero_le (show 0 ≤ lastPlace x + 1074 by
    have := le_max_right (log 2 x - 52) (-1074)
    rw [← lastPlace] at this
    omega)
  have hunit : log 10 x - ((log 10 x + 1074).toNat : ℤ) = -1074 := by
    rw [toNat_of_nonneg (by have := neg_le_log h hpos; omega)]
    ring
  have hten : (10 : ℚ) ^ (-1074 : ℤ) ≠ 0 := zpow_ne_zero _ (by norm_num)
  -- ten to the last place has enough twos
  have hwhole : x / (10 : ℚ) ^ (-1074 : ℤ) = ((n * 2 ^ k * 5 ^ 1074 : ℤ) : ℚ) := by
    have hlast : lastPlace x = k - 1074 := by omega
    have hsplit : (10 : ℚ) ^ (-1074 : ℤ) = (2 : ℚ) ^ (-1074 : ℤ) * (5 : ℚ) ^ (-1074 : ℤ) := by
      rw [← mul_zpow, show (2 : ℚ) * 5 = 10 by norm_num]
    have hfives : (5 : ℚ) ^ 1074 * (5 : ℚ) ^ (-1074 : ℤ) = 1 := by
      exact mul_inv_cancel₀ (pow_ne_zero _ (by norm_num))
    have htwos : (2 : ℚ) ^ lastPlace x = (2 : ℚ) ^ k * (2 : ℚ) ^ (-1074 : ℤ) := by
      rw [hlast, sub_eq_add_neg, zpow_add₀ two_ne_zero, zpow_natCast]
    rw [div_eq_iff hten, hsplit]
    calc x = n * ((2 : ℚ) ^ k * (2 : ℚ) ^ (-1074 : ℤ)) := by rw [← htwos]; exact hn
      _ = n * (2 : ℚ) ^ k * (2 : ℚ) ^ (-1074 : ℤ) * 1 := by rw [mul_one, mul_assoc]
      _ = n * (2 : ℚ) ^ k * (2 : ℚ) ^ (-1074 : ℤ) * ((5 : ℚ) ^ 1074 * (5 : ℚ) ^ (-1074 : ℤ)) := by
        rw [hfives]
      _ = _ := by push_cast; ring_nf
  rw [readsBack, scaled, hunit, hwhole, roundEven_intCast, ← hwhole, div_mul_cancel₀ _ hten,
    nearest_of_representable h hpos]
  simp

/-- What the search ends with: a neighbour that is read back, and no neighbour of fewer digits. -/
theorem shortest_found (hpos : 0 < x) : ∃ j, ∃ c ∈ neighbours x j, readsBack x j c = true ∧
    (∀ i < j, ∀ c' ∈ neighbours x i, readsBack x i c' = false) ∧
      shortest x = if c = 10 ^ (j + 1) then ([1], Int.log 10 x + 1)
        else (decimal c.toNat, Int.log 10 x) := by
  obtain ⟨j₀, hlt, c₀, hc₀, hreads₀⟩ := exists_readsBack h hpos
  obtain ⟨found, hfound⟩ : ∃ found, (List.range ((log 10 x + 1074).toNat + 1)).findSome? (fun j =>
      ((neighbours x j).find? (readsBack x j)).map (j, ·)) = some found := by
    rw [← Option.isSome_iff_exists, findSome?_isSome_iff]
    exact ⟨j₀, mem_range.mpr hlt, by simpa using ⟨c₀, hc₀, hreads₀⟩⟩
  obtain ⟨before, j, after, hrange, hj, hnone⟩ := findSome?_eq_some_iff.mp hfound
  obtain ⟨c, hfind, rfl⟩ := Option.map_eq_some_iff.mp hj
  refine ⟨j, c, mem_of_find?_eq_some hfind, find?_some hfind, fun i hi c' hc' => ?_, ?_⟩
  · have hmem : i ∈ before := by
      rw [range_eq_range', range'_eq_append_iff] at hrange
      obtain ⟨k, -, rfl, hafter⟩ := hrange
      cases hrest : (log 10 x + 1074).toNat + 1 - k with
      | zero => simp [hrest] at hafter
      | succ n =>
        rw [hrest, range'_succ, zero_add, mul_one] at hafter
        rw [← range_eq_range', mem_range, ← (cons.inj hafter).1]
        exact hi
    have hno := Option.map_eq_none_iff.mp (hnone i hmem)
    exact Bool.eq_false_iff.mpr (find?_eq_none.mp hno c' hc')
  · rw [shortest, hfound]

/-- **The shortest digits** of a number of double precision: they start with no zero, and are
read as the number. -/
theorem shortest_spec (hpos : 0 < x) :
    ∃ digits exponent, shortest x = (digits, exponent) ∧ digits ≠ [] ∧ (∀ d ∈ digits, d < 10) ∧
      digits.head? ≠ some 0 ∧
      nearest (ofDecimal digits * (10 : ℚ) ^ (exponent + 1 - digits.length)) = some x := by
  obtain ⟨j, c, hc, hreads, -, hshortest⟩ := shortest_found h hpos
  have hreads : nearest (c * (10 : ℚ) ^ (log 10 x - j)) = some x := by
    simpa [readsBack] using hreads
  obtain ⟨hlow, hhigh⟩ := neighbours_mem hpos hc
  by_cases hcarry : c = 10 ^ (j + 1)
  · rw [if_pos hcarry] at hshortest
    refine ⟨[1], log 10 x + 1, hshortest, by simp, by simp, by simp, ?_⟩
    rw [← hreads, hcarry]
    congr 1
    have hexp : log 10 x + 1 + 1 - (([1] : List ℕ).length : ℤ) =
        ((j + 1 : ℕ) : ℤ) + (log 10 x - j) := by
      push_cast
      simp only [length_singleton]
      ring
    rw [hexp, zpow_add₀ (by norm_num), zpow_natCast]
    simp [ofDecimal]
  · rw [if_neg hcarry] at hshortest
    obtain ⟨n, rfl⟩ := eq_ofNat_of_zero_le ((by positivity : (0 : ℤ) ≤ 10 ^ j).trans hlow)
    have hlow' : 10 ^ j ≤ n := by exact_mod_cast hlow
    have hhigh' : n < 10 ^ (j + 1) := by exact_mod_cast lt_of_le_of_ne hhigh hcarry
    have hne : n ≠ 0 := fun h => by simp [h] at hlow'
    refine ⟨decimal n, log 10 x, hshortest, decimal_ne_nil hne,
      fun d => decimal_lt, head_decimal_ne_zero hne, ?_⟩
    rw [← hreads, ofDecimal_decimal, length_decimal hlow' hhigh']
    congr 3
    push_cast
    ring

end Shortest

end Bronze.Binary64
