import Bronze.Numeric.Whole

/-!
# The shortest decimals are the shortest

Reading is monotone, so the rationals that are read as one number are an interval. A decimal in it
can be moved towards the number until it is one of the two neighbours of its length; and at 17
digits the nearer neighbour is close enough to be read back.

## Main results

* `shortest_least`: no decimal of fewer digits is read as the number
* `shortest_length_le`: 17 digits are enough
* `shortest_whole`: the shortest digits of a whole number below `2 ^ 53`, padded with zeros, are
  its own
-/

namespace Bronze.Binary64

open List Nat Int

variable {x y : ℚ}

/-! ## Reading is monotone -/

theorem roundEven_mono (h : x ≤ y) : roundEven x ≤ roundEven y := by
  rcases (Int.floor_mono h).lt_or_eq with hlt | heq
  · have hround : roundEven x ≤ ⌊x⌋ + 1 := by
      rw [roundEven]
      split_ifs <;> omega
    have hfloor := floor_le_roundEven y
    omega
  · rw [roundEven, roundEven, heq]
    split_ifs <;> first | omega | (exfalso; linarith)

/-- The multiple of the last place that a rational is read as, whatever its size. -/
def rounded (x : ℚ) : ℚ := roundEven (x / (2 : ℚ) ^ lastPlace x) * (2 : ℚ) ^ lastPlace x

theorem nearest_eq_some_iff : nearest x = some y ↔ rounded x = y ∧ y < (2 : ℚ) ^ (1024 : ℤ) := by
  change (if rounded x < (2 : ℚ) ^ (1024 : ℤ) then some (rounded x) else none) = _ ↔ _
  split_ifs with h
  · rw [Option.some.injEq]
    refine ⟨?_, And.left⟩
    rintro rfl
    exact ⟨rfl, h⟩
  · refine ⟨nofun, ?_⟩
    rintro ⟨rfl, hlt⟩
    exact absurd hlt h

theorem zpow_places {e : ℤ} (he : lastPlace x ≤ e) :
    ∃ m : ℤ, (2 : ℚ) ^ e = m * (2 : ℚ) ^ lastPlace x := by
  obtain ⟨k, hk⟩ := eq_ofNat_of_zero_le (sub_nonneg.mpr he)
  refine ⟨2 ^ k, ?_⟩
  rw [show e = k + lastPlace x by omega, zpow_add₀ two_ne_zero, zpow_natCast]
  push_cast
  rfl

/-- A power of two that is no smaller is not passed. -/
theorem rounded_le {e : ℤ} (h : x ≤ (2 : ℚ) ^ e) (he : lastPlace x ≤ e) :
    rounded x ≤ (2 : ℚ) ^ e := by
  obtain ⟨m, hpow⟩ := zpow_places he
  have hplace : (0 : ℚ) < (2 : ℚ) ^ lastPlace x := by positivity
  rw [rounded, hpow]
  refine mul_le_mul_of_nonneg_right ?_ hplace.le
  have hround : roundEven (x / (2 : ℚ) ^ lastPlace x) ≤ roundEven (m : ℚ) := by
    refine roundEven_mono ((div_le_iff₀ hplace).mpr ?_)
    rwa [← hpow]
  rw [roundEven_intCast] at hround
  exact_mod_cast hround

theorem le_rounded {e : ℤ} (h : (2 : ℚ) ^ e ≤ x) (he : lastPlace x ≤ e) :
    (2 : ℚ) ^ e ≤ rounded x := by
  obtain ⟨m, hpow⟩ := zpow_places he
  have hplace : (0 : ℚ) < (2 : ℚ) ^ lastPlace x := by positivity
  rw [rounded, hpow]
  refine mul_le_mul_of_nonneg_right ?_ hplace.le
  have hround : roundEven (m : ℚ) ≤ roundEven (x / (2 : ℚ) ^ lastPlace x) := by
    refine roundEven_mono ((le_div_iff₀ hplace).mpr ?_)
    rwa [← hpow]
  rw [roundEven_intCast] at hround
  exact_mod_cast hround

/-- **Reading is monotone.** -/
theorem rounded_mono (hpos : 0 < x) (h : x ≤ y) : rounded x ≤ rounded y := by
  have hlog : log 2 x ≤ log 2 y := log_mono_right hpos h
  rcases (max_le_max (sub_le_sub_right hlog 52) (le_refl (-1074))).lt_or_eq with hlt | heq
  · -- a power of two stands between them
    change lastPlace x < lastPlace y at hlt
    have hx : log 2 x - 52 ≤ lastPlace x := le_max_left _ _
    have hx' : -1074 ≤ lastPlace x := le_max_right _ _
    have hy : lastPlace y = log 2 y - 52 := by
      simp only [lastPlace] at hlt ⊢
      omega
    have hbelow : x ≤ (2 : ℚ) ^ log 2 y := by
      refine (lt_zpow_succ_log_self (b := 2) one_lt_two x).le.trans ?_
      exact zpow_le_zpow_right₀ one_le_two (by omega)
    have habove : (2 : ℚ) ^ log 2 y ≤ y :=
      zpow_log_le_self (b := 2) one_lt_two (hpos.trans_le h)
    exact (rounded_le hbelow (by omega)).trans (le_rounded habove (by omega))
  · change lastPlace x = lastPlace y at heq
    have hplace : (0 : ℚ) < (2 : ℚ) ^ lastPlace y := by positivity
    rw [rounded, rounded, heq]
    refine mul_le_mul_of_nonneg_right ?_ hplace.le
    exact_mod_cast roundEven_mono (div_le_div_of_nonneg_right h hplace.le)

/-- What is read as one number is an interval. -/
theorem nearest_of_between {a b c : ℚ} (ha : nearest a = some x) (hc : nearest c = some x)
    (hpos : 0 < a) (hab : a ≤ b) (hbc : b ≤ c) : nearest b = some x := by
  rw [nearest_eq_some_iff] at ha hc ⊢
  refine ⟨le_antisymm ?_ ?_, ha.2⟩
  · rw [← hc.1]
    exact rounded_mono (hpos.trans_le hab) hbc
  · rw [← ha.1]
    exact rounded_mono hpos hab

/-! ## The search finds the shortest -/

theorem floor_mem_neighbours (x : ℚ) (j : ℕ) :
    ⌊scaled x j⌋ ∈ neighbours x j ∧ ⌊scaled x j⌋ + 1 ∈ neighbours x j := by
  have hfloor := floor_le_roundEven (scaled x j)
  have hround : roundEven (scaled x j) ≤ ⌊scaled x j⌋ + 1 := by
    rw [roundEven]
    split_ifs <;> omega
  rw [neighbours, mem_pair, mem_pair]
  omega

theorem readsBack_iff {j : ℕ} {c : ℤ} :
    readsBack x j c = true ↔ nearest (c * (10 : ℚ) ^ (log 10 x - j)) = some x := decide_eq_true_iff

section

variable (h : Representable x) (hpos : 0 < x)

include h hpos

/-- **A decimal that is read as the number** is as far away as a neighbour of its length, or
farther. -/
theorem exists_neighbour {s j : ℕ} {e : ℤ} (hlow : 10 ^ j ≤ s) (hhigh : s < 10 ^ (j + 1))
    (hreads : nearest (s * (10 : ℚ) ^ (e - j)) = some x) :
    ∃ c ∈ neighbours x j, readsBack x j c = true := by
  have hself := nearest_of_representable h hpos
  have hten : (10 : ℚ) ≠ 0 := by norm_num
  have hunit : (0 : ℚ) < (10 : ℚ) ^ (log 10 x - j) := by positivity
  have hscaled : scaled x j * (10 : ℚ) ^ (log 10 x - j) = x := div_mul_cancel₀ _ hunit.ne'
  have hd : 0 < s * (10 : ℚ) ^ (e - j) := by
    have : 0 < s := (Nat.pos_of_ne_zero (by positivity)).trans_le hlow
    positivity
  obtain ⟨hmem, hmem'⟩ := floor_mem_neighbours x j
  have hfloor : ⌊scaled x j⌋ * (10 : ℚ) ^ (log 10 x - j) ≤ x := by
    conv_rhs => rw [← hscaled]
    exact mul_le_mul_of_nonneg_right (floor_le _) hunit.le
  have hceil : x ≤ ((⌊scaled x j⌋ + 1 : ℤ) : ℚ) * (10 : ℚ) ^ (log 10 x - j) := by
    conv_lhs => rw [← hscaled]
    refine mul_le_mul_of_nonneg_right ?_ hunit.le
    push_cast
    exact (Int.lt_floor_add_one _).le
  rcases le_or_gt (log 10 x) e with hexp | hexp
  · -- a whole number of units, on one side of the floor
    obtain ⟨k, hk⟩ := eq_ofNat_of_zero_le (sub_nonneg.mpr hexp)
    have hwhole : s * (10 : ℚ) ^ (e - j) = ((s * 10 ^ k : ℤ) : ℚ) * (10 : ℚ) ^ (log 10 x - j) := by
      rw [show e - (j : ℤ) = k + (log 10 x - j) by omega, zpow_add₀ hten, zpow_natCast]
      push_cast
      ring
    rw [hwhole] at hreads hd
    rcases le_or_gt (s * 10 ^ k : ℤ) ⌊scaled x j⌋ with hle | hgt
    · refine ⟨_, hmem, readsBack_iff.mpr (nearest_of_between hreads hself hd ?_ hfloor)⟩
      exact mul_le_mul_of_nonneg_right (by exact_mod_cast hle) hunit.le
    · refine ⟨_, hmem', readsBack_iff.mpr (nearest_of_between hself hreads hpos hceil ?_)⟩
      exact mul_le_mul_of_nonneg_right (by exact_mod_cast hgt) hunit.le
  · -- below the power of ten of the number, and so below the floor
    refine ⟨_, hmem, readsBack_iff.mpr (nearest_of_between hreads hself hd ?_ hfloor)⟩
    have hpower : (10 : ℚ) ^ j ≤ ⌊scaled x j⌋ := by
      exact_mod_cast le_floor.mpr (by exact_mod_cast (scaled_mem hpos j).1)
    have hs : (s : ℚ) ≤ (10 : ℚ) ^ (j + 1 : ℤ) := by exact_mod_cast hhigh.le
    calc (s : ℚ) * (10 : ℚ) ^ (e - j) ≤ (10 : ℚ) ^ (j + 1 : ℤ) * (10 : ℚ) ^ (e - j) := by gcongr
      _ = (10 : ℚ) ^ (e + 1) := by
        rw [← zpow_add₀ hten]
        congr 1
        ring
      _ ≤ (10 : ℚ) ^ log 10 x := zpow_le_zpow_right₀ (by norm_num) hexp
      _ = (10 : ℚ) ^ j * (10 : ℚ) ^ (log 10 x - j) := by
        rw [← zpow_natCast, ← zpow_add₀ hten]
        congr 1
        ring
      _ ≤ _ := by gcongr

/-- The digits that are found are no more than those of any neighbour that is read back. -/
theorem length_shortest_le {j : ℕ} {c : ℤ} (hc : c ∈ neighbours x j)
    (hreads : readsBack x j c = true) : (shortest x).1.length ≤ j + 1 := by
  obtain ⟨i, c', hc', hreads', hbefore, hshortest⟩ := shortest_found h hpos
  have hij : i ≤ j := by
    by_contra hlt
    rw [hbefore j (by omega) c hc] at hreads
    cases hreads
  obtain ⟨hlow, hhigh⟩ := neighbours_mem hpos hc'
  rw [hshortest]
  split_ifs with hcarry
  · simp
  · obtain ⟨n, rfl⟩ := eq_ofNat_of_zero_le ((by positivity : (0 : ℤ) ≤ 10 ^ i).trans hlow)
    have hlow' : 10 ^ i ≤ n := by exact_mod_cast hlow
    have hhigh' : n < 10 ^ (i + 1) := by exact_mod_cast lt_of_le_of_ne hhigh hcarry
    change (decimal n).length ≤ j + 1
    rw [length_decimal hlow' hhigh']
    omega

/-- **No decimal of fewer digits** is read as the number. -/
theorem shortest_least {s k : ℕ} {n : ℤ} (hk : 1 ≤ k) (hlow : 10 ^ (k - 1) ≤ s)
    (hhigh : s < 10 ^ k) (hreads : nearest (s * (10 : ℚ) ^ (n - k)) = some x) :
    (shortest x).1.length ≤ k := by
  obtain ⟨j, rfl⟩ := Nat.exists_eq_add_of_le' hk
  have hexp : n - ((j + 1 : ℕ) : ℤ) = n - 1 - j := by
    push_cast
    ring
  rw [hexp] at hreads
  obtain ⟨c, hc, hreads⟩ := exists_neighbour h hpos hlow hhigh hreads
  exact length_shortest_le h hpos hc hreads

/-! ## 17 digits are enough -/

omit h hpos in
theorem roundEven_of_close {n : ℤ} (hclose : |x - n| < 1 / 2) : roundEven x = n := by
  obtain ⟨hlow, hhigh⟩ := abs_lt.mp hclose
  rcases le_or_gt (n : ℚ) x with hle | hlt
  · have hfloor : ⌊x⌋ = n := Int.floor_eq_iff.mpr ⟨hle, by linarith⟩
    rw [roundEven, hfloor, if_pos (by linarith)]
  · have hfloor : ⌊x⌋ = n - 1 := Int.floor_eq_iff.mpr ⟨by push_cast; linarith, by
      push_cast
      linarith⟩
    rw [roundEven, hfloor]
    push_cast
    rw [if_neg (by linarith), if_pos (by linarith)]
    ring

omit h hpos in
/-- A multiple of the last place of `y` that is near enough is what `y` is read as. -/
theorem rounded_of_close {m : ℤ} (hx : x = m * (2 : ℚ) ^ lastPlace y)
    (hclose : |y - x| < (2 : ℚ) ^ lastPlace y / 2) : rounded y = x := by
  have hplace : (0 : ℚ) < (2 : ℚ) ^ lastPlace y := by positivity
  rw [rounded, roundEven_of_close (n := m), ← hx]
  have hdiv : y / (2 : ℚ) ^ lastPlace y - m = (y - x) / (2 : ℚ) ^ lastPlace y := by
    rw [hx]
    field_simp
  rw [hdiv, abs_div, abs_of_pos hplace, div_lt_iff₀ hplace]
  linarith

omit h hpos in
/-- Multiples of a unit are a unit apart. -/
theorem add_unit_le {a b u : ℚ} {m n : ℤ} (ha : a = m * u) (hb : b = n * u) (hu : 0 < u)
    (hlt : a < b) : a + u ≤ b := by
  rw [ha, hb] at hlt ⊢
  have hmn : m + 1 ≤ n := by exact_mod_cast lt_of_mul_lt_mul_right hlt hu.le
  have hcast : (m : ℚ) + 1 ≤ n := by exact_mod_cast hmn
  calc (m : ℚ) * u + u = (m + 1) * u := by ring
    _ ≤ n * u := mul_le_mul_of_nonneg_right hcast hu.le

/-- **What is this close to a number is read as it.** -/
theorem nearest_of_close (hclose : |y - x| < x / 2 ^ 54) : nearest y = some x := by
  obtain ⟨n, hn⟩ := h.exists_places hpos
  have hbig : x < (2 : ℚ) ^ (1024 : ℤ) := by
    obtain ⟨-, -, -, -, -, hlt⟩ := h
    exact hlt
  refine nearest_eq_some_iff.mpr ⟨?_, hbig⟩
  obtain ⟨hlow, hhigh⟩ := abs_lt.mp hclose
  have hlog : (2 : ℚ) ^ log 2 x ≤ x := zpow_log_le_self (b := 2) one_lt_two hpos
  have hlog' : x < (2 : ℚ) ^ (log 2 x + 1) := lt_zpow_succ_log_self (b := 2) one_lt_two x
  have hpos' : (0 : ℚ) < (2 : ℚ) ^ lastPlace x := by positivity
  have hquarter : x / 2 ^ 54 = x / 2 ^ 53 / 2 := by ring
  have hhalf : x / 2 ^ 54 < x / 2 := by
    have hlt : (2 : ℚ) < 2 ^ 54 := by norm_num
    gcongr
  have hy : 0 < y := by linarith
  have hunit : x / 2 ^ 53 < (2 : ℚ) ^ lastPlace x := by
    rw [div_lt_iff₀ (by positivity), ← zpow_natCast, ← zpow_add₀ two_ne_zero]
    refine hlog'.trans_le (zpow_le_zpow_right₀ one_le_two ?_)
    have hle : log 2 x - 52 ≤ lastPlace x := le_max_left _ _
    push_cast
    omega
  have hle : lastPlace x ≤ log 2 x := by
    have hone : (2 : ℚ) ^ lastPlace x ≤ x := by
      have hzero : (0 : ℚ) = ((0 : ℤ) : ℚ) * (2 : ℚ) ^ lastPlace x := by simp
      simpa using add_unit_le hzero hn hpos' hpos
    exact (zpow_le_iff_le_log one_lt_two hpos).mp hone
  have hylog : (2 : ℚ) ^ log 2 y ≤ y := zpow_log_le_self (b := 2) one_lt_two hy
  have hylog' : y < (2 : ℚ) ^ (log 2 y + 1) := lt_zpow_succ_log_self (b := 2) one_lt_two y
  -- no power of two above the number is reached
  have hplaces : lastPlace y ≤ lastPlace x := by
    by_contra hgt
    have hexp : log 2 x + 1 ≤ log 2 y := by
      simp only [lastPlace] at hgt
      omega
    obtain ⟨m, hm⟩ := zpow_places (show lastPlace x ≤ log 2 x + 1 by omega)
    have hgap := add_unit_le hn hm hpos' hlog'
    have hreach : (2 : ℚ) ^ (log 2 x + 1) ≤ y :=
      (zpow_le_zpow_right₀ one_le_two hexp).trans hylog
    linarith
  have hnear : |y - x| < (2 : ℚ) ^ lastPlace y / 2 := by
    rcases le_or_gt (log 2 x) (log 2 y) with hexp | hexp
    · have hsame : lastPlace y = lastPlace x := by
        simp only [lastPlace] at hplaces ⊢
        omega
      rw [hsame]
      linarith
    -- below a power of two, which the number is
    · have hbelow : y < (2 : ℚ) ^ log 2 x :=
        hylog'.trans_le (zpow_le_zpow_right₀ one_le_two (by omega))
      have hpower : x = (2 : ℚ) ^ log 2 x := by
        refine le_antisymm (not_lt.mp fun hlt => ?_) hlog
        obtain ⟨m, hm⟩ := zpow_places hle
        have hgap := add_unit_le hm hn hpos' hlt
        linarith
      have hplace : x / 2 ^ 53 ≤ (2 : ℚ) ^ lastPlace y := by
        have hexp' : log 2 x - 1 ≤ log 2 y := by
          refine (zpow_le_iff_le_log one_lt_two hy).mp ?_
          change (2 : ℚ) ^ (log 2 x - 1) ≤ y
          rw [zpow_sub_one₀ two_ne_zero, ← hpower]
          linarith
        rw [div_le_iff₀ (by positivity), ← zpow_natCast, ← zpow_add₀ two_ne_zero]
        conv_lhs => rw [hpower]
        refine zpow_le_zpow_right₀ one_le_two ?_
        have hle : log 2 y - 52 ≤ lastPlace y := le_max_left _ _
        push_cast
        omega
      linarith
  obtain ⟨k, hk⟩ := eq_ofNat_of_zero_le (sub_nonneg.mpr hplaces)
  refine rounded_of_close (m := n * 2 ^ k) ?_ hnear
  push_cast
  rw [← zpow_natCast, mul_assoc, ← zpow_add₀ two_ne_zero, ← hk, sub_add_cancel]
  exact hn

/-- **17 digits are enough.** -/
theorem shortest_length_le : (shortest x).1.length ≤ 17 := by
  have hunit : (0 : ℚ) < (10 : ℚ) ^ (log 10 x - (16 : ℕ)) := by positivity
  have hscaled : scaled x 16 * (10 : ℚ) ^ (log 10 x - (16 : ℕ)) = x := div_mul_cancel₀ _ hunit.ne'
  have hlog : (10 : ℚ) ^ log 10 x ≤ x := zpow_log_le_self (b := 10) (by norm_num) hpos
  have hround := abs_le.mp (abs_roundEven_sub (scaled x 16))
  refine length_shortest_le h hpos (j := 16) mem_cons_self (readsBack_iff.mpr
    (nearest_of_close h hpos ?_))
  have hdiff : (roundEven (scaled x 16) : ℚ) * (10 : ℚ) ^ (log 10 x - (16 : ℕ)) - x =
      (roundEven (scaled x 16) - scaled x 16) * (10 : ℚ) ^ (log 10 x - (16 : ℕ)) := by
    rw [sub_mul, hscaled]
  rw [hdiff, abs_mul, abs_of_pos hunit]
  calc |(roundEven (scaled x 16) : ℚ) - scaled x 16| * (10 : ℚ) ^ (log 10 x - (16 : ℕ))
      ≤ 1 / 2 * (10 : ℚ) ^ (log 10 x - (16 : ℕ)) :=
        mul_le_mul_of_nonneg_right (abs_roundEven_sub _) hunit.le
    _ = (10 : ℚ) ^ log 10 x * (1 / 2 / 10 ^ 16) := by
      rw [zpow_sub₀ (by norm_num), zpow_natCast]
      ring
    _ ≤ x * (1 / 2 / 10 ^ 16) := mul_le_mul_of_nonneg_right hlog (by norm_num)
    _ < x / 2 ^ 54 := by
      rw [div_eq_mul_one_div x]
      exact mul_lt_mul_of_pos_left (by norm_num) hpos

end

/-! ## The digits of a number are its own -/

section Digits

variable {digits : List ℕ} (hdigits : ∀ d ∈ digits, d < 10)

include hdigits

theorem ofDecimal_lt : ofDecimal digits < 10 ^ digits.length := by
  induction digits with
  | nil => simp [ofDecimal]
  | cons d digits ih =>
    have hd := hdigits d mem_cons_self
    have hlt := ih fun d' hd' => hdigits d' (mem_cons_of_mem d hd')
    rw [ofDecimal_cons, length_cons, pow_succ]
    calc d * 10 ^ digits.length + ofDecimal digits < (d + 1) * 10 ^ digits.length := by
          rw [add_mul, one_mul]
          omega
      _ ≤ 10 * 10 ^ digits.length := Nat.mul_le_mul_right _ hd
      _ = 10 ^ digits.length * 10 := mul_comm _ _

variable (hhead : digits.head? ≠ some 0)

include hhead

theorem le_ofDecimal (hne : digits ≠ []) : 10 ^ (digits.length - 1) ≤ ofDecimal digits := by
  obtain ⟨d, rest, rfl⟩ := exists_cons_of_ne_nil hne
  have hd : 1 ≤ d := Nat.one_le_iff_ne_zero.mpr (by simpa using hhead)
  rw [ofDecimal_cons]
  exact (Nat.le_mul_of_pos_left _ hd).trans (Nat.le_add_right _ _)

/-- **Digits that start with no zero** are those of the number they spell. -/
theorem decimal_ofDecimal : decimal (ofDecimal digits) = digits := by
  have hreverse := ofDecimal_reverse digits.reverse
  rw [reverse_reverse] at hreverse
  rw [decimal, hreverse, digits_ofDigits 10 (by norm_num) _
    (fun d hd => hdigits d (mem_reverse.mp hd)), reverse_reverse]
  intro hne hlast
  rw [getLast_reverse] at hlast
  exact hhead ((head?_eq_some_head _).trans (congrArg some hlast))

end Digits

section

variable (h : Representable x) (hpos : 0 < x)

include h hpos

/-- The exponent of the first digit is that of the number, or one more after a carry. -/
theorem log_le_exponent : log 10 x ≤ (shortest x).2 ∧ (shortest x).2 ≤ log 10 x + 1 := by
  obtain ⟨j, c, -, -, -, hshortest⟩ := shortest_found h hpos
  rw [hshortest]
  split_ifs
  · exact ⟨by simp, le_refl _⟩
  · exact ⟨le_refl _, by simp⟩

theorem exponent_bounds : -1074 ≤ (shortest x).2 ∧ (shortest x).2 ≤ 1024 := by
  obtain ⟨hlow, hhigh⟩ := log_le_exponent h hpos
  have hlog := neg_le_log h hpos
  refine ⟨by omega, ?_⟩
  have hlt : (10 : ℚ) ^ log 10 x < (10 : ℚ) ^ (1024 : ℤ) := by
    have hbig : x < (2 : ℚ) ^ (1024 : ℤ) := by
      obtain ⟨-, -, -, -, -, hlt⟩ := h
      exact hlt
    calc (10 : ℚ) ^ log 10 x ≤ x := zpow_log_le_self (b := 10) (by norm_num) hpos
      _ < (2 : ℚ) ^ (1024 : ℤ) := hbig
      _ ≤ (10 : ℚ) ^ (1024 : ℤ) := zpow_le_zpow_left₀ (by norm_num) (by norm_num) (by norm_num)
  have := (zpow_lt_zpow_iff_right₀ (show (1 : ℚ) < 10 by norm_num)).mp hlt
  omega

end

/-- Whole numbers are apart: none is read as another. -/
theorem natCast_of_nearest {d m : ℕ} (hm : m < 2 ^ 53) (hd : 0 < d)
    (hreads : nearest (d : ℚ) = some (m : ℚ)) : d = m := by
  have hsmall : d < 2 ^ 53 := by
    by_contra hge
    have hpower : (2 : ℚ) ^ (53 : ℤ) ≤ d := by exact_mod_cast not_lt.mp hge
    have hlog : log 2 ((2 : ℚ) ^ (53 : ℤ)) = 53 := log_zpow one_lt_two 53
    have hread : (2 : ℚ) ^ (53 : ℤ) ≤ m := by
      rw [← (nearest_eq_some_iff.mp hreads).1]
      refine (le_rounded le_rfl ?_).trans (rounded_mono (by positivity) hpower)
      rw [lastPlace, hlog]
      norm_num
    have : 2 ^ 53 ≤ m := by exact_mod_cast hread
    omega
  have hself := nearest_of_representable (representable_natCast hsmall) (by exact_mod_cast hd)
  rw [hself] at hreads
  exact_mod_cast Option.some.inj hreads

/-- **The shortest digits of a whole number** below `2 ^ 53` are its own, but for the zeros it ends
with. -/
theorem shortest_whole {m : ℕ} (hm : m < 2 ^ 53) (hpos : 0 < m) :
    ∃ zeros : ℕ, decimal m = (shortest m).1 ++ List.replicate zeros 0 ∧
      (shortest m).2 + 1 = (shortest m).1.length + zeros := by
  have hrep := representable_natCast hm
  have hpos' : (0 : ℚ) < m := by exact_mod_cast hpos
  obtain ⟨digits, exponent, heq, hne, hdigits, hhead, hreads⟩ := shortest_spec hrep hpos'
  have hlog : log 10 (m : ℚ) = Nat.log 10 m := Int.log_natCast 10 m
  have hexponent : (Nat.log 10 m : ℤ) ≤ exponent := by
    rw [← hlog, ← show (shortest m).2 = exponent by rw [heq]]
    exact (log_le_exponent hrep hpos').1
  -- the digits of the number are read as it, so there are no more than these
  have hlength : digits.length ≤ Nat.log 10 m + 1 := by
    rw [← show (shortest m).1 = digits by rw [heq]]
    refine @shortest_least _ hrep hpos' m _ (Nat.log 10 m + 1 : ℕ) (Nat.le_add_left 1 _)
      (Nat.pow_log_le_self 10 hpos.ne') (Nat.lt_pow_succ_log_self (by norm_num) m) ?_
    rw [sub_self, zpow_zero, mul_one]
    exact nearest_of_representable hrep hpos'
  obtain ⟨zeros, hzeros⟩ := eq_ofNat_of_zero_le
    (show 0 ≤ exponent + 1 - digits.length by omega)
  have hvalue : ofDecimal (digits ++ List.replicate zeros 0) = m := by
    refine natCast_of_nearest hm ?_ ?_
    · rw [ofDecimal_append]
      have hfirst : 0 < ofDecimal digits :=
        lt_of_lt_of_le (by positivity) (le_ofDecimal hdigits hhead hne)
      positivity
    · rw [hzeros, zpow_natCast] at hreads
      simpa [ofDecimal_append] using hreads
  have hall : ∀ d ∈ digits ++ List.replicate zeros 0, d < 10 := by
    intro d hd
    rcases mem_append.mp hd with hd | hd
    · exact hdigits d hd
    · rw [eq_of_mem_replicate hd]
      norm_num
  refine ⟨zeros, ?_, by rw [heq]; change exponent + 1 = digits.length + _; omega⟩
  rw [heq, ← hvalue, decimal_ofDecimal hall]
  rwa [head?_append_of_ne_nil _ hne]

end Bronze.Binary64
