import Bronze.Numeric.Ieee
import Bronze.Numeric.Whole

/-!
# The arithmetic of double precision

Sums, products and quotients are the exact ones, rounded; a zero has the sign that the standard
gives it. Of whole numbers up to `2 ^ 53` in magnitude a sum is the whole sum and so is a product,
unless it is a zero of a negative factor, and at the first whole number past `2 ^ 53` the sum is
rounded back.

## Main results

* `add_ofInt`, `sub_ofInt`, `mul_ofInt`, `neg_ofInt`, `le_ofInt_iff`: whole numbers
* `ofInt_settle`, `whole_of_le`: at the bound
* `exists_ofInt`: a double that is its own floor is a whole number
-/

namespace Bronze.Ieee

open Binary64 Int

open BigNum (Double)
open Binary64 (nearest Representable)

/-- The magnitude nearest to a rational that is not negative, none where it is out of range. -/
def nearestMagnitude (x : ℚ) : Option Binary64.Magnitude :=
  if hx : 0 ≤ x then
    match h : nearest x with
    | some y => some ⟨y, Binary64.representable_of_nearest hx h⟩
    | none => none
  else none

/-- The double of a sign and a magnitude that is rounded. -/
def roundMagnitude (negative : Bool) (x : ℚ) : Double :=
  match nearestMagnitude |x| with
  | some d => .finite negative d
  | none => .infinite negative

/-- The double nearest to a rational; zero is positive. -/
def round (x : ℚ) : Double := roundMagnitude (x < 0) x

def zero (negative : Bool) : Double := .finite negative ⟨0, Binary64.representable_zero⟩

/-- The number that a sign and a magnitude stand for. -/
def signedValue (negative : Bool) (d : Binary64.Magnitude) : ℚ :=
  if negative then -d.value else d.value

def neg : Double → Double
  | .nan => .nan
  | .infinite s => .infinite !s
  | .finite s d => .finite (!s) d

/-- `a + b`. A sum that is zero is negative if both operands are. -/
def add : Double → Double → Double
  | .nan, _ => .nan
  | _, .nan => .nan
  | .infinite s, .infinite t => if s = t then .infinite s else .nan
  | .infinite s, .finite _ _ => .infinite s
  | .finite _ _, .infinite t => .infinite t
  | .finite s x, .finite t y =>
    let sum := signedValue s x + signedValue t y
    if sum = 0 then zero (s && t) else round sum

def sub (a b : Double) : Double := add a (neg b)

def mul : Double → Double → Double
  | .nan, _ => .nan
  | _, .nan => .nan
  | .infinite s, .infinite t => .infinite (s ^^ t)
  | .infinite s, .finite t y => if y.value = 0 then .nan else .infinite (s ^^ t)
  | .finite s x, .infinite t => if x.value = 0 then .nan else .infinite (s ^^ t)
  | .finite s x, .finite t y => roundMagnitude (s ^^ t) (x.value * y.value)

def div : Double → Double → Double
  | .nan, _ => .nan
  | _, .nan => .nan
  | .infinite _, .infinite _ => .nan
  | .infinite s, .finite t _ => .infinite (s ^^ t)
  | .finite s _, .infinite t => zero (s ^^ t)
  | .finite s x, .finite t y =>
    if y.value = 0 then (if x.value = 0 then .nan else .infinite (s ^^ t))
    else roundMagnitude (s ^^ t) (x.value / y.value)

/-- `std::floor`. The sign of a zero stays. -/
def floor : Double → Double
  | .finite s x =>
    let below := ⌊signedValue s x⌋
    if below = 0 then zero s else round below
  | d => d

def fabs : Double → Double
  | .nan => .nan
  | .infinite _ => .infinite false
  | .finite _ d => .finite false d

/-- A whole number as a double. -/
def ofInt (n : ℤ) : Double := round n

/-- A whole number that a double has exactly, together with everything below it in magnitude. -/
def Whole53 (n : ℤ) : Prop := -2 ^ 53 ≤ n ∧ n ≤ 2 ^ 53

/-! ## Whole numbers -/

section Whole

variable {m n : ℤ}

theorem nearest_zero : nearest 0 = some 0 := by
  simp [nearest, roundEven]

theorem representable_bound : Representable ((2 ^ 53 : ℕ) : ℚ) := by
  refine ⟨2 ^ 52, 1, by norm_num, by norm_num, by norm_num, ?_⟩
  have hbound : ((2 ^ 53 : ℕ) : ℚ) = (2 : ℚ) ^ (53 : ℤ) := by norm_num
  rw [hbound]
  exact zpow_lt_zpow_right₀ one_lt_two (by norm_num)

theorem nearest_natCast {k : ℕ} (h : k ≤ 2 ^ 53) : nearest k = some (k : ℚ) := by
  rcases Nat.eq_zero_or_pos k with rfl | hpos
  · exact_mod_cast nearest_zero
  · have hrep : Representable (k : ℚ) := by
      rcases h.lt_or_eq with hlt | rfl
      · exact representable_natCast hlt
      · exact representable_bound
    exact nearest_of_representable hrep (by exact_mod_cast hpos)

theorem nearest_abs (h : Whole53 n) : nearest |(n : ℚ)| = some |(n : ℚ)| := by
  have hcast : |(n : ℚ)| = (n.natAbs : ℚ) := by
    simp
  rw [hcast]
  refine nearest_natCast ?_
  unfold Whole53 at h
  omega

theorem representable_abs (h : Whole53 n) : Representable |(n : ℚ)| :=
  representable_of_nearest (abs_nonneg _) (nearest_abs h)

theorem nearestMagnitude_of_nearest {x y : ℚ} (hx : 0 ≤ x) (h : nearest x = some y) :
    nearestMagnitude x = some ⟨y, representable_of_nearest hx h⟩ := by
  unfold nearestMagnitude
  rw [dif_pos hx]
  split
  next z hz =>
    obtain rfl := Option.some.inj (hz.symm.trans h)
    rfl
  next hnone => cases hnone.symm.trans h

theorem roundMagnitude_whole (h : Whole53 n) (negative : Bool) :
    roundMagnitude negative n = .finite negative ⟨|(n : ℚ)|, representable_abs h⟩ := by
  rw [roundMagnitude, nearestMagnitude_of_nearest (abs_nonneg _) (nearest_abs h)]

theorem roundMagnitude_abs (negative : Bool) (x : ℚ) :
    roundMagnitude negative |x| = roundMagnitude negative x := by
  rw [roundMagnitude, abs_abs, roundMagnitude]

theorem ofInt_eq (h : Whole53 n) : ofInt n = .finite (n < 0) ⟨|(n : ℚ)|, representable_abs h⟩ := by
  rw [ofInt, round, roundMagnitude_whole h]
  congr 1
  simp

theorem signedValue_abs (h : Whole53 n) :
    signedValue (n < 0) ⟨|(n : ℚ)|, representable_abs h⟩ = n := by
  unfold signedValue
  by_cases hneg : n < 0
  · have hq : (n : ℚ) < 0 := by exact_mod_cast hneg
    rw [decide_eq_true hneg, if_pos rfl]
    dsimp only
    rw [abs_of_neg hq, neg_neg]
  · have hq : (0 : ℚ) ≤ n := by exact_mod_cast not_lt.mp hneg
    rw [decide_eq_false hneg]
    exact abs_of_nonneg hq

theorem zero_eq : zero false = ofInt 0 := by
  have hzero : Whole53 0 := by unfold Whole53; omega
  rw [ofInt_eq hzero]
  congr 1

/-- **The sum of two whole numbers** is the rounded sum. -/
theorem add_ofInt (hm : Whole53 m) (hn : Whole53 n) : add (ofInt m) (ofInt n) = ofInt (m + n) := by
  rw [ofInt_eq hm, ofInt_eq hn, add, signedValue_abs hm, signedValue_abs hn]
  by_cases hsum : m + n = 0
  · -- not both of them are negative
    have hsign : (decide (m < 0) && decide (n < 0)) = false := by
      rw [Bool.and_eq_false_iff, decide_eq_false_iff_not, decide_eq_false_iff_not]
      omega
    rw [if_pos (by exact_mod_cast hsum), hsign, hsum, zero_eq]
  · rw [if_neg (by exact_mod_cast hsum), ofInt]
    push_cast
    rfl

theorem neg_ofInt (hn : Whole53 n) (hne : n ≠ 0) : neg (ofInt n) = ofInt (-n) := by
  have hopposite : Whole53 (-n) := by unfold Whole53 at *; omega
  rw [ofInt_eq hn, ofInt_eq hopposite, neg]
  congr 1
  · by_cases hneg : n < 0
    · rw [decide_eq_true hneg, decide_eq_false (by omega)]
      rfl
    · rw [decide_eq_false hneg, decide_eq_true (by omega)]
      rfl
  · refine Magnitude.ext ?_
    exact (abs_neg _).symm

/-- **The difference of two whole numbers.** -/
theorem sub_ofInt (hm : Whole53 m) (hn : Whole53 n) : sub (ofInt m) (ofInt n) = ofInt (m - n) := by
  by_cases hzero : n = 0
  · -- the opposite of zero is the other zero, which changes no sum but that of two of them
    subst hzero
    rw [sub, ofInt_eq hm, ofInt_eq hn, neg, add, signedValue_abs hm]
    have hvalue :
        signedValue (!decide ((0 : ℤ) < 0)) ⟨|((0 : ℤ) : ℚ)|, representable_abs hn⟩ = 0 := by
      simp [signedValue]
    rw [hvalue, add_zero, sub_zero]
    by_cases hm0 : m = 0
    · subst hm0
      exact zero_eq
    · rw [if_neg (by exact_mod_cast hm0), ofInt]
  · have hopposite : Whole53 (-n) := by unfold Whole53 at *; omega
    rw [sub, neg_ofInt hn hzero, add_ofInt hm hopposite, sub_eq_add_neg]

theorem add_neg_zero (hn : Whole53 n) (hne : n ≠ 0) : add (neg (ofInt 0)) (ofInt n) = ofInt n := by
  have hzero : Whole53 0 := by
    unfold Whole53
    omega
  rw [ofInt_eq hzero, ofInt_eq hn, neg, add, signedValue_abs hn]
  have hvalue :
      signedValue (!decide ((0 : ℤ) < 0)) ⟨|((0 : ℤ) : ℚ)|, representable_abs hzero⟩ = 0 := by
    simp [signedValue]
  rw [hvalue, zero_add, if_neg (by exact_mod_cast hne), ← ofInt_eq hn, ofInt]

/-- `-n - 1`, where the opposite of zero is the negative zero. -/
theorem sub_neg_one (hn : -2 ^ 53 ≤ n ∧ n < 2 ^ 53) :
    sub (neg (ofInt n)) (ofInt 1) = ofInt (-n - 1) := by
  have hone : Whole53 1 := by
    unfold Whole53
    omega
  by_cases hne : n = 0
  · have hback : Whole53 (-1) := by
      unfold Whole53
      omega
    subst hne
    rw [sub, neg_ofInt hone one_ne_zero, add_neg_zero hback (by norm_num)]
    norm_num
  · have hwhole : Whole53 n := ⟨hn.1, hn.2.le⟩
    have hopposite : Whole53 (-n) := by
      unfold Whole53
      omega
    rw [neg_ofInt hwhole hne, sub_ofInt hopposite hone]

/-- **The product of two whole numbers**, where it is not zero or neither is negative. -/
theorem mul_ofInt (hm : Whole53 m) (hn : Whole53 n)
    (hsign : m * n ≠ 0 ∨ 0 ≤ m ∧ 0 ≤ n) : mul (ofInt m) (ofInt n) = ofInt (m * n) := by
  have hsigns : (decide (m < 0) ^^ decide (n < 0)) = decide (m * n < 0) := by
    have hiff : ∀ p q r, [Decidable p] → [Decidable q] → [Decidable r] →
        (r ↔ (p ∧ ¬q ∨ ¬p ∧ q)) → (decide p ^^ decide q) = decide r := by
      intro p q r _ _ _ h
      by_cases hp : p <;> by_cases hq : q <;> simp [h, hp]
    have hnonzero : m * n ≠ 0 → m ≠ 0 ∧ n ≠ 0 := fun h => ⟨left_ne_zero_of_mul h,
      right_ne_zero_of_mul h⟩
    apply hiff
    rw [mul_neg_iff]
    omega
  have hcast : |(m : ℚ)| * |(n : ℚ)| = |((m * n : ℤ) : ℚ)| := by simp
  have hneg : decide (((m * n : ℤ) : ℚ) < 0) = decide (m * n < 0) := by
    simp only [cast_lt_zero]
  rw [ofInt_eq hm, ofInt_eq hn, mul, hsigns, ofInt, round, hneg, hcast]
  exact roundMagnitude_abs _ _

theorem extended_ofInt (h : Whole53 n) : extended (ofInt n) = some (rational n) := by
  have hvalue := signedValue_abs h
  rw [ofInt_eq h]
  by_cases hneg : n < 0
  · rw [decide_eq_true hneg] at hvalue ⊢
    exact congrArg (fun q => some (rational q)) hvalue
  · rw [decide_eq_false hneg] at hvalue ⊢
    exact congrArg (fun q => some (rational q)) hvalue

section

variable (hm : Whole53 m)

include hm

variable (hn : Whole53 n)

include hn

theorem le_ofInt_iff : le (ofInt m) (ofInt n) = true ↔ m ≤ n := by
  simp [le_iff (extended_ofInt hm) (extended_ofInt hn)]

theorem lt_ofInt_iff : lt (ofInt m) (ofInt n) = true ↔ m < n := by
  simp [lt_iff (extended_ofInt hm) (extended_ofInt hn)]

theorem stdMin_ofInt : stdMin (ofInt m) (ofInt n) = ofInt (min m n) := by
  rw [stdMin]
  simp only [lt_ofInt_iff hn hm]
  split
  next h => rw [min_eq_right h.le]
  next h => rw [min_eq_left (not_lt.mp h)]

theorem stdMax_ofInt : stdMax (ofInt m) (ofInt n) = ofInt (max m n) := by
  rw [stdMax]
  simp only [lt_ofInt_iff hm hn]
  split
  next h => rw [max_eq_right h.le]
  next h => rw [max_eq_left (not_lt.mp h)]

theorem ofInt_injective (h : ofInt m = ofInt n) : m = n := by
  have hle := (le_ofInt_iff hm hn).mp (h ▸ (le_ofInt_iff hm hm).mpr le_rfl)
  have hge := (le_ofInt_iff hn hm).mp (h ▸ (le_ofInt_iff hm hm).mpr le_rfl)
  exact le_antisymm hle hge

end

theorem fabs_ofInt (hn : Whole53 n) : fabs (ofInt n) = ofInt |n| := by
  have habs : Whole53 |n| := ⟨by linarith [abs_nonneg n], abs_le.mpr hn⟩
  rw [ofInt_eq hn, ofInt_eq habs, fabs, decide_eq_false (not_lt.mpr (abs_nonneg n))]
  congr 1
  refine Magnitude.ext ?_
  push_cast
  exact (abs_abs _).symm

theorem representable_scaled (hn : Whole53 n) {k : ℕ} (hk : k ≤ 53) :
    Representable (|(n : ℚ)| / 2 ^ k) := by
  have hcast : |(n : ℚ)| = (n.natAbs : ℚ) := by
    simp
  have hle : n.natAbs ≤ 2 ^ 53 := by
    unfold Whole53 at hn
    omega
  have hlt : |(n : ℚ)| / 2 ^ k < (2 : ℚ) ^ (1024 : ℤ) := by
    have hbound : |(n : ℚ)| ≤ 2 ^ 53 := by
      rw [hcast]
      exact_mod_cast hle
    calc |(n : ℚ)| / 2 ^ k ≤ |(n : ℚ)| := div_le_self (abs_nonneg _) (one_le_pow₀ one_le_two)
      _ ≤ (2 : ℚ) ^ (53 : ℤ) := by exact_mod_cast hbound
      _ < (2 : ℚ) ^ (1024 : ℤ) := zpow_lt_zpow_right₀ one_lt_two (by norm_num)
  rcases hle.lt_or_eq with hsmall | hfull
  · refine ⟨n.natAbs, -k, hsmall, by omega, ?_, hlt⟩
    rw [hcast, zpow_neg, zpow_natCast, div_eq_mul_inv]
  · refine ⟨2 ^ 52, 1 - k, by norm_num, by omega, ?_, hlt⟩
    rw [hcast, hfull, zpow_sub₀ two_ne_zero, zpow_natCast]
    ring

/-- The quotient of two numbers that are finite, where it is one of double precision. -/
theorem div_finite {s t : Bool} {x y : Magnitude} (hy : y.value ≠ 0)
    (h : Representable (x.value / y.value)) :
    div (.finite s x) (.finite t y) = .finite (s ^^ t) ⟨x.value / y.value, h⟩ := by
  have hnearest : nearest (x.value / y.value) = some (x.value / y.value) := by
    rcases h.nonneg.eq_or_lt with hzero | hpos
    · rw [← hzero]
      exact nearest_zero
    · exact nearest_of_representable h hpos
  show (if y.value = 0 then (if x.value = 0 then .nan else .infinite (s ^^ t))
    else roundMagnitude (s ^^ t) (x.value / y.value)) = _
  have hnearest := nearestMagnitude_of_nearest (abs_nonneg _) (by rwa [abs_of_nonneg h.nonneg])
  simp [hy, roundMagnitude, hnearest]

theorem floor_ofInt (hn : Whole53 n) : floor (ofInt n) = ofInt n := by
  rw [ofInt_eq hn, floor, signedValue_abs hn, floor_intCast, ← ofInt_eq hn]
  by_cases hzero : n = 0
  · rw [hzero, ← zero_eq]
    rfl
  · rw [if_neg hzero, ofInt]

/-- **The floor of a quotient by a power of two.** -/
theorem floor_div_ofInt (hn : Whole53 n) {k : ℕ} (hk : k ≤ 53) :
    floor (div (ofInt n) (ofInt (2 ^ k))) = ofInt (n / 2 ^ k) := by
  have hpow : (1 : ℤ) ≤ 2 ^ k := one_le_pow₀ (by norm_num)
  have hpow' : (2 : ℤ) ^ k ≤ 2 ^ 53 := pow_le_pow_right₀ (by norm_num) hk
  have hdivisor : Whole53 (2 ^ k) := ⟨by omega, hpow'⟩
  have hscale : |((2 ^ k : ℤ) : ℚ)| = 2 ^ k := by
    push_cast
    exact abs_of_pos (by positivity)
  have hdivides : |((2 ^ k : ℤ) : ℚ)| ≠ 0 := by
    positivity
  have hrep : Representable (|(n : ℚ)| / |((2 ^ k : ℤ) : ℚ)|) := by
    rw [hscale]
    exact representable_scaled hn hk
  have hquotient : div (ofInt n) (ofInt (2 ^ k)) =
      .finite (n < 0) ⟨|(n : ℚ)| / |((2 ^ k : ℤ) : ℚ)|, hrep⟩ := by
    have hpositive : decide ((2 : ℤ) ^ k < 0) = false := decide_eq_false (by omega)
    rw [ofInt_eq hn, ofInt_eq hdivisor, hpositive, div_finite hdivides hrep, Bool.xor_false]
  have hvalue : signedValue (n < 0) ⟨|(n : ℚ)| / |((2 ^ k : ℤ) : ℚ)|, hrep⟩ =
      (n : ℚ) / ((2 ^ k : ℕ) : ℚ) := by
    have hsigned := signedValue_abs hn
    unfold signedValue at hsigned ⊢
    dsimp only at hsigned ⊢
    rw [hscale]
    push_cast
    split
    next hneg =>
      rw [if_pos hneg] at hsigned
      rw [← neg_div, hsigned]
    next hneg =>
      rw [if_neg hneg] at hsigned
      rw [hsigned]
  have hfloor : ⌊(n : ℚ) / ((2 ^ k : ℕ) : ℚ)⌋ = n / 2 ^ k := by
    rw [Rat.floor_intCast_div_natCast]
    rfl
  rw [hquotient, floor, hvalue, hfloor, ofInt]
  by_cases hzero : n / 2 ^ k = 0
  · -- the quotient of a negative number is not zero
    have hnonneg : ¬n < 0 := fun hneg => (ediv_neg_of_neg_of_pos hneg (by omega)).ne hzero
    rw [if_pos hzero, decide_eq_false hnonneg, hzero, zero_eq, ofInt]
  · rw [if_neg hzero]

end Whole

/-! ## At the bound -/

section Bound

variable {n : ℤ} {k : ℕ} {y : ℚ}

theorem lastPlace_past (hk : 2 ^ 53 ≤ k) :
    lastPlace k = log 2 (k : ℚ) - 52 ∧ 53 ≤ log 2 (k : ℚ) ∧
      (2 : ℚ) ^ log 2 (k : ℚ) ≤ k := by
  have hkq : (2 : ℚ) ^ 53 ≤ k := by exact_mod_cast hk
  have hpos : (0 : ℚ) < k := by positivity
  have hlow : (2 : ℚ) ^ (-1022 : ℤ) ≤ k := by
    calc (2 : ℚ) ^ (-1022 : ℤ) ≤ (2 : ℚ) ^ (53 : ℤ) := zpow_le_zpow_right₀ one_le_two (by norm_num)
      _ ≤ k := by exact_mod_cast hkq
  refine ⟨(lastPlace_le hpos hlow).1, ?_, ?_⟩
  · rw [← zpow_le_iff_le_log one_lt_two hpos]
    exact_mod_cast hkq
  · exact_mod_cast zpow_log_le_self (b := 2) Nat.one_lt_two hpos

/-- A whole number past the first one past the bound is not rounded back to it. -/
theorem le_nearest (hk : 2 ^ 53 + 2 ≤ k) (h : nearest k = some y) : 2 ^ 53 + 2 ≤ y := by
  obtain ⟨hplace, hlog, hself⟩ := lastPlace_past (by omega : 2 ^ 53 ≤ k)
  rw [nearest] at h
  split at h
  next =>
    obtain rfl := Option.some.inj h
    have hround : (⌊(k : ℚ) / 2 ^ lastPlace k⌋ : ℚ) ≤
        roundEven ((k : ℚ) / 2 ^ lastPlace k) := by
      exact_mod_cast floor_le_roundEven _
    refine (?_ : (2 : ℚ) ^ 53 + 2 ≤ _).trans (mul_le_mul_of_nonneg_right hround (by positivity))
    rcases hlog.eq_or_lt with hone | hmore
    · -- every other whole number is one of double precision
      have hunit : lastPlace k = 1 := by omega
      have hhalf : ((2 ^ 52 + 1 : ℤ) : ℚ) ≤ (k : ℚ) / 2 := by
        have : ((2 ^ 53 + 2 : ℕ) : ℚ) ≤ k := by exact_mod_cast hk
        push_cast at this ⊢
        linarith
      have hfloor : ((2 ^ 52 + 1 : ℤ) : ℚ) ≤ ⌊(k : ℚ) / 2⌋ := by
        exact_mod_cast le_floor.mpr hhalf
      rw [hunit]
      linarith
    · have hunit : (0 : ℚ) < (2 : ℚ) ^ lastPlace k := by positivity
      have hsplit : ((2 ^ 52 : ℤ) : ℚ) * (2 : ℚ) ^ lastPlace k =
          (2 : ℚ) ^ log 2 (k : ℚ) := by
        rw [hplace, zpow_sub₀ two_ne_zero]
        push_cast
        field_simp
      have hfloor : ((2 ^ 52 : ℤ) : ℚ) ≤ ⌊(k : ℚ) / 2 ^ lastPlace k⌋ := by
        have hle : ((2 ^ 52 : ℤ) : ℚ) ≤ (k : ℚ) / 2 ^ lastPlace k := by
          rw [le_div_iff₀ hunit, hsplit]
          exact hself
        exact_mod_cast le_floor.mpr hle
      calc (2 : ℚ) ^ 53 + 2 ≤ (2 : ℚ) ^ (54 : ℤ) := by norm_num
        _ ≤ (2 : ℚ) ^ log 2 (k : ℚ) := zpow_le_zpow_right₀ one_le_two hmore
        _ = ((2 ^ 52 : ℤ) : ℚ) * (2 : ℚ) ^ lastPlace k := hsplit.symm
        _ ≤ _ := mul_le_mul_of_nonneg_right hfloor hunit.le
  next => cases h

theorem nearest_bound : nearest ((2 ^ 53 + 1 : ℕ) : ℚ) = some ((2 ^ 53 : ℕ) : ℚ) := by
  obtain ⟨hplace, hlog, hself⟩ := lastPlace_past (by norm_num : 2 ^ 53 ≤ 2 ^ 53 + 1)
  have hlog' : log 2 ((2 ^ 53 + 1 : ℕ) : ℚ) < 54 := by
    rw [← lt_zpow_iff_log_lt one_lt_two (by positivity)]
    norm_num
  have hunit : lastPlace ((2 ^ 53 + 1 : ℕ) : ℚ) = 1 := by omega
  have hfloor : ⌊((2 ^ 53 + 1 : ℕ) : ℚ) / 2⌋ = 2 ^ 52 := by
    rw [floor_eq_iff]
    constructor <;> norm_num
  have heven : roundEven (((2 ^ 53 + 1 : ℕ) : ℚ) / 2) = 2 ^ 52 := by
    rw [roundEven, hfloor, if_neg (by norm_num), if_neg (by norm_num),
      if_pos (by norm_num)]
  have hback : ((2 ^ 52 : ℤ) : ℚ) * 2 = ((2 ^ 53 : ℕ) : ℚ) := by norm_num
  have hfits : ((2 ^ 53 : ℕ) : ℚ) < (2 : ℚ) ^ (1024 : ℤ) := by
    have hcast : ((2 ^ 53 : ℕ) : ℚ) = (2 : ℚ) ^ (53 : ℤ) := by norm_num
    rw [hcast]
    exact zpow_lt_zpow_right₀ one_lt_two (by norm_num)
  rw [nearest, hunit, zpow_one, heven, hback, if_pos hfits]

/-- A whole number, brought back to the bound if it is past it. -/
def settle (n : ℤ) : ℤ := max (-2 ^ 53) (min n (2 ^ 53))

theorem whole_settle (n : ℤ) : Whole53 (settle n) := by
  unfold Whole53 settle
  omega

theorem settle_of_whole (h : Whole53 n) : settle n = n := by
  unfold Whole53 settle at *
  omega

theorem settle_mono {m : ℤ} (h : m ≤ n) : settle m ≤ settle n := by
  unfold settle
  omega

/-- **The first whole numbers past the bound are rounded back to it.** -/
theorem ofInt_settle (hlow : -2 ^ 53 - 1 ≤ n) (hhigh : n ≤ 2 ^ 53 + 1) :
    ofInt n = ofInt (settle n) := by
  by_cases hwhole : Whole53 n
  · rw [settle_of_whole hwhole]
  · have hbound : |(n : ℚ)| = ((2 ^ 53 + 1 : ℕ) : ℚ) ∧
        |((settle n : ℤ) : ℚ)| = ((2 ^ 53 : ℕ) : ℚ) ∧ (n < 0 ↔ settle n < 0) := by
      unfold Whole53 at hwhole
      have hcases : n = 2 ^ 53 + 1 ∨ n = -2 ^ 53 - 1 := by omega
      rcases hcases with rfl | rfl <;> norm_num [settle]
    obtain ⟨habs, hback, hsign⟩ := hbound
    have hsign' : decide ((n : ℚ) < 0) = decide (((settle n : ℤ) : ℚ) < 0) := by
      simp [hsign]
    have hreturn := nearest_abs (whole_settle n)
    rw [hback] at hreturn
    have hsame : nearestMagnitude |(n : ℚ)| = nearestMagnitude |((settle n : ℤ) : ℚ)| := by
      rw [habs, hback, nearestMagnitude_of_nearest (Nat.cast_nonneg _) nearest_bound,
        nearestMagnitude_of_nearest (Nat.cast_nonneg _) hreturn]
    rw [ofInt, ofInt, round, round, hsign', roundMagnitude, roundMagnitude, hsame]

theorem extended_roundMagnitude (hk : 2 ^ 53 + 2 ≤ k) (negative : Bool) :
    ∃ y, extended (roundMagnitude negative k) = some y ∧
      (negative = false → rational (2 ^ 53) < y) ∧ (negative = true → y < rational (-2 ^ 53)) := by
  rw [roundMagnitude, abs_of_nonneg (Nat.cast_nonneg k)]
  rcases hnearest : nearest (k : ℚ) with _ | y
  · have hnone : nearestMagnitude (k : ℚ) = none := by
      unfold nearestMagnitude
      rw [dif_pos (Nat.cast_nonneg k)]
      split
      next z hz => cases hnearest.symm.trans hz
      next => rfl
    rw [hnone]
    cases negative with
    | false =>
      refine ⟨_, rfl, fun _ => ?_, nofun⟩
      exact WithBot.coe_lt_coe.mpr (WithTop.coe_lt_top _)
    | true =>
      refine ⟨_, rfl, nofun, fun _ => ?_⟩
      exact WithBot.bot_lt_coe _
  · have hfar := le_nearest hk hnearest
    rw [nearestMagnitude_of_nearest (Nat.cast_nonneg k) hnearest]
    cases negative with
    | false =>
      refine ⟨_, rfl, fun _ => ?_, nofun⟩
      rw [rational_lt]
      linarith
    | true =>
      refine ⟨_, rfl, nofun, fun _ => ?_⟩
      rw [rational_lt]
      linarith

theorem whole_bound : Whole53 (2 ^ 53) ∧ Whole53 (-2 ^ 53) := by
  unfold Whole53
  omega

/-- **A whole number that is rounded to no more than the bound** is at most one past it. -/
theorem whole_of_le (h : le (ofInt n) (ofInt (2 ^ 53)) = true) : n ≤ 2 ^ 53 + 1 := by
  by_contra hfar
  have hcast : (n : ℚ) = (n.toNat : ℚ) := by exact_mod_cast (toNat_of_nonneg (by omega)).symm
  have hsign : decide ((n : ℚ) < 0) = false := by
    rw [hcast]
    exact decide_eq_false (not_lt.mpr (Nat.cast_nonneg _))
  obtain ⟨y, hy, hpast, -⟩ := extended_roundMagnitude (by omega : 2 ^ 53 + 2 ≤ n.toNat) false
  rw [ofInt, round, hsign, hcast, le_iff hy (extended_ofInt whole_bound.1)] at h
  refine absurd (hpast rfl) (not_lt.mpr ?_)
  exact_mod_cast h

theorem roundMagnitude_ne_nan (negative : Bool) (x : ℚ) : roundMagnitude negative x ≠ .nan := by
  unfold roundMagnitude
  split <;> exact nofun

theorem ofInt_ne_nan (n : ℤ) : ofInt n ≠ .nan := roundMagnitude_ne_nan _ _

theorem whole_of_ge (h : le (ofInt (-2 ^ 53)) (ofInt n) = true) : -2 ^ 53 - 1 ≤ n := by
  by_contra hfar
  have hcast : |(n : ℚ)| = ((-n).toNat : ℚ) := by
    have hneg : (n : ℚ) < 0 := by exact_mod_cast (by omega : n < 0)
    rw [abs_of_neg hneg]
    exact_mod_cast (toNat_of_nonneg (by omega)).symm
  have hsign : decide ((n : ℚ) < 0) = true := by
    have : n < 0 := by omega
    exact decide_eq_true (by exact_mod_cast this)
  obtain ⟨y, hy, -, hpast⟩ := extended_roundMagnitude (by omega : 2 ^ 53 + 2 ≤ (-n).toNat) true
  rw [ofInt, ofInt, round, round, hsign, ← roundMagnitude_abs true, hcast, ← round, ← ofInt,
    le_iff (extended_ofInt whole_bound.2) hy] at h
  refine absurd (hpast rfl) (not_lt.mpr ?_)
  exact_mod_cast h

theorem le_of_not_lt {a b : Double} (ha : a ≠ .nan) (hb : b ≠ .nan) (h : lt b a = false) :
    le a b = true := by
  obtain ⟨x, hx⟩ := exists_extended ha
  obtain ⟨y, hy⟩ := exists_extended hb
  rw [le_iff hx hy]
  by_contra hlt
  rw [(lt_iff hy hx).mpr (not_le.mp hlt)] at h
  cases h

/-- **A double that is its own floor** is a whole number, if it is in the bound. -/
theorem exists_ofInt {d : Magnitude}
    (hfloor : eq (.finite false d) (floor (.finite false d)) = true)
    (hbound : lt (ofInt (2 ^ 53)) (.finite false d) = false) :
    ∃ n, 0 ≤ n ∧ n ≤ 2 ^ 53 ∧ (.finite false d : Double) = ofInt n := by
  have hnumber : (.finite false d : Double) ≠ .nan := nofun
  have hle := le_of_not_lt hnumber (ofInt_ne_nan _) hbound
  rw [le_iff rfl (extended_ofInt whole_bound.1), rational_le] at hle
  have hnonneg := d.representable.nonneg
  have hlow : 0 ≤ ⌊d.value⌋ := floor_nonneg.mpr hnonneg
  have hhigh : ⌊d.value⌋ ≤ 2 ^ 53 := by
    have := (floor_le d.value).trans hle
    exact_mod_cast this
  have hwhole : Whole53 ⌊d.value⌋ := ⟨by omega, hhigh⟩
  have hsame : floor (.finite false d) = ofInt ⌊d.value⌋ := by
    show (if ⌊d.value⌋ = 0 then zero false else round ⌊d.value⌋) = _
    split
    next hzero => rw [hzero, zero_eq]
    next => rfl
  rw [hsame, eq, Bool.and_eq_true, le_iff rfl (extended_ofInt hwhole),
    le_iff (extended_ofInt hwhole) rfl, rational_le, rational_le] at hfloor
  have hvalue : d.value = ⌊d.value⌋ := le_antisymm hfloor.1 hfloor.2
  refine ⟨⌊d.value⌋, hlow, hhigh, ?_⟩
  rw [ofInt_eq hwhole, decide_eq_false (not_lt.mpr hlow)]
  congr 1
  refine Magnitude.ext ?_
  calc d.value = ⌊d.value⌋ := hvalue
    _ = |(⌊d.value⌋ : ℚ)| := (abs_of_nonneg (by exact_mod_cast hlow)).symm

end Bound

end Bronze.Ieee
