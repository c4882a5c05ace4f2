import Bronze.BigNum.Power
import Bronze.Numeric.Binary64

/-!
# Values and numbers of double precision

`toDouble` takes the top 54 bits and rounds to nearest, ties to even; `compareWithDouble` compares
with no rounding at all. A number of double precision is the rational it denotes, so `trunc`, `modf`
and `frexp` are exact here.

## Main results

* `fromDoubleExact_spec`: a whole number is converted exactly
* `compareWithDouble_eq`: the sign of the difference
* `toDouble_nearest`: the nearest multiple of the last place
* `double_crossing_iff`: both are exact up to the length at which the exponent is cut to an `int`
-/

namespace Bronze.BigNum

open Binary64 (Representable roundEven)
open List Nat Option Binary64 Except

/-! ## The operations -/

inductive Double where
  | nan
  | infinite (negative : Bool)
  | finite (negative : Bool) (magnitude : Binary64.Magnitude)

/-- The part of `fromDoubleExact` that shifts the mantissa. -/
def shiftMantissa (mag : Magnitude) (shift : Int) : Except Fault Magnitude :=
  if 0 < shift then shiftLeftBits mag shift.toNat
  else if shift < 0 then .ok (shiftRightBits mag (-shift).toNat).1
  else .ok mag

/-- `BigNum::fromDoubleExact`; `none` is the answer false. -/
def fromDoubleExact : Double → Except Fault (Option BigNum)
  | .nan => .ok none
  | .infinite _ => .ok none
  | .finite negative d =>
    if d.value ≠ ⌊d.value⌋ then .ok none
    else if d.value = 0 then .ok (some {})
    else do
      -- `frexp`: the fraction is at least one half and below one
      let exponent := Int.log 2 d.value + 1
      let fraction := d.value / (2 : ℚ) ^ exponent
      let mantissa := UInt64.ofNat ⌊fraction * 2 ^ 53⌋.toNat
      let mag ← shiftMantissa (fromUint64 mantissa).mag (exponent - 53)
      return some (trim { mag, negative })

def sign (a : BigNum) : Int := if a.mag.isEmpty then 0 else if a.negative then -1 else 1

def kUnordered : Int := 2

theorem representable_floor {x : ℚ} (h : Representable x) : Representable ⌊x⌋ := by
  obtain ⟨M, E, hM, -, hx, -⟩ := id h
  rcases Int.le_total 0 E with hpos | hneg
  · -- a whole number already
    obtain ⟨k, rfl⟩ := Int.eq_ofNat_of_zero_le hpos
    have hwhole : x = ((M * 2 ^ k : ℕ) : ℤ) := by
      rw [hx]
      push_cast
      simp
    have hfloor : ((⌊x⌋ : ℤ) : ℚ) = x := by
      conv_lhs => rw [hwhole, Int.floor_intCast]
      rw [hwhole]
    rwa [hfloor]
  · have hle : x ≤ M := by
      rw [hx]
      exact mul_le_of_le_one_right (cast_nonneg M) (zpow_le_one_of_nonpos₀ one_le_two hneg)
    have hnonneg : 0 ≤ x := by
      rw [hx]
      positivity
    obtain ⟨n, hn⟩ := Int.eq_ofNat_of_zero_le (Int.floor_nonneg.mpr hnonneg)
    rw [hn]
    apply representable_natCast
    have hfloor : (⌊x⌋ : ℚ) ≤ M := (Int.floor_le x).trans hle
    rw [hn] at hfloor
    have : n ≤ M := by exact_mod_cast hfloor
    omega

/-- The integral part that `modf` stores. -/
def integral (d : Binary64.Magnitude) : Binary64.Magnitude :=
  ⟨⌊d.value⌋, representable_floor d.representable⟩

def compareWithDouble (a : BigNum) : Double → Except Fault Int
  | .nan => .ok kUnordered
  | .infinite negative => .ok (if negative then 1 else -1)
  | .finite negative d =>
    let aSign := a.sign
    let dSign := if d.value = 0 then 0 else if negative then -1 else 1
    if aSign ≠ dSign then .ok (if aSign < dSign then -1 else 1)
    else if aSign = 0 then .ok 0
    else do
      match ← fromDoubleExact (.finite false (integral d)) with
      | none => return kUnordered
      | some truncated =>
        let order := compareMagnitude a.mag truncated.mag
        -- equal integral parts and a fraction: the double is the larger magnitude
        let order := if order = 0 ∧ d.value ≠ ⌊d.value⌋ then -1 else order
        return if aSign < 0 then -order else order

/-- The double that `ldexp(significand, exponent)` is, with a sign. -/
structure Scaled where
  negative : Bool
  significand : Nat
  exponent : Int
  deriving DecidableEq, Repr

/-- An `int` intermediate, at its exact value. -/
def i32 (n : Int) : Except Fault Int :=
  if -2 ^ 31 ≤ n ∧ n < 2 ^ 31 then .ok n else .error .overflow

/-- The rounding of `toDouble`: the significand of the top 54 bits, and whether a carry goes into
the exponent. -/
def roundTop (value : Nat) (sticky : Bool) : Nat × Nat :=
  let roundBit := value &&& 1
  let value := value >>> 1
  if roundBit ≠ 0 ∧ (sticky = true ∨ value &&& 1 ≠ 0) then
    if value + 1 = 1 <<< 53 then ((value + 1) >>> 1, 1) else (value + 1, 0)
  else (value, 0)

/-- The exponent of `toDouble`: the cast to `int` keeps the low 32 bits. -/
def roundExponent (bits carry : Nat) : Except Fault Int := do
  let exponent ← i32 (Int.bmod bits (2 ^ 32) - 53)
  i32 (exponent + carry)

def toDouble (a : BigNum) : Except Fault Scaled :=
  if a.mag.isEmpty then .ok { negative := false, significand := 0, exponent := 0 }
  else
    let bits := a.bitLength
    if bits ≤ 53 then
      .ok { negative := a.negative, significand := a.magnitudeToUint64.getD 0, exponent := 0 }
    else
      let (top, sticky) := shiftRightBits a.mag (bits - 54)
      let (significand, carry) := roundTop (limb top 0 ||| limb top 1 <<< 32) sticky
      do
        let exponent ← roundExponent bits carry
        return { negative := a.negative, significand, exponent }

section Whole

variable {d : Binary64.Magnitude}

theorem exists_mantissa (hwhole : d.value = ⌊d.value⌋) (hpos : 0 < d.value) :
    ∃ n, n < 2 ^ 53 ∧
      ⌊d.value / (2 : ℚ) ^ (Int.log 2 d.value + 1) * 2 ^ 53⌋.toNat = n ∧
      d.value = n * (2 : ℚ) ^ (Int.log 2 d.value + 1 - 53) := by
  have htwo : (2 : ℚ) ≠ 0 := two_ne_zero
  obtain ⟨k, hk⟩ := d.representable.exists_places hpos
  have hone : 1 ≤ d.value := by
    rw [hwhole] at hpos ⊢
    have : 0 < ⌊d.value⌋ := by exact_mod_cast hpos
    exact_mod_cast this
  have hlog : 0 ≤ Int.log 2 d.value := by
    rw [← Int.zpow_le_iff_le_log one_lt_two hpos]
    simpa using hone
  -- the last place of what is at least one is above the smallest
  have hplace : lastPlace d.value = Int.log 2 d.value + 1 - 53 := by
    unfold lastPlace
    omega
  rw [hplace] at hk
  have hscale : (0 : ℚ) < (2 : ℚ) ^ (Int.log 2 d.value + 1 - 53) := by positivity
  have hdiv : d.value / (2 : ℚ) ^ (Int.log 2 d.value + 1 - 53) = k := (div_eq_iff hscale.ne').mpr hk
  have hmantissa : d.value / (2 : ℚ) ^ (Int.log 2 d.value + 1) * 2 ^ 53 = k := by
    have hsplit : (2 : ℚ) ^ (Int.log 2 d.value + 1 - 53) =
        (2 : ℚ) ^ (Int.log 2 d.value + 1) / 2 ^ 53 := by
      rw [zpow_sub₀ htwo]
      rfl
    rw [← hdiv, hsplit]
    field_simp
  have hkpos : 0 < k := by
    have : (0 : ℚ) < k := by
      rw [← hdiv]
      positivity
    exact_mod_cast this
  obtain ⟨n, rfl⟩ := Int.eq_ofNat_of_zero_le hkpos.le
  refine ⟨n, ?_, ?_, by exact_mod_cast hk⟩
  · have hlt := places_lt d.value
    rw [hplace, hdiv] at hlt
    exact_mod_cast hlt
  · simp [hmantissa]

theorem shiftMantissa_spec (mag : Magnitude) (shift : Int) (hwhole : (value mag : ℚ) * 2 ^ shift =
    ⌊(value mag : ℚ) * 2 ^ shift⌋) : ∃ out, shiftMantissa mag shift = .ok out ∧
      (value out : ℚ) = value mag * 2 ^ shift := by
  unfold shiftMantissa
  rcases Int.lt_trichotomy 0 shift with hpos | rfl | hneg
  · obtain ⟨k, rfl⟩ := Int.eq_ofNat_of_zero_le hpos.le
    rw [if_pos hpos]
    obtain ⟨out, hrun, -, hvalue⟩ := shiftLeftBits_spec mag k
    refine ⟨out, hrun, ?_⟩
    rw [hvalue]
    push_cast
    rfl
  · exact ⟨mag, rfl, by simp⟩
  · obtain ⟨k, hk⟩ := Int.eq_ofNat_of_zero_le (show 0 ≤ -shift by omega)
    obtain rfl : shift = -k := by omega
    rw [if_neg (by omega), if_pos hneg, Int.neg_neg, Int.toNat_natCast]
    obtain ⟨-, hvalue, -⟩ := shiftRightBits_spec mag k
    refine ⟨_, rfl, ?_⟩
    -- nothing is lost, since the number is whole
    have hdiv : (value mag : ℚ) * 2 ^ (-(k : Int)) = (value mag : ℚ) / (2 ^ k : ℕ) := by
      rw [zpow_neg]
      push_cast
      rfl
    rw [hdiv, Rat.floor_natCast_div_natCast] at hwhole
    rw [hvalue, hdiv, hwhole]
    rfl

/-- **A whole number** is converted exactly. -/
theorem fromDoubleExact_spec (negative : Bool) (hwhole : d.value = ⌊d.value⌋) :
    ∃ c, fromDoubleExact (.finite negative d) = .ok (some c) ∧ c.Canonical ∧
      (value c.mag : ℚ) = d.value := by
  unfold fromDoubleExact
  dsimp only
  rw [if_neg (not_not.mpr hwhole)]
  by_cases hzero : d.value = 0
  · rw [if_pos hzero]
    exact ⟨{}, rfl, canonical_zero, by rw [hzero]; rfl⟩
  rw [if_neg hzero]
  have hpos : 0 < d.value := lt_of_le_of_ne d.representable.nonneg (Ne.symm hzero)
  obtain ⟨n, hlt, hmantissa, hvalue⟩ := exists_mantissa hwhole hpos
  have hn : value (fromUint64 (UInt64.ofNat n)).mag = n := by
    rw [← natAbs_toInt, (fromUint64_spec _).2]
    exact mod_eq_of_lt (by omega)
  obtain ⟨out, hrun, hout⟩ := shiftMantissa_spec (fromUint64 (UInt64.ofNat n)).mag
    (Int.log 2 d.value + 1 - 53) (by rw [hn, ← hvalue]; exact hwhole)
  rw [hn, ← hvalue] at hout
  refine ⟨trim { mag := out, negative }, ?_, canonical_trim _, ?_⟩
  · rw [hmantissa, hrun]
    rfl
  · change (value (popZeros out) : ℚ) = d.value
    rw [value_popZeros, hout]

end Whole

section Comparison

variable {a : BigNum}

theorem sign_eq (ha : a.Canonical) : a.sign = a.toInt.sign := by
  unfold sign
  by_cases hnil : a.mag = []
  · rw [(toInt_eq_zero ha).mpr hnil, hnil]
    rfl
  · have hne : a.toInt ≠ 0 := fun hzero => hnil ((toInt_eq_zero ha).mp hzero)
    have hsign := toInt_neg_iff ha
    rw [if_neg (by simpa using hnil)]
    split
    · next hneg => rw [Int.sign_eq_neg_one_of_neg (hsign.mpr hneg)]
    · next hneg =>
      rw [← hsign] at hneg
      rw [Int.sign_eq_one_of_pos (by omega)]

/-- The rational that a finite number denotes. -/
def ofFinite (negative : Bool) (d : Binary64.Magnitude) : ℚ :=
  if negative then -d.value else d.value

theorem order_floor (m : Nat) (x : ℚ) (n : Nat) (hn : (n : ℚ) = ⌊x⌋) :
    (if order m n = 0 ∧ x ≠ ⌊x⌋ then -1 else order m n) =
      ((SignType.sign ((m : ℚ) - x) : SignType) : Int) := by
  have hle : (n : ℚ) ≤ x := by
    rw [hn]
    exact Int.floor_le x
  have hlt : x < n + 1 := by
    rw [hn]
    exact Int.lt_floor_add_one x
  rcases lt_trichotomy m n with h | rfl | h
  · have hmn : (m : ℚ) < n := by exact_mod_cast h
    rw [order_of_lt (by exact_mod_cast h), sign_neg (by linarith)]
    rfl
  · rw [order_self]
    by_cases hwhole : x = ⌊x⌋
    · rw [if_neg (fun h => h.2 hwhole), hn, ← hwhole, sub_self]
      rfl
    · rw [if_pos ⟨rfl, hwhole⟩, sign_neg]
      · rfl
      · rw [sub_neg]
        refine lt_of_le_of_ne hle fun h => hwhole ?_
        rw [← hn]
        exact h.symm
  · have hmn : (n : ℚ) + 1 ≤ m := by exact_mod_cast h
    rw [order_of_gt (by exact_mod_cast h), sign_pos (by linarith)]
    rfl

/-- The sign of a finite number, as `compareWithDouble` takes it. -/
theorem ofFinite_sign (negative : Bool) (d : Binary64.Magnitude) :
    (if d.value = 0 then (0 : Int) else if negative then -1 else 1) =
      ((SignType.sign (ofFinite negative d) : SignType) : Int) := by
  have hnonneg := d.representable.nonneg
  unfold ofFinite
  by_cases hzero : d.value = 0
  · rw [hzero, neg_zero, ite_self]
    rfl
  have hpos : 0 < d.value := lt_of_le_of_ne hnonneg (Ne.symm hzero)
  rw [if_neg hzero]
  split
  · rw [sign_neg (by linarith)]
    rfl
  · rw [sign_pos hpos]
    rfl

/-- The part of `compareWithDouble` that compares magnitudes. -/
theorem compareFloor_eq (ha : Trimmed a.mag) (d : Binary64.Magnitude) :
    ∃ c, fromDoubleExact (.finite false (integral d)) = .ok (some c) ∧
      (if compareMagnitude a.mag c.mag = 0 ∧ d.value ≠ ⌊d.value⌋ then -1
        else compareMagnitude a.mag c.mag) =
        ((SignType.sign ((value a.mag : ℚ) - d.value) : SignType) : Int) := by
  have hinteg : (integral d).value = ⌊(integral d).value⌋ := by
    change ((⌊d.value⌋ : ℤ) : ℚ) = ((⌊((⌊d.value⌋ : ℤ) : ℚ)⌋ : ℤ) : ℚ)
    simp
  obtain ⟨c, hrun, hc, hvalue⟩ := fromDoubleExact_spec false hinteg
  refine ⟨c, hrun, ?_⟩
  rw [compareMagnitude_eq ha hc.trimmed]
  exact order_floor (value a.mag) d.value (value c.mag) hvalue

/-- **`compareWithDouble`** is the sign of the difference, for every finite number. -/
theorem compareWithDouble_eq (ha : a.Canonical) (negative : Bool) (d : Binary64.Magnitude) :
    compareWithDouble a (.finite negative d) =
      .ok ((SignType.sign ((a.toInt : ℚ) - ofFinite negative d) : SignType) : Int) := by
  obtain ⟨c, hrun, horder⟩ := compareFloor_eq ha.trimmed d
  have hsign := ofFinite_sign negative d
  have habs : (a.toInt.natAbs : ℚ) = value a.mag := by rw [natAbs_toInt]
  unfold compareWithDouble
  dsimp only
  rw [sign_eq ha, hsign]
  set v := ofFinite negative d with hv
  have hx : d.value = |v| := by
    rw [hv, ofFinite]
    split
    · rw [abs_neg, abs_of_nonneg d.representable.nonneg]
    · rw [abs_of_nonneg d.representable.nonneg]
  rw [hrun]
  rcases lt_trichotomy a.toInt 0 with hA | hA | hA
  · have hAq : (a.toInt : ℚ) < 0 := by exact_mod_cast hA
    rw [Int.sign_eq_neg_one_of_neg hA]
    rcases lt_trichotomy v 0 with hv0 | hv0 | hv0
    · -- both negative: the magnitudes compare the other way
      have hmag : (value a.mag : ℚ) = -a.toInt := by
        rw [← habs, cast_natAbs, abs_of_neg hA]
        rfl
      rw [hmag, hx, abs_of_neg hv0] at horder
      have hflip : ((SignType.sign ((a.toInt : ℚ) - v) : SignType) : Int) =
          -((SignType.sign (-(a.toInt : ℚ) - -v) : SignType) : Int) := by
        rw [← neg_sub' , Left.sign_neg]
        simp
      rw [sign_neg hv0, hflip, ← horder, hx, abs_of_neg hv0]
      rfl
    · rw [hv0, sub_zero, sign_neg hAq]
      rfl
    · rw [sign_pos hv0, sign_neg (show (a.toInt : ℚ) - v < 0 by linarith)]
      rfl
  · rw [hA, Int.cast_zero, zero_sub, Left.sign_neg]
    rcases lt_trichotomy v 0 with hv0 | hv0 | hv0
    · rw [sign_neg hv0]
      rfl
    · rw [hv0]
      rfl
    · rw [sign_pos hv0]
      rfl
  · have hAq : (0 : ℚ) < a.toInt := by exact_mod_cast hA
    rw [Int.sign_eq_one_of_pos hA]
    rcases lt_trichotomy v 0 with hv0 | hv0 | hv0
    · rw [sign_neg hv0, sign_pos (show 0 < (a.toInt : ℚ) - v by linarith)]
      rfl
    · rw [hv0, sub_zero, sign_pos hAq]
      rfl
    · have hmag : (value a.mag : ℚ) = a.toInt := by
        rw [← habs, cast_natAbs, abs_of_pos hA]
      rw [hmag, hx, abs_of_pos hv0] at horder
      rw [sign_pos hv0, ← horder, hx, abs_of_pos hv0]
      rfl

end Comparison

/-! ## Rounding -/

section Rounding

variable {a : BigNum}

theorem roundEven_div (m j : Nat) :
    roundEven ((m : ℚ) / 2 ^ (j + 1)) = (m / 2 ^ j / 2 +
      if m / 2 ^ j % 2 = 1 ∧ (m % 2 ^ j ≠ 0 ∨ m / 2 ^ j / 2 % 2 = 1) then 1 else 0 : Nat) := by
  have hpow : (0 : ℚ) < 2 ^ j := by positivity
  have hfloor : ⌊(m : ℚ) / 2 ^ (j + 1)⌋ = (m / 2 ^ j / 2 : Nat) := by
    have hcast : (m : ℚ) / 2 ^ (j + 1) = (m : ℚ) / (2 ^ (j + 1) : ℕ) := by push_cast; rfl
    rw [hcast, Rat.floor_natCast_div_natCast, Nat.div_div_eq_div_mul]
    rfl
  have hlt : m % 2 ^ j < 2 ^ j := Nat.mod_lt _ (Nat.two_pow_pos j)
  have hltq : ((m % 2 ^ j : Nat) : ℚ) < 2 ^ j := by exact_mod_cast hlt
  have htwice : 2 * ((m : ℚ) / 2 ^ (j + 1) - (m / 2 ^ j / 2 : Nat)) =
      (m / 2 ^ j % 2 : Nat) + ((m % 2 ^ j : Nat) : ℚ) / 2 ^ j := by
    have hlow : (m : ℚ) = (m % 2 ^ j : Nat) + 2 ^ j * (m / 2 ^ j : Nat) := by
      exact_mod_cast (mod_add_div m (2 ^ j)).symm
    have hhigh : ((m / 2 ^ j : Nat) : ℚ) = (m / 2 ^ j % 2 : Nat) + 2 * (m / 2 ^ j / 2 : Nat) := by
      exact_mod_cast (mod_add_div (m / 2 ^ j) 2).symm
    field_simp
    rw [hlow, hhigh]
    ring
  unfold roundEven
  rw [hfloor, Int.cast_natCast, htwice]
  rcases mod_two_eq_zero_or_one (m / 2 ^ j) with hbit | hbit
  · have hless : ((m % 2 ^ j : Nat) : ℚ) / 2 ^ j < 1 := (div_lt_one hpow).mpr hltq
    simp [hbit, hless]
  · rw [hbit, cast_one]
    have hnonneg : (0 : ℚ) ≤ ((m % 2 ^ j : Nat) : ℚ) / 2 ^ j := by positivity
    rw [if_neg (by linarith)]
    by_cases hrest : m % 2 ^ j = 0
    · -- a tie
      rw [hrest, cast_zero, zero_div, add_zero, if_neg (lt_irrefl _)]
      rcases mod_two_eq_zero_or_one (m / 2 ^ j / 2) with hodd | hodd
      · rw [if_pos (by omega), if_neg (by omega), add_zero]
      · rw [if_neg (by omega), if_pos ⟨rfl, .inr hodd⟩]
        rfl
    · have hmore : (1 : ℚ) < 1 + ((m % 2 ^ j : Nat) : ℚ) / 2 ^ j := by
        have : (0 : ℚ) < ((m % 2 ^ j : Nat) : ℚ) / 2 ^ j := by positivity
        linarith
      rw [if_pos hmore, if_pos ⟨rfl, .inl hrest⟩]
      rfl

/-- Two limbs make up a value below `2 ^ 64`. -/
theorem limbs_or_eq {top : Magnitude} (htop : Trimmed top) (hlt : value top < 2 ^ 64) :
    limb top 0 ||| limb top 1 <<< 32 = value top := by
  have hcanon : Canonical { mag := top } := ⟨htop, fun _ => rfl⟩
  have hread := magnitudeToUint64_eq_none hcanon
  cases h : magnitudeToUint64 { mag := top } with
  | none => exact absurd (hread.mp h) (not_le.mpr hlt)
  | some n =>
    have hvalue := magnitudeToUint64_eq_some h
    unfold magnitudeToUint64 at h
    split at h
    · cases h
    · rw [some.inj h, hvalue]

theorem ok_bind {α β : Type} (x : α) (f : α → Except Fault β) : (ok x >>= f) = f x := rfl

/-- The exponent of a length that fits an `int`. -/
theorem roundExponent_eq {j carry : Nat} (hj : j + 54 < 2 ^ 31) (hcarry : carry ≤ 1) :
    roundExponent (j + 54) carry = .ok ((j + 1 + carry : Nat) : Int) := by
  have hbmod : Int.bmod ((j + 54 : Nat) : Int) (2 ^ 32) = (j + 54 : Nat) := by
    rw [Int.bmod_eq_of_le] <;> omega
  have heq : ((j + 54 : Nat) : Int) - 53 = (j + 1 : Nat) := by omega
  have hfirst : i32 ((j + 1 : Nat) : Int) = .ok ((j + 1 : Nat) : Int) := if_pos (by omega)
  have hlast : i32 ((j + 1 + carry : Nat) : Int) = .ok ((j + 1 + carry : Nat) : Int) :=
    if_pos (by omega)
  have hsum : ((j + 1 : Nat) : Int) + carry = (j + 1 + carry : Nat) := by omega
  unfold roundExponent
  rw [hbmod, heq, hfirst, ok_bind, hsum, hlast]

/-- **The rounding** of 54 bits. -/
theorem roundTop_spec {sticky : Bool} {j m : Nat} (hlow : 2 ^ 53 ≤ m / 2 ^ j)
    (hhigh : m / 2 ^ j < 2 ^ 54) (hsticky : sticky = true ↔ m % 2 ^ j ≠ 0) :
    ∃ significand carry, roundTop (m / 2 ^ j) sticky = (significand, carry) ∧
      significand < 2 ^ 53 ∧ carry ≤ 1 ∧
      (significand : ℚ) * 2 ^ (j + 1 + carry) =
        roundEven ((m : ℚ) / 2 ^ (j + 1)) * 2 ^ (j + 1) := by
  rw [roundEven_div]
  set t := m / 2 ^ j with ht
  have hguard : (t % 2 ≠ 0 ∧ (sticky = true ∨ t / 2 % 2 ≠ 0)) ↔
      (t % 2 = 1 ∧ (m % 2 ^ j ≠ 0 ∨ t / 2 % 2 = 1)) := by
    rw [hsticky]
    omega
  have hshift : 1 <<< 53 = 2 ^ 53 := rfl
  unfold roundTop
  dsimp only
  rw [hshift, and_one_is_mod, and_one_is_mod, shiftRight_eq_div_pow]
  by_cases hup : t % 2 ≠ 0 ∧ (sticky = true ∨ t / 2 % 2 ≠ 0)
  · rw [if_pos hup, if_pos (hguard.mp hup)]
    by_cases hcarry : t / 2 + 1 = 2 ^ 53
    · -- the carry goes into the exponent
      have hhalf : (2 ^ 53 >>> 1 : Nat) = 2 ^ 52 := by decide
      rw [hcarry]
      refine ⟨2 ^ 52, 1, rfl, by omega, le_rfl, ?_⟩
      ring
    · rw [if_neg hcarry]
      exact ⟨t / 2 + 1, 0, rfl, by omega, by omega, rfl⟩
  · rw [if_neg hup, if_neg (fun h => hup (hguard.mpr h))]
    exact ⟨t / 2, 0, rfl, by omega, by omega, rfl⟩

/-- The significand and the exponent denote the multiple of `2 ^ (bits - 53)` nearest to the value,
ties to even, and the significand is one of double precision. -/
def ToDoubleNearest (a : BigNum) : Prop :=
  ∃ s, toDouble a = .ok s ∧ (s.negative = true ↔ a.toInt < 0) ∧ s.significand < 2 ^ 53 ∧
    (s.significand : ℚ) * (2 : ℚ) ^ s.exponent =
      roundEven ((a.toInt.natAbs : ℚ) / 2 ^ (bits a.toInt - 53)) * 2 ^ (bits a.toInt - 53)

/-- **`toDouble`** rounds a value whose length fits an `int`. -/
theorem toDouble_nearest (ha : a.Canonical) (hbits : bits a.toInt < 2 ^ 31) :
    ToDoubleNearest a := by
  have hsign := toInt_neg_iff ha
  unfold ToDoubleNearest toDouble
  by_cases hnil : a.mag = []
  · have hzero : a.toInt = 0 := (toInt_eq_zero ha).mpr hnil
    have hround : roundEven 0 = 0 := by simpa using roundEven_intCast 0
    rw [hnil, hzero]
    refine ⟨_, rfl, by simp, by decide, ?_⟩
    change ((0 : Nat) : ℚ) * (2 : ℚ) ^ (0 : Int) =
      roundEven (((0 : Nat) : ℚ) / 2 ^ (0 : Nat)) * 2 ^ (0 : Nat)
    rw [cast_zero, zero_div, hround]
    simp
  rw [if_neg (by simpa using hnil), bitLength_eq_bits ha, natAbs_toInt]
  have hsize : bits a.toInt % 2 ^ 64 = bits a.toInt := mod_eq_of_lt (by omega)
  have hlow : 2 ^ (bits a.toInt - 1) ≤ value a.mag := by
    have hne : a.toInt ≠ 0 := fun hzero => hnil ((toInt_eq_zero ha).mp hzero)
    have hpos := bits_pos hne
    rw [← natAbs_toInt, ← lt_size]
    change bits a.toInt - 1 < bits a.toInt
    omega
  have hhigh : value a.mag < 2 ^ bits a.toInt := by
    rw [← natAbs_toInt]
    exact lt_size_self _
  rw [hsize]
  dsimp only
  split
  · next hshort =>
    -- at most 53 bits: the value itself
    have hfits : value a.mag < 2 ^ 53 := hhigh.trans_le (Nat.pow_le_pow_right (by decide) hshort)
    have hread : a.magnitudeToUint64.getD 0 = value a.mag := by
      have hnone := magnitudeToUint64_eq_none ha
      cases h : a.magnitudeToUint64 with
      | none => exact absurd (hnone.mp h) (by omega)
      | some n => exact magnitudeToUint64_eq_some h
    have hk : bits a.toInt - 53 = 0 := by omega
    refine ⟨_, rfl, hsign.symm, by rwa [hread], ?_⟩
    rw [hread, hk, pow_zero, div_one, mul_one, zpow_zero, mul_one]
    have := roundEven_intCast (value a.mag)
    rw [Int.cast_natCast] at this
    rw [this, Int.cast_natCast]
  · next hlong =>
    obtain ⟨j, hj⟩ : ∃ j, bits a.toInt = j + 54 := ⟨bits a.toInt - 54, by omega⟩
    have hdrop : j + 54 - 54 = j := by omega
    have hplace : j + 54 - 53 = j + 1 := by omega
    rw [hj] at hbits hlow hhigh ⊢
    rw [hdrop]
    obtain ⟨htrimmed, hvalue, hsticky⟩ := shiftRightBits_spec a.mag j
    generalize shiftRightBits a.mag j = pair at htrimmed hvalue hsticky ⊢
    obtain ⟨top, sticky⟩ := pair
    have htop : 2 ^ 53 ≤ value a.mag / 2 ^ j := by
      rw [Nat.le_div_iff_mul_le (Nat.two_pow_pos j), ← pow_add]
      exact (Nat.pow_le_pow_right (by decide) (by omega)).trans hlow
    have htoplt : value a.mag / 2 ^ j < 2 ^ 54 := by
      rw [Nat.div_lt_iff_lt_mul (Nat.two_pow_pos j), ← pow_add, Nat.add_comm]
      exact hhigh
    obtain ⟨significand, carry, hround, hsignificand, hcarry, heq⟩ :=
      roundTop_spec htop htoplt hsticky
    rw [limbs_or_eq htrimmed (by omega), hvalue, hround]
    rw [roundExponent_eq hbits hcarry]
    refine ⟨⟨a.negative, significand, (j + 1 + carry : Nat)⟩, rfl, hsign.symm, hsignificand, ?_⟩
    exact heq

/-- An exponent that is made without a fault is below the low 32 bits of the length, as an `int`. -/
theorem roundExponent_le {bits carry : Nat} {e : Int} (hcarry : carry ≤ 1)
    (h : roundExponent bits carry = .ok e) : e ≤ Int.bmod bits (2 ^ 32) - 52 := by
  unfold roundExponent at h
  unfold i32 at h
  split at h
  · rw [ok_bind] at h
    split at h
    · have := ok.inj h
      omega
    · cases h
  · cases h

theorem roundTop_carry (value : Nat) (sticky : Bool) : (roundTop value sticky).2 ≤ 1 := by
  unfold roundTop
  dsimp only
  split_ifs <;> simp

theorem two_pow_le_nearest {x : Int} (hbits : 53 ≤ bits x) :
    (2 : ℚ) ^ (bits x - 1) ≤
      roundEven ((x.natAbs : ℚ) / 2 ^ (bits x - 53)) * 2 ^ (bits x - 53) := by
  have hlow : 2 ^ (bits x - 1) ≤ x.natAbs := by
    rw [← lt_size]
    change bits x - 1 < bits x
    omega
  generalize x.natAbs = m at hlow ⊢
  have hscale : (0 : ℚ) < 2 ^ (bits x - 53) := by positivity
  obtain ⟨p, hp⟩ : ∃ p, p * 2 ^ (bits x - 53) = 2 ^ (bits x - 1) := by
    refine ⟨2 ^ 52, ?_⟩
    rw [← pow_add]
    congr 1
    omega
  have hfloor : ((p : Int) : ℚ) ≤ (m : ℚ) / 2 ^ (bits x - 53) := by
    rw [le_div_iff₀ hscale]
    exact_mod_cast hp.trans_le hlow
  have hround : ((p : Int) : ℚ) ≤ roundEven ((m : ℚ) / 2 ^ (bits x - 53)) := by
    exact_mod_cast (Int.le_floor.mpr hfloor).trans (floor_le_roundEven _)
  calc (2 : ℚ) ^ (bits x - 1) = ((p : Int) : ℚ) * 2 ^ (bits x - 53) := by exact_mod_cast hp.symm
    _ ≤ _ := mul_le_mul_of_nonneg_right hround hscale.le

/-- An exponent that is made is the low 32 bits of the length, as an `int`, or none. -/
theorem toDouble_exponent_le {s : Scaled} (hne : a.mag ≠ []) (h : toDouble a = .ok s) :
    s.exponent ≤ max 0 (Int.bmod a.bitLength (2 ^ 32) - 52) := by
  unfold toDouble at h
  rw [if_neg (by simpa using hne)] at h
  dsimp only at h
  split at h
  · obtain rfl := ok.inj h
    exact le_max_left ..
  · generalize shiftRightBits a.mag (a.bitLength - 54) = pair at h
    obtain ⟨top, sticky⟩ := pair
    have hcarry := roundTop_carry (limb top 0 ||| limb top 1 <<< 32) sticky
    generalize roundTop (limb top 0 ||| limb top 1 <<< 32) sticky = rounded at h hcarry
    obtain ⟨significand, carry⟩ := rounded
    cases hexponent : roundExponent a.bitLength carry with
    | error e =>
      rw [hexponent] at h
      cases h
    | ok e =>
      rw [hexponent] at h
      obtain rfl := ok.inj h
      exact (roundExponent_le hcarry hexponent).trans (le_max_right ..)

theorem not_toDoubleNearest (ha : a.Canonical) (hbits : 2 ^ 31 ≤ bits a.toInt) :
    ¬ ToDoubleNearest a := by
  rintro ⟨s, hrun, -, hsignificand, heq⟩
  have hne : a.mag ≠ [] := by
    intro hnil
    have hzero : bits a.toInt = 0 := by
      rw [(toInt_eq_zero ha).mpr hnil]
      rfl
    omega
  have hexponent := toDouble_exponent_le hne hrun
  have hlow := two_pow_le_nearest (show 53 ≤ bits a.toInt by omega)
  rw [← heq] at hlow
  have hhigh : (s.significand : ℚ) * (2 : ℚ) ^ s.exponent < (2 : ℚ) ^ (53 + s.exponent) := by
    rw [zpow_add₀ two_ne_zero]
    have hsig : (s.significand : ℚ) < (2 : ℚ) ^ (53 : Int) := by exact_mod_cast hsignificand
    exact mul_lt_mul_of_pos_right hsig (by positivity)
  have hlt := hlow.trans_lt hhigh
  rw [← zpow_natCast, zpow_lt_zpow_iff_right₀ one_lt_two] at hlt
  rw [bitLength_eq_bits ha] at hexponent
  have hbmod := @Int.bmod_lt ((bits a.toInt % 2 ^ 64 : Nat) : Int) (2 ^ 32) (by decide)
  -- the cast is negative at `2 ^ 31` itself, and below it everywhere
  rcases lt_or_ge (bits a.toInt) (2 ^ 31 + 1) with hlast | hmore
  · obtain hexact : bits a.toInt = 2 ^ 31 := by omega
    rw [hexact] at hexponent hlt
    have hneg : Int.bmod ((2 ^ 31 % 2 ^ 64 : Nat) : Int) (2 ^ 32) = -2 ^ 31 := by decide
    omega
  · omega

/-- **Both crossings are exact** up to the length at which the exponent is cut to an `int`, and
`toDouble` is wrong from there on. -/
theorem double_crossing_iff (ha : a.Canonical) :
    (ToDoubleNearest a ∧ ∀ negative d, compareWithDouble a (.finite negative d) =
      .ok ((SignType.sign ((a.toInt : ℚ) - ofFinite negative d) : SignType) : Int)) ↔
      bits a.toInt < 2 ^ 31 := by
  refine ⟨fun h => ?_, fun h => ⟨toDouble_nearest ha h, compareWithDouble_eq ha⟩⟩
  by_contra hge
  exact not_toDoubleNearest ha (not_lt.mp hge) h.1

/-- `2 ^ 60 + 1`, which is not a number of double precision. -/
theorem double_crossing_rounds :
    ToDoubleNearest { mag := [1, 0x10000000] } ∧
      compareWithDouble { mag := [1, 0x10000000] }
        (.finite false ⟨0, representable_zero⟩) =
        .ok ((SignType.sign (((toInt { mag := [1, 0x10000000] } : Int) : ℚ) -
          ofFinite false ⟨0, representable_zero⟩) : SignType) : Int) := by
  have ha : Canonical { mag := [1, 0x10000000] } := ⟨by simp [Trimmed], nofun⟩
  have hbits : bits (toInt { mag := [1, 0x10000000] }) < 2 ^ 31 :=
    (size_le.mpr (by decide : _ < 2 ^ 61)).trans_lt (by decide)
  obtain ⟨hround, hcompare⟩ := (double_crossing_iff ha).mpr hbits
  exact ⟨hround, hcompare false _⟩

/-- `2 ^ (32 * n + 4)` -/
def sixteenAbove (n : Nat) : BigNum := { mag := replicate n 0 ++ [16] }

theorem sixteenAbove_spec (n : Nat) :
    (sixteenAbove n).Canonical ∧ 32 * n < bits (sixteenAbove n).toInt := by
  refine ⟨⟨fun x hx => ?_, fun hnil => rfl⟩, ?_⟩
  · have hlast : (sixteenAbove n).mag.getLast? = some 16 := by simp [sixteenAbove]
    rw [hlast] at hx
    obtain rfl := some.inj hx
    decide
  · change 32 * n < (sixteenAbove n).toInt.natAbs.size
    rw [lt_size]
    change _ ≤ value (replicate n 0 ++ [16])
    rw [value_append, length_replicate, value_cons, value_nil, kBase, ← pow_mul]
    have hsixteen : UInt32.toNat 16 + 2 ^ 32 * 0 = 16 := rfl
    rw [hsixteen]
    omega

/-- `2 ^ (2 ^ 31 + 100)` is handed to `ldexp` with a negative exponent. -/
theorem double_crossing_cut : ¬ ToDoubleNearest (sixteenAbove (2 ^ 26 + 3)) := by
  obtain ⟨hcanon, hbits⟩ := sixteenAbove_spec (2 ^ 26 + 3)
  exact not_toDoubleNearest hcanon (by omega)

end Rounding

end Bronze.BigNum
