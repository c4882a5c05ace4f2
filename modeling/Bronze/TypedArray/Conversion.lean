import Bronze.Numeric.Arithmetic
import Bronze.Numeric.Binary16

/-!
# The conversions of typed-array elements

A store to a typed array converts a double to the kind of its elements: an integer modulo `2 ^ w`,
an integer that saturates, or the bits of a half. The integer kinds go through a machine cast below
`2 ^ 53` and through `fmod` above; a half is rounded in units of its last place, with a scale for
the subnormals and a carry into the exponent.

## Main definitions

* `convertForStore`: the double that an element is left with
* `doubleToFloat16Bits`, `float16BitsToDouble`: the bits of a half
* `residue`, `clamped`, `Stored`: what the standard asks for

## Main results

* `toIntegerModulo_eq`: both routes give the residue
* `toUint8Clamp_eq`: the nearest integer of a byte, ties to even
* `stored_half`: the bits are those of the nearest half
* `convertForStore_exact`: every kind
-/

namespace Bronze.TypedArray

open Ieee
open BigNum (Double)
open Binary64 (Representable roundEven)
open Binary16 (Nearest unitOf)

/-! ## The mathematical library -/

/-- `std::isnan`. -/
def isNaN : Double → Bool
  | .nan => true
  | _ => false

/-- `std::isinf`. -/
def isInf : Double → Bool
  | .infinite _ => true
  | _ => false

/-- `std::signbit`. -/
def signbit : Double → Bool
  | .nan => false
  | .infinite s => s
  | .finite s _ => s

/-- `std::trunc`. -/
def trunc : Double → Double
  | .finite s d => .finite s (BigNum.integral d)
  | d => d

/-- The integral part as an integer, which is what a cast to an integer type takes. -/
def truncate : Double → ℤ
  | .finite s d => if s then -⌊d.value⌋ else ⌊d.value⌋
  | _ => 0

/-- `std::fmod`, of the sign of the first. -/
def fmod : Double → Double → Double
  | .finite s x, .finite _ y =>
    if y.value = 0 then .nan else roundMagnitude s (x.value - ⌊x.value / y.value⌋ * y.value)
  | .finite s x, .infinite _ => .finite s x
  | _, _ => .nan

/-- `std::nearbyint`: ties to even. -/
def nearbyint : Double → Double
  | .finite s d => roundMagnitude s (roundEven d.value)
  | d => d

/-- `std::ldexp`. -/
def ldexp : Double → ℤ → Double
  | .finite s d, e => roundMagnitude s (d.value * (2 : ℚ) ^ e)
  | d, _ => d

/-- The exponent of `std::frexp`, of a fraction in `[0.5, 1)`. -/
def frexp : Double → ℤ
  | .finite _ d => if d.value = 0 then 0 else Int.log 2 d.value + 1
  | _ => 0

/-! ## The integer kinds -/

/-- `toIntegerModulo`: the cast below `2 ^ 53`, the remainder above. -/
def toIntegerModulo (number : Double) (bits : ℕ) (isSigned : Bool) : Double :=
  if above (-9007199254740992) number && below 9007199254740992 number then
    let u : BitVec 32 := (BitVec.ofInt 64 (truncate number)).setWidth 32
    if bits = 8 then
      ofInt (if isSigned then (u.setWidth 8).toInt else (u.setWidth 8).toNat)
    else if bits = 16 then
      ofInt (if isSigned then (u.setWidth 16).toInt else (u.setWidth 16).toNat)
    else ofInt (if isSigned then u.toInt else u.toNat)
  else if isFinite number = false then zero false
  else
    let modulus := ofInt (2 ^ bits)
    let m := fmod (trunc number) modulus
    let m := if lt m (zero false) then add m modulus else m
    if eq m (zero false) then zero false
    else if isSigned && le (div modulus (ofInt 2)) m then sub m modulus
    else m

/-- `0.5`. -/
def half : Double := div (ofInt 1) (ofInt 2)

/-- `toUint8Clamp`: a comparison with the floor and one half more. -/
def toUint8Clamp (number : Double) : Double :=
  if isNaN number then zero false
  else if atMost 0 number then zero false
  else if atLeast 255 number then ofInt 255
  else
    let f := floor number
    if lt (add f half) number then add f (ofInt 1)
    else if lt number (add f half) then f
    else if eq (fmod f (ofInt 2)) (zero false) then f
    else add f (ofInt 1)

/-! ## Halves -/

/-- `2 ^ -14`. -/
def kMinNormal : ℚ := 6103515625 / 10 ^ 14

/-- The sign bit of a half. -/
def signField (negative : Bool) : ℕ := if negative then 0x8000 else 0

/-- `halfBitsOf`: the bits of a double as a half. -/
def halfBitsOf (value : Double) : UInt16 :=
  if isNaN value then 0x7E00
  else
    let sign := signField (signbit value)
    let a := fabs value
    if isInf a then .ofNat (sign ||| 0x7C00)
    else if eq a (zero false) then .ofNat sign
    else if below kMinNormal a then
      let scaled := mul a (ofInt 16777216)
      let q := (truncate (nearbyint scaled)).toNat
      if 1024 ≤ q then .ofNat (sign ||| 0x0400) else .ofNat (sign ||| q)
    else
      let e := frexp a
      let halfExponent := e - 1 + 15
      let quantum := ldexp (ofInt 1) (e - 1 - 10)
      let q := (truncate (nearbyint (div a quantum))).toNat
      -- the round may have carried into the exponent
      let (q, halfExponent) := if q = 2048 then (1024, halfExponent + 1) else (q, halfExponent)
      if 31 ≤ halfExponent then .ofNat (sign ||| 0x7C00)
      else .ofNat (sign ||| halfExponent.toNat <<< 10 ||| (q - 1024))

/-- `doubleOfHalfBits`: the three fields put together. -/
def doubleOfHalfBits (bits : UInt16) : Double :=
  let negative : Bool := bits &&& 0x8000 ≠ 0
  let exponent := (bits >>> 10 &&& 0x1F).toNat
  let mantissa := (bits &&& 0x3FF).toNat
  let v :=
    if exponent = 0 then ldexp (ofInt mantissa) (-24)
    else if exponent = 31 then (if mantissa ≠ 0 then .nan else .infinite false)
    else ldexp (add (ofInt 1024) (ofInt mantissa)) (exponent - 25)
  if negative then neg v else v

def doubleToFloat16Bits (value : Double) : UInt16 := halfBitsOf value

def float16BitsToDouble (bits : UInt16) : Double := doubleOfHalfBits bits

/-! ## Every kind -/

/-- `enum class ElementKind`. -/
inductive ElementKind
  | int8
  | uint8
  | uint8Clamped
  | int16
  | uint16
  | int32
  | uint32
  | float32
  | float64
  | float16
  | bigInt64
  | bigUint64
  | count

/-- The cast to `float`, and back. -/
def toFloat32 : Double → Double
  | .finite s d =>
    let place := (2 : ℚ) ^ max (Int.log 2 d.value - 23) (-149)
    let y := roundEven (d.value / place) * place
    if y < 2 ^ 128 then roundMagnitude s y else .infinite s
  | d => d

/-- The double that an element is left with; a kind of no doubles ends the program. -/
def convertForStore : ElementKind → Double → Option Double
  | .int8, value => some (toIntegerModulo value 8 true)
  | .uint8, value => some (toIntegerModulo value 8 false)
  | .uint8Clamped, value => some (toUint8Clamp value)
  | .int16, value => some (toIntegerModulo value 16 true)
  | .uint16, value => some (toIntegerModulo value 16 false)
  | .int32, value => some (toIntegerModulo value 32 true)
  | .uint32, value => some (toIntegerModulo value 32 false)
  | .float32, value => some (toFloat32 value)
  | .float64, value => some value
  | .float16, value => some (doubleOfHalfBits (halfBitsOf value))
  | .bigInt64, _ | .bigUint64, _ | .count, _ => none

/-! ## What the standard asks for -/

/-- `ToInt8` to `ToUint32`: the truncated number modulo `2 ^ bits`, from `-2 ^ (bits - 1)` on if it
is signed; NaN and the infinities are zero. -/
def residue (bits : ℕ) (isSigned : Bool) (number : Double) : ℤ :=
  let int := truncate number % 2 ^ bits
  if isSigned ∧ 2 ^ (bits - 1) ≤ int then int - 2 ^ bits else int

/-- `ToUint8Clamp`: the nearest integer to the number, cut to a byte, of two the even one. -/
def clamped : Double → ℤ
  | .nan => 0
  | .infinite negative => if negative then 0 else 255
  | .finite s d => roundEven (max 0 (min 255 (signedValue s d)))

/-- The bits of a half, of its sign and the pattern of its magnitude. -/
def halfBits (negative : Bool) (n : ℕ) : UInt16 := .ofNat (signField negative + n)

/-- A double, the bits of the half it is rounded to, and the double that these are read as. -/
inductive Stored : Double → UInt16 → Double → Prop
  | nan : Stored .nan 0x7E00 .nan
  | infinite {s : Bool} : Stored (.infinite s) (halfBits s Binary16.infinity) (.infinite s)
  | overflow {s : Bool} {d : Binary64.Magnitude} : 65520 ≤ d.value →
      Stored (.finite s d) (halfBits s Binary16.infinity) (.infinite s)
  | finite {s : Bool} {d m : Binary64.Magnitude} {n : ℕ} : d.value < 65520 → Nearest d.value n →
      m.value = Binary16.value n → Stored (.finite s d) (halfBits s n) (.finite s m)

/-! ## Numbers of double precision -/

section Exact

variable {x : ℚ} {s t : Bool}

/-- What is of double precision already is not rounded. -/
theorem roundMagnitude_exact (h : Representable x) : roundMagnitude s x = .finite s ⟨x, h⟩ := by
  have hnearest : Binary64.nearest x = some x := by
    rcases h.nonneg.eq_or_lt with hzero | hpos
    · rw [← hzero]
      exact nearest_zero
    · exact Binary64.nearest_of_representable h hpos
  rw [roundMagnitude, abs_of_nonneg h.nonneg, nearestMagnitude_of_nearest h.nonneg hnearest]

theorem representable_units {m : ℕ} {e : ℤ} (hm : m < 2 ^ 53) (hlow : -1074 ≤ e) (hhigh : e ≤ 971) :
    Representable (m * (2 : ℚ) ^ e) := by
  refine ⟨m, e, hm, hlow, rfl, ?_⟩
  have hcast : (m : ℚ) < (2 : ℚ) ^ (53 : ℤ) := by exact_mod_cast hm
  calc (m : ℚ) * (2 : ℚ) ^ e < (2 : ℚ) ^ (53 : ℤ) * (2 : ℚ) ^ e := by gcongr
    _ = (2 : ℚ) ^ (53 + e) := (zpow_add₀ two_ne_zero _ _).symm
    _ ≤ (2 : ℚ) ^ (1024 : ℤ) := zpow_le_zpow_right₀ one_le_two (by omega)

/-- A normal number, in units of its eleventh bit. -/
theorem representable_normal (h : Representable x) (hpos : 0 < x) (hlog : -14 ≤ Int.log 2 x) :
    Representable (x / (2 : ℚ) ^ (Int.log 2 x - 10)) := by
  obtain ⟨n, hn⟩ := h.exists_places hpos
  have hplace : Binary64.lastPlace x = Int.log 2 x - 52 := max_eq_left (by omega)
  have hbig := Binary64.places_lt x
  have hunit : (0 : ℚ) < (2 : ℚ) ^ Binary64.lastPlace x := by positivity
  have hwhole : x / (2 : ℚ) ^ Binary64.lastPlace x = n := by
    rw [div_eq_iff hunit.ne']
    exact hn
  have hnonneg : (0 : ℚ) ≤ n := by
    rw [← hwhole]
    positivity
  obtain ⟨k, rfl⟩ := Int.eq_ofNat_of_zero_le (show 0 ≤ n by exact_mod_cast hnonneg)
  have hk : k < 2 ^ 53 := by
    rw [hwhole] at hbig
    exact_mod_cast hbig
  have heq : x / (2 : ℚ) ^ (Int.log 2 x - 10) = k * (2 : ℚ) ^ (-42 : ℤ) := by
    rw [div_eq_iff (by positivity), mul_assoc, ← zpow_add₀ two_ne_zero]
    conv_lhs => rw [hn, hplace]
    congr 2
    ring
  rw [heq]
  exact representable_units hk (by norm_num) (by norm_num)

/-- A subnormal half, in units of `2 ^ -24`. -/
theorem representable_subnormal (h : Representable x) (hsmall : x < (2 : ℚ) ^ (-14 : ℤ)) :
    Representable (x * 2 ^ 24) := by
  have hbound : x * 2 ^ 24 < (2 : ℚ) ^ (1024 : ℤ) := by
    calc x * 2 ^ 24 < (2 : ℚ) ^ (-14 : ℤ) * 2 ^ 24 := by gcongr
      _ = (2 : ℚ) ^ (10 : ℤ) := by norm_num
      _ < (2 : ℚ) ^ (1024 : ℤ) := zpow_lt_zpow_right₀ one_lt_two (by norm_num)
  obtain ⟨M, E, hM, hE, hx, -⟩ := h
  refine ⟨M, E + 24, hM, by omega, ?_, hbound⟩
  rw [hx, zpow_add₀ two_ne_zero, mul_assoc]
  norm_cast

theorem representable_power {e : ℤ} (hlow : -1074 ≤ e) (hhigh : e < 1024) :
    Representable ((1 : ℕ) * (2 : ℚ) ^ e) := by
  refine ⟨1, e, by norm_num, hlow, rfl, ?_⟩
  rw [Nat.cast_one, one_mul]
  exact zpow_lt_zpow_right₀ one_lt_two hhigh

theorem ldexp_ofInt {m : ℕ} {e : ℤ} (hm : m < 2 ^ 53) (h : Representable (m * (2 : ℚ) ^ e)) :
    ldexp (ofInt m) e = .finite false ⟨m * (2 : ℚ) ^ e, h⟩ := by
  have hwhole : Whole53 m := by
    unfold Whole53
    omega
  have hsign : decide ((m : ℤ) < 0) = false := decide_eq_false (by omega)
  rw [ofInt_eq hwhole, hsign, ldexp]
  have hvalue : |((m : ℤ) : ℚ)| = m := by simp
  simp only [hvalue]
  exact roundMagnitude_exact _

/-- The integer that a magnitude is rounded to, through the two conversions. -/
theorem truncate_nearbyint {d : Binary64.Magnitude} {q : ℕ} (hq : roundEven d.value = q)
    (hle : q ≤ 2048) : (truncate (nearbyint (.finite false d))).toNat = q := by
  have hwhole : Whole53 q := by
    unfold Whole53
    omega
  rw [nearbyint, hq, roundMagnitude_whole hwhole]
  simp [truncate]

end Exact

/-! ## The integer kinds are residues -/

section Integer

variable {number : Double} {bits : ℕ} {isSigned : Bool}

/-- The cast route: the low bits, read as the kind reads them. -/
theorem residue_bitVec (hpos : 0 < bits) (hbits : bits ≤ 32) :
    (if isSigned then (((BitVec.ofInt 64 (truncate number)).setWidth 32).setWidth bits).toInt
      else (((BitVec.ofInt 64 (truncate number)).setWidth 32).setWidth bits).toNat) =
        residue bits isSigned number := by
  have hlow : ((BitVec.ofInt 64 (truncate number)).setWidth 32).setWidth bits =
      BitVec.ofInt bits (truncate number) := by
    have hdvd : (2 : ℤ) ^ bits ∣ 4294967296 := pow_dvd_pow 2 hbits
    have hdvd' : (4294967296 : ℤ) ∣ 18446744073709551616 := by norm_num
    have hnonneg : ∀ k : ℕ, 0 ≤ truncate number % 2 ^ k :=
      fun k => Int.emod_nonneg _ (by positivity)
    refine BitVec.eq_of_toNat_eq ?_
    simp only [BitVec.toNat_setWidth, BitVec.toNat_ofInt]
    zify
    rw [Int.toNat_of_nonneg (by exact_mod_cast hnonneg 64),
      Int.toNat_of_nonneg (by exact_mod_cast hnonneg bits)]
    push_cast
    rw [Int.emod_emod_of_dvd _ hdvd', Int.emod_emod_of_dvd _ hdvd]
  have htwice : (2 : ℤ) ^ bits = 2 * 2 ^ (bits - 1) := by
    rw [← pow_succ', Nat.sub_add_cancel hpos]
  have hmod : 0 ≤ truncate number % 2 ^ bits := Int.emod_nonneg _ (by positivity)
  rw [hlow, residue]
  cases isSigned with
  | false =>
    simp only [Bool.false_eq_true, if_false, false_and, BitVec.toNat_ofInt]
    push_cast
    exact Int.toNat_of_nonneg hmod
  | true =>
    simp only [if_true, true_and, BitVec.toInt_ofInt, Int.bmod_eq_emod]
    push_cast
    have hhalf : ((2 : ℤ) ^ bits + 1) / 2 = 2 ^ (bits - 1) := by omega
    rw [hhalf]
    split_ifs
    · rfl
    · exact sub_zero _

/-- The floor of a magnitude is a natural number. -/
theorem exists_floor (d : Binary64.Magnitude) : ∃ k : ℕ, ⌊d.value⌋ = k :=
  Int.eq_ofNat_of_zero_le (Int.floor_nonneg.mpr d.representable.nonneg)

/-- A modulus is small enough to be exact, and so is a remainder. -/
theorem emod_bounds (hbits : bits ≤ 32) (n : ℤ) : Whole53 (2 ^ bits) ∧ 0 ≤ n % 2 ^ bits ∧
    n % 2 ^ bits < 2 ^ bits ∧ Whole53 (n % 2 ^ bits) := by
  have hpow : (2 : ℤ) ^ bits ≤ 2 ^ 32 := pow_le_pow_right₀ (by norm_num) hbits
  have hpos : (0 : ℤ) < 2 ^ bits := by positivity
  have hlow := Int.emod_nonneg n hpos.ne'
  have hhigh := Int.emod_lt_of_pos n hpos
  exact ⟨⟨by omega, by omega⟩, hlow, hhigh, ⟨by omega, by omega⟩⟩

/-- The route of `fmod`: the remainder of the magnitude, with the sign of the number. -/
theorem fmod_trunc {s : Bool} {d : Binary64.Magnitude} (hbits : bits ≤ 32)
    (hwhole : Whole53 (⌊d.value⌋ % 2 ^ bits)) :
    fmod (trunc (.finite s d)) (ofInt (2 ^ bits)) =
      .finite s ⟨|((⌊d.value⌋ % 2 ^ bits : ℤ) : ℚ)|, representable_abs hwhole⟩ := by
  have habs : |((2 ^ bits : ℤ) : ℚ)| = ((2 ^ bits : ℕ) : ℚ) := by
    push_cast
    exact abs_of_pos (by positivity)
  have hquotient : ⌊(⌊d.value⌋ : ℚ) / ((2 ^ bits : ℕ) : ℚ)⌋ = ⌊d.value⌋ / 2 ^ bits := by
    rw [Rat.floor_intCast_div_natCast]
    push_cast
    rfl
  have hrest : (⌊d.value⌋ : ℚ) - (⌊d.value⌋ / 2 ^ bits : ℤ) * ((2 ^ bits : ℕ) : ℚ) =
      ((⌊d.value⌋ % 2 ^ bits : ℤ) : ℚ) := by
    rw [Int.emod_def]
    push_cast
    ring
  rw [ofInt_eq (emod_bounds hbits 0).1, trunc, fmod, if_neg (by simp)]
  simp only [habs, BigNum.integral, hquotient, hrest]
  exact roundMagnitude_whole hwhole s

/-- Of a positive number it is the remainder of its floor. -/
theorem fmod_trunc_positive {d : Binary64.Magnitude} (hbits : bits ≤ 32) :
    fmod (trunc (.finite false d)) (ofInt (2 ^ bits)) = ofInt (⌊d.value⌋ % 2 ^ bits) := by
  obtain ⟨-, hnonneg, -, hwhole⟩ := emod_bounds hbits ⌊d.value⌋
  rw [fmod_trunc hbits hwhole, ofInt_eq hwhole, decide_eq_false (by omega)]

/-- Half of the modulus, which the signed kinds compare with. -/
theorem div_two_ofInt (hpos : 0 < bits) (hbits : bits ≤ 32) :
    div (ofInt (2 ^ bits)) (ofInt 2) = ofInt (2 ^ (bits - 1)) := by
  have hpow : (2 : ℤ) ^ bits ≤ 2 ^ 32 := pow_le_pow_right₀ (by norm_num) hbits
  have htwice : (2 : ℤ) ^ bits = 2 * 2 ^ (bits - 1) := by
    rw [← pow_succ', Nat.sub_add_cancel hpos]
  have hhalf : (0 : ℤ) < 2 ^ (bits - 1) := by positivity
  have hwhole : Whole53 (2 ^ bits) := ⟨by omega, by omega⟩
  have hwhole' : Whole53 (2 ^ (bits - 1)) := ⟨by omega, by omega⟩
  have htwo : Whole53 2 := ⟨by norm_num, by norm_num⟩
  have hquotient : |((2 ^ bits : ℤ) : ℚ)| / |((2 : ℤ) : ℚ)| = |((2 ^ (bits - 1) : ℤ) : ℚ)| := by
    rw [htwice]
    push_cast
    rw [abs_mul, mul_div_cancel_left₀ _ (by norm_num)]
  have hrep : Representable (|((2 ^ bits : ℤ) : ℚ)| / |((2 : ℤ) : ℚ)|) := by
    rw [hquotient]
    exact representable_abs hwhole'
  rw [ofInt_eq hwhole, ofInt_eq htwo, div_finite (by norm_num) hrep, ofInt_eq hwhole']
  simp only [hquotient]
  rw [decide_eq_false (by omega), decide_eq_false (by norm_num), decide_eq_false (by omega)]
  rfl

/-- The last steps of the route: the remainder is moved into the range of the kind. -/
theorem settle_eq {k : ℤ} (hpos : 0 < bits) (hbits : bits ≤ 32) (hlow : 0 ≤ k)
    (hhigh : k < 2 ^ bits) :
    (if eq (ofInt k) (zero false) then zero false
      else if isSigned && le (div (ofInt (2 ^ bits)) (ofInt 2)) (ofInt k) then
        sub (ofInt k) (ofInt (2 ^ bits))
      else ofInt k) = ofInt (if isSigned ∧ 2 ^ (bits - 1) ≤ k then k - 2 ^ bits else k) := by
  have hpow : (2 : ℤ) ^ bits ≤ 2 ^ 32 := pow_le_pow_right₀ (by norm_num) hbits
  have hpow' : (2 : ℤ) ^ (bits - 1) ≤ 2 ^ 32 := pow_le_pow_right₀ (by norm_num) (by omega)
  have hhalf : (0 : ℤ) < 2 ^ (bits - 1) := by positivity
  have hk : Whole53 k := ⟨by omega, by omega⟩
  have hzero : Whole53 0 := ⟨by norm_num, by norm_num⟩
  have hmodulus : Whole53 (2 ^ bits) := ⟨by omega, by omega⟩
  have hhalf' : Whole53 (2 ^ (bits - 1)) := ⟨by omega, by omega⟩
  have hle : le (ofInt (2 ^ (bits - 1))) (ofInt k) = true ↔ 2 ^ (bits - 1) ≤ k :=
    le_ofInt_iff hhalf' hk
  have heq : eq (ofInt k) (ofInt 0) = true ↔ k = 0 := by
    rw [eq, Bool.and_eq_true, le_ofInt_iff hk hzero, le_ofInt_iff hzero hk]
    omega
  rw [zero_eq, div_two_ofInt hpos hbits]
  by_cases h0 : k = 0
  · rw [if_pos (heq.mpr h0), if_neg (by rintro ⟨-, h⟩; omega), h0]
  · rw [if_neg (fun h => h0 (heq.mp h))]
    by_cases hsub : isSigned = true ∧ 2 ^ (bits - 1) ≤ k
    · rw [if_pos (by rw [Bool.and_eq_true, hle]; exact hsub), if_pos hsub, sub_ofInt hk hmodulus]
    · rw [if_neg (by rw [Bool.and_eq_true, hle]; exact hsub), if_neg hsub]

/-- The route past `2 ^ 53`. -/
theorem residue_fmod {s : Bool} {d : Binary64.Magnitude} (hpos : 0 < bits) (hbits : bits ≤ 32) :
    (let modulus := ofInt (2 ^ bits)
      let m := fmod (trunc (.finite s d)) modulus
      let m := if lt m (zero false) then add m modulus else m
      if eq m (zero false) then zero false
      else if isSigned && le (div modulus (ofInt 2)) m then sub m modulus
      else m) = ofInt (residue bits isSigned (.finite s d)) := by
  obtain ⟨hmodulus, hlow, hhigh, hwhole⟩ := emod_bounds hbits ⌊d.value⌋
  have hfmod := @fmod_trunc bits s d hbits hwhole
  have hpow := hmodulus.2
  have hzero : Whole53 0 := ⟨by norm_num, by norm_num⟩
  have hsettle := fun k => @settle_eq bits isSigned k hpos hbits
  cases s with
  | false =>
    simp only [fmod_trunc_positive hbits]
    generalize hr : ⌊d.value⌋ % 2 ^ bits = r at *
    have hlt : ¬lt (ofInt r) (ofInt 0) = true := by
      rw [lt_ofInt_iff hwhole hzero]
      omega
    rw [zero_eq, if_neg hlt, ← zero_eq, hsettle r hlow hhigh]
    simp only [residue, truncate, Bool.false_eq_true, if_false, hr]
  | true =>
    simp only [hfmod]
    generalize hr : ⌊d.value⌋ % 2 ^ bits = r at *
    by_cases h0 : r = 0
    · -- a negative zero is equal to zero
      subst h0
      have hnegative : (.finite true ⟨|((0 : ℤ) : ℚ)|, representable_abs hwhole⟩ : Double) =
          zero true := by
        simp [zero]
      have hres : truncate (.finite true d) % 2 ^ bits = 0 := by
        simp only [truncate, if_true]
        exact Int.emod_eq_zero_of_dvd (dvd_neg.mpr (Int.dvd_of_emod_eq_zero hr))
      have hvalue : residue bits isSigned (.finite true d) = 0 := by
        rw [residue, hres, if_neg]
        rintro ⟨-, h⟩
        have hhalf : (0 : ℤ) < 2 ^ (bits - 1) := by positivity
        omega
      rw [hnegative, hvalue, ← zero_eq]
      rfl
    · have hopposite : Whole53 (-r) := ⟨by omega, by omega⟩
      have hm : (.finite true ⟨|(r : ℚ)|, representable_abs hwhole⟩ : Double) = ofInt (-r) := by
        rw [ofInt_eq hopposite, decide_eq_true (by omega)]
        simp
      have hlt : lt (ofInt (-r)) (ofInt 0) = true := by
        rw [lt_ofInt_iff hopposite hzero]
        omega
      have hres : truncate (.finite true d) % 2 ^ bits = -r + 2 ^ bits := by
        have hsplit : -⌊d.value⌋ = -r + 2 ^ bits + 2 ^ bits * (-(⌊d.value⌋ / 2 ^ bits) - 1) := by
          have := Int.emod_add_mul_ediv ⌊d.value⌋ (2 ^ bits)
          rw [hr] at this
          linarith
        simp only [truncate, if_true]
        rw [hsplit, Int.add_mul_emod_self_left, Int.emod_eq_of_lt (by omega) (by omega)]
      rw [hm, zero_eq, if_pos hlt, ← zero_eq, add_ofInt hopposite hmodulus,
        hsettle _ (by omega) (by omega)]
      simp only [residue, hres]

/-- NaN, the infinities and what is truncated to zero. -/
theorem residue_of_truncate (h : truncate number = 0) : residue bits isSigned number = 0 := by
  have hhalf : (0 : ℤ) < 2 ^ (bits - 1) := by positivity
  rw [residue, h, Int.zero_emod, if_neg]
  rintro ⟨-, hle⟩
  omega

/-- **Both routes give the residue.** -/
theorem toIntegerModulo_eq (hbits : bits = 8 ∨ bits = 16 ∨ bits = 32) :
    toIntegerModulo number bits isSigned = ofInt (residue bits isSigned number) := by
  have hpos : 0 < bits := by omega
  have hle : bits ≤ 32 := by omega
  have hcast := @residue_bitVec number bits isSigned hpos hle
  rw [toIntegerModulo]
  by_cases hrange : (above (-9007199254740992) number && below 9007199254740992 number) = true
  · rw [if_pos hrange]
    rcases hbits with rfl | rfl | rfl
    · exact congrArg ofInt hcast
    · exact congrArg ofInt hcast
    · rw [BitVec.setWidth_eq] at hcast
      exact congrArg ofInt hcast
  · rw [if_neg hrange]
    cases number with
    | nan => exact (zero_eq.trans (congrArg ofInt (residue_of_truncate rfl).symm))
    | infinite negative => exact (zero_eq.trans (congrArg ofInt (residue_of_truncate rfl).symm))
    | finite s d =>
      rw [if_neg (by simp [isFinite])]
      exact residue_fmod hpos hle

end Integer

/-! ## The clamped kind -/

section Clamp

variable {d : Binary64.Magnitude}

/-- A whole number and one half is of double precision. -/
theorem representable_half (n : ℕ) (h : n < 2 ^ 51) : Representable ((n : ℚ) + 1 / 2) := by
  have heq : (n : ℚ) + 1 / 2 = ((2 * n + 1 : ℕ) : ℚ) * (2 : ℚ) ^ (-1 : ℤ) := by
    rw [zpow_neg_one]
    push_cast
    ring
  rw [heq]
  exact representable_units (by omega) (by norm_num) (by norm_num)

/-- The floor of a positive number. -/
theorem floor_eq_ofInt {n : ℕ} (hn : ⌊d.value⌋ = n) :
    floor (.finite false d) = ofInt n := by
  rw [floor]
  simp only [signedValue, Bool.false_eq_true, if_false, hn]
  split_ifs with hzero
  · rw [hzero, zero_eq]
  · rfl

theorem trunc_eq_ofInt {n : ℕ} (hn : ⌊d.value⌋ = n) (hsmall : n < 2 ^ 53) :
    trunc (.finite false d) = ofInt n := by
  have hwhole : Whole53 n := ⟨by omega, by omega⟩
  rw [ofInt_eq hwhole, decide_eq_false (by omega), trunc]
  congr 1
  refine Binary64.Magnitude.ext ?_
  simp [BigNum.integral, hn]

/-- The sum with one half is exact. -/
theorem add_half {n : ℕ} (h : n < 2 ^ 51) :
    add (ofInt n) half = .finite false ⟨(n : ℚ) + 1 / 2, representable_half n h⟩ := by
  have hone : Whole53 1 := ⟨by norm_num, by norm_num⟩
  have htwo : Whole53 2 := ⟨by norm_num, by norm_num⟩
  have hwhole : Whole53 n := ⟨by omega, by omega⟩
  have hvalue : |((1 : ℤ) : ℚ)| / |((2 : ℤ) : ℚ)| = 1 / 2 := by norm_num
  have hrep : Representable (|((1 : ℤ) : ℚ)| / |((2 : ℤ) : ℚ)|) := by
    rw [hvalue]
    simpa using representable_half 0 (by norm_num)
  have hpos : (0 : ℚ) < (n : ℚ) + 1 / 2 := by positivity
  have hsum : signedValue (decide ((n : ℤ) < 0)) ⟨|((n : ℤ) : ℚ)|, representable_abs hwhole⟩ +
      signedValue (decide ((1 : ℤ) < 0) ^^ decide ((2 : ℤ) < 0))
        ⟨|((1 : ℤ) : ℚ)| / |((2 : ℤ) : ℚ)|, hrep⟩ = (n : ℚ) + 1 / 2 := by
    rw [signedValue_abs hwhole, signedValue]
    simp
  rw [half, ofInt_eq hone, ofInt_eq htwo, div_finite (by norm_num) hrep, ofInt_eq hwhole, add]
  simp only [hsum]
  rw [if_neg hpos.ne', Ieee.round, decide_eq_false (not_lt.mpr hpos.le)]
  exact roundMagnitude_exact _

/-- Inside the range the comparisons find the nearest integer, of two the even one. -/
theorem toUint8Clamp_finite (hpos : 0 < d.value) (hlt : d.value < 255) :
    toUint8Clamp (.finite false d) = ofInt (roundEven d.value) := by
  obtain ⟨n, hn⟩ := exists_floor d
  have hsmall : n < 255 := by
    have : (⌊d.value⌋ : ℤ) < 255 := Int.floor_lt.mpr (by exact_mod_cast hlt)
    omega
  have hwhole : Whole53 n := ⟨by omega, by omega⟩
  have hone : Whole53 1 := ⟨by norm_num, by norm_num⟩
  have hzero : Whole53 0 := ⟨by norm_num, by norm_num⟩
  have hself : extended (.finite false d) = some (rational d.value) := rfl
  have hlow : atMost 0 (.finite false d) = false :=
    Bool.eq_false_iff.mpr fun h => by
      rw [atMost_iff hself, rational_le] at h
      linarith
  have hhigh : atLeast 255 (.finite false d) = false :=
    Bool.eq_false_iff.mpr fun h => by
      rw [atLeast_iff hself, rational_le] at h
      linarith
  have hsum : add (ofInt n) (ofInt 1) = ofInt (n + 1 : ℕ) := by
    rw [add_ofInt hwhole hone]
    norm_cast
  have hrem : eq (fmod (ofInt n) (ofInt 2)) (zero false) = true ↔ (n : ℤ) % 2 = 0 := by
    have hfmod := @fmod_trunc_positive 1 d (by norm_num)
    have hwhole' : Whole53 ((n : ℤ) % 2) := ⟨by omega, by omega⟩
    rw [trunc_eq_ofInt hn (by omega), pow_one, hn] at hfmod
    rw [hfmod, zero_eq, eq, Bool.and_eq_true, le_ofInt_iff hwhole' hzero,
      le_ofInt_iff hzero hwhole']
    omega
  have hlt_iff : ∀ x y : Binary64.Magnitude,
      lt (.finite false x) (.finite false y) = true ↔ x.value < y.value := fun x y => by
    rw [@lt_iff _ _ (rational x.value) (rational y.value) rfl rfl, rational_lt]
  rw [toUint8Clamp, if_neg (by simp [isNaN]), hlow, if_neg Bool.false_ne_true, hhigh,
    if_neg Bool.false_ne_true]
  simp only [floor_eq_ofInt hn, add_half (show n < 2 ^ 51 by omega), hlt_iff, hrem, hsum]
  rw [roundEven, hn]
  push_cast
  by_cases habove : (n : ℚ) + 1 / 2 < d.value
  · rw [if_pos habove, if_neg (by linarith), if_pos (by linarith)]
  · rw [if_neg habove]
    by_cases hbelow : d.value < (n : ℚ) + 1 / 2
    · rw [if_pos hbelow, if_pos (by linarith)]
    · have hless : ¬2 * (d.value - n) < 1 := by linarith
      have hmore : ¬1 < 2 * (d.value - n) := by linarith
      rw [if_neg hbelow]
      simp only [hless, hmore, if_false]
      split_ifs <;> rfl

/-- **A byte that saturates**, of every double. -/
theorem toUint8Clamp_eq (number : Double) : toUint8Clamp number = ofInt (clamped number) := by
  have hround : ∀ n : ℤ, roundEven n = n := Binary64.roundEven_intCast
  cases number with
  | nan => exact zero_eq
  | infinite negative =>
    cases negative with
    | true => exact zero_eq
    | false => rfl
  | finite s d =>
    have hnonneg := d.representable.nonneg
    rw [clamped]
    have hself : extended (.finite s d) = some (rational (signedValue s d)) := by
      cases s <;> rfl
    by_cases hlow : signedValue s d ≤ 0
    · have hmost : atMost 0 (.finite s d) = true := by
        rw [atMost_iff hself, rational_le]
        exact hlow
      have hclamp : max 0 (min 255 (signedValue s d)) = ((0 : ℤ) : ℚ) := by
        rw [min_eq_right (by linarith), max_eq_left hlow, Int.cast_zero]
      rw [toUint8Clamp, if_neg (by simp [isNaN]), if_pos hmost, hclamp, hround, zero_eq]
    · have hmost : ¬atMost 0 (.finite s d) = true := by
        rw [atMost_iff hself, rational_le]
        exact hlow
      obtain rfl : s = false := by
        cases s with
        | false => rfl
        | true => exact absurd (neg_nonpos.mpr hnonneg) hlow
      have hpos : 0 < d.value := not_le.mp hlow
      change toUint8Clamp (.finite false d) = ofInt (roundEven (max 0 (min 255 d.value)))
      by_cases hhigh : d.value < 255
      · rw [toUint8Clamp_finite hpos hhigh, min_eq_right hhigh.le, max_eq_right hpos.le]
      · have hleast : atLeast 255 (.finite false d) = true := by
          rw [atLeast_iff hself, rational_le]
          exact not_lt.mp hhigh
        have hclamp : max 0 (min 255 d.value) = ((255 : ℤ) : ℚ) := by
          rw [min_eq_left (not_lt.mp hhigh), max_eq_right (by norm_num)]
          norm_num
        rw [toUint8Clamp, if_neg (by simp [isNaN]), if_neg hmost, if_pos hleast, hclamp, hround]

end Clamp

/-! ## Halves are the nearest -/

section Half

variable {s : Bool} {n : ℕ} {d : Binary64.Magnitude}

/-- A sign and a pattern do not share a bit. -/
theorem or_pattern (h : n < 0x8000) : signField s ||| n = signField s + n := by
  cases s with
  | false => simp [signField]
  | true => exact (Nat.two_pow_add_eq_or_of_lt (i := 15) h 1).symm

/-- Nor do an exponent and a mantissa. -/
theorem or_mantissa {e q : ℕ} (h : q < 1024) (he : e < 32) :
    signField s ||| e <<< 10 ||| q = signField s + (e * 1024 + q) := by
  have hfields : e <<< 10 ||| q = e * 1024 + q := by
    rw [Nat.shiftLeft_eq, mul_comm]
    exact (Nat.two_pow_add_eq_or_of_lt (i := 10) h e).symm
  rw [Nat.or_assoc, hfields, or_pattern (by omega)]

theorem kMinNormal_eq : kMinNormal = (2 : ℚ) ^ (-14 : ℤ) := by
  norm_num [kMinNormal]

/-- The two tests before a magnitude that is not zero. -/
theorem ne_zero_of_pos (hpos : 0 < d.value) : ¬eq (.finite false d) (zero false) = true := by
  have hself : extended (.finite false d) = some (rational d.value) := rfl
  rw [eq, Bool.and_eq_true, @le_iff _ _ _ (rational 0) hself rfl, rational_le]
  rintro ⟨h, -⟩
  linarith

theorem below_kMinNormal : below kMinNormal (.finite false d) = true ↔ Int.log 2 d.value < -14 ∨
    d.value = 0 := by
  have hself : extended (.finite false d) = some (rational d.value) := rfl
  rw [below_iff hself, rational_lt, kMinNormal_eq]
  rcases d.representable.nonneg.eq_or_lt with h0 | hpos
  · rw [← h0]
    simp
  · rw [or_iff_left hpos.ne', ← not_le, ← not_le]
    exact not_congr (Int.zpow_le_iff_le_log one_lt_two hpos)

section Rounded

variable (hpos : 0 < d.value)

include hpos

theorem exists_rounded (u : ℚ) (hu : 0 < u) : ∃ q : ℕ, roundEven (d.value / u) = q :=
  Int.eq_ofNat_of_zero_le (Binary64.roundEven_nonneg (by positivity))

/-- A subnormal half. -/
theorem halfBitsOf_subnormal (hsmall : Int.log 2 d.value < -14) :
    ∃ n, Nearest d.value n ∧ halfBitsOf (.finite s d) = halfBits s n := by
  have hless : d.value < (2 : ℚ) ^ (-14 : ℤ) := by
    by_contra hge
    have := (Int.zpow_le_iff_le_log one_lt_two hpos).mp (not_lt.mp hge)
    omega
  have hunit : unitOf d.value = 0 := by
    rw [unitOf]
    omega
  have hscale : d.value / (2 : ℚ) ^ (unitOf d.value - 24 : ℤ) = d.value * 2 ^ 24 := by
    rw [hunit]
    norm_num
    ring
  obtain ⟨q, hq⟩ := exists_rounded hpos ((2 : ℚ) ^ (unitOf d.value - 24 : ℤ)) (by positivity)
  have hbound : d.value * 2 ^ 24 < ((1024 : ℤ) : ℚ) := by
    have htop : (2 : ℚ) ^ (-14 : ℤ) * 2 ^ 24 = ((1024 : ℤ) : ℚ) := by norm_num
    rw [← htop]
    gcongr
  obtain ⟨-, -, hnearest⟩ := Binary16.nearest_pattern hpos
    (hless.trans (by norm_num)) hq
  rw [hscale] at hq
  have hle : q ≤ 1024 := by
    have := hq ▸ Binary64.roundEven_le hbound
    omega
  have hwhole : Whole53 16777216 := ⟨by norm_num, by norm_num⟩
  have hmul : mul (.finite false d) (ofInt 16777216) =
      .finite false ⟨d.value * 2 ^ 24, representable_subnormal d.representable hless⟩ := by
    have hvalue : d.value * |((16777216 : ℤ) : ℚ)| = d.value * 2 ^ 24 := by norm_num
    rw [ofInt_eq hwhole, mul]
    simp only [hvalue]
    exact roundMagnitude_exact _
  have htrunc := truncate_nearbyint
    (d := ⟨d.value * 2 ^ 24, representable_subnormal d.representable hless⟩) hq (by omega)
  refine ⟨q, by simpa [hunit] using hnearest, ?_⟩
  rw [halfBitsOf, if_neg (by simp [isNaN])]
  simp only [fabs, isInf, signbit, Bool.false_eq_true, if_false, if_neg (ne_zero_of_pos hpos),
    if_pos (below_kMinNormal.mpr (.inl hsmall)), hmul, htrunc]
  split_ifs with hcarry
  · rw [or_pattern (by norm_num), halfBits, show q = 0x400 by omega]
  · rw [or_pattern (by omega), halfBits]

/-- A normal half, or an infinity. -/
theorem halfBitsOf_normal (hbig : -14 ≤ Int.log 2 d.value) :
    ∃ n, Nearest d.value n ∧ halfBitsOf (.finite s d) = halfBits s n := by
  have hlog : (2 : ℚ) ^ Int.log 2 d.value ≤ d.value :=
    Int.zpow_log_le_self (b := 2) one_lt_two hpos
  have hmax : Int.log 2 d.value < 1024 := by
    obtain ⟨-, -, -, -, -, hlt⟩ := d.representable
    exact (zpow_lt_zpow_iff_right₀ (one_lt_two (α := ℚ))).mp (hlog.trans_lt hlt)
  have hnormal : ¬below kMinNormal (.finite false d) = true := by
    rw [below_kMinNormal]
    rintro (h | h)
    · omega
    · exact hpos.ne' h
  obtain ⟨q, hq⟩ := exists_rounded hpos ((2 : ℚ) ^ (Int.log 2 d.value - 10)) (by positivity)
  have hpower := representable_power (e := Int.log 2 d.value - 10) (by omega) (by omega)
  have hquotient : div (.finite false d) (ldexp (ofInt 1) (Int.log 2 d.value - 10)) = .finite false
      ⟨_, representable_normal d.representable hpos hbig⟩ := by
    have hldexp := ldexp_ofInt (by norm_num) hpower
    have hone : ((1 : ℕ) : ℚ) * (2 : ℚ) ^ (Int.log 2 d.value - 10) =
        (2 : ℚ) ^ (Int.log 2 d.value - 10) := by
      rw [Nat.cast_one, one_mul]
    have hrep := representable_normal d.representable hpos hbig
    rw [← hone] at hrep
    rw [show ofInt 1 = ofInt (1 : ℕ) from rfl, hldexp, div_finite (by positivity) hrep]
    simp only [hone]
    rfl
  have hge : 1024 ≤ q := by
    have hmono : roundEven ((1024 : ℤ) : ℚ) ≤
        roundEven (d.value / (2 : ℚ) ^ (Int.log 2 d.value - 10)) := by
      refine Binary64.roundEven_mono ?_
      rw [le_div_iff₀ (by positivity), show ((1024 : ℤ) : ℚ) = (2 : ℚ) ^ (10 : ℤ) by norm_num,
        ← zpow_add₀ two_ne_zero]
      simpa using hlog
    rw [Binary64.roundEven_intCast, hq] at hmono
    omega
  have hexponent : Int.log 2 d.value + 1 - 1 = Int.log 2 d.value := by ring
  rw [halfBitsOf, if_neg (by simp [isNaN])]
  simp only [fabs, isInf, signbit, Bool.false_eq_true, if_false, if_neg (ne_zero_of_pos hpos),
    if_neg hnormal, frexp, if_neg hpos.ne', hexponent, hquotient]
  by_cases hinf : 16 ≤ Int.log 2 d.value
  · -- past the largest half, whatever the mantissa
    have hpast : 2 ^ 16 ≤ d.value := by
      refine le_trans ?_ hlog
      exact_mod_cast zpow_le_zpow_right₀ (one_le_two (α := ℚ)) hinf
    refine ⟨Binary16.infinity, Binary16.nearest_infinity hpast, ?_⟩
    have hfield : signField s ||| 0x7C00 = signField s + Binary16.infinity :=
      or_pattern (by norm_num)
    rw [hfield, ← halfBits]
    generalize (truncate _).toNat = t
    by_cases ht : t = 2048
    · simp only [if_pos ht]
      exact if_pos (by omega)
    · simp only [if_neg ht]
      exact if_pos (by omega)
  · have hlt : d.value < 2 ^ 16 := by
      have hexp : Int.log 2 d.value + 1 ≤ 16 := by omega
      refine (Int.lt_zpow_succ_log_self (b := 2) one_lt_two d.value).trans_le ?_
      exact_mod_cast zpow_le_zpow_right₀ (one_le_two (α := ℚ)) hexp
    obtain ⟨e, he⟩ := Int.eq_ofNat_of_zero_le (show 0 ≤ Int.log 2 d.value + 14 by omega)
    have hunit : unitOf d.value = e := by
      rw [unitOf, he, Int.toNat_natCast]
    have hq' : roundEven (d.value / (2 : ℚ) ^ (unitOf d.value - 24 : ℤ)) = q := by
      rw [hunit, show (e : ℤ) - 24 = Int.log 2 d.value - 10 by omega, hq]
    obtain ⟨hle, -, hnearest⟩ := Binary16.nearest_pattern hpos hlt hq'
    have htrunc := truncate_nearbyint
      (d := ⟨_, representable_normal d.representable hpos hbig⟩) hq hle
    rw [hunit] at hnearest
    refine ⟨e * 1024 + q, hnearest, ?_⟩
    have hmax := hnearest.le
    rw [Binary16.infinity] at hmax
    rw [htrunc, halfBits]
    by_cases hcarry : q = 2048
    · simp only [if_pos hcarry]
      split_ifs with hlast
      · rw [or_pattern (by norm_num), show e * 1024 + q = 0x7C00 by omega]
      · rw [or_mantissa (by norm_num) (by omega),
          show (Int.log 2 d.value + 15 + 1).toNat * 1024 + (1024 - 1024) = e * 1024 + q by omega]
    · simp only [if_neg hcarry]
      rw [if_neg (by omega), or_mantissa (by omega) (by omega),
        show (Int.log 2 d.value + 15).toNat * 1024 + (q - 1024) = e * 1024 + q by omega]

theorem halfBitsOf_pos : ∃ n, Nearest d.value n ∧ halfBitsOf (.finite s d) = halfBits s n := by
  rcases lt_or_ge (Int.log 2 d.value) (-14) with hsmall | hbig
  · exact halfBitsOf_subnormal hpos hsmall
  · exact halfBitsOf_normal hpos hbig

end Rounded

/-- **A finite number is rounded to the nearest half.** -/
theorem halfBitsOf_finite : ∃ n, Nearest d.value n ∧ halfBitsOf (.finite s d) = halfBits s n := by
  rcases d.representable.nonneg.eq_or_lt with h0 | hpos
  · have hself : extended (.finite false d) = some (rational d.value) := rfl
    have heq : eq (.finite false d) (zero false) = true := by
      rw [eq, Bool.and_eq_true, @le_iff _ _ _ (rational 0) hself rfl,
        @le_iff _ _ (rational 0) _ rfl hself, rational_le, rational_le]
      exact ⟨h0.ge, h0.le⟩
    refine ⟨0, h0 ▸ Binary16.nearest_zero, ?_⟩
    rw [halfBitsOf, if_neg (by simp [isNaN])]
    simp only [fabs, isInf, Bool.false_eq_true, if_false, heq, if_true]
    rfl
  · exact halfBitsOf_pos hpos

/-! ## Halves are read back -/

theorem toNat_halfBits (h : n < 0x8000) : (halfBits s n).toNat = signField s + n := by
  have hlt : signField s + n < 2 ^ 16 := by
    cases s <;> simp only [signField] <;> norm_num <;> omega
  rw [halfBits, UInt16.toNat_ofNat']
  exact Nat.mod_eq_of_lt hlt

/-- Every half is a sign and a pattern. -/
theorem exists_halfBits (bits : UInt16) : ∃ s n, n < 0x8000 ∧ bits = halfBits s n := by
  have hlt := bits.toNat_lt
  refine ⟨decide (0x8000 ≤ bits.toNat), bits.toNat % 0x8000, Nat.mod_lt _ (by norm_num), ?_⟩
  refine UInt16.toNat_inj.mp ?_
  rw [toNat_halfBits (Nat.mod_lt _ (by norm_num)), signField]
  split_ifs with h <;> simp only [decide_eq_true_eq] at h <;> omega

section Fields

variable (h : n < 0x8000)

include h

theorem exponent_halfBits : (halfBits s n >>> 10 &&& 0x1F).toNat = n / 1024 := by
  rw [UInt16.toNat_and, UInt16.toNat_shiftRight, toNat_halfBits h]
  change (signField s + n) >>> 10 &&& 2 ^ 5 - 1 = _
  rw [Nat.and_two_pow_sub_one_eq_mod, Nat.shiftRight_eq_div_pow]
  cases s <;> simp only [signField] <;> norm_num <;> omega

theorem mantissa_halfBits : (halfBits s n &&& 0x3FF).toNat = n % 1024 := by
  rw [UInt16.toNat_and, toNat_halfBits h]
  change signField s + n &&& 2 ^ 10 - 1 = _
  rw [Nat.and_two_pow_sub_one_eq_mod]
  cases s with
  | false => rw [signField, if_neg Bool.false_ne_true, zero_add]
  | true =>
    rw [signField, if_pos rfl]
    omega

theorem negative_halfBits : halfBits s n &&& 0x8000 ≠ 0 ↔ s = true := by
  have hbit : (halfBits s n &&& 0x8000).toNat = ((signField s + n).testBit 15).toNat * 2 ^ 15 := by
    rw [UInt16.toNat_and, toNat_halfBits h]
    change (signField s + n) &&& 2 ^ 15 = _
    exact Nat.and_two_pow _ 15
  have htest : (signField s + n).testBit 15 = s := by
    rw [Nat.testBit_eq_decide_div_mod_eq]
    cases s <;> simp only [signField] <;> norm_num <;> omega
  rw [htest] at hbit
  rw [ne_eq, ← UInt16.toNat_inj, hbit]
  cases s <;> simp

/-- **The double of a half**: a NaN, an infinity, or the magnitude of the pattern. -/
theorem float16BitsToDouble_halfBits :
    (n < Binary16.infinity → ∃ m, float16BitsToDouble (halfBits s n) = .finite s m ∧
      m.value = Binary16.value n) ∧
    (n = Binary16.infinity → float16BitsToDouble (halfBits s n) = .infinite s) ∧
    (Binary16.infinity < n → float16BitsToDouble (halfBits s n) = .nan) := by
  have hsign : ∀ v, (if decide (halfBits s n &&& 0x8000 ≠ 0) = true then neg v else v) =
      if s then neg v else v := by
    intro v
    simp only [decide_eq_true_eq, negative_halfBits h]
  rw [float16BitsToDouble, doubleOfHalfBits]
  simp only [exponent_halfBits h, mantissa_halfBits h, hsign, Binary16.infinity]
  refine ⟨fun hlt => ?_, fun heq => ?_, fun hgt => ?_⟩
  · obtain ⟨m, hm, hvalue⟩ : ∃ m, (if n / 1024 = 0 then ldexp (ofInt (n % 1024 : ℕ)) (-24)
        else if n / 1024 = 31 then (if n % 1024 ≠ 0 then Double.nan else .infinite false)
        else ldexp (add (ofInt 1024) (ofInt (n % 1024 : ℕ))) ((n / 1024 : ℕ) - 25)) =
          .finite false m ∧ m.value = Binary16.value n := by
      by_cases hsub : n / 1024 = 0
      · rw [if_pos hsub, ldexp_ofInt (by omega)
          (representable_units (by omega) (by norm_num) (by norm_num))]
        exact ⟨_, rfl, (if_pos hsub).symm⟩
      · have hwhole : Whole53 1024 := ⟨by norm_num, by norm_num⟩
        have hwhole' : Whole53 (n % 1024 : ℕ) := ⟨by omega, by omega⟩
        have hsum : (1024 : ℤ) + (n % 1024 : ℕ) = (1024 + n % 1024 : ℕ) := by push_cast; rfl
        rw [if_neg hsub, if_neg (by omega), add_ofInt hwhole hwhole', hsum,
          ldexp_ofInt (by omega) (representable_units (by omega) (by omega) (by omega))]
        exact ⟨_, rfl, (if_neg hsub).symm⟩
    rw [hm]
    cases s with
    | false => exact ⟨m, rfl, hvalue⟩
    | true => exact ⟨m, rfl, hvalue⟩
  · subst heq
    cases s <;> rfl
  · have hnormal : ¬n / 1024 = 0 := by omega
    have hlast : n / 1024 = 31 := by omega
    have hmantissa : n % 1024 ≠ 0 := by omega
    simp only [if_neg hnormal, if_pos hlast, if_pos hmantissa]
    cases s <;> rfl

end Fields

/-- **The bits of a half come back**, those of a NaN as the quiet NaN. -/
theorem doubleToFloat16Bits_float16BitsToDouble (h : n ≤ Binary16.infinity) :
    doubleToFloat16Bits (float16BitsToDouble (halfBits s n)) = halfBits s n := by
  have hlt : n < 0x8000 := by
    rw [Binary16.infinity] at h
    omega
  obtain ⟨hfinite, hinfinite, -⟩ := @float16BitsToDouble_halfBits s n hlt
  rcases h.lt_or_eq with hless | rfl
  · obtain ⟨m, hm, hvalue⟩ := hfinite hless
    obtain ⟨n', hnearest, hbits⟩ := @halfBitsOf_finite s m
    rw [hvalue] at hnearest
    rw [hm, doubleToFloat16Bits, hbits, hnearest.pattern_eq h]
  · rw [hinfinite rfl]
    cases s <;> rfl

/-- **A store to an element of halves.** -/
theorem stored_half (value : Double) : Stored value (doubleToFloat16Bits value)
    (float16BitsToDouble (doubleToFloat16Bits value)) := by
  have hinfinity : Binary16.infinity < 0x8000 := by norm_num [Binary16.infinity]
  cases value with
  | nan => exact .nan
  | infinite s =>
    have hbits : doubleToFloat16Bits (.infinite s) = halfBits s Binary16.infinity := by
      cases s <;> rfl
    rw [hbits, (float16BitsToDouble_halfBits hinfinity).2.1 rfl]
    exact .infinite
  | finite s d =>
    obtain ⟨n, hnearest, hbits⟩ := @halfBitsOf_finite s d
    have hlt : n < 0x8000 := hnearest.le.trans_lt hinfinity
    obtain ⟨hfinite, hinfinite, -⟩ := @float16BitsToDouble_halfBits s n hlt
    rw [doubleToFloat16Bits, hbits]
    by_cases hinf : n = Binary16.infinity
    · rw [hinfinite hinf, hinf]
      exact .overflow (hnearest.infinity_iff.mp hinf)
    · obtain ⟨m, hm, hvalue⟩ := hfinite (lt_of_le_of_ne hnearest.le hinf)
      rw [hm]
      exact .finite (not_le.mp fun h => hinf (hnearest.infinity_iff.mpr h)) hnearest hvalue

end Half

/-! ## Every kind -/

/-- A whole number is never the negative zero. -/
theorem ofInt_ne_negative_zero {n : ℤ} (h : Whole53 n) : ofInt n ≠ zero true := by
  rw [ofInt_eq h, zero]
  intro heq
  injection heq with hsign hvalue
  have hneg : n < 0 := of_decide_eq_true hsign
  have hzero : |(n : ℚ)| = 0 := congrArg Binary64.Magnitude.value hvalue
  have : n = 0 := by exact_mod_cast abs_eq_zero.mp hzero
  omega

theorem whole_residue {bits : ℕ} {isSigned : Bool} {number : Double} (hbits : bits ≤ 32) :
    Whole53 (residue bits isSigned number) := by
  obtain ⟨hmodulus, hlow, hhigh, -⟩ := emod_bounds hbits (truncate number)
  have hpow := hmodulus.2
  rw [residue]
  split_ifs <;> exact ⟨by omega, by omega⟩

theorem whole_clamped (number : Double) : Whole53 (clamped number) := by
  have hwhole : ∀ n : ℤ, 0 ≤ n ∧ n ≤ 255 → Whole53 n := fun n h => ⟨by omega, by omega⟩
  refine hwhole _ ?_
  cases number with
  | nan => exact ⟨le_rfl, by norm_num [clamped]⟩
  | infinite negative => cases negative <;> simp [clamped]
  | finite s d =>
    rw [clamped]
    have hlow : ((0 : ℤ) : ℚ) ≤ max 0 (min 255 (signedValue s d)) := by simp
    have hhigh : max 0 (min 255 (signedValue s d)) ≤ ((255 : ℤ) : ℚ) := by simp
    constructor
    · simpa only [Binary64.roundEven_intCast] using Binary64.roundEven_mono hlow
    · simpa only [Binary64.roundEven_intCast] using Binary64.roundEven_mono hhigh

/-- The kinds of integers that are doubles. -/
def integerKinds : List ElementKind :=
  [.int8, .uint8, .uint8Clamped, .int16, .uint16, .int32, .uint32]

/-- **A store leaves what the standard asks for**: the residue of an integer kind, the byte that
saturates, and the nearest half, whose bits and doubles are inverse to each other. -/
theorem convertForStore_exact (value : Double) :
    convertForStore .int8 value = some (ofInt (residue 8 true value)) ∧
    convertForStore .uint8 value = some (ofInt (residue 8 false value)) ∧
    convertForStore .int16 value = some (ofInt (residue 16 true value)) ∧
    convertForStore .uint16 value = some (ofInt (residue 16 false value)) ∧
    convertForStore .int32 value = some (ofInt (residue 32 true value)) ∧
    convertForStore .uint32 value = some (ofInt (residue 32 false value)) ∧
    convertForStore .uint8Clamped value = some (ofInt (clamped value)) ∧
    (∀ kind ∈ integerKinds, convertForStore kind value ≠ some (zero true)) ∧
    convertForStore .float16 value = some (float16BitsToDouble (doubleToFloat16Bits value)) ∧
    Stored value (doubleToFloat16Bits value) (float16BitsToDouble (doubleToFloat16Bits value)) ∧
    (∀ bits, float16BitsToDouble (doubleToFloat16Bits (float16BitsToDouble bits)) =
      float16BitsToDouble bits) ∧
    ∀ s n, n ≤ Binary16.infinity →
      doubleToFloat16Bits (float16BitsToDouble (halfBits s n)) = halfBits s n := by
  have hint : ∀ bits isSigned, bits = 8 ∨ bits = 16 ∨ bits = 32 →
      some (toIntegerModulo value bits isSigned) = some (ofInt (residue bits isSigned value)) :=
    fun bits isSigned hbits => congrArg some (toIntegerModulo_eq hbits)
  have hne : ∀ {bits isSigned}, bits ≤ 32 →
      some (ofInt (residue bits isSigned value)) ≠ some (zero true) := fun hbits h =>
    ofInt_ne_negative_zero (whole_residue hbits) (Option.some.inj h)
  have hclamp : some (toUint8Clamp value) = some (ofInt (clamped value)) :=
    congrArg some (toUint8Clamp_eq value)
  refine ⟨hint 8 true (by norm_num), hint 8 false (by norm_num), hint 16 true (by norm_num),
    hint 16 false (by norm_num), hint 32 true (by norm_num), hint 32 false (by norm_num), hclamp,
    fun kind hkind => ?_, rfl, stored_half value, fun bits => ?_,
    fun s n => doubleToFloat16Bits_float16BitsToDouble⟩
  · simp only [integerKinds, List.mem_cons, List.not_mem_nil, or_false] at hkind
    rcases hkind with rfl | rfl | rfl | rfl | rfl | rfl | rfl
    · exact fun h => hne (by norm_num) ((hint 8 true (by norm_num)).symm.trans h)
    · exact fun h => hne (by norm_num) ((hint 8 false (by norm_num)).symm.trans h)
    · exact fun h => ofInt_ne_negative_zero (whole_clamped value)
        (Option.some.inj (hclamp.symm.trans h))
    · exact fun h => hne (by norm_num) ((hint 16 true (by norm_num)).symm.trans h)
    · exact fun h => hne (by norm_num) ((hint 16 false (by norm_num)).symm.trans h)
    · exact fun h => hne (by norm_num) ((hint 32 true (by norm_num)).symm.trans h)
    · exact fun h => hne (by norm_num) ((hint 32 false (by norm_num)).symm.trans h)
  · obtain ⟨s, n, hlt, rfl⟩ := exists_halfBits bits
    rcases le_or_gt n Binary16.infinity with hle | hgt
    · rw [doubleToFloat16Bits_float16BitsToDouble hle]
    · rw [(float16BitsToDouble_halfBits hlt).2.2 hgt]
      rfl

end Bronze.TypedArray
