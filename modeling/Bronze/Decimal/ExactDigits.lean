import Bronze.BigNum.Double
import Bronze.Decimal.BigUInt

/-!
# The exact decimals of a double

`exactScaledDigits`: the digits of `|x| * 10 ^ k`, rounded to an integer. The mantissa, the power of
two and the power of ten go to one side of a fraction or the other, so that both are integers; the
quotient is worked out a bit at a time, and the remainder, doubled, decides the tie.

The loop over the bits of the numerator counts in 32 bits. A numerator that needs more bits than
that loses those on top, and the quotient with them. The callers ask for scales of a few hundred.

## Main results

* `divideRoundHalfUp_spec`: the quotient, rounded, of the bits that the loop visits
* `exactScaledDigits_text`: the text, for every finite double and every scale
* `exactScaledDigits_exact`: the rounded decimal, where the numerator's length fits 32 bits
* `exactScaledDigits_short`: where it does not, the text denotes a smaller number
-/

namespace Bronze.Decimal

open BigNum
open Nat

/-- The loop of `divideRoundHalfUp` over the bits of `a` below `i`, from the top down: the quotient
and the remainder so far. -/
def divideLoop (a b : Magnitude) :
    Nat → Magnitude → Magnitude → Except Fault (Magnitude × Magnitude)
  | 0, quotient, rem => .ok (quotient, rem)
  | i + 1, quotient, rem => do
    let rem ← shiftLeft rem 1
    let rem := if testBit a i then setBit rem 0 else rem
    if 0 ≤ compareMagnitude rem b then do
      let rem ← subMagnitude rem b
      divideLoop a b i (setBit quotient i) rem
    else divideLoop a b i quotient rem

/-- `divideRoundHalfUp`; the inner error is the text of a `fatal`. -/
def divideRoundHalfUp (a b : Magnitude) : Except Fault (Except String Magnitude) :=
  if b = [] then .ok (.error "internal: exact decimal division by zero")
  else do
    let (quotient, rem) ← divideLoop a b (bitLength a) [] []
    let twice ← shiftLeft rem 1
    return .ok (if 0 ≤ compareMagnitude twice b then addOne quotient else quotient)

/-- `std::fabs`, on the bits of a double. -/
def fabs (bits : UInt64) : UInt64 := bits &&& 0x7FFFFFFFFFFFFFFF

def biased (bits : UInt64) : UInt64 := (bits >>> 52) &&& 0x7FF

def isFinite (bits : UInt64) : Bool := biased bits != 0x7FF

/-- `decompose`: the mantissa and the exponent of a finite double. -/
def decompose (bits : UInt64) : UInt64 × Int :=
  let frac := bits &&& 0xFFFFFFFFFFFFF
  if biased bits = 0 then (frac, -1074)
  else (frac ||| 0x10000000000000, (biased bits).toNat - 1075)

/-- The power of ten, on the side of the fraction where its exponent is not negative. -/
def scaleTen (a b : Magnitude) (k : Int) : Except Fault (Magnitude × Magnitude) :=
  if 0 ≤ k then do
    let a ← mulPow10 a k.toNat
    return (a, b)
  else do
    let k ← i32 (-k)
    let b ← mulPow10 b k.toNat
    return (a, b)

/-- The power of two, likewise. -/
def scaleTwo (a b : Magnitude) (exponent : Int) : Except Fault (Magnitude × Magnitude) :=
  if 0 ≤ exponent then do
    let a ← shiftLeft a exponent.toNat
    return (a, b)
  else do
    let b ← shiftLeft b (-exponent).toNat
    return (a, b)

/-- `exactScaledDigits`, of the bits of a double. -/
def exactScaledDigits (x : UInt64) (k : Int32) : Except Fault (Except String (List Char)) :=
  let mag := fabs x
  if mag = 0 then .ok (.ok ['0'])
  else if isFinite mag = false then
    .ok (.error "internal: exact decimal of a non-finite value")
  else do
    let (mantissa, exponent) := decompose mag
    let (a, b) ← scaleTen (ofUInt64 mantissa) (ofUInt64 1) k.toInt
    let (a, b) ← scaleTwo a b exponent
    match ← divideRoundHalfUp a b with
    | .error message => return .error message
    | .ok n => return .ok (toDecimal n)

/-- What a finite double denotes, without its sign: eleven bits of exponent, and a fraction of
fifty-two with a leading one unless the exponent is zero. -/
def magnitude (bits : UInt64) : ℚ :=
  let exponent : ℕ := bits.toNat / 2 ^ 52 % 2 ^ 11
  let fraction : ℕ := bits.toNat % 2 ^ 52
  if exponent = 0 then fraction * (2 : ℚ) ^ (-1074 : ℤ)
  else ((2 ^ 52 + fraction : ℕ) : ℚ) * (2 : ℚ) ^ (exponent - 1075 : ℤ)

/-! ## Long division -/

section Division

variable {a b : Magnitude}

/-- **The quotient and the remainder of the bits visited so far**, the quotient shifted to where
its bits belong. -/
structure HasDivided (n : Nat) (b : Magnitude) (i : Nat) (quotient rem : Magnitude) : Prop where
  quotient_trimmed : Trimmed quotient
  rem_trimmed : Trimmed rem
  quotient_eq : value quotient = n / 2 ^ i / value b * 2 ^ i
  rem_eq : value rem = n / 2 ^ i % value b

theorem compare_nonneg_iff (ha : Trimmed a) (hb : Trimmed b) :
    0 ≤ compareMagnitude a b ↔ value b ≤ value a := by
  rw [compareMagnitude_eq ha hb]
  rcases lt_or_ge (value a) (value b) with hlt | hge
  · rw [order_of_lt (by exact_mod_cast hlt)]
    omega
  · rw [order, Int.sign_nonneg_iff]
    omega

/-- Dividing by the divisor after one bit more, from the remainder with that bit. -/
theorem div_mod_double {n divisor : Nat} (hge : divisor ≤ 2 * (n / 2 % divisor) + n % 2)
    (hpos : 0 < divisor) :
    n / divisor = 2 * (n / 2 / divisor) + 1 ∧
      n % divisor = 2 * (n / 2 % divisor) + n % 2 - divisor := by
  have hsplit := Nat.div_add_mod (n / 2) divisor
  have hlt := Nat.mod_lt (n / 2) hpos
  rw [Nat.div_mod_unique hpos, Nat.mul_add, Nat.mul_left_comm]
  omega

theorem div_mod_double_small {n divisor : Nat} (hlt : 2 * (n / 2 % divisor) + n % 2 < divisor) :
    n / divisor = 2 * (n / 2 / divisor) ∧ n % divisor = 2 * (n / 2 % divisor) + n % 2 := by
  have hsplit := Nat.div_add_mod (n / 2) divisor
  rw [Nat.div_mod_unique (by omega), Nat.mul_left_comm]
  omega

theorem shiftIn_spec {n i : Nat} {rem : Magnitude} (hrem : Trimmed rem)
    (hbit : (value a).testBit i = n.testBit i) :
    ∃ rem', shiftLeft rem 1 = .ok rem' ∧
      Trimmed (if testBit a i then setBit rem' 0 else rem') ∧
      value (if testBit a i then setBit rem' 0 else rem') =
        2 * value rem + n / 2 ^ i % 2 := by
  obtain ⟨rem', hrun, htrimmed, hvalue⟩ := shiftLeft_spec hrem 1
  refine ⟨rem', hrun, ?_⟩
  have hclear : (value rem').testBit 0 = false := by
    rw [testBit_zero, decide_eq_false_iff_not]
    omega
  rw [testBit_eq, hbit, testBit_eq_decide_div_mod_eq]
  by_cases hone : n / 2 ^ i % 2 = 1
  · obtain ⟨htrimmed', hvalue'⟩ := setBit_spec htrimmed hclear
    rw [if_pos (by simpa using hone)]
    refine ⟨htrimmed', ?_⟩
    omega
  · rw [if_neg (by simpa using hone)]
    refine ⟨htrimmed, ?_⟩
    omega

theorem divideLoop_step {n i : Nat} {quotient rem : Magnitude} (hb : Trimmed b) (hpos : 0 < value b)
    (hbit : (value a).testBit i = n.testBit i) (h : HasDivided n b (i + 1) quotient rem) :
    ∃ quotient' rem', divideLoop a b (i + 1) quotient rem = divideLoop a b i quotient' rem' ∧
      HasDivided n b i quotient' rem' := by
  obtain ⟨hquotient, hrem, hquotientEq, hremEq⟩ := h
  have hhalf : n / 2 ^ (i + 1) = n / 2 ^ i / 2 := by rw [pow_succ, Nat.div_div_eq_div_mul]
  rw [hhalf] at hquotientEq hremEq
  obtain ⟨rem₁, hrun, htrimmed, hvalue⟩ := shiftIn_spec hrem hbit
  rw [hremEq] at hvalue
  have hcompare := compare_nonneg_iff htrimmed hb
  rw [divideLoop, hrun]
  dsimp only [bind, Except.bind]
  generalize (if testBit a i then setBit rem₁ 0 else rem₁) = rem₂ at htrimmed hvalue hcompare ⊢
  rw [hvalue] at hcompare
  by_cases hge : value b ≤ 2 * (n / 2 ^ i / 2 % value b) + n / 2 ^ i % 2
  · -- the divisor goes once into the remainder, and the quotient has the bit
    obtain ⟨hdiv, hmod⟩ := div_mod_double hge hpos
    have hle : value b ≤ value rem₂ := by rw [hvalue]; exact hge
    obtain ⟨rem', hsub, htrimmed', hvalue'⟩ :=
      subMagnitude_spec hle (length_le_of_value_le hb hle)
    have hclear : (value quotient).testBit i = false := by
      rw [hquotientEq, pow_succ', ← Nat.mul_assoc, Nat.testBit_mul_two_pow]
      simp
    obtain ⟨hquotient', hquotientEq'⟩ := setBit_spec hquotient hclear
    rw [if_pos (hcompare.mpr hge), hsub]
    refine ⟨_, _, rfl, hquotient', htrimmed', ?_, ?_⟩
    · rw [hquotientEq', hquotientEq, hdiv]
      ring
    · rw [hmod]
      omega
  · obtain ⟨hdiv, hmod⟩ := div_mod_double_small (Nat.lt_of_not_le hge)
    rw [if_neg (fun h => hge (hcompare.mp h))]
    refine ⟨_, _, rfl, hquotient, htrimmed, ?_, ?_⟩
    · rw [hquotientEq, hdiv]
      ring
    · rw [hvalue, hmod]

/-- All the bits below `i`. -/
theorem divideLoop_spec {n : Nat} (hb : Trimmed b) (hpos : 0 < value b) :
    ∀ (i : Nat) (quotient rem : Magnitude), (∀ j < i, (value a).testBit j = n.testBit j) →
      HasDivided n b i quotient rem →
      ∃ quotient' rem', divideLoop a b i quotient rem = .ok (quotient', rem') ∧
        HasDivided n b 0 quotient' rem' := by
  intro i
  induction i with
  | zero => exact fun quotient rem _ h => ⟨quotient, rem, rfl, h⟩
  | succ i ih =>
    intro quotient rem hbits h
    obtain ⟨quotient₁, rem₁, hrun, h₁⟩ := divideLoop_step hb hpos (hbits i (lt_succ_self i)) h
    obtain ⟨quotient', rem', hrun', h'⟩ :=
      ih quotient₁ rem₁ (fun j hj => hbits j (lt_succ_of_lt hj)) h₁
    exact ⟨quotient', rem', hrun.trans hrun', h'⟩

theorem half_up (n : Nat) {divisor : Nat} (hpos : 0 < divisor) :
    (2 * n + divisor) / (2 * divisor) =
      n / divisor + if divisor ≤ n % divisor * 2 then 1 else 0 := by
  have hsplit := Nat.div_add_mod n divisor
  have hlt := Nat.mod_lt n hpos
  have hnum : 2 * n + divisor = 2 * (n % divisor) + divisor + 2 * divisor * (n / divisor) := by
    rw [Nat.mul_assoc]
    omega
  rw [hnum, Nat.add_mul_div_left _ _ (by omega), Nat.add_comm]
  congr 1
  split
  · rw [Nat.div_eq_iff (by omega)]
    omega
  · exact Nat.div_eq_of_lt (by omega)

/-- **The quotient, rounded half up**, of the bits of the numerator that 32 bits count. -/
theorem divideRoundHalfUp_spec (ha : Trimmed a) (hb : Trimmed b) (hpos : 0 < value b) :
    ∃ out, divideRoundHalfUp a b = .ok (.ok out) ∧ Trimmed out ∧
      value out = (2 * (value a % 2 ^ ((value a).size % 2 ^ 32)) + value b) / (2 * value b) := by
  have hne : b ≠ [] := by
    rintro rfl
    exact absurd hpos (by decide)
  set n := value a % 2 ^ ((value a).size % 2 ^ 32) with hn
  have hbits : ∀ j < bitLength a, (value a).testBit j = n.testBit j := by
    intro j hj
    rw [bitLength_eq ha] at hj
    rw [testBit_mod_two_pow, decide_eq_true hj, Bool.true_and]
  have hlt : n < 2 ^ bitLength a := by
    rw [bitLength_eq ha]
    exact mod_lt _ (by positivity)
  have hstart : HasDivided n b (bitLength a) [] [] := by
    have hzero : n / 2 ^ bitLength a = 0 := div_eq_of_lt hlt
    refine ⟨trimmed_nil, trimmed_nil, ?_, ?_⟩
    · simp [hzero]
    · simp [hzero]
  obtain ⟨quotient, rem, hrun, hquotient, hrem, hquotientEq, hremEq⟩ :=
    divideLoop_spec hb hpos (bitLength a) [] [] hbits hstart
  rw [pow_zero, Nat.div_one] at hquotientEq hremEq
  rw [mul_one] at hquotientEq
  obtain ⟨twice, hshift, htwice, htwiceEq⟩ := shiftLeft_spec hrem 1
  have hcompare := compare_nonneg_iff htwice hb
  rw [htwiceEq, hremEq] at hcompare
  unfold divideRoundHalfUp
  rw [if_neg hne, hrun]
  dsimp only [bind, Except.bind]
  rw [hshift, half_up n hpos]
  dsimp only
  by_cases htie : value b ≤ n % value b * 2
  · obtain ⟨htrimmed, -, hvalue⟩ := addOne_spec hquotient
    refine ⟨addOne quotient, ?_, htrimmed, ?_⟩
    · rw [if_pos (hcompare.mpr htie)]
      rfl
    · rw [hvalue, hquotientEq, if_pos htie]
  · refine ⟨quotient, ?_, hquotient, ?_⟩
    · rw [if_neg (fun h => htie (hcompare.mp h))]
      rfl
    · simp [hquotientEq, htie]

end Division

/-- The numerator of `|x| * 10 ^ k`, as `exactScaledDigits` builds it. -/
def numerator (x : UInt64) (k : Int) : Nat :=
  (decompose (fabs x)).1.toNat * 10 ^ k.toNat * 2 ^ (decompose (fabs x)).2.toNat

def denominator (x : UInt64) (k : Int) : Nat :=
  10 ^ (-k).toNat * 2 ^ (-(decompose (fabs x)).2).toNat

section Fraction

variable (x : UInt64)

theorem toNat_fabs : (fabs x).toNat = x.toNat % 2 ^ 63 := by
  exact and_two_pow_sub_one_eq_mod x.toNat 63

theorem toNat_biased : (biased x).toNat = x.toNat / 2 ^ 52 % 2 ^ 11 := by
  rw [biased, UInt64.toNat_and, UInt64.toNat_shiftRight]
  have hshift : x.toNat >>> ((52 : UInt64).toNat % 64) = x.toNat / 2 ^ 52 :=
    shiftRight_eq_div_pow ..
  rw [hshift]
  exact and_two_pow_sub_one_eq_mod _ 11

theorem biased_fabs : biased (fabs x) = biased x := by
  apply UInt64.toNat_inj.mp
  rw [toNat_biased, toNat_biased, toNat_fabs]
  omega

/-- **The parts of a double are its value**, and are small. -/
theorem decompose_spec (hfinite : isFinite x = true) :
    ((decompose x).1.toNat : ℚ) * (2 : ℚ) ^ (decompose x).2 = magnitude x ∧
      (decompose x).1.toNat < 2 ^ 53 ∧ -1074 ≤ (decompose x).2 ∧ (decompose x).2 ≤ 971 := by
  have hbiased := toNat_biased x
  have hfrac : (x &&& 0xFFFFFFFFFFFFF).toNat = x.toNat % 2 ^ 52 := by
    exact and_two_pow_sub_one_eq_mod x.toNat 52
  have hlt : x.toNat % 2 ^ 52 < 2 ^ 52 := mod_lt _ (by decide)
  have hinfinite : (biased x).toNat ≠ 2047 := by
    intro h
    have : biased x = 0x7FF := UInt64.toNat_inj.mp h
    rw [isFinite, this] at hfinite
    exact absurd hfinite (by decide)
  unfold decompose magnitude
  rw [← hbiased]
  by_cases hzero : biased x = 0
  · have hnone : (biased x).toNat = 0 := by rw [hzero]; rfl
    rw [if_pos hzero, if_pos hnone, hfrac]
    exact ⟨rfl, by omega, by omega, by omega⟩
  · have hsome : (biased x).toNat ≠ 0 := fun h => hzero (UInt64.toNat_inj.mp h)
    have hlead : (x &&& 0xFFFFFFFFFFFFF ||| 0x10000000000000).toNat =
        2 ^ 52 + x.toNat % 2 ^ 52 := by
      rw [UInt64.toNat_or, hfrac]
      exact (or_two_pow_eq_add_of_lt hlt).trans (add_comm ..)
    rw [if_neg hzero, if_neg hsome]
    rw [hlead]
    exact ⟨rfl, by omega, by omega, by omega⟩

theorem magnitude_fabs : magnitude (fabs x) = magnitude x := by
  have hexponent : x.toNat % 2 ^ 63 / 2 ^ 52 % 2 ^ 11 = x.toNat / 2 ^ 52 % 2 ^ 11 := by omega
  have hfraction : x.toNat % 2 ^ 63 % 2 ^ 52 = x.toNat % 2 ^ 52 := by omega
  rw [magnitude, magnitude, toNat_fabs, hexponent, hfraction]

theorem denominator_pos (k : Int) : 0 < denominator x k := by
  rw [denominator]
  positivity

theorem zpow_split {c : ℚ} (hc : c ≠ 0) (n : Int) : c ^ n = c ^ n.toNat / c ^ (-n).toNat := by
  rw [← zpow_natCast, ← zpow_natCast, ← zpow_sub₀ hc]
  congr 1
  omega

/-- **The fraction is the scaled value.** -/
theorem fraction_eq (hfinite : isFinite x = true) (k : Int) :
    magnitude x * (10 : ℚ) ^ k = (numerator x k : ℚ) / denominator x k := by
  have hfinite' : isFinite (fabs x) = true := by rw [isFinite, biased_fabs]; exact hfinite
  obtain ⟨hvalue, -⟩ := decompose_spec (fabs x) hfinite'
  rw [← magnitude_fabs, ← hvalue, numerator, denominator, zpow_split two_ne_zero,
    zpow_split (by norm_num : (10 : ℚ) ≠ 0) k]
  push_cast
  ring

/-- **Half up is the floor** after a half is added. -/
theorem floor_half (n : Nat) {divisor : Nat} (hpos : 0 < divisor) :
    ⌊(n : ℚ) / divisor + 1 / 2⌋₊ = (2 * n + divisor) / (2 * divisor) := by
  have hsum : (n : ℚ) / divisor + 1 / 2 = ((2 * n + divisor : ℕ) : ℚ) / (2 * divisor : ℕ) := by
    push_cast
    field_simp
  rw [hsum, floor_div_eq_div]

end Fraction

/-! ## The digits -/

/-- The decimal numeral of a number, without leading zeros. -/
def Writes (text : List Char) (n : Nat) : Prop :=
  IsNumeral 10 text ∧ positional 10 text = n ∧ (text = ['0'] ∨ text.head? ≠ some '0')

section Digits

variable {x : UInt64} {k : Int32} {a b : Magnitude}

theorem scaleTen_spec (ha : Trimmed a) (hb : Trimmed b) {k : Int}
    (hlow : -2 ^ 31 < k) (hhigh : k < 2 ^ 31) :
    ∃ a' b', scaleTen a b k = .ok (a', b') ∧ Trimmed a' ∧ Trimmed b' ∧
      value a' = value a * 10 ^ k.toNat ∧ value b' = value b * 10 ^ (-k).toNat := by
  unfold scaleTen
  by_cases hk : 0 ≤ k
  · obtain ⟨a', hrun, ha', hvalue⟩ := mulPow10_spec k.toNat ha
    have hnone : (-k).toNat = 0 := by omega
    refine ⟨a', b, ?_, ha', hb, hvalue, by simp [hnone]⟩
    rw [if_pos hk, hrun]
    rfl
  · obtain ⟨b', hrun, hb', hvalue⟩ := mulPow10_spec (-k).toNat hb
    have hnone : k.toNat = 0 := by omega
    have hint : i32 (-k) = .ok (-k) := if_pos (by omega)
    refine ⟨a, b', ?_, ha, hb', by simp [hnone], hvalue⟩
    rw [if_neg hk, hint]
    dsimp only [bind, Except.bind]
    rw [hrun]
    rfl

theorem scaleTwo_spec (ha : Trimmed a) (hb : Trimmed b) (exponent : Int) :
    ∃ a' b', scaleTwo a b exponent = .ok (a', b') ∧ Trimmed a' ∧ Trimmed b' ∧
      value a' = value a * 2 ^ exponent.toNat ∧ value b' = value b * 2 ^ (-exponent).toNat := by
  unfold scaleTwo
  by_cases hexponent : 0 ≤ exponent
  · obtain ⟨a', hrun, ha', hvalue⟩ := shiftLeft_spec ha exponent.toNat
    have hnone : (-exponent).toNat = 0 := by omega
    refine ⟨a', b, ?_, ha', hb, hvalue, by simp [hnone]⟩
    rw [if_pos hexponent, hrun]
    rfl
  · obtain ⟨b', hrun, hb', hvalue⟩ := shiftLeft_spec hb (-exponent).toNat
    have hnone : exponent.toNat = 0 := by omega
    refine ⟨a, b', ?_, ha, hb', by simp [hnone], hvalue⟩
    rw [if_neg hexponent, hrun]
    rfl

/-- **The text, for every finite double and every scale** that can be negated: the rounded quotient
of the bits of the numerator that 32 bits count. -/
theorem exactScaledDigits_text (hfinite : isFinite x = true) (hk : -2 ^ 31 < k.toInt) :
    ∃ text, exactScaledDigits x k = .ok (.ok text) ∧
      Writes text ((2 * (numerator x k.toInt % 2 ^ ((numerator x k.toInt).size % 2 ^ 32)) +
        denominator x k.toInt) / (2 * denominator x k.toInt)) := by
  have hfinite' : isFinite (fabs x) = true := by rw [isFinite, biased_fabs]; exact hfinite
  have hpos := denominator_pos x k.toInt
  unfold exactScaledDigits
  dsimp only
  by_cases hzero : fabs x = 0
  · have hnone : numerator x k.toInt = 0 := by
      rw [numerator, hzero]
      exact (congrArg (· * _) (zero_mul _)).trans (zero_mul _)
    rw [if_pos hzero, hnone, zero_mod, div_eq_of_lt (by omega)]
    refine ⟨['0'], rfl, ⟨nofun, fun c hc => ?_⟩, rfl, .inl rfl⟩
    rw [List.mem_singleton.mp hc]
    exact ⟨0, rfl, by decide⟩
  · obtain ⟨ha, haValue⟩ := ofUInt64_spec (decompose (fabs x)).1
    obtain ⟨hb, hbValue⟩ := ofUInt64_spec 1
    obtain ⟨a₁, b₁, hten, ha₁, hb₁, haValue₁, hbValue₁⟩ := scaleTen_spec ha hb hk k.toInt_lt
    obtain ⟨a₂, b₂, htwo, ha₂, hb₂, haValue₂, hbValue₂⟩ :=
      scaleTwo_spec ha₁ hb₁ (decompose (fabs x)).2
    have hnumerator : value a₂ = numerator x k.toInt := by
      rw [haValue₂, haValue₁, haValue, numerator]
    have hdenominator : value b₂ = denominator x k.toInt := by
      have hone : (1 : UInt64).toNat = 1 := rfl
      rw [hbValue₂, hbValue₁, hbValue, hone, one_mul, denominator]
    obtain ⟨out, hrun, hout, houtValue⟩ :=
      divideRoundHalfUp_spec ha₂ hb₂ (by rw [hdenominator]; exact hpos)
    obtain ⟨hnumeral, hvalue, hlead⟩ := toDecimal_spec hout
    rw [if_neg hzero, if_neg (by rw [hfinite']; decide), hten]
    dsimp only [bind, Except.bind]
    rw [htwo]
    dsimp only
    rw [hrun]
    refine ⟨toDecimal out, rfl, hnumeral, ?_, hlead⟩
    rw [hvalue, houtValue, hnumerator, hdenominator]

/-- **The rounded quotient** of the fraction is the decimal asked for. -/
theorem rounded_eq (hfinite : isFinite x = true) (k : Int) :
    ⌊magnitude x * (10 : ℚ) ^ k + 1 / 2⌋₊ =
      (2 * numerator x k + denominator x k) / (2 * denominator x k) := by
  rw [fraction_eq x hfinite, floor_half _ (denominator_pos x k)]

theorem Writes.unique {text : List Char} {m n : Nat} (hm : Writes text m) (hn : Writes text n) :
    m = n := hm.2.1.symm.trans hn.2.1

/-- A numerator of `2 ^ 32` bits or more has a scale that is not negative, so that only a power of
two is under it. -/
theorem denominator_le (hfinite : isFinite x = true) {k : Int}
    (hlong : 2 ^ 32 ≤ (numerator x k).size) : denominator x k ≤ 2 ^ 1074 := by
  have hfinite' : isFinite (fabs x) = true := by rw [isFinite, biased_fabs]; exact hfinite
  obtain ⟨-, hmantissa, hlow, hhigh⟩ := decompose_spec (fabs x) hfinite'
  have hk : 0 ≤ k := by
    by_contra hneg
    have hnone : k.toNat = 0 := by omega
    have hpow : 2 ^ (decompose (fabs x)).2.toNat ≤ 2 ^ 971 :=
      Nat.pow_le_pow_right (by decide) (by omega)
    have hlt : numerator x k < 2 ^ 1024 := by
      calc numerator x k
          = (decompose (fabs x)).1.toNat * 2 ^ (decompose (fabs x)).2.toNat := by
            simp [numerator, hnone]
        _ ≤ (decompose (fabs x)).1.toNat * 2 ^ 971 := Nat.mul_le_mul_left _ hpow
        _ < 2 ^ 53 * 2 ^ 971 := Nat.mul_lt_mul_of_pos_right hmantissa (Nat.pow_pos (by decide))
        _ = 2 ^ 1024 := by rw [← pow_add]
    exact absurd (hlong.trans (Nat.size_le.mpr hlt)) (by decide)
  have hnone : (-k).toNat = 0 := by omega
  rw [denominator, hnone, pow_zero, Nat.one_mul]
  exact Nat.pow_le_pow_right (by decide) (by omega)

/-- **A numerator that is too long**: the text denotes a smaller number. -/
theorem exactScaledDigits_short (hfinite : isFinite x = true) (hk : -2 ^ 31 < k.toInt)
    (hlong : 2 ^ 32 ≤ (numerator x k.toInt).size) :
    ¬ ∃ text, exactScaledDigits x k = .ok (.ok text) ∧
      Writes text ⌊magnitude x * (10 : ℚ) ^ k.toInt + 1 / 2⌋₊ := by
  rintro ⟨text, hrun, hwrites⟩
  obtain ⟨text', hrun', hwrites'⟩ := exactScaledDigits_text hfinite hk
  have hsame : text = text' := by
    rw [hrun'] at hrun
    cases hrun
    rfl
  rw [← hsame] at hwrites'
  have heq := hwrites'.unique hwrites
  have hpos := denominator_pos x k.toInt
  have hsmall := denominator_le hfinite hlong
  rw [rounded_eq hfinite] at heq
  generalize numerator x k.toInt = n at hlong heq
  generalize denominator x k.toInt = divisor at hpos hsmall heq
  -- the bits that are left weigh less than the one on top, by more than the divisor
  have hroom : 1074 ≤ n.size - 2 :=
    Nat.le_sub_of_add_le ((by decide : 1074 + 2 ≤ 2 ^ 32).trans hlong)
  have hdivisor : divisor ≤ 2 ^ (n.size - 2) :=
    hsmall.trans (Nat.pow_le_pow_right (by decide) hroom)
  have htop : 2 ^ (n.size - 1) ≤ n := Nat.lt_size.mp (by omega)
  have hhalves : 2 ^ (n.size - 1) = 2 ^ (n.size - 2) + 2 ^ (n.size - 2) := by
    rw [← Nat.two_mul, ← pow_succ']
    congr 1
    omega
  have hleft : n % 2 ^ (n.size % 2 ^ 32) < 2 ^ (n.size - 2) :=
    (Nat.mod_lt _ (by positivity)).trans_le (Nat.pow_le_pow_right (by decide) (by omega))
  have hbelow : 2 * (n % 2 ^ (n.size % 2 ^ 32)) + divisor + 2 * divisor ≤ 2 * n + divisor := by
    omega
  have hless := Nat.div_le_div_right (c := 2 * divisor) hbelow
  rw [Nat.add_div_right _ (by omega), heq] at hless
  exact absurd hless (Nat.not_succ_le_self _)

/-- What the operations of `BigUInt` that the digits rest on compute. -/
structure ExactOperations : Prop where
  mulPow10 : ∀ {m : Magnitude}, Trimmed m → ∀ exponent, ∃ out, mulPow10 m exponent = .ok out ∧
    Trimmed out ∧ value out = value m * 10 ^ exponent
  shiftLeft : ∀ {m : Magnitude}, Trimmed m → ∀ bits, ∃ out, shiftLeft m bits = .ok out ∧
    Trimmed out ∧ value out = value m * 2 ^ bits
  subtract : ∀ {a b : Magnitude}, Trimmed b → value b ≤ value a → ∃ out,
    subMagnitude a b = .ok out ∧ Trimmed out ∧ value out + value b = value a
  testBit : ∀ m bit, testBit m bit = (value m).testBit bit
  setBit : ∀ {m : Magnitude} {bit}, Trimmed m → (value m).testBit bit = false →
    Trimmed (setBit m bit) ∧ value (setBit m bit) = value m + 2 ^ bit
  divide : ∀ {a b : Magnitude}, Trimmed a → Trimmed b → 0 < value b →
    (value a).size < 2 ^ 32 → ∃ out, divideRoundHalfUp a b = .ok (.ok out) ∧ Trimmed out ∧
      value out = (2 * value a + value b) / (2 * value b)

theorem mod_size {n : Nat} (h : n.size < 2 ^ 32) : n % 2 ^ (n.size % 2 ^ 32) = n := by
  rw [mod_eq_of_lt h]
  exact mod_eq_of_lt (lt_size_self n)

theorem exactOperations : ExactOperations where
  mulPow10 hm exponent := mulPow10_spec exponent hm
  shiftLeft hm bits := shiftLeft_spec hm bits
  subtract hb h := subMagnitude_spec h (length_le_of_value_le hb h)
  testBit m bit := testBit_eq m bit
  setBit hm h := setBit_spec hm h
  divide ha hb hpos hsize := by
    obtain ⟨out, hrun, hout, hvalue⟩ := divideRoundHalfUp_spec ha hb hpos
    rw [mod_size hsize] at hvalue
    exact ⟨out, hrun, hout, hvalue⟩

/-- **The exact decimals**: the operations are exact, and for every finite double and every scale
that can be negated, the digits are those of `|x| * 10 ^ k` rounded half up, where the numerator has
fewer than `2 ^ 32` bits. -/
theorem exactScaledDigits_exact (hfinite : isFinite x = true) (hk : -2 ^ 31 < k.toInt)
    (hbits : (numerator x k.toInt).size < 2 ^ 32) :
    ExactOperations ∧ ∃ text, exactScaledDigits x k = .ok (.ok text) ∧
      Writes text ⌊magnitude x * (10 : ℚ) ^ k.toInt + 1 / 2⌋₊ := by
  refine ⟨exactOperations, ?_⟩
  obtain ⟨text, hrun, hwrites⟩ := exactScaledDigits_text hfinite hk
  rw [mod_size hbits, ← rounded_eq hfinite] at hwrites
  exact ⟨text, hrun, hwrites⟩

/-- The double nearest to 1.005, to two places. -/
theorem exactScaledDigits_exact_cents :
    ExactOperations ∧ ∃ text, exactScaledDigits 0x3FF0147AE147AE14 2 = .ok (.ok text) ∧
      Writes text ⌊magnitude 0x3FF0147AE147AE14 * (10 : ℚ) ^ (2 : Int32).toInt + 1 / 2⌋₊ :=
  exactScaledDigits_exact (by decide) (by decide)
    ((size_le.mpr (show numerator 0x3FF0147AE147AE14 (2 : Int32).toInt < 2 ^ 64 by
      decide)).trans_lt (by decide))

/-- A power of ten of `2 ^ 32` bits. -/
theorem size_one_le {k : Int} (hk : 2 ^ 32 ≤ 3 * k) :
    2 ^ 32 ≤ (numerator 0x3FF0000000000000 k).size := by
  have hmantissa : (decompose (fabs 0x3FF0000000000000)).1.toNat = 2 ^ 52 := by decide
  have hexponent : (decompose (fabs 0x3FF0000000000000)).2.toNat = 0 := by decide
  have hpow : 2 ^ (3 * k.toNat) ≤ 10 ^ k.toNat := by
    rw [pow_mul]
    exact Nat.pow_le_pow_left (by decide) _
  have hle : 2 ^ (3 * k.toNat) ≤ numerator 0x3FF0000000000000 k := by
    rw [numerator, hexponent, pow_zero, mul_one]
    exact hpow.trans (Nat.le_mul_of_pos_left _ (by decide))
  have hsize := lt_size.mpr hle
  omega

theorem exactScaledDigits_minValue (hzero : fabs x ≠ 0) (hfinite : isFinite x = true) :
    exactScaledDigits x Int32.minValue = .error .overflow := by
  have hfinite' : isFinite (fabs x) = true := by rw [isFinite, biased_fabs]; exact hfinite
  unfold exactScaledDigits
  dsimp only
  rw [if_neg hzero, if_neg (by rw [hfinite']; decide)]
  rfl

/-- One, to two thousand million places; and to the least scale. -/
theorem exactScaledDigits_wraps :
    (¬ ∃ text, exactScaledDigits 0x3FF0000000000000 2000000000 = .ok (.ok text) ∧
      Writes text
        ⌊magnitude 0x3FF0000000000000 * (10 : ℚ) ^ (2000000000 : Int32).toInt + 1 / 2⌋₊) ∧
      exactScaledDigits 0x3FF0000000000000 Int32.minValue = .error .overflow := by
  constructor
  · exact exactScaledDigits_short (by decide) (by decide) (size_one_le (by decide))
  · exact exactScaledDigits_minValue (by decide) (by decide)

end Digits

end Bronze.Decimal
