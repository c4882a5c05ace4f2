import Bronze.BigNum.Shift

/-!
# Division of magnitudes

`divmodMagnitude`: long division in base `2 ^ 32`. Each turn guesses a digit of the quotient from
two limbs of the dividend and one of the divisor, corrects the guess with one limb more of each, and
subtracts. What is left may be one divisor too little; then it is added back.

## Main results

* `trialQuotient_spec`: the guess is the digit, or one more
* `divTurn_spec`: a turn takes off the digit's multiple of the divisor
* `divmodMagnitude_spec`: the quotient and the remainder of the values
* `divmod_truncates`: the quotient is truncated, and the remainder has the sign of the dividend
-/

namespace Bronze.BigNum

open List Nat Except

/-! ## The loops of the source -/

/-- `divModSmall`, from the top limb down; also the remainder left in `rem`. -/
def divModSmallLoop (divisor : Nat) : Magnitude → Magnitude × Nat
  | [] => ([], 0)
  | x :: m =>
    let (m, rem) := divModSmallLoop divisor m
    let cur := rem <<< 32 ||| x.toNat
    (low (cur / divisor) :: m, cur % divisor)

/-- `divModSmall`: the quotient left in the magnitude, and the remainder. -/
def divModSmall (m : Magnitude) (divisor : Nat) : Magnitude × Nat :=
  let (m, rem) := divModSmallLoop divisor m
  (popZeros m, rem)

/-- The loop that corrects `qhat`; `k` is `j + n - 2`. -/
def correctLoop (u : Magnitude) (k vHigh vNext : Nat) : Nat → Nat → Except Fault Nat
  | 0, _ => .ok 0 -- nothing is greater than a product that is zero
  | qhat + 1, rhat =>
    if rhat ≤ 0xFFFFFFFF then do
      let product ← u64 ((qhat + 1) * vNext)
      let next ← readLimb u k
      let bound ← u64 (rhat <<< 32 ||| next)
      if bound < product then do
        let rhat ← u64 (rhat + vHigh)
        correctLoop u k vHigh vNext qhat rhat
      else .ok (qhat + 1)
    else .ok (qhat + 1)

/-- `qhat`, guessed from the limbs `u[j + n]` and `u[j + n - 1]` and corrected. -/
def trialQuotient (n vHigh vNext j : Nat) (u : Magnitude) : Except Fault Nat := do
  let high ← readLimb u (j + n)
  let next ← readLimb u (j + n - 1)
  let numerator := high <<< 32 ||| next
  if 0xFFFFFFFF < numerator / vHigh then
    correctLoop u (j + n - 2) vHigh vNext 0xFFFFFFFF (numerator - 0xFFFFFFFF * vHigh)
  else correctLoop u (j + n - 2) vHigh vNext (numerator / vHigh) (numerator % vHigh)

/-- `u[j..j+n] -= qhat * v` from limb `i`, with `n` limbs to go; the carry and the borrow that are
left. -/
def mulSubLoop (v : Magnitude) (qhat j : Nat) :
    Nat → Nat → Magnitude → Nat → Int → Except Fault (Magnitude × Nat × Int)
  | 0, _, u, carry, borrow => .ok (u, carry, borrow)
  | n + 1, i, u, carry, borrow => do
    let product ← u64 (qhat * limb v i + carry)
    let old ← readLimb u (i + j)
    let diff ← i64 (old - (product &&& 0xFFFFFFFF : Nat) - borrow)
    let diff' ← i64 (if diff < 0 then diff + kBase else diff)
    mulSubLoop v qhat j n (i + 1) (u.set (i + j) (low diff'.toNat)) (product >>> 32)
      (if diff < 0 then 1 else 0)

/-- The divisor is added back from limb `i`, with `n` limbs to go; the carry that is left. -/
def addBackLoop (v : Magnitude) (j : Nat) :
    Nat → Nat → Magnitude → Nat → Except Fault (Magnitude × Nat)
  | 0, _, u, addCarry => .ok (u, addCarry)
  | n + 1, i, u, addCarry => do
    let old ← readLimb u (i + j)
    let sum ← u64 (old + limb v i + addCarry)
    addBackLoop v j n (i + 1) (u.set (i + j) (low sum)) (sum >>> 32)

def decrement (qhat : Nat) : Except Fault Nat :=
  if qhat = 0 then .error .overflow else .ok (qhat - 1)

/-- One turn of algorithm D: what is left of the dividend, and the digit. -/
def divTurn (v : Magnitude) (vHigh vNext j : Nat) (u : Magnitude) :
    Except Fault (Magnitude × Nat) := do
  let qhat ← trialQuotient v.length vHigh vNext j u
  let (u, carry, borrow) ← mulSubLoop v qhat j v.length 0 u 0 0
  let top ← readLimb u (j + v.length)
  let topDiff ← i64 (top - carry - borrow)
  if topDiff < 0 then do
    let topDiff ← i64 (topDiff + kBase)
    let qhat ← decrement qhat
    let (u, addCarry) ← addBackLoop v j v.length 0 u 0
    let topDiff ← i64 (topDiff + addCarry)
    return (u.set (j + v.length) (low topDiff.toNat), qhat)
  else return (u.set (j + v.length) (low topDiff.toNat), qhat)

/-- `quotient[j] = qhat` -/
def storeDigit (quotient : Magnitude) (j qhat : Nat) : Except Fault Magnitude :=
  if j < quotient.length then .ok (quotient.set j (low qhat)) else .error .outOfBounds

/-- The loop over `j`, from the top down. -/
def divLoop (v : Magnitude) (vHigh vNext : Nat) :
    Nat → Magnitude → Magnitude → Except Fault (Magnitude × Magnitude)
  | 0, u, quotient => .ok (u, quotient)
  | j + 1, u, quotient => do
    let (u, qhat) ← divTurn v vHigh vNext j u
    let quotient ← storeDigit quotient j qhat
    divLoop v vHigh vNext j u quotient

def resize (u : Magnitude) (n : Nat) : Magnitude := u.take n ++ replicate (n - u.length) 0

/-- `BigNum::divmodMagnitude`: the quotient and the remainder. -/
def divmodMagnitude (a b : Magnitude) : Except Fault (Magnitude × Magnitude) :=
  if compareMagnitude a b < 0 then .ok ([], a)
  else if b.length = 1 then
    let (work, rem) := divModSmall a (limb b 0)
    .ok (work, if rem ≠ 0 then [low rem] else [])
  else do
    let back ← readLimb b (b.length - 1)
    let shift := 32 - limbBits back
    let u ← shiftLeftBits a shift
    let v ← shiftLeftBits b shift
    let m := u.length - v.length
    let vHigh ← readLimb v (v.length - 1)
    let vNext ← readLimb v (v.length - 2)
    let (u, quotient) ← divLoop v vHigh vNext (m + 1) (u ++ [0]) (replicate (m + 1) 0)
    return (popZeros quotient, (shiftRightBits (resize u v.length) shift).1)

/-- `BigNum::divmod`; `none` is the answer false, for a divisor that is zero. -/
def divmod (a b : BigNum) : Except Fault (Option (BigNum × BigNum)) :=
  if b.mag.isEmpty then .ok none
  else do
    let (q, r) ← divmodMagnitude a.mag b.mag
    return some (trim { mag := q, negative := a.negative != b.negative },
      trim { mag := r, negative := a.negative })

/-! ## Guessing a digit

The divisor is `(v₁ * B + v₂) * P + vᵣ` and the dividend `(num * B + w₂) * P + wᵣ`. -/

section Guess

variable {B P v₁ v₂ vᵣ num w₂ wᵣ q r : Nat}

theorem quotient_le_guess (hw₂ : w₂ < B) (hwᵣ : wᵣ < P) (hv₁ : 0 < v₁) :
    ((num * B + w₂) * P + wᵣ) / ((v₁ * B + v₂) * P + vᵣ) ≤ num / v₁ := by
  set v := (v₁ * B + v₂) * P + vᵣ with hv
  set w := (num * B + w₂) * P + wᵣ with hw
  rw [le_div_iff_mul_le hv₁]
  have hle : w / v * v ≤ w := div_mul_le_self w v
  have hlt : w / v * v₁ * (B * P) < (num + 1) * (B * P) := by
    calc w / v * v₁ * (B * P) ≤ w / v * v := by
          rw [mul_assoc]
          apply Nat.mul_le_mul_left
          nlinarith [zero_le (v₂ * P)]
      _ ≤ w := hle
      _ < (num * B + w₂ + 1) * P := by
          rw [add_mul _ 1]
          omega
      _ ≤ (num * B + B) * P := mul_le_mul_right _ (by omega)
      _ = _ := by ring
  exact Nat.lt_succ_iff.mp (Nat.lt_of_mul_lt_mul_right hlt)

theorem quotient_lt_guess (hnum : num = q * v₁ + r) (hwᵣ : wᵣ < P) (htest : r * B + w₂ < q * v₂) :
    ((num * B + w₂) * P + wᵣ) / ((v₁ * B + v₂) * P + vᵣ) < q := by
  have hpos : 0 < q * v₂ := zero_lt_of_lt htest
  have hv : 0 < (v₁ * B + v₂) * P + vᵣ := by
    have hv₂ : 0 < v₂ := Nat.pos_of_mul_pos_left hpos
    have hP : 0 < P := zero_lt_of_lt hwᵣ
    exact Nat.add_pos_left (Nat.mul_pos (by omega) hP) _
  rw [div_lt_iff_lt_mul hv]
  calc (num * B + w₂) * P + wᵣ < (num * B + w₂ + 1) * P := by
        rw [add_mul _ 1]
        omega
    _ ≤ q * (v₁ * B + v₂) * P := by
        apply Nat.mul_le_mul_right
        rw [hnum]
        calc (q * v₁ + r) * B + w₂ + 1 = q * v₁ * B + (r * B + w₂ + 1) := by ring
          _ ≤ q * v₁ * B + q * v₂ := Nat.add_le_add_left htest _
          _ = _ := by ring
    _ = q * ((v₁ * B + v₂) * P) := by ring
    _ ≤ q * ((v₁ * B + v₂) * P + vᵣ) := Nat.mul_le_mul_left _ (Nat.le_add_right ..)

/-- **A guess that passes the test is at most one too large.** -/
theorem guess_le_succ (hnum : num = q * v₁ + r) (hq : q < B) (hv₁ : 0 < v₁) (hv₂ : v₂ < B)
    (hvᵣ : vᵣ < P) (hpass : B ≤ r ∨ q * v₂ ≤ r * B + w₂) :
    q ≤ ((num * B + w₂) * P + wᵣ) / ((v₁ * B + v₂) * P + vᵣ) + 1 := by
  set v := (v₁ * B + v₂) * P + vᵣ with hv
  set w := (num * B + w₂) * P + wᵣ with hw
  have hP : 0 < P := Nat.zero_lt_of_lt hvᵣ
  have hBP : B * P ≤ v := by
    calc B * P ≤ v₁ * B * P := Nat.mul_le_mul_right _ (Nat.le_mul_of_pos_left _ hv₁)
      _ ≤ v := by
        rw [hv, Nat.add_mul]
        omega
  have hvpos : 0 < v := (Nat.mul_pos (Nat.zero_lt_of_lt hq) hP).trans_le hBP
  -- what the guess takes off is less than one divisor more than there is
  suffices hlt : q * v < w + v by
    have hle : (q - 1) * v ≤ w := by
      rw [Nat.sub_mul]
      omega
    have := (Nat.le_div_iff_mul_le hvpos).mpr hle
    omega
  rcases hpass with hr | hpass
  · calc q * v = q * v₁ * (B * P) + q * (v₂ * P + vᵣ) := by
          ring
      _ ≤ q * v₁ * (B * P) + B * (B * P) := by
          have htail : v₂ * P + vᵣ ≤ B * P := by
            calc v₂ * P + vᵣ ≤ (v₂ + 1) * P := by
                  rw [Nat.add_mul]
                  omega
              _ ≤ B * P := Nat.mul_le_mul_right _ hv₂
          exact Nat.add_le_add_left (Nat.mul_le_mul hq.le htail) _
      _ = (q * v₁ + B) * (B * P) := by ring
      _ ≤ num * (B * P) := Nat.mul_le_mul_right _ (by omega)
      _ ≤ w := by
          rw [hw, Nat.add_mul, Nat.mul_assoc]
          omega
      _ < w + v := Nat.lt_add_of_pos_right hvpos
  · calc q * v = q * (v₁ * B + v₂) * P + q * vᵣ := by
          ring
      _ ≤ (num * B + w₂) * P + q * vᵣ := by
          apply Nat.add_le_add_right
          apply Nat.mul_le_mul_right
          rw [hnum]
          calc q * (v₁ * B + v₂) = q * v₁ * B + q * v₂ := by ring
            _ ≤ q * v₁ * B + (r * B + w₂) := Nat.add_le_add_left hpass _
            _ = _ := by ring
      _ < w + v := by
          have htail : q * vᵣ < B * P := by
            calc q * vᵣ ≤ B * vᵣ := Nat.mul_le_mul_right _ hq.le
              _ < B * P := Nat.mul_lt_mul_of_pos_left hvᵣ (Nat.zero_lt_of_lt hq)
          omega

end Guess

theorem or_shift_eq {x y : Nat} (hy : y < 2 ^ 32) : x <<< 32 ||| y = x * kBase + y := by
  rw [shiftLeft_eq, mul_comm, ← two_pow_add_eq_or_of_lt hy, kBase, mul_comm]

theorem divModSmallLoop_spec {divisor : Nat} (hpos : 0 < divisor) (m : Magnitude) :
    value (divModSmallLoop divisor m).1 = value m / divisor ∧
      (divModSmallLoop divisor m).2 = value m % divisor := by
  induction m with
  | nil => exact ⟨(Nat.zero_div _).symm, (Nat.zero_mod _).symm⟩
  | cons x m ih =>
    obtain ⟨hquotient, hrem⟩ := ih
    have hx : x.toNat < 2 ^ 32 := x.toNat_lt
    have hremlt : value m % divisor < divisor := mod_lt _ hpos
    set cur := value m % divisor * kBase + x.toNat with hcur
    have hdigit : cur / divisor < 2 ^ 32 := by
      rw [div_lt_iff_lt_mul hpos]
      calc value m % divisor * kBase + x.toNat < (value m % divisor + 1) * kBase := by
            rw [kBase]
            omega
        _ ≤ divisor * 2 ^ 32 := mul_le_mul_right _ hremlt
        _ = 2 ^ 32 * divisor := mul_comm ..
    have hvalue : value (x :: m) = cur + divisor * (kBase * (value m / divisor)) := by
      have hm := mod_add_div (value m) divisor
      calc value (x :: m)
          = x.toNat + kBase * (value m % divisor + divisor * (value m / divisor)) := by
            rw [value_cons, hm]
        _ = _ := by
            ring
    have hloop : divModSmallLoop divisor (x :: m) =
        (low (cur / divisor) :: (divModSmallLoop divisor m).1, cur % divisor) := by
      rw [divModSmallLoop]
      dsimp only
      rw [hrem, or_shift_eq hx]
    rw [hloop, hvalue]
    refine ⟨?_, (add_mul_mod_self_left ..).symm⟩
    rw [value_cons, low_toNat, mod_eq_of_lt hdigit, hquotient, add_mul_div_left _ _ hpos]

/-- **Short division**: the quotient is trimmed. -/
theorem divModSmall_spec {divisor : Nat} (hpos : 0 < divisor) (m : Magnitude) :
    Trimmed (divModSmall m divisor).1 ∧ value (divModSmall m divisor).1 = value m / divisor ∧
      (divModSmall m divisor).2 = value m % divisor := by
  obtain ⟨hquotient, hrem⟩ := divModSmallLoop_spec hpos m
  refine ⟨trimmed_popZeros _, ?_, hrem⟩
  change value (popZeros _) = _
  rw [value_popZeros, hquotient]

variable {u v : Magnitude} {k t j : Nat}

theorem readLimb_ok (hk : k < u.length) : readLimb u k = .ok (limb u k) := if_pos hk

theorem drop_set_above (hk : k < t) (x : UInt32) : (u.set k x).drop t = u.drop t :=
  drop_set_of_lt hk

/-- The multiple of the divisor is taken off, up to what is carried out of the limbs. -/
theorem mulSubLoop_spec {qhat : Nat} (hq : qhat < 2 ^ 32) :
    ∀ (n i : Nat) (u : Magnitude) (carry : Nat) (borrow : Int), carry < 2 ^ 32 →
      borrow = 0 ∨ borrow = 1 → i + j + n ≤ u.length →
      ∃ u' carry', ∃ borrow' : Int,
        mulSubLoop v qhat j n i u carry borrow = .ok (u', carry', borrow') ∧
        carry' < 2 ^ 32 ∧ (borrow' = 0 ∨ borrow' = 1) ∧ u'.length = u.length ∧
        u'.drop (i + j + n) = u.drop (i + j + n) ∧
        (value u' : Int) + (kBase : Int) ^ j * (qhat * value (v.take (i + n))) +
            (kBase : Int) ^ (i + j) * (carry + borrow) =
          value u + (kBase : Int) ^ j * (qhat * value (v.take i)) +
            (kBase : Int) ^ (i + j + n) * (carry' + borrow') := by
  intro n
  induction n with
  | zero =>
    intro i u carry borrow hc hb hlen
    exact ⟨u, carry, borrow, rfl, hc, hb, rfl, rfl, rfl⟩
  | succ n ih =>
    intro i u carry borrow hc hb hlen
    have hk : i + j < u.length := by omega
    have hu := limb_lt u (i + j)
    have hv := limb_lt v i
    set product := qhat * limb v i + carry with hproduct
    have hfits : product < 2 ^ 64 := by
      have := @step_lt 0 _ _ _ (by decide) hq hv hc
      omega
    have hmask : product &&& 0xFFFFFFFF = product % 2 ^ 32 := and_two_pow_sub_one_eq_mod _ 32
    have hsplit : product % 2 ^ 32 + kBase * (product >>> 32) = product := by
      exact low_add_shift product
    set diff : Int := limb u (i + j) - (product % 2 ^ 32 : Nat) - borrow with hdiff
    set stored := if diff < 0 then diff + kBase else diff with hstored
    have hbase : (kBase : Int) = 2 ^ 32 := rfl
    have hrange : 0 ≤ stored ∧ stored < 2 ^ 32 := by
      rw [hstored]
      split_ifs <;> omega
    have hcast : ((low stored.toNat).toNat : Int) = diff + kBase * (if diff < 0 then 1 else 0) := by
      rw [low_toNat]
      split_ifs at hrange ⊢ <;> omega
    obtain ⟨u', carry', borrow', hrun, hc', hb', hlen', hdrop, hvalue⟩ := ih (i + 1)
      (u.set (i + j) (low stored.toNat)) (product >>> 32) (if diff < 0 then 1 else 0)
      (shift_carry_lt hfits) (by split_ifs <;> simp) (by rw [length_set]; omega)
    have hindex : i + 1 + j + n = i + j + (n + 1) := by omega
    rw [length_set] at hlen'
    rw [hindex] at hdrop hvalue
    refine ⟨u', carry', borrow', ?_, hc', hb', hlen', ?_, ?_⟩
    · rw [mulSubLoop, u64_ok hfits, readLimb_ok hk]
      dsimp only [bind, Except.bind]
      rw [hmask, i64_ok (by omega) (by omega)]
      dsimp only
      rw [i64_ok (by omega) (by omega)]
      exact hrun
    · rw [hdrop]
      exact drop_set_above (by omega) _
    · have hset := value_set hk (low stored.toNat)
      have hset : (value (u.set (i + j) (low stored.toNat)) : Int) +
          (kBase : Int) ^ (i + j) * limb u (i + j) =
          value u + (kBase : Int) ^ (i + j) * (diff + kBase * (if diff < 0 then 1 else 0)) := by
        rw [← hcast]
        exact_mod_cast hset
      have hsplit : ((product % 2 ^ 32 : Nat) : Int) + kBase * (product >>> 32 : Nat) =
          qhat * limb v i + carry := by exact_mod_cast hsplit
      have htake : (value (v.take (i + 1)) : Int) =
          value (v.take i) + (kBase : Int) ^ i * limb v i := by
        exact_mod_cast value_take_succ v i
      have hshift : i + 1 + n = i + (n + 1) := by omega
      have hpow : (kBase : Int) ^ (i + 1 + j) = (kBase : Int) ^ (i + j) * kBase := by
        rw [← pow_succ]
        congr 1
        omega
      have hweight : (kBase : Int) ^ j * (kBase : Int) ^ i = (kBase : Int) ^ (i + j) := by
        rw [← pow_add, add_comm]
      rw [hshift, htake] at hvalue
      linear_combination hvalue + hset - (kBase : Int) ^ (i + j) * hsplit +
        (kBase : Int) ^ (i + j) * hdiff - qhat * limb v i * hweight

theorem addBackLoop_spec :
    ∀ (n i : Nat) (u : Magnitude) (addCarry : Nat), addCarry ≤ 1 → i + j + n ≤ u.length →
      ∃ u' addCarry', addBackLoop v j n i u addCarry = .ok (u', addCarry') ∧ addCarry' ≤ 1 ∧
        u'.length = u.length ∧ u'.drop (i + j + n) = u.drop (i + j + n) ∧
        value u' + kBase ^ j * value (v.take i) + kBase ^ (i + j + n) * addCarry' =
          value u + kBase ^ j * value (v.take (i + n)) + kBase ^ (i + j) * addCarry := by
  intro n
  induction n with
  | zero =>
    intro i u addCarry hc hlen
    exact ⟨u, addCarry, rfl, hc, rfl, rfl, rfl⟩
  | succ n ih =>
    intro i u addCarry hc hlen
    have hk : i + j < u.length := by omega
    have hu := limb_lt u (i + j)
    have hv := limb_lt v i
    set sum := limb u (i + j) + limb v i + addCarry with hsum
    obtain ⟨u', addCarry', hrun, hc', hlen', hdrop, hvalue⟩ := ih (i + 1)
      (u.set (i + j) (low sum)) (sum >>> 32) (shift_sum_le hu hv hc)
      (by rw [length_set]; omega)
    have hindex : i + 1 + j + n = i + j + (n + 1) := by omega
    rw [length_set] at hlen'
    rw [hindex] at hdrop hvalue
    refine ⟨u', addCarry', ?_, hc', hlen', ?_, ?_⟩
    · rw [addBackLoop, readLimb_ok hk]
      dsimp only [bind, Except.bind]
      rw [u64_ok (by omega)]
      exact hrun
    · rw [hdrop]
      exact drop_set_above (by omega) _
    · have hstore := value_store hk sum
      have hshift : i + 1 + n = i + (n + 1) := by omega
      have hpow : i + 1 + j = i + j + 1 := by omega
      have hweight : kBase ^ j * kBase ^ i = kBase ^ (i + j) := by
        rw [← pow_add, add_comm]
      rw [hshift, hpow, value_take_succ v i, mul_add, ← mul_assoc (kBase ^ j), hweight] at hvalue
      have hsplit : kBase ^ (i + j) * sum = kBase ^ (i + j) * limb u (i + j) +
          kBase ^ (i + j) * limb v i + kBase ^ (i + j) * addCarry := by
        ring
      omega

/-- Every turn of the correction keeps the guess at the digit or above, and the last is at most one
above. -/
theorem correctLoop_spec {vHigh vNext P vᵣ num wᵣ : Nat} (hk : k < u.length) (hv₁ : 0 < vHigh)
    (hv₁lt : vHigh < 2 ^ 32) (hv₂ : vNext < 2 ^ 32) (hvᵣ : vᵣ < P) (hwᵣ : wᵣ < P) :
    ∀ qhat rhat, num = qhat * vHigh + rhat → qhat < 2 ^ 32 →
      ((num * kBase + limb u k) * P + wᵣ) / ((vHigh * kBase + vNext) * P + vᵣ) ≤ qhat →
      ∃ q, correctLoop u k vHigh vNext qhat rhat = .ok q ∧ q < 2 ^ 32 ∧
        ((num * kBase + limb u k) * P + wᵣ) / ((vHigh * kBase + vNext) * P + vᵣ) ≤ q ∧
        q ≤ ((num * kBase + limb u k) * P + wᵣ) / ((vHigh * kBase + vNext) * P + vᵣ) + 1 := by
  intro qhat
  induction qhat with
  | zero =>
    intro rhat _ _ hle
    exact ⟨0, rfl, by decide, hle, zero_le _⟩
  | succ qhat ih =>
    intro rhat hnum hq hle
    have hw₂ := limb_lt u k
    have hdone : kBase ≤ rhat ∨ (qhat + 1) * vNext ≤ rhat * kBase + limb u k →
        qhat + 1 ≤ ((num * kBase + limb u k) * P + wᵣ) / ((vHigh * kBase + vNext) * P + vᵣ) + 1 :=
      guess_le_succ hnum hq hv₁ hv₂ hvᵣ
    rw [correctLoop]
    split
    · next hrhat =>
      have hproduct : (qhat + 1) * vNext < 2 ^ 64 := by
        have := @step_lt 0 _ _ _ (by decide) hq hv₂ (by decide : 0 < 2 ^ 32)
        omega
      have hbound : rhat * kBase + limb u k < 2 ^ 64 := by
        rw [kBase]
        omega
      rw [u64_ok hproduct, readLimb_ok hk]
      dsimp only [bind, Except.bind]
      rw [or_shift_eq hw₂, u64_ok hbound]
      dsimp only
      split
      · next htest =>
        rw [u64_ok (by omega)]
        apply ih
        · rw [hnum]
          ring
        · omega
        · exact Nat.lt_succ_iff.mp (quotient_lt_guess hnum hwᵣ htest)
      · next htest =>
        exact ⟨qhat + 1, rfl, hq, hle, hdone (.inr (not_lt.mp htest))⟩
    · next hrhat =>
      refine ⟨qhat + 1, rfl, hq, hle, hdone (.inl ?_)⟩
      rw [kBase]
      omega

/-- The digits from `k` on: one, and those above it. -/
theorem value_div_pow (m : Magnitude) (k : Nat) :
    value m / kBase ^ k = value m / kBase ^ (k + 1) * kBase + limb m k := by
  rw [limb_eq_div, pow_succ, ← Nat.div_div_eq_div_mul, Nat.mul_comm, Nat.div_add_mod]

/-- **The trial quotient** is the digit of the quotient or one more. -/
theorem trialQuotient_spec (hn : 2 ≤ v.length) (htop : 0 < limb v (v.length - 1))
    (hu : j + v.length < u.length) (hlt : value u < value v * kBase ^ (j + 1)) :
    ∃ q, trialQuotient v.length (limb v (v.length - 1)) (limb v (v.length - 2)) j u = .ok q ∧
      q < 2 ^ 32 ∧ value u / kBase ^ j / value v ≤ q ∧ q ≤ value u / kBase ^ j / value v + 1 := by
  obtain ⟨p, hp⟩ : ∃ p, v.length = p + 2 := ⟨v.length - 2, by omega⟩
  have hbase : 0 < kBase ^ p := Nat.pow_pos kBase_pos
  have hone : v.length - 1 = p + 1 := by omega
  have htwo : v.length - 2 = p := by omega
  rw [hone] at htop
  rw [hone, hp]
  rw [hp] at hu
  -- the leading limbs of the divisor and of the dividend, over the same power
  have hv : value v = (limb v (p + 1) * kBase + limb v p) * kBase ^ p + value v % kBase ^ p := by
    have hover : value v / kBase ^ (p + 1 + 1) = 0 := by
      rw [← hp]
      exact Nat.div_eq_of_lt (value_lt v)
    have hhigh : value v / kBase ^ p = limb v (p + 1) * kBase + limb v p := by
      simp [value_div_pow, hover]
    rw [← hhigh, Nat.mul_comm, Nat.div_add_mod]
  have hdivisor : value v < kBase ^ (p + 2) := by
    rw [← hp]
    exact value_lt v
  have hdividend : value u < kBase ^ (j + p + 3) := by
    calc value u < value v * kBase ^ (j + 1) := hlt
      _ ≤ kBase ^ (p + 2) * kBase ^ (j + 1) := Nat.mul_le_mul_right _ hdivisor.le
      _ = _ := by
        rw [← pow_add]
        congr 1
        omega
  set num := limb u (j + p + 2) * kBase + limb u (j + p + 1) with hnum
  have hw : value u / kBase ^ j =
      (num * kBase + limb u (j + p)) * kBase ^ p + value u / kBase ^ j % kBase ^ p := by
    have hover : value u / kBase ^ (j + p + 2 + 1) = 0 := Nat.div_eq_of_lt hdividend
    have hhigh : value u / kBase ^ j / kBase ^ p = num * kBase + limb u (j + p) := by
      rw [Nat.div_div_eq_div_mul, ← pow_add, value_div_pow, value_div_pow u (j + p + 1),
        value_div_pow u (j + p + 2), hover, Nat.zero_mul, Nat.zero_add]
    rw [← hhigh, Nat.mul_comm, Nat.div_add_mod]
  have hdigit : value u / kBase ^ j / value v < kBase := by
    have hpos : 0 < value v := by
      by_contra hzero
      rw [Nat.eq_zero_of_not_pos hzero, Nat.zero_mul] at hlt
      exact absurd hlt (Nat.not_lt_zero _)
    rw [Nat.div_lt_iff_lt_mul hpos]
    apply Nat.div_lt_of_lt_mul
    calc value u < value v * kBase ^ (j + 1) := hlt
      _ = _ := by
        ring
  have hguess : value u / kBase ^ j / value v ≤ num / limb v (p + 1) := by
    conv_lhs => rw [hw, hv]
    exact quotient_le_guess (limb_lt u _) (Nat.mod_lt _ hbase) htop
  have hread : j + (p + 2) - 1 = j + p + 1 := by omega
  have hread₂ : j + (p + 2) - 2 = j + p := by omega
  unfold trialQuotient
  rw [hread, readLimb_ok hu, readLimb_ok (by omega)]
  dsimp only [bind, Except.bind]
  rw [or_shift_eq (limb_lt u _), ← Nat.add_assoc, ← hnum]
  have hcorrect : ∀ qhat rhat, num = qhat * limb v (p + 1) + rhat → qhat < 2 ^ 32 →
      value u / kBase ^ j / value v ≤ qhat →
      ∃ q, correctLoop u (j + p) (limb v (p + 1)) (limb v p) qhat rhat = .ok q ∧ q < 2 ^ 32 ∧
        value u / kBase ^ j / value v ≤ q ∧ q ≤ value u / kBase ^ j / value v + 1 := by
    intro qhat rhat
    rw [hw, hv]
    exact correctLoop_spec (by omega) htop (limb_lt v _) (limb_lt v _) (Nat.mod_lt _ hbase)
      (Nat.mod_lt _ hbase) qhat rhat
  split
  · next hclamp =>
    -- the guess does not fit a limb: the largest limb is still not below the digit
    apply hcorrect
    · have := Nat.div_mul_le_self num (limb v (p + 1))
      have := Nat.mul_le_mul_right (limb v (p + 1)) hclamp.le
      omega
    · decide
    · exact Nat.lt_succ_iff.mp hdigit
  · next hfits =>
    apply hcorrect
    · rw [Nat.mul_comm, Nat.div_add_mod]
    · omega
    · exact hguess

/-! ## One turn -/

theorem value_top (hlt : value u < kBase ^ (t + 1)) :
    value u = value (u.take t) + kBase ^ t * limb u t ∧ value (u.take t) < kBase ^ t := by
  refine ⟨?_, ?_⟩
  · have hover : value u / kBase ^ (t + 1) = 0 := div_eq_of_lt hlt
    have hdigit := value_div_pow u t
    rw [hover, zero_mul, zero_add] at hdigit
    rw [value_take, ← hdigit, mod_add_div]
  · rw [value_take]
    exact Nat.mod_lt _ (Nat.pow_pos kBase_pos)

/-- Two magnitudes with the same limbs from `t` on are both below the weight of limb `t + 1`, or
neither is, and have the same limb `t`. -/
theorem value_lt_of_drop {u' : Magnitude} (ht : t ≤ u.length) (hlen : u'.length = u.length)
    (hdrop : u'.drop t = u.drop t) (hlt : value u < kBase ^ (t + 1)) :
    value u' < kBase ^ (t + 1) ∧ limb u' t = limb u t := by
  have hsplit : ∀ m, t ≤ m.length →
      value m = value (m.take t) + kBase ^ t * value (m.drop t) := by
    intro m hm
    conv_lhs => rw [← take_append_drop t m]
    rw [value_append, length_take_of_le hm]
  have hdiv : ∀ m, t ≤ m.length → value m / kBase ^ t = value (m.drop t) := by
    intro m hm
    have htake : value (m.take t) < kBase ^ t := by
      rw [value_take]
      exact Nat.mod_lt _ (Nat.pow_pos kBase_pos)
    rw [hsplit m hm, Nat.add_mul_div_left _ _ (Nat.pow_pos kBase_pos), Nat.div_eq_of_lt htake,
      Nat.zero_add]
  have hsame : value u' / kBase ^ t = value u / kBase ^ t := by
    rw [hdiv u' (by omega), hdiv u ht, hdrop]
  refine ⟨?_, ?_⟩
  · rw [pow_succ'] at hlt ⊢
    rw [← Nat.div_lt_iff_lt_mul (Nat.pow_pos kBase_pos)] at hlt ⊢
    rwa [hsame]
  · rw [limb_eq_div, limb_eq_div, hsame]

/-- Storing limb `t` of a magnitude that has none above it. -/
theorem value_set_top (ht : t < u.length) (hlt : value u < kBase ^ (t + 1)) (x : UInt32) :
    value (u.set t x) = value (u.take t) + kBase ^ t * x.toNat := by
  have hset := value_set ht x
  have htop := (value_top hlt).1
  omega

section Turn

variable {u v : Magnitude} {j : Nat}

/-- What a turn has computed when it looks at the top limb. -/
structure Subtracted (v : Magnitude) (j : Nat) (u : Magnitude) (qhat : Nat) (u₁ : Magnitude)
    (carry : Nat) (borrow : Int) : Prop where
  guess : trialQuotient v.length (limb v (v.length - 1)) (limb v (v.length - 2)) j u = .ok qhat
  run : mulSubLoop v qhat j v.length 0 u 0 0 = .ok (u₁, carry, borrow)
  length : u₁.length = u.length
  carry_lt : carry < 2 ^ 32
  borrow_range : borrow = 0 ∨ borrow = 1
  fits : value u₁ < kBase ^ (j + v.length + 1)
  /-- What is left of the dividend, with the difference of the top limbs for its top limb. -/
  left : (value (u₁.take (j + v.length)) : Int) +
      (kBase : Int) ^ (j + v.length) * (limb u₁ (j + v.length) - carry - borrow) =
    value u - (kBase ^ j * value v : Nat) * qhat
  /-- The difference is negative when the guess is one too large, and then by one. -/
  top : qhat = value u / (kBase ^ j * value v) ∧
        0 ≤ (limb u₁ (j + v.length) : Int) - carry - borrow ∨
      qhat = value u / (kBase ^ j * value v) + 1 ∧
        (limb u₁ (j + v.length) : Int) - carry - borrow = -1

variable (hn : 2 ≤ v.length)

include hn

variable (htop : 0 < limb v (v.length - 1))

include htop

theorem exists_subtracted
    (hu : j + v.length < u.length) (hlt : value u < kBase ^ j * value v * kBase) :
    ∃ qhat u₁ carry borrow, Subtracted v j u qhat u₁ carry borrow := by
  set D := kBase ^ j * value v with hD
  have hDlt : D < kBase ^ (j + v.length) := by
    rw [pow_add]
    exact Nat.mul_lt_mul_of_pos_left (value_lt v) (Nat.pow_pos kBase_pos)
  have hDpos : 0 < D := by
    by_contra hzero
    rw [Nat.eq_zero_of_not_pos hzero] at hlt
    exact absurd hlt (Nat.not_lt_zero _)
  have hufits : value u < kBase ^ (j + v.length + 1) := by
    calc value u < D * kBase := hlt
      _ ≤ kBase ^ (j + v.length) * kBase := Nat.mul_le_mul_right _ hDlt.le
      _ = _ := (pow_succ ..).symm
  obtain ⟨qhat, hguess, hqhat, hle, hge⟩ := trialQuotient_spec hn htop hu (by
    calc value u < D * kBase := hlt
      _ = _ := by
        ring)
  rw [Nat.div_div_eq_div_mul] at hle hge
  obtain ⟨u₁, carry, borrow, hrun, hcarry, hborrow, hlen, hdrop, hvalue⟩ :=
    mulSubLoop_spec (v := v) (j := j) hqhat v.length 0 u 0 0 (by decide) (.inl rfl) (by omega)
  rw [Nat.zero_add] at hdrop hvalue
  obtain ⟨hfits, -⟩ := value_lt_of_drop (by omega) hlen hdrop hufits
  obtain ⟨hsplit, hbelow⟩ := value_top hfits
  set t := j + v.length with htdef
  set topDiff : Int := limb u₁ t - carry - borrow with htopDiff
  have hleft : (value (u₁.take t) : Int) + (kBase : Int) ^ t * topDiff = value u - D * qhat := by
    have hsplit : (value u₁ : Int) = value (u₁.take t) + (kBase : Int) ^ t * limb u₁ t := by
      exact_mod_cast hsplit
    have hDint : (D : Int) = (kBase : Int) ^ j * value v := by exact_mod_cast hD
    rw [take_zero, value_nil, take_of_length_le le_rfl] at hvalue
    rw [hDint]
    linear_combination hvalue - hsplit
  refine ⟨qhat, u₁, carry, borrow, hguess, hrun, hlen, hcarry, hborrow, hfits, hleft, ?_⟩
  rw [← htdef]
  have hremlt : value u % D < D := Nat.mod_lt _ hDpos
  have hrem : D * (value u / D) + value u % D = value u := Nat.div_add_mod ..
  set q := value u / D with hq
  have hweight : ((kBase ^ t : Nat) : Int) = (kBase : Int) ^ t := by push_cast; rfl
  rcases Nat.lt_or_ge q qhat with h | h
  · -- one too many: what is left is negative, but no less than minus the divisor
    obtain rfl : qhat = q + 1 := by omega
    push_cast at hleft
    rw [Int.mul_add] at hleft
    refine .inr ⟨rfl, ?_⟩
    have hneg : topDiff < 0 := by
      by_contra hpos
      have hup : 0 ≤ (kBase : Int) ^ t * topDiff := mul_nonneg (by positivity) (by omega)
      omega
    by_contra hne
    have hdown : (kBase : Int) ^ t * topDiff ≤ (kBase : Int) ^ t * (-2) :=
      Int.mul_le_mul_of_nonneg_left (by omega) (by positivity)
    omega
  · obtain rfl : qhat = q := le_antisymm h hle
    refine .inl ⟨rfl, ?_⟩
    by_contra hneg
    have hdown : (kBase : Int) ^ t * topDiff ≤ (kBase : Int) ^ t * (-1) :=
      Int.mul_le_mul_of_nonneg_left (by omega) (by positivity)
    omega

/-- **A turn** divides what is left of the dividend by the divisor at weight `j`. -/
theorem divTurn_spec (hu : j + v.length < u.length) (hlt : value u < kBase ^ j * value v * kBase) :
    ∃ u', divTurn v (limb v (v.length - 1)) (limb v (v.length - 2)) j u =
        .ok (u', value u / (kBase ^ j * value v)) ∧
      u'.length = u.length ∧ value u' = value u % (kBase ^ j * value v) := by
  obtain ⟨qhat, u₁, carry, borrow, hsub⟩ := exists_subtracted hn htop hu hlt
  obtain ⟨hguess, hrun, hlen, hcarry, hborrow, hfits, hleft, hqhat⟩ := hsub
  obtain ⟨hsplit, hbelow⟩ := value_top hfits
  have hrem : kBase ^ j * value v * (value u / (kBase ^ j * value v)) +
      value u % (kBase ^ j * value v) = value u := div_add_mod ..
  set D := kBase ^ j * value v with hD
  set q := value u / D with hq
  set t := j + v.length with ht
  have htop₁ : t < u₁.length := by omega
  have hlimb := limb_lt u₁ t
  have hweight : ((kBase ^ t : Nat) : Int) = (kBase : Int) ^ t := by push_cast; rfl
  have hbase : (kBase : Int) = 2 ^ 32 := rfl
  unfold divTurn
  rw [hguess]
  dsimp only [bind, Except.bind]
  rw [hrun]
  dsimp only
  rw [readLimb_ok htop₁]
  dsimp only
  rw [i64_ok (by omega) (by omega)]
  dsimp only
  rcases hqhat with ⟨hqhat, hpos⟩ | ⟨hqhat, hneg⟩
  · rw [if_neg (by omega), hqhat]
    set topDiff : Int := limb u₁ t - carry - borrow with htopDiff
    refine ⟨_, rfl, by simp [hlen], ?_⟩
    rw [value_set_top htop₁ hfits]
    have hstored : ((low topDiff.toNat).toNat : Int) = topDiff := by
      rw [low_toNat]
      omega
    rw [hqhat] at hleft
    have hgoal : ((value (u₁.take t) + kBase ^ t * (low topDiff.toNat).toNat : Nat) : Int) =
        (value u % D : Nat) := by
      push_cast [hstored]
      omega
    exact_mod_cast hgoal
  · -- the guess was one too large: the divisor added back carries out of the limbs
    rw [hneg]
    rw [hneg, hqhat] at hleft
    push_cast at hleft
    rw [Int.mul_add] at hleft
    obtain ⟨u₂, addCarry, hrun₂, haddCarry, hlen₂, hdrop₂, hvalue₂⟩ :=
      addBackLoop_spec (v := v) (j := j) v.length 0 u₁ 0 (by decide) (by omega)
    rw [zero_add] at hdrop₂
    rw [take_zero, value_nil, zero_add, zero_add, take_of_length_le le_rfl, ← ht] at hvalue₂
    obtain ⟨hfits₂, hlimb₂⟩ := value_lt_of_drop htop₁.le hlen₂ hdrop₂ hfits
    obtain ⟨hsplit₂, hbelow₂⟩ := value_top hfits₂
    rw [hlimb₂] at hsplit₂
    obtain rfl : addCarry = 1 := by
      rcases le_one_iff_eq_zero_or_eq_one.mp haddCarry with rfl | rfl
      · omega
      · rfl
    have hdecrement : decrement qhat = .ok q := by
      simp [hqhat, decrement]
    rw [hdecrement]
    rw [hrun₂]
    dsimp only
    refine ⟨_, rfl, by simp [hlen₂, hlen], ?_⟩
    have hstored : (low (-1 + (kBase : Int) + (1 : Nat)).toNat).toNat = 0 := by decide
    rw [value_set_top (by omega) hfits₂, hstored]
    omega

/-- The digits found so far and what is left of the dividend make up the dividend, times the
divisor. -/
theorem divLoop_spec :
    ∀ (j : Nat) (u quotient : Magnitude), j + v.length ≤ u.length → j ≤ quotient.length →
      value u < value v * kBase ^ j → kBase ^ j ∣ value quotient →
      ∃ u' quotient', divLoop v (limb v (v.length - 1)) (limb v (v.length - 2)) j u quotient =
          .ok (u', quotient') ∧
        u'.length = u.length ∧ value u' < value v ∧
        value quotient' * value v + value u' = value quotient * value v + value u := by
  intro j
  induction j with
  | zero =>
    intro u quotient _ _ hlt _
    rw [pow_zero, Nat.mul_one] at hlt
    exact ⟨u, quotient, rfl, rfl, hlt, rfl⟩
  | succ j ih =>
    intro u quotient hu hquotient hlt hdvd
    have hDpos : 0 < kBase ^ j * value v := by
      by_contra hzero
      rw [pow_succ', Nat.mul_comm, Nat.mul_assoc, Nat.eq_zero_of_not_pos hzero] at hlt
      exact absurd hlt (Nat.not_lt_zero _)
    have hlt' : value u < kBase ^ j * value v * kBase := by
      calc value u < value v * kBase ^ (j + 1) := hlt
        _ = _ := by ring
    obtain ⟨u₁, hturn, hlen₁, hvalue₁⟩ := divTurn_spec (j := j) hn htop (by omega) hlt'
    set q := value u / (kBase ^ j * value v) with hq
    have hqlt : q < 2 ^ 32 := (Nat.div_lt_iff_lt_mul hDpos).mpr (by
      rw [Nat.mul_comm]
      exact hlt')
    have hzero : limb quotient j = 0 := by
      rw [limb_eq_div]
      obtain ⟨c, hc⟩ := hdvd
      rw [hc, pow_succ, Nat.mul_assoc, Nat.mul_div_cancel_left _ (Nat.pow_pos kBase_pos),
        Nat.mul_mod_right]
    have hset : value (quotient.set j (low q)) = value quotient + kBase ^ j * q := by
      have := value_set hquotient (low q)
      rw [hzero, low_toNat, Nat.mod_eq_of_lt hqlt] at this
      exact this
    obtain ⟨u', quotient', hrun, hlen', hlt'', hvalue'⟩ := ih u₁ (quotient.set j (low q))
      (by omega) (by rw [length_set]; omega) (by
        rw [hvalue₁, Nat.mul_comm (value v)]
        exact Nat.mod_lt _ hDpos) (by
        rw [hset]
        exact (Nat.dvd_add_right ((Nat.pow_dvd_pow kBase (Nat.le_succ j)).trans hdvd)).mpr
          (Nat.dvd_mul_right ..))
    refine ⟨u', quotient', ?_, by rw [hlen', hlen₁], hlt'', ?_⟩
    · rw [divLoop, hturn]
      dsimp only [bind, Except.bind]
      rw [storeDigit, if_pos (show j < quotient.length from hquotient)]
      exact hrun
    · have hsplit := Nat.div_add_mod (value u) (kBase ^ j * value v)
      rw [← hvalue₁] at hsplit
      calc value quotient' * value v + value u'
          = value (quotient.set j (low q)) * value v + value u₁ := hvalue'
        _ = value quotient * value v + (kBase ^ j * value v * q + value u₁) := by
            rw [hset]
            ring
        _ = _ := by rw [hsplit]

end Turn

/-! ## Long division -/

theorem Trimmed.top_pos {m : Magnitude} (h : Trimmed m) (hne : m ≠ []) :
    0 < limb m (m.length - 1) := by
  rcases eq_nil_or_concat m with hnil | ⟨l, x, hm⟩
  · exact absurd hnil hne
  · have hx : x ≠ 0 := h x (by simp [hm])
    have htop : limb m (m.length - 1) = x.toNat := by simp [hm, limb]
    rw [htop, pos_iff_ne_zero]
    intro hzero
    exact hx (UInt32.toNat_inj.mp hzero)

/-- The shift that brings the top bit of the divisor to the top of its limb. -/
def normalization (b : Magnitude) : Nat := 32 - limbBits (limb b (b.length - 1))

/-- The turns that the loop of `divmodMagnitude` takes, with the divisor shifted to `v`. -/
inductive TurnOf (a b v : Magnitude) : Nat → Magnitude → Prop
  | first {u : Magnitude} : ¬ compareMagnitude a b < 0 → b.length ≠ 1 →
      shiftLeftBits a (normalization b) = .ok u → shiftLeftBits b (normalization b) = .ok v →
      TurnOf a b v (u.length - v.length) (u ++ [0])
  | next {j q : Nat} {u u' : Magnitude} : TurnOf a b v (j + 1) u →
      divTurn v (limb v (v.length - 1)) (limb v (v.length - 2)) (j + 1) u = .ok (u', q) →
      TurnOf a b v j u'

section LongDivision

variable {a b u v : Magnitude}

theorem compareMagnitude_neg_iff (ha : Trimmed a) (hb : Trimmed b) :
    compareMagnitude a b < 0 ↔ value a < value b := by
  rw [compareMagnitude_eq ha hb, order, Int.sign_neg_iff]
  omega

theorem normalized (ha : Trimmed a) (hb : Trimmed b) (hne : b ≠ [])
    (hge : ¬ compareMagnitude a b < 0) (hlen : b.length ≠ 1)
    (hu : shiftLeftBits a (normalization b) = .ok u)
    (hv : shiftLeftBits b (normalization b) = .ok v) :
    value u = value a * 2 ^ normalization b ∧ value v = value b * 2 ^ normalization b ∧
      2 ≤ v.length ∧ 0 < limb v (v.length - 1) ∧ v.length ≤ u.length ∧
      value u < kBase ^ (u.length - v.length) * value v * kBase := by
  have hge : value b ≤ value a := by
    rw [compareMagnitude_neg_iff ha hb] at hge
    exact not_lt.mp hge
  obtain ⟨u', hu', -, hvalueu⟩ := shiftLeftBits_spec a (normalization b)
  obtain ⟨v', hv', htrimmed, hvaluev⟩ := shiftLeftBits_spec b (normalization b)
  obtain rfl := ok.inj (hu.symm.trans hu')
  obtain rfl := ok.inj (hv.symm.trans hv')
  have hblen : 2 ≤ b.length := by
    have := length_pos_iff.mpr hne
    omega
  have hpow : 0 < 2 ^ normalization b := by positivity
  have hvlen : b.length ≤ v.length := by
    apply length_le_of_value_le hb
    rw [hvaluev]
    exact Nat.le_mul_of_pos_right _ hpow
  have hvne : v ≠ [] := by
    intro hnil
    rw [hnil, length_nil] at hvlen
    omega
  have hulen : v.length ≤ u.length := by
    apply length_le_of_value_le htrimmed
    rw [hvaluev, hvalueu]
    exact mul_le_mul_right _ hge
  refine ⟨hvalueu, hvaluev, by omega, htrimmed.top_pos hvne, hulen, ?_⟩
  calc value u < kBase ^ u.length := value_lt u
    _ = kBase ^ (u.length - v.length) * kBase ^ (v.length - 1) * kBase := by
        rw [mul_assoc, ← pow_succ, ← pow_add]
        congr 1
        omega
    _ ≤ kBase ^ (u.length - v.length) * value v * kBase := by
        apply Nat.mul_le_mul_right
        exact mul_le_mul_left _ (htrimmed.pow_le_value hvne)

theorem value_append_zero (m : Magnitude) : value (m ++ [0]) = value m := by
  rw [value_append]
  simp

theorem TurnOf.invariant (ha : Trimmed a) (hb : Trimmed b) (hne : b ≠ []) {j : Nat}
    (h : TurnOf a b v j u) :
    2 ≤ v.length ∧ 0 < limb v (v.length - 1) ∧ j + v.length < u.length ∧
      value u < kBase ^ j * value v * kBase := by
  induction h with
  | first hge hlen hu hv =>
    obtain ⟨-, -, hn, htop, hulen, hlt⟩ := normalized ha hb hne hge hlen hu hv
    refine ⟨hn, htop, ?_, ?_⟩
    · rw [length_append, length_singleton]
      omega
    · rwa [value_append_zero]
  | @next j q u u' hturn hrun ih =>
    obtain ⟨hn, htop, hulen, hlt⟩ := ih
    obtain ⟨u'', hrun', hlen, hvalue⟩ := divTurn_spec hn htop hulen hlt
    obtain ⟨rfl, -⟩ := Prod.mk.inj (ok.inj (hrun.symm.trans hrun'))
    refine ⟨hn, htop, by omega, ?_⟩
    have hpos : 0 < kBase ^ (j + 1) * value v := by
      by_contra hzero
      rw [Nat.eq_zero_of_not_pos hzero] at hlt
      exact absurd hlt (not_lt_zero _)
    calc value u' = value u % (kBase ^ (j + 1) * value v) := hvalue
      _ < kBase ^ (j + 1) * value v := mod_lt _ hpos
      _ = _ := by
        ring

/-- **Long division**: no turn faults, and the quotient and the remainder are trimmed. -/
theorem divmodMagnitude_spec (ha : Trimmed a) (hb : Trimmed b) (hne : b ≠ []) :
    ∃ q r, divmodMagnitude a b = .ok (q, r) ∧ Trimmed q ∧ Trimmed r ∧
      value q = value a / value b ∧ value r = value a % value b := by
  have hpos : 0 < value b := Nat.pos_of_ne_zero fun hzero => hne (hb.value_eq_zero.mp hzero)
  unfold divmodMagnitude
  split
  · next hlt =>
    rw [compareMagnitude_neg_iff ha hb] at hlt
    refine ⟨[], a, rfl, fun x hx => by simp at hx, ha, ?_, (Nat.mod_eq_of_lt hlt).symm⟩
    rw [value_nil, Nat.div_eq_of_lt hlt]
  next hge =>
  split
  · next hlen =>
    have hvalue : value b = limb b 0 := by
      have := value_take_succ b 0
      rw [take_of_length_le (by omega), take_zero, value_nil, pow_zero, Nat.one_mul,
        Nat.zero_add] at this
      exact this
    rw [hvalue] at hpos ⊢
    obtain ⟨htrimmed, hquotient, hrem⟩ := divModSmall_spec hpos a
    generalize divModSmall a (limb b 0) = pair at htrimmed hquotient hrem ⊢
    obtain ⟨work, rem⟩ := pair
    dsimp only at htrimmed hquotient hrem ⊢
    have hremlt : rem < 2 ^ 32 := by
      rw [hrem]
      exact (Nat.mod_lt _ hpos).trans (limb_lt b 0)
    refine ⟨_, _, rfl, htrimmed, ?_, hquotient, ?_⟩
    · split
      · next hrem0 =>
        intro x hx hzero
        rw [getLast?_singleton, Option.mem_some_iff] at hx
        have hlow := low_toNat rem
        rw [hx, hzero, Nat.mod_eq_of_lt hremlt] at hlow
        exact hrem0 hlow.symm
      · exact fun x hx => by simp at hx
    · rw [← hrem]
      split
      · rw [value_cons, value_nil, low_toNat, Nat.mod_eq_of_lt hremlt, Nat.mul_zero, Nat.add_zero]
      · next hrem0 => exact (not_not.mp hrem0).symm
  next hlen =>
  obtain ⟨u, hu, -, -⟩ := shiftLeftBits_spec a (normalization b)
  obtain ⟨v, hv, -, -⟩ := shiftLeftBits_spec b (normalization b)
  obtain ⟨hvalueu, hvaluev, hn, htop, hulen, hlt⟩ := normalized ha hb hne hge hlen hu hv
  obtain ⟨u', quotient', hrun, hlen', hlt', hvalue⟩ := divLoop_spec hn htop
    (u.length - v.length + 1) (u ++ [0]) (replicate (u.length - v.length + 1) 0)
    (by rw [length_append, length_singleton]; omega)
    (by simp) (by
      rw [value_append_zero]
      calc value u < kBase ^ (u.length - v.length) * value v * kBase := hlt
        _ = _ := by
          ring) (by
      rw [value_replicate_zero]
      exact dvd_zero _)
  rw [value_replicate_zero, Nat.zero_mul, Nat.zero_add, value_append_zero, hvalueu, hvaluev]
    at hvalue
  rw [hvaluev] at hlt'
  rw [length_append] at hlen'
  have hblen : 0 < b.length := length_pos_iff.mpr hne
  have hresize : value (resize u' v.length) = value u' := by
    unfold resize
    rw [Nat.sub_eq_zero_of_le (by omega), replicate_zero, append_nil, value_take]
    apply Nat.mod_eq_of_lt
    calc value u' < value b * 2 ^ normalization b := hlt'
      _ = value v := hvaluev.symm
      _ < _ := value_lt v
  obtain ⟨htrimmed, hright, -⟩ := shiftRightBits_spec (resize u' v.length) (normalization b)
  refine ⟨popZeros quotient', (shiftRightBits (resize u' v.length) (normalization b)).1, ?_,
    trimmed_popZeros _, htrimmed, ?_⟩
  · rw [readLimb_ok (by omega)]
    change (shiftLeftBits a (normalization b) >>= _) = _
    rw [hu]
    change (shiftLeftBits b (normalization b) >>= _) = _
    rw [hv]
    dsimp only [bind, Except.bind]
    rw [readLimb_ok (by omega)]
    rw [readLimb_ok (by omega)]
    dsimp only
    rw [hrun]
    rfl
  · -- the loop divided both operands times the same power of two
    rw [value_popZeros, hright, hresize]
    have hpow : 0 < 2 ^ normalization b := by positivity
    set q := value quotient' with hq
    have hle : q * value b ≤ value a := by
      apply Nat.le_of_mul_le_mul_right _ hpow
      calc q * value b * 2 ^ normalization b ≤ q * (value b * 2 ^ normalization b) + value u' := by
            rw [← Nat.mul_assoc]
            exact Nat.le_add_right ..
        _ = _ := hvalue
    have hrest : value u' = (value a - q * value b) * 2 ^ normalization b := by
      rw [Nat.sub_mul, Nat.mul_assoc]
      omega
    rw [hrest, Nat.mul_div_cancel _ hpow]
    rw [hrest] at hlt'
    have hltb := Nat.lt_of_mul_lt_mul_right hlt'
    have hdiv : value a / value b = q := by
      rw [Nat.div_eq_iff hpos]
      omega
    refine ⟨hdiv.symm, ?_⟩
    rw [Nat.mod_eq_sub_div_mul, hdiv]

end LongDivision

section Divmod

variable {a b : BigNum}

theorem toInt_eq_zero (ha : a.Canonical) : a.toInt = 0 ↔ a.mag = [] := by
  rw [← ha.trimmed.value_eq_zero]
  unfold toInt
  split_ifs <;> omega

/-- `divmod` with a divisor that is not zero. -/
theorem divmod_spec (ha : a.Canonical) (hb : b.Canonical) (hne : b.mag ≠ []) :
    ∃ q r, divmod a b = .ok (some (q, r)) ∧ q.Canonical ∧ r.Canonical ∧
      a.toInt = b.toInt * q.toInt + r.toInt ∧ |r.toInt| < |b.toInt| ∧
      (r.toInt = 0 ∨ r.toInt.sign = a.toInt.sign) := by
  obtain ⟨q, r, hrun, -, -, hq, hr⟩ := divmodMagnitude_spec ha.trimmed hb.trimmed hne
  have hpos : 0 < value b.mag :=
    Nat.pos_of_ne_zero fun hzero => hne (hb.trimmed.value_eq_zero.mp hzero)
  have hsplit : (value b.mag : Int) * value q + value r = value a.mag := by
    rw [hq, hr]
    exact_mod_cast Nat.div_add_mod (value a.mag) (value b.mag)
  have hlt : value r < value b.mag := by
    rw [hr]
    exact Nat.mod_lt _ hpos
  refine ⟨trim { mag := q, negative := a.negative != b.negative },
    trim { mag := r, negative := a.negative }, ?_, canonical_trim _, canonical_trim _, ?_, ?_, ?_⟩
  · unfold divmod
    rw [if_neg (by simpa using hne), hrun]
    rfl
  · rw [toInt_trim, toInt_trim]
    unfold toInt
    rw [← hsplit]
    cases a.negative <;> cases b.negative <;>
      simp only [bne_self_eq_false, bne_iff_ne, ne_eq, Bool.false_eq_true, Bool.true_eq_false,
        not_false_eq_true, if_true, if_false] <;> ring
  · rw [toInt_trim]
    unfold toInt
    split_ifs <;> simp only [abs_neg] <;> exact_mod_cast hlt
  · rw [toInt_trim]
    rcases Nat.eq_zero_or_pos (value r) with hzero | hrpos
    · refine .inl ?_
      unfold toInt
      split_ifs <;> simp [hzero]
    · refine .inr ?_
      have hapos : 0 < value a.mag := by
        have := Nat.mod_le (value a.mag) (value b.mag)
        omega
      unfold toInt
      dsimp only
      split_ifs
      · rw [Int.sign_eq_neg_one_of_neg (by omega), Int.sign_eq_neg_one_of_neg (by omega)]
      · rw [Int.sign_eq_one_of_pos (by omega), Int.sign_eq_one_of_pos (by omega)]

/-- **`divmod` is truncated division**: it answers false for a zero divisor and for no other, the
remainder is smaller than the divisor and has the sign of the dividend, and nothing faults. In every
turn of the loop the guess is the digit of the quotient or one more, the difference of the top limbs
is negative when it is one more, and the turn ends with the digit and the remainder. -/
theorem divmod_truncates (ha : a.Canonical) (hb : b.Canonical) :
    (divmod a b = .ok none ↔ b.toInt = 0) ∧
    (b.toInt ≠ 0 → ∃ q r, divmod a b = .ok (some (q, r)) ∧ q.Canonical ∧ r.Canonical ∧
      a.toInt = b.toInt * q.toInt + r.toInt ∧ |r.toInt| < |b.toInt| ∧
      (r.toInt = 0 ∨ r.toInt.sign = a.toInt.sign)) ∧
    (b.toInt ≠ 0 → ∀ v j u, TurnOf a.mag b.mag v j u →
      (∃ qhat u₁ carry borrow, Subtracted v j u qhat u₁ carry borrow) ∧
      ∃ u', divTurn v (limb v (v.length - 1)) (limb v (v.length - 2)) j u =
          .ok (u', value u / (kBase ^ j * value v)) ∧
        u'.length = u.length ∧ value u' = value u % (kBase ^ j * value v)) := by
  rw [Ne, toInt_eq_zero hb]
  refine ⟨⟨fun hnone => ?_, fun hnil => ?_⟩, divmod_spec ha hb, fun hne v j u hturn => ?_⟩
  · by_contra hne
    obtain ⟨q, r, hrun, -⟩ := divmod_spec ha hb hne
    rw [hrun] at hnone
    cases hnone
  · unfold divmod
    rw [hnil]
    rfl
  · obtain ⟨hn, htop, hu, hlt⟩ := hturn.invariant ha.trimmed hb.trimmed hne
    exact ⟨exists_subtracted hn htop hu hlt, divTurn_spec hn htop hu hlt⟩

/-- `2 ^ 95 + 3` by `2 ^ 93 + 1`, where the divisor is added back. -/
theorem divmod_truncates_add_back :
    ∃ q r, divmod { mag := [3, 0, 0x80000000] } { mag := [1, 0, 0x20000000] } = .ok (some (q, r)) ∧
      (2 ^ 95 + 3 : Int) = (2 ^ 93 + 1) * q.toInt + r.toInt ∧ |r.toInt| < 2 ^ 93 + 1 := by
  have ha : Canonical { mag := [3, 0, 0x80000000] } := ⟨by simp [Trimmed], by simp⟩
  have hb : Canonical { mag := [1, 0, 0x20000000] } := ⟨by simp [Trimmed], by simp⟩
  obtain ⟨-, hspec, -⟩ := divmod_truncates ha hb
  obtain ⟨q, r, hrun, -, -, hvalue, hlt, -⟩ := hspec (by decide)
  exact ⟨q, r, hrun, hvalue, hlt⟩

end Divmod

end Bronze.BigNum
