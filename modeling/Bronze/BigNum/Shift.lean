import Bronze.BigNum.Arithmetic

/-!
# Magnitudes under shifts

`bitLength` and the two shifts of magnitudes, which the other operations of `bignum.cpp` are made
of. A limb is a digit of the value, so a loop that writes limbs is followed by what it makes of the
value: the `|=` of two parts of a limb is their sum, since the parts share no bit.

## Main results

* `limb_eq_div`, `value_eq_of_limbs`: limbs are the digits of the value
* `shiftLeftBits_spec`, `shiftRightBits_spec`: the shifts multiply and divide by powers of two
-/

namespace Bronze.BigNum

open List Nat

section Limbs

variable {m : Magnitude}

theorem kBase_pos : 0 < kBase := by decide

theorem limb_eq_div (m : Magnitude) (k : Nat) : limb m k = value m / kBase ^ k % kBase := by
  induction m generalizing k with
  | nil => simp
  | cons x m ih =>
    have hx : x.toNat < kBase := x.toNat_lt
    cases k with
    | zero =>
      rw [pow_zero, Nat.div_one, value_cons, Nat.add_mul_mod_self_left, Nat.mod_eq_of_lt hx]
      rfl
    | succ k =>
      have hlimb : limb (x :: m) (k + 1) = limb m k := by simp [limb]
      rw [hlimb, ih, value_cons, pow_succ', ← Nat.div_div_eq_div_mul,
        add_mul_div_left _ _ kBase_pos, div_eq_of_lt hx, zero_add]

theorem value_eq_of_limbs {n : Nat} (hn : n < kBase ^ m.length)
    (h : ∀ k < m.length, limb m k = n / kBase ^ k % kBase) : value m = n := by
  induction m generalizing n with
  | nil =>
    rw [length_nil, pow_zero] at hn
    rw [value_nil]
    omega
  | cons x m ih =>
    have hlow : x.toNat = n % kBase := by
      have hzero := h 0 (by simp)
      rw [pow_zero, Nat.div_one] at hzero
      exact hzero
    have hhigh : value m = n / kBase := by
      apply ih
      · rw [length_cons, pow_succ'] at hn
        exact Nat.div_lt_of_lt_mul hn
      · intro k hk
        have hlimb : limb (x :: m) (k + 1) = limb m k := by simp [limb]
        rw [← hlimb, h (k + 1) (by simpa using hk), pow_succ', Nat.div_div_eq_div_mul]
    rw [value_cons, hlow, hhigh, Nat.mod_add_div]

theorem value_take (m : Magnitude) (k : Nat) : value (m.take k) = value m % kBase ^ k := by
  induction k with
  | zero => simp [mod_one]
  | succ k ih => rw [value_take_succ, ih, limb_eq_div, mod_pow_succ]

end Limbs

/-- `limbBits`: the index of the highest set bit, plus one. -/
def limbBits (v : Nat) : Nat := if v = 0 then 0 else limbBits (v >>> 1) + 1
termination_by v
decreasing_by
  rw [shiftRight_eq_div_pow]
  omega

theorem limbBits_eq_size (v : Nat) : limbBits v = v.size := by
  induction v using Nat.strong_induction_on with
  | _ v ih =>
    rw [limbBits]
    split
    · next h => simp [h]
    · next h =>
      have hhalf : v >>> 1 = v / 2 := by rw [shiftRight_eq_div_pow]
      rw [hhalf, ih (v / 2) (by omega)]
      conv_rhs => rw [← bit_bodd_div2 v, div2_val]
      rw [size_bit]
      rw [← div2_val, bit_bodd_div2]
      exact h

/-- `BigNum::bitLength`, in a `uint64_t`. -/
def bitLength (a : BigNum) : Nat :=
  match a.mag.getLast? with
  | none => 0
  | some top => ((a.mag.length - 1) * 32 + limbBits top.toNat) % 2 ^ 64

theorem size_add_mul {k x y : Nat} (hx : x < 2 ^ k) (hy : y ≠ 0) :
    (x + 2 ^ k * y).size = k + y.size := by
  apply le_antisymm
  · rw [size_le, pow_add]
    have hlt := lt_size_self y
    have hmul : 2 ^ k * (y + 1) ≤ 2 ^ k * 2 ^ y.size := mul_le_mul_left _ hlt
    rw [mul_succ] at hmul
    omega
  · obtain ⟨n, hn⟩ := exists_eq_succ_of_ne_zero (size_pos.mpr (pos_of_ne_zero hy)).ne'
    have hle : 2 ^ n ≤ y := lt_size.mp (by omega)
    have hmul : 2 ^ k * 2 ^ n ≤ 2 ^ k * y := mul_le_mul_left _ hle
    rw [hn, add_succ, succ_le_iff, lt_size, pow_add]
    omega

variable {a : BigNum}

/-- **The length in bits**, which a magnitude that fits the address space does not wrap. -/
theorem bitLength_eq (ha : a.Canonical) : a.bitLength = (value a.mag).size % 2 ^ 64 := by
  unfold bitLength
  rcases eq_nil_or_concat a.mag with hnil | ⟨m, top, hmag⟩
  · rw [hnil]
    rfl
  rw [hmag, concat_eq_append]
  have htop : top.toNat ≠ 0 := by
    intro hzero
    refine ha.trimmed top ?_ (UInt32.toNat_inj.mp hzero)
    rw [hmag, concat_eq_append, getLast?_concat]
    rfl
  have hvalue : value (m ++ [top]) = value m + 2 ^ (m.length * 32) * top.toNat := by
    have hpow : kBase ^ m.length = 2 ^ (m.length * 32) := by rw [kBase, ← pow_mul, mul_comm]
    simp [value_append, hpow]
  have hlt : value m < 2 ^ (m.length * 32) := by
    have h := value_lt m
    rw [kBase, ← pow_mul, mul_comm] at h
    exact h
  rw [getLast?_concat, hvalue, size_add_mul hlt htop, ← limbBits_eq_size]
  simp

/-- `BigNum::magnitudeToUint64`; `none` is the answer false. -/
def magnitudeToUint64 (a : BigNum) : Option Nat :=
  if 2 < a.mag.length then none else some (limb a.mag 0 ||| limb a.mag 1 <<< 32)

theorem magnitudeToUint64_eq_none (ha : a.Canonical) :
    a.magnitudeToUint64 = none ↔ 2 ^ 64 ≤ value a.mag := by
  unfold magnitudeToUint64
  have hpow : kBase ^ 2 = 2 ^ 64 := by decide
  split
  · next hlen =>
    refine ⟨fun _ => ?_, fun _ => rfl⟩
    have hne : a.mag ≠ [] := by
      intro hnil
      rw [hnil] at hlen
      cases hlen
    calc 2 ^ 64 = kBase ^ 2 := hpow.symm
      _ ≤ kBase ^ (a.mag.length - 1) := Nat.pow_le_pow_right kBase_pos (by omega)
      _ ≤ value a.mag := ha.trimmed.pow_le_value hne
  · next hlen =>
    refine ⟨nofun, fun hle => ?_⟩
    have hlt := (value_lt a.mag).trans_le
      (Nat.pow_le_pow_right kBase_pos (by omega : a.mag.length ≤ 2))
    omega

theorem magnitudeToUint64_eq_some {n : Nat} (h : a.magnitudeToUint64 = some n) :
    n = value a.mag := by
  unfold magnitudeToUint64 at h
  split at h
  · cases h
  next hlen =>
  obtain rfl := Option.some.inj h
  have hlow := limb_lt a.mag 0
  have hvalue : value a.mag = limb a.mag 0 + kBase * limb a.mag 1 := by
    have htake : value (a.mag.take 2) = value a.mag := by rw [take_of_length_le (by omega)]
    rw [← htake, value_take_succ, value_take_succ, take_zero, value_nil, pow_zero, pow_one]
    omega
  rw [hvalue, Nat.shiftLeft_eq, Nat.or_comm, Nat.mul_comm, kBase, ← two_pow_add_eq_or_of_lt hlow]
  omega

def orLimb (out : Magnitude) (k x : Nat) : Except Fault Magnitude := do
  let old ← readLimb out k
  return out.set k (low (old ||| x))

/-- The loop of `shiftLeftBits` from limb `i`, with `n` limbs to go. -/
def shiftLeftLoop (a : Magnitude) (limbShift bitShift : Nat) :
    Nat → Nat → Magnitude → Except Fault Magnitude
  | 0, _, out => .ok out
  | n + 1, i, out => do
    let shifted ← u64 (limb a i <<< bitShift)
    let out ← orLimb out (i + limbShift) (low shifted).toNat
    let out ← orLimb out (i + limbShift + 1) (low (shifted >>> 32)).toNat
    shiftLeftLoop a limbShift bitShift n (i + 1) out

def shiftLeftBits (a : Magnitude) (bits : Nat) : Except Fault Magnitude :=
  if a.isEmpty then .ok []
  else do
    let out ← shiftLeftLoop a (bits / 32) (bits % 32) a.length 0
      (replicate (a.length + bits / 32 + 1) 0)
    return popZeros out

theorem orLimb_spec {out : Magnitude} {k x : Nat} (hk : k < out.length) (hx : x < 2 ^ 32)
    (hdisjoint : limb out k ||| x = limb out k + x) :
    ∃ out', orLimb out k x = .ok out' ∧ out'.length = out.length ∧
      value out' = value out + kBase ^ k * x ∧ ∀ i ≠ k, limb out' i = limb out i := by
  refine ⟨out.set k (low (limb out k ||| x)), ?_, length_set .., ?_, ?_⟩
  · unfold orLimb readLimb
    rw [if_pos hk]
    rfl
  · have hset := value_set hk (low (limb out k ||| x))
    have hlow : (low (limb out k ||| x)).toNat = limb out k + x := by
      rw [low_toNat, mod_eq_of_lt (or_lt_two_pow (limb_lt _ _) hx), hdisjoint]
    rw [hlow, mul_add] at hset
    omega
  · intro i hi
    exact limb_set_of_ne hi.symm _

theorem or_shifted {x y s : Nat} (hx : x < 2 ^ s) (hs : s ≤ 32) :
    x ||| (y <<< s) % 2 ^ 32 = x + (y <<< s) % 2 ^ 32 := by
  have hmul : (y <<< s) % 2 ^ 32 = 2 ^ s * (y % 2 ^ (32 - s)) := by
    rw [Nat.shiftLeft_eq, Nat.mul_comm, ← Nat.mul_mod_mul_left, ← pow_add]
    congr 2
    omega
  rw [hmul, Nat.or_comm, ← Nat.two_pow_add_eq_or_of_lt hx, Nat.add_comm]

theorem shiftLeftLoop_spec (a : Magnitude) {limbShift bitShift : Nat} (hs : bitShift < 32) :
    ∀ (n i : Nat) (out : Magnitude), i + n = a.length → a.length + limbShift + 1 = out.length →
      value out = value (a.take i) * (kBase ^ limbShift * 2 ^ bitShift) →
      ∃ out', shiftLeftLoop a limbShift bitShift n i out = .ok out' ∧
        value out' = value a * (kBase ^ limbShift * 2 ^ bitShift) := by
  intro n
  induction n with
  | zero =>
    intro i out hi _ hvalue
    refine ⟨out, rfl, ?_⟩
    rw [hvalue, take_of_length_le (by omega)]
  | succ n ih =>
    intro i out hi hlen hvalue
    have hx := limb_lt a i
    have hpow : 2 ^ bitShift ≤ 2 ^ 31 := Nat.pow_le_pow_right (by decide) (by omega)
    have hshifted : limb a i <<< bitShift < 2 ^ 64 := by
      rw [shiftLeft_eq]
      calc limb a i * 2 ^ bitShift ≤ limb a i * 2 ^ 31 := mul_le_mul_left _ hpow
        _ < 2 ^ 64 := by omega
    -- the limbs the turn writes hold the bits left over from the turn before, and nothing
    have hbelow : value out < kBase ^ (i + limbShift) * 2 ^ bitShift := by
      rw [hvalue, pow_add, mul_assoc]
      refine Nat.mul_lt_mul_of_pos_right ?_ (Nat.mul_pos (Nat.pow_pos kBase_pos) (by positivity))
      exact (value_lt _).trans_le
        (Nat.pow_le_pow_right kBase_pos ((length_take_le _ _).trans le_rfl))
    have hl₀ : limb out (i + limbShift) < 2 ^ bitShift := by
      rw [limb_eq_div]
      exact (Nat.mod_le ..).trans_lt (Nat.div_lt_of_lt_mul hbelow)
    have hl₁ : limb out (i + limbShift + 1) = 0 := by
      rw [limb_eq_div, div_eq_of_lt, zero_mod]
      refine hbelow.trans_le ?_
      exact mul_le_mul_left _ (hpow.trans (by decide))
    obtain ⟨out₁, hrun₁, hlen₁, hvalue₁, hsame₁⟩ := @orLimb_spec out (i + limbShift)
      (low (limb a i <<< bitShift)).toNat (by omega) (UInt32.toNat_lt _) (by
        exact or_shifted hl₀ hs.le)
    have hnone : limb out₁ (i + limbShift + 1) = 0 := by rw [hsame₁ _ (by omega), hl₁]
    obtain ⟨out₂, hrun₂, hlen₂, hvalue₂, -⟩ := @orLimb_spec out₁
      (i + limbShift + 1) (low (limb a i <<< bitShift >>> 32)).toNat (by omega)
      (UInt32.toNat_lt _) (by simp [hnone])
    have hworth : value out₂ = value (a.take (i + 1)) * (kBase ^ limbShift * 2 ^ bitShift) := by
      have hsplit := low_add_shift (limb a i <<< bitShift)
      have hhigh : (low (limb a i <<< bitShift >>> 32)).toNat = limb a i <<< bitShift >>> 32 := by
        exact mod_eq_of_lt (shift_carry_lt hshifted)
      calc value out₂
          = value out + kBase ^ (i + limbShift) * ((low (limb a i <<< bitShift)).toNat +
              kBase * (limb a i <<< bitShift >>> 32)) := by
            rw [hvalue₂, hvalue₁, hhigh]
            ring
        _ = value out + kBase ^ (i + limbShift) * (limb a i * 2 ^ bitShift) := by
            rw [hsplit, shiftLeft_eq]
        _ = _ := by
            rw [hvalue, value_take_succ]
            ring
    obtain ⟨out', hrun, hvalue'⟩ := ih (i + 1) out₂ (by omega) (by omega) hworth
    refine ⟨out', ?_, hvalue'⟩
    rw [shiftLeftLoop, u64_ok hshifted]
    change (orLimb out .. >>= _) = _
    rw [hrun₁]
    change (orLimb out₁ .. >>= _) = _
    rw [hrun₂]
    exact hrun

/-- **Shifting left** multiplies by a power of two. -/
theorem shiftLeftBits_spec (a : Magnitude) (bits : Nat) :
    ∃ out, shiftLeftBits a bits = .ok out ∧ Trimmed out ∧ value out = value a * 2 ^ bits := by
  unfold shiftLeftBits
  split
  · next h =>
    refine ⟨[], rfl, fun x hx => by simp at hx, ?_⟩
    rw [isEmpty_iff.mp h, value_nil, zero_mul]
  · obtain ⟨out, hrun, hvalue⟩ := @shiftLeftLoop_spec a (bits / 32) _
      (mod_lt bits (by decide)) a.length 0 (replicate (a.length + bits / 32 + 1) 0)
      (by omega) (by simp) (by simp)
    refine ⟨popZeros out, ?_, trimmed_popZeros out, ?_⟩
    · rw [hrun]
      rfl
    · rw [value_popZeros, hvalue, kBase, ← pow_mul, ← pow_add, div_add_mod]

/-- One limb of `shiftRightBits`: the bits of a limb that stay, below those of the next one. -/
def rightLimb (a : Magnitude) (limbShift bitShift i : Nat) : UInt32 :=
  let value := limb a (i + limbShift) >>> bitShift
  if bitShift ≠ 0 ∧ i + limbShift + 1 < a.length then
    low (value ||| limb a (i + limbShift + 1) <<< (32 - bitShift))
  else low value

def shiftRightBits (a : Magnitude) (bits : Nat) : Magnitude × Bool :=
  let limbShift := bits / 32
  let bitShift := bits % 32
  if a.length ≤ limbShift then ([], a.any (· ≠ 0))
  else
    let lost := (a.take limbShift).any (· ≠ 0)
    let lost := lost ||
      (bitShift ≠ 0 && low (limb a limbShift <<< (32 - bitShift)) ≠ 0)
    (popZeros ((range (a.length - limbShift)).map (rightLimb a limbShift bitShift)), lost)

theorem any_ne_zero_iff (m : Magnitude) : m.any (· ≠ 0) = true ↔ value m ≠ 0 := by
  induction m with
  | nil => simp
  | cons x m ih =>
    rw [any_cons, Bool.or_eq_true, ih, value_cons, decide_eq_true_iff, Ne, ← UInt32.toNat_inj]
    have := kBase_pos
    simp only [UInt32.toNat_zero, ne_eq, Nat.add_eq_zero_iff, Nat.mul_eq_zero]
    omega

theorem shifted_digit (q : Nat) {s : Nat} (hs : s ≤ 32) :
    q / 2 ^ s % 2 ^ 32 = (q % 2 ^ 32 / 2 ^ s + q / 2 ^ 32 % 2 ^ 32 * 2 ^ (32 - s)) % 2 ^ 32 := by
  have hpow : 2 ^ 32 = 2 ^ s * 2 ^ (32 - s) := by
    rw [← pow_add]
    congr 1
    omega
  have hsplit : q / 2 ^ s = q % 2 ^ 32 / 2 ^ s + q / 2 ^ 32 * 2 ^ (32 - s) := by
    have hdiv : (q % 2 ^ 32 + 2 ^ s * (q / 2 ^ 32 * 2 ^ (32 - s))) / 2 ^ s =
        q % 2 ^ 32 / 2 ^ s + q / 2 ^ 32 * 2 ^ (32 - s) :=
      add_mul_div_left _ _ (by positivity)
    rw [← hdiv]
    congr 1
    calc q = q % 2 ^ 32 + 2 ^ 32 * (q / 2 ^ 32) := (mod_add_div ..).symm
      _ = q % 2 ^ 32 + 2 ^ s * 2 ^ (32 - s) * (q / 2 ^ 32) := by rw [← hpow]
      _ = _ := by ring
  rw [hsplit]
  exact (((mod_modEq (q / 2 ^ 32) (2 ^ 32)).mul_right _).add_left _).symm

theorem rightLimb_toNat (a : Magnitude) (limbShift i : Nat) {bitShift : Nat} (hs : bitShift < 32) :
    (rightLimb a limbShift bitShift i).toNat =
      value a / (kBase ^ limbShift * 2 ^ bitShift) / kBase ^ i % kBase := by
  have hquotient : value a / (kBase ^ limbShift * 2 ^ bitShift) / kBase ^ i =
      value a / kBase ^ (i + limbShift) / 2 ^ bitShift := by
    rw [Nat.div_div_eq_div_mul, Nat.div_div_eq_div_mul]
    congr 1
    ring
  have hnext :
      value a / kBase ^ (i + limbShift) / kBase = value a / kBase ^ (i + limbShift + 1) := by
    rw [Nat.div_div_eq_div_mul, pow_succ]
  have hdigit := shifted_digit (value a / kBase ^ (i + limbShift)) hs.le
  change _ % kBase = (_ % kBase / _ + _ / kBase % kBase * _) % kBase at hdigit
  rw [← limb_eq_div, hnext, ← limb_eq_div] at hdigit
  rw [hquotient, hdigit]
  unfold rightLimb
  rw [Nat.shiftRight_eq_div_pow]
  split
  · next h =>
    have hlt : limb a (i + limbShift) / 2 ^ bitShift < 2 ^ (32 - bitShift) := by
      apply Nat.div_lt_of_lt_mul
      rw [← pow_add, Nat.add_sub_cancel' hs.le]
      exact limb_lt ..
    rw [low_toNat, Nat.shiftLeft_eq, Nat.or_comm, Nat.mul_comm, ← Nat.two_pow_add_eq_or_of_lt hlt,
      Nat.add_comm]
    rfl
  · next h =>
    change _ % kBase = _
    rcases not_and_or.mp h with h | h
    · rw [not_not] at h
      rw [h]
      change _ = (_ + _ * kBase) % kBase
      simp
    · simp [limb_of_le (m := a) (i := i + limbShift + 1) (by omega)]

/-- **Shifting right** divides by a power of two, and tells whether anything was lost. -/
theorem shiftRightBits_spec (a : Magnitude) (bits : Nat) :
    Trimmed (shiftRightBits a bits).1 ∧ value (shiftRightBits a bits).1 = value a / 2 ^ bits ∧
      ((shiftRightBits a bits).2 = true ↔ value a % 2 ^ bits ≠ 0) := by
  have hs : bits % 32 < 32 := Nat.mod_lt bits (by decide)
  have hpow : kBase ^ (bits / 32) * 2 ^ (bits % 32) = 2 ^ bits := by
    rw [kBase, ← pow_mul, ← pow_add, Nat.div_add_mod]
  unfold shiftRightBits
  dsimp only
  split
  · next hlen =>
    have hlt : value a < 2 ^ bits := by
      rw [← hpow]
      calc value a < kBase ^ a.length := value_lt a
        _ ≤ kBase ^ (bits / 32) := Nat.pow_le_pow_right kBase_pos hlen
        _ ≤ _ := Nat.le_mul_of_pos_right _ (by positivity)
    refine ⟨fun x hx => by simp at hx, ?_, ?_⟩
    · rw [value_nil, Nat.div_eq_of_lt hlt]
    · rw [any_ne_zero_iff, Nat.mod_eq_of_lt hlt]
  · next hlen =>
    refine ⟨trimmed_popZeros _, ?_, ?_⟩
    · rw [value_popZeros, ← hpow]
      apply value_eq_of_limbs
      · rw [length_map, length_range]
        apply Nat.div_lt_of_lt_mul
        calc value a < kBase ^ a.length := value_lt a
          _ = kBase ^ (bits / 32) * kBase ^ (a.length - bits / 32) := by
            rw [← pow_add]
            congr 1
            omega
          _ ≤ _ := Nat.mul_le_mul_right _ (Nat.le_mul_of_pos_right _ (by positivity))
      · intro k hk
        rw [← rightLimb_toNat a (bits / 32) k hs, limb_eq_getElem (by simpa using hk),
          getElem_map, getElem_range]
    · -- what is lost: the limbs below, and the low bits of the limb that is cut
      have hcut : value a % 2 ^ bits = value (a.take (bits / 32)) +
          kBase ^ (bits / 32) * (limb a (bits / 32) % 2 ^ (bits % 32)) := by
        have hdvd : (2 : Nat) ^ (bits % 32) ∣ kBase := Nat.pow_dvd_pow 2 hs.le
        rw [← hpow, Nat.mod_mul, value_take, limb_eq_div, Nat.mod_mod_of_dvd _ hdvd]
      have hbits : (bits % 32 ≠ 0 && low (limb a (bits / 32) <<< (32 - bits % 32)) ≠ 0) = true ↔
          limb a (bits / 32) % 2 ^ (bits % 32) ≠ 0 := by
        have hmod : (low (limb a (bits / 32) <<< (32 - bits % 32))).toNat =
            limb a (bits / 32) % 2 ^ (bits % 32) * 2 ^ (32 - bits % 32) := by
          simp [Nat.shiftLeft_eq, ← Nat.mul_mod_mul_right, ← pow_add, Nat.add_sub_cancel' hs.le]
        rw [Bool.and_eq_true, decide_eq_true_iff, decide_eq_true_iff, Ne, Ne, ← UInt32.toNat_inj,
          hmod]
        by_cases hzero : bits % 32 = 0
        · rw [hzero, pow_zero, Nat.mod_one]
          exact ⟨fun h => absurd rfl h.1, absurd rfl⟩
        · have := Nat.pow_pos (a := 2) (n := 32 - bits % 32) (by decide)
          simp [hzero]
      rw [Bool.or_eq_true, any_ne_zero_iff, hbits, hcut]
      have := Nat.pow_pos (n := bits / 32) kBase_pos
      simp only [ne_eq, Nat.add_eq_zero_iff, Nat.mul_eq_zero]
      omega

end Bronze.BigNum
