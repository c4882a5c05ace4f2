import Bronze.BigNum.Division

/-!
# Powers and shifts, up to a cap

`pow`, `shiftLeft` and `shiftRight` refuse a result that would pass `kMaxBits`, before they compute
a limb of it. The guards multiply and add in a `uint64_t`: where the product or the sum wraps, a
result is let through that no guard should let through.

## Main results

* `shiftRight_floors`: a right shift is the floor of the quotient
* `pow_shift_exact_iff`: the three are exact or refuse precisely where their guards hold
-/

namespace Bronze.BigNum

open Int Except

inductive BigNumError where
  | none
  | divideByZero
  | negativeExponent
  | tooLarge
  | badDigits
  deriving DecidableEq, Repr

/-- `kMaxBits`: the largest magnitude the operations build, in bits. -/
def kMaxBits : Nat := 1 <<< 24

/-- `if (c) x = mul(a, b);` -/
def mulWhen (c : Bool) (x a b : BigNum) : Except Fault BigNum := if c then mul a b else .ok x

/-- The loop of `pow`: squaring, and multiplying by the square where the exponent has a bit. -/
def powLoop (e : Nat) (result square : BigNum) : Except Fault BigNum :=
  if e = 0 then .ok result
  else do
    let result ← mulWhen (e &&& 1 ≠ 0) result result square
    let square ← mulWhen (0 < e >>> 1) square square square
    powLoop (e >>> 1) result square
termination_by e
decreasing_by
  rw [Nat.shiftRight_eq_div_pow]
  omega

def pow (base exponent : BigNum) : Except Fault (BigNum × BigNumError) :=
  if exponent.negative then .ok ({}, .negativeExponent)
  else
    match exponent.magnitudeToUint64 with
    | none => .ok ({}, .tooLarge)
    | some e =>
      if e = 0 then .ok (fromUint64 1, .none)
      else if base.mag.isEmpty then .ok ({}, .none)
      else
        let bits := base.bitLength
        -- the product is a `uint64_t`, and wraps
        if 1 < bits ∧ kMaxBits < bits * e % 2 ^ 64 then .ok ({}, .tooLarge)
        else if bits = 1 ∧ kMaxBits < e then
          .ok ({ base with negative := base.negative && e % 2 = 1 }, .none)
        else do
          let result ← powLoop e (fromUint64 1) base
          return (result, .none)

theorem negate_negative {a : BigNum} (h : a.negative = true) : (negate a).negative = false := by
  unfold negate trim
  simp [h]

/-- `shiftRight` by a count that is read: one further down where a bit of a negative value is
lost. -/
def shiftRightBy (a : BigNum) (bits : Nat) : Except Fault BigNum :=
  let (mag, lost) := shiftRightBits a.mag bits
  let out := trim { mag, negative := a.negative }
  if a.negative && lost then sub out (fromUint64 1) else .ok out

mutual

def shiftLeft (a count : BigNum) : Except Fault (BigNum × BigNumError) :=
  if count.negative then shiftRight a (negate count)
  else if a.mag.isEmpty then .ok ({}, .none)
  else
    match count.magnitudeToUint64 with
    | none => .ok ({}, .tooLarge)
    | some bits =>
      -- the sum is a `uint64_t`, and wraps
      if kMaxBits < (a.bitLength + bits) % 2 ^ 64 then .ok ({}, .tooLarge)
      else do
        let mag ← shiftLeftBits a.mag bits
        return (trim { mag, negative := a.negative }, .none)
termination_by count.negative.toNat
decreasing_by
  rename_i hneg
  rw [negate_negative hneg, hneg]
  decide

def shiftRight (a count : BigNum) : Except Fault (BigNum × BigNumError) :=
  if count.negative then shiftLeft a (negate count)
  else if a.mag.isEmpty then .ok ({}, .none)
  else
    match count.magnitudeToUint64 with
    | none => .ok (if a.negative then fromInt64 (-1) else {}, .none)
    | some bits => do
      let out ← shiftRightBy a bits
      return (out, .none)
termination_by count.negative.toNat
decreasing_by
  rename_i hneg
  rw [negate_negative hneg, hneg]
  decide

end

/-- The length in bits of an integer's magnitude. -/
def bits (x : Int) : Nat := x.natAbs.size

/-- The answer is `exact` and within the cap, or the cap is passed and the answer says so with
nothing computed. Where `wide` holds, a result past the cap is let through. -/
structure ExactOrRefused (wide : Prop) (exact : Int) (r : BigNum × BigNumError) : Prop where
  value : r.2 = .none → r.1.Canonical ∧ r.1.toInt = exact ∧ (bits exact ≤ kMaxBits ∨ wide)
  refused : kMaxBits < bits exact → r.2 = .tooLarge ∨ wide
  nothing : r.2 ≠ .none → r.1 = {}

/-- What `pow` promises: a negative exponent is refused as such. -/
def PowExact (base exponent : BigNum) : Prop :=
  ∃ r, pow base exponent = .ok r ∧
    if exponent.toInt < 0 then r = ({}, .negativeExponent)
    else ExactOrRefused False (base.toInt ^ exponent.toInt.toNat) r

/-- `x` shifted left by `n`, or right by `-n`. -/
def shifted (x n : Int) : Int := if 0 < n then x * 2 ^ n.toNat else x / 2 ^ (-n).toNat

/-- What a shift of `x` to the left by `n` promises. A shift to the right of an operand that is
past the cap already need not come below it. -/
def ShiftExact (run : Except Fault (BigNum × BigNumError)) (x n : Int) : Prop :=
  ∃ r, run = .ok r ∧ ExactOrRefused (n ≤ 0 ∧ kMaxBits < bits x) (shifted x n) r

/-- The guard of `pow` refuses every product of the length and the exponent that is past the cap,
though it sees the product modulo `2 ^ 64`. -/
def PowGuarded (x e : Int) : Prop :=
  e < 2 ^ 64 → bits x ≤ 1 ∨ bits x * e.toNat ≤ kMaxBits ∨
    (1 < bits x % 2 ^ 64 ∧ kMaxBits < bits x * e.toNat % 2 ^ 64)

/-- The guard of a shift to the left refuses every sum of the length and the count that is past the
cap, though it sees the sum modulo `2 ^ 64`. A shift to the right by `2 ^ 64` or more shifts
everything out. -/
def ShiftGuarded (x n : Int) : Prop :=
  if 0 < n then
    n < 2 ^ 64 → x = 0 ∨ bits x + n.toNat ≤ kMaxBits ∨ kMaxBits < (bits x + n.toNat) % 2 ^ 64
  else -2 ^ 64 < n ∨ (-2 ^ (-n).toNat ≤ x ∧ x < 2 ^ (-n).toNat)

instance (x e : Int) : Decidable (PowGuarded x e) := by unfold PowGuarded; infer_instance

section Promise

variable {wide : Prop} {exact : Int}

theorem exactOrRefused_tooLarge : ExactOrRefused wide exact ({}, .tooLarge) where
  value := nofun
  refused _ := .inl rfl
  nothing _ := rfl

theorem exactOrRefused_none_iff {c : BigNum} (hc : c.Canonical) (hvalue : c.toInt = exact) :
    ExactOrRefused wide exact (c, .none) ↔ bits exact ≤ kMaxBits ∨ wide := by
  refine ⟨fun h => (h.value rfl).2.2, fun h => ⟨fun _ => ⟨hc, hvalue, h⟩, fun hlt => ?_, nofun⟩⟩
  rcases h with h | h
  · exact absurd hlt (Nat.not_lt.mpr h)
  · exact .inr h

theorem not_exactOrRefused_none {c : BigNum} (hwide : ¬ wide) (hlt : kMaxBits < bits exact) :
    ¬ ExactOrRefused wide exact (c, .none) := by
  intro h
  rcases h.refused hlt with h | h
  · cases h
  · exact hwide h

end Promise

section Bits

variable {a : BigNum} {x : Int}

theorem natAbs_toInt (a : BigNum) : a.toInt.natAbs = value a.mag := by
  unfold toInt
  split_ifs <;> simp

theorem toInt_neg_iff (ha : a.Canonical) : a.toInt < 0 ↔ a.negative = true := by
  have hpos := ha.value_pos
  unfold toInt
  cases hneg : a.negative
  · simp
  · have := hpos hneg
    simp only [if_true, iff_true]
    omega

/-- `bitLength` of a canonical value. -/
theorem bitLength_eq_bits (ha : a.Canonical) : a.bitLength = bits a.toInt % 2 ^ 64 := by
  rw [bitLength_eq ha, bits, natAbs_toInt]

theorem bits_mul_two_pow (hx : x ≠ 0) (n : Nat) : bits (x * 2 ^ n) = bits x + n := by
  have habs : (x * 2 ^ n).natAbs = x.natAbs <<< n := by
    rw [natAbs_mul, Nat.shiftLeft_eq]
    rfl
  rw [bits, bits, habs, Nat.size_shiftLeft (natAbs_ne_zero.mpr hx)]

theorem bits_ediv_le (x : Int) (n : Nat) : bits (x / 2 ^ n) ≤ bits x :=
  Nat.size_le_size (natAbs_ediv_le_natAbs x _)

/-- A power has at most as many bits as the product of the length and the exponent. -/
theorem bits_pow_le (x : Int) {e : Nat} (he : e ≠ 0) : bits (x ^ e) ≤ bits x * e := by
  rw [bits, natAbs_pow, Nat.size_le, pow_mul]
  exact Nat.pow_lt_pow_left (Nat.lt_size_self _) he

theorem lt_bits_pow (hx : x ≠ 0) (e : Nat) : (bits x - 1) * e < bits (x ^ e) := by
  have htop : 2 ^ (bits x - 1) ≤ x.natAbs := by
    rw [← Nat.lt_size]
    change bits x - 1 < bits x
    have : 0 < bits x := Nat.size_pos.mpr (natAbs_pos.mpr hx)
    omega
  change _ < (x ^ e).natAbs.size
  rw [natAbs_pow, Nat.lt_size, pow_mul]
  exact Nat.pow_le_pow_left htop e

theorem bits_pos (hx : x ≠ 0) : 0 < bits x := Nat.size_pos.mpr (natAbs_pos.mpr hx)

end Bits

/-! ## `pow` -/

theorem powLoop_spec (e : Nat) {result square : BigNum} (hr : result.Canonical)
    (hs : square.Canonical) :
    ∃ out, powLoop e result square = .ok out ∧ out.Canonical ∧
      out.toInt = result.toInt * square.toInt ^ e := by
  induction e using Nat.strong_induction_on generalizing result square with
  | _ e ih =>
    rw [powLoop]
    by_cases he : e = 0
    · rw [he, pow_zero, mul_one]
      exact ⟨result, rfl, hr, rfl⟩
    rw [if_neg he]
    have hhalf : e >>> 1 = e / 2 := by rw [Nat.shiftRight_eq_div_pow]
    obtain ⟨result', hresult', hr', hrvalue⟩ : ∃ result',
        mulWhen (e &&& 1 ≠ 0) result result square = .ok result' ∧
        result'.Canonical ∧ result'.toInt = result.toInt * square.toInt ^ (e % 2) := by
      rw [Nat.and_one_is_mod]
      rcases Nat.mod_two_eq_zero_or_one e with h | h
      · rw [h, pow_zero, mul_one]
        exact ⟨result, rfl, hr, rfl⟩
      · rw [h, pow_one]
        exact mul_spec result square
    -- the last turn does not square: nothing reads the square then
    obtain ⟨square', hsquare', hs', hsvalue⟩ : ∃ square',
        mulWhen (0 < e >>> 1) square square square = .ok square' ∧
        square'.Canonical ∧ square'.toInt ^ (e / 2) = square.toInt ^ (2 * (e / 2)) := by
      rw [hhalf, mulWhen]
      split
      · obtain ⟨c, hrun, hc, hvalue⟩ := mul_spec square square
        refine ⟨c, hrun, hc, ?_⟩
        rw [hvalue, pow_mul, pow_two]
      · next hzero =>
        rw [decide_eq_true_iff, Nat.not_lt, Nat.le_zero] at hzero
        exact ⟨square, rfl, hs, by rw [hzero]⟩
    obtain ⟨out, hrun, hout, hvalue⟩ := ih (e >>> 1) (by omega) hr' hs'
    refine ⟨out, ?_, hout, ?_⟩
    · rw [hresult']
      rw [hsquare']
      exact hrun
    · rw [hvalue, hhalf, hrvalue, hsvalue, mul_assoc, ← pow_add, Nat.mod_add_div]

/-- A product that the guard lets through, and that is past the cap, has wrapped. -/
theorem kMaxBits_le_of_wrapped {s e : Nat} (hs : 1 < s) (hpast : kMaxBits < s * e)
    (hguard : ¬ (1 < s % 2 ^ 64 ∧ kMaxBits < s * e % 2 ^ 64)) : kMaxBits ≤ (s - 1) * e := by
  have hcap : kMaxBits = 2 ^ 24 := rfl
  have hsplit : s * e = (s - 1) * e + e := by
    rw [← Nat.succ_mul]
    congr 1
    omega
  have he : e ≤ (s - 1) * e := Nat.le_mul_of_pos_left e (by omega)
  rcases Nat.lt_or_ge s (2 ^ 64) with hlt | hge
  · rw [Nat.mod_eq_of_lt hlt] at hguard
    omega
  · have hepos : 0 < e := by
      rw [Nat.pos_iff_ne_zero]
      rintro rfl
      omega
    have := Nat.le_mul_of_pos_right (s - 1) hepos
    omega

section Operations

variable {a b : BigNum}

theorem canonical_zero : Canonical {} := ⟨fun x hx => by simp at hx, fun _ => rfl⟩

theorem toInt_zero : toInt {} = 0 := rfl

theorem toInt_nonneg (h : a.negative = false) : a.toInt = value a.mag := by
  unfold toInt
  rw [h]
  rfl

theorem magnitudeToUint64_cases (hb : b.Canonical) (hneg : b.negative = false) :
    b.magnitudeToUint64 = none ∧ 2 ^ 64 ≤ b.toInt ∨
      ∃ n, b.magnitudeToUint64 = some n ∧ b.toInt = n ∧ n < 2 ^ 64 := by
  rw [toInt_nonneg hneg]
  cases h : b.magnitudeToUint64 with
  | none => exact .inl ⟨rfl, by exact_mod_cast (magnitudeToUint64_eq_none hb).mp h⟩
  | some n =>
    have hvalue := magnitudeToUint64_eq_some h
    refine .inr ⟨n, rfl, by rw [hvalue], ?_⟩
    by_contra hge
    rw [hvalue, Nat.not_lt, ← magnitudeToUint64_eq_none hb, h] at hge
    cases hge

theorem toInt_of_bits_eq_one {x : Int} (h : bits x = 1) : x = 1 ∨ x = -1 := by
  have hlt : x.natAbs < 2 ^ 1 := Nat.size_le.mp h.le
  have hpos : 0 < x.natAbs := Nat.size_pos.mp (by rw [← bits, h]; decide)
  omega

theorem alternate_eq (ha : a.Canonical) (h : bits a.toInt = 1) (e : Nat) :
    ({ a with negative := a.negative && e % 2 = 1 } : BigNum).Canonical ∧
      ({ a with negative := a.negative && e % 2 = 1 } : BigNum).toInt = a.toInt ^ e := by
  have hone : value a.mag = 1 := by
    rw [← natAbs_toInt]
    rcases toInt_of_bits_eq_one h with h | h <;> rw [h] <;> rfl
  refine ⟨⟨ha.trimmed, fun hnil => ?_⟩, ?_⟩
  · have hneg := ha.zero hnil
    rw [hneg]
    rfl
  · unfold toInt
    rw [hone]
    cases a.negative
    · simp
    · rcases Nat.mod_two_eq_zero_or_one e with heven | hodd
      · rw [heven]
        simp [(Nat.even_iff.mpr heven).neg_one_pow]
      · rw [hodd]
        simp [(Nat.odd_iff.mpr hodd).neg_one_pow]

/-- **Powers** are exact or refused, where the product in the guard does not wrap past the cap. -/
theorem powExact_iff (ha : a.Canonical) (hb : b.Canonical) :
    PowExact a b ↔ (0 ≤ b.toInt → PowGuarded a.toInt b.toInt) := by
  unfold PowExact
  have hsign := toInt_neg_iff hb
  unfold pow
  cases hneg : b.negative with
  | true =>
    have hlt : b.toInt < 0 := hsign.mpr hneg
    refine ⟨fun _ hle => by omega, fun _ => ⟨_, rfl, ?_⟩⟩
    rw [if_pos hlt]
  | false =>
  rw [hneg] at hsign
  have hge : ¬ b.toInt < 0 := fun h => Bool.false_ne_true (hsign.mp h)
  rw [if_neg Bool.false_ne_true]
  simp only [if_neg hge, not_lt.mp hge]
  unfold PowGuarded
  rcases magnitudeToUint64_cases hb hneg with ⟨hnone, hbig⟩ | ⟨e, hsome, hvalue, hfits⟩
  · rw [hnone]
    exact ⟨fun _ hlt => by omega, fun _ => ⟨_, rfl, exactOrRefused_tooLarge⟩⟩
  rw [hsome, hvalue, toNat_natCast]
  have hlt : (e : Int) < 2 ^ 64 := by exact_mod_cast hfits
  simp only [hlt, true_imp_iff]
  by_cases he : e = 0
  · obtain ⟨hcanon, hone⟩ := fromUint64_spec 1
    simp only [he, pow_zero]
    refine ⟨fun _ => .inr (.inl (Nat.zero_le _)), fun _ => ⟨_, rfl, ?_⟩⟩
    exact (exactOrRefused_none_iff hcanon hone).mpr (.inl (by decide))
  rw [if_neg he]
  by_cases hnil : a.mag = []
  · have hzero : a.toInt = 0 := (toInt_eq_zero ha).mpr hnil
    simp only [hnil, hzero, zero_pow he]
    refine ⟨fun _ => .inl (Nat.zero_le _), fun _ => ⟨_, rfl, ?_⟩⟩
    exact (exactOrRefused_none_iff canonical_zero toInt_zero).mpr (.inl (by decide))
  have hx : a.toInt ≠ 0 := fun hzero => hnil ((toInt_eq_zero ha).mp hzero)
  have hpos := bits_pos hx
  have hlower := lt_bits_pow hx e
  have hupper := bits_pow_le a.toInt he
  have hmod : bits a.toInt % 2 ^ 64 * e % 2 ^ 64 = bits a.toInt * e % 2 ^ 64 := Nat.mod_mul_mod ..
  rw [if_neg (by simpa using hnil), bitLength_eq_bits ha, hmod]
  set s := bits a.toInt with hs
  -- past the cap and let through: the product has wrapped
  have hwrapped : 1 < s → kMaxBits < s * e →
      ¬ (1 < s % 2 ^ 64 ∧ kMaxBits < s * e % 2 ^ 64) → kMaxBits < bits (a.toInt ^ e) := by
    intro hs hpast hguard
    exact (kMaxBits_le_of_wrapped hs hpast hguard).trans_lt hlower
  by_cases hguard : 1 < s % 2 ^ 64 ∧ kMaxBits < s * e % 2 ^ 64
  · rw [if_pos hguard]
    exact ⟨fun _ => .inr (.inr hguard), fun _ => ⟨_, rfl, exactOrRefused_tooLarge⟩⟩
  rw [if_neg hguard]
  by_cases hone : s % 2 ^ 64 = 1 ∧ kMaxBits < e
  · rw [if_pos hone]
    rcases Nat.lt_or_ge 1 s with hlong | hshort
    · have hpast : kMaxBits < s * e := hone.2.trans_le (Nat.le_mul_of_pos_left _ hpos)
      refine ⟨fun ⟨r, hr, hpromise⟩ => ?_, fun h => ?_⟩
      · obtain rfl := ok.inj hr
        exact absurd hpromise (not_exactOrRefused_none not_false (hwrapped hlong hpast hguard))
      · rcases h with h | h | h
        · omega
        · omega
        · exact absurd h hguard
    · have hsone : s = 1 := by omega
      obtain ⟨hcanon, hvalue⟩ := alternate_eq ha hsone e
      refine ⟨fun _ => .inl hsone.le, fun _ => ⟨_, rfl, ?_⟩⟩
      refine (exactOrRefused_none_iff hcanon hvalue).mpr (.inl ?_)
      rcases toInt_of_bits_eq_one hsone with h | h
      · rw [h, one_pow]
        decide
      · rcases neg_one_pow_eq_or Int e with h' | h' <;> rw [h, h'] <;> decide
  · rw [if_neg hone]
    obtain ⟨hcanon, hunit⟩ := fromUint64_spec 1
    obtain ⟨out, hrun, hout, hvalue⟩ := powLoop_spec e hcanon ha
    have hexact : out.toInt = a.toInt ^ e := by
      rw [hvalue]
      exact one_mul _
    have hpromise := @exactOrRefused_none_iff False _ _ hout hexact
    rw [or_false] at hpromise
    rw [hrun]
    refine ⟨fun ⟨r, hr, h⟩ => ?_, fun h => ⟨_, rfl, hpromise.mpr ?_⟩⟩
    · obtain rfl := ok.inj hr
      have hle := hpromise.mp h
      by_contra hnot
      have := hwrapped (by omega) (by omega) hguard
      omega
    · rcases h with h | h | h
      · -- one bit, and an exponent that is within the cap
        have hsone : s = 1 := by omega
        rw [hsone] at hupper hone
        omega
      · exact hupper.trans h
      · exact absurd h hguard

/-! ## The shifts -/

theorem shifted_of_nonneg (x : Int) (n : Nat) : shifted x n = x * 2 ^ n := by
  unfold shifted
  cases n with
  | zero => simp
  | succ n => simp

theorem shifted_of_nonpos (x : Int) (n : Nat) : shifted x (-n) = x / 2 ^ n := by
  unfold shifted
  simp

/-- A shift to the left of a value that is not zero, by a count that is read. -/
theorem shiftLeft_eq (ha : a.Canonical) (hnil : a.mag ≠ []) (hneg : b.negative = false) {n : Nat}
    (hsome : b.magnitudeToUint64 = some n) :
    ∃ c, c.Canonical ∧ c.toInt = a.toInt * 2 ^ n ∧
      shiftLeft a b = .ok (if kMaxBits < (bits a.toInt + n) % 2 ^ 64 then ({}, .tooLarge)
        else (c, .none)) := by
  have hcount : ¬ b.negative = true := by
    rw [hneg]
    exact Bool.false_ne_true
  obtain ⟨mag, hrun, -, hmag⟩ := shiftLeftBits_spec a.mag n
  refine ⟨trim { mag, negative := a.negative }, canonical_trim _, ?_, ?_⟩
  · rw [toInt_trim]
    unfold toInt
    rw [hmag]
    split_ifs <;> push_cast <;> ring
  · rw [shiftLeft, if_neg hcount, if_neg (by simpa using hnil), hsome]
    dsimp only
    rw [bitLength_eq_bits ha, Nat.mod_add_mod]
    split
    · rfl
    · rw [hrun]
      rfl

theorem shiftLeft_nonneg_iff (ha : a.Canonical) (hb : b.Canonical) (hneg : b.negative = false) :
    ShiftExact (shiftLeft a b) a.toInt b.toInt ↔ ShiftGuarded a.toInt b.toInt := by
  have hcount : ¬ b.negative = true := by
    rw [hneg]
    exact Bool.false_ne_true
  unfold ShiftExact ShiftGuarded
  by_cases hnil : a.mag = []
  · have hzero : a.toInt = 0 := (toInt_eq_zero ha).mpr hnil
    have hexact : shifted 0 b.toInt = 0 := by
      unfold shifted
      split_ifs <;> simp
    rw [shiftLeft, if_neg hcount]
    simp only [hnil, hzero, hexact]
    refine ⟨fun _ => ?_, fun _ => ⟨_, rfl, ?_⟩⟩
    · split_ifs
      · exact fun _ => .inl trivial
      · exact .inr ⟨by simp, by positivity⟩
    · exact (exactOrRefused_none_iff canonical_zero toInt_zero).mpr (.inl (by decide))
  have hx : a.toInt ≠ 0 := fun hzero => hnil ((toInt_eq_zero ha).mp hzero)
  rcases magnitudeToUint64_cases hb hneg with ⟨hnone, hbig⟩ | ⟨n, hsome, hvalue, hfits⟩
  · rw [shiftLeft, if_neg hcount, if_neg (by simpa using hnil), hnone, if_pos (by omega)]
    exact ⟨fun _ hlt => by omega, fun _ => ⟨_, rfl, exactOrRefused_tooLarge⟩⟩
  obtain ⟨c, hc, hexact, hrun⟩ := shiftLeft_eq ha hnil hneg hsome
  rw [hrun, hvalue, shifted_of_nonneg]
  have hbits := bits_mul_two_pow hx n
  set s := bits a.toInt with hs
  by_cases hguard : kMaxBits < (s + n) % 2 ^ 64
  · rw [if_pos hguard]
    refine ⟨fun _ => ?_, fun _ => ⟨_, rfl, exactOrRefused_tooLarge⟩⟩
    split_ifs
    · exact fun _ => .inr (.inr hguard)
    · exact .inl (by omega)
  rw [if_neg hguard]
  have hpromise := @exactOrRefused_none_iff ((n : Int) ≤ 0 ∧ kMaxBits < s) _ _ hc hexact
  refine ⟨fun ⟨r, hr, h⟩ => ?_, fun h => ⟨_, rfl, hpromise.mpr ?_⟩⟩
  · obtain rfl := ok.inj hr
    split_ifs with hpos
    · rcases hpromise.mp h with h | h
      · exact fun _ => .inr (.inl (by omega))
      · omega
    · exact .inl (by omega)
  · split_ifs at h with hpos
    · rcases h (by exact_mod_cast hfits) with h | h | h
      · exact absurd h hx
      · exact .inl (by omega)
      · exact absurd h hguard
    · -- the operand itself, whatever its length
      rcases Nat.lt_or_ge kMaxBits s with hlt | hge
      · exact .inr ⟨by omega, hlt⟩
      · exact .inl (by omega)

/-- **A right shift floors**: what is lost from a negative value takes it one further down. -/
theorem shiftRight_floors (a : BigNum) (n : Nat) :
    ∃ c, shiftRightBy a n = .ok c ∧ c.Canonical ∧ c.toInt = a.toInt / 2 ^ n := by
  unfold shiftRightBy
  obtain ⟨-, hmag, hlost⟩ := shiftRightBits_spec a.mag n
  generalize shiftRightBits a.mag n = pair at hmag hlost
  obtain ⟨mag, lost⟩ := pair
  dsimp only at hmag hlost ⊢
  have hpow : (0 : Int) < 2 ^ n := by positivity
  have hsplit : (2 : Int) ^ n * (value a.mag / 2 ^ n : Nat) + (value a.mag % 2 ^ n : Nat) =
      value a.mag := by exact_mod_cast Nat.div_add_mod (value a.mag) (2 ^ n)
  have hremlt : ((value a.mag % 2 ^ n : Nat) : Int) < 2 ^ n := by
    exact_mod_cast Nat.mod_lt (value a.mag) (Nat.two_pow_pos n)
  have htrim : (trim { mag, negative := a.negative }).toInt =
      if a.negative then -((value a.mag / 2 ^ n : Nat) : Int) else (value a.mag / 2 ^ n : Nat) := by
    rw [toInt_trim, ← hmag]
    rfl
  split
  · next h =>
    rw [Bool.and_eq_true] at h
    obtain ⟨-, hone⟩ := fromUint64_spec 1
    obtain ⟨c, hrun, hc, hvalue⟩ := sub_spec (canonical_trim { mag, negative := a.negative })
      (fromUint64 1)
    refine ⟨c, hrun, hc, ?_⟩
    have hrem := hlost.mp h.2
    have hatoInt : a.toInt = -(value a.mag : Int) := by
      unfold toInt
      rw [if_pos h.1]
    rw [hvalue, htrim, if_pos h.1, hone, eq_comm, ediv_eq_iff_of_pos hpow]
    have hcast : ((UInt64.toNat 1 : Nat) : Int) = 1 := rfl
    have hrempos : (0 : Int) < (value a.mag % 2 ^ n : Nat) := by
      exact_mod_cast Nat.pos_of_ne_zero hrem
    rw [hcast]
    constructor <;> linarith
  · next h =>
    refine ⟨_, rfl, canonical_trim _, ?_⟩
    rw [htrim]
    unfold toInt
    split
    · next hneg =>
      -- nothing is lost, so the quotient is exact
      have hrem : value a.mag % 2 ^ n = 0 := by
        by_contra hne
        exact h (by rw [hneg, hlost.mpr hne]; rfl)
      rw [hrem, Nat.cast_zero] at hsplit
      rw [eq_comm, ediv_eq_iff_of_pos hpow]
      constructor <;> linarith
    · push_cast
      rfl

theorem shiftRight_nonneg_iff (ha : a.Canonical) (hb : b.Canonical) (hneg : b.negative = false) :
    ShiftExact (shiftRight a b) a.toInt (-b.toInt) ↔ ShiftGuarded a.toInt (-b.toInt) := by
  have hcount : ¬ b.negative = true := by
    rw [hneg]
    exact Bool.false_ne_true
  unfold ShiftExact ShiftGuarded
  rw [shiftRight, if_neg hcount]
  have hnonneg : 0 ≤ b.toInt := by
    rw [toInt_nonneg hneg]
    omega
  obtain ⟨n, hvalue⟩ := eq_ofNat_of_zero_le hnonneg
  rw [hvalue, shifted_of_nonpos, if_neg (show ¬ (0 : Int) < -(n : Int) by omega), neg_neg]
  -- a result that is exact comes within the cap, or the operand was past it
  have hpromise : ∀ c, c.Canonical → c.toInt = a.toInt / 2 ^ n →
      ExactOrRefused (-(n : Int) ≤ 0 ∧ kMaxBits < bits a.toInt) (a.toInt / 2 ^ n) (c, .none) := by
    intro c hc hexact
    refine (exactOrRefused_none_iff hc hexact).mpr ?_
    rcases Nat.lt_or_ge kMaxBits (bits a.toInt) with hlt | hge
    · exact .inr ⟨by omega, hlt⟩
    · exact .inl ((bits_ediv_le _ n).trans hge)
  by_cases hnil : a.mag = []
  · have hzero : a.toInt = 0 := (toInt_eq_zero ha).mpr hnil
    rw [if_pos (by rw [hnil]; rfl)]
    refine ⟨fun _ => .inr ?_, fun _ => ⟨_, rfl, hpromise _ canonical_zero ?_⟩⟩
    · rw [hzero]
      exact ⟨by simp, by positivity⟩
    · rw [hzero, zero_ediv]
      rfl
  rw [if_neg (by simpa using hnil)]
  rcases magnitudeToUint64_cases hb hneg with ⟨hnone, hbig⟩ | ⟨m, hsome, hm, hfits⟩
  · -- everything is shifted out, and an arithmetic shift leaves the sign
    rw [hnone]
    have hpow : (0 : Int) < 2 ^ n := by positivity
    have hsign := toInt_neg_iff ha
    obtain ⟨c, hc, hcanon, hcvalue⟩ : ∃ c, (if a.negative then fromInt64 (-1) else {}) = c ∧
        c.Canonical ∧ c.toInt = if a.toInt < 0 then -1 else 0 := by
      simp only [hsign]
      cases a.negative
      · exact ⟨_, rfl, canonical_zero, rfl⟩
      · exact ⟨_, rfl, (fromInt64_spec (-1)).1, (fromInt64_spec (-1)).2⟩
    have hwindow : a.toInt / 2 ^ n = c.toInt ↔ -2 ^ n ≤ a.toInt ∧ a.toInt < 2 ^ n := by
      rw [hcvalue, ediv_eq_iff_of_pos hpow]
      split_ifs <;> omega
    rw [hc]
    refine ⟨fun ⟨r, hr, h⟩ => .inr ?_, fun h => ⟨_, rfl, hpromise _ hcanon ?_⟩⟩
    · obtain rfl := ok.inj hr
      exact hwindow.mp (h.value rfl).2.1.symm
    · rcases h with h | h
      · omega
      · exact (hwindow.mpr h).symm
  · obtain rfl : n = m := by omega
    obtain ⟨c, hrun, hc, hexact⟩ := shiftRight_floors a n
    rw [hsome]
    dsimp only
    rw [hrun]
    exact ⟨fun _ => .inl (by omega), fun _ => ⟨_, rfl, hpromise _ hc hexact⟩⟩

/-- **Shifts** are exact or refused, where the sum in the guard does not wrap past the cap. -/
theorem shiftExact_iff (ha : a.Canonical) (hb : b.Canonical) :
    (ShiftExact (shiftLeft a b) a.toInt b.toInt ↔ ShiftGuarded a.toInt b.toInt) ∧
      (ShiftExact (shiftRight a b) a.toInt (-b.toInt) ↔ ShiftGuarded a.toInt (-b.toInt)) := by
  cases hneg : b.negative with
  | false => exact ⟨shiftLeft_nonneg_iff ha hb hneg, shiftRight_nonneg_iff ha hb hneg⟩
  | true =>
    -- each is the other with the count negated
    obtain ⟨hcanon, hvalue⟩ := negate_spec b
    have hflip := negate_negative hneg
    have hright := shiftRight_nonneg_iff ha hcanon hflip
    have hleft := shiftLeft_nonneg_iff ha hcanon hflip
    rw [hvalue, neg_neg] at hright
    rw [hvalue] at hleft
    rw [shiftLeft, if_pos hneg, shiftRight.eq_def a b, if_pos hneg]
    exact ⟨hright, hleft⟩

/-- **`pow` and the shifts are exact or refuse** precisely where their guards, which multiply and
add modulo `2 ^ 64`, refuse what is past the cap. -/
theorem pow_shift_exact_iff (ha : a.Canonical) (hb : b.Canonical) :
    (PowExact a b ↔ (0 ≤ b.toInt → PowGuarded a.toInt b.toInt)) ∧
      (ShiftExact (shiftLeft a b) a.toInt b.toInt ↔ ShiftGuarded a.toInt b.toInt) ∧
      (ShiftExact (shiftRight a b) a.toInt (-b.toInt) ↔ ShiftGuarded a.toInt (-b.toInt)) :=
  ⟨powExact_iff ha hb, shiftExact_iff ha hb⟩

end Operations

/-- `3 ** 5` and the shifts of `3` by `5`, which the guards let through. -/
theorem pow_shift_exact_small :
    PowExact { mag := [3] } { mag := [5] } ∧
      ShiftExact (shiftLeft { mag := [3] } { mag := [5] }) 3 5 ∧
      ShiftExact (shiftRight { mag := [3] } { mag := [5] }) 3 (-5) := by
  have ha : Canonical { mag := [3] } := ⟨by simp [Trimmed], by simp⟩
  have hb : Canonical { mag := [5] } := ⟨by simp [Trimmed], by simp⟩
  obtain ⟨hpow, hleft, hright⟩ := pow_shift_exact_iff ha hb
  have hbits : bits 3 ≤ 2 := Nat.size_le.mpr (by decide)
  have hcap : kMaxBits = 2 ^ 24 := rfl
  refine ⟨hpow.mpr fun _ _ => .inr (.inl ?_), hleft.mpr ?_, hright.mpr ?_⟩
  · change bits 3 * 5 ≤ kMaxBits
    omega
  · change ShiftGuarded 3 5
    refine fun _ => .inr (.inl ?_)
    change bits 3 + 5 ≤ kMaxBits
    omega
  · change ShiftGuarded 3 (-5)
    exact .inl (by decide)

/-- `2 ** (2 ** 63)` and `1 << (2 ** 64 - 1)` are let through: twice `2 ^ 63`, and one more than
`2 ^ 64 - 1`, are zero in a `uint64_t`. -/
theorem pow_shift_guards_wrap :
    ¬ PowExact { mag := [2] } { mag := [0, 0x80000000] } ∧
      ¬ ShiftExact (shiftLeft { mag := [1] } { mag := [0xFFFFFFFF, 0xFFFFFFFF] })
        1 (2 ^ 64 - 1) := by
  have hcap : kMaxBits = 2 ^ 24 := rfl
  have hc₁ : Canonical { mag := [2] } := ⟨by simp [Trimmed], by simp⟩
  have hc₂ : Canonical { mag := [0, 0x80000000] } := ⟨by simp [Trimmed], by simp⟩
  have hc₃ : Canonical { mag := [1] } := ⟨by simp [Trimmed], by simp⟩
  have hc₄ : Canonical { mag := [0xFFFFFFFF, 0xFFFFFFFF] } := ⟨by simp [Trimmed], by simp⟩
  have htwo : bits 2 = 2 := @Nat.size_pow 1
  have hone : bits 1 = 1 := Nat.size_one
  constructor
  · intro h
    have hguard := (powExact_iff hc₁ hc₂).mp h (by decide)
    have hguard := hguard (by decide)
    change bits 2 ≤ 1 ∨ bits 2 * 2 ^ 63 ≤ kMaxBits ∨
      (1 < bits 2 % 2 ^ 64 ∧ kMaxBits < bits 2 * 2 ^ 63 % 2 ^ 64) at hguard
    omega
  · intro h
    have hguard := (shiftExact_iff hc₃ hc₄).1.mp h
    have hguard := hguard (by decide)
    change (1 : Int) = 0 ∨ bits 1 + (2 ^ 64 - 1) ≤ kMaxBits ∨
      kMaxBits < (bits 1 + (2 ^ 64 - 1)) % 2 ^ 64 at hguard
    omega

end Bronze.BigNum
