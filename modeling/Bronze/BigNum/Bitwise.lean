import Bronze.BigNum.Power

/-!
# Bitwise operators and residues

The bitwise operators are those of the infinite two's complement. The source computes them in a
window of one limb above the wider operand, and takes the sign of the result from the operator.
`asUintN` cuts the same window down to a count of bits.

## Main results

* `toNat_emod_testBit`, `bitwise_inWindow`: what a window holds of an integer
* `bitwiseBy_spec`, `bitwise_refinement`: the operators are those of the integers
* `asUintN_spec`, `residues_iff`: the residues, where the shifts inside `asIntN` are not refused
-/

namespace Bronze

open List Nat Int

/-! ## Integers in a window

`k` bits and the sign: the integers from `-2 ^ k` up to `2 ^ k`. -/

namespace Window

/-- `x` is its low `k` bits and its sign. -/
def InWindow (k : Nat) (x : Int) : Prop := -2 ^ k ≤ x ∧ x < 2 ^ k

theorem inWindow_natCast (k m : Nat) : InWindow k m ↔ m < 2 ^ k := by
  unfold InWindow
  have hcast : ((2 ^ k : Nat) : Int) = 2 ^ k := by push_cast; rfl
  omega

theorem inWindow_negSucc (k m : Nat) : InWindow k (negSucc m) ↔ m < 2 ^ k := by
  unfold InWindow
  have hcast : ((2 ^ k : Nat) : Int) = 2 ^ k := by push_cast; rfl
  omega

theorem toNat_emod_testBit (x : Int) (k i : Nat) :
    (x % 2 ^ k).toNat.testBit i = (decide (i < k) && x.testBit i) := by
  have hcast : ((2 ^ k : Nat) : Int) = 2 ^ k := by push_cast; rfl
  cases x with
  | ofNat m =>
    have hmod : ((m : Int) % 2 ^ k).toNat = m % 2 ^ k := by
      rw [← hcast, ← natCast_mod, toNat_natCast]
    change ((m : Int) % 2 ^ k).toNat.testBit i = _
    rw [hmod, testBit_mod_two_pow]
    rfl
  | negSucc m =>
    have hlt : m % 2 ^ k < 2 ^ k := Nat.mod_lt _ (Nat.two_pow_pos k)
    have hmod : (negSucc m % 2 ^ k).toNat = 2 ^ k - (m % 2 ^ k + 1) := by
      rw [← hcast, negSucc_emod _ (by exact_mod_cast Nat.two_pow_pos k)]
      omega
    rw [hmod, testBit_two_pow_sub_succ hlt, testBit_mod_two_pow]
    change _ = (decide (i < k) && !m.testBit i)
    cases decide (i < k) <;> rfl

section Bitwise

variable (f : Bool → Bool → Bool) {k : Nat} {x y : Int}

theorem natBitwise_neg_iff (m n : Nat) : natBitwise f m n < 0 ↔ f false false = true := by
  unfold natBitwise
  cases f false false
  · simp only [Bool.false_eq_true, iff_false]
    exact not_lt.mpr (natCast_nonneg _)
  · simp only [iff_true]
    exact negSucc_lt_zero _

theorem natBitwise_inWindow {m n : Nat} (hm : m < 2 ^ k) (hn : n < 2 ^ k) :
    InWindow k (natBitwise f m n) := by
  unfold natBitwise
  cases f false false
  · exact (inWindow_natCast ..).mpr (bitwise_lt_two_pow hm hn)
  · exact (inWindow_negSucc ..).mpr (bitwise_lt_two_pow hm hn)

theorem bitwise_neg_iff (x y : Int) :
    bitwise f x y < 0 ↔ f (decide (x < 0)) (decide (y < 0)) = true := by
  cases x with
  | ofNat m =>
    have hm : decide (ofNat m < 0) = false := decide_eq_false (by simp)
    cases y with
    | ofNat n =>
      exact natBitwise_neg_iff f m n
    | negSucc n =>
      have hn : decide (negSucc n < 0) = true := decide_eq_true (negSucc_lt_zero n)
      rw [hn]
      exact natBitwise_neg_iff (fun x y => f x (!y)) m n
  | negSucc m =>
    have hm : decide (negSucc m < 0) = true := decide_eq_true (negSucc_lt_zero m)
    cases y with
    | ofNat n =>
      have hn : decide (ofNat n < 0) = false := decide_eq_false (by simp)
      rw [hm]
      exact natBitwise_neg_iff (fun x y => f (!x) y) m n
    | negSucc n =>
      have hn : decide (negSucc n < 0) = true := decide_eq_true (negSucc_lt_zero n)
      rw [hm, hn]
      exact natBitwise_neg_iff (fun x y => f (!x) (!y)) m n

/-- **The operators stay in the window** of their operands. -/
theorem bitwise_inWindow (hx : InWindow k x) (hy : InWindow k y) :
    InWindow k (bitwise f x y) := by
  cases x with
  | ofNat m =>
    have hm := (inWindow_natCast k m).mp hx
    cases y with
    | ofNat n => exact natBitwise_inWindow f hm ((inWindow_natCast k n).mp hy)
    | negSucc n =>
      exact natBitwise_inWindow (fun x y => f x (!y)) hm ((inWindow_negSucc k n).mp hy)
  | negSucc m =>
    have hm := (inWindow_negSucc k m).mp hx
    cases y with
    | ofNat n =>
      exact natBitwise_inWindow (fun x y => f (!x) y) hm ((inWindow_natCast k n).mp hy)
    | negSucc n =>
      exact natBitwise_inWindow (fun x y => f (!x) (!y)) hm ((inWindow_negSucc k n).mp hy)

end Bitwise

end Window

namespace BigNum

open Window

/-! ## The window -/

/-- The loop that inverts the limbs and carries one into them. -/
def negateLoop : Nat → Magnitude → Except Fault Magnitude
  | _, [] => .ok []
  | carry, x :: m => do
    let inverted ← u64 ((~~~x).toNat + carry)
    let rest ← negateLoop (inverted >>> 32) m
    return low inverted :: rest

def twosComplement (a : BigNum) (count : Nat) : Except Fault Magnitude :=
  if a.negative then negateLoop 1 (resize a.mag count) else .ok (resize a.mag count)

def fromTwosComplement (limbs : Magnitude) (negative : Bool) : Except Fault BigNum := do
  let limbs ← if negative then negateLoop 1 limbs else .ok limbs
  return trim { mag := limbs, negative }

/-- What the three binary operators share. -/
def bitwiseBy (op : UInt32 → UInt32 → UInt32) (sign : Bool → Bool → Bool) (a b : BigNum) :
    Except Fault BigNum := do
  let count := max a.mag.length b.mag.length + 1
  let lhs ← twosComplement a count
  let rhs ← twosComplement b count
  fromTwosComplement (zipWith op lhs rhs) (sign a.negative b.negative)

def bitAnd : BigNum → BigNum → Except Fault BigNum := bitwiseBy (· &&& ·) (· && ·)

def bitOr : BigNum → BigNum → Except Fault BigNum := bitwiseBy (· ||| ·) (· || ·)

def bitXor : BigNum → BigNum → Except Fault BigNum := bitwiseBy (· ^^^ ·) (· != ·)

def bitNot (a : BigNum) : Except Fault BigNum := sub (fromInt64 (-1)) a

/-- `limbs.back() &= (1U << topBits) - 1U` -/
def maskBack (limbs : Magnitude) (topBits : Nat) : Magnitude :=
  limbs.set (limbs.length - 1) (low (limb limbs (limbs.length - 1) &&& ((1 <<< topBits) - 1)))

def asUintN (bits : Nat) (a : BigNum) : Except Fault (BigNum × BigNumError) :=
  if bits = 0 then .ok ({}, .none)
  else if kMaxBits < bits then .ok ({}, .tooLarge)
  else do
    let count := (bits + 31) / 32
    let limbs ← twosComplement a (max count (a.mag.length + 1))
    let limbs := resize limbs count
    let limbs := if bits % 32 ≠ 0 then maskBack limbs (bits % 32) else limbs
    return (trim { mag := limbs }, .none)

def asIntN (bits : Nat) (a : BigNum) : Except Fault (BigNum × BigNumError) := do
  let (wrapped, err) ← asUintN bits a
  if err ≠ .none ∨ bits = 0 then return (wrapped, err)
  else do
    let (half, shiftErr) ← shiftLeft (fromUint64 1) (fromUint64 (UInt64.ofNat (bits - 1)))
    if shiftErr ≠ .none then return ({}, shiftErr)
    else if compare wrapped half < 0 then return (wrapped, err)
    else do
      let (whole, shiftErr) ← shiftLeft (fromUint64 1) (fromUint64 (UInt64.ofNat bits))
      if shiftErr ≠ .none then return ({}, shiftErr)
      else do
        let out ← sub wrapped whole
        return (out, err)

variable (m : Magnitude)

theorem value_resize (n : Nat) : value (resize m n) = value m % kBase ^ n := by
  unfold resize
  simp [value_append, value_take]

theorem length_resize (n : Nat) : (resize m n).length = n := by
  unfold resize
  rw [length_append, length_take, length_replicate]
  omega

/-- Inverting the limbs takes the value from all ones; the carry adds one, up to the carry out. -/
theorem negateLoop_spec :
    ∀ carry, carry ≤ 1 → ∃ out d, negateLoop carry m = .ok out ∧ out.length = m.length ∧
      value out + value m + 1 + kBase ^ m.length * d = carry + kBase ^ m.length := by
  induction m with
  | nil =>
    intro carry hc
    refine ⟨[], carry, rfl, rfl, ?_⟩
    simp
    omega
  | cons x m ih =>
    intro carry hc
    have hx : x.toNat < 2 ^ 32 := x.toNat_lt
    have hnot : (~~~x).toNat = 2 ^ 32 - 1 - x.toNat := by
      rw [UInt32.toNat_not]
      rfl
    have hsplit := low_add_shift ((~~~x).toNat + carry)
    have hcarry : ((~~~x).toNat + carry) >>> 32 ≤ 1 := by
      omega
    obtain ⟨rest, d, hrun, hlen, hvalue⟩ := ih _ hcarry
    refine ⟨low ((~~~x).toNat + carry) :: rest, d, ?_, ?_, ?_⟩
    · rw [negateLoop, u64_ok (by omega)]
      dsimp only [bind, Except.bind]
      rw [hrun]
      rfl
    · simp [hlen]
    · have hscaled := congrArg (kBase * ·) hvalue
      simp only [mul_add] at hscaled
      rw [value_cons, value_cons, length_cons, pow_succ']
      have hbase : kBase = 2 ^ 32 := rfl
      rw [mul_assoc]
      omega

/-- **The negated window** holds the residue of the negated value. -/
theorem negateLoop_one :
    ∃ out, negateLoop 1 m = .ok out ∧ out.length = m.length ∧
      (value out : Int) = -(value m : Int) % (kBase : Int) ^ m.length := by
  obtain ⟨out, d, hrun, hlen, hvalue⟩ := negateLoop_spec m 1 le_rfl
  refine ⟨out, hrun, hlen, ?_⟩
  have hlt : (value out : Int) < (kBase : Int) ^ m.length := by
    rw [← hlen]
    exact_mod_cast value_lt out
  have hvalue : (value out : Int) + value m + (kBase : Int) ^ m.length * d =
      (kBase : Int) ^ m.length := by
    have : (value out : Int) + value m + 1 + (kBase : Int) ^ m.length * d =
        1 + (kBase : Int) ^ m.length := by exact_mod_cast hvalue
    omega
  have hcongr : (value out : Int) = -(value m : Int) + (kBase : Int) ^ m.length * (1 - d) := by
    linear_combination hvalue
  rw [← emod_eq_of_lt (natCast_nonneg _) hlt, hcongr, add_mul_emod_self_left]

/-- **The window** of a value holds its residue. -/
theorem twosComplement_spec (a : BigNum) (count : Nat) :
    ∃ out, twosComplement a count = .ok out ∧ out.length = count ∧
      (value out : Int) = a.toInt % (kBase : Int) ^ count := by
  have hresize : (value (resize a.mag count) : Int) =
      (value a.mag : Int) % (kBase : Int) ^ count := by
    rw [value_resize]
    rfl
  unfold twosComplement toInt
  cases a.negative with
  | false =>
    exact ⟨_, rfl, length_resize .., hresize⟩
  | true =>
    obtain ⟨out, hrun, hlen, hvalue⟩ := negateLoop_one (resize a.mag count)
    rw [length_resize] at hlen hvalue
    refine ⟨out, hrun, hlen, ?_⟩
    rw [hvalue, hresize]
    exact ModEq.neg (mod_modEq ..)

section Operators

variable {op : UInt32 → UInt32 → UInt32} {f : Bool → Bool → Bool} {a b : BigNum}

theorem testBit_value_zipWith
    (hop : ∀ x y i, (op x y).toNat.testBit i = f (x.toNat.testBit i) (y.toNat.testBit i))
    (hf : f false false = false) {l r : Magnitude} (hlen : l.length = r.length) (i : Nat) :
    (value (zipWith op l r)).testBit i = f ((value l).testBit i) ((value r).testBit i) := by
  induction l generalizing r i with
  | nil =>
    obtain rfl := eq_nil_of_length_eq_zero hlen.symm
    simp [hf]
  | cons x l ih =>
    cases r with
    | nil => cases hlen
    | cons y r =>
      have hcons : ∀ (z : UInt32) (m : Magnitude), value (z :: m) = 2 ^ 32 * value m + z.toNat := by
        intro z m
        rw [value_cons, kBase, add_comm]
      rw [zipWith_cons_cons, hcons, hcons, hcons, testBit_two_pow_mul_add _ (UInt32.toNat_lt _),
        testBit_two_pow_mul_add _ (UInt32.toNat_lt _),
        testBit_two_pow_mul_add _ (UInt32.toNat_lt _)]
      split
      · exact hop x y i
      · exact ih (succ.inj hlen) (i - 32)

theorem inWindow_toInt {k : Nat} (hk : 32 * a.mag.length ≤ k) : InWindow k a.toInt := by
  have hlt : value a.mag < 2 ^ k := by
    calc value a.mag < kBase ^ a.mag.length := value_lt a.mag
      _ = 2 ^ (32 * a.mag.length) := by rw [kBase, ← pow_mul]
      _ ≤ _ := Nat.pow_le_pow_right (by decide) hk
  have hpow : (value a.mag : Int) < 2 ^ k := by exact_mod_cast hlt
  unfold toInt InWindow
  split_ifs <;> omega

theorem fromTwosComplement_spec {limbs : Magnitude} {k : Nat} {x : Int} (hx : InWindow k x)
    (hk : k < 32 * limbs.length) (hlimbs : (value limbs : Int) = x % (kBase : Int) ^ limbs.length) :
    ∃ c, fromTwosComplement limbs (decide (x < 0)) = .ok c ∧ c.Canonical ∧ c.toInt = x := by
  have hbase : (kBase : Int) ^ limbs.length = 2 ^ (32 * limbs.length) := by
    have : (kBase : Int) = 2 ^ 32 := rfl
    rw [this, ← pow_mul]
  have hpow : (2 : Int) ^ k < 2 ^ (32 * limbs.length) := by
    exact_mod_cast Nat.pow_lt_pow_right (by decide) hk
  obtain ⟨hlow, hhigh⟩ := hx
  rw [hbase] at hlimbs
  unfold fromTwosComplement
  by_cases hneg : x < 0
  · obtain ⟨out, hrun, hlen, hvalue⟩ := negateLoop_one limbs
    rw [hbase, hlimbs] at hvalue
    have hback : (value out : Int) = -x := by
      have hcongr : -(x % 2 ^ (32 * limbs.length)) % 2 ^ (32 * limbs.length) =
          -x % 2 ^ (32 * limbs.length) := ModEq.neg (mod_modEq ..)
      rw [hvalue, hcongr]
      exact emod_eq_of_lt (by omega) (by omega)
    refine ⟨trim { mag := out, negative := true }, ?_, canonical_trim _, ?_⟩
    · rw [decide_eq_true hneg]
      rw [hrun]
      rfl
    · rw [toInt_trim]
      change -(value out : Int) = x
      omega
  · refine ⟨trim { mag := limbs, negative := false }, ?_, canonical_trim _, ?_⟩
    · rw [decide_eq_false hneg]
      rfl
    · rw [toInt_trim]
      change (value limbs : Int) = x
      rw [hlimbs]
      exact emod_eq_of_lt (by omega) (by omega)

/-- **A binary operator** on the windows is the operator on the integers. -/
theorem bitwiseBy_spec
    (hop : ∀ x y i, (op x y).toNat.testBit i = f (x.toNat.testBit i) (y.toNat.testBit i))
    (hf : f false false = false) (ha : a.Canonical) (hb : b.Canonical) :
    ∃ c, bitwiseBy op f a b = .ok c ∧ c.Canonical ∧ c.toInt = bitwise f a.toInt b.toInt := by
  set width := max a.mag.length b.mag.length with hwidth
  obtain ⟨lhs, hlhs, hllen, hlvalue⟩ := twosComplement_spec a (width + 1)
  obtain ⟨rhs, hrhs, hrlen, hrvalue⟩ := twosComplement_spec b (width + 1)
  have hbase : (kBase : Int) ^ (width + 1) = 2 ^ (32 * (width + 1)) := by
    have : (kBase : Int) = 2 ^ 32 := rfl
    rw [this, ← pow_mul]
  have hlen : (zipWith op lhs rhs).length = width + 1 := by
    rw [length_zipWith]
    omega
  -- the limbs of the result hold the residue of the result
  have hlimbs : (value (zipWith op lhs rhs) : Int) =
      bitwise f a.toInt b.toInt % (kBase : Int) ^ (width + 1) := by
    have hpos : (2 : Int) ^ (32 * (width + 1)) ≠ 0 := by positivity
    rw [hbase] at hlvalue hrvalue ⊢
    rw [← toNat_of_nonneg (emod_nonneg (bitwise f a.toInt b.toInt) hpos)]
    congr 1
    apply eq_of_testBit_eq
    intro i
    have hl : value lhs = (a.toInt % 2 ^ (32 * (width + 1))).toNat := by omega
    have hr : value rhs = (b.toInt % 2 ^ (32 * (width + 1))).toNat := by omega
    rw [testBit_value_zipWith hop hf (by omega), hl, hr, toNat_emod_testBit, toNat_emod_testBit,
      toNat_emod_testBit]
    cases decide (i < 32 * (width + 1)) with
    | true => simp
    | false => simpa using hf
  have hsign : decide (bitwise f a.toInt b.toInt < 0) = f a.negative b.negative := by
    rw [Bool.eq_iff_iff, decide_eq_true_iff, bitwise_neg_iff]
    have hda : decide (a.toInt < 0) = a.negative := by
      rw [Bool.eq_iff_iff, decide_eq_true_iff]
      exact toInt_neg_iff ha
    have hdb : decide (b.toInt < 0) = b.negative := by
      rw [Bool.eq_iff_iff, decide_eq_true_iff]
      exact toInt_neg_iff hb
    rw [hda, hdb]
  have hwindow : InWindow (32 * width) (bitwise f a.toInt b.toInt) := by
    apply bitwise_inWindow
    · exact inWindow_toInt (mul_le_mul_left _ (le_max_left ..))
    · exact inWindow_toInt (mul_le_mul_left _ (le_max_right ..))
  rw [← hlen] at hlimbs
  obtain ⟨c, hrun, hc, hvalue⟩ := fromTwosComplement_spec hwindow (by omega) hlimbs
  rw [hsign] at hrun
  refine ⟨c, ?_, hc, hvalue⟩
  unfold bitwiseBy
  dsimp only [bind]
  rw [hlhs]
  rw [hrhs]
  exact hrun

theorem lnot_eq (x : Int) : lnot x = -1 - x := by
  cases x with
  | ofNat m =>
    change negSucc m = -1 - (m : Int)
    omega
  | negSucc m =>
    change (m : Int) = -1 - negSucc m
    omega

/-- **The bitwise operators** are those of the integers, for operands of either sign and any
length: a window of one limb above the wider operand always suffices. -/
theorem bitwise_refinement (ha : a.Canonical) (hb : b.Canonical) :
    (∃ c, bitAnd a b = .ok c ∧ c.Canonical ∧ c.toInt = land a.toInt b.toInt) ∧
      (∃ c, bitOr a b = .ok c ∧ c.Canonical ∧ c.toInt = Int.lor a.toInt b.toInt) ∧
      (∃ c, bitXor a b = .ok c ∧ c.Canonical ∧ c.toInt = Int.xor a.toInt b.toInt) ∧
      ∃ c, bitNot a = .ok c ∧ c.Canonical ∧ c.toInt = Int.lnot a.toInt := by
  refine ⟨?_, ?_, ?_, ?_⟩
  · rw [← bitwise_and]
    refine bitwiseBy_spec (fun x y i => ?_) rfl ha hb
    simp
  · rw [← bitwise_or]
    refine bitwiseBy_spec (fun x y i => ?_) rfl ha hb
    simp
  · have hxor : Int.xor = Int.bitwise (· != ·) := by
      rw [← Int.bitwise_xor]
    rw [hxor]
    refine bitwiseBy_spec (fun x y i => ?_) rfl ha hb
    simp
  · obtain ⟨c, hrun, hc, hvalue⟩ := sub_spec (fromInt64_spec (-1)).1 a
    refine ⟨c, hrun, hc, ?_⟩
    rw [hvalue, lnot_eq]
    rfl

/-- The most negative result of a window, `-2 ^ 32` of `-(2 ^ 32 - 1)` and `-2`. -/
theorem bitwise_refinement_borrow :
    ∃ c, bitAnd { mag := [0xFFFFFFFF], negative := true } { mag := [2], negative := true } =
        .ok c ∧ c.Canonical ∧ c.toInt = land (-(2 ^ 32 - 1)) (-2) := by
  have ha : Canonical { mag := [0xFFFFFFFF], negative := true } := ⟨by simp [Trimmed], by simp⟩
  have hb : Canonical { mag := [2], negative := true } := ⟨by simp [Trimmed], by simp⟩
  exact (bitwise_refinement ha hb).1

end Operators

/-! ## Residues -/

section Residues

variable {a : BigNum} {bits : Nat}

theorem maskBack_spec {limbs : Magnitude} (hne : limbs ≠ []) (t : Nat) :
    value (maskBack limbs t) = value limbs % (kBase ^ (limbs.length - 1) * 2 ^ t) := by
  have hlen : limbs.length - 1 < limbs.length := by
    have := List.length_pos_iff.mpr hne
    omega
  set k := limbs.length - 1 with hk
  have hmask : (low (limb limbs k &&& ((1 <<< t) - 1))).toNat = limb limbs k % 2 ^ t := by
    rw [Nat.shiftLeft_eq, Nat.one_mul, Nat.and_two_pow_sub_one_eq_mod]
    exact Nat.mod_eq_of_lt ((Nat.mod_le ..).trans_lt (limb_lt ..))
  have hfits : value limbs < kBase ^ (k + 1) := by
    have h := value_lt limbs
    rwa [show limbs.length = k + 1 by omega] at h
  obtain ⟨hsplit, hlt⟩ := value_top hfits
  unfold maskBack
  rw [value_set_top hlen hfits, hmask, Nat.mod_mul]
  conv_rhs => rw [hsplit]
  rw [Nat.add_mul_mod_self_left, Nat.mod_eq_of_lt hlt,
    Nat.add_mul_div_left _ _ (Nat.pow_pos kBase_pos), Nat.div_eq_of_lt hlt, Nat.zero_add]

/-- **`asUintN`** is the residue, the largest count of bits included. -/
theorem asUintN_spec (hpos : 0 < bits) (hcap : bits ≤ kMaxBits) (a : BigNum) :
    ∃ c, asUintN bits a = .ok (c, .none) ∧ c.Canonical ∧ c.toInt = a.toInt % 2 ^ bits := by
  set count := (bits + 31) / 32 with hcount
  set wide := max count (a.mag.length + 1) with hwide
  obtain ⟨limbs, hrun, hlen, hvalue⟩ := twosComplement_spec a wide
  have hbase : (kBase : Int) = 2 ^ 32 := rfl
  -- cut down to the limbs that the count touches
  have hcut : (value (resize limbs count) : Int) = a.toInt % 2 ^ (32 * count) := by
    have hdvd : (2 : Int) ^ (32 * count) ∣ 2 ^ (32 * wide) :=
      pow_dvd_pow 2 (mul_le_mul_left _ (le_max_left ..))
    rw [value_resize]
    push_cast
    rw [hvalue, hbase, ← pow_mul, ← pow_mul, emod_emod_of_dvd _ hdvd]
  obtain ⟨out, hout, hmasked⟩ : ∃ out, (if bits % 32 ≠ 0
      then maskBack (resize limbs count) (bits % 32) else resize limbs count) = out ∧
      (value out : Int) = a.toInt % 2 ^ bits := by
    refine ⟨_, rfl, ?_⟩
    have hdvd : (2 : Int) ^ bits ∣ 2 ^ (32 * count) := pow_dvd_pow 2 (by omega)
    split
    · have hne : resize limbs count ≠ [] := by
        intro hnil
        have := length_resize limbs count
        rw [hnil, length_nil] at this
        omega
      have hweight : kBase ^ (count - 1) * 2 ^ (bits % 32) = 2 ^ bits := by
        rw [kBase, ← pow_mul, ← pow_add]
        congr 1
        omega
      rw [maskBack_spec hne, length_resize, hweight]
      push_cast
      rw [hcut, emod_emod_of_dvd _ hdvd]
    · rw [hcut]
      congr 2
      omega
  refine ⟨trim { mag := out }, ?_, canonical_trim _, ?_⟩
  · unfold asUintN
    rw [if_neg (by omega), if_neg (by omega)]
    change (twosComplement a wide >>= _) = _
    rw [hrun, ← hout]
    rfl
  · rw [toInt_trim, ← hmasked]
    rfl

/-- `1 << n`, up to the cap: a power of two has one bit more than its exponent. -/
theorem shiftLeft_one {n : Nat} (hcap : n ≤ kMaxBits) :
    ∃ c, c.Canonical ∧ c.toInt = 2 ^ n ∧
      shiftLeft (fromUint64 1) (fromUint64 (UInt64.ofNat n)) =
        .ok (if n = kMaxBits then ({}, .tooLarge) else (c, .none)) := by
  have hkMaxBits : kMaxBits = 2 ^ 24 := rfl
  obtain ⟨hcanon, hone⟩ := fromUint64_spec 1
  obtain ⟨hcount, hn⟩ := fromUint64_spec (UInt64.ofNat n)
  have hnat : (UInt64.ofNat n).toNat = n := by
    exact mod_eq_of_lt (by omega)
  have hneg : (fromUint64 (UInt64.ofNat n)).negative = false := by
    unfold fromUint64
    split_ifs <;> rfl
  obtain ⟨m, hsome, hm⟩ :
      ∃ m, (fromUint64 (UInt64.ofNat n)).magnitudeToUint64 = some m ∧ m = n := by
    rcases magnitudeToUint64_cases hcount hneg with ⟨-, hbig⟩ | ⟨m, hsome, hvalue, -⟩
    · omega
    · exact ⟨m, hsome, by omega⟩
  have hone : (fromUint64 1).toInt = 1 := hone
  have hbits : bits 1 = 1 := size_one
  obtain ⟨c, hc, hvalue, hrun⟩ := shiftLeft_eq hcanon (by decide) hneg hsome
  rw [hone, hm, one_mul] at hvalue
  rw [hone] at hrun
  refine ⟨c, hc, hvalue, ?_⟩
  rw [hrun]
  congr 1
  by_cases h : n = kMaxBits
  · rw [if_pos h, if_pos (by omega)]
  · rw [if_neg h, if_neg (by omega)]

/-- `asIntN`, case by case: the subtraction needs `1 << bits`, which is refused at the cap. -/
theorem asIntN_eq (hpos : 0 < bits) (hcap : bits ≤ kMaxBits) (a : BigNum) :
    ∃ w out, asUintN bits a = .ok (w, .none) ∧ w.Canonical ∧
      w.toInt = a.toInt % 2 ^ bits ∧ out.Canonical ∧ out.toInt = a.toInt % 2 ^ bits - 2 ^ bits ∧
      asIntN bits a = .ok (if a.toInt % 2 ^ bits < 2 ^ (bits - 1) then (w, .none)
        else if bits = kMaxBits then ({}, .tooLarge) else (out, .none)) := by
  obtain ⟨w, hw, hwcanon, hwvalue⟩ := asUintN_spec hpos hcap a
  obtain ⟨half, hhalfcanon, hhalf, hrunhalf⟩ := @shiftLeft_one (bits - 1) (by omega)
  obtain ⟨whole, hwholecanon, hwhole, hrunwhole⟩ := shiftLeft_one hcap
  obtain ⟨out, hout, houtcanon, houtvalue⟩ := sub_spec hwcanon whole
  rw [if_neg (by omega)] at hrunhalf
  have horder : compare w half < 0 ↔ a.toInt % 2 ^ bits < 2 ^ (bits - 1) := by
    rw [compare_eq hwcanon hhalfcanon, sign_neg_iff]
    omega
  have hgo : ¬ (BigNumError.none ≠ .none ∨ bits = 0) := by
    rintro (h | h)
    · exact h rfl
    · omega
  refine ⟨w, out, hw, hwcanon, hwvalue, houtcanon, by rw [houtvalue, hwvalue, hwhole], ?_⟩
  unfold asIntN
  rw [hw]
  dsimp only [bind, Except.bind]
  rw [if_neg hgo, hrunhalf]
  dsimp only
  rw [hrunwhole]
  by_cases hsmall : a.toInt % 2 ^ bits < 2 ^ (bits - 1)
  · rw [if_pos hsmall, if_pos (horder.mpr hsmall)]
    rfl
  rw [if_neg hsmall, if_neg (fun h => hsmall (horder.mp h))]
  by_cases hlast : bits = kMaxBits
  · rw [if_pos hlast, if_pos hlast]
    rfl
  · rw [if_neg hlast, if_neg hlast]
    dsimp only
    rw [hout]
    rfl

/-- Both residues, each in its range. -/
def ResiduesExact (bits : Nat) (a : BigNum) : Prop :=
  (∃ c, asUintN bits a = .ok (c, .none) ∧ c.Canonical ∧ 0 ≤ c.toInt ∧ c.toInt < 2 ^ bits ∧
    c.toInt ≡ a.toInt [ZMOD 2 ^ bits]) ∧
  ∃ c, asIntN bits a = .ok (c, .none) ∧ c.Canonical ∧ -2 ^ (bits - 1) ≤ c.toInt ∧
    c.toInt < 2 ^ (bits - 1) ∧ c.toInt ≡ a.toInt [ZMOD 2 ^ bits]

/-- **The residues** are exact, but where the negative answer needs `1 << kMaxBits`. -/
theorem residues_iff (hpos : 0 < bits) (hcap : bits ≤ kMaxBits) (a : BigNum) :
    ResiduesExact bits a ↔ bits < kMaxBits ∨ a.toInt % 2 ^ bits < 2 ^ (bits - 1) := by
  obtain ⟨w, out, hw, hwcanon, hwvalue, houtcanon, houtvalue, hrun⟩ := asIntN_eq hpos hcap a
  have hpow : (2 : Int) ^ bits = 2 ^ (bits - 1) * 2 := by
    rw [← pow_succ]
    congr 1
    omega
  have hlow : 0 ≤ a.toInt % 2 ^ bits := emod_nonneg _ (by omega)
  have hhigh : a.toInt % 2 ^ bits < 2 ^ bits := emod_lt_of_pos _ (by omega)
  have hcongr : a.toInt % 2 ^ bits ≡ a.toInt [ZMOD 2 ^ bits] := mod_modEq ..
  have hunsigned : ∃ c, asUintN bits a = .ok (c, .none) ∧ c.Canonical ∧ 0 ≤ c.toInt ∧
      c.toInt < 2 ^ bits ∧ c.toInt ≡ a.toInt [ZMOD 2 ^ bits] := by
    refine ⟨w, hw, hwcanon, ?_⟩
    rw [hwvalue]
    exact ⟨hlow, hhigh, hcongr⟩
  unfold ResiduesExact
  rw [hrun]
  by_cases hsmall : a.toInt % 2 ^ bits < 2 ^ (bits - 1)
  · rw [if_pos hsmall]
    refine ⟨fun _ => .inr hsmall, fun _ => ⟨hunsigned, w, rfl, hwcanon, ?_⟩⟩
    rw [hwvalue]
    exact ⟨by omega, hsmall, hcongr⟩
  rw [if_neg hsmall]
  by_cases hlast : bits = kMaxBits
  · rw [if_pos hlast]
    refine ⟨fun h => ?_, fun h => ?_⟩
    · obtain ⟨-, c, hc, -⟩ := h
      cases hc
    · omega
  · rw [if_neg hlast]
    refine ⟨fun _ => .inl (by omega), fun _ => ⟨hunsigned, out, rfl, houtcanon, ?_⟩⟩
    rw [houtvalue]
    refine ⟨by omega, by omega, ?_⟩
    have hzero : (2 : Int) ^ bits ≡ 0 [ZMOD 2 ^ bits] := emod_self
    have hdiff := hcongr.sub hzero
    rwa [sub_zero] at hdiff

/-- The signed residue of `200` in eight bits. -/
theorem residues_eight_bits : ResiduesExact 8 { mag := [200] } :=
  (residues_iff (by decide) (by decide) _).mpr (.inl (by decide))

/-- `asIntN(kMaxBits, -1n)`, which is `-1n`, is refused. -/
theorem residues_top_refused : ¬ ResiduesExact kMaxBits { mag := [1], negative := true } := by
  intro h
  obtain ⟨-, c, hc, -⟩ := h
  have hone : toInt { mag := [1], negative := true } = -1 := rfl
  have hpow : (2 : Int) ^ kMaxBits = 2 ^ (kMaxBits - 1) * 2 := by
    rw [← pow_succ]
    rfl
  have hpos : (0 : Int) < 2 ^ (kMaxBits - 1) := by positivity
  have hmod : (-1 : Int) % 2 ^ kMaxBits = 2 ^ kMaxBits - 1 := by
    rw [← add_emod_right, emod_eq_of_lt] <;> omega
  obtain ⟨w, out, -, -, -, -, -, hrun⟩ :=
    asIntN_eq (by decide) le_rfl { mag := [1], negative := true }
  rw [hone, if_neg (by omega), hc] at hrun
  cases hrun

end Residues

end BigNum

end Bronze
