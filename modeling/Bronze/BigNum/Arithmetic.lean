import Bronze.BigNum.Magnitude

/-!
# BigNum: sign and magnitude integers

The ring and order operations of `src/runtime/bignum.cpp`, over the magnitude loops of
`Bronze.BigNum.Magnitude`. A `BigNum` is canonical when its top limb is not zero and zero is not
negative, which is what `trim` establishes at every exit. On canonical values the operations are
those of the integers.

## Main results

* `compare_eq`, `add_spec`, `negate_spec`, `sub_spec`, `mul_spec`: one for each operation
* `toInt_inj`: a canonical value is determined by the integer it denotes
* `ring_order_refinement`: the operations refine the integers, and no loop of theirs faults
-/

namespace Bronze

open BigNum
open List Nat Option Bool

/-- `class BigNum`: `negative_` and `mag_`. -/
structure BigNum where
  negative : Bool := false
  mag : Magnitude := []
  deriving DecidableEq, Repr

namespace BigNum

/-- The integer a `BigNum` denotes. -/
def toInt (a : BigNum) : Int := if a.negative then -(value a.mag : Int) else value a.mag

/-- No zero limb on top, and zero is not negative. -/
structure Canonical (a : BigNum) : Prop where
  trimmed : Trimmed a.mag
  zero : a.mag = [] → a.negative = false

def trim (a : BigNum) : BigNum :=
  let mag := popZeros a.mag
  { mag, negative := if mag.isEmpty then false else a.negative }

theorem canonical_trim (a : BigNum) : (trim a).Canonical where
  trimmed := trimmed_popZeros a.mag
  zero h := by simp only [trim] at h ⊢; simp [h]

@[simp] theorem toInt_trim (a : BigNum) : (trim a).toInt = a.toInt := by
  have hv := value_popZeros a.mag
  unfold trim toInt
  cases h : popZeros a.mag with
  | nil =>
    rw [h] at hv
    simp [← hv]
  | cons x m =>
    rw [h] at hv
    simp [hv]

def fromUint64 (v : UInt64) : BigNum :=
  if v ≠ 0 then
    { mag := if v >>> 32 ≠ 0 then [v.toUInt32, (v >>> 32).toUInt32] else [v.toUInt32] }
  else {}

/-- `BigNum::fromInt64`, through the unsigned magnitude. -/
def fromInt64 (v : Int64) : BigNum :=
  let magnitude := if v < 0 then ~~~v.toUInt64 + 1 else v.toUInt64
  let out := fromUint64 magnitude
  { out with negative := decide (v < 0) && !out.mag.isEmpty }

theorem fromUint64_spec (v : UInt64) :
    (fromUint64 v).Canonical ∧ (fromUint64 v).toInt = v.toNat := by
  have hv := v.toNat_lt_size
  have hshift : (v >>> 32).toNat = v.toNat / 2 ^ 32 := by
    simp [shiftRight_eq_div_pow]
  have hlow : v.toUInt32.toNat = v.toNat % 2 ^ 32 := UInt64.toNat_toUInt32 v
  have hhigh : (v >>> 32).toUInt32.toNat = v.toNat / 2 ^ 32 := by
    rw [UInt64.toNat_toUInt32, hshift]
    exact mod_eq_of_lt (by rw [UInt64.size] at hv; omega)
  unfold fromUint64
  by_cases h0 : v = 0
  · subst h0
    exact ⟨⟨fun x hx => by simp at hx, fun _ => rfl⟩, rfl⟩
  rw [if_pos h0]
  by_cases h1 : v >>> 32 = 0
  · have hdiv : v.toNat / 2 ^ 32 = 0 := by rw [← hshift, h1]; rfl
    refine ⟨⟨fun x hx hx0 => h0 ?_, fun h => by simp [h1] at h⟩, ?_⟩
    · simp only [h1, ne_eq, not_true_eq_false, if_false, getLast?_singleton, mem_some_iff] at hx
      rw [← hx] at hx0
      rw [hx0] at hlow
      rw [← UInt64.toNat_inj]
      simp at hlow ⊢
      omega
    · simp [toInt, h1]
      omega
  · refine ⟨⟨fun x hx hx0 => h1 ?_, fun h => by simp [h1] at h⟩, ?_⟩
    · simp only [h1, ne_eq, not_false_eq_true, if_true, getLast?_cons_cons,
        getLast?_singleton, mem_some_iff] at hx
      rw [← hx] at hx0
      rw [hx0] at hhigh
      rw [← UInt64.toNat_inj, hshift, ← hhigh]
      rfl
    · simp only [toInt, h1, ne_eq, not_false_eq_true, if_true, false_eq_true, if_false,
        value_cons, hhigh]
      exact_mod_cast mod_add_div v.toNat (2 ^ 32)

/-- The magnitude survives the sign: the most negative `int64_t` included. -/
theorem fromInt64_spec (v : Int64) : (fromInt64 v).Canonical ∧ (fromInt64 v).toInt = v.toInt := by
  have hlt : v < 0 ↔ v.toInt < 0 := by rw [Int64.lt_iff_toInt_lt]; rfl
  have hcond : v.toInt = if 2 * v.toUInt64.toNat < 2 ^ 64 then (v.toUInt64.toNat : Int)
      else (v.toUInt64.toNat : Int) - 2 ^ 64 := BitVec.toInt_eq_toNat_cond _
  have hbound := v.toUInt64.toNat_lt
  have hneg : (~~~v.toUInt64 + 1).toNat = (2 ^ 64 - v.toUInt64.toNat) % 2 ^ 64 := by
    rw [UInt64.toNat_add, UInt64.toNat_not]
    simp only [UInt64.size, UInt64.reduceToNat]
    omega
  unfold fromInt64
  by_cases hv : v < 0
  · obtain ⟨hc, hval⟩ := fromUint64_spec (~~~v.toUInt64 + 1)
    have hi := hlt.mp hv
    simp only [hv, decide_true, Bool.true_and]
    unfold toInt at hval ⊢
    refine ⟨⟨hc.trimmed, fun h => by simpa using h⟩, ?_⟩
    have hne : (fromUint64 (~~~v.toUInt64 + 1)).mag ≠ [] := by
      intro h
      rw [h, value_nil] at hval
      split_ifs at hcond <;> omega
    simp only [List.isEmpty_eq_false_iff.mpr hne, Bool.not_false, if_true]
    split_ifs at hcond <;> omega
  · obtain ⟨hc, hval⟩ := fromUint64_spec v.toUInt64
    have hi : ¬ v.toInt < 0 := fun h => hv (hlt.mpr h)
    simp only [hv, decide_false, Bool.false_and]
    refine ⟨⟨hc.trimmed, fun _ => rfl⟩, ?_⟩
    unfold toInt at hval ⊢
    simp only [Bool.false_eq_true, if_false] at hval ⊢
    split_ifs at hcond <;> omega

def compare (a b : BigNum) : Int :=
  if a.negative ≠ b.negative then (if a.negative then -1 else 1)
  else
    let magnitudeOrder := compareMagnitude a.mag b.mag
    if a.negative then -magnitudeOrder else magnitudeOrder

def add (a b : BigNum) : Except Fault BigNum :=
  if a.negative = b.negative then do
    let mag ← addMagnitude a.mag b.mag
    return trim { mag, negative := a.negative }
  else
    let order := compareMagnitude a.mag b.mag
    if order = 0 then .ok {}
    else if order > 0 then do
      let mag ← subMagnitude a.mag b.mag
      return trim { mag, negative := a.negative }
    else do
      let mag ← subMagnitude b.mag a.mag
      return trim { mag, negative := b.negative }

def negate (a : BigNum) : BigNum := trim { a with negative := !a.negative }

def sub (a b : BigNum) : Except Fault BigNum := add a (negate b)

def mul (a b : BigNum) : Except Fault BigNum := do
  let mag ← mulMagnitude a.mag b.mag
  return trim { mag, negative := a.negative != b.negative }

/-! ## Refinement of the integers -/

section Refinement

variable {a b : BigNum}

theorem Canonical.value_pos (ha : a.Canonical) (h : a.negative = true) : 0 < value a.mag := by
  rw [pos_iff_ne_zero, Ne, ha.trimmed.value_eq_zero]
  intro hm
  rw [ha.zero hm] at h
  exact absurd h (by decide)

theorem length_le_of_value_le {m n : Magnitude} (hm : Trimmed m) (h : value m ≤ value n) :
    m.length ≤ n.length := by
  by_contra hlt
  have hne : m ≠ [] := by rintro rfl; simp at hlt
  have h₁ := hm.pow_le_value hne
  have h₂ := value_lt n
  have h₃ : kBase ^ n.length ≤ kBase ^ (m.length - 1) :=
    Nat.pow_le_pow_right (by decide) (by omega)
  omega

/-- **`compare` is the sign of the difference.** -/
theorem compare_eq (ha : a.Canonical) (hb : b.Canonical) :
    compare a b = (a.toInt - b.toInt).sign := by
  have horder := compareMagnitude_eq ha.trimmed hb.trimmed
  have hpa := ha.value_pos
  have hpb := hb.value_pos
  unfold compare toInt
  cases hna : a.negative <;> cases hnb : b.negative <;> simp only [hna, hnb] at hpa hpb ⊢
  · simp [horder, order]
  · simp only [false_eq_true, if_true, if_false]
    exact (Int.sign_eq_one_of_pos (by have := hpb trivial; omega)).symm
  · simp only [false_eq_true, if_true, if_false]
    exact (Int.sign_eq_neg_one_of_neg (by have := hpa trivial; omega)).symm
  · simp only [ne_eq, not_true_eq_false, if_true, if_false, horder, order]
    rw [← Int.sign_neg]
    congr 1
    ring

theorem toInt_inj (ha : a.Canonical) (hb : b.Canonical) : a.toInt = b.toInt ↔ a = b := by
  refine ⟨fun h => ?_, fun h => h ▸ rfl⟩
  have hsign : a.negative = b.negative := by
    have hpa := ha.value_pos
    have hpb := hb.value_pos
    unfold toInt at h
    cases hna : a.negative <;> cases hnb : b.negative <;> simp [hna, hnb] at h hpa hpb ⊢ <;> omega
  have hvalue : value a.mag = value b.mag := by
    unfold toInt at h
    rw [hsign] at h
    split_ifs at h <;> omega
  have hlen : a.mag.length = b.mag.length :=
    le_antisymm (length_le_of_value_le ha.trimmed hvalue.le)
      (length_le_of_value_le hb.trimmed hvalue.ge)
  have hmag : a.mag.map UInt32.toNat = b.mag.map UInt32.toNat :=
    ofDigits_inj_of_len_eq (by decide) (by simpa using hlen)
      (fun d hd => by
        obtain ⟨x, -, rfl⟩ := mem_map.mp hd
        exact UInt32.toNat_lt_size x)
      (fun d hd => by
        obtain ⟨x, -, rfl⟩ := mem_map.mp hd
        exact UInt32.toNat_lt_size x) hvalue
  have hmag : a.mag = b.mag :=
    map_injective_iff.mpr (fun _ _ h => UInt32.toNat_inj.mp h) hmag
  cases a
  cases b
  simp_all

theorem negate_spec (a : BigNum) : (negate a).Canonical ∧ (negate a).toInt = -a.toInt := by
  refine ⟨canonical_trim _, ?_⟩
  rw [negate, toInt_trim]
  unfold toInt
  cases a.negative <;> simp

theorem subMagnitude_of_order {m n : Magnitude} (hn : Trimmed n) (h : value n ≤ value m) :
    ∃ out, subMagnitude m n = .ok out ∧ value out + value n = value m := by
  obtain ⟨out, hrun, -, hval⟩ := subMagnitude_spec h (length_le_of_value_le hn h)
  exact ⟨out, hrun, hval⟩

theorem add_spec (ha : a.Canonical) (hb : b.Canonical) :
    ∃ c, add a b = .ok c ∧ c.Canonical ∧ c.toInt = a.toInt + b.toInt := by
  have horder := compareMagnitude_eq ha.trimmed hb.trimmed
  unfold add
  by_cases hsign : a.negative = b.negative
  · obtain ⟨mag, hrun, hval⟩ := addMagnitude_spec a.mag b.mag
    refine ⟨trim { mag, negative := a.negative }, ?_, canonical_trim _, ?_⟩
    · simp [if_pos hsign, hrun, bind, Except.bind, pure, Except.pure]
    · rw [toInt_trim]
      unfold toInt
      simp only [← hsign, hval]
      split_ifs <;> push_cast <;> ring
  · rw [if_neg hsign, horder]
    have hsum : a.toInt + b.toInt =
        if a.negative then (value b.mag : Int) - value a.mag
        else (value a.mag : Int) - value b.mag := by
      unfold toInt
      cases hna : a.negative <;> cases hnb : b.negative <;> simp [hna, hnb] at hsign ⊢ <;> ring
    rcases lt_trichotomy (value a.mag) (value b.mag) with h | h | h
    · obtain ⟨mag, hrun, hval⟩ := subMagnitude_of_order ha.trimmed h.le
      refine ⟨trim { mag, negative := b.negative }, ?_, canonical_trim _, ?_⟩
      · rw [order_of_lt (by exact_mod_cast h)]
        simp only [hrun]
        rfl
      · rw [toInt_trim]
        unfold toInt
        cases hna : a.negative <;> cases hnb : b.negative <;> simp [hna, hnb] at hsign ⊢ <;> omega
    · refine ⟨{}, by simp [h], ⟨fun x hx => by simp at hx, fun _ => rfl⟩, ?_⟩
      rw [hsum, h]
      simp [toInt]
    · obtain ⟨mag, hrun, hval⟩ := subMagnitude_of_order hb.trimmed h.le
      refine ⟨trim { mag, negative := a.negative }, ?_, canonical_trim _, ?_⟩
      · rw [order_of_gt (by exact_mod_cast h)]
        simp only [hrun]
        rfl
      · rw [toInt_trim, hsum]
        unfold toInt
        cases a.negative <;> simp <;> omega

theorem sub_spec (ha : a.Canonical) (b : BigNum) :
    ∃ c, sub a b = .ok c ∧ c.Canonical ∧ c.toInt = a.toInt - b.toInt := by
  obtain ⟨hcanon, hneg⟩ := negate_spec b
  obtain ⟨c, hrun, hc, hval⟩ := add_spec ha hcanon
  exact ⟨c, hrun, hc, by rw [hval, hneg]; ring⟩

theorem mul_spec (a b : BigNum) :
    ∃ c, mul a b = .ok c ∧ c.Canonical ∧ c.toInt = a.toInt * b.toInt := by
  obtain ⟨mag, hrun, -, hval⟩ := mulMagnitude_spec a.mag b.mag
  refine ⟨trim { mag, negative := a.negative != b.negative }, ?_, canonical_trim _, ?_⟩
  · simp [mul, hrun, bind, Except.bind, pure, Except.pure]
  · rw [toInt_trim]
    unfold toInt
    cases a.negative <;> cases b.negative <;> simp [hval]

end Refinement

/-- **The ring and order operations refine the integers** on canonical values, with canonical
results; the magnitude loops fault on no operands at all, so that no 64-bit intermediate wraps
and no index passes the end of its vector. -/
theorem ring_order_refinement (a b : BigNum) (ha : a.Canonical) (hb : b.Canonical) :
    (∃ c, add a b = .ok c ∧ c.Canonical ∧ c.toInt = a.toInt + b.toInt) ∧
    (∃ c, sub a b = .ok c ∧ c.Canonical ∧ c.toInt = a.toInt - b.toInt) ∧
    (∃ c, mul a b = .ok c ∧ c.Canonical ∧ c.toInt = a.toInt * b.toInt) ∧
    ((negate a).Canonical ∧ (negate a).toInt = -a.toInt) ∧
    compare a b = (a.toInt - b.toInt).sign ∧
    ∀ m n, (∃ out, addMagnitude m n = .ok out) ∧ (∃ out, subMagnitude m n = .ok out) ∧
      ∃ out, mulMagnitude m n = .ok out := by
  refine ⟨add_spec ha hb, sub_spec ha b, mul_spec a b, negate_spec a, compare_eq ha hb,
    fun m n => ⟨?_, ?_, ?_⟩⟩
  · obtain ⟨out, hrun, -⟩ := addMagnitude_spec m n
    exact ⟨out, hrun⟩
  · obtain ⟨out, -, -, hrun, -⟩ := subLoop_spec m n m.length 0 0 (.inl rfl)
    exact ⟨popZeros out, by simp [subMagnitude, hrun, bind, Except.bind, pure, Except.pure]⟩
  · obtain ⟨out, hrun, -⟩ := mulMagnitude_spec m n
    exact ⟨out, hrun⟩

/-- The operands `-(2 ^ 32)` and `3` exercise every clause. -/
theorem ring_order_refinement_mixed :
    ∃ c, sub ⟨true, [0, 1]⟩ ⟨false, [3]⟩ = .ok c ∧ c.Canonical ∧ c.toInt = -(2 ^ 32) - 3 :=
  (ring_order_refinement ⟨true, [0, 1]⟩ ⟨false, [3]⟩
    ⟨by simp [Trimmed], by simp⟩ ⟨by simp [Trimmed], by simp⟩).2.1

end BigNum

end Bronze
