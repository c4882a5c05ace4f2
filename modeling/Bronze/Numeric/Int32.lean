import Bronze.Numeric.Arithmetic

/-!
# Doubles as words of 32 bits

The bitwise operators of the language take their operands modulo `2 ^ 32` and give a double back.

## Main results

* `toInt32_ofInt`: whole numbers
* `signed_range`: a word is a whole number of 32 bits
* `bitAnd_bound`, `bitNot_ofInt`, `toInt_shr`, `toNat_uShr`: the operators on whole numbers
-/

namespace Bronze.Ieee

open Int

open BigNum (Double)

/-- `ToInt32`, as the bits of the word. -/
def toInt32 : Double → BitVec 32
  | .finite s d => BitVec.ofInt 32 (if s then -⌊d.value⌋ else ⌊d.value⌋)
  | _ => 0

/-- A word, read as a signed number. -/
def signed32 (w : BitVec 32) : Double := ofInt w.toInt

def bitAnd (a b : Double) : Double := signed32 (toInt32 a &&& toInt32 b)

def bitOr (a b : Double) : Double := signed32 (toInt32 a ||| toInt32 b)

def bitXor (a b : Double) : Double := signed32 (toInt32 a ^^^ toInt32 b)

def bitNot (a : Double) : Double := signed32 (~~~toInt32 a)

/-- The number of places that a shift by a double moves. -/
def places (b : Double) : ℕ := (toInt32 b).toNat % 32

def shl (a b : Double) : Double := signed32 (toInt32 a <<< places b)

def shr (a b : Double) : Double := signed32 ((toInt32 a).sshiftRight (places b))

def uShr (a b : Double) : Double := ofInt ((toInt32 a >>> places b).toNat)

def imul (a b : Double) : Double := signed32 (toInt32 a * toInt32 b)

section Whole

variable {n k : ℤ} {a b : Double}

theorem whole_of_int32 (h : -2 ^ 31 ≤ n ∧ n < 2 ^ 32) : Whole53 n := by
  unfold Whole53
  omega

/-- **The word of a whole number.** -/
theorem toInt32_ofInt (h : Whole53 n) : toInt32 (ofInt n) = BitVec.ofInt 32 n := by
  rw [ofInt_eq h, toInt32]
  congr 1
  by_cases hneg : n < 0
  · have habs : |(n : ℚ)| = ((-n : ℤ) : ℚ) := by
      rw [abs_of_neg (by exact_mod_cast hneg)]
      rfl
    rw [decide_eq_true hneg, if_pos rfl]
    dsimp only
    rw [habs, floor_intCast, neg_neg]
  · have habs : |(n : ℚ)| = (n : ℚ) := abs_of_nonneg (by exact_mod_cast not_lt.mp hneg)
    rw [decide_eq_false hneg, if_neg Bool.false_ne_true]
    dsimp only
    simp [habs]

theorem toInt_toInt32 (h : -2 ^ 31 ≤ n ∧ n < 2 ^ 31) : (toInt32 (ofInt n)).toInt = n := by
  rw [toInt32_ofInt (whole_of_int32 (by omega)), BitVec.toInt_ofInt]
  exact bmod_eq_of_le (by omega) (by omega)

theorem toNat_toInt32 (h : 0 ≤ n ∧ n < 2 ^ 31) : ((toInt32 (ofInt n)).toNat : ℤ) = n := by
  rw [toInt32_ofInt (whole_of_int32 (by omega)), BitVec.toNat_ofInt]
  omega

/-- **A word is a whole number of 32 bits.** -/
theorem signed_range (w : BitVec 32) : -2 ^ 31 ≤ w.toInt ∧ w.toInt ≤ 2 ^ 31 - 1 := by
  have hlow := BitVec.le_toInt w
  have hhigh := BitVec.toInt_lt (x := w)
  omega

theorem toInt_of_le {v w : BitVec 32} (hle : v.toNat ≤ w.toNat) (hw : w.toNat < 2 ^ 31) :
    v.toInt = v.toNat := BitVec.toInt_eq_toNat_of_lt (by omega)

/-- **A conjunction** is no more than an operand that is not negative. -/
theorem bitAnd_bound {v w : BitVec 32} (hn : 0 ≤ n ∧ n < 2 ^ 31) (h : (v.toNat : ℤ) = n) :
    0 ≤ (v &&& w).toInt ∧ (v &&& w).toInt ≤ n := by
  have hle : (v &&& w).toNat ≤ v.toNat := by
    exact Nat.and_le_left
  rw [toInt_of_le hle (by omega)]
  omega

/-- **The complement** of a whole number. -/
theorem bitNot_ofInt (h : -2 ^ 31 ≤ n ∧ n < 2 ^ 31) : bitNot (ofInt n) = ofInt (-n - 1) := by
  have hrem : ((2 : ℤ) ^ 32 - 1 - ((n % ((2 ^ 32 : ℕ) : ℤ)).toNat : ℤ)) % ((2 ^ 32 : ℕ) : ℤ) =
      (-n - 1) % ((2 ^ 32 : ℕ) : ℤ) := by omega
  rw [bitNot, signed32, BitVec.toInt_not, toInt32_ofInt (whole_of_int32 (by omega)),
    BitVec.toNat_ofInt, ← emod_bmod, hrem, emod_bmod, bmod_eq_of_le] <;> omega

/-- **The arithmetic shift** of a word. -/
theorem toInt_shr (w : BitVec 32) (j : ℕ) : (w.sshiftRight j).toInt = w.toInt / 2 ^ j := by
  rw [BitVec.toInt_sshiftRight, shiftRight_eq_div_pow]
  norm_cast

/-- **The logical shift** of a word. -/
theorem toNat_uShr (w : BitVec 32) (j : ℕ) : ((w >>> j).toNat : ℤ) = w.toNat / 2 ^ j := by
  rw [BitVec.toNat_ushiftRight, Nat.shiftRight_eq_div_pow]
  norm_cast

end Whole

end Bronze.Ieee
