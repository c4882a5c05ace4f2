import Bronze.Numeric.Ieee

/-!
# The abstract values of the static checker

`AbstractVal` and `joinVal` of `src/check/static_checker_domain.h` and `.cpp`, and the values an
abstract value describes. A numeric fact is one about numbers: it says nothing of another value,
and nothing of NaN, which the checker tracks apart.

## Main results

* `Facts.provablyNonZero` and the like: what the checker reads off an abstract value holds
* `joinVal_describes_iff`: the join describes both sides just where they agree
-/

namespace Bronze.Check

open BigNum (Double)
open Ieee Or

/-! ## Abstract values -/

inductive NullState where
  | unknown
  | definitelyNull
  | definitelyUndefined
  | maybeNullish
  | definitelyNonNullish
  deriving DecidableEq

structure AbstractVal where
  nullState : NullState := .unknown
  nullOrigin : String := ""
  isNumber : Bool := false
  isString : Bool := false
  isDefinitelyNaN : Bool := false
  nanOrigin : String := ""
  hasConstNum : Bool := false
  constNum : Double := .finite false ⟨0, Binary64.representable_zero⟩
  hasIntBounds : Bool := false
  minInt : Int := 0
  maxInt : Int := 0
  hasNumBounds : Bool := false
  minNum : Double := .infinite true
  maxNum : Double := .infinite false
  isNonZero : Bool := false
  isNonNegative : Bool := false
  isStrictlyPositive : Bool := false
  isClampedUnit : Bool := false
  isByteClamped : Bool := false
  isPotentiallyNegativeDiff : Bool := false
  isVectorNormExpr : Bool := false
  symBoundArray : String := ""
  symBoundInclusive : Bool := false
  isContainer : Bool := false
  isTypedArray : Bool := false
  isPlainObject : Bool := false
  hasExactLength : Bool := false
  exactLength : Int := 0
  impliedNonNullKeys : List String := []

namespace AbstractVal

variable (v a b : AbstractVal)

def isNullishOrMaybe : Bool :=
  v.nullState = .definitelyNull || v.nullState = .definitelyUndefined ||
    v.nullState = .maybeNullish

def provablyInUnitInterval : Bool :=
  v.isClampedUnit ||
    (v.hasConstNum && isFinite v.constNum && atLeast (-1) v.constNum && atMost 1 v.constNum) ||
    (v.hasNumBounds && atLeast (-1) v.minNum && atMost 1 v.maxNum) ||
    (v.hasIntBounds && v.minInt ≥ -1 && v.maxInt ≤ 1)

def provablyNonNegative : Bool :=
  v.isNonNegative || v.isStrictlyPositive || v.isByteClamped ||
    (v.hasConstNum && isFinite v.constNum && atLeast 0 v.constNum) ||
    (v.hasNumBounds && atLeast 0 v.minNum) || (v.hasIntBounds && v.minInt ≥ 0)

def provablyStrictlyPositive : Bool :=
  v.isStrictlyPositive || (v.isNonNegative && v.isNonZero) ||
    (v.hasConstNum && isFinite v.constNum && above 0 v.constNum) ||
    (v.hasNumBounds && above 0 v.minNum) || (v.hasIntBounds && v.minInt > 0)

def provablyNonZero : Bool :=
  v.isNonZero || v.isStrictlyPositive ||
    (v.hasConstNum && isFinite v.constNum && !(atLeast 0 v.constNum && atMost 0 v.constNum)) ||
    (v.hasNumBounds && (above 0 v.minNum || below 0 v.maxNum)) ||
    (v.hasIntBounds && (v.minInt > 0 || v.maxInt < 0))

def provablyByteRange : Bool :=
  v.isByteClamped ||
    (v.hasConstNum && isFinite v.constNum && atLeast 0 v.constNum && atMost 255 v.constNum) ||
    (v.hasIntBounds && v.minInt ≥ 0 && v.maxInt ≤ 255) ||
    (v.hasNumBounds && atLeast 0 v.minNum && atMost 255 v.maxNum)

end AbstractVal

def firstText (a b : String) : String := if a ≠ "" then a else b

/-- The null state and its origin in `joinVal`. -/
def joinNull (a b : AbstractVal) : NullState × String :=
  if a.nullState = b.nullState then (a.nullState, firstText a.nullOrigin b.nullOrigin)
  else if a.nullState = .unknown ∨ b.nullState = .unknown then
    if a.isNullishOrMaybe then (.maybeNullish, a.nullOrigin)
    else if b.isNullishOrMaybe then (.maybeNullish, b.nullOrigin)
    else (.unknown, "")
  else if a.isNullishOrMaybe || b.isNullishOrMaybe then
    (.maybeNullish, firstText a.nullOrigin b.nullOrigin)
  else (.definitelyNonNullish, "")

/-- Both are the one constant, up to the sign of zero. -/
def sameConst (a b : AbstractVal) : Bool :=
  a.hasConstNum && b.hasConstNum && eq a.constNum b.constNum

def joinVal (a b : AbstractVal) : AbstractVal where
  nullState := (joinNull a b).1
  nullOrigin := (joinNull a b).2
  isNumber := a.isNumber && b.isNumber
  isString := a.isString && b.isString
  isDefinitelyNaN := a.isDefinitelyNaN && b.isDefinitelyNaN
  nanOrigin := if a.isDefinitelyNaN || b.isDefinitelyNaN then firstText a.nanOrigin b.nanOrigin
    else ""
  hasConstNum := sameConst a b
  constNum := if sameConst a b then a.constNum else ({} : AbstractVal).constNum
  hasIntBounds := a.hasIntBounds && b.hasIntBounds
  minInt := if a.hasIntBounds && b.hasIntBounds then min a.minInt b.minInt else 0
  maxInt := if a.hasIntBounds && b.hasIntBounds then max a.maxInt b.maxInt else 0
  hasNumBounds := a.hasNumBounds && b.hasNumBounds
  minNum := if a.hasNumBounds && b.hasNumBounds then stdMin a.minNum b.minNum else .infinite true
  maxNum := if a.hasNumBounds && b.hasNumBounds then stdMax a.maxNum b.maxNum else .infinite false
  isNonZero := a.provablyNonZero && b.provablyNonZero
  isNonNegative := a.provablyNonNegative && b.provablyNonNegative
  isStrictlyPositive := a.provablyStrictlyPositive && b.provablyStrictlyPositive
  isClampedUnit := a.provablyInUnitInterval && b.provablyInUnitInterval
  isByteClamped := a.provablyByteRange && b.provablyByteRange
  isPotentiallyNegativeDiff := a.isPotentiallyNegativeDiff || b.isPotentiallyNegativeDiff
  isVectorNormExpr := a.isVectorNormExpr || b.isVectorNormExpr
  isContainer := a.isContainer && b.isContainer
  isTypedArray := (a.isContainer && b.isContainer) && (a.isTypedArray && b.isTypedArray)
  isPlainObject := a.isPlainObject && b.isPlainObject
  hasExactLength := (a.isContainer && b.isContainer) &&
    (a.hasExactLength && b.hasExactLength && a.exactLength = b.exactLength)
  exactLength := if (a.isContainer && b.isContainer) &&
    (a.hasExactLength && b.hasExactLength && a.exactLength = b.exactLength) then a.exactLength
    else 0
  impliedNonNullKeys :=
    if a.impliedNonNullKeys ≠ [] then a.impliedNonNullKeys else b.impliedNonNullKeys

/-- A value of the program, as far as the checker tells them apart. -/
inductive Value where
  | undefined
  | null
  | boolean (b : Bool)
  | number (n : Double)
  | string (s : String)
  | bigint (n : Int)
  | array (length : Nat)
  | typedArray (length : Nat)
  | plainObject
  | other

namespace Value

/-- 7.1.2 ToBoolean -/
def toBoolean : Value → Bool
  | undefined => false
  | null => false
  | boolean b => b
  | number n => !(n matches .nan) && !(atLeast 0 n && atMost 0 n)
  | string s => s ≠ ""
  | bigint n => n ≠ 0
  | _ => true

def isNullish : Value → Bool
  | undefined => true
  | null => true
  | _ => false

/-- The length of an array or a typed array. -/
def containerLength : Value → Option Nat
  | array length => some length
  | typedArray length => some length
  | _ => none

end Value

/-- The value of each key: of a variable, or of the expression the key spells. -/
abbrev Store := String → Value

/-- A fact about numbers, NaN apart. -/
def OfNumber (x : Value) (p : Double → Prop) : Prop := ∀ n, x = .number n → n ≠ .nan → p n

/-- What a null state says; a value that may be nullish can be anything. -/
def NullState.Allows : NullState → Value → Prop
  | .definitelyNull, x => x = .null
  | .definitelyUndefined, x => x = .undefined
  | .definitelyNonNullish, x => x.isNullish = false
  | _, _ => True

/-- The facts about the value itself. -/
structure Facts (v : AbstractVal) (x : Value) : Prop where
  nullState : v.nullState.Allows x
  isNumber : v.isNumber → ∃ n, x = .number n
  isString : v.isString → ∃ s, x = .string s
  isDefinitelyNaN : v.isDefinitelyNaN → x = .number .nan
  constNum : v.hasConstNum → ∀ n, x = .number n → n = v.constNum
  intBounds : v.hasIntBounds → OfNumber x fun n =>
    ∃ i : ℤ, extended n = some (rational i) ∧ v.minInt ≤ i ∧ i ≤ v.maxInt
  numBounds : v.hasNumBounds → OfNumber x fun n => le v.minNum n ∧ le n v.maxNum
  isNonZero : v.isNonZero → OfNumber x fun n => ¬(atLeast 0 n ∧ atMost 0 n)
  isNonNegative : v.isNonNegative → OfNumber x fun n => atLeast 0 n
  isStrictlyPositive : v.isStrictlyPositive → OfNumber x fun n => above 0 n
  isClampedUnit : v.isClampedUnit → OfNumber x fun n => atLeast (-1) n ∧ atMost 1 n
  isByteClamped : v.isByteClamped → OfNumber x fun n => atLeast 0 n ∧ atMost 255 n
  isContainer : v.isContainer → x.containerLength.isSome
  isTypedArray : v.isContainer → v.isTypedArray → ∃ length, x = .typedArray length
  exactLength : v.isContainer → v.hasExactLength →
    ∃ length : Nat, x.containerLength = some length ∧ (length : ℤ) = v.exactLength
  isPlainObject : v.isPlainObject → x = .plainObject

/-- The symbolic bound of a value: it is below the length of the array under the key, or at most
it. -/
def SymBound (v : AbstractVal) (x : Value) (σ : Store) : Prop :=
  v.symBoundArray ≠ "" → OfNumber x fun n => ∀ length,
    (σ v.symBoundArray).containerLength = some length →
      below length n ∨ (v.symBoundInclusive ∧ atMost length n)

/-- The keys that are not nullish where the value is truthy. -/
def Implied (v : AbstractVal) (x : Value) (σ : Store) : Prop :=
  x.toBoolean = true → ∀ key ∈ v.impliedNonNullKeys, (σ key).isNullish = false

/-- **The values an abstract value describes**, where the keys have the values of the store. -/
structure Describes (v : AbstractVal) (x : Value) (σ : Store) : Prop where
  facts : Facts v x
  symBound : SymBound v x σ
  implied : Implied v x σ

section Provably

variable {v : AbstractVal} {x : Value}

theorem OfNumber.mono {p q : Double → Prop} (h : OfNumber x p) (hpq : ∀ n, p n → q n) :
    OfNumber x q := fun n hn hnan => hpq n (h n hn hnan)

variable (h : Facts v x)

include h

theorem Facts.ofConst (hconst : v.hasConstNum = true) {p : Double → Prop}
    (hp : p v.constNum) : OfNumber x p := by
  intro n hn _
  rw [h.constNum hconst n hn]
  exact hp

theorem Facts.provablyNonZero (hv : v.provablyNonZero = true) :
    OfNumber x fun n => ¬(atLeast 0 n ∧ atMost 0 n) := by
  simp only [AbstractVal.provablyNonZero, Bool.or_eq_true, Bool.and_eq_true,
    decide_eq_true_eq] at hv
  rcases hv with (((hv | hv) | ⟨⟨hconst, -⟩, hv⟩) | ⟨hbounds, hv⟩) | ⟨hint, hv⟩
  · exact h.isNonZero hv
  · exact (h.isStrictlyPositive hv).mono fun n hn hzero => not_atMost_of_above hn hzero.2
  · refine h.ofConst hconst fun hzero => ?_
    rw [hzero.1, hzero.2] at hv
    cases hv
  · refine (h.numBounds hbounds).mono fun n hn hzero => ?_
    rcases hv with hv | hv
    · exact not_atMost_of_above (above_of_le hv hn.1) hzero.2
    · exact not_atLeast_of_below (below_of_le hv hn.2) hzero.1
  · refine (h.intBounds hint).mono fun n hn hzero => ?_
    obtain ⟨i, hi, hmin, hmax⟩ := hn
    rw [atLeast_iff hi, atMost_iff hi, rational_le, rational_le] at hzero
    have hlow : (0 : ℤ) ≤ i := by exact_mod_cast hzero.1
    have hhigh : i ≤ (0 : ℤ) := by exact_mod_cast hzero.2
    omega

theorem Facts.provablyNonNegative (hv : v.provablyNonNegative = true) :
    OfNumber x fun n => atLeast 0 n := by
  simp only [AbstractVal.provablyNonNegative, Bool.or_eq_true, Bool.and_eq_true,
    decide_eq_true_eq] at hv
  rcases hv with ((((hv | hv) | hv) | ⟨⟨hconst, -⟩, hv⟩) | ⟨hbounds, hv⟩) | ⟨hint, hv⟩
  · exact h.isNonNegative hv
  · exact (h.isStrictlyPositive hv).mono fun n hn => atLeast_of_above hn
  · exact (h.isByteClamped hv).mono fun n hn => hn.1
  · exact h.ofConst hconst hv
  · exact (h.numBounds hbounds).mono fun n hn => atLeast_of_le hv hn.1
  · refine (h.intBounds hint).mono fun n hn => ?_
    obtain ⟨i, hi, hmin, -⟩ := hn
    rw [atLeast_iff hi, rational_le]
    exact_mod_cast hv.le.trans hmin

theorem Facts.provablyStrictlyPositive (hv : v.provablyStrictlyPositive = true) :
    OfNumber x fun n => above 0 n := by
  simp only [AbstractVal.provablyStrictlyPositive, Bool.or_eq_true, Bool.and_eq_true,
    decide_eq_true_eq] at hv
  rcases hv with (((hv | ⟨hv, hne⟩) | ⟨⟨hconst, -⟩, hv⟩) | ⟨hbounds, hv⟩) | ⟨hint, hv⟩
  · exact h.isStrictlyPositive hv
  · exact fun n hn hnan =>
      above_of_atLeast (h.isNonNegative hv n hn hnan) (h.isNonZero hne n hn hnan)
  · exact h.ofConst hconst hv
  · exact (h.numBounds hbounds).mono fun n hn => above_of_le hv hn.1
  · refine (h.intBounds hint).mono fun n hn => ?_
    obtain ⟨i, hi, hmin, -⟩ := hn
    rw [above_iff hi, rational_lt]
    exact_mod_cast hv.trans_le hmin

theorem Facts.range {p q : ℤ}
    (hv : (v.hasConstNum = true ∧ atLeast p v.constNum = true ∧ atMost q v.constNum = true) ∨
      (v.hasNumBounds = true ∧ atLeast p v.minNum = true ∧ atMost q v.maxNum = true) ∨
      (v.hasIntBounds = true ∧ p ≤ v.minInt ∧ v.maxInt ≤ q)) :
    OfNumber x fun n => atLeast p n ∧ atMost q n := by
  rcases hv with ⟨hconst, hlow, hhigh⟩ | ⟨hbounds, hlow, hhigh⟩ | ⟨hint, hlow, hhigh⟩
  · exact h.ofConst hconst ⟨hlow, hhigh⟩
  · exact (h.numBounds hbounds).mono fun n hn => ⟨atLeast_of_le hlow hn.1, atMost_of_le hhigh hn.2⟩
  · refine (h.intBounds hint).mono fun n hn => ?_
    obtain ⟨i, hi, hmin, hmax⟩ := hn
    rw [atLeast_iff hi, atMost_iff hi, rational_le, rational_le]
    exact ⟨by exact_mod_cast hlow.trans hmin, by exact_mod_cast hmax.trans hhigh⟩

theorem Facts.provablyInUnitInterval (hv : v.provablyInUnitInterval = true) :
    OfNumber x fun n => atLeast (-1) n ∧ atMost 1 n := by
  simp only [AbstractVal.provablyInUnitInterval, Bool.or_eq_true, Bool.and_eq_true,
    decide_eq_true_eq] at hv
  have hrange := h.range (p := -1) (q := 1)
  rcases hv with ((hv | ⟨⟨⟨hconst, -⟩, hlow⟩, hhigh⟩) | ⟨⟨hbounds, hlow⟩, hhigh⟩) |
    ⟨⟨hint, hlow⟩, hhigh⟩
  · exact h.isClampedUnit hv
  · exact hrange (inl ⟨hconst, hlow, hhigh⟩)
  · exact hrange (inr (inl ⟨hbounds, hlow, hhigh⟩))
  · exact hrange (inr (inr ⟨hint, hlow, hhigh⟩))

theorem Facts.provablyByteRange (hv : v.provablyByteRange = true) :
    OfNumber x fun n => atLeast 0 n ∧ atMost 255 n := by
  simp only [AbstractVal.provablyByteRange, Bool.or_eq_true, Bool.and_eq_true,
    decide_eq_true_eq] at hv
  have hrange := h.range (p := 0) (q := 255)
  rcases hv with ((hv | ⟨⟨⟨hconst, -⟩, hlow⟩, hhigh⟩) | ⟨⟨hint, hlow⟩, hhigh⟩) |
    ⟨⟨hbounds, hlow⟩, hhigh⟩
  · exact h.isByteClamped hv
  · exact hrange (inl ⟨hconst, hlow, hhigh⟩)
  · exact hrange (inr (inr ⟨hint, hlow, hhigh⟩))
  · exact hrange (inr (inl ⟨hbounds, hlow, hhigh⟩))

end Provably

/-! ## The join -/

section Join

variable {a b v : AbstractVal} {x : Value} {σ : Store}

theorem joinNull_allows_left (h : a.nullState.Allows x) : (joinNull a b).1.Allows x := by
  rw [joinNull]
  split_ifs with hsame hunknown hnullish hnullish' hnullish''
  · exact h
  · trivial
  · trivial
  · trivial
  · trivial
  · rw [Bool.or_eq_true] at hnullish''
    have hstate : a.nullState = .definitelyNonNullish := by
      simp only [AbstractVal.isNullishOrMaybe] at hnullish''
      cases ha : a.nullState <;> simp_all
    rw [hstate] at h
    exact h

theorem joinNull_allows_right (h : b.nullState.Allows x) : (joinNull a b).1.Allows x := by
  rw [joinNull]
  split_ifs with hsame hunknown hnullish hnullish' hnullish''
  · rw [hsame]
    exact h
  · trivial
  · trivial
  · trivial
  · trivial
  · rw [Bool.or_eq_true] at hnullish''
    have hstate : b.nullState = .definitelyNonNullish := by
      simp only [AbstractVal.isNullishOrMaybe] at hnullish''
      cases hb : b.nullState <;> simp_all
    rw [hstate] at h
    exact h

/-- **The facts of either side** are in the join, if the null state, the constant and the bounds
are. -/
theorem Facts.join (h : Facts v x) (hv : v = a ∨ v = b) (hnull : (joinNull a b).1.Allows x)
    (hconst : sameConst a b = true → ∀ n, x = .number n → n = a.constNum)
    (hbounds : a.hasNumBounds = true → b.hasNumBounds = true → OfNumber x fun n =>
      le (stdMin a.minNum b.minNum) n ∧ le n (stdMax a.maxNum b.maxNum)) :
    Facts (joinVal a b) x := by
  have hboth : ∀ f : AbstractVal → Bool, (f a && f b) = true → f v = true := by
    intro f hf
    rw [Bool.and_eq_true] at hf
    rcases hv with rfl | rfl
    · exact hf.1
    · exact hf.2
  refine
    { nullState := hnull
      isNumber := fun hj => h.isNumber (hboth (·.isNumber) hj)
      isString := fun hj => h.isString (hboth (·.isString) hj)
      isDefinitelyNaN := fun hj => h.isDefinitelyNaN (hboth (·.isDefinitelyNaN) hj)
      constNum := fun hj n hn => ?_
      intBounds := fun hj => ?_
      numBounds := fun hj => ?_
      isNonZero := fun hj => h.provablyNonZero (hboth (·.provablyNonZero) hj)
      isNonNegative := fun hj => h.provablyNonNegative (hboth (·.provablyNonNegative) hj)
      isStrictlyPositive := fun hj =>
        h.provablyStrictlyPositive (hboth (·.provablyStrictlyPositive) hj)
      isClampedUnit := fun hj => h.provablyInUnitInterval (hboth (·.provablyInUnitInterval) hj)
      isByteClamped := fun hj => h.provablyByteRange (hboth (·.provablyByteRange) hj)
      isContainer := fun hj => h.isContainer (hboth (·.isContainer) hj)
      isTypedArray := fun hj ht => h.isTypedArray (hboth (·.isContainer) hj) ?_
      exactLength := fun hj hl => ?_
      isPlainObject := fun hj => h.isPlainObject (hboth (·.isPlainObject) hj) }
  · have hj' : sameConst a b = true := hj
    change n = if sameConst a b then a.constNum else _
    rw [if_pos hj']
    exact hconst hj' n hn
  · have hj' : (a.hasIntBounds && b.hasIntBounds) = true := hj
    refine (h.intBounds (hboth (·.hasIntBounds) hj)).mono fun n hn => ?_
    obtain ⟨i, hi, hmin, hmax⟩ := hn
    refine ⟨i, hi, ?_, ?_⟩
    · change (if a.hasIntBounds && b.hasIntBounds then min a.minInt b.minInt else 0) ≤ i
      rw [if_pos hj']
      rcases hv with rfl | rfl
      · exact (min_le_left ..).trans hmin
      · exact (min_le_right ..).trans hmin
    · change i ≤ if a.hasIntBounds && b.hasIntBounds then max a.maxInt b.maxInt else 0
      rw [if_pos hj']
      rcases hv with rfl | rfl
      · exact hmax.trans (le_max_left ..)
      · exact hmax.trans (le_max_right ..)
  · have hj' : (a.hasNumBounds && b.hasNumBounds) = true := hj
    have hj'' := (Bool.and_eq_true ..).mp hj'
    refine (hbounds hj''.1 hj''.2).mono fun n hn => ?_
    simp only [joinVal, if_pos hj']
    exact hn
  · have ht' : ((a.isContainer && b.isContainer) && (a.isTypedArray && b.isTypedArray)) = true := ht
    rw [Bool.and_eq_true] at ht'
    exact hboth (·.isTypedArray) ht'.2
  · have hl' : ((a.isContainer && b.isContainer) &&
        (a.hasExactLength && b.hasExactLength && a.exactLength = b.exactLength)) = true := hl
    have hlength : (joinVal a b).exactLength = a.exactLength := if_pos hl'
    rw [Bool.and_eq_true, Bool.and_eq_true (a.hasExactLength && b.hasExactLength),
      decide_eq_true_eq] at hl'
    rw [hlength]
    rcases hv with rfl | rfl
    · exact h.exactLength (hboth (·.isContainer) hl'.1) (hboth (·.hasExactLength) hl'.2.1)
    · rw [hl'.2.2]
      exact h.exactLength (hboth (·.isContainer) hl'.1) (hboth (·.hasExactLength) hl'.2.1)

/-- Some truthy value has the facts. -/
def MayBeTruthy (v : AbstractVal) : Prop := ∃ x, Facts v x ∧ x.toBoolean = true

/-- **What two abstract values have to agree on** for their join to describe them both: the sign
of a zero they both are, bounds of the first that are numbers, and the implied keys. -/
structure Merges (a b : AbstractVal) : Prop where
  constNum : sameConst a b = true → a.constNum = b.constNum ∨ ¬Facts b (.number b.constNum)
  numBounds : a.hasNumBounds = true → b.hasNumBounds = true → a.minNum = .nan ∨ a.maxNum = .nan →
    ∀ n, Facts b (.number n) → n = .nan
  implied : a.impliedNonNullKeys ≠ [] → MayBeTruthy b →
    a.impliedNonNullKeys ⊆ b.impliedNonNullKeys
  implied_nil : a.impliedNonNullKeys = [] → MayBeTruthy a → b.impliedNonNullKeys = []

theorem Facts.join_left (h : Facts a x) : Facts (joinVal a b) x := by
  refine h.join (inl rfl) (joinNull_allows_left h.nullState) ?_ ?_
  · intro hsame
    simp only [sameConst, Bool.and_eq_true] at hsame
    exact h.constNum hsame.1.1
  · intro ha _
    refine (h.numBounds ha).mono fun n hn => ?_
    exact ⟨stdMin_le (ne_nan_of_le hn.1).1 (inl hn.1),
      le_stdMax (ne_nan_of_le hn.2).2 (inl hn.2)⟩

theorem Facts.join_right (hab : Merges a b) (h : Facts b x) : Facts (joinVal a b) x := by
  refine h.join (inr rfl) (joinNull_allows_right h.nullState) ?_ ?_
  · rintro hsame n rfl
    have hsame' := hsame
    simp only [sameConst, Bool.and_eq_true] at hsame'
    obtain rfl := h.constNum hsame'.1.2 n rfl
    exact ((hab.constNum hsame).resolve_right fun hno => hno h).symm
  · rintro ha hb n rfl hnan
    have hn := h.numBounds hb n rfl hnan
    have hnot : ¬(a.minNum = .nan ∨ a.maxNum = .nan) := fun hbound =>
      hnan (hab.numBounds ha hb hbound n h)
    rw [not_or] at hnot
    exact ⟨stdMin_le hnot.1 (inr hn.1), le_stdMax hnot.2 (inr hn.2)⟩

theorem symBound_join : SymBound (joinVal a b) x σ := fun h => absurd rfl h

theorem Describes.implied_join (hab : Merges a b) (h : Describes a x σ ∨ Describes b x σ) :
    Implied (joinVal a b) x σ := by
  intro htrue key hkey
  have hkey' : key ∈ if a.impliedNonNullKeys ≠ [] then a.impliedNonNullKeys
      else b.impliedNonNullKeys := hkey
  split_ifs at hkey' with hnil
  · rcases h with h | h
    · exact h.implied htrue key hkey'
    · exact h.implied htrue key (hab.implied hnil ⟨x, h.facts, htrue⟩ hkey')
  · rcases h with h | h
    · rw [hab.implied_nil (not_not.mp hnil) ⟨x, h.facts, htrue⟩] at hkey'
      cases hkey'
    · exact h.implied htrue key hkey'

/-- **The join describes both sides** if they agree. -/
theorem Describes.join (hab : Merges a b) (h : Describes a x σ ∨ Describes b x σ) :
    Describes (joinVal a b) x σ where
  facts := by
    rcases h with h | h
    · exact h.facts.join_left
    · exact h.facts.join_right hab
  symBound := symBound_join
  implied := Describes.implied_join hab h

/-- A store in which nothing has a length and just some keys are not nullish. -/
def someStore (keys : List String) : Store := fun key =>
  if key ∈ keys then .boolean true else .null

theorem someStore_isNullish {keys : List String} {key : String} :
    (someStore keys key).isNullish = false ↔ key ∈ keys := by
  rw [someStore]
  split_ifs with h
  · exact iff_of_true rfl h
  · exact iff_of_false nofun h

theorem Facts.describes (h : Facts v x) : Describes v x (someStore v.impliedNonNullKeys) where
  facts := h
  symBound := by
    intro _ n _ _ length hlength
    rw [someStore] at hlength
    split_ifs at hlength <;> cases hlength
  implied _ key hkey := someStore_isNullish.mpr hkey

/-- **Where two abstract values do not agree**, the join leaves out a value of one. -/
theorem merges_of_describes
    (h : ∀ x σ, Describes a x σ ∨ Describes b x σ → Describes (joinVal a b) x σ) : Merges a b where
  constNum hsame := by
    by_cases hb : Facts b (.number b.constNum)
    · have hj := (h _ _ (inr hb.describes)).facts.constNum hsame _ rfl
      have hconst : (joinVal a b).constNum = a.constNum := if_pos hsame
      rw [hconst] at hj
      exact inl hj.symm
    · exact inr hb
  numBounds ha hb hbound n hn := by
    by_contra hnan
    have hboth : (a.hasNumBounds && b.hasNumBounds) = true := by rw [ha, hb]; rfl
    have hj := (h _ _ (inr hn.describes)).facts.numBounds hboth n rfl hnan
    have hmin : (joinVal a b).minNum = stdMin a.minNum b.minNum := if_pos hboth
    have hmax : (joinVal a b).maxNum = stdMax a.maxNum b.maxNum := if_pos hboth
    rw [hmin, hmax] at hj
    rcases hbound with hbound | hbound
    · rw [hbound, stdMin_nan] at hj
      exact absurd hj.1 (by simp [le_nan_left])
    · rw [hbound, stdMax_nan] at hj
      exact absurd hj.2 (by simp [le_nan_right])
  implied hnil htruthy key hkey := by
    obtain ⟨x, hx, htrue⟩ := htruthy
    have hj := (h _ _ (inr hx.describes)).implied htrue key
    have hlist : (joinVal a b).impliedNonNullKeys = a.impliedNonNullKeys := if_pos hnil
    rw [hlist] at hj
    exact someStore_isNullish.mp (hj hkey)
  implied_nil hnil htruthy := by
    obtain ⟨x, hx, htrue⟩ := htruthy
    have hj := (h _ _ (inl hx.describes)).implied htrue
    have hlist : (joinVal a b).impliedNonNullKeys = b.impliedNonNullKeys :=
      if_neg (not_not.mpr hnil)
    rw [hlist] at hj
    refine List.eq_nil_iff_forall_not_mem.mpr fun key hkey => ?_
    have hmem := someStore_isNullish.mp (hj key hkey)
    rw [hnil] at hmem
    cases hmem

/-- **The join describes both sides just where they agree.** -/
theorem joinVal_describes_iff :
    (∀ x σ, Describes a x σ ∨ Describes b x σ → Describes (joinVal a b) x σ) ↔ Merges a b :=
  ⟨merges_of_describes, fun hab _ _ h => Describes.join hab h⟩

end Join

end Bronze.Check
