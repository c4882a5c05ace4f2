import Bronze.Numeric.Int32
import Bronze.Rewrite.Syntax

/-!
# Ranges of whole numbers

`rangeOf` bounds what an expression evaluates to by an interval of whole numbers, whose ends are
doubles themselves and are added and multiplied as such. The ends stay whole, and up to `2 ^ 53` in
magnitude: an end that is rounded is rounded back to the bound, and so is every number up to it.

## Main results

* `arithmeticRange_contains`, `bitAndRange_contains`, `shrRange_contains`, …: the operators
* `rangeAt_whole`: the ends of every range
-/

namespace Bronze.Rewrite

open BigNum (Double)
open Ieee (ofInt Whole53)
open Option Ieee

/-! ## The interval of an expression -/

structure IntRange where
  lo : Double
  hi : Double

def IntRange.isInt32 (r : IntRange) : Bool :=
  Ieee.le (ofInt (-2147483648)) r.lo && Ieee.le r.hi (ofInt 2147483647)

def kExact : Double := ofInt (2 ^ 53)

/-- The range of a word of 32 bits. -/
def int32 : IntRange := ⟨ofInt (-2147483648), ofInt 2147483647⟩

def checked (lo hi : Double) : Option IntRange :=
  if !(Ieee.le (Ieee.neg kExact) lo && Ieee.le hi kExact) || Ieee.lt hi lo then none
  else some ⟨lo, hi⟩

/-- `shiftCount`: the places that a shift by a literal moves. -/
def shiftCount : Expr → Option ℕ
  | .numberLit n =>
    if !Ieee.eq n.value (Ieee.floor n.value) || Ieee.lt n.value (ofInt 0) ||
        Ieee.lt (ofInt 4294967295) n.value then none
    else some ((Ieee.toInt32 n.value).toNat % 32)
  | _ => none

/-- `std::ldexp(1.0, n)` -/
def ldexpOne (n : ℕ) : Double := ofInt (2 ^ n)

def literalRange (n : NumberLit) : Option IntRange :=
  if !Ieee.eq n.value (Ieee.floor n.value) || Ieee.lt kExact (Ieee.fabs n.value) then none
  else some ⟨n.value, n.value⟩

def negateRange (r : Option IntRange) : Option IntRange :=
  match r with
  | some r =>
    -- -0 is no number that a range describes
    if Ieee.le r.lo (ofInt 0) && Ieee.le (ofInt 0) r.hi then none
    else some ⟨Ieee.neg r.hi, Ieee.neg r.lo⟩
  | none => none

def bitNotRange (r : Option IntRange) : IntRange :=
  match r with
  | some r =>
    if r.isInt32 then ⟨Ieee.sub (Ieee.neg r.hi) (ofInt 1), Ieee.sub (Ieee.neg r.lo) (ofInt 1)⟩
    else int32
  | none => int32

/-- The upper end of an operand that is a word and not negative. -/
def boundOf (r : Option IntRange) : Option Double :=
  match r with
  | some r => if r.isInt32 && Ieee.le (ofInt 0) r.lo then some r.hi else none
  | none => none

def bitAndRange (l r : Option IntRange) : IntRange :=
  match boundOf l, boundOf r with
  | some h, some h' => ⟨ofInt 0, Ieee.stdMin h h'⟩
  | some h, none => ⟨ofInt 0, h⟩
  | none, some h => ⟨ofInt 0, h⟩
  | none, none => int32

def shrRange (sh : Option ℕ) (l : Option IntRange) : IntRange :=
  match sh with
  | none => int32
  | some k =>
    let base := match l with
      | some l => if l.isInt32 then l else int32
      | none => int32
    ⟨Ieee.floor (Ieee.div base.lo (ldexpOne k)), Ieee.floor (Ieee.div base.hi (ldexpOne k))⟩

def uShrRange (sh : Option ℕ) (l : Option IntRange) : IntRange :=
  match sh with
  | none => ⟨ofInt 0, ofInt 4294967295⟩
  | some k =>
    match l with
    | some l =>
      if l.isInt32 && Ieee.le (ofInt 0) l.lo then
        ⟨Ieee.floor (Ieee.div l.lo (ldexpOne k)), Ieee.floor (Ieee.div l.hi (ldexpOne k))⟩
      else ⟨ofInt 0, Ieee.floor (Ieee.div (ofInt 4294967295) (ldexpOne k))⟩
    | none => ⟨ofInt 0, Ieee.floor (Ieee.div (ofInt 4294967295) (ldexpOne k))⟩

/-- The range of a sum, a difference or a product. -/
def arithmeticRange (op : BinaryOp) (l r : Option IntRange) : Option IntRange :=
  match l, r with
  | some l, some r =>
    match op with
    | .add => checked (Ieee.add l.lo r.lo) (Ieee.add l.hi r.hi)
    | .sub => checked (Ieee.sub l.lo r.hi) (Ieee.sub l.hi r.lo)
    | _ =>
      -- 0 * -k is -0
      if Ieee.lt l.lo (ofInt 0) || Ieee.lt r.lo (ofInt 0) then none
      else checked (Ieee.mul l.lo r.lo) (Ieee.mul l.hi r.hi)
  | _, _ => none

def ternaryRange (a b : Option IntRange) : Option IntRange :=
  match a, b with
  | some a, some b => some ⟨Ieee.stdMin a.lo b.lo, Ieee.stdMax a.hi b.hi⟩
  | _, _ => none

/-- The range of a unary operator, of that of its operand. -/
def unaryRange (op : UnaryOp) (r : Option IntRange) : Option IntRange :=
  match op with
  | .posate => r
  | .negate => negateRange r
  | .bitNot => some (bitNotRange r)
  | _ => none

/-- The range of a binary operator, of those of its operands. A shift looks at the right one
itself. -/
def binaryRange (op : BinaryOp) (rhs : Expr) (l r : Option IntRange) : Option IntRange :=
  match op with
  | .bitAnd => some (bitAndRange l r)
  | .bitOr | .bitXor | .shl => some int32
  | .shr => some (shrRange (shiftCount rhs) l)
  | .uShr => some (uShrRange (shiftCount rhs) l)
  | .add | .sub | .mul => arithmeticRange op l r
  | _ => none

/-- `rangeOf`, to a depth of so many expressions, for an expression at a path. -/
def Program.rangeAt (program : Program) : ℕ → Path → Expr → Option IntRange
  | 0, _, _ => none
  | depth + 1, p, e =>
    match e with
    | .numberLit n => literalRange n
    | .ident n =>
      match program.constInit p n with
      | some (init, q) => program.rangeAt depth q init
      | none => none
    | .ternary _ t f => ternaryRange (program.rangeAt depth p t) (program.rangeAt depth p f)
    | .call callee args optional =>
      if program.isMathCall "imul" (.call callee args optional) && args.length == 2 then some int32
      else none
    | .unary op f => unaryRange op (program.rangeAt depth p f)
    | .binary op l r => binaryRange op r (program.rangeAt depth p l) (program.rangeAt depth p r)
    | _ => none

/-- `rangeOf`. A chain of more than 32 expressions has no range. -/
def Program.rangeOf (program : Program) (p : Path) (e : Expr) : Option IntRange :=
  program.rangeAt 33 p e

/-- The ends of a range are whole numbers, in order. -/
def IntRange.Whole (r : IntRange) : Prop :=
  ∃ lo hi, Whole53 lo ∧ Whole53 hi ∧ lo ≤ hi ∧ r = ⟨ofInt lo, ofInt hi⟩

/-- **A double is a whole number in a range.** -/
def IntRange.Contains (r : IntRange) (d : Double) : Prop :=
  ∃ lo hi n, Whole53 lo ∧ Whole53 hi ∧ r = ⟨ofInt lo, ofInt hi⟩ ∧ d = ofInt n ∧ lo ≤ n ∧ n ≤ hi

section Range

variable {r l : IntRange} {a b d : Double} {lo hi n : ℤ}

theorem IntRange.Contains.whole (h : r.Contains d) : r.Whole := by
  obtain ⟨lo, hi, n, hlo, hhi, rfl, -, hlow, hhigh⟩ := h
  exact ⟨lo, hi, hlo, hhi, hlow.trans hhigh, rfl⟩

variable {x y : Option IntRange} {k : ℕ} {e : Expr}

theorem exists_contains (hx : ∀ l ∈ x, l.Whole) : ∃ a, ∀ l ∈ x, l.Contains a := by
  cases x with
  | none => exact ⟨.nan, fun l hl => by cases hl⟩
  | some l =>
    obtain ⟨lo, hi, hlo, hhi, hle, rfl⟩ := hx _ rfl
    refine ⟨ofInt lo, fun l hl => ?_⟩
    obtain rfl := some.inj hl
    exact ⟨lo, hi, lo, hlo, hhi, rfl, rfl, le_rfl, hle⟩

theorem whole53_between (hlo : Whole53 lo) (hhi : Whole53 hi) (h : lo ≤ n) (h' : n ≤ hi) :
    Whole53 n := by
  unfold Whole53 at *
  omega

theorem isInt32_iff (hlo : Whole53 lo) (hhi : Whole53 hi) :
    IntRange.isInt32 ⟨ofInt lo, ofInt hi⟩ = true ↔ -2147483648 ≤ lo ∧ hi ≤ 2147483647 := by
  have hlow : Whole53 (-2147483648) := by
    unfold Whole53
    omega
  have hhigh : Whole53 2147483647 := by
    unfold Whole53
    omega
  simp [IntRange.isInt32, le_ofInt_iff hlow hlo, le_ofInt_iff hhi hhigh]

theorem whole53_small (h : -2 ^ 53 ≤ n) (h' : n ≤ 2 ^ 53) : Whole53 n := ⟨h, h'⟩

theorem int32_contains (w : BitVec 32) : int32.Contains (signed32 w) := by
  obtain ⟨hlow, hhigh⟩ := signed_range w
  exact ⟨-2147483648, 2147483647, w.toInt, whole53_small (by omega) (by omega),
    whole53_small (by omega) (by omega), rfl, rfl, by omega, by omega⟩

theorem int32_whole : int32.Whole := (int32_contains 0).whole

/-- **What `checked` lets through**, of the ends that are rounded. -/
theorem checked_ofInt (h : checked (ofInt lo) (ofInt hi) = some r) :
    r = ⟨ofInt (settle lo), ofInt (settle hi)⟩ ∧ -2 ^ 53 - 1 ≤ lo ∧ hi ≤ 2 ^ 53 + 1 := by
  unfold checked at h
  split at h
  next => cases h
  next hcond =>
    simp only [Bool.or_eq_true, Bool.not_eq_true', not_or, Bool.not_eq_false,
      Bool.and_eq_true, Bool.not_eq_true] at hcond
    obtain ⟨⟨hlow, hhigh⟩, horder⟩ := hcond
    obtain rfl := some.inj h
    rw [kExact, neg_ofInt whole_bound.1 (by norm_num)] at hlow
    have hle := le_of_not_lt (ofInt_ne_nan lo) (ofInt_ne_nan hi) horder
    have hlo := whole_of_ge hlow
    have hhi := whole_of_le hhigh
    have hlo' := whole_of_le (le_trans hle hhigh)
    have hhi' := whole_of_ge (le_trans hlow hle)
    exact ⟨by rw [← ofInt_settle hlo hlo', ← ofInt_settle hhi' hhi], hlo, hhi⟩

theorem checked_contains (h : checked (ofInt lo) (ofInt hi) = some r) (hlo : lo ≤ n)
    (hhi : n ≤ hi) : r.Contains (ofInt n) := by
  obtain ⟨rfl, hlow, hhigh⟩ := checked_ofInt h
  exact ⟨_, _, settle n, whole_settle lo, whole_settle hi, rfl,
    ofInt_settle (by omega) (by omega), settle_mono hlo, settle_mono hhi⟩

/-! ## The operators -/

theorem whole_zero : Whole53 0 := whole53_small (by omega) (by omega)

theorem mul_ends {lo' hi' : ℤ} (hlo : Whole53 lo) (hhi : Whole53 hi) (hlo' : Whole53 lo')
    (hhi' : Whole53 hi') (hle : lo ≤ hi) (hle' : lo' ≤ hi')
    (hsign : ¬(lt (ofInt lo) (ofInt 0) || lt (ofInt lo') (ofInt 0)) = true) :
    0 ≤ lo ∧ 0 ≤ lo' ∧ mul (ofInt lo) (ofInt lo') = ofInt (lo * lo') ∧
      mul (ofInt hi) (ofInt hi') = ofInt (hi * hi') := by
  rw [Bool.or_eq_true, lt_ofInt_iff hlo whole_zero, lt_ofInt_iff hlo' whole_zero,
    not_or, not_lt, not_lt] at hsign
  obtain ⟨h, h'⟩ := hsign
  exact ⟨h, h', mul_ofInt hlo hlo' (.inr ⟨h, h'⟩),
    mul_ofInt hhi hhi' (.inr ⟨h.trans hle, h'.trans hle'⟩)⟩

/-- What an arithmetic operator computes. -/
def arithmetic : BinaryOp → Double → Double → Double
  | .add => Ieee.add
  | .sub => Ieee.sub
  | _ => Ieee.mul

/-- **Sums, differences and products** are in the range. -/
theorem arithmeticRange_contains {op : BinaryOp} (hx : ∀ l ∈ x, l.Contains a)
    (hy : ∀ l ∈ y, l.Contains b) (h : arithmeticRange op x y = some r) :
    r.Contains (arithmetic op a b) := by
  unfold arithmeticRange at h
  split at h
  next l l' =>
    obtain ⟨lo, hi, n, hlo, hhi, rfl, rfl, hlow, hhigh⟩ := hx _ rfl
    obtain ⟨lo', hi', m, hlo', hhi', rfl, rfl, hlow', hhigh'⟩ := hy _ rfl
    have hn := whole53_between hlo hhi hlow hhigh
    have hm := whole53_between hlo' hhi' hlow' hhigh'
    split at h
    next =>
      rw [add_ofInt hlo hlo', add_ofInt hhi hhi'] at h
      rw [arithmetic, add_ofInt hn hm]
      exact checked_contains h (by omega) (by omega)
    next =>
      rw [sub_ofInt hlo hhi', sub_ofInt hhi hlo'] at h
      rw [arithmetic, sub_ofInt hn hm]
      exact checked_contains h (by omega) (by omega)
    next hadd hsub =>
      split at h
      next => cases h
      next hsign =>
        obtain ⟨hpos, hpos', hlows, hhighs⟩ := mul_ends hlo hhi hlo' hhi'
          (hlow.trans hhigh) (hlow'.trans hhigh') hsign
        have hop : arithmetic op = mul := by
          unfold arithmetic
          split
          next => exact absurd rfl hadd
          next => exact absurd rfl hsub
          next => rfl
        rw [hlows, hhighs] at h
        rw [hop, mul_ofInt hn hm (.inr ⟨hpos.trans hlow, hpos'.trans hlow'⟩)]
        refine checked_contains h ?_ ?_
        · exact mul_le_mul hlow hlow' hpos' (hpos.trans hlow)
        · exact mul_le_mul hhigh hhigh' (hpos'.trans hlow') (hpos.trans (hlow.trans hhigh))
  next => cases h

theorem literalRange_eq {k : NumberLit} (h : literalRange k = some r) :
    ∃ n, Whole53 n ∧ k.value = ofInt n ∧ r = ⟨ofInt n, ofInt n⟩ := by
  unfold literalRange at h
  split at h
  next => cases h
  next hcond =>
    simp only [Bool.or_eq_true, Bool.not_eq_true', not_or, Bool.not_eq_false,
      Bool.not_eq_true] at hcond
    obtain ⟨hfloor, hbound⟩ := hcond
    obtain rfl := some.inj h
    obtain ⟨value, hunsigned⟩ := k
    dsimp only at hfloor hbound ⊢
    cases value with
    | nan => cases hunsigned
    | infinite s =>
      cases s with
      | true => cases hunsigned
      | false =>
        -- infinity is past the bound
        have htop : extended (.infinite false) = some ((⊤ : WithTop ℚ) : Extended) := rfl
        have hinfinite : lt kExact (.infinite false) = true := by
          rw [kExact, lt_iff (extended_ofInt whole_bound.1) htop]
          exact WithBot.coe_lt_coe.mpr (WithTop.coe_lt_top _)
        cases hinfinite.symm.trans hbound
    | finite s d =>
      cases s with
      | true => cases hunsigned
      | false =>
        obtain ⟨n, hlow, hhigh, hvalue⟩ := exists_ofInt hfloor hbound
        exact ⟨n, whole53_small (by omega) hhigh, hvalue, by rw [hvalue]⟩

theorem literalRange_contains {k : NumberLit} (h : literalRange k = some r) :
    r.Contains k.value := by
  obtain ⟨n, hn, hvalue, rfl⟩ := literalRange_eq h
  exact ⟨n, n, n, hn, hn, rfl, hvalue, le_rfl, le_rfl⟩

theorem negateRange_eq (hlo : Whole53 lo) (hhi : Whole53 hi) (hle : lo ≤ hi)
    (h : negateRange (some ⟨ofInt lo, ofInt hi⟩) = some r) :
    (hi < 0 ∨ 0 < lo) ∧ r = ⟨ofInt (-hi), ofInt (-lo)⟩ := by
  unfold negateRange at h
  dsimp only at h
  split at h
  next => cases h
  next hzero =>
    rw [Bool.and_eq_true, le_ofInt_iff hlo whole_zero, le_ofInt_iff whole_zero hhi]
      at hzero
    obtain rfl := some.inj h
    refine ⟨by omega, ?_⟩
    rw [neg_ofInt hhi (by omega), neg_ofInt hlo (by omega)]

section

variable (hx : ∀ l ∈ x, l.Contains a)

include hx

/-- **An opposite** is in the range. -/
theorem negateRange_contains (h : negateRange x = some r) : r.Contains (neg a) := by
  cases x with
  | none => cases h
  | some l =>
    obtain ⟨lo, hi, n, hlo, hhi, rfl, rfl, hlow, hhigh⟩ := hx _ rfl
    have hn := whole53_between hlo hhi hlow hhigh
    obtain ⟨hzero, rfl⟩ := negateRange_eq hlo hhi (hlow.trans hhigh) h
    unfold Whole53 at hlo hhi
    exact ⟨-hi, -lo, -n, whole53_small (by omega) (by omega), whole53_small (by omega) (by omega),
      rfl, neg_ofInt hn (by omega), by omega, by omega⟩

/-- **A complement** is in the range. -/
theorem bitNotRange_contains : (bitNotRange x).Contains (bitNot a) := by
  cases x with
  | none => exact int32_contains _
  | some l =>
    obtain ⟨lo, hi, n, hlo, hhi, rfl, rfl, hlow, hhigh⟩ := hx _ rfl
    unfold bitNotRange
    dsimp only
    split
    next h32 =>
      obtain ⟨hlow', hhigh'⟩ := (isInt32_iff hlo hhi).mp h32
      rw [sub_neg_one ⟨by omega, by omega⟩, sub_neg_one ⟨by omega, by omega⟩,
        bitNot_ofInt ⟨by omega, by omega⟩]
      exact ⟨_, _, _, whole53_small (by omega) (by omega), whole53_small (by omega) (by omega),
        rfl, rfl, by omega, by omega⟩
    next => exact int32_contains _

theorem boundOf_eq {h : Double} (hbound : boundOf x = some h) :
    ∃ n hi, a = ofInt n ∧ h = ofInt hi ∧ 0 ≤ n ∧ n ≤ hi ∧ hi ≤ 2147483647 := by
  cases x with
  | none => cases hbound
  | some l =>
    obtain ⟨lo, hi, n, hlo, hhi, rfl, rfl, hlow, hhigh⟩ := hx _ rfl
    unfold boundOf at hbound
    dsimp only at hbound
    split at hbound
    next hcond =>
      rw [Bool.and_eq_true, isInt32_iff hlo hhi, le_ofInt_iff whole_zero hlo] at hcond
      obtain ⟨⟨-, h32⟩, hzero⟩ := hcond
      exact ⟨n, hi, rfl, (some.inj hbound).symm, by omega, hhigh, h32⟩
    next => cases hbound

end

theorem bitAnd_bounded {w : BitVec 32} (h : 0 ≤ n) (hle : n ≤ hi) (hhi : hi ≤ 2147483647) :
    0 ≤ (toInt32 (ofInt n) &&& w).toInt ∧ (toInt32 (ofInt n) &&& w).toInt ≤ hi := by
  have hword := toNat_toInt32 (n := n) ⟨h, by omega⟩
  obtain ⟨hlow, hhigh⟩ := bitAnd_bound (w := w) (n := n) ⟨h, by omega⟩ hword
  omega

/-- **A conjunction** is in the range. -/
theorem bitAndRange_contains (hx : ∀ l ∈ x, l.Contains a) (hy : ∀ l ∈ y, l.Contains b) :
    (bitAndRange x y).Contains (bitAnd a b) := by
  unfold bitAndRange
  rw [bitAnd]
  split
  next h h' hbound hbound' =>
    obtain ⟨n, hi, rfl, rfl, hn, hle, hhi⟩ := boundOf_eq hx hbound
    obtain ⟨m, hi', rfl, rfl, hm, hle', hhi'⟩ := boundOf_eq hy hbound'
    obtain ⟨hlow, hhigh⟩ := bitAnd_bounded (w := toInt32 (ofInt m)) hn hle hhi
    have hhigh' := (bitAnd_bounded (w := toInt32 (ofInt n)) hm hle' hhi').2
    rw [BitVec.and_comm] at hhigh'
    rw [stdMin_ofInt (whole53_small (by omega) (by omega))
      (whole53_small (by omega) (by omega))]
    exact ⟨0, min hi hi', _, whole_zero, whole53_small (by omega) (by omega), rfl, rfl, hlow,
      le_min hhigh hhigh'⟩
  next h hbound _ =>
    obtain ⟨n, hi, rfl, rfl, hn, hle, hhi⟩ := boundOf_eq hx hbound
    obtain ⟨hlow, hhigh⟩ := bitAnd_bounded (w := toInt32 b) hn hle hhi
    exact ⟨0, hi, _, whole_zero, whole53_small (by omega) (by omega), rfl, rfl, hlow, hhigh⟩
  next h _ hbound =>
    obtain ⟨n, hi, rfl, rfl, hn, hle, hhi⟩ := boundOf_eq hy hbound
    obtain ⟨hlow, hhigh⟩ := bitAnd_bounded (w := toInt32 a) hn hle hhi
    rw [BitVec.and_comm]
    exact ⟨0, hi, _, whole_zero, whole53_small (by omega) (by omega), rfl, rfl, hlow, hhigh⟩
  next => exact int32_contains _

theorem shiftCount_eq (h : shiftCount e = some k) :
    ∃ literal, e = .numberLit literal ∧ places literal.value = k ∧ k < 32 := by
  unfold shiftCount at h
  split at h
  next literal =>
    split at h
    next => cases h
    next =>
      obtain rfl := some.inj h
      exact ⟨literal, rfl, rfl, Nat.mod_lt _ (by norm_num)⟩
  next => cases h

theorem floor_shift (hn : Whole53 n) (hk : k < 32) :
    floor (div (ofInt n) (ldexpOne k)) = ofInt (n / 2 ^ k) :=
  floor_div_ofInt hn (by omega)

theorem whole_shift (hn : Whole53 n) : Whole53 (n / 2 ^ k) := by
  have hpow : (1 : ℤ) ≤ 2 ^ k := one_le_pow₀ (by norm_num)
  unfold Whole53 at *
  constructor
  · rw [Int.le_ediv_iff_mul_le (by omega)]
    nlinarith
  · refine Int.ediv_le_of_le_mul (by omega) ?_
    nlinarith

/-- **An arithmetic shift** is in the range. -/
theorem shrRange_contains {v : Double} (hx : ∀ l ∈ x, l.Contains a)
    (hplaces : ∀ literal, e = .numberLit literal → v = literal.value) :
    (shrRange (shiftCount e) x).Contains (shr a v) := by
  have hbase : ∃ lo hi, lo ≤ (toInt32 a).toInt ∧ (toInt32 a).toInt ≤ hi ∧
      Whole53 lo ∧ Whole53 hi ∧ (match x with
        | some l => if l.isInt32 then l else int32
        | none => int32) = ⟨ofInt lo, ofInt hi⟩ := by
    have hword := signed_range (toInt32 a)
    cases x with
    | none =>
      exact ⟨-2147483648, 2147483647, by omega, by omega, whole53_small (by omega) (by omega),
        whole53_small (by omega) (by omega), rfl⟩
    | some l =>
      obtain ⟨lo, hi, n, hlo, hhi, rfl, rfl, hlow, hhigh⟩ := hx _ rfl
      dsimp only
      split
      next h32 =>
        obtain ⟨hlow', hhigh'⟩ := (isInt32_iff hlo hhi).mp h32
        rw [toInt_toInt32 ⟨by omega, by omega⟩]
        exact ⟨lo, hi, hlow, hhigh, hlo, hhi, rfl⟩
      next =>
        exact ⟨-2147483648, 2147483647, by omega, by omega, whole53_small (by omega) (by omega),
          whole53_small (by omega) (by omega), rfl⟩
  unfold shrRange
  split
  next => exact int32_contains _
  next k hcount =>
    obtain ⟨literal, rfl, hk, hlt⟩ := shiftCount_eq hcount
    obtain rfl := hplaces literal rfl
    obtain ⟨lo, hi, hlow, hhigh, hlo, hhi, hrange⟩ := hbase
    have hpow : (0 : ℤ) < 2 ^ k := by positivity
    rw [shr, signed32, hk, toInt_shr]
    dsimp only
    rw [hrange, floor_shift hlo hlt, floor_shift hhi hlt]
    exact ⟨_, _, _, whole_shift hlo, whole_shift hhi, rfl, rfl,
      Int.ediv_le_ediv hpow hlow, Int.ediv_le_ediv hpow hhigh⟩

/-- **A logical shift** is in the range. -/
theorem uShrRange_contains {v : Double} (hx : ∀ l ∈ x, l.Contains a)
    (hplaces : ∀ literal, e = .numberLit literal → v = literal.value) :
    (uShrRange (shiftCount e) x).Contains (uShr a v) := by
  have hmax : Whole53 4294967295 := whole53_small (by omega) (by omega)
  have hword : ((toInt32 a).toNat : ℤ) ≤ 4294967295 := by
    omega
  -- the result of the shift, and that of a word which is as large as a word can be
  have hall : ∀ k < 32, places v = k →
      IntRange.Contains ⟨ofInt 0, floor (div (ofInt 4294967295) (ldexpOne k))⟩
        (uShr a v) := by
    intro k hlt hk
    have hpow : (0 : ℤ) < 2 ^ k := by positivity
    rw [uShr, hk, toNat_uShr, floor_shift hmax hlt]
    exact ⟨_, _, _, whole_zero, whole_shift hmax, rfl, rfl,
      Int.ediv_nonneg (Int.natCast_nonneg _) hpow.le, Int.ediv_le_ediv hpow hword⟩
  unfold uShrRange
  split
  next =>
    have hle : ((toInt32 a >>> places v).toNat : ℤ) ≤ 4294967295 := by
      omega
    exact ⟨0, 4294967295, _, whole_zero, hmax, rfl, rfl, Int.natCast_nonneg _, hle⟩
  next k hcount =>
    obtain ⟨literal, rfl, hk, hlt⟩ := shiftCount_eq hcount
    obtain rfl := hplaces literal rfl
    cases x with
    | none => exact hall k hlt hk
    | some l =>
      obtain ⟨lo, hi, n, hlo, hhi, rfl, rfl, hlow, hhigh⟩ := hx _ rfl
      dsimp only
      split
      next hcond =>
        rw [Bool.and_eq_true, isInt32_iff hlo hhi, le_ofInt_iff whole_zero hlo] at hcond
        obtain ⟨⟨-, h32⟩, hzero⟩ := hcond
        have hpow : (0 : ℤ) < 2 ^ k := by positivity
        rw [uShr, hk, toNat_uShr, toNat_toInt32 ⟨by omega, by omega⟩,
          floor_shift hlo hlt, floor_shift hhi hlt]
        exact ⟨_, _, _, whole_shift hlo, whole_shift hhi, rfl, rfl,
          Int.ediv_le_ediv hpow hlow, Int.ediv_le_ediv hpow hhigh⟩
      next => exact hall k hlt hk

/-- **A conditional** is in the range that covers both of its branches. -/
theorem ternaryRange_contains (hx : ∀ l ∈ x, l.Whole) (hy : ∀ l ∈ y, l.Whole)
    (hd : (∀ l ∈ x, l.Contains d) ∨ ∀ l ∈ y, l.Contains d) (h : ternaryRange x y = some r) :
    r.Contains d := by
  unfold ternaryRange at h
  split at h
  next l l' =>
    obtain ⟨lo, hi, hlo, hhi, hle, rfl⟩ := hx _ rfl
    obtain ⟨lo', hi', hlo', hhi', hle', rfl⟩ := hy _ rfl
    obtain rfl := some.inj h
    rw [stdMin_ofInt hlo hlo', stdMax_ofInt hhi hhi']
    have hmin : Whole53 (min lo lo') := by
      unfold Whole53 at *
      omega
    have hmax : Whole53 (max hi hi') := by
      unfold Whole53 at *
      omega
    have hone : ∃ n, d = ofInt n ∧ (lo ≤ n ∧ n ≤ hi ∨ lo' ≤ n ∧ n ≤ hi') := by
      rcases hd with hd | hd
      · obtain ⟨a, b, n, ha, hb, heq, rfl, hlow, hhigh⟩ := hd _ rfl
        rw [IntRange.mk.injEq] at heq
        obtain rfl := ofInt_injective hlo ha heq.1
        obtain rfl := ofInt_injective hhi hb heq.2
        exact ⟨n, rfl, .inl ⟨hlow, hhigh⟩⟩
      · obtain ⟨a, b, n, ha, hb, heq, rfl, hlow, hhigh⟩ := hd _ rfl
        rw [IntRange.mk.injEq] at heq
        obtain rfl := ofInt_injective hlo' ha heq.1
        obtain rfl := ofInt_injective hhi' hb heq.2
        exact ⟨n, rfl, .inr ⟨hlow, hhigh⟩⟩
    obtain ⟨n, rfl, hn⟩ := hone
    exact ⟨_, _, n, hmin, hmax, rfl, rfl, by omega, by omega⟩
  next => cases h

theorem literalRange_ofInt {k : NumberLit} (hn : Whole53 n) (hvalue : k.value = ofInt n) :
    literalRange k = some ⟨ofInt n, ofInt n⟩ := by
  have habs : Whole53 |n| := ⟨by linarith [abs_nonneg n], abs_le.mpr hn⟩
  have heq : eq (ofInt n) (ofInt n) = true := by
    rw [eq, (le_ofInt_iff hn hn).mpr le_rfl]
    rfl
  have hbound : lt kExact (ofInt |n|) = false := by
    rw [kExact, Bool.eq_false_iff, ne_eq, lt_ofInt_iff whole_bound.1 habs]
    exact not_lt.mpr habs.2
  rw [literalRange, hvalue, floor_ofInt hn, fabs_ofInt hn, heq, hbound]
  rfl

theorem unaryRange_whole {op : UnaryOp} (hx : ∀ l ∈ x, l.Whole) (h : unaryRange op x = some r) :
    r.Whole := by
  obtain ⟨a, ha⟩ := exists_contains hx
  unfold unaryRange at h
  split at h
  next => exact hx _ h
  next => exact (negateRange_contains ha h).whole
  next =>
    obtain rfl := some.inj h
    exact (bitNotRange_contains ha).whole
  next => cases h

theorem binaryRange_whole {op : BinaryOp} {rhs : Expr} (hx : ∀ l ∈ x, l.Whole)
    (hy : ∀ l ∈ y, l.Whole) (h : binaryRange op rhs x y = some r) : r.Whole := by
  obtain ⟨a, ha⟩ := exists_contains hx
  obtain ⟨b, hb⟩ := exists_contains hy
  have hplaces : ∃ v, ∀ literal, rhs = .numberLit literal → v = literal.value := by
    cases rhs with
    | numberLit literal => exact ⟨literal.value, fun k hk => by rw [Expr.numberLit.inj hk]⟩
    | _ => exact ⟨.nan, fun k hk => by cases hk⟩
  obtain ⟨v, hv⟩ := hplaces
  unfold binaryRange at h
  split at h
  case h_1 =>
    obtain rfl := some.inj h
    exact (bitAndRange_contains ha hb).whole
  case h_5 =>
    obtain rfl := some.inj h
    exact (shrRange_contains ha hv).whole
  case h_6 =>
    obtain rfl := some.inj h
    exact (uShrRange_contains ha hv).whole
  case h_7 | h_8 | h_9 => exact (arithmeticRange_contains ha hb h).whole
  case h_2 | h_3 | h_4 =>
    obtain rfl := some.inj h
    exact int32_whole
  case h_10 => cases h

/-- **The ends of every range** are whole numbers, in order. -/
theorem rangeAt_whole {program : Program} {depth : ℕ} {p : Path}
    (h : program.rangeAt depth p e = some r) : r.Whole := by
  induction depth generalizing p e r with
  | zero => cases h
  | succ depth ih =>
    unfold Program.rangeAt at h
    split at h
    next => exact (literalRange_contains h).whole
    next =>
      split at h
      next => exact ih h
      next => cases h
    next t f =>
      obtain ⟨a, ha⟩ := exists_contains fun l hl => ih (e := t) (p := p) hl
      exact (ternaryRange_contains (fun l hl => ih hl) (fun l hl => ih hl) (.inl ha) h).whole
    next =>
      split at h
      next =>
        obtain rfl := some.inj h
        exact int32_whole
      next => cases h
    next => exact unaryRange_whole (fun l hl => ih hl) h
    next => exact binaryRange_whole (fun l hl => ih hl) (fun l hl => ih hl) h
    next => cases h

end Range

end Bronze.Rewrite
