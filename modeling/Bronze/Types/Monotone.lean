import Bronze.Types.Operators

/-!
# Which transfer functions are monotone

The fixpoints of the analysis are argued to be reached because no rule answers less where its
operands rise. The rules for the operators are monotone with two exceptions. An update answers
`dynamic` for a binding no value has reached and `number` above it. And `join` meets `number` and
`undefined` at the top, while the rung above either of them meets the other at the rung.

## Main results

* `join_le_join_iff`, `logicalOrResult_mono_iff`: where the join is monotone
* `transfer_mono_iff`: exactly when each rule is
-/

namespace Bronze.Types

open Ast Ty
open Bool

/-- `a ≤ b`, as the analysis has it: joining `a` leaves `b`. -/
def JoinLe (a b : Ty) : Prop := join a b = b

/-- An update of a binding that no value has reached, against one that holds no BigInt. -/
def UpdateDrops (op : UnaryOp) (a a' : Ty) : Prop :=
  (op = .preInc ∨ op = .preDec ∨ op = .postInc ∨ op = .postDec) ∧ a = .never ∧
    isNeverBigInt a' = true

/-- `number` meets `undefined` below, and above the rung of both meets one of them or itself. -/
def Splits (a b a' b' : Ty) : Prop :=
  Mixed a b ∧ ¬Mixed a' b' ∧ a'.numOrUndef = true ∧ b'.numOrUndef = true

section Order

variable {a a' b b' : Ty}

theorem joinLe_iff : JoinLe a b ↔ a ≤ b := by
  constructor
  · intro h
    exact h ▸ (le_join a b).1
  · intro h
    have hmixed : ¬Mixed a b := by
      rintro (⟨rfl, rfl⟩ | ⟨rfl, rfl⟩) <;> cases h
    rw [JoinLe, join_eq, if_neg hmixed]
    exact sup_eq_right.mpr h

theorem ne_never_of_le (h : a ≤ a') (ha : a ≠ .never) : a' ≠ .never := by
  rintro rfl
  exact ha (le_never.mp h)

theorem is_never : a.is .never = true ↔ a = .never := by
  cases a <;> simp [is, kind]

/-- Only `never` is below a type whose values are no BigInt. -/
theorem eq_of_le_neverBigInt (h : a ≤ a') (ha : a ≠ .never) (hbig : isNeverBigInt a' = true) :
    a = a' := by
  refine le_basic ha ?_ h
  cases a' <;> simp_all [isNeverBigInt, kind]

theorem eq_of_le_string (h : a ≤ .string) (ha : a ≠ .never) : a = .string :=
  eq_of_le_neverBigInt h ha rfl

theorem join_mono (ha : a ≤ a') (hb : b ≤ b') (h : ¬Mixed a b) : join a b ≤ join a' b' := by
  rw [join_eq, if_neg h]
  exact sup_le (ha.trans (le_join a' b').1) (hb.trans (le_join a' b').2)

theorem le_number_or_rung (h : number ≤ a) (hnot : a.numOrUndef = false) : a = .dynamic := by
  rcases number_le h with rfl | rfl | rfl
  · cases hnot
  · cases hnot
  · rfl

theorem le_undefined_or_rung (h : undefined ≤ a) (hnot : a.numOrUndef = false) :
    a = .dynamic := by
  rcases undefined_le h with rfl | rfl | rfl
  · cases hnot
  · cases hnot
  · rfl

theorem join_dynamic_right (a : Ty) : join a .dynamic = .dynamic := by
  rw [join_comm, join_dynamic_left]

/-- **The join is monotone exactly where it does not split.** -/
theorem join_le_join_iff (ha : a ≤ a') (hb : b ≤ b') :
    join a b ≤ join a' b' ↔ ¬Splits a b a' b' := by
  by_cases hmixed : Mixed a b
  · have htop : join a b = .dynamic := by rw [join_eq, if_pos hmixed]
    rw [htop]
    constructor
    · rintro h ⟨-, hmixed', hnum, hnum'⟩
      have hle : join a' b' ≤ .dynamicNumOrUndef := by
        rw [join_eq, if_neg hmixed']
        exact sup_le (le_of_numOrUndef hnum) (le_of_numOrUndef hnum')
      cases dynamic_le.mp (h.trans hle)
    · intro h
      have htop' : join a' b' = .dynamic := by
        by_cases hmixed' : Mixed a' b'
        · rw [join_eq, if_pos hmixed']
        · -- one of the two is above the rung
          have hrung : a' = .dynamic ∨ b' = .dynamic := by
            cases hnum : a'.numOrUndef with
            | false =>
              rcases hmixed with ⟨rfl, -⟩ | ⟨rfl, -⟩
              · exact .inl (le_number_or_rung ha hnum)
              · exact .inl (le_undefined_or_rung ha hnum)
            | true =>
              cases hnum' : b'.numOrUndef with
              | false =>
                rcases hmixed with ⟨-, rfl⟩ | ⟨-, rfl⟩
                · exact .inr (le_undefined_or_rung hb hnum')
                · exact .inr (le_number_or_rung hb hnum')
              | true => exact absurd ⟨hmixed, hmixed', hnum, hnum'⟩ h
          rcases hrung with rfl | rfl
          · exact join_dynamic_left _
          · exact join_dynamic_right _
      rw [htop']
  · exact ⟨fun _ h => hmixed h.1, fun _ => join_mono ha hb hmixed⟩

end Order

/-! ## The rules without a join -/

section Rules

variable {a a' b b' l l' r r' : Ty}

theorem withBottom_mono (h : a ≤ a') (result : Ty) :
    withBottom a result ≤ withBottom a' result := by
  by_cases ha : a = .never
  · subst ha
    exact never_le _
  · have ha' := ne_never_of_le h ha
    simp [withBottom, mt is_never.mp ha, mt is_never.mp ha']

theorem withBottom₂_mono (hl : l ≤ l') (hr : r ≤ r') (result : Ty) :
    withBottom₂ l r result ≤ withBottom₂ l' r' result := by
  by_cases hnever : l = .never ∨ r = .never
  · rw [withBottom₂, if_pos (by rwa [or_eq_true, is_never, is_never])]
    exact never_le _
  · obtain ⟨hl₀, hr₀⟩ := not_or.mp hnever
    have hnever' : ¬(l' = .never ∨ r' = .never) :=
      not_or.mpr ⟨ne_never_of_le hl hl₀, ne_never_of_le hr hr₀⟩
    rw [withBottom₂, withBottom₂, if_neg (by rwa [or_eq_true, is_never, is_never]),
      if_neg (by rwa [or_eq_true, is_never, is_never])]

/-- Off `never`: a number, unless both operands may be a BigInt. -/
theorem numericOrDynamic_of_ne (hl : l ≠ .never) (hr : r ≠ .never) :
    numericOrDynamic l r = if isNeverBigInt l || isNeverBigInt r then .number else .dynamic := by
  rw [numericOrDynamic, if_neg]
  rw [or_eq_true, is_never, is_never]
  exact not_or.mpr ⟨hl, hr⟩

theorem numericOrDynamic_never (h : l = .never ∨ r = .never) : numericOrDynamic l r = .never := by
  rw [numericOrDynamic, if_pos]
  rwa [or_eq_true, is_never, is_never]

theorem numericOrDynamic_mono (hl : l ≤ l') (hr : r ≤ r') :
    numericOrDynamic l r ≤ numericOrDynamic l' r' := by
  by_cases hnever : l = .never ∨ r = .never
  · rw [numericOrDynamic_never hnever]
    exact never_le _
  · obtain ⟨hl₀, hr₀⟩ := not_or.mp hnever
    rw [numericOrDynamic_of_ne hl₀ hr₀,
      numericOrDynamic_of_ne (ne_never_of_le hl hl₀) (ne_never_of_le hr hr₀)]
    by_cases hbig : (isNeverBigInt l' || isNeverBigInt r') = true
    · -- the operand that is no BigInt above is none below
      have hbig' : (isNeverBigInt l || isNeverBigInt r) = true := by
        rcases or_eq_true_iff.mp hbig with h | h
        · simp [eq_of_le_neverBigInt hl hl₀ h, h]
        · simp [eq_of_le_neverBigInt hr hr₀ h, h]
      simp [hbig, hbig']
    · rw [if_neg hbig]
      exact le_dynamic _

theorem arithResult_never (op : BinaryOp) (h : l = .never ∨ r = .never) :
    arithResult op l r = .never := by
  rw [arithResult, if_pos]
  rwa [or_eq_true, is_never, is_never]

theorem arithResult_of_ne_add {op : BinaryOp} (hop : op ≠ .add) (l r : Ty) :
    arithResult op l r = numericOrDynamic l r := by
  by_cases hnever : l = .never ∨ r = .never
  · rw [arithResult_never op hnever, numericOrDynamic_never hnever]
  · rw [arithResult, if_neg, if_pos hop]
    rwa [or_eq_true, is_never, is_never]

theorem arithResult_add (hl : l ≠ .never) (hr : r ≠ .never) :
    arithResult .add l r =
      if l.is .string || r.is .string then .string
      else if isNumericPrimitive l && isNumericPrimitive r then .number else .dynamic := by
  rw [arithResult, if_neg, if_neg (not_not.mpr rfl)]
  rw [or_eq_true, is_never, is_never]
  exact not_or.mpr ⟨hl, hr⟩

theorem arithResult_mono (op : BinaryOp) (hl : l ≤ l') (hr : r ≤ r') :
    arithResult op l r ≤ arithResult op l' r' := by
  by_cases hop : op ≠ .add
  · rw [arithResult_of_ne_add hop, arithResult_of_ne_add hop]
    exact numericOrDynamic_mono hl hr
  obtain rfl := not_not.mp hop
  by_cases hnever : l = .never ∨ r = .never
  · rw [arithResult_never _ hnever]
    exact never_le _
  obtain ⟨hl₀, hr₀⟩ := not_or.mp hnever
  rw [arithResult_add hl₀ hr₀, arithResult_add (ne_never_of_le hl hl₀) (ne_never_of_le hr hr₀)]
  by_cases hstring' : (l'.is .string || r'.is .string) = true
  · -- a string above is a string below
    have hstring : (l.is .string || r.is .string) = true := by
      rcases or_eq_true_iff.mp hstring' with h | h
      · rw [eq_of_le_string (is_string h ▸ hl) hl₀]
        rfl
      · rw [eq_of_le_string (is_string h ▸ hr) hr₀]
        exact or_true _
    simp [hstring, hstring']
  rw [if_neg hstring']
  by_cases hnumeric' : (isNumericPrimitive l' && isNumericPrimitive r') = true
  · -- and two numeric primitives above are the same two below
    obtain ⟨hl', hr'⟩ := and_eq_true_iff.mp hnumeric'
    obtain rfl := eq_of_le_neverBigInt hl hl₀ (isNeverBigInt_of_isNumericPrimitive hl')
    obtain rfl := eq_of_le_neverBigInt hr hr₀ (isNeverBigInt_of_isNumericPrimitive hr')
    rw [if_neg hstring']
  · rw [if_neg hnumeric']
    exact le_dynamic _

/-- **The binary operators are monotone.** -/
theorem binaryResult_mono (op : BinaryOp) (hl : l ≤ l') (hr : r ≤ r') :
    binaryResult op l r ≤ binaryResult op l' r' := by
  cases op with
  | bitAnd | bitOr | bitXor | shl | shr | uShr | exp => exact numericOrDynamic_mono hl hr
  | add | sub | mul | div | mod => exact arithResult_mono _ hl hr
  | less | greater | lessEqual | greaterEqual | eq | strictEq | ne | strictNe | «in» | instanceOf =>
    exact withBottom₂_mono hl hr .boolean
  | comma => exact hr
  | _ => exact le_refl _

theorem not_updateDrops {op : UnaryOp}
    (hop : op ≠ .preInc ∧ op ≠ .preDec ∧ op ≠ .postInc ∧ op ≠ .postDec) : ¬UpdateDrops op a a' := by
  rintro ⟨h, -⟩
  rcases h with h | h | h | h
  · exact hop.1 h
  · exact hop.2.1 h
  · exact hop.2.2.1 h
  · exact hop.2.2.2 h

theorem update_mono_iff (h : a ≤ a') :
    (if isNeverBigInt a then number else .dynamic) ≤
        (if isNeverBigInt a' then number else .dynamic) ↔
      ¬(a = .never ∧ isNeverBigInt a' = true) := by
  by_cases hbig : isNeverBigInt a' = true
  · rw [if_pos hbig]
    by_cases ha : a = .never
    · subst ha
      constructor
      · intro h
        cases dynamic_le.mp h
      · intro h
        exact absurd ⟨rfl, hbig⟩ h
    · rw [eq_of_le_neverBigInt h ha hbig, if_pos hbig]
      constructor
      · rintro - ⟨h', -⟩
        exact ne_never_of_le h ha h'
      · intro _
        exact le_refl _
  · rw [if_neg hbig]
    constructor
    · rintro - ⟨-, h⟩
      exact hbig h
    · intro _
      exact le_dynamic _

/-- **The unary operators are monotone but for an update**, at a binding no value has reached. -/
theorem unaryResult_mono_iff (op : UnaryOp) (h : a ≤ a') :
    unaryResult op a ≤ unaryResult op a' ↔ ¬UpdateDrops op a a' := by
  cases op with
  | not | posate | typeOf | void =>
    refine ⟨fun _ => not_updateDrops ?_, fun _ => withBottom_mono h _⟩
    simp
  | negate | bitNot =>
    refine ⟨fun _ => not_updateDrops ?_, fun _ => numericOrDynamic_mono h h⟩
    simp
  | delete =>
    refine ⟨fun _ => not_updateDrops ?_, fun _ => le_refl _⟩
    simp
  | preInc | preDec | postInc | postDec =>
    refine (update_mono_iff h).trans (not_congr ⟨fun h => ⟨?_, h⟩, fun h => h.2⟩)
    simp

end Rules

/-! ## The rules with a join -/

section Joins

variable {l l' r r' : Ty}

theorem ne_never₂ (hl : l ≠ .never) (hr : r ≠ .never) : ¬(l.is .never || r.is .never) = true := by
  rw [or_eq_true, is_never, is_never]
  exact not_or.mpr ⟨hl, hr⟩

theorem is_nullish : (l.is .undefined || l.is .null) = true ↔ l = .undefined ∨ l = .null := by
  cases l <;> simp [is, kind]

theorem logicalOrResult_never (h : l = .never ∨ r = .never) : logicalOrResult l r = .never := by
  rw [logicalOrResult, if_pos]
  rwa [or_eq_true, is_never, is_never]

theorem logicalOrResult_of_ne (hl : l ≠ .never) (hr : r ≠ .never) :
    logicalOrResult l r =
      if l = .undefined ∨ l = .null then r
      else if (l = .number ∨ l = .dynamicNumOrUndef) ∧ r = .number then .number
      else join l r := by
  have hnumber : ((l.is .number || l.isDynamicNumOrUndef) && r.is .number) = true ↔
      (l = .number ∨ l = .dynamicNumOrUndef) ∧ r = .number := by
    rw [and_eq_true, or_eq_true, isDynamicNumOrUndef, decide_eq_true_eq]
    exact and_congr (or_congr ⟨is_number, fun h => h ▸ rfl⟩ Iff.rfl) ⟨is_number, fun h => h ▸ rfl⟩
  rw [logicalOrResult, if_neg (ne_never₂ hl hr)]
  simp only [is_nullish, hnumber]

theorem le_logicalOrResult (hl : l ≠ .never) (r : Ty) : r ≤ logicalOrResult l r := by
  by_cases hr : r = .never
  · subst hr
    exact never_le _
  · rw [logicalOrResult_of_ne hl hr]
    split_ifs with hnullish hnumber
    · exact le_refl r
    · exact hnumber.2.le
    · exact (le_join l r).2

theorem eq_number_of_le (h : r ≤ .number) (hr : r ≠ .never) : r = .number :=
  eq_of_le_neverBigInt h hr rfl

theorem numOrUndef_cases (h : l ≤ .dynamicNumOrUndef) (hl : l ≠ .never) :
    l = .number ∨ l = .undefined ∨ l = .dynamicNumOrUndef := by
  have hnum := numOrUndef_of_le hl h
  cases l <;> simp_all [numOrUndef, is, kind, isDynamicNumOrUndef]

/-- **`||` is monotone exactly where a `number` on its left does not split.** -/
theorem logicalOrResult_mono_iff (hl : l ≤ l') (hr : r ≤ r') :
    logicalOrResult l r ≤ logicalOrResult l' r' ↔ ¬(l = .number ∧ Splits l r l' r') := by
  by_cases hnever : l = .never ∨ r = .never
  · rw [logicalOrResult_never hnever]
    refine ⟨?_, fun _ => never_le _⟩
    rintro - ⟨rfl, (⟨-, rfl⟩ | ⟨h, -⟩), -⟩
    · rcases hnever with h | h <;> cases h
    · cases h
  obtain ⟨hl₀, hr₀⟩ := not_or.mp hnever
  have hl₀' := ne_never_of_le hl hl₀
  have hr₀' := ne_never_of_le hr hr₀
  have hright : r ≤ logicalOrResult l' r' := hr.trans (le_logicalOrResult hl₀' r')
  rw [logicalOrResult_of_ne hl₀ hr₀]
  by_cases hnullish : l = .undefined ∨ l = .null
  · rw [if_pos hnullish]
    refine ⟨?_, fun _ => hright⟩
    rintro - ⟨rfl, -⟩
    rcases hnullish with h | h <;> cases h
  rw [if_neg hnullish]
  by_cases hnumber : (l = .number ∨ l = .dynamicNumOrUndef) ∧ r = .number
  · rw [if_pos hnumber]
    refine ⟨?_, fun _ => hnumber.2 ▸ hright⟩
    rintro - ⟨rfl, (⟨-, h⟩ | ⟨h, -⟩), -⟩
    · cases hnumber.2.symm.trans h
    · cases h
  rw [if_neg hnumber, logicalOrResult_of_ne hl₀' hr₀']
  -- the rule is the join on both sides
  have hnullish' : ¬(l' = .undefined ∨ l' = .null) := by
    rintro (rfl | rfl)
    · exact hnullish (.inl (eq_of_le_neverBigInt hl hl₀ rfl))
    · exact hnullish (.inr (eq_of_le_neverBigInt hl hl₀ rfl))
  have hnumber' : ¬((l' = .number ∨ l' = .dynamicNumOrUndef) ∧ r' = .number) := by
    rintro ⟨h, rfl⟩
    refine hnumber ⟨?_, eq_number_of_le hr hr₀⟩
    rcases h with rfl | rfl
    · exact .inl (eq_number_of_le hl hl₀)
    · rcases numOrUndef_cases hl hl₀ with h | h | h
      · exact .inl h
      · exact absurd (.inl h) hnullish
      · exact .inr h
  rw [if_neg hnullish', if_neg hnumber', join_le_join_iff hl hr]
  refine not_congr ⟨fun h => ⟨?_, h⟩, fun h => h.2⟩
  rcases h.1 with ⟨h, -⟩ | ⟨h, -⟩
  · exact h
  · exact absurd (.inl h) hnullish

/-! `??` -/

/-- A type whose values are neither `undefined` nor `null`. -/
def Present (l : Ty) : Bool :=
  l.is .number || l.is .string || l.is .bool || l.is .object || l.is .array ||
    l.is .typedArray || l.is .function

theorem nullishCoalescingResult_never (h : l = .never ∨ r = .never) :
    nullishCoalescingResult l r = .never := by
  rw [nullishCoalescingResult, if_pos]
  rwa [or_eq_true, is_never, is_never]

theorem nullishCoalescingResult_of_ne (hl : l ≠ .never) (hr : r ≠ .never) :
    nullishCoalescingResult l r =
      if l = .undefined ∨ l = .null then r
      else if Present l then l
      else if l = .dynamicNumOrUndef ∧ r = .number then .number
      else join l r := by
  have hnumber : (l.isDynamicNumOrUndef && r.is .number) = true ↔
      l = .dynamicNumOrUndef ∧ r = .number := by
    rw [and_eq_true, isDynamicNumOrUndef, decide_eq_true_eq]
    exact and_congr Iff.rfl ⟨is_number, fun h => h ▸ rfl⟩
  rw [nullishCoalescingResult, if_neg (ne_never₂ hl hr)]
  simp only [is_nullish, hnumber]
  rfl

/-- What is below a present type, and no `never`, is present. -/
theorem present_of_le (h : l ≤ l') (hl : l ≠ .never) (hpresent : Present l' = true) :
    Present l = true := by
  cases h <;> first | exact absurd rfl hl | simp_all [Present, is, kind]

/-- **`??` is monotone.** -/
theorem nullishCoalescingResult_mono (hl : l ≤ l') (hr : r ≤ r') :
    nullishCoalescingResult l r ≤ nullishCoalescingResult l' r' := by
  by_cases hnever : l = .never ∨ r = .never
  · rw [nullishCoalescingResult_never hnever]
    exact never_le _
  obtain ⟨hl₀, hr₀⟩ := not_or.mp hnever
  rw [nullishCoalescingResult_of_ne hl₀ hr₀,
    nullishCoalescingResult_of_ne (ne_never_of_le hl hl₀) (ne_never_of_le hr hr₀)]
  by_cases hnullish' : l' = .undefined ∨ l' = .null
  · have h : l = l' := by
      refine eq_of_le_neverBigInt hl hl₀ ?_
      rcases hnullish' with rfl | rfl <;> rfl
    rw [if_pos hnullish', if_pos (h ▸ hnullish')]
    exact hr
  rw [if_neg hnullish']
  by_cases hpresent' : Present l' = true
  · have hpresent := present_of_le hl hl₀ hpresent'
    have hnullish : ¬(l = .undefined ∨ l = .null) := by
      rintro (rfl | rfl) <;> cases hpresent
    rw [if_neg hnullish, if_pos hpresent, if_pos hpresent']
    exact hl
  by_cases hnumber' : l' = .dynamicNumOrUndef ∧ r' = .number
  · -- every rule answers a number for what is below
    obtain ⟨rfl, rfl⟩ := hnumber'
    obtain rfl := eq_number_of_le hr hr₀
    rcases numOrUndef_cases hl hl₀ with rfl | rfl | rfl
    · exact le_refl _
    · exact le_refl _
    · exact le_refl _
  have hle := le_join l' r'
  split_ifs with hnullish hpresent hnumber
  · exact hr.trans hle.2
  · exact hl.trans hle.1
  · exact hnumber.2 ▸ hr.trans hle.2
  · refine join_mono hl hr ?_
    rintro (⟨rfl, -⟩ | ⟨rfl, -⟩)
    · exact hpresent rfl
    · exact hnullish (.inl rfl)

/-- **A compound assignment is monotone where its operator is**, `&&=` as the join. -/
theorem compoundResult_mono_iff (op : BinaryOp) (hl : l ≤ l') (hr : r ≤ r') :
    compoundResult op l r ≤ compoundResult op l' r' ↔
      ¬((op = .logicalAnd ∨ op = .logicalOr ∧ l = .number) ∧ Splits l r l' r') := by
  by_cases hor : op = .logicalOr
  · subst hor
    refine (logicalOrResult_mono_iff hl hr).trans (not_congr ?_)
    simp
  by_cases hand : op = .logicalAnd
  · subst hand
    refine (join_le_join_iff hl hr).trans (not_congr ?_)
    simp
  have hmono : compoundResult op l r ≤ compoundResult op l' r' := by
    simp only [compoundResult]
    split_ifs
    · exact nullishCoalescingResult_mono hl hr
    · exact numericOrDynamic_mono hl hr
    · exact arithResult_mono op hl hr
  refine ⟨fun _ h => ?_, fun _ => hmono⟩
  rcases h.1 with h | ⟨h, -⟩
  · exact hand h
  · exact hor h

end Joins

/-- **Exactly when each rule for an operator is monotone**, in the order of the joins. -/
theorem transfer_mono_iff {a a' b b' : Ty} (ha : JoinLe a a') (hb : JoinLe b b') :
    (∀ op, JoinLe (unaryResult op a) (unaryResult op a') ↔ ¬UpdateDrops op a a') ∧
      (∀ op, JoinLe (binaryResult op a b) (binaryResult op a' b')) ∧
      (∀ op, JoinLe (compoundResult op a b) (compoundResult op a' b') ↔
        ¬((op = .logicalAnd ∨ op = .logicalOr ∧ a = .number) ∧ Splits a b a' b')) ∧
      JoinLe (nullishCoalescingResult a b) (nullishCoalescingResult a' b') ∧
      (JoinLe (logicalOrResult a b) (logicalOrResult a' b') ↔
        ¬(a = .number ∧ Splits a b a' b')) := by
  rw [joinLe_iff] at ha hb
  refine ⟨?_, ?_, ?_, ?_, ?_⟩
  · intro op
    rw [joinLe_iff]
    exact unaryResult_mono_iff op ha
  · intro op
    rw [joinLe_iff]
    exact binaryResult_mono op ha hb
  · intro op
    rw [joinLe_iff]
    exact compoundResult_mono_iff op ha hb
  · rw [joinLe_iff]
    exact nullishCoalescingResult_mono ha hb
  · rw [joinLe_iff]
    exact logicalOrResult_mono_iff ha hb

/-- Two operands that rise to the rung. -/
theorem transfer_mono_iff_rung :
    JoinLe .number .dynamicNumOrUndef ∧ JoinLe .undefined .undefined ∧
      (JoinLe (logicalOrResult .number .undefined)
          (logicalOrResult .dynamicNumOrUndef .undefined) ↔
        ¬(number = .number ∧ Splits .number .undefined .dynamicNumOrUndef .undefined)) :=
  ⟨rfl, rfl, (transfer_mono_iff (rfl : JoinLe .number .dynamicNumOrUndef)
    (rfl : JoinLe .undefined .undefined)).2.2.2.2⟩

/-- An update answers more for a binding no value has reached than for one that holds a number,
and `||` more for a number and `undefined` than for the rung of both. -/
theorem transfer_drops :
    (JoinLe .never .number ∧ ¬JoinLe (unaryResult .preInc .never) (unaryResult .preInc .number)) ∧
      (JoinLe .number .dynamicNumOrUndef ∧ JoinLe .undefined .undefined ∧
        ¬JoinLe (logicalOrResult .number .undefined)
          (logicalOrResult .dynamicNumOrUndef .undefined)) := by
  refine ⟨⟨rfl, ?_⟩, rfl, rfl, ?_⟩
  · intro h
    cases h
  · intro h
    cases h

end Bronze.Types
