import Bronze.Types.Evaluation

/-!
# The typing of operators

The result types of `src/types/operator_types.cpp` and of the two short-circuit operators in
`src/types/relational_prover.cpp`, and their soundness: the value of an operator is one of the
values of the type it was given. A `number` licenses an unboxed double, so the rules turn on
which operands cannot reach the operator as a BigInt.

## Main results

* `toNumeric_isNeverBigInt`: what `isNeverBigInt` is worth
* `unaryResult_sound`, `binaryResult_sound`, `compoundResult_sound`, `logicalOrResult_sound`,
  `nullishCoalescingResult_sound`: one for each rule
-/

namespace Bronze.Types

open Ast Ty

/-- `withBottom`: no value reaches the operator from an operand that has none. -/
def withBottom (operand result : Ty) : Ty := if operand.is .never then .never else result

/-- `withBottom`, at two operands. -/
def withBottom₂ (a b result : Ty) : Ty :=
  if a.is .never || b.is .never then .never else result

/-- `isNumericPrimitive`: the kinds that convert to a number and are no string. -/
def isNumericPrimitive (t : Ty) : Bool :=
  match t.kind with
  | .number | .bool | .null | .undefined => true
  | _ => false

/-- `isNeverBigInt`: the kinds whose values do not convert to a BigInt. -/
def isNeverBigInt (t : Ty) : Bool :=
  match t.kind with
  | .number | .bool | .null | .undefined | .string => true
  | _ => false

/-- `numericOrDynamic`: a number as soon as one operand rules the BigInt out. -/
def numericOrDynamic (l r : Ty) : Ty :=
  if l.is .never || r.is .never then .never
  else if isNeverBigInt l || isNeverBigInt r then .number else .dynamic

/-- `arithResult`: of the arithmetic operators only `+` may concatenate. -/
def arithResult (op : BinaryOp) (l r : Ty) : Ty :=
  if l.is .never || r.is .never then .never
  else if op ≠ .add then numericOrDynamic l r
  else if l.is .string || r.is .string then .string
  else if isNumericPrimitive l && isNumericPrimitive r then .number
  else .dynamic

/-- `isAlwaysNumericOp`: the operators that never concatenate. -/
def isAlwaysNumericOp : BinaryOp → Bool
  | .bitAnd | .bitOr | .bitXor | .shl | .shr | .uShr | .exp => true
  | _ => false

/-- `unaryResult`: the type of a unary operator. -/
def unaryResult (op : UnaryOp) (operand : Ty) : Ty :=
  match op with
  | .not => withBottom operand .boolean
  | .posate => withBottom operand .number
  | .negate | .bitNot => numericOrDynamic operand operand
  | .typeOf => withBottom operand .string
  | .void => withBottom operand .undefined
  | .delete => .boolean
  | .preInc | .preDec | .postInc | .postDec =>
    if isNeverBigInt operand then .number else .dynamic

/-- `binaryResult`: the type of a binary operator that evaluates both operands. -/
def binaryResult (op : BinaryOp) (l r : Ty) : Ty :=
  if isAlwaysNumericOp op then numericOrDynamic l r
  else match op with
    | .add | .sub | .mul | .div | .mod => arithResult op l r
    | .less | .greater | .lessEqual | .greaterEqual | .eq | .strictEq | .ne | .strictNe | .in
    | .instanceOf => withBottom₂ l r .boolean
    | .comma => r
    | _ => .dynamic

/-- `nullishCoalescingResult`: the kinds that are never nullish keep the left operand. -/
def nullishCoalescingResult (lhs rhs : Ty) : Ty :=
  if lhs.is .never || rhs.is .never then .never
  else if lhs.is .undefined || lhs.is .null then rhs
  else if lhs.is .number || lhs.is .string || lhs.is .bool || lhs.is .object || lhs.is .array ||
      lhs.is .typedArray || lhs.is .function then lhs
  else if lhs.isDynamicNumOrUndef && rhs.is .number then .number
  else join lhs rhs

/-- `logicalOrResult`: a number beside numbers that may be missing is a number. -/
def logicalOrResult (lhs rhs : Ty) : Ty :=
  if lhs.is .never || rhs.is .never then .never
  else if lhs.is .undefined || lhs.is .null then rhs
  else if (lhs.is .number || lhs.isDynamicNumOrUndef) && rhs.is .number then .number
  else join lhs rhs

/-- `compoundResult`: the type of a compound assignment, by the operator it stands for. -/
def compoundResult (plainOp : BinaryOp) (current rhs : Ty) : Ty :=
  if plainOp = .logicalOr then logicalOrResult current rhs
  else if plainOp = .nullishCoalescing then nullishCoalescingResult current rhs
  else if plainOp = .logicalAnd then join current rhs
  else if isAlwaysNumericOp plainOp then numericOrDynamic current rhs
  else arithResult plainOp current rhs

section Tests

variable {R : Realm} {W : World R} {t l r : Ty} {v w p u : Value R.toCarriers}

open Value

/-- A type that holds a value is not `never`. -/
theorem not_never (h : v ∈ t.denote W) : t.is .never = false := by
  cases t with
  | never => exact h.elim
  | _ => rfl

/-- A value whose type cannot be a BigInt does not reach a numeric operator as one. -/
theorem toNumeric_isNeverBigInt (h : isNeverBigInt t = true) (hv : v ∈ t.denote W) {i : Int} :
    ¬ToNumeric v (.bigint i) := by
  have primitive : ∀ {p}, ToPrimitive v p → p = v := by
    intro p hp
    cases hp with
    | primitive => rfl
    | object => cases t <;> simp_all [isNeverBigInt, kind, denote, numbers]
  rintro ⟨hp⟩
  obtain rfl := primitive hp
  cases t <;> simp_all [isNeverBigInt, kind, denote, numbers]

/-- A value of a numeric primitive type converts to itself, and is no string. -/
theorem toPrimitive_isNumericPrimitive (h : isNumericPrimitive t = true) (hv : v ∈ t.denote W)
    (hp : ToPrimitive v p) : p = v ∧ ∀ s, p ≠ .string s := by
  cases hp with
  | primitive =>
    refine ⟨rfl, ?_⟩
    rintro s rfl
    cases t <;> simp_all [isNumericPrimitive, kind, denote, numbers]
  | object => cases t <;> simp_all [isNumericPrimitive, kind, denote, numbers]

theorem isNeverBigInt_of_isNumericPrimitive (h : isNumericPrimitive t = true) :
    isNeverBigInt t = true := by
  cases t <;> simp_all [isNumericPrimitive, isNeverBigInt, kind]

/-- The kind of strings has one type. -/
theorem is_string (h : t.is .string = true) : t = .string := by
  cases t <;> simp_all [is, kind]

/-- The kind of numbers has one type. -/
theorem is_number (h : t.is .number = true) : t = .number := by
  cases t <;> simp_all [is, kind]

/-- Both operands of one numeric type: a number, unless neither operand rules the BigInt out. -/
theorem numericOrDynamic_sound {op : BinaryOp} (hv : v ∈ l.denote W) (hw : w ∈ r.denote W)
    (h : EvalNumeric op v w u) : u ∈ (numericOrDynamic l r).denote W := by
  simp only [numericOrDynamic, not_never hv, not_never hw, Bool.or_self, Bool.false_eq_true,
    if_false]
  split_ifs with hnever
  · cases h with
    | number hm hn => exact ⟨_, rfl⟩
    | bigint hi hj =>
      rcases Bool.or_eq_true_iff.mp hnever with hl | hr
      · exact absurd hi (toNumeric_isNeverBigInt hl hv)
      · exact absurd hj (toNumeric_isNeverBigInt hr hw)
  · trivial

/-- A join holds the values of its left type. -/
theorem join_sound_left (hv : v ∈ l.denote W) : v ∈ (join l r).denote W :=
  denote_mono (le_join l r).1 hv

/-- A join holds the values of its right type. -/
theorem join_sound_right (hw : w ∈ r.denote W) : w ∈ (join l r).denote W :=
  denote_mono (le_join l r).2 hw

end Tests

/-! ## Soundness -/

section Soundness

variable {R : Realm} (W : World R) {t l r : Ty} {v w u : Value R.toCarriers}

open Value

variable {W}

/-- An operand that has a value leaves the result of `withBottom` as it is. -/
theorem withBottom_of_mem (hv : v ∈ t.denote W) (result : Ty) : withBottom t result = result := by
  simp [withBottom, not_never hv]

/-- The four updates share one rule. -/
theorem update_sound {base : BinaryOp} {after : Bool} {op : UnaryOp}
    (hop : updateOp op = some (base, after)) :
    unaryResult op t = if isNeverBigInt t then .number else .dynamic := by
  cases op <;> simp_all [updateOp, unaryResult]

/-- **The unary operators.** -/
theorem unaryResult_sound {op : UnaryOp} (hv : v ∈ t.denote W) (h : EvalUnary op v u) :
    u ∈ (unaryResult op t).denote W := by
  cases h with
  | not =>
    rw [unaryResult, withBottom_of_mem hv]
    exact ⟨_, rfl⟩
  | posate =>
    rw [unaryResult, withBottom_of_mem hv]
    exact ⟨_, rfl⟩
  | negateNumber | bitNotNumber =>
    simp only [unaryResult, numericOrDynamic, not_never hv, Bool.or_self, Bool.false_eq_true,
      if_false]
    split_ifs
    · exact ⟨_, rfl⟩
    · trivial
  | negateBigint h | bitNotBigint h =>
    simp only [unaryResult, numericOrDynamic, not_never hv, Bool.or_self, Bool.false_eq_true,
      if_false]
    split_ifs with hnever
    · exact absurd h (toNumeric_isNeverBigInt hnever hv)
    · trivial
  | typeOf =>
    rw [unaryResult, withBottom_of_mem hv]
    exact ⟨_, rfl⟩
  | void =>
    rw [unaryResult, withBottom_of_mem hv]
    rfl
  | delete => exact ⟨_, rfl⟩
  | updateNumber hop h =>
    rw [update_sound hop]
    by_cases hnever : isNeverBigInt t = true
    · rw [if_pos hnever]
      exact ⟨_, rfl⟩
    · rw [if_neg hnever]
      trivial
  | updateBigint hop h =>
    rw [update_sound hop]
    by_cases hnever : isNeverBigInt t = true
    · exact absurd h (toNumeric_isNeverBigInt hnever hv)
    · rw [if_neg hnever]
      trivial

/-- `+` concatenates only where a string can arrive. -/
theorem arithResult_add_sound (hv : v ∈ l.denote W) (hw : w ∈ r.denote W)
    (h : EvalBinary .add v w u) : u ∈ (arithResult .add l r).denote W := by
  simp only [arithResult, not_never hv, not_never hw, Bool.or_self, Bool.false_eq_true, if_false,
    ne_eq, not_true_eq_false]
  cases h with
  | numeric hop => simp [BinaryOp.IsNumeric] at hop
  | predicate _ _ _ hop => simp [BinaryOp.IsPredicate] at hop
  | concat hp hq hstring =>
    split_ifs with hs hn
    · exact ⟨_, rfl⟩
    · rw [Bool.and_eq_true] at hn
      rcases hstring with ⟨x, rfl⟩ | ⟨x, rfl⟩
      · exact absurd rfl ((toPrimitive_isNumericPrimitive hn.1 hv hp).2 x)
      · exact absurd rfl ((toPrimitive_isNumericPrimitive hn.2 hw hq).2 x)
    · trivial
  | add hp hq hps hqs h =>
    split_ifs with hs hn
    · -- a string operand is its own primitive, and the rule excludes it
      rcases Bool.or_eq_true_iff.mp hs with hl | hr
      · obtain rfl := is_string hl
        obtain ⟨x, rfl⟩ := hv
        cases hp
        exact absurd rfl (hps x)
      · obtain rfl := is_string hr
        obtain ⟨x, rfl⟩ := hw
        cases hq
        exact absurd rfl (hqs x)
    · rw [Bool.and_eq_true] at hn
      obtain rfl := (toPrimitive_isNumericPrimitive hn.1 hv hp).1
      cases h with
      | number => exact ⟨_, rfl⟩
      | bigint hi =>
        exact absurd hi (toNumeric_isNeverBigInt (isNeverBigInt_of_isNumericPrimitive hn.1) hv)
    · trivial

variable {op : BinaryOp}

/-- **The binary operators** that evaluate both operands. -/
theorem binaryResult_sound (hv : v ∈ l.denote W) (hw : w ∈ r.denote W)
    (h : EvalBinary op v w u) : u ∈ (binaryResult op l r).denote W := by
  cases h with
  | numeric hop h =>
    have hsound := numericOrDynamic_sound hv hw h
    simp only [BinaryOp.IsNumeric, List.mem_cons, List.not_mem_nil, or_false] at hop
    rcases hop with rfl | rfl | rfl | rfl | rfl | rfl | rfl | rfl | rfl | rfl | rfl <;>
      simpa [binaryResult, isAlwaysNumericOp, arithResult, not_never hv, not_never hw] using hsound
  | concat hp hq hstring hs ht =>
    exact arithResult_add_sound hv hw (.concat hp hq hstring hs ht)
  | add hp hq hps hqs h => exact arithResult_add_sound hv hw (.add hp hq hps hqs h)
  | predicate _ _ b hop =>
    have hsound : boolean b ∈ (withBottom₂ l r .boolean).denote W := by
      simp only [withBottom₂, not_never hv, not_never hw]
      exact ⟨b, rfl⟩
    simp only [BinaryOp.IsPredicate, List.mem_cons, List.not_mem_nil, or_false] at hop
    rcases hop with rfl | rfl | rfl | rfl | rfl | rfl | rfl | rfl | rfl | rfl <;> exact hsound
  | comma => exact hw

theorem binaryResult_assign (h : EvalAssign op v w u) : binaryResult op l r = .dynamic := by
  rcases h with ⟨rfl, -⟩ | ⟨h, -⟩
  · rfl
  · cases op <;> first | rfl | simp [isCompoundAssignOp, compoundAssignBase] at h

/-- **`&&`** is one of its operands. -/
theorem logicalAnd_sound (hv : v ∈ l.denote W) (hw : w ∈ r.denote W) :
    logicalAnd v w ∈ (join l r).denote W := by
  unfold logicalAnd
  split_ifs
  · exact join_sound_right hw
  · exact join_sound_left hv

/-- **`||`**: a falsy left operand gives way to the right one. -/
theorem logicalOrResult_sound (hv : v ∈ l.denote W) (hw : w ∈ r.denote W) :
    logicalOr v w ∈ (logicalOrResult l r).denote W := by
  simp only [logicalOrResult, not_never hv, not_never hw, Bool.or_self, Bool.false_eq_true,
    if_false]
  split_ifs with hnullish hnumber
  · rcases Bool.or_eq_true_iff.mp hnullish with h | h
    · cases l <;> simp_all [is, kind, denote, logicalOr, toBoolean]
    · cases l <;> simp_all [is, kind, denote, logicalOr, toBoolean]
  · rw [Bool.and_eq_true, Bool.or_eq_true] at hnumber
    obtain rfl := is_number hnumber.2
    have hv' : v ∈ numbers ∨ v = .undefined := by
      rcases hnumber.1 with h | h
      · obtain rfl := is_number h
        exact .inl hv
      · rw [isDynamicNumOrUndef, decide_eq_true_eq] at h
        subst h
        exact hv
    unfold logicalOr
    rcases hv' with hv' | rfl
    · split_ifs
      · exact hv'
      · exact hw
    · exact hw
  · unfold logicalOr
    split_ifs
    · exact join_sound_left hv
    · exact join_sound_right hw

/-- A type of a kind that holds neither `undefined` nor `null`. -/
theorem not_nullish (h : l.is .number || l.is .string || l.is .bool || l.is .object ||
      l.is .array || l.is .typedArray || l.is .function) (hv : v ∈ l.denote W) :
    v.isNullish = false := by
  cases l with
  | number | boolean | string =>
    obtain ⟨x, rfl⟩ := hv
    rfl
  | object | function | array =>
    obtain ⟨o, rfl, -⟩ := hv
    rfl
  | typedArray e =>
    cases e with
    | none =>
      obtain ⟨o, e, rfl, -⟩ := hv
      rfl
    | some e =>
      obtain ⟨o, rfl, -⟩ := hv
      rfl
  | _ => simp [is, kind] at h

/-- **`??`**: a left operand that is `undefined` or `null` gives way to the right one. -/
theorem nullishCoalescingResult_sound (hv : v ∈ l.denote W) (hw : w ∈ r.denote W) :
    nullishCoalescing v w ∈ (nullishCoalescingResult l r).denote W := by
  simp only [nullishCoalescingResult, not_never hv, not_never hw, Bool.or_self,
    Bool.false_eq_true, if_false]
  split_ifs with hnullish hkind hnumber
  · rcases Bool.or_eq_true_iff.mp hnullish with h | h
    · cases l <;> simp_all [is, kind, denote, nullishCoalescing, isNullish]
    · cases l <;> simp_all [is, kind, denote, nullishCoalescing, isNullish]
  · rw [nullishCoalescing, not_nullish hkind hv]
    exact hv
  · rw [Bool.and_eq_true, isDynamicNumOrUndef, decide_eq_true_eq] at hnumber
    obtain ⟨rfl, hr⟩ := hnumber
    obtain rfl := is_number hr
    rcases hv with ⟨n, rfl⟩ | rfl
    · exact ⟨n, rfl⟩
    · exact hw
  · unfold nullishCoalescing
    split_ifs
    · exact join_sound_right hw
    · exact join_sound_left hv

/-- **The compound assignments**, at the current value of their target. -/
theorem compoundResult_sound (hop : isCompoundAssignOp op) (hv : v ∈ l.denote W)
    (hw : w ∈ r.denote W) (h : EvalCompound (compoundAssignBase op) v w u) :
    u ∈ (compoundResult (compoundAssignBase op) l r).denote W := by
  have binary : ∀ base, EvalBinary base v w u → u ∈ (binaryResult base l r).denote W :=
    fun _ => binaryResult_sound hv hw
  cases op with
  | logicalAndAssign =>
    cases h
    exact logicalAnd_sound hv hw
  | logicalOrAssign =>
    cases h
    exact logicalOrResult_sound hv hw
  | nullishAssign =>
    cases h
    exact nullishCoalescingResult_sound hv hw
  | plusAssign | minusAssign | starAssign | slashAssign | percentAssign | ampAssign | pipeAssign
  | caretAssign | shlAssign | shrAssign | uShrAssign | expAssign => exact binary _ h
  | _ => simp [isCompoundAssignOp, compoundAssignBase] at hop

end Soundness

/-- **The typing of operators is sound.** The value an operator completes with is one of the
values of its result type; so a `number` is never the type of a BigInt, a string or
`undefined`. -/
theorem operator_typing_sound {R : Realm} (W : World R) :
    (∀ op t (v u : Value R.toCarriers), v ∈ t.denote W → EvalUnary op v u →
      u ∈ (unaryResult op t).denote W) ∧
    (∀ op l r (v w u : Value R.toCarriers), v ∈ l.denote W → w ∈ r.denote W →
      EvalBinary op v w u ∨ EvalAssign op v w u → u ∈ (binaryResult op l r).denote W) ∧
    (∀ op l r (v w u : Value R.toCarriers), isCompoundAssignOp op → v ∈ l.denote W →
      w ∈ r.denote W → EvalCompound (compoundAssignBase op) v w u →
      u ∈ (compoundResult (compoundAssignBase op) l r).denote W) ∧
    (∀ l r (v w : Value R.toCarriers), v ∈ l.denote W → w ∈ r.denote W →
      logicalOr v w ∈ (logicalOrResult l r).denote W ∧
      nullishCoalescing v w ∈ (nullishCoalescingResult l r).denote W) ∧
    (∀ u, u ∈ Ty.number.denote W →
      (∀ i, u ≠ .bigint i) ∧ (∀ s, u ≠ .string s) ∧ u ≠ .undefined) := by
  refine ⟨fun _ _ _ _ => unaryResult_sound, ?_, fun _ _ _ _ _ _ => compoundResult_sound,
    fun _ _ _ _ hv hw => ⟨logicalOrResult_sound hv hw, nullishCoalescingResult_sound hv hw⟩, ?_⟩
  · rintro op l r v w u hv hw (h | h)
    · exact binaryResult_sound hv hw h
    · rw [binaryResult_assign h]
      trivial
  · rintro u ⟨n, rfl⟩
    simp

/-- Doubles, as far as the four operations; no object but ordinary ones. -/
def doubles : Realm where
  Number := Float
  SymbolId := Nat
  ObjectId := Nat
  kindOf _ := .ordinary
  nan := 0 / 0
  zero := 0
  one := 1
  isFalsy x := x == 0 || x.isNaN
  stringToNumber s := if s = [] then 0 else 0 / 0
  numberToString x := ascii (toString x)
  bigintToString i := ascii (toString i)
  numberNegate x := -x
  numberBitNot x := -x - 1
  numberOp
    | .add, x, y => x + y
    | .sub, x, y => x - y
    | .mul, x, y => x * y
    | .div, x, y => x / y
    | _, _, _ => 0 / 0
  bigintOp
    | .add, i, j => some (i + j)
    | .sub, i, j => some (i - j)
    | .mul, i, j => some (i * j)
    | _, _, _ => none

/-- A world in which nothing was made and nothing is known to return. -/
def idle : World doubles where
  madeBy _ _ := False
  returns _ _ := True
  moduleReturns _ _ := False
  element _ _ := True

/-- `undefined + 1`, and an object that converts to `"0"` against the string `"1"`. -/
theorem operator_typing_sound_add :
    Value.number (C := doubles.toCarriers) (0 / 0 + 1 : Float) ∈
        (binaryResult .add .undefined .number).denote idle ∧
      Value.string (ascii "01") ∈ (binaryResult .add (.object none) .string).denote idle := by
  refine ⟨(operator_typing_sound idle).2.1 .add .undefined .number .undefined
    (.number (1 : Float)) _ rfl ⟨_, rfl⟩ (.inl ?_), (operator_typing_sound idle).2.1 .add
    (.object none) .string (.object (0 : Nat)) (.string (ascii "1")) _
    ⟨(0 : Nat), rfl, rfl, trivial⟩ ⟨_, rfl⟩ (.inl ?_)⟩
  · have hv : Value.ToPrimitive (R := doubles) .undefined .undefined := .primitive trivial
    have hw : Value.ToPrimitive (R := doubles) (.number (1 : Float)) (.number (1 : Float)) :=
      .primitive trivial
    exact .add hv hw (by simp) (by simp) (.number (.number ⟨_, hv, rfl⟩) (.number ⟨_, hw, rfl⟩))
  · have hw : Value.ToPrimitive (R := doubles) (.string (ascii "1")) (.string (ascii "1")) :=
      .primitive trivial
    exact .concat (.object (p := .string (ascii "0")) trivial) hw (.inl ⟨_, rfl⟩) rfl rfl

end Bronze.Types
