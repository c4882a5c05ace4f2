import Bronze.Types.Lattice

/-!
# Evaluating an operator

The operators of `src/ast/ast.h` and the values they produce, after ECMA-262. An operator is
evaluated on values by a relation that holds of its normal completions only: an operator that
throws relates its operands to no value. What no typing rule looks at stays open: the arithmetic
of numbers is a field of the `Realm`, a comparison may give either answer, and an object may
convert to any primitive.

The second half gives the types of the lattice their values.

## Main results

* `denote_mono`: a larger type stands for more values
-/

namespace Bronze

namespace Ast

inductive UnaryOp where
  | not | negate | posate | preInc | preDec | postInc | postDec | bitNot | typeOf | void | delete
  deriving DecidableEq, Repr

inductive BinaryOp where
  | add | sub | mul | div | mod | less | greater | lessEqual | greaterEqual
  | eq | strictEq | ne | strictNe | assign | plusAssign | minusAssign
  | starAssign | slashAssign | percentAssign | logicalAnd | logicalOr | nullishCoalescing
  | bitAnd | bitOr | bitXor | shl | shr | uShr | exp | in | instanceOf | comma
  | ampAssign | pipeAssign | caretAssign | shlAssign | shrAssign | uShrAssign | expAssign
  | logicalAndAssign | logicalOrAssign | nullishAssign
  deriving DecidableEq, Repr

/-- `compoundAssignBase`: the plain operator a compound assignment applies. -/
def compoundAssignBase : BinaryOp → BinaryOp
  | .plusAssign => .add
  | .minusAssign => .sub
  | .starAssign => .mul
  | .slashAssign => .div
  | .percentAssign => .mod
  | .ampAssign => .bitAnd
  | .pipeAssign => .bitOr
  | .caretAssign => .bitXor
  | .shlAssign => .shl
  | .shrAssign => .shr
  | .uShrAssign => .uShr
  | .expAssign => .exp
  | .logicalAndAssign => .logicalAnd
  | .logicalOrAssign => .logicalOr
  | .nullishAssign => .nullishCoalescing
  | op => op

def isCompoundAssignOp (op : BinaryOp) : Bool := compoundAssignBase op ≠ op

/-- The operators whose only coercion is ToNumeric. -/
def BinaryOp.IsNumeric (op : BinaryOp) : Prop :=
  op ∈ [BinaryOp.sub, .mul, .div, .mod, .bitAnd, .bitOr, .bitXor, .shl, .shr, .uShr, .exp]

/-- The operators that answer a boolean. -/
def BinaryOp.IsPredicate (op : BinaryOp) : Prop :=
  op ∈ [BinaryOp.less, .greater, .lessEqual, .greaterEqual, .eq, .strictEq, .ne, .strictNe, .in,
    .instanceOf]

/-- 13.4, the update expressions: the operator applied, and whether the value is the one after
the update. -/
def updateOp : UnaryOp → Option (BinaryOp × Bool)
  | .preInc => some (.add, true)
  | .preDec => some (.sub, true)
  | .postInc => some (.add, false)
  | .postDec => some (.sub, false)
  | _ => none

end Ast

namespace Types

open Ast

/-! ## Values -/

/-- The kinds of object the lattice tells apart. -/
inductive ObjectKind where
  | ordinary | function | typedArray (elem : TypedArrayElem) | array
  deriving DecidableEq

/-- The text of a string value, in UTF-16 code units. -/
abbrev Text := List UInt16

def ascii (s : String) : Text := s.toList.map fun c => c.toNat.toUInt16

/-- The carriers of the values that are not spelled out. -/
structure Carriers where
  Number : Type
  SymbolId : Type
  ObjectId : Type
  kindOf : ObjectId → ObjectKind

/-- An ECMA-262 language value. -/
inductive Value (C : Carriers) where
  | undefined
  | null
  | boolean (b : Bool)
  | number (n : C.Number)
  | bigint (i : Int)
  | string (s : Text)
  | symbol (s : C.SymbolId)
  | object (o : C.ObjectId)

/-- The arithmetic the operators run over; `none` is a throw. -/
structure Realm extends Carriers where
  nan : Number
  zero : Number
  one : Number
  isFalsy : Number → Bool
  stringToNumber : Text → Number
  numberToString : Number → Text
  bigintToString : Int → Text
  numberNegate : Number → Number
  numberBitNot : Number → Number
  numberOp : BinaryOp → Number → Number → Number
  bigintOp : BinaryOp → Int → Int → Option Int

variable {R : Realm}

namespace Value

def IsPrimitive : Value R.toCarriers → Prop
  | object _ => False
  | _ => True

def isNullish : Value R.toCarriers → Bool
  | undefined | null => true
  | _ => false

/-- 7.1.2 ToBoolean. -/
def toBoolean : Value R.toCarriers → Bool
  | undefined | null => false
  | boolean b => b
  | number n => !R.isFalsy n
  | bigint i => i ≠ 0
  | string s => s ≠ []
  | symbol _ | object _ => true

/-- 7.1.1 ToPrimitive; an object may convert to any primitive. -/
inductive ToPrimitive : Value R.toCarriers → Value R.toCarriers → Prop
  | primitive {v : Value R.toCarriers} (h : v.IsPrimitive) : ToPrimitive v v
  | object {o : R.ObjectId} {p : Value R.toCarriers} (h : p.IsPrimitive) :
    ToPrimitive (object o) p

/-- 7.1.4 ToNumber of a primitive; a symbol and a BigInt throw. -/
def primitiveToNumber : Value R.toCarriers → Option R.Number
  | undefined => some R.nan
  | null => some R.zero
  | boolean b => some (if b then R.one else R.zero)
  | number n => some n
  | string s => some (R.stringToNumber s)
  | _ => none

/-- 7.1.17 ToString of a primitive; a symbol throws. -/
def primitiveToString : Value R.toCarriers → Option Text
  | undefined => some (ascii "undefined")
  | null => some (ascii "null")
  | boolean b => some (ascii (if b then "true" else "false"))
  | number n => some (R.numberToString n)
  | bigint i => some (R.bigintToString i)
  | string s => some s
  | _ => none

/-- 13.5.3 The typeof operator. -/
def typeOf : Value R.toCarriers → Text
  | undefined => ascii "undefined"
  | null => ascii "object"
  | boolean _ => ascii "boolean"
  | number _ => ascii "number"
  | bigint _ => ascii "bigint"
  | string _ => ascii "string"
  | symbol _ => ascii "symbol"
  | object o => if R.kindOf o = .function then ascii "function" else ascii "object"

/-- 7.1.4 ToNumber. -/
def ToNumber (v : Value R.toCarriers) (n : R.Number) : Prop :=
  ∃ p, ToPrimitive v p ∧ p.primitiveToNumber = some n

/-- 7.1.3 ToNumeric: the result is a number or a BigInt. -/
inductive ToNumeric (v : Value R.toCarriers) : Value R.toCarriers → Prop
  | bigint {i : Int} (h : ToPrimitive v (bigint i)) : ToNumeric v (bigint i)
  | number {n : R.Number} (h : ToNumber v n) : ToNumeric v (number n)

end Value

open Value Set

/-- 13.15.3 steps 3 to 5: both operands are of one numeric type, or the operator throws. -/
inductive EvalNumeric (op : BinaryOp) (v w : Value R.toCarriers) : Value R.toCarriers → Prop
  | number {m n : R.Number} (hv : ToNumeric v (number m)) (hw : ToNumeric w (number n)) :
    EvalNumeric op v w (number (R.numberOp op m n))
  | bigint {i j k : Int} (hv : ToNumeric v (bigint i)) (hw : ToNumeric w (bigint j))
    (h : R.bigintOp op i j = some k) : EvalNumeric op v w (bigint k)

/-- A unary operator completes normally on `v` with a value. -/
inductive EvalUnary : UnaryOp → Value R.toCarriers → Value R.toCarriers → Prop
  | not (v : Value R.toCarriers) : EvalUnary .not v (boolean (!v.toBoolean))
  | posate {v : Value R.toCarriers} {n : R.Number} (h : ToNumber v n) :
    EvalUnary .posate v (number n)
  | negateNumber {v : Value R.toCarriers} {n : R.Number} (h : ToNumeric v (number n)) :
    EvalUnary .negate v (number (R.numberNegate n))
  | negateBigint {v : Value R.toCarriers} {i : Int} (h : ToNumeric v (bigint i)) :
    EvalUnary .negate v (bigint (-i))
  | bitNotNumber {v : Value R.toCarriers} {n : R.Number} (h : ToNumeric v (number n)) :
    EvalUnary .bitNot v (number (R.numberBitNot n))
  | bitNotBigint {v : Value R.toCarriers} {i : Int} (h : ToNumeric v (bigint i)) :
    EvalUnary .bitNot v (bigint (-i - 1))
  | typeOf (v : Value R.toCarriers) : EvalUnary .typeOf v (string v.typeOf)
  | void (v : Value R.toCarriers) : EvalUnary .void v undefined
  | delete (v : Value R.toCarriers) (b : Bool) : EvalUnary .delete v (boolean b)
  | updateNumber {op : UnaryOp} {base : BinaryOp} {after : Bool} {v : Value R.toCarriers}
    {n : R.Number} (hop : updateOp op = some (base, after)) (h : ToNumeric v (number n)) :
    EvalUnary op v (number (if after then R.numberOp base n R.one else n))
  | updateBigint {op : UnaryOp} {base : BinaryOp} {after : Bool} {v : Value R.toCarriers}
    {i j : Int} (hop : updateOp op = some (base, after)) (h : ToNumeric v (bigint i))
    (hj : R.bigintOp base i 1 = some j) :
    EvalUnary op v (bigint (if after then j else i))

/-- A binary operator that evaluates both operands, and writes neither, completes normally on `v`
and `w` with a value. -/
inductive EvalBinary : BinaryOp → Value R.toCarriers → Value R.toCarriers → Value R.toCarriers →
    Prop
  | numeric {op : BinaryOp} {v w u : Value R.toCarriers} (hop : op.IsNumeric)
    (h : EvalNumeric op v w u) : EvalBinary op v w u
  | concat {v w p q : Value R.toCarriers} {s t : Text} (hv : ToPrimitive v p)
    (hw : ToPrimitive w q) (hstring : (∃ x, p = string x) ∨ ∃ x, q = string x)
    (hs : p.primitiveToString = some s) (ht : q.primitiveToString = some t) :
    EvalBinary .add v w (string (s ++ t))
  | add {v w p q u : Value R.toCarriers} (hv : ToPrimitive v p) (hw : ToPrimitive w q)
    (hp : ∀ x, p ≠ string x) (hq : ∀ x, q ≠ string x) (h : EvalNumeric .add p q u) :
    EvalBinary .add v w u
  | predicate {op : BinaryOp} (v w : Value R.toCarriers) (b : Bool)
    (hop : op.IsPredicate) : EvalBinary op v w (boolean b)
  | comma (v w : Value R.toCarriers) : EvalBinary .comma v w w

def logicalOr (v w : Value R.toCarriers) : Value R.toCarriers := if v.toBoolean then v else w

def logicalAnd (v w : Value R.toCarriers) : Value R.toCarriers := if v.toBoolean then w else v

def nullishCoalescing (v w : Value R.toCarriers) : Value R.toCarriers :=
  if v.isNullish then w else v

/-- A compound assignment of `base` completes normally at the current value `v` of its target. -/
def EvalCompound (base : BinaryOp) (v w u : Value R.toCarriers) : Prop :=
  match base with
  | .logicalOr => u = logicalOr v w
  | .logicalAnd => u = logicalAnd v w
  | .nullishCoalescing => u = nullishCoalescing v w
  | _ => EvalBinary base v w u

/-- An assignment completes normally at the current value `v` of its target. -/
def EvalAssign (op : BinaryOp) (v w u : Value R.toCarriers) : Prop :=
  op = .assign ∧ u = w ∨ isCompoundAssignOp op ∧ EvalCompound (compoundAssignBase op) v w u

/-- The facts about objects that the payloads of the lattice speak of. -/
structure World (R : Realm) where
  /-- The object was made by this program as an instance of the class. -/
  madeBy : R.ObjectId → ShapeClassId → Prop
  /-- The value is one the function object may return. -/
  returns : R.ObjectId → Value R.toCarriers → Prop
  /-- The value is one the function of the module may return. -/
  moduleReturns : Fin 0xFFFFFFFD → Value R.toCarriers → Prop
  /-- The value is an element of the array object; `undefined` where it has a hole. -/
  element : R.ObjectId → Value R.toCarriers → Prop

variable {W : World R}

def numbers : Set (Value R.toCarriers) := {v | ∃ n, v = number n}

def FunctionPayload.allowed (W : World R) : FunctionPayload → Set (Value R.toCarriers)
  | unknown => Set.univ
  | index i => {v | W.moduleReturns i v}
  | returnsNever => ∅
  | returnsNumber => numbers

def ArrayPayload.allowed (W : World R) : ArrayPayload → Set (Value R.toCarriers)
  | plain => Set.univ
  | pinned => numbers
  | elemNever => ∅
  | elemClass cls => {v | ∃ o, v = object o ∧ R.kindOf o = .ordinary ∧
      W.madeBy o (cls.castLE (by decide))}

/-- What an identity claims of an ordinary object. A guessed identity, checked by a shape guard
where it is spent, claims nothing. -/
def IdentityHolds (W : World R) : Option (ShapeClassId × Provenance) → R.ObjectId → Prop
  | some (cls, .builtHere), o => W.madeBy o cls
  | _, _ => True

/-- The values a type stands for. -/
def Ty.denote (W : World R) : Ty → Set (Value R.toCarriers)
  | .never => ∅
  | .number => numbers
  | .boolean => {v | ∃ b, v = .boolean b}
  | .string => {v | ∃ s, v = .string s}
  | .undefined => {.undefined}
  | .null => {.null}
  | .object i => {v | ∃ o, v = .object o ∧ R.kindOf o = .ordinary ∧ IdentityHolds W i o}
  | .function p =>
    {v | ∃ o, v = .object o ∧ R.kindOf o = .function ∧ {x | W.returns o x} ⊆ p.allowed W}
  | .typedArray none => {v | ∃ o e, v = .object o ∧ R.kindOf o = .typedArray e}
  | .typedArray (some e) => {v | ∃ o, v = .object o ∧ R.kindOf o = .typedArray e}
  | .array p =>
    {v | ∃ o, v = .object o ∧ R.kindOf o = .array ∧ {x | W.element o x} ⊆ p.allowed W}
  | .dynamic => Set.univ
  | .dynamicNumOrUndef => numbers ∪ {.undefined}

theorem FunctionPayload.allowed_mono {p q : FunctionPayload}
    (h : FlatLe (some .returnsNever) .unknown p q) : p.allowed W ⊆ q.allowed W := by
  rcases h with rfl | h | rfl
  · exact subset_rfl
  · cases h
    exact empty_subset _
  · exact subset_univ _

theorem ArrayPayload.allowed_mono {p q : ArrayPayload}
    (h : FlatLe (some .elemNever) .plain p q) : p.allowed W ⊆ q.allowed W := by
  rcases h with rfl | h | rfl
  · exact subset_rfl
  · cases h
    exact empty_subset _
  · exact subset_univ _

theorem IdentityHolds.mono {i j : Option (ShapeClassId × Provenance)} (h : IdentityLe i j)
    {o : R.ObjectId} (hi : IdentityHolds W i o) : IdentityHolds W j o := by
  rcases j with - | ⟨d, - | - | -⟩
  · trivial
  · rcases i with - | ⟨c, - | - | -⟩
    · exact h.elim
    · obtain ⟨rfl, -⟩ := h
      exact hi
    · exact absurd h.2 (by decide)
    · exact absurd h.2 (by decide)
  · trivial
  · trivial

theorem denote_mono {a b : Ty} (h : a ≤ b) : a.denote W ⊆ b.denote W := by
  cases h with
  | refl => exact subset_rfl
  | never => exact empty_subset _
  | dynamic => exact subset_univ _
  | number => exact subset_union_left
  | undefined => exact subset_union_right
  | object h =>
    rintro v ⟨o, rfl, hk, hi⟩
    exact ⟨o, rfl, hk, hi.mono h⟩
  | function h =>
    rintro v ⟨o, rfl, hk, hp⟩
    exact ⟨o, rfl, hk, hp.trans (FunctionPayload.allowed_mono h)⟩
  | @typedArray p q h =>
    rcases h with rfl | h | rfl
    · exact subset_rfl
    · cases h
    · rcases p with - | e
      · exact subset_rfl
      · rintro v ⟨o, rfl, hk⟩
        exact ⟨o, e, rfl, hk⟩
  | array h =>
    rintro v ⟨o, rfl, hk, hp⟩
    exact ⟨o, rfl, hk, hp.trans (ArrayPayload.allowed_mono h)⟩

end Types

end Bronze
