import Mathlib

/-!
# The inference lattice

The types of `src/types/type.h` and the two joins of `src/types/type.cpp`. A `Type` packs a kind,
a payload word and two flags behind a private constructor; here each factory is a constructor,
so that only the combinations the factories build exist, and a payload word that the source
compares with a sentinel is the constructor of that sentinel.

`joinParam` is the least upper bound of an order on types, which makes it a semilattice join.
`join` is `joinParam` except on `number` and `undefined`, which it sends to the top: the flat
lattice of the source has no `number | undefined`, and the rung that holds one is only entered
through a parameter.

## Main results

* the `SemilatticeSup` instance: `joinParam` is a least upper bound
* `join_eq`: `join` is the least upper bound off `number` and `undefined`
* `join_assoc_iff`: exactly when `join` is associative
-/

namespace Bronze.Types

open List

/-- `TypeKind`. -/
inductive TypeKind where
  | never | number | bool | string | undefined | null | object | function | typedArray | array
  | dynamic
  deriving DecidableEq, Repr

/-- `TypedArrayElem`: the element types of the typed arrays. -/
inductive TypedArrayElem where
  | int8 | uint8 | uint8Clamped | int16 | uint16 | int32 | uint32 | float32 | float64
  deriving DecidableEq, Repr

/-- A class identity, below `kNoShapeClass`. -/
abbrev ShapeClassId := Fin 0xFFFFFFFF

/-- How well an object identity is known: the `identityOnly_` and `builtHere_` flags. -/
inductive Provenance where
  /-- `object(C)`: this program was watched making the object. -/
  | builtHere
  /-- `objectNotBuiltHere(C)`: reached without watching it be made. -/
  | notBuiltHere
  /-- `objectIdentityOnly(C)`: guessed by joining over the call sites. -/
  | identityOnly
  deriving DecidableEq, Repr

/-- The payload word of a function: its index, or what is known of what it returns. -/
inductive FunctionPayload where
  /-- `kNoFunctionIndex`. -/
  | unknown
  | index (i : Fin 0xFFFFFFFD)
  /-- `kClosureReturnsNever`. -/
  | returnsNever
  /-- `kClosureReturnsNumber`. -/
  | returnsNumber
  deriving DecidableEq, Repr

/-- The payload word of an array: what is known of its elements. -/
inductive ArrayPayload where
  /-- `kNoPayload`. -/
  | plain
  /-- `kPinnedElements`: every element a number, every index in bounds. -/
  | pinned
  /-- `kArrayElemNever`: no element seen yet. -/
  | elemNever
  /-- `kArrayElemClassTag | cls`. -/
  | elemClass (cls : Fin 0x7FFFFFFF)
  deriving DecidableEq, Repr

/-- `Type`: a constructor for each factory. -/
inductive Ty where
  | never | number | boolean | string | undefined | null
  | object (identity : Option (ShapeClassId × Provenance))
  | function (payload : FunctionPayload)
  | typedArray (elem : Option TypedArrayElem)
  | array (payload : ArrayPayload)
  | dynamic
  /-- The `Dynamic` with payload `kDynamicNumOrUndef`: a number or `undefined`. -/
  | dynamicNumOrUndef
  deriving DecidableEq, Repr

namespace Ty

/-- `Type::kind`. -/
def kind : Ty → TypeKind
  | never => .never
  | number => .number
  | boolean => .bool
  | string => .string
  | undefined => .undefined
  | null => .null
  | object _ => .object
  | function _ => .function
  | typedArray _ => .typedArray
  | array _ => .array
  | dynamic | dynamicNumOrUndef => .dynamic

/-- `Type::is`. -/
def is (t : Ty) (k : TypeKind) : Bool := t.kind = k

/-- `Type::shapeClass`; `none` is `kNoShapeClass`. -/
def shapeClass : Ty → Option ShapeClassId
  | object identity => identity.map Prod.fst
  | _ => none

/-- `Type::identityOnly`: the identity is a guess. -/
def identityOnly : Ty → Bool
  | object (some (_, .identityOnly)) => true
  | _ => false

/-- `Type::builtHere`: the object was watched being made. -/
def builtHere : Ty → Bool
  | object none => true
  | object (some (_, .builtHere)) => true
  | _ => false

/-- `Type::functionReturnsNever`. -/
def functionReturnsNever (t : Ty) : Bool := t = function .returnsNever

/-- `Type::arrayElementsUndecided`: an array literal without elements. -/
def arrayElementsUndecided (t : Ty) : Bool := t = array .elemNever

/-- `Type::isDynamicNumOrUndef`. -/
def isDynamicNumOrUndef (t : Ty) : Bool := t = dynamicNumOrUndef

/-- `Type::objectIdentityOnly`, for every identity there may be. -/
def objectIdentityOnly (cls : Option ShapeClassId) : Ty := object (cls.map (·, .identityOnly))

/-- `Type::objectNotBuiltHere`, for every identity there may be. -/
def objectNotBuiltHere (cls : Option ShapeClassId) : Ty := object (cls.map (·, .notBuiltHere))

/-- A number, `undefined`, or the rung that holds both. -/
def numOrUndef (t : Ty) : Bool := t.is .number || t.is .undefined || t.isDynamicNumOrUndef

end Ty

open Ty

/-- `join`, of `src/types/type.cpp`. -/
def join (a b : Ty) : Ty :=
  if a = b then a
  else if a.is .never then b
  else if b.is .never then a
  else if a.isDynamicNumOrUndef || b.isDynamicNumOrUndef then
    if a.numOrUndef && b.numOrUndef then .dynamicNumOrUndef else .dynamic
  else if a.kind ≠ b.kind then .dynamic
  else match a.kind with
    | .object =>
      if a.shapeClass = b.shapeClass then
        if a.identityOnly || b.identityOnly then objectIdentityOnly a.shapeClass
        else objectNotBuiltHere a.shapeClass
      else .object none
    | .function =>
      if a.functionReturnsNever then b
      else if b.functionReturnsNever then a
      else .function .unknown
    | .typedArray => .typedArray none
    | .array =>
      if a.arrayElementsUndecided then b
      else if b.arrayElementsUndecided then a
      else .array .plain
    | _ => .dynamic

/-- `joinParam`: the join of parameters, where a number may be missing. -/
def joinParam (a b : Ty) : Ty :=
  if a = b then a
  else if a.is .never then b
  else if b.is .never then a
  else if a.numOrUndef && b.numOrUndef then .dynamicNumOrUndef
  else join a b

/-! ## The order -/

section Flat

variable {α : Type*} (bot : Option α) (top : α)

/-- The flat order on payloads: a bottom, if there is one, below everything, and a top above. -/
def FlatLe (p q : α) : Prop := p = q ∨ bot = some p ∨ q = top

/-- The least upper bound of the flat order. -/
def flatJoin [DecidableEq α] (p q : α) : α :=
  if p = q then p else if bot = some p then q else if bot = some q then p else top

variable {bot top} {p q r : α}

theorem FlatLe.trans (htop : bot ≠ some top) (h₁ : FlatLe bot top p q) (h₂ : FlatLe bot top q r) :
    FlatLe bot top p r := by
  unfold FlatLe at *
  grind

/-- A bottom other than the top makes the flat order antisymmetric. -/
theorem FlatLe.antisymm (htop : bot ≠ some top) (h₁ : FlatLe bot top p q)
    (h₂ : FlatLe bot top q p) : p = q := by
  unfold FlatLe at *
  grind

variable [DecidableEq α]

theorem flatJoin_left : FlatLe bot top p (flatJoin bot top p q) := by
  unfold FlatLe flatJoin
  grind

theorem flatJoin_right : FlatLe bot top q (flatJoin bot top p q) := by
  unfold FlatLe flatJoin
  grind

/-- `flatJoin` is the least upper bound. -/
theorem flatJoin_le (h₁ : FlatLe bot top p r) (h₂ : FlatLe bot top q r) :
    FlatLe bot top (flatJoin bot top p q) r := by
  unfold FlatLe flatJoin at *
  grind

end Flat

/-- From a watched construction to a guess. -/
def Provenance.rank : Provenance → Nat
  | builtHere => 0
  | notBuiltHere => 1
  | identityOnly => 2

/-- Two claims of one rank are one claim. -/
theorem Provenance.rank_inj {p q : Provenance} (h : p.rank = q.rank) : p = q := by
  cases p <;> cases q <;> simp_all [rank]

/-- The order on object identities: no identity on top, and the weaker claim above. -/
def IdentityLe : Option (ShapeClassId × Provenance) → Option (ShapeClassId × Provenance) → Prop
  | _, none => True
  | none, some _ => False
  | some (c, p), some (d, q) => c = d ∧ p.rank ≤ q.rank

/-- The least upper bound of two identities: of one class the weaker claim, else none. -/
def identityJoin :
    Option (ShapeClassId × Provenance) → Option (ShapeClassId × Provenance) →
      Option (ShapeClassId × Provenance)
  | some (c, p), some (d, q) =>
    if c = d then some (c, if p.rank ≤ q.rank then q else p) else none
  | _, _ => none

section Identity

variable {i j k : Option (ShapeClassId × Provenance)}

theorem IdentityLe.refl (i : Option (ShapeClassId × Provenance)) : IdentityLe i i := by
  rcases i with - | ⟨c, p⟩
  · trivial
  · exact ⟨rfl, le_rfl⟩

theorem IdentityLe.trans (h₁ : IdentityLe i j) (h₂ : IdentityLe j k) : IdentityLe i k := by
  rcases i with - | ⟨c, p⟩ <;> rcases j with - | ⟨d, q⟩ <;> rcases k with - | ⟨e, r⟩ <;>
    simp only [IdentityLe] at h₁ h₂ ⊢
  exact ⟨h₁.1.trans h₂.1, h₁.2.trans h₂.2⟩

theorem IdentityLe.antisymm (h₁ : IdentityLe i j) (h₂ : IdentityLe j i) : i = j := by
  rcases i with - | ⟨c, p⟩ <;> rcases j with - | ⟨d, q⟩ <;> simp only [IdentityLe] at h₁ h₂ ⊢
  rw [h₁.1, Provenance.rank_inj (le_antisymm h₁.2 h₂.2)]

theorem identityJoin_left (i j : Option (ShapeClassId × Provenance)) :
    IdentityLe i (identityJoin i j) := by
  rcases i with - | ⟨c, p⟩ <;> rcases j with - | ⟨d, q⟩ <;> simp only [identityJoin, IdentityLe]
  split_ifs with h₁ h₂
  · exact ⟨rfl, h₂⟩
  · exact ⟨rfl, le_rfl⟩
  · trivial

theorem identityJoin_right (i j : Option (ShapeClassId × Provenance)) :
    IdentityLe j (identityJoin i j) := by
  rcases i with - | ⟨c, p⟩ <;> rcases j with - | ⟨d, q⟩ <;> simp only [identityJoin, IdentityLe]
  split_ifs with h₁ h₂
  · exact ⟨h₁.symm, le_rfl⟩
  · exact ⟨h₁.symm, (not_le.mp h₂).le⟩
  · trivial

/-- `identityJoin` is the least upper bound. -/
theorem identityJoin_le (h₁ : IdentityLe i k) (h₂ : IdentityLe j k) :
    IdentityLe (identityJoin i j) k := by
  rcases k with - | ⟨e, r⟩
  · exact (by trivial)
  rcases i with - | ⟨c, p⟩ <;> rcases j with - | ⟨d, q⟩ <;> simp only [IdentityLe] at h₁ h₂
  simp only [identityJoin, h₁.1, h₂.1, if_true]
  split_ifs
  · exact ⟨rfl, h₂.2⟩
  · exact ⟨rfl, h₁.2⟩

end Identity

namespace Ty

/-- The order of the lattice: what the right type claims, the left one claims too. -/
inductive Le : Ty → Ty → Prop
  | refl (a : Ty) : Le a a
  | never (b : Ty) : Le never b
  | dynamic (a : Ty) : Le a dynamic
  | number : Le number dynamicNumOrUndef
  | undefined : Le undefined dynamicNumOrUndef
  | object {i j : Option (ShapeClassId × Provenance)} (h : IdentityLe i j) :
    Le (object i) (object j)
  | function {p q : FunctionPayload} (h : FlatLe (some .returnsNever) .unknown p q) :
    Le (function p) (function q)
  | typedArray {p q : Option TypedArrayElem} (h : FlatLe none none p q) :
    Le (typedArray p) (typedArray q)
  | array {p q : ArrayPayload} (h : FlatLe (some .elemNever) .plain p q) :
    Le (array p) (array q)

instance : LE Ty := ⟨Le⟩

theorem never_le (a : Ty) : never ≤ a := .never a

theorem le_dynamic (a : Ty) : a ≤ dynamic := .dynamic a

theorem object_le_object {i j : Option (ShapeClassId × Provenance)} :
    object i ≤ object j ↔ IdentityLe i j := by
  constructor
  · rintro (_ | _)
    · exact IdentityLe.refl i
    · assumption
  · exact .object

theorem function_le_function {p q : FunctionPayload} :
    function p ≤ function q ↔ FlatLe (some .returnsNever) .unknown p q := by
  constructor
  · rintro (_ | _)
    · exact .inl rfl
    · assumption
  · exact .function

theorem typedArray_le_typedArray {p q : Option TypedArrayElem} :
    typedArray p ≤ typedArray q ↔ FlatLe none none p q := by
  constructor
  · rintro (_ | _)
    · exact .inl rfl
    · assumption
  · exact .typedArray

theorem array_le_array {p q : ArrayPayload} :
    array p ≤ array q ↔ FlatLe (some .elemNever) .plain p q := by
  constructor
  · rintro (_ | _)
    · exact .inl rfl
    · assumption
  · exact .array

variable {a : Ty}

/-- Only `never` is below `never`. -/
theorem le_never : a ≤ never ↔ a = never := by
  constructor
  · rintro (_ | _) <;> rfl
  · rintro rfl
    exact .refl _

/-- Only the top is above the top. -/
theorem dynamic_le : dynamic ≤ a ↔ a = dynamic := by
  constructor
  · rintro (_ | _) <;> rfl
  · rintro rfl
    exact .refl _

/-- Above the rung there is only the top. -/
theorem dynamicNumOrUndef_le : dynamicNumOrUndef ≤ a ↔ a = dynamicNumOrUndef ∨ a = dynamic := by
  constructor
  · rintro (_ | _)
    · exact .inl rfl
    · exact .inr rfl
  · rintro (rfl | rfl)
    · exact .refl _
    · exact .dynamic _

/-- Numbers and `undefined` are below the rung. -/
theorem le_of_numOrUndef (h : a.numOrUndef = true) : a ≤ dynamicNumOrUndef := by
  cases a with
  | number => exact .number
  | undefined => exact .undefined
  | dynamicNumOrUndef => exact .refl _
  | _ => simp [numOrUndef, is, kind, isDynamicNumOrUndef] at h

section Below

variable {a : Ty} (ha : a ≠ never)
include ha

/-- What is below an object is an object with a stronger identity. -/
theorem le_object {k : Option (ShapeClassId × Provenance)} (h : a ≤ object k) :
    ∃ i, a = object i ∧ IdentityLe i k := by
  cases h with
  | refl => exact ⟨k, rfl, .refl k⟩
  | never => exact absurd rfl ha
  | object h => exact ⟨_, rfl, h⟩

/-- What is below a function is a function. -/
theorem le_function {r : FunctionPayload} (h : a ≤ function r) :
    ∃ p, a = function p ∧ FlatLe (some .returnsNever) .unknown p r := by
  cases h with
  | refl => exact ⟨r, rfl, .inl rfl⟩
  | never => exact absurd rfl ha
  | function h => exact ⟨_, rfl, h⟩

/-- What is below a typed array is a typed array. -/
theorem le_typedArray {r : Option TypedArrayElem} (h : a ≤ typedArray r) :
    ∃ p, a = typedArray p ∧ FlatLe none none p r := by
  cases h with
  | refl => exact ⟨r, rfl, .inl rfl⟩
  | never => exact absurd rfl ha
  | typedArray h => exact ⟨_, rfl, h⟩

/-- What is below an array is an array. -/
theorem le_array {r : ArrayPayload} (h : a ≤ array r) :
    ∃ p, a = array p ∧ FlatLe (some .elemNever) .plain p r := by
  cases h with
  | refl => exact ⟨r, rfl, .inl rfl⟩
  | never => exact absurd rfl ha
  | array h => exact ⟨_, rfl, h⟩

/-- Only numbers and `undefined` are below the rung. -/
theorem numOrUndef_of_le (h : a ≤ dynamicNumOrUndef) : a.numOrUndef = true := by
  cases h with
  | never => exact absurd rfl ha
  | refl | number | undefined => rfl

/-- The kinds that hold one type have nothing but `never` below it. -/
theorem le_basic {c : Ty}
    (hc : c.kind ∉ [TypeKind.object, .function, .typedArray, .array, .dynamic]) (h : a ≤ c) :
    a = c := by
  cases h with
  | refl => rfl
  | never => exact absurd rfl ha
  | dynamic | number | undefined | object | function | typedArray | array => simp [kind] at hc

end Below

theorem le_trans' {a b c : Ty} (h₁ : a ≤ b) (h₂ : b ≤ c) : a ≤ c := by
  cases h₁ with
  | refl => exact h₂
  | never => exact never_le c
  | dynamic => exact dynamic_le.mp h₂ ▸ le_dynamic a
  | number =>
    rcases dynamicNumOrUndef_le.mp h₂ with rfl | rfl
    · exact .number
    · exact .dynamic _
  | undefined =>
    rcases dynamicNumOrUndef_le.mp h₂ with rfl | rfl
    · exact .undefined
    · exact .dynamic _
  | object h₁ =>
    cases h₂ with
    | refl => exact .object h₁
    | dynamic => exact .dynamic _
    | object h₂ => exact .object (h₁.trans h₂)
  | function h₁ =>
    cases h₂ with
    | refl => exact .function h₁
    | dynamic => exact .dynamic _
    | function h₂ => exact .function (h₁.trans (by simp) h₂)
  | typedArray h₁ =>
    cases h₂ with
    | refl => exact .typedArray h₁
    | dynamic => exact .dynamic _
    | typedArray h₂ => exact .typedArray (h₁.trans (by simp) h₂)
  | array h₁ =>
    cases h₂ with
    | refl => exact .array h₁
    | dynamic => exact .dynamic _
    | array h₂ => exact .array (h₁.trans (by simp) h₂)

theorem le_antisymm' {a b : Ty} (h₁ : a ≤ b) (h₂ : b ≤ a) : a = b := by
  cases h₁ with
  | refl => rfl
  | never => exact (le_never.mp h₂).symm
  | dynamic => exact dynamic_le.mp h₂
  | number | undefined => rcases dynamicNumOrUndef_le.mp h₂ with h | h <;> simp at h
  | object h₁ => rw [h₁.antisymm (object_le_object.mp h₂)]
  | function h₁ => rw [h₁.antisymm (by simp) (function_le_function.mp h₂)]
  | typedArray h₁ => rw [h₁.antisymm (by simp) (typedArray_le_typedArray.mp h₂)]
  | array h₁ => rw [h₁.antisymm (by simp) (array_le_array.mp h₂)]

instance : PartialOrder Ty where
  le_refl := .refl
  le_trans _ _ _ := le_trans'
  le_antisymm _ _ := le_antisymm'

end Ty

section Sup

/-- Two objects join by their identities. -/
theorem joinParam_object (i j : Option (ShapeClassId × Provenance)) :
    joinParam (.object i) (.object j) = .object (identityJoin i j) := by
  rcases i with - | ⟨c, p⟩ <;> rcases j with - | ⟨d, q⟩ <;>
    simp only [joinParam, join, is, kind, numOrUndef, isDynamicNumOrUndef, shapeClass, identityJoin]
  · simp
  · simp
  · simp
  · by_cases hcd : c = d
    · subst hcd
      cases p <;> cases q <;>
        simp [identityOnly, objectIdentityOnly, objectNotBuiltHere, Provenance.rank]
    · simp [hcd]

/-- Two functions join by their payloads. -/
theorem joinParam_function (p q : FunctionPayload) :
    joinParam (.function p) (.function q) =
      .function (flatJoin (some .returnsNever) .unknown p q) := by
  simp only [joinParam, join, is, kind, numOrUndef, isDynamicNumOrUndef, functionReturnsNever,
    flatJoin]
  grind

/-- Two typed arrays join by their elements. -/
theorem joinParam_typedArray (p q : Option TypedArrayElem) :
    joinParam (.typedArray p) (.typedArray q) = .typedArray (flatJoin none none p q) := by
  simp only [joinParam, join, is, kind, numOrUndef, isDynamicNumOrUndef, flatJoin]
  grind

/-- Two arrays join by their payloads. -/
theorem joinParam_array (p q : ArrayPayload) :
    joinParam (.array p) (.array q) = .array (flatJoin (some .elemNever) .plain p q) := by
  simp only [joinParam, join, is, kind, numOrUndef, isDynamicNumOrUndef, arrayElementsUndecided,
    flatJoin]
  grind

@[simp] theorem joinParam_self (a : Ty) : joinParam a a = a := if_pos rfl

@[simp] theorem joinParam_never_left (a : Ty) : joinParam .never a = a := by
  simp [joinParam, is, kind]

@[simp] theorem joinParam_never_right (a : Ty) : joinParam a .never = a := by
  cases a <;> simp [joinParam, is, kind]

/-- Numbers and `undefined` meet on the rung. -/
theorem joinParam_numOrUndef {a b : Ty} (ha : a.numOrUndef = true) (hb : b.numOrUndef = true)
    (h : a ≠ b) : joinParam a b = .dynamicNumOrUndef := by
  cases a <;> cases b <;>
    simp_all [joinParam, numOrUndef, is, kind, isDynamicNumOrUndef]

/-- Off the rung of numbers and `undefined`, two kinds meet at the top. -/
theorem joinParam_of_kind_ne {a b : Ty} (ha : a ≠ .never) (hb : b ≠ .never) (h : a.kind ≠ b.kind)
    (hab : (a.numOrUndef && b.numOrUndef) = false) : joinParam a b = .dynamic := by
  have hne : a ≠ b := fun e => h (e ▸ rfl)
  have hna : a.is .never = false := by cases a <;> simp_all [is, kind]
  have hnb : b.is .never = false := by cases b <;> simp_all [is, kind]
  simp [joinParam, join, hne, hna, hnb, hab, h]

/-- `joinParam` is an upper bound. -/
theorem le_joinParam (a b : Ty) : a ≤ joinParam a b ∧ b ≤ joinParam a b := by
  by_cases hkind : a.kind = b.kind
  · cases a <;> cases b <;> simp only [kind, reduceCtorEq] at hkind
    case object.object i j =>
      simp only [joinParam_object, object_le_object]
      exact ⟨identityJoin_left i j, identityJoin_right i j⟩
    case function.function p q =>
      simp only [joinParam_function, function_le_function]
      exact ⟨flatJoin_left, flatJoin_right⟩
    case typedArray.typedArray p q =>
      simp only [joinParam_typedArray, typedArray_le_typedArray]
      exact ⟨flatJoin_left, flatJoin_right⟩
    case array.array p q =>
      simp only [joinParam_array, array_le_array]
      exact ⟨flatJoin_left, flatJoin_right⟩
    case dynamic.dynamicNumOrUndef => exact ⟨.refl _, .dynamic _⟩
    case dynamicNumOrUndef.dynamic => exact ⟨.dynamic _, .refl _⟩
    all_goals exact ⟨.refl _, .refl _⟩
  · by_cases ha : a = .never
    · subst ha
      simp [never_le]
    by_cases hb : b = .never
    · subst hb
      simp [never_le]
    by_cases hab : (a.numOrUndef && b.numOrUndef) = true
    · rw [Bool.and_eq_true] at hab
      rw [joinParam_numOrUndef hab.1 hab.2 (fun e => hkind (e ▸ rfl))]
      exact ⟨le_of_numOrUndef hab.1, le_of_numOrUndef hab.2⟩
    · rw [joinParam_of_kind_ne ha hb hkind (Bool.not_eq_true _ ▸ hab)]
      exact ⟨le_dynamic a, le_dynamic b⟩

/-- `joinParam` is below every upper bound. -/
theorem joinParam_le {a b c : Ty} (h₁ : a ≤ c) (h₂ : b ≤ c) : joinParam a b ≤ c := by
  by_cases ha : a = .never
  · subst ha
    rwa [joinParam_never_left]
  by_cases hb : b = .never
  · subst hb
    rwa [joinParam_never_right]
  cases c with
  | dynamic => exact le_dynamic _
  | object k =>
    obtain ⟨i, rfl, hi⟩ := le_object ha h₁
    obtain ⟨j, rfl, hj⟩ := le_object hb h₂
    rw [joinParam_object, object_le_object]
    exact identityJoin_le hi hj
  | function r =>
    obtain ⟨p, rfl, hp⟩ := le_function ha h₁
    obtain ⟨q, rfl, hq⟩ := le_function hb h₂
    rw [joinParam_function, function_le_function]
    exact flatJoin_le hp hq
  | typedArray r =>
    obtain ⟨p, rfl, hp⟩ := le_typedArray ha h₁
    obtain ⟨q, rfl, hq⟩ := le_typedArray hb h₂
    rw [joinParam_typedArray, typedArray_le_typedArray]
    exact flatJoin_le hp hq
  | array r =>
    obtain ⟨p, rfl, hp⟩ := le_array ha h₁
    obtain ⟨q, rfl, hq⟩ := le_array hb h₂
    rw [joinParam_array, array_le_array]
    exact flatJoin_le hp hq
  | dynamicNumOrUndef =>
    rcases eq_or_ne a b with rfl | hne
    · rwa [joinParam_self]
    · rw [joinParam_numOrUndef (numOrUndef_of_le ha h₁) (numOrUndef_of_le hb h₂) hne]
  | _ =>
    -- the remaining kinds hold one type each
    obtain rfl := le_basic ha (by simp [kind]) h₁
    obtain rfl := le_basic hb (by simp [kind]) h₂
    exact h₁

end Sup

/-- The lattice of types, with `joinParam` for its join. -/
instance : SemilatticeSup Ty where
  sup := joinParam
  le_sup_left a b := (le_joinParam a b).1
  le_sup_right a b := (le_joinParam a b).2
  sup_le _ _ _ := joinParam_le

instance : OrderTop Ty where
  top := .dynamic
  le_top := le_dynamic

theorem sup_def (a b : Ty) : a ⊔ b = joinParam a b := rfl

/-! ## `join` against the least upper bound -/

/-- The two types whose least upper bound `join` does not take. -/
def Mixed (a b : Ty) : Prop := a = .number ∧ b = .undefined ∨ a = .undefined ∧ b = .number

instance (a b : Ty) : Decidable (Mixed a b) := by unfold Mixed; infer_instance

theorem Mixed.symm {a b : Ty} (h : Mixed a b) : Mixed b a := by
  rcases h with ⟨rfl, rfl⟩ | ⟨rfl, rfl⟩ <;> simp [Mixed]

/-- **`join` is the least upper bound off `number` and `undefined`**, and the top there. -/
theorem join_eq (a b : Ty) : join a b = if Mixed a b then .dynamic else a ⊔ b := by
  rw [sup_def]
  by_cases hm : Mixed a b
  · rw [if_pos hm]
    rcases hm with ⟨rfl, rfl⟩ | ⟨rfl, rfl⟩ <;> rfl
  · rw [if_neg hm]
    unfold joinParam
    split_ifs with h₁ h₂ h₃ h₄
    · simp [join, h₁]
    · simp [join, h₂]
    · simp [join, h₂, h₃]
    · cases a <;> cases b <;>
        simp_all [Mixed, numOrUndef, is, kind, isDynamicNumOrUndef, join]
    · rfl

/-- `join` is commutative throughout. -/
theorem join_comm (a b : Ty) : join a b = join b a := by
  rw [join_eq, join_eq, sup_comm]
  by_cases h : Mixed a b
  · simp [h, h.symm]
  · rw [if_neg h, if_neg (fun h' => h h'.symm)]

theorem join_self (a : Ty) : join a a = a := if_pos rfl

theorem join_never_left (a : Ty) : join .never a = a := by simp [join, is, kind]

theorem join_dynamic_left (a : Ty) : join .dynamic a = .dynamic := by
  rw [join_eq]
  exact top_sup_eq a

/-- `join` is an upper bound, if not always the least. -/
theorem le_join (a b : Ty) : a ≤ join a b ∧ b ≤ join a b := by
  rw [join_eq]
  split_ifs
  · exact ⟨le_dynamic a, le_dynamic b⟩
  · exact ⟨le_sup_left, le_sup_right⟩

section Below

variable {a b : Ty}

/-- A least upper bound is `number` or `undefined` only over that type and `never`. -/
theorem sup_eq_basic {c : Ty} (hc : c = .number ∨ c = .undefined) (h : a ⊔ b = c) :
    a = c ∨ b = c := by
  have ha : a ≤ c := h ▸ le_sup_left
  rcases hc with rfl | rfl
  · cases ha with
    | refl => exact .inl rfl
    | never => exact .inr (joinParam_never_left b ▸ h)
  · cases ha with
    | refl => exact .inl rfl
    | never => exact .inr (joinParam_never_left b ▸ h)

/-- A least upper bound is the rung over the rung, or over `number` and `undefined`. -/
theorem sup_eq_dynamicNumOrUndef (h : a ⊔ b = .dynamicNumOrUndef) :
    a = .dynamicNumOrUndef ∨ b = .dynamicNumOrUndef ∨ Mixed a b := by
  have ha : a ≤ .dynamicNumOrUndef := h ▸ le_sup_left
  have hb : b ≤ .dynamicNumOrUndef := h ▸ le_sup_right
  cases ha with
  | refl => exact .inl rfl
  | never => exact .inr (.inl (joinParam_never_left b ▸ h))
  | number =>
    cases hb with
    | refl => exact .inr (.inl rfl)
    | never | number => cases h
    | undefined => exact .inr (.inr (.inl ⟨rfl, rfl⟩))
  | undefined =>
    cases hb with
    | refl => exact .inr (.inl rfl)
    | never | undefined => cases h
    | number => exact .inr (.inr (.inr ⟨rfl, rfl⟩))

theorem number_le (h : number ≤ a) : a = .number ∨ a = .dynamicNumOrUndef ∨ a = .dynamic := by
  cases h <;> simp

theorem undefined_le (h : undefined ≤ a) :
    a = .undefined ∨ a = .dynamicNumOrUndef ∨ a = .dynamic := by
  cases h <;> simp

end Below

/-- Folding `number` and `undefined` first and the third type last is the least upper bound of
all three, unless the third type is the rung of both. -/
theorem mixed_join_right {a b c : Ty} (h : Mixed a b) :
    join a (join b c) = if c = .dynamicNumOrUndef then .dynamicNumOrUndef else .dynamic := by
  have hbc : b ≤ join b c := (le_join b c).1
  have key : c ≠ .dynamicNumOrUndef → join b c ≠ .dynamicNumOrUndef := by
    intro hc he
    rw [join_eq] at he
    split_ifs at he with hm
    rcases sup_eq_dynamicNumOrUndef he with rfl | rfl | hm'
    · simp [Mixed] at h
    · exact hc rfl
    · exact hm hm'
  by_cases hc : c = .dynamicNumOrUndef
  · subst hc
    rcases h with ⟨rfl, rfl⟩ | ⟨rfl, rfl⟩ <;> rfl
  · rw [if_neg hc]
    rcases h with ⟨rfl, rfl⟩ | ⟨rfl, rfl⟩
    · rcases undefined_le hbc with h | h | h
      · rw [h]
        rfl
      · exact absurd h (key hc)
      · rw [h]
        rfl
    · rcases number_le hbc with h | h | h
      · rw [h]
        rfl
      · exact absurd h (key hc)
      · rw [h]
        rfl

/-- A least upper bound is mixed with a third type only if its parts are. -/
theorem mixed_of_mixed_sup {a b c : Ty} (hb : b ≠ .never) (h : Mixed (a ⊔ b) c) : Mixed b c := by
  have hle : b ≤ a ⊔ b := le_sup_right
  rcases h with ⟨h, rfl⟩ | ⟨h, rfl⟩
  · exact .inl ⟨le_basic hb (by simp [kind]) (h ▸ hle), rfl⟩
  · exact .inr ⟨le_basic hb (by simp [kind]) (h ▸ hle), rfl⟩

/-- **Exactly when `join` is associative**: unless the pair folded first is `number` and
`undefined`, and the third type is the rung of both. -/
theorem join_assoc_iff (a b c : Ty) :
    join (join a b) c = join a (join b c) ↔
      ¬(Mixed a b ∧ c = .dynamicNumOrUndef) ∧ ¬(Mixed b c ∧ a = .dynamicNumOrUndef) := by
  by_cases hab : Mixed a b
  · have hbc : ¬(Mixed b c ∧ a = .dynamicNumOrUndef) := by
      rintro ⟨-, rfl⟩
      simp [Mixed] at hab
    rw [mixed_join_right hab, join_eq a b, if_pos hab, join_dynamic_left]
    by_cases hc : c = .dynamicNumOrUndef <;> simp [hab, hbc]
  by_cases hbc : Mixed b c
  · rw [join_comm (join a b) c, join_comm a b, mixed_join_right hbc.symm, join_comm a, join_eq b c,
      if_pos hbc, join_dynamic_left]
    by_cases ha : a = .dynamicNumOrUndef <;> simp [hab, hbc]
  simp only [hab, hbc, false_and, not_false_eq_true, and_self, iff_true]
  by_cases hb : b = .never
  · subst hb
    rw [join_comm a, join_never_left, join_never_left]
  · have left : ¬Mixed (a ⊔ b) c := fun h => hbc (mixed_of_mixed_sup hb h)
    have right : ¬Mixed a (b ⊔ c) := fun h =>
      hab (mixed_of_mixed_sup hb (sup_comm b c ▸ h.symm)).symm
    simp [hab, hbc, join_eq, left, right, sup_assoc]

/-- The type of a merge point: its incoming edges folded from the left. -/
def mergeEdges (j : Ty → Ty → Ty) (edges : List Ty) : Ty := edges.foldl j .never

/-- The edges that `join` folds by order: both types it sends to the top, and the rung of both. -/
def OrderSensitive (edges : List Ty) : Prop :=
  .number ∈ edges ∧ .undefined ∈ edges ∧ .dynamicNumOrUndef ∈ edges

section Merge

variable {edges edges' : List Ty}

theorem mergeEdges_concat (j : Ty → Ty → Ty) (edges : List Ty) (t : Ty) :
    mergeEdges j (edges ++ [t]) = j (mergeEdges j edges) t := by
  simp [mergeEdges]

/-- Least upper bounds do not depend on the order of the edges. -/
theorem mergeEdges_joinParam_perm (h : edges.Perm edges') :
    mergeEdges joinParam edges = mergeEdges joinParam edges' :=
  h.foldl_eq' (fun x _ y _ z => sup_right_comm z x y) _

/-- A merge is `number` or `undefined` only if an edge is. -/
theorem mem_of_mergeEdges_basic {c : Ty} (hc : c = .number ∨ c = .undefined)
    (h : mergeEdges joinParam edges = c) : c ∈ edges := by
  induction edges using reverseRecOn with
  | nil => rcases hc with rfl | rfl <;> cases h
  | append_singleton edges t ih =>
    rw [mergeEdges_concat] at h
    rcases sup_eq_basic hc h with h | h
    · exact mem_append_left _ (ih h)
    · simp [h]

/-- A merge is the rung only if an edge is, or both its types are edges. -/
theorem mem_of_mergeEdges_dynamicNumOrUndef (h : mergeEdges joinParam edges = .dynamicNumOrUndef) :
    .dynamicNumOrUndef ∈ edges ∨ .number ∈ edges ∧ .undefined ∈ edges := by
  induction edges using reverseRecOn with
  | nil => cases h
  | append_singleton edges t ih =>
    rw [mergeEdges_concat] at h
    rcases sup_eq_dynamicNumOrUndef h with he | rfl | ⟨he, rfl⟩ | ⟨he, rfl⟩
    · rcases ih he with hr | hb
      · exact .inl (mem_append_left _ hr)
      · exact .inr ⟨mem_append_left _ hb.1, mem_append_left _ hb.2⟩
    · simp
    · have := mem_of_mergeEdges_basic (.inl rfl) he
      simp [this]
    · have := mem_of_mergeEdges_basic (.inr rfl) he
      simp [this]

/-- A merge is above its edges. -/
theorem le_mergeEdges {t : Ty} (h : t ∈ edges) : t ≤ mergeEdges joinParam edges := by
  induction edges using reverseRecOn with
  | nil => simp at h
  | append_singleton edges u ih =>
    rw [mergeEdges_concat]
    rcases mem_append.mp h with h | h
    · exact (ih h).trans le_sup_left
    · rw [mem_singleton.mp h]
      exact le_sup_right

instance : Decidable (OrderSensitive edges) := by unfold OrderSensitive; infer_instance

/-- What `join` makes of edges it does not fold by order: the top over `number` and `undefined`,
else the least upper bound. -/
theorem mergeEdges_join (h : ¬OrderSensitive edges) :
    mergeEdges join edges =
      if .number ∈ edges ∧ .undefined ∈ edges then .dynamic else mergeEdges joinParam edges := by
  induction edges using reverseRecOn with
  | nil => rfl
  | append_singleton edges t ih =>
    have hs : ¬OrderSensitive edges := fun h' => h (by
      refine ⟨?_, ?_, ?_⟩ <;> apply mem_append_left
      exacts [h'.1, h'.2.1, h'.2.2])
    rw [mergeEdges_concat, mergeEdges_concat, ih hs]
    by_cases hboth : .number ∈ edges ∧ .undefined ∈ edges
    · simp [hboth, join_dynamic_left]
    rw [if_neg hboth, join_eq]
    by_cases hm : Mixed (mergeEdges joinParam edges) t
    · rw [if_pos hm]
      rcases hm with ⟨hm, rfl⟩ | ⟨hm, rfl⟩
      · simp [mem_of_mergeEdges_basic (.inl rfl) hm]
      · simp [mem_of_mergeEdges_basic (.inr rfl) hm]
    rw [if_neg hm, sup_def]
    by_cases hnew : number ∈ edges ++ [t] ∧ undefined ∈ edges ++ [t]
    · rw [if_pos hnew]
      have hrung : mergeEdges joinParam edges ≠ .dynamicNumOrUndef := by
        intro he
        rcases mem_of_mergeEdges_dynamicNumOrUndef he with he | he
        · exact h ⟨hnew.1, hnew.2, mem_append_left _ he⟩
        · exact hboth he
      have htop : mergeEdges joinParam edges = .dynamic := by
        rcases mem_append.mp hnew.1 with hn | hn
        · rcases number_le (le_mergeEdges hn) with he | he | he
          · rcases mem_append.mp hnew.2 with hu | hu
            · exact absurd ⟨hn, hu⟩ hboth
            · exact absurd (.inl ⟨he, (mem_singleton.mp hu).symm⟩) hm
          · exact absurd he hrung
          · exact he
        · rcases mem_append.mp hnew.2 with hu | hu
          · rcases undefined_le (le_mergeEdges hu) with he | he | he
            · exact absurd (.inr ⟨he, (mem_singleton.mp hn).symm⟩) hm
            · exact absurd he hrung
            · exact he
          · exact absurd (mem_singleton.mp hn) (by rw [← mem_singleton.mp hu]; simp)
      rw [htop]
      exact top_sup_eq t
    · rw [if_neg hnew]

end Merge

/-- **`joinParam` is a semilattice join, and `join` is one off the rung of numbers and
`undefined`.** Both are idempotent and commutative, with `never` for identity and `dynamic`
absorbing; `joinParam` is associative, and `join` is but for one pair against one rung, so a
merge point depends on the order of its edges only where all three of them meet. -/
theorem join_laws :
    (∀ a, join a a = a) ∧ (∀ a b, join a b = join b a) ∧ (∀ a, join .never a = a) ∧
      (∀ a, join .dynamic a = .dynamic) ∧
      (∀ a b c, join (join a b) c = join a (join b c) ↔
        ¬(Mixed a b ∧ c = .dynamicNumOrUndef) ∧ ¬(Mixed b c ∧ a = .dynamicNumOrUndef)) ∧
      (∀ edges edges', edges.Perm edges' → ¬OrderSensitive edges →
        mergeEdges join edges = mergeEdges join edges') ∧
      (∀ a, joinParam a a = a) ∧ (∀ a b, joinParam a b = joinParam b a) ∧
      (∀ a, joinParam .never a = a) ∧ (∀ a, joinParam .dynamic a = .dynamic) ∧
      (∀ a b c, joinParam (joinParam a b) c = joinParam a (joinParam b c)) ∧
      (∀ edges edges', edges.Perm edges' →
        mergeEdges joinParam edges = mergeEdges joinParam edges') := by
  refine ⟨join_self, join_comm, join_never_left, join_dynamic_left, join_assoc_iff, ?_,
    joinParam_self, fun a b => sup_comm a b, joinParam_never_left, top_sup_eq,
    fun a b c => sup_assoc a b c, fun _ _ => mergeEdges_joinParam_perm⟩
  intro edges edges' hperm hs
  have hs' : ¬OrderSensitive edges' := by
    rintro ⟨hn, hu, hr⟩
    exact hs ⟨hperm.mem_iff.mpr hn, hperm.mem_iff.mpr hu, hperm.mem_iff.mpr hr⟩
  rw [mergeEdges_join hs, mergeEdges_join hs', mergeEdges_joinParam_perm hperm]
  simp [hperm.mem_iff]

/-- The laws at three edges that meet `number` with the rung of numbers and `undefined`. -/
theorem join_laws_rung :
    mergeEdges join [.number, .dynamicNumOrUndef, .null] =
      mergeEdges join [.null, .number, .dynamicNumOrUndef] :=
  join_laws.2.2.2.2.2.1 _ _ (by decide) (by decide)

/-- `join` is not associative: `number` and `undefined` meet at the top, and each of them meets
the rung of both at that rung. -/
theorem join_not_assoc : ¬∀ a b c, join (join a b) c = join a (join b c) := by
  intro h
  exact absurd (h .dynamicNumOrUndef .number .undefined) (by decide)

end Bronze.Types
