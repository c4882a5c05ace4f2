import Bronze.Table.SortedSet

/-!
# Values of the whole-program analysis

`AVal` of `src/opt/wpo/value.h`: a set of values of the program, described by the kinds of
primitives it may hold, whether it may hold an object the analysis does not track, and the tracked
objects it may hold. Of strings it may also know the one key they are, and that all of them are
names an enumeration has read off an object.
-/

namespace Bronze.Wpo

/-- `ObjId`: abstract objects go by their number. -/
abbrev ObjId := Nat

/-- `ObjSet`: a sorted, duplicate-free set of abstract object ids. -/
abbrev ObjSet := SortedSet ObjId

/-- `undefined`. -/
def kUndef : UInt16 := (1 : UInt16) <<< 0

/-- `null`. -/
def kNull : UInt16 := (1 : UInt16) <<< 1

/-- `false`. -/
def kFalse : UInt16 := (1 : UInt16) <<< 2

/-- `true`. -/
def kTrue : UInt16 := (1 : UInt16) <<< 9

/-- A number that fits 32 bits. -/
def kI32 : UInt16 := (1 : UInt16) <<< 3

/-- Any other number. -/
def kF64 : UInt16 := (1 : UInt16) <<< 4

/-- A string. -/
def kStr : UInt16 := (1 : UInt16) <<< 5

/-- A symbol. -/
def kSym : UInt16 := (1 : UInt16) <<< 6

/-- A BigInt. -/
def kBigInt : UInt16 := (1 : UInt16) <<< 7

/-- Beside `kStr`, for a string that may be other than a key name read off an object. -/
def kStrOther : UInt16 := (1 : UInt16) <<< 8

/-- Every kind of primitive. -/
def kAllPrims : UInt16 := 0x3FF

/-- `strKey` when a string may be more than one string. -/
def kAnyStr : UInt32 := 0xFFFFFFFF

/-- `(prims & bits) != 0` -/
def Has (prims bits : UInt16) : Prop := prims &&& bits ≠ 0

instance (prims bits : UInt16) : Decidable (Has prims bits) :=
  inferInstanceAs (Decidable (_ ≠ _))

@[simp] theorem not_has_zero (k : UInt16) : ¬Has 0 k := by simp [Has]

/-- A union has what either side has. -/
@[simp] theorem has_or {a b k : UInt16} : Has (a ||| b) k ↔ Has a k ∨ Has b k := by
  have hdistrib : (a ||| b) &&& k = a &&& k ||| b &&& k := by
    apply UInt16.toBitVec_inj.mp
    ext i
    simp [Bool.and_or_distrib_right]
  rw [Has, hdistrib, Ne, UInt16.or_eq_zero_iff, not_and_or]
  rfl

/-- `AVal`: the kinds of primitives, an untracked object, the tracked objects. -/
structure AVal where
  prims : UInt16 := 0
  topObj : Bool := false
  /-- The one string this value is, when it can be a string. -/
  strKey : UInt32 := kAnyStr
  viaEscape : Bool := false
  objs : ObjSet := SortedSet.empty

namespace AVal

/-- The key of a join, and whether it changed. -/
def joinKey (v other : AVal) : UInt32 × Bool :=
  if Has other.prims kStr then
    if ¬Has v.prims kStr then (other.strKey, true)
    else if v.strKey ≠ other.strKey ∧ v.strKey ≠ kAnyStr then (kAnyStr, true)
    else (v.strKey, false)
  else (v.strKey, false)

/-- `join`: the value with `other` in it, and whether it grew. -/
def join (v other : AVal) : AVal × Bool :=
  let (strKey, keyChanged) := v.joinKey other
  let bits := v.prims ||| other.prims
  let (objs, objsChanged) := v.objs.unionInto other.objs
  (⟨bits, v.topObj || other.topObj, strKey, v.viaEscape || other.viaEscape, objs⟩,
    keyChanged || bits != v.prims || (other.topObj && !v.topObj) ||
      (other.viaEscape && !v.viaEscape) || objsChanged)

/-- `addPrims`: a string added by its kind alone may be any string. -/
def addPrims (v : AVal) (bits : UInt16) : AVal × Bool :=
  let bits := if Has bits kStr then bits ||| kStrOther else bits
  let v := if Has bits kStr ∧ ¬Has v.prims kStr then { v with strKey := kAnyStr } else v
  let merged := v.prims ||| bits
  if merged = v.prims then (v, false) else ({ v with prims := merged }, true)

/-- `addObj`: one more tracked object, and whether it is new. -/
def addObj (v : AVal) (id : ObjId) : AVal × Bool :=
  let (objs, added) := v.objs.insertInto id
  ({ v with objs }, added)

/-- `top`: every primitive and an untracked object. -/
def top : AVal := { prims := kAllPrims, topObj := true }

/-- `prim`: primitives of the given kinds. -/
def prim (bits : UInt16) : AVal := (({} : AVal).addPrims bits).1

/-- `str`: the one string with this key. -/
def str (key : UInt32) : AVal := { prims := kStr ||| kStrOther, strKey := key }

/-- `enumKeys`: some name an enumeration read off an object. -/
def enumKeys : AVal := { prims := kStr }

/-- `obj`: one tracked object. -/
def obj (id : ObjId) : AVal := { objs := .singleton id }

/-- `operator==`: the key counts only where a string is possible. -/
def Same (a b : AVal) : Prop :=
  a.prims = b.prims ∧ a.topObj = b.topObj ∧ a.viaEscape = b.viaEscape ∧ a.objs = b.objs ∧
    (Has a.prims kStr → a.strKey = b.strKey)

end AVal

/-- A value of the program, as far as the analysis tells values apart. -/
inductive Concrete where
  | undefined
  | null
  | boolean (b : Bool)
  | number (isInt32 : Bool)
  /-- A string, with its place in the key pool if it has one, and whether an enumeration read it
  off an object. -/
  | string (key : Option UInt32) (enumerated : Bool)
  | symbol
  | bigint
  /-- An object the program made, which may have escaped. -/
  | tracked (id : ObjId) (escaped : Bool)
  /-- An object the program did not make. -/
  | untracked
  deriving DecidableEq

/-- The primitives of the kinds in a mask. -/
def OfKinds (bits : UInt16) : Concrete → Prop
  | .undefined => Has bits kUndef
  | .null => Has bits kNull
  | .boolean b => Has bits (if b then kTrue else kFalse)
  | .number isInt32 => Has bits (if isInt32 then kI32 else kF64)
  | .string .. => Has bits kStr
  | .symbol => Has bits kSym
  | .bigint => Has bits kBigInt
  | .tracked .. => False
  | .untracked => False

namespace AVal

/-- A value is one of the set the abstract value stands for. -/
def Describes (v : AVal) : Concrete → Prop
  | .string key enumerated => Has v.prims kStr ∧ (v.strKey = kAnyStr ∨ key = some v.strKey) ∧
      (enumerated = true ∨ Has v.prims kStrOther)
  | .tracked id escaped => id ∈ v.objs ∨ (escaped = true ∧ v.topObj = true)
  | .untracked => v.topObj = true
  | c => OfKinds v.prims c

end AVal

end Bronze.Wpo
