import Bronze.BigNum.Double

/-!
# `Array.prototype.sort`

The functions of `src/runtime/builtin_array_sort.cpp`. The elements are read into a list, the list
is sorted bottom up between two buffers, and only a sort that finished writes anything back. What
the receiver and user code do is the rest of the runtime's: each such operation acts on the state of
the program as it will, and may throw. The counters of the loops over runs are 32 bits wide and
wrap.
-/

namespace Bronze.Sorting

open BigNum (Double)

/-- A value of the language; strings, objects and the rest are of `β`. -/
inductive Value (β : Type) where
  | undefined
  | number (v : Double)
  | other (v : β)

def Value.isUndefined {β : Type} : Value β → Bool
  | .undefined => true
  | _ => false

/-- Code that acts on the state of the program, and returns or throws a value. -/
abbrev Run (ω β : Type) := EStateM (Value β) ω

inductive SetRefusal where
  | none
  | noSetter
  | notWritable
  | notExtensible
  | trapRefused
  deriving DecidableEq, Repr

/-- What the sort asks of the rest of the runtime. -/
structure Runtime (ω β : Type) where
  /-- `isCallable` -/
  isCallable : Value β → ω → Bool
  /-- the error that `rtThrowTypeError` throws -/
  typeError : String → Run ω β (Value β)
  /-- `rtToObject` -/
  toObject : Value β → Run ω β (Value β)
  /-- `isArray` -/
  isArray : Value β → Bool
  /-- the comparator, called with two arguments -/
  call : Value β → Value β → Value β → Run ω β (Value β)
  /-- `rtToNumber` -/
  toNumber : Value β → Run ω β Double
  /-- `rtToStringValue`: the code units -/
  toStringValue : Value β → Run ω β (List UInt16)
  /-- an array's elements below its length, a hole being none -/
  elements : Value β → ω → List (Option (Value β))
  /-- `rtArrayChainHoldsIndex` -/
  chainHoldsIndex : Value β → ω → Bool
  /-- `rtArrayLikeLength` -/
  arrayLikeLength : Value β → Run ω β Nat
  /-- `rtArrayLikeHasElement` -/
  arrayLikeHasElement : Value β → Nat → Run ω β Bool
  /-- `rtArrayLikeGetElement` -/
  arrayLikeGetElement : Value β → Nat → Run ω β (Value β)
  /-- `rtArrayElementWriteRefusal` -/
  elementWriteRefusal : Value β → Nat → ω → SetRefusal
  /-- `rtArrayIndexSet` -/
  indexSet : Value β → Nat → Value β → Run ω β Unit
  /-- `ArrayHeader::setElem` -/
  setElem : Value β → Nat → Value β → Run ω β Unit
  /-- `rtArrayElementsConfigurable` -/
  elementsConfigurable : Value β → ω → Bool
  /-- `ArrayHeader::deleteElem` -/
  deleteElem : Value β → Nat → Run ω β Unit
  /-- `rtArrayLikeSetElement` -/
  arrayLikeSetElement : Value β → Nat → Value β → Run ω β Unit
  /-- `rtArrayLikeDeleteElement` -/
  arrayLikeDeleteElement : Value β → Nat → Run ω β Unit

section Functions

variable {ω β : Type} (rt : Runtime ω β)

def throwTypeError {α : Type} (message : String) : Run ω β α := do
  let error ← rt.typeError message
  throw error

/-- `v < 0`, which no NaN is. -/
def isNegative : Double → Bool
  | .nan => false
  | .infinite negative => negative
  | .finite negative d => negative && decide (d.value ≠ 0)

def isPositive : Double → Bool
  | .nan => false
  | .infinite negative => !negative
  | .finite negative d => !negative && decide (d.value ≠ 0)

/-- `StringHeader::lessThan`, by code units. -/
def lessThan : List UInt16 → List UInt16 → Bool
  | a :: as, b :: bs => if a ≠ b then decide (a < b) else lessThan as bs
  | as, bs => decide (as.length < bs.length)

/-- A comparator's answer as a number. -/
def answerNumber : Value β → Run ω β Double
  | .number v => pure v
  | answer => rt.toNumber answer

def compareElements (comparefn x y : Value β) : Run ω β Int :=
  if x.isUndefined && y.isUndefined then pure 0
  else if x.isUndefined then pure 1
  else if y.isUndefined then pure (-1)
  else if !comparefn.isUndefined then do
    let answer ← rt.call comparefn x y
    let v ← answerNumber rt answer
    pure (if isNegative v then -1 else if isPositive v then 1 else 0)
  else do
    let xs ← rt.toStringValue x
    let ys ← rt.toStringValue y
    pure (if lessThan xs ys then -1 else if lessThan ys xs then 1 else 0)

/-- The slots of a `RootedBlock`. -/
abbrev Buffer (β : Type) := List (Value β)

def slot (buffer : Buffer β) (i : Nat) : Value β := buffer.getD i .undefined

variable (compare : Value β → Value β → Run ω β Int)

/-- `while (i < stop) dst[k++] = src[i++];` with `n` elements to go. -/
def copyLoop (src : Buffer β) : Nat → Nat → Nat → Buffer β → Buffer β
  | 0, _, _, dst => dst
  | n + 1, i, k, dst => copyLoop src n (i + 1) (k + 1) (dst.set k (slot src i))

/-- The loops of `mergeRuns`, from the counters they have come to. -/
def mergeLoop (src : Buffer β) (mid hi i j k : Nat) (dst : Buffer β) : Run ω β (Buffer β) :=
  if i < mid ∧ j < hi then do
    let answer ← compare (slot src i) (slot src j)
    if answer ≤ 0 then mergeLoop src mid hi (i + 1) j (k + 1) (dst.set k (slot src i))
    else mergeLoop src mid hi i (j + 1) (k + 1) (dst.set k (slot src j))
  else
    let dst := copyLoop src (mid - i) i k dst
    pure (copyLoop src (hi - j) j (k + (mid - i)) dst)
termination_by (mid - i) + (hi - j)

/-- `mergeRuns`: what becomes of `dst`. -/
def mergeRuns (src dst : Buffer β) (lo mid hi : Nat) : Run ω β (Buffer β) :=
  mergeLoop compare src mid hi lo mid lo dst

/-- The loop over `lo`; none where it does not end within `fuel` turns. -/
def passLoop (itemCount width : UInt32) (src : Buffer β) :
    Nat → UInt32 → Buffer β → Run ω β (Option (Buffer β))
  | 0, _, _ => pure none
  | fuel + 1, lo, dst =>
    if lo < itemCount then do
      let mid := if lo + width < itemCount then lo + width else itemCount
      let hi := if lo + 2 * width < itemCount then lo + 2 * width else itemCount
      let dst ← mergeRuns compare src dst lo.toNat mid.toNat hi.toNat
      passLoop itemCount width src fuel (lo + 2 * width) dst
    else pure (some dst)

/-- The loop over `width`, with the buffers swapped after each pass. -/
def widthLoop (itemCount : UInt32) (passFuel : Nat) :
    Nat → UInt32 → Buffer β → Buffer β → Run ω β (Option (Buffer β))
  | 0, _, _, _ => pure none
  | fuel + 1, width, src, dst =>
    if width < itemCount then do
      match ← passLoop compare itemCount width src passFuel 0 dst with
      | none => pure none
      | some dst => widthLoop itemCount passFuel fuel (width * 2) dst src
    else pure (some src)

/-- The sort of a list, into one buffer or the other. -/
def mergeSort (fuel : Nat) (items : Buffer β) : Run ω β (Option (Buffer β)) :=
  widthLoop compare (UInt32.ofNat items.length) fuel fuel 1 items
    (List.replicate items.length .undefined)

/-- The elements that are there, read one by one from `i`, with `n` indices to go. -/
def readLoop (self : Value β) : Nat → Nat → Run ω β (Buffer β)
  | 0, _ => pure []
  | n + 1, i => do
    if ← rt.arrayLikeHasElement self i then
      let v ← rt.arrayLikeGetElement self i
      let rest ← readLoop self n (i + 1)
      pure (v :: rest)
    else readLoop self n (i + 1)

/-- The list that is sorted: an array's own elements where no hole is answered by its chain. -/
def readItems (self : Value β) (len : Nat) : Run ω β (Buffer β) := do
  let state ← get
  if rt.isArray self && !rt.chainHoldsIndex self state then
    pure ((rt.elements self state).filterMap id)
  else readLoop rt self len 0

def hasElem (self : Value β) (i : Nat) (state : ω) : Bool :=
  ((rt.elements self state).getD i none).isSome

/-- The sorted elements are written to an array, from index `i`. -/
def writeLoop (self : Value β) : Nat → Buffer β → Run ω β Unit
  | _, [] => pure ()
  | i, v :: rest => do
    let state ← get
    let refusal := rt.elementWriteRefusal self i state
    if refusal = .notWritable then
      throwTypeError rt
        "Cannot assign to read only element of a frozen array (Array.prototype.sort)"
    else if refusal ≠ .none then
      throwTypeError rt
        "Cannot add elements to an array that is not extensible (Array.prototype.sort)"
    else
      if !hasElem rt self i state && rt.chainHoldsIndex self state then rt.indexSet self i v
      else rt.setElem self i v
      writeLoop self (i + 1) rest

/-- The tail past the items is deleted, from index `i` with `n` to go. -/
def deleteLoop (self : Value β) : Nat → Nat → Run ω β Unit
  | 0, _ => pure ()
  | n + 1, i => do
    let state ← get
    if !hasElem rt self i state then deleteLoop self n (i + 1)
    else if !rt.elementsConfigurable self state then
      throwTypeError rt ("Cannot delete property " ++ toString i ++
        " of a sealed array (Array.prototype.sort)")
    else
      rt.deleteElem self i
      deleteLoop self n (i + 1)

/-- The write-back to an array-like object. -/
def writeLikeLoop (self : Value β) : Nat → Buffer β → Run ω β Unit
  | _, [] => pure ()
  | i, v :: rest => do
    rt.arrayLikeSetElement self i v
    writeLikeLoop self (i + 1) rest

def deleteLikeLoop (self : Value β) : Nat → Nat → Run ω β Unit
  | 0, _ => pure ()
  | n + 1, i => do
    rt.arrayLikeDeleteElement self i
    deleteLikeLoop self n (i + 1)

/-- Steps 7 to 9: the write-back. -/
def writeBack (self : Value β) (len : Nat) (sorted : Buffer β) : Run ω β Unit :=
  if rt.isArray self then do
    writeLoop rt self 0 sorted
    deleteLoop rt self (len - sorted.length) sorted.length
  else do
    writeLikeLoop rt self 0 sorted
    deleteLikeLoop rt self (len - sorted.length) sorted.length

def lengthOf (self : Value β) : Run ω β Nat :=
  if rt.isArray self then do
    let state ← get
    pure (rt.elements self state).length
  else rt.arrayLikeLength self

/-- The part of `sortWith` that knows the receiver; none where the merge does not end. -/
def sortObject (fuel : Nat) (self comparefn : Value β) : Run ω β (Option (Value β)) := do
  let len ← lengthOf rt self
  let items ← readItems rt self len
  match ← mergeSort (compareElements rt comparefn) fuel items with
  | none => pure none
  | some sorted =>
    writeBack rt self len sorted
    pure (some self)

/-- `sortWith`, with no stub for the merge. -/
def sortWith (fuel : Nat) (thisValue comparefn : Value β) : Run ω β (Option (Value β)) := do
  let state ← get
  if !comparefn.isUndefined && !rt.isCallable comparefn state then
    throwTypeError rt "The comparison function must be either a function or undefined"
  else
    let self ← rt.toObject thisValue
    if self.isUndefined then pure (some .undefined)
    else sortObject rt fuel self comparefn

end Functions

end Bronze.Sorting
