import Bronze.Map.Sharing
import Bronze.Map.Iteration

/-!
# Collections of a program, and the Set operations

The `Map`s and `Set`s of a program in one heap, their writing methods of
`src/runtime/builtin_map_methods.cpp`, and the seven members of `src/runtime/builtin_set_ops.cpp`
that read a second collection. Such a member runs code of the program in its midst: it calls `keys`
of the other side and steps the iterator it got, or it calls `has`. It waits there as a frame on a
stack, and whatever the program does before it answers, calls of these methods and of these members
again among it, comes as events in between.

`GetSetRecord` reads `size`, `has` and `keys` before a member looks at any table; the call of a
member is the point after it.
-/

namespace Bronze.Collections

structure Table where
  isSet : Bool
  map : MapHeader

/-- The members of `rtSetOperationMethods`. -/
inductive SetOp where
  | union
  | intersection
  | difference
  | symmetricDifference
  | isSubsetOf
  | isSupersetOf
  | isDisjointFrom
  deriving DecidableEq

/-- A member that waits for what `openKeys` calls. Collections are given by their number. -/
inductive Opening where
  | union (self : Nat)
  | intersection (self result : Nat)
  | difference (result : Nat)
  | symmetricDifference (self : Nat)
  | isSupersetOf (self : Nat)
  | isDisjointFrom (self : Nat)

/-- A member that asks `has` of the other side for each element of this one. -/
inductive Asking where
  | intersection (result : Nat)
  | difference (result : Nat)
  | isSubsetOf
  | isDisjointFrom

/-- A member that walks the keys of the other side. -/
inductive Reading where
  | union (result : Nat)
  | intersection (self result matched : Nat)
  | difference (result : Nat)
  | symmetricDifference (self result : Nat)
  | isSupersetOf (self : Nat)
  | isDisjointFrom (self : Nat)

/-- Where a member waits for the program. -/
inductive Frame where
  | opening (o : Opening)
  | asking (a : Asking) (element : Value) (rest : List Value)
  | reading (r : Reading)

/-- The values a member holds in roots while it waits. -/
def Frame.held : Frame → List Value
  | .asking _ element rest => element :: rest
  | _ => []

/-- The collections a member goes on with. -/
def Frame.tables : Frame → List Nat
  | .opening (.union i) | .opening (.difference i) | .opening (.symmetricDifference i)
  | .opening (.isSupersetOf i) | .opening (.isDisjointFrom i) => [i]
  | .opening (.intersection i j) => [i, j]
  | .asking (.intersection i) _ _ | .asking (.difference i) _ _ => [i]
  | .asking .isSubsetOf _ _ | .asking .isDisjointFrom _ _ => []
  | .reading (.union i) | .reading (.difference i) | .reading (.isSupersetOf i)
  | .reading (.isDisjointFrom i) => [i]
  | .reading (.symmetricDifference i j) => [i, j]
  | .reading (.intersection i j k) => [i, j, k]

/-- The heap, the collections in the order they were made, without those the program let go of, and
the members under way, the innermost first. -/
structure World where
  heap : Heap
  tables : List (Option Table)
  frames : List Frame

/-- The objects among some values. -/
def identities (vs : List Value) : List ObjectId := vs.filterMap Value.identity

/-- What the collector reaches through the collections. -/
def tableRoots (tables : List (Option Table)) : List ObjectId :=
  tables.flatMap fun t => t.elim [] fun t => t.map.roots

namespace World

/-- The collection with a number. -/
def table? (w : World) (i : Nat) : Option Table := w.tables[i]?.join

/-- The values the members under way hold. -/
def held (w : World) : List Value := w.frames.flatMap Frame.held

/-- What the collector reaches. -/
def roots (w : World) : List ObjectId := tableRoots w.tables ++ identities w.held

/-- What the collector reaches, but through one collection. -/
def rootsBesides (w : World) (i : Nat) : List ObjectId :=
  tableRoots (w.tables.set i none) ++ identities w.held

/-- An operation on one collection, while `keep` are values its caller holds in roots. -/
def onTable {α : Type} (gc : Collector) (keep : List Value) (i : Nat) (absent : α)
    (op : Collector → State → Except Exit (α × State)) (w : World) : Except Exit (α × World) :=
  match w.table? i with
  | none => .ok (absent, w)
  | some t => do
    let more := w.rootsBesides i ++ identities keep
    let (a, s) ← op (gc.keeping more) { heap := w.heap, map := t.map }
    return (a, { w with heap := s.heap, tables := w.tables.set i (some { t with map := s.map }) })

end World

def negativeZero : Value := .number 0x8000000000000000

def canonicalizeKey : Value → Value
  | .number d => if isZero d then .number 0 else .number d
  | v => v

/-- `fillLiveElements`, into a block of `count` values that are undefined. -/
def fillLiveElements (m : MapHeader) (count : Nat) : List Value :=
  let live := m.keys.take count
  live ++ List.replicate (count - live.length) .undefined

/-- `MapHeader::set`, as the methods call it. -/
def setEntry (key val : Value) (gc : Collector) (s : State) : Except Exit (Unit × State) := do
  let s ← set gc key val s
  return ((), s)

/-- `MapHeader::find`, as `has` and `setHas` call it. -/
def hasEntry (key : Value) (gc : Collector) (s : State) : Except Exit (Bool × State) := do
  let (slot, s) ← find gc key.identity.toList key s
  return (slot ≠ kNotFound, s)

/-- `MapHeader::remove`, as the methods call it. -/
def removeEntry (key : Value) (gc : Collector) (s : State) : Except Exit (Bool × State) :=
  remove gc key s

/-- What a call comes to, or how far it got. -/
inductive Reply where
  | done
  | bool (b : Bool)
  /-- A collection. -/
  | table (i : Nat)
  /-- A member waits for the program. -/
  | pending
  /-- A TypeError: the receiver is of another kind. -/
  | thrown
  deriving DecidableEq

namespace World

variable (gc : Collector)

def addTo (keep : List Value) (i : Nat) (value : Value) (w : World) :
    Except Exit (Unit × World) :=
  let key := canonicalizeKey value
  w.onTable gc keep i () (setEntry key key)

def setHas (keep : List Value) (i : Nat) (value : Value) (w : World) :
    Except Exit (Bool × World) :=
  w.onTable gc keep i false (hasEntry (canonicalizeKey value))

/-- `MapHeader::remove` on a result, of a key that was canonicalized. -/
def removeFrom (keep : List Value) (i : Nat) (value : Value) (w : World) :
    Except Exit (Bool × World) :=
  w.onTable gc keep i false (removeEntry (canonicalizeKey value))

/-- The loop over a block of elements that adds them to a result. -/
def addAll (i : Nat) : List Value → World → Except Exit World
  | [], w => .ok w
  | v :: vs, w => do
    let (_, w) ← w.addTo gc vs i v
    addAll i vs w

/-- The loop at the end of `setIntersection`, over the elements of this set. -/
def addMatched (matched result : Nat) : List Value → World → Except Exit World
  | [], w => .ok w
  | v :: vs, w => do
    let (present, w) ← w.setHas gc (v :: vs) matched v
    if present then
      let (_, w) ← w.addTo gc vs result v
      addMatched matched result vs w
    else addMatched matched result vs w

/-- `newSet`, and `rtNewMap`: `fresh` is the heap after the allocation, and the object. -/
def create (isSet : Bool) (fresh : Heap × ObjectId) (w : World) : World :=
  { w with
    heap := fresh.1
    tables := w.tables ++ [some { isSet, map := Collections.create fresh.2 }] }

def liveCount (w : World) (i : Nat) : Nat := (w.table? i).elim 0 fun t => t.map.liveCount

/-- A block of `count` elements of a collection. -/
def elements (w : World) (i count : Nat) : List Value :=
  (w.table? i).elim [] fun t => fillLiveElements t.map count

def waits (f : Frame) (w : World) : Reply × World :=
  (.pending, { w with frames := f :: w.frames })

/-- The loop over a block of elements that asks `has` for each. -/
def ask (a : Asking) : List Value → World → Reply × World
  | [], w =>
    match a with
    | .intersection result | .difference result => (.table result, w)
    | .isSubsetOf | .isDisjointFrom => (.bool true, w)
  | v :: vs, w => w.waits (.asking a v vs)

end World

/-! ## The members -/

/-- `SetRecord::size`: an integer, or infinity. -/
abbrev Size := Option Nat

/-- `static_cast<double>(n) <= rec.size`. -/
def atMost (n : Nat) (size : Size) : Bool := size.all (n ≤ ·)

/-- `static_cast<double>(n) < rec.size`. -/
def below (n : Nat) (size : Size) : Bool := size.all (n < ·)

namespace World

variable (gc : Collector)

/-- A member, from `GetSetRecord` on to where it first waits. -/
def call (op : SetOp) (self : Nat) (size : Size) (fresh : Heap × ObjectId) (w : World) :
    Except Exit (Reply × World) :=
  let thisSize := w.liveCount self
  let result := w.tables.length
  match op with
  | .union => .ok (w.waits (.opening (.union self)))
  | .intersection =>
    let w := w.create true fresh
    if atMost thisSize size then .ok (w.ask (.intersection result) (w.elements self thisSize))
    else .ok (w.waits (.opening (.intersection self result)))
  | .difference => do
    let w := w.create true fresh
    let w ← addAll gc result (w.elements self thisSize) w
    if atMost thisSize size then return w.ask (.difference result) (w.elements self thisSize)
    else return w.waits (.opening (.difference result))
  | .symmetricDifference => .ok (w.waits (.opening (.symmetricDifference self)))
  | .isSubsetOf =>
    if !atMost thisSize size then .ok (.bool false, w)
    else .ok (w.ask .isSubsetOf (w.elements self thisSize))
  | .isSupersetOf =>
    if below thisSize size then .ok (.bool false, w)
    else .ok (w.waits (.opening (.isSupersetOf self)))
  | .isDisjointFrom =>
    if atMost thisSize size then .ok (w.ask .isDisjointFrom (w.elements self thisSize))
    else .ok (w.waits (.opening (.isDisjointFrom self)))

/-- A member whose `openKeys` has returned. -/
def opened (fresh : Heap × ObjectId) (w : World) : Opening → Except Exit (Reply × World)
  | .union self => do
    let result := w.tables.length
    let w := w.create true fresh
    let w ← addAll gc result (w.elements self (w.liveCount self)) w
    return w.waits (.reading (.union result))
  | .intersection self result =>
    let matched := w.tables.length
    let w := w.create true fresh
    .ok (w.waits (.reading (.intersection self result matched)))
  | .difference result => .ok (w.waits (.reading (.difference result)))
  | .symmetricDifference self => do
    let result := w.tables.length
    let w := w.create true fresh
    let w ← addAll gc result (w.elements self (w.liveCount self)) w
    return w.waits (.reading (.symmetricDifference self result))
  | .isSupersetOf self => .ok (w.waits (.reading (.isSupersetOf self)))
  | .isDisjointFrom self => .ok (w.waits (.reading (.isDisjointFrom self)))

/-- A member whose `otherHas` has returned `present` for `element`. -/
def answered (present : Bool) (element : Value) (rest : List Value) (w : World) :
    Asking → Except Exit (Reply × World)
  | .intersection result =>
    if present then do
      let (_, w) ← w.addTo gc rest result element
      return w.ask (.intersection result) rest
    else .ok (w.ask (.intersection result) rest)
  | .difference result =>
    if present then do
      let (_, w) ← w.removeFrom gc rest result element
      return w.ask (.difference result) rest
    else .ok (w.ask (.difference result) rest)
  | .isSubsetOf => if present then .ok (w.ask .isSubsetOf rest) else .ok (.bool false, w)
  | .isDisjointFrom => if present then .ok (.bool false, w) else .ok (w.ask .isDisjointFrom rest)

/-- A member whose `stepIterator` has produced a value. -/
def yielded (value : Value) (w : World) : Reading → Except Exit (Reply × World)
  | .union result => do
    let (_, w) ← w.addTo gc [] result value
    return w.waits (.reading (.union result))
  | .intersection self result matched => do
    let (present, w) ← w.setHas gc [value] self value
    if present then
      let (_, w) ← w.addTo gc [] matched value
      return w.waits (.reading (.intersection self result matched))
    else return w.waits (.reading (.intersection self result matched))
  | .difference result => do
    let (_, w) ← w.removeFrom gc [] result value
    return w.waits (.reading (.difference result))
  | .symmetricDifference self result => do
    let (present, w) ← w.setHas gc [value] self value
    if present then
      let (_, w) ← w.removeFrom gc [] result value
      return w.waits (.reading (.symmetricDifference self result))
    else
      let (_, w) ← w.addTo gc [] result value
      return w.waits (.reading (.symmetricDifference self result))
  | .isSupersetOf self => do
    let (present, w) ← w.setHas gc [] self value
    if present then return w.waits (.reading (.isSupersetOf self)) else return (.bool false, w)
  | .isDisjointFrom self => do
    let (present, w) ← w.setHas gc [] self value
    if present then return (.bool false, w) else return w.waits (.reading (.isDisjointFrom self))

/-- A member whose `stepIterator` is done. -/
def exhausted (w : World) : Reading → Except Exit (Reply × World)
  | .union result => .ok (.table result, w)
  | .intersection self result matched => do
    let w ← addMatched gc matched result (w.elements self (w.liveCount self)) w
    return (.table result, w)
  | .difference result => .ok (.table result, w)
  | .symmetricDifference _ result => .ok (.table result, w)
  | .isSupersetOf _ => .ok (.bool true, w)
  | .isDisjointFrom _ => .ok (.bool true, w)

/-- `rtRequireCollection`, and `requireSet`. -/
def hasKind (isSet : Bool) (i : Nat) (w : World) : Bool :=
  (w.table? i).any fun t => t.isSet = isSet

end World

/-- A call of a method, or an answer to the member that waits. -/
inductive Action where
  /-- `new Map()`, or `new Set()`. -/
  | create (isSet : Bool) (fresh : Heap × ObjectId)
  /-- `Map.prototype.set`. -/
  | set (i : Nat) (key val : Value)
  /-- `Set.prototype.add`. -/
  | add (i : Nat) (key : Value)
  | delete (isSet : Bool) (i : Nat) (key : Value)
  | has (isSet : Bool) (i : Nat) (key : Value)
  | clear (isSet : Bool) (i : Nat)
  /-- A member of `rtSetOperationMethods`, on a Set record of some size. -/
  | call (op : SetOp) (self : Nat) (size : Size) (fresh : Heap × ObjectId)
  /-- `keys` of the other side returned an iterator. -/
  | opened (fresh : Heap × ObjectId)
  /-- `has` of the other side returned. -/
  | answered (present : Bool)
  /-- The iterator of the other side produced a value. -/
  | yielded (value : Value)
  /-- The iterator of the other side is done. -/
  | exhausted
  /-- The program throws where the member waits. -/
  | throws
  /-- The program lets go of a collection. -/
  | forget (i : Nat)
  /-- The heap is as a collection, or an allocation elsewhere, left it. -/
  | collect (heap : Heap)

namespace World

variable (gc : Collector)

/-- `thrown`, where the receiver is not of the kind. -/
def require (isSet : Bool) (i : Nat) (w : World) (x : Except Exit (Reply × World)) :
    Except Exit (Reply × World) :=
  if w.hasKind isSet i then x else .ok (.thrown, w)

/-- The innermost member gets its answer. An answer nothing waits for changes nothing. -/
def resume (w : World) : Action → Except Exit (Reply × World)
  | .opened fresh =>
    match w.frames with
    | .opening o :: frames => opened gc fresh { w with frames } o
    | _ => .ok (.done, w)
  | .answered present =>
    match w.frames with
    | .asking a element rest :: frames => answered gc present element rest { w with frames } a
    | _ => .ok (.done, w)
  | .yielded value =>
    match w.frames with
    | .reading r :: frames => yielded gc value { w with frames } r
    | _ => .ok (.done, w)
  | .exhausted =>
    match w.frames with
    | .reading r :: frames => exhausted gc { w with frames } r
    | _ => .ok (.done, w)
  | _ => .ok (.done, w)

/-- What happens to the collections. -/
def exec (w : World) : Action → Except Exit (Reply × World)
  | .create isSet fresh => .ok (.table w.tables.length, w.create isSet fresh)
  | .set i key val => w.require false i do
    let (_, w) ← w.onTable gc [] i () (setEntry key val)
    return (.table i, w)
  | .add i key => w.require true i do
    let (_, w) ← w.onTable gc [] i () (setEntry key key)
    return (.table i, w)
  | .delete isSet i key => w.require isSet i do
    let (removed, w) ← w.onTable gc [] i false (removeEntry key)
    return (.bool removed, w)
  | .has isSet i key => w.require isSet i do
    let (present, w) ← w.onTable gc [] i false (hasEntry key)
    return (.bool present, w)
  | .clear isSet i => w.require isSet i do
    let (_, w) ← w.onTable gc [] i () fun _ s => .ok ((), { s with map := Collections.clear s.map })
    return (.done, w)
  | .call op self size fresh => w.require true self (call gc op self size fresh w)
  | .throws => .ok (.thrown, { w with frames := w.frames.tail })
  | .forget i => .ok (.done, { w with tables := w.tables.set i none })
  | .collect heap => .ok (.done, { w with heap })
  | answer => resume gc w answer

/-- A program with no collection yet. -/
def start (heap : Heap) : World := { heap, tables := [], frames := [] }

end World

/-- A program passes what it holds, lets go of no collection a member goes on with, and a
collection keeps what is reached. -/
def Action.Allowed (w : World) : Action → Prop
  | .create _ fresh | .call _ _ _ fresh | .opened fresh =>
    Heap.Collects w.roots w.heap fresh.1 ∧ fresh.1.live fresh.2
  | .set _ key val => key.Live w.heap ∧ val.Live w.heap
  | .add _ key | .delete _ _ key | .has _ _ key | .yielded key => key.Live w.heap
  | .clear _ _ | .answered _ | .exhausted | .throws => True
  | .forget i => ∀ f ∈ w.frames, i ∉ f.tables
  | .collect heap => Heap.Collects w.roots w.heap heap

/-- An action that came about, and what it came to. -/
def Acts (gc : Collector) (w : World) (e : Action × Reply) (w' : World) : Prop :=
  e.1.Allowed w ∧ w.exec gc e.1 = .ok (e.2, w')

end Bronze.Collections
