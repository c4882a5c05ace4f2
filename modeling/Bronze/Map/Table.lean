import Bronze.Map.Key
import Bronze.Table.LinearProbing

/-!
# The table under `Map` and `Set`

`struct MapHeader` of `src/runtime/map.h` and the operations of `src/runtime/map.cpp`. The table is
an entry block in insertion order, a removed entry being a tombstone there, and a bucket block over
it. A collection may run at each allocation of an operation: it may change the heap, and the table
too where that holds its keys weakly.

An allocation too large for a block header leaves the operation; a probe that does not stop would
leave it too.
-/

namespace Bronze.Collections

open LinearProbing

/-- An entry slot. Without a key it is a tombstone: the key is the Hole. -/
structure Entry where
  key : Option Value
  value : Value
  deriving DecidableEq

/-- An entry slot that was not handed out. -/
def Entry.undefined : Entry := { key := some .undefined, value := .undefined }

def Entry.tombstone : Entry := { key := none, value := .undefined }

/-- `struct MapHeader`: the internal slots, and the identity of the object that carries them. -/
structure MapHeader where
  self : ObjectId
  entries : Option (List Entry)
  index : Option Buckets
  liveCount : Nat
  usedCount : Nat
  indexEpoch : Int
  indexAnchor : Int

namespace MapHeader

def entryData (m : MapHeader) : List Entry := m.entries.getD []

def capacity (m : MapHeader) : Nat := m.entryData.length

def buckets (m : MapHeader) : Buckets := m.index.getD []

def bucketCount (m : MapHeader) : Nat := m.buckets.length

/-- `MapHeader::keyAt`, and whether there is a key: `MapHeader::liveAt`. -/
def keyAt (m : MapHeader) (slot : Nat) : Option Value := m.entryData[slot]?.bind Entry.key

/-- The entry slots handed out. -/
def slots (m : MapHeader) : List Entry := m.entryData.take m.usedCount

/-- What the collector reaches through the table. -/
def roots (m : MapHeader) : List ObjectId :=
  m.self :: m.entryData.filterMap fun e => e.key.bind Value.identity

end MapHeader

structure State where
  heap : Heap
  map : MapHeader

/-- `UINT32_MAX`, the slot of no entry. -/
def kNotFound : Nat := 0xFFFFFFFF

def kInitialCapacity : Nat := 8

def kBucketsPerSlot : Nat := 2

def kStableIndex : Int := -2

def bucketCountFor (capacity : Nat) : Nat :=
  doubleUntil (capacity * kBucketsPerSlot) (capacity * kBucketsPerSlot) 8

/-- What comes of the table and the heap at an allocation of so many bytes, with the roots of the
operation that asks for them. -/
abbrev Allocation := List ObjectId → Nat → State → Except Exit State

/-- An allocation in an operation of a strong table: all that the table holds stays. -/
def Collector.allocation (gc : Collector) : Allocation := fun args bytes s => do
  let heap ← allocate gc (s.map.roots ++ args) bytes s.heap
  return { s with heap }

instance : Coe Collector Allocation := ⟨Collector.allocation⟩

def selfAddress (s : State) : Int := (s.heap.address s.map.self).toNat

/-- `sizeof(uint32_t)`. -/
def kBucketSize : Nat := 4

def kValueSize : Nat := 8

/-- The loop of `reindex` over the entry slots from `slot` on. -/
def placeEntries (h : Heap) : List Entry → Nat → Buckets → Except Exit Buckets
  | [], _, t => .ok t
  | e :: entries, slot, t =>
    match e.key with
    | none => placeEntries h entries (slot + 1) t
    | some key =>
      let mask := t.length - 1
      match place t mask slot t.length ((hashKey h key).toNat &&& mask) with
      | none => .error .diverges
      | some t => placeEntries h entries (slot + 1) t

/-- The head of `reindex`: a bucket block of `wanted` buckets, allocated where there is none. -/
def bucketBlock (alloc : Allocation) (args : List ObjectId) (wanted : Nat) (s : State) :
    Except Exit State :=
  if s.map.bucketCount = wanted then .ok s
  else do
    let s ← alloc args (wanted * kBucketSize) s
    return { s with map := { s.map with index := some (List.replicate wanted 0) } }

/-- The tail of `reindex`: the bucket block `t`, and what was counted on the way. -/
def withIndex (t : Buckets) (s : State) : State :=
  let movable := s.map.slots.any fun e => e.key.any (keyMayMove s.heap)
  { s with map := { s.map with
    index := some t
    liveCount := s.map.slots.countP (·.key.isSome)
    indexEpoch := if movable then s.heap.relocationEpoch else kStableIndex
    indexAnchor := selfAddress s } }

/-- `reindex`, with `args` the roots of its caller. -/
def reindex (alloc : Allocation) (args : List ObjectId) (s : State) : Except Exit State := do
  let wanted := bucketCountFor s.map.capacity
  let s ← bucketBlock alloc args wanted s
  let t ← placeEntries s.heap s.map.slots 0 (List.replicate wanted 0)
  return withIndex t s

def epochCurrent (h : Heap) (m : MapHeader) : Bool :=
  m.indexEpoch = kStableIndex || m.indexEpoch = h.relocationEpoch

def ensureIndex (alloc : Allocation) (args : List ObjectId) (s : State) : Except Exit State :=
  if s.map.index.isSome && epochCurrent s.heap s.map && s.map.indexAnchor = selfAddress s then
    .ok s
  else reindex alloc args s

/-- The entry block of `growEntries`: the live entries first, out of `newCap`. -/
def compacted (newCap : Nat) (m : MapHeader) : MapHeader :=
  let kept := m.slots.filter (·.key.isSome)
  { m with
    entries := some (kept ++ List.replicate (newCap - kept.length) .undefined)
    usedCount := kept.length
    liveCount := kept.length }

/-- The capacity `growEntries` picks for a number of live entries. -/
def newCapacity (live : Nat) : Nat :=
  doubleUntil ((live + 1) * 2) ((live + 1) * 2) kInitialCapacity

def growEntries (alloc : Allocation) (args : List ObjectId) (s : State) : Except Exit State := do
  let newCap := newCapacity (s.map.slots.countP (·.key.isSome))
  let s ← alloc args (newCap * 2 * kValueSize) s
  reindex alloc args { s with map := compacted newCap s.map }

/-- The test of `set` for a free entry slot. -/
def ensureRoom (alloc : Allocation) (args : List ObjectId) (s : State) : Except Exit State :=
  if s.map.usedCount ≥ s.map.capacity then growEntries alloc args s else .ok s

/-- `MapHeader::create`, on an object that was just allocated. -/
def create (self : ObjectId) : MapHeader where
  self
  entries := none
  index := none
  liveCount := 0
  usedCount := 0
  indexEpoch := -1
  indexAnchor := -1

/-- The test of the probe in `find`. -/
def hits (h : Heap) (m : MapHeader) (key : Value) (slot : Nat) : Bool :=
  match m.keyAt slot with
  | some k => sameValueZero h k key
  | none => false

def find (alloc : Allocation) (args : List ObjectId) (key : Value) (s : State) :
    Except Exit (Nat × State) :=
  if s.map.liveCount = 0 then .ok (kNotFound, s)
  else do
    let s ← ensureIndex alloc args s
    let count := s.map.bucketCount
    if count = 0 then return (kNotFound, s)
    else
      let mask := count - 1
      match search s.map.buckets mask (hits s.heap s.map key) count
          ((hashKey s.heap key).toNat &&& mask) with
      | none => .error .diverges
      | some none => return (kNotFound, s)
      | some (some slot) => return (slot, s)

/-- The key and the value an operation is given, which its caller holds in roots. -/
def argRoots (key val : Value) : List ObjectId := key.identity.toList ++ val.identity.toList

/-- The insertion at the end of `MapHeader::set`. -/
def insert (key val : Value) (s : State) : Except Exit State :=
  let slot := s.map.usedCount
  let mask := s.map.bucketCount - 1
  match place s.map.buckets mask slot s.map.bucketCount
      ((hashKey s.heap key).toNat &&& mask) with
  | none => .error .diverges
  | some t => .ok { s with map := { s.map with
      entries := s.map.entries.map (·.set slot { key := some key, value := val })
      usedCount := slot + 1
      liveCount := s.map.liveCount + 1
      indexEpoch := if s.map.indexEpoch = kStableIndex && keyMayMove s.heap key
        then s.heap.relocationEpoch else s.map.indexEpoch
      index := some t } }

/-- The update of `MapHeader::set`, at a slot that holds the key. -/
def update (existing : Nat) (val : Value) (m : MapHeader) : MapHeader :=
  { m with entries := m.entries.map fun d => d.modify existing fun e => { e with value := val } }

def set (alloc : Allocation) (key val : Value) (s : State) : Except Exit State := do
  let args := argRoots key val
  let (existing, s) ← find alloc args key s
  if existing ≠ kNotFound then return { s with map := update existing val s.map }
  else do
    let s ← ensureRoom alloc args s
    let s ← ensureIndex alloc args s
    insert key val s

/-- The tombstone `MapHeader::remove` leaves at a slot. -/
def bury (slot : Nat) (m : MapHeader) : MapHeader :=
  { m with
    entries := m.entries.map (·.set slot .tombstone)
    liveCount := m.liveCount - 1 }

def remove (alloc : Allocation) (key : Value) (s : State) : Except Exit (Bool × State) := do
  let (slot, s) ← find alloc key.identity.toList key s
  if slot = kNotFound then return (false, s)
  else return (true, { s with map := bury slot s.map })

def clear (m : MapHeader) : MapHeader :=
  { m with
    entries := m.entries.map fun d =>
      (d.take m.usedCount).map (fun _ => .tombstone) ++ d.drop m.usedCount
    liveCount := 0
    usedCount := 0
    indexEpoch := -1
    indexAnchor := -1 }

end Bronze.Collections
