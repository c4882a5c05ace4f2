import Bronze.Map.Key
import Bronze.Table.LinearProbing

/-!
# The property table of an object in dictionary mode

`class Dictionary` of `src/runtime/dictionary.h` and its operations in
`src/runtime/dictionary.cpp`: the entries in the order of insertion, a removed one left as a
tombstone, an open-addressed index over them, and the slots of the object's storage they are
given. With it the chain of shapes of `src/runtime/shape.h` a dictionary is made from.

A probe that does not stop is `none`. A slot of storage is a number, and what it holds is no
concern of the table.
-/

namespace Bronze

open LinearProbing

/-- `class PropertyKey`, of a valid key. A string key is its content, a symbol is its address in
the arena, where nothing moves. -/
inductive PropertyKey where
  | string (chars : List UInt16)
  | symbol (address : UInt64)
  deriving DecidableEq

def PropertyKey.matches : PropertyKey → PropertyKey → Bool
  | .string s, .string t => s = t
  | .symbol a, .symbol b => a = b
  | _, _ => false

namespace Dictionary

def hashKey : PropertyKey → UInt32
  | .string chars => Collections.stringHash chars
  | .symbol bits =>
    let bits := bits ^^^ (bits >>> 33)
    let bits := bits * 0xff51afd7ed558ccd
    let bits := bits ^^^ (bits >>> 33)
    bits.toUInt32

def kMinIndexCapacity : Nat := 8

def capacityFor (live : Nat) : Nat := doubleUntil (live * 2 + 2) (live * 2 + 2) kMinIndexCapacity

end Dictionary

/-- `struct DictEntry`. Without a key it is a tombstone. -/
structure DictEntry where
  key : Option PropertyKey
  slot : Nat
  enumerable : Bool
  accessor : Bool
  writable : Bool
  configurable : Bool
  deriving DecidableEq

def DictEntry.live (e : DictEntry) : Bool := e.key.isSome

structure Dictionary where
  entries : List DictEntry
  /-- A stack, its top first. -/
  freeSlots : List Nat
  nextSlot : Nat
  inlineSlots : Nat
  index : Buckets
  /-- `used_`: cells holding an entry position, dead ones included. -/
  used : Nat
  /-- `live_`. -/
  live : Nat

def kOverflowSlot : Nat := 16

def kDefaultInlineSlots : Nat := 4

def placeSlot (next width inlineSlots : Nat) : Nat :=
  if next < kOverflowSlot ∧ next + width > inlineSlots then kOverflowSlot else next

/-- `Shape::slotWidth`, and the width the table asks for: an accessor is a pair. -/
def slotWidth (accessor : Bool) : Nat := if accessor then 2 else 1

namespace Dictionary

/-- The test of the probe in `find`. -/
def hits (d : Dictionary) (name : PropertyKey) (pos : Nat) : Bool :=
  match d.entries[pos]?.bind DictEntry.key with
  | some key => key.matches name
  | none => false

/-- `Dictionary::find`: the position of the entry. -/
def find (d : Dictionary) : Option PropertyKey → Option (Option Nat)
  | none => some none
  | some name =>
    if d.index.isEmpty then some none
    else
      let mask := d.index.length - 1
      search d.index mask (d.hits name) d.index.length ((hashKey name).toNat &&& mask)

def insertIndex (d : Dictionary) (entryPos : Nat) (hash : UInt32) : Option Dictionary :=
  let mask := d.index.length - 1
  match place d.index mask entryPos d.index.length (hash.toNat &&& mask) with
  | none => none
  | some index => some { d with index, used := d.used + 1 }

/-- The loop of `reindex` over the entries from `pos` on. -/
def insertEntries : List DictEntry → Nat → Dictionary → Option Dictionary
  | [], _, d => some d
  | e :: entries, pos, d =>
    match e.key with
    | none => insertEntries entries (pos + 1) d
    | some key =>
      match d.insertIndex pos (hashKey key) with
      | none => none
      | some d => insertEntries entries (pos + 1) d

def reindex (d : Dictionary) : Option Dictionary :=
  let live := d.entries.countP DictEntry.live
  insertEntries d.entries 0 { d with live, index := List.replicate (capacityFor live) 0, used := 0 }

def compact (d : Dictionary) : Option Dictionary :=
  reindex { d with entries := d.entries.filter DictEntry.live }

/-- `Dictionary::add`, of an entry the caller has found absent. -/
def add (d : Dictionary) (stored : PropertyKey) (slot : Nat)
    (enumerable accessor writable configurable : Bool) : Option Dictionary :=
  let entry := { key := some stored, slot, enumerable, accessor, writable, configurable }
  let d := { d with entries := d.entries ++ [entry], live := d.live + 1 }
  if d.index.isEmpty || (d.used + 1) * 4 > d.index.length * 3 then d.reindex
  else d.insertIndex (d.entries.length - 1) (hashKey stored)

/-- The entry a position names. -/
def entryAt (d : Dictionary) (pos : Nat) : DictEntry :=
  d.entries.getD pos ⟨none, 0, true, false, true, true⟩

/-- What `remove` does at the position of an entry, before the compaction. -/
def bury (d : Dictionary) (pos : Nat) : Dictionary :=
  let e := d.entryAt pos
  { d with
    freeSlots := if e.accessor then d.freeSlots else e.slot :: d.freeSlots
    entries := d.entries.set pos { e with key := none }
    live := d.live - 1 }

/-- The test of `remove` for a compaction. -/
def shrink (d : Dictionary) : Option Dictionary :=
  if d.entries.length > 32 ∧ d.live * 2 ≤ d.entries.length then d.compact else some d

def remove (d : Dictionary) (name : PropertyKey) : Option (Bool × Dictionary) :=
  match d.find name with
  | none => none
  | some none => some (false, d)
  | some (some pos) => (d.bury pos).shrink.map fun d => (true, d)

def allocateSlots (d : Dictionary) (width : Nat) : Nat × Dictionary :=
  let fresh := placeSlot d.nextSlot width d.inlineSlots
  match d.freeSlots with
  | slot :: freeSlots =>
    if width = 1 then (slot, { d with freeSlots })
    else (fresh, { d with nextSlot := fresh + width })
  | [] => (fresh, { d with nextSlot := fresh + width })

/-- The branch of `dictDefine` for a property of another kind. -/
def changeKind (d : Dictionary) (pos : Nat) (enumerable accessor : Bool) : Nat × Dictionary :=
  let e := d.entryAt pos
  let d := if e.accessor then d else { d with freeSlots := e.slot :: d.freeSlots }
  let (slot, d) := d.allocateSlots (slotWidth accessor)
  (slot, { d with entries := d.entries.set pos { e with enumerable, accessor, slot } })

/-- `ObjectHeader::dictDefine`, on the table: the slot of the property, and the table after. -/
def dictDefine (d : Dictionary) (name : PropertyKey) (enumerable accessor : Bool) :
    Option (Nat × Dictionary) :=
  match d.find name with
  | none => none
  | some (some pos) =>
    let e := d.entryAt pos
    if e.accessor = accessor then
      some (e.slot, { d with entries := d.entries.set pos { e with enumerable } })
    else some (d.changeKind pos enumerable accessor)
  | some none =>
    let (slot, d) := d.allocateSlots (slotWidth accessor)
    (d.add name slot enumerable accessor true true).map fun d => (slot, d)

end Dictionary

/-- `class Shape`, of a shape that is no dictionary's: the chain of its parents, each of them a
property, and the root with the number of inline slots. -/
inductive Shape where
  | root (inlineSlots : Nat)
  | child (parent : Shape) (key : PropertyKey) (slotIndex : Nat)
      (enumerable accessor writable configurable : Bool)

namespace Shape

def clampInlineSlots (n : Nat) : Nat :=
  if n < kDefaultInlineSlots then kDefaultInlineSlots
  else if n > kOverflowSlot then kOverflowSlot
  else n

def createRoot (inlineSlots : Nat) : Shape := root (clampInlineSlots inlineSlots)

/-- `inline_slots`, which a child copies from its parent. -/
def inlineSlots : Shape → Nat
  | root n => n
  | child parent .. => parent.inlineSlots

def slotEnd : Shape → Nat
  | root _ => 0
  | child _ _ slotIndex _ accessor _ _ => slotIndex + slotWidth accessor

def nextSlotIndex (s : Shape) (width : Nat) : Nat := placeSlot s.slotEnd width s.inlineSlots

/-- `Shape::addPropertyKey`: the node it comes to. -/
def addPropertyKey (s : Shape) (key : PropertyKey)
    (enumerable accessor writable configurable : Bool) : Shape :=
  child s key (s.nextSlotIndex (slotWidth accessor)) enumerable accessor writable configurable

/-- The keys of the chain, newest first. -/
def keys : Shape → List PropertyKey
  | root _ => []
  | child parent key .. => key :: parent.keys

/-- The loop of `toDictionary`, root-ward. -/
def collect : Shape → Dictionary → Dictionary
  | root _, d => d
  | child parent key slotIndex enumerable accessor writable configurable, d =>
    let entry :=
      { key := some key, slot := slotIndex, enumerable, accessor, writable, configurable }
    let past := slotIndex + slotWidth accessor
    parent.collect { d with
      entries := d.entries ++ [entry]
      nextSlot := if past > d.nextSlot then past else d.nextSlot }

/-- `ObjectHeader::toDictionary`: the table of the new shape. -/
def toDictionary (s : Shape) : Option Dictionary :=
  let d := s.collect
    { entries := [], freeSlots := [], nextSlot := 0, inlineSlots := s.inlineSlots, index := [],
      used := 0, live := 0 }
  Dictionary.reindex { d with entries := d.entries.reverse }

/-- The shapes an object gets to: a property is added where there is none of that name. -/
inductive Reached : Shape → Prop
  | root (n : Nat) : Reached (createRoot n)
  | add {s : Shape} {key : PropertyKey} (enumerable accessor writable configurable : Bool) :
      Reached s → key ∉ s.keys →
      Reached (s.addPropertyKey key enumerable accessor writable configurable)

end Shape

end Bronze
