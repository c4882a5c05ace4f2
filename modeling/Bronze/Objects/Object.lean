import Bronze.Objects.Heap

/-!
# Operations on an object

What `src/runtime/object.cpp`, `src/runtime/dictionary.cpp`, `src/runtime/accessor.cpp`,
`src/runtime/builtin_object_prototype.cpp` and `src/runtime/integrity.cpp` do to the shape of one
object, of a kind that carries one: the conversion to a dictionary, a delete, a definition in the
dictionary, an accessor, a new prototype, and the integrity levels.
-/

namespace Bronze.Objects

namespace Heap

/-- The bump owed where an object that is a prototype changes. -/
def bumpIf (h : Heap) (owed : Bool) : Heap := if owed then h.bumpProtoMutationEpoch else h

def notePrototypeSlotOverwrite (h : Heap) (a : Address) (slot : Nat) : Heap :=
  match h.shapeOf a with
  | none => h
  | some s =>
    match h.getSlot a slot with
    | .object old =>
      match h.cells old with
      | .function _ => h.bumpIf (h.shapes s).usedAsPrototype
      | _ => h
    | _ => h

def toDictionary (h : Heap) (a : Address) : Option Heap := do
  let old ← h.shapeOf a
  let n := h.shapes old
  if n.isDictionary then return h
  let h := h.bumpIf n.usedAsPrototype
  let table ← (h.chain old).toDictionary
  let (dictShape, h) := h.allocShape (.dictionaryOf h.nextShape n table)
  return h.setShape a dictShape

/-- The table of an object in dictionary mode, with its shape. -/
def tableOf (h : Heap) (a : Address) : Option (ShapeId × PropertyTable) := do
  let s ← h.shapeOf a
  let t ← (h.shapes s).dict
  return (s, t)

/-- The dictionary of a shape written. -/
def setTable (h : Heap) (s : ShapeId) (t : PropertyTable) : Heap :=
  h.modifyShape s fun n => { n with dict := some t }

/-- The attributes of the entry of a name written. -/
def describeEntry (h : Heap) (a : Address) (name : PropertyKey)
    (writable configurable : DictEntry → Bool) : Option Heap := do
  let (s, t) ← h.tableOf a
  match ← t.table.find (some name) with
  | none => return h
  | some pos =>
    let e := t.table.entryAt pos
    let e := { e with writable := writable e, configurable := configurable e }
    return h.setTable s { t with table := { t.table with entries := t.table.entries.set pos e } }

/-- The two slots of a pair written. -/
def putPair (h : Heap) (a : Address) (slot : Nat) (getter setter : Value) : Option Heap := do
  let h ← h.setSlot a slot getter
  h.setSlot a (slot + 1) setter

def clearPair (h : Heap) (a : Address) (slot : Nat) : Option Heap :=
  h.putPair a slot .undefined .undefined

/-- The value of a property written over. -/
def overwrite (h : Heap) (a : Address) (slot : Nat) (v : Value) : Option Heap :=
  (h.notePrototypeSlotOverwrite a slot).setSlot a slot v

/-- `ObjectHeader::dictDefine`: the slot, and the heap after. -/
def dictDefine (h : Heap) (a : Address) (name : PropertyKey) (enumerable accessor : Bool) :
    Option (Nat × Heap) := do
  let (s, t) ← h.tableOf a
  let existing ← t.table.find (some name)
  let (slot, table) ← t.table.dictDefine name enumerable accessor
  let h := h.setTable s { t with table }
  match existing.map t.table.entryAt with
  | some e =>
    if e.accessor = accessor then return (slot, h)
    let h := h.bumpProtoMutationEpoch
    let h ← (if accessor then h.clearPair a slot else some h)
    return (slot, h)
  | none =>
    let h := h.bumpIf (h.shapes s).usedAsPrototype
    let h ← (if accessor then h.clearPair a slot else some h)
    return (slot, h)

def deleteProperty (h : Heap) (a : Address) (name : PropertyKey) : Option (Bool × Heap) := do
  let s ← h.shapeOf a
  match ← h.lookupProperty s name with
  | none => return (true, h)
  | some info =>
    if !info.configurable then return (false, h)
    let h := h.bumpIf (h.shapes s).usedAsPrototype
    let h ← h.toDictionary a
    let (s, t) ← h.tableOf a
    let (removed, table) ← t.table.remove name
    let h := h.setTable s { t with table }
    if !removed then return (false, h)
    let h ← h.setSlot a info.slot .undefined
    let h ← (if info.accessor then h.setSlot a (info.slot + 1) .undefined else some h)
    return (true, h)

/-- The halves a definition names. -/
def setPair (h : Heap) (a : Address) (slot : Nat) (getter setter : Value) : Option Heap := do
  let h ← (if getter = .undefined then some h else h.setSlot a slot getter)
  if setter = .undefined then some h else h.setSlot a (slot + 1) setter

def defineAccessor (h : Heap) (a : Address) (name : PropertyKey) (getter setter : Value)
    (enumerable configurable : Bool) : Option Heap := do
  let s ← h.shapeOf a
  let n := h.shapes s
  match ← h.lookupProperty s name with
  | some own =>
    if own.accessor then (h.bumpIf n.usedAsPrototype).setPair a own.slot getter setter
    else
      let h ← h.toDictionary a
      let (slot, h) ← h.dictDefine a name enumerable true
      h.setPair a slot getter setter
  | none =>
    if n.isDictionary then
      let (slot, h) ← h.dictDefine a name enumerable true
      h.setPair a slot getter setter
    else if n.slotsUsedAfterAdd 2 > kDictionaryThreshold then
      let h ← h.toDictionary a
      let (slot, h) ← h.dictDefine a name enumerable true
      h.setPair a slot getter setter
    else
      let h := h.bumpIf n.usedAsPrototype
      let (next, slot, h) ← h.addPropertyKey s name enumerable true true configurable .boxed
      let h ← (h.setShape a next).clearPair a slot
      h.setPair a slot getter setter

def setPrototype (h : Heap) (a : Address) (newRoot : ShapeId) : Option Heap := do
  let h ← h.bumpProtoMutationEpoch.toDictionary a
  let s ← h.shapeOf a
  return h.modifyShape s fun n => { n with root := newRoot }

/-- `rtIsExtensible`, of a receiver with a shape. -/
def isExtensible (h : Heap) (s : ShapeId) : Bool :=
  match (h.shapes s).dict with
  | none => true
  | some t => t.extensible

/-- The walk for a cycle in `rtObjectSetPrototypeOfOrdinary`. -/
def loopsTo (h : Heap) (a : Address) : Nat → Value → Bool
  | fuel + 1, .object link =>
    if link = a then true
    else match h.shapeOf link with
      | none => false
      | some s => loopsTo h a fuel (h.prototypeValue s)
  | _, _ => false

/-- `rtObjectSetPrototypeOfOrdinary`, of a plain object. -/
def setPrototypeOf (rt : Runtime) (h : Heap) (a : Address) (proto : Value) :
    Option (Bool × Heap) := do
  let s ← h.shapeOf a
  if h.prototypeValue s = proto then return (true, h)
  if !h.isExtensible s then return (false, h)
  if h.loopsTo a 1001 proto then return (false, h)
  let (newRoot, h) := h.rtRootShapeForPrototype rt proto
  let h ← h.setPrototype a newRoot
  return (true, h)

def stampEntries (frozen : Bool) (entries : List DictEntry) : List DictEntry :=
  entries.map fun e =>
    if e.live then
      { e with
        writable := if frozen && !e.accessor then false else e.writable
        configurable := false }
    else e

def setIntegrity (h : Heap) (a : Address) (want : IntegrityLevel) : Option Heap := do
  let h ← h.toDictionary a
  let (s, t) ← h.tableOf a
  let table :=
    if want = .opened then t.table
    else { t.table with entries := stampEntries (want = .frozen) t.table.entries }
  let level := if want.rank > t.level.rank then want else t.level
  return h.setTable s { t with table, extensible := false, level }

def harden (h : Heap) (a : Address) : Option Heap := do
  let h ← h.setIntegrity a .frozen
  let (s, t) ← h.tableOf a
  return h.setTable s { t with hardened := true }

end Heap

end Bronze.Objects
