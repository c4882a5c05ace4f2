import Bronze.Dictionary.Table

/-!
# Shapes and objects

The hidden classes of `src/runtime/shape.h` and `src/runtime/shape.cpp` and the objects at them.
A shape is a node of the arena and an object is a cell of the heap, both known by their address;
nothing is freed or moved. The layout of a tree shape is the chain of its parents, which
`Heap.chain` spells out as the `Shape` a dictionary is made from.

A failing `fatal`, and a probe of a dictionary that does not stop, is `none`. The storage a slot
is kept in (inline or in the overflow block), the index hazard, the counters, the watched layouts
and the family stamps decide nothing here and are left out; a watched layout only moves the epoch
once more.
-/

namespace Bronze.Objects

abbrev ShapeId := Nat

abbrev Address := Nat

/-- `class Value`. Both spellings of a Number are the one number. -/
inductive Value where
  | undefined
  | null
  | number (bits : UInt64)
  | primitive (bits : UInt64)
  | object (address : Address)
  deriving DecidableEq

inductive SlotRepr where
  | boxed
  | double
  deriving DecidableEq

/-- `slotReprAcceptsValue`. -/
def Value.isNumber : Value → Bool
  | number _ => true
  | _ => false

structure PropertyInfo where
  slot : Nat
  enumerable : Bool
  accessor : Bool
  writable : Bool
  configurable : Bool
  deriving DecidableEq

structure ShapeTransition where
  key : PropertyKey
  nextShape : ShapeId
  enumerable : Bool
  accessor : Bool
  writable : Bool
  configurable : Bool
  repr : SlotRepr

inductive IntegrityLevel where
  | opened
  | sealed
  | frozen
  deriving DecidableEq

/-- The order of the underlying `uint8_t`. -/
def IntegrityLevel.rank : IntegrityLevel → Nat
  | opened => 0
  | sealed => 1
  | frozen => 2

/-- A `Dictionary` hung off a shape: the table of the properties, and the fields its own
operations do not read. -/
structure PropertyTable where
  table : Dictionary
  extensible : Bool
  level : IntegrityLevel
  hardened : Bool

structure Shape where
  parent : Option ShapeId
  key : Option PropertyKey
  slotIndex : Nat
  enumerable : Bool
  accessor : Bool
  writable : Bool
  configurable : Bool
  root : ShapeId
  /-- Meaningful on a root shape only. -/
  prototype : Value
  dict : Option PropertyTable
  usedAsPrototype : Bool
  inlineSlots : Nat
  /-- The bits of the slots that hold a double. -/
  doubleSlots : Nat
  repr : SlotRepr
  reprGeneralized : Bool
  transitions : List ShapeTransition

def kDictionaryThreshold : Nat := 1024

def kSlotReprLimit : Nat := 64

namespace Shape

def isDictionary (s : Shape) : Bool := s.dict.isSome

def readCacheable (s : Shape) : Bool :=
  match s.dict with
  | none => true
  | some t => t.level = .frozen

def slotEnd (s : Shape) : Nat := if s.key.isNone then 0 else s.slotIndex + slotWidth s.accessor

def nextSlotIndex (s : Shape) (width : Nat) : Nat := placeSlot s.slotEnd width s.inlineSlots

def slotsBefore (slot inlineSlots : Nat) : Nat :=
  if slot ≥ kOverflowSlot then slot - (kOverflowSlot - inlineSlots) else slot

def slotsUsedAfterAdd (s : Shape) (width : Nat) : Nat :=
  slotsBefore (s.nextSlotIndex width) s.inlineSlots + width

def slotIsDouble (s : Shape) (index : Nat) : Bool :=
  index < kSlotReprLimit && s.doubleSlots.testBit index

/-- The constructor of a root, with the defaults of the fields. -/
def blank (self : ShapeId) : Shape where
  parent := none
  key := none
  slotIndex := 0
  enumerable := true
  accessor := false
  writable := true
  configurable := true
  root := self
  prototype := .undefined
  dict := none
  usedAsPrototype := false
  inlineSlots := kDefaultInlineSlots
  doubleSlots := 0
  repr := .boxed
  reprGeneralized := false
  transitions := []

/-- A root, its fields written. -/
def rootWith (self : ShapeId) (prototype : Value) (inlineSlots : Nat) (usedAsPrototype : Bool) :
    Shape :=
  { blank self with prototype, inlineSlots, usedAsPrototype }

/-- `createDictionaryShape`, of the object at `old`. -/
def dictionaryOf (self : ShapeId) (old : Shape) (table : Dictionary) : Shape :=
  { blank self with
    root := old.root
    dict := some { table, extensible := true, level := .opened, hardened := false }
    inlineSlots := old.inlineSlots
    usedAsPrototype := old.usedAsPrototype }

def child (parentShape : ShapeId) (parent : Shape) (key : Option PropertyKey) (slot : Nat)
    (root : ShapeId) (enumerable accessor writable configurable : Bool) (repr : SlotRepr) :
    Shape where
  parent := some parentShape
  key := key
  slotIndex := slot
  enumerable := enumerable
  accessor := accessor
  writable := writable
  configurable := configurable
  root := root
  prototype := .undefined
  dict := none
  usedAsPrototype := false
  inlineSlots := parent.inlineSlots
  doubleSlots :=
    if repr = .double ∧ slot < kSlotReprLimit then parent.doubleSlots ||| 2 ^ slot
    else parent.doubleSlots
  repr := repr
  reprGeneralized := false
  transitions := []

end Shape

/-- A heap object, by what a walk over a prototype chain sees of it: one that carries a shape
(`HeapKind::carriesShape`), with its slots, a function with its statics object, a proxy, or
another kind. -/
inductive Cell where
  | ordinary (shape : ShapeId) (slots : Nat → Value)
  | function (properties : Value)
  | proxy
  | exotic

/-- What a process has once: whether the heap and the arena are the thread's own (a test's are
not), the keys of a double slot (`slotReprEligible`), and whether a census keeps the caches
empty. -/
structure Runtime where
  threadOwned : Bool
  slotReprEligible : PropertyKey → Bool
  censusFillsSuppressed : Bool

/-- The arena of shapes, the heap, the epoch of prototype mutations, and the root shapes
`rtRootShapeForPrototype` has made. -/
structure Heap where
  shapes : ShapeId → Shape
  nextShape : Nat
  cells : Address → Cell
  nextCell : Nat
  protoEpoch : Nat
  userPrototypeShapes : List ShapeId

namespace Heap

/-- `BRONZE_ABI_PROTO_EPOCH_FIRST`, and an empty heap. -/
def empty : Heap where
  shapes := Shape.blank
  nextShape := 0
  cells := fun _ => .exotic
  nextCell := 0
  protoEpoch := 2
  userPrototypeShapes := []

def bumpProtoMutationEpoch (h : Heap) : Heap := { h with protoEpoch := h.protoEpoch + 2 }

def shapeOf (h : Heap) (a : Address) : Option ShapeId :=
  match h.cells a with
  | .ordinary s _ => some s
  | _ => none

/-- A value that names no object, or one the heap holds. -/
def live (h : Heap) : Value → Bool
  | .object a => a < h.nextCell
  | _ => true

/-- A new node of the arena. -/
def allocShape (h : Heap) (s : Shape) : ShapeId × Heap :=
  (h.nextShape, { h with
    shapes := Function.update h.shapes h.nextShape s
    nextShape := h.nextShape + 1 })

def allocCell (h : Heap) (c : Cell) : Address × Heap :=
  (h.nextCell, { h with
    cells := Function.update h.cells h.nextCell c
    nextCell := h.nextCell + 1 })

/-- A field of a node written. -/
def modifyShape (h : Heap) (s : ShapeId) (f : Shape → Shape) : Heap :=
  { h with shapes := Function.update h.shapes s (f (h.shapes s)) }

/-- `used_as_prototype = true`. -/
def mark (h : Heap) (s : ShapeId) : Heap :=
  h.modifyShape s fun n => { n with usedAsPrototype := true }

def setShape (h : Heap) (a : Address) (s : ShapeId) : Heap :=
  match h.cells a with
  | .ordinary _ slots => { h with cells := Function.update h.cells a (.ordinary s slots) }
  | _ => h

def getSlot (h : Heap) (a : Address) (slot : Nat) : Value :=
  match h.cells a with
  | .ordinary _ slots => slots slot
  | _ => .undefined

def rawSetSlot (h : Heap) (a : Address) (slot : Nat) (v : Value) : Heap :=
  match h.cells a with
  | .ordinary s slots =>
    { h with cells := Function.update h.cells a (.ordinary s (Function.update slots slot v)) }
  | _ => h

/-- The nodes from `s` toward the root, as the layout they spell. A parent is an older node of the
arena, so the address of the node bounds the walk. -/
def chainFrom (h : Heap) : Nat → ShapeId → Bronze.Shape
  | 0, s => .root (h.shapes s).inlineSlots
  | fuel + 1, s =>
    let n := h.shapes s
    match n.key, n.parent with
    | some key, some parent =>
      .child (chainFrom h fuel parent) key n.slotIndex n.enumerable n.accessor n.writable
        n.configurable
    | _, _ => .root n.inlineSlots

/-- The layout of a tree shape. -/
def chain (h : Heap) (s : ShapeId) : Bronze.Shape := h.chainFrom s s

/-- The nodes of `chainOf`, before the reversal. -/
def nodesFrom (h : Heap) : Nat → ShapeId → List ShapeId
  | 0, _ => []
  | fuel + 1, s =>
    let n := h.shapes s
    match n.key, n.parent with
    | some _, some parent => s :: nodesFrom h fuel parent
    | _, _ => []

def chainOf (h : Heap) (s : ShapeId) : List ShapeId := (h.nodesFrom s s).reverse

def prototypeValue (h : Heap) (s : ShapeId) : Value := (h.shapes (h.shapes s).root).prototype

/-- The walk of `lookupProperty` over the parents. -/
def findInChain : Bronze.Shape → PropertyKey → Option PropertyInfo
  | .root _, _ => none
  | .child parent key slot enumerable accessor writable configurable, name =>
    if key.matches name then some { slot, enumerable, accessor, writable, configurable }
    else findInChain parent name

def lookupProperty (h : Heap) (s : ShapeId) (name : PropertyKey) : Option (Option PropertyInfo) :=
  match (h.shapes s).dict with
  | some t =>
    (t.table.find (some name)).map fun pos => pos.map fun pos =>
      let e := t.table.entryAt pos
      { slot := e.slot, enumerable := e.enumerable, accessor := e.accessor,
        writable := e.writable, configurable := e.configurable }
  | none => some (findInChain (h.chain s) name)

/-- The last edge of a node for a key, its attributes and a representation. -/
def edge (transitions : List ShapeTransition) (key : PropertyKey)
    (enumerable accessor writable configurable : Bool) (repr : SlotRepr) : Option ShapeId :=
  let wanted := transitions.filter fun t =>
    t.enumerable = enumerable && t.accessor = accessor && t.writable = writable &&
      t.configurable = configurable && t.key.matches key && t.repr = repr
  wanted.getLast?.map ShapeTransition.nextShape

/-- The representation `addPropertyKey` looks for an edge of. A double edge that has generalized
once sends the store to the boxed one. -/
def wantedRepr (h : Heap) (transitions : List ShapeTransition) (stored : PropertyKey)
    (enumerable accessor writable configurable : Bool) (desired : SlotRepr) : SlotRepr :=
  let double := edge transitions stored enumerable accessor writable configurable .double
  let desired := if accessor then .boxed else desired
  if desired = .double ∧ double.any fun t => (h.shapes t).reprGeneralized then .boxed else desired

/-- The child `addPropertyKey` makes. A slot past the summary word is never a double. -/
def newChild (h : Heap) (this : ShapeId) (stored : PropertyKey)
    (enumerable accessor writable configurable : Bool) (repr : SlotRepr) : Shape :=
  let n := h.shapes this
  let nextSlot := n.nextSlotIndex (slotWidth accessor)
  .child this n (some stored) nextSlot n.root enumerable accessor writable configurable
    (if nextSlot ≥ kSlotReprLimit then .boxed else repr)

/-- The child in the arena and in the transitions of its parent. -/
def addChild (h : Heap) (this : ShapeId) (stored : PropertyKey) (c : Shape) : ShapeId × Heap :=
  let (nextShape, h) := h.allocShape c
  let t := { key := stored, nextShape, enumerable := c.enumerable, accessor := c.accessor,
             writable := c.writable, configurable := c.configurable, repr := c.repr }
  (nextShape, h.modifyShape this fun n => { n with transitions := n.transitions ++ [t] })

/-- `Shape::addPropertyKey`: the node it comes to and the slot of the property. The key of
`Shape::addProperty` is interned, and a key is its content. -/
def addPropertyKey (h : Heap) (this : ShapeId) (stored : PropertyKey)
    (enumerable accessor writable configurable : Bool) (desired : SlotRepr) :
    Option (ShapeId × Nat × Heap) := do
  let n := h.shapes this
  if n.isDictionary then none
  let repr := h.wantedRepr n.transitions stored enumerable accessor writable configurable desired
  let (nextShape, h) ←
    match edge n.transitions stored enumerable accessor writable configurable repr with
    | some nextShape => some (nextShape, h)
    | none =>
      -- The adds convert the object before they get here.
      if Shape.slotsBefore (n.nextSlotIndex (slotWidth accessor)) n.inlineSlots +
          (if accessor then 1 else 0) ≥ kDictionaryThreshold then
        none
      else some (h.addChild this stored
        (h.newChild this stored enumerable accessor writable configurable repr))
  -- An object that was a prototype before this add is still one after it.
  let h := if n.usedAsPrototype then h.mark nextShape else h
  return (nextShape, (h.shapes nextShape).slotIndex, h)

/-- `privateMarkedChain`: copies of the nodes below `cur`, in no transition table. -/
def privateMarkedChain (boxIndex : Option Nat) (root : ShapeId) :
    List ShapeId → ShapeId → Heap → ShapeId × Heap
  | [], cur, h => (cur, h)
  | node :: nodes, cur, h =>
    let n := h.shapes node
    let repr := if boxIndex = some n.slotIndex then .boxed else n.repr
    let copy := Shape.child cur (h.shapes cur) n.key n.slotIndex root n.enumerable n.accessor
      n.writable n.configurable repr
    let (next, h) := h.allocShape { copy with usedAsPrototype := true }
    privateMarkedChain boxIndex root nodes next h

def markObjectAsPrototype (rt : Runtime) (h : Heap) (obj : Address) : Heap :=
  match h.shapeOf obj with
  | none => h
  | some protoShape =>
    let n := h.shapes protoShape
    if n.usedAsPrototype then h
    else if n.isDictionary then h.mark protoShape
    else match h.chainOf protoShape with
      | node :: nodes =>
        let (marked, h) := privateMarkedChain none n.root (node :: nodes) n.root h
        h.setShape obj marked
      | [] =>
        -- The object is at a root that others share.
        if !rt.threadOwned then h.mark protoShape
        else
          let (fresh, h) := h.allocShape
            (.rootWith h.nextShape (h.prototypeValue protoShape) n.inlineSlots true)
          h.setShape obj fresh

def createRoot (rt : Runtime) (h : Heap) (proto : Value) (inlineSlots : Nat) : ShapeId × Heap :=
  let (root, h) := h.allocShape
    (.rootWith h.nextShape proto (Bronze.Shape.clampInlineSlots inlineSlots) false)
  match proto with
  | .object p =>
    match h.cells p with
    | .ordinary _ _ => (root, h.markObjectAsPrototype rt p)
    | .function (.object props) => (root, h.markObjectAsPrototype rt props)
    | _ => (root, h)
  | _ => (root, h)

def rtRootShapeForPrototype (rt : Runtime) (h : Heap) (proto : Value) : ShapeId × Heap :=
  match h.userPrototypeShapes.find? fun root => (h.shapes root).prototype = proto with
  | some root => (root, h)
  | none =>
    let (root, h) := h.createRoot rt proto kDefaultInlineSlots
    (root, { h with userPrototypeShapes := h.userPrototypeShapes ++ [root] })

/-- The step of the rebuild of `withSlotBoxed`, at the node of the old chain. -/
def rebuildNode (index : Nat) (node : ShapeId) (rebuilt : ShapeId) (h : Heap) :
    Option (ShapeId × Heap) := do
  let n := h.shapes node
  let key ← n.key
  let boxes := n.slotIndex = index ∧ n.repr = .double
  let h := if boxes then h.modifyShape node fun n => { n with reprGeneralized := true } else h
  let repr := if boxes then .boxed else n.repr
  let (rebuilt, slot, h) ←
    h.addPropertyKey rebuilt key n.enumerable n.accessor n.writable n.configurable repr
  if slot ≠ n.slotIndex then none
  return (rebuilt, h)

/-- The rebuild along the shared transitions. -/
def rebuild (index : Nat) : List ShapeId → ShapeId → Heap → Option (ShapeId × Heap)
  | [], rebuilt, h => some (rebuilt, h)
  | node :: nodes, rebuilt, h =>
    match rebuildNode index node rebuilt h with
    | none => none
    | some (rebuilt, h) => rebuild index nodes rebuilt h

/-- The marks of `withSlotBoxed` on the nodes of a private chain. -/
def generalizeNodes (index : Nat) : List ShapeId → Heap → Heap
  | [], h => h
  | node :: nodes, h =>
    let n := h.shapes node
    if n.slotIndex = index ∧ n.repr = .double then
      generalizeNodes index nodes (h.modifyShape node fun n => { n with reprGeneralized := true })
    else generalizeNodes index nodes h

def withSlotBoxed (h : Heap) (shape : ShapeId) (index : Nat) : Option (ShapeId × Heap) :=
  let n := h.shapes shape
  if n.isDictionary || !n.slotIsDouble index then some (shape, h)
  else
    let chain := h.chainOf shape
    if n.usedAsPrototype then
      some (privateMarkedChain (some index) n.root chain n.root (generalizeNodes index chain h))
    else do
      let (rebuilt, h) ← rebuild index chain n.root h
      return (rebuilt, if (h.shapes shape).usedAsPrototype then h.mark rebuilt else h)

def setSlot (h : Heap) (a : Address) (index : Nat) (v : Value) : Option Heap := do
  let shape ← h.shapeOf a
  if (h.shapes shape).slotIsDouble index && !v.isNumber then
    let (boxed, h) ← h.withSlotBoxed shape index
    return (h.setShape a boxed).rawSetSlot a index v
  return h.rawSetSlot a index v

end Heap

end Bronze.Objects
