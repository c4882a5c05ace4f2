import Bronze.Objects.Object

/-!
# Inline caches

The caches of `src/runtime/object.h`, the lookups of `src/runtime/object.cpp` that hit and fill
them, the negative fill of `src/runtime/rt_prop_absent.cpp`, and the definition of
`src/runtime/builtin_object_define.cpp` that goes through `setProp`. What a getter, a setter or a
proxy runs is further operations of the run: a lookup ends where it would call one.
-/

namespace Bronze.Objects

/-- `BRONZE_ABI_IC_DEPTH_ACCESSOR_FLAG`. -/
def accessorFlag : Nat := 0x80000000

/-- `BRONZE_ABI_IC_DEPTH_ABSENT_FLAG`. -/
def absentFlag : Nat := 0x40000000

/-- `BRONZE_ABI_IC_DEPTH_DOUBLE_FLAG`. -/
def doubleFlag : Nat := 0x20000000

/-- `cached_shape`: null, the sentinel of an array method, or a shape. -/
inductive CachedShape where
  | null
  | arrayMethod
  | shape (s : ShapeId)
  deriving DecidableEq

structure InlineCache where
  cachedShape : CachedShape
  cachedSlot : Nat
  cachedDepth : Nat
  cachedEpoch : Nat
  deriving DecidableEq

namespace InlineCache

/-- An entry that was not filled. -/
def unfilled : InlineCache :=
  { cachedShape := .null, cachedSlot := 0, cachedDepth := 0, cachedEpoch := 0 }

def isArrayMethod (e : InlineCache) : Bool := e.cachedShape = .arrayMethod

def isAccessor (e : InlineCache) : Bool := e.cachedDepth &&& accessorFlag ≠ 0

def isAbsent (e : InlineCache) : Bool := e.cachedDepth &&& absentFlag ≠ 0

def realDepth (e : InlineCache) : Nat :=
  e.cachedDepth &&& (0xFFFFFFFF ^^^ (accessorFlag ||| absentFlag ||| doubleFlag))

/-- `InlineCache::describes`. A real shape is one a receiver can have. -/
def describes (e : InlineCache) (epoch : Nat) (receiverShape : ShapeId) : Bool :=
  !e.isAbsent && e.cachedShape = .shape receiverShape &&
    (e.realDepth = 0 || e.cachedEpoch = epoch)

def describesAbsent (e : InlineCache) (epoch : Nat) (receiverShape : ShapeId) : Bool :=
  e.isAbsent && e.cachedShape = .shape receiverShape && e.cachedEpoch = epoch

def describesOwn (e : InlineCache) (receiverShape : ShapeId) : Bool :=
  !e.isAccessor && !e.isAbsent && e.realDepth = 0 && e.cachedShape = .shape receiverShape

def fill (receiverShape : ShapeId) (slot depth epoch : Nat) : InlineCache :=
  { cachedShape := .shape receiverShape, cachedSlot := slot, cachedDepth := depth
    cachedEpoch := epoch }

def fillForSet (receiverShape : ShapeId) (slot : Nat) (doubleSlot : Bool) (epoch : Nat) :
    InlineCache :=
  { cachedShape := .shape receiverShape, cachedSlot := slot
    cachedDepth := if doubleSlot then doubleFlag else 0, cachedEpoch := epoch }

def fillAccessor (receiverShape : ShapeId) (slot depth epoch : Nat) : InlineCache :=
  { cachedShape := .shape receiverShape, cachedSlot := slot, cachedDepth := depth ||| accessorFlag
    cachedEpoch := epoch }

def fillAbsent (receiverShape : ShapeId) (epoch : Nat) : InlineCache :=
  { cachedShape := .shape receiverShape, cachedSlot := 0, cachedDepth := absentFlag
    cachedEpoch := epoch }

def fillArrayMethod (methodId : Nat) : InlineCache :=
  { cachedShape := .arrayMethod, cachedSlot := methodId, cachedDepth := 0, cachedEpoch := 0 }

end InlineCache

/-- `struct InlineCacheSite`: `BRONZE_ABI_IC_WAYS` entries, way 0 first. -/
structure InlineCacheSite where
  way0 : InlineCache
  way1 : InlineCache
  way2 : InlineCache
  way3 : InlineCache

namespace InlineCacheSite

/-- A site of a module just loaded. -/
def unfilled : InlineCacheSite := ⟨.unfilled, .unfilled, .unfilled, .unfilled⟩

/-- The ways, in the order of the loops. -/
def ways (site : InlineCacheSite) : List InlineCache := [site.way0, site.way1, site.way2, site.way3]

def find (site : InlineCacheSite) (receiverShape : ShapeId) : Option InlineCache :=
  site.ways.find? fun e => e.cachedShape = .shape receiverShape

/-- `InlineCacheSite::slotForInstall`, and the entry put there. -/
def install (site : InlineCacheSite) (receiverShape : ShapeId) (e : InlineCache) :
    InlineCacheSite :=
  if site.way0.cachedShape = .shape receiverShape then { site with way0 := e }
  else if site.way1.cachedShape = .shape receiverShape then { site with way1 := e }
  else if site.way2.cachedShape = .shape receiverShape then { site with way2 := e }
  else if site.way3.cachedShape = .shape receiverShape then { site with way3 := e }
  -- An array-method sentinel stays at way 0.
  else if site.way0.isArrayMethod then ⟨site.way0, e, site.way1, site.way2⟩
  else ⟨e, site.way0, site.way1, site.way2⟩

end InlineCacheSite

def kMaxPrototypeDepth : Nat := 1000

/-- How the walk of `getProp` over a prototype chain ends: at a holder; at the end of the chain;
at a link that is a proxy, or another object that carries no shape; or at the bound. -/
inductive Lookup where
  | found (holder : Address) (depth : Nat) (info : PropertyInfo)
  | absent
  | proxy (link : Address)
  | stopped
  | tooDeep
  deriving DecidableEq

/-- What `cachedProtoHolder` answers: a holder, or null and why. -/
inductive ProtoHolder where
  | holder (a : Address)
  | crossedDictionary
  | short
  deriving DecidableEq

namespace Heap

/-- The loop of `ObjectHeader::getProp`. -/
def walk (h : Heap) (name : PropertyKey) : Nat → Nat → Address → Option Lookup
  | 0, _, _ => some .tooDeep
  | fuel + 1, depth, holder => do
    match h.shapeOf holder with
    | none => return .stopped
    | some s =>
      match ← h.lookupProperty s name with
      | some info => return .found holder depth info
      | none =>
        match h.prototypeValue s with
        | .object link =>
          match h.cells link with
          | .ordinary _ _ => walk h name fuel (depth + 1) link
          | .proxy => return .proxy link
          | _ => return .stopped
        | _ => return .absent

/-- The fresh lookup of a name from a receiver. -/
def lookup (h : Heap) (a : Address) (name : PropertyKey) : Option Lookup :=
  h.walk name (kMaxPrototypeDepth + 1) 0 a

/-- `ObjectHeader::protoAncestor`, of one link. -/
def protoLink (h : Heap) (s : ShapeId) : Option Address :=
  match h.prototypeValue s with
  | .object link => (h.shapeOf link).map fun _ => link
  | _ => none

def cachedProtoHolder (h : Heap) : Nat → Address → ProtoHolder
  | 0, cur => .holder cur
  | depth + 1, cur =>
    match (h.shapeOf cur).bind h.protoLink with
    | none => .short
    | some link =>
      match h.shapeOf link with
      | none => .short
      | some s =>
        if (h.shapes s).readCacheable then h.cachedProtoHolder depth link else .crossedDictionary

/-- The loop of `ObjectHeader::chainIsCacheable`, from a shape. -/
def linksCacheable (h : Heap) : Nat → ShapeId → Bool
  | 0, _ => false
  | fuel + 1, s =>
    match h.prototypeValue s with
    | .object link =>
      match h.shapeOf link with
      | none => false
      | some t =>
        (h.shapes t).readCacheable &&
          ((h.shapes t).usedAsPrototype || (h.shapes t).isDictionary) && h.linksCacheable fuel t
    | _ => true

def chainIsCacheable (h : Heap) (s : ShapeId) : Bool :=
  (h.shapes s).readCacheable && h.linksCacheable (kMaxPrototypeDepth + 1) s

end Heap

/-- What a read answers, up to the call it would make. -/
inductive GetResult where
  | value (v : Value)
  | getter (f : Value)
  | proxy (link : Address)
  | tooDeep
  deriving DecidableEq

namespace Heap

/-- What is read off a holder: the value of the slot, or the getter to call. -/
def readSlot (h : Heap) (holder : Address) (slot : Nat) (accessor : Bool) : GetResult :=
  if accessor then .getter (h.getSlot holder slot) else .value (h.getSlot holder slot)

/-- What the walk of `getProp` answers. -/
def answer (h : Heap) : Lookup → GetResult
  | .found holder _ info => h.readSlot holder info.slot info.accessor
  | .absent => .value .undefined
  | .proxy link => .proxy link
  | .stopped => .value .undefined
  | .tooDeep => .tooDeep

/-- The hit of `getProp`: `some none` where it falls through. -/
def getCached (h : Heap) (a : Address) (s : ShapeId) (e : InlineCache) :
    Option (Option GetResult) :=
  if e.describesAbsent h.protoEpoch s then some (some (.value .undefined))
  else if e.describes h.protoEpoch s then
    if e.isAccessor then
      match h.cachedProtoHolder e.realDepth a with
      | .holder p => some (some (h.readSlot p e.cachedSlot true))
      | _ => some none
    else if e.cachedDepth = 0 then some (some (h.readSlot a e.cachedSlot false))
    else match h.cachedProtoHolder e.cachedDepth a with
      | .holder p => some (some (h.readSlot p e.cachedSlot false))
      | .crossedDictionary => some none
      | .short => none
  else some none

/-- The entry a found property is cached with, if it may be. -/
def entryFor (rt : Runtime) (h : Heap) (a : Address) (s : ShapeId) : Lookup → Option InlineCache
  | .found holder depth info =>
    if (h.shapes s).readCacheable && !rt.censusFillsSuppressed &&
        (depth = 0 || h.cachedProtoHolder depth a = .holder holder) then
      some (if info.accessor then .fillAccessor s info.slot depth h.protoEpoch
        else .fill s info.slot depth h.protoEpoch)
    else none
  | _ => none

/-- The slow half of `getProp`: the answer, whether the walk is a witness of absence, and the
entry to install. -/
def getSlow (rt : Runtime) (h : Heap) (a : Address) (name : PropertyKey) (s : ShapeId) :
    Option (GetResult × Bool × Option InlineCache) := do
  let found ← h.lookup a name
  return (h.answer found, found = .absent, h.entryFor rt a s found)

/-- `ObjectHeader::getProp`, at a site of `name` or at none. -/
def getProp (rt : Runtime) (h : Heap) (a : Address) (name : PropertyKey)
    (site : Option InlineCacheSite) : Option (GetResult × Bool × Option InlineCache) := do
  let s ← h.shapeOf a
  match site.bind fun site => site.find s with
  | none => h.getSlow rt a name s
  | some e =>
    match ← h.getCached a s e with
    | some result => return (result, false, none)
    | none => h.getSlow rt a name s

def absentEntry (rt : Runtime) (h : Heap) (s : ShapeId) : Option InlineCache :=
  if !rt.censusFillsSuppressed && h.chainIsCacheable s then some (.fillAbsent s h.protoEpoch)
  else none

end Heap

/-! ## Writes -/

/-- `enum class SetRefusal`, of the refusals decided here. -/
inductive SetRefusal where
  | noSetter
  | notWritable
  | notExtensible
  deriving DecidableEq

/-- What a write answers, up to the call it would make. -/
inductive SetResult where
  | stored
  | refused (why : SetRefusal)
  | setter (f : Value)
  | proxy (link : Address)
  | unsupported
  deriving DecidableEq

def callSetter (setter : Value) : SetResult :=
  if setter = .undefined then .refused .noSetter else .setter setter

def desiredSlotRepr (rt : Runtime) (key : PropertyKey) (val : Value)
    (enumerable accessor writable configurable : Bool) : SlotRepr :=
  if accessor || !enumerable || !writable || !configurable then .boxed
  else if !val.isNumber then .boxed
  else if !rt.slotReprEligible key then .boxed
  else .double

/-- What the walk of `setProp` over the prototype chain says to do. -/
inductive Inherited where
  | define
  | refuse
  | setter (holder : Address) (depth : Nat) (slot : Nat)
  | proxy (link : Address)
  deriving DecidableEq

/-- The parameters of `ObjectHeader::setProp` beside the key and the value. -/
structure SetMode where
  enumerable : Bool
  defineOwn : Bool
  writable : Bool
  configurable : Bool

/-- An assignment: `o.k = v`. -/
def SetMode.assignment : SetMode :=
  { enumerable := true, defineOwn := false, writable := true, configurable := true }

namespace Heap

/-- The loop of `setProp` over the prototype chain, from the shape of a holder. -/
def inherited (h : Heap) (name : PropertyKey) : Nat → Nat → ShapeId → Option Inherited
  | 0, _, _ => some .define
  | fuel + 1, depth, s => do
    match h.prototypeValue s with
    | .object link =>
      match h.cells link with
      | .proxy => return .proxy link
      | .ordinary t _ =>
        match ← h.lookupProperty t name with
        | none => inherited h name fuel (depth + 1) t
        | some info =>
          if info.accessor then return .setter link depth info.slot
          let hardened := match (h.shapes t).dict with
            | some d => d.hardened
            | none => false
          if !info.writable && !hardened then return .refuse
          return .define
      | _ => return .define
    | _ => return .define

/-- The guards of the shape-transition hit of `setProp`: the shape it moves to, and the slot. -/
def transitionHit (h : Heap) (s : ShapeId) (name : PropertyKey) (ic : Option InlineCache)
    (mode : SetMode) : Option (ShapeId × Nat) :=
  match ic with
  | none => none
  | some e =>
    match e.cachedShape with
    | .shape next =>
      let n := h.shapes next
      if e.cachedDepth = 0 && !(h.shapes s).isDictionary && n.parent = some s &&
          n.slotIndex = e.cachedSlot && n.enumerable && !n.accessor && n.writable &&
          n.configurable && mode.enumerable && mode.writable && mode.configurable &&
          e.cachedEpoch = h.protoEpoch && n.key.any fun key => key.matches name then
        some (next, e.cachedSlot)
      else none
    | _ => none

/-- The refill of a set site, never with a prototype's shape. -/
def refill (rt : Runtime) (h : Heap) (s : ShapeId) (slot : Nat) (ic : Option InlineCache) :
    Option InlineCache :=
  ic.map fun e =>
    if !(h.shapes s).isDictionary && !(h.shapes s).usedAsPrototype && !rt.censusFillsSuppressed then
      .fillForSet s slot ((h.shapes s).slotIsDouble slot) h.protoEpoch
    else e

/-- The shape-transition hit of `setProp`. -/
def takeTransition (rt : Runtime) (h : Heap) (a : Address) (s next : ShapeId) (slot : Nat)
    (val : Value) (ic : Option InlineCache) : Option (SetResult × Option InlineCache × Heap) := do
  let h := h.bumpIf (h.shapes s).usedAsPrototype
  let h := h.setShape a next
  let ic := h.refill rt next slot ic
  let h ← h.setSlot a slot val
  return (.stored, ic, h)

/-- The write of `setProp` to a property the object has. -/
def setOwn (rt : Runtime) (h : Heap) (a : Address) (s : ShapeId) (own : PropertyInfo) (val : Value)
    (ic : Option InlineCache) (mode : SetMode) :
    Option (SetResult × Option InlineCache × Heap) := do
  if own.accessor then
    if mode.defineOwn then return (.unsupported, ic, h)
    let ic := ic.map fun e =>
      if !(h.shapes s).isDictionary && !rt.censusFillsSuppressed then
        .fillAccessor s own.slot 0 h.protoEpoch
      else e
    return (callSetter (h.getSlot a (own.slot + 1)), ic, h)
  if !own.writable then return (.refused .notWritable, ic, h)
  let ic := h.refill rt s own.slot ic
  let h ← h.overwrite a own.slot val
  return (.stored, ic, h)

/-- The end of `setProp`: the property is created. -/
def createOwn (rt : Runtime) (h : Heap) (a : Address) (s : ShapeId) (name : PropertyKey)
    (val : Value) (ic : Option InlineCache) (mode : SetMode) :
    Option (SetResult × Option InlineCache × Heap) := do
  if !h.isExtensible s then return (.refused .notExtensible, ic, h)
  let n := h.shapes s
  if n.isDictionary || n.slotsUsedAfterAdd 1 > kDictionaryThreshold then
    let h ← h.toDictionary a
    let (slot, h) ← h.dictDefine a name mode.enumerable false
    let h ← h.describeEntry a name (fun _ => mode.writable) fun _ => mode.configurable
    let h ← h.setSlot a slot val
    return (.stored, ic, h)
  let h := h.bumpIf n.usedAsPrototype
  let (next, slot, h) ← h.addPropertyKey s name mode.enumerable false mode.writable
    mode.configurable
    (desiredSlotRepr rt name val mode.enumerable false mode.writable mode.configurable)
  let h := h.setShape a next
  let ic := h.refill rt next slot ic
  let h ← h.setSlot a slot val
  return (.stored, ic, h)

def setSlow (rt : Runtime) (h : Heap) (a : Address) (s : ShapeId) (name : PropertyKey) (val : Value)
    (ic : Option InlineCache) (mode : SetMode) :
    Option (SetResult × Option InlineCache × Heap) := do
  match ← h.lookupProperty s name with
  | some own => h.setOwn rt a s own val ic mode
  | none =>
    let found ← (if mode.defineOwn then some .define
      else h.inherited name kMaxPrototypeDepth 1 s)
    match found with
    | .proxy link => return (.proxy link, ic, h)
    | .refuse => return (.refused .notWritable, ic, h)
    | .setter holder depth slot =>
      let ic := ic.map fun e =>
        if !(h.shapes s).isDictionary && !rt.censusFillsSuppressed &&
            h.cachedProtoHolder depth a = .holder holder then
          .fillAccessor s slot depth h.protoEpoch
        else e
      return (callSetter (h.getSlot holder (slot + 1)), ic, h)
    | .define => h.createOwn rt a s name val ic mode

/-- The setter an accessor entry names, where it describes the receiver. -/
def setCached (h : Heap) (a : Address) (s : ShapeId) (e : InlineCache) : Option SetResult :=
  if e.describes h.protoEpoch s && e.isAccessor then
    match h.cachedProtoHolder e.realDepth a with
    | .holder p => some (callSetter (h.getSlot p (e.cachedSlot + 1)))
    | _ => none
  else none

def setProp (rt : Runtime) (h : Heap) (a : Address) (name : PropertyKey) (val : Value)
    (ic : Option InlineCache) (mode : SetMode) :
    Option (SetResult × Option InlineCache × Heap) := do
  let s ← h.shapeOf a
  match ic.filter fun e => e.describesOwn s with
  | some e =>
    let h ← h.setSlot a e.cachedSlot val
    return (.stored, ic, h)
  | none =>
    match ic.bind (h.setCached a s) with
    | some result => return (result, ic, h)
    | none =>
      match h.transitionHit s name ic mode with
      | some (next, slot) => h.takeTransition rt a s next slot val ic
      | none => h.setSlow rt a s name val ic mode

end Heap

structure DecodedDescriptor where
  hasValue : Bool
  hasWritable : Bool
  hasEnumerable : Bool
  hasConfigurable : Bool
  hasGet : Bool
  hasSet : Bool
  wantWritable : Bool
  wantEnumerable : Bool
  wantConfigurable : Bool
  value : Value
  getter : Value
  setter : Value

namespace DecodedDescriptor

/-- `accessor` of `applyDecodedDescriptor`. -/
def accessor (d : DecodedDescriptor) : Bool := d.hasGet || d.hasSet

def isGeneric (d : DecodedDescriptor) : Bool :=
  !d.hasValue && !d.hasWritable && !d.hasGet && !d.hasSet

/-- `writable`, over the property that is there. -/
def writable (d : DecodedDescriptor) (current : Option PropertyInfo) : Bool :=
  if d.hasWritable then d.wantWritable else current.any PropertyInfo.writable

def enumerable (d : DecodedDescriptor) (current : Option PropertyInfo) : Bool :=
  if d.hasEnumerable then d.wantEnumerable else current.any PropertyInfo.enumerable

def configurable (d : DecodedDescriptor) (current : Option PropertyInfo) : Bool :=
  if d.hasConfigurable then d.wantConfigurable else current.any PropertyInfo.configurable

end DecodedDescriptor

namespace Heap

/-- The tests of `applyDecodedDescriptor` on a property that is not configurable, in the dictionary
branch. -/
def redefinable (h : Heap) (a : Address) (existing : PropertyInfo) (d : DecodedDescriptor) : Bool :=
  if d.hasConfigurable && d.configurable existing then false
  else if d.hasEnumerable && existing.enumerable ≠ d.enumerable existing then false
  else if !d.isGeneric && existing.accessor ≠ d.accessor then false
  else if existing.accessor then
    (!d.hasGet || d.getter = h.getSlot a existing.slot) &&
      (!d.hasSet || d.setter = h.getSlot a (existing.slot + 1))
  else if !existing.writable then
    !(d.hasWritable && d.writable existing) && (!d.hasValue || d.value = h.getSlot a existing.slot)
  else true

/-- `applyDecodedDescriptor` over the dictionary of the object. -/
def defineInDictionary (h : Heap) (a : Address) (name : PropertyKey) (current : Option PropertyInfo)
    (d : DecodedDescriptor) : Option (Bool × Heap) := do
  let h ← h.toDictionary a
  let (s, t) ← h.tableOf a
  match ← h.lookupProperty s name with
  | none =>
    if !t.extensible then return (false, h)
    let (slot, h) ← h.dictDefine a name (d.enumerable current) d.accessor
    let h ← (if d.accessor then
        h.putPair a slot (if d.hasGet then d.getter else .undefined)
          (if d.hasSet then d.setter else .undefined)
      else h.setSlot a slot (if d.hasValue then d.value else .undefined))
    let h ← h.describeEntry a name (fun _ => d.writable current) fun _ => d.configurable current
    return (true, h)
  | some existing =>
    if !existing.configurable && !h.redefinable a existing d then return (false, h)
    let resultAccessor := if d.isGeneric then existing.accessor else d.accessor
    let kept := if existing.accessor = resultAccessor then h.getSlot a existing.slot else .undefined
    let keptSetter :=
      if existing.accessor = resultAccessor && resultAccessor then h.getSlot a (existing.slot + 1)
      else .undefined
    let (slot, h) ← h.dictDefine a name (d.enumerable current) resultAccessor
    let h ← (if resultAccessor then
        h.putPair a slot (if d.hasGet then d.getter else kept)
          (if d.hasSet then d.setter else keptSetter)
      else if d.hasValue then h.overwrite a slot d.value
      else h.setSlot a slot kept)
    let h ← h.describeEntry a name (fun _ => d.writable current) fun _ => d.configurable current
    return (true, h)

/-- `applyDecodedDescriptor`, of a data property that is not configurable. -/
def redefineFixed (h : Heap) (a : Address) (name : PropertyKey) (existing : PropertyInfo)
    (d : DecodedDescriptor) : Option (Bool × Heap) := do
  let writable := d.writable existing
  if d.hasConfigurable && d.configurable existing then return (false, h)
  if d.hasEnumerable && existing.enumerable ≠ d.enumerable existing then return (false, h)
  if !existing.writable && d.hasWritable && writable then return (false, h)
  if !existing.writable && d.hasValue && h.getSlot a existing.slot ≠ d.value then
    return (false, h)
  let h ← (if existing.writable && d.hasValue then h.overwrite a existing.slot d.value
    else some h)
  if existing.writable && d.hasWritable && !writable then
    -- The one change still permitted, and not one a shared shape can express.
    let h ← h.toDictionary a
    let h ← h.describeEntry a name (fun _ => false) DictEntry.configurable
    return (true, h)
  return (true, h)

def applyDecodedDescriptor (rt : Runtime) (h : Heap) (a : Address) (name : PropertyKey)
    (d : DecodedDescriptor) : Option (Bool × Heap) := do
  let s ← h.shapeOf a
  let current ← h.lookupProperty s name
  let enumerable := d.enumerable current
  let configurable := d.configurable current
  let writable := d.writable current
  if (h.shapes s).isDictionary then h.defineInDictionary a name current d
  else
    match current with
    | none =>
      if d.accessor then
        let h ← h.defineAccessor a name d.getter d.setter enumerable configurable
        return (true, h)
      else
        let mode := { enumerable, defineOwn := true, writable, configurable }
        let (result, _, h) ← h.setProp rt a name d.value none mode
        return (result ≠ .refused .notExtensible, h)
    | some existing =>
      if !existing.configurable && (!d.isGeneric && existing.accessor ≠ d.accessor) then
        return (false, h)
      else if !existing.configurable && !existing.accessor then h.redefineFixed a name existing d
      else if existing.configurable && existing.accessor = d.accessor &&
          existing.enumerable = enumerable && existing.writable = writable &&
          existing.configurable = configurable then
        if d.accessor then
          let h ← h.defineAccessor a name d.getter d.setter enumerable configurable
          return (true, h)
        else if d.hasValue then
          let h ← h.overwrite a existing.slot d.value
          return (true, h)
        else return (true, h)
      else h.defineInDictionary a name current d

end Heap

/-- A program's property sites, each of one key, with those of its assignments apart. -/
structure Program where
  siteKey : Nat → PropertyKey
  setSiteKey : Nat → PropertyKey

/-- A heap, and the caches of the sites. -/
structure Machine where
  heap : Heap
  sites : Nat → InlineCacheSite
  setSites : Nat → InlineCache

/-- An empty heap, and caches in their first state. -/
def Machine.initial : Machine where
  heap := .empty
  sites := fun _ => .unfilled
  setSites := fun _ => .unfilled

inductive Op where
  /-- An object that carries no shape: a function with its statics object, a proxy, an array. -/
  | allocate (cell : Cell)
  /-- `Shape::createRoot`, for the instances of a constructor. -/
  | createRoot (proto : Value) (inlineSlots : Nat)
  /-- `ObjectHeader::create`, at a root. -/
  | create (root : ShapeId)
  /-- `Object.create`. -/
  | createFrom (proto : Value)
  /-- A read, at a site or by a computed key. A receiver or a key that a negative entry may not
  speak for is `claimed`. -/
  | get (a : Address) (site : Option Nat) (name : PropertyKey) (claimed : Bool)
  /-- The fill of an array method. -/
  | getArrayMethod (site : Nat) (methodId : Nat)
  /-- A write, at a site or by a computed key. -/
  | set (a : Address) (site : Option Nat) (name : PropertyKey) (val : Value) (mode : SetMode)
  /-- `Object.defineProperty`, the descriptor decoded. -/
  | defineOwnProperty (a : Address) (name : PropertyKey) (d : DecodedDescriptor)
  | defineAccessor (a : Address) (name : PropertyKey) (getter setter : Value)
      (enumerable configurable : Bool)
  | deleteProperty (a : Address) (name : PropertyKey)
  | setPrototypeOf (a : Address) (proto : Value)
  | markObjectAsPrototype (a : Address)
  | setIntegrity (a : Address) (want : IntegrityLevel)
  | harden (a : Address)

namespace Machine

/-- A cell that is none of those with a shape, and names objects of the heap. -/
def allocatable (h : Heap) : Cell → Bool
  | .ordinary _ _ => false
  | .function properties => h.live properties
  | _ => true

def frozen (h : Heap) (a : Address) : Bool := (h.tableOf a).any fun t => t.2.level = .frozen

/-- The site of a read with an entry installed. -/
def installAt (m : Machine) (i : Nat) (s : ShapeId) (e : InlineCache) : Machine :=
  { m with sites := Function.update m.sites i ((m.sites i).install s e) }

def get (rt : Runtime) (prog : Program) (m : Machine) (a : Address) (site : Option Nat)
    (name : PropertyKey) (claimed : Bool) : Option (GetResult × Machine) := do
  let s ← m.heap.shapeOf a
  match site with
  | none =>
    let (result, _, _) ← m.heap.getProp rt a name none
    return (result, m)
  | some i =>
    let (result, witness, entry) ← m.heap.getProp rt a (prog.siteKey i) (m.sites i)
    let entry := if witness && !claimed then m.heap.absentEntry rt s else entry
    match entry with
    | none => return (result, m)
    | some e => return (result, m.installAt i s e)

def set (rt : Runtime) (prog : Program) (m : Machine) (a : Address) (site : Option Nat)
    (name : PropertyKey) (val : Value) (mode : SetMode) : Option (SetResult × Machine) := do
  match site with
  | none =>
    let (result, _, heap) ← m.heap.setProp rt a name val none mode
    return (result, { m with heap })
  | some i =>
    let (result, ic, heap) ← m.heap.setProp rt a (prog.setSiteKey i) val (m.setSites i) mode
    return (result, { m with
      heap
      setSites := Function.update m.setSites i (ic.getD (m.setSites i)) })

end Machine

/-- An operation of a run. The values it is given are objects the heap holds. -/
def exec (rt : Runtime) (prog : Program) (m : Machine) : Op → Option Machine
  | .allocate cell =>
    if Machine.allocatable m.heap cell then some { m with heap := (m.heap.allocCell cell).2 }
    else none
  | .createRoot proto inlineSlots =>
    if m.heap.live proto then some { m with heap := (m.heap.createRoot rt proto inlineSlots).2 }
    else none
  | .create root =>
    let n := m.heap.shapes root
    if root < m.heap.nextShape ∧ n.key = none ∧ n.isDictionary = false then
      some { m with heap := (m.heap.allocCell (.ordinary root fun _ => .undefined)).2 }
    else none
  | .createFrom proto =>
    if m.heap.live proto then
      let (root, heap) := m.heap.rtRootShapeForPrototype rt proto
      some { m with heap := (heap.allocCell (.ordinary root fun _ => .undefined)).2 }
    else none
  | .get a site name claimed => (m.get rt prog a site name claimed).map Prod.snd
  | .getArrayMethod i methodId => some { m with
      sites := Function.update m.sites i { m.sites i with way0 := .fillArrayMethod methodId } }
  | .set a site name val mode => (m.set rt prog a site name val mode).map Prod.snd
  | .defineOwnProperty a name d => do
    let (_, heap) ← m.heap.applyDecodedDescriptor rt a name d
    return { m with heap }
  | .defineAccessor a name getter setter enumerable configurable =>
    -- Its callers define one on an object that nothing else has seen, or was found extensible.
    if Machine.frozen m.heap a then none
    else do
      let heap ← m.heap.defineAccessor a name getter setter enumerable configurable
      return { m with heap }
  | .deleteProperty a name => do
    let (_, heap) ← m.heap.deleteProperty a name
    return { m with heap }
  | .setPrototypeOf a proto =>
    if m.heap.live proto then do
      let (_, heap) ← m.heap.setPrototypeOf rt a proto
      return { m with heap }
    else none
  | .markObjectAsPrototype a => some { m with heap := m.heap.markObjectAsPrototype rt a }
  | .setIntegrity a want => do
    let heap ← m.heap.setIntegrity a want
    return { m with heap }
  | .harden a => do
    let heap ← m.heap.harden a
    return { m with heap }

end Bronze.Objects
