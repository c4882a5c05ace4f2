import Bronze.Proxy.Target

/-!
# The invariants of a proxy

The checks of `proxy_invariant.cpp` on what a trap answered, and the steps of ECMA-262 10.5.1 and
10.5.5 to 10.5.11 they stand for. A check asks `rtOwnPropertyOf` for the property of the target; it
is the language's check of the property it is shown.

## Main results

* `throws_checkGet` and its siblings: a check throws as the language does of what is seen
-/

namespace Bronze.Proxy

variable {V : Type} [Values V]

variable (V) in
/-- A property descriptor, its fields there or not: `DecodedDescriptorView`, and what the fields of
an object a trap returned hold. -/
structure Descriptor where
  value : Option V
  writable : Option Bool
  get : Option V
  set : Option V
  enumerable : Option Bool
  configurable : Option Bool

namespace Descriptor

def isAccessor (d : Descriptor V) : Bool := d.get.isSome || d.set.isSome

def isData (d : Descriptor V) : Bool := d.value.isSome || d.writable.isSome

/-- 6.2.6.5 ToPropertyDescriptor throws: a half that is not callable, or fields of both kinds. -/
def Malformed [DecidableEq V] (d : Descriptor V) : Prop :=
  (∃ f, (d.get = some f ∨ d.set = some f) ∧ f ≠ Values.undefined ∧ Values.callable f = false) ∨
    d.isAccessor = true ∧ d.isData = true

/-- 6.2.6.6 CompletePropertyDescriptor -/
def complete (d : Descriptor V) : Property V :=
  if d.isAccessor then
    .accessor (d.get.getD Values.undefined) (d.set.getD Values.undefined)
      (d.enumerable.getD false) (d.configurable.getD false)
  else
    .data (d.value.getD Values.undefined) (d.writable.getD false) (d.enumerable.getD false)
      (d.configurable.getD false)

end Descriptor

/-- A descriptor with every field of its kind. -/
def Property.descriptor : Property V → Descriptor V
  | .data value writable enumerable configurable =>
    ⟨some value, some writable, none, none, some enumerable, some configurable⟩
  | .accessor getter setter enumerable configurable =>
    ⟨none, none, some getter, some setter, some enumerable, some configurable⟩

def decodeDescriptor (d : Descriptor V) : OwnPropertyDetail V :=
  let detail : OwnPropertyDetail V := { OwnPropertyDetail.initial with
    accessor := d.get.isSome || d.set.isSome
    enumerable := d.enumerable.getD false
    configurable := d.configurable.getD false }
  if detail.accessor then
    { detail with
      getter := d.get.getD Values.undefined
      setter := d.set.getD Values.undefined
      writable := false }
  else
    { detail with
      writable := d.writable.getD false
      value := d.value.getD Values.undefined
      valueKnown := true }

section Checks

variable [DecidableEq V]

def compatibleDescriptor (extensibleTarget : Bool) (desc : OwnPropertyDetail V) :
    Option (OwnPropertyDetail V) → Bool
  | none => extensibleTarget
  | some current =>
    if current.configurable then true
    else if desc.configurable then false
    else if desc.enumerable ≠ current.enumerable then false
    else if desc.accessor ≠ current.accessor then false
    else if current.accessor then
      desc.getter = current.getter && desc.setter = current.setter
    else if current.writable then true
    else if desc.writable then false
    else !current.valueKnown || desc.value = current.value

/-- A field is there, and is not what the target holds. -/
def differs {β : Type} [DecidableEq β] (field : Option β) (current : β) : Bool :=
  match field with
  | none => false
  | some x => x ≠ current

def compatiblePartialDescriptor (extensibleTarget : Bool) (d : Descriptor V) :
    Option (OwnPropertyDetail V) → Bool
  | none => extensibleTarget
  | some current =>
    if current.configurable then true
    else if d.configurable = some true then false
    else if differs d.enumerable current.enumerable then false
    else if (d.isAccessor || d.isData) && d.isAccessor ≠ current.accessor then false
    else if current.accessor then
      !differs d.get current.getter && !differs d.set current.setter
    else if current.writable then true
    else if d.writable = some true then false
    else !(current.valueKnown && differs d.value current.value)

/-! ## The checks -/

def refuse {α : Type} (trap : String) (key : Key) (because : String) : Except String α :=
  .error ("'" ++ trap ++ "' on proxy: trap reported " ++ because ++ " for property '" ++ key.text ++
    "'")

def rtProxyCheckGet (target : Target V) (key : Key) (trapResult : V) : Except String Unit :=
  match ownProperty target key with
  | none => return
  | some current =>
    if current.configurable then return
    else if !current.accessor then
      if current.writable || !current.valueKnown then return
      else if trapResult ≠ current.value then
        refuse "get" key
          "a value different from the non-writable, non-configurable one the target holds"
      else return
    else if current.getter = Values.undefined ∧ trapResult ≠ Values.undefined then
      refuse "get" key
        "a value for a non-configurable accessor on the target whose getter is undefined"
    else return

def rtProxyCheckSet (target : Target V) (key : Key) (value : V) : Except String Unit :=
  match ownProperty target key with
  | none => return
  | some current =>
    if current.configurable then return
    else if !current.accessor then
      if current.writable || !current.valueKnown then return
      else if value ≠ current.value then
        refuse "set" key ("a successful write of a value different from the non-writable, " ++
          "non-configurable one the target holds")
      else return
    else if current.setter = Values.undefined then
      refuse "set" key ("a successful write to a non-configurable accessor on the target whose " ++
        "setter is undefined")
    else return

/-- What `rtProxyCheckHas` and `rtProxyCheckDelete` do of an answer that a property is not there:
refuse it for a property that is locked, or of a target that is. -/
def checkAbsence (trap locked closed : String) (target : Target V) (key : Key) :
    Except String Unit :=
  match ownProperty target key with
  | none => return
  | some current =>
    if !current.configurable then refuse trap key locked
    else if !target.extensible then refuse trap key closed
    else return

def rtProxyCheckHas (target : Target V) (key : Key) (trapAnswer : Bool) : Except String Unit :=
  if trapAnswer then return
  else checkAbsence "has" "the absence of a non-configurable property of the target"
    "the absence of an own property of a target that is not extensible" target key

def rtProxyCheckDelete (target : Target V) (key : Key) (trapAnswer : Bool) : Except String Unit :=
  if !trapAnswer then return
  else checkAbsence "deleteProperty" "the removal of a non-configurable property of the target"
    "the removal of an own property of a target that is not extensible" target key

/-- `rtProxyCheckGetOwnProperty`; it returns the descriptor that is reported. -/
def rtProxyCheckGetOwnProperty (target : Target V) (key : Key) (desc : Option (Descriptor V)) :
    Except String (Option (OwnPropertyDetail V)) :=
  let current := ownProperty target key
  match desc with
  | none => do
    checkAbsence "getOwnPropertyDescriptor"
      "no descriptor for a non-configurable property of the target"
      "no descriptor for an own property of a target that is not extensible" target key
    return none
  | some desc =>
    let reported := decodeDescriptor desc
    if !compatibleDescriptor target.extensible reported current then
      refuse "getOwnPropertyDescriptor" key
        "a descriptor incompatible with the one the target holds"
    else if reported.configurable then return some reported
    else match current with
      | none =>
        refuse "getOwnPropertyDescriptor" key
          "a non-configurable descriptor for a property the target has not got"
      | some current =>
        if current.configurable then
          refuse "getOwnPropertyDescriptor" key
            "a non-configurable descriptor for a configurable property of the target"
        else if !reported.accessor && !reported.writable && current.writable then
          refuse "getOwnPropertyDescriptor" key ("a non-configurable, non-writable descriptor " ++
            "for a writable property of the target")
        else return some reported

def rtProxyCheckOwnKeys (target : Target V) (keys : List Key) : Except String Unit :=
  if ¬keys.Nodup then .error "'ownKeys' on proxy: trap returned a list with a duplicate key"
  else
    let targetKeys := rtProxyTargetOwnKeys target
    let locked := fun k => (ownProperty target k).any fun current => !current.configurable
    match targetKeys.find? fun k => locked k && k ∉ keys with
    | some k =>
      refuse "ownKeys" k "a key list omitting a non-configurable own property of the target"
    | none =>
      if target.extensible then return
      else match targetKeys.find? (· ∉ keys) with
        | some k =>
          refuse "ownKeys" k
            "a key list omitting an own property of a target that is not extensible"
        | none => match keys.find? (· ∉ targetKeys) with
          | some k =>
            refuse "ownKeys" k
              "a key the target does not own, for a target that is not extensible"
          | none => return

def rtProxyCheckPrototype (target : Target V) (trapResult : V) : Except String Unit :=
  if target.extensible then return
  else if trapResult ≠ target.prototype then
    .error ("'getPrototypeOf' on proxy: trap returned a prototype different from the one held " ++
      "by a target that is not extensible")
  else return

def rtProxyCheckDefineProperty (target : Target V) (key : Key) (desc : Descriptor V) :
    Except String Unit :=
  let settingConfigFalse := desc.configurable = some false
  match ownProperty target key with
  | none =>
    if !target.extensible then
      refuse "defineProperty" key "a successful definition on a target that is not extensible"
    else if settingConfigFalse then
      refuse "defineProperty" key ("a successful non-configurable definition of a property the " ++
        "target has not got")
    else return
  | some current =>
    if !compatiblePartialDescriptor target.extensible desc (some current) then
      refuse "defineProperty" key
        "a successful definition incompatible with the property the target holds"
    else if settingConfigFalse && current.configurable then
      refuse "defineProperty" key ("a successful non-configurable definition over a " ++
        "configurable property of the target")
    else if !current.accessor && !current.configurable && current.writable &&
        desc.writable = some false then
      refuse "defineProperty" key ("a successful non-writable definition over a writable " ++
        "non-configurable property of the target")
    else return

end Checks

namespace Ecma

/-- 10.1.6.3 ValidateAndApplyPropertyDescriptor without an object, which 10.1.6.2
IsCompatiblePropertyDescriptor is. -/
def Compatible (extensible : Bool) (d : Descriptor V) : Option (Property V) → Prop
  | none => extensible = true
  | some p => p.configurable = true ∨
    (d.configurable ≠ some true ∧ (∀ e ∈ d.enumerable, e = p.enumerable) ∧
      (d.isAccessor = false ∧ d.isData = false ∨ d.isAccessor = p.isAccessor) ∧
      match p with
      | .accessor getter setter _ _ => (∀ f ∈ d.get, f = getter) ∧ ∀ f ∈ d.set, f = setter
      | .data value writable _ _ =>
        writable = true ∨ d.writable ≠ some true ∧ ∀ v ∈ d.value, v = value)

/-- 10.5.8 step 10: the value a `get` trap answered is refused. -/
def RefusesGet (trapResult : V) : Option (Property V) → Prop
  | none => False
  | some (.data value writable _ configurable) =>
    configurable = false ∧ writable = false ∧ trapResult ≠ value
  | some (.accessor getter _ _ configurable) =>
    configurable = false ∧ getter = Values.undefined ∧ trapResult ≠ Values.undefined

/-- 10.5.9 step 10: a write that a `set` trap reports is refused. -/
def RefusesSet (v : V) : Option (Property V) → Prop
  | none => False
  | some (.data value writable _ configurable) =>
    configurable = false ∧ writable = false ∧ v ≠ value
  | some (.accessor _ setter _ configurable) =>
    configurable = false ∧ setter = Values.undefined

/-- 10.5.5 step 10, 10.5.7 step 8 and 10.5.10 steps 10 to 13: an absence is refused. -/
def RefusesAbsence (extensible : Bool) (current : Option (Property V)) : Prop :=
  ∃ p, current = some p ∧ (p.configurable = false ∨ extensible = false)

/-- 10.5.5 steps 13 to 16: a descriptor that is well formed is refused. -/
def RefusesDescriptor (extensible : Bool) (d : Descriptor V) (current : Option (Property V)) :
    Prop :=
  ¬Compatible extensible d.complete.descriptor current ∨
    d.complete.configurable = false ∧ match current with
      | none => True
      | some (.accessor _ _ _ configurable) => configurable = true
      | some (.data _ writable _ configurable) =>
        configurable = true ∨ writable = true ∧ d.complete.descriptor.writable = some false

/-- 10.5.6 steps 16 to 19: a definition that a trap reports is refused. -/
def RefusesDefinition (extensible : Bool) (d : Descriptor V) : Option (Property V) → Prop
  | none => extensible = false ∨ d.configurable = some false
  | some p => ¬Compatible extensible d (some p) ∨
    d.configurable = some false ∧ p.configurable = true ∨
    match p with
    | .accessor .. => False
    | .data _ writable _ configurable =>
      configurable = false ∧ writable = true ∧ d.writable = some false

/-- 10.5.11 steps 8 to 20: a list of own keys is refused. The lists of both sides are sets. -/
def RefusesKeys (extensible : Bool) (own : Key → Option (Property V)) (ownKeys keys : List Key) :
    Prop :=
  ¬keys.Nodup ∨
    (∃ k ∈ ownKeys, (∃ p, own k = some p ∧ p.configurable = false) ∧ k ∉ keys) ∨
    extensible = false ∧ ¬∀ k, k ∈ keys ↔ k ∈ ownKeys

/-- 10.5.1 step 8: a prototype is refused. -/
def RefusesPrototype (extensible : Bool) (prototype trapResult : V) : Prop :=
  extensible = false ∧ trapResult ≠ prototype

end Ecma

/-- The property behind a report, where the value `v` is the one it is compared with: a value that
is hidden equals whatever it is compared with, a pair that is hidden is undefined. -/
def Shown.seen : Shown → Property V → V → Option (Property V)
  | .valueHidden, .data _ writable enumerable configurable, v =>
    some (.data v writable enumerable configurable)
  | .pairHidden, .accessor _ _ enumerable configurable, _ =>
    some (.accessor Values.undefined Values.undefined enumerable configurable)
  | .stale, _, v => some (.data v false false true)
  | .missing, _, _ => none
  | _, p, _ => some p

/-- The property a check is shown of the target. -/
def Target.seen (t : Target V) (k : Key) (v : V) : Option (Property V) :=
  (t.own k).bind fun p => (t.shown k).seen p v

/-- The report and what is seen through it agree in all that is compared with `v`. -/
inductive Sees (v : V) : Option (OwnPropertyDetail V) → Option (Property V) → Prop
  | absent : Sees v none none
  | whole (p : Property V) : Sees v (some (fillFromShape p)) (some p)
  | value (w : V) (writable enumerable configurable : Bool) :
    Sees v (some (namedProperty (.data w writable enumerable configurable)))
      (some (.data v writable enumerable configurable))
  | other (d : OwnPropertyDetail V) (h : d.configurable = true) :
    Sees v (some d) (some (.data v false false true))

/-- **Each report shows the property that is seen.** -/
theorem sees_seen (t : Target V) (k : Key) (v : V) : Sees v (ownProperty t k) (t.seen k v) := by
  unfold Target.seen
  cases h : t.own k with
  | none =>
    rw [ownProperty_none h]
    exact .absent
  | some p =>
    have hreports := ownProperty_reports h
    generalize t.shown k = s at hreports
    generalize ownProperty t k = d at hreports
    cases s with
    | whole =>
      obtain rfl := hreports
      exact .whole p
    | valueHidden =>
      obtain ⟨hdata, rfl⟩ := hreports
      cases p with
      | data w writable enumerable configurable => exact .value w writable enumerable configurable
      | accessor => cases hdata
    | pairHidden =>
      obtain ⟨haccessor, rfl⟩ := hreports
      cases p with
      | data => cases haccessor
      | accessor getter setter enumerable configurable => exact .whole (.accessor ..)
    | stale =>
      obtain ⟨d, rfl, hd⟩ := hreports
      exact .other d hd
    | missing =>
      obtain rfl := hreports
      exact .absent

section Throws

variable [DecidableEq V] {α : Type}

/-- A check throws a TypeError. -/
def Throws (x : Except String α) : Prop := ∃ message, x = .error message

omit [Values V] [DecidableEq V] in
@[simp] theorem throws_pure (a : α) : ¬Throws (pure a : Except String α) := nofun

omit [Values V] [DecidableEq V] in
@[simp] theorem throws_refuse (trap because : String) (k : Key) :
    Throws (refuse trap k because : Except String α) := ⟨_, rfl⟩

omit [Values V] [DecidableEq V] in
@[simp] theorem throws_error (message : String) : Throws (.error message : Except String α) :=
  ⟨_, rfl⟩

omit [Values V] [DecidableEq V] in
theorem throws_ite {p : Prop} {_ : Decidable p} {x y : Except String α} :
    Throws (if p then x else y) ↔ p ∧ Throws x ∨ ¬p ∧ Throws y := by
  by_cases h : p <;> simp [h]

variable (t : Target V) (k : Key)

theorem throws_checkGet (r : V) :
    Throws (rtProxyCheckGet t k r) ↔ Ecma.RefusesGet r (t.seen k r) := by
  have hsees := sees_seen t k r
  unfold rtProxyCheckGet
  generalize ownProperty t k = d at hsees
  generalize t.seen k r = q at hsees
  cases hsees with
  | absent => simp [Ecma.RefusesGet]
  | whole p =>
    repeat rw [throws_ite]
    cases p <;> simp [Ecma.RefusesGet, fillFromShape, OwnPropertyDetail.initial]
  | value w => simp [Ecma.RefusesGet, namedProperty, fillFromShape, OwnPropertyDetail.initial]
  | other d hd => simp [Ecma.RefusesGet, hd]

theorem throws_checkSet (v : V) :
    Throws (rtProxyCheckSet t k v) ↔ Ecma.RefusesSet v (t.seen k v) := by
  have hsees := sees_seen t k v
  unfold rtProxyCheckSet
  generalize ownProperty t k = d at hsees
  generalize t.seen k v = q at hsees
  cases hsees with
  | absent => simp [Ecma.RefusesSet]
  | whole p =>
    repeat rw [throws_ite]
    cases p <;> simp [Ecma.RefusesSet, fillFromShape, OwnPropertyDetail.initial]
  | value w => simp [Ecma.RefusesSet, namedProperty, fillFromShape, OwnPropertyDetail.initial]
  | other d hd => simp [Ecma.RefusesSet, hd]

omit [DecidableEq V] in
theorem throws_checkAbsence (trap locked closed : String) (v : V) :
    Throws (checkAbsence trap locked closed t k) ↔
      Ecma.RefusesAbsence t.extensible (t.seen k v) := by
  have hsees := sees_seen t k v
  unfold checkAbsence
  generalize ownProperty t k = d at hsees
  generalize t.seen k v = q at hsees
  cases hsees with
  | absent => simp [Ecma.RefusesAbsence]
  | whole p =>
    cases p <;> simp [Ecma.RefusesAbsence, fillFromShape, throws_ite, Property.configurable]
    all_goals grind
  | value w =>
    simp [Ecma.RefusesAbsence, namedProperty, fillFromShape, throws_ite, Property.configurable]
    grind
  | other d hd =>
    simp [Ecma.RefusesAbsence, hd, throws_ite, Property.configurable]

/-! ### Descriptors -/

omit [DecidableEq V] in
/-- What is decoded is the completed descriptor, but for an accessor's `writable`. -/
theorem decodeDescriptor_eq (desc : Descriptor V) :
    (∃ writable enumerable configurable,
      desc.complete = .data (desc.value.getD Values.undefined) writable enumerable configurable ∧
        decodeDescriptor desc = fillFromShape desc.complete) ∨
    ∃ getter setter enumerable configurable,
      desc.complete = .accessor getter setter enumerable configurable ∧
        decodeDescriptor desc = { fillFromShape desc.complete with writable := false } := by
  unfold decodeDescriptor Descriptor.complete
  by_cases h : desc.isAccessor = true
  · right
    have h' := h
    unfold Descriptor.isAccessor at h'
    simp [h, h', fillFromShape, OwnPropertyDetail.initial]
  · left
    have h' := h
    unfold Descriptor.isAccessor at h'
    simp [h, h', fillFromShape, OwnPropertyDetail.initial]

variable {extensible : Bool} {desc : Descriptor V}

/-- The field-by-field comparison of the code is the one of the language, of the property seen. -/
theorem compatibleDescriptor_iff {d : Option (OwnPropertyDetail V)} {q : Option (Property V)}
    (hsees : Sees (desc.value.getD Values.undefined) d q) :
    compatibleDescriptor extensible (decodeDescriptor desc) d = true ↔
      Ecma.Compatible extensible desc.complete.descriptor q := by
  cases hsees with
  | absent => rfl
  | whole p =>
    rcases decodeDescriptor_eq desc with ⟨_, _, _, hc, hdecode⟩ | ⟨_, _, _, _, hc, hdecode⟩ <;>
      rw [hdecode, hc] <;> cases p <;>
      simp [compatibleDescriptor, fillFromShape, Ecma.Compatible, OwnPropertyDetail.initial,
        Property.descriptor, Property.configurable, Property.enumerable, Property.isAccessor,
        Descriptor.isAccessor, Descriptor.isData] <;> grind
  | value w writable enumerable configurable =>
    rcases decodeDescriptor_eq desc with ⟨_, _, _, hc, hdecode⟩ | ⟨_, _, _, _, hc, hdecode⟩ <;>
      rw [hdecode, hc] <;>
      simp [compatibleDescriptor, namedProperty, fillFromShape, Ecma.Compatible,
        OwnPropertyDetail.initial, Property.descriptor, Property.configurable, Property.enumerable,
        Property.isAccessor, Descriptor.isAccessor]
  | other d hd => simp [compatibleDescriptor, hd, Ecma.Compatible, Property.configurable]

omit [Values V] [DecidableEq V] in
theorem differs_eq_true {β : Type} [DecidableEq β] {field : Option β} {current : β} :
    differs field current = true ↔ ¬∀ x ∈ field, x = current := by
  cases field <;> simp [differs]

theorem compatiblePartialDescriptor_iff {d : Option (OwnPropertyDetail V)} {q : Option (Property V)}
    (hsees : Sees (desc.value.getD Values.undefined) d q) :
    compatiblePartialDescriptor extensible desc d = true ↔
      Ecma.Compatible extensible desc q := by
  cases hsees with
  | absent => rfl
  | whole p =>
    cases p with
    | data value writable enumerable configurable =>
      have henumerable := @differs_eq_true _ _ desc.enumerable enumerable
      have hvalue := @differs_eq_true _ _ desc.value value
      simp only [compatiblePartialDescriptor, fillFromShape, OwnPropertyDetail.initial,
        Ecma.Compatible, Property.configurable, Property.enumerable, Property.isAccessor]
      grind
    | accessor getter setter enumerable configurable =>
      have henumerable := @differs_eq_true _ _ desc.enumerable enumerable
      have hget := @differs_eq_true _ _ desc.get getter
      have hset := @differs_eq_true _ _ desc.set setter
      simp only [compatiblePartialDescriptor, fillFromShape, Ecma.Compatible, Property.configurable,
        Property.enumerable, Property.isAccessor]
      grind
  | value w writable enumerable configurable =>
    -- the value the descriptor has is the one that is seen
    have hvalue : ∀ x ∈ desc.value, x = desc.value.getD Values.undefined := by
      intro x hx
      rw [hx]
      rfl
    have henumerable := @differs_eq_true _ _ desc.enumerable enumerable
    simp only [compatiblePartialDescriptor, namedProperty, fillFromShape, OwnPropertyDetail.initial,
      Ecma.Compatible, Property.configurable, Property.enumerable, Property.isAccessor]
    grind
  | other d hd => simp [compatiblePartialDescriptor, hd, Ecma.Compatible, Property.configurable]

theorem throws_checkGetOwnProperty_none (v : V) :
    Throws (rtProxyCheckGetOwnProperty t k none) ↔
      Ecma.RefusesAbsence t.extensible (t.seen k v) := by
  rw [← throws_checkAbsence t k "getOwnPropertyDescriptor"
    "no descriptor for a non-configurable property of the target"
    "no descriptor for an own property of a target that is not extensible" v]
  unfold rtProxyCheckGetOwnProperty
  constructor
  · rintro ⟨message, h⟩
    refine ⟨message, ?_⟩
    revert h
    cases checkAbsence _ _ _ t k with
    | error e =>
      rintro ⟨⟩
      rfl
    | ok u => nofun
  · rintro ⟨message, h⟩
    exact ⟨message, by rw [h]; rfl⟩

omit [DecidableEq V] in
theorem decodeDescriptor_fields (desc : Descriptor V) :
    (decodeDescriptor desc).configurable = desc.complete.configurable ∧
      ((decodeDescriptor desc).accessor = false ∧ (decodeDescriptor desc).writable = false ↔
        desc.complete.descriptor.writable = some false) := by
  rcases decodeDescriptor_eq desc with ⟨_, _, _, hc, hdecode⟩ | ⟨_, _, _, _, hc, hdecode⟩ <;>
    rw [hdecode, hc] <;>
    simp [fillFromShape, OwnPropertyDetail.initial, Property.configurable, Property.descriptor]

omit [Values V] in
theorem compatibleDescriptor_kind {desc current : OwnPropertyDetail V}
    (hlocked : current.configurable = false) (hkind : desc.accessor ≠ current.accessor) :
    compatibleDescriptor extensible desc (some current) = false := by
  simp [compatibleDescriptor, hlocked, hkind]

theorem throws_checkGetOwnProperty (desc : Descriptor V) :
    Throws (rtProxyCheckGetOwnProperty t k (some desc)) ↔
      Ecma.RefusesDescriptor t.extensible desc
        (t.seen k (desc.value.getD Values.undefined)) := by
  have hsees := sees_seen t k (desc.value.getD Values.undefined)
  have hcompatible := @compatibleDescriptor_iff V _ _ t.extensible desc _ _ hsees
  obtain ⟨hconfigurable, hwritable⟩ := decodeDescriptor_fields desc
  unfold rtProxyCheckGetOwnProperty Ecma.RefusesDescriptor
  rw [← hcompatible]
  generalize ownProperty t k = d at hsees
  generalize t.seen k (desc.value.getD Values.undefined) = q at hsees
  rw [throws_ite, throws_ite]
  cases hsees with
  | absent =>
    simp
    grind
  | whole p =>
    rw [throws_ite, throws_ite]
    cases p with
    | data value writable enumerable configurable =>
      simp [fillFromShape]
      grind
    | accessor getter setter enumerable configurable =>
      -- data over a locked accessor has been refused as incompatible
      have hkind := @compatibleDescriptor_kind V _ t.extensible (decodeDescriptor desc)
        (fillFromShape (.accessor getter setter enumerable configurable))
      simp [fillFromShape] at hkind ⊢
      grind
  | value w writable enumerable configurable =>
    rw [throws_ite, throws_ite]
    simp [fillFromShape, namedProperty]
    grind
  | other d hd =>
    dsimp only
    rw [if_pos hd]
    simp
    grind

theorem throws_checkDefineProperty (desc : Descriptor V) :
    Throws (rtProxyCheckDefineProperty t k desc) ↔
      Ecma.RefusesDefinition t.extensible desc
        (t.seen k (desc.value.getD Values.undefined)) := by
  have hsees := sees_seen t k (desc.value.getD Values.undefined)
  have hcompatible := @compatiblePartialDescriptor_iff V _ _ t.extensible desc _ _ hsees
  unfold rtProxyCheckDefineProperty
  generalize ownProperty t k = d at hsees hcompatible
  generalize t.seen k (desc.value.getD Values.undefined) = q at hsees hcompatible
  cases hsees with
  | absent =>
    rw [throws_ite, throws_ite]
    simp [Ecma.RefusesDefinition]
    grind
  | whole p =>
    unfold Ecma.RefusesDefinition
    dsimp only
    rw [throws_ite, throws_ite, throws_ite, ← hcompatible]
    cases p with
    | data =>
      simp [fillFromShape, OwnPropertyDetail.initial, Property.configurable]
      grind
    | accessor =>
      simp [fillFromShape, Property.configurable]
      grind
  | value w writable enumerable configurable =>
    unfold Ecma.RefusesDefinition
    dsimp only
    rw [throws_ite, throws_ite, throws_ite, ← hcompatible]
    simp [fillFromShape, namedProperty, OwnPropertyDetail.initial, Property.configurable]
    grind
  | other d hd =>
    unfold Ecma.RefusesDefinition
    dsimp only
    rw [throws_ite, throws_ite, throws_ite]
    simp [Property.configurable]
    grind

omit [Values V] in
theorem throws_checkPrototype (v : V) :
    Throws (rtProxyCheckPrototype t v) ↔
      Ecma.RefusesPrototype t.extensible t.prototype v := by
  unfold rtProxyCheckPrototype Ecma.RefusesPrototype
  rw [throws_ite, throws_ite]
  simp

omit [DecidableEq V] in
theorem locked_iff (v : V) :
    ((ownProperty t k).any fun current => !current.configurable) = true ↔
      ∃ p, t.seen k v = some p ∧ p.configurable = false := by
  have hsees := sees_seen t k v
  generalize ownProperty t k = d at hsees
  generalize t.seen k v = q at hsees
  cases hsees with
  | absent => simp
  | whole p => cases p <;> simp [fillFromShape, Property.configurable]
  | value w => simp [namedProperty, fillFromShape, Property.configurable]
  | other d hd => simp [hd, Property.configurable]

omit [DecidableEq V] in
/-- The check of a key list is the one of the language, of the keys that are listed and the
properties that are seen. -/
theorem throws_checkOwnKeys (keys : List Key) (v : V) :
    Throws (rtProxyCheckOwnKeys t keys) ↔
      Ecma.RefusesKeys t.extensible (fun k => t.seen k v) (rtProxyTargetOwnKeys t) keys := by
  unfold rtProxyCheckOwnKeys Ecma.RefusesKeys
  rw [throws_ite]
  by_cases hdup : keys.Nodup
  · rw [not_not]
    simp only [hdup, not_true_eq_false, false_and, true_and, false_or]
    cases hlocked : (rtProxyTargetOwnKeys t).find? fun k =>
        ((ownProperty t k).any fun current => !current.configurable) && k ∉ keys with
    | some k =>
      have hk := List.find?_some hlocked
      rw [Bool.and_eq_true, locked_iff t k v, decide_eq_true_eq] at hk
      simp only [throws_refuse, true_iff]
      exact .inl ⟨k, List.mem_of_find?_eq_some hlocked, hk⟩
    | none =>
      -- no locked key is omitted: what is left is about a target that is not extensible
      rw [List.find?_eq_none] at hlocked
      have hnone : ¬∃ k ∈ rtProxyTargetOwnKeys t,
          (∃ p, t.seen k v = some p ∧ p.configurable = false) ∧ k ∉ keys := by
        rintro ⟨k, hk, hseen, hmem⟩
        refine hlocked k hk ?_
        rw [Bool.and_eq_true, locked_iff t k v, decide_eq_true_eq]
        exact ⟨hseen, hmem⟩
      simp only [hnone, false_or]
      rw [throws_ite]
      by_cases hextensible : t.extensible = true
      · simp [hextensible]
      simp only [Bool.not_eq_true] at hextensible
      simp only [hextensible, Bool.false_eq_true, false_and, not_false_eq_true, true_and, false_or]
      cases homitted : (rtProxyTargetOwnKeys t).find? (· ∉ keys) with
      | some k =>
        have hk := List.find?_some homitted
        rw [decide_eq_true_eq] at hk
        simp only [throws_refuse, true_iff]
        exact fun h => hk ((h k).mpr (List.mem_of_find?_eq_some homitted))
      | none =>
        rw [List.find?_eq_none] at homitted
        cases hextra : keys.find? (· ∉ rtProxyTargetOwnKeys t) with
        | some k =>
          have hk := List.find?_some hextra
          rw [decide_eq_true_eq] at hk
          simp only [throws_refuse, true_iff]
          exact fun h => hk ((h k).mp (List.mem_of_find?_eq_some hextra))
        | none =>
          rw [List.find?_eq_none] at hextra
          simp only [throws_pure, false_iff, not_not]
          exact fun k => ⟨fun h => by simpa using hextra k h, fun h => by simpa using homitted k h⟩
  · simp [hdup]

end Throws

end Bronze.Proxy
