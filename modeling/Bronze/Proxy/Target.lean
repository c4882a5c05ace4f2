import Mathlib

/-!
# The target of a proxy

What an object owns, kind by kind: the own property ECMA-262's [[GetOwnProperty]] answers with, and
the detail that `rtOwnPropertyOf` reports of it. The second is the switch `ownProperty` of
`builtin_object_proto.cpp`, which answers without allocating and so leaves some things out. What it
leaves out of a property is named by `Shown`.

## Main results

* `ownProperty_reports`: a report shows of a property what `shown` says
* `mem_targetOwnKeys_iff`: the runtime lists the own keys that it does not hide
-/

namespace Bronze.Proxy

open List Option

/-- What the checks ask of values. They compare them by `sameValue`, which is equality here: a
value stands for its class. -/
class Values (V : Type) where
  undefined : V
  /-- A number. -/
  number : Nat → V
  /-- `IsCallable` -/
  callable : V → Bool

/-- `PropertyKey`; an index is a string key that spells one. -/
inductive Key
  | index (n : Nat)
  | name (s : String)
  | symbol (id : Nat) (description : String)
  deriving DecidableEq

namespace Key

/-- `rtProxyTrapKey` would hand the trap a string. -/
def isString : Key → Bool
  | symbol _ _ => false
  | _ => true

def text : Key → String
  | index n => toString n
  | name s => s
  | symbol _ description => "Symbol(" ++ description ++ ")"

end Key

section Properties

variable (V : Type)

/-- An own property, its attributes as ECMA-262 6.1.7.1 gives them. -/
inductive Property
  | data (value : V) (writable enumerable configurable : Bool)
  | accessor (getter setter : V) (enumerable configurable : Bool)

structure OwnPropertyDetail where
  accessor : Bool
  writable : Bool
  enumerable : Bool
  configurable : Bool
  valueKnown : Bool
  value : V
  getter : V
  setter : V

/-- The own properties a shape lists, in the order they were added. -/
abbrev Shape : Type := List (Key × Property V)

end Properties

namespace Property

variable {V : Type}

def enumerable : Property V → Bool
  | data _ _ enumerable _ => enumerable
  | accessor _ _ enumerable _ => enumerable

def configurable : Property V → Bool
  | data _ _ _ configurable => configurable
  | accessor _ _ _ configurable => configurable

def isAccessor : Property V → Bool
  | data .. => false
  | accessor .. => true

end Property

variable {V : Type} [Values V]

def OwnPropertyDetail.initial : OwnPropertyDetail V where
  accessor := false
  writable := true
  enumerable := false
  configurable := true
  valueKnown := false
  value := Values.undefined
  getter := Values.undefined
  setter := Values.undefined

def fillFromShape : Property V → OwnPropertyDetail V
  | .data value writable enumerable configurable =>
    { OwnPropertyDetail.initial with
      writable := writable
      enumerable := enumerable
      configurable := configurable
      value := value
      valueKnown := true }
  | .accessor getter setter enumerable configurable =>
    { OwnPropertyDetail.initial with
      accessor := true
      enumerable := enumerable
      configurable := configurable
      getter := getter
      setter := setter }

namespace Shape

def lookup (shape : Shape V) (k : Key) : Option (Property V) :=
  (shape.find? fun entry => entry.1 = k).map Prod.snd

/-- `rtOwnKeysOrdered`: the indices ascending, the names, the symbols. -/
def ownKeysOrdered (shape : Shape V) (enumerableOnly : Bool) : List Key :=
  let inserted := (shape.filter fun entry => !enumerableOnly || entry.2.enumerable).map Prod.fst
  let indices := inserted.filterMap fun
    | .index n => some n
    | _ => none
  let names := inserted.filter fun
    | .name _ => true
    | _ => false
  (indices.mergeSort (· ≤ ·)).map .index ++ (names ++ inserted.filter fun k => !k.isString)

def ownStringKeysOrdered (shape : Shape V) (enumerableOnly : Bool) : List Key :=
  (shape.ownKeysOrdered enumerableOnly).filter Key.isString

end Shape

inductive IntegrityLevel
  | opened
  | sealed
  | frozen
  deriving DecidableEq

/-- What `setIntegrity` records: a level above the lowest one comes with no extensibility. -/
structure Integrity where
  extensible : Bool
  level : IntegrityLevel
  closed : level ≠ .opened → extensible = false

/-- What a function keeps beside its statics. -/
structure FunctionHeader (V : Type) where
  /-- `hasPrototypeProperty`, and the object in the slot. -/
  prototype : Option V
  prototypeReadonly : Bool
  /-- The `length` and the `name`, of a function that has the pair. -/
  pair : Option (Nat × V)
  statics : Shape V
  integrity : Integrity

variable (V) in
/-- What a proxy may have as a target, by `HeapKind`. -/
inductive Target
  /-- Any plain object; `stringData` are the characters of a String wrapper. -/
  | plain (stringData : Option (List V)) (shape : Shape V) (extensible : Bool) (prototype : V)
  | function (header : FunctionHeader V) (prototype : V)
  /-- A hole is no element. -/
  | array (elements : List (Option V)) (named : Shape V) (integrity : Integrity) (prototype : V)
  | typedArray (elements : List V) (shape : Shape V) (extensible : Bool) (prototype : V)
  | regExp (lastIndex : V) (shape : Shape V) (integrity : Integrity) (prototype : V)
  /-- An `ArrayBuffer` or a `DataView`. -/
  | buffer (shape : Shape V) (extensible : Bool) (prototype : V)
  /-- The exports, and the tag under `@@toStringTag`. -/
  | moduleNamespace (exports : List (Key × V)) (toStringTag : Key) (tag : V) (null : V)
  /-- Another proxy: what its traps answer, where it has them, and its own target. -/
  | proxy (getOwnPropertyDescriptor : Key → Option (Option (Property V)))
    (ownKeys : Option (List Key)) (getPrototypeOf : Option V) (target : Target)

namespace Target

/-- `[[IsExtensible]]`, which is also what `rtIsExtensibleOf` answers. -/
def extensible : Target V → Bool
  | plain _ _ extensible _ => extensible
  | function header _ => header.integrity.extensible
  | array _ _ integrity _ => integrity.extensible
  | typedArray _ _ extensible _ => extensible
  | regExp _ _ integrity _ => integrity.extensible
  | buffer _ extensible _ => extensible
  | moduleNamespace .. => false
  -- a trap that contradicts the target throws
  | proxy _ _ _ target => target.extensible

/-- `[[GetPrototypeOf]]`, which is also what `objectGetPrototypeOf` answers. -/
def prototype : Target V → V
  | plain _ _ _ prototype => prototype
  | function _ prototype => prototype
  | array _ _ _ prototype => prototype
  | typedArray _ _ _ prototype => prototype
  | regExp _ _ _ prototype => prototype
  | buffer _ _ prototype => prototype
  | moduleNamespace _ _ _ null => null
  | proxy _ _ getPrototypeOf target => getPrototypeOf.getD target.prototype

/-- A character or the length of a String exotic object, 10.4.3. -/
def stringOwn (units : List V) : Key → Option (Property V)
  | .index n => units[n]?.map fun c => .data c false true false
  | .name "length" => some (.data (Values.number units.length) false false false)
  | _ => none

/-- The pair of a function, 10.2.9 and 10.2.10; an integrity level locks it. -/
def pairOwn (pair : Option (Nat × V)) (level : IntegrityLevel) (k : Key) :
    Option (Property V) :=
  pair.bind fun (length, functionName) =>
    if k = .name "length" then some (.data (Values.number length) false false (level = .opened))
    else if k = .name "name" then some (.data functionName false false (level = .opened))
    else none

/-- The own property of a function: its `prototype`, a static, or one of the pair. -/
def functionOwn (header : FunctionHeader V) (k : Key) : Option (Property V) :=
  -- 10.2.4: a `prototype` is never configurable
  (if k = .name "prototype" then header.prototype.map fun v =>
    .data v (!header.prototypeReadonly && header.integrity.level ≠ .frozen) false false
  else none).or ((header.statics.lookup k).or (pairOwn header.pair header.integrity.level k))

def own : Target V → Key → Option (Property V)
  | plain stringData shape _ _, k =>
    ((stringData.bind fun units => stringOwn units k)).or (shape.lookup k)
  | function header _, k => functionOwn header k
  | array elements named integrity _, k => match k with
    | .index n => (elements[n]?.join).map fun v =>
      .data v (integrity.level ≠ .frozen) true (integrity.level = .opened)
    | .name "length" =>
      some (.data (Values.number elements.length) (integrity.level ≠ .frozen) false false)
    | k => named.lookup k
  | typedArray elements shape _ _, k => match k with
    | .index n => elements[n]?.map fun v => .data v true true true
    | k => shape.lookup k
  | regExp lastIndex shape integrity _, k =>
    if k = .name "lastIndex" then
      some (.data lastIndex (integrity.level ≠ .frozen) false false)
    else shape.lookup k
  | buffer shape _ _, k => shape.lookup k
  | moduleNamespace exports toStringTag tag _, k => match k with
    | .symbol id description =>
      if .symbol id description = toStringTag then some (.data tag false false false) else none
    | k => (exports.find? fun e => e.1 = k).map fun e => .data e.2 true true false
  | proxy getOwnPropertyDescriptor _ _ target, k =>
    (getOwnPropertyDescriptor k).getD (target.own k)

def indices (elements : List (Option V)) : List Key :=
  ((range elements.length).filter fun n => (elements[n]?.join).isSome).map .index

def ownKeys : Target V → List Key
  | plain stringData shape _ _ =>
    (stringData.elim [] fun units =>
      (range units.length).map .index ++ [.name "length"]) ++ shape.ownKeysOrdered false
  | function header _ =>
    (header.pair.elim [] fun _ => [.name "length", .name "name"]) ++
      ((header.prototype.elim [] fun _ => [.name "prototype"]) ++
        header.statics.ownKeysOrdered false)
  | array elements named _ _ => indices elements ++ .name "length" :: named.ownKeysOrdered false
  | typedArray elements shape _ _ =>
    (range elements.length).map .index ++ shape.ownKeysOrdered false
  | regExp _ shape _ _ => .name "lastIndex" :: shape.ownKeysOrdered false
  | buffer shape _ _ => shape.ownKeysOrdered false
  | moduleNamespace exports toStringTag _ _ => exports.map Prod.fst ++ [toStringTag]
  | proxy _ ownKeys _ target => ownKeys.getD target.ownKeys

end Target

/-! ## What the runtime says -/

def functionProperty (header : FunctionHeader V) (k : Key) : Option (OwnPropertyDetail V) :=
  if k = .name "prototype" then
    -- the value is not reported: the slot is filled on demand
    header.prototype.map fun _ =>
      { OwnPropertyDetail.initial with
        configurable := false
        writable := !header.prototypeReadonly && header.integrity.level ≠ .frozen }
  else match header.pair with
    | some (length, _) =>
      if k = .name "length" then
        some { OwnPropertyDetail.initial with
          writable := false
          value := Values.number length
          valueKnown := true }
      else if k = .name "name" then some { OwnPropertyDetail.initial with writable := false }
      else (header.statics.lookup k).map fillFromShape
    | none => (header.statics.lookup k).map fillFromShape

/-- The arm of `ownProperty` for an array's named property. -/
def namedProperty (p : Property V) : OwnPropertyDetail V :=
  { fillFromShape p with
    valueKnown := false
    value := Values.undefined
    getter := Values.undefined
    setter := Values.undefined }

/-- The characters and the length of a String wrapper. -/
def stringProperty (units : List V) : Key → Option (OwnPropertyDetail V)
  | .index n =>
    if n < units.length then
      some { OwnPropertyDetail.initial with
        writable := false
        configurable := false
        enumerable := true }
    else none
  | .name "length" =>
    some { OwnPropertyDetail.initial with
      writable := false
      configurable := false
      value := Values.number units.length
      valueKnown := true }
  | _ => none

def ownProperty : Target V → Key → Option (OwnPropertyDetail V)
  | .plain stringData shape _ _, k =>
    (stringData.bind fun units => stringProperty units k).or ((shape.lookup k).map fillFromShape)
  | .function header _, k => functionProperty header k
  | .array elements named integrity _, k => match k with
    | .name "length" =>
      some { OwnPropertyDetail.initial with
        configurable := false
        writable := integrity.level ≠ .frozen
        value := Values.number elements.length
        valueKnown := true }
    | .index n => (elements[n]?.join).map fun v =>
      { OwnPropertyDetail.initial with
        enumerable := true
        writable := integrity.level ≠ .frozen
        configurable := integrity.level = .opened
        value := v
        valueKnown := true }
    | k => (named.lookup k).map namedProperty
  | .typedArray elements shape _ _, k => match k with
    | .index n =>
      if n < elements.length then some { OwnPropertyDetail.initial with enumerable := true }
      else none
    | k => (shape.lookup k).map fillFromShape
  | .regExp lastIndex shape integrity _, k =>
    if k = .name "lastIndex" then
      some { OwnPropertyDetail.initial with
        configurable := false
        writable := integrity.level ≠ .frozen
        value := lastIndex
        valueKnown := true }
    else (shape.lookup k).map fillFromShape
  | .buffer shape _ _, k => (shape.lookup k).map fillFromShape
  | .moduleNamespace exports toStringTag tag _, k => match k with
    | .symbol id description =>
      if .symbol id description = toStringTag then
        some { OwnPropertyDetail.initial with
          writable := false
          configurable := false
          value := tag
          valueKnown := true }
      else none
    | k => (exports.find? fun e => e.1 = k).map fun _ =>
      { OwnPropertyDetail.initial with
        enumerable := true
        configurable := false }
  -- `rtProxyGetOwnProperty`: the trap's answer, or that of its target
  | .proxy getOwnPropertyDescriptor _ _ target, k =>
    match getOwnPropertyDescriptor k with
    | some answer => answer.map fillFromShape
    | none => ownProperty target k

/-- `rtProxyTargetOwnKeys`: a shape's keys, or else what `bronze_object_keys` lists. -/
def rtProxyTargetOwnKeys : Target V → List Key
  | .plain _ shape _ _ => shape.ownKeysOrdered false
  | .function header _ => header.statics.ownStringKeysOrdered true
  | .array elements named _ _ => Target.indices elements ++ named.ownStringKeysOrdered true
  | .typedArray elements shape _ _ =>
    (range elements.length).map .index ++ shape.ownStringKeysOrdered true
  | .regExp _ shape _ _ => shape.ownStringKeysOrdered true
  | .buffer shape _ _ => shape.ownStringKeysOrdered true
  | .moduleNamespace exports _ _ _ => exports.map Prod.fst
  | .proxy getOwnPropertyDescriptor ownKeys getPrototypeOf target =>
    -- `rtProxyOwnKeys`, of which the enumerable strings are kept
    (ownKeys.getD (rtProxyTargetOwnKeys target)).filter fun k =>
      k.isString && (ownProperty (.proxy getOwnPropertyDescriptor ownKeys getPrototypeOf target)
        k).any OwnPropertyDetail.enumerable

/-- How much of a property the report shows. -/
inductive Shown
  | whole
  /-- All but the value of a data property. -/
  | valueHidden
  /-- All but the getter and the setter of an accessor. -/
  | pairHidden
  /-- Another property in its place, which is configurable. -/
  | stale
  | missing
  deriving DecidableEq

/-- The report `d` shows `s` of `p`. -/
def Reports : Shown → Property V → Option (OwnPropertyDetail V) → Prop
  | .whole, p, d => d = some (fillFromShape p)
  | .valueHidden, p, d => p.isAccessor = false ∧ d = some (namedProperty p)
  | .pairHidden, p, d => p.isAccessor = true ∧ d = some (namedProperty p)
  | .stale, _, d => ∃ other : OwnPropertyDetail V, d = some other ∧ other.configurable = true
  | .missing, _, d => d = none

/-- Of a String wrapper: the characters are not copied out. -/
def stringShown (units : List V) : Key → Shown
  | .index n => if n < units.length then .valueHidden else .whole
  | _ => .whole

/-- Of a function: the pair is reported as if nothing were locked or redefined. -/
def functionShown (header : FunctionHeader V) (k : Key) : Shown :=
  if k = .name "prototype" then if header.prototype.isSome then .valueHidden else .missing
  else if header.pair.isSome ∧ (k = .name "length" ∨ k = .name "name") then
    if header.integrity.level ≠ .opened ∨ (header.statics.lookup k).isSome then .stale
    else if k = .name "length" then .whole
    else .valueHidden
  else .whole

/-- How much of its own property under a key a target is shown to have. -/
def Target.shown : Target V → Key → Shown
  | .plain stringData _ _ _, k => stringData.elim .whole fun units => stringShown units k
  | .function header _, k => functionShown header k
  | .array _ named _ _, k => match k with
    | .index _ => .whole
    | .name "length" => .whole
    | k => match named.lookup k with
      | some (.data ..) => .valueHidden
      | some (.accessor ..) => .pairHidden
      | none => .whole
  | .typedArray .., k => match k with
    | .index _ => .valueHidden
    | _ => .whole
  | .regExp .., _ => .whole
  | .buffer .., _ => .whole
  | .moduleNamespace .., k => match k with
    | .symbol .. => .whole
    | _ => .valueHidden
  | .proxy getOwnPropertyDescriptor _ _ target, k =>
    match getOwnPropertyDescriptor k with
    | some _ => .whole
    | none => target.shown k

/-- The entries of a shape are not listed under this key: it is a symbol, or not enumerable. -/
def Shape.Hides (shape : Shape V) (k : Key) : Prop :=
  k.isString = false ∨ ∀ p, (k, p) ∈ shape → p.enumerable = false

/-- The keys that are not listed: characters of a String wrapper, and, of what is no plain object,
symbols and what is not enumerable. -/
def Target.Hides : Target V → Key → Prop
  | .plain _ shape _ _, k => ∀ p, (k, p) ∉ shape
  | .function header _, k => header.statics.Hides k
  | .array elements named _ _, k => k ∉ indices elements ∧ named.Hides k
  | .typedArray elements shape _ _, k => (∀ n < elements.length, k ≠ .index n) ∧ shape.Hides k
  | .regExp _ shape _ _, k => shape.Hides k
  | .buffer shape _ _, k => shape.Hides k
  | .moduleNamespace exports _ _ _, k => k ∉ exports.map Prod.fst
  | .proxy getOwnPropertyDescriptor ownKeys getPrototypeOf target, k =>
    ownKeys = none ∧ target.Hides k ∨ k.isString = false ∨
      (ownProperty (.proxy getOwnPropertyDescriptor ownKeys getPrototypeOf target) k).any
        OwnPropertyDetail.enumerable = false

/-! ## The report and the property -/

variable {p : Property V} {k : Key} {t : Target V} {shape : Shape V}

theorem reports_whole_of_map {p? : Option (Property V)} (h : p? = some p) :
    Reports .whole p (p?.map fillFromShape) := by
  subst h
  rfl

theorem stringProperty_none {units : List V} (h : Target.stringOwn units k = none) :
    stringProperty units k = none ∧ stringShown units k = .whole := by
  unfold Target.stringOwn at h
  split at h
  · rename_i n
    rw [map_eq_none_iff, getElem?_eq_none_iff] at h
    exact ⟨if_neg (by omega), if_neg (by omega)⟩
  · cases h
  · rename_i hindex hlength
    cases k with
    | index n => exact absurd rfl (hindex n)
    | name s => exact ⟨by simp [stringProperty], rfl⟩
    | symbol id description => exact ⟨rfl, rfl⟩

theorem ownProperty_none (h : t.own k = none) : ownProperty t k = none := by
  induction t with
  | plain stringData shape extensible prototype =>
    rw [Target.own, or_eq_none_iff] at h
    rw [ownProperty, h.2, map_none, or_none]
    cases stringData with
    | none => rfl
    | some units => exact (stringProperty_none h.1).1
  | function header prototype =>
    rw [Target.own, Target.functionOwn, or_eq_none_iff, or_eq_none_iff] at h
    obtain ⟨hprototype, hstatics, hpair⟩ := h
    rw [ownProperty, functionProperty]
    by_cases hk : k = .name "prototype"
    · rw [if_pos hk, map_eq_none_iff] at hprototype
      simp [hk, hprototype]
    · rw [if_neg hk, hstatics, map_none]
      cases hp : header.pair with
      | none => rfl
      | some pair =>
        -- neither name of the pair, or the pair would be there
        obtain ⟨length, functionName⟩ := pair
        have hlength : k ≠ .name "length" := by
          rintro rfl
          simp [Target.pairOwn, hp] at hpair
        have hname : k ≠ .name "name" := by
          rintro rfl
          simp [Target.pairOwn, hp] at hpair
        simp only
        simp [hlength, hname]
  | array elements named integrity prototype =>
    simp only [Target.own] at h
    simp only [ownProperty]
    split at h
    · rw [map_eq_none_iff] at h
      simp [h]
    · cases h
    · simp [h]
  | typedArray elements shape extensible prototype =>
    simp only [Target.own] at h
    simp only [ownProperty]
    split at h
    · rw [map_eq_none_iff, getElem?_eq_none_iff] at h
      exact if_neg (by omega)
    · simp [h]
  | regExp lastIndex shape integrity prototype =>
    rw [Target.own] at h
    rw [ownProperty]
    split_ifs at h ⊢
    simp [h]
  | buffer shape extensible prototype =>
    rw [Target.own] at h
    simp [ownProperty, h]
  | moduleNamespace exports toStringTag tag null =>
    simp only [Target.own] at h
    simp only [ownProperty]
    split at h
    · split_ifs at h ⊢
      rfl
    · rw [map_eq_none_iff] at h
      simp [h]
  | proxy trap ownKeys getPrototypeOf target ih =>
    rw [Target.own] at h
    rw [ownProperty]
    cases htrap : trap k with
    | some answer =>
      rw [htrap, getD_some] at h
      rw [h]
      rfl
    | none =>
      rw [htrap] at h
      exact ih h

theorem stringProperty_reports {units : List V} {q : Option (OwnPropertyDetail V)}
    (h : Target.stringOwn units k = some p) :
    Reports (stringShown units k) p ((stringProperty units k).or q) := by
  unfold Target.stringOwn at h
  split at h
  · rename_i n
    obtain ⟨c, hc, rfl⟩ := map_eq_some_iff.mp h
    have hn : n < units.length := (List.getElem?_eq_some_iff.mp hc).1
    rw [stringShown, stringProperty, if_pos hn, if_pos hn]
    exact ⟨rfl, rfl⟩
  · obtain rfl := some.inj h
    rfl
  · cases h

variable {header : FunctionHeader V}

theorem functionProperty_static (hk : k ≠ .name "prototype")
    (hpair : ¬(header.pair.isSome ∧ (k = .name "length" ∨ k = .name "name"))) :
    functionProperty header k = (header.statics.lookup k).map fillFromShape := by
  rw [functionProperty, if_neg hk]
  cases hp : header.pair with
  | none => rfl
  | some pair =>
    rw [hp] at hpair
    obtain ⟨hlength, hname⟩ := not_or.mp fun h => hpair ⟨rfl, h⟩
    simp [if_neg hlength, if_neg hname]

theorem functionProperty_reports (h : Target.functionOwn header k = some p) :
    Reports (functionShown header k) p (functionProperty header k) := by
  rw [Target.functionOwn] at h
  rw [functionShown]
  by_cases hk : k = .name "prototype"
  · rw [if_pos hk] at h ⊢
    rw [functionProperty, if_pos hk]
    cases hp : header.prototype with
    | none => rfl
    | some v =>
      rw [hp] at h
      obtain rfl := some.inj h
      exact ⟨rfl, rfl⟩
  rw [if_neg hk] at h
  rw [if_neg hk]
  by_cases hpair : header.pair.isSome ∧ (k = .name "length" ∨ k = .name "name")
  · rw [if_pos hpair]
    obtain ⟨hsome, hname⟩ := hpair
    obtain ⟨⟨length, functionName⟩, hp⟩ := isSome_iff_exists.mp hsome
    by_cases hstale : header.integrity.level ≠ .opened ∨ (header.statics.lookup k).isSome
    · -- the pair is reported as configurable
      rw [if_pos hstale, functionProperty]
      simp only [hp]
      rcases hname with rfl | rfl
      · exact ⟨_, rfl, rfl⟩
      · exact ⟨_, rfl, rfl⟩
    · rw [if_neg hstale, functionProperty]
      obtain ⟨hlevel, hstatic⟩ := not_or.mp hstale
      rw [not_not] at hlevel
      rw [Bool.not_eq_true, isSome_eq_false_iff, isNone_iff_eq_none] at hstatic
      rw [hstatic, hp, hlevel] at h
      simp only [hp]
      rcases hname with rfl | rfl
      · obtain rfl := some.inj h
        rfl
      · obtain rfl := some.inj h
        exact ⟨rfl, rfl⟩
  · rw [if_neg hpair, functionProperty_static hk hpair]
    have hnone : Target.pairOwn header.pair header.integrity.level k = none := by
      cases hp : header.pair with
      | none => rfl
      | some pair =>
        rw [hp] at hpair
        obtain ⟨hlength, hname⟩ := not_or.mp fun h => hpair ⟨rfl, h⟩
        simp [Target.pairOwn, hlength, hname]
    rw [hnone, or_none] at h
    exact reports_whole_of_map h

/-- **The report shows of a property what `shown` says.** -/
theorem ownProperty_reports (h : t.own k = some p) : Reports (t.shown k) p (ownProperty t k) := by
  induction t with
  | plain stringData shape extensible prototype =>
    rw [Target.own] at h
    rw [ownProperty, Target.shown]
    cases stringData with
    | none => exact reports_whole_of_map h
    | some units =>
      rw [bind_some] at h ⊢
      rw [elim_some]
      cases hunits : Target.stringOwn units k with
      | some q =>
        rw [hunits] at h
        obtain rfl := some.inj h
        exact stringProperty_reports hunits
      | none =>
        rw [hunits] at h
        obtain ⟨hreport, hwhole⟩ := stringProperty_none hunits
        rw [hwhole, hreport]
        exact reports_whole_of_map h
  | function header prototype =>
    exact functionProperty_reports h
  | array elements named integrity prototype =>
    simp only [Target.own] at h
    simp only [ownProperty, Target.shown]
    split at h
    · obtain ⟨v, hv, rfl⟩ := map_eq_some_iff.mp h
      simp only [hv]
      rfl
    · obtain rfl := some.inj h
      rfl
    · simp only [h]
      cases p with
      | data => exact ⟨rfl, rfl⟩
      | accessor => exact ⟨rfl, rfl⟩
  | typedArray elements shape extensible prototype =>
    simp only [Target.own] at h
    simp only [ownProperty]
    split at h
    · obtain ⟨v, hv, rfl⟩ := map_eq_some_iff.mp h
      have hn := (List.getElem?_eq_some_iff.mp hv).1
      simp only [hn]
      exact ⟨rfl, rfl⟩
    · simp only [Target.shown]
      exact reports_whole_of_map h
  | regExp lastIndex shape integrity prototype =>
    rw [Target.own] at h
    rw [ownProperty]
    split_ifs at h ⊢
    · obtain rfl := some.inj h
      rfl
    · exact reports_whole_of_map h
  | buffer shape extensible prototype =>
    exact reports_whole_of_map h
  | moduleNamespace exports toStringTag tag null =>
    simp only [Target.own] at h
    simp only [ownProperty, Target.shown]
    split at h
    · split_ifs at h ⊢
      obtain rfl := some.inj h
      rfl
    · obtain ⟨e, he, rfl⟩ := map_eq_some_iff.mp h
      simp only [he]
      exact ⟨rfl, rfl⟩
  | proxy trap ownKeys getPrototypeOf target ih =>
    rw [Target.own] at h
    rw [ownProperty, Target.shown]
    cases htrap : trap k with
    | some answer =>
      rw [htrap] at h
      exact reports_whole_of_map h
    | none =>
      rw [htrap] at h
      exact ih h

variable {enumerableOnly : Bool}

omit [Values V] in
theorem mem_ownKeysOrdered : k ∈ shape.ownKeysOrdered enumerableOnly ↔
      ∃ p, (k, p) ∈ shape ∧ (enumerableOnly = true → p.enumerable = true) := by
  have hinserted : k ∈ (shape.filter fun entry =>
      !enumerableOnly || entry.2.enumerable).map Prod.fst ↔
        ∃ p, (k, p) ∈ shape ∧ (enumerableOnly = true → p.enumerable = true) := by
    simp only [List.mem_map, mem_filter, Prod.exists, exists_and_right, exists_eq_right]
    cases enumerableOnly <;> simp
  rw [← hinserted]
  unfold Shape.ownKeysOrdered
  generalize (shape.filter fun entry =>
    !enumerableOnly || entry.2.enumerable).map Prod.fst = inserted
  simp only [mem_append, List.mem_map, mem_mergeSort, mem_filterMap, mem_filter]
  -- each key is in the group of its kind
  cases k with
  | index n =>
    simp only [Key.index.injEq, exists_eq_right, Key.isString, Bool.not_true, Bool.false_eq_true,
      and_false, or_false]
    constructor
    · rintro ⟨a, ha, hn⟩
      cases a with
      | index m =>
        obtain rfl := some.inj hn
        exact ha
      | name | symbol => cases hn
    · exact fun h => ⟨_, h, rfl⟩
  | name s => simp [Key.isString]
  | symbol id description => simp [Key.isString]

omit [Values V] in
theorem mem_ownStringKeysOrdered :
    k ∈ shape.ownStringKeysOrdered enumerableOnly ↔
      k ∈ shape.ownKeysOrdered enumerableOnly ∧ k.isString = true := by
  simp [Shape.ownStringKeysOrdered]

omit [Values V] in
theorem mem_ownStringKeysOrdered_iff : k ∈ shape.ownStringKeysOrdered true ↔ ¬shape.Hides k := by
  rw [mem_ownStringKeysOrdered, mem_ownKeysOrdered, Shape.Hides]
  simp only [not_or, not_forall, Bool.not_eq_false, true_implies, exists_prop]
  exact and_comm

omit [Values V] in
theorem Shape.mem_of_not_hides (h : ¬shape.Hides k) : k ∈ shape.ownKeysOrdered false := by
  obtain ⟨p, hp, -⟩ := mem_ownKeysOrdered.mp
    (mem_ownStringKeysOrdered.mp (mem_ownStringKeysOrdered_iff.mpr h)).1
  exact mem_ownKeysOrdered.mpr ⟨p, hp, nofun⟩

/-- **The runtime lists the own keys that it does not hide.** -/
theorem mem_targetOwnKeys_iff : k ∈ rtProxyTargetOwnKeys t ↔ k ∈ t.ownKeys ∧ ¬t.Hides k := by
  induction t with
  | plain stringData shape extensible prototype =>
    have hlisted : k ∈ shape.ownKeysOrdered false ↔ ¬∀ p, (k, p) ∉ shape := by
      simp [mem_ownKeysOrdered]
    simp only [rtProxyTargetOwnKeys, Target.ownKeys, Target.Hides, mem_append, ← hlisted]
    tauto
  | function header prototype =>
    have hmem : ¬header.statics.Hides k → k ∈ header.statics.ownKeysOrdered false :=
      Shape.mem_of_not_hides
    simp only [rtProxyTargetOwnKeys, Target.ownKeys, Target.Hides, mem_append,
      mem_ownStringKeysOrdered_iff]
    tauto
  | array elements named integrity prototype =>
    have hmem : ¬named.Hides k → k ∈ named.ownKeysOrdered false := Shape.mem_of_not_hides
    simp only [rtProxyTargetOwnKeys, Target.ownKeys, Target.Hides, mem_append, mem_cons,
      mem_ownStringKeysOrdered_iff]
    tauto
  | typedArray elements shape extensible prototype =>
    have hmem : ¬shape.Hides k → k ∈ shape.ownKeysOrdered false := Shape.mem_of_not_hides
    have hindex : k ∈ (range elements.length).map Key.index ↔
        ¬∀ n < elements.length, k ≠ .index n := by
      simp [eq_comm]
    simp only [rtProxyTargetOwnKeys, Target.ownKeys, Target.Hides, mem_append,
      mem_ownStringKeysOrdered_iff, hindex]
    tauto
  | regExp lastIndex shape integrity prototype =>
    have hmem : ¬shape.Hides k → k ∈ shape.ownKeysOrdered false := Shape.mem_of_not_hides
    simp only [rtProxyTargetOwnKeys, Target.ownKeys, Target.Hides, mem_cons,
      mem_ownStringKeysOrdered_iff]
    tauto
  | buffer shape extensible prototype =>
    have hmem : ¬shape.Hides k → k ∈ shape.ownKeysOrdered false := Shape.mem_of_not_hides
    simp only [rtProxyTargetOwnKeys, Target.ownKeys, Target.Hides, mem_ownStringKeysOrdered_iff]
    tauto
  | moduleNamespace exports toStringTag tag null =>
    simp only [rtProxyTargetOwnKeys, Target.ownKeys, Target.Hides, mem_append]
    tauto
  | proxy trap ownKeys getPrototypeOf target ih =>
    rw [rtProxyTargetOwnKeys, mem_filter, Bool.and_eq_true, Target.ownKeys, Target.Hides, not_or,
      not_or, Bool.not_eq_false, Bool.not_eq_false]
    cases ownKeys with
    | some keys => simp
    | none =>
      rw [getD_none, getD_none, ih]
      tauto

end Bronze.Proxy
