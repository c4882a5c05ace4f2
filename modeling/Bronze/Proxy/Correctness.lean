import Bronze.Proxy.Invariant

/-!
# When the invariants of a proxy are checked as the language asks

A check differs from the steps of ECMA-262 exactly where what the runtime leaves out of a property
decides the answer, or where a descriptor is malformed. In a run whose steps all avoid this, what a
proxy is observed to do contradicts nothing that is locked about its target.

## Main results

* `proxy_invariants`: the exact conditions, and what they give of runs
-/

namespace Bronze.Proxy

open Ecma
open Option Property Values Shown

variable {V : Type} [Values V] [DecidableEq V]

/-! ## When a check agrees -/

section Meets

variable (t : Target V) (k : Key)

/-- A `get`: no value that is hidden is contradicted, and no getter that is hidden is there. -/
def GetMeets (r : V) : Prop :=
  ∀ p, t.own k = some p → p.configurable = false → match t.shown k with
    | .whole => True
    | .pairHidden => ∀ getter setter enumerable configurable,
      p = .accessor getter setter enumerable configurable →
        getter = Values.undefined ∨ r = Values.undefined
    | _ => ¬RefusesGet r (some p)

/-- A `set`: no value that is hidden is contradicted, and no setter that is hidden is there. -/
def SetMeets (v : V) : Prop :=
  ∀ p, t.own k = some p → p.configurable = false → match t.shown k with
    | .whole => True
    | .pairHidden => ∀ getter setter enumerable configurable,
      p = .accessor getter setter enumerable configurable → setter = Values.undefined
    | _ => ¬RefusesSet v (some p)

/-- An absence: a locked property is not reported as configurable, and not left out. -/
def AbsenceMeets : Prop :=
  ∀ p, t.own k = some p → match t.shown k with
    | .stale => p.configurable = false → t.extensible = false
    | .missing => p.configurable = true ∧ t.extensible = true
    | _ => True

/-- A descriptor that is well formed: what is hidden of the property decides nothing. -/
def DescriptorAgrees (desc : Descriptor V) : Prop :=
  ∀ p, t.own k = some p → match t.shown k with
    | .whole => True
    | .valueHidden => ∀ value writable enumerable configurable,
      p = .data value writable enumerable configurable →
        configurable = true ∨ writable = true ∨ desc.value.getD Values.undefined = value ∨
          RefusesDescriptor t.extensible desc
            (some (.data (desc.value.getD Values.undefined) writable enumerable configurable))
    | .pairHidden => ∀ getter setter enumerable configurable,
      p = .accessor getter setter enumerable configurable →
        configurable = true ∨ desc.complete.configurable = true ∨
          desc.complete.enumerable ≠ enumerable ∨ desc.isAccessor = false ∨
          (desc.get.getD Values.undefined = Values.undefined ∧
              desc.set.getD Values.undefined = Values.undefined ↔
            desc.get.getD Values.undefined = getter ∧ desc.set.getD Values.undefined = setter)
    | .stale => desc.complete.configurable = false ↔ RefusesDescriptor t.extensible desc (some p)
    | .missing => t.extensible = false ∨ desc.complete.configurable = false ↔
      RefusesDescriptor t.extensible desc (some p)

/-- A descriptor: a malformed one is refused for another reason, or else nothing hidden decides. -/
def DescriptorMeets (desc : Descriptor V) : Prop :=
  (desc.Malformed → RefusesDescriptor t.extensible desc
    (t.seen k (desc.value.getD Values.undefined))) ∧
  (¬desc.Malformed → DescriptorAgrees t k desc)

/-- A definition: what is hidden of the property decides nothing. -/
def DefinitionMeets (desc : Descriptor V) : Prop :=
  ∀ p, t.own k = some p → match t.shown k with
    | .whole => True
    | .valueHidden => ∀ value writable enumerable configurable,
      p = .data value writable enumerable configurable →
        configurable = true ∨ writable = true ∨ (∀ v ∈ desc.value, v = value) ∨
          RefusesDefinition t.extensible desc
            (some (.data (desc.value.getD Values.undefined) writable enumerable configurable))
    | .pairHidden => ∀ getter setter enumerable configurable,
      p = .accessor getter setter enumerable configurable →
        configurable = true ∨ desc.configurable = some true ∨
          (∃ e ∈ desc.enumerable, e ≠ enumerable) ∨ (desc.isAccessor = false ∧ desc.isData = true) ∨
          ((∀ f ∈ desc.get, f = Values.undefined) ∧ (∀ f ∈ desc.set, f = Values.undefined) ↔
            (∀ f ∈ desc.get, f = getter) ∧ ∀ f ∈ desc.set, f = setter)
    | .stale => desc.configurable = some false ↔ RefusesDefinition t.extensible desc (some p)
    | .missing => t.extensible = false ∨ desc.configurable = some false ↔
      RefusesDefinition t.extensible desc (some p)

/-- A property that can neither go nor change its kind. -/
def Locked : Prop := ∃ p, t.own k = some p ∧ p.configurable = false

end Meets

/-- A list of own keys, none of them twice: of an extensible target no locked key is omitted, or one
is that is listed and shown to be locked; a target that is not extensible hides no own key, or the
list is neither all own keys nor those that are not hidden. -/
def KeysMeet (t : Target V) (keys : List Key) : Prop :=
  keys.Nodup →
    (t.extensible = true →
      (∀ k ∈ t.ownKeys, Locked t k → k ∈ keys) ∨
        ∃ k ∈ t.ownKeys, ¬t.Hides k ∧ Locked t k ∧ t.shown k ≠ .stale ∧ t.shown k ≠ .missing ∧
          k ∉ keys) ∧
    (t.extensible = false →
      (∀ k ∈ t.ownKeys, ¬t.Hides k) ∨
        ¬(∀ k, k ∈ keys ↔ k ∈ t.ownKeys) ∧ ¬∀ k, k ∈ keys ↔ k ∈ t.ownKeys ∧ ¬t.Hides k)

section Exact

variable (t : Target V) (k : Key)

theorem checkGet_iff (r : V) :
    (Throws (rtProxyCheckGet t k r) ↔ RefusesGet r (t.own k)) ↔ GetMeets t k r := by
  rw [throws_checkGet, Target.seen, GetMeets]
  cases hown : t.own k with
  | none => simp
  | some p =>
    simp only [bind_some, some.injEq, forall_eq']
    have hreports := ownProperty_reports hown
    cases hshown : t.shown k <;> rw [hshown] at hreports <;> cases p <;>
      simp [seen, RefusesGet, configurable] <;> grind [Reports, isAccessor]

theorem checkSet_iff (v : V) :
    (Throws (rtProxyCheckSet t k v) ↔ RefusesSet v (t.own k)) ↔ SetMeets t k v := by
  rw [throws_checkSet, Target.seen, SetMeets]
  cases hown : t.own k with
  | none => simp
  | some p =>
    simp only [bind_some, some.injEq, forall_eq']
    have hreports := ownProperty_reports hown
    cases hshown : t.shown k <;> rw [hshown] at hreports <;> cases p <;>
      simp [seen, RefusesSet, configurable] <;> grind [Reports, isAccessor]

omit [DecidableEq V] in
theorem absence_iff (v : V) :
    (RefusesAbsence t.extensible (t.seen k v) ↔ RefusesAbsence t.extensible (t.own k)) ↔
      AbsenceMeets t k := by
  rw [Target.seen, AbsenceMeets]
  cases hown : t.own k with
  | none => simp
  | some p =>
    simp only [bind_some, some.injEq, forall_eq']
    have hreports := ownProperty_reports hown
    cases hshown : t.shown k <;> rw [hshown] at hreports <;> cases p <;>
      simp [seen, RefusesAbsence, configurable]

omit [DecidableEq V] in
theorem complete_value (desc : Descriptor V) :
    desc.complete.descriptor.isAccessor = true ∧ desc.complete.descriptor.value = none ∨
      desc.complete.descriptor.isAccessor = false ∧ desc.complete.descriptor.isData = true ∧
        desc.complete.descriptor.value = some (desc.value.getD undefined) := by
  unfold Descriptor.complete
  by_cases h : desc.isAccessor = true
  · rw [if_pos h]
    exact .inl ⟨rfl, rfl⟩
  · rw [if_neg h]
    exact .inr ⟨rfl, rfl, rfl⟩

variable {desc : Descriptor V} {extensible : Bool} {writable enumerable configurable : Bool}

omit [DecidableEq V] in
/-- Where the value is hidden, the property that is seen is refused unless only its value is. -/
theorem descriptor_value {value : V} :
    (RefusesDescriptor extensible desc (some (.data (desc.value.getD undefined) writable
        enumerable configurable)) ↔
      RefusesDescriptor extensible desc (some (.data value writable enumerable configurable))) ↔
    configurable = true ∨ writable = true ∨ desc.value.getD undefined = value ∨
      RefusesDescriptor extensible desc (some (.data (desc.value.getD undefined) writable
        enumerable configurable)) := by
  have hcomplete := complete_value desc
  simp only [RefusesDescriptor, Compatible, Property.configurable, Property.enumerable,
    Property.isAccessor, mem_def]
  grind

variable {enumerable configurable : Bool} {getter setter : V}

omit [DecidableEq V] in
/-- Where the pair is hidden, the pair that is seen is refused as the real one is, unless nothing
but the pair decides and only one of the two is the descriptor's. -/
theorem descriptor_pair :
    (RefusesDescriptor extensible desc
        (some (.accessor undefined undefined enumerable configurable)) ↔
      RefusesDescriptor extensible desc (some (.accessor getter setter enumerable configurable))) ↔
    configurable = true ∨ desc.complete.configurable = true ∨
      desc.complete.enumerable ≠ enumerable ∨ desc.isAccessor = false ∨
      (desc.get.getD undefined = undefined ∧
          desc.set.getD undefined = undefined ↔
        desc.get.getD undefined = getter ∧ desc.set.getD undefined = setter) := by
  by_cases h : desc.isAccessor = true
  · have hcomplete : desc.complete = .accessor (desc.get.getD undefined)
        (desc.set.getD undefined) (desc.enumerable.getD false)
        (desc.configurable.getD false) := if_pos h
    have hkind : desc.get ≠ none ∨ desc.set ≠ none := by
      simpa [Descriptor.isAccessor, isSome_iff_ne_none] using h
    simp [RefusesDescriptor, Compatible, hcomplete, Property.configurable, Property.enumerable,
      Property.isAccessor, Property.descriptor, Descriptor.isAccessor, Descriptor.isData]
    grind
  · -- data over a locked accessor is refused, whatever the pair
    have hcomplete : desc.complete = .data (desc.value.getD undefined)
        (desc.writable.getD false) (desc.enumerable.getD false)
        (desc.configurable.getD false) := if_neg h
    have hkind : desc.get = none ∧ desc.set = none := by
      simpa [Descriptor.isAccessor] using h
    simp [RefusesDescriptor, Compatible, hcomplete, hkind, Property.configurable,
      Property.enumerable, Property.isAccessor, Property.descriptor, Descriptor.isAccessor,
      Descriptor.isData]

/-- A property is described by its own four parts. -/
theorem forall_eq₄ {α β : Type} {P : α → β → Bool → Bool → Prop} {a b c d} :
    (∀ a' b' c' d', a = a' → b = b' → c = c' → d = d' → P a' b' c' d') ↔ P a b c d :=
  ⟨fun h => h _ _ _ _ rfl rfl rfl rfl, by rintro h _ _ _ _ rfl rfl rfl rfl; exact h⟩

omit [DecidableEq V] in
theorem descriptor_iff (desc : Descriptor V) :
    (RefusesDescriptor t.extensible desc (t.seen k (desc.value.getD undefined)) ↔
      RefusesDescriptor t.extensible desc (t.own k)) ↔ DescriptorAgrees t k desc := by
  rw [Target.seen, DescriptorAgrees]
  cases hown : t.own k with
  | none => simp
  | some p =>
    simp only [bind_some, some.injEq, forall_eq']
    have hreports := ownProperty_reports hown
    cases hshown : t.shown k with
    | whole => simp [seen]
    | valueHidden =>
      rw [hshown] at hreports
      cases p with
      | accessor => cases hreports.1
      | data value writable enumerable configurable =>
        simp only [seen, data.injEq, and_imp]
        rw [descriptor_value, forall_eq₄]
    | pairHidden =>
      rw [hshown] at hreports
      cases p with
      | data => cases hreports.1
      | accessor getter setter enumerable configurable =>
        simp only [seen, accessor.injEq, and_imp]
        rw [descriptor_pair, forall_eq₄]
    | stale => simp [seen, RefusesDescriptor, Compatible, configurable]
    | missing =>
      simp [seen, RefusesDescriptor, Compatible]

omit [DecidableEq V] in
theorem definition_value {value : V} :
    (RefusesDefinition extensible desc (some (.data (desc.value.getD undefined) writable
        enumerable configurable)) ↔
      RefusesDefinition extensible desc (some (.data value writable enumerable configurable))) ↔
    configurable = true ∨ writable = true ∨ (∀ v ∈ desc.value, v = value) ∨
      RefusesDefinition extensible desc (some (.data (desc.value.getD undefined) writable
        enumerable configurable)) := by
  have hvalue : ∀ v ∈ desc.value, v = desc.value.getD undefined := by
    intro v hv
    rw [hv]
    rfl
  simp only [RefusesDefinition, Compatible, Property.configurable, Property.enumerable,
    Property.isAccessor]
  grind

omit [DecidableEq V] in
theorem definition_pair :
    (RefusesDefinition extensible desc
        (some (.accessor undefined undefined enumerable configurable)) ↔
      RefusesDefinition extensible desc (some (.accessor getter setter enumerable configurable))) ↔
    configurable = true ∨ desc.configurable = some true ∨
      (∃ e ∈ desc.enumerable, e ≠ enumerable) ∨ (desc.isAccessor = false ∧ desc.isData = true) ∨
      ((∀ f ∈ desc.get, f = undefined) ∧ (∀ f ∈ desc.set, f = undefined) ↔
        (∀ f ∈ desc.get, f = getter) ∧ ∀ f ∈ desc.set, f = setter) := by
  simp only [RefusesDefinition, Compatible, Property.configurable, Property.enumerable,
    Property.isAccessor]
  grind

omit [DecidableEq V] in
theorem definition_iff (desc : Descriptor V) :
    (RefusesDefinition t.extensible desc (t.seen k (desc.value.getD undefined)) ↔
      RefusesDefinition t.extensible desc (t.own k)) ↔ DefinitionMeets t k desc := by
  rw [Target.seen, DefinitionMeets]
  cases hown : t.own k with
  | none => simp
  | some p =>
    simp only [bind_some, some.injEq, forall_eq']
    have hreports := ownProperty_reports hown
    cases hshown : t.shown k with
    | whole => simp [seen]
    | valueHidden =>
      rw [hshown] at hreports
      cases p with
      | accessor => cases hreports.1
      | data value writable enumerable configurable =>
        simp only [seen, data.injEq, and_imp]
        rw [definition_value, forall_eq₄]
    | pairHidden =>
      rw [hshown] at hreports
      cases p with
      | data => cases hreports.1
      | accessor getter setter enumerable configurable =>
        simp only [seen, accessor.injEq, and_imp]
        rw [definition_pair, forall_eq₄]
    | stale => simp [seen, RefusesDefinition, Compatible, configurable]
    | missing => simp [seen, RefusesDefinition]

omit [DecidableEq V] in
/-- A key is seen to be locked when it is, unless another property stands in its place. -/
theorem seen_locked (v : V) :
    (∃ p, t.seen k v = some p ∧ p.configurable = false) ↔
      Locked t k ∧ t.shown k ≠ .stale ∧ t.shown k ≠ .missing := by
  rw [Target.seen, Locked]
  cases hown : t.own k with
  | none => simp
  | some p =>
    simp only [bind_some, some.injEq, exists_eq_left']
    cases hshown : t.shown k <;> cases p <;> simp [seen, configurable]

omit [DecidableEq V] in
/-- The own keys and those that are not hidden are the same, or else no list is both. -/
theorem keys_agree_iff (keys : List Key) :
    ((∀ k, k ∈ keys ↔ k ∈ t.ownKeys ∧ ¬t.Hides k) ↔ ∀ k, k ∈ keys ↔ k ∈ t.ownKeys) ↔
      (∀ k ∈ t.ownKeys, ¬t.Hides k) ∨
        ¬(∀ k, k ∈ keys ↔ k ∈ t.ownKeys) ∧ ¬∀ k, k ∈ keys ↔ k ∈ t.ownKeys ∧ ¬t.Hides k := by
  by_cases hall : ∀ k ∈ t.ownKeys, ¬t.Hides k
  · have hsame : ∀ k, k ∈ t.ownKeys ∧ ¬t.Hides k ↔ k ∈ t.ownKeys :=
      fun k => and_iff_left_of_imp (hall k)
    simp only [hsame]
    exact iff_of_true trivial (Or.inl hall)
  · have hnot : ¬((∀ k, k ∈ keys ↔ k ∈ t.ownKeys) ∧
        ∀ k, k ∈ keys ↔ k ∈ t.ownKeys ∧ ¬t.Hides k) := by
      rintro ⟨hown, hshown⟩
      exact hall fun k hk => ((hshown k).mp ((hown k).mpr hk)).2
    tauto

omit [DecidableEq V] in
theorem checkOwnKeys_iff (keys : List Key) :
    (Throws (rtProxyCheckOwnKeys t keys) ↔ RefusesKeys t.extensible t.own t.ownKeys keys) ↔
      KeysMeet t keys := by
  rw [throws_checkOwnKeys t keys undefined, KeysMeet, ← keys_agree_iff]
  simp only [RefusesKeys, seen_locked, mem_targetOwnKeys_iff]
  by_cases hdup : keys.Nodup
  swap
  · simp [hdup]
  -- a locked key that is listed and omitted is an own key that is omitted
  have hlocked : (∃ k, (k ∈ t.ownKeys ∧ ¬t.Hides k) ∧
      (Locked t k ∧ t.shown k ≠ .stale ∧ t.shown k ≠ .missing) ∧ k ∉ keys) →
        ∃ k ∈ t.ownKeys, Locked t k ∧ k ∉ keys := by
    rintro ⟨k, ⟨hk, -⟩, ⟨hlock, -, -⟩, hmem⟩
    exact ⟨k, hk, hlock, hmem⟩
  have homitted : (∃ k, (k ∈ t.ownKeys ∧ ¬t.Hides k) ∧
      (Locked t k ∧ t.shown k ≠ .stale ∧ t.shown k ≠ .missing) ∧ k ∉ keys) →
        ¬∀ k, k ∈ keys ↔ k ∈ t.ownKeys ∧ ¬t.Hides k := by
    rintro ⟨k, hk, -, hmem⟩ h
    exact hmem ((h k).mpr hk)
  have homitted' : (∃ k ∈ t.ownKeys, Locked t k ∧ k ∉ keys) →
      ¬∀ k, k ∈ keys ↔ k ∈ t.ownKeys := by
    rintro ⟨k, hk, -, hmem⟩ h
    exact hmem ((h k).mpr hk)
  have hnone : (∀ k ∈ t.ownKeys, Locked t k → k ∈ keys) ↔
      ¬∃ k ∈ t.ownKeys, Locked t k ∧ k ∉ keys := by
    simp
  have hassoc : (∃ k ∈ t.ownKeys, ¬t.Hides k ∧ Locked t k ∧ t.shown k ≠ .stale ∧
      t.shown k ≠ .missing ∧ k ∉ keys) ↔ ∃ k, (k ∈ t.ownKeys ∧ ¬t.Hides k) ∧
        (Locked t k ∧ t.shown k ≠ .stale ∧ t.shown k ≠ .missing) ∧ k ∉ keys := by
    simp [and_assoc]
  rw [hnone, hassoc]
  change (_ ∨ _ ∨ _ ↔ _ ∨ (∃ k ∈ t.ownKeys, Locked t k ∧ k ∉ keys) ∨ _) ↔ _
  generalize (∃ k, (k ∈ t.ownKeys ∧ ¬t.Hides k) ∧
    (Locked t k ∧ t.shown k ≠ .stale ∧ t.shown k ≠ .missing) ∧ k ∉ keys) = A at hlocked homitted ⊢
  generalize (∃ k ∈ t.ownKeys, Locked t k ∧ k ∉ keys) = B at hlocked homitted' ⊢
  generalize (∀ k, k ∈ keys ↔ k ∈ t.ownKeys ∧ ¬t.Hides k) = X at homitted ⊢
  generalize (∀ k, k ∈ keys ↔ k ∈ t.ownKeys) = Y at homitted' ⊢
  cases t.extensible <;> simp only [hdup] <;> grind

end Exact

variable (V) in
/-- An operation on a proxy that went through a trap, with what the trap answered. -/
inductive Observation
  | get (k : Key) (value : V)
  /-- A write that the trap reported as done. -/
  | set (k : Key) (value : V)
  | has (k : Key) (answer : Bool)
  | delete (k : Key) (answer : Bool)
  | describe (k : Key) (desc : Option (Descriptor V))
  | keys (keys : List Key)
  | prototype (value : V)
  /-- A definition that the trap reported as done. -/
  | define (k : Key) (desc : Descriptor V)

namespace Observation

variable (t : Target V)

def Fails : Observation V → Prop
  | get k value => Throws (rtProxyCheckGet t k value)
  | set k value => Throws (rtProxyCheckSet t k value)
  | has k answer => Throws (rtProxyCheckHas t k answer)
  | delete k answer => Throws (rtProxyCheckDelete t k answer)
  | describe k desc => Throws (rtProxyCheckGetOwnProperty t k desc)
  | keys ks => Throws (rtProxyCheckOwnKeys t ks)
  | prototype value => Throws (rtProxyCheckPrototype t value)
  | define k desc => Throws (rtProxyCheckDefineProperty t k desc)

/-- The steps of ECMA-262 throw. -/
def Refused : Observation V → Prop
  | get k value => RefusesGet value (t.own k)
  | set k value => RefusesSet value (t.own k)
  | has k answer => answer = false ∧ RefusesAbsence t.extensible (t.own k)
  | delete k answer => answer = true ∧ RefusesAbsence t.extensible (t.own k)
  | describe k none => RefusesAbsence t.extensible (t.own k)
  | describe k (some desc) => desc.Malformed ∨ RefusesDescriptor t.extensible desc (t.own k)
  | keys ks => RefusesKeys t.extensible t.own t.ownKeys ks
  | prototype value => RefusesPrototype t.extensible t.prototype value
  | define k desc => RefusesDefinition t.extensible desc (t.own k)

/-- The condition under which the check throws as the steps do. -/
def Meets : Observation V → Prop
  | get k value => GetMeets t k value
  | set k value => SetMeets t k value
  | has k answer => answer = false → AbsenceMeets t k
  | delete k answer => answer = true → AbsenceMeets t k
  | describe k none => AbsenceMeets t k
  | describe k (some desc) => DescriptorMeets t k desc
  | keys ks => KeysMeet t ks
  | prototype _ => True
  | define k desc => DefinitionMeets t k desc

/-- **A check throws exactly when the language does, if and only if its condition holds.** -/
theorem fails_iff (o : Observation V) : (o.Fails t ↔ o.Refused t) ↔ o.Meets t := by
  cases o with
  | get k value => exact checkGet_iff t k value
  | set k value => exact checkSet_iff t k value
  | has k answer =>
    cases answer with
    | true => simp [Fails, Refused, Meets, rtProxyCheckHas]
    | false =>
      have h := absence_iff t k undefined
      simp only [Fails, Refused, Meets, rtProxyCheckHas, Bool.false_eq_true, if_false, true_and,
        true_implies]
      rw [throws_checkAbsence t k _ _ _ undefined, h]
  | delete k answer =>
    cases answer with
    | false => simp [Fails, Refused, Meets, rtProxyCheckDelete]
    | true =>
      have h := absence_iff t k undefined
      simp only [Fails, Refused, Meets, rtProxyCheckDelete, Bool.not_true, Bool.false_eq_true,
        if_false, true_and, true_implies]
      rw [throws_checkAbsence t k _ _ _ undefined, h]
  | describe k desc =>
    cases desc with
    | none =>
      simp only [Fails, Refused, Meets]
      rw [throws_checkGetOwnProperty_none t k undefined, absence_iff]
    | some desc =>
      simp only [Fails, Refused, Meets, DescriptorMeets]
      rw [throws_checkGetOwnProperty, ← descriptor_iff]
      by_cases h : desc.Malformed <;> simp [h]
  | keys ks => exact checkOwnKeys_iff t ks
  | prototype value => simp [Fails, Refused, Meets, throws_checkPrototype]
  | define k desc =>
    simp only [Fails, Refused, Meets]
    rw [throws_checkDefineProperty, definition_iff]

end Observation

/-- What a locked property may still turn into, 6.1.7.3: only its writability may be lost, and with
it goes the freedom of the value. -/
def Property.Continues : Property V → Property V → Prop
  | .data value writable enumerable configurable, .data value' writable' enumerable' _ =>
    configurable = false ∧ enumerable = enumerable' ∧
      (writable' = false → writable = false ∧ value = value')
  | .accessor getter setter enumerable configurable, .accessor getter' setter' enumerable' _ =>
    configurable = false ∧ enumerable = enumerable' ∧ getter = getter' ∧ setter = setter'
  | _, _ => False

/-- How a target may change between two operations on the proxy, 6.1.7.3: what the essential
internal methods of the target itself promise. -/
structure Keeps (t t' : Target V) : Prop where
  locked : ∀ k p, t.own k = some p → p.configurable = false →
    ∃ p', t'.own k = some p' ∧ p'.Continues p
  closed : t.extensible = false → t'.extensible = false ∧ t'.prototype = t.prototype ∧
    (∀ k ∈ t'.ownKeys, k ∈ t.ownKeys) ∧ ∀ k, t.own k = none → t'.own k = none
  listed : ∀ k, Locked t' k → k ∈ t'.ownKeys

/-- What is observed contradicts nothing that is locked in the target `t`. -/
def Honest (t : Target V) : Observation V → Prop
  | .get k value => ∀ p, t.own k = some p → p.configurable = false → match p with
    | .data stored writable _ _ => writable = false → value = stored
    | .accessor getter _ _ _ => getter = Values.undefined → value = Values.undefined
  | .set k value => ∀ p, t.own k = some p → p.configurable = false → match p with
    | .data stored writable _ _ => writable = false → value = stored
    | .accessor _ setter _ _ => setter ≠ Values.undefined
  | .has k answer => Locked t k → answer = true
  | .delete k answer => Locked t k → answer = false
  | .describe k none => ¬Locked t k
  | .describe k (some desc) =>
    (∀ p, t.own k = some p → p.configurable = false → desc.complete.Continues p) ∧
      (t.extensible = false → t.own k ≠ none)
  | .keys ks => (∀ k, Locked t k → k ∈ ks) ∧ (t.extensible = false → ∀ k ∈ ks, k ∈ t.ownKeys)
  | .prototype value => t.extensible = false → value = t.prototype
  | .define k desc =>
    (∀ p, t.own k = some p → p.configurable = false → Compatible t.extensible desc (some p)) ∧
      (t.extensible = false → t.own k ≠ none)

/-! ### What is locked stays -/

omit [Values V] [DecidableEq V] in
theorem Property.Continues.trans {p p' p'' : Property V} (h : p'.Continues p)
    (h' : p''.Continues p') : p''.Continues p := by
  cases p <;> cases p' <;> cases p'' <;> simp only [Continues] at h h' ⊢ <;> grind

variable {p p' : Property V}

omit [Values V] [DecidableEq V] in
theorem Property.Continues.locked (h : p'.Continues p) : p'.configurable = false := by
  cases p <;> cases p' <;> simp only [Continues] at h
  · exact h.1
  · exact h.1

omit [DecidableEq V] in
theorem Keeps.trans {t t' t'' : Target V} (h : Keeps t t') (h' : Keeps t' t'') : Keeps t t'' where
  locked k p hown hlocked := by
    obtain ⟨p', hown', hp'⟩ := h.locked k p hown hlocked
    obtain ⟨p'', hown'', hp''⟩ := h'.locked k p' hown' hp'.locked
    exact ⟨p'', hown'', hp'.trans hp''⟩
  closed hextensible := by
    obtain ⟨hclosed, hprototype, hkeys, hown⟩ := h.closed hextensible
    obtain ⟨hclosed', hprototype', hkeys', hown'⟩ := h'.closed hclosed
    exact ⟨hclosed', hprototype'.trans hprototype, fun k hk => hkeys k (hkeys' k hk),
      fun k hk => hown' k (hown k hk)⟩
  listed := h'.listed

variable {t t' : Target V}

omit [DecidableEq V] in
theorem Keeps.refusesAbsence (h : Keeps t t') {k : Key} (hlocked : Locked t k) :
    RefusesAbsence t'.extensible (t'.own k) := by
  obtain ⟨p, hown, hp⟩ := hlocked
  obtain ⟨p', hown', hp'⟩ := h.locked k p hown hp
  exact ⟨p', hown', .inl hp'.locked⟩

variable {desc : Descriptor V}

omit [Values V] [DecidableEq V] in
/-- What is compatible with a continuation is compatible with what it continues. -/
theorem compatible_of_continues {extensible extensible' : Bool}
    (h : p'.Continues p) (hcompatible : Compatible extensible' desc (some p')) :
    Compatible extensible desc (some p) := by
  cases p <;> cases p' <;> simp only [Continues] at h <;>
    simp only [Compatible, configurable, enumerable, isAccessor]
      at hcompatible ⊢ <;> grind

omit [DecidableEq V] in
/-- A descriptor that is not refused continues the locked property it is reported for. -/
theorem continues_of_not_refuses {extensible : Bool} {p : Property V}
    (hlocked : p.configurable = false) (h : ¬RefusesDescriptor extensible desc (some p)) :
    desc.complete.Continues p := by
  unfold RefusesDescriptor at h
  rw [not_or, not_not] at h
  obtain ⟨hcompatible, hkind⟩ := h
  revert hcompatible hkind
  generalize desc.complete = q
  cases p <;> cases q <;>
    simp only [Compatible, Continues, descriptor, configurable,
      enumerable, isAccessor, Descriptor.isAccessor, Descriptor.isData,
      mem_def] at hlocked ⊢ <;> grind

omit [DecidableEq V] in
theorem Keeps.own_ne_none (h : Keeps t t') {k : Key} (hextensible : t.extensible = false)
    (hown : t'.extensible = false → t'.own k ≠ none) : t.own k ≠ none := by
  obtain ⟨hclosed, -, -, hnone⟩ := h.closed hextensible
  exact fun hk => hown hclosed (hnone k hk)

/-- **What the language lets through contradicts nothing that was locked.** -/
theorem honest_of_not_refused (h : Keeps t t') {o : Observation V}
    (ho : ¬o.Refused t') : Honest t o := by
  cases o with
  | get k value =>
    intro p hown hlocked
    obtain ⟨p', hown', hp'⟩ := h.locked k p hown hlocked
    simp only [Observation.Refused] at ho
    cases p <;> cases p' <;> simp only [Continues, RefusesGet] at hp' ho ⊢ <;> grind
  | set k value =>
    intro p hown hlocked
    obtain ⟨p', hown', hp'⟩ := h.locked k p hown hlocked
    simp only [Observation.Refused] at ho
    cases p <;> cases p' <;> simp only [Continues, RefusesSet] at hp' ho ⊢ <;> grind
  | has k answer =>
    intro hlocked
    by_contra hanswer
    exact ho ⟨Bool.not_eq_true _ ▸ hanswer, h.refusesAbsence hlocked⟩
  | delete k answer =>
    intro hlocked
    by_contra hanswer
    exact ho ⟨Bool.not_eq_false _ ▸ hanswer, h.refusesAbsence hlocked⟩
  | describe k desc =>
    cases desc with
    | none => exact fun hlocked => ho (h.refusesAbsence hlocked)
    | some desc =>
      rw [Observation.Refused, not_or] at ho
      refine ⟨?_, fun hextensible => h.own_ne_none hextensible ?_⟩
      · intro p hown hlocked
        obtain ⟨p', hown', hp'⟩ := h.locked k p hown hlocked
        rw [hown'] at ho
        exact hp'.trans (continues_of_not_refuses hp'.locked ho.2)
      · intro hclosed hnone
        rw [hclosed, hnone] at ho
        exact ho.2 (.inl (by simp [Compatible]))
  | keys ks =>
    rw [Observation.Refused, RefusesKeys, not_or, not_or] at ho
    obtain ⟨-, homitted, hextra⟩ := ho
    constructor
    · rintro k ⟨p, hown, hlocked⟩
      obtain ⟨p', hown', hp'⟩ := h.locked k p hown hlocked
      have hlocked' : Locked t' k := ⟨p', hown', hp'.locked⟩
      by_contra hk
      exact homitted ⟨k, h.listed k hlocked', hlocked', hk⟩
    · intro hextensible k hk
      obtain ⟨hclosed, -, hkeys, -⟩ := h.closed hextensible
      rw [not_and, not_not] at hextra
      exact hkeys k ((hextra hclosed k).mp hk)
  | prototype value =>
    intro hextensible
    obtain ⟨hclosed, hprototype, -, -⟩ := h.closed hextensible
    by_contra hvalue
    exact ho ⟨hclosed, fun heq => hvalue (heq.trans hprototype)⟩
  | define k desc =>
    rw [Observation.Refused] at ho
    refine ⟨?_, fun hextensible => h.own_ne_none hextensible ?_⟩
    · intro p hown hlocked
      obtain ⟨p', hown', hp'⟩ := h.locked k p hown hlocked
      rw [hown'] at ho
      exact compatible_of_continues hp' (not_not.mp fun hcompatible => ho (.inl hcompatible))
    · intro hclosed hnone
      rw [hclosed, hnone] at ho
      exact ho (.inl rfl)

/-- A run of operations on a proxy: between two of them the target may change as it promises, each
check passes, and each meets its condition. -/
inductive Run : Target V → List (Observation V) → Prop
  | nil (t : Target V) : Run t []
  | cons {t t' : Target V} {o : Observation V} {os : List (Observation V)} (hkeeps : Keeps t t')
    (hpasses : ¬o.Fails t') (hmeets : o.Meets t') (hrun : Run t' os) : Run t (o :: os)

variable {os : List (Observation V)}

theorem Run.honest_of_keeps {t₀ t : Target V} (hrun : Run t os)
    (h₀ : Keeps t₀ t) : ∀ o ∈ os, Honest t₀ o := by
  induction hrun with
  | nil => nofun
  | @cons t t' o os hkeeps hpasses hmeets _ ih =>
    have hkeeps' := h₀.trans hkeeps
    rw [List.forall_mem_cons]
    exact ⟨honest_of_not_refused hkeeps' fun h => hpasses ((o.fails_iff t').mpr hmeets |>.mpr h),
      ih hkeeps'⟩

/-- In a run, what is observed contradicts nothing that was locked at its start. -/
theorem Run.honest {t : Target V} (hrun : Run t os) : ∀ o ∈ os, Honest t o := by
  cases hrun with
  | nil => nofun
  | @cons _ t' o os hkeeps hpasses hmeets hrun =>
    rw [List.forall_mem_cons]
    exact ⟨honest_of_not_refused hkeeps fun h => hpasses ((o.fails_iff t').mpr hmeets |>.mpr h),
      hrun.honest_of_keeps hkeeps⟩

/-- The values of a small script: numbers, and functions by identity. -/
inductive Datum
  | undefined
  | number (n : Nat)
  | function (id : Nat)
  deriving DecidableEq

instance : Values Datum where
  undefined := .undefined
  number := .number
  callable
    | .function _ => true
    | _ => false

def emptyObject : Target Datum := .plain none [] true .undefined

/-- The target `Object.preventExtensions([1])`. -/
def closedArray : Target Datum :=
  .array [some (.number 1)] [] ⟨false, .opened, fun h => absurd rfl h⟩ .undefined

/-- The descriptor `{get: 5, configurable: true}`. -/
def getterOfFive : Descriptor Datum := ⟨none, none, some (.number 5), none, none, some true⟩

/-- The target `Object.freeze({x: 1})`. -/
def frozenObject : Target Datum :=
  .plain none [(.name "x", .data (.number 1) false true false)] false .undefined

theorem own_frozenObject {k : Key} {p : Property Datum} :
    frozenObject.own k = some p ↔ k = .name "x" ∧ p = .data (.number 1) false true false := by
  by_cases h : k = .name "x" <;> simp [frozenObject, Target.own, Shape.lookup, h, eq_comm]

theorem ownKeys_frozenObject : frozenObject.ownKeys = [.name "x"] := by
  simp [frozenObject, Target.ownKeys, Shape.ownKeysOrdered, Key.isString]

theorem keeps_frozenObject : Keeps frozenObject frozenObject where
  locked k p hown hlocked := by
    obtain ⟨-, rfl⟩ := own_frozenObject.mp hown
    exact ⟨_, hown, rfl, rfl, fun _ => ⟨rfl, rfl⟩⟩
  closed _ := ⟨rfl, rfl, fun _ => id, fun _ => id⟩
  listed k hlocked := by
    obtain ⟨p, hown, -⟩ := hlocked
    rw [ownKeys_frozenObject, (own_frozenObject.mp hown).1]
    exact List.mem_singleton_self _

theorem keysMeet_frozenObject : KeysMeet frozenObject [.name "x"] := by
  refine fun _ => ⟨nofun, fun _ => Or.inl fun k hk hhides => ?_⟩
  rw [ownKeys_frozenObject, List.mem_singleton] at hk
  exact hhides (.data (.number 1) false true false) (by rw [hk]; exact List.mem_singleton_self _)

end Bronze.Proxy
