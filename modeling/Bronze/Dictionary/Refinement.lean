import Bronze.Dictionary.Invariant
import Bronze.Table.Run

/-!
# The table is a property map in insertion order

Runs of the property table, from the one `toDictionary` makes of a chain of shapes: properties are
added, defined, looked up and removed in any order, and the table is compacted at any time. The
abstract state is the list of the properties in the order of insertion.

## Main results

* `toDictionary_spec`: the table of a chain holds the properties of the chain, in its slots
* `dictionary_refines`: what a run keeps
-/

namespace Bronze

open OrderedList Transition
open List Option DictEntry

namespace Shape

/-- The properties of a chain, oldest first. -/
def properties : Shape → List Property
  | root _ => []
  | child parent key _ enumerable accessor writable configurable =>
    parent.properties ++ [{ key, enumerable, accessor, writable, configurable }]

/-- The entries of a chain, oldest first. -/
def entries : Shape → List DictEntry
  | root _ => []
  | child parent key slotIndex enumerable accessor writable configurable =>
    parent.entries ++
      [{ key := some key, slot := slotIndex, enumerable, accessor, writable, configurable }]

/-- One past the highest slot of a chain. -/
def top : Shape → Nat
  | root _ => 0
  | child parent _ slotIndex _ accessor _ _ => max (slotIndex + slotWidth accessor) parent.top

variable (s : Shape)

theorem filterMap_entries : s.entries.filterMap property = s.properties := by
  induction s with
  | root => rfl
  | child parent key slotIndex enumerable accessor writable configurable ih =>
    rw [entries, Dictionary.properties_append, ih]
    rfl

theorem map_key_properties : s.properties.map Property.key = s.keys.reverse := by
  induction s with
  | root => rfl
  | child parent key slotIndex enumerable accessor writable configurable ih =>
    rw [properties, map_append, ih, keys, reverse_cons]
    rfl

/-- The loop of `toDictionary` goes through the entries, newest first. -/
theorem collect_eq (d : Dictionary) :
    s.collect d = { d with
      entries := d.entries ++ s.entries.reverse
      nextSlot := max d.nextSlot s.top } := by
  induction s generalizing d with
  | root => simp [collect, entries, top]
  | child parent key slotIndex enumerable accessor writable configurable ih =>
    have hmax : (if slotIndex + slotWidth accessor > d.nextSlot then slotIndex + slotWidth accessor
        else d.nextSlot) = max d.nextSlot (slotIndex + slotWidth accessor) := by
      split_ifs <;> omega
    rw [collect, ih, hmax]
    simp [entries, top]

theorem clampInlineSlots_le (n : Nat) : clampInlineSlots n ≤ kOverflowSlot := by
  unfold clampInlineSlots kDefaultInlineSlots kOverflowSlot
  split_ifs <;> omega

variable {s : Shape}

variable (h : Reached s)

include h

theorem inlineSlots_le : s.inlineSlots ≤ kOverflowSlot := by
  induction h with
  | root n => exact clampInlineSlots_le n
  | add _ _ _ _ _ _ ih => exact ih

theorem nodup_keys : s.keys.Nodup := by
  induction h with
  | root => exact .nil
  | add _ _ _ _ _ hnew ih => exact nodup_cons.mpr ⟨hnew, ih⟩

theorem top_eq : s.top = s.slotEnd := by
  induction h with
  | root => rfl
  | @add s key enumerable accessor writable configurable _ _ ih =>
    rw [addPropertyKey, top, slotEnd]
    have := le_placeSlot s.slotEnd (slotWidth accessor) s.inlineSlots
    unfold nextSlotIndex
    omega

theorem storage : Storage s.inlineSlots s.slotEnd (Dictionary.held s.entries) ∧
      ∀ e ∈ s.entries, Fits s.inlineSlots e.slot (slotWidth e.accessor) := by
  induction h with
  | root n => exact ⟨Storage.nil .., nofun⟩
  | @add s key enumerable accessor writable configurable _ _ ih =>
    have hfits := placeSlot_fits s.slotEnd (slotWidth accessor) s.inlineSlots
    constructor
    · refine (ih.1.fresh (le_placeSlot ..) hfits).subperm (List.Perm.subperm ?_)
      rw [addPropertyKey, entries, Dictionary.held, flatMap_append, flatMap_singleton]
      exact perm_append_comm
    · intro e he
      rcases mem_append.mp he with he | he
      · exact ih.2 e he
      · rw [mem_singleton.mp he]
        exact hfits

/-- **The table of a chain of shapes** has its properties in its slots. -/
theorem toDictionary_spec : ∃ d, s.toDictionary = some d ∧ d.Inv ∧ d.properties = s.properties := by
  obtain ⟨hstorage, hfits⟩ := storage h
  rw [toDictionary, collect_eq]
  simp only [nil_append, reverse_reverse]
  obtain ⟨d, hrun, hi, hsame⟩ := Dictionary.reindex_spec (d :=
      { entries := s.entries, freeSlots := [], nextSlot := s.top, inlineSlots := s.inlineSlots,
        index := [], used := 0, live := 0 }) (by
    refine ⟨?_, ?_, fun e he _ => hfits e he, inlineSlots_le h⟩
    · rw [Dictionary.properties, filterMap_entries, map_key_properties]
      exact nodup_reverse.mpr (nodup_keys h)
    · rw [append_nil, top_eq h]
      exact hstorage)
  exact ⟨d, hrun, hi, hsame.properties.trans (filterMap_entries s)⟩

end Shape

namespace Dictionary

/-! ## Runs -/

/-- What the program asks of a table. A slot for `add` is one that `allocateSlots` hands out, as it
is for `dictDefine`. -/
inductive Event where
  | add (name : PropertyKey) (enumerable accessor writable configurable : Bool)
  | find (name : Option PropertyKey)
  | remove (name : PropertyKey)
  | define (name : PropertyKey) (enumerable accessor : Bool)
  | compact

def exec (d : Dictionary) : Event → Option Dictionary
  | .add name enumerable accessor writable configurable =>
    let (slot, d) := d.allocateSlots (slotWidth accessor)
    d.add name slot enumerable accessor writable configurable
  | .find name => (d.find name).map fun _ => d
  | .remove name => (d.remove name).map Prod.snd
  | .define name enumerable accessor => (d.dictDefine name enumerable accessor).map Prod.snd
  | .compact => d.compact

/-- `add` is for a property that is absent. -/
def Event.Allowed (d : Dictionary) : Event → Prop
  | .add name .. => ¬d.Contains name
  | _ => True

/-- What an event means for the properties. -/
def Event.apply (l : List Property) : Event → List Property
  | .add name enumerable accessor writable configurable =>
    l ++ [{ key := name, enumerable, accessor, writable, configurable }]
  | .find _ => l
  | .remove name => erase Property.key name l
  | .define name enumerable accessor =>
    put Property.key (fun p => { p with enumerable, accessor })
      { key := name, enumerable, accessor, writable := true, configurable := true } l
  | .compact => l

/-- An event that came about. -/
def Step (d : Dictionary) (e : Event) (d' : Dictionary) : Prop :=
  e.Allowed d ∧ d.exec e = some d'

/-- What `find` tells of a table that holds the properties `l`: the entry of the property of that
name, and nothing if there is none. -/
def Answers (l : List Property) (d : Dictionary) : Prop :=
  ∀ name, ∃ r, d.find (some name) = some r ∧
    r.bind (fun pos => d.entries[pos]?.bind DictEntry.property) = l.find? (·.key = name) ∧
    (r = none ↔ name ∉ l.map Property.key)

/-- The slots of the entries and of the free list. -/
structure Disjoint (d : Dictionary) : Prop where
  /-- Two entries share no slot. -/
  entries : d.entries.Pairwise fun e e' => List.Disjoint e.owned e'.owned
  /-- No entry has a slot of the free list, which has each slot once. -/
  free : ∀ e ∈ d.entries, List.Disjoint e.owned d.freeSlots
  nodup : d.freeSlots.Nodup
  below : ∀ e ∈ d.entries, e.live = true → e.slot + slotWidth e.accessor ≤ d.nextSlot
  /-- No entry lies on both sides of the split. -/
  split : ∀ e ∈ d.entries, e.live = true →
    e.slot + slotWidth e.accessor ≤ d.inlineSlots ∧ d.inlineSlots ≤ kOverflowSlot ∨
      kOverflowSlot ≤ e.slot

section Runs

variable {d : Dictionary}

theorem Inv.disjoint (hi : Inv d) : d.Disjoint := by
  have hnodup := hi.base.storage.nodup
  rw [nodup_append'] at hnodup
  obtain ⟨hheld, hfree, hdisjoint⟩ := hnodup
  refine ⟨(nodup_flatMap.mp hheld).2, ?_, hfree, ?_, ?_⟩
  · intro e he s hs hsfree
    exact hdisjoint (mem_flatMap.mpr ⟨e, he, hs⟩) hsfree
  · intro e he hlive
    -- the last slot of the run is one that is taken
    have hpos := slotWidth_pos e.accessor
    have hmem : e.slot + slotWidth e.accessor - 1 ∈ e.owned := by
      rw [owned, if_pos hlive, mem_range'_1]
      omega
    have := hi.base.storage.below _ (mem_append_left _ (mem_flatMap.mpr ⟨e, he, hmem⟩))
    omega
  · intro e he hlive
    exact (hi.base.fits e he hlive).imp_left fun h => ⟨h, hi.base.inline_le⟩

theorem Inv.answers (hi : Inv d) : Answers d.properties d := by
  intro name
  rcases find_spec hi name with ⟨pos, hfind, hholds⟩ | ⟨hfind, hnew⟩
  · have hcontains : d.Contains name := contains_iff.mpr ⟨pos, hholds⟩
    obtain ⟨e, he, hkey⟩ := hholds
    refine ⟨some pos, hfind, ?_, iff_of_false (by simp) (not_not.mpr hcontains)⟩
    have hproperty : e.property.map Property.key = some name := e.keyOf_property.trans hkey
    obtain ⟨p, hp, hpk⟩ := map_eq_some_iff.mp hproperty
    -- the first property of that name is the only one
    have hmem : p ∈ d.properties := mem_filterMap.mpr ⟨e, mem_of_getElem? he, hp⟩
    have hat : d.entries[pos]?.bind property = some p := by rw [he]; exact hp
    rw [bind_some, hat]
    obtain ⟨q, hq⟩ : ∃ q, d.properties.find? (·.key = name) = some q := by
      rw [← isSome_iff_exists, find?_isSome]
      exact ⟨p, hmem, decide_eq_true hpk⟩
    rw [hq]
    have hqk : q.key = name := by simpa using find?_some hq
    exact congrArg some
      (inj_on_of_nodup_map hi.base.distinct hmem (mem_of_find?_eq_some hq)
        (hpk.trans hqk.symm))
  · refine ⟨none, hfind, ?_, iff_of_true rfl hnew⟩
    rw [bind_none, eq_comm, find?_eq_none]
    intro p hp hpk
    exact hnew (mem_map.mpr ⟨p, hp, by simpa using hpk⟩)

/-- **One event** comes about, keeps the invariant and is what it means for the properties. -/
theorem exec_spec (hi : Inv d) {e : Event} (he : e.Allowed d) :
    ∃ d', d.exec e = some d' ∧ Inv d' ∧ d'.properties = e.apply d.properties := by
  cases e with
  | add name enumerable accessor writable configurable =>
    obtain ⟨slot, d', halloc, hrun⟩ := allocated_add_spec hi he enumerable accessor writable
      configurable
    obtain ⟨d'', hadd, hi'', hproperties⟩ := hrun
    exact ⟨d'', by simp [exec, halloc, hadd], hi'', hproperties⟩
  | find name =>
    cases name with
    | none => exact ⟨d, rfl, hi, rfl⟩
    | some name =>
      obtain ⟨r, hfind, -⟩ := hi.answers name
      exact ⟨d, by simp only [exec, hfind]; rfl, hi, rfl⟩
  | remove name =>
    obtain ⟨removed, d', hrun, hi', -, hproperties⟩ := remove_spec hi name
    exact ⟨d', by simp only [exec, hrun]; rfl, hi', hproperties⟩
  | define name enumerable accessor =>
    obtain ⟨slot, d', hrun, hi', hproperties⟩ := dictDefine_spec hi name enumerable accessor
    exact ⟨d', by simp only [exec, hrun]; rfl, hi', hproperties⟩
  | compact => exact compact_spec hi.base

/-- **The table refines the property map.** From the table of any chain of shapes, after any run:
the live entries in their order are the properties as they were defined last, `find` stops with
the entry of the name and only with that, the entries have disjoint slots, below the next slot, on
one side of the split and none of them free, and whatever is asked next comes about. -/
theorem dictionary_refines {s : Shape} (hs : s.Reached) :
    ∃ d₀, s.toDictionary = some d₀ ∧ ∀ es d, Run Step d₀ es d →
      d.properties = es.foldl Event.apply s.properties ∧ Answers d.properties d ∧ d.Disjoint ∧
        ∀ e, e.Allowed d → ∃ d', d.exec e = some d' := by
  obtain ⟨d₀, hd₀, hi₀, hproperties₀⟩ := s.toDictionary_spec hs
  refine ⟨d₀, hd₀, fun es d hrun => ?_⟩
  have hinv : Inv d ∧ d.properties = es.foldl Event.apply s.properties := by
    refine hrun.simulates (fun d l => Inv d ∧ d.properties = l) Event.apply ⟨hi₀, hproperties₀⟩ ?_
    rintro d₁ _ e d₂ ⟨hi, rfl⟩ ⟨hallowed, hexec⟩
    obtain ⟨d', hexec', hi', hproperties⟩ := exec_spec hi hallowed
    obtain rfl := some.inj (hexec.symm.trans hexec')
    exact ⟨hi', hproperties⟩
  refine ⟨hinv.2, hinv.1.answers, hinv.1.disjoint, fun e he => ?_⟩
  obtain ⟨d', hexec, -⟩ := exec_spec hinv.1 he
  exact ⟨d', hexec⟩

end Runs

/-- A chain of two data properties, the first of which becomes an accessor in its place. -/
theorem dictionary_refines_redefined :
    let a : PropertyKey := .string [97]
    let b : PropertyKey := .string [98]
    let s := ((Shape.createRoot 4).addPropertyKey a true false true true).addPropertyKey b
      true false true true
    ∃ d₀ d, s.toDictionary = some d₀ ∧ d₀.exec (.define a true true) = some d ∧ d.Disjoint ∧
      d.properties = [⟨a, true, true, true, true⟩, ⟨b, true, false, true, true⟩] := by
  intro a b s
  have ha : a ∉ (Shape.createRoot 4).keys := not_mem_nil
  have hb : b ∉ ((Shape.createRoot 4).addPropertyKey a true false true true).keys := by decide
  obtain ⟨d₀, hd₀, hrun⟩ := dictionary_refines
    (.add true false true true (.add true false true true (.root 4) ha) hb)
  obtain ⟨-, -, -, hnext⟩ := hrun [] d₀ .nil
  obtain ⟨d, hd⟩ := hnext (.define a true true) trivial
  have hstep : Step d₀ (.define a true true) d := ⟨trivial, hd⟩
  obtain ⟨hproperties, -, hdisjoint, -⟩ := hrun _ d (Run.nil.snoc hstep)
  exact ⟨d₀, d, hd₀, hd, hdisjoint, hproperties⟩

end Dictionary

end Bronze
