import Bronze.Dictionary.Table
import Bronze.Table.OrderedList

/-!
# The invariant of the property table

Three things are tied together: the entries, whose keys are distinct; the index, which reaches
every live entry; and the slots of storage, each of them given to one entry at most, and to none
while it is on the free list. Each operation has a lemma that says what it does to the entries and
that the invariant is as it was.

## Main results

* `Storage.allocate`: what `allocateSlots` hands out was free
-/

namespace Bronze

open LinearProbing OrderedList DictEntry Option List.Perm Nat

/-- A run of slots lies among the inline slots, or past the split. -/
def Fits (inlineSlots slot width : Nat) : Prop :=
  slot + width ≤ inlineSlots ∨ kOverflowSlot ≤ slot

/-- Slots that are taken: each of them once, below the next slot, and none of the numbers between
the inline slots and the split. -/
structure Storage (inlineSlots nextSlot : Nat) (taken : List Nat) : Prop where
  nodup : taken.Nodup
  below : ∀ s ∈ taken, s < nextSlot
  placed : ∀ s ∈ taken, Fits inlineSlots s 1

section Storage

variable {inlineSlots nextSlot width : Nat} {taken taken' rest : List Nat}

theorem placeSlot_fits (next width inlineSlots : Nat) :
    Fits inlineSlots (placeSlot next width inlineSlots) width := by
  unfold Fits placeSlot
  split_ifs with h
  · exact .inr le_rfl
  · omega

theorem le_placeSlot (next width inlineSlots : Nat) : next ≤ placeSlot next width inlineSlots := by
  unfold placeSlot
  split_ifs with h
  · exact h.1.le
  · exact le_rfl

theorem Fits.of_mem {slot s : Nat} (h : Fits inlineSlots slot width)
    (hs : s ∈ List.range' slot width) : Fits inlineSlots s 1 := by
  rw [List.mem_range'_1] at hs
  unfold Fits at *
  omega

theorem Storage.nil (inlineSlots nextSlot : Nat) : Storage inlineSlots nextSlot [] :=
  ⟨.nil, nofun, nofun⟩

variable (h : Storage inlineSlots nextSlot taken)

include h

theorem Storage.subperm (hsub : taken'.Subperm taken) :
    Storage inlineSlots nextSlot taken' where
  nodup := by
    obtain ⟨l, hperm, hl⟩ := hsub
    exact hperm.nodup_iff.mp (h.nodup.sublist hl)
  below s hs := h.below s (hsub.subset hs)
  placed s hs := h.placed s (hsub.subset hs)

theorem Storage.fresh {slot : Nat} (hle : nextSlot ≤ slot)
    (hfits : Fits inlineSlots slot width) :
    Storage inlineSlots (slot + width) (List.range' slot width ++ taken) where
  nodup := by
    rw [List.nodup_append]
    refine ⟨List.nodup_range', h.nodup, ?_⟩
    rintro s hs _ ht rfl
    rw [List.mem_range'_1] at hs
    have := h.below s ht
    omega
  below s hs := by
    rcases List.mem_append.mp hs with hs | hs
    · exact (List.mem_range'_1.mp hs).2
    · have := h.below s hs
      omega
  placed s hs := by
    rcases List.mem_append.mp hs with hs | hs
    · exact hfits.of_mem hs
    · exact h.placed s hs

end Storage

/-- The slots an entry has in the storage of the object. -/
def DictEntry.owned (e : DictEntry) : List Nat :=
  if e.live then List.range' e.slot (slotWidth e.accessor) else []

/-- An own property, without its place in the storage. -/
structure Property where
  key : PropertyKey
  enumerable : Bool
  accessor : Bool
  writable : Bool
  configurable : Bool
  deriving DecidableEq

def DictEntry.property (e : DictEntry) : Option Property :=
  e.key.map fun key =>
    { key, enumerable := e.enumerable, accessor := e.accessor, writable := e.writable,
      configurable := e.configurable }

theorem DictEntry.keyOf_property (e : DictEntry) :
    keyOf property Property.key e = e.key := by
  rw [keyOf, property]
  cases e.key <;> rfl

namespace Dictionary

/-- The live entries, in the order of the vector. -/
def properties (d : Dictionary) : List Property := d.entries.filterMap DictEntry.property

/-- The slots of the live entries. -/
def held (entries : List DictEntry) : List Nat := entries.flatMap DictEntry.owned

variable (entries : List DictEntry)

theorem held_filter : held (entries.filter DictEntry.live) = held entries := by
  induction entries with
  | nil => rfl
  | cons e entries ih =>
    rw [List.filter_cons]
    split_ifs with hlive
    · rw [held, List.flatMap_cons, ← held, ih]
      rfl
    · rw [ih, held, held, List.flatMap_cons, owned, if_neg hlive, List.nil_append]

theorem filterMap_property_filter :
    (entries.filter DictEntry.live).filterMap DictEntry.property =
      entries.filterMap DictEntry.property := by
  rw [List.filterMap_filter]
  apply List.filterMap_congr
  intro e _
  cases hk : e.key <;> simp [DictEntry.live, property, hk]

theorem held_set {entries : List DictEntry} {pos : Nat} {e : DictEntry}
    (h : entries[pos]? = some e) :
    ∃ rest, (held entries).Perm (e.owned ++ rest) ∧
      ∀ e', (held (entries.set pos e')).Perm (e'.owned ++ rest) := by
  obtain ⟨hlt, rfl⟩ := List.getElem?_eq_some_iff.mp h
  have hperm : ∀ e', (held (entries.take pos ++ e' :: entries.drop (pos + 1))).Perm
      (e'.owned ++ held (entries.take pos ++ entries.drop (pos + 1))) := by
    intro e'
    simp only [held, List.flatMap_append]
    exact List.perm_append_comm_assoc ..
  refine ⟨held (entries.take pos ++ entries.drop (pos + 1)), ?_, fun e' => ?_⟩
  · have hself := hperm entries[pos]
    rwa [← List.drop_eq_getElem_cons hlt, List.take_append_drop] at hself
  · rw [List.set_eq_take_append_cons_drop, if_pos hlt]
    exact hperm e'

/-- The entries and the storage of the object. -/
structure Base (d : Dictionary) : Prop where
  distinct : (d.properties.map Property.key).Nodup
  storage : Storage d.inlineSlots d.nextSlot (held d.entries ++ d.freeSlots)
  fits : ∀ e ∈ d.entries, e.live = true → Fits d.inlineSlots e.slot (slotWidth e.accessor)
  inline_le : d.inlineSlots ≤ kOverflowSlot

/-- The position names a live entry. -/
def LiveAt (d : Dictionary) (pos : Nat) : Prop := (d.entries[pos]?.bind DictEntry.key).isSome

/-- The cell an entry is looked for from. -/
def home (d : Dictionary) (pos : Nat) : Nat :=
  match d.entries[pos]?.bind DictEntry.key with
  | some key => (hashKey key).toNat
  | none => 0

/-- **The invariant of the table.** -/
structure Inv (d : Dictionary) : Prop where
  base : Base d
  indexed : Indexed d.index d.home d.LiveAt d.entries.length d.used
  room : d.used < d.index.length
  live_eq : d.live = d.entries.countP DictEntry.live

/-- The two tables have one set of entries in one storage. -/
structure Same (d d' : Dictionary) : Prop where
  entries : d'.entries = d.entries
  freeSlots : d'.freeSlots = d.freeSlots
  nextSlot : d'.nextSlot = d.nextSlot
  inlineSlots : d'.inlineSlots = d.inlineSlots

theorem Same.properties {d d' : Dictionary} (h : Same d d') : d'.properties = d.properties := by
  rw [Dictionary.properties, h.entries]
  rfl

section Index

variable {d : Dictionary} {name : PropertyKey} {pos : Nat}

theorem capacityFor_spec (live : Nat) :
    live * 2 + 2 ≤ capacityFor live ∧ ∃ k, capacityFor live = 2 ^ k := by
  obtain ⟨hle, k, hk⟩ := doubleUntil_spec (live * 2 + 2) (live * 2 + 2) kMinIndexCapacity
    (by decide) (by omega)
  exact ⟨hle, k + 3, by rw [capacityFor, hk, pow_add, mul_comm]; rfl⟩

/-- The cell of each live entry. -/
def homes (entries : List DictEntry) : List (Option Nat) :=
  entries.map fun e => e.key.map fun key => (hashKey key).toNat

variable (entries : List DictEntry)

theorem countP_homes : (homes entries).countP isSome = entries.countP DictEntry.live := by
  rw [homes, List.countP_map]
  congr 1
  funext e
  exact isSome_map

/-- The loop of `reindex` is `placeAll`. -/
theorem insertEntries_eq (pos : Nat) (d : Dictionary) :
    insertEntries entries pos d = (placeAll (homes entries) pos d.index).map fun index =>
      { d with index, used := d.used + entries.countP DictEntry.live } := by
  induction entries generalizing pos d with
  | nil => rfl
  | cons e entries ih =>
    rw [insertEntries, homes, List.map_cons, ← homes]
    cases hk : e.key with
    | none =>
      have hlive : ¬e.live = true := by simp [DictEntry.live, hk]
      rw [List.countP_cons_of_neg hlive]
      exact ih (pos + 1) d
    | some key =>
      have hlive : e.live = true := by simp [DictEntry.live, hk]
      simp only [insertIndex, map_some, placeAll]
      cases place d.index (d.index.length - 1) pos d.index.length
          ((hashKey key).toNat &&& (d.index.length - 1)) with
      | none => rfl
      | some index =>
        rw [List.countP_cons_of_pos hlive]
        simp [ih, add_assoc, add_comm 1]

/-- **`reindex`** stops, and leaves an index of the live entries. -/
theorem reindex_spec (hb : Base d) : ∃ d', d.reindex = some d' ∧ Inv d' ∧ Same d d' := by
  obtain ⟨hle, hpow⟩ := capacityFor_spec (d.entries.countP DictEntry.live)
  have hlive : ∀ pos, d.LiveAt pos →
      ∃ i, pos = 0 + i ∧ (homes d.entries)[i]? = some (some (d.home pos)) := by
    intro pos hpos
    obtain ⟨key, hkey⟩ := isSome_iff_exists.mp hpos
    refine ⟨pos, (zero_add pos).symm, ?_⟩
    obtain ⟨e, he, hek⟩ := bind_eq_some_iff.mp hkey
    simp [homes, home, he, hek]
  have hroom : 0 + (homes d.entries).countP isSome <
      (List.replicate (capacityFor (d.entries.countP DictEntry.live)) 0).length := by
    rw [countP_homes, List.length_replicate]
    omega
  obtain ⟨index, hrun, hlen, hindexed⟩ := (Indexed.empty hpow d.home).placeAll_spec hroom d.home
    d.LiveAt fun pos hpos => .inr (hlive pos hpos)
  have hhomes : (homes d.entries).length = d.entries.length := List.length_map _
  rw [countP_homes, hhomes, zero_add, zero_add] at hindexed
  rw [countP_homes, ← hlen] at hroom
  refine ⟨{ d with
    live := d.entries.countP DictEntry.live
    index
    used := d.entries.countP DictEntry.live }, ?_, ?_, rfl, rfl, rfl, rfl⟩
  · rw [reindex, insertEntries_eq, hrun, zero_add]
    rfl
  rw [zero_add] at hroom
  exact ⟨⟨hb.distinct, hb.storage, hb.fits, hb.inline_le⟩, hindexed, hroom, rfl⟩

/-- The position names the entry of the key. -/
def HoldsAt (d : Dictionary) (name : PropertyKey) (pos : Nat) : Prop :=
  ∃ e, d.entries[pos]? = some e ∧ e.key = some name

/-- Some live entry has the key. -/
def Contains (d : Dictionary) (name : PropertyKey) : Prop := name ∈ d.properties.map Property.key

theorem matches_iff (key name : PropertyKey) : key.matches name = true ↔ key = name := by
  cases key <;> cases name <;> simp [PropertyKey.matches]

theorem hits_iff : d.hits name pos = true ↔ d.HoldsAt name pos := by
  unfold hits HoldsAt
  cases he : d.entries[pos]? with
  | none => simp
  | some e =>
    cases hk : e.key with
    | none => simp [hk]
    | some key => simp [hk, matches_iff]

theorem contains_iff : d.Contains name ↔ ∃ pos, d.HoldsAt name pos := by
  rw [Contains, properties, ← filterMap_keyOf, List.mem_filterMap]
  constructor
  · rintro ⟨e, he, hek⟩
    obtain ⟨pos, hlt, rfl⟩ := List.getElem_of_mem he
    rw [keyOf_property] at hek
    exact ⟨pos, _, List.getElem?_eq_getElem hlt, hek⟩
  · rintro ⟨pos, e, he, hek⟩
    exact ⟨e, List.mem_of_getElem? he, (e.keyOf_property).trans hek⟩

/-- **`find`** stops, with the position of the key if there is one. -/
theorem find_spec (hi : Inv d) (name : PropertyKey) :
    (∃ pos, d.find (some name) = some (some pos) ∧ d.HoldsAt name pos) ∨
      d.find (some name) = some none ∧ ¬d.Contains name := by
  obtain ⟨r, hrun, hsome, hnone⟩ :=
    hi.indexed.search_spec hi.room (d.hits name) (hashKey name).toNat
  have hne : ¬d.index.isEmpty = true := by
    rw [List.isEmpty_iff]
    intro hnil
    have := hi.room
    rw [hnil] at this
    exact not_lt_zero _ this
  have hfind : d.find (some name) = some r := by
    rw [find, if_neg hne]
    exact hrun
  cases r with
  | some pos => exact .inl ⟨pos, hfind, hits_iff.mp (hsome pos rfl).1⟩
  | none =>
    refine .inr ⟨hfind, fun hcontains => ?_⟩
    obtain ⟨pos, hholds⟩ := contains_iff.mp hcontains
    obtain ⟨e, he, hek⟩ := hholds
    -- the entry has the home of the key, and would have been hit
    have hat : d.entries[pos]?.bind key = some name := by rw [he]; exact hek
    have hlive : d.LiveAt pos := by rw [LiveAt, hat]; rfl
    have hmiss := hnone rfl pos hlive (by simp [home, hat])
    rw [hits_iff.mpr ⟨e, he, hek⟩] at hmiss
    cases hmiss

end Index

/-! ## Operations -/

section Operations

variable {d : Dictionary} {name : PropertyKey} {pos : Nat}

/-- **`allocateSlots`** hands out slots that were free. -/
theorem allocateSlots_spec {width : Nat} {taken : List Nat} (hwidth : 0 < width)
    (h : Storage d.inlineSlots d.nextSlot (taken ++ d.freeSlots)) :
    ∃ slot d', d.allocateSlots width = (slot, d') ∧
      Storage d.inlineSlots d'.nextSlot (List.range' slot width ++ (taken ++ d'.freeSlots)) ∧
      Fits d.inlineSlots slot width ∧ d' = { d with
        nextSlot := d'.nextSlot
        freeSlots := d'.freeSlots } := by
  have hfresh := h.fresh (le_placeSlot d.nextSlot width d.inlineSlots)
    (placeSlot_fits d.nextSlot width d.inlineSlots)
  cases hfree : d.freeSlots with
  | nil =>
    refine ⟨_, _, by rw [allocateSlots, hfree], ?_, placeSlot_fits .., rfl⟩
    simpa [hfree] using hfresh
  | cons slot freeSlots =>
    rw [hfree] at h
    by_cases hone : width = 1
    · subst hone
      refine ⟨slot, { d with freeSlots }, by rw [allocateSlots, hfree]; rfl, ?_,
        h.placed slot (by simp), rfl⟩
      refine h.subperm (subperm ?_)
      exact (List.perm_middle : (taken ++ slot :: freeSlots).Perm _).symm
    · refine ⟨_, _, by rw [allocateSlots, hfree]; exact if_neg hone, ?_, placeSlot_fits .., rfl⟩
      simpa [hfree] using hfresh

theorem properties_append (entries : List DictEntry) (e : DictEntry) :
    (entries ++ [e]).filterMap property =
      entries.filterMap property ++ e.property.toList := by
  cases h : e.property <;> simp [h]

/-- **`add`** appends the entry, which an insertion or a rebuild indexes. -/
theorem add_spec (hi : Inv d) (hnew : ¬d.Contains name) {slot : Nat}
    (enumerable accessor writable configurable : Bool) (hstorage : Storage d.inlineSlots d.nextSlot
      (List.range' slot (slotWidth accessor) ++ (held d.entries ++ d.freeSlots)))
    (hfits : Fits d.inlineSlots slot (slotWidth accessor)) :
    ∃ d', d.add name slot enumerable accessor writable configurable = some d' ∧ Inv d' ∧
      d'.entries = d.entries ++
        [{ key := some name, slot, enumerable, accessor, writable, configurable }] := by
  set entry : DictEntry := { key := some name, slot, enumerable, accessor, writable, configurable }
  have hbase : Base { d with entries := d.entries ++ [entry], live := d.live + 1 } := by
    refine ⟨?_, ?_, ?_, hi.base.inline_le⟩
    · rw [properties, properties_append, List.map_append]
      refine List.nodup_append.mpr ⟨hi.base.distinct, List.nodup_singleton _, ?_⟩
      rintro key hkey _ hname rfl
      rw [List.mem_singleton.mp hname] at hkey
      exact hnew hkey
    · refine hstorage.subperm (subperm ?_)
      have hheld : held (d.entries ++ [entry]) =
          held d.entries ++ List.range' slot (slotWidth accessor) := by
        rw [held, List.flatMap_append, List.flatMap_singleton]
        rfl
      rw [hheld, List.append_assoc]
      exact List.perm_append_comm_assoc ..
    · intro e he hlive
      rcases List.mem_append.mp he with he | he
      · exact hi.base.fits e he hlive
      · rw [List.mem_singleton.mp he]
        exact hfits
  rw [add]
  split_ifs with hfull
  · obtain ⟨d', hrun, hi', hsame⟩ := reindex_spec hbase
    exact ⟨d', hrun, hi', hsame.entries⟩
  · -- there is room for one more cell
    simp only [Bool.or_eq_true, decide_eq_true_eq] at hfull
    have hload : d.used + 1 < d.index.length := by
      omega
    obtain ⟨index, hrun, hlen, hindexed⟩ :=
      hi.indexed.place_spec (b := (hashKey name).toNat) hi.room
      le_rfl (fun pos => if pos = d.entries.length then (hashKey name).toNat else d.home pos)
      (fun pos => d.LiveAt pos ∨ pos = d.entries.length) (by
        rintro pos (hpos | rfl)
        · exact .inl ⟨hpos, if_neg (hi.indexed.lt_slots hpos).ne⟩
        · exact .inr ⟨rfl, if_pos rfl⟩)
    refine ⟨
      { d with entries := d.entries ++ [entry], live := d.live + 1, index, used := d.used + 1 },
      ?_, ⟨⟨hbase.distinct, hbase.storage, hbase.fits, hbase.inline_le⟩, ?_, ?_, ?_⟩, rfl⟩
    · rw [insertIndex, List.length_append, List.length_singleton, Nat.add_sub_cancel]
      simp only [hrun]
      rfl
    · rw [List.length_append]
      refine hindexed.mono ?_ le_rfl le_rfl
      intro pos hpos
      rcases lt_trichotomy pos d.entries.length with hlt | rfl | hgt
      · have hget : (d.entries ++ [entry])[pos]? = d.entries[pos]? := List.getElem?_append_left hlt
        refine ⟨.inl (by rwa [LiveAt, hget] at hpos), ?_⟩
        rw [if_neg hlt.ne, home, hget]
        rfl
      · refine ⟨.inr rfl, ?_⟩
        rw [if_pos rfl, home, List.getElem?_concat_length]
        rfl
      · have hnone : (d.entries ++ [entry])[pos]? = none :=
          List.getElem?_eq_none (by rw [List.length_append]; exact hgt)
        rw [LiveAt, hnone] at hpos
        cases hpos
    · exact hlen.symm ▸ hload
    · rw [List.countP_append, ← hi.live_eq]
      rfl

variable {e : DictEntry}

theorem Base.set (hb : Base d) (he : d.entries[pos]? = some e) (e' : DictEntry)
    (hkey : e'.key = e.key ∨ e'.key = none) {freeSlots : List Nat} {nextSlot : Nat}
    (hstorage : ∀ rest, (held d.entries).Perm (e.owned ++ rest) →
      Storage d.inlineSlots nextSlot (e'.owned ++ (rest ++ freeSlots)))
    (hfits : e'.live = true → Fits d.inlineSlots e'.slot (slotWidth e'.accessor)) :
    Base { d with entries := d.entries.set pos e', freeSlots, nextSlot } := by
  obtain ⟨rest, hheld, hset⟩ := held_set he
  refine ⟨?_, ?_, ?_, hb.inline_le⟩
  · -- the keys are those there were, or one less
    refine hb.distinct.sublist ?_
    rw [properties, properties, ← filterMap_keyOf, ← filterMap_keyOf]
    obtain ⟨hlt, rfl⟩ := List.getElem?_eq_some_iff.mp he
    have hsub : ((e' :: d.entries.drop (pos + 1)).filterMap
        (keyOf property Property.key)).Sublist
        ((d.entries[pos] :: d.entries.drop (pos + 1)).filterMap
          (keyOf property Property.key)) := by
      rw [List.filterMap_cons, List.filterMap_cons, keyOf_property,
        keyOf_property]
      rcases hkey with hkey | hkey
      · rw [hkey]
      · rw [hkey]
        cases (d.entries[pos]).key with
        | none => exact .refl _
        | some => exact .cons _ (.refl _)
    rw [List.set_eq_take_append_cons_drop, if_pos hlt, List.filterMap_append]
    conv_rhs => rw [← List.take_append_drop pos d.entries, List.filterMap_append,
      List.drop_eq_getElem_cons hlt]
    exact hsub.append_left _
  · refine (hstorage rest hheld).subperm (subperm ?_)
    rw [← List.append_assoc]
    exact (hset e').append_right freeSlots
  · intro x hx hlive
    rcases List.mem_or_eq_of_mem_set hx with hx | rfl
    · exact hb.fits x hx hlive
    · exact hfits hlive

theorem Base.storage_rest (hb : Base d) {rest : List Nat}
    (hperm : (held d.entries).Perm (e.owned ++ rest)) :
    Storage d.inlineSlots d.nextSlot (e.owned ++ (rest ++ d.freeSlots)) := by
  refine hb.storage.subperm (subperm ?_)
  rw [← List.append_assoc]
  exact (hperm.append_right _).symm

theorem owned_of_key (h : e.key = some name) :
    e.owned = List.range' e.slot (slotWidth e.accessor) :=
  if_pos (by rw [DictEntry.live, h]; rfl)

theorem entryAt_eq (h : d.entries[pos]? = some e) : d.entryAt pos = e := by
  rw [entryAt, List.getD_eq_getElem?_getD, h]
  rfl

theorem Inv.indexed_set (hi : Inv d) (he : d.entries[pos]? = some e) (e' : DictEntry)
    (hkey : e'.key = e.key ∨ e'.key = none) {d' : Dictionary}
    (hentries : d'.entries = d.entries.set pos e') :
    Indexed d.index d'.home d'.LiveAt d'.entries.length d.used := by
  rw [hentries, List.length_set]
  refine hi.indexed.mono (fun i hi' => ?_) le_rfl le_rfl
  unfold LiveAt at hi' ⊢
  unfold home
  rw [hentries] at hi' ⊢
  by_cases hne : pos = i
  · subst hne
    have hget : (d.entries.set pos e')[pos]? = some e' := by
      rw [List.getElem?_set_self (List.getElem?_eq_some_iff.mp he).1]
    rw [hget] at hi'
    rcases hkey with hkey | hkey
    · rw [hget, he, bind_some, bind_some, hkey]
      rw [bind_some, hkey] at hi'
      exact ⟨hi', rfl⟩
    · rw [bind_some, hkey] at hi'
      cases hi'
  · rw [List.getElem?_set_ne hne] at hi' ⊢
    exact ⟨hi', rfl⟩

theorem countP_set_of_key {entries : List DictEntry} (he : entries[pos]? = some e)
    (e' : DictEntry) (hkey : e'.key = e.key) :
    (entries.set pos e').countP DictEntry.live = entries.countP DictEntry.live := by
  obtain ⟨hlt, rfl⟩ := List.getElem?_eq_some_iff.mp he
  have hlive : e'.live = (entries[pos]).live := by rw [DictEntry.live, hkey]; rfl
  have hpos : (entries[pos]).live = true → 0 < entries.countP DictEntry.live := fun h =>
    List.countP_pos_iff.mpr ⟨_, List.getElem_mem hlt, h⟩
  rw [List.countP_set hlt, hlive]
  split_ifs with h
  · have := hpos h
    omega
  · rfl

/-- **`compact`** drops the tombstones. -/
theorem compact_spec (hb : Base d) :
    ∃ d', d.compact = some d' ∧ Inv d' ∧ d'.properties = d.properties := by
  have hbase : Base { d with entries := d.entries.filter DictEntry.live } := by
    refine ⟨?_, ?_, fun e he => hb.fits e (List.mem_of_mem_filter he), hb.inline_le⟩
    · rw [properties, filterMap_property_filter]
      exact hb.distinct
    · rw [held_filter]
      exact hb.storage
  obtain ⟨d', hrun, hi, hsame⟩ := reindex_spec hbase
  exact ⟨d', hrun, hi, hsame.properties.trans (filterMap_property_filter _)⟩

/-- The tombstone `remove` leaves, and the slot it frees. -/
theorem bury_spec (hi : Inv d) (hholds : d.HoldsAt name pos) : Inv (d.bury pos) := by
  obtain ⟨e, he, hkey⟩ := hholds
  have hlive : e.live = true := by rw [DictEntry.live, hkey]; rfl
  rw [bury, entryAt_eq he]
  have hbase : Base { d with
      entries := d.entries.set pos { e with key := none }
      freeSlots := if e.accessor then d.freeSlots else e.slot :: d.freeSlots
      nextSlot := d.nextSlot } := by
    refine hi.base.set he { e with key := none } (.inr rfl) (fun rest hperm => ?_) nofun
    have hstorage := hi.base.storage_rest hperm
    rw [owned_of_key hkey] at hstorage
    cases haccessor : e.accessor with
    | true =>
      -- the pair is given up
      exact hstorage.subperm (List.sublist_append_right ..).subperm
    | false =>
      rw [haccessor] at hstorage
      refine hstorage.subperm (subperm ?_)
      exact List.perm_middle
  refine ⟨⟨hbase.distinct, hbase.storage, hbase.fits, hbase.inline_le⟩,
    hi.indexed_set he { e with key := none } (.inr rfl) rfl, hi.room, ?_⟩
  obtain ⟨hlt, hget⟩ := List.getElem?_eq_some_iff.mp he
  have hcount := List.countP_set (p := DictEntry.live) (l := d.entries)
    (a := { e with key := none }) hlt
  rw [hcount, hget, hlive, ← hi.live_eq]
  rfl

theorem shrink_spec (hi : Inv d) :
    ∃ d', d.shrink = some d' ∧ Inv d' ∧ d'.properties = d.properties := by
  unfold shrink
  split_ifs
  · exact compact_spec hi.base
  · exact ⟨d, rfl, hi, rfl⟩

theorem filterMap_set (hb : Base d) (he : d.entries[pos]? = some e) (hkey : e.key = some name)
    (g : DictEntry → DictEntry) (rewrite : Property → Property)
    (hg : ∀ e p, e.property = some p → (g e).property = some (rewrite p)) :
    (d.entries.set pos (g e)).filterMap property =
      d.properties.map fun p => if p.key = name then rewrite p else p := by
  have hmodify : d.entries.set pos (g e) = d.entries.modify pos g := by
    rw [List.modify_eq_set_getElem?, he]
    rfl
  rw [hmodify, modify_eq_map hb.distinct he (e.keyOf_property.trans hkey)]
  exact filterMap_rewrite d.entries hg

/-- **`remove`** takes the property out, if there is one. -/
theorem remove_spec (hi : Inv d) (name : PropertyKey) :
    ∃ removed d', d.remove name = some (removed, d') ∧ Inv d' ∧
      (removed = true ↔ d.Contains name) ∧
      d'.properties = erase Property.key name d.properties := by
  rcases find_spec hi name with ⟨pos, hfind, hholds⟩ | ⟨hfind, hnew⟩
  · obtain ⟨d', hrun, hi', hproperties⟩ := shrink_spec (bury_spec hi hholds)
    refine ⟨true, d', by simp only [remove, hfind, hrun]; rfl, hi',
      iff_of_true rfl (contains_iff.mpr ⟨pos, hholds⟩), ?_⟩
    obtain ⟨e, he, hkey⟩ := hholds
    rw [hproperties, properties, bury]
    rw [set_eq_map hi.base.distinct he (e.keyOf_property.trans hkey), filterMap_drop_key _ rfl]
    rfl
  · exact ⟨false, d, by simp [remove, hfind], hi, iff_of_false Bool.false_ne_true hnew,
      (erase_of_not_mem hnew).symm⟩

theorem slotWidth_pos (accessor : Bool) : 0 < slotWidth accessor := by
  cases accessor <;> decide

/-- The branch for a property of another kind: the old storage is given up before the new one is
taken. -/
theorem changeKind_spec (hi : Inv d) (he : d.entries[pos]? = some e) (hkey : e.key = some name)
    (enumerable accessor : Bool) :
    ∃ slot d', d.changeKind pos enumerable accessor = (slot, d') ∧ Inv d' ∧
      d'.entries = d.entries.set pos { e with enumerable, accessor, slot } := by
  rw [changeKind, entryAt_eq he]
  obtain ⟨rest, hperm, hset⟩ := held_set he
  -- what is on the free list once the old slot is
  have hstorage : Storage d.inlineSlots d.nextSlot
      (rest ++ if e.accessor then d.freeSlots else e.slot :: d.freeSlots) := by
    have h := hi.base.storage_rest hperm
    rw [owned_of_key hkey] at h
    cases haccessor : e.accessor with
    | true => exact h.subperm (List.sublist_append_right ..).subperm
    | false =>
      rw [haccessor] at h
      exact h.subperm (subperm List.perm_middle)
  set d₁ : Dictionary := { d with
    freeSlots := if e.accessor then d.freeSlots else e.slot :: d.freeSlots } with hd₁
  have hite : (if e.accessor = true then d else { d with freeSlots := e.slot :: d.freeSlots }) =
      d₁ := by
    cases haccessor : e.accessor <;> simp [hd₁, haccessor]
  obtain ⟨slot, d', halloc, hstorage', hfits, hd'⟩ :=
    allocateSlots_spec (d := d₁) (slotWidth_pos accessor) hstorage
  simp only [hite, halloc]
  have hentries : d'.entries = d.entries := by rw [hd']
  refine ⟨slot, _, rfl, ?_, by rw [hentries]⟩
  have hbase : Base { d with
      entries := d.entries.set pos { e with enumerable, accessor, slot }
      freeSlots := d'.freeSlots
      nextSlot := d'.nextSlot } := by
    refine hi.base.set he { e with enumerable, accessor, slot } (.inl rfl)
      (fun rest' hperm' => ?_) (fun _ => hfits)
    have hrest : rest'.Perm rest :=
      (List.perm_append_left_iff e.owned).mp (hperm'.symm.trans hperm)
    have howned : ({ e with enumerable, accessor, slot } : DictEntry).owned =
        List.range' slot (slotWidth accessor) := owned_of_key hkey
    rw [howned]
    exact hstorage'.subperm ((hrest.append_right _).append_left _).subperm
  have hrecord : { d' with entries := d'.entries.set pos { e with enumerable, accessor, slot } } =
      ({ d with
        entries := d.entries.set pos { e with enumerable, accessor, slot }
        freeSlots := d'.freeSlots
        nextSlot := d'.nextSlot } : Dictionary) := by
    rw [hd']
  rw [hrecord]
  refine ⟨hbase, hi.indexed_set he { e with enumerable, accessor, slot } (.inl rfl) rfl, hi.room,
    ?_⟩
  exact hi.live_eq.trans (countP_set_of_key he { e with enumerable, accessor, slot } rfl).symm

/-- **`add`, of slots that were just allocated.** -/
theorem allocated_add_spec (hi : Inv d) (hnew : ¬d.Contains name)
    (enumerable accessor writable configurable : Bool) :
    ∃ slot d₁, d.allocateSlots (slotWidth accessor) = (slot, d₁) ∧
      ∃ d', d₁.add name slot enumerable accessor writable configurable = some d' ∧ Inv d' ∧
        d'.properties =
          d.properties ++ [{ key := name, enumerable, accessor, writable, configurable }] := by
  obtain ⟨slot, d₁, halloc, hstorage, hfits, hd₁⟩ :=
    allocateSlots_spec (d := d) (slotWidth_pos accessor) hi.base.storage
  have hi₁ : Inv d₁ := by
    rw [hd₁]
    exact ⟨⟨hi.base.distinct, hstorage.subperm (List.sublist_append_right ..).subperm,
      hi.base.fits, hi.base.inline_le⟩, hi.indexed, hi.room, hi.live_eq⟩
  have hentries₁ : d₁.entries = d.entries := by rw [hd₁]
  have hinline₁ : d₁.inlineSlots = d.inlineSlots := by rw [hd₁]
  have hnew₁ : ¬d₁.Contains name := by rwa [Contains, properties, hentries₁]
  obtain ⟨d', hrun, hi', hentries⟩ := add_spec hi₁ hnew₁ enumerable accessor writable configurable
    (by rwa [hinline₁, hentries₁]) (by rwa [hinline₁])
  refine ⟨slot, d₁, halloc, d', hrun, hi', ?_⟩
  rw [properties, hentries, hentries₁, properties_append]
  rfl

/-- **`dictDefine`** rewrites the property in its place, and appends one that is not there. -/
theorem dictDefine_spec (hi : Inv d) (name : PropertyKey) (enumerable accessor : Bool) :
    ∃ slot d', d.dictDefine name enumerable accessor = some (slot, d') ∧ Inv d' ∧
      d'.properties = put Property.key (fun p => { p with enumerable, accessor })
        { key := name, enumerable, accessor, writable := true, configurable := true }
        d.properties := by
  rcases find_spec hi name with ⟨pos, hfind, hholds⟩ | ⟨hfind, hnew⟩
  · have hcontains : d.Contains name := contains_iff.mpr ⟨pos, hholds⟩
    obtain ⟨e, he, hkey⟩ := hholds
    rw [put_of_mem (by exact hcontains)]
    have hproperty : ∀ slot e p, property e = some p →
        ({ e with enumerable, accessor, slot } : DictEntry).property =
          some { p with enumerable, accessor } := by
      intro slot e p hp
      obtain ⟨key, hk, rfl⟩ := map_eq_some_iff.mp hp
      rw [hk]
      rfl
    by_cases hkind : e.accessor = accessor
    · have hentry : ({ e with enumerable } : DictEntry) =
          { e with enumerable, accessor, slot := e.slot } := by rw [← hkind]
      refine ⟨e.slot, { d with entries := d.entries.set pos { e with enumerable } }, ?_, ?_, ?_⟩
      · simp [dictDefine, hfind, entryAt_eq he, if_pos hkind]
      · have howned : ({ e with enumerable } : DictEntry).owned = e.owned := rfl
        refine ⟨hi.base.set he { e with enumerable } (.inl rfl) (fun rest hperm => ?_)
          (fun hlive => ?_), hi.indexed_set he { e with enumerable } (.inl rfl) rfl, hi.room, ?_⟩
        · rw [howned]
          exact hi.base.storage_rest hperm
        · exact hi.base.fits e (List.mem_of_getElem? he) hlive
        · exact hi.live_eq.trans (countP_set_of_key he { e with enumerable } rfl).symm
      · rw [hentry]
        exact filterMap_set hi.base he hkey
          (fun x => { x with enumerable, accessor, slot := e.slot }) _ (hproperty e.slot)
    · obtain ⟨slot, d', hrun, hi', hentries⟩ := changeKind_spec hi he hkey enumerable accessor
      refine ⟨slot, d', ?_, hi', ?_⟩
      · simp [dictDefine, hfind, entryAt_eq he, if_neg hkind, hrun]
      · rw [properties, hentries]
        exact filterMap_set hi.base he hkey (fun x => { x with enumerable, accessor, slot }) _
          (hproperty slot)
  · obtain ⟨slot, d₁, halloc, d', hrun, hi', hproperties⟩ :=
      allocated_add_spec hi hnew enumerable accessor true true
    refine ⟨slot, d', ?_, hi', ?_⟩
    · simp only [dictDefine, hfind, halloc, hrun]
      rfl
    · rw [put_of_not_mem (by exact hnew), hproperties]

end Operations

end Dictionary

end Bronze
