import Bronze.Dictionary.Refinement
import Bronze.Objects.InlineCache

/-!
# Where a property is

The entries a shape has, those of the chain of a tree shape and those of the table of a
dictionary shape, and what `lookupProperty` answers from them. What a cache entry holds is the
place of a property: its slot, and whether it is a pair. An attribute is no part of it.
-/

namespace Bronze

open OrderedList LinearProbing
open List Option DictEntry Bronze.Shape

/-! ## Entries that differ in attributes -/

/-- The key of an entry and the place of the property. -/
def DictEntry.place (e : DictEntry) : Option PropertyKey × Nat × Bool := (e.key, e.slot, e.accessor)

namespace Dictionary

section Attributes

variable {d : Dictionary} {entries : List DictEntry}

theorem place_eq {e e' : DictEntry} (h : e'.place = e.place) :
    e'.key = e.key ∧ e'.slot = e.slot ∧ e'.accessor = e.accessor := by
  simpa [DictEntry.place] using h

section

variable (h : entries.map DictEntry.place = d.entries.map DictEntry.place)

include h

theorem held_of_places : held entries = held d.entries := by
  have howned : ∀ es, held es = (es.map DictEntry.place).flatMap fun p =>
      if p.1.isSome then range' p.2.1 (slotWidth p.2.2) else [] := by
    intro es
    rw [flatMap_map]
    rfl
  rw [howned, howned, h]

theorem bind_key_of_places
    (pos : Nat) : entries[pos]?.bind key = d.entries[pos]?.bind key := by
  have hplace : ∀ es : List DictEntry,
      es[pos]?.bind DictEntry.key = (es.map DictEntry.place)[pos]?.bind Prod.fst := by
    intro es
    rw [getElem?_map]
    cases es[pos]? <;> rfl
  rw [hplace, hplace, h]

theorem filterMap_key_of_places :
    entries.filterMap (keyOf DictEntry.property Property.key) =
      d.entries.filterMap (keyOf DictEntry.property Property.key) := by
  have hkey : ∀ es : List DictEntry, es.filterMap (keyOf DictEntry.property Property.key) =
      (es.map DictEntry.place).filterMap Prod.fst := by
    intro es
    rw [filterMap_map]
    exact filterMap_congr fun e _ => e.keyOf_property
  rw [hkey, hkey, h]

end

/-- **The attributes of a table can be rewritten**, the keys and the slots being kept. -/
theorem Inv.reattribute (hi : Inv d)
    (h : entries.map DictEntry.place = d.entries.map DictEntry.place) : Inv { d with entries } := by
  have hlen : entries.length = d.entries.length := by simpa using congrArg length h
  refine ⟨⟨?_, ?_, ?_, hi.base.inline_le⟩, ?_, hi.room, ?_⟩
  · have hdistinct := hi.base.distinct
    rw [properties, ← filterMap_keyOf] at hdistinct ⊢
    rwa [filterMap_key_of_places h]
  · change Storage _ _ (held entries ++ _)
    rw [held_of_places h]
    exact hi.base.storage
  · intro e he hlive
    have hmem : e.place ∈ d.entries.map DictEntry.place := h ▸ mem_map_of_mem he
    obtain ⟨e₀, he₀, hplace⟩ := mem_map.mp hmem
    obtain ⟨hkey, hslot, haccessor⟩ := place_eq hplace
    have hfits := hi.base.fits e₀ he₀ (by rwa [DictEntry.live, hkey])
    rwa [hslot, haccessor] at hfits
  · change Indexed d.index _ _ entries.length d.used
    rw [hlen]
    refine hi.indexed.mono (fun pos hpos => ?_) le_rfl le_rfl
    unfold LiveAt home at *
    rw [bind_key_of_places h] at hpos ⊢
    exact ⟨hpos, rfl⟩
  · have hcount : ∀ es : List DictEntry,
        es.countP DictEntry.live = (es.map DictEntry.place).countP fun p => p.1.isSome := by
      intro es
      rw [countP_map]
      rfl
    change d.live = entries.countP DictEntry.live
    rw [hi.live_eq, hcount, hcount, h]

theorem map_place_set {pos : Nat} {e e' : DictEntry} (he : d.entries[pos]? = some e)
    (h : e'.place = e.place) :
    (d.entries.set pos e').map DictEntry.place = d.entries.map DictEntry.place := by
  obtain ⟨hlt, rfl⟩ := List.getElem?_eq_some_iff.mp he
  rw [List.map_set, h]
  apply ext_getElem?
  intro i
  rw [getElem?_set]
  split_ifs with hi hlt'
  · subst hi
    rw [getElem?_map, getElem?_eq_getElem hlt, map_some]
  · rw [length_map] at hlt'
    exact absurd (hi ▸ hlt) hlt'
  · rfl

/-- **`find`, on the entries**: the position it answers is that of the only entry of the name. -/
theorem find_entry (hi : Inv d) (name : PropertyKey) :
    (∃ pos e, d.find (some name) = some (some pos) ∧ d.entries[pos]? = some e ∧
      e.key = some name ∧ d.entries.find? (fun e => e.key = some name) = some e) ∨
    d.find (some name) = some none ∧ d.entries.find? (fun e => e.key = some name) = none := by
  rcases find_spec hi name with ⟨pos, hfind, e, he, hkey⟩ | ⟨hfind, hnew⟩
  · refine .inl ⟨pos, e, hfind, he, hkey, ?_⟩
    cases hfirst : d.entries.find? (fun e => e.key = some name) with
    | none =>
      have := find?_eq_none.mp hfirst e (mem_of_getElem? he)
      simp [hkey] at this
    | some e₀ =>
      -- the keys are distinct, so the first entry of the name is the one at the position
      obtain ⟨hkey₀, hmem⟩ := And.intro (find?_some hfirst) (mem_of_find?_eq_some hfirst)
      obtain ⟨j, hj⟩ := mem_iff_getElem?.mp hmem
      have hpos : j = pos := index_unique hi.base.distinct hj he
        (e₀.keyOf_property.trans (of_decide_eq_true hkey₀)) (e.keyOf_property.trans hkey)
      rw [← hpos, hj] at he
      exact he
  · refine .inr ⟨hfind, find?_eq_none.mpr fun e he hkey => hnew ?_⟩
    obtain ⟨pos, hpos⟩ := mem_iff_getElem?.mp he
    exact contains_iff.mpr ⟨pos, e, hpos, of_decide_eq_true hkey⟩

end Attributes

end Dictionary

/-- The entry of a name, where the properties are. -/
def placeOf (entries : List DictEntry) (name : PropertyKey) : Option (Nat × Bool) :=
  (entries.find? fun e => e.key = some name).map fun e => (e.slot, e.accessor)

theorem placeOf_of_places {entries entries' : List DictEntry}
    (h : entries'.map DictEntry.place = entries.map DictEntry.place) :
    placeOf entries' = placeOf entries := by
  have hplace : ∀ es, placeOf es = fun name =>
      ((es.map DictEntry.place).find? fun p => p.1 = some name).map fun p => p.2 := by
    intro es
    funext name
    rw [find?_map, Option.map_map]
    rfl
  rw [hplace, hplace, h]

namespace Objects

namespace Heap

section Lookup

variable {h : Heap} {s : ShapeId} {name : PropertyKey}

/-- The entry of a property, as `lookupProperty` answers it. -/
def infoOf (e : DictEntry) : PropertyInfo :=
  { slot := e.slot, enumerable := e.enumerable, accessor := e.accessor, writable := e.writable,
    configurable := e.configurable }

theorem mem_keys_entries (c : Bronze.Shape) (key : PropertyKey) :
    (∃ e ∈ c.entries, e.key = some key) ↔ key ∈ c.keys := by
  induction c with
  | root => simp [entries, Shape.keys]
  | child parent k slot enumerable accessor writable configurable ih =>
    rw [entries, Shape.keys, mem_cons, ← ih]
    simp only [mem_append, mem_singleton, or_and_right, exists_or, exists_eq_left, some.injEq]
    rw [or_comm, eq_comm (a := k)]

/-- The walk from the newest property finds what is to be found, each key being there once. -/
theorem findInChain_eq {c : Bronze.Shape} (hc : c.keys.Nodup) (name : PropertyKey) :
    findInChain c name = (c.entries.find? fun e => e.key = some name).map infoOf := by
  induction c with
  | root => rfl
  | child parent key slot enumerable accessor writable configurable ih =>
    rw [Shape.keys, nodup_cons] at hc
    rw [findInChain, entries, find?_append]
    by_cases hkey : key = name
    · subst hkey
      have hnone : parent.entries.find? (fun e => e.key = some key) = none := by
        rw [find?_eq_none]
        intro e he hek
        exact hc.1 ((mem_keys_entries parent key).mp ⟨e, he, of_decide_eq_true hek⟩)
      rw [if_pos ((Dictionary.matches_iff key key).mpr rfl), hnone]
      simp [infoOf]
    · rw [if_neg (mt (Dictionary.matches_iff key name).mp hkey), ih hc.2]
      simp [hkey]

def entries (h : Heap) (s : ShapeId) : List DictEntry :=
  match (h.shapes s).dict with
  | some t => t.table.entries
  | none => (h.chain s).entries

/-- Where a shape has its properties. -/
def own (h : Heap) (s : ShapeId) : PropertyKey → Option (Nat × Bool) := placeOf (h.entries s)

theorem lookupProperty_tree (hdict : (h.shapes s).dict = none) (hreached : (h.chain s).Reached) :
    h.lookupProperty s name =
      some (((h.entries s).find? fun e => e.key = some name).map infoOf) := by
  rw [lookupProperty, entries, hdict]
  exact congrArg some (findInChain_eq (nodup_keys hreached) name)

theorem lookupProperty_dict {t : PropertyTable} (hdict : (h.shapes s).dict = some t)
    (hi : t.table.Inv) :
    h.lookupProperty s name =
      some (((h.entries s).find? fun e => e.key = some name).map infoOf) := by
  rw [lookupProperty, entries, hdict]
  dsimp only
  rcases Dictionary.find_entry hi name with ⟨pos, e, hfind, he, -, hfirst⟩ | ⟨hfind, hfirst⟩
  · rw [hfind, hfirst, map_some, map_some, Dictionary.entryAt_eq he]
    rfl
  · rw [hfind, hfirst]
    rfl

end Lookup

section Chain

variable {h h' : Heap} {s : Nat}

/-- What a chain reads of a node, and what else of it is never written. -/
structure SameNode (n n' : Shape) : Prop where
  parent : n'.parent = n.parent
  key : n'.key = n.key
  slotIndex : n'.slotIndex = n.slotIndex
  enumerable : n'.enumerable = n.enumerable
  accessor : n'.accessor = n.accessor
  writable : n'.writable = n.writable
  configurable : n'.configurable = n.configurable
  prototype : n'.prototype = n.prototype
  inlineSlots : n'.inlineSlots = n.inlineSlots
  doubleSlots : n'.doubleSlots = n.doubleSlots
  repr : n'.repr = n.repr

theorem SameNode.refl (n : Shape) : SameNode n n :=
  ⟨rfl, rfl, rfl, rfl, rfl, rfl, rfl, rfl, rfl, rfl, rfl⟩

theorem SameNode.trans {n n' n'' : Shape} (h₁ : SameNode n n') (h₂ : SameNode n' n'') :
    SameNode n n'' where
  parent := h₂.parent.trans h₁.parent
  key := h₂.key.trans h₁.key
  slotIndex := h₂.slotIndex.trans h₁.slotIndex
  enumerable := h₂.enumerable.trans h₁.enumerable
  accessor := h₂.accessor.trans h₁.accessor
  writable := h₂.writable.trans h₁.writable
  configurable := h₂.configurable.trans h₁.configurable
  prototype := h₂.prototype.trans h₁.prototype
  inlineSlots := h₂.inlineSlots.trans h₁.inlineSlots
  doubleSlots := h₂.doubleSlots.trans h₁.doubleSlots
  repr := h₂.repr.trans h₁.repr

/-- The parent of a node is an older node. -/
def Ordered (h : Heap) : Prop :=
  ∀ s < h.nextShape, ∀ p : Nat, (h.shapes s).parent = some p → p < s

theorem chainFrom_eq (ho : h.Ordered) {fuel : Nat} (hs : s < h.nextShape) (hfuel : s ≤ fuel) :
    h.chainFrom fuel s = h.chain s := by
  induction s using Nat.strong_induction_on generalizing fuel with
  | _ s ih =>
    rw [chain]
    cases hp : (h.shapes s).parent with
    | none =>
      have hroot : ∀ n, h.chainFrom n s = .root (h.shapes s).inlineSlots := by
        intro n
        cases n with
        | zero => rfl
        | succ n =>
          rw [chainFrom, hp]
          cases (h.shapes s).key <;> rfl
      rw [hroot, hroot]
    | some p =>
      -- the parent is older, so neither fuel is used up
      have hlt := ho s hs p hp
      obtain ⟨n, rfl⟩ : ∃ n, fuel = n + 1 := ⟨fuel - 1, by omega⟩
      obtain ⟨t, rfl⟩ : ∃ t, s = t + 1 := ⟨s - 1, by omega⟩
      rw [chainFrom, chainFrom, hp]
      cases (h.shapes (t + 1)).key with
      | none => rfl
      | some key =>
        dsimp only
        rw [ih p hlt (hlt.trans hs) (by omega), ih p hlt (hlt.trans hs) (by omega)]

theorem chain_child (ho : h.Ordered) (hs : s < h.nextShape) {p : Nat} {key : PropertyKey}
    (hparent : (h.shapes s).parent = some p) (hkey : (h.shapes s).key = some key) :
    h.chain s = .child (h.chain p) key (h.shapes s).slotIndex (h.shapes s).enumerable
      (h.shapes s).accessor (h.shapes s).writable (h.shapes s).configurable := by
  have hlt := ho s hs p hparent
  rw [← chainFrom_eq ho hs (Nat.le_succ s), chainFrom, hkey, hparent]
  dsimp only
  rw [chainFrom_eq ho (hlt.trans hs) hlt.le]

theorem chain_root (hparent : (h.shapes s).parent = none) :
    h.chain s = .root (h.shapes s).inlineSlots := by
  rw [chain]
  cases s with
  | zero => rfl
  | succ s => rw [chainFrom, hparent]; cases (h.shapes (s + 1)).key <;> rfl

theorem chain_congr (ho : h.Ordered) (hs : s < h.nextShape)
    (hsame : ∀ t < h.nextShape, SameNode (h.shapes t) (h'.shapes t)) : h'.chain s = h.chain s := by
  have hfrom : ∀ fuel s, s < h.nextShape → h'.chainFrom fuel s = h.chainFrom fuel s := by
    intro fuel
    induction fuel with
    | zero =>
      intro s hs
      rw [chainFrom, chainFrom, (hsame s hs).inlineSlots]
    | succ fuel ih =>
      intro s hs
      have hn := hsame s hs
      rw [chainFrom, chainFrom, hn.key, hn.parent, hn.inlineSlots, hn.slotIndex, hn.enumerable,
        hn.accessor, hn.writable, hn.configurable]
      cases (h.shapes s).key with
      | none => rfl
      | some key =>
        cases hp : (h.shapes s).parent with
        | none => rfl
        | some p =>
          dsimp only
          rw [ih p ((ho s hs p hp).trans hs)]
  exact hfrom s s hs

end Chain

end Heap

end Objects

end Bronze
