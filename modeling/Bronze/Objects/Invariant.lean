import Bronze.Objects.Layout

/-!
# What every operation keeps

A heap of a run is well formed: its nodes make trees, the layout of a node is one that properties
were added to one by one, the tables of its dictionaries are sound. It is linked: every object
that is the prototype of a root is at a marked shape. An operation extends the heap: the layout of
a tree shape and of a frozen dictionary stays, and a mark stays with the node and with the object.
And it raises the epoch, or it keeps the links: an object at a marked shape goes on to answer what
it did.
-/

namespace Bronze.Objects

open Heap Option

/-- A table is sound, and the properties of one that is frozen stay. -/
structure TableOk (t : PropertyTable) : Prop where
  inv : t.table.Inv
  frozen : t.level = .frozen → t.extensible = false ∧
    ∀ e ∈ t.table.entries, e.live = true → e.configurable = false

/-- The edge leads to a child that is what the edge says. -/
structure EdgeOk (h : Heap) (s : Nat) (t : ShapeTransition) : Prop where
  lt : t.nextShape < h.nextShape
  parent : (h.shapes t.nextShape).parent = some s
  key : (h.shapes t.nextShape).key = some t.key
  enumerable : (h.shapes t.nextShape).enumerable = t.enumerable
  accessor : (h.shapes t.nextShape).accessor = t.accessor
  writable : (h.shapes t.nextShape).writable = t.writable
  configurable : (h.shapes t.nextShape).configurable = t.configurable

/-- A node with a parent is a node of the parent's tree. -/
structure ParentOk (h : Heap) (s p : Nat) : Prop where
  lt : p < s
  tree : (h.shapes s).dict = none
  parentTree : (h.shapes p).dict = none
  root : (h.shapes s).root = (h.shapes p).root
  inlineSlots : (h.shapes s).inlineSlots = (h.shapes p).inlineSlots

structure RootOk (h : Heap) (r : Nat) : Prop where
  lt : r < h.nextShape
  parent : (h.shapes r).parent = none
  tree : (h.shapes r).dict = none

/-- A node of the arena. On the thread's own heap the children of a marked node are marked: only
there is no shared root ever marked. -/
structure NodeOk (rt : Runtime) (h : Heap) (s : Nat) : Prop where
  keyed : (h.shapes s).key = none ↔ (h.shapes s).parent = none
  parent : ∀ p, (h.shapes s).parent = some p → ParentOk h s p
  root : RootOk h (h.shapes s).root
  root_self : (h.shapes s).dict = none → (h.shapes s).parent = none → (h.shapes s).root = s
  reached : (h.shapes s).dict = none → (h.chain s).Reached
  doubleSlots : (h.shapes s).parent = none → (h.shapes s).doubleSlots = 0
  edges : ∀ t ∈ (h.shapes s).transitions, EdgeOk h s t
  table : ∀ t, (h.shapes s).dict = some t → TableOk t
  prototype : ∀ p, (h.shapes s).prototype = .object p → p < h.nextCell
  closed : rt.threadOwned = true → ∀ p, (h.shapes s).parent = some p →
    (h.shapes p).usedAsPrototype = true → (h.shapes s).usedAsPrototype = true

/-- **A well-formed heap.** -/
structure WellFormed (rt : Runtime) (h : Heap) : Prop where
  nodes : ∀ s < h.nextShape, NodeOk rt h s
  objects : ∀ a s, h.shapeOf a = some s → s < h.nextShape ∧ a < h.nextCell
  memo : ∀ r ∈ h.userPrototypeShapes, RootOk h r

/-- The prototypes of the roots are at marked shapes, but for those about to be. -/
def LinkedBut (pending : Address → Prop) (h : Heap) : Prop :=
  ∀ r < h.nextShape, ∀ p, (h.shapes r).prototype = .object p → ¬pending p →
    ∀ t, h.shapeOf p = some t → (h.shapes t).usedAsPrototype = true

/-- **Every prototype is at a marked shape.** -/
def Linked (h : Heap) : Prop := LinkedBut (fun _ => False) h

theorem WellFormed.ordered {rt : Runtime} {h : Heap} (hw : WellFormed rt h) : h.Ordered :=
  fun s hs p hp => ((hw.nodes s hs).parent p hp).lt

/-! ## Extensions -/

/-- What an operation leaves of a heap. -/
structure Extends (rt : Runtime) (h h' : Heap) : Prop where
  shape_le : h.nextShape ≤ h'.nextShape
  cell_le : h.nextCell ≤ h'.nextCell
  epoch_le : h.protoEpoch ≤ h'.protoEpoch
  node : ∀ s < h.nextShape, SameNode (h.shapes s) (h'.shapes s)
  tree : ∀ s < h.nextShape, (h.shapes s).dict = none →
    (h'.shapes s).dict = none ∧ (h'.shapes s).root = (h.shapes s).root
  marked : ∀ s < h.nextShape, (h.shapes s).usedAsPrototype = true →
    (h'.shapes s).usedAsPrototype = true
  newMark : rt.threadOwned = true → ∀ s < h.nextShape, (h'.shapes s).usedAsPrototype = true →
    (h.shapes s).usedAsPrototype = true ∨
      ∀ u < h.nextShape, (h.shapes u).parent = some s → (h'.shapes u).usedAsPrototype = true
  frozen : ∀ s < h.nextShape, ∀ t, (h.shapes s).dict = some t → t.level = .frozen →
    ∃ t', (h'.shapes s).dict = some t' ∧ t'.level = .frozen ∧
      t'.table.entries.map DictEntry.place = t.table.entries.map DictEntry.place
  object : ∀ a s, h.shapeOf a = some s → ∃ s', h'.shapeOf a = some s' ∧
    ((h.shapes s).usedAsPrototype = true → (h'.shapes s').usedAsPrototype = true)
  other : ∀ a < h.nextCell, h.shapeOf a = none → h'.shapeOf a = none

/-- Where the epoch stands still, the prototype of a shape a read cache may name is the one it
was, and an object at a marked shape has its properties where it had them. -/
structure Links (h h' : Heap) : Prop where
  receiver : ∀ s < h.nextShape, (h.shapes s).readCacheable = true →
    h'.prototypeValue s = h.prototypeValue s
  link : ∀ a s, h.shapeOf a = some s → (h.shapes s).usedAsPrototype = true →
    ∃ s', h'.shapeOf a = some s' ∧ h'.own s' = h.own s ∧ h'.prototypeValue s' = h.prototypeValue s

def Keeps (h h' : Heap) : Prop := h'.protoEpoch = h.protoEpoch → Links h h'

/-- A step of an operation, the epoch apart. -/
structure Evolves (rt : Runtime) (h h' : Heap) : Prop where
  wf : WellFormed rt h'
  extend : Extends rt h h'
  linked : ∀ pending, LinkedBut pending h → LinkedBut pending h'

/-- **A step of an operation.** -/
structure Moves (rt : Runtime) (h h' : Heap) : Prop where
  wf : WellFormed rt h'
  extend : Extends rt h h'
  linked : ∀ pending, LinkedBut pending h → LinkedBut pending h'
  keeps : Keeps h h'

section Composition

variable {rt : Runtime} {h h₁ h' : Heap}

theorem Extends.refl (h : Heap) : Extends rt h h where
  shape_le := le_rfl
  cell_le := le_rfl
  epoch_le := le_rfl
  node := fun _ _ => .refl _
  tree := fun _ _ hdict => ⟨hdict, rfl⟩
  marked := fun _ _ hmarked => hmarked
  newMark := fun _ _ _ hmarked => .inl hmarked
  frozen := fun _ _ t hdict hlevel => ⟨t, hdict, hlevel, rfl⟩
  object := fun _ s hs => ⟨s, hs, id⟩
  other := fun _ _ hnone => hnone

theorem Extends.trans (e₁ : Extends rt h h₁) (e₂ : Extends rt h₁ h') : Extends rt h h' where
  shape_le := e₁.shape_le.trans e₂.shape_le
  cell_le := e₁.cell_le.trans e₂.cell_le
  epoch_le := e₁.epoch_le.trans e₂.epoch_le
  node := fun s hs => (e₁.node s hs).trans (e₂.node s (hs.trans_le e₁.shape_le))
  tree := by
    intro s hs hdict
    obtain ⟨hdict₁, hroot₁⟩ := e₁.tree s hs hdict
    obtain ⟨hdict', hroot'⟩ := e₂.tree s (hs.trans_le e₁.shape_le) hdict₁
    exact ⟨hdict', hroot'.trans hroot₁⟩
  marked := fun s hs hmarked => e₂.marked s (hs.trans_le e₁.shape_le) (e₁.marked s hs hmarked)
  newMark := by
    intro hown s hs hmarked
    rcases e₂.newMark hown s (hs.trans_le e₁.shape_le) hmarked with hmarked₁ | hchildren
    · refine (e₁.newMark hown s hs hmarked₁).imp id fun hchildren u hu hparent => ?_
      exact e₂.marked u (hu.trans_le e₁.shape_le) (hchildren u hu hparent)
    · refine .inr fun u hu hparent => hchildren u (hu.trans_le e₁.shape_le) ?_
      exact (e₁.node u hu).parent.trans hparent
  frozen := by
    intro s hs t hdict hlevel
    obtain ⟨t₁, hdict₁, hlevel₁, hplaces₁⟩ := e₁.frozen s hs t hdict hlevel
    obtain ⟨t', hdict', hlevel', hplaces'⟩ :=
      e₂.frozen s (hs.trans_le e₁.shape_le) t₁ hdict₁ hlevel₁
    exact ⟨t', hdict', hlevel', hplaces'.trans hplaces₁⟩
  object := by
    intro a s hs
    obtain ⟨s₁, hs₁, hmark₁⟩ := e₁.object a s hs
    obtain ⟨s', hs', hmark'⟩ := e₂.object a s₁ hs₁
    exact ⟨s', hs', hmark' ∘ hmark₁⟩
  other := fun a ha hnone => e₂.other a (ha.trans_le e₁.cell_le) (e₁.other a ha hnone)

variable {s : Nat}

theorem Extends.readCacheable (e : Extends rt h h') (hs : s < h.nextShape)
    (hr : (h.shapes s).readCacheable = true) : (h'.shapes s).readCacheable = true := by
  rw [Shape.readCacheable] at hr ⊢
  cases hdict : (h.shapes s).dict with
  | none => rw [(e.tree s hs hdict).1]
  | some t =>
    rw [hdict] at hr
    obtain ⟨t', hdict', hlevel', -⟩ := e.frozen s hs t hdict (of_decide_eq_true hr)
    rw [hdict']
    exact decide_eq_true hlevel'

theorem Extends.chain_eq (hw : WellFormed rt h) (e : Extends rt h h')
    (hs : s < h.nextShape) : h'.chain s = h.chain s :=
  chain_congr hw.ordered hs e.node

theorem entries_tree (hdict : (h.shapes s).dict = none) : h.entries s = (h.chain s).entries := by
  rw [entries, hdict]

theorem entries_dict {t : PropertyTable} (hdict : (h.shapes s).dict = some t) :
    h.entries s = t.table.entries := by
  rw [entries, hdict]

/-- **The layout of a shape a read cache may name is for good.** -/
theorem own_eq (hw : WellFormed rt h) (e : Extends rt h h') (hs : s < h.nextShape)
    (hr : (h.shapes s).readCacheable = true) : h'.own s = h.own s := by
  rw [own, own]
  cases hdict : (h.shapes s).dict with
  | none =>
    rw [entries_tree hdict, entries_tree (e.tree s hs hdict).1, e.chain_eq hw hs]
  | some t =>
    rw [Shape.readCacheable, hdict] at hr
    obtain ⟨t', hdict', -, hplaces⟩ := e.frozen s hs t hdict (of_decide_eq_true hr)
    rw [entries_dict hdict, entries_dict hdict']
    exact placeOf_of_places hplaces

theorem Links.refl (h : Heap) : Links h h :=
  ⟨fun _ _ _ => rfl, fun _ s hs _ => ⟨s, hs, rfl, rfl⟩⟩

theorem Links.trans (e₁ : Extends rt h h₁) (l₁ : Links h h₁) (l₂ : Links h₁ h') : Links h h' where
  receiver := fun s hs hr =>
    (l₂.receiver s (hs.trans_le e₁.shape_le) (e₁.readCacheable hs hr)).trans (l₁.receiver s hs hr)
  link := by
    intro a s hs hmarked
    obtain ⟨s₁, hs₁, hown₁, hproto₁⟩ := l₁.link a s hs hmarked
    obtain ⟨s₁', hs₁', hmarked₁⟩ := e₁.object a s hs
    obtain rfl : s₁' = s₁ := some.inj (hs₁'.symm.trans hs₁)
    obtain ⟨s', hs', hown', hproto'⟩ := l₂.link a s₁' hs₁ (hmarked₁ hmarked)
    exact ⟨s', hs', hown'.trans hown₁, hproto'.trans hproto₁⟩

theorem Moves.refl (hw : WellFormed rt h) : Moves rt h h :=
  ⟨hw, .refl h, fun _ => id, fun _ => .refl h⟩

/-- **Steps of an operation, one after the other.** -/
theorem Moves.trans (m₁ : Moves rt h h₁) (m₂ : Moves rt h₁ h') : Moves rt h h' where
  wf := m₂.wf
  extend := m₁.extend.trans m₂.extend
  linked := fun pending => m₂.linked pending ∘ m₁.linked pending
  keeps := by
    intro hepoch
    -- the epoch in between is between equal ones
    have hle₁ := m₁.extend.epoch_le
    have hle₂ := m₂.extend.epoch_le
    exact (m₁.keeps (by omega)).trans m₁.extend (m₂.keeps (by omega))

theorem Moves.evolves (m : Moves rt h h') : Evolves rt h h' := ⟨m.wf, m.extend, m.linked⟩

theorem Evolves.trans (m₁ : Evolves rt h h₁) (m₂ : Evolves rt h₁ h') : Evolves rt h h' :=
  ⟨m₂.wf, m₁.extend.trans m₂.extend, fun pending => m₂.linked pending ∘ m₁.linked pending⟩

theorem Evolves.moves (m : Evolves rt h h') (hlt : h.protoEpoch < h'.protoEpoch) : Moves rt h h' :=
  ⟨m.wf, m.extend, m.linked, fun hepoch => absurd hepoch hlt.ne'⟩

theorem LinkedBut.extend (e : Extends rt h h') (hw : WellFormed rt h)
    (hnew : ∀ s, h.nextShape ≤ s → s < h'.nextShape → ∀ p, (h'.shapes s).prototype = .object p →
      ∃ r < h.nextShape, (h.shapes r).prototype = .object p) (pending : Address → Prop)
    (hl : LinkedBut pending h) : LinkedBut pending h' := by
  intro s hs p hp hpending t' ht'
  obtain ⟨r, hr, hproto⟩ : ∃ r < h.nextShape, (h.shapes r).prototype = .object p := by
    rcases Nat.lt_or_ge s h.nextShape with hlt | hge
    · exact ⟨s, hlt, (e.node s hlt).prototype ▸ hp⟩
    · exact hnew s hge hs p hp
  cases hshape : h.shapeOf p with
  | none => rw [e.other p ((hw.nodes r hr).prototype p hproto) hshape] at ht'; cases ht'
  | some t =>
    obtain ⟨t₁, ht₁, hmark⟩ := e.object p t hshape
    rw [ht₁, some.injEq] at ht'
    exact ht' ▸ hmark (hl r hr p hproto hpending t hshape)

end Composition

section Lookups

variable {rt : Runtime} {h : Heap} {s : Nat} {name : PropertyKey}

theorem WellFormed.lookupProperty_eq (hw : WellFormed rt h) (hs : s < h.nextShape) :
    h.lookupProperty s name =
      some (((h.entries s).find? fun e => e.key = some name).map infoOf) := by
  cases hdict : (h.shapes s).dict with
  | none => exact lookupProperty_tree hdict ((hw.nodes s hs).reached hdict)
  | some t => exact lookupProperty_dict hdict ((hw.nodes s hs).table t hdict).inv

theorem own_of_lookup (hw : WellFormed rt h) (hs : s < h.nextShape) {found : Option PropertyInfo}
    (hlookup : h.lookupProperty s name = some found) :
    h.own s name = found.map fun info => (info.slot, info.accessor) := by
  rw [hw.lookupProperty_eq hs, some.injEq] at hlookup
  rw [← hlookup, map_map]
  rfl

theorem exists_lookup (name : PropertyKey) (hw : WellFormed rt h) (hs : s < h.nextShape) :
    ∃ found, h.lookupProperty s name = some found ∧
      h.own s name = found.map fun info => (info.slot, info.accessor) :=
  ⟨_, hw.lookupProperty_eq hs, own_of_lookup hw hs (hw.lookupProperty_eq hs)⟩

theorem WellFormed.link_marked (hw : WellFormed rt h) (hl : Linked h) (hs : s < h.nextShape)
    {p t : Nat} (hproto : h.prototypeValue s = .object p) (ht : h.shapeOf p = some t) :
    (h.shapes t).usedAsPrototype = true :=
  hl _ (hw.nodes s hs).root.lt p hproto id t ht

end Lookups

section Extension

variable {rt : Runtime} {h h' : Heap}

theorem RootOk.extend (e : Extends rt h h') {r : Nat} (hr : RootOk h r) : RootOk h' r where
  lt := hr.lt.trans_le e.shape_le
  parent := (e.node r hr.lt).parent.trans hr.parent
  tree := (e.tree r hr.lt hr.tree).1

variable {s : Nat}

theorem EdgeOk.extend (e : Extends rt h h') {t : ShapeTransition} (ht : EdgeOk h s t) :
    EdgeOk h' s t where
  lt := ht.lt.trans_le e.shape_le
  parent := (e.node _ ht.lt).parent.trans ht.parent
  key := (e.node _ ht.lt).key.trans ht.key
  enumerable := (e.node _ ht.lt).enumerable.trans ht.enumerable
  accessor := (e.node _ ht.lt).accessor.trans ht.accessor
  writable := (e.node _ ht.lt).writable.trans ht.writable
  configurable := (e.node _ ht.lt).configurable.trans ht.configurable

/-- What may be written of an old node: the root of a dictionary, its table, and new edges. -/
structure Rewritten (h h' : Heap) (s : Nat) : Prop where
  root : (h'.shapes s).root = (h.shapes s).root ∨
    (h.shapes s).dict.isSome = true ∧ RootOk h' (h'.shapes s).root
  tree : (h'.shapes s).dict = none → (h.shapes s).dict = none
  table : ∀ t, (h'.shapes s).dict = some t → (h.shapes s).dict = some t ∨ TableOk t
  edges : ∀ t ∈ (h'.shapes s).transitions, t ∈ (h.shapes s).transitions ∨ EdgeOk h' s t

theorem Rewritten.of_eq (heq : h'.shapes s = h.shapes s) : Rewritten h h' s where
  root := .inl (by rw [heq])
  tree := by rw [heq]; exact id
  table := fun t ht => .inl (by rwa [heq] at ht)
  edges := fun t ht => .inl (by rwa [heq] at ht)

theorem NodeOk.extend (hw : WellFormed rt h) (e : Extends rt h h') (hs : s < h.nextShape)
    (hr : Rewritten h h' s) : NodeOk rt h' s := by
  have hn := hw.nodes s hs
  have hsame := e.node s hs
  refine ⟨?_, ?_, ?_, ?_, ?_, ?_, ?_, ?_, ?_, ?_⟩
  · rw [hsame.key, hsame.parent]
    exact hn.keyed
  · intro p hp
    rw [hsame.parent] at hp
    have hparent := hn.parent p hp
    have hplt := hparent.lt.trans hs
    refine ⟨hparent.lt, (e.tree s hs hparent.tree).1, (e.tree p hplt hparent.parentTree).1, ?_, ?_⟩
    · rw [(e.tree s hs hparent.tree).2, (e.tree p hplt hparent.parentTree).2, hparent.root]
    · rw [hsame.inlineSlots, (e.node p hplt).inlineSlots, hparent.inlineSlots]
  · rcases hr.root with hroot | ⟨-, hroot⟩
    · rw [hroot]
      exact hn.root.extend e
    · exact hroot
  · intro hdict hparent
    have htree := hr.tree hdict
    rw [(e.tree s hs htree).2]
    exact hn.root_self htree (hsame.parent ▸ hparent)
  · intro hdict
    rw [e.chain_eq hw hs]
    exact hn.reached (hr.tree hdict)
  · rw [hsame.parent, hsame.doubleSlots]
    exact hn.doubleSlots
  · intro t ht
    rcases hr.edges t ht with ht | ht
    · exact (hn.edges t ht).extend e
    · exact ht
  · intro t ht
    rcases hr.table t ht with ht | ht
    · exact hn.table t ht
    · exact ht
  · intro p hp
    exact (hn.prototype p (hsame.prototype ▸ hp)).trans_le e.cell_le
  · intro hown p hp hmarked
    rw [hsame.parent] at hp
    have hplt := (hn.parent p hp).lt.trans hs
    rcases e.newMark hown p hplt hmarked with hmarked | hchildren
    · exact e.marked s hs (hn.closed hown p hp hmarked)
    · exact hchildren s hs hp

/-- **A heap that extends a well-formed one**, its new nodes being sound. -/
theorem WellFormed.extend (hw : WellFormed rt h) (e : Extends rt h h')
    (hold : ∀ s < h.nextShape, Rewritten h h' s)
    (hnew : ∀ s, h.nextShape ≤ s → s < h'.nextShape → NodeOk rt h' s)
    (hobjects : ∀ a s, h'.shapeOf a = some s → s < h'.nextShape ∧ a < h'.nextCell)
    (hmemo : ∀ r ∈ h'.userPrototypeShapes, r ∈ h.userPrototypeShapes ∨ RootOk h' r) :
    WellFormed rt h' where
  nodes := fun s hs => by
    rcases Nat.lt_or_ge s h.nextShape with hlt | hge
    · exact NodeOk.extend hw e hlt (hold s hlt)
    · exact hnew s hge hs
  objects := hobjects
  memo := fun r hr => (hmemo r hr).elim (fun hr => (hw.memo r hr).extend e) id

end Extension

end Bronze.Objects
