import Bronze.Objects.Steps

/-!
# Transitions

`addPropertyKey` comes to the node whose layout is the old one and the property, whether the edge
was there or is made, and takes the mark along.
-/

namespace Bronze.Objects

open Heap
open List Nat Option Function Shape

variable {rt : Runtime} {h h' : Heap}

section Layouts

variable {s p : Nat}

theorem inlineSlots_chain (hw : WellFormed rt h) (hs : s < h.nextShape) :
    (h.chain s).inlineSlots = (h.shapes s).inlineSlots := by
  induction s using Nat.strong_induction_on with
  | _ s ih =>
    cases hparent : (h.shapes s).parent with
    | none => rw [chain_root hparent]; rfl
    | some p =>
      have hp := (hw.nodes s hs).parent p hparent
      obtain ⟨key, hkey⟩ := ne_none_iff_exists'.mp fun hnone =>
        some_ne_none p (hparent.symm.trans ((hw.nodes s hs).keyed.mp hnone))
      rw [chain_child hw.ordered hs hparent hkey, Bronze.Shape.inlineSlots,
        ih p hp.lt (hp.lt.trans hs), hp.inlineSlots]

theorem exists_key (hw : WellFormed rt h) (hs : s < h.nextShape)
    (hparent : (h.shapes s).parent = some p) : ∃ key, (h.shapes s).key = some key :=
  ne_none_iff_exists'.mp fun hnone =>
    some_ne_none p (hparent.symm.trans ((hw.nodes s hs).keyed.mp hnone))

theorem nextSlotIndex_eq (hw : WellFormed rt h) (hs : s < h.nextShape) (width : Nat) :
    (h.shapes s).nextSlotIndex width = (h.chain s).nextSlotIndex width := by
  rw [nextSlotIndex, Bronze.Shape.nextSlotIndex, inlineSlots_chain hw hs]
  congr 1
  rw [slotEnd]
  cases hparent : (h.shapes s).parent with
  | none =>
    rw [chain_root hparent, (hw.nodes s hs).keyed.mpr hparent]
    rfl
  | some p =>
    obtain ⟨key, hkey⟩ := exists_key hw hs hparent
    rw [chain_child hw.ordered hs hparent hkey, hkey]
    rfl

/-- A child a chain reaches has the next slot, and a key that is not there yet. -/
theorem reached_child {c : Bronze.Shape} {key : PropertyKey} {slot : Nat}
    {enumerable accessor writable configurable : Bool}
    (hr : (Bronze.Shape.child c key slot enumerable accessor writable configurable).Reached) :
    c.Reached ∧ key ∉ c.keys ∧ slot = c.nextSlotIndex (slotWidth accessor) := by
  cases hr with
  | add _ _ _ _ hr hnew => exact ⟨hr, hnew, rfl⟩

end Layouts

section Children

variable {p : Nat} {c : Shape} {key : PropertyKey}

/-- A node to be made below `p`. -/
structure ChildOk (rt : Runtime) (h : Heap) (p : Nat) (key : PropertyKey) (c : Shape) : Prop where
  lt : p < h.nextShape
  parentTree : (h.shapes p).dict = none
  parent : c.parent = some p
  key_eq : c.key = some key
  tree : c.dict = none
  root : c.root = (h.shapes p).root
  inlineSlots : c.inlineSlots = (h.shapes p).inlineSlots
  prototype : c.prototype = .undefined
  transitions : c.transitions = []
  closed : rt.threadOwned = true → (h.shapes p).usedAsPrototype = true → c.usedAsPrototype = true
  reached : (Bronze.Shape.child (h.chain p) key c.slotIndex c.enumerable c.accessor c.writable
    c.configurable).Reached

variable (hw : WellFormed rt h)

include hw

variable (hc : ChildOk rt h p key c)

include hc

theorem ordered_allocShape : (h.allocShape c).2.Ordered := by
  intro s hs q hq
  rcases Nat.lt_or_eq_of_le (Nat.lt_succ_iff.mp hs) with hlt | rfl
  · rw [shapes_allocShape_lt hlt] at hq
    exact hw.ordered s hlt q hq
  · rw [shapes_allocShape_self, hc.parent, some.injEq] at hq
    exact hq ▸ hc.lt

theorem chain_allocShape :
    (h.allocShape c).2.chain h.nextShape = .child (h.chain p) key c.slotIndex c.enumerable
      c.accessor c.writable c.configurable := by
  have hself := shapes_allocShape_self (h := h) (n := c)
  rw [chain_child (ordered_allocShape hw hc) (lt_succ_self _) (by rw [hself, hc.parent])
    (by rw [hself, hc.key_eq]), hself,
    (allocShape_extends hw).chain_eq hw hc.lt]

theorem ChildOk.nodeOk : NodeOk rt (h.allocShape c).2 h.nextShape := by
  have hself := shapes_allocShape_self (h := h) (n := c)
  have he := allocShape_extends (n := c) hw
  have hplt : (h.allocShape c).2.shapes p = h.shapes p := shapes_allocShape_lt hc.lt
  refine ⟨?_, ?_, ?_, ?_, ?_, ?_, ?_, ?_, ?_, ?_⟩
  · rw [hself, hc.key_eq, hc.parent]
    simp
  · intro q hq
    rw [hself, hc.parent, some.injEq] at hq
    subst hq
    refine ⟨hc.lt, by rw [hself, hc.tree], by rw [hplt, hc.parentTree], ?_, ?_⟩
    · rw [hself, hplt, hc.root]
    · rw [hself, hplt, hc.inlineSlots]
  · rw [hself, hc.root]
    exact (hw.nodes p hc.lt).root.extend he
  · intro _ hparent
    rw [hself, hc.parent] at hparent
    cases hparent
  · intro _
    rw [chain_allocShape hw hc]
    exact hc.reached
  · intro hparent
    rw [hself, hc.parent] at hparent
    cases hparent
  · intro t ht
    rw [hself, hc.transitions] at ht
    cases ht
  · intro t ht
    rw [hself, hc.tree] at ht
    cases ht
  · intro q hq
    rw [hself, hc.prototype] at hq
    cases hq
  · intro hown q hq hmarked
    rw [hself, hc.parent, some.injEq] at hq
    subst hq
    rw [hplt] at hmarked
    rw [hself]
    exact hc.closed hown hmarked

theorem ChildOk.moves : Moves rt h (h.allocShape c).2 := by
  refine allocShape_moves hw (hc.nodeOk hw) fun q hq => ?_
  rw [hc.prototype] at hq
  cases hq

end Children

section Marks

variable {s : Nat}

theorem mark_moves (hw : WellFormed rt h)
    (hchildren : rt.threadOwned = true → (h.shapes s).usedAsPrototype = true ∨
      ∀ u < h.nextShape, (h.shapes u).parent = some s → (h.shapes u).usedAsPrototype = true) :
    Moves rt h (h.mark s) := by
  have hf : FieldOk rt h s { h.shapes s with usedAsPrototype := true } :=
    { node := ⟨rfl, rfl, rfl, rfl, rfl, rfl, rfl, rfl, rfl, rfl, rfl⟩
      tree := fun hdict => ⟨hdict, rfl⟩
      marked := fun _ => rfl
      newMark := fun hown _ => hchildren hown
      frozen := fun t hdict hlevel => ⟨t, hdict, hlevel, rfl⟩ }
  refine modifyShape_moves (s := s) hw hf ?_ rfl rfl
  refine ⟨.inl ?_, fun hdict => ?_, fun t ht => .inl ?_, fun t ht => .inl ?_⟩
  · rw [shapes_modifyShape_self]
  · rwa [shapes_modifyShape_self] at hdict
  · rwa [shapes_modifyShape_self] at ht
  · rwa [shapes_modifyShape_self] at ht

theorem usedAsPrototype_mark : ((h.mark s).shapes s).usedAsPrototype = true := by
  rw [mark, shapes_modifyShape_self]

end Marks

/-! ## `addPropertyKey` -/

section AddPropertyKey

variable {this next slot : Nat} {stored : PropertyKey}
  {enumerable accessor writable configurable : Bool} {desired : SlotRepr}

theorem edge_some {transitions : List ShapeTransition} {repr : SlotRepr}
    (hedge : edge transitions stored enumerable accessor writable configurable repr = some next) :
    ∃ t ∈ transitions, t.nextShape = next ∧ t.key = stored ∧ t.enumerable = enumerable ∧
      t.accessor = accessor ∧ t.writable = writable ∧ t.configurable = configurable := by
  obtain ⟨t, hlast, rfl⟩ := map_eq_some_iff.mp hedge
  obtain ⟨hmem, hwanted⟩ := mem_filter.mp (mem_of_getLast? hlast)
  simp only [Bool.and_eq_true, decide_eq_true_eq, Dictionary.matches_iff] at hwanted
  obtain ⟨⟨⟨⟨⟨he, ha⟩, hwr⟩, hc⟩, hk⟩, -⟩ := hwanted
  exact ⟨t, hmem, rfl, hk, he, ha, hwr, hc⟩

variable {t : ShapeTransition}

theorem EdgeOk.chain_eq (hw : WellFormed rt h) (ht : EdgeOk h this t) :
    h.chain t.nextShape = (h.chain this).addPropertyKey t.key t.enumerable t.accessor t.writable
      t.configurable ∧
    (h.shapes t.nextShape).slotIndex = (h.chain this).nextSlotIndex (slotWidth t.accessor) := by
  have hchain := chain_child hw.ordered ht.lt ht.parent ht.key
  have hn := hw.nodes _ ht.lt
  have hreached := hn.reached (hn.parent _ ht.parent).tree
  rw [hchain] at hreached
  obtain ⟨-, -, hslot⟩ := reached_child hreached
  rw [hchain, hslot, ht.enumerable, ht.accessor, ht.writable, ht.configurable]
  exact ⟨rfl, rfl⟩

/-- What `addPropertyKey` comes to. -/
structure Added (rt : Runtime) (h h' : Heap) (this next : Nat) (layout : Bronze.Shape) : Prop where
  moves : Moves rt h h'
  lt : next < h'.nextShape
  tree : (h'.shapes next).dict = none
  chain : h'.chain next = layout
  root : (h'.shapes next).root = (h.shapes this).root
  marked : (h.shapes this).usedAsPrototype = true → (h'.shapes next).usedAsPrototype = true
  cells : h'.cells = h.cells
  epoch : h'.protoEpoch = h.protoEpoch
  marks : rt.threadOwned = true ∨ (h.shapes this).usedAsPrototype ≠ true → ∀ u < h.nextShape,
    (h'.shapes u).usedAsPrototype = (h.shapes u).usedAsPrototype

theorem added_edge (hw : WellFormed rt h) (hthis : this < h.nextShape)
    (hmem : t ∈ (h.shapes this).transitions) :
    Added rt h (if (h.shapes this).usedAsPrototype then h.mark t.nextShape else h) this t.nextShape
      ((h.chain this).addPropertyKey t.key t.enumerable t.accessor t.writable t.configurable) := by
  have ht := (hw.nodes this hthis).edges t hmem
  have hparent := (hw.nodes _ ht.lt).parent _ ht.parent
  obtain ⟨hchain, -⟩ := ht.chain_eq hw
  by_cases hmarked : (h.shapes this).usedAsPrototype = true
  · rw [if_pos hmarked]
    -- on the thread's heap the child of a marked node is marked already
    have hclosed := fun hown => (hw.nodes _ ht.lt).closed hown _ ht.parent hmarked
    have hm := mark_moves hw fun hown => .inl (hclosed hown)
    refine ⟨hm, ht.lt, (hm.extend.tree _ ht.lt hparent.tree).1, ?_, ?_,
      fun _ => usedAsPrototype_mark, rfl, rfl, fun hown u hu => ?_⟩
    · rw [hm.extend.chain_eq hw ht.lt, hchain]
    · rw [(hm.extend.tree _ ht.lt hparent.tree).2, hparent.root]
    · by_cases hus : u = t.nextShape
      · subst hus
        rw [usedAsPrototype_mark, hclosed (hown.resolve_right fun hne => hne hmarked)]
      · rw [mark, shapes_modifyShape_ne hus]
  · rw [if_neg hmarked]
    exact ⟨.refl hw, ht.lt, hparent.tree, hchain, hparent.root, fun hm => absurd hm hmarked, rfl,
      rfl, fun _ _ _ => rfl⟩

theorem mark_modify_allocShape (hthis : this < h.nextShape) (c : Shape) (f : Shape → Shape) :
    ((h.allocShape c).2.modifyShape this f).mark h.nextShape =
      (h.allocShape { c with usedAsPrototype := true }).2.modifyShape this f := by
  have hne : h.nextShape ≠ this := ne_of_gt hthis
  simp only [mark, modifyShape, allocShape, update_self,
    update_of_ne hne.symm, update_of_ne hne]
  rw [update_comm hne, update_idem, update_comm hne.symm]

variable (hw : WellFormed rt h)

include hw

theorem added_child {c : Shape} (hc : ChildOk rt h this stored c)
    (ht : t.nextShape = h.nextShape) (hkey : t.key = stored)
    (henumerable : t.enumerable = c.enumerable) (haccessor : t.accessor = c.accessor)
    (hwritable : t.writable = c.writable) (hconfigurable : t.configurable = c.configurable)
    (hmarked : (h.shapes this).usedAsPrototype = true → c.usedAsPrototype = true) :
    Added rt h ((h.allocShape c).2.modifyShape this fun n =>
        { n with transitions := n.transitions ++ [t] }) this h.nextShape
      (.child (h.chain this) stored c.slotIndex c.enumerable c.accessor c.writable
        c.configurable) := by
  have hm₁ := hc.moves hw
  have hself := shapes_allocShape_self (h := h) (n := c)
  have hne : h.nextShape ≠ this := ne_of_gt hc.lt
  have hf : FieldOk rt (h.allocShape c).2 this
      { (h.allocShape c).2.shapes this with
        transitions := ((h.allocShape c).2.shapes this).transitions ++ [t] } :=
    { node := ⟨rfl, rfl, rfl, rfl, rfl, rfl, rfl, rfl, rfl, rfl, rfl⟩
      tree := fun hdict => ⟨hdict, rfl⟩
      marked := id
      newMark := fun _ => .inl
      frozen := fun t hdict hlevel => ⟨t, hdict, hlevel, rfl⟩ }
  have hedge : EdgeOk (h.allocShape c).2 this t := by
    refine ⟨?_, ?_, ?_, ?_, ?_, ?_, ?_⟩ <;> rw [ht]
    · exact lt_succ_self _
    all_goals rw [hself]
    · exact hc.parent
    · rw [hc.key_eq, hkey]
    · exact henumerable.symm
    · exact haccessor.symm
    · exact hwritable.symm
    · exact hconfigurable.symm
  have hm₂ := modifyShape_moves (s := this)
    (f := fun n => { n with transitions := n.transitions ++ [t] }) hm₁.wf hf (by
      refine ⟨.inl ?_, fun hdict => ?_, fun t' ht' => .inl ?_, fun t' ht' => ?_⟩
      · rw [shapes_modifyShape_self]
      · rwa [shapes_modifyShape_self] at hdict
      · rwa [shapes_modifyShape_self] at ht'
      · rw [shapes_modifyShape_self] at ht'
        refine (mem_append.mp ht').imp id fun hnew => ?_
        rw [mem_singleton.mp hnew]
        exact hedge.extend (modifyShape_extends hf)) rfl rfl
  refine ⟨hm₁.trans hm₂, lt_succ_self _, ?_, ?_, ?_, ?_, rfl, rfl, fun _ u hu => ?_⟩
  · rw [shapes_modifyShape_ne hne, hself, hc.tree]
  · rw [hm₂.extend.chain_eq hm₁.wf (lt_succ_self _), chain_allocShape hw hc]
  · rw [shapes_modifyShape_ne hne, hself, hc.root]
  · intro hm
    rw [shapes_modifyShape_ne hne, hself]
    exact hmarked hm
  · rw [← shapes_allocShape_lt (n := c) hu]
    exact modifyShape_cases (P := fun u n => n.usedAsPrototype =
      ((h.allocShape c).2.shapes u).usedAsPrototype) rfl (fun _ _ => rfl) u

/-- `addChild`, with the mark the new node is owed. -/
theorem added_addChild (hthis : this < h.nextShape)
    (htree : (h.shapes this).dict = none) (hnew : stored ∉ (h.chain this).keys)
    (enumerable accessor writable configurable : Bool) (repr : SlotRepr) {added : Nat × Heap}
    (hadded : h.addChild this stored
      (h.newChild this stored enumerable accessor writable configurable repr) = added) :
    Added rt h (if (h.shapes this).usedAsPrototype then added.2.mark added.1 else added.2) this
      added.1
      ((h.chain this).addPropertyKey stored enumerable accessor writable configurable) := by
  have hreached := ((hw.nodes this hthis).reached htree).add enumerable accessor writable
    configurable hnew
  have hindex := nextSlotIndex_eq hw hthis (slotWidth accessor)
  generalize hc : h.newChild this stored enumerable accessor writable configurable repr = c
    at hadded
  have hlayout : (h.chain this).addPropertyKey stored enumerable accessor writable configurable =
      .child (h.chain this) stored c.slotIndex c.enumerable c.accessor c.writable
        c.configurable := by
    rw [Bronze.Shape.addPropertyKey, ← hindex, ← hc]
    rfl
  rw [hlayout] at hreached ⊢
  -- the child may as well be made with its mark
  have hchild : ∀ used, ((h.shapes this).usedAsPrototype = true → used = true) →
      ChildOk rt h this stored { c with usedAsPrototype := used } := by
    intro used hused
    refine ⟨hthis, htree, ?_, ?_, ?_, ?_, ?_, ?_, ?_, fun _ => hused, hreached⟩ <;>
      rw [← hc] <;> rfl
  subst hadded
  by_cases hmarked : (h.shapes this).usedAsPrototype = true
  · rw [if_pos hmarked]
    change Added rt h (((h.allocShape c).2.modifyShape this _).mark h.nextShape) ..
    rw [mark_modify_allocShape hthis]
    exact added_child hw (hchild true fun _ => rfl) rfl rfl rfl rfl rfl rfl fun _ => rfl
  · rw [if_neg hmarked]
    exact added_child hw (hchild c.usedAsPrototype fun hm => absurd hm hmarked) rfl rfl rfl rfl rfl
      rfl fun hm => absurd hm hmarked

/-- **`addPropertyKey`** comes to the layout with the property added. -/
theorem addPropertyKey_spec (hthis : this < h.nextShape)
    (hnew : stored ∉ (h.chain this).keys)
    (hrun : h.addPropertyKey this stored enumerable accessor writable configurable desired =
      some (next, slot, h')) :
    Added rt h h' this next
      ((h.chain this).addPropertyKey stored enumerable accessor writable configurable) ∧
    slot = (h.chain this).nextSlotIndex (slotWidth accessor) := by
  -- the slot is that of the node, whose layout is known
  have hslot : Added rt h h' this next
      ((h.chain this).addPropertyKey stored enumerable accessor writable configurable) →
      slot = (h'.shapes next).slotIndex →
      slot = (h.chain this).nextSlotIndex (slotWidth accessor) := by
    intro ha hs
    cases hparent : (h'.shapes next).parent with
    | none =>
      have hchain := ha.chain
      rw [chain_root hparent] at hchain
      cases hchain
    | some p =>
      obtain ⟨key, hkey⟩ := exists_key ha.moves.wf ha.lt hparent
      have hchain := ha.chain
      rw [chain_child ha.moves.wf.ordered ha.lt hparent hkey] at hchain
      injection hchain with _ _ hindex
      rw [hs, hindex]
  have htree : (h.shapes this).dict = none := by
    cases hdict : (h.shapes this).dict with
    | none => rfl
    | some t => simp [addPropertyKey, isDictionary, hdict] at hrun
  simp only [addPropertyKey, isDictionary, htree] at hrun
  generalize h.wantedRepr (h.shapes this).transitions stored enumerable accessor writable
    configurable desired = repr at hrun
  cases hedge : edge (h.shapes this).transitions stored enumerable accessor writable configurable
      repr with
  | some found =>
    obtain ⟨t, hmem, rfl, rfl, rfl, rfl, rfl, rfl⟩ := edge_some hedge
    rw [hedge] at hrun
    obtain ⟨rfl, rfl, rfl⟩ := hrun
    have ha := added_edge hw hthis hmem
    exact ⟨ha, hslot ha rfl⟩
  | none =>
    rw [hedge] at hrun
    by_cases hfull : slotsBefore ((h.shapes this).nextSlotIndex (slotWidth accessor))
        (h.shapes this).inlineSlots + (if accessor then 1 else 0) ≥ kDictionaryThreshold
    · rw [if_pos hfull] at hrun
      cases hrun
    · rw [if_neg hfull] at hrun
      obtain ⟨rfl, rfl, rfl⟩ := hrun
      have ha := added_addChild hw hthis htree hnew enumerable accessor writable configurable
        repr rfl
      exact ⟨ha, hslot ha rfl⟩

end AddPropertyKey

end Bronze.Objects
