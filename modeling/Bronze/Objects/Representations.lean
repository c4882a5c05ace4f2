import Bronze.Objects.Generalize
import Bronze.Objects.TransitionTree

/-!
# The representations of the nodes

A node of a tree has the double slots of its parent, and its own where it is a double. An edge says
the representation of its child. An add keeps this, and comes to a node of the representation
`addPropertyKey` wants.

## Main results

* `Layouts.extend`: what a step has to leave
* `testBit_doubleSlots`: the bits of a node
-/

namespace Bronze.Objects

open Heap Transition Shape

/-! ## The representations of the nodes -/

/-- The bits of a node and those of its parent, and the room its property had. -/
structure ReprOk (h : Heap) (s : Nat) : Prop where
  tree : (h.shapes s).dict = none
  root : (h.shapes s).parent = none → (h.shapes s).repr = .boxed
  doubleSlots : ∀ p, (h.shapes s).parent = some p → (h.shapes s).doubleSlots =
    if (h.shapes s).repr = .double then (h.shapes p).doubleSlots ||| 2 ^ (h.shapes s).slotIndex
    else (h.shapes p).doubleSlots
  double : (h.shapes s).repr = .double →
    (h.shapes s).slotIndex < kSlotReprLimit ∧ (h.shapes s).accessor = false
  room : ∀ p, (h.shapes s).parent = some p →
    Shape.slotsBefore (h.shapes s).slotIndex (h.shapes s).inlineSlots +
      (if (h.shapes s).accessor then 1 else 0) < kDictionaryThreshold
  edges : ∀ t ∈ (h.shapes s).transitions, (h.shapes t.nextShape).repr = t.repr

/-- A heap whose nodes are all of trees, with the representations their edges say. -/
structure Layouts (rt : Runtime) (h : Heap) : Prop where
  wf : WellFormed rt h
  nodes : ∀ s < h.nextShape, ReprOk h s

section Nodes

variable {rt : Runtime} {h h' : Heap} {s n p : Nat} {c : Shape}

/-- A node is one whose parent, whose bits and whose edges are what they were. -/
theorem ReprOk.extend (hw : WellFormed rt h) (e : Extends rt h h') (hs : s < h.nextShape)
    (hr : ReprOk h s) (hedges : ∀ t ∈ (h'.shapes s).transitions, t ∈ (h.shapes s).transitions ∨
      (h'.shapes t.nextShape).repr = t.repr) : ReprOk h' s := by
  have hsame := e.node s hs
  refine ⟨(e.tree s hs hr.tree).1, ?_, ?_, ?_, ?_, ?_⟩
  · rw [hsame.parent, hsame.repr]
    exact hr.root
  · intro p hp
    rw [hsame.parent] at hp
    have hplt := ((hw.nodes s hs).parent p hp).lt.trans hs
    rw [hsame.repr, hsame.doubleSlots, hsame.slotIndex, (e.node p hplt).doubleSlots]
    exact hr.doubleSlots p hp
  · rw [hsame.repr, hsame.slotIndex, hsame.accessor]
    exact hr.double
  · intro p hp
    rw [hsame.slotIndex, hsame.inlineSlots, hsame.accessor]
    exact hr.room p (hsame.parent ▸ hp)
  · intro t ht
    rcases hedges t ht with hold | hnew
    · rw [(e.node _ ((hw.nodes s hs).edges t hold).lt).repr]
      exact hr.edges t hold
    · exact hnew

section

variable (hl : Layouts rt h)

include hl

/-- **The nodes after a step**: old nodes have the edges they had, or edges that say what their
child is, and the new nodes are sound. -/
theorem Layouts.extend (hw : WellFormed rt h') (e : Extends rt h h')
    (hedges : ∀ s < h.nextShape, ∀ t ∈ (h'.shapes s).transitions, t ∈ (h.shapes s).transitions ∨
      (h'.shapes t.nextShape).repr = t.repr)
    (hnew : ∀ s, h.nextShape ≤ s → s < h'.nextShape → ReprOk h' s) : Layouts rt h' where
  wf := hw
  nodes := fun s hs => by
    rcases Nat.lt_or_ge s h.nextShape with hlt | hge
    · exact ReprOk.extend hl.wf e hlt (hl.nodes s hlt) (hedges s hlt)
    · exact hnew s hge hs

theorem Layouts.of_shapes (hw : WellFormed rt h')
    (hshapes : h'.shapes = h.shapes) (hnext : h'.nextShape = h.nextShape) : Layouts rt h' where
  wf := hw
  nodes := fun s hs => by
    have hr := hl.nodes s (hnext ▸ hs)
    refine ⟨?_, ?_, ?_, ?_, ?_, ?_⟩ <;> rw [hshapes]
    · exact hr.tree
    · exact hr.root
    · exact hr.doubleSlots
    · exact hr.double
    · exact hr.room
    · exact hr.edges

theorem Layouts.modifyShape {f : Shape → Shape} (hm : Moves rt h (h.modifyShape s f))
    (hf : (f (h.shapes s)).transitions = (h.shapes s).transitions) :
    Layouts rt (h.modifyShape s f) := by
  refine hl.extend hm.wf hm.extend (fun u _ t ht => .inl ?_) fun u hge hu =>
    absurd hu (Nat.not_lt.mpr hge)
  revert ht
  exact modifyShape_cases (P := fun u n => t ∈ n.transitions → t ∈ (h.shapes u).transitions)
    (by rw [hf]; exact id) (fun _ _ => id) u

theorem Layouts.allocShape (hw : WellFormed rt (h.allocShape c).2)
    (hc : ReprOk (h.allocShape c).2 h.nextShape) : Layouts rt (h.allocShape c).2 := by
  refine hl.extend hw (allocShape_extends hl.wf) (fun s hs t ht => .inl ?_) fun s hge hs => ?_
  · rwa [shapes_allocShape_lt hs] at ht
  · obtain rfl : s = h.nextShape := Nat.le_antisymm (Nat.lt_succ_iff.mp hs) hge
    exact hc

end

theorem reprOk_child {cur root slot : Nat} {key : Option PropertyKey}
    {enumerable accessor writable configurable used : Bool} {repr : SlotRepr}
    (hcur : cur < h.nextShape) (hdouble : repr = .double → slot < kSlotReprLimit ∧ accessor = false)
    (hroom : slotsBefore slot (h.shapes cur).inlineSlots + (if accessor then 1 else 0) <
      kDictionaryThreshold) :
    ReprOk (h.allocShape { child cur (h.shapes cur) key slot root enumerable accessor writable
      configurable repr with usedAsPrototype := used }).2 h.nextShape := by
  have hself := shapes_allocShape_self (h := h) (n := { child cur (h.shapes cur) key slot root
    enumerable accessor writable configurable repr with usedAsPrototype := used })
  refine ⟨?_, fun hp => ?_, fun p hp => ?_, ?_, fun p _ => ?_, fun t ht => ?_⟩
  · rw [hself]
    rfl
  · rw [hself] at hp
    cases hp
  · rw [hself] at hp ⊢
    obtain rfl : cur = p := Option.some.inj hp
    rw [shapes_allocShape_lt hcur]
    change (if repr = .double ∧ slot < kSlotReprLimit then _ else _) =
      if repr = .double then _ else _
    by_cases hrepr : repr = .double
    · rw [if_pos hrepr, if_pos ⟨hrepr, (hdouble hrepr).1⟩]
      rfl
    · simp [hrepr]
  · rw [hself]
    exact hdouble
  · rw [hself]
    exact hroom
  · rw [hself] at ht
    cases ht

theorem reprOk_root (proto : Value) (inlineSlots : Nat) (used : Bool) :
    ReprOk (h.allocShape (.rootWith h.nextShape proto inlineSlots used)).2 h.nextShape := by
  have hself := shapes_allocShape_self (h := h) (n := .rootWith h.nextShape proto inlineSlots used)
  refine ⟨?_, fun _ => ?_, fun p hp => ?_, fun hrepr => ?_, fun p hp => ?_, fun t ht => ?_⟩
  · rw [hself]
    rfl
  · rw [hself]
    rfl
  · rw [hself] at hp
    cases hp
  · rw [hself] at hrepr
    cases hrepr
  · rw [hself] at hp
    cases hp
  · rw [hself] at ht
    cases ht

theorem slotIndex_child (hw : WellFormed rt h) (hn : n < h.nextShape)
    (hparent : (h.shapes n).parent = some p) :
    (h.shapes n).slotIndex = (h.shapes p).nextSlotIndex (slotWidth (h.shapes n).accessor) := by
  obtain ⟨key, hkey⟩ := exists_key hw hn hparent
  have hp := (hw.nodes n hn).parent p hparent
  have hreached := (hw.nodes n hn).reached hp.tree
  rw [chain_child hw.ordered hn hparent hkey] at hreached
  rw [(reached_child hreached).2.2, nextSlotIndex_eq hw (hp.lt.trans hn)]

theorem slotEnd_le (hw : WellFormed rt h) (hn : n < h.nextShape)
    (hparent : (h.shapes n).parent = some p) :
    (h.shapes p).slotEnd ≤ (h.shapes n).slotIndex ∧
      (h.shapes n).slotIndex < (h.shapes n).slotEnd := by
  obtain ⟨key, hkey⟩ := exists_key hw hn hparent
  refine ⟨(le_placeSlot ..).trans_eq (slotIndex_child hw hn hparent).symm, ?_⟩
  rw [slotEnd, hkey, slotWidth, if_neg (by simp)]
  split <;> omega

theorem lt_slotEnd (hl : Layouts rt h) (hs : s < h.nextShape) {j : Nat}
    (hj : (h.shapes s).doubleSlots.testBit j = true) : j < (h.shapes s).slotEnd := by
  induction s using Nat.strong_induction_on with
  | _ s ih =>
    cases hparent : (h.shapes s).parent with
    | none =>
      rw [(hl.wf.nodes s hs).doubleSlots hparent, Nat.zero_testBit] at hj
      cases hj
    | some p =>
      have hp := ((hl.wf.nodes s hs).parent p hparent).lt
      obtain ⟨hle, hlt⟩ := slotEnd_le hl.wf hs hparent
      rw [(hl.nodes s hs).doubleSlots p hparent] at hj
      split at hj
      · rw [Nat.testBit_or, Bool.or_eq_true] at hj
        rcases hj with hj | hj
        · exact ((ih p hp (hp.trans hs) hj).trans_le hle).trans hlt
        · rw [Nat.testBit_two_pow] at hj
          exact of_decide_eq_true hj ▸ hlt
      · exact ((ih p hp (hp.trans hs) hj).trans_le hle).trans hlt

theorem testBit_doubleSlots (hl : Layouts rt h) (hn : n < h.nextShape)
    (hparent : (h.shapes n).parent = some p) (j : Nat) :
    (h.shapes n).doubleSlots.testBit j = true ↔
      (h.shapes p).doubleSlots.testBit j = true ∨
        (h.shapes n).repr = .double ∧ j = (h.shapes n).slotIndex := by
  rw [(hl.nodes n hn).doubleSlots p hparent]
  split
  next hrepr =>
    rw [Nat.testBit_or, Bool.or_eq_true, Nat.testBit_two_pow, decide_eq_true_eq, eq_comm (a := j)]
    exact or_congr_right (by rw [and_iff_right hrepr])
  next hrepr => exact ⟨.inl, fun h => h.elim id fun h => absurd h.1 hrepr⟩

end Nodes

/-! ## Adds -/

section Adds

variable {rt : Runtime} {h h' : Heap} {this next : Nat} {p : Attributed} {desired : SlotRepr}

theorem Layouts.addChild {c : Shape} {t : ShapeTransition} (hl : Layouts rt h)
    (hm : Moves rt h ((h.allocShape c).2.modifyShape this fun n =>
      { n with transitions := n.transitions ++ [t] }))
    (hnext : t.nextShape = h.nextShape) (hrepr : t.repr = c.repr) (hthis : this < h.nextShape)
    (hc : ReprOk (h.allocShape c).2 h.nextShape) :
    Layouts rt ((h.allocShape c).2.modifyShape this fun n =>
      { n with transitions := n.transitions ++ [t] }) := by
  have hself := shapes_allocShape_self (h := h) (n := c)
  have hne : h.nextShape ≠ this := Nat.ne_of_gt hthis
  have hnode : ∀ u, SameNode ((h.allocShape c).2.shapes u)
      (((h.allocShape c).2.modifyShape this fun n =>
        { n with transitions := n.transitions ++ [t] }).shapes u) :=
    modifyShape_cases (P := fun u n => SameNode ((h.allocShape c).2.shapes u) n)
      ⟨rfl, rfl, rfl, rfl, rfl, rfl, rfl, rfl, rfl, rfl, rfl⟩ fun _ _ => .refl _
  refine hl.extend hm.wf hm.extend (fun s hs u hu => ?_) fun s hge hs => ?_
  · by_cases hst : s = this
    · subst hst
      rw [shapes_modifyShape_self, shapes_allocShape_lt hs] at hu
      refine (List.mem_append.mp hu).imp id fun hu => ?_
      rw [List.mem_singleton.mp hu, hnext, (hnode _).repr, hself, hrepr]
    · rw [shapes_modifyShape_ne hst, shapes_allocShape_lt hs] at hu
      exact .inl hu
  · obtain rfl : s = h.nextShape := Nat.le_antisymm (Nat.lt_succ_iff.mp hs) hge
    have heq := shapes_modifyShape_ne (h := (h.allocShape c).2)
      (f := fun n => { n with transitions := n.transitions ++ [t] }) hne
    refine ⟨?_, ?_, fun q hq => ?_, ?_, ?_, fun u hu => ?_⟩
    · rw [heq]
      exact hc.tree
    · rw [heq]
      exact hc.root
    · rw [heq] at hq ⊢
      rw [(hnode q).doubleSlots]
      exact hc.doubleSlots q hq
    · rw [heq]
      exact hc.double
    · rw [heq]
      exact hc.room
    · rw [heq] at hu
      rw [(hnode _).repr]
      exact hc.edges u hu

theorem addPropertyKey_found (htree : (h.shapes this).dict = none)
    (hedge : edge (h.shapes this).transitions p.key p.enumerable p.accessor p.writable
      p.configurable (wanted h this p desired) = some next) :
    ∃ slot, h.addPropertyKey this p.key p.enumerable p.accessor p.writable p.configurable desired =
      some (next, slot, if (h.shapes this).usedAsPrototype then h.mark next else h) := by
  have hwanted : h.wantedRepr (h.shapes this).transitions p.key p.enumerable p.accessor p.writable
      p.configurable desired = wanted h this p desired := rfl
  simp only [addPropertyKey, isDictionary, htree, hwanted, hedge]
  exact ⟨_, rfl⟩

theorem addPropertyKey_made (hthis : this < h.nextShape) (htree : (h.shapes this).dict = none)
    (hroom : slotsBefore ((h.shapes this).nextSlotIndex (slotWidth p.accessor))
      (h.shapes this).inlineSlots + (if p.accessor then 1 else 0) < kDictionaryThreshold)
    (hedge : edge (h.shapes this).transitions p.key p.enumerable p.accessor p.writable
      p.configurable (wanted h this p desired) = none) :
    ∃ slot, h.addPropertyKey this p.key p.enumerable p.accessor p.writable p.configurable desired =
      some (h.nextShape, slot,
        (h.allocShape { h.newChild this p.key p.enumerable p.accessor p.writable p.configurable
            (wanted h this p desired) with
          usedAsPrototype := (h.shapes this).usedAsPrototype }).2.modifyShape this fun n =>
            { n with transitions := n.transitions ++ [madeEdge h this p
              (wanted h this p desired)] }) := by
  have hwanted : h.wantedRepr (h.shapes this).transitions p.key p.enumerable p.accessor p.writable
      p.configurable desired = wanted h this p desired := rfl
  simp only [addPropertyKey, isDictionary, htree, hwanted, hedge,
    if_neg (Nat.not_le.mpr hroom)]
  refine ⟨_, congrArg some (congrArg (Prod.mk _) (congrArg (Prod.mk _) ?_))⟩
  by_cases hused : (h.shapes this).usedAsPrototype = true
  · rw [hused]
    exact mark_modify_allocShape hthis ..
  · rw [Bool.eq_false_of_not_eq_true hused]
    rfl

/-- **An add keeps the representations of the nodes.** -/
theorem addPropertyKey_layouts {slot : Nat} (hl : Layouts rt h) (hthis : this < h.nextShape)
    (hnew : p.key ∉ (h.chain this).keys)
    (hrun : h.addPropertyKey this p.key p.enumerable p.accessor p.writable p.configurable desired =
      some (next, slot, h')) : Layouts rt h' := by
  have htree := (hl.nodes this hthis).tree
  have hm := (addPropertyKey_spec hl.wf hthis hnew hrun).1.moves
  cases hedge : edge (h.shapes this).transitions p.key p.enumerable p.accessor p.writable
      p.configurable (wanted h this p desired) with
  | some found =>
    obtain ⟨slot', hfound⟩ := addPropertyKey_found htree hedge
    rw [hrun] at hfound
    obtain ⟨-, -, rfl⟩ := hfound
    by_cases hused : (h.shapes this).usedAsPrototype = true
    · rw [if_pos hused] at hm ⊢
      exact hl.modifyShape hm rfl
    · rwa [if_neg hused]
  | none =>
    by_cases hroom : slotsBefore ((h.shapes this).nextSlotIndex (slotWidth p.accessor))
        (h.shapes this).inlineSlots + (if p.accessor then 1 else 0) < kDictionaryThreshold
    · obtain ⟨slot', hmade⟩ := addPropertyKey_made hthis htree hroom hedge
      rw [hrun] at hmade
      obtain ⟨-, -, rfl⟩ := hmade
      refine hl.addChild hm rfl rfl hthis (reprOk_child hthis (fun hdouble => ?_) hroom)
      -- past the limit the child is boxed, and so is an accessor
      split at hdouble
      · cases hdouble
      next hlt =>
        refine ⟨Nat.lt_of_not_le hlt, ?_⟩
        rw [wanted_eq] at hdouble
        split at hdouble
        · cases hdouble
        next hplain => exact Bool.eq_false_iff.mpr fun ha => hplain (.inl ha)
    · -- the tripwire
      have hwanted : h.wantedRepr (h.shapes this).transitions p.key p.enumerable p.accessor
          p.writable p.configurable desired = wanted h this p desired := rfl
      simp only [addPropertyKey, isDictionary, htree, hwanted, hedge,
        if_pos (Nat.le_of_not_lt hroom)] at hrun
      cases hrun

/-- What an add leaves: the node it comes to is the child, of the representation that is wanted,
and it is the end of an edge that was there or has none below it. -/
structure AddedRepr (rt : Runtime) (h h' : Heap) (this : Nat) (p : Attributed)
    (desired : SlotRepr) (next : Nat) : Prop where
  layouts : Layouts rt h'
  parent : (h'.shapes next).parent = some this
  repr : (h'.shapes next).repr = wanted h this p desired
  way : (edge (h.shapes this).transitions p.key p.enumerable p.accessor p.writable
      p.configurable (wanted h this p desired) = some next ∧
        (h' = h ∨ h' = h.mark next)) ∨
    (edge (h.shapes this).transitions p.key p.enumerable p.accessor p.writable
      p.configurable (wanted h this p desired) = none ∧ (h'.shapes next).transitions = [])

/-- **An add keeps the representations**, and comes to the one it wants where the slot has a bit. -/
theorem addPropertyKey_repr (p : Attributed) (desired : SlotRepr) (hl : Layouts rt h)
    (hthis : this < h.nextShape) (hnew : p.key ∉ (h.chain this).keys)
    (hroom : slotsBefore ((h.shapes this).nextSlotIndex (slotWidth p.accessor))
      (h.shapes this).inlineSlots + (if p.accessor then 1 else 0) < kDictionaryThreshold)
    (hlimit : wanted h this p desired = .double →
      (h.shapes this).nextSlotIndex (slotWidth p.accessor) < kSlotReprLimit) :
    ∃ next slot h', h.addPropertyKey this p.key p.enumerable p.accessor p.writable p.configurable
      desired = some (next, slot, h') ∧ AddedRepr rt h h' this p desired next := by
  have htree := (hl.nodes this hthis).tree
  cases hedge : edge (h.shapes this).transitions p.key p.enumerable p.accessor p.writable
      p.configurable (wanted h this p desired) with
  | some next =>
    obtain ⟨slot, hrun⟩ := addPropertyKey_found htree hedge
    obtain ⟨t, ht, hrepr, rfl⟩ := exists_of_edge hedge
    have hmem := (List.mem_filter.mp ht).1
    have hok := (hl.wf.nodes this hthis).edges t hmem
    have hnode : ∀ h', h' = h ∨ h' = h.mark t.nextShape →
        SameNode (h.shapes t.nextShape) (h'.shapes t.nextShape) := by
      rintro _ (rfl | rfl)
      · exact .refl _
      · rw [Heap.mark, shapes_modifyShape_self]
        exact ⟨rfl, rfl, rfl, rfl, rfl, rfl, rfl, rfl, rfl, rfl, rfl⟩
    have hheap : (if (h.shapes this).usedAsPrototype then h.mark t.nextShape else h) = h ∨
        (if (h.shapes this).usedAsPrototype then h.mark t.nextShape else h) =
          h.mark t.nextShape := by
      split
      · exact .inr rfl
      · exact .inl rfl
    refine ⟨_, _, _, hrun, addPropertyKey_layouts hl hthis hnew hrun, ?_, ?_, .inl ⟨hedge, hheap⟩⟩
    · rw [(hnode _ hheap).parent, hok.parent]
    · rw [(hnode _ hheap).repr, (hl.nodes this hthis).edges t hmem, hrepr]
  | none =>
    obtain ⟨slot, hrun⟩ := addPropertyKey_made hthis htree hroom hedge
    have hne : h.nextShape ≠ this := Nat.ne_of_gt hthis
    -- the wanted representation is the one of the child
    have hrepr : (if (h.shapes this).nextSlotIndex (slotWidth p.accessor) ≥ kSlotReprLimit
        then SlotRepr.boxed else wanted h this p desired) = wanted h this p desired := by
      split
      next hge =>
        cases hwanted : wanted h this p desired with
        | boxed => rfl
        | double => exact absurd hge (Nat.not_le.mpr (hlimit hwanted))
      next => rfl
    refine ⟨_, _, _, hrun, addPropertyKey_layouts hl hthis hnew hrun, ?_, ?_, .inr ⟨hedge, ?_⟩⟩
    all_goals rw [shapes_modifyShape_ne hne, shapes_allocShape_self]
    · rfl
    · exact hrepr
    · rfl

end Adds

end Bronze.Objects
