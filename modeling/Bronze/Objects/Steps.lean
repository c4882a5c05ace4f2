import Bronze.Objects.Invariant

/-!
# The writes operations are made of

A bump, a new cell, a slot, an object at another shape, a new node, a field of a node: each is a
step as `Moves` has it, or says what is left for the operation around it.
-/

namespace Bronze.Objects

open Heap
open Nat Option Function LinkedBut

variable {rt : Runtime} {h h' : Heap}

/-! ## The cells -/

section Cells

section

variable (hshapes : h'.shapes = h.shapes)

include hshapes

theorem chain_of_shapes (s : Nat) : h'.chain s = h.chain s := by
  have hfrom : ∀ fuel s, h'.chainFrom fuel s = h.chainFrom fuel s := by
    intro fuel
    induction fuel with
    | zero => intro s; rw [chainFrom, chainFrom, hshapes]
    | succ fuel ih => intro s; rw [chainFrom, chainFrom, hshapes]; simp [ih]
  exact hfrom s s

theorem own_of_shapes (s : Nat) : h'.own s = h.own s := by
  rw [own, own, entries, entries, hshapes, chain_of_shapes hshapes]

theorem prototypeValue_of_shapes (s : Nat) : h'.prototypeValue s = h.prototypeValue s := by
  rw [prototypeValue, prototypeValue, hshapes]

end

structure SameArena (h h' : Heap) : Prop where
  shapes : h'.shapes = h.shapes
  nextShape : h'.nextShape = h.nextShape
  memo : h'.userPrototypeShapes = h.userPrototypeShapes
  cell_le : h.nextCell ≤ h'.nextCell
  epoch_le : h.protoEpoch ≤ h'.protoEpoch
  other : ∀ a < h.nextCell, h.shapeOf a = none → h'.shapeOf a = none

theorem SameArena.extends (ha : SameArena h h')
    (hobject : ∀ a s, h.shapeOf a = some s → ∃ s', h'.shapeOf a = some s' ∧
      ((h.shapes s).usedAsPrototype = true → (h.shapes s').usedAsPrototype = true)) :
    Extends rt h h' where
  shape_le := ha.nextShape.ge
  cell_le := ha.cell_le
  epoch_le := ha.epoch_le
  node := fun s _ => by rw [ha.shapes]; exact .refl _
  tree := fun s _ hdict => by rw [ha.shapes]; exact ⟨hdict, rfl⟩
  marked := fun s _ hmarked => by rwa [ha.shapes]
  newMark := fun _ s _ hmarked => .inl (by rwa [ha.shapes] at hmarked)
  frozen := fun s _ t hdict hlevel => ⟨t, by rwa [ha.shapes], hlevel, rfl⟩
  object := fun a s hs => by rw [ha.shapes]; exact hobject a s hs
  other := ha.other

theorem SameArena.moves (ha : SameArena h h') (hw : WellFormed rt h)
    (hobject : ∀ a s, h.shapeOf a = some s → ∃ s', h'.shapeOf a = some s' ∧
      ((h.shapes s).usedAsPrototype = true → (h.shapes s').usedAsPrototype = true ∧
        h.own s' = h.own s ∧ h.prototypeValue s' = h.prototypeValue s))
    (hlt : ∀ a s, h'.shapeOf a = some s → s < h'.nextShape ∧ a < h'.nextCell) : Moves rt h h' := by
  have he : Extends rt h h' := ha.extends fun a s hs =>
    (hobject a s hs).imp fun s' hs' => ⟨hs'.1, fun hmarked => (hs'.2 hmarked).1⟩
  refine ⟨hw.extend he (fun s _ => .of_eq (by rw [ha.shapes])) ?_ hlt ?_, he, ?_, fun _ => ?_⟩
  · intro s hge hs
    rw [ha.nextShape] at hs
    exact absurd hs (not_lt.mpr hge)
  · intro r hr
    exact .inl (by rwa [ha.memo] at hr)
  · refine fun pending => extend he hw (fun s hge hs => ?_) pending
    rw [ha.nextShape] at hs
    exact absurd hs (not_lt.mpr hge)
  · refine ⟨fun s _ _ => prototypeValue_of_shapes ha.shapes s, fun a s hs hmarked => ?_⟩
    obtain ⟨s', hs', hkeep⟩ := hobject a s hs
    obtain ⟨-, hown, hproto⟩ := hkeep hmarked
    refine ⟨s', hs', ?_, ?_⟩
    · rw [own_of_shapes ha.shapes, hown]
    · rw [prototypeValue_of_shapes ha.shapes, hproto]

theorem SameArena.moves_of_shapeOf (ha : SameArena h h') (hw : WellFormed rt h)
    (hobject : ∀ a s, h.shapeOf a = some s → h'.shapeOf a = some s)
    (hlt : ∀ a s, h'.shapeOf a = some s → s < h'.nextShape ∧ a < h'.nextCell) : Moves rt h h' :=
  ha.moves hw (fun a s hs => ⟨s, hobject a s hs, fun hmarked => ⟨hmarked, rfl, rfl⟩⟩) hlt

theorem bump_moves (hw : WellFormed rt h) : Moves rt h h.bumpProtoMutationEpoch :=
  SameArena.moves_of_shapeOf
    { shapes := rfl, nextShape := rfl, memo := rfl, cell_le := le_rfl
      epoch_le := le_add_right _ _, other := fun _ _ hnone => hnone }
    hw (fun _ _ hs => hs) hw.objects

theorem bumpIf_moves (hw : WellFormed rt h) (owed : Bool) : Moves rt h (h.bumpIf owed) := by
  cases owed with
  | true => exact bump_moves hw
  | false => exact .refl hw

variable (owed : Bool)

@[simp] theorem shapes_bumpIf : (h.bumpIf owed).shapes = h.shapes := by
  cases owed <;> rfl

@[simp] theorem nextShape_bumpIf : (h.bumpIf owed).nextShape = h.nextShape := by
  cases owed <;> rfl

@[simp] theorem shapeOf_bumpIf (a : Address) : (h.bumpIf owed).shapeOf a = h.shapeOf a := by
  cases owed <;> rfl

theorem epoch_bumpIf_true : h.protoEpoch < (h.bumpIf true).protoEpoch :=
  Nat.lt_add_of_pos_right Nat.two_pos

variable {a : Address} {old t : Nat}

theorem shapeOf_eq {s : Nat} : h.shapeOf a = some s ↔ ∃ slots, h.cells a = .ordinary s slots := by
  unfold shapeOf
  cases h.cells a <;> simp

theorem shapeOf_rawSetSlot (a b : Address) (slot : Nat) (v : Value) :
    (h.rawSetSlot a slot v).shapeOf b = h.shapeOf b := by
  unfold rawSetSlot
  cases hc : h.cells a with
  | ordinary s slots =>
    unfold shapeOf
    dsimp only
    by_cases hb : b = a
    · subst hb
      simp [hc]
    · rw [update_of_ne hb]
  | _ => rfl

theorem rawSetSlot_arena (a : Address) (slot : Nat) (v : Value) :
    SameArena h (h.rawSetSlot a slot v) := by
  have hother := fun b (_ : b < h.nextCell) (hnone : h.shapeOf b = none) =>
    (shapeOf_rawSetSlot (h := h) a b slot v).trans hnone
  unfold rawSetSlot at *
  cases hc : h.cells a with
  | ordinary s slots =>
    rw [hc] at hother
    exact ⟨rfl, rfl, rfl, le_rfl, le_rfl, hother⟩
  | _ =>
    rw [hc] at hother
    exact ⟨rfl, rfl, rfl, le_rfl, le_rfl, hother⟩

/-- **A slot written.** -/
theorem rawSetSlot_moves (hw : WellFormed rt h) (a : Address) (slot : Nat) (v : Value) :
    Moves rt h (h.rawSetSlot a slot v) := by
  have ha := rawSetSlot_arena (h := h) a slot v
  refine ha.moves_of_shapeOf hw (fun b s hs => ?_) fun b s hs => ?_
  · rwa [shapeOf_rawSetSlot]
  · rw [shapeOf_rawSetSlot] at hs
    obtain ⟨hlt, hblt⟩ := hw.objects b s hs
    exact ⟨hlt.trans_eq ha.nextShape.symm, hblt.trans_le ha.cell_le⟩

theorem shapeOf_setShape_self (hold : h.shapeOf a = some old) :
    (h.setShape a t).shapeOf a = some t := by
  obtain ⟨slots, hc⟩ := shapeOf_eq.mp hold
  rw [setShape, hc, shapeOf]
  dsimp only
  simp

theorem shapeOf_setShape_ne {b : Address} (t : Nat) (hne : b ≠ a) :
    (h.setShape a t).shapeOf b = h.shapeOf b := by
  unfold setShape
  cases h.cells a with
  | ordinary s slots =>
    unfold shapeOf
    dsimp only
    rw [update_of_ne hne]
  | _ => rfl

theorem setShape_arena (hold : h.shapeOf a = some old) : SameArena h (h.setShape a t) := by
  have hother : ∀ b < h.nextCell, h.shapeOf b = none → (h.setShape a t).shapeOf b = none := by
    intro b _ hnone
    have hne : b ≠ a := by
      rintro rfl
      rw [hold] at hnone
      cases hnone
    rw [shapeOf_setShape_ne t hne, hnone]
  obtain ⟨slots, hc⟩ := shapeOf_eq.mp hold
  unfold setShape at hother ⊢
  rw [hc] at hother ⊢
  exact ⟨rfl, rfl, rfl, le_rfl, le_rfl, hother⟩

theorem lt_of_shapeOf_setShape (hw : WellFormed rt h) (hold : h.shapeOf a = some old)
    (ht : t < h.nextShape) (b : Address) (s : Nat) (hs : (h.setShape a t).shapeOf b = some s) :
    s < (h.setShape a t).nextShape ∧ b < (h.setShape a t).nextCell := by
  have ha := setShape_arena (t := t) hold
  rw [ha.nextShape]
  by_cases hb : b = a
  · subst hb
    rw [shapeOf_setShape_self hold, some.injEq] at hs
    exact ⟨hs ▸ ht, (hw.objects b old hold).2.trans_le ha.cell_le⟩
  · rw [shapeOf_setShape_ne t hb] at hs
    obtain ⟨hlt, hblt⟩ := hw.objects b s hs
    exact ⟨hlt, hblt.trans_le ha.cell_le⟩

theorem setShape_extends (hold : h.shapeOf a = some old)
    (hmark : (h.shapes old).usedAsPrototype = true → (h.shapes t).usedAsPrototype = true) :
    Extends rt h (h.setShape a t) := by
  refine (setShape_arena hold).extends fun b s hs => ?_
  by_cases hb : b = a
  · subst hb
    obtain rfl : old = s := some.inj (hold.symm.trans hs)
    exact ⟨t, shapeOf_setShape_self hold, hmark⟩
  · exact ⟨s, by rw [shapeOf_setShape_ne t hb, hs], id⟩

section

variable (hw : WellFormed rt h)

include hw

variable (hold : h.shapeOf a = some old)

include hold

theorem setShape_wf (ht : t < h.nextShape)
    (hmark : (h.shapes old).usedAsPrototype = true → (h.shapes t).usedAsPrototype = true) :
    WellFormed rt (h.setShape a t) := by
  have ha := setShape_arena (t := t) hold
  refine hw.extend (setShape_extends hold hmark) (fun s _ => .of_eq (by rw [ha.shapes])) ?_
    (lt_of_shapeOf_setShape hw hold ht) fun r hr => .inl (by rwa [ha.memo] at hr)
  intro s hge hs
  rw [ha.nextShape] at hs
  exact absurd hs (not_lt.mpr hge)

theorem setShape_linked
    (hmark : (h.shapes old).usedAsPrototype = true → (h.shapes t).usedAsPrototype = true)
    (pending : Address → Prop) (hl : LinkedBut pending h) : LinkedBut pending (h.setShape a t) := by
  refine extend (setShape_extends hold hmark) hw (fun s hge hs => ?_) pending hl
  rw [(setShape_arena hold).nextShape] at hs
  exact absurd hs (not_lt.mpr hge)

theorem setShape_evolves (ht : t < h.nextShape)
    (hmark : (h.shapes old).usedAsPrototype = true → (h.shapes t).usedAsPrototype = true) :
    Evolves rt h (h.setShape a t) :=
  ⟨setShape_wf hw hold ht hmark, setShape_extends hold hmark, setShape_linked hw hold hmark⟩

/-- **An object at another shape**: one that is no prototype goes anywhere, and one that is goes
where it answers the same. -/
theorem setShape_moves (ht : t < h.nextShape)
    (hkeep : (h.shapes old).usedAsPrototype = true → (h.shapes t).usedAsPrototype = true ∧
      h.own t = h.own old ∧ h.prototypeValue t = h.prototypeValue old) :
    Moves rt h (h.setShape a t) := by
  refine (setShape_arena hold).moves hw (fun b s hs => ?_) (lt_of_shapeOf_setShape hw hold ht)
  by_cases hb : b = a
  · subst hb
    obtain rfl : old = s := some.inj (hold.symm.trans hs)
    exact ⟨t, shapeOf_setShape_self hold, hkeep⟩
  · exact ⟨s, by rw [shapeOf_setShape_ne t hb, hs], fun hmarked => ⟨hmarked, rfl, rfl⟩⟩

end

theorem shapeOf_allocCell {c : Cell} (hne : a ≠ h.nextCell) :
    (h.allocCell c).2.shapeOf a = h.shapeOf a := by
  unfold allocCell shapeOf
  dsimp only
  rw [update_of_ne hne]

/-- **A new object**, of a kind without a shape or at a shape of the arena. -/
theorem allocCell_moves (hw : WellFormed rt h) {c : Cell}
    (hc : ∀ s slots, c = .ordinary s slots → s < h.nextShape) : Moves rt h (h.allocCell c).2 := by
  have hself : ∀ s, (h.allocCell c).2.shapeOf h.nextCell = some s → s < h.nextShape := by
    intro s hs
    obtain ⟨slots, hcell⟩ := shapeOf_eq.mp hs
    rw [allocCell] at hcell
    dsimp only at hcell
    rw [update_self] at hcell
    exact hc s slots hcell
  refine SameArena.moves_of_shapeOf
    { shapes := rfl, nextShape := rfl, memo := rfl, cell_le := le_succ _
      epoch_le := le_rfl, other := fun a ha hnone => ?_ } hw (fun a s hs => ?_) fun a s hs => ?_
  · rw [shapeOf_allocCell (Nat.ne_of_lt ha), hnone]
  · rw [shapeOf_allocCell (Nat.ne_of_lt (hw.objects a s hs).2), hs]
  · by_cases ha : a = h.nextCell
    · subst ha
      exact ⟨hself s hs, lt_succ_self _⟩
    · rw [shapeOf_allocCell ha] at hs
      obtain ⟨hlt, halt⟩ := hw.objects a s hs
      exact ⟨hlt, halt.trans (lt_succ_self _)⟩

end Cells

section NewNode

variable {n : Shape}

theorem shapes_allocShape_self : (h.allocShape n).2.shapes h.nextShape = n :=
  update_self ..

theorem shapes_allocShape_lt {s : Nat} (hs : s < h.nextShape) :
    (h.allocShape n).2.shapes s = h.shapes s :=
  update_of_ne (Nat.ne_of_lt hs) ..

variable (hw : WellFormed rt h)

include hw

theorem allocShape_extends : Extends rt h (h.allocShape n).2 where
  shape_le := le_succ _
  cell_le := le_rfl
  epoch_le := le_rfl
  node := fun s hs => by rw [shapes_allocShape_lt hs]; exact .refl _
  tree := fun s hs hdict => by rw [shapes_allocShape_lt hs]; exact ⟨hdict, rfl⟩
  marked := fun s hs hmarked => by rwa [shapes_allocShape_lt hs]
  newMark := fun _ s hs hmarked => .inl (by rwa [shapes_allocShape_lt hs] at hmarked)
  frozen := fun s hs t hdict hlevel => ⟨t, by rwa [shapes_allocShape_lt hs], hlevel, rfl⟩
  object := fun a s hs => by
    refine ⟨s, hs, fun hmarked => ?_⟩
    rwa [shapes_allocShape_lt (hw.objects a s hs).1]
  other := fun _ _ hnone => hnone

theorem own_extends (e : Extends rt h h') {s : Nat} (hs : s < h.nextShape)
    (hdict : (h'.shapes s).dict = (h.shapes s).dict) : h'.own s = h.own s := by
  rw [own, own, entries, entries, hdict, e.chain_eq hw hs]

theorem prototypeValue_extends (e : Extends rt h h') {s : Nat}
    (hs : s < h.nextShape) (hroot : (h'.shapes s).root = (h.shapes s).root) :
    h'.prototypeValue s = h.prototypeValue s := by
  rw [prototypeValue, hroot]
  exact (e.node _ (hw.nodes s hs).root.lt).prototype

theorem allocShape_wf (hn : NodeOk rt (h.allocShape n).2 h.nextShape) :
    WellFormed rt (h.allocShape n).2 := by
  refine hw.extend (allocShape_extends hw) (fun s hs => .of_eq (shapes_allocShape_lt hs)) ?_ ?_ ?_
  · intro s hge hs
    obtain rfl : s = h.nextShape := Nat.le_antisymm (Nat.lt_succ_iff.mp hs) hge
    exact hn
  · exact fun a s hs => ⟨(hw.objects a s hs).1.trans (lt_succ_self _), (hw.objects a s hs).2⟩
  · exact fun r hr => .inl hr

theorem allocShape_links : Links h (h.allocShape n).2 where
  receiver := fun s hs _ => prototypeValue_extends hw (allocShape_extends hw) hs
    (by rw [shapes_allocShape_lt hs])
  link := fun a s hs _ => by
    have hlt := (hw.objects a s hs).1
    refine ⟨s, hs, own_extends hw (allocShape_extends hw) hlt ?_,
      prototypeValue_extends hw (allocShape_extends hw) hlt ?_⟩
    · rw [shapes_allocShape_lt hlt]
    · rw [shapes_allocShape_lt hlt]

/-- **A new node**, with the prototype of an old root or with none. -/
theorem allocShape_moves (hn : NodeOk rt (h.allocShape n).2 h.nextShape)
    (hproto : ∀ p, n.prototype = .object p →
      ∃ r < h.nextShape, (h.shapes r).prototype = .object p) :
    Moves rt h (h.allocShape n).2 := by
  refine ⟨allocShape_wf hw hn, allocShape_extends hw, ?_, fun _ => allocShape_links hw⟩
  refine fun pending => extend (allocShape_extends hw) hw (fun s hge hs p hp => ?_)
    pending
  obtain rfl : s = h.nextShape := Nat.le_antisymm (Nat.lt_succ_iff.mp hs) hge
  rw [shapes_allocShape_self] at hp
  exact hproto p hp

end NewNode

section Field

variable {s : Nat} {f : Shape → Shape}

theorem shapes_modifyShape_self : (h.modifyShape s f).shapes s = f (h.shapes s) :=
  update_self ..

theorem shapes_modifyShape_ne {u : Nat} (hne : u ≠ s) : (h.modifyShape s f).shapes u = h.shapes u :=
  update_of_ne hne ..

theorem modifyShape_cases {P : Nat → Shape → Prop} (hself : P s (f (h.shapes s)))
    (hne : ∀ u, u ≠ s → P u (h.shapes u)) (u : Nat) : P u ((h.modifyShape s f).shapes u) := by
  by_cases hu : u = s
  · subst hu
    rw [shapes_modifyShape_self]
    exact hself
  · rw [shapes_modifyShape_ne hu]
    exact hne u hu

/-- What may be written of a node. -/
structure FieldOk (rt : Runtime) (h : Heap) (s : Nat) (n : Shape) : Prop where
  node : SameNode (h.shapes s) n
  tree : (h.shapes s).dict = none → n.dict = none ∧ n.root = (h.shapes s).root
  marked : (h.shapes s).usedAsPrototype = true → n.usedAsPrototype = true
  newMark : rt.threadOwned = true → n.usedAsPrototype = true →
    (h.shapes s).usedAsPrototype = true ∨
      ∀ u < h.nextShape, (h.shapes u).parent = some s → (h.shapes u).usedAsPrototype = true
  frozen : ∀ t, (h.shapes s).dict = some t → t.level = .frozen →
    ∃ t', n.dict = some t' ∧ t'.level = .frozen ∧
      t'.table.entries.map DictEntry.place = t.table.entries.map DictEntry.place

theorem modifyShape_extends (hf : FieldOk rt h s (f (h.shapes s))) :
    Extends rt h (h.modifyShape s f) where
  shape_le := le_rfl
  cell_le := le_rfl
  epoch_le := le_rfl
  node := fun u _ => modifyShape_cases (P := fun u n => SameNode (h.shapes u) n) hf.node
    (fun u _ => .refl _) u
  tree := fun u _ hdict => by
    by_cases hu : u = s
    · subst hu
      rw [shapes_modifyShape_self]
      exact hf.tree hdict
    · rw [shapes_modifyShape_ne hu]
      exact ⟨hdict, rfl⟩
  marked := fun u _ hmarked => by
    by_cases hu : u = s
    · subst hu
      rw [shapes_modifyShape_self]
      exact hf.marked hmarked
    · rwa [shapes_modifyShape_ne hu]
  newMark := fun hown u hu hmarked => by
    have hkeep : ∀ v, (h.shapes v).usedAsPrototype = true →
        ((h.modifyShape s f).shapes v).usedAsPrototype = true := by
      intro v hv
      by_cases hvs : v = s
      · subst hvs
        rw [shapes_modifyShape_self]
        exact hf.marked hv
      · rwa [shapes_modifyShape_ne hvs]
    by_cases hus : u = s
    · subst hus
      rw [shapes_modifyShape_self] at hmarked
      exact (hf.newMark hown hmarked).imp id fun hchildren v hv hparent =>
        hkeep v (hchildren v hv hparent)
    · rw [shapes_modifyShape_ne hus] at hmarked
      exact .inl hmarked
  frozen := fun u _ t hdict hlevel => by
    by_cases hu : u = s
    · subst hu
      rw [shapes_modifyShape_self]
      exact hf.frozen t hdict hlevel
    · exact ⟨t, by rwa [shapes_modifyShape_ne hu], hlevel, rfl⟩
  object := fun a u hu => by
    refine ⟨u, hu, fun hmarked => ?_⟩
    by_cases hus : u = s
    · subst hus
      rw [shapes_modifyShape_self]
      exact hf.marked hmarked
    · rwa [shapes_modifyShape_ne hus]
  other := fun _ _ hnone => hnone

variable (hw : WellFormed rt h)

include hw

variable (hf : FieldOk rt h s (f (h.shapes s)))

include hf

theorem modifyShape_wf
    (hr : Rewritten h (h.modifyShape s f) s) : WellFormed rt (h.modifyShape s f) := by
  refine hw.extend (modifyShape_extends hf) (fun u _ => ?_) (fun u hge hu => ?_) hw.objects
    fun r hr => .inl hr
  · by_cases hu : u = s
    · exact hu ▸ hr
    · exact .of_eq (shapes_modifyShape_ne hu)
  · exact absurd hu (not_lt.mpr hge)

/-- The links are kept where the root is, and the properties of a marked dictionary. -/
theorem modifyShape_links
    (hroot : (f (h.shapes s)).root = (h.shapes s).root)
    (hown : s < h.nextShape → (h.shapes s).usedAsPrototype = true →
      (h.modifyShape s f).own s = h.own s) :
    Links h (h.modifyShape s f) := by
  have he := modifyShape_extends hf
  have hroots : ∀ u, ((h.modifyShape s f).shapes u).root = (h.shapes u).root := by
    exact modifyShape_cases (P := fun u n => n.root = (h.shapes u).root) hroot fun _ _ => rfl
  refine ⟨fun u hu _ => prototypeValue_extends hw he hu (hroots u), fun a u hu hmarked => ?_⟩
  have hlt := (hw.objects a u hu).1
  refine ⟨u, hu, ?_, prototypeValue_extends hw he hlt (hroots u)⟩
  by_cases hus : u = s
  · subst hus
    exact hown hlt hmarked
  · exact own_extends hw he hlt (by rw [shapes_modifyShape_ne hus])

theorem modifyShape_linked
    (pending : Address → Prop) (hl : LinkedBut pending h) : LinkedBut pending (h.modifyShape s f) :=
  extend (modifyShape_extends hf) hw
    (fun _ hge hu => absurd hu (not_lt.mpr hge)) pending hl

variable (hr : Rewritten h (h.modifyShape s f) s)

include hr

theorem modifyShape_evolves : Evolves rt h (h.modifyShape s f) :=
  ⟨modifyShape_wf hw hf hr, modifyShape_extends hf, modifyShape_linked hw hf⟩

/-- **A field written that no lookup reads.** -/
theorem modifyShape_moves (hroot : (f (h.shapes s)).root = (h.shapes s).root)
    (hdict : (f (h.shapes s)).dict = (h.shapes s).dict) : Moves rt h (h.modifyShape s f) :=
  ⟨modifyShape_wf hw hf hr, modifyShape_extends hf, modifyShape_linked hw hf,
    fun _ => modifyShape_links hw hf hroot fun hs _ =>
      own_extends hw (modifyShape_extends hf) hs (by rw [shapes_modifyShape_self, hdict])⟩

end Field

end Bronze.Objects
