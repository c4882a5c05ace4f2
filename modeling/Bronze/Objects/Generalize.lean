import Bronze.Objects.Prototypes

/-!
# Boxing a slot

A slot that is to hold what is no number is boxed: the object moves to a node of the layout it has,
along the shared transitions or, a prototype, to a private copy. So a write to a slot moves no
property.
-/

namespace Bronze.Objects

open Heap
open List Option

variable {rt : Runtime} {h h' : Heap}

section Memo

variable {proto : Value}

theorem memo_moves (hw : WellFormed rt h) {root : Nat} (hroot : RootOk h root) :
    Moves rt h { h with userPrototypeShapes := h.userPrototypeShapes ++ [root] } := by
  have he : Extends rt h { h with userPrototypeShapes := h.userPrototypeShapes ++ [root] } :=
    { Extends.refl h with }
  have hno : ∀ s, h.nextShape ≤ s → ¬s < h.nextShape := fun s hge => Nat.not_lt.mpr hge
  refine ⟨?_, he, fun _ => id, fun _ => ?_⟩
  · refine hw.extend he (fun s _ => .of_eq rfl) (fun s hge hs => absurd hs (hno s hge)) hw.objects
      fun r hr => ?_
    rcases mem_append.mp hr with hr | hr
    · exact .inl hr
    · rw [mem_singleton.mp hr]
      exact .inr (hroot.extend he)
  · have hown : ∀ s, own { h with userPrototypeShapes := h.userPrototypeShapes ++ [root] } s =
        h.own s := own_of_shapes rfl
    exact ⟨fun _ _ _ => rfl, fun _ s hs _ => ⟨s, hs, hown s, rfl⟩⟩

/-- **`rtRootShapeForPrototype`** answers a root. -/
theorem rtRootShapeForPrototype_spec (hw : WellFormed rt h)
    (hlive : ∀ p, proto = .object p → p < h.nextCell) {r : Nat × Heap}
    (hr : h.rtRootShapeForPrototype rt proto = r) : Moves rt h r.2 ∧ RootOk r.2 r.1 := by
  unfold rtRootShapeForPrototype at hr
  cases hfind : h.userPrototypeShapes.find? fun root => (h.shapes root).prototype = proto with
  | some root =>
    rw [hfind] at hr
    subst hr
    exact ⟨.refl hw, hw.memo root (mem_of_find?_eq_some hfind)⟩
  | none =>
    rw [hfind] at hr
    subst hr
    obtain ⟨hm, hroot⟩ := createRoot_spec kDefaultInlineSlots hw hlive rfl
    have hmemo := memo_moves hm.wf hroot
    exact ⟨hm.trans hmemo, hroot.extend hmemo.extend⟩

end Memo

/-! ## Generalized nodes -/

section Generalized

variable {s base rebuilt : Nat} {index : Nat}

/-- A node is marked as generalized, which decides what a later add looks for and nothing else. -/
theorem generalized_moves (hw : WellFormed rt h) (s : Nat) :
    Moves rt h (h.modifyShape s fun n => { n with reprGeneralized := true }) := by
  have hf : FieldOk rt h s { h.shapes s with reprGeneralized := true } :=
    { node := ⟨rfl, rfl, rfl, rfl, rfl, rfl, rfl, rfl, rfl, rfl, rfl⟩
      tree := fun hdict => ⟨hdict, rfl⟩
      marked := id
      newMark := fun _ => .inl
      frozen := fun t hdict hlevel => ⟨t, hdict, hlevel, rfl⟩ }
  refine modifyShape_moves (s := s) (f := fun n => { n with reprGeneralized := true }) hw hf ?_ rfl
    rfl
  refine ⟨.inl ?_, fun hdict => ?_, fun t ht => .inl ?_, fun t ht => .inl ?_⟩
  · rw [shapes_modifyShape_self]
  · rwa [shapes_modifyShape_self] at hdict
  · rwa [shapes_modifyShape_self] at ht
  · rwa [shapes_modifyShape_self] at ht

/-- What the marks of a generalization leave. -/
structure Generalized (rt : Runtime) (h h' : Heap) : Prop where
  moves : Moves rt h h'
  cells : h'.cells = h.cells
  epoch : h'.protoEpoch = h.protoEpoch
  nextShape : h'.nextShape = h.nextShape
  marks : ∀ u, (h'.shapes u).usedAsPrototype = (h.shapes u).usedAsPrototype

variable (hw : WellFormed rt h)

include hw

theorem generalizeNode (s : Nat) :
    Generalized rt h (h.modifyShape s fun n => { n with reprGeneralized := true }) :=
  ⟨generalized_moves hw s, rfl, rfl, rfl,
    modifyShape_cases (P := fun u n => n.usedAsPrototype = (h.shapes u).usedAsPrototype) rfl
      fun _ _ => rfl⟩

theorem generalizeNodes_spec (index : Nat) (nodes : List Nat) :
    Generalized rt h (generalizeNodes index nodes h) := by
  induction nodes generalizing h with
  | nil => exact ⟨.refl hw, rfl, rfl, rfl, fun _ => rfl⟩
  | cons n nodes ih =>
    rw [generalizeNodes]
    split_ifs with hboxes
    · have hg := generalizeNode hw n
      have hrest := ih hg.moves.wf
      exact ⟨hg.moves.trans hrest.moves, hrest.cells, hrest.epoch, hrest.nextShape,
        fun u => (hrest.marks u).trans (hg.marks u)⟩
    · exact ih hw

theorem rebuildNode_spec (hrebuilt : rebuilt < h.nextShape)
    (hchain : h.chain rebuilt = h.chain base) {n : Nat} (hn : n < h.nextShape)
    (hparent : (h.shapes n).parent = some base) {r : Nat × Heap}
    (hrun : h.rebuildNode index n rebuilt = some r) :
    Copied rt h r.2 n (h.shapes rebuilt).root r.1 := by
  obtain ⟨key, hkey⟩ := exists_key hw hn hparent
  have hnode := chain_child hw.ordered hn hparent hkey
  have hreached := (hw.nodes n hn).reached ((hw.nodes n hn).parent base hparent).tree
  rw [hnode] at hreached
  obtain ⟨-, hnew, hslot⟩ := reached_child hreached
  simp only [rebuildNode, hkey, bind_eq_bind, bind_some] at hrun
  generalize hh₁ : (if (h.shapes n).slotIndex = index ∧ (h.shapes n).repr = .double then
    h.modifyShape n fun n => { n with reprGeneralized := true } else h) = h₁ at hrun
  -- the mark of the node, where it is the one that is boxed
  have hg : Generalized rt h h₁ := by
    rw [← hh₁]
    split_ifs
    · exact generalizeNode hw n
    · exact ⟨.refl hw, rfl, rfl, rfl, fun _ => rfl⟩
  have he := hg.moves.extend
  obtain ⟨⟨next, slot, h₂⟩, hadd, hrun⟩ := bind_eq_some_iff.mp hrun
  split_ifs at hrun with hmoved
  · cases hrun
  obtain rfl := some.inj hrun
  have hchain₁ : h₁.chain rebuilt = h.chain base := (he.chain_eq hw hrebuilt).trans hchain
  obtain ⟨ha, -⟩ := addPropertyKey_spec hg.moves.wf (hrebuilt.trans_eq hg.nextShape.symm)
    (by rwa [hchain₁]) hadd
  refine ⟨hg.moves.trans ha.moves, ha.lt, ha.tree, ?_, ?_, ha.cells.trans hg.cells,
    ha.epoch.trans hg.epoch, fun hown u hu => ?_⟩
  · rw [ha.chain, hchain₁, hnode, Bronze.Shape.addPropertyKey, ← hslot]
  · rw [ha.root, ← hh₁]
    split_ifs
    · exact modifyShape_cases (P := fun u n => n.root = (h.shapes u).root) rfl (fun _ _ => rfl) _
    · rfl
  · rw [ha.marks (.inl hown) u (hu.trans_eq hg.nextShape.symm), hg.marks]

/-- **The rebuild** comes to the layout at the end of the path. -/
theorem rebuild_spec {nodes : List Nat} (hrebuilt : rebuilt < h.nextShape)
    (hchain : h.chain rebuilt = h.chain base) (htree : (h.shapes rebuilt).dict = none)
    (hbase : base < h.nextShape) (hpath : IsPath h nodes base s) {r : Nat × Heap}
    (hrun : rebuild index nodes rebuilt h = some r) :
    Copied rt h r.2 s (h.shapes rebuilt).root r.1 := by
  induction nodes generalizing h rebuilt base with
  | nil =>
    obtain rfl : s = base := hpath
    obtain rfl := some.inj hrun
    exact ⟨.refl hw, hrebuilt, htree, hchain, rfl, rfl, rfl, fun _ _ _ => rfl⟩
  | cons n nodes ih =>
    obtain ⟨hn, hparent, hrest⟩ := hpath
    rw [rebuild] at hrun
    cases hnode : h.rebuildNode index n rebuilt with
    | none => rw [hnode] at hrun; cases hrun
    | some r₁ =>
      rw [hnode] at hrun
      have hc := rebuildNode_spec hw hrebuilt hchain hn hparent hnode
      have he := hc.moves.extend
      have hcopied := ih hc.moves.wf hc.lt (hc.chain.trans (he.chain_eq hw hn).symm) hc.tree
        (hn.trans_le he.shape_le) (hrest.extend he) hrun
      refine ⟨hc.moves.trans hcopied.moves, hcopied.lt, hcopied.tree, ?_,
        hcopied.root.trans hc.root, hcopied.cells.trans hc.cells,
        hcopied.epoch.trans hc.epoch, fun hown u hu => ?_⟩
      · rw [hcopied.chain, he.chain_eq hw (hrest.lt hn)]
      · rw [hcopied.marks hown u (hu.trans_le he.shape_le), hc.marks hown u hu]

end Generalized

section Boxed

variable {s b index : Nat} {a : Address}

/-- What `withSlotBoxed` comes to: a shape that answers the same. -/
structure Boxed (rt : Runtime) (h h' : Heap) (s b : Nat) : Prop where
  moves : Moves rt h h'
  lt : b < h'.nextShape
  marked : (h'.shapes s).usedAsPrototype = true → (h'.shapes b).usedAsPrototype = true
  own : h'.own b = h'.own s
  prototypeValue : h'.prototypeValue b = h'.prototypeValue s
  cells : h'.cells = h.cells
  epoch : h'.protoEpoch = h.protoEpoch

variable (hw : WellFormed rt h)

include hw

theorem chainOf_ne_nil (hs : s < h.nextShape) (hdouble : (h.shapes s).slotIsDouble index = true)
    (htree : (h.shapes s).dict = none) : h.chainOf s ≠ [] := by
  intro hnil
  -- a root has no double slot
  have hparent := (chainOf_eq_nil hw hs htree).mp hnil
  rw [Shape.slotIsDouble, (hw.nodes s hs).doubleSlots hparent] at hdouble
  simp at hdouble

theorem boxed_of_copied (hs : s < h.nextShape)
    (htree : (h.shapes s).dict = none) (hc : Copied rt h h' s (h.shapes s).root b)
    (hmark : (h'.shapes s).usedAsPrototype = true → (h'.shapes b).usedAsPrototype = true) :
    Boxed rt h h' s b :=
  have hsame := hc.same hw hs htree
  ⟨hc.moves, hc.lt, hmark, hsame.1, hsame.2, hc.cells, hc.epoch⟩

/-- **`withSlotBoxed`** moves no property. -/
theorem withSlotBoxed_spec (hs : s < h.nextShape)
    (hrun : h.withSlotBoxed s index = some (b, h')) : Boxed rt h h' s b := by
  unfold withSlotBoxed at hrun
  by_cases hskip : ((h.shapes s).isDictionary || !(h.shapes s).slotIsDouble index) = true
  · rw [if_pos hskip] at hrun
    obtain ⟨rfl, rfl⟩ := Prod.mk.inj (some.inj hrun)
    exact ⟨.refl hw, hs, id, rfl, rfl, rfl, rfl⟩
  rw [if_neg hskip] at hrun
  have htree : (h.shapes s).dict = none := by
    cases hdict : (h.shapes s).dict with
    | none => rfl
    | some t => simp [Shape.isDictionary, hdict] at hskip
  have hdouble : (h.shapes s).slotIsDouble index = true := by
    simpa [Shape.isDictionary, htree] using hskip
  have hpath := chainOf_path hw hs htree
  have hroot := (hw.nodes s hs).root
  have hself := (hw.nodes _ hroot.lt).root_self hroot.tree hroot.parent
  by_cases hused : (h.shapes s).usedAsPrototype = true
  · rw [if_pos hused] at hrun
    have hg := generalizeNodes_spec hw index (h.chainOf s)
    have he := hg.moves.extend
    obtain ⟨hc, hmarked⟩ := privateMarkedChain_spec (some index) hg.moves.wf
      (hroot.extend he).lt (hroot.extend he).tree rfl
      (by rw [(he.tree _ hroot.lt hroot.tree).2, hself]) (hroot.extend he).lt (hpath.extend he)
      (some.inj hrun)
    refine boxed_of_copied hw hs htree ⟨hg.moves.trans hc.moves, hc.lt, hc.tree, ?_, hc.root,
      hc.cells.trans hg.cells, hc.epoch.trans hg.epoch, fun hown u hu => ?_⟩
      fun _ => hmarked (.inr ?_)
    · rw [hc.chain, he.chain_eq hw hs]
    · rw [hc.marks hown u (hu.trans_eq hg.nextShape.symm), hg.marks]
    · exact chainOf_ne_nil hw hs hdouble htree
  · rw [if_neg hused] at hrun
    obtain ⟨⟨rebuilt, h₁⟩, hrebuild, hrun⟩ := bind_eq_some_iff.mp hrun
    obtain ⟨rfl, rfl⟩ := Prod.mk.inj (some.inj hrun)
    have hc := rebuild_spec hw hroot.lt rfl hroot.tree hroot.lt hpath hrebuild
    rw [hself] at hc
    by_cases hmarked : (h₁.shapes s).usedAsPrototype = true
    · -- the rebuild marks an old node on a heap that is not the thread's, and only there
      rw [if_pos hmarked]
      have hm := mark_moves (s := rebuilt) hc.moves.wf fun hown =>
        absurd ((hc.marks hown s hs).symm.trans hmarked) hused
      have he := hm.extend
      refine boxed_of_copied hw hs htree ⟨hc.moves.trans hm, hc.lt,
        (he.tree _ hc.lt hc.tree).1, ?_, ?_, hc.cells, hc.epoch, fun hown => ?_⟩
        fun _ => usedAsPrototype_mark
      · rw [he.chain_eq hc.moves.wf hc.lt, hc.chain]
      · rw [(he.tree _ hc.lt hc.tree).2, hc.root]
      · exact absurd ((hc.marks hown s hs).symm.trans hmarked) hused
    · rw [if_neg hmarked]
      exact boxed_of_copied hw hs htree hc fun hm => absurd hm hmarked

/-- **`setSlot`** moves no property. -/
theorem setSlot_moves {v : Value} (hrun : h.setSlot a index v = some h') : Moves rt h h' := by
  obtain ⟨s, hshape, hrun⟩ := bind_eq_some_iff.mp hrun
  split_ifs at hrun with hbox
  · obtain ⟨⟨b, h₁⟩, hboxed, hrun⟩ := bind_eq_some_iff.mp hrun
    obtain rfl := some.inj hrun
    have hs := (hw.objects a s hshape).1
    have hb := withSlotBoxed_spec hw hs hboxed
    have hold : h₁.shapeOf a = some s := by rwa [shapeOf, hb.cells]
    have hm := setShape_moves hb.moves.wf hold hb.lt fun hmarked =>
      ⟨hb.marked hmarked, hb.own, hb.prototypeValue⟩
    exact (hb.moves.trans hm).trans (rawSetSlot_moves hm.wf a index v)
  · obtain rfl := some.inj hrun
    exact rawSetSlot_moves hw a index v

end Boxed

end Bronze.Objects
