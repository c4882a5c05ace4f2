import Bronze.Objects.Transitions

/-!
# Copies of a chain

`privateMarkedChain` and the rebuild of a generalization come to a node of the layout they copy.
So an object that becomes a prototype, or whose slot is boxed, has its properties where it had
them, and a write to a slot moves none.
-/

namespace Bronze.Objects

open Heap Shape Nat

variable {rt : Runtime} {h h' : Heap}

section Path

variable {s base : Nat}

/-- The nodes lead from `base` down to `s`. -/
def IsPath (h : Heap) : List Nat → Nat → Nat → Prop
  | [], base, s => s = base
  | n :: nodes, base, s =>
    n < h.nextShape ∧ (h.shapes n).parent = some base ∧ IsPath h nodes n s

variable {nodes : List Nat}

theorem IsPath.concat (hpath : IsPath h nodes base s) {n : Nat} (hn : n < h.nextShape)
    (hparent : (h.shapes n).parent = some s) : IsPath h (nodes ++ [n]) base n := by
  induction nodes generalizing base with
  | nil =>
    obtain rfl : s = base := hpath
    exact ⟨hn, hparent, rfl⟩
  | cons m nodes ih => exact ⟨hpath.1, hpath.2.1, ih hpath.2.2⟩

theorem IsPath.extend (e : Extends rt h h') (hpath : IsPath h nodes base s) :
    IsPath h' nodes base s := by
  induction nodes generalizing base with
  | nil => exact hpath
  | cons n nodes ih =>
    obtain ⟨hn, hparent, hrest⟩ := hpath
    exact ⟨hn.trans_le e.shape_le, (e.node n hn).parent.trans hparent, ih hrest⟩

theorem IsPath.lt (hbase : base < h.nextShape) (hpath : IsPath h nodes base s) :
    s < h.nextShape := by
  induction nodes generalizing base with
  | nil =>
    obtain rfl : s = base := hpath
    exact hbase
  | cons n nodes ih => exact ih hpath.1 hpath.2.2

/-- **`chainOf`** leads from the root to the node. -/
theorem chainOf_path (hw : WellFormed rt h) (hs : s < h.nextShape)
    (htree : (h.shapes s).dict = none) : IsPath h (h.chainOf s) (h.shapes s).root s := by
  have hfrom : ∀ fuel s, s ≤ fuel → s < h.nextShape → (h.shapes s).dict = none →
      IsPath h (h.nodesFrom fuel s).reverse (h.shapes s).root s := by
    intro fuel
    induction fuel with
    | zero =>
      intro s hle hs htree
      -- the oldest node is a root
      refine ((hw.nodes s hs).root_self htree ?_).symm
      cases hparent : (h.shapes s).parent with
      | none => rfl
      | some p => exact absurd ((hw.nodes s hs).parent p hparent).lt (by omega)
    | succ fuel ih =>
      intro s hle hs htree
      rw [nodesFrom]
      cases hparent : (h.shapes s).parent with
      | none =>
        have hroot : s = (h.shapes s).root := ((hw.nodes s hs).root_self htree hparent).symm
        cases (h.shapes s).key <;> exact hroot
      | some p =>
        obtain ⟨key, hkey⟩ := exists_key hw hs hparent
        have hp := (hw.nodes s hs).parent p hparent
        have hlt := hp.lt
        rw [hkey, List.reverse_cons, hp.root]
        exact (ih p (by omega) (hlt.trans hs) hp.parentTree).concat hs hparent
  exact hfrom s s le_rfl hs htree

theorem chainOf_eq_nil (hw : WellFormed rt h) (hs : s < h.nextShape)
    (htree : (h.shapes s).dict = none) : h.chainOf s = [] ↔ (h.shapes s).parent = none := by
  have hpath := chainOf_path hw hs htree
  constructor
  · intro hnil
    rw [hnil] at hpath
    rw [hpath]
    exact (hw.nodes s hs).root.parent
  · intro hparent
    rw [chainOf]
    cases s with
    | zero => rfl
    | succ s => rw [nodesFrom, hparent]; cases (h.shapes (s + 1)).key <;> rfl

end Path

section Private

variable {s base cur root : Nat} {boxIndex : Option Nat}

/-- What a copy of the chain of `s` comes to, below a root. -/
structure Copied (rt : Runtime) (h h' : Heap) (s root b : Nat) : Prop where
  moves : Moves rt h h'
  lt : b < h'.nextShape
  tree : (h'.shapes b).dict = none
  chain : h'.chain b = h.chain s
  root : (h'.shapes b).root = root
  cells : h'.cells = h.cells
  epoch : h'.protoEpoch = h.protoEpoch
  marks : rt.threadOwned = true → ∀ u < h.nextShape,
    (h'.shapes u).usedAsPrototype = (h.shapes u).usedAsPrototype

theorem copyOk (hw : WellFormed rt h) (hcur : cur < h.nextShape)
    (hcurtree : (h.shapes cur).dict = none) (hchain : h.chain cur = h.chain base) {n : Nat}
    (hn : n < h.nextShape) (hparent : (h.shapes n).parent = some base)
    (hroot : (h.shapes cur).root = root) {key : PropertyKey} (hkey : (h.shapes n).key = some key)
    (repr : SlotRepr) :
    ChildOk rt h cur key { child cur (h.shapes cur) (h.shapes n).key (h.shapes n).slotIndex
      root (h.shapes n).enumerable (h.shapes n).accessor (h.shapes n).writable
      (h.shapes n).configurable repr with usedAsPrototype := true } := by
  refine ⟨hcur, hcurtree, rfl, hkey, rfl, hroot.symm, rfl, rfl, rfl, fun _ _ => rfl, ?_⟩
  have hreached := (hw.nodes n hn).reached ((hw.nodes n hn).parent base hparent).tree
  rwa [chain_child hw.ordered hn hparent hkey, ← hchain] at hreached

/-- **`privateMarkedChain`** comes to the layout it copies. -/
theorem privateMarkedChain_spec (boxIndex : Option Nat) {nodes : List Nat} (hw : WellFormed rt h)
    (hcur : cur < h.nextShape) (hcurtree : (h.shapes cur).dict = none)
    (hchain : h.chain cur = h.chain base) (hroot : (h.shapes cur).root = root)
    (hbase : base < h.nextShape) (hpath : IsPath h nodes base s) {r : Nat × Heap}
    (hr : privateMarkedChain boxIndex root nodes cur h = r) :
    Copied rt h r.2 s root r.1 ∧
      ((h.shapes cur).usedAsPrototype = true ∨ nodes ≠ [] →
        (r.2.shapes r.1).usedAsPrototype = true) := by
  induction nodes generalizing h cur base with
  | nil =>
    obtain rfl : s = base := hpath
    subst hr
    refine ⟨⟨.refl hw, hcur, hcurtree, hchain, hroot, rfl, rfl, fun _ _ _ => rfl⟩,
      fun hmarked => ?_⟩
    exact hmarked.elim id fun hne => absurd rfl hne
  | cons n nodes ih =>
    obtain ⟨hn, hparent, hrest⟩ := hpath
    obtain ⟨key, hkey⟩ := exists_key hw hn hparent
    have hc := copyOk hw hcur hcurtree hchain hn hparent hroot hkey
      (if boxIndex = some (h.shapes n).slotIndex then .boxed else (h.shapes n).repr)
    have hm := hc.moves hw
    have hself := shapes_allocShape_self (h := h) (n := { child cur (h.shapes cur)
      (h.shapes n).key (h.shapes n).slotIndex root (h.shapes n).enumerable (h.shapes n).accessor
      (h.shapes n).writable (h.shapes n).configurable
      (if boxIndex = some (h.shapes n).slotIndex then .boxed else (h.shapes n).repr)
      with usedAsPrototype := true })
    -- the copy of the node has its layout, and the copies go on from there
    have hlayout := chain_allocShape hw hc
    have hnode := (chain_child hw.ordered hn hparent hkey).symm
    rw [hchain] at hlayout
    obtain ⟨hcopied, hmarked⟩ := ih hm.wf (lt_succ_self _) (by rw [hself]; rfl)
      ((hlayout.trans hnode).trans (hm.extend.chain_eq hw hn).symm) (by rw [hself]; rfl)
      (hn.trans (lt_succ_self _)) (hrest.extend hm.extend) hr
    refine ⟨⟨hm.trans hcopied.moves, hcopied.lt, hcopied.tree, ?_, hcopied.root, hcopied.cells,
      hcopied.epoch, fun hown u hu => ?_⟩, fun _ => hmarked (.inl (by rw [hself]))⟩
    · rw [hcopied.chain]
      exact hm.extend.chain_eq hw (hrest.lt hn)
    · rw [hcopied.marks hown u (hu.trans (lt_succ_self _)), shapes_allocShape_lt hu]

theorem Copied.same {b : Nat} (hw : WellFormed rt h) (hs : s < h.nextShape)
    (htree : (h.shapes s).dict = none) (hc : Copied rt h h' s (h.shapes s).root b) :
    h'.own b = h'.own s ∧ h'.prototypeValue b = h'.prototypeValue s := by
  obtain ⟨htree', hroot'⟩ := hc.moves.extend.tree s hs htree
  constructor
  · rw [own, own, entries_tree hc.tree, entries_tree htree', hc.chain,
      hc.moves.extend.chain_eq hw hs]
  · rw [prototypeValue, prototypeValue, hc.root, hroot']

end Private

/-! ## Prototypes -/

section Prototypes

variable {s : Nat} {a : Address} {proto : Value} {inlineSlots : Nat}

theorem rootOk_allocShape (h : Heap) (proto : Value) (inlineSlots : Nat) (used : Bool) :
    RootOk (h.allocShape (.rootWith h.nextShape proto inlineSlots used)).2 h.nextShape := by
  refine ⟨lt_succ_self _, ?_, ?_⟩ <;> rw [shapes_allocShape_self] <;> rfl

theorem rootWith_nodeOk (used : Bool) (hreached : (Bronze.Shape.root inlineSlots).Reached)
    (hproto : ∀ p, proto = .object p → p < h.nextCell) :
    NodeOk rt (h.allocShape (.rootWith h.nextShape proto inlineSlots used)).2 h.nextShape := by
  have hself := shapes_allocShape_self (h := h) (n := .rootWith h.nextShape proto inlineSlots used)
  have hr := rootOk_allocShape h proto inlineSlots used
  refine ⟨?_, fun p hp => ?_, ?_, fun _ _ => ?_, fun _ => ?_, fun _ => ?_, fun t ht => ?_,
    fun t ht => ?_, fun p hp => ?_, fun _ p hp => ?_⟩
  · rw [hself]
    exact iff_of_true rfl rfl
  · rw [hself] at hp
    cases hp
  · rw [hself]
    exact hr
  · rw [hself]
    rfl
  · rw [chain_root hr.parent, hself]
    exact hreached
  · rw [hself]
    rfl
  · rw [hself] at ht
    cases ht
  · rw [hself] at ht
    cases ht
  · rw [hself] at hp
    exact hproto p hp
  · rw [hself] at hp
    cases hp

/-- The object, if it carries a shape, is at a marked one. -/
def Marked (h : Heap) (a : Address) : Prop :=
  ∀ t, h.shapeOf a = some t → (h.shapes t).usedAsPrototype = true

theorem marked_setShape {old t : Nat} (hold : h.shapeOf a = some old)
    (hmarked : (h.shapes t).usedAsPrototype = true) : Marked (h.setShape a t) a := by
  intro u hu
  rw [shapeOf_setShape_self hold, Option.some.injEq] at hu
  rw [(setShape_arena hold).shapes, ← hu]
  exact hmarked

/-- **`markObjectAsPrototype`** leaves the object at a marked shape. -/
theorem markObjectAsPrototype_spec (hw : WellFormed rt h) (a : Address) :
    Moves rt h (h.markObjectAsPrototype rt a) ∧ Marked (h.markObjectAsPrototype rt a) a := by
  unfold markObjectAsPrototype
  cases hshape : h.shapeOf a with
  | none =>
    refine ⟨.refl hw, fun t ht => ?_⟩
    rw [hshape] at ht
    cases ht
  | some s =>
    have hs := (hw.objects a s hshape).1
    have hmark : ∀ h', h' = h.mark s → Marked h' a := by
      rintro _ rfl t ht
      obtain rfl : s = t := Option.some.inj (hshape.symm.trans ht)
      exact usedAsPrototype_mark
    dsimp only
    by_cases hused : (h.shapes s).usedAsPrototype = true
    · rw [if_pos hused]
      refine ⟨.refl hw, fun t ht => ?_⟩
      rwa [← Option.some.inj (hshape.symm.trans ht)]
    rw [if_neg hused]
    by_cases hdict : (h.shapes s).isDictionary = true
    · -- a dictionary is nobody's parent
      rw [if_pos hdict]
      refine ⟨mark_moves hw fun _ => .inr fun u hu hparent => ?_, hmark _ rfl⟩
      rw [isDictionary, ((hw.nodes u hu).parent s hparent).parentTree] at hdict
      cases hdict
    rw [if_neg hdict]
    have htree : (h.shapes s).dict = none := by simpa [isDictionary] using hdict
    have hpath := chainOf_path hw hs htree
    have hroot := (hw.nodes s hs).root
    cases hchain : h.chainOf s with
    | cons n nodes =>
      dsimp only
      rw [hchain] at hpath
      obtain ⟨hcopied, hmarked⟩ := privateMarkedChain_spec none hw hroot.lt
        hroot.tree rfl ((hw.nodes _ hroot.lt).root_self hroot.tree hroot.parent) hroot.lt hpath rfl
      have hmarked' := hmarked (.inr (List.cons_ne_nil _ _))
      generalize privateMarkedChain none (h.shapes s).root (n :: nodes) (h.shapes s).root h = r at *
      have hold : r.2.shapeOf a = some s := by rw [shapeOf, hcopied.cells]; exact hshape
      obtain ⟨hown, hproto⟩ := hcopied.same hw hs htree
      exact ⟨hcopied.moves.trans (setShape_moves hcopied.moves.wf hold hcopied.lt fun _ =>
        ⟨hmarked', hown, hproto⟩), marked_setShape hold hmarked'⟩
    | nil =>
      by_cases hown : rt.threadOwned = true
      · rw [hown]
        have hparent := (chainOf_eq_nil hw hs htree).mp hchain
        have hreached := (hw.nodes s hs).reached htree
        rw [chain_root hparent] at hreached
        have hn : NodeOk rt (h.allocShape (.rootWith h.nextShape (h.prototypeValue s)
            (h.shapes s).inlineSlots true)).2 h.nextShape :=
          rootWith_nodeOk true hreached (hw.nodes _ hroot.lt).prototype
        have hm := allocShape_moves hw hn fun p hp => ⟨_, hroot.lt, hp⟩
        have hold : (h.allocShape (.rootWith h.nextShape (h.prototypeValue s)
            (h.shapes s).inlineSlots true)).2.shapeOf a = some s := hshape
        refine ⟨hm.trans (setShape_moves hm.wf hold (lt_succ_self _) fun hmarked => ?_),
          marked_setShape hold ?_⟩
        · rw [shapes_allocShape_lt hs] at hmarked
          exact absurd hmarked hused
        · exact congrArg usedAsPrototype shapes_allocShape_self
      · -- the shared root is marked in place, on a heap that is not the thread's
        have hown' : rt.threadOwned = false := Bool.not_eq_true _ ▸ hown
        rw [hown']
        exact ⟨mark_moves hw fun h => absurd h hown, hmark _ rfl⟩

theorem newRoot_moves {inlineSlots : Nat} (hw : WellFormed rt h)
    (hreached : (Bronze.Shape.root inlineSlots).Reached)
    (hlive : ∀ p, proto = .object p → p < h.nextCell) (h₂ : Heap)
    (hmoves : WellFormed rt (h.allocShape (.rootWith h.nextShape proto inlineSlots false)).2 →
      Moves rt (h.allocShape (.rootWith h.nextShape proto inlineSlots false)).2 h₂)
    (hmarked : ∀ p, proto = .object p → Marked h₂ p) : Moves rt h h₂ ∧ RootOk h₂ h.nextShape := by
  have hw₁ := allocShape_wf hw (rootWith_nodeOk false hreached hlive)
  have he₁ := allocShape_extends (n := .rootWith h.nextShape proto inlineSlots false) hw
  have hm := hmoves hw₁
  refine ⟨⟨hm.wf, he₁.trans hm.extend, fun pending hl => ?_, fun hepoch => ?_⟩,
    (rootOk_allocShape ..).extend hm.extend⟩
  · -- until it is marked, the prototype is one that need not be
    have hl₁ : LinkedBut (fun p => pending p ∨ proto = .object p)
        (h.allocShape (.rootWith h.nextShape proto inlineSlots false)).2 := by
      intro r hr p hp hpending t ht
      rcases Nat.lt_or_eq_of_le (Nat.lt_succ_iff.mp hr) with hlt | rfl
      · rw [shapes_allocShape_lt hlt] at hp
        have hused := hl r hlt p hp (fun h => hpending (.inl h)) t ht
        rwa [shapes_allocShape_lt (hw.objects p t ht).1]
      · rw [shapes_allocShape_self] at hp
        exact absurd (.inr hp) hpending
    intro r hr p hp hpending t ht
    by_cases hproto : proto = .object p
    · exact hmarked p hproto t ht
    · exact hm.linked _ hl₁ r hr p hp (fun h => h.elim hpending hproto) t ht
  · exact (allocShape_links hw).trans he₁ (hm.keeps hepoch)

/-- **`createRoot`** marks the prototype it is given. -/
theorem createRoot_spec (inlineSlots : Nat) (hw : WellFormed rt h)
    (hlive : ∀ p, proto = .object p → p < h.nextCell) {r : Nat × Heap}
    (hr : h.createRoot rt proto inlineSlots = r) : Moves rt h r.2 ∧ RootOk r.2 r.1 := by
  have hroot := fun h₂ => newRoot_moves hw (.root inlineSlots) hlive h₂
  -- a link without a shape has no mark to have
  have hnone : ∀ p h₂, proto = .object p → h.shapeOf p = none →
      (WellFormed rt (h.allocShape (.rootWith h.nextShape proto
        (Bronze.Shape.clampInlineSlots inlineSlots) false)).2 →
      Moves rt (h.allocShape (.rootWith h.nextShape proto
        (Bronze.Shape.clampInlineSlots inlineSlots) false)).2 h₂) →
      Moves rt h h₂ ∧ RootOk h₂ h.nextShape := by
    intro p h₂ hproto hshape hmoves
    refine hroot h₂ hmoves fun q hq t ht => ?_
    obtain rfl : p = q := Value.object.inj (hproto.symm.trans hq)
    have hm := hmoves (allocShape_wf hw (rootWith_nodeOk false (.root inlineSlots) hlive))
    rw [hm.extend.other p (hlive p hproto) hshape] at ht
    cases ht
  unfold createRoot at hr
  cases proto with
  | object p =>
    dsimp only at hr
    have hcells : (h.allocShape (.rootWith h.nextShape (.object p)
        (Bronze.Shape.clampInlineSlots inlineSlots) false)).2.cells p = h.cells p := rfl
    rw [hcells] at hr
    cases hc : h.cells p with
    | ordinary s slots =>
      rw [hc] at hr
      subst hr
      refine hroot _ (fun hw₁ => (markObjectAsPrototype_spec hw₁ p).1) fun q hq => ?_
      obtain rfl : p = q := Value.object.inj hq
      exact (markObjectAsPrototype_spec
        (allocShape_wf hw (rootWith_nodeOk false (.root inlineSlots) hlive)) p).2
    | function props =>
      rw [hc] at hr
      have hshape : h.shapeOf p = none := by rw [shapeOf, hc]
      cases props with
      | object q =>
        subst hr
        exact hnone p _ rfl hshape fun hw₁ => (markObjectAsPrototype_spec hw₁ q).1
      | _ =>
        subst hr
        exact hnone p _ rfl hshape .refl
    | _ =>
      rw [hc] at hr
      subst hr
      exact hnone p _ rfl (by rw [shapeOf, hc]) .refl
  | _ =>
    subst hr
    exact hroot _ (.refl) fun q hq => by cases hq

end Prototypes

end Bronze.Objects
