import Bronze.Objects.Representations

/-!
# The slots that stay doubles

`withSlotBoxed` comes to the layout it started from, and on the way it asks every node for the
representation it has. It is answered with that representation, but where the edge it asks for has
generalized at another object's write: then that slot is boxed too.

## Main results

* `withSlotBoxed_doubles`: which bits the boxed shape has
-/

namespace Bronze.Objects

open Heap Transition
open Nat Option Shape Tree

/-! ## The rebuild -/

/-- The property of a node, under its key. -/
def Shape.property (n : Shape) (key : PropertyKey) : Attributed :=
  { key, enumerable := n.enumerable, accessor := n.accessor, writable := n.writable,
    configurable := n.configurable }

/-- The representation the rebuild asks for at a node: boxed at the slot that is boxed. -/
def Shape.asked (n : Shape) (index : Nat) : SlotRepr :=
  if n.slotIndex = index then .boxed else n.repr

namespace Heap

/-- **The rebuild leaves the representations it asks for**: on the way from `rebuilt` along the
edges that are there already, a double edge it asks for has generalized. -/
def Diverts (h : Heap) (index : Nat) : List ShapeId → ShapeId → Prop
  | [], _ => False
  | node :: nodes, rebuilt =>
    let n := h.shapes node
    match n.key with
    | none => False
    | some key =>
      Tree.generalized h rebuilt (n.property key) (n.asked index) = true ∨
        match edge (h.shapes rebuilt).transitions key n.enumerable n.accessor n.writable
            n.configurable (n.asked index) with
        | some next => h.Diverts index nodes next
        | none => False

end Heap

/-- The bits of `d` without bit `index`. -/
def Cleared (index d d' : Nat) : Prop :=
  ∀ j, d'.testBit j = true ↔ d.testBit j = true ∧ j ≠ index

section Rebuild

variable {rt : Runtime} {h h' : Heap} {index rebuilt base s n next : Nat} {nodes : List Nat}
  {key : PropertyKey}

/-- What a step of the rebuild leaves of the nodes that were there: their edges, and what has
generalized away from the slot that is boxed. -/
structure Kept (index : Nat) (h h' : Heap) : Prop where
  transitions : ∀ u, (h'.shapes u).transitions = (h.shapes u).transitions
  generalized : ∀ u, (h.shapes u).slotIndex ≠ index →
    (h'.shapes u).reprGeneralized = (h.shapes u).reprGeneralized

theorem Kept.refl (h : Heap) : Kept index h h := ⟨fun _ => rfl, fun _ _ => rfl⟩

theorem Kept.mark (hk : Kept index h h') (u : Nat) : Kept index h (h'.mark u) where
  transitions := modifyShape_cases (P := fun u n => n.transitions = (h.shapes u).transitions)
    (hk.transitions u) fun u _ => hk.transitions u
  generalized := modifyShape_cases
    (P := fun u n => (h.shapes u).slotIndex ≠ index → n.reprGeneralized =
      (h.shapes u).reprGeneralized) (hk.generalized u) fun u _ => hk.generalized u

theorem Kept.generalize (hindex : (h.shapes n).slotIndex = index) :
    Kept index h (h.modifyShape n fun n => { n with reprGeneralized := true }) where
  transitions := modifyShape_cases (P := fun u n => n.transitions = (h.shapes u).transitions) rfl
    fun _ _ => rfl
  generalized := modifyShape_cases
    (P := fun u n => (h.shapes u).slotIndex ≠ index → n.reprGeneralized =
      (h.shapes u).reprGeneralized) (absurd hindex) fun _ _ _ => rfl

theorem generalized_boxed (h : Heap) (this : Nat) (p : Attributed) :
    generalized h this p .boxed = false := rfl

theorem asked_double (hasked : (h.shapes n).asked index = .double) :
    (h.shapes n).slotIndex ≠ index ∧ (h.shapes n).repr = .double := by
  rw [asked] at hasked
  split at hasked
  · cases hasked
  next hne => exact ⟨hne, hasked⟩

/-- The edges of a node of a copied layout lead to nodes with the slot of the one copied. -/
theorem slotIndex_edge (hw : WellFormed rt h) (hrebuilt : rebuilt < h.nextShape)
    (hchain : h.chain rebuilt = h.chain base) (hn : n < h.nextShape)
    (hparent : (h.shapes n).parent = some base) (hkey : (h.shapes n).key = some key)
    {repr : SlotRepr} (hedge : edge (h.shapes rebuilt).transitions key (h.shapes n).enumerable
      (h.shapes n).accessor (h.shapes n).writable (h.shapes n).configurable repr = some next) :
    next < h.nextShape ∧ h.chain next = h.chain n ∧
      (h.shapes next).slotIndex = (h.shapes n).slotIndex := by
  obtain ⟨t, hmem, rfl, hk, he, ha, hwr, hc⟩ := edge_some hedge
  have hok := (hw.nodes rebuilt hrebuilt).edges t hmem
  obtain ⟨hlayout, hslot⟩ := hok.chain_eq hw
  have hnode := chain_child hw.ordered hn hparent hkey
  have hreached := (hw.nodes n hn).reached ((hw.nodes n hn).parent base hparent).tree
  rw [hnode] at hreached
  obtain ⟨-, -, hindex⟩ := reached_child hreached
  refine ⟨hok.lt, ?_, ?_⟩
  · rw [hlayout, hchain, hnode, hk, he, ha, hwr, hc, hindex]
    rfl
  · rw [hslot, hchain, ha, hindex]

/-- **What the rebuild meets is what it would have met**: the steps before leave it. -/
theorem diverts_congr (hw : WellFormed rt h) (e : Extends rt h h') (hk : Kept index h h')
    (hrebuilt : rebuilt < h.nextShape) (hchain : h.chain rebuilt = h.chain base)
    (hpath : IsPath h nodes base s) :
    h'.Diverts index nodes rebuilt ↔ h.Diverts index nodes rebuilt := by
  induction nodes generalizing rebuilt base with
  | nil => exact Iff.rfl
  | cons n nodes ih =>
    obtain ⟨hn, hparent, hrest⟩ := hpath
    obtain ⟨key, hkey⟩ := exists_key hw hn hparent
    have hsame := e.node n hn
    have hasked : (h'.shapes n).asked index = (h.shapes n).asked index := by
      rw [asked, asked, hsame.slotIndex, hsame.repr]
    have hproperty : (h'.shapes n).property key = (h.shapes n).property key := by
      rw [property, property, hsame.enumerable, hsame.accessor, hsame.writable,
        hsame.configurable]
    have hgeneralized : generalized h' rebuilt ((h.shapes n).property key)
        ((h.shapes n).asked index) = generalized h rebuilt ((h.shapes n).property key)
        ((h.shapes n).asked index) := by
      cases hrepr : (h.shapes n).asked index with
      | boxed => rfl
      | double =>
        -- a double edge asked for is one of another slot
        rw [generalized, generalized, hk.transitions]
        refine congrArg (_ && ·) ?_
        cases hedge : edge (h.shapes rebuilt).transitions ((h.shapes n).property key).key
            ((h.shapes n).property key).enumerable ((h.shapes n).property key).accessor
            ((h.shapes n).property key).writable ((h.shapes n).property key).configurable
            .double with
        | none => rfl
        | some next =>
          obtain ⟨-, -, hslot⟩ := slotIndex_edge hw hrebuilt hchain hn hparent hkey hedge
          exact hk.generalized next (hslot ▸ (asked_double hrepr).1)
    rw [Diverts, Diverts]
    simp only [hsame.key, hkey, hproperty, hasked, hgeneralized, hk.transitions, hsame.enumerable,
      hsame.accessor, hsame.writable, hsame.configurable]
    refine or_congr_right ?_
    cases hedge : edge (h.shapes rebuilt).transitions key (h.shapes n).enumerable
        (h.shapes n).accessor (h.shapes n).writable (h.shapes n).configurable
        ((h.shapes n).asked index) with
    | none => exact Iff.rfl
    | some next =>
      obtain ⟨hlt, hnext, -⟩ := slotIndex_edge hw hrebuilt hchain hn hparent hkey hedge
      exact ih hlt hnext hrest

theorem not_diverts_new (hnone : (h.shapes rebuilt).transitions = []) :
    ¬h.Diverts index nodes rebuilt := by
  cases nodes with
  | nil => exact id
  | cons n nodes =>
    rw [Diverts]
    cases (h.shapes n).key with
    | none => exact id
    | some key =>
      simp [generalized, hnone, edge]

/-- A node that is to be boxed is marked first. -/
def boxed (h : Heap) (index n : Nat) : Heap :=
  if (h.shapes n).slotIndex = index ∧ (h.shapes n).repr = .double then
    h.modifyShape n fun n => { n with reprGeneralized := true }
  else h

theorem boxed_layouts (hl : Layouts rt h) (index n : Nat) :
    Layouts rt (boxed h index n) ∧ Generalized rt h (boxed h index n) ∧
      Kept index h (boxed h index n) := by
  unfold boxed
  split
  next hboxes =>
    have hg := generalizeNode hl.wf n
    exact ⟨hl.modifyShape hg.moves rfl, hg, .generalize hboxes.1⟩
  next => exact ⟨hl, ⟨.refl hl.wf, rfl, rfl, rfl, fun _ => rfl⟩, .refl h⟩

/-- What a step of the rebuild comes to. -/
structure StepRepr (rt : Runtime) (h h' : Heap) (index n rebuilt next : Nat) (key : PropertyKey) :
    Prop where
  layouts : Layouts rt h'
  parent : (h'.shapes next).parent = some rebuilt
  double : (h'.shapes next).repr = .double ↔ (h.shapes n).asked index = .double ∧
    Tree.generalized h rebuilt ((h.shapes n).property key) ((h.shapes n).asked index) = false
  way : Tree.generalized h rebuilt ((h.shapes n).property key) ((h.shapes n).asked index) = false →
    (edge (h.shapes rebuilt).transitions key (h.shapes n).enumerable (h.shapes n).accessor
        (h.shapes n).writable (h.shapes n).configurable ((h.shapes n).asked index) = some next ∧
      Kept index h h') ∨
    (edge (h.shapes rebuilt).transitions key (h.shapes n).enumerable (h.shapes n).accessor
        (h.shapes n).writable (h.shapes n).configurable ((h.shapes n).asked index) = none ∧
      (h'.shapes next).transitions = [])

/-- **A step of the rebuild** does not fail, and has the representation it asks for where the edge
has not generalized. -/
theorem rebuildNode_repr (index : Nat) (hl : Layouts rt h) (hrebuilt : rebuilt < h.nextShape)
    (hchain : h.chain rebuilt = h.chain base) (hn : n < h.nextShape)
    (hparent : (h.shapes n).parent = some base) (hkey : (h.shapes n).key = some key) :
    ∃ next h', h.rebuildNode index n rebuilt = some (next, h') ∧
      StepRepr rt h h' index n rebuilt next key := by
  obtain ⟨hl₁, hg, hk⟩ := boxed_layouts hl index n
  have he := hg.moves.extend
  have hrebuilt₁ : rebuilt < (boxed h index n).nextShape := hrebuilt.trans_eq hg.nextShape.symm
  have hr := hl.nodes n hn
  -- the slot is that of the node, which had the room
  have hnode := chain_child hl.wf.ordered hn hparent hkey
  have hreached := (hl.wf.nodes n hn).reached hr.tree
  rw [hnode] at hreached
  obtain ⟨-, hnew, hslot⟩ := reached_child hreached
  have hinline : (h.shapes rebuilt).inlineSlots = (h.shapes n).inlineSlots := by
    rw [← inlineSlots_chain hl.wf hrebuilt, hchain, ← inlineSlots_chain hl.wf hn, hnode]
    rfl
  have hnext : ((boxed h index n).shapes rebuilt).nextSlotIndex
      (slotWidth ((h.shapes n).property key).accessor) = (h.shapes n).slotIndex := by
    rw [nextSlotIndex_same (he.node rebuilt hrebuilt), nextSlotIndex_eq hl.wf hrebuilt, hchain,
      hslot]
    rfl
  -- what is asked for, and what is wanted
  have hasked : (if (h.shapes n).slotIndex = index ∧ (h.shapes n).repr = .double then
      SlotRepr.boxed else (h.shapes n).repr) = (h.shapes n).asked index := by
    rw [asked]
    by_cases hindex : (h.shapes n).slotIndex = index
    · cases hrepr : (h.shapes n).repr <;> simp [hindex]
    · simp [hindex]
  have hgeneralized : generalized (boxed h index n) rebuilt ((h.shapes n).property key)
      ((h.shapes n).asked index) = generalized h rebuilt ((h.shapes n).property key)
        ((h.shapes n).asked index) := by
    cases hrepr : (h.shapes n).asked index with
    | boxed => rfl
    | double => rw [boxed, if_neg fun h => (asked_double hrepr).1 h.1]
  have hwanted : wanted (boxed h index n) rebuilt ((h.shapes n).property key)
      ((h.shapes n).asked index) =
        if generalized h rebuilt ((h.shapes n).property key) ((h.shapes n).asked index) then
          .boxed else (h.shapes n).asked index := by
    rw [wanted_eq, hgeneralized]
    cases hrepr : (h.shapes n).asked index with
    | boxed => simp
    | double => simp [property, (hr.double (asked_double hrepr).2).2]
  have hdouble : wanted (boxed h index n) rebuilt ((h.shapes n).property key)
      ((h.shapes n).asked index) = .double ↔ (h.shapes n).asked index = .double ∧
        generalized h rebuilt ((h.shapes n).property key) ((h.shapes n).asked index) =
          false := by
    rw [hwanted]
    split
    next hg => simp [hg]
    next hg => simp [hg]
  have hroom : slotsBefore (((boxed h index n).shapes rebuilt).nextSlotIndex
      (slotWidth ((h.shapes n).property key).accessor))
        ((boxed h index n).shapes rebuilt).inlineSlots +
          (if ((h.shapes n).property key).accessor then 1 else 0) < kDictionaryThreshold := by
    rw [hnext, (he.node rebuilt hrebuilt).inlineSlots, hinline]
    exact hr.room base hparent
  obtain ⟨next, slot, h', hrun, ha⟩ := addPropertyKey_repr
    ((h.shapes n).property key) ((h.shapes n).asked index) hl₁ hrebuilt₁
    (by rwa [he.chain_eq hl.wf hrebuilt, hchain]) hroom
    (fun hd => by
      rw [hnext]
      exact (hr.double (asked_double (hdouble.mp hd).1).2).1)
  have hslot' := (addPropertyKey_spec hl₁.wf hrebuilt₁
    (by rwa [he.chain_eq hl.wf hrebuilt, hchain]) hrun).2
  refine ⟨next, h', ?_, ha.layouts, ha.parent, ?_, fun hnot => ?_⟩
  · have hboxed : (if (h.shapes n).slotIndex = index ∧ (h.shapes n).repr = .double then
        h.modifyShape n fun n => { n with reprGeneralized := true } else h) =
      boxed h index n := rfl
    simp only [rebuildNode, hkey, hasked]
    have hslot'' : slot = (h.shapes n).slotIndex := by
      rw [hslot', he.chain_eq hl.wf hrebuilt, hchain, hslot]
      rfl
    refine (congrArg (Option.bind · _) hrun).trans ?_
    dsimp only [Option.bind_some]
    rw [if_neg (not_not.mpr hslot'')]
    rfl
  · rw [ha.repr, hdouble]
  · have hplain : wanted (boxed h index n) rebuilt ((h.shapes n).property key)
        ((h.shapes n).asked index) = (h.shapes n).asked index := by
      rw [hwanted, hnot]
      rfl
    have hway := ha.way
    rw [hplain, hk.transitions] at hway
    refine hway.imp (And.imp_right fun hheap => ?_) id
    rcases hheap with rfl | rfl
    · exact hk
    · exact hk.mark next

/-- One more slot on both sides: the bits agree after it if they did and it is asked for alike. -/
theorem cleared_step {d d' e e' k : Nat} {P Q : Prop} (hd : ∀ j, d.testBit j = true → j < k)
    (he : ∀ j, e.testBit j = true → j < k)
    (hd' : ∀ j, d'.testBit j = true ↔ d.testBit j = true ∨ P ∧ j = k)
    (he' : ∀ j, e'.testBit j = true ↔ e.testBit j = true ∨ Q ∧ j = k) (hQ : Q → P ∧ k ≠ index) :
    Cleared index d' e' ↔ Cleared index d e ∧ (P → k ≠ index → Q) := by
  have hk : d.testBit k ≠ true ∧ e.testBit k ≠ true :=
    ⟨fun h => lt_irrefl k (hd k h), fun h => lt_irrefl k (he k h)⟩
  constructor
  · intro hc
    constructor
    · intro j
      have hj := hc j
      rw [hd', he'] at hj
      by_cases hjk : j = k
      · subst hjk
        exact iff_of_false hk.2 fun h => hk.1 h.1
      · simpa [hjk] using hj
    · intro hP hne
      have hj := hc k
      rw [hd', he'] at hj
      exact (hj.mpr ⟨.inr ⟨hP, rfl⟩, hne⟩).elim (fun h => absurd h hk.2) And.left
  · rintro ⟨hc, hkeep⟩ j
    rw [hd', he', hc]
    by_cases hjk : j = k
    · subst hjk
      constructor
      · rintro (h | h)
        · exact absurd h.1 hk.1
        · exact ⟨.inr ⟨(hQ h.1).1, rfl⟩, (hQ h.1).2⟩
      · rintro ⟨h | h, hne⟩
        · exact absurd h hk.1
        · exact .inr ⟨hkeep h.1 hne, rfl⟩
    · simp [hjk]

theorem cleared_node (index : Nat) (hl : Layouts rt h) (hl' : Layouts rt h') (e : Extends rt h h')
    (hrebuilt : rebuilt < h.nextShape) (hbase : base < h.nextShape) (hn : n < h.nextShape)
    (hparent : (h.shapes n).parent = some base) (hnext : next < h'.nextShape)
    (hparent' : (h'.shapes next).parent = some rebuilt)
    (hslot : (h'.shapes next).slotIndex = (h.shapes n).slotIndex)
    (hrepr : (h'.shapes next).repr = .double → (h.shapes n).repr = .double ∧
      (h.shapes n).slotIndex ≠ index) :
    Cleared index (h.shapes n).doubleSlots (h'.shapes next).doubleSlots ↔
      Cleared index (h.shapes base).doubleSlots (h.shapes rebuilt).doubleSlots ∧
        ((h.shapes n).repr = .double → (h.shapes n).slotIndex ≠ index →
          (h'.shapes next).repr = .double) := by
  have hsame := e.node rebuilt hrebuilt
  refine cleared_step (fun j hj => ?_) (fun j hj => ?_) (testBit_doubleSlots hl hn hparent)
    (fun j => ?_) hrepr
  · exact (lt_slotEnd hl hbase hj).trans_le (slotEnd_le hl.wf hn hparent).1
  · rw [← hslot]
    refine (lt_slotEnd hl' (hrebuilt.trans_le e.shape_le) ?_).trans_le
      (slotEnd_le hl'.wf hnext hparent').1
    rwa [hsame.doubleSlots]
  · rw [testBit_doubleSlots hl' hnext hparent', hsame.doubleSlots, hslot]

/-- **The rebuild** does not fail, and comes to the bits asked for if it does not divert. -/
theorem rebuild_repr (index : Nat) (hl : Layouts rt h) (hrebuilt : rebuilt < h.nextShape)
    (hbase : base < h.nextShape) (hchain : h.chain rebuilt = h.chain base)
    (hpath : IsPath h nodes base s) :
    ∃ b h', rebuild index nodes rebuilt h = some (b, h') ∧ Layouts rt h' ∧
      (Cleared index (h.shapes s).doubleSlots (h'.shapes b).doubleSlots ↔
        Cleared index (h.shapes base).doubleSlots (h.shapes rebuilt).doubleSlots ∧
          ¬h.Diverts index nodes rebuilt) := by
  induction nodes generalizing h rebuilt base with
  | nil =>
    obtain rfl : s = base := hpath
    exact ⟨rebuilt, h, rfl, hl, by simp [Diverts]⟩
  | cons n nodes ih =>
    obtain ⟨hn, hparent, hrest⟩ := hpath
    obtain ⟨key, hkey⟩ := exists_key hl.wf hn hparent
    obtain ⟨next, h₁, hrun, hstep⟩ := rebuildNode_repr index hl hrebuilt hchain hn hparent hkey
    have hcopied := rebuildNode_spec hl.wf hrebuilt hchain hn hparent hrun
    have he := hcopied.moves.extend
    have hn₁ := hn.trans_le he.shape_le
    have hchain₁ : h₁.chain next = h₁.chain n := hcopied.chain.trans (he.chain_eq hl.wf hn).symm
    obtain ⟨b, h', hrebuild, hl', hcleared⟩ := ih hstep.layouts hcopied.lt hn₁ hchain₁
      (hrest.extend he)
    refine ⟨b, h', ?_, hl', ?_⟩
    · rw [rebuild, hrun]
      exact hrebuild
    have hslot : (h₁.shapes next).slotIndex = (h.shapes n).slotIndex := by
      -- the two nodes end the same layout
      obtain ⟨key', hkey'⟩ := exists_key hstep.layouts.wf hcopied.lt hstep.parent
      have hlayout := hcopied.chain
      rw [chain_child hstep.layouts.wf.ordered hcopied.lt hstep.parent hkey',
        chain_child hl.wf.ordered hn hparent hkey] at hlayout
      injection hlayout
    have hnode := cleared_node index hl hstep.layouts he hrebuilt hbase hn hparent
      hcopied.lt hstep.parent hslot fun hdouble =>
        (asked_double (hstep.double.mp hdouble).1).symm
    have hsdoubles : (h₁.shapes s).doubleSlots = (h.shapes s).doubleSlots :=
      (he.node s (hrest.lt hn)).doubleSlots
    rw [hsdoubles, (he.node n hn).doubleSlots, hnode] at hcleared
    rw [hcleared, and_assoc]
    refine and_congr_right fun _ => ?_
    rw [Diverts]
    simp only [hkey]
    cases hgeneralized : generalized h rebuilt ((h.shapes n).property key)
        ((h.shapes n).asked index) with
    | true =>
      -- the slot is one that is asked for as a double, and is not one after the step
      have hasked : (h.shapes n).asked index = .double := by
        cases hrepr : (h.shapes n).asked index with
        | double => rfl
        | boxed => rw [hrepr, generalized_boxed] at hgeneralized; cases hgeneralized
      refine iff_of_false (fun hall => ?_) fun hnot => hnot (.inl rfl)
      have hdouble := hall.1 (asked_double hasked).2 (asked_double hasked).1
      rw [(hstep.double.mp hdouble).2] at hgeneralized
      cases hgeneralized
    | false =>
      have hkeep : (h.shapes n).repr = .double → (h.shapes n).slotIndex ≠ index →
          (h₁.shapes next).repr = .double := fun hrepr hne =>
        hstep.double.mpr ⟨by rw [asked, if_neg hne, hrepr], hgeneralized⟩
      rw [and_iff_right hkeep]
      rcases hstep.way hgeneralized with ⟨hedge, hk⟩ | ⟨hedge, hnone⟩
      · obtain ⟨hlt, hlayout, -⟩ := slotIndex_edge hl.wf hrebuilt hchain hn hparent hkey hedge
        rw [hedge, diverts_congr hl.wf he hk hlt hlayout hrest]
        simp
      · rw [hedge]
        simp [not_diverts_new hnone]

end Rebuild

section Private

variable {rt : Runtime} {h h' : Heap} {index cur base s root : Nat} {nodes : List Nat}
  {boxIndex : Option Nat}

/-- **A private chain** has the representations it copies, but at the slot that is boxed. -/
theorem privateMarkedChain_repr (hl : Layouts rt h) (hcur : cur < h.nextShape)
    (hbase : base < h.nextShape) (hchain : h.chain cur = h.chain base)
    (hroot : (h.shapes cur).root = root) (hpath : IsPath h nodes base s) {r : Nat × Heap}
    (hr : privateMarkedChain boxIndex root nodes cur h = r) :
    Layouts rt r.2 ∧ ∀ index, boxIndex = some index →
      Cleared index (h.shapes base).doubleSlots (h.shapes cur).doubleSlots →
      Cleared index (h.shapes s).doubleSlots (r.2.shapes r.1).doubleSlots := by
  induction nodes generalizing h cur base with
  | nil =>
    obtain rfl : s = base := hpath
    subst hr
    exact ⟨hl, fun _ _ => id⟩
  | cons n nodes ih =>
    obtain ⟨hn, hparent, hrest⟩ := hpath
    obtain ⟨key, hkey⟩ := exists_key hl.wf hn hparent
    have hn' := hl.nodes n hn
    have hc := copyOk hl.wf hcur (hl.nodes cur hcur).tree hchain hn hparent hroot hkey
      (if boxIndex = some (h.shapes n).slotIndex then .boxed else (h.shapes n).repr)
    have hm := hc.moves hl.wf
    have he := hm.extend
    have hnode := chain_child hl.wf.ordered hn hparent hkey
    have hinline : (h.shapes cur).inlineSlots = (h.shapes n).inlineSlots := by
      rw [← inlineSlots_chain hl.wf hcur, hchain, ← inlineSlots_chain hl.wf hn, hnode]
      rfl
    have hrepr : (if boxIndex = some (h.shapes n).slotIndex then SlotRepr.boxed
        else (h.shapes n).repr) = .double →
          (h.shapes n).repr = .double ∧ boxIndex ≠ some (h.shapes n).slotIndex := by
      split
      · nofun
      next hne => exact fun hdouble => ⟨hdouble, hne⟩
    have hl₁ := hl.allocShape hm.wf (reprOk_child hcur
      (fun hdouble => hn'.double (hrepr hdouble).1) (by rw [hinline]; exact hn'.room base hparent))
    have hself := shapes_allocShape_self (h := h) (n := { child cur (h.shapes cur)
      (h.shapes n).key (h.shapes n).slotIndex root (h.shapes n).enumerable (h.shapes n).accessor
      (h.shapes n).writable (h.shapes n).configurable
      (if boxIndex = some (h.shapes n).slotIndex then .boxed else (h.shapes n).repr)
      with usedAsPrototype := true })
    have hlayout := (chain_allocShape hl.wf hc).trans ((congrArg (Bronze.Shape.child ·
      key (h.shapes n).slotIndex (h.shapes n).enumerable (h.shapes n).accessor
      (h.shapes n).writable (h.shapes n).configurable) hchain).trans hnode.symm)
    obtain ⟨hlast, hcleared⟩ := ih hl₁ (lt_succ_self _) (hn.trans (lt_succ_self _))
      (hlayout.trans (he.chain_eq hl.wf hn).symm) (by rw [hself]; rfl) (hrest.extend he) hr
    refine ⟨hlast, fun index hindex hc₀ => ?_⟩
    subst hindex
    have hs₁ := hcleared index rfl ?_
    · rwa [(he.node s (hrest.lt hn)).doubleSlots] at hs₁
    -- the copy has the bit of the node where the slot is not the one boxed
    rw [(he.node n hn).doubleSlots]
    refine (cleared_node index hl hl₁ he hcur hbase hn hparent (lt_succ_self _)
      (by rw [hself]; rfl) (by rw [hself]; rfl) fun hdouble => ?_).mpr ⟨hc₀, fun hdouble hne => ?_⟩
    · rw [hself] at hdouble
      exact ⟨(hrepr hdouble).1, fun h => (hrepr hdouble).2 (congrArg some h.symm)⟩
    · rw [hself]
      exact (if_neg fun h => hne (some.inj h).symm).trans hdouble

theorem generalizeNodes_layouts (hl : Layouts rt h) (index : Nat) (nodes : List Nat) :
    Layouts rt (generalizeNodes index nodes h) := by
  induction nodes generalizing h with
  | nil => exact hl
  | cons n nodes ih =>
    rw [generalizeNodes]
    split
    · exact ih (hl.modifyShape (generalizeNode hl.wf n).moves rfl)
    · exact ih hl

end Private

section Boxed

variable {rt : Runtime} {h h' : Heap} {s index : Nat}

theorem cleared_zero (index : Nat) : Cleared index 0 0 := by
  intro j
  simp

/-- **Which bits the boxed shape has**: the layout is the one there was, and the bits are those
there were without the one, for a prototype, and for another shape where the rebuild does not
divert. -/
theorem withSlotBoxed_doubles (hl : Layouts rt h) (hs : s < h.nextShape)
    (hdouble : (h.shapes s).slotIsDouble index = true) :
    ∃ b h', h.withSlotBoxed s index = some (b, h') ∧ Layouts rt h' ∧ h'.chain b = h.chain s ∧
      (Cleared index (h.shapes s).doubleSlots (h'.shapes b).doubleSlots ↔
        (h.shapes s).usedAsPrototype = true ∨
          ¬h.Diverts index (h.chainOf s) (h.shapes s).root) := by
  have htree := (hl.nodes s hs).tree
  have hpath := chainOf_path hl.wf hs htree
  have hroot := (hl.wf.nodes s hs).root
  have hself := (hl.wf.nodes _ hroot.lt).root_self hroot.tree hroot.parent
  have hzero := (hl.wf.nodes _ hroot.lt).doubleSlots hroot.parent
  have hskip : ¬((h.shapes s).isDictionary || !(h.shapes s).slotIsDouble index) = true := by
    simp [isDictionary, htree, hdouble]
  by_cases hused : (h.shapes s).usedAsPrototype = true
  · -- the chain of a prototype is copied
    have hg := generalizeNodes_spec hl.wf index (h.chainOf s)
    have he := hg.moves.extend
    have hl₁ := generalizeNodes_layouts hl index (h.chainOf s)
    have hlt := (hroot.extend he).lt
    have hself₁ : ((generalizeNodes index (h.chainOf s) h).shapes (h.shapes s).root).root =
        (h.shapes s).root := by
      rw [(he.tree _ hroot.lt hroot.tree).2, hself]
    obtain ⟨⟨b, h₂⟩, hr⟩ : ∃ r, privateMarkedChain (some index) (h.shapes s).root (h.chainOf s)
        (h.shapes s).root (generalizeNodes index (h.chainOf s) h) = r := ⟨_, rfl⟩
    obtain ⟨hcopied, -⟩ := privateMarkedChain_spec (some index) hl₁.wf hlt
      (hroot.extend he).tree rfl hself₁ hlt (hpath.extend he) hr
    obtain ⟨hl₂, hcleared⟩ := privateMarkedChain_repr hl₁ hlt hlt rfl hself₁ (hpath.extend he) hr
    refine ⟨b, h₂, ?_, hl₂, ?_, iff_of_true ?_ (.inl hused)⟩
    · simp [withSlotBoxed, hskip, hused, hr]
    · rw [hcopied.chain, he.chain_eq hl.wf hs]
    · have hbits := hcleared index rfl (by
        rw [(he.node _ hroot.lt).doubleSlots, hzero]
        exact cleared_zero index)
      rwa [(he.node s hs).doubleSlots] at hbits
  · -- another shape is rebuilt along the shared edges
    obtain ⟨b, h₁, hrebuild, hl₁, hcleared⟩ := rebuild_repr index hl hroot.lt hroot.lt rfl hpath
    have hc := rebuild_spec hl.wf hroot.lt rfl hroot.tree hroot.lt hpath hrebuild
    have hrun : h.withSlotBoxed s index =
        some (b, if (h₁.shapes s).usedAsPrototype then h₁.mark b else h₁) := by
      rw [withSlotBoxed, if_neg hskip, if_neg hused, hrebuild]
      rfl
    have hbits : Cleared index (h.shapes s).doubleSlots (h₁.shapes b).doubleSlots ↔
        (h.shapes s).usedAsPrototype = true ∨
          ¬h.Diverts index (h.chainOf s) (h.shapes s).root := by
      rw [hcleared, hzero, and_iff_right (cleared_zero index), or_iff_right hused]
    by_cases hmarked : (h₁.shapes s).usedAsPrototype = true
    · rw [if_pos hmarked] at hrun
      -- the rebuild marks an old node on a heap that is not the thread's, and only there
      have hm := mark_moves (s := b) hl₁.wf fun hown =>
        absurd ((hc.marks hown s hs).symm.trans hmarked) hused
      refine ⟨b, _, hrun, hl₁.modifyShape hm rfl, ?_, ?_⟩
      · rw [hm.extend.chain_eq hl₁.wf hc.lt, hc.chain]
      · rwa [(hm.extend.node b hc.lt).doubleSlots]
    · rw [if_neg hmarked] at hrun
      exact ⟨b, h₁, hrun, hl₁, hc.chain, hbits⟩

end Boxed

/-! ## Runs -/

/-- What happens to the shared tree: a root, an object at a node, an add, an object that becomes a
prototype, and a slot boxed. An object that comes to a node is one that is at it from the start. -/
inductive LayoutEvent where
  | root (proto : Value) (inlineSlots : Nat)
  | object (shape : ShapeId) (slots : Nat → Value)
  | add (this : ShapeId) (property : Attributed) (desired : SlotRepr)
  | prototype (a : Address)
  | box (shape : ShapeId) (index : Nat)

/-- The heap after an event. The callers look a key up before they add it. -/
def LayoutEvent.exec (rt : Runtime) (h : Heap) : LayoutEvent → Option Heap
  | root proto inlineSlots =>
    if h.live proto then some (h.createRoot rt proto inlineSlots).2 else none
  | object shape slots =>
    if shape < h.nextShape then some (h.allocCell (.ordinary shape slots)).2 else none
  | add this p desired =>
    if this < h.nextShape ∧ p.key ∉ (h.chain this).keys then
      (h.addPropertyKey this p.key p.enumerable p.accessor p.writable p.configurable desired).map
        fun r => r.2.2
    else none
  | prototype a => some (h.markObjectAsPrototype rt a)
  | box shape index =>
    if shape < h.nextShape then (h.withSlotBoxed shape index).map Prod.snd else none

def LayoutStep (rt : Runtime) (h : Heap) (e : LayoutEvent) (h' : Heap) : Prop :=
  e.exec rt h = some h'

section Events

variable {rt : Runtime} {h h' : Heap} {a : Address} {e : LayoutEvent} {es : List LayoutEvent}
  {s index : Nat}

theorem markObjectAsPrototype_layouts (hl : Layouts rt h) (a : Address) :
    Layouts rt (h.markObjectAsPrototype rt a) := by
  have hm := (markObjectAsPrototype_spec hl.wf a).1
  unfold markObjectAsPrototype at hm ⊢
  cases hshape : h.shapeOf a with
  | none => exact hl
  | some s =>
    rw [hshape] at hm
    have hs := (hl.wf.objects a s hshape).1
    have htree := (hl.nodes s hs).tree
    have hroot := (hl.wf.nodes s hs).root
    have hdict : ¬(h.shapes s).isDictionary = true := by simp [isDictionary, htree]
    dsimp only at hm ⊢
    by_cases hused : (h.shapes s).usedAsPrototype = true
    · rw [if_pos hused]
      exact hl
    rw [if_neg hused, if_neg hdict] at hm ⊢
    cases hchain : h.chainOf s with
    | cons n nodes =>
      rw [hchain] at hm
      dsimp only at hm ⊢
      have hpath := chainOf_path hl.wf hs htree
      rw [hchain] at hpath
      have hself := (hl.wf.nodes _ hroot.lt).root_self hroot.tree hroot.parent
      obtain ⟨r, hr⟩ : ∃ r, privateMarkedChain none (h.shapes s).root (n :: nodes)
          (h.shapes s).root h = r := ⟨_, rfl⟩
      obtain ⟨hcopied, -⟩ := privateMarkedChain_spec none hl.wf hroot.lt hroot.tree rfl hself
        hroot.lt hpath hr
      have hl₁ := (privateMarkedChain_repr hl hroot.lt hroot.lt rfl hself hpath hr).1
      rw [hr] at hm ⊢
      have hold : r.2.shapeOf a = some s := by rw [shapeOf, hcopied.cells]; exact hshape
      have ha := setShape_arena (t := r.1) hold
      exact hl₁.of_shapes hm.wf ha.shapes ha.nextShape
    | nil =>
      rw [hchain] at hm
      by_cases hown : rt.threadOwned = true
      · -- the object gets a root of its own
        rw [hown] at hm ⊢
        have hparent := (chainOf_eq_nil hl.wf hs htree).mp hchain
        have hreached := (hl.wf.nodes s hs).reached htree
        rw [chain_root hparent] at hreached
        have hl₁ := hl.allocShape (allocShape_wf hl.wf (rootWith_nodeOk true hreached
          (hl.wf.nodes _ hroot.lt).prototype)) (reprOk_root (h.prototypeValue s) _ true)
        have hold : (h.allocShape (.rootWith h.nextShape (h.prototypeValue s)
            (h.shapes s).inlineSlots true)).2.shapeOf a = some s := hshape
        have ha := setShape_arena (t := h.nextShape) hold
        exact hl₁.of_shapes hm.wf ha.shapes ha.nextShape
      · have hown' : rt.threadOwned = false := Bool.not_eq_true _ ▸ hown
        rw [hown'] at hm ⊢
        exact hl.modifyShape (f := fun n => { n with usedAsPrototype := true }) hm rfl

theorem createRoot_layouts (hl : Layouts rt h) {proto : Value} (inlineSlots : Nat)
    (hlive : ∀ p, proto = .object p → p < h.nextCell) :
    Layouts rt (h.createRoot rt proto inlineSlots).2 := by
  have hl₁ := hl.allocShape (allocShape_wf hl.wf (rootWith_nodeOk false (.root inlineSlots) hlive))
    (reprOk_root proto (Bronze.Shape.clampInlineSlots inlineSlots) false)
  unfold createRoot
  dsimp only
  split
  · split
    · exact markObjectAsPrototype_layouts hl₁ _
    · exact markObjectAsPrototype_layouts hl₁ _
    · exact hl₁
  · exact hl₁

/-- **An event keeps the representations of the nodes.** -/
theorem LayoutStep.layouts (hstep : LayoutStep rt h e h') (hl : Layouts rt h) : Layouts rt h' := by
  unfold LayoutStep at hstep
  cases e with
  | root proto inlineSlots =>
    rw [LayoutEvent.exec] at hstep
    split at hstep
    next hlive =>
      obtain rfl := some.inj hstep
      refine createRoot_layouts hl inlineSlots ?_
      rintro p rfl
      exact of_decide_eq_true hlive
    next => cases hstep
  | object shape slots =>
    rw [LayoutEvent.exec] at hstep
    split at hstep
    next hlt =>
      obtain rfl := some.inj hstep
      refine hl.of_shapes (allocCell_moves hl.wf fun s slots hs => ?_).wf rfl rfl
      obtain ⟨rfl, -⟩ := Cell.ordinary.inj hs
      exact hlt
    next => cases hstep
  | add this p desired =>
    rw [LayoutEvent.exec] at hstep
    split at hstep
    next hok =>
      obtain ⟨⟨next, slot, h₁⟩, hrun, rfl⟩ := map_eq_some_iff.mp hstep
      exact addPropertyKey_layouts hl hok.1 hok.2 hrun
    next => cases hstep
  | prototype a =>
    rw [LayoutEvent.exec, some.injEq] at hstep
    exact hstep ▸ markObjectAsPrototype_layouts hl a
  | box shape index =>
    rw [LayoutEvent.exec] at hstep
    split at hstep
    next hlt =>
      obtain ⟨⟨b, h₁⟩, hrun, rfl⟩ := map_eq_some_iff.mp hstep
      by_cases hdouble : (h.shapes shape).slotIsDouble index = true
      · obtain ⟨b', h₂, hrun', hl', -⟩ := withSlotBoxed_doubles hl hlt hdouble
        rw [hrun, some.injEq, Prod.mk.injEq] at hrun'
        exact hrun'.2 ▸ hl'
      · rw [withSlotBoxed, if_pos (by simp [hdouble])] at hrun
        obtain ⟨-, rfl⟩ := Prod.mk.inj (some.inj hrun)
        exact hl
    next => cases hstep

theorem empty_layouts (rt : Runtime) : Layouts rt .empty where
  wf := ⟨fun s hs => absurd hs (not_lt_zero s), nofun, nofun⟩
  nodes := fun s hs => absurd hs (not_lt_zero s)

theorem run_layouts (hrun : Run (LayoutStep rt) .empty es h) : Layouts rt h :=
  hrun.invariant (Layouts rt) (empty_layouts rt) fun _ _ _ hl hstep => hstep.layouts hl

/-- **Boxing a slot, in every run.** The boxed shape has the keys, the slots and the attributes
there were, and it has the double slots there were but for the one exactly if the shape is a
prototype's or the rebuild does not divert. -/
theorem withSlotBoxed_keeps_iff (hrun : Run (LayoutStep rt) .empty es h) (hs : s < h.nextShape)
    (hdouble : (h.shapes s).slotIsDouble index = true) :
    ∃ b h', h.withSlotBoxed s index = some (b, h') ∧ h'.chain b = h.chain s ∧
      (Cleared index (h.shapes s).doubleSlots (h'.shapes b).doubleSlots ↔
        (h.shapes s).usedAsPrototype = true ∨
          ¬h.Diverts index (h.chainOf s) (h.shapes s).root) := by
  obtain ⟨b, h', hbox, -, hchain, hbits⟩ := withSlotBoxed_doubles (run_layouts hrun) hs hdouble
  exact ⟨b, h', hbox, hchain, hbits⟩

/-- The events, one after the other. -/
def execAll (rt : Runtime) : List LayoutEvent → Heap → Option Heap
  | [], h => some h
  | e :: es, h => (e.exec rt h).bind (execAll rt es)

theorem run_of_execAll {es₀ : List LayoutEvent} {h₀ : Heap}
    (hrun : Run (LayoutStep rt) .empty es₀ h₀) (hexec : execAll rt es h₀ = some h) :
    Run (LayoutStep rt) .empty (es₀ ++ es) h := by
  induction es generalizing es₀ h₀ with
  | nil =>
    obtain rfl := some.inj hexec
    rwa [List.append_nil]
  | cons e es ih =>
    obtain ⟨h₁, hstep, hrest⟩ := bind_eq_some_iff.mp hexec
    rw [List.append_cons]
    exact ih (hrun.snoc hstep) hrest

/-- The thread's own heap, and every key eligible. -/
def ownHeap : Runtime where
  threadOwned := true
  slotReprEligible := fun _ => true
  censusFillsSuppressed := false

/-- Two doubles, the first of which is no number any more at another object. -/
def turnover : List LayoutEvent :=
  [.root .undefined 16, .add 0 (plain 0) .double, .add 1 (plain 1) .double, .box 1 0]

theorem turnover_bits : (execAll ownHeap turnover .empty).bind (fun h => (h.withSlotBoxed 2 1).map
    fun r => (h.nextShape, (h.shapes 2).doubleSlots, (r.2.shapes r.1).doubleSlots)) =
      some (4, 3, 0) := by
  decide +kernel

theorem exists_turnover : ∃ h b h', Run (LayoutStep ownHeap) .empty turnover h ∧
    h.withSlotBoxed 2 1 = some (b, h') ∧ h.nextShape = 4 ∧ (h.shapes 2).doubleSlots = 3 ∧
      (h'.shapes b).doubleSlots = 0 := by
  obtain ⟨h, hexec, hbox⟩ := bind_eq_some_iff.mp turnover_bits
  obtain ⟨⟨b, h'⟩, hrun, hbits⟩ := map_eq_some_iff.mp hbox
  simp only [Prod.mk.injEq] at hbits
  exact ⟨h, b, h', run_of_execAll .nil hexec, hrun, hbits⟩

/-- The second slot of the turnover is boxed in the layout that was there. -/
theorem withSlotBoxed_keeps_iff_turnover :
    ∃ h, Run (LayoutStep ownHeap) .empty turnover h ∧ ∃ b h',
      h.withSlotBoxed 2 1 = some (b, h') ∧ h'.chain b = h.chain 2 ∧
        (Cleared 1 (h.shapes 2).doubleSlots (h'.shapes b).doubleSlots ↔
          (h.shapes 2).usedAsPrototype = true ∨ ¬h.Diverts 1 (h.chainOf 2) (h.shapes 2).root) := by
  obtain ⟨h, -, -, hrun, -, hnext, hbits, -⟩ := exists_turnover
  exact ⟨h, hrun, withSlotBoxed_keeps_iff hrun (hnext ▸ by decide)
    (by rw [slotIsDouble, hbits]; decide)⟩

/-- The slot that was boxed at another object is boxed here too, when a second one is. -/
theorem withSlotBoxed_clears_more : ¬∀ (rt : Runtime) (es : List LayoutEvent) (h : Heap),
    Run (LayoutStep rt) .empty es h → ∀ s < h.nextShape, ∀ index,
      (h.shapes s).slotIsDouble index = true → ∃ b h', h.withSlotBoxed s index = some (b, h') ∧
        h'.chain b = h.chain s ∧
          Cleared index (h.shapes s).doubleSlots (h'.shapes b).doubleSlots := by
  intro hall
  obtain ⟨h, b, h', hrun, hbox, hnext, hbits, hbits'⟩ := exists_turnover
  obtain ⟨b₁, h₁, hbox₁, -, hcleared⟩ := hall _ _ h hrun 2 (hnext ▸ by decide) 1
    (by rw [slotIsDouble, hbits]; decide)
  rw [hbox] at hbox₁
  obtain ⟨rfl, rfl⟩ := hbox₁
  -- slot 0 was a double, and is none
  have hzero := hcleared 0
  rw [hbits, hbits'] at hzero
  exact absurd (hzero.mpr (by decide)) (by decide)

end Events

end Bronze.Objects
