import Bronze.Objects.Steps

/-!
# The transition tree

The edges that `addPropertyKey` leaves behind. A node is meant to have at most one boxed edge and
one double edge for a key and its attributes, so that two objects that add the same properties the
same way come to the same shape. The representation of a child past the summary word is boxed only
after the edge was looked for, and a store that asks for a double there finds none.
-/

namespace Bronze.Objects

open Heap Transition
open List Nat Function Shape

/-- What a transition is matched by besides its representation: a key and the attributes. -/
structure Attributed where
  key : PropertyKey
  enumerable : Bool
  accessor : Bool
  writable : Bool
  configurable : Bool
  deriving DecidableEq

/-- The property an edge adds. -/
def ShapeTransition.attributed (t : ShapeTransition) : Attributed :=
  { key := t.key, enumerable := t.enumerable, accessor := t.accessor, writable := t.writable,
    configurable := t.configurable }

namespace Heap

/-- The transitions of a node for a property. -/
def edges (h : Heap) (s : ShapeId) (p : Attributed) : List ShapeTransition :=
  (h.shapes s).transitions.filter fun t => t.attributed = p

/-- At most two transitions of a node for a property, one boxed and one double. -/
def Narrow (h : Heap) : Prop :=
  ∀ s < h.nextShape, ∀ p, (h.edges s p).length ≤ 2 ∧
    ∀ repr, (h.edges s p).countP (fun t => t.repr = repr) ≤ 1

end Heap

/-- A call of `addPropertyKey` on a node: the property, the representation asked for, whether the
double edge it asked for had generalized, and the node it came to. -/
structure Call where
  this : ShapeId
  property : Attributed
  desired : SlotRepr
  generalized : Bool
  next : ShapeId

/-- What two objects have in common that add a property the same way. -/
def Call.store (c : Call) : Attributed × SlotRepr × Bool := (c.property, c.desired, c.generalized)

/-- The shapes, and the calls that were made. -/
structure Tree where
  heap : Heap
  calls : List Call

/-- What the nodes come from and what is written to them: roots, the copies of a private chain,
adds, and the marks of `withSlotBoxed` and of the prototypes. -/
inductive Event where
  | root (prototype : Value) (inlineSlots : Nat) (usedAsPrototype : Bool)
  | copy (parent node : ShapeId) (repr : SlotRepr)
  | add (this : ShapeId) (property : Attributed) (desired : SlotRepr)
  | generalize (node : ShapeId)
  | mark (node : ShapeId)

namespace Tree

def empty : Tree where
  heap := .empty
  calls := []

/-- Whether the double edge a store asks for has generalized. -/
def generalized (h : Heap) (this : ShapeId) (p : Attributed) (desired : SlotRepr) : Bool :=
  desired = .double &&
    (edge (h.shapes this).transitions p.key p.enumerable p.accessor p.writable p.configurable
      .double).any fun t => (h.shapes t).reprGeneralized

inductive Step (t : Tree) : Event → Tree → Prop
  | root (prototype : Value) (inlineSlots : Nat) (usedAsPrototype : Bool) :
      Step t (.root prototype inlineSlots usedAsPrototype)
        { t with heap := (t.heap.allocShape (.rootWith t.heap.nextShape prototype
            (Bronze.Shape.clampInlineSlots inlineSlots) usedAsPrototype)).2 }
  | copy (parent node : ShapeId) (repr : SlotRepr) :
      Step t (.copy parent node repr)
        { t with heap := (t.heap.allocShape (.child parent (t.heap.shapes parent)
            (t.heap.shapes node).key (t.heap.shapes node).slotIndex (t.heap.shapes node).root
            (t.heap.shapes node).enumerable (t.heap.shapes node).accessor
            (t.heap.shapes node).writable (t.heap.shapes node).configurable repr)).2 }
  | add {this next : ShapeId} {p : Attributed} {desired : SlotRepr} {slot : Nat} {h : Heap} :
      this < t.heap.nextShape →
      t.heap.addPropertyKey this p.key p.enumerable p.accessor p.writable p.configurable desired =
        some (next, slot, h) →
      Step t (.add this p desired)
        { heap := h
          calls := { this, property := p, desired, next,
                     generalized := generalized t.heap this p desired } :: t.calls }
  | generalize (node : ShapeId) :
      Step t (.generalize node)
        { t with heap := t.heap.modifyShape node fun n => { n with reprGeneralized := true } }
  | mark (node : ShapeId) : Step t (.mark node) { t with heap := t.heap.mark node }

/-- The way of an object from a shape, by the calls that were made for it. -/
def Follows (t : Tree) (s : ShapeId) (store : Attributed × SlotRepr × Bool) (s' : ShapeId) : Prop :=
  ∃ c ∈ t.calls, c.this = s ∧ c.store = store ∧ c.next = s'

/-- Two objects that add the same properties the same way, from the same shape, come to the same
shape. -/
def Shared (t : Tree) : Prop :=
  ∀ root stores s s', Run t.Follows root stores s → Run t.Follows root stores s' → s = s'

end Tree

/-- A store does not ask for a double where the slot is past the summary word and the property has
an edge already. -/
def Event.Fits (h : Heap) : Event → Prop
  | .add this p desired =>
    desired = .double → p.accessor = false →
      (h.shapes this).nextSlotIndex 1 ≥ kSlotReprLimit → h.edges this p = []
  | _ => True

section Appending

variable {h h' h'' : Heap} {this next slot : ShapeId} {p : Attributed} {desired repr : SlotRepr}

/-- **What a step writes to the tree**: the nodes there were keep what they are, and have more
transitions, and a new node has none. -/
structure Appends (new : ShapeId → List ShapeTransition) (h h' : Heap) : Prop where
  le : h.nextShape ≤ h'.nextShape
  node : ∀ s < h.nextShape, SameNode (h.shapes s) (h'.shapes s)
  transitions : ∀ s < h.nextShape, (h'.shapes s).transitions = (h.shapes s).transitions ++ new s
  fresh : ∀ s, h.nextShape ≤ s → s < h'.nextShape → (h'.shapes s).transitions = []

/-- A step that appends nothing. -/
abbrev Quiet : Heap → Heap → Prop := Appends fun _ => []

theorem Quiet.refl (h : Heap) : Quiet h h where
  le := le_rfl
  node := fun _ _ => .refl _
  transitions := fun _ _ => (append_nil _).symm
  fresh := fun _ hge hlt => absurd hlt (not_lt.mpr hge)

variable {new new' : ShapeId → List ShapeTransition}

/-- What two steps append, where the second appends nothing to the nodes that the first made. -/
theorem Appends.trans (h₁ : Appends new h h') (h₂ : Appends new' h' h'')
    (hnew : ∀ s, h.nextShape ≤ s → new' s = []) : Appends (fun s => new s ++ new' s) h h'' where
  le := h₁.le.trans h₂.le
  node := fun s hs => (h₁.node s hs).trans (h₂.node s (hs.trans_le h₁.le))
  transitions := fun s hs => by
    simp [h₂.transitions s (hs.trans_le h₁.le), h₁.transitions s hs]
  fresh := fun s hge hlt => by
    rcases lt_or_ge s h'.nextShape with hs | hs
    · simp [h₂.transitions s hs, h₁.fresh s hge hs, hnew s hge]
    · exact h₂.fresh s hs hlt

theorem Appends.trans_quiet (h₁ : Appends new h h') (h₂ : Quiet h' h'') : Appends new h h'' := by
  simpa using h₁.trans h₂ fun _ _ => rfl

variable {ts : List ShapeTransition}

theorem Quiet.then (h₁ : Quiet h h') (hthis : this < h.nextShape)
    (h₂ : Appends (update (fun _ => []) this ts) h' h'') :
    Appends (update (fun _ => []) this ts) h h'' := by
  -- a new node is not the one that is written
  have hnew : ∀ s, h.nextShape ≤ s → update (fun _ => []) this ts s = [] :=
    fun s hge => update_of_ne (ne_of_gt (hthis.trans_le hge)) ..
  simpa using h₁.trans h₂ hnew

theorem allocShape_quiet {n : Shape} (hn : n.transitions = []) : Quiet h (h.allocShape n).2 where
  le := le_succ _
  node := fun s hs => by rw [shapes_allocShape_lt hs]; exact .refl _
  transitions := fun s hs => by simp [shapes_allocShape_lt hs]
  fresh := fun s hge hlt => by
    obtain rfl : s = h.nextShape := Nat.le_antisymm (Nat.lt_succ_iff.mp hlt) hge
    rw [shapes_allocShape_self, hn]

variable {s : ShapeId} {f : Shape → Shape}

/-- A write to a node that leaves its layout, of `ts` more transitions. -/
theorem modifyShape_appends
    (hnode : SameNode (h.shapes s) (f (h.shapes s)))
    (hts : (f (h.shapes s)).transitions = (h.shapes s).transitions ++ ts) :
    Appends (update (fun _ => []) s ts) h (h.modifyShape s f) where
  le := le_rfl
  node := fun u _ => modifyShape_cases (P := fun u n => SameNode (h.shapes u) n) hnode
    (fun u _ => .refl _) u
  transitions := fun u _ => by
    by_cases hu : u = s
    · subst hu
      simp [shapes_modifyShape_self, hts]
    · simp [shapes_modifyShape_ne hu, update_of_ne hu]
  fresh := fun _ hge hlt => absurd hlt (not_lt.mpr hge)

theorem modifyShape_quiet (hnode : SameNode (h.shapes s) (f (h.shapes s)))
    (hts : (f (h.shapes s)).transitions = (h.shapes s).transitions) :
    Quiet h (h.modifyShape s f) := by
  have ha : Appends (update (fun _ => []) s []) h (h.modifyShape s f) :=
    modifyShape_appends hnode (by simp [hts])
  rwa [update_eq_self_iff.mpr rfl] at ha

theorem generalize_quiet (s : ShapeId) :
    Quiet h (h.modifyShape s fun n => { n with reprGeneralized := true }) :=
  modifyShape_quiet ⟨rfl, rfl, rfl, rfl, rfl, rfl, rfl, rfl, rfl, rfl, rfl⟩ rfl

theorem mark_quiet (s : ShapeId) : Quiet h (h.mark s) :=
  modifyShape_quiet ⟨rfl, rfl, rfl, rfl, rfl, rfl, rfl, rfl, rfl, rfl, rfl⟩ rfl

theorem nextSlotIndex_same {n n' : Shape} (hn : SameNode n n') (width : Nat) :
    n'.nextSlotIndex width = n.nextSlotIndex width := by
  rw [nextSlotIndex, nextSlotIndex, slotEnd, slotEnd, hn.key,
    hn.slotIndex, hn.accessor, hn.inlineSlots]

/-- The edge found is the last of those of the property and the representation. -/
theorem edge_eq (h : Heap) (s : ShapeId) (p : Attributed) (repr : SlotRepr) :
    edge (h.shapes s).transitions p.key p.enumerable p.accessor p.writable p.configurable repr =
      ((h.edges s p).filter fun t => t.repr = repr).getLast?.map ShapeTransition.nextShape := by
  rw [edge, edges, filter_filter]
  congr 2
  refine filter_congr fun t _ => ?_
  obtain ⟨key, enumerable, accessor, writable, configurable⟩ := p
  rw [Bool.eq_iff_iff]
  simp only [ShapeTransition.attributed, Attributed.mk.injEq, Bool.and_eq_true, decide_eq_true_eq,
    Dictionary.matches_iff]
  tauto

theorem edge_none : edge (h.shapes this).transitions p.key p.enumerable p.accessor p.writable
    p.configurable repr = none ↔ ∀ t ∈ h.edges this p, t.repr ≠ repr := by
  rw [edge_eq]
  simp

theorem exists_of_edge (hedge : edge (h.shapes this).transitions p.key p.enumerable p.accessor
    p.writable p.configurable repr = some next) :
    ∃ t ∈ h.edges this p, t.repr = repr ∧ t.nextShape = next := by
  rw [edge_eq] at hedge
  obtain ⟨t, hlast, rfl⟩ := Option.map_eq_some_iff.mp hedge
  obtain ⟨hmem, hrepr⟩ := mem_filter.mp (mem_of_getLast? hlast)
  exact ⟨t, hmem, of_decide_eq_true hrepr, rfl⟩

/-- The representation `addPropertyKey` looks for an edge of. -/
def wanted (h : Heap) (this : ShapeId) (p : Attributed) (desired : SlotRepr) : SlotRepr :=
  h.wantedRepr (h.shapes this).transitions p.key p.enumerable p.accessor p.writable p.configurable
    desired

theorem wanted_eq : wanted h this p desired =
    if p.accessor ∨ Tree.generalized h this p desired then .boxed else desired := by
  rw [wanted, wantedRepr, Tree.generalized]
  by_cases ha : p.accessor = true
  · simp [ha]
  · cases desired <;> simp [ha]

/-- A store of a double to a data property that has no double edge wants one. -/
theorem wanted_double (haccessor : p.accessor = false)
    (hnone : ∀ t ∈ h.edges this p, t.repr ≠ .double) : wanted h this p .double = .double := by
  rw [wanted_eq, haccessor, Tree.generalized, edge_none.mpr hnone]
  rfl

def madeEdge (h : Heap) (this : ShapeId) (p : Attributed) (repr : SlotRepr) : ShapeTransition :=
  { key := p.key, nextShape := h.nextShape, enumerable := p.enumerable, accessor := p.accessor,
    writable := p.writable, configurable := p.configurable
    repr := if (h.shapes this).nextSlotIndex (slotWidth p.accessor) ≥ kSlotReprLimit then .boxed
      else repr }

theorem addChild_appends (p : Attributed) (repr : SlotRepr) (hthis : this < h.nextShape) :
    Appends (update (fun _ => []) this [madeEdge h this p repr]) h
      (h.addChild this p.key
        (h.newChild this p.key p.enumerable p.accessor p.writable p.configurable repr)).2 := by
  have hnew : Quiet h (h.allocShape
      (h.newChild this p.key p.enumerable p.accessor p.writable p.configurable repr)).2 :=
    allocShape_quiet rfl
  refine hnew.then hthis (modifyShape_appends (s := this)
    (f := fun n => { n with transitions := n.transitions ++ [madeEdge h this p repr] }) ?_ rfl)
  exact ⟨rfl, rfl, rfl, rfl, rfl, rfl, rfl, rfl, rfl, rfl, rfl⟩

/-- **What `addPropertyKey` does to the tree**: it takes an edge of the representation it wants, or
there is none and it makes one, which past the summary word is boxed. -/
theorem addPropertyKey_cases (hthis : this < h.nextShape)
    (hrun : h.addPropertyKey this p.key p.enumerable p.accessor p.writable p.configurable desired =
      some (next, slot, h')) :
    (Quiet h h' ∧ ∃ t ∈ h.edges this p, t.repr = wanted h this p desired ∧ t.nextShape = next) ∨
    (next = h.nextShape ∧ h'.nextShape = h.nextShape + 1 ∧
      (∀ t ∈ h.edges this p, t.repr ≠ wanted h this p desired) ∧
      Appends (update (fun _ => []) this [madeEdge h this p (wanted h this p desired)])
        h h') := by
  have htree : (h.shapes this).isDictionary = false := by
    cases hdict : (h.shapes this).isDictionary with
    | false => rfl
    | true => simp [addPropertyKey, hdict] at hrun
  have hwanted : h.wantedRepr (h.shapes this).transitions p.key p.enumerable p.accessor p.writable
      p.configurable desired = wanted h this p desired := rfl
  simp only [addPropertyKey, htree, hwanted] at hrun
  -- the mark that is taken along appends nothing
  have hmark : ∀ (h₁ : Heap) (s : ShapeId),
      Quiet h₁ (if (h.shapes this).usedAsPrototype then h₁.mark s else h₁) := by
    intro h₁ s
    split
    · exact mark_quiet s
    · exact Quiet.refl h₁
  cases hedge : edge (h.shapes this).transitions p.key p.enumerable p.accessor p.writable
      p.configurable (wanted h this p desired) with
  | some found =>
    rw [hedge] at hrun
    obtain ⟨rfl, -, rfl⟩ := hrun
    exact .inl ⟨hmark h found, exists_of_edge hedge⟩
  | none =>
    rw [hedge] at hrun
    by_cases hfull : slotsBefore ((h.shapes this).nextSlotIndex (slotWidth p.accessor))
        (h.shapes this).inlineSlots + (if p.accessor then 1 else 0) ≥ kDictionaryThreshold
    · rw [if_pos hfull] at hrun
      cases hrun
    · rw [if_neg hfull] at hrun
      obtain ⟨rfl, -, rfl⟩ := hrun
      have hmade := addChild_appends p (wanted h this p desired) hthis
      refine .inr ⟨rfl, ?_, edge_none.mp hedge, hmade.trans_quiet (hmark ..)⟩
      split <;> rfl

theorem Appends.edges (ha : Appends new h h') (hs : s < h.nextShape) (p : Attributed) :
    h'.edges s p = h.edges s p ++ (new s).filter fun t => t.attributed = p := by
  simp [ha.transitions s hs, Heap.edges]

theorem Appends.edges_fresh (ha : Appends new h h') (hge : h.nextShape ≤ s) (hlt : s < h'.nextShape)
    (p : Attributed) : h'.edges s p = [] := by
  simp [Heap.edges, ha.fresh s hge hlt]

theorem attributed_madeEdge : (madeEdge h this p repr).attributed = p := rfl

/-- Past the summary word, and for an accessor, the edge that is made is boxed. -/
theorem repr_madeEdge : (madeEdge h this p (wanted h this p desired)).repr =
    if (h.shapes this).nextSlotIndex 1 ≥ kSlotReprLimit then .boxed
    else wanted h this p desired := by
  rw [wanted_eq, madeEdge]
  by_cases ha : p.accessor = true
  · simp [ha]
  · rw [Bool.not_eq_true] at ha
    rw [ha]
    rfl

end Appending

section Invariants

variable {h h' : Heap} {t t' : Tree} {e : Event}

/-- A double edge is one of a data property whose slot the summary word has a bit for. -/
def Doubles (h : Heap) : Prop :=
  ∀ s < h.nextShape, ∀ t ∈ (h.shapes s).transitions, t.repr = .double →
    t.accessor = false ∧ (h.shapes s).nextSlotIndex 1 < kSlotReprLimit

/-- The representation of the edge a call takes. -/
def Call.settled (h : Heap) (c : Call) : SlotRepr :=
  if (h.shapes c.this).nextSlotIndex 1 ≥ kSlotReprLimit then .boxed
  else if c.property.accessor ∨ c.generalized then .boxed
  else c.desired

/-- A call that was made has left its edge behind. -/
def Call.Taken (h : Heap) (c : Call) : Prop :=
  c.this < h.nextShape ∧
    ∃ t ∈ h.edges c.this c.property, t.repr = c.settled h ∧ t.nextShape = c.next

/-- What holds of the tree in every run. -/
structure Tree.Inv (t : Tree) : Prop where
  doubles : Doubles t.heap
  taken : ∀ c ∈ t.calls, c.Taken t.heap

variable {new : ShapeId → List ShapeTransition}

theorem Doubles.appends (hd : Doubles h)
    (ha : Appends new h h') (hnew : ∀ s < h.nextShape, ∀ t ∈ new s, t.repr = .double →
      t.accessor = false ∧ (h.shapes s).nextSlotIndex 1 < kSlotReprLimit) : Doubles h' := by
  intro s hs t ht hrepr
  rcases lt_or_ge s h.nextShape with hlt | hge
  · rw [nextSlotIndex_same (ha.node s hlt)]
    rw [ha.transitions s hlt] at ht
    rcases mem_append.mp ht with ht | ht
    · exact hd s hlt t ht hrepr
    · exact hnew s hlt t ht hrepr
  · rw [ha.fresh s hge hs] at ht
    cases ht

theorem Call.Taken.appends {c : Call} (hc : c.Taken h) (ha : Appends new h h') : c.Taken h' := by
  obtain ⟨hlt, t, ht, hrepr, hnext⟩ := hc
  refine ⟨hlt.trans_le ha.le, t, ?_, ?_, hnext⟩
  · rw [ha.edges hlt]
    exact mem_append_left _ ht
  · rw [hrepr, Call.settled, Call.settled, nextSlotIndex_same (ha.node _ hlt)]

theorem Tree.Inv.quiet (hi : t.Inv) (hq : Quiet t.heap h) : Tree.Inv { t with heap := h } where
  doubles := hi.doubles.appends hq nofun
  taken := fun c hc => (hi.taken c hc).appends hq

theorem Doubles.settled {this : ShapeId} {p : Attributed} {desired : SlotRepr}
    {u : ShapeTransition} (hd : Doubles h) (hthis : this < h.nextShape)
    (hu : u ∈ h.edges this p) (hrepr : u.repr = wanted h this p desired) :
    u.repr = if (h.shapes this).nextSlotIndex 1 ≥ kSlotReprLimit then .boxed
      else wanted h this p desired := by
  split
  next hge =>
    cases hdouble : u.repr with
    | boxed => rfl
    | double =>
      obtain ⟨-, hlt⟩ := hd this hthis u (mem_filter.mp hu).1 hdouble
      exact absurd hge (not_le.mpr hlt)
  next => exact hrepr

/-- **The invariant of the tree is kept by every step.** -/
theorem Tree.Step.inv (hs : t.Step e t') (hi : t.Inv) : t'.Inv := by
  cases hs with
  | root prototype inlineSlots usedAsPrototype => exact hi.quiet (allocShape_quiet rfl)
  | copy parent node repr => exact hi.quiet (allocShape_quiet rfl)
  | generalize node => exact hi.quiet (generalize_quiet node)
  | mark node => exact hi.quiet (mark_quiet node)
  | @add this next p desired slot h hthis hrun =>
    rcases addPropertyKey_cases hthis hrun with ⟨hq, u, hu, hrepr, hnext⟩ |
        ⟨rfl, -, hnone, ha⟩
    · refine ⟨hi.doubles.appends hq nofun, fun c hc => ?_⟩
      rcases mem_cons.mp hc with rfl | hc
      · refine Call.Taken.appends ⟨hthis, u, hu, ?_, hnext⟩ hq
        rw [hi.doubles.settled hthis hu hrepr, wanted_eq]
        rfl
      · exact (hi.taken c hc).appends hq
    · refine ⟨hi.doubles.appends ha fun s _ u hu hdouble => ?_, fun c hc => ?_⟩
      · -- only the edge that is made is new, and past the limit it is boxed
        by_cases hs : s = this
        · subst hs
          rw [update_self, mem_singleton] at hu
          rw [hu, repr_madeEdge] at hdouble
          split at hdouble
          · cases hdouble
          next hlt =>
            rw [wanted_eq] at hdouble
            split at hdouble
            · cases hdouble
            next hplain =>
              rw [hu]
              exact ⟨Bool.eq_false_iff.mpr fun ha => hplain (.inl ha), Nat.lt_of_not_le hlt⟩
        · rw [update_of_ne hs] at hu
          cases hu
      · rcases mem_cons.mp hc with rfl | hc
        · refine ⟨hthis.trans_le ha.le, madeEdge t.heap this p (wanted t.heap this p desired),
            ?_, ?_, rfl⟩
          · rw [ha.edges hthis]
            apply mem_append_right
            simp [attributed_madeEdge]
          · rw [repr_madeEdge, Call.settled, nextSlotIndex_same (ha.node _ hthis), wanted_eq]
        · exact (hi.taken c hc).appends ha

end Invariants

/-! ## Narrow trees -/

section Narrowness

variable {h h' : Heap} {t t' : Tree} {e : Event} {new : ShapeId → List ShapeTransition}

theorem length_eq_countP (ts : List ShapeTransition) :
    ts.length = ts.countP (fun t => t.repr = .boxed) + ts.countP (fun t => t.repr = .double) := by
  rw [length_eq_countP_add_countP fun t => decide (t.repr = .boxed)]
  congr 1
  refine countP_congr fun t _ => ?_
  cases t.repr <;> simp

theorem narrow_iff : h.Narrow ↔ ∀ s < h.nextShape, ∀ p repr,
    (h.edges s p).countP (fun t => t.repr = repr) ≤ 1 := by
  refine ⟨fun hn s hs p => (hn s hs p).2, fun hn s hs p => ⟨?_, hn s hs p⟩⟩
  rw [length_eq_countP]
  exact Nat.add_le_add (hn s hs p .boxed) (hn s hs p .double)

theorem Appends.narrow_of (ha : Appends new h h') (hn : h'.Narrow) : h.Narrow := by
  rw [narrow_iff] at hn ⊢
  intro s hs p repr
  have hcount := hn s (hs.trans_le ha.le) p repr
  rw [ha.edges hs, countP_append] at hcount
  omega

theorem Quiet.narrow (hq : Quiet h h') (hn : h.Narrow) : h'.Narrow := by
  rw [narrow_iff] at hn ⊢
  intro s hs p repr
  rcases lt_or_ge s h.nextShape with hlt | hge
  · rw [hq.edges hlt, filter_nil, append_nil]
    exact hn s hlt p repr
  · rw [hq.edges_fresh hge hs]
    exact zero_le _

theorem Appends.narrow {this : ShapeId} {u : ShapeTransition} (hn : h.Narrow)
    (ha : Appends (update (fun _ => []) this [u]) h h')
    (hnone : ∀ t ∈ h.edges this u.attributed, t.repr ≠ u.repr) : h'.Narrow := by
  rw [narrow_iff] at hn ⊢
  intro s hs p repr
  rcases lt_or_ge s h.nextShape with hlt | hge
  · rw [ha.edges hlt, countP_append]
    by_cases hthis : s = this
    · subst hthis
      rw [update_self]
      by_cases hsame : u.attributed = p ∧ u.repr = repr
      · obtain ⟨rfl, rfl⟩ := hsame
        have hzero : (h.edges s u.attributed).countP (fun t => t.repr = u.repr) = 0 :=
          countP_eq_zero.mpr fun t ht => by simpa using hnone t ht
        rw [hzero, zero_add]
        exact countP_le_length.trans (length_filter_le ..)
      · -- the edge is not counted
        have hzero :
            ([u].filter fun t => t.attributed = p).countP (fun t => t.repr = repr) = 0 := by
          rw [countP_eq_zero]
          intro t ht
          obtain ⟨hmem, hp⟩ := mem_filter.mp ht
          rw [mem_singleton] at hmem
          subst hmem
          simpa using fun hrepr => hsame ⟨of_decide_eq_true hp, hrepr⟩
        rw [hzero]
        exact hn s hlt p repr
    · rw [update_of_ne hthis]
      exact hn s hlt p repr
  · rw [ha.edges_fresh hge hs]
    exact zero_le _

/-- **A step that fits keeps the tree narrow.** -/
theorem Tree.Step.narrow (hs : t.Step e t') (hn : t.heap.Narrow) (hf : e.Fits t.heap) :
    t'.heap.Narrow := by
  cases hs with
  | root prototype inlineSlots usedAsPrototype => exact (allocShape_quiet rfl).narrow hn
  | copy parent node repr => exact (allocShape_quiet rfl).narrow hn
  | generalize node => exact (generalize_quiet node).narrow hn
  | mark node => exact (mark_quiet node).narrow hn
  | @add this next p desired slot h hthis hrun =>
    rcases addPropertyKey_cases hthis hrun with ⟨hq, -⟩ | ⟨rfl, -, hnone, ha⟩
    · exact hq.narrow hn
    · refine ha.narrow hn fun u hu => ?_
      rw [attributed_madeEdge] at hu
      rw [repr_madeEdge]
      split
      next hge =>
        -- a double that is wanted past the limit is the first edge of the property
        cases hwanted : wanted t.heap this p desired with
        | boxed => exact hwanted ▸ hnone u hu
        | double =>
          rw [wanted_eq] at hwanted
          split at hwanted
          · cases hwanted
          next hplain =>
            rw [hf hwanted (by simpa using fun ha => hplain (.inl ha)) hge] at hu
            cases hu
      next => exact hnone u hu

theorem Tree.Step.narrow_of (hs : t.Step e t') (hn : t'.heap.Narrow) : t.heap.Narrow := by
  cases hs with
  | root prototype inlineSlots usedAsPrototype => exact (allocShape_quiet rfl).narrow_of hn
  | copy parent node repr => exact (allocShape_quiet rfl).narrow_of hn
  | generalize node => exact (generalize_quiet node).narrow_of hn
  | mark node => exact (mark_quiet node).narrow_of hn
  | add hthis hrun =>
    rcases addPropertyKey_cases hthis hrun with ⟨hq, -⟩ | ⟨-, -, -, ha⟩
    · exact hq.narrow_of hn
    · exact ha.narrow_of hn

/-- **A step that does not fit makes a second boxed edge.** -/
theorem Tree.Step.fits (hs : t.Step e t') (hi : t.Inv) (hn : t'.heap.Narrow) : e.Fits t.heap := by
  cases hs with
  | root prototype inlineSlots usedAsPrototype => trivial
  | copy parent node repr => trivial
  | generalize node => trivial
  | mark node => trivial
  | @add this next p desired slot h hthis hrun =>
    intro hdesired haccessor hge
    subst hdesired
    -- no edge past the limit is a double, so none is found
    have hboxed : ∀ u ∈ t.heap.edges this p, u.repr = .boxed := by
      intro u hu
      cases hrepr : u.repr with
      | boxed => rfl
      | double =>
        obtain ⟨-, hlt⟩ := hi.doubles this hthis u (mem_filter.mp hu).1 hrepr
        exact absurd hge (not_le.mpr hlt)
    have hwanted : wanted t.heap this p .double = .double := by
      apply wanted_double haccessor
      intro u hu
      rw [hboxed u hu]
      nofun
    by_contra hsome
    obtain ⟨u, hu⟩ := exists_mem_of_ne_nil _ hsome
    rcases addPropertyKey_cases hthis hrun with ⟨-, v, hv, hrepr, -⟩ | ⟨rfl, -, -, ha⟩
    · rw [hwanted, hboxed v hv] at hrepr
      cases hrepr
    · have hcount := (narrow_iff.mp hn) this (hthis.trans_le ha.le) p .boxed
      rw [ha.edges hthis, update_self, countP_append, countP_eq_length.mpr
        (by simpa using hboxed)] at hcount
      have hpos := length_pos_of_mem hu
      have hmade : ([madeEdge t.heap this p (wanted t.heap this p .double)].filter
          fun t => t.attributed = p).countP (fun t => t.repr = .boxed) = 1 := by
        rw [filter_cons_of_pos (by simp [attributed_madeEdge]), filter_nil,
          countP_singleton, repr_madeEdge, if_pos hge]
        rfl
      omega

theorem Call.Taken.next_eq {c c' : Call} (hn : h.Narrow) (hc : c.Taken h) (hc' : c'.Taken h)
    (hthis : c.this = c'.this) (hstore : c.store = c'.store) : c.next = c'.next := by
  obtain ⟨hlt, u, hu, hrepr, hnext⟩ := hc
  obtain ⟨-, u', hu', hrepr', hnext'⟩ := hc'
  simp only [Call.store, Prod.mk.injEq] at hstore
  obtain ⟨hproperty, hdesired, hgeneralized⟩ := hstore
  have hsettled : c.settled h = c'.settled h := by
    rw [Call.settled, Call.settled, hthis, hproperty, hdesired, hgeneralized]
  rw [← hproperty, ← hthis] at hu'
  rw [← hsettled] at hrepr'
  -- both are the one edge of the representation
  have hone := (hn c.this hlt c.property).2 (c.settled h)
  rw [countP_eq_length_filter] at hone
  have hmem : u ∈ (h.edges c.this c.property).filter fun t => t.repr = c.settled h :=
    mem_filter.mpr ⟨hu, decide_eq_true hrepr⟩
  have hmem' : u' ∈ (h.edges c.this c.property).filter fun t => t.repr = c.settled h :=
    mem_filter.mpr ⟨hu', decide_eq_true hrepr'⟩
  obtain ⟨v, hv⟩ := length_eq_one_iff.mp (le_antisymm hone (length_pos_of_mem hmem))
  rw [hv, mem_singleton] at hmem hmem'
  rw [← hnext, ← hnext', hmem, hmem']

/-- **In a narrow tree the way of an object is shared.** -/
theorem Tree.Inv.shared (hi : t.Inv) (hn : t.heap.Narrow) : t.Shared := by
  intro root stores s s' hs hs'
  refine hs.functional ?_ hs'
  rintro s₁ store s₂ s₃ ⟨c, hc, rfl, rfl, rfl⟩ ⟨c', hc', hthis, hstore, rfl⟩
  exact (hi.taken c hc).next_eq hn (hi.taken c' hc') hthis.symm hstore.symm

end Narrowness

section Runs

variable {t t' : Tree} {es : List Event}

theorem empty_inv : Tree.empty.Inv where
  doubles := fun s hs => absurd hs (not_lt_zero s)
  taken := nofun

theorem empty_narrow : Tree.empty.heap.Narrow := fun s hs => absurd hs (not_lt_zero s)

theorem run_inv (hrun : Run Tree.Step .empty es t) : t.Inv :=
  hrun.invariant Tree.Inv empty_inv fun _ _ _ hi hs => hs.inv hi

/-- A run whose stores all fit. -/
def FittingRun : List Event → Tree → Prop :=
  Run (fun t e t' => Tree.Step t e t' ∧ e.Fits t.heap) .empty

theorem FittingRun.run (hrun : FittingRun es t) : Run Tree.Step .empty es t :=
  hrun.mono fun _ _ _ hs => hs.1

theorem FittingRun.narrow (hrun : FittingRun es t) : t.heap.Narrow :=
  hrun.invariant (fun t => t.heap.Narrow) empty_narrow fun _ _ _ hn hs => hs.1.narrow hn hs.2

theorem fitting_of_narrow (hrun : Run Tree.Step .empty es t) (hn : t.heap.Narrow) :
    FittingRun es t := by
  induction hrun with
  | nil => exact .nil
  | snoc hrun hs ih => exact .snoc (ih (hs.narrow_of hn)) ⟨hs, hs.fits (run_inv hrun) hn⟩

/-- **The sharing of the tree.** After a run a node has at most one boxed and one double edge for a
property, and two objects that added the same properties the same way are at the same shape, if and
only if the stores of the run all fit. -/
theorem narrow_and_shared_iff (hrun : Run Tree.Step .empty es t) :
    (t.heap.Narrow ∧ t.Shared) ↔ FittingRun es t := by
  refine ⟨fun h => fitting_of_narrow hrun h.1, fun hfit => ?_⟩
  exact ⟨hfit.narrow, (run_inv hrun).shared hfit.narrow⟩

/-! ## A store past the summary word -/

/-- An enumerable, writable, configurable data property. -/
def plain (i : Nat) : Attributed where
  key := .symbol (UInt64.ofNat i)
  enumerable := true
  accessor := false
  writable := true
  configurable := true

/-- A root, and `n` properties added to an object at it. -/
def spine (n : Nat) : List Event :=
  .root .undefined 16 false :: (range n).map fun i => .add i (plain i) .boxed

/-- The node the object is at then. -/
structure Tip (h : Heap) (n : Nat) : Prop where
  nextShape : h.nextShape = n + 1
  transitions : (h.shapes n).transitions = []
  tree : (h.shapes n).isDictionary = false
  unmarked : (h.shapes n).usedAsPrototype = false
  slotEnd : (h.shapes n).slotEnd = n
  inlineSlots : (h.shapes n).inlineSlots = 16

/-- The inline slots are all of those before the overflow block, so the slots are in order. -/
theorem nextSlotIndex_tip {n : Shape} (hinline : n.inlineSlots = 16) :
    n.nextSlotIndex 1 = n.slotEnd := by
  rw [nextSlotIndex, placeSlot, kOverflowSlot, if_neg (by omega)]

variable {h : Heap} {this : ShapeId}

/-- Where there is no edge of the representation that is wanted, a child is made. -/
theorem addPropertyKey_make (i : Nat) (desired : SlotRepr)
    (htree : (h.shapes this).isDictionary = false)
    (hunmarked : (h.shapes this).usedAsPrototype = false)
    (hinline : (h.shapes this).inlineSlots = 16) (hroom : (h.shapes this).slotEnd < 1000)
    (hnone : ∀ t ∈ h.edges this (plain i), t.repr ≠ wanted h this (plain i) desired) :
    ∃ slot, h.addPropertyKey this (plain i).key (plain i).enumerable (plain i).accessor
        (plain i).writable (plain i).configurable desired =
      some (h.nextShape, slot, (h.addChild this (plain i).key (h.newChild this (plain i).key
        (plain i).enumerable (plain i).accessor (plain i).writable (plain i).configurable
        (wanted h this (plain i) desired))).2) := by
  have hwanted : h.wantedRepr (h.shapes this).transitions (plain i).key (plain i).enumerable
      (plain i).accessor (plain i).writable (plain i).configurable desired =
    wanted h this (plain i) desired := rfl
  have hslot : slotsBefore ((h.shapes this).nextSlotIndex (slotWidth (plain i).accessor))
      (h.shapes this).inlineSlots + (if (plain i).accessor then 1 else 0) <
        kDictionaryThreshold := by
    change slotsBefore ((h.shapes this).nextSlotIndex 1) _ + 0 < _
    rw [nextSlotIndex_tip hinline, slotsBefore, kDictionaryThreshold]
    split <;> omega
  simp only [addPropertyKey, htree, hwanted, edge_none.mpr hnone, hunmarked,
    if_neg (not_le.mpr hslot)]
  exact ⟨_, rfl⟩

theorem addChild_snd (h : Heap) (this : ShapeId) (key : PropertyKey) (c : Shape) :
    (h.addChild this key c).2 = (h.allocShape c).2.modifyShape this fun n =>
      { n with transitions := n.transitions ++ [{
          key := key, nextShape := h.nextShape, enumerable := c.enumerable, accessor := c.accessor,
          writable := c.writable, configurable := c.configurable, repr := c.repr }] } := rfl

theorem shapes_addChild_new {key : PropertyKey} {c : Shape} (hthis : this < h.nextShape) :
    (h.addChild this key c).2.shapes h.nextShape = c := by
  rw [addChild_snd, shapes_modifyShape_ne (ne_of_gt hthis), shapes_allocShape_self]

theorem shapes_addChild_self (p : Attributed) (repr : SlotRepr) (hthis : this < h.nextShape) :
    (h.addChild this p.key (h.newChild this p.key p.enumerable p.accessor p.writable
        p.configurable repr)).2.shapes this =
      { h.shapes this with
        transitions := (h.shapes this).transitions ++ [madeEdge h this p repr] } := by
  rw [addChild_snd, shapes_modifyShape_self, shapes_allocShape_lt hthis]
  rfl

theorem Tip.step {n : Nat} (ht : Tip t.heap n) (hn : n < 1000) :
    ∃ t', t.Step (.add n (plain n) .boxed) t' ∧ Tip t'.heap (n + 1) := by
  have hlt : n < t.heap.nextShape := ht.nextShape ▸ lt_succ_self n
  obtain ⟨slot, hrun⟩ := addPropertyKey_make n .boxed ht.tree ht.unmarked
    ht.inlineSlots (ht.slotEnd.trans_lt hn) (by rw [edges, ht.transitions]; nofun)
  refine ⟨_, .add hlt hrun, ?_, ?_, ?_, ?_, ?_, ?_⟩
  · exact congrArg (· + 1) ht.nextShape
  all_goals rw [← ht.nextShape, shapes_addChild_new hlt]
  · rfl
  · rfl
  · rfl
  · change (t.heap.shapes n).nextSlotIndex 1 + 1 = t.heap.nextShape
    rw [nextSlotIndex_tip ht.inlineSlots, ht.slotEnd, ht.nextShape]
  · exact ht.inlineSlots

theorem exists_spine {n : Nat} (hn : n ≤ 1000) : ∃ t, FittingRun (spine n) t ∧ Tip t.heap n := by
  induction n with
  | zero => exact ⟨_, .snoc .nil ⟨.root .., trivial⟩, ⟨rfl, rfl, rfl, rfl, rfl, rfl⟩⟩
  | succ n ih =>
    obtain ⟨t, hrun, ht⟩ := ih (le_of_succ_le hn)
    obtain ⟨t', hstep, ht'⟩ := ht.step hn
    refine ⟨t', ?_, ht'⟩
    rw [spine, range_succ, map_append]
    exact .snoc hrun ⟨hstep, nofun⟩

/-- A spine of boxed stores is shared, however many properties it has. -/
theorem narrow_and_shared_spine :
    ∃ t, Run Tree.Step .empty (spine 100) t ∧ t.heap.Narrow ∧ t.Shared := by
  obtain ⟨t, hrun, -⟩ := exists_spine (n := 100) (by decide)
  exact ⟨t, hrun.run, (narrow_and_shared_iff hrun.run).mpr hrun⟩

theorem Tree.step_double (i : Nat) (hthis : this < t.heap.nextShape)
    (htree : (t.heap.shapes this).isDictionary = false)
    (hunmarked : (t.heap.shapes this).usedAsPrototype = false)
    (hinline : (t.heap.shapes this).inlineSlots = 16) (hroom : (t.heap.shapes this).slotEnd < 1000)
    (hnone : ∀ u ∈ t.heap.edges this (plain i), u.repr ≠ .double) :
    ∃ t', t.Step (.add this (plain i) .double) t' ∧
      t'.calls = { this, property := plain i, desired := .double, generalized := false,
                   next := t.heap.nextShape } :: t.calls ∧
      t'.heap.nextShape = t.heap.nextShape + 1 ∧
      t'.heap.shapes this = { t.heap.shapes this with
        transitions := (t.heap.shapes this).transitions ++
          [madeEdge t.heap this (plain i) (wanted t.heap this (plain i) .double)] } := by
  obtain ⟨slot, hrun⟩ := addPropertyKey_make i .double htree hunmarked hinline
    hroom (by rwa [wanted_double rfl hnone])
  refine ⟨_, .add hthis hrun, ?_, rfl, shapes_addChild_self (plain i) _ hthis⟩
  have hgeneralized : Tree.generalized t.heap this (plain i) .double = false := by
    rw [Tree.generalized, edge_none.mpr hnone]
    rfl
  rw [hgeneralized]

/-- Two objects that both store a number to a property past the summary word. -/
def twoStores : List Event :=
  spine 64 ++ [.add 64 (plain 64) .double] ++ [.add 64 (plain 64) .double]

/-- The two stores make two boxed edges, and the objects are at different shapes. -/
theorem duplicate_edge : ∃ t, Run Tree.Step .empty twoStores t ∧ ¬t.heap.Narrow ∧ ¬t.Shared := by
  obtain ⟨t, hrun, ht⟩ := exists_spine (n := 64) (by decide)
  have hroom : (t.heap.shapes 64).slotEnd < 1000 := ht.slotEnd.trans_lt (by decide)
  have hpast : (t.heap.shapes 64).nextSlotIndex 1 ≥ kSlotReprLimit := by
    rw [nextSlotIndex_tip ht.inlineSlots, ht.slotEnd, kSlotReprLimit]
  obtain ⟨t₁, hfirst, hcalls, hnext, hself⟩ := Tree.step_double 64
    (ht.nextShape ▸ lt_succ_self 64) ht.tree ht.unmarked ht.inlineSlots hroom
    (by rw [edges, ht.transitions]; nofun)
  rw [ht.transitions] at hself
  have hmade : t₁.heap.edges 64 (plain 64) =
      [madeEdge t.heap 64 (plain 64) (wanted t.heap 64 (plain 64) .double)] := by
    rw [edges, hself]
    exact filter_cons_of_pos (by simp [attributed_madeEdge])
  -- the edge of the first store is boxed, so the second store finds no double edge
  obtain ⟨t₂, hsecond, hcalls', -, -⟩ := Tree.step_double 64
    (show 64 < t₁.heap.nextShape by rw [hnext, ht.nextShape]; decide) (by rw [hself]; exact ht.tree)
    (by rw [hself]; exact ht.unmarked) (by rw [hself]; exact ht.inlineSlots)
    (by rw [hself]; exact hroom) (by
      intro u hu
      rw [hmade, mem_singleton] at hu
      rw [hu, repr_madeEdge, if_pos hpast]
      nofun)
  have hone := hrun.run.snoc hfirst
  refine ⟨t₂, hone.snoc hsecond, fun hn => ?_, fun hshared => ?_⟩
  · have hempty := hsecond.fits (run_inv hone) hn rfl rfl (by rw [hself]; exact hpast)
    rw [hmade] at hempty
    cases hempty
  · -- the two calls say the same of the store, and came to different nodes
    rw [ht.nextShape] at hcalls hnext
    rw [hnext, hcalls] at hcalls'
    have hsame := hshared 64 [(plain 64, .double, false)] 65 66
      (.snoc .nil ⟨_, hcalls' ▸ mem_cons_of_mem _ mem_cons_self, rfl, rfl, rfl⟩)
      (.snoc .nil ⟨_, hcalls' ▸ mem_cons_self, rfl, rfl, rfl⟩)
    cases hsame

end Runs

end Bronze.Objects
