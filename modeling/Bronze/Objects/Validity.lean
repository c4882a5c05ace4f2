import Bronze.Objects.Operations

/-!
# What an entry stands for

A positive entry says at which depth above a shape its key is, and where there; a negative one that
the key is nowhere up to the end of the chain. Both speak of the shape and not of an object at it.
While the epoch of the entry is the heap's, every step keeps what it says; at depth 0 it is kept
for good.
-/

namespace Bronze.Objects

open Heap
open Nat Option Bool CachedShape

namespace InlineCache

section Bits

variable {s slot depth epoch : Nat}

variable (e : InlineCache)

theorem realDepth_eq : e.realDepth = e.cachedDepth % 2 ^ 29 :=
  and_two_pow_sub_one_eq_mod e.cachedDepth 29

theorem isAccessor_eq : e.isAccessor = e.cachedDepth.testBit 31 := by
  rw [isAccessor, accessorFlag, show 0x80000000 = 2 ^ 31 from rfl, and_two_pow]
  cases e.cachedDepth.testBit 31 <;> rfl

theorem isAbsent_eq : e.isAbsent = e.cachedDepth.testBit 30 := by
  rw [isAbsent, absentFlag, show 0x40000000 = 2 ^ 30 from rfl, and_two_pow]
  cases e.cachedDepth.testBit 30 <;> rfl

section

variable (h : depth ≤ kMaxPrototypeDepth)

include h

theorem depth_lt : depth < 2 ^ 29 :=
  h.trans_lt (by decide)

theorem realDepth_fill : (fill s slot depth epoch).realDepth = depth :=
  (realDepth_eq _).trans (mod_eq_of_lt (depth_lt h))

theorem isAccessor_fill : (fill s slot depth epoch).isAccessor = false :=
  (isAccessor_eq _).trans (testBit_lt_two_pow ((depth_lt h).trans (by decide)))

theorem isAbsent_fill : (fill s slot depth epoch).isAbsent = false :=
  (isAbsent_eq _).trans (testBit_lt_two_pow ((depth_lt h).trans (by decide)))

theorem realDepth_fillAccessor : (fillAccessor s slot depth epoch).realDepth = depth := by
  refine (realDepth_eq _).trans ?_
  rw [fillAccessor, or_mod_two_pow, mod_eq_of_lt (depth_lt h)]
  exact or_zero depth

end

theorem isAccessor_fillAccessor : (fillAccessor s slot depth epoch).isAccessor = true := by
  rw [isAccessor_eq, fillAccessor, testBit_or]
  exact or_true _

theorem isAbsent_fillAccessor (h : depth ≤ kMaxPrototypeDepth) :
    (fillAccessor s slot depth epoch).isAbsent = false := by
  rw [isAbsent_eq, fillAccessor, testBit_or, testBit_lt_two_pow ((depth_lt h).trans (by decide))]
  rfl

theorem bits_fillForSet (s slot : Nat) (doubleSlot : Bool) (epoch : Nat) :
    (fillForSet s slot doubleSlot epoch).realDepth = 0 ∧
      (fillForSet s slot doubleSlot epoch).isAccessor = false ∧
      (fillForSet s slot doubleSlot epoch).isAbsent = false := by
  rw [realDepth_eq, isAccessor_eq, isAbsent_eq, fillForSet]
  dsimp only
  cases doubleSlot <;> decide

theorem bits_fillAbsent (s epoch : Nat) :
    (fillAbsent s epoch).realDepth = 0 ∧ (fillAbsent s epoch).isAbsent = true := by
  rw [realDepth_eq, isAbsent_eq, fillAbsent]
  dsimp only
  decide

end Bits

end InlineCache

section Chains

variable {rt : Runtime} {h h' : Heap} {name : PropertyKey} {place : Nat × Bool}

namespace Heap

/-- The key is at this depth above the shape, and nowhere below. -/
def HeldAt (h : Heap) (name : PropertyKey) (place : Nat × Bool) : Nat → ShapeId → Prop
  | 0, s => h.own s name = some place
  | depth + 1, s =>
    h.own s name = none ∧ ∃ link t, h.prototypeValue s = .object link ∧ h.shapeOf link = some t ∧
      h.HeldAt name place depth t

/-- The key is nowhere up to the end of the chain, which is within a number of links. -/
def AbsentFrom (h : Heap) (name : PropertyKey) : Nat → ShapeId → Prop
  | 0, _ => False
  | fuel + 1, s =>
    h.own s name = none ∧ ∀ link, h.prototypeValue s = .object link →
      ∃ t, h.shapeOf link = some t ∧ h.AbsentFrom name fuel t

end Heap

variable {depth s fuel base : Nat} {a : Address}

theorem heldAt_links (hw : WellFormed rt h) (hl : Linked h) (hlinks : Links h h') {s' : Nat}
    (hs : s < h.nextShape) (hown : h'.own s' = h.own s)
    (hproto : h'.prototypeValue s' = h.prototypeValue s) (hheld : h.HeldAt name place depth s) :
    h'.HeldAt name place depth s' := by
  induction depth generalizing s s' with
  | zero => exact (congrFun hown name).trans hheld
  | succ depth ih =>
    obtain ⟨hnone, link, t, hlink, ht, hrest⟩ := hheld
    obtain ⟨t', ht', hown', hproto'⟩ := hlinks.link link t ht (hw.link_marked hl hs hlink ht)
    exact ⟨(congrFun hown name).trans hnone, link, t', hproto.trans hlink, ht',
      ih (hw.objects link t ht).1 hown' hproto' hrest⟩

theorem absentFrom_links (hw : WellFormed rt h) (hl : Linked h) (hlinks : Links h h') {s' : Nat}
    (hs : s < h.nextShape) (hown : h'.own s' = h.own s)
    (hproto : h'.prototypeValue s' = h.prototypeValue s) (habsent : h.AbsentFrom name fuel s) :
    h'.AbsentFrom name fuel s' := by
  induction fuel generalizing s s' with
  | zero => exact habsent.elim
  | succ fuel ih =>
    obtain ⟨hnone, hrest⟩ := habsent
    refine ⟨(congrFun hown name).trans hnone, fun link hlink => ?_⟩
    rw [hproto] at hlink
    obtain ⟨t, ht, hrest⟩ := hrest link hlink
    obtain ⟨t', ht', hown', hproto'⟩ := hlinks.link link t ht (hw.link_marked hl hs hlink ht)
    exact ⟨t', ht', ih (hw.objects link t ht).1 hown' hproto' hrest⟩

/-! ## Walks -/

/-- A walk finds what the chain holds, and the cached walk comes to the same holder. -/
theorem walk_of_held (hw : WellFormed rt h) (base : Nat) (hshape : h.shapeOf a = some s)
    (hfuel : depth < fuel) (hheld : h.HeldAt name place depth s) :
    ∃ holder info, h.walk name fuel base a = some (.found holder (base + depth) info) ∧
      (info.slot, info.accessor) = place ∧
      ∀ p, h.cachedProtoHolder depth a = .holder p → p = holder := by
  induction depth generalizing fuel base a s with
  | zero =>
    obtain ⟨fuel, rfl⟩ := exists_eq_succ_of_ne_zero (ne_of_gt hfuel)
    obtain ⟨found, hlookup, hown⟩ := exists_lookup name hw (hw.objects a s hshape).1
    rw [HeldAt, hown] at hheld
    obtain ⟨info, rfl, hplace⟩ := map_eq_some_iff.mp hheld
    refine ⟨a, info, ?_, hplace, fun p hp => (ProtoHolder.holder.inj hp).symm⟩
    simp [walk, hshape, hlookup]
  | succ depth ih =>
    obtain ⟨fuel, rfl⟩ := exists_eq_succ_of_ne_zero (ne_of_gt (zero_lt_of_lt hfuel))
    obtain ⟨hnone, link, t, hlink, ht, hrest⟩ := hheld
    obtain ⟨found, hlookup, hown⟩ := exists_lookup name hw (hw.objects a s hshape).1
    rw [hnone] at hown
    obtain rfl : found = none := map_eq_none_iff.mp hown.symm
    obtain ⟨holder, info, hwalk, hplace, hholder⟩ :=
      ih (base + 1) ht (lt_of_succ_lt_succ hfuel) hrest
    obtain ⟨slots, hcell⟩ := shapeOf_eq.mp ht
    refine ⟨holder, info, ?_, hplace, fun p hp => hholder p ?_⟩
    · rw [add_right_comm base 1 depth] at hwalk
      simp [walk, hshape, hlookup, hlink, hcell, hwalk, add_assoc]
    · simp only [cachedProtoHolder, hshape, bind_some, protoLink, hlink, ht, map_some] at hp
      split_ifs at hp
      exact hp

variable {holder : Address}

variable (hw : WellFormed rt h)

include hw

section

variable (hshape : h.shapeOf a = some s)

include hshape

theorem held_of_walk {info : PropertyInfo}
    (hwalk : h.walk name fuel base a = some (.found holder depth info)) :
    ∃ d < fuel, depth = base + d ∧ h.HeldAt name (info.slot, info.accessor) d s := by
  induction fuel generalizing base a s with
  | zero => cases hwalk
  | succ fuel ih =>
    obtain ⟨found, hlookup, hown⟩ := exists_lookup name hw (hw.objects a s hshape).1
    simp only [walk, hshape, hlookup] at hwalk
    cases found with
    | some own =>
      obtain ⟨-, rfl, rfl⟩ := hwalk
      exact ⟨0, succ_pos _, rfl, hown⟩
    | none =>
      cases hlink : h.prototypeValue s with
      | object link =>
        rw [hlink] at hwalk
        dsimp only at hwalk
        cases hcell : h.cells link with
        | ordinary t slots =>
          rw [hcell] at hwalk
          have ht : h.shapeOf link = some t := shapeOf_eq.mpr ⟨slots, hcell⟩
          obtain ⟨d, hd, rfl, hheld⟩ := ih ht hwalk
          exact ⟨d + 1, succ_lt_succ hd, by omega, hown, link, t, hlink, ht, hheld⟩
        | _ => rw [hcell] at hwalk; cases hwalk
      | _ => rw [hlink] at hwalk; cases hwalk

theorem walk_of_absent
    (habsent : h.AbsentFrom name fuel s) : h.walk name fuel base a = some .absent := by
  induction fuel generalizing base a s with
  | zero => exact habsent.elim
  | succ fuel ih =>
    obtain ⟨hnone, hrest⟩ := habsent
    obtain ⟨found, hlookup, hown⟩ := exists_lookup name hw (hw.objects a s hshape).1
    rw [hnone] at hown
    obtain rfl : found = none := map_eq_none_iff.mp hown.symm
    simp only [walk, hshape, hlookup]
    cases hlink : h.prototypeValue s with
    | object link =>
      obtain ⟨t, ht, hrest⟩ := hrest link hlink
      obtain ⟨slots, hcell⟩ := shapeOf_eq.mp ht
      dsimp only
      rw [hcell]
      exact ih ht hrest
    | _ => rfl

theorem absent_of_walk
    (hwalk : h.walk name fuel base a = some .absent) : h.AbsentFrom name fuel s := by
  induction fuel generalizing base a s with
  | zero => cases hwalk
  | succ fuel ih =>
    obtain ⟨found, hlookup, hown⟩ := exists_lookup name hw (hw.objects a s hshape).1
    simp only [walk, hshape, hlookup] at hwalk
    cases found with
    | some own => cases hwalk
    | none =>
      refine ⟨hown, fun link hlink => ?_⟩
      rw [hlink] at hwalk
      dsimp only at hwalk
      cases hcell : h.cells link with
      | ordinary t slots =>
        rw [hcell] at hwalk
        have ht : h.shapeOf link = some t := shapeOf_eq.mpr ⟨slots, hcell⟩
        exact ⟨t, ht, ih ht hwalk⟩
      | _ => rw [hcell] at hwalk; cases hwalk

end

theorem held_of_inherited {slot : Nat} (hs : s < h.nextShape) (hown : h.own s name = none)
    (hrun : h.inherited name fuel base s = some (.setter holder depth slot)) :
    ∃ d, d < fuel ∧ depth = base + d ∧ h.HeldAt name (slot, true) (d + 1) s := by
  induction fuel generalizing base s with
  | zero => cases hrun
  | succ fuel ih =>
    rw [inherited] at hrun
    cases hlink : h.prototypeValue s with
    | object link =>
      rw [hlink] at hrun
      dsimp only at hrun
      cases hcell : h.cells link with
      | ordinary t slots =>
        rw [hcell] at hrun
        have ht : h.shapeOf link = some t := shapeOf_eq.mpr ⟨slots, hcell⟩
        have htlt := (hw.objects link t ht).1
        obtain ⟨found, hlookup, howned⟩ := exists_lookup name hw htlt
        simp only [hlookup, bind_eq_bind, bind_some, pure_def] at hrun
        cases found with
        | none =>
          obtain ⟨d, hd, rfl, hheld⟩ := ih htlt howned hrun
          exact ⟨d + 1, succ_lt_succ hd, by omega, hown, link, t, hlink, ht, hheld⟩
        | some info =>
          dsimp only at hrun
          by_cases haccessor : info.accessor = true
          · rw [if_pos haccessor] at hrun
            simp only [some.injEq, Inherited.setter.injEq] at hrun
            obtain ⟨-, rfl, rfl⟩ := hrun
            refine ⟨0, succ_pos _, rfl, hown, link, t, hlink, ht, ?_⟩
            simp [HeldAt, howned, haccessor]
          · rw [if_neg haccessor] at hrun
            split_ifs at hrun <;> cases hrun
      | _ => rw [hcell] at hrun; cases hrun
    | _ => rw [hlink] at hrun; cases hrun

end Chains

/-- What an entry of a key says of a shape. -/
structure InlineCache.Describes (h : Heap) (name : PropertyKey) (e : InlineCache) (s : Nat) :
    Prop where
  lt : s < h.nextShape
  cacheable : (h.shapes s).readCacheable = true
  depth_le : e.realDepth ≤ kMaxPrototypeDepth
  held : e.isAbsent = false → e.realDepth = 0 ∨ e.cachedEpoch = h.protoEpoch →
    h.HeldAt name (e.cachedSlot, e.isAccessor) e.realDepth s
  absent : e.isAbsent = true → e.cachedEpoch = h.protoEpoch →
    h.AbsentFrom name (kMaxPrototypeDepth + 1) s

/-- **A valid entry**: what it says of the shape it names, if it names one, is so. -/
structure InlineCache.Valid (h : Heap) (name : PropertyKey) (e : InlineCache) : Prop where
  epoch_le : e.cachedEpoch ≤ h.protoEpoch
  describes : ∀ s, e.cachedShape = .shape s → e.Describes h name s

section Entries

variable {rt : Runtime} {h h' : Heap} {name : PropertyKey} {e : InlineCache}

theorem valid_unfilled (h : Heap) (name : PropertyKey) : InlineCache.unfilled.Valid h name :=
  ⟨zero_le _, nofun⟩

theorem valid_fillArrayMethod (h : Heap) (name : PropertyKey) (methodId : Nat) :
    (InlineCache.fillArrayMethod methodId).Valid h name :=
  ⟨zero_le _, nofun⟩

/-- **A step keeps an entry valid.** -/
theorem InlineCache.Valid.moves (hw : WellFormed rt h) (hl : Linked h) (m : Moves rt h h')
    (hv : e.Valid h name) : e.Valid h' name := by
  refine ⟨hv.epoch_le.trans m.extend.epoch_le, fun s hs => ?_⟩
  have hd := hv.describes s hs
  have hown := own_eq hw m.extend hd.lt hd.cacheable
  -- an entry of the epoch after the step is one of the epoch before it
  have hepoch : e.cachedEpoch = h'.protoEpoch →
      e.cachedEpoch = h.protoEpoch ∧ h'.protoEpoch = h.protoEpoch := by
    have := hv.epoch_le
    have := m.extend.epoch_le
    omega
  refine ⟨hd.lt.trans_le m.extend.shape_le, m.extend.readCacheable hd.lt hd.cacheable, hd.depth_le,
    fun habsent hwhen => ?_, fun habsent hwhen => ?_⟩
  · rcases Nat.eq_zero_or_pos e.realDepth with hzero | hpos
    · have hheld := hd.held habsent (.inl hzero)
      rw [hzero] at hheld ⊢
      exact (congrFun hown name).trans hheld
    · obtain ⟨hbefore, hsame⟩ := hepoch (hwhen.resolve_left (ne_of_gt hpos))
      have hlinks := m.keeps hsame
      exact heldAt_links hw hl hlinks hd.lt hown (hlinks.receiver s hd.lt hd.cacheable)
        (hd.held habsent (.inr hbefore))
  · obtain ⟨hbefore, hsame⟩ := hepoch hwhen
    have hlinks := m.keeps hsame
    exact absentFrom_links hw hl hlinks hd.lt hown (hlinks.receiver s hd.lt hd.cacheable)
      (hd.absent habsent hbefore)

/-- **A hit answers what the lookup does**: the same holder, slot and kind. -/
theorem InlineCache.Valid.agrees (hw : WellFormed rt h) (hv : e.Valid h name) {a : Address}
    {s : Nat} (hshape : h.shapeOf a = some s) (hdescribes : e.describes h.protoEpoch s = true)
    {p : Address} (hp : h.cachedProtoHolder e.realDepth a = .holder p) :
    ∃ info, h.lookup a name = some (.found p e.realDepth info) ∧ info.slot = e.cachedSlot ∧
      info.accessor = e.isAccessor := by
  simp only [InlineCache.describes, and_eq_true, not_eq_true', decide_eq_true_eq,
    or_eq_true] at hdescribes
  obtain ⟨⟨habsent, hs⟩, hwhen⟩ := hdescribes
  have hd := hv.describes s hs
  obtain ⟨holder, info, hwalk, hplace, hholder⟩ := walk_of_held hw 0 hshape
    (lt_succ_of_le hd.depth_le) (hd.held habsent hwhen)
  rw [zero_add] at hwalk
  obtain rfl := hholder p hp
  exact ⟨info, hwalk, congrArg Prod.fst hplace, congrArg Prod.snd hplace⟩

/-- **A negative hit is right.** -/
theorem InlineCache.Valid.agrees_absent (hw : WellFormed rt h) (hv : e.Valid h name) {a : Address}
    {s : Nat} (hshape : h.shapeOf a = some s)
    (hdescribes : e.describesAbsent h.protoEpoch s = true) : h.lookup a name = some .absent := by
  simp only [InlineCache.describesAbsent, and_eq_true, decide_eq_true_eq] at hdescribes
  obtain ⟨⟨habsent, hs⟩, hwhen⟩ := hdescribes
  exact walk_of_absent hw hshape ((hv.describes s hs).absent habsent hwhen)

section Fills

variable {s slot depth : Nat} {accessor : Bool}

theorem valid_fill (hs : s < h.nextShape) (hr : (h.shapes s).readCacheable = true)
    (hdepth : depth ≤ kMaxPrototypeDepth) (hheld : h.HeldAt name (slot, false) depth s) :
    (InlineCache.fill s slot depth h.protoEpoch).Valid h name := by
  refine ⟨le_rfl, fun s' hs' => ?_⟩
  obtain rfl : s = s' := shape.inj hs'
  refine ⟨hs, hr, ?_, fun _ _ => ?_, fun habsent => ?_⟩
  · rwa [InlineCache.realDepth_fill hdepth]
  · rw [InlineCache.realDepth_fill hdepth, InlineCache.isAccessor_fill hdepth]
    exact hheld
  · rw [InlineCache.isAbsent_fill hdepth] at habsent
    cases habsent

theorem valid_fillAccessor (hs : s < h.nextShape) (hr : (h.shapes s).readCacheable = true)
    (hdepth : depth ≤ kMaxPrototypeDepth) (hheld : h.HeldAt name (slot, true) depth s) :
    (InlineCache.fillAccessor s slot depth h.protoEpoch).Valid h name := by
  refine ⟨le_rfl, fun s' hs' => ?_⟩
  obtain rfl : s = s' := shape.inj hs'
  refine ⟨hs, hr, ?_, fun _ _ => ?_, fun habsent => ?_⟩
  · rwa [InlineCache.realDepth_fillAccessor hdepth]
  · rw [InlineCache.realDepth_fillAccessor hdepth, InlineCache.isAccessor_fillAccessor]
    exact hheld
  · rw [InlineCache.isAbsent_fillAccessor hdepth] at habsent
    cases habsent

theorem valid_fillForSet (hs : s < h.nextShape) (hr : (h.shapes s).readCacheable = true)
    (hown : h.own s name = some (slot, false)) (doubleSlot : Bool) :
    (InlineCache.fillForSet s slot doubleSlot h.protoEpoch).Valid h name := by
  obtain ⟨hdepth, haccessor, habsent⟩ := InlineCache.bits_fillForSet s slot doubleSlot h.protoEpoch
  refine ⟨le_rfl, fun s' hs' => ?_⟩
  obtain rfl : s = s' := shape.inj hs'
  refine ⟨hs, hr, by rw [hdepth]; exact zero_le _, fun _ _ => ?_, fun h => ?_⟩
  · rw [hdepth, haccessor]
    exact hown
  · rw [habsent] at h
    cases h

/-- **The fill at the end of a lookup.** -/
theorem valid_entryFor (hw : WellFormed rt h) {a : Address} {found : Lookup}
    (hshape : h.shapeOf a = some s) (hlookup : h.lookup a name = some found)
    (he : h.entryFor rt a s found = some e) : e.Valid h name := by
  cases found with
  | found holder depth info =>
    rw [entryFor] at he
    split_ifs at he with hfill haccessor <;> obtain rfl := some.inj he
    all_goals
      simp only [and_eq_true] at hfill
      obtain ⟨d, hd, rfl, hheld⟩ := held_of_walk hw hshape hlookup
      rw [zero_add]
      have hs := (hw.objects a s hshape).1
    · rw [haccessor] at hheld
      exact valid_fillAccessor hs hfill.1.1 (le_of_lt_succ hd) hheld
    · rw [eq_false_of_not_eq_true haccessor] at hheld
      exact valid_fill hs hfill.1.1 (le_of_lt_succ hd) hheld
  | _ => cases he

/-- **The fill of a negative entry.** -/
theorem valid_absentEntry (hw : WellFormed rt h) {a : Address} (hshape : h.shapeOf a = some s)
    (hlookup : h.lookup a name = some .absent) (he : h.absentEntry rt s = some e) :
    e.Valid h name := by
  rw [absentEntry] at he
  split_ifs at he with hfill
  obtain rfl := some.inj he
  simp only [chainIsCacheable, and_eq_true] at hfill
  refine ⟨le_rfl, fun s' hs' => ?_⟩
  obtain rfl : s = s' := shape.inj hs'
  obtain ⟨hdepth, habsent⟩ := InlineCache.bits_fillAbsent s h.protoEpoch
  refine ⟨(hw.objects a s hshape).1, hfill.2.1, ?_, fun hpositive => ?_, fun _ _ =>
    absent_of_walk hw hshape hlookup⟩
  · rw [hdepth]
    exact zero_le _
  · rw [habsent] at hpositive
    cases hpositive

end Fills

end Entries

end Bronze.Objects
