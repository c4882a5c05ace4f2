import Bronze.Objects.Assignments

/-!
# A hit agrees with the lookup

In every run, from an empty heap, whose shape-transition hits take marked objects to marked
shapes, every entry of every site that describes a receiver and can be walked comes to the property
the lookup finds, and every negative entry that describes one is right. On the thread's own heap
every run is one of these. On another heap a transition hit can leave the mark behind, and an entry
goes stale.
-/

namespace Bronze.Objects

open Heap Transition
open List Option Function Machine InlineCacheSite Prod

/-- **What an entry is to answer**: where it describes the shape of a receiver and the walk can be
taken, the property a fresh lookup finds, at the same holder; and where it is a negative entry that
describes one, that there is none. -/
def InlineCache.Agrees (h : Heap) (name : PropertyKey) (e : InlineCache) : Prop :=
  ∀ a s, h.shapeOf a = some s →
    (e.describes h.protoEpoch s = true → ∀ p, h.cachedProtoHolder e.realDepth a = .holder p →
      ∃ info, h.lookup a name = some (.found p e.realDepth info) ∧ info.slot = e.cachedSlot ∧
        info.accessor = e.isAccessor ∧
        h.readSlot p e.cachedSlot e.isAccessor = h.answer (.found p e.realDepth info)) ∧
    (e.describesAbsent h.protoEpoch s = true → h.lookup a name = some .absent)

/-- Every entry of every site agrees. -/
def Machine.Agrees (prog : Program) (m : Machine) : Prop :=
  ∀ i, (∀ e ∈ (m.sites i).ways, e.Agrees m.heap (prog.siteKey i)) ∧
    (m.setSites i).Agrees m.heap (prog.setSiteKey i)

/-- The heap is the thread's own, or a write that hits a shape transition takes the mark of the
object along. -/
def Op.Meets (rt : Runtime) (prog : Program) (m : Machine) : Op → Prop
  | .set a (some i) _ _ mode =>
    rt.threadOwned = true ∨ CarriesMark m.heap a (prog.setSiteKey i) (some (m.setSites i)) mode
  | _ => True

/-! ## The invariant of a run -/

/-- **A sound machine**: its heap is well formed and linked, and its entries are valid. -/
structure Machine.Sound (rt : Runtime) (prog : Program) (m : Machine) : Prop where
  wf : WellFormed rt m.heap
  linked : Linked m.heap
  sites : ∀ i, ∀ e ∈ (m.sites i).ways, e.Valid m.heap (prog.siteKey i)
  setSites : ∀ i, (m.setSites i).Valid m.heap (prog.setSiteKey i)

section Runs

variable {rt : Runtime} {prog : Program} {m m' : Machine}

theorem initial_sound (rt : Runtime) (prog : Program) : initial.Sound rt prog := by
  refine ⟨⟨fun s hs => absurd hs (Nat.not_lt_zero s), nofun, nofun⟩, fun r hr =>
    absurd hr (Nat.not_lt_zero r), fun i e he => ?_, fun i => valid_unfilled ..⟩
  have hunfilled : e = .unfilled := by
    simpa [initial, unfilled, ways] using he
  rw [hunfilled]
  exact valid_unfilled _ _

theorem Machine.Sound.agrees (hm : m.Sound rt prog) : m.Agrees prog := by
  have hentry : ∀ {e : InlineCache} {name : PropertyKey}, e.Valid m.heap name →
      e.Agrees m.heap name := by
    intro e name hv a s hshape
    refine ⟨fun hdescribes p hp => ?_, hv.agrees_absent hm.wf hshape⟩
    obtain ⟨info, hlookup, hslot, haccessor⟩ := hv.agrees hm.wf hshape hdescribes hp
    refine ⟨info, hlookup, hslot, haccessor, ?_⟩
    rw [answer, hslot, haccessor]
  exact fun i => ⟨fun e he => hentry (hm.sites i e he), hentry (hm.setSites i)⟩

theorem Machine.Sound.moves (hm : m.Sound rt prog) {h : Heap} (hmoves : Moves rt m.heap h) :
    Sound rt prog { m with heap := h } where
  wf := hmoves.wf
  linked := hmoves.linked _ hm.linked
  sites := fun i e he => (hm.sites i e he).moves hm.wf hm.linked hmoves
  setSites := fun i => (hm.setSites i).moves hm.wf hm.linked hmoves

variable {s : ShapeId} {a : Address} {name : PropertyKey}

theorem mem_ways_install {site : InlineCacheSite} {e e' : InlineCache}
    (he : e' ∈ (site.install s e).ways) : e' = e ∨ e' ∈ site.ways := by
  unfold install at he
  simp only [ways, mem_cons, not_mem_nil, or_false] at he ⊢
  split_ifs at he <;> simp only at he <;> tauto

theorem Machine.Sound.install (hm : m.Sound rt prog) {i : Nat} {e : InlineCache}
    (he : e.Valid m.heap (prog.siteKey i)) : (m.installAt i s e).Sound rt prog := by
  refine ⟨hm.wf, hm.linked, fun j e' he' => ?_, hm.setSites⟩
  rw [installAt] at he'
  dsimp only at he'
  by_cases hj : j = i
  · subst hj
    rw [update_self] at he'
    rcases mem_ways_install he' with rfl | he'
    · exact he
    · exact hm.sites j e' he'
  · rw [update_of_ne hj] at he'
    exact hm.sites j e' he'

variable {result : GetResult}

/-- The end of a lookup: an entry for what it found, or the witness of an absence. -/
theorem getProp_spec (hm : m.Sound rt prog) {site : Option InlineCacheSite}
    {witness : Bool} {entry : Option InlineCache} (hshape : m.heap.shapeOf a = some s)
    (hrun : m.heap.getProp rt a name site = some (result, witness, entry)) :
    (witness = true → m.heap.lookup a name = some .absent) ∧
      ∀ e, entry = some e → e.Valid m.heap name := by
  have hslow : ∀ {result : GetResult} {witness : Bool} {entry : Option InlineCache},
      m.heap.getSlow rt a name s = some (result, witness, entry) →
      (witness = true → m.heap.lookup a name = some .absent) ∧
        ∀ e, entry = some e → e.Valid m.heap name := by
    intro result witness entry hrun
    obtain ⟨found, hlookup, hrun⟩ := bind_eq_some_iff.mp hrun
    obtain ⟨-, rfl, rfl⟩ := hrun
    refine ⟨fun habsent => ?_, fun e he => valid_entryFor hm.wf hshape hlookup he⟩
    rw [hlookup, of_decide_eq_true habsent]
  obtain ⟨s', hs', hrun⟩ := bind_eq_some_iff.mp hrun
  obtain rfl : s = s' := some.inj (hshape.symm.trans hs')
  cases hfind : site.bind fun site => site.find s with
  | none =>
    rw [hfind] at hrun
    exact hslow hrun
  | some e =>
    rw [hfind] at hrun
    obtain ⟨cached, hcached, hrun⟩ := bind_eq_some_iff.mp hrun
    cases cached with
    | none => exact hslow hrun
    | some answer =>
      obtain ⟨-, rfl, rfl⟩ := hrun
      exact ⟨nofun, nofun⟩

variable {site : Option Nat}

theorem get_sound (hm : m.Sound rt prog) {claimed : Bool}
    (hrun : m.get rt prog a site name claimed = some (result, m')) : m'.Sound rt prog := by
  obtain ⟨s, hshape, hrun⟩ := bind_eq_some_iff.mp hrun
  cases site with
  | none =>
    obtain ⟨_, -, hrun⟩ := bind_eq_some_iff.mp hrun
    obtain ⟨-, rfl⟩ := mk.inj (some.inj hrun)
    exact hm
  | some i =>
    obtain ⟨⟨answer, witness, entry⟩, hget, hrun⟩ := bind_eq_some_iff.mp hrun
    obtain ⟨hwitness, hentry⟩ := getProp_spec hm hshape hget
    dsimp only at hrun
    generalize hfilled : (if witness && !claimed then m.heap.absentEntry rt s else entry) = filled
      at hrun
    cases filled with
    | none =>
      obtain ⟨-, rfl⟩ := mk.inj (some.inj hrun)
      exact hm
    | some e =>
      obtain ⟨-, rfl⟩ := mk.inj (some.inj hrun)
      refine hm.install ?_
      split_ifs at hfilled with hnegative
      · rw [Bool.and_eq_true] at hnegative
        exact valid_absentEntry hm.wf hshape (hwitness hnegative.1) hfilled
      · exact hentry e hfilled

theorem set_sound (hm : m.Sound rt prog) {val : Value} {mode : SetMode}
    {result : SetResult} (hmeets : (Op.set a site name val mode).Meets rt prog m)
    (hrun : m.set rt prog a site name val mode = some (result, m')) : m'.Sound rt prog := by
  cases site with
  | none =>
    obtain ⟨⟨answer, ic, heap⟩, hset, hrun⟩ := bind_eq_some_iff.mp hrun
    obtain ⟨-, rfl⟩ := mk.inj (some.inj hrun)
    exact hm.moves (setProp_spec hm.wf hm.linked (fun _ he => by cases he)
      (fun _ _ _ _ hhit => by cases hhit) hset).moves
  | some i =>
    obtain ⟨⟨answer, ic, heap⟩, hset, hrun⟩ := bind_eq_some_iff.mp hrun
    obtain ⟨-, rfl⟩ := mk.inj (some.inj hrun)
    have hic : ∀ e, some (m.setSites i) = some e → e.Valid m.heap (prog.setSiteKey i) := by
      rintro _ ⟨⟩
      exact hm.setSites i
    have hstored := setProp_spec hm.wf hm.linked hic (hmeets.elim (fun hown => ?_) id) hset
    · have hmoved := hm.moves hstored.moves
      refine ⟨hmoved.wf, hmoved.linked, hmoved.sites, fun j => ?_⟩
      dsimp only
      by_cases hj : j = i
      · subst hj
        rw [update_self]
        cases ic with
        | none => exact hmoved.setSites j
        | some e => exact hstored.valid e rfl
      · rw [update_of_ne hj]
        exact hmoved.setSites j
    · -- on the thread's heap the child of a marked shape is marked
      intro s hshape next slot hhit hmarked
      obtain ⟨e, he, hcached, hparent, -⟩ := transitionHit_some hhit
      exact (hm.wf.nodes next ((hic e he).describes next hcached).lt).closed hown s hparent hmarked

theorem lt_of_live {h : Heap} {v : Value} (hlive : h.live v = true) :
    ∀ p, v = .object p → p < h.nextCell := by
  rintro p rfl
  exact of_decide_eq_true hlive

/-- **A step of a run keeps the machine sound.** -/
theorem exec_sound (hm : m.Sound rt prog) {op : Op} (hmeets : op.Meets rt prog m)
    (hrun : exec rt prog m op = some m') : m'.Sound rt prog := by
  cases op with
  | allocate cell =>
    rw [exec] at hrun
    split_ifs at hrun with hcell
    obtain rfl := some.inj hrun
    refine hm.moves (allocCell_moves hm.wf ?_)
    rintro s slots rfl
    cases hcell
  | createRoot proto inlineSlots =>
    rw [exec] at hrun
    split_ifs at hrun with hlive
    obtain rfl := some.inj hrun
    exact hm.moves (createRoot_spec _ hm.wf (lt_of_live hlive) rfl).1
  | create root =>
    rw [exec] at hrun
    split_ifs at hrun with hroot
    obtain rfl := some.inj hrun
    refine hm.moves (allocCell_moves hm.wf ?_)
    rintro s slots ⟨⟩
    exact hroot.1
  | createFrom proto =>
    rw [exec] at hrun
    split_ifs at hrun with hlive
    obtain rfl := some.inj hrun
    obtain ⟨hmoves, hroot⟩ := rtRootShapeForPrototype_spec hm.wf (lt_of_live hlive) rfl
    refine hm.moves (hmoves.trans (allocCell_moves hmoves.wf ?_))
    rintro s slots ⟨⟩
    exact hroot.lt
  | get a site name claimed =>
    obtain ⟨⟨result, m₁⟩, hget, rfl⟩ := map_eq_some_iff.mp hrun
    exact get_sound hm hget
  | getArrayMethod i methodId =>
    obtain rfl := some.inj hrun
    refine ⟨hm.wf, hm.linked, fun j e he => ?_, hm.setSites⟩
    dsimp only at he
    by_cases hj : j = i
    · subst hj
      rw [update_self] at he
      rcases mem_cons.mp he with rfl | he
      · exact valid_fillArrayMethod ..
      · exact hm.sites j e (mem_cons_of_mem _ he)
    · rw [update_of_ne hj] at he
      exact hm.sites j e he
  | set a site name val mode =>
    obtain ⟨⟨result, m₁⟩, hset, rfl⟩ := map_eq_some_iff.mp hrun
    exact set_sound hm hmeets hset
  | defineOwnProperty a name d =>
    obtain ⟨⟨defined, h⟩, hdefine, hrun⟩ := bind_eq_some_iff.mp hrun
    obtain rfl := some.inj hrun
    exact hm.moves (applyDecodedDescriptor_moves hm.wf hm.linked hdefine)
  | defineAccessor a name getter setter enumerable configurable =>
    rw [exec] at hrun
    split_ifs at hrun with hfrozen
    obtain ⟨h, hdefine, hrun⟩ := bind_eq_some_iff.mp hrun
    obtain rfl := some.inj hrun
    refine hm.moves (defineAccessor_moves hm.wf (fun s t htable hlevel => hfrozen ?_) hdefine)
    rw [frozen, htable]
    exact decide_eq_true hlevel
  | deleteProperty a name =>
    obtain ⟨⟨deleted, h⟩, hdelete, hrun⟩ := bind_eq_some_iff.mp hrun
    obtain rfl := some.inj hrun
    exact hm.moves (deleteProperty_moves hm.wf hdelete)
  | setPrototypeOf a proto =>
    rw [exec] at hrun
    split_ifs at hrun with hlive
    obtain ⟨⟨done, h⟩, hset, hrun⟩ := bind_eq_some_iff.mp hrun
    obtain rfl := some.inj hrun
    exact hm.moves (setPrototypeOf_moves hm.wf (lt_of_live hlive) hset)
  | markObjectAsPrototype a =>
    obtain rfl := some.inj hrun
    exact hm.moves (markObjectAsPrototype_spec hm.wf a).1
  | setIntegrity a want =>
    obtain ⟨h, hset, hrun⟩ := bind_eq_some_iff.mp hrun
    obtain rfl := some.inj hrun
    exact hm.moves (setIntegrity_moves hm.wf hset)
  | harden a =>
    obtain ⟨h, hharden, hrun⟩ := bind_eq_some_iff.mp hrun
    obtain rfl := some.inj hrun
    exact hm.moves (harden_moves hm.wf hharden)

/-- **In every run whose transition hits take the marks along, every entry agrees**: what an entry
that describes a receiver holds is what a fresh lookup finds. Every run on the thread's own heap is
such a run. -/
theorem inlineCache_agrees {ops : List Op}
    (hrun : Run (fun m op m' => exec rt prog m op = some m' ∧ op.Meets rt prog m) .initial ops m) :
    m.Agrees prog :=
  (hrun.invariant (Sound rt prog) (initial_sound rt prog)
    fun _ _ _ hm hstep => exec_sound hm hstep.2 hstep.1).agrees

end Runs

/-- The operations of a list, one after the other. -/
def replay (rt : Runtime) (prog : Program) : List Op → Machine → Option Machine
  | [], m => some m
  | op :: ops, m => (exec rt prog m op).bind (replay rt prog ops)

theorem run_of_replay {rt : Runtime} {prog : Program} {P : Machine → Op → Prop} {ops : List Op}
    {m : Machine} (hP : ∀ m, ∀ op ∈ ops, P m op) (h : replay rt prog ops .initial = some m) :
    Run (fun m op m' => exec rt prog m op = some m' ∧ P m op) .initial ops m := by
  have hfrom : ∀ (ops done : List Op) (m₁ : Machine), (∀ m, ∀ op ∈ ops, P m op) →
      Run (fun m op m' => exec rt prog m op = some m' ∧ P m op) .initial done m₁ →
      replay rt prog ops m₁ = some m →
      Run (fun m op m' => exec rt prog m op = some m' ∧ P m op) .initial (done ++ ops) m := by
    intro ops
    induction ops with
    | nil =>
      intro done m₁ _ hrun h
      obtain rfl := some.inj h
      rwa [append_nil]
    | cons op ops ih =>
      intro done m₁ hP hrun h
      obtain ⟨m₂, hexec, hrest⟩ := bind_eq_some_iff.mp h
      have := ih (done ++ [op]) m₂ (fun m o ho => hP m o (mem_cons_of_mem _ ho))
        (hrun.snoc ⟨hexec, hP m₁ op mem_cons_self⟩) hrest
      rwa [append_assoc] at this
  exact hfrom ops [] _ hP .nil h

/-- A program that reads `m` and writes `k`. -/
def twoSites : Program :=
  { siteKey := fun _ => .string [109], setSiteKey := fun _ => .string [107] }

def threadHeap : Runtime :=
  { threadOwned := true, slotReprEligible := fun _ => false, censusFillsSuppressed := false }

def privateHeap : Runtime := { threadHeap with threadOwned := false }

/-- `B.k` is written at a site, and then `A.k`, with `A` a prototype in between; `x.m` is read below
`A`, and `A.m` is written. -/
def shadowed : List Op := [
  .createRoot .null 4, .create 0,
  .set 0 none (.string [109]) (.number 1) .assignment,
  .createRoot (.object 0) 4, .create 2, .create 2,
  .set 2 (some 0) (.string [107]) (.number 2) .assignment,
  .createRoot (.object 1) 4, .create 5,
  .set 1 (some 0) (.string [107]) (.number 2) .assignment,
  .get 3 (some 0) (.string [109]) false,
  .set 1 none (.string [109]) (.number 3) .assignment]

/-- What the entry and the lookup come to for a receiver. -/
def Machine.verdict (prog : Program) (m : Machine) (a : Address) :
    Option Bool × ProtoHolder × Option Lookup :=
  let e := (m.sites 0).way0
  ((m.heap.shapeOf a).map fun s => e.describes m.heap.protoEpoch s,
    m.heap.cachedProtoHolder e.realDepth a, m.heap.lookup a (prog.siteKey 0))

/-- A property of a prototype, read at a site. -/
theorem inlineCache_agrees_inherited : ∃ m, replay threadHeap twoSites
    [.createRoot .null 4, .create 0, .set 0 none (.string [109]) (.number 1) .assignment,
      .createFrom (.object 0), .get 1 (some 0) (.string [109]) false] .initial = some m ∧
    (m.verdict twoSites 1).1 = some true ∧ m.Agrees twoSites := by
  obtain ⟨m, hm⟩ := isSome_iff_exists.mp (show (replay threadHeap twoSites
    [.createRoot .null 4, .create 0, .set 0 none (.string [109]) (.number 1) .assignment,
      .createFrom (.object 0), .get 1 (some 0) (.string [109]) false] .initial).isSome by decide)
  have hverdict : (replay threadHeap twoSites
      [.createRoot .null 4, .create 0, .set 0 none (.string [109]) (.number 1) .assignment,
        .createFrom (.object 0), .get 1 (some 0) (.string [109]) false] .initial).map
      (fun m => (m.verdict twoSites 1).1) = some (some true) := by decide
  rw [hm, map_some, some.injEq] at hverdict
  exact ⟨m, hm, hverdict, inlineCache_agrees (run_of_replay (fun _ op hop => by
    simp only [mem_cons, not_mem_nil, or_false] at hop
    rcases hop with rfl | rfl | rfl | rfl | rfl <;> trivial) hm)⟩

/-- **A mark left behind, and an entry that goes stale**: on a heap that is not the thread's, the
root that `A` and `B` share is marked in place, and the transition hit takes `A` to a shape that is
not marked. The entry for `x.m` goes on to name the holder above `A`. -/
theorem inlineCache_stale : ¬∀ rt prog ops m,
    Run (fun m op m' => exec rt prog m op = some m') .initial ops m → m.Agrees prog := by
  intro hclaim
  obtain ⟨m, hm⟩ := isSome_iff_exists.mp
    (show (replay privateHeap twoSites shadowed .initial).isSome by decide)
  have hverdict :
      (replay privateHeap twoSites shadowed .initial).map (fun m => m.verdict twoSites 3) =
      some (some true, .holder 0, some (.found 1 1 ⟨1, true, false, true, true⟩)) := by decide
  rw [hm, map_some, some.injEq, verdict, Prod.mk.injEq, Prod.mk.injEq] at hverdict
  obtain ⟨hdescribes, hholder, hlookup⟩ := hverdict
  obtain ⟨s, hshape, hdescribes⟩ := map_eq_some_iff.mp hdescribes
  have hrun := (run_of_replay (P := fun _ _ => True) (fun _ _ _ => trivial) hm).mono
    fun _ _ _ hstep => hstep.1
  have hagrees := (hclaim privateHeap twoSites shadowed m hrun 0).1 (m.sites 0).way0
    mem_cons_self 3 s hshape
  obtain ⟨info, hfresh, -⟩ := hagrees.1 hdescribes 0 hholder
  -- the fresh lookup ends at `A`
  rw [hlookup] at hfresh
  cases hfresh

/-- **A sound layout**: a name has one property, a slot one property, none lies on both sides of
the split, and `lookupProperty` finds what there is. -/
structure Heap.LaidOut (h : Heap) (s : ShapeId) : Prop where
  distinct : (((h.entries s).filterMap DictEntry.property).map Property.key).Nodup
  disjoint : (Dictionary.held (h.entries s)).Nodup
  split : ∃ n ≤ kOverflowSlot, ∀ e ∈ h.entries s, e.live = true →
    Fits n e.slot (slotWidth e.accessor)
  answers : ∀ name, h.lookupProperty s name =
    some (((h.entries s).find? fun e => e.key = some name).map infoOf)

theorem WellFormed.laidOut {rt : Runtime} {h : Heap} (hw : WellFormed rt h) {s : Nat}
    (hs : s < h.nextShape) : h.LaidOut s := by
  have hn := hw.nodes s hs
  suffices (((h.entries s).filterMap DictEntry.property).map Property.key).Nodup ∧
      (Dictionary.held (h.entries s)).Nodup ∧ ∃ n ≤ kOverflowSlot, ∀ e ∈ h.entries s,
        e.live = true → Fits n e.slot (slotWidth e.accessor) from
    ⟨this.1, this.2.1, this.2.2, fun _ => hw.lookupProperty_eq hs⟩
  cases hdict : (h.shapes s).dict with
  | none =>
    have hc := hn.reached hdict
    obtain ⟨hstorage, hfits⟩ := Shape.storage hc
    rw [entries_tree hdict, Shape.filterMap_entries, Shape.map_key_properties, nodup_reverse]
    exact ⟨Shape.nodup_keys hc, hstorage.nodup, _, Shape.inlineSlots_le hc,
      fun e he _ => hfits e he⟩
  | some t =>
    have hb := (hn.table t hdict).inv.base
    rw [entries_dict hdict]
    exact ⟨hb.distinct, hb.storage.nodup.of_append_left, _, hb.inline_le, hb.fits⟩

/-- **Whatever runs, the layouts are sound and the prototypes marked**: no order of additions,
deletions, conversions, freezes and cached writes gives two properties of an object one slot. -/
theorem layouts_sound {rt : Runtime} {prog : Program} {m : Machine} {ops : List Op}
    (hrun : Run (fun m op m' => exec rt prog m op = some m' ∧ op.Meets rt prog m) .initial ops m)
    (a : Address) (s : ShapeId) (hshape : m.heap.shapeOf a = some s) : m.heap.LaidOut s ∧
      ∀ p t, m.heap.prototypeValue s = .object p → m.heap.shapeOf p = some t →
        (m.heap.shapes t).usedAsPrototype = true := by
  have hm := hrun.invariant (Sound rt prog) (initial_sound rt prog)
    fun _ _ _ hm hstep => exec_sound hm hstep.2 hstep.1
  have hs := (hm.wf.objects a s hshape).1
  exact ⟨hm.wf.laidOut hs, fun p t hp ht => hm.wf.link_marked hm.linked hs hp ht⟩

/-- A property is deleted and another one added. -/
theorem layouts_sound_deleted : ∃ m : Machine, ∃ s, m.heap.shapeOf 0 = some s ∧
    (m.heap.entries s).map DictEntry.live = [false, true] ∧ m.heap.LaidOut s := by
  let ops : List Op := [.createRoot .null 4, .create 0,
    .set 0 none (.string [109]) (.number 1) .assignment, .deleteProperty 0 (.string [109]),
    .set 0 none (.string [110]) (.number 2) .assignment]
  obtain ⟨m, hm⟩ := isSome_iff_exists.mp
    (show (replay threadHeap twoSites ops .initial).isSome by decide)
  have hshape : (replay threadHeap twoSites ops .initial).map (fun m =>
      ((m.heap.shapeOf 0).map fun s => (m.heap.entries s).map DictEntry.live)) =
        some (some [false, true]) := by decide
  rw [hm, map_some, some.injEq] at hshape
  obtain ⟨s, hs, hlive⟩ := map_eq_some_iff.mp hshape
  refine ⟨m, s, hs, hlive, (layouts_sound (run_of_replay (fun _ op hop => ?_) hm) 0 s hs).1⟩
  simp only [ops, mem_cons, not_mem_nil, or_false] at hop
  rcases hop with rfl | rfl | rfl | rfl | rfl <;> trivial

end Bronze.Objects
