import Bronze.Objects.Validity

/-!
# Assignments and definitions

`setProp` is a step, and what it leaves at its site is valid, provided that a shape-transition hit
takes a marked object to a marked shape. `addPropertyKey` sees to that for itself, on the reuse
path as much as the create path; the hit does not.
-/

namespace Bronze.Objects

open Heap
open Option Prod

/-- The transition hit of a write, if there is one, takes the mark along. -/
def CarriesMark (h : Heap) (a : Address) (name : PropertyKey) (ic : Option InlineCache)
    (mode : SetMode) : Prop :=
  ∀ s, h.shapeOf a = some s → ∀ next slot, h.transitionHit s name ic mode = some (next, slot) →
    (h.shapes s).usedAsPrototype = true → (h.shapes next).usedAsPrototype = true

/-- What a write comes to: a step, and a site that is valid. -/
structure Stored (rt : Runtime) (h h' : Heap) (name : PropertyKey) (ic' : Option InlineCache) :
    Prop where
  moves : Moves rt h h'
  valid : ∀ e, ic' = some e → e.Valid h' name

section SetProp

variable {rt : Runtime} {h h' : Heap} {a : Address} {s : Nat} {name : PropertyKey} {val : Value}
  {ic ic' : Option InlineCache} {mode : SetMode} {result : SetResult}

theorem notePrototypeSlotOverwrite_moves (hw : WellFormed rt h) (a : Address) (slot : Nat) :
    Moves rt h (h.notePrototypeSlotOverwrite a slot) := by
  unfold notePrototypeSlotOverwrite
  split
  · exact .refl hw
  · split
    · split
      · exact bumpIf_moves hw _
      · exact .refl hw
    · exact .refl hw

theorem tableOf_notePrototypeSlotOverwrite (a b : Address) (slot : Nat) :
    (h.notePrototypeSlotOverwrite a slot).tableOf b = h.tableOf b := by
  unfold notePrototypeSlotOverwrite
  split
  · rfl
  · split
    · split
      · exact tableOf_bumpIf _
      · rfl
    · rfl

variable {slot next : Nat}

theorem overwrite_moves (hw : WellFormed rt h) (hrun : h.overwrite a slot val = some h') :
    Moves rt h h' := by
  have hm := notePrototypeSlotOverwrite_moves hw a slot
  exact hm.trans (setSlot_moves hm.wf hrun)

theorem valid_unchanged (hw : WellFormed rt h) (hl : Linked h) (m : Moves rt h h')
    (hic : ∀ e, ic = some e → e.Valid h name) : Stored rt h h' name ic :=
  ⟨m, fun e he => (hic e he).moves hw hl m⟩

theorem readCacheable_tree {n : Shape} (hdict : n.isDictionary = false) :
    n.readCacheable = true := by
  rw [Shape.isDictionary, isSome_eq_false_iff, isNone_iff_eq_none] at hdict
  rw [Shape.readCacheable, hdict]

theorem valid_refill (hic : ∀ e, ic = some e → e.Valid h name) (hs : s < h.nextShape)
    (hown : h.own s name = some (slot, false)) :
    ∀ e, h.refill rt s slot ic = some e → e.Valid h name := by
  intro e he
  obtain ⟨e₀, he₀, rfl⟩ := map_eq_some_iff.mp he
  split_ifs with hfill
  · simp only [Bool.and_eq_true, Bool.not_eq_true'] at hfill
    exact valid_fillForSet hs (readCacheable_tree hfill.1.1) hown _
  · exact hic e₀ he₀

theorem valid_setterFill (hic : ∀ e, ic = some e → e.Valid h name) {depth : Nat} {fills : Bool}
    (hs : s < h.nextShape) (hfills : fills = true → (h.shapes s).isDictionary = false ∧
      depth ≤ kMaxPrototypeDepth ∧ h.HeldAt name (slot, true) depth s) :
    ∀ e, (ic.map fun e => if fills then .fillAccessor s slot depth h.protoEpoch else e) = some e →
      e.Valid h name := by
  intro e he
  obtain ⟨e₀, he₀, rfl⟩ := map_eq_some_iff.mp he
  by_cases hfill : fills = true
  · obtain ⟨hdict, hdepth, hheld⟩ := hfills hfill
    rw [if_pos hfill]
    exact valid_fillAccessor hs (readCacheable_tree hdict) hdepth hheld
  · rw [if_neg hfill]
    exact hic e₀ he₀

theorem stored_refill (hw : WellFormed rt h) (hl : Linked h) {h₁ : Heap} (m : Moves rt h h₁)
    (hic : ∀ e, ic = some e → e.Valid h name) (hnext : next < h₁.nextShape)
    (hown : h₁.own next name = some (slot, false)) (m' : Moves rt h₁ h') :
    Stored rt h h' name (h₁.refill rt next slot ic) := by
  have hl₁ : Linked h₁ := m.linked _ hl
  have hic₁ := (valid_unchanged hw hl m hic).valid
  exact ⟨m.trans m', fun e he => (valid_refill hic₁ hnext hown e he).moves m.wf hl₁ m'⟩

theorem transitionHit_some (hhit : h.transitionHit s name ic mode = some (next, slot)) :
    ∃ e, ic = some e ∧ e.cachedShape = .shape next ∧ (h.shapes next).parent = some s ∧
      (h.shapes next).slotIndex = slot ∧ (h.shapes next).accessor = false ∧
      (h.shapes next).key = some name := by
  cases ic with
  | none => cases hhit
  | some e =>
    rw [transitionHit] at hhit
    cases hshape : e.cachedShape with
    | shape next' =>
      rw [hshape] at hhit
      dsimp only at hhit
      split_ifs at hhit with hguard
      obtain ⟨rfl, rfl⟩ := mk.inj (some.inj hhit)
      simp only [Bool.and_eq_true, decide_eq_true_eq, Bool.not_eq_true', any_eq_true] at hguard
      obtain ⟨⟨⟨⟨⟨⟨⟨⟨⟨⟨⟨⟨-, -⟩, hparent⟩, hslot⟩, -⟩, haccessor⟩, -⟩, -⟩, -⟩, -⟩, -⟩, -⟩, key,
        hkey, hmatches⟩ := hguard
      refine ⟨e, rfl, hshape, hparent, hslot, haccessor, ?_⟩
      rwa [← (Dictionary.matches_iff key name).mp hmatches]
    | _ => rw [hshape] at hhit; cases hhit

variable (hw : WellFormed rt h)

include hw

theorem own_child (hs : s < h.nextShape) {p : Nat}
    (hparent : (h.shapes s).parent = some p) (hkey : (h.shapes s).key = some name) :
    h.own s name = some ((h.shapes s).slotIndex, (h.shapes s).accessor) := by
  have htree := ((hw.nodes s hs).parent p hparent).tree
  have hchain := chain_child hw.ordered hs hparent hkey
  have hreached := (hw.nodes s hs).reached htree
  rw [hchain] at hreached
  obtain ⟨-, hnew, hslot⟩ := reached_child hreached
  rw [own, entries_tree htree, hchain, hslot]
  exact own_addPropertyKey fun e he hek => hnew ((mem_keys_entries ..).mp ⟨e, he, hek⟩)

variable (hl : Linked h)

include hl

variable (hic : ∀ e, ic = some e → e.Valid h name)

include hic

section

variable (hshape : h.shapeOf a = some s)

include hshape

theorem takeTransition_spec (hhit : h.transitionHit s name ic mode = some (next, slot))
    (hmark : (h.shapes s).usedAsPrototype = true → (h.shapes next).usedAsPrototype = true)
    (hrun : h.takeTransition rt a s next slot val ic = some (result, ic', h')) :
    Stored rt h h' name ic' := by
  obtain ⟨e, he, hcached, hparent, rfl, haccessor, hkey⟩ := transitionHit_some hhit
  have hnext := ((hic e he).describes next hcached).lt
  have hm₀ := bumpIf_moves hw (h.shapes s).usedAsPrototype
  have hold : (h.bumpIf (h.shapes s).usedAsPrototype).shapeOf a = some s :=
    (shapeOf_bumpIf _ a).trans hshape
  have hnext₀ := hnext.trans_le hm₀.extend.shape_le
  have hown := own_child hw hnext hparent hkey
  rw [haccessor] at hown
  have hm : Moves rt h ((h.bumpIf (h.shapes s).usedAsPrototype).setShape a next) := by
    by_cases hmarked : (h.shapes s).usedAsPrototype = true
    · have he := setShape_evolves hm₀.wf hold hnext₀ fun _ => by
        rw [shapes_bumpIf]
        exact hmark hmarked
      refine (hm₀.evolves.trans he).moves ?_
      rw [hmarked] at he ⊢
      exact epoch_bumpIf_true.trans_le he.extend.epoch_le
    · refine hm₀.trans (setShape_moves hm₀.wf hold hnext₀ fun hm => ?_)
      rw [shapes_bumpIf] at hm
      exact absurd hm hmarked
  obtain ⟨h₁, hset, hrun⟩ := bind_eq_some_iff.mp hrun
  obtain ⟨-, rfl, rfl⟩ := hrun
  refine stored_refill hw hl hm hic (hnext.trans_le hm.extend.shape_le) ?_
    (setSlot_moves hm.wf hset)
  rw [own_of_shapes ((setShape_arena hold).shapes.trans (shapes_bumpIf _)), hown]

theorem setOwn_spec {own : PropertyInfo} (hown : h.own s name = some (own.slot, own.accessor))
    (hrun : h.setOwn rt a s own val ic mode = some (result, ic', h')) :
    Stored rt h h' name ic' := by
  have hs := (hw.objects a s hshape).1
  have hstay := valid_unchanged hw hl (.refl hw) hic
  rw [setOwn] at hrun
  by_cases haccessor : own.accessor = true
  · rw [if_pos haccessor] at hrun
    by_cases hdefine : mode.defineOwn = true
    · rw [if_pos hdefine] at hrun
      obtain ⟨-, rfl, rfl⟩ := hrun
      exact hstay
    · rw [if_neg hdefine] at hrun
      obtain ⟨-, rfl, rfl⟩ := hrun
      refine ⟨.refl hw, valid_setterFill hic hs fun hfill => ?_⟩
      simp only [Bool.and_eq_true, Bool.not_eq_true'] at hfill
      rw [haccessor] at hown
      exact ⟨hfill.1, Nat.zero_le _, hown⟩
  · rw [if_neg haccessor] at hrun
    rw [Bool.eq_false_of_not_eq_true haccessor] at hown
    split_ifs at hrun with hwritable
    · simp only [pure_def] at hrun
      obtain ⟨-, rfl, rfl⟩ := hrun
      exact hstay
    · obtain ⟨h₁, hset, hrun⟩ := bind_eq_some_iff.mp hrun
      obtain ⟨-, rfl, rfl⟩ := hrun
      exact stored_refill hw hl (.refl hw) hic hs hown (overwrite_moves hw hset)

theorem createOwn_spec (hown : h.own s name = none)
    (hrun : h.createOwn rt a s name val ic mode = some (result, ic', h')) :
    Stored rt h h' name ic' := by
  rw [createOwn] at hrun
  by_cases hextensible : h.isExtensible s = true
  · simp only [hextensible, Bool.not_true, Bool.false_eq_true, if_false] at hrun
    split_ifs at hrun with hdict
    · obtain ⟨h₁, hdictionary, hrun⟩ := bind_eq_some_iff.mp hrun
      obtain ⟨⟨slot, h₂⟩, hdefine, hrun⟩ := bind_eq_some_iff.mp hrun
      obtain ⟨h₃, hdescribe, hrun⟩ := bind_eq_some_iff.mp hrun
      obtain ⟨h₄, hset, hrun⟩ := bind_eq_some_iff.mp hrun
      obtain ⟨-, rfl, rfl⟩ := hrun
      obtain ⟨s', t, hc⟩ := toDictionary_spec hw hdictionary
      -- an object that is extensible is not frozen
      have hlevel : t.level ≠ .frozen := by
        intro hlevel
        have htable := hc.table
        rw [hc.frozen hlevel] at htable
        obtain ⟨hshape', hdict'⟩ := tableOf_eq.mp htable
        obtain rfl : s = s' := some.inj (hshape.symm.trans hshape')
        exact open_of_extensible hw hshape hextensible hdict' hlevel
      obtain ⟨hm₂, t₂, htable₂, hlevel₂⟩ := dictDefine_spec hc.moves.wf hc.table
        (fun hl => absurd hl hlevel) hdefine
      have hm₃ := describeEntry_moves hm₂.wf (fun s₂ t₂' htable₂' hl => by
        obtain ⟨-, rfl⟩ := mk.inj (some.inj (htable₂.symm.trans htable₂'))
        exact absurd (hlevel₂.symm.trans hl) hlevel) hdescribe
      have hm := (hc.moves.trans hm₂).trans hm₃
      exact valid_unchanged hw hl (hm.trans (setSlot_moves hm.wf hset)) hic
    · obtain ⟨⟨next, slot, h₁⟩, hadd, hrun⟩ := bind_eq_some_iff.mp hrun
      obtain ⟨h₂, hset, hrun⟩ := bind_eq_some_iff.mp hrun
      obtain ⟨-, rfl, rfl⟩ := hrun
      obtain ⟨hm, hnext, hnew⟩ := addProperty_spec hw hshape hown hadd
      exact stored_refill hw hl hm hic hnext hnew (setSlot_moves hm.wf hset)
  · simp only [hextensible] at hrun
    obtain ⟨-, rfl, rfl⟩ := hrun
    exact valid_unchanged hw hl (.refl hw) hic

theorem setSlow_spec (hrun : h.setSlow rt a s name val ic mode = some (result, ic', h')) :
    Stored rt h h' name ic' := by
  have hs := (hw.objects a s hshape).1
  obtain ⟨found, hlookup, hrun⟩ := bind_eq_some_iff.mp hrun
  have hown := own_of_lookup hw hs hlookup
  cases found with
  | some own => exact setOwn_spec hw hl hic hshape hown hrun
  | none =>
    obtain ⟨what, hwhat, hrun⟩ := bind_eq_some_iff.mp hrun
    cases what with
    | define => exact createOwn_spec hw hl hic hshape hown hrun
    | setter holder depth slot =>
      obtain ⟨-, rfl, rfl⟩ := hrun
      refine ⟨.refl hw, valid_setterFill hic hs fun hfill => ?_⟩
      simp only [Bool.and_eq_true, Bool.not_eq_true'] at hfill
      by_cases hdefine : mode.defineOwn = true
      · rw [if_pos hdefine] at hwhat
        cases hwhat
      · rw [if_neg hdefine] at hwhat
        obtain ⟨d, hd, rfl, hheld⟩ := held_of_inherited hw hs hown hwhat
        rw [Nat.add_comm 1 d]
        exact ⟨hfill.1.1, hd, hheld⟩
    | _ =>
      obtain ⟨-, rfl, rfl⟩ := hrun
      exact valid_unchanged hw hl (.refl hw) hic

end

/-- **`setProp`** is a step, and leaves its site valid. -/
theorem setProp_spec (hcarries : CarriesMark h a name ic mode)
    (hrun : h.setProp rt a name val ic mode = some (result, ic', h')) :
    Stored rt h h' name ic' := by
  obtain ⟨s, hshape, hrun⟩ := bind_eq_some_iff.mp hrun
  cases hhit : ic.filter fun e => e.describesOwn s with
  | some e =>
    rw [hhit] at hrun
    obtain ⟨h₁, hset, hrun⟩ := bind_eq_some_iff.mp hrun
    obtain ⟨-, rfl, rfl⟩ := hrun
    exact valid_unchanged hw hl (setSlot_moves hw hset) hic
  | none =>
    rw [hhit] at hrun
    cases hsetter : ic.bind (h.setCached a s) with
    | some result' =>
      rw [hsetter] at hrun
      obtain ⟨-, rfl, rfl⟩ := hrun
      exact valid_unchanged hw hl (.refl hw) hic
    | none =>
      rw [hsetter] at hrun
      cases htransition : h.transitionHit s name ic mode with
      | some taken =>
        rw [htransition] at hrun
        exact takeTransition_spec hw hl hic hshape htransition
          (hcarries s hshape taken.1 taken.2 htransition) hrun
      | none =>
        rw [htransition] at hrun
        exact setSlow_spec hw hl hic hshape hrun

end SetProp

/-! ## Definitions -/

section Definitions

variable {rt : Runtime} {h h' : Heap} {a : Address} {name : PropertyKey} {d : DecodedDescriptor}

theorem storeDefined_spec (hw : WellFormed rt h) {s slot : Nat} {t : PropertyTable}
    (htable : h.tableOf a = some (s, t)) {accessor overwrites : Bool} {getter setter v kept : Value}
    (hrun : (if accessor then h.putPair a slot getter setter
      else if overwrites then h.overwrite a slot v else h.setSlot a slot kept) = some h') :
    Moves rt h h' ∧ h'.tableOf a = some (s, t) := by
  split_ifs at hrun
  · exact ⟨putPair_moves hw hrun, putPair_tableOf hw htable hrun⟩
  · refine ⟨overwrite_moves hw hrun, ?_⟩
    have hm := notePrototypeSlotOverwrite_moves hw a slot
    refine setSlot_tableOf hm.wf ?_ hrun
    rwa [tableOf_notePrototypeSlotOverwrite]
  · exact ⟨setSlot_moves hw hrun, setSlot_tableOf hw htable hrun⟩

variable {existing : PropertyInfo}

theorem redefinable_spec (hconfigurable : existing.configurable = false)
    (hredefinable : h.redefinable a existing d = true) :
    (if d.isGeneric then existing.accessor else d.accessor) = existing.accessor ∧
      d.configurable existing = false := by
  unfold redefinable at hredefinable
  split_ifs at hredefinable with h₁ h₂ h₃
  all_goals
    refine ⟨?_, ?_⟩
    · cases hgeneric : d.isGeneric
      · simp only [hgeneric, Bool.not_false, Bool.true_and, decide_eq_true_eq, not_not] at h₃
        exact h₃.symm
      · rfl
    · cases hhas : d.hasConfigurable
      · rw [DecodedDescriptor.configurable, hhas]
        exact hconfigurable
      · rw [hhas] at h₁
        exact Bool.eq_false_of_not_eq_true h₁

variable {defined : Bool}

variable (hw : WellFormed rt h)

include hw

theorem defineInDictionary_moves {current : Option PropertyInfo}
    (hcurrent : ∀ s t, h.tableOf a = some (s, t) → h.lookupProperty s name = some current)
    (hrun : h.defineInDictionary a name current d = some (defined, h')) : Moves rt h h' := by
  obtain ⟨h₁, hdictionary, hrun⟩ := bind_eq_some_iff.mp hrun
  obtain ⟨⟨s, t⟩, htable, hrun⟩ := bind_eq_some_iff.mp hrun
  obtain ⟨found, hlookup, hrun⟩ := bind_eq_some_iff.mp hrun
  obtain ⟨s', t', hc⟩ := toDictionary_spec hw hdictionary
  obtain ⟨rfl, rfl⟩ := mk.inj (some.inj (hc.table.symm.trans htable))
  obtain ⟨hs, hdict, hok⟩ := hc.moves.wf.tableOk htable
  have hown := own_of_lookup hc.moves.wf hs hlookup
  -- the end of both branches
  have hend : ∀ {accessor overwrites : Bool} {getter setter v kept : Value} {slot : Nat}
      {h₂ h₃ h₄ : Heap},
      (t'.level = .frozen → (∃ slot, h₁.own s' name = some (slot, accessor)) ∧
        d.configurable current = false) →
      h₁.dictDefine a name (d.enumerable current) accessor = some (slot, h₂) →
      (if accessor then h₂.putPair a slot getter setter
        else if overwrites then h₂.overwrite a slot v else h₂.setSlot a slot kept) = some h₃ →
      h₃.describeEntry a name (fun _ => d.writable current) (fun _ => d.configurable current) =
        some h₄ → Moves rt h h₄ := by
    intro accessor overwrites getter setter v kept slot h₂ h₃ h₄ hfrozen hdefine hstore hdescribe
    obtain ⟨hm₂, t₂, htable₂, hlevel₂⟩ := dictDefine_spec hc.moves.wf htable
      (fun hl => (hfrozen hl).1) hdefine
    obtain ⟨hm₃, htable₃⟩ := storeDefined_spec hm₂.wf htable₂ hstore
    have hm₄ := describeEntry_moves hm₃.wf (fun s₃ t₃ htable₃' hl => by
      obtain ⟨-, rfl⟩ := mk.inj (some.inj (htable₃.symm.trans htable₃'))
      exact fun _ _ => (hfrozen (hlevel₂.symm.trans hl)).2) hdescribe
    exact ((hc.moves.trans hm₂).trans hm₃).trans hm₄
  cases found with
  | none =>
    by_cases hextensible : t'.extensible = true
    · simp only [hextensible] at hrun
      obtain ⟨⟨slot, h₂⟩, hdefine, hrun⟩ := bind_eq_some_iff.mp hrun
      obtain ⟨h₃, hstore, hrun⟩ := bind_eq_some_iff.mp hrun
      obtain ⟨h₄, hdescribe, hrun⟩ := bind_eq_some_iff.mp hrun
      obtain ⟨-, rfl⟩ := mk.inj (some.inj hrun)
      have hstore' : (if d.accessor then
          h₂.putPair a slot (if d.hasGet then d.getter else .undefined)
            (if d.hasSet then d.setter else .undefined)
        else if false then h₂.overwrite a slot .undefined
        else h₂.setSlot a slot (if d.hasValue then d.value else .undefined)) = some h₃ := hstore
      refine hend (fun hlevel => ?_) hdefine hstore' hdescribe
      exact absurd (hextensible.symm.trans (hok.frozen hlevel).1) (by decide)
    · simp only [hextensible] at hrun
      obtain ⟨-, rfl⟩ := mk.inj (some.inj hrun)
      exact hc.moves
  | some existing =>
    dsimp only at hrun
    by_cases hrefused : (!existing.configurable && !h₁.redefinable a existing d) = true
    · rw [if_pos hrefused] at hrun
      obtain ⟨-, rfl⟩ := mk.inj (some.inj hrun)
      exact hc.moves
    · rw [if_neg hrefused] at hrun
      obtain ⟨⟨slot, h₂⟩, hdefine, hrun⟩ := bind_eq_some_iff.mp hrun
      obtain ⟨h₃, hstore, hrun⟩ := bind_eq_some_iff.mp hrun
      obtain ⟨h₄, hdescribe, hrun⟩ := bind_eq_some_iff.mp hrun
      obtain ⟨-, rfl⟩ := mk.inj (some.inj hrun)
      refine hend (fun hlevel => ?_) hdefine hstore hdescribe
      have hconfigurable := configurable_frozen hc.moves.wf hs hdict hlevel hlookup
      rw [hconfigurable, Bool.not_false, Bool.true_and, Bool.not_eq_true', Bool.not_eq_false]
        at hrefused
      obtain ⟨haccessor, hstays⟩ := redefinable_spec hconfigurable hrefused
      -- a frozen dictionary was there before, so the property is the current one
      have hsame := hc.frozen hlevel
      rw [hsame] at hlookup
      rw [hsame] at htable
      obtain rfl : some existing = current :=
        some.inj (hlookup.symm.trans (hcurrent s' t' htable))
      rw [haccessor]
      exact ⟨⟨existing.slot, hown⟩, hstays⟩

/-- A data property that is not configurable is written over or made read-only. -/
theorem redefineFixed_moves
    (hrun : h.redefineFixed a name existing d = some (defined, h')) : Moves rt h h' := by
  have hsame : ∀ {b defined : Bool} {h' : Heap}, some (b, h) = some (defined, h') →
      Moves rt h h' := by
    intro b defined h' hrun
    obtain ⟨-, rfl⟩ := mk.inj (some.inj hrun)
    exact .refl hw
  have hdemote : ∀ {h₁ : Heap}, Moves rt h h₁ →
      (do
        let h ← h₁.toDictionary a
        let h ← h.describeEntry a name (fun _ => false) DictEntry.configurable
        return (true, h)) = some (defined, h') → Moves rt h h' := by
    intro h₁ hm₁ hrun
    obtain ⟨h₂, hdictionary, hrun⟩ := bind_eq_some_iff.mp hrun
    obtain ⟨h₃, hdescribe, hrun⟩ := bind_eq_some_iff.mp hrun
    obtain ⟨-, rfl⟩ := mk.inj (some.inj hrun)
    obtain ⟨s, t, hc⟩ := toDictionary_spec hm₁.wf hdictionary
    exact (hm₁.trans hc.moves).trans
      (describeEntry_moves hc.moves.wf (fun _ _ _ _ _ hstays => hstays) hdescribe)
  unfold redefineFixed at hrun
  dsimp only at hrun
  split_ifs at hrun
  · exact hsame hrun
  · exact hsame hrun
  · exact hsame hrun
  · exact hsame hrun
  · obtain ⟨h₁, hset, hrun⟩ := bind_eq_some_iff.mp hrun
    exact hdemote (overwrite_moves hw hset) hrun
  · obtain ⟨h₁, hset, hrun⟩ := bind_eq_some_iff.mp hrun
    obtain ⟨-, rfl⟩ := mk.inj (some.inj hrun)
    exact overwrite_moves hw hset
  · exact hdemote (.refl hw) hrun
  · exact hsame hrun

/-- **`applyDecodedDescriptor`** is a step. -/
theorem applyDecodedDescriptor_moves (hl : Linked h)
    (hrun : h.applyDecodedDescriptor rt a name d = some (defined, h')) : Moves rt h h' := by
  obtain ⟨s, hshape, hrun⟩ := bind_eq_some_iff.mp hrun
  obtain ⟨current, hlookup, hrun⟩ := bind_eq_some_iff.mp hrun
  have hdictionary : ∀ {defined : Bool} {h' : Heap},
      h.defineInDictionary a name current d = some (defined, h') → Moves rt h h' := by
    intro defined h' hrun
    refine defineInDictionary_moves hw (fun s' t htable => ?_) hrun
    obtain rfl : s = s' := some.inj (hshape.symm.trans (tableOf_eq.mp htable).1)
    exact hlookup
  by_cases hdict : (h.shapes s).isDictionary = true
  · rw [if_pos hdict] at hrun
    exact hdictionary hrun
  rw [if_neg hdict] at hrun
  have hopen : ∀ s' t, h.tableOf a = some (s', t) → t.level ≠ .frozen := by
    intro s' t htable
    obtain ⟨hshape', hdict'⟩ := tableOf_eq.mp htable
    obtain rfl : s = s' := some.inj (hshape.symm.trans hshape')
    exact absurd (by rw [Shape.isDictionary, hdict']; rfl) hdict
  have haccessor : ∀ {defined : Bool} {h' : Heap} {enumerable configurable : Bool},
      ((h.defineAccessor a name d.getter d.setter enumerable configurable).bind fun h =>
        some (true, h)) = some (defined, h') → Moves rt h h' := by
    intro defined h' enumerable configurable hrun
    obtain ⟨h₁, hdefine, hrun⟩ := bind_eq_some_iff.mp hrun
    obtain ⟨-, rfl⟩ := mk.inj (some.inj hrun)
    exact defineAccessor_moves hw hopen hdefine
  have hsame : ∀ {b defined : Bool} {h' : Heap}, some (b, h) = some (defined, h') →
      Moves rt h h' := by
    intro b defined h' hrun
    obtain ⟨-, rfl⟩ := mk.inj (some.inj hrun)
    exact .refl hw
  cases current with
  | none =>
    dsimp only at hrun
    split_ifs at hrun
    · exact haccessor hrun
    · obtain ⟨⟨result, ic', h₁⟩, hset, hrun⟩ := bind_eq_some_iff.mp hrun
      obtain ⟨-, rfl⟩ := mk.inj (some.inj hrun)
      exact (setProp_spec hw hl (fun _ he => by cases he)
        (fun _ _ _ _ hhit => by cases hhit) hset).moves
  | some existing =>
    dsimp only at hrun
    split_ifs at hrun
    · exact hsame hrun
    · exact redefineFixed_moves hw hrun
    · exact haccessor hrun
    · obtain ⟨h₁, hset, hrun⟩ := bind_eq_some_iff.mp hrun
      obtain ⟨-, rfl⟩ := mk.inj (some.inj hrun)
      exact overwrite_moves hw hset
    · exact hsame hrun
    · exact hdictionary hrun

end Definitions

end Bronze.Objects
