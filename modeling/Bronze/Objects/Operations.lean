import Bronze.Objects.Generalize

/-!
# Operations keep the invariant

Every operation on an object is a step as `Moves` has it. Where an object at a marked shape loses
or gains a property, or another prototype, the epoch is raised; where a dictionary is frozen there
is nothing to lose or gain.
-/

namespace Bronze.Objects

open Heap
open List Option DictEntry Prod Dictionary

variable {rt : Runtime} {h h' : Heap} {a : Address}

section Tables

variable {s : Nat} {t t' : PropertyTable} {v : Value} {index : Nat}

theorem tableOf_eq :
    h.tableOf a = some (s, t) ↔ h.shapeOf a = some s ∧ (h.shapes s).dict = some t := by
  constructor
  · intro htable
    obtain ⟨s', hs, htable⟩ := bind_eq_some_iff.mp htable
    obtain ⟨t', ht, htable⟩ := bind_eq_some_iff.mp htable
    obtain ⟨rfl, rfl⟩ := mk.inj (some.inj htable)
    exact ⟨hs, ht⟩
  · rintro ⟨hs, ht⟩
    rw [tableOf, hs]
    simp [ht]

theorem fieldOk_table (hdict : (h.shapes s).dict = some t)
    (hfrozen : t.level = .frozen → t'.level = .frozen ∧
      t'.table.entries.map place = t.table.entries.map place) :
    FieldOk rt h s { h.shapes s with dict := some t' } where
  node := ⟨rfl, rfl, rfl, rfl, rfl, rfl, rfl, rfl, rfl, rfl, rfl⟩
  tree := fun hnone => by rw [hdict] at hnone; cases hnone
  marked := id
  newMark := fun _ => .inl
  frozen := fun t₀ ht₀ hlevel => by
    obtain rfl : t = t₀ := some.inj (hdict.symm.trans ht₀)
    exact ⟨t', rfl, hfrozen hlevel⟩

theorem rewritten_table (hok : TableOk t') : Rewritten h (h.setTable s t') s := by
  unfold setTable
  refine ⟨.inl ?_, fun hnone => ?_, fun t₀ ht₀ => .inr ?_, fun e he => .inl ?_⟩
  · rw [shapes_modifyShape_self]
  · rw [shapes_modifyShape_self] at hnone
    cases hnone
  · rw [shapes_modifyShape_self] at ht₀
    rwa [← some.inj ht₀]
  · rwa [shapes_modifyShape_self] at he

theorem setTable_evolves (hw : WellFormed rt h) (hdict : (h.shapes s).dict = some t)
    (t' : PropertyTable) (hok : TableOk t') (hfrozen : t.level = .frozen → t'.level = .frozen ∧
      t'.table.entries.map place = t.table.entries.map place) :
    Evolves rt h (h.setTable s t') :=
  modifyShape_evolves hw (fieldOk_table hdict hfrozen) (rewritten_table hok)

/-- **A table exchanged** for one with the same properties, or for any where nobody looks. -/
theorem setTable_moves (hw : WellFormed rt h) (hdict : (h.shapes s).dict = some t)
    (t' : PropertyTable) (hok : TableOk t') (hlevel : t.level = .frozen → t'.level = .frozen)
    (hplaces : (h.shapes s).usedAsPrototype = true ∨ t.level = .frozen →
      t'.table.entries.map place = t.table.entries.map place) :
    Moves rt h (h.setTable s t') := by
  have hf : FieldOk rt h s { h.shapes s with dict := some t' } :=
    fieldOk_table hdict fun hl => ⟨hlevel hl, hplaces (.inr hl)⟩
  have he := setTable_evolves hw hdict t' hok fun hl => ⟨hlevel hl, hplaces (.inr hl)⟩
  refine ⟨he.wf, he.extend, he.linked, fun _ => ?_⟩
  refine modifyShape_links (f := fun n => { n with dict := some t' }) hw hf rfl fun _ hmarked => ?_
  rw [own, own, entries_dict hdict, entries_dict (t := t')]
  · exact placeOf_of_places (hplaces (.inl hmarked))
  · rw [shapes_modifyShape_self]

theorem tableOf_setTable (htable : h.tableOf a = some (s, t)) (t' : PropertyTable) :
    (h.setTable s t').tableOf a = some (s, t') := by
  refine tableOf_eq.mpr ⟨(tableOf_eq.mp htable).1, ?_⟩
  rw [setTable, shapes_modifyShape_self]

@[simp] theorem tableOf_bumpIf (owed : Bool) : (h.bumpIf owed).tableOf a = h.tableOf a := by
  cases owed <;> rfl

theorem setSlot_dict (hw : WellFormed rt h) (htable : h.tableOf a = some (s, t))
    (hrun : h.setSlot a index v = some h') : h' = h.rawSetSlot a index v := by
  obtain ⟨hshape, hdict⟩ := tableOf_eq.mp htable
  have hn := hw.nodes s (hw.objects a s hshape).1
  have hparent : (h.shapes s).parent = none := by
    cases hp : (h.shapes s).parent with
    | none => rfl
    | some p =>
      have := (hn.parent p hp).tree
      rw [hdict] at this
      cases this
  have hdouble : (h.shapes s).slotIsDouble index = false := by
    simp [Shape.slotIsDouble, hn.doubleSlots hparent]
  obtain ⟨s', hs', hrun⟩ := bind_eq_some_iff.mp hrun
  obtain rfl : s = s' := some.inj (hshape.symm.trans hs')
  rw [hdouble] at hrun
  exact (some.inj hrun).symm

theorem setSlot_tableOf (hw : WellFormed rt h) (htable : h.tableOf a = some (s, t))
    (hrun : h.setSlot a index v = some h') : h'.tableOf a = some (s, t) := by
  obtain ⟨hshape, hdict⟩ := tableOf_eq.mp htable
  rw [setSlot_dict hw htable hrun]
  refine tableOf_eq.mpr ⟨by rwa [shapeOf_rawSetSlot], ?_⟩
  rwa [(rawSetSlot_arena a index v).shapes]

end Tables

section Pairs

variable {s slot : Nat} {t : PropertyTable} {getter setter : Value}

variable (hw : WellFormed rt h)

include hw

theorem putPair_moves (hrun : h.putPair a slot getter setter = some h') : Moves rt h h' := by
  obtain ⟨h₁, hrun₁, hrun⟩ := bind_eq_some_iff.mp hrun
  have hm₁ := setSlot_moves hw hrun₁
  exact hm₁.trans (setSlot_moves hm₁.wf hrun)

theorem putPair_tableOf (htable : h.tableOf a = some (s, t))
    (hrun : h.putPair a slot getter setter = some h') : h'.tableOf a = some (s, t) := by
  obtain ⟨h₁, hrun₁, hrun⟩ := bind_eq_some_iff.mp hrun
  exact setSlot_tableOf (setSlot_moves hw hrun₁).wf (setSlot_tableOf hw htable hrun₁) hrun

theorem setPair_moves (hrun : h.setPair a slot getter setter = some h') : Moves rt h h' := by
  have hhalf : ∀ {h h' : Heap} {v : Value} {i : Nat}, WellFormed rt h →
      (if v = .undefined then some h else h.setSlot a i v) = some h' → Moves rt h h' := by
    intro h h' v i hw hrun
    split_ifs at hrun
    · obtain rfl := some.inj hrun
      exact .refl hw
    · exact setSlot_moves hw hrun
  obtain ⟨h₁, hrun₁, hrun⟩ := bind_eq_some_iff.mp hrun
  have hm₁ := hhalf hw hrun₁
  exact hm₁.trans (hhalf hm₁.wf hrun)

end Pairs

section Conversion

variable {s : Nat} {t : PropertyTable}

/-- What `toDictionary` comes to: the table of a dictionary, or a new one. -/
structure Converted (rt : Runtime) (h h' : Heap) (a : Address) (s : Nat) (t : PropertyTable) :
    Prop where
  moves : Moves rt h h'
  table : h'.tableOf a = some (s, t)
  marked : ∀ old, h.shapeOf a = some old →
    (h'.shapes s).usedAsPrototype = (h.shapes old).usedAsPrototype
  frozen : t.level = .frozen → h' = h

variable {table : Dictionary}

variable (hw : WellFormed rt h)

include hw

theorem dictionaryOf_nodeOk {old : Nat} (hold : old < h.nextShape) (hi : table.Inv) :
    NodeOk rt (h.allocShape (.dictionaryOf h.nextShape (h.shapes old) table)).2 h.nextShape := by
  have hself := shapes_allocShape_self (h := h)
    (n := .dictionaryOf h.nextShape (h.shapes old) table)
  refine ⟨?_, fun p hp => ?_, ?_, fun hdict => ?_, fun hdict => ?_, fun _ => ?_, fun e he => ?_,
    fun t ht => ?_, fun p hp => ?_, fun _ p hp => ?_⟩
  · rw [hself]
    exact iff_of_true rfl rfl
  · rw [hself] at hp
    cases hp
  · rw [hself]
    exact (hw.nodes old hold).root.extend (allocShape_extends hw)
  · rw [hself] at hdict
    cases hdict
  · rw [hself] at hdict
    cases hdict
  · rw [hself]
    rfl
  · rw [hself] at he
    cases he
  · rw [hself] at ht
    rw [← some.inj ht]
    exact ⟨hi, nofun⟩
  · rw [hself] at hp
    cases hp
  · rw [hself] at hp
    cases hp

theorem converted_dictionary {old : Nat} (hold : h.shapeOf a = some old)
    (hi : table.Inv) {h₂ : Heap}
    (hrun : ((h.bumpIf (h.shapes old).usedAsPrototype).allocShape
      (.dictionaryOf h.nextShape (h.shapes old) table)).2.setShape a h.nextShape = h₂) :
    ∃ s t, Converted rt h h₂ a s t := by
  have hlt := (hw.objects a old hold).1
  have hm₁ := bumpIf_moves hw (h.shapes old).usedAsPrototype
  generalize hh₁ : h.bumpIf (h.shapes old).usedAsPrototype = h₁ at hm₁ hrun
  have hshapes : h₁.shapes = h.shapes := by rw [← hh₁, shapes_bumpIf]
  have hnext : h₁.nextShape = h.nextShape := by rw [← hh₁, nextShape_bumpIf]
  have hold₁ : h₁.shapeOf a = some old := by rw [← hh₁, shapeOf_bumpIf, hold]
  rw [← hshapes] at hrun
  rw [← hnext] at hrun hlt
  -- the new shape, and the object there
  have hm₂ := allocShape_moves hm₁.wf (dictionaryOf_nodeOk hm₁.wf hlt hi) nofun
  have hself := shapes_allocShape_self (h := h₁)
    (n := .dictionaryOf h₁.nextShape (h₁.shapes old) table)
  generalize hh₃ : (h₁.allocShape (.dictionaryOf h₁.nextShape (h₁.shapes old) table)).2 = h₃ at *
  have hold₃ : h₃.shapeOf a = some old := by rw [← hh₃]; exact hold₁
  have hnode : h₃.shapes old = h₁.shapes old := by rw [← hh₃, shapes_allocShape_lt hlt]
  have hlt₃ : h₁.nextShape < h₃.nextShape := by rw [← hh₃]; exact Nat.lt_succ_self _
  have hmark : (h₃.shapes h₁.nextShape).usedAsPrototype = (h₁.shapes old).usedAsPrototype := by
    rw [hself]
    rfl
  have he₃ := setShape_evolves hm₂.wf hold₃ hlt₃ fun hm => by rw [hmark, ← hnode, hm]
  subst hrun
  refine ⟨h₁.nextShape, ⟨table, true, .opened, false⟩, ?_,
    tableOf_eq.mpr ⟨shapeOf_setShape_self hold₃, ?_⟩, fun old' hold' => ?_, fun hlevel => ?_⟩
  rotate_left
  · rw [(setShape_arena hold₃).shapes, hself]
    rfl
  · rw [(setShape_arena hold₃).shapes, hmark, hshapes, some.inj (hold.symm.trans hold')]
  · cases hlevel
  by_cases hmarked : (h.shapes old).usedAsPrototype = true
  · refine ((hm₁.evolves.trans hm₂.evolves).trans he₃).moves ?_
    rw [hmarked] at hh₁
    have hlt' := epoch_bumpIf_true (h := h)
    rw [hh₁] at hlt'
    exact (hlt'.trans_le hm₂.extend.epoch_le).trans_le he₃.extend.epoch_le
  · refine (hm₁.trans hm₂).trans (setShape_moves hm₂.wf hold₃ hlt₃ fun hm => ?_)
    rw [hnode, hshapes] at hm
    exact absurd hm hmarked

/-- **`toDictionary`**, which raises the epoch for a prototype. -/
theorem toDictionary_spec (hrun : h.toDictionary a = some h') : ∃ s t, Converted rt h h' a s t := by
  obtain ⟨old, hold, hrun⟩ := bind_eq_some_iff.mp hrun
  have hlt := (hw.objects a old hold).1
  by_cases hdict : (h.shapes old).isDictionary = true
  · rw [if_pos hdict] at hrun
    obtain rfl := some.inj hrun
    obtain ⟨t, ht⟩ := isSome_iff_exists.mp hdict
    refine ⟨old, t, .refl hw, tableOf_eq.mpr ⟨hold, ht⟩, fun old' hold' => ?_, fun _ => rfl⟩
    rw [some.inj (hold.symm.trans hold')]
  · rw [if_neg hdict] at hrun
    have htree : (h.shapes old).dict = none := by simpa [Shape.isDictionary] using hdict
    obtain ⟨table, htable, hi, -⟩ :=
      Bronze.Shape.toDictionary_spec ((hw.nodes old hlt).reached htree)
    obtain ⟨table', htable', hrun⟩ := bind_eq_some_iff.mp hrun
    rw [(bumpIf_moves hw (h.shapes old).usedAsPrototype).extend.chain_eq hw hlt] at htable'
    obtain rfl : table = table' := some.inj (htable.symm.trans htable')
    refine converted_dictionary hw hold hi ?_
    have hnext := nextShape_bumpIf (h := h) (h.shapes old).usedAsPrototype
    obtain rfl := some.inj hrun
    rw [← hnext]
    rfl

end Conversion

/-! ## Definitions and deletions -/

section Definitions

variable {s slot : Nat} {t : PropertyTable} {name : PropertyKey} {enumerable accessor : Bool}

theorem own_dict (hdict : (h.shapes s).dict = some t) (hi : t.table.Inv) (name : PropertyKey) :
    (∃ pos e, t.table.find (some name) = some (some pos) ∧ t.table.entries[pos]? = some e ∧
      e.key = some name ∧ h.own s name = some (e.slot, e.accessor)) ∨
    t.table.find (some name) = some none ∧ h.own s name = none := by
  rw [own, entries_dict hdict, placeOf]
  rcases find_entry hi name with ⟨pos, e, hfind, he, hkey, hfirst⟩ | ⟨hfind, hfirst⟩
  · exact .inl ⟨pos, e, hfind, he, hkey, by rw [hfirst]; rfl⟩
  · exact .inr ⟨hfind, by rw [hfirst]; rfl⟩

theorem TableOk.set (hok : TableOk t) {pos : Nat} {e : DictEntry}
    (he : t.table.entries[pos]? = some e) (e' : DictEntry) (hplace : e'.place = e.place)
    (hconfigurable : t.level = .frozen → e'.configurable = false) :
    TableOk { t with table := { t.table with entries := t.table.entries.set pos e' } } ∧
      (t.table.entries.set pos e').map place = t.table.entries.map place := by
  have hplaces := map_place_set he hplace
  refine ⟨⟨hok.inv.reattribute hplaces, fun hlevel => ?_⟩, hplaces⟩
  obtain ⟨hextensible, hentries⟩ := hok.frozen hlevel
  refine ⟨hextensible, fun e₀ he₀ hlive => ?_⟩
  rcases mem_or_eq_of_mem_set he₀ with hmem | rfl
  · exact hentries e₀ hmem hlive
  · exact hconfigurable hlevel

variable (hw : WellFormed rt h)

include hw

section

variable (htable : h.tableOf a = some (s, t))

include htable

theorem WellFormed.tableOk : s < h.nextShape ∧ (h.shapes s).dict = some t ∧ TableOk t := by
  obtain ⟨hshape, hdict⟩ := tableOf_eq.mp htable
  have hs := (hw.objects a s hshape).1
  exact ⟨hs, hdict, (hw.nodes s hs).table t hdict⟩

theorem clearIf_spec (hrun : (if accessor then h.clearPair a slot else some h) = some h') :
    Moves rt h h' ∧ h'.tableOf a = some (s, t) := by
  split_ifs at hrun
  · exact ⟨putPair_moves hw hrun, putPair_tableOf hw htable hrun⟩
  · obtain rfl := some.inj hrun
    exact ⟨.refl hw, htable⟩

/-- **`dictDefine`**: a property that comes or changes its kind raises the epoch, where it matters;
none does in a frozen dictionary. -/
theorem dictDefine_spec (hfrozen : t.level = .frozen → ∃ slot, h.own s name = some (slot, accessor))
    (hrun : h.dictDefine a name enumerable accessor = some (slot, h')) :
    Moves rt h h' ∧ ∃ t', h'.tableOf a = some (s, t') ∧ t'.level = t.level := by
  obtain ⟨hs, hdict, hok⟩ := hw.tableOk htable
  obtain ⟨⟨s', t₀⟩, htable', hrun⟩ := bind_eq_some_iff.mp hrun
  obtain ⟨rfl, rfl⟩ := mk.inj (some.inj (htable.symm.trans htable'))
  obtain ⟨existing, hfind, hrun⟩ := bind_eq_some_iff.mp hrun
  obtain ⟨⟨slot', table⟩, hdefine, hrun⟩ := bind_eq_some_iff.mp hrun
  obtain ⟨slot₁, table', hdefine', hi, -⟩ :=
    Dictionary.dictDefine_spec hok.inv name enumerable accessor
  obtain rfl : table = table' :=
    (mk.inj (some.inj (hdefine.symm.trans hdefine'))).2
  have htable₁ := tableOf_setTable htable { t with table }
  -- the epoch being raised, any table is as good
  have hbump : t.level ≠ .frozen → ∀ h₂,
      (if accessor then (h.setTable s { t with table }).bumpProtoMutationEpoch.clearPair a slot'
        else some (h.setTable s { t with table }).bumpProtoMutationEpoch) = some h₂ →
      Moves rt h h₂ ∧ ∃ t', h₂.tableOf a = some (s, t') ∧ t'.level = t.level := by
    intro hlevel h₂ hclear
    have he := setTable_evolves hw hdict { t with table }
      ⟨hi, fun hl => absurd hl hlevel⟩ fun hl => absurd hl hlevel
    have hm := (he.trans (bump_moves he.wf).evolves).moves (Nat.lt_add_of_pos_right Nat.two_pos)
    obtain ⟨hm₂, htable₂⟩ := clearIf_spec hm.wf htable₁ hclear
    exact ⟨hm.trans hm₂, { t with table }, htable₂, rfl⟩
  rcases own_dict hdict hok.inv name with ⟨pos, e, hpos, he, hkey, hown⟩ | ⟨hpos, hown⟩
  · obtain rfl : some pos = existing := some.inj (hpos.symm.trans hfind)
    rw [map_some, entryAt_eq he] at hrun
    dsimp only at hrun
    by_cases hkind : e.accessor = accessor
    · rw [if_pos hkind] at hrun
      obtain ⟨rfl, rfl⟩ := mk.inj (some.inj hrun)
      simp only [Dictionary.dictDefine, hpos, Dictionary.entryAt_eq he, if_pos hkind,
        some.injEq, Prod.mk.injEq] at hdefine
      obtain ⟨hok', hplaces⟩ := hok.set he { e with enumerable } rfl fun hlevel =>
        (hok.frozen hlevel).2 e (mem_of_getElem? he) (by rw [DictEntry.live, hkey]; rfl)
      rw [hdefine.2] at hok'
      refine ⟨setTable_moves hw hdict _ hok' id fun _ => ?_, _, htable₁, rfl⟩
      rw [← hdefine.2]
      exact hplaces
    · rw [if_neg hkind] at hrun
      obtain ⟨h₂, hclear, hrun⟩ := bind_eq_some_iff.mp hrun
      obtain ⟨rfl, rfl⟩ := mk.inj (some.inj hrun)
      refine hbump (fun hlevel => ?_) _ hclear
      obtain ⟨slot₀, hslot₀⟩ := hfrozen hlevel
      rw [hown] at hslot₀
      exact hkind (congrArg snd (some.inj hslot₀))
  · obtain rfl : none = existing := some.inj (hpos.symm.trans hfind)
    have hlevel : t.level ≠ .frozen := by
      intro hlevel
      obtain ⟨slot₀, hslot₀⟩ := hfrozen hlevel
      rw [hown] at hslot₀
      cases hslot₀
    have hmark : ((h.setTable s { t with table }).shapes s).usedAsPrototype =
        (h.shapes s).usedAsPrototype := by
      rw [setTable, shapes_modifyShape_self]
    obtain ⟨h₂, hclear, hrun⟩ := bind_eq_some_iff.mp hrun
    obtain ⟨rfl, rfl⟩ := mk.inj (some.inj hrun)
    rw [hmark] at hclear
    by_cases hmarked : (h.shapes s).usedAsPrototype = true
    · rw [hmarked] at hclear
      exact hbump hlevel _ hclear
    · rw [Bool.eq_false_of_not_eq_true hmarked] at hclear
      have hm := setTable_moves hw hdict { t with table }
        ⟨hi, fun hl => absurd hl hlevel⟩ (fun hl => absurd hl hlevel) fun h =>
          (h.elim hmarked hlevel).elim
      obtain ⟨hm₂, htable₂⟩ := clearIf_spec hm.wf htable₁ hclear
      exact ⟨hm.trans hm₂, { t with table }, htable₂, rfl⟩

end

theorem describeEntry_moves {writable configurable : DictEntry → Bool}
    (hfrozen : ∀ s t, h.tableOf a = some (s, t) → t.level = .frozen →
      ∀ e, e.configurable = false → configurable e = false)
    (hrun : h.describeEntry a name writable configurable = some h') : Moves rt h h' := by
  obtain ⟨⟨s, t⟩, htable, hrun⟩ := bind_eq_some_iff.mp hrun
  obtain ⟨hs, hdict, hok⟩ := hw.tableOk htable
  obtain ⟨found, hfind, hrun⟩ := bind_eq_some_iff.mp hrun
  rcases own_dict hdict hok.inv name with ⟨pos, e, hpos, he, hkey, -⟩ | ⟨hpos, -⟩
  · obtain rfl : some pos = found := some.inj (hpos.symm.trans hfind)
    dsimp only at hrun
    rw [entryAt_eq he] at hrun
    obtain rfl := some.inj hrun
    obtain ⟨hok', hplaces⟩ := hok.set he
      { e with writable := writable e, configurable := configurable e } rfl
      fun hlevel => hfrozen s t htable hlevel e ((hok.frozen hlevel).2 e (mem_of_getElem? he)
        (by rw [DictEntry.live, hkey]; rfl))
    exact setTable_moves hw hdict _ hok' id fun _ => hplaces
  · obtain rfl : none = found := some.inj (hpos.symm.trans hfind)
    obtain rfl := some.inj hrun
    exact .refl hw

/-- The entry of a name taken out of the dictionary an object has or comes to. -/
theorem removeEntry_moves {old : Nat} (hold : h.shapeOf a = some old)
    (hopen : ∀ t, (h.shapes old).dict = some t → t.level ≠ .frozen) {h₂ : Heap} {removed : Bool}
    {table : Dictionary}
    (hdictionary : (h.bumpIf (h.shapes old).usedAsPrototype).toDictionary a = some h₂)
    (htable : h₂.tableOf a = some (s, t)) (hremove : t.table.remove name = some (removed, table)) :
    Moves rt h (h₂.setTable s { t with table }) := by
  have hm₁ := bumpIf_moves hw (h.shapes old).usedAsPrototype
  have hold₁ := shapeOf_bumpIf (h := h) (h.shapes old).usedAsPrototype a
  rw [hold] at hold₁
  obtain ⟨s', t', hc⟩ := toDictionary_spec hm₁.wf hdictionary
  obtain ⟨rfl, rfl⟩ := mk.inj (some.inj (hc.table.symm.trans htable))
  obtain ⟨hs, hdict, hok⟩ := hc.moves.wf.tableOk htable
  have hmark := hc.marked old hold₁
  rw [shapes_bumpIf] at hmark
  have hlevel : t'.level ≠ .frozen := by
    intro hlevel
    rw [hc.frozen hlevel, tableOf_bumpIf] at htable
    obtain ⟨hshape, hdict⟩ := tableOf_eq.mp htable
    obtain rfl : old = s' := some.inj (hold.symm.trans hshape)
    exact hopen t' hdict hlevel
  obtain ⟨removed', table', hremove', hi, -⟩ := remove_spec hok.inv name
  obtain rfl : table = table' :=
    (mk.inj (some.inj (hremove.symm.trans hremove'))).2
  have hok' : TableOk { t' with table } := ⟨hi, fun hl => absurd hl hlevel⟩
  by_cases hmarked : (h.shapes old).usedAsPrototype = true
  · have he := setTable_evolves hc.moves.wf hdict _ hok' fun hl => absurd hl hlevel
    refine ((hm₁.evolves.trans hc.moves.evolves).trans he).moves ?_
    have hlt := epoch_bumpIf_true (h := h)
    rw [hmarked] at hc
    exact hlt.trans_le hc.moves.extend.epoch_le
  · refine (hm₁.trans hc.moves).trans ?_
    refine setTable_moves hc.moves.wf hdict _ hok' (fun hl => absurd hl hlevel) fun h => ?_
    rw [hmark] at h
    exact (h.elim hmarked hlevel).elim

theorem configurable_frozen (hs : s < h.nextShape)
    (hdict : (h.shapes s).dict = some t) (hlevel : t.level = .frozen) {info : PropertyInfo}
    (hlookup : h.lookupProperty s name = some (some info)) : info.configurable = false := by
  rw [hw.lookupProperty_eq hs, entries_dict hdict, some.injEq] at hlookup
  obtain ⟨e, hfind, rfl⟩ := map_eq_some_iff.mp hlookup
  have hkey : e.key = some name := by simpa using find?_some hfind
  exact (((hw.nodes s hs).table t hdict).frozen hlevel).2 e (mem_of_find?_eq_some hfind)
    (by rw [DictEntry.live, hkey]; rfl)

theorem open_of_extensible (hshape : h.shapeOf a = some s) (hextensible : h.isExtensible s = true)
    {t : PropertyTable} (hdict : (h.shapes s).dict = some t) : t.level ≠ .frozen := by
  intro hlevel
  have hok := (hw.nodes s (hw.objects a s hshape).1).table t hdict
  rw [isExtensible, hdict] at hextensible
  exact absurd (hextensible.symm.trans (hok.frozen hlevel).1) (by decide)

/-- **`deleteProperty`** raises the epoch for a prototype, and leaves a frozen dictionary alone. -/
theorem deleteProperty_moves {deleted : Bool}
    (hrun : h.deleteProperty a name = some (deleted, h')) : Moves rt h h' := by
  obtain ⟨s, hshape, hrun⟩ := bind_eq_some_iff.mp hrun
  obtain ⟨found, hlookup, hrun⟩ := bind_eq_some_iff.mp hrun
  have hs := (hw.objects a s hshape).1
  cases found with
  | none =>
    obtain ⟨-, rfl⟩ := mk.inj (some.inj hrun)
    exact .refl hw
  | some info =>
    by_cases hconfigurable : info.configurable = true
    · simp only [hconfigurable] at hrun
      obtain ⟨h₂, hdictionary, hrun⟩ := bind_eq_some_iff.mp hrun
      obtain ⟨⟨s₂, t⟩, htable, hrun⟩ := bind_eq_some_iff.mp hrun
      obtain ⟨⟨removed, table⟩, hremove, hrun⟩ := bind_eq_some_iff.mp hrun
      have hm := removeEntry_moves hw hshape (fun t hdict hlevel => ?_) hdictionary htable hremove
      · by_cases hremoved : removed = true
        · simp only [hremoved] at hrun
          obtain ⟨h₃, hslot, hrun⟩ := bind_eq_some_iff.mp hrun
          obtain ⟨h₄, hpair, hrun⟩ := bind_eq_some_iff.mp hrun
          obtain ⟨-, rfl⟩ := mk.inj (some.inj hrun)
          have hm₃ := hm.trans (setSlot_moves hm.wf hslot)
          split_ifs at hpair
          · exact hm₃.trans (setSlot_moves hm₃.wf hpair)
          · obtain rfl := some.inj hpair
            exact hm₃
        · simp only [hremoved] at hrun
          obtain ⟨-, rfl⟩ := mk.inj (some.inj hrun)
          exact hm
      · have hfalse := configurable_frozen hw hs hdict hlevel hlookup
        exact absurd (hconfigurable.symm.trans hfalse) (by decide)
    · simp only [hconfigurable] at hrun
      obtain ⟨-, rfl⟩ := mk.inj (some.inj hrun)
      exact .refl hw

end Definitions

section Additions

variable {s next slot : Nat} {name : PropertyKey} {enumerable accessor writable configurable : Bool}

theorem own_eq_none {s : Nat} (hown : h.own s name = none) (e : DictEntry) (he : e ∈ h.entries s) :
    e.key ≠ some name := by
  rw [own, placeOf, map_eq_none_iff, find?_eq_none] at hown
  simpa using hown e he

/-- A chain with a property added has it there, and the others where they were. -/
theorem own_addPropertyKey {c : Bronze.Shape} (hc : ∀ e ∈ c.entries, e.key ≠ some name) :
    placeOf (c.addPropertyKey name enumerable accessor writable configurable).entries name =
      some (c.nextSlotIndex (slotWidth accessor), accessor) := by
  have hnone : c.entries.find? (fun e => e.key = some name) = none := by
    simpa using hc
  rw [Bronze.Shape.addPropertyKey, placeOf, Bronze.Shape.entries, find?_append, hnone]
  simp

/-- **An object with a property added**, which raises the epoch for a prototype. -/
theorem addProperty_spec (hw : WellFormed rt h) (hshape : h.shapeOf a = some s)
    (hown : h.own s name = none) {desired : SlotRepr} {h₁ : Heap}
    (hrun : (h.bumpIf (h.shapes s).usedAsPrototype).addPropertyKey s name enumerable accessor
      writable configurable desired = some (next, slot, h₁)) :
    Moves rt h (h₁.setShape a next) ∧ next < (h₁.setShape a next).nextShape ∧
      (h₁.setShape a next).own next name = some (slot, accessor) := by
  have hm₀ := bumpIf_moves hw (h.shapes s).usedAsPrototype
  have hs := (hw.objects a s hshape).1
  have hchain := hm₀.extend.chain_eq hw hs
  have htree : (h.shapes s).dict = none := by
    cases hdict : (h.shapes s).dict with
    | none => rfl
    | some t => simp [addPropertyKey, Shape.isDictionary, hdict] at hrun
  have hnew : ∀ e ∈ (h.chain s).entries, e.key ≠ some name := by
    rw [← entries_tree htree]
    exact own_eq_none hown
  obtain ⟨ha, hslot⟩ := addPropertyKey_spec hm₀.wf (hs.trans_le hm₀.extend.shape_le) (by
    rw [hchain, ← mem_keys_entries]
    rintro ⟨e, he, hkey⟩
    exact hnew e he hkey) hrun
  have hold : h₁.shapeOf a = some s := by
    rw [shapeOf, ha.cells]
    exact (shapeOf_bumpIf _ a).trans hshape
  have hmark := ha.marked
  rw [shapes_bumpIf] at hmark
  have harena := setShape_arena (t := next) hold
  refine ⟨?_, ha.lt.trans_eq harena.nextShape.symm, ?_⟩
  · have hm := hm₀.trans ha.moves
    by_cases hmarked : (h.shapes s).usedAsPrototype = true
    · have he := setShape_evolves hm.wf hold ha.lt fun _ => hmark hmarked
      refine (hm.evolves.trans he).moves ?_
      have hlt := epoch_bumpIf_true (h := h)
      rw [hmarked] at ha
      exact hlt.trans_le (ha.moves.extend.epoch_le.trans he.extend.epoch_le)
    · refine hm.trans (setShape_moves hm.wf hold ha.lt fun hm₁ => ?_)
      rw [ha.marks (.inr (by rwa [shapes_bumpIf])) s (hs.trans_le hm₀.extend.shape_le),
        shapes_bumpIf] at hm₁
      exact absurd hm₁ hmarked
  · rw [own_of_shapes harena.shapes, own, entries_tree ha.tree, ha.chain, hchain,
      own_addPropertyKey hnew, hslot, hchain]

theorem own_of_absent (hw : WellFormed rt h) (hshape : h.shapeOf a = some s)
    (hlookup : h.lookupProperty s name = some none) : h.own s name = none :=
  own_of_lookup hw (hw.objects a s hshape).1 hlookup

variable {getter setter : Value}

theorem defineInTable_moves (hw : WellFormed rt h)
    (hopen : ∀ s t, h.tableOf a = some (s, t) → t.level ≠ .frozen) {h₁ h₂ : Heap}
    (hdictionary : h.toDictionary a = some h₁)
    (hdefine : h₁.dictDefine a name enumerable true = some (slot, h₂))
    (hpair : h₂.setPair a slot getter setter = some h') : Moves rt h h' := by
  obtain ⟨s, t, hc⟩ := toDictionary_spec hw hdictionary
  obtain ⟨hm, -⟩ := dictDefine_spec hc.moves.wf hc.table (fun hlevel => by
    have htable := hc.table
    rw [hc.frozen hlevel] at htable
    exact absurd hlevel (hopen s t htable)) hdefine
  exact (hc.moves.trans hm).trans (setPair_moves hm.wf hpair)

/-- **`defineAccessor`**, on an object that is not frozen. -/
theorem defineAccessor_moves (hw : WellFormed rt h)
    (hopen : ∀ s t, h.tableOf a = some (s, t) → t.level ≠ .frozen)
    (hrun : h.defineAccessor a name getter setter enumerable configurable = some h') :
    Moves rt h h' := by
  obtain ⟨s, hshape, hrun⟩ := bind_eq_some_iff.mp hrun
  obtain ⟨found, hlookup, hrun⟩ := bind_eq_some_iff.mp hrun
  cases found with
  | some own =>
    dsimp only at hrun
    split_ifs at hrun
    · have hm := bumpIf_moves hw (h.shapes s).usedAsPrototype
      exact hm.trans (setPair_moves hm.wf hrun)
    · obtain ⟨h₁, hdictionary, hrun⟩ := bind_eq_some_iff.mp hrun
      obtain ⟨⟨slot, h₂⟩, hdefine, hpair⟩ := bind_eq_some_iff.mp hrun
      exact defineInTable_moves hw hopen hdictionary hdefine hpair
  | none =>
    split_ifs at hrun with hdict hfull
    · obtain ⟨⟨slot, h₂⟩, hdefine, hpair⟩ := bind_eq_some_iff.mp hrun
      refine defineInTable_moves hw hopen ?_ hdefine hpair
      rw [toDictionary, hshape]
      exact if_pos hdict
    · obtain ⟨h₁, hdictionary, hrun⟩ := bind_eq_some_iff.mp hrun
      obtain ⟨⟨slot, h₂⟩, hdefine, hpair⟩ := bind_eq_some_iff.mp hrun
      exact defineInTable_moves hw hopen hdictionary hdefine hpair
    · obtain ⟨⟨next, slot, h₁⟩, hadd, hrun⟩ := bind_eq_some_iff.mp hrun
      obtain ⟨h₂, hclear, hpair⟩ := bind_eq_some_iff.mp hrun
      obtain ⟨hm, -⟩ := addProperty_spec hw hshape (own_of_absent hw hshape hlookup) hadd
      have hm₂ := putPair_moves hm.wf hclear
      exact (hm.trans hm₂).trans (setPair_moves hm₂.wf hpair)

end Additions

section Prototype

variable {s : Nat} {proto : Value}

/-- **`setPrototype`** raises the epoch. -/
theorem setPrototype_moves (hw : WellFormed rt h) {newRoot : Nat} (hroot : RootOk h newRoot)
    (hrun : h.setPrototype a newRoot = some h') : Moves rt h h' := by
  have hm₀ := bump_moves hw
  obtain ⟨h₁, hdictionary, hrun⟩ := bind_eq_some_iff.mp hrun
  obtain ⟨s, hshape, hrun⟩ := bind_eq_some_iff.mp hrun
  obtain rfl := some.inj hrun
  obtain ⟨s', t, hc⟩ := toDictionary_spec hm₀.wf hdictionary
  obtain ⟨hshape', hdict⟩ := tableOf_eq.mp hc.table
  obtain rfl : s' = s := some.inj (hshape'.symm.trans hshape)
  have hroot₁ := (hroot.extend hm₀.extend).extend hc.moves.extend
  have hf : FieldOk rt h₁ s' { h₁.shapes s' with root := newRoot } :=
    { node := ⟨rfl, rfl, rfl, rfl, rfl, rfl, rfl, rfl, rfl, rfl, rfl⟩
      tree := fun hnone => by rw [hdict] at hnone; cases hnone
      marked := id
      newMark := fun _ => .inl
      frozen := fun t' ht' hl => ⟨t', ht', hl, rfl⟩ }
  have he : Evolves rt h₁ (h₁.modifyShape s' fun n => { n with root := newRoot }) := by
    refine modifyShape_evolves hc.moves.wf hf
      ⟨.inr ⟨by rw [hdict]; rfl, ?_⟩, fun hnone => ?_, fun t' ht' => .inl ?_, fun e he => .inl ?_⟩
    · rw [shapes_modifyShape_self]
      exact hroot₁.extend (modifyShape_extends hf)
    · rwa [shapes_modifyShape_self] at hnone
    · rwa [shapes_modifyShape_self] at ht'
    · rwa [shapes_modifyShape_self] at he
  refine ((hm₀.evolves.trans hc.moves.evolves).trans he).moves ?_
  have hlt : h.protoEpoch < h.bumpProtoMutationEpoch.protoEpoch :=
    Nat.lt_add_of_pos_right Nat.two_pos
  exact hlt.trans_le hc.moves.extend.epoch_le

/-- **`setPrototypeOf`**, of a prototype that the heap holds. -/
theorem setPrototypeOf_moves (hw : WellFormed rt h)
    (hlive : ∀ p, proto = .object p → p < h.nextCell)
    {done : Bool} (hrun : h.setPrototypeOf rt a proto = some (done, h')) : Moves rt h h' := by
  obtain ⟨s, hshape, hrun⟩ := bind_eq_some_iff.mp hrun
  split_ifs at hrun with hsame hextensible hloop
  · obtain ⟨-, rfl⟩ := mk.inj (some.inj hrun)
    exact .refl hw
  · obtain ⟨-, rfl⟩ := mk.inj (some.inj hrun)
    exact .refl hw
  · obtain ⟨-, rfl⟩ := mk.inj (some.inj hrun)
    exact .refl hw
  · obtain ⟨h₁, hset, hrun⟩ := bind_eq_some_iff.mp hrun
    obtain ⟨-, rfl⟩ := mk.inj (some.inj hrun)
    obtain ⟨hm, hroot⟩ := rtRootShapeForPrototype_spec hw hlive rfl
    exact hm.trans (setPrototype_moves hm.wf hroot hset)

theorem map_place_stampEntries (frozen : Bool) (entries : List DictEntry) :
    (stampEntries frozen entries).map place = entries.map place := by
  rw [stampEntries, List.map_map]
  refine List.map_congr_left fun e _ => ?_
  rw [Function.comp_apply]
  split_ifs <;> rfl

theorem configurable_stampEntries {frozen : Bool} {entries : List DictEntry} {e : DictEntry}
    (he : e ∈ stampEntries frozen entries) (hlive : e.live = true) : e.configurable = false := by
  obtain ⟨e₀, -, rfl⟩ := mem_map.mp he
  by_cases h : e₀.live = true
  · rw [if_pos h]
  · rw [if_neg h] at hlive
    exact absurd hlive h

theorem tableOk_setIntegrity {t : PropertyTable} (hok : TableOk t) (want : IntegrityLevel) :
    TableOk { t with
      table := if want = .opened then t.table
        else { t.table with entries := stampEntries (want = .frozen) t.table.entries }
      extensible := false
      level := if want.rank > t.level.rank then want else t.level } := by
  refine ⟨?_, fun hlevel => ⟨rfl, ?_⟩⟩
  · dsimp only
    split_ifs
    · exact hok.inv
    · exact hok.inv.reattribute (map_place_stampEntries ..)
  · dsimp only at hlevel ⊢
    split_ifs with hwant
    · -- nothing is made fast, so the table was frozen already
      subst hwant
      exact (hok.frozen ((if_neg (Nat.not_lt_zero _)).symm.trans hlevel)).2
    · exact fun e he hlive => configurable_stampEntries he hlive

/-- **`setIntegrity`** moves no property. -/
theorem setIntegrity_moves (hw : WellFormed rt h) {want : IntegrityLevel}
    (hrun : h.setIntegrity a want = some h') : Moves rt h h' := by
  obtain ⟨h₁, hdictionary, hrun⟩ := bind_eq_some_iff.mp hrun
  obtain ⟨⟨s, t⟩, htable, hrun⟩ := bind_eq_some_iff.mp hrun
  obtain rfl := some.inj hrun
  obtain ⟨s', t', hc⟩ := toDictionary_spec hw hdictionary
  obtain ⟨rfl, rfl⟩ := mk.inj (some.inj (hc.table.symm.trans htable))
  obtain ⟨hs, hdict, hok⟩ := hc.moves.wf.tableOk htable
  refine hc.moves.trans (setTable_moves hc.moves.wf hdict _ (tableOk_setIntegrity hok want)
    (fun hlevel => ?_) fun _ => ?_)
  · dsimp only
    rw [hlevel]
    cases want <;> decide
  · dsimp only
    split_ifs
    · rfl
    · exact map_place_stampEntries _ _

/-- **`harden`** moves no property. -/
theorem harden_moves (hw : WellFormed rt h) (hrun : h.harden a = some h') : Moves rt h h' := by
  obtain ⟨h₁, hset, hrun⟩ := bind_eq_some_iff.mp hrun
  obtain ⟨⟨s, t⟩, htable, hrun⟩ := bind_eq_some_iff.mp hrun
  obtain rfl := some.inj hrun
  have hm := setIntegrity_moves hw hset
  obtain ⟨hs, hdict, hok⟩ := hm.wf.tableOk htable
  exact hm.trans (setTable_moves hm.wf hdict { t with hardened := true } ⟨hok.inv, hok.frozen⟩
    id fun _ => rfl)

end Prototype

end Bronze.Objects
