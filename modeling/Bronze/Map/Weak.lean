import Bronze.Map.Sharing

/-!
# Tables of weak keys

The table of a `WeakMap` or a `WeakSet` holds its pairs as ephemerons (`traceEphemerons` of
`src/runtime/heap_trace.cpp`): a collection turns the pair of a key that dies into a tombstone, and
the counts of the table do not follow. It may do so at an allocation in the midst of an operation of
the table itself: the allocation of an operation either keeps every pair or sweeps the dead ones
away.

## Main results

* `Loose.sweep`, `Loose.keeps`: collections keep the invariant
* `Holding.find_spec`, `Holding.set_spec`, `Holding.remove_spec`: so does every operation
-/

namespace Bronze.Collections

open LinearProbing
open List Option MapHeader Value

/-- A collector, and which objects are still there after it ran. -/
structure Sweeper extends Collector where
  survives : List ObjectId → Heap → ObjectId → Bool
  survives_iff : ∀ roots h o, h.live o → (survives roots h o = true ↔ (run roots h).live o)

/-- The key is no object, or one that is alive. -/
def Value.Survives (alive : ObjectId → Bool) (v : Value) : Bool := v.identity.all alive

/-- A pair, after its key was visited. -/
def Entry.sweep (alive : ObjectId → Bool) (e : Entry) : Entry :=
  if e.key.all (Value.Survives alive) then e else .tombstone

/-- `traceEphemerons`, once it is known which objects are alive. -/
def sweep (alive : ObjectId → Bool) (m : MapHeader) : MapHeader :=
  { m with entries := m.entries.map fun d => d.map (Entry.sweep alive) }

section Sweep

variable {alive : ObjectId → Bool} {m : MapHeader} {h h' : Heap} {slot : Nat}

theorem key_sweep (e : Entry) : (e.sweep alive).key = e.key.filter (Survives alive) := by
  unfold Entry.sweep
  cases hk : e.key with
  | none => simp [hk]
  | some k =>
    rw [all_some, filter_some]
    split_ifs
    · exact hk
    · rfl

theorem sweep_entryData : (sweep alive m).entryData = m.entryData.map (Entry.sweep alive) :=
  entryData_map m (fun d => d.map (Entry.sweep alive)) rfl

theorem sweep_capacity : (sweep alive m).capacity = m.capacity := by
  simp [sweep_entryData, capacity]

theorem sweep_slots : (sweep alive m).slots = m.slots.map (Entry.sweep alive) := by
  rw [slots, sweep_entryData, slots, map_take]
  rfl

theorem sweep_keyAt : (sweep alive m).keyAt slot =
    (m.keyAt slot).filter (Survives alive) := by
  rw [keyAt, sweep_entryData, getElem?_map, keyAt]
  cases m.entryData[slot]? with
  | none => rfl
  | some e => exact key_sweep e

theorem sweep_keys : (sweep alive m).keys = m.keys.filter (Survives alive) := by
  rw [MapHeader.keys, sweep_slots, MapHeader.keys]
  induction m.slots with
  | nil => rfl
  | cons e entries ih =>
    rw [map_cons, filterMap_cons, key_sweep, ih, filterMap_cons]
    cases e.key with
    | none => rfl
    | some k =>
      rw [filter_some, filter_cons]
      split_ifs <;> rfl

theorem sweep_all (hall : ∀ o, alive o = true) : sweep alive m = m := by
  have hentry : Entry.sweep alive = id := by
    funext e
    have hkey : ∀ k, Survives alive k = true := by
      intro k
      rw [Survives]
      cases k.identity <;> simp [hall]
    cases hk : e.key <;> simp [Entry.sweep, hk, hkey]
  rw [sweep, hentry, List.map_id_fun]
  cases m with
  | mk self entries => cases entries <;> rfl

theorem liveSlot_sweep (hs : LiveSlot (sweep alive m) slot) :
    LiveSlot m slot ∧ home h (sweep alive m) slot = home h m slot := by
  obtain ⟨hlt, hsome⟩ := hs
  obtain ⟨k, hk⟩ := isSome_iff_exists.mp hsome
  rw [sweep_keyAt] at hk
  obtain ⟨hat, -⟩ := filter_eq_some_iff.mp hk
  refine ⟨⟨hlt, by rw [hat]; rfl⟩, ?_⟩
  rw [home, sweep_keyAt, hk, home, hat]

theorem Base.sweep (hb : Base h m) : Base h (sweep alive m) where
  used_le := by
    rw [sweep_capacity]
    exact hb.used_le
  capacity_le := by
    rw [sweep_capacity]
    exact hb.capacity_le
  self_live := hb.self_live
  keys_live key hkey := by
    rw [sweep_keys] at hkey
    exact hb.keys_live key (mem_of_mem_filter hkey)
  distinct := by
    rw [sweep_keys]
    exact hb.distinct.sublist (filter_sublist.map _)

/-- A sweep that lets go of what dies keeps the rest of the table, and what its caller holds. -/
theorem keeps_sweep {args : List ObjectId} (hc : Heap.Collects (m.self :: args) h h')
    (halive : ∀ o, h.live o → (alive o = true ↔ h'.live o)) :
    Heap.Keeps ((sweep alive m).roots ++ args) h h' := by
  have hlive : ∀ o ∈ (sweep alive m).roots ++ args, h.live o → h'.live o := by
    intro o ho hlive
    rcases mem_append.mp ho with ho | ho
    · rcases mem_cons.mp ho with rfl | ho
      · exact hc.live _ mem_cons_self hlive
      · -- the key of a pair that is left was alive
        obtain ⟨e', he', hid⟩ := mem_filterMap.mp ho
        rw [sweep_entryData] at he'
        obtain ⟨e, -, rfl⟩ := mem_map.mp he'
        obtain ⟨k, hk, hko⟩ := bind_eq_some_iff.mp hid
        rw [key_sweep] at hk
        have hsurvives := (filter_eq_some_iff.mp hk).2
        rw [Survives, hko] at hsurvives
        exact (halive o hlive).mp hsurvives
    · exact hc.live o (mem_cons_of_mem _ ho) hlive
  exact ⟨hlive, fun o ho hl => hc.old o hl (hlive o ho hl), hc.epoch_le,
    fun he o ho hl => hc.moved he o hl (hlive o ho hl)⟩

end Sweep

/-! ## The invariant -/

/-- **The invariant of a table that may be weak**: `liveCount` is an upper bound. -/
structure Loose (h : Heap) (m : MapHeader) : Prop where
  base : Base h m
  live_ge : m.slots.countP (·.key.isSome) ≤ m.liveCount
  epoch_le : m.indexEpoch ≤ h.relocationEpoch
  stable : m.indexEpoch = kStableIndex → ∀ key ∈ m.keys, keyMayMove h key = false
  ready : ∀ t, m.index = some t → epochCurrent h m = true → Ready h m t

/-- The table with its entries counted. -/
def recount (m : MapHeader) : MapHeader :=
  { m with liveCount := m.slots.countP (·.key.isSome) }

section Loose

variable {alive : ObjectId → Bool} {h h' : Heap} {m : MapHeader}

theorem Inv.loosen (hi : Inv h m) {n : Nat} (hn : m.liveCount ≤ n) :
    Loose h { m with liveCount := n } where
  base := ⟨hi.base.used_le, hi.base.capacity_le, hi.base.self_live, hi.base.keys_live,
    hi.base.distinct⟩
  live_ge := hi.live_eq.symm.le.trans hn
  epoch_le := hi.epoch_le
  stable := hi.stable
  ready t ht hcur := ⟨(hi.ready t ht hcur).length, (hi.ready t ht hcur).indexed⟩

theorem Inv.loose (hi : Inv h m) : Loose h m := hi.loosen le_rfl

section

variable (hl : Loose h m)

include hl

theorem Loose.recount : Inv h (recount m) where
  base := ⟨hl.base.used_le, hl.base.capacity_le, hl.base.self_live, hl.base.keys_live,
    hl.base.distinct⟩
  live_eq := rfl
  epoch_le := hl.epoch_le
  stable := hl.stable
  ready t ht hcur := ⟨(hl.ready t ht hcur).length, (hl.ready t ht hcur).indexed⟩

/-- **Collections that let no key die keep the invariant.** -/
theorem Loose.keeps (hk : Heap.Keeps m.roots h h') : Loose h' m :=
  (hl.recount.keeps hk).loosen hl.live_ge

/-- **A sweep keeps the invariant**: the buckets of what it removed lead to tombstones. -/
theorem Loose.sweep : Loose h (sweep alive m) where
  base := hl.base.sweep
  live_ge := by
    refine le_trans ?_ hl.live_ge
    rw [sweep_slots, countP_map]
    apply countP_mono_left
    intro e _ hsome
    obtain ⟨k, hk⟩ := isSome_iff_exists.mp hsome
    rw [key_sweep] at hk
    rw [(filter_eq_some_iff.mp hk).1]
    rfl
  epoch_le := hl.epoch_le
  stable hs key hkey := by
    rw [sweep_keys] at hkey
    exact hl.stable hs key (mem_of_mem_filter hkey)
  ready t ht hcur := by
    obtain ⟨hlen, hindexed⟩ := hl.ready t ht hcur
    refine ⟨by rw [hlen, sweep_capacity], hindexed.mono ?_ le_rfl le_rfl⟩
    exact fun slot hs => liveSlot_sweep hs

theorem Loose.not_contains (hzero : m.liveCount = 0) (key : Value) : ¬Contains m key := by
  have hcount : (Collections.recount m).liveCount = 0 := by
    have := hl.live_ge
    rw [hzero] at this
    exact Nat.le_zero.mp this
  have hempty : ¬Contains (Collections.recount m) key :=
    not_contains_of_live_eq_zero (s := { heap := h, map := Collections.recount m })
      hl.recount hcount
  exact hempty

end

variable {key val : Value} {s : State}

section

variable (hl : Loose s.heap s.map)

include hl

theorem update_loose (slot : Nat) (val : Value) : Loose s.heap (update slot val s.map) :=
  (update_spec (s := { s with map := recount s.map }) hl.recount slot val).loosen hl.live_ge

theorem bury_loose {slot : Nat} (h : Holds s.map key slot) : Loose s.heap (bury slot s.map) :=
  (bury_spec (s := { s with map := recount s.map }) hl.recount h).loosen
    (Nat.sub_le_sub_right hl.live_ge 1)

theorem clear_loose : Loose s.heap (clear s.map) :=
  (clear_spec (s := { s with map := recount s.map }) hl.recount).1.loosen (Nat.zero_le 0)

end

theorem insert_loose (val : Value) (hl : Loose s.heap s.map) {t : Buckets}
    (ht : s.map.index = some t) (hcur : epochCurrent s.heap s.map = true) (hkey : key.Live s.heap)
    (hnew : ¬Contains s.map key) (hroom : s.map.usedCount < s.map.capacity) :
    ∃ s', insert key val s = .ok s' ∧ Loose s'.heap s'.map := by
  obtain ⟨s', hrun, hi', -⟩ := insert_spec (s := { s with map := recount s.map }) val hl.recount
    ht hcur hkey hnew hroom
  unfold insert at hrun ⊢
  dsimp only at hrun ⊢
  have hplace : place (recount s.map).buckets ((recount s.map).bucketCount - 1)
      (recount s.map).usedCount (recount s.map).bucketCount
      ((hashKey s.heap key).toNat &&& ((recount s.map).bucketCount - 1)) =
    place s.map.buckets (s.map.bucketCount - 1) s.map.usedCount s.map.bucketCount
      ((hashKey s.heap key).toNat &&& (s.map.bucketCount - 1)) := rfl
  rw [hplace] at hrun
  revert hrun
  cases place s.map.buckets (s.map.bucketCount - 1) s.map.usedCount s.map.bucketCount
      ((hashKey s.heap key).toNat &&& (s.map.bucketCount - 1)) with
  | none => nofun
  | some t' =>
    intro hrun
    obtain rfl := Except.ok.inj hrun
    exact ⟨_, rfl, hi'.loosen (Nat.succ_le_succ hl.live_ge)⟩

end Loose

/-- How a table holds its keys: what runs at an allocation. -/
inductive Holding where
  | strong (gc : Collector)
  | weak (gc : Sweeper)

namespace Holding

variable (hold : Holding)

/-- `Heap::allocate`, in an operation of the table. -/
def allocation : Allocation := fun args bytes s =>
  match hold with
  | .strong gc => gc.allocation args bytes s
  | .weak gc => do
    let roots := s.map.self :: args
    let heap ← allocate gc.toCollector roots bytes s.heap
    let alive := gc.survives roots { s.heap with allocations := s.heap.allocations + 1 }
    return { heap, map := sweep alive s.map }

instance : Coe Holding Allocation := ⟨allocation⟩

/-! ### One lemma for each operation -/

section Specs

variable {hold : Holding} {args : List ObjectId} {key val : Value} {s s' s'' : State}

/-- The table after a stretch of an operation: keys may be gone, and no slot is handed out. -/
structure Shrinks (args : List ObjectId) (s s' : State) : Prop where
  usedCount : s'.map.usedCount = s.map.usedCount
  capacity : s'.map.capacity = s.map.capacity
  keys : List.Sublist s'.map.keys s.map.keys
  live : ∀ o ∈ args, s.heap.live o → s'.heap.live o

theorem Shrinks.refl (args : List ObjectId) (s : State) : Shrinks args s s :=
  ⟨rfl, rfl, Sublist.refl _, fun _ _ ho => ho⟩

theorem Shrinks.not_contains (h : Shrinks args s s') (hnew : ¬Contains s.map key) :
    ¬Contains s'.map key :=
  fun ⟨k, hk, hcan⟩ => hnew ⟨k, h.keys.subset hk, hcan⟩

theorem Shrinks.live_key (h : Shrinks args s s') (hargs : ∀ o ∈ key.identity, o ∈ args)
    (hkey : key.Live s.heap) : key.Live s'.heap :=
  fun o ho => h.live o (hargs o ho) (hkey o ho)

section

variable (hb : Base s.heap s.map)

include hb

/-- **An allocation** sweeps at most. -/
theorem allocation_spec (bytes : Nat) :
    Yields (hold.allocation args bytes s) fun s' => Base s'.heap s'.map ∧ Shrinks args s s' ∧
      bytes ≤ 0xFFFFFFFF := by
  cases hold with
  | strong gc =>
    refine (allocation_yields s bytes).mono ?_
    rintro ⟨h', m⟩ ⟨hmap, hc, hsize⟩
    obtain rfl : m = s.map := hmap
    exact ⟨hb.collects hc, ⟨rfl, rfl, Sublist.refl _, live_collects hc⟩, hsize⟩
  | weak gc =>
    unfold allocation
    dsimp only
    cases hrun : allocate gc.toCollector (s.map.self :: args) bytes s.heap with
    | error e =>
      have hy := allocate_yields gc.toCollector (s.map.self :: args) bytes s.heap
      rw [hrun] at hy
      exact hy
    | ok h' =>
      obtain ⟨hc, hsize⟩ := allocate_spec hrun
      have hh' : h' = gc.run (s.map.self :: args)
          { s.heap with allocations := s.heap.allocations + 1 } := by
        unfold allocate at hrun
        dsimp only at hrun
        split_ifs at hrun
        exact (Except.ok.inj hrun).symm
      have halive : ∀ o, s.heap.live o → (gc.survives (s.map.self :: args)
          { s.heap with allocations := s.heap.allocations + 1 } o = true ↔ h'.live o) := by
        intro o ho
        rw [hh']
        exact gc.survives_iff _ _ o ho
      have hk := keeps_sweep (m := s.map) hc halive
      refine ⟨hb.sweep.keeps (hk.mono (subset_append_left ..)), ⟨rfl, sweep_capacity, ?_, ?_⟩,
        hsize⟩
      · rw [sweep_keys]
        exact filter_sublist
      · exact fun o ho => hk.live o (mem_append_right _ ho)

theorem bucketBlock_spec (wanted : Nat) :
    Yields (bucketBlock hold args wanted s) fun s' =>
      Base s'.heap s'.map ∧ Shrinks args s s' := by
  unfold bucketBlock
  split_ifs
  · exact ⟨hb, .refl args s⟩
  · refine (allocation_spec hb _).bind fun s₁ ⟨hb₁, hs, _⟩ => ?_
    have hsame : SameEntries s₁.map
        { s₁.map with index := some (replicate wanted 0) } := ⟨rfl, rfl, rfl⟩
    exact ⟨hsame.base hb₁, hs.usedCount, hs.capacity, hs.keys, hs.live⟩

/-- **`reindex`** brings the bucket block and the count up to date. -/
theorem reindex_spec :
    Yields (reindex hold args s) fun s' => Loose s'.heap s'.map ∧ Shrinks args s s' ∧
      (∃ t, s'.map.index = some t) ∧ epochCurrent s'.heap s'.map = true := by
  refine (bucketBlock_spec hb _).bind fun s₁ ⟨hb₁, hs⟩ => ?_
  rw [← hs.capacity]
  obtain ⟨t, hrun, hlen, ht⟩ := placeEntries_spec (h := s₁.heap) hb₁.used_le
    (bucketCountFor_spec s₁.map.capacity).2 (lt_bucketCountFor hb₁.used_le)
  rw [hrun]
  obtain ⟨hinv, hcur⟩ := withIndex_spec hb₁ hlen ht
  exact ⟨hinv.loose, ⟨hs.usedCount, hs.capacity, hs.keys, hs.live⟩, ⟨t, rfl⟩, hcur⟩

end

/-- **`ensureIndex`** leaves an index that is current. -/
theorem ensureIndex_spec (hl : Loose s.heap s.map) :
    Yields (ensureIndex hold args s) fun s' => Loose s'.heap s'.map ∧ Shrinks args s s' ∧
      (∃ t, s'.map.index = some t) ∧ epochCurrent s'.heap s'.map = true := by
  unfold ensureIndex
  split_ifs with h
  · simp only [Bool.and_eq_true] at h
    exact ⟨hl, .refl args s, isSome_iff_exists.mp h.1.1, h.1.2⟩
  · exact reindex_spec hl.base

/-- **`find`** returns the slot of the key in the table it leaves, if there is one. -/
theorem find_spec (hl : Loose s.heap s.map) (hkey : key.Live s.heap)
    (hargs : ∀ o ∈ key.identity, o ∈ args) :
    Yields (find hold args key s) fun r => Loose r.2.heap r.2.map ∧ Shrinks args s r.2 ∧
      Found r.2.map key r.1 := by
  rw [find_eq_probe]
  split_ifs with hzero
  · exact ⟨hl, .refl args s, .inr ⟨rfl, hl.not_contains hzero key⟩⟩
  refine (ensureIndex_spec hl).bind fun s₁ ⟨hl₁, hs, ⟨t, ht⟩, hcur⟩ => ?_
  obtain ⟨slot, hrun, hfound⟩ := probe_spec hl₁.base ht (hl₁.ready t ht hcur)
    (hs.live_key hargs hkey)
  rw [hrun]
  exact ⟨hl₁, hs, hfound⟩

/-- **`growEntries`** leaves room for one entry more. -/
theorem growEntries_spec (hb : Base s.heap s.map) :
    Yields (growEntries hold args s) fun s' => Loose s'.heap s'.map ∧
      Sublist s'.map.keys s.map.keys ∧ (∀ o ∈ args, s.heap.live o → s'.heap.live o) ∧
      s'.map.usedCount < s'.map.capacity := by
  have hcount := newCapacity_spec (s.map.slots.countP (·.key.isSome))
  refine (allocation_spec hb _).bind fun s₁ ⟨hb₁, hs, hsize⟩ => ?_
  have hcap : newCapacity (s.map.slots.countP (·.key.isSome)) ≤ 2 ^ 28 := by
    unfold kValueSize at hsize
    omega
  -- the sweep of the allocation leaves no more pairs than were counted before it
  have hroom : (s₁.map.slots.filter (·.key.isSome)).length <
      newCapacity (s.map.slots.countP (·.key.isSome)) := by
    have hle := hs.keys.length_le
    rw [MapHeader.keys, MapHeader.keys, length_filterMap_eq_countP,
      length_filterMap_eq_countP] at hle
    rw [← countP_eq_length_filter]
    omega
  refine (reindex_spec (compacted_base hb₁ hroom.le hcap)).mono ?_
  rintro s' ⟨hl, hs', -, -⟩
  have hkeys : (compacted (newCapacity (s.map.slots.countP (·.key.isSome))) s₁.map).keys =
      s₁.map.keys := by
    rw [MapHeader.keys, compacted_slots, keys_filter, MapHeader.keys]
  refine ⟨hl, ?_, fun o ho hlive => hs'.live o ho (hs.live o ho hlive), ?_⟩
  · exact (hkeys ▸ hs'.keys).trans hs.keys
  · rw [hs'.usedCount, hs'.capacity, compacted_capacity hroom.le]
    exact hroom

variable (hl : Loose s.heap s.map)

include hl

theorem ensureRoom_spec :
    Yields (ensureRoom hold args s) fun s' => Loose s'.heap s'.map ∧
      Sublist s'.map.keys s.map.keys ∧ (∀ o ∈ args, s.heap.live o → s'.heap.live o) ∧
      s'.map.usedCount < s'.map.capacity := by
  unfold ensureRoom
  split_ifs with hfull
  · exact growEntries_spec hl.base
  · exact ⟨hl, Sublist.refl _, fun _ _ ho => ho, by omega⟩

/-- **`set`** keeps the invariant. -/
theorem set_spec (hkey : key.Live s.heap) :
    Yields (set hold key val s) fun s' => Loose s'.heap s'.map := by
  have hargs : ∀ o ∈ key.identity, o ∈ argRoots key val := fun o ho =>
    mem_append_left _ (mem_toList.mpr ho)
  refine (find_spec hl hkey hargs).bind ?_
  rintro ⟨existing, s₁⟩ ⟨hl₁, hs₁, hfound⟩
  dsimp only at hl₁ hs₁ hfound ⊢
  rcases hfound with ⟨hne, -⟩ | ⟨heq, hnew⟩
  · rw [if_pos hne]
    exact update_loose hl₁ existing val
  · rw [if_neg (not_not.mpr heq)]
    have hkey₁ := hs₁.live_key hargs hkey
    refine (ensureRoom_spec hl₁).bind fun s₂ ⟨hl₂, hkeys, hlive, hroom⟩ => ?_
    have hkey₂ : key.Live s₂.heap := fun o ho => hlive o (hargs o ho) (hkey₁ o ho)
    have hnew₂ : ¬Contains s₂.map key :=
      fun ⟨k, hk, hcan⟩ => hnew ⟨k, hkeys.subset hk, hcan⟩
    refine (ensureIndex_spec hl₂).bind fun s₃ ⟨hl₃, hs₃, ⟨t, ht⟩, hcur⟩ => ?_
    obtain ⟨s', hrun, hl'⟩ := insert_loose val hl₃ ht hcur (hs₃.live_key hargs hkey₂)
      (hs₃.not_contains hnew₂) (by rwa [hs₃.usedCount, hs₃.capacity])
    rw [hrun]
    exact hl'

/-- **`remove`** keeps the invariant. -/
theorem remove_spec (hkey : key.Live s.heap) :
    Yields (remove hold key s) fun r => Loose r.2.heap r.2.map := by
  refine (find_spec hl hkey fun o ho => mem_toList.mpr ho).bind ?_
  rintro ⟨slot, s₁⟩ ⟨hl₁, -, hfound⟩
  dsimp only at hl₁ hfound ⊢
  rcases hfound with ⟨hne, hholds⟩ | ⟨heq, -⟩
  · rw [if_neg hne]
    exact bury_loose hl₁ hholds
  · rw [if_pos heq]
    exact hl₁

end Specs

end Holding

end Bronze.Collections
