import Bronze.Map.Table

/-!
# The invariant of the table

What ties the entry block, the bucket block and the epoch together, and one lemma for each
operation: it keeps the invariant, does to the entry slots what it is for, and leaves early only
for an allocation that does not fit.

The bucket block is bound by the invariant only while the epoch is current: it then indexes every
live slot under its present hash. That is what a collection preserves, since it either moves
nothing, or makes the epoch stale, or leaves every key of a stable index where it was. The anchor
plays no part in it.

## Main results

* `Inv.keeps`, `Inv.collects`: collections keep the invariant
* `find_spec`, `set_spec`, `remove_spec`, `clear_spec`: one for each operation
-/

namespace Bronze.Collections

open LinearProbing
open List Nat Option MapHeader Entry Heap

/-! ## The entry block -/

section Slots

variable {m : MapHeader} {s : Nat}

theorem bucketCountFor_spec (capacity : Nat) :
    capacity * 2 ≤ bucketCountFor capacity ∧ ∃ k, bucketCountFor capacity = 2 ^ k := by
  obtain ⟨hle, k, hk⟩ := doubleUntil_spec (capacity * kBucketsPerSlot)
    (capacity * kBucketsPerSlot) 8 (by decide) (by omega)
  exact ⟨hle, k + 3, by rw [bucketCountFor, hk]; ring⟩

theorem bucketCountFor_pos (capacity : Nat) : 0 < bucketCountFor capacity := by
  obtain ⟨-, k, hk⟩ := bucketCountFor_spec capacity
  rw [hk]
  exact Nat.two_pow_pos k

theorem lt_bucketCountFor {used capacity : Nat} (h : used ≤ capacity) :
    used < bucketCountFor capacity := by
  have := (bucketCountFor_spec capacity).1
  have := bucketCountFor_pos capacity
  omega

theorem slots_length (h : m.usedCount ≤ m.capacity) : m.slots.length = m.usedCount := by
  rw [slots, length_take]
  exact min_eq_left h

theorem keyAt_of_lt (h : s < m.usedCount) : m.keyAt s = m.slots[s]?.bind key := by
  rw [keyAt, slots, getElem?_take_of_lt h]

/-- A slot that holds a key, among those handed out. -/
def LiveSlot (m : MapHeader) (s : Nat) : Prop := s < m.usedCount ∧ (m.keyAt s).isSome

/-- The bucket a slot is looked for from. -/
def home (h : Heap) (m : MapHeader) (s : Nat) : Nat :=
  match m.keyAt s with
  | some key => (hashKey h key).toNat
  | none => 0

/-- The keys of the table, in the order of the entry block. -/
def MapHeader.keys (m : MapHeader) : List Value := m.slots.filterMap Entry.key

theorem mem_keys_of_live (hs : LiveSlot m s) : ∃ key ∈ m.keys, m.keyAt s = some key := by
  obtain ⟨hlt, hsome⟩ := hs
  obtain ⟨key, hkey⟩ := isSome_iff_exists.mp hsome
  refine ⟨key, ?_, hkey⟩
  rw [keyAt_of_lt hlt, bind_eq_some_iff] at hkey
  obtain ⟨e, he, hkey⟩ := hkey
  exact mem_filterMap.mpr ⟨e, mem_of_getElem? he, hkey⟩

theorem exists_slot_of_mem (hused : m.usedCount ≤ m.capacity) {key : Value} (h : key ∈ m.keys) :
    ∃ s, LiveSlot m s ∧ m.keyAt s = some key := by
  obtain ⟨e, he, hkey⟩ := mem_filterMap.mp h
  obtain ⟨s, hlt, rfl⟩ := getElem_of_mem he
  have hs : s < m.usedCount := by rwa [slots_length hused] at hlt
  have hk : m.keyAt s = some key := by
    rw [keyAt_of_lt hs, getElem?_eq_getElem hlt]
    exact hkey
  exact ⟨s, ⟨hs, by simp [hk]⟩, hk⟩

theorem mem_roots_of_mem_keys {key : Value} (h : key ∈ m.keys) :
    ∀ o ∈ key.identity, o ∈ m.roots := by
  intro o ho
  obtain ⟨e, he, hkey⟩ := mem_filterMap.mp h
  refine mem_cons_of_mem _ (mem_filterMap.mpr ⟨e, mem_of_mem_take he, ?_⟩)
  rw [hkey]
  exact ho

/-- The entry block: the keys are live, and no two of them are one key. -/
structure Base (h : Heap) (m : MapHeader) : Prop where
  used_le : m.usedCount ≤ m.capacity
  capacity_le : m.capacity ≤ 2 ^ 28
  self_live : h.live m.self
  keys_live : ∀ key ∈ m.keys, key.Live h
  distinct : (m.keys.map Value.canonical).Nodup

variable {h h' : Heap}

theorem Base.keeps (hb : Base h m) (hk : Keeps m.roots h h') : Base h' m where
  used_le := hb.used_le
  capacity_le := hb.capacity_le
  self_live := hk.live _ mem_cons_self hb.self_live
  keys_live key hkey := (hb.keys_live key hkey).keeps hk (mem_roots_of_mem_keys hkey)
  distinct := hb.distinct

variable {args : List ObjectId}

theorem Base.collects (hb : Base h m) (hc : Collects (m.roots ++ args) h h') : Base h' m :=
  hb.keeps (.of_collects hc (subset_append_left ..))

theorem live_collects
    (hc : Collects (m.roots ++ args) h h') : ∀ o ∈ args, h.live o → h'.live o :=
  fun o ho => hc.live o (mem_append_right _ ho)

/-- The two tables have one entry block. -/
structure SameEntries (m m' : MapHeader) : Prop where
  self : m'.self = m.self
  entries : m'.entries = m.entries
  usedCount : m'.usedCount = m.usedCount

namespace SameEntries

variable {m' m'' : MapHeader}

theorem refl (m : MapHeader) : SameEntries m m := ⟨rfl, rfl, rfl⟩

theorem entryData (h : SameEntries m m') : m'.entryData = m.entryData := by
  rw [MapHeader.entryData, h.entries]
  rfl

theorem capacity (h : SameEntries m m') : m'.capacity = m.capacity := by
  rw [MapHeader.capacity, h.entryData]
  rfl

theorem slots (h : SameEntries m m') : m'.slots = m.slots := by
  rw [MapHeader.slots, h.entryData, h.usedCount]
  rfl

theorem keys (h : SameEntries m m') : m'.keys = m.keys := by
  rw [MapHeader.keys, h.slots]
  rfl

theorem keyAt (h : SameEntries m m') : m'.keyAt = m.keyAt := by
  funext s
  rw [MapHeader.keyAt, h.entryData]
  rfl

theorem base (h : SameEntries m m') {heap : Heap} (hb : Base heap m) : Base heap m' where
  used_le := by rw [h.usedCount, h.capacity]; exact hb.used_le
  capacity_le := by rw [h.capacity]; exact hb.capacity_le
  self_live := by rw [h.self]; exact hb.self_live
  keys_live := by rw [h.keys]; exact hb.keys_live
  distinct := by rw [h.keys]; exact hb.distinct

end SameEntries

end Slots

/-- The bucket block indexes every live slot under its present hash. -/
structure Ready (h : Heap) (m : MapHeader) (t : Buckets) : Prop where
  length : t.length = bucketCountFor m.capacity
  indexed : Indexed t (home h m) (LiveSlot m) m.usedCount m.usedCount

/-- **The invariant of the table.** -/
structure Inv (h : Heap) (m : MapHeader) : Prop where
  base : Base h m
  live_eq : m.liveCount = m.slots.countP (·.key.isSome)
  epoch_le : m.indexEpoch ≤ h.relocationEpoch
  stable : m.indexEpoch = kStableIndex → ∀ key ∈ m.keys, keyMayMove h key = false
  ready : ∀ t, m.index = some t → epochCurrent h m = true → Ready h m t

variable {m : MapHeader}

theorem epochCurrent_iff {h : Heap} :
    epochCurrent h m = true ↔ m.indexEpoch = kStableIndex ∨ m.indexEpoch = h.relocationEpoch := by
  simp [epochCurrent]

/-- **Collections keep the invariant.** If the epoch is current after them, no key has moved. -/
theorem Inv.keeps {h h' : Heap} (hi : Inv h m) (hk : Keeps m.roots h h') :
    Inv h' m where
  base := hi.base.keeps hk
  live_eq := hi.live_eq
  epoch_le := hi.epoch_le.trans (by exact_mod_cast hk.epoch_le)
  stable hs key hkey := keyMayMove_keeps hk (mem_roots_of_mem_keys hkey)
    (hi.base.keys_live key hkey) (hi.stable hs key hkey)
  ready t ht hcur := by
    have hstays : epochCurrent h m = true ∧ ∀ key ∈ m.keys,
        h'.relocationEpoch = h.relocationEpoch ∨ keyMayMove h key = false := by
      rcases epochCurrent_iff.mp hcur with hs | he
      · exact ⟨epochCurrent_iff.mpr (.inl hs), fun key hkey => .inr (hi.stable hs key hkey)⟩
      · -- the recorded epoch lies between the two, which are therefore one
        have hle := hi.epoch_le
        have hle' := hk.epoch_le
        have heq : h'.relocationEpoch = h.relocationEpoch := by omega
        exact ⟨epochCurrent_iff.mpr (.inr (by rw [he, heq])), fun _ _ => .inl heq⟩
    have hr := hi.ready t ht hstays.1
    refine ⟨hr.length, hr.indexed.mono (fun s hs => ⟨hs, ?_⟩) le_rfl le_rfl⟩
    obtain ⟨key, hkey, hat⟩ := mem_keys_of_live hs
    simp only [home, hat]
    rw [hashKey_keeps hk (mem_roots_of_mem_keys hkey) (hi.base.keys_live key hkey)
      (hstays.2 key hkey)]

theorem Inv.collects {h h' : Heap} {args : List ObjectId} (hi : Inv h m)
    (hc : Collects (m.roots ++ args) h h') : Inv h' m :=
  hi.keeps (.of_collects hc (subset_append_left ..))

/-! ## What an operation returns -/

/-- The operation returns what `Q` says, unless it asked for a block that is too large for a
header. -/
def Yields {α : Type} (x : Except Exit α) (Q : α → Prop) : Prop :=
  match x with
  | .ok a => Q a
  | .error e => ∃ total > 0xFFFFFFFF, e = .badAlloc total

section Yields

variable {α β : Type} {Q : α → Prop} {R : β → Prop}

variable {x : Except Exit α}

theorem Yields.mono {Q' : α → Prop} (h : Yields x Q) (hQ : ∀ a, Q a → Q' a) : Yields x Q' := by
  cases x with
  | ok a => exact hQ a h
  | error e => exact h

theorem Yields.bind {f : α → Except Exit β} (h : Yields x Q) (hf : ∀ a, Q a → Yields (f a) R) :
    Yields (x >>= f) R := by
  cases x with
  | ok a => exact hf a h
  | error e => exact h

theorem Yields.ok (h : Yields x Q) {a : α} (hx : x = .ok a) : Q a := by
  rw [hx] at h
  exact h

theorem allocate_yields (gc : Collector) (roots : List ObjectId) (bytes : Nat) (h : Heap) :
    Yields (allocate gc roots bytes h) fun h' =>
      Collects roots h h' ∧ bytes ≤ 0xFFFFFFFF := by
  cases hrun : allocate gc roots bytes h with
  | ok h' => exact allocate_spec hrun
  | error e =>
    unfold allocate at hrun
    dsimp only at hrun
    split_ifs at hrun with hsize
    exact ⟨_, hsize, (Except.error.inj hrun).symm⟩

end Yields

theorem allocation_yields {gc : Collector} {args : List ObjectId} (s : State) (bytes : Nat) :
    Yields (gc.allocation args bytes s) fun s' => s'.map = s.map ∧
      Collects (s.map.roots ++ args) s.heap s'.heap ∧ bytes ≤ 0xFFFFFFFF :=
  (allocate_yields gc _ bytes s.heap).bind fun _ ⟨hc, hsize⟩ => ⟨rfl, hc, hsize⟩

/-- A state that an operation may leave behind without touching the entries. -/
structure Follows (args : List ObjectId) (s s' : State) : Prop where
  same : SameEntries s.map s'.map
  live : ∀ o ∈ args, s.heap.live o → s'.heap.live o

theorem Follows.refl (args : List ObjectId) (s : State) : Follows args s s :=
  ⟨SameEntries.refl s.map, fun _ _ ho => ho⟩

section Reindex

variable {gc : Collector} {args : List ObjectId} {s : State}

/-- The bucket each slot is looked for from, where it holds a key. -/
def homes (h : Heap) (m : MapHeader) : List (Option Nat) :=
  m.slots.map fun e => e.key.map fun key => (hashKey h key).toNat

theorem placeEntries_eq (h : Heap) (entries : List Entry) (slot : Nat) (t : Buckets) :
    placeEntries h entries slot t =
      match placeAll (entries.map fun e => e.key.map fun key => (hashKey h key).toNat) slot t with
      | none => .error .diverges
      | some t => .ok t := by
  induction entries generalizing slot t with
  | nil => rfl
  | cons e entries ih =>
    rw [placeEntries, map_cons]
    cases e.key with
    | none => exact ih (slot + 1) t
    | some key =>
      simp only [map_some, placeAll]
      cases place t (t.length - 1) slot t.length ((hashKey h key).toNat &&& (t.length - 1)) with
      | none => rfl
      | some t => exact ih (slot + 1) t

/-- The loop of `reindex` indexes the live slots. -/
theorem placeEntries_spec {h : Heap} {m : MapHeader} (hused : m.usedCount ≤ m.capacity) {n : Nat}
    (hpow : ∃ k, n = 2 ^ k) (hroom : m.usedCount < n) :
    ∃ t, placeEntries h m.slots 0 (replicate n 0) = .ok t ∧ t.length = n ∧
      Indexed t (home h m) (LiveSlot m) m.usedCount m.usedCount := by
  have hlen : (homes h m).length = m.usedCount := by simp [homes, slots_length hused]
  have hcount : (homes h m).countP isSome ≤ m.usedCount := hlen ▸ countP_le_length
  have hlive : ∀ s, LiveSlot m s → ∃ i, s = 0 + i ∧ (homes h m)[i]? = some (some (home h m s)) := by
    intro s hs
    obtain ⟨key, -, hat⟩ := mem_keys_of_live hs
    refine ⟨s, (zero_add s).symm, ?_⟩
    rw [keyAt_of_lt hs.1, bind_eq_some_iff] at hat
    obtain ⟨e, he, hek⟩ := hat
    rw [homes, getElem?_map, home, keyAt_of_lt hs.1, he]
    simp [hek]
  obtain ⟨t, hrun, ht, hindexed⟩ := (Indexed.empty hpow (home h m)).placeAll_spec
    (by rw [length_replicate]; omega) (home h m) (LiveSlot m) fun s hs => .inr (hlive s hs)
  rw [length_replicate] at ht
  refine ⟨t, ?_, ht, hindexed.mono (fun s hs => ⟨hs, rfl⟩) (by omega) (by omega)⟩
  rw [placeEntries_eq, ← homes, hrun]

section

variable (hb : Base s.heap s.map)

include hb

/-- The bucket block may be allocated anew, in a heap the collector left behind. -/
theorem bucketBlock_spec (wanted : Nat) :
    Yields (bucketBlock gc args wanted s) fun s' => Base s'.heap s'.map ∧ Follows args s s' := by
  unfold bucketBlock
  split_ifs with h
  · exact ⟨hb, Follows.refl args s⟩
  · refine (allocation_yields s _).bind ?_
    rintro s₁ ⟨hmap, hc, -⟩
    have hsame : SameEntries s.map
        { s₁.map with index := some (replicate wanted 0) } := by
      rw [hmap]
      exact ⟨rfl, rfl, rfl⟩
    exact ⟨hsame.base (hb.collects hc), hsame, live_collects hc⟩

theorem withIndex_spec {t : Buckets} (hlen : t.length = bucketCountFor s.map.capacity)
    (ht : Indexed t (home s.heap s.map) (LiveSlot s.map) s.map.usedCount s.map.usedCount) :
    Inv (withIndex t s).heap (withIndex t s).map ∧
      epochCurrent (withIndex t s).heap (withIndex t s).map = true := by
  have hsame : SameEntries s.map (withIndex t s).map := ⟨rfl, rfl, rfl⟩
  have hready : Ready s.heap (withIndex t s).map t := by
    refine ⟨by rw [hsame.capacity, hlen], ?_⟩
    exact ht
  constructor
  · refine ⟨hsame.base hb, rfl, ?_, ?_, ?_⟩
    · dsimp only [withIndex, kStableIndex]
      split_ifs <;> omega
    · -- the epoch is the stable one only if no key may move
      intro hstable key hkey
      dsimp only [withIndex] at hstable
      split_ifs at hstable with hmov
      · simp only [kStableIndex] at hstable
        omega
      · obtain ⟨e, he, hek⟩ := mem_filterMap.mp hkey
        have hany := fun h => hmov (any_eq_true.mpr ⟨e, he, h⟩)
        have hold : keyMayMove s.heap key = false := by simpa [hek] using hany
        exact hold
    · rintro _ ⟨rfl⟩ -
      exact hready
  · rw [epochCurrent_iff]
    dsimp only [withIndex]
    split_ifs
    · exact .inr rfl
    · exact .inl rfl

/-- **`reindex`** brings the bucket block and the count up to date. -/
theorem reindex_spec :
    Yields (reindex gc args s) fun s' => Inv s'.heap s'.map ∧ Follows args s s' ∧
      (∃ t, s'.map.index = some t) ∧ epochCurrent s'.heap s'.map = true := by
  refine (bucketBlock_spec hb _).bind ?_
  rintro s₁ ⟨hb₁, hf⟩
  rw [← hf.same.capacity]
  obtain ⟨t, hrun, hlen, ht⟩ := placeEntries_spec (h := s₁.heap) hb₁.used_le
    (bucketCountFor_spec s₁.map.capacity).2 (lt_bucketCountFor hb₁.used_le)
  rw [hrun]
  obtain ⟨hinv, hcur⟩ := withIndex_spec hb₁ hlen ht
  exact ⟨hinv, ⟨⟨hf.same.self, hf.same.entries, hf.same.usedCount⟩, hf.live⟩, ⟨t, rfl⟩, hcur⟩

end

/-- **`ensureIndex`** leaves an index that is current. -/
theorem ensureIndex_spec (hi : Inv s.heap s.map) :
    Yields (ensureIndex gc args s) fun s' => Inv s'.heap s'.map ∧ Follows args s s' ∧
      (∃ t, s'.map.index = some t) ∧ epochCurrent s'.heap s'.map = true := by
  unfold ensureIndex
  split_ifs with h
  · simp only [Bool.and_eq_true] at h
    exact ⟨hi, Follows.refl args s, isSome_iff_exists.mp h.1.1, h.1.2⟩
  · exact reindex_spec hi.base

end Reindex

/-! ## Operations -/

section Operations

variable {gc : Collector} {args : List ObjectId} {key val : Value} {s : State}

theorem live_of_args (hargs : ∀ o ∈ key.identity, o ∈ args) {s' : State} (hf : Follows args s s')
    (hkey : key.Live s.heap) : key.Live s'.heap :=
  fun o ho => hf.live o (hargs o ho) (hkey o ho)

/-- The slot holds a key that SameValueZero does not tell from `key`. -/
def Holds (m : MapHeader) (key : Value) (slot : Nat) : Prop :=
  slot < m.usedCount ∧ ∃ k, m.keyAt slot = some k ∧ k.canonical = key.canonical

/-- Some key of the table is one with `key`. -/
def Contains (m : MapHeader) (key : Value) : Prop := ∃ k ∈ m.keys, k.canonical = key.canonical

variable {slot : Nat} {m : MapHeader} {h : Heap}

theorem hits_iff (hb : Base s.heap s.map) (hkey : key.Live s.heap)
    (hslot : slot < s.map.usedCount) :
    hits s.heap s.map key slot = true ↔ Holds s.map key slot := by
  unfold hits
  cases hat : s.map.keyAt slot with
  | none => simp [Holds, hat]
  | some k =>
    obtain ⟨k', hk', hat'⟩ := mem_keys_of_live (m := s.map) ⟨hslot, by simp [hat]⟩
    obtain rfl : k = k' := some.inj (hat.symm.trans hat')
    rw [sameValueZero_iff (hb.keys_live k hk') hkey]
    simp [Holds, hslot, hat]

theorem Holds.contains (h : Holds s.map key slot) : Contains s.map key := by
  obtain ⟨hslot, k, hat, hk⟩ := h
  obtain ⟨k', hk', hat'⟩ := mem_keys_of_live (m := s.map) ⟨hslot, by simp [hat]⟩
  obtain rfl : k = k' := some.inj (hat.symm.trans hat')
  exact ⟨k, hk', hk⟩

theorem not_contains_of_live_eq_zero (hi : Inv s.heap s.map) (hzero : s.map.liveCount = 0) :
    ¬Contains s.map key := by
  rintro ⟨k, hk, -⟩
  obtain ⟨e, he, hek⟩ := mem_filterMap.mp hk
  have hcount := hi.live_eq
  rw [hzero, eq_comm, countP_eq_zero] at hcount
  exact hcount e he (by simp [hek])

/-- What `find` returns: a slot that holds the key, or `UINT32_MAX` and there is none. -/
def Found (m : MapHeader) (key : Value) (slot : Nat) : Prop :=
  slot ≠ kNotFound ∧ Holds m key slot ∨ slot = kNotFound ∧ ¬Contains m key

/-- The probe of `find`, along an index that is current. -/
def probe (key : Value) (s : State) : Except Exit (Nat × State) :=
  let count := s.map.bucketCount
  if count = 0 then .ok (kNotFound, s)
  else
    let mask := count - 1
    match search s.map.buckets mask (hits s.heap s.map key) count
        ((hashKey s.heap key).toNat &&& mask) with
    | none => .error .diverges
    | some none => .ok (kNotFound, s)
    | some (some slot) => .ok (slot, s)

theorem find_eq_probe {alloc : Allocation} : find alloc args key s =
    if s.map.liveCount = 0 then .ok (kNotFound, s)
    else ensureIndex alloc args s >>= probe key := rfl

/-- **The probe** along an index of every live slot finds the key, if it is there. -/
theorem probe_spec {t : Buckets} (hb : Base s.heap s.map) (ht : s.map.index = some t)
    (hready : Ready s.heap s.map t) (hkey : key.Live s.heap) :
    ∃ slot, probe key s = .ok (slot, s) ∧ Found s.map key slot := by
  have hbuckets : s.map.buckets = t := by rw [buckets, ht]; rfl
  have hcount : s.map.bucketCount = t.length := by rw [bucketCount, hbuckets]
  have hpos : t.length ≠ 0 := by
    rw [hready.length]
    exact (bucketCountFor_pos _).ne'
  have hroom : s.map.usedCount < t.length := by
    rw [hready.length]
    exact lt_bucketCountFor hb.used_le
  have hused : s.map.usedCount < kNotFound := by
    have := hb.used_le
    have := hb.capacity_le
    unfold kNotFound
    omega
  obtain ⟨r, hrun, hsome, hnone⟩ := hready.indexed.search_spec hroom (hits s.heap s.map key)
    (hashKey s.heap key).toNat
  unfold probe
  simp only [hbuckets, hcount, if_neg hpos, hrun]
  cases r with
  | some slot =>
    obtain ⟨hhit, hlt⟩ := hsome slot rfl
    exact ⟨slot, rfl, .inl ⟨by omega, (hits_iff hb hkey hlt).mp hhit⟩⟩
  | none =>
    refine ⟨kNotFound, rfl, .inr ⟨rfl, ?_⟩⟩
    -- a key that is there would have been hit: it has the hash of the key looked for
    rintro ⟨k, hk, hcan⟩
    obtain ⟨slot, hlive, hat⟩ := exists_slot_of_mem hb.used_le hk
    have hhome : home s.heap s.map slot = (hashKey s.heap key).toNat := by
      simp only [home, hat]
      rw [hashKey_congr hcan]
    have hmiss := hnone rfl slot hlive hhome
    rw [(hits_iff hb hkey hlive.1).mpr ⟨hlive.1, k, hat, hcan⟩] at hmiss
    cases hmiss

/-- **`find`** returns the slot of the key, if there is one, and touches no entry. -/
theorem find_spec (hi : Inv s.heap s.map) (hkey : key.Live s.heap)
    (hargs : ∀ o ∈ key.identity, o ∈ args) :
    Yields (find gc args key s) fun r => Inv r.2.heap r.2.map ∧ Follows args s r.2 ∧
      Found s.map key r.1 := by
  rw [find_eq_probe]
  split_ifs with hzero
  · exact ⟨hi, Follows.refl args s, .inr ⟨rfl, not_contains_of_live_eq_zero hi hzero⟩⟩
  refine (ensureIndex_spec hi).bind ?_
  rintro s₁ ⟨hi₁, hf, ⟨t, ht⟩, hcur⟩
  obtain ⟨slot, hrun, hfound⟩ := probe_spec hi₁.base ht (hi₁.ready t ht hcur)
    (live_of_args hargs hf hkey)
  rw [hrun]
  refine ⟨hi₁, hf, ?_⟩
  rwa [Found, Holds, Contains, hf.same.usedCount, hf.same.keyAt, hf.same.keys] at hfound

/-- The entry slots of the table are `slots`, and its object is the one it was. -/
structure Becomes (s : State) (slots : List Entry) (s' : State) : Prop where
  self : s'.map.self = s.map.self
  slots : s'.map.slots = slots

theorem Follows.becomes {s' : State} (h : Follows args s s') : Becomes s s.map.slots s' :=
  ⟨h.same.self, h.same.slots⟩

theorem newCapacity_spec (live : Nat) : live + 1 ≤ newCapacity live := by
  have := (doubleUntil_spec ((live + 1) * 2) ((live + 1) * 2) kInitialCapacity (by decide)
    (by omega)).1
  unfold newCapacity
  omega

theorem keys_filter (entries : List Entry) :
    (entries.filter (·.key.isSome)).filterMap Entry.key = entries.filterMap Entry.key := by
  induction entries with
  | nil => rfl
  | cons e entries ih =>
    cases hk : e.key <;> simp [hk, ih]

theorem compacted_slots (newCap : Nat) (m : MapHeader) :
    (compacted newCap m).slots = m.slots.filter (·.key.isSome) := by
  simp [slots, entryData, compacted]

theorem compacted_capacity {newCap : Nat} (h : (m.slots.filter (·.key.isSome)).length ≤ newCap) :
    (compacted newCap m).capacity = newCap := by
  simp only [capacity, entryData, compacted, getD_some,
    length_append, length_replicate]
  omega

theorem compacted_base {newCap : Nat} (hb : Base h m)
    (hroom : (m.slots.filter (·.key.isSome)).length ≤ newCap) (hcap : newCap ≤ 2 ^ 28) :
    Base h (compacted newCap m) := by
  have hkeys : (compacted newCap m).keys = m.keys := by
    rw [MapHeader.keys, compacted_slots, keys_filter, MapHeader.keys]
  refine ⟨?_, ?_, hb.self_live, ?_, ?_⟩
  · rw [compacted_capacity hroom]
    exact hroom
  · rwa [compacted_capacity hroom]
  · rw [hkeys]
    exact hb.keys_live
  · rw [hkeys]
    exact hb.distinct

/-- **`growEntries`** leaves the live entries, in their order, and room for one more. -/
theorem growEntries_spec (hb : Base s.heap s.map) :
    Yields (growEntries gc args s) fun s' => Inv s'.heap s'.map ∧
      Becomes s (s.map.slots.filter (·.key.isSome)) s' ∧
      (∀ o ∈ args, s.heap.live o → s'.heap.live o) ∧ s'.map.usedCount < s'.map.capacity := by
  refine (allocation_yields s _).bind ?_
  rintro ⟨h', m⟩ ⟨hmap, hc, hsize⟩
  obtain rfl : m = s.map := hmap
  have hcap : newCapacity (s.map.slots.countP (·.key.isSome)) ≤ 2 ^ 28 := by
    unfold kValueSize at hsize
    omega
  have hroom : (s.map.slots.filter (·.key.isSome)).length <
      newCapacity (s.map.slots.countP (·.key.isSome)) := by
    rw [← countP_eq_length_filter]
    exact newCapacity_spec _
  refine (reindex_spec (compacted_base (hb.collects hc) hroom.le hcap)).mono ?_
  rintro s' ⟨hi, hf, -, -⟩
  refine ⟨hi, ⟨hf.same.self, hf.same.slots.trans (compacted_slots ..)⟩, ?_, ?_⟩
  · exact fun o ho hlive => hf.live o ho (live_collects hc o ho hlive)
  · rw [hf.same.usedCount, hf.same.capacity, compacted_capacity hroom.le]
    exact hroom

/-- The entry slots before an insertion: compacted, if there was no free one. -/
def roomy (m : MapHeader) : List Entry :=
  if m.usedCount ≥ m.capacity then m.slots.filter (·.key.isSome) else m.slots

theorem roomy_keys (m : MapHeader) : (roomy m).filterMap Entry.key = m.keys := by
  unfold roomy
  split_ifs
  · rw [keys_filter, MapHeader.keys]
  · rfl

theorem ensureRoom_spec (hi : Inv s.heap s.map) :
    Yields (ensureRoom gc args s) fun s' => Inv s'.heap s'.map ∧ Becomes s (roomy s.map) s' ∧
      (∀ o ∈ args, s.heap.live o → s'.heap.live o) ∧ s'.map.usedCount < s'.map.capacity := by
  unfold ensureRoom roomy
  split_ifs with hfull
  · exact growEntries_spec hi.base
  · exact ⟨hi, ⟨rfl, rfl⟩, fun _ _ ho => ho, by omega⟩

/-! ### Writing an entry -/

theorem entryData_map (m : MapHeader) (f : List Entry → List Entry) (hnil : f [] = []) :
    (m.entries.map f).getD [] = f m.entryData := by
  unfold entryData
  cases m.entries with
  | none => exact hnil.symm
  | some d => rfl

theorem take_succ_set {l : List Entry} {i : Nat} (h : i < l.length) (e : Entry) :
    (l.set i e).take (i + 1) = l.take i ++ [e] := by
  rw [take_succ_eq_append_getElem (by simpa using h), take_set_of_le le_rfl]
  simp

def inserted (key val : Value) (t : Buckets) (s : State) : MapHeader :=
  { s.map with
    entries := s.map.entries.map (·.set s.map.usedCount { key := some key, value := val })
    usedCount := s.map.usedCount + 1
    liveCount := s.map.liveCount + 1
    indexEpoch := if s.map.indexEpoch = kStableIndex && keyMayMove s.heap key
      then s.heap.relocationEpoch else s.map.indexEpoch
    index := some t }

section Inserted

variable {t : Buckets}

theorem inserted_entryData :
    (inserted key val t s).entryData =
      s.map.entryData.set s.map.usedCount { key := some key, value := val } :=
  entryData_map s.map _ rfl

theorem inserted_capacity : (inserted key val t s).capacity = s.map.capacity := by
  simp [inserted_entryData, capacity]

theorem inserted_slots (hroom : s.map.usedCount < s.map.capacity) :
    (inserted key val t s).slots = s.map.slots ++ [{ key := some key, value := val }] := by
  rw [slots, inserted_entryData]
  exact take_succ_set hroom _

theorem inserted_keys (hroom : s.map.usedCount < s.map.capacity) :
    (inserted key val t s).keys = s.map.keys ++ [key] := by
  rw [MapHeader.keys, inserted_slots hroom, filterMap_append]
  rfl

theorem inserted_keyAt_of_ne {slot : Nat} (h : slot ≠ s.map.usedCount) :
    (inserted key val t s).keyAt slot = s.map.keyAt slot := by
  rw [keyAt, inserted_entryData, getElem?_set_ne h.symm, keyAt]

theorem inserted_keyAt_self (hroom : s.map.usedCount < s.map.capacity) :
    (inserted key val t s).keyAt s.map.usedCount = some key := by
  rw [keyAt, inserted_entryData, getElem?_set_self hroom]
  rfl

end Inserted

/-- **`insert`** appends the entry and indexes it. -/
theorem insert_spec (val : Value) (hi : Inv s.heap s.map) {t : Buckets} (ht : s.map.index = some t)
    (hcur : epochCurrent s.heap s.map = true) (hkey : key.Live s.heap)
    (hnew : ¬Contains s.map key) (hroom : s.map.usedCount < s.map.capacity) :
    ∃ s', insert key val s = .ok s' ∧ Inv s'.heap s'.map ∧ s'.heap = s.heap ∧
      Becomes s (s.map.slots ++ [{ key := some key, value := val }]) s' := by
  have hready := hi.ready t ht hcur
  have hbuckets : s.map.buckets = t := by rw [buckets, ht]; rfl
  have hcount : s.map.bucketCount = t.length := by rw [bucketCount, hbuckets]
  have hlt : s.map.usedCount < t.length := by
    rw [hready.length]
    exact lt_bucketCountFor hi.base.used_le
  obtain ⟨t', hrun, hlen, hindexed⟩ := hready.indexed.place_spec hlt
    (b := (hashKey s.heap key).toNat) le_rfl (fun slot =>
      if slot = s.map.usedCount then (hashKey s.heap key).toNat else home s.heap s.map slot)
    (fun slot => LiveSlot s.map slot ∨ slot = s.map.usedCount) (by
      rintro slot (hslot | rfl)
      · exact .inl ⟨hslot, if_neg hslot.1.ne⟩
      · exact .inr ⟨rfl, if_pos rfl⟩)
  refine ⟨{ s with map := inserted key val t' s }, ?_, ?_, rfl, rfl, inserted_slots hroom⟩
  · simp [insert, hbuckets, hcount, hrun, inserted]
  have hkeys : (inserted key val t' s).keys = s.map.keys ++ [key] := inserted_keys hroom
  refine ⟨⟨?_, ?_, hi.base.self_live, ?_, ?_⟩, ?_, ?_, ?_, ?_⟩
  · rw [inserted_capacity]
    exact hroom
  · rw [inserted_capacity]
    exact hi.base.capacity_le
  · rw [hkeys]
    intro k hk
    rcases mem_append.mp hk with hk | hk
    · exact hi.base.keys_live k hk
    · rw [mem_singleton.mp hk]
      exact hkey
  · rw [hkeys, map_append, nodup_append]
    refine ⟨hi.base.distinct, nodup_singleton _, ?_⟩
    rintro _ hc _ hk rfl
    obtain ⟨k, hk', hkc⟩ := mem_map.mp hc
    exact hnew ⟨k, hk', hkc.trans (mem_singleton.mp hk)⟩
  · rw [inserted_slots hroom, countP_append, ← hi.live_eq]
    rfl
  · have := hi.epoch_le
    dsimp only [inserted]
    split_ifs
    · exact le_rfl
    · exact this
  · -- a stable index stays one only if the new key cannot move either
    intro hstable k hk
    dsimp only [inserted] at hstable
    split_ifs at hstable with hmov
    · simp only [kStableIndex] at hstable
      omega
    · rw [hkeys, mem_append, mem_singleton] at hk
      rcases hk with hk | rfl
      · exact hi.stable hstable k hk
      · simpa [hstable] using hmov
  · rintro _ ⟨rfl⟩ -
    refine ⟨?_, hindexed.mono ?_ le_rfl le_rfl⟩
    · rw [hlen, hready.length, inserted_capacity]
    · rintro slot ⟨hslot, hsome⟩
      by_cases heq : slot = s.map.usedCount
      · subst heq
        refine ⟨.inr rfl, ?_⟩
        simp [home, inserted_keyAt_self hroom]
      · have hlt' : slot < s.map.usedCount :=
          lt_of_le_of_ne (Nat.lt_succ_iff.mp hslot) heq
        rw [inserted_keyAt_of_ne heq] at hsome
        refine ⟨.inl ⟨hlt', hsome⟩, ?_⟩
        rw [if_neg heq, home, inserted_keyAt_of_ne heq, home]

theorem map_key_modify (l : List Entry) (i : Nat) (val : Value) :
    (l.modify i fun e => { e with value := val }).map Entry.key = l.map Entry.key := by
  apply ext_getElem?
  intro j
  rw [getElem?_map, getElem?_map, getElem?_modify]
  cases l[j]? with
  | none => rfl
  | some e =>
    by_cases h : i = j
    · simp [h]
    · simp [h]

theorem update_entryData (slot : Nat) (val : Value) (m : MapHeader) :
    (update slot val m).entryData = m.entryData.modify slot fun e => { e with value := val } :=
  entryData_map m (·.modify slot fun e => { e with value := val }) (by cases slot <;> rfl)

theorem update_slots (slot : Nat) (val : Value) (m : MapHeader) :
    (update slot val m).slots = m.slots.modify slot fun e => { e with value := val } := by
  rw [slots, update_entryData]
  exact take_modify _ _ _ _

/-- Tables that agree on their keys, and on all that is not entries, share the invariant. -/
theorem Inv.of_keys {m' : MapHeader} (hi : Inv h m) (hself : m'.self = m.self)
    (hused : m'.usedCount = m.usedCount)
    (hdata : m'.entryData.map Entry.key = m.entryData.map Entry.key) (hindex : m'.index = m.index)
    (hlive : m'.liveCount = m.liveCount) (hepoch : m'.indexEpoch = m.indexEpoch) : Inv h m' := by
  have hcap : m'.capacity = m.capacity := by
    simpa [capacity] using congrArg length hdata
  have hkeyAt : m'.keyAt = m.keyAt := by
    funext slot
    have := congrArg (·[slot]?) hdata
    simp only [getElem?_map] at this
    rw [keyAt, keyAt]
    cases h₁ : m'.entryData[slot]? <;> cases h₂ : m.entryData[slot]? <;> simp_all
  have hslots : m'.slots.map key = m.slots.map key := by
    simp [slots, hdata, hused]
  have hkeys : m'.keys = m.keys := by
    have : ∀ m : MapHeader, m.keys = (m.slots.map key).filterMap id := by
      intro m
      simp [MapHeader.keys]
    rw [this, this, hslots]
  have hliveSlot : LiveSlot m' = LiveSlot m := by
    funext slot
    rw [LiveSlot, hused, hkeyAt]
    rfl
  have hhome : home h m' = home h m := by
    funext slot
    rw [home, hkeyAt]
    rfl
  refine ⟨⟨by rw [hused, hcap]; exact hi.base.used_le, by rw [hcap]; exact hi.base.capacity_le,
    by rw [hself]; exact hi.base.self_live, by rw [hkeys]; exact hi.base.keys_live,
    by rw [hkeys]; exact hi.base.distinct⟩, ?_, by rw [hepoch]; exact hi.epoch_le, ?_, ?_⟩
  · have hcount : ∀ m : MapHeader,
        m.slots.countP (·.key.isSome) = (m.slots.map key).countP isSome := by
      intro m
      rw [countP_map]
      rfl
    rw [hlive, hi.live_eq, hcount, hcount, hslots]
  · rw [hepoch, hkeys]
    exact hi.stable
  · intro t ht hcur
    rw [epochCurrent, hepoch] at hcur
    obtain ⟨hlen, hindexed⟩ := hi.ready t (by rw [← hindex, ht]) hcur
    refine ⟨by rw [hlen, hcap], ?_⟩
    rw [hhome, hliveSlot, hused]
    exact hindexed

theorem update_spec (hi : Inv s.heap s.map) (slot : Nat) (val : Value) :
    Inv s.heap (update slot val s.map) :=
  hi.of_keys rfl rfl (by rw [update_entryData, map_key_modify]) rfl rfl rfl

/-- **`set`** rewrites the value of a key that is there, and appends a key that is not. -/
theorem set_spec (hi : Inv s.heap s.map) (hkey : key.Live s.heap) :
    Yields (set gc key val s) fun s' => Inv s'.heap s'.map ∧
      ((∃ slot, Holds s.map key slot ∧
        Becomes s (s.map.slots.modify slot fun e => { e with value := val }) s') ∨
      ¬Contains s.map key ∧
        Becomes s (roomy s.map ++ [{ key := some key, value := val }]) s') := by
  have hargs : ∀ o ∈ key.identity, o ∈ argRoots key val := fun o ho =>
    mem_append_left _ (mem_toList.mpr ho)
  refine (find_spec hi hkey hargs).bind ?_
  rintro ⟨existing, s₁⟩ ⟨hi₁, hf, hfound⟩
  dsimp only at hi₁ hf hfound ⊢
  rcases hfound with ⟨hne, hholds⟩ | ⟨heq, hnew⟩
  · rw [if_pos hne]
    refine ⟨update_spec hi₁ existing val, .inl ⟨existing, hholds, hf.same.self, ?_⟩⟩
    rw [update_slots, hf.same.slots]
  · rw [if_neg (not_not.mpr heq)]
    have hkey₁ := live_of_args hargs hf hkey
    refine (ensureRoom_spec hi₁).bind ?_
    rintro s₂ ⟨hi₂, hbecomes, hlive, hroom⟩
    have hkey₂ : key.Live s₂.heap := fun o ho => hlive o (hargs o ho) (hkey₁ o ho)
    refine (ensureIndex_spec hi₂).bind ?_
    rintro s₃ ⟨hi₃, hf₃, ⟨t, ht⟩, hcur⟩
    have hkey₃ := live_of_args hargs hf₃ hkey₂
    have hroomy : roomy s₁.map = roomy s.map := by
      rw [roomy, roomy, hf.same.usedCount, hf.same.capacity, hf.same.slots]
    have hnew₃ : ¬Contains s₃.map key := by
      rw [Contains, hf₃.same.keys, MapHeader.keys, hbecomes.slots, roomy_keys, hf.same.keys]
      exact hnew
    obtain ⟨s', hrun, hi', -, hb'⟩ := insert_spec val hi₃ ht hcur hkey₃ hnew₃
      (by rwa [hf₃.same.usedCount, hf₃.same.capacity])
    rw [hrun]
    refine ⟨hi', .inr ⟨hnew, ?_, ?_⟩⟩
    · rw [hb'.self, hf₃.same.self, hbecomes.self, hf.same.self]
    · rw [hb'.slots, hf₃.same.slots, hbecomes.slots, hroomy]

theorem bury_entryData (slot : Nat) (m : MapHeader) :
    (bury slot m).entryData = m.entryData.set slot .tombstone :=
  entryData_map m (·.set slot .tombstone) rfl

theorem bury_slots (slot : Nat) (m : MapHeader) :
    (bury slot m).slots = m.slots.set slot .tombstone := by
  rw [slots, bury_entryData]
  exact take_set

theorem bury_keyAt_of_ne {slot' : Nat} (h : slot' ≠ slot) :
    (bury slot m).keyAt slot' = m.keyAt slot' := by
  rw [keyAt, bury_entryData, getElem?_set_ne h.symm, keyAt]

theorem bury_keyAt_self : (bury slot m).keyAt slot = none := by
  rw [keyAt, bury_entryData, getElem?_set_self']
  cases m.entryData[slot]? <;> rfl

theorem bury_keys_sublist (slot : Nat) (m : MapHeader) :
    List.Sublist (bury slot m).keys m.keys := by
  rw [MapHeader.keys, bury_slots, MapHeader.keys]
  induction m.slots generalizing slot with
  | nil => simp
  | cons e entries ih =>
    cases slot with
    | zero =>
      cases hk : e.key <;> simp [tombstone, hk]
    | succ slot =>
      cases hk : e.key with
      | none => simpa [hk] using ih slot
      | some k => simpa [hk] using ih slot

section

variable (hi : Inv s.heap s.map)

include hi

theorem bury_spec (h : Holds s.map key slot) : Inv s.heap (bury slot s.map) := by
  obtain ⟨hlt, k, hat, -⟩ := h
  have hcap : (bury slot s.map).capacity = s.map.capacity := by
    simp [bury_entryData, capacity]
  have hsub := bury_keys_sublist slot s.map
  refine ⟨⟨by rw [hcap]; exact hi.base.used_le, by rw [hcap]; exact hi.base.capacity_le,
    hi.base.self_live, fun k hk => hi.base.keys_live k (hsub.subset hk),
    hi.base.distinct.sublist (hsub.map _)⟩, ?_, hi.epoch_le,
    fun hs k hk => hi.stable hs k (hsub.subset hk), ?_⟩
  · have hslot : slot < s.map.slots.length := by rwa [slots_length hi.base.used_le]
    have hlive : (s.map.slots[slot]).key.isSome = true := by
      rw [keyAt_of_lt hlt, getElem?_eq_getElem hslot] at hat
      simpa using isSome_iff_exists.mpr ⟨k, hat⟩
    have hcount := countP_set (p := (·.key.isSome)) (l := s.map.slots) (a := .tombstone) hslot
    rw [bury_slots, hcount, hlive, ← hi.live_eq]
    rfl
  · intro t ht hcur
    obtain ⟨hlen, hindexed⟩ := hi.ready t ht hcur
    refine ⟨by rw [hlen, hcap], hindexed.mono ?_ le_rfl le_rfl⟩
    -- the buckets stay as they are: only the buried slot is no longer live
    rintro slot' ⟨hlt', hsome⟩
    have hne : slot' ≠ slot := by
      rintro rfl
      rw [bury_keyAt_self] at hsome
      cases hsome
    rw [bury_keyAt_of_ne hne] at hsome
    refine ⟨⟨hlt', hsome⟩, ?_⟩
    rw [home, bury_keyAt_of_ne hne, home]

/-- **`remove`** buries the entry of the key, if there is one. -/
theorem remove_spec (hkey : key.Live s.heap) :
    Yields (remove gc key s) fun r => Inv r.2.heap r.2.map ∧
      ((r.1 = true ∧ ∃ slot, Holds s.map key slot ∧
        Becomes s (s.map.slots.set slot .tombstone) r.2) ∨
      r.1 = false ∧ ¬Contains s.map key ∧ Becomes s s.map.slots r.2) := by
  refine (find_spec hi hkey fun o ho => mem_toList.mpr ho).bind ?_
  rintro ⟨slot, s₁⟩ ⟨hi₁, hf, hfound⟩
  dsimp only at hi₁ hf hfound ⊢
  rcases hfound with ⟨hne, hholds⟩ | ⟨heq, hnew⟩
  · rw [if_neg hne]
    have hholds₁ : Holds s₁.map key slot := by
      rw [Holds, hf.same.usedCount, hf.same.keyAt]
      exact hholds
    refine ⟨bury_spec hi₁ hholds₁, .inl ⟨rfl, slot, hholds, hf.same.self, ?_⟩⟩
    rw [bury_slots, hf.same.slots]
  · rw [if_pos heq]
    exact ⟨hi₁, .inr ⟨rfl, hnew, hf.becomes⟩⟩

/-- **`clear`** leaves no entry slot, and an index that is never current. -/
theorem clear_spec : Inv s.heap (clear s.map) ∧ (clear s.map).slots = [] := by
  have hslots : (clear s.map).slots = [] := by simp [slots, clear]
  have hkeys : (clear s.map).keys = [] := by rw [MapHeader.keys]; rfl
  have hdata : (clear s.map).entryData =
      (s.map.entryData.take s.map.usedCount).map (fun _ => tombstone) ++
        s.map.entryData.drop s.map.usedCount :=
    entryData_map s.map (fun d => (d.take s.map.usedCount).map (fun _ => tombstone) ++
      d.drop s.map.usedCount) (by simp)
  have hcap : (clear s.map).capacity = s.map.capacity := by
    rw [capacity, hdata, length_append, length_map, ← length_append,
      take_append_drop, capacity]
  refine ⟨⟨⟨zero_le _, by rw [hcap]; exact hi.base.capacity_le, hi.base.self_live, ?_, ?_⟩,
    by rw [hslots]; rfl, ?_, ?_, ?_⟩, hslots⟩
  · simp [hkeys]
  · simp [hkeys]
  · change (-1 : Int) ≤ s.heap.relocationEpoch
    omega
  · simp [hkeys]
  · intro t _ hcur
    rcases epochCurrent_iff.mp hcur with h | h
    · change (-1 : Int) = -2 at h
      omega
    · change (-1 : Int) = s.heap.relocationEpoch at h
      omega

end

theorem create_spec {self : ObjectId} (hself : h.live self) :
    Inv h (create self) ∧ (create self).slots = [] := by
  refine ⟨⟨⟨le_rfl, zero_le _, hself, by simp [MapHeader.keys, slots, create],
    by simp [MapHeader.keys, slots, create]⟩, rfl, ?_, ?_, nofun⟩, rfl⟩
  · change (-1 : Int) ≤ h.relocationEpoch
    omega
  · intro hs
    change (-1 : Int) = -2 at hs
    omega

end Operations

end Bronze.Collections
