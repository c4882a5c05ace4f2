import Bronze.Map.Invariant
import Bronze.Table.OrderedList
import Bronze.Table.Run
import Bronze.Fixpoint.Passes

/-!
# The table is an association list in insertion order

Runs of a strong `Map` or `Set`: its operations in any order, and between them collections that
move what they like of the heap. The abstract state is the list of the entries in the order of
insertion, keyed by SameValueZero, and does not know of slots, tombstones, buckets or addresses.

## Main results

* `exec_spec`: one event keeps the invariant and is what it means
* `exec_returns`: only a new key may need a block
* `map_refines`: a table that was run from `create` holds the list, and answers by it
-/

namespace Bronze.Collections

open OrderedList Transition LinearProbing
open Fixpoint (bind_eq_ok)
open List Option Entry MapHeader

/-- The entries, oldest first. -/
abbrev Assoc := List (Value × Value)

/-- The key an entry goes by: SameValueZero is equality of it. -/
def canonicalKey (b : Value × Value) : Value := b.1.canonical

/-- What an operation asks for, or what the collector does between two of them. -/
inductive Event where
  | set (key val : Value)
  | remove (key : Value)
  | find (key : Value)
  | clear
  /-- The heap is as a collection, or an allocation elsewhere, left it. -/
  | collect (heap : Heap)

/-- What an event means for the association list. -/
def Event.apply (l : Assoc) : Event → Assoc
  | .set key val => put canonicalKey (fun b => (b.1, val)) (key, val) l
  | .remove key => erase canonicalKey key.canonical l
  | .find _ => l
  | .clear => []
  | .collect _ => l

/-- The list has an entry for the key. -/
def Has (h : Heap) (l : Assoc) (key : Value) : Prop := ∃ b ∈ l, sameValueZero h b.1 key = true

inductive Answer where
  | done
  | removed (b : Bool)
  | slot (i : Nat)
  deriving DecidableEq

def exec (gc : Collector) (s : State) : Event → Except Exit (Answer × State)
  | .set key val => do
    let s ← set gc key val s
    return (.done, s)
  | .remove key => do
    let (removed, s) ← remove gc key s
    return (.removed removed, s)
  | .find key => do
    let (slot, s) ← find gc key.identity.toList key s
    return (.slot slot, s)
  | .clear => .ok (.done, { s with map := clear s.map })
  | .collect heap => .ok (.done, { s with heap })

/-- A program holds what it passes, and a collection keeps what the table holds. -/
def Event.Allowed (s : State) : Event → Prop
  | .set key val => key.Live s.heap ∧ val.Live s.heap
  | .remove key => key.Live s.heap
  | .find key => key.Live s.heap
  | .clear => True
  | .collect heap => Heap.Collects s.map.roots s.heap heap

/-- An event that came about, and what it returned. -/
def Step (gc : Collector) (s : State) (e : Event × Answer) (s' : State) : Prop :=
  e.1.Allowed s ∧ exec gc s e.1 = .ok (e.2, s')

def Entry.binding (e : Entry) : Option (Value × Value) := e.key.map (·, e.value)

/-- The live slots, in increasing order. -/
def MapHeader.bindings (m : MapHeader) : Assoc := m.slots.filterMap Entry.binding

/-- What the program is told by a table that holds the list `l`. A slot is one of the table after
the event, and `UINT32_MAX` is none. -/
def Answers (l : Assoc) (s s' : State) : Event → Answer → Prop
  | .find key, .slot i =>
    Has s.heap l key ∧ i ≠ kNotFound ∧ i < s'.map.usedCount ∧
        (∃ k, s'.map.keyAt i = some k ∧ sameValueZero s'.heap k key = true) ∨
      ¬Has s.heap l key ∧ i = kNotFound
  | .remove key, .removed removed => removed = true ↔ Has s.heap l key
  | .set _ _, .done => True
  | .clear, .done => True
  | .collect _, .done => True
  | _, _ => False

section Bindings

variable {h : Heap} {m : MapHeader} {key : Value} {slot : Nat} {s : State}

theorem keyOf_binding (e : Entry) :
    keyOf binding canonicalKey e = e.key.map Value.canonical := by
  rw [keyOf, binding, Option.map_map]
  rfl

theorem map_fst_bindings (m : MapHeader) : m.bindings.map Prod.fst = m.keys := by
  rw [bindings, map_filterMap]
  apply filterMap_congr
  intro e _
  rw [binding]
  cases e.key <;> rfl

theorem map_canonicalKey_bindings (m : MapHeader) :
    m.bindings.map canonicalKey = m.keys.map Value.canonical := by
  rw [← map_fst_bindings, List.map_map]
  rfl

theorem Base.nodup (hb : Base h m) : (m.bindings.map canonicalKey).Nodup := by
  rw [map_canonicalKey_bindings]
  exact hb.distinct

theorem contains_iff_mem : Contains m key ↔ key.canonical ∈ m.bindings.map canonicalKey := by
  rw [map_canonicalKey_bindings, List.mem_map]
  rfl

theorem has_iff_contains (hb : Base h m) (hkey : key.Live h) :
    Has h m.bindings key ↔ Contains m key := by
  have hfst : Has h m.bindings key ↔ ∃ k ∈ m.keys, sameValueZero h k key = true := by
    rw [← map_fst_bindings]
    simp [Has]
  rw [hfst]
  refine exists_congr fun k => and_congr_right fun hk => ?_
  exact sameValueZero_iff (hb.keys_live k hk) hkey

theorem Holds.exists_entry (h : Holds m key slot) : ∃ e, m.slots[slot]? = some e ∧
    keyOf binding canonicalKey e = some key.canonical := by
  obtain ⟨hlt, k, hat, hk⟩ := h
  rw [keyAt_of_lt hlt, bind_eq_some_iff] at hat
  obtain ⟨e, he, hek⟩ := hat
  refine ⟨e, he, ?_⟩
  simp [keyOf_binding, hek, hk]

theorem Inv.length_bindings (hi : Inv h m) : m.liveCount = m.bindings.length := by
  rw [hi.live_eq, bindings, length_filterMap_eq_countP]
  simp [binding]

theorem filterMap_binding_filter (slots : List Entry) :
    (slots.filter (·.key.isSome)).filterMap binding = slots.filterMap binding := by
  rw [filterMap_filter]
  apply filterMap_congr
  intro e _
  cases hk : e.key <;> simp [binding, hk]

theorem filterMap_binding_roomy (m : MapHeader) :
    (roomy m).filterMap binding = m.bindings := by
  unfold roomy
  split_ifs
  · exact filterMap_binding_filter _
  · rfl

end Bindings

/-! ## One event -/

section Events

variable {gc : Collector} {key val : Value} {s : State}

instance (m : MapHeader) (key : Value) : Decidable (Contains m key) :=
  inferInstanceAs (Decidable (∃ k ∈ m.keys, k.canonical = key.canonical))

/-- The slots with `e` instead of the slot that holds the key. -/
def rewriteKey (key : Value) (g : Entry → Entry) (slots : List Entry) : List Entry :=
  slots.map fun e => if keyOf Entry.binding canonicalKey e = some key.canonical then g e else e

/-- What an event does to the entry slots. -/
def Event.slots (m : MapHeader) : Event → List Entry
  | .set key val =>
    if Contains m key then rewriteKey key (fun e => { e with value := val }) m.slots
    else roomy m ++ [{ key := some key, value := val }]
  | .remove key => rewriteKey key (fun _ => .tombstone) m.slots
  | .find _ => m.slots
  | .clear => []
  | .collect _ => m.slots

theorem filterMap_rewriteKey (key val : Value) (slots : List Entry) :
    (rewriteKey key (fun e => { e with value := val }) slots).filterMap binding =
      (slots.filterMap binding).map fun b =>
        if canonicalKey b = key.canonical then (b.1, val) else b := by
  apply filterMap_rewrite
  intro e b he
  obtain ⟨k, hk, rfl⟩ := map_eq_some_iff.mp he
  rw [hk]
  rfl

theorem filterMap_buryKey (key : Value) (slots : List Entry) :
    (rewriteKey key (fun _ => .tombstone) slots).filterMap binding =
      erase canonicalKey key.canonical (slots.filterMap binding) :=
  filterMap_drop_key slots rfl

/-- **What an event does to the slots is what it means for the list.** -/
theorem filterMap_slots (m : MapHeader) (e : Event) :
    (e.slots m).filterMap binding = e.apply m.bindings := by
  cases e with
  | set key val =>
    rw [Event.slots]
    split_ifs with hcontains
    · rw [filterMap_rewriteKey]
      have hmem : canonicalKey (key, val) ∈ m.bindings.map canonicalKey :=
        contains_iff_mem.mp hcontains
      exact (put_of_mem hmem).symm
    · rw [filterMap_append, filterMap_binding_roomy]
      exact (put_of_not_mem fun h => hcontains (contains_iff_mem.mpr h)).symm
  | remove key => exact filterMap_buryKey key m.slots
  | find | clear | collect => rfl

variable (hi : Inv s.heap s.map)

include hi

/-- **`set`**, on the slots. -/
theorem set_slots (hkey : key.Live s.heap) :
    Yields (set gc key val s) fun s' => Inv s'.heap s'.map ∧
      s'.map.slots = (Event.set key val).slots s.map := by
  refine (set_spec hi hkey).mono ?_
  rintro s' ⟨hi', ⟨slot, hholds, hb⟩ | ⟨hnew, hb⟩⟩
  · obtain ⟨e, he, hek⟩ := hholds.exists_entry
    refine ⟨hi', ?_⟩
    rw [hb.slots, modify_eq_map hi.base.nodup he hek, Event.slots, if_pos hholds.contains]
    rfl
  · exact ⟨hi', by rw [hb.slots, Event.slots, if_neg hnew]⟩

/-- **`remove`**, on the slots. -/
theorem remove_slots (hkey : key.Live s.heap) :
    Yields (remove gc key s) fun r => Inv r.2.heap r.2.map ∧
      (r.1 = true ↔ Contains s.map key) ∧ r.2.map.slots = (Event.remove key).slots s.map := by
  refine (remove_spec hi hkey).mono ?_
  rintro ⟨removed, s'⟩ ⟨hi', ⟨hr, slot, hholds, hb⟩ | ⟨hr, hnew, hb⟩⟩
  · obtain ⟨e, he, hek⟩ := hholds.exists_entry
    refine ⟨hi', iff_of_true hr hholds.contains, ?_⟩
    rw [hb.slots, set_eq_map hi.base.nodup he hek]
    rfl
  · refine ⟨hi', iff_of_false (Bool.eq_false_iff.mp hr) hnew, ?_⟩
    -- no slot goes by the key
    have hnone : ∀ e ∈ s.map.slots, keyOf binding canonicalKey e ≠ some key.canonical := by
      intro e he hek
      rw [keyOf_binding, map_eq_some_iff] at hek
      obtain ⟨k, hk, hkc⟩ := hek
      exact hnew ⟨k, mem_filterMap.mpr ⟨e, he, hk⟩, hkc⟩
    rw [hb.slots]
    calc s.map.slots = s.map.slots.map id := (map_id _).symm
      _ = _ := map_congr_left fun e he => (if_neg (hnone e he)).symm

/-- **One event** keeps the invariant, and answers by the list. -/
theorem exec_spec {e : Event} (he : e.Allowed s) :
    Yields (exec gc s e) fun r => Inv r.2.heap r.2.map ∧ r.2.map.slots = e.slots s.map ∧
      Answers s.map.bindings s r.2 e r.1 := by
  cases e with
  | set key val =>
    refine (set_slots hi he.1).bind ?_
    rintro s' ⟨hi', hslots⟩
    exact ⟨hi', hslots, trivial⟩
  | remove key =>
    refine (remove_slots hi he).bind ?_
    rintro ⟨removed, s'⟩ ⟨hi', hr, hslots⟩
    exact ⟨hi', hslots, hr.trans (has_iff_contains hi.base he).symm⟩
  | find key =>
    refine (find_spec hi he fun o ho => mem_toList.mpr ho).bind ?_
    rintro ⟨slot, s'⟩ ⟨hi', hf, hfound⟩
    refine ⟨hi', hf.same.slots, ?_⟩
    rcases hfound with ⟨hne, hholds⟩ | ⟨heq, hnew⟩
    · have hcontains := (has_iff_contains hi.base he).mpr hholds.contains
      obtain ⟨hlt, k, hat, hk⟩ := hholds
      -- the key looked for and the key found are both live in the heap after
      have hkey' : key.Live s'.heap := fun o ho => hf.live o (mem_toList.mpr ho) (he o ho)
      have hat' : s'.map.keyAt slot = some k := by rw [hf.same.keyAt, hat]
      have hlt' : slot < s'.map.usedCount := by rwa [hf.same.usedCount]
      obtain ⟨k', hmem, hk'⟩ := mem_keys_of_live (m := s'.map) ⟨hlt', by simp [hat']⟩
      obtain rfl : k = k' := some.inj (hat'.symm.trans hk')
      exact .inl ⟨hcontains, hne, hlt', k, hat',
        (sameValueZero_iff (hi'.base.keys_live k hmem) hkey').mpr hk⟩
    · exact .inr ⟨fun hhas => hnew ((has_iff_contains hi.base he).mp hhas), heq⟩
  | clear =>
    obtain ⟨hi', hslots⟩ := clear_spec hi
    exact ⟨hi', hslots, trivial⟩
  | collect heap =>
    have hc : Heap.Collects (s.map.roots ++ []) s.heap heap := by
      rw [append_nil]
      exact he
    exact ⟨hi.collects hc, rfl, trivial⟩

end Events

/-! ## What needs no block -/

/-- The bucket block is the one for the entry block. -/
def Fitted (m : MapHeader) : Prop := m.capacity ≠ 0 → m.bucketCount = bucketCountFor m.capacity

section Fitted

variable {gc : Collector} {args : List ObjectId} {key val : Value} {s s' : State}

theorem Fitted.congr {m m' : MapHeader} (h : Fitted m) (hcap : m'.capacity = m.capacity)
    (hcount : m'.bucketCount = m.bucketCount) : Fitted m' := by
  rw [Fitted, hcap, hcount]
  exact h

/-- A current index is one for the entry block. -/
theorem Inv.fitted {h : Heap} {m : MapHeader} {t : Buckets} (hi : Inv h m) (ht : m.index = some t)
    (hcur : epochCurrent h m = true) : Fitted m := by
  intro _
  rw [bucketCount, buckets, ht]
  exact (hi.ready t ht hcur).length

theorem length_set_getD {α : Type} (entries : Option (List α)) (f : List α → List α)
    (hf : ∀ d, (f d).length = d.length) :
    ((entries.map f).getD []).length = (entries.getD []).length := by
  cases entries with
  | none => rfl
  | some d => exact hf d

theorem Fitted.update (h : Fitted s.map) (slot : Nat) (val : Value) :
    Fitted (update slot val s.map) :=
  h.congr (length_set_getD _ _ fun _ => length_modify ..) rfl

theorem Fitted.bury (h : Fitted s.map) (slot : Nat) : Fitted (bury slot s.map) :=
  h.congr (length_set_getD _ _ fun _ => length_set) rfl

theorem Fitted.clear (h : Fitted s.map) : Fitted (clear s.map) := by
  refine h.congr (length_set_getD _ _ fun d => ?_) rfl
  rw [length_append, length_map, ← length_append, take_append_drop]

theorem Fitted.insert (h : Fitted s.map) (hrun : insert key val s = .ok s') : Fitted s'.map := by
  unfold Collections.insert at hrun
  dsimp only at hrun
  split at hrun
  · cases hrun
  · next t hplace =>
    obtain rfl := Except.ok.inj hrun
    exact h.congr (length_set_getD _ _ fun _ => length_set) (place_length hplace)

variable (hi : Inv s.heap s.map) (hfit : Fitted s.map)

include hi hfit

variable (gc args) in
/-- The buckets are there, and are filled anew. -/
theorem ensureIndex_returns (hcap : s.map.capacity ≠ 0) :
    ∃ s', ensureIndex gc args s = .ok s' := by
  unfold ensureIndex
  split_ifs
  · exact ⟨s, rfl⟩
  · have hblock : bucketBlock gc args (bucketCountFor s.map.capacity) s = .ok s :=
      if_pos (hfit hcap)
    obtain ⟨t, hrun, -⟩ := placeEntries_spec (h := s.heap) hi.base.used_le
      (bucketCountFor_spec s.map.capacity).2 (lt_bucketCountFor hi.base.used_le)
    refine ⟨withIndex t s, ?_⟩
    rw [reindex, hblock]
    change placeEntries s.heap s.map.slots 0 _ >>= _ = _
    rw [hrun]
    rfl

variable (gc args) in
/-- **`find` needs no block.** -/
theorem find_returns (hkey : key.Live s.heap) (hargs : ∀ o ∈ key.identity, o ∈ args) :
    ∃ slot s', find gc args key s = .ok (slot, s') ∧ Fitted s'.map := by
  rw [find_eq_probe]
  split_ifs with hzero
  · exact ⟨_, s, rfl, hfit⟩
  have hcap : s.map.capacity ≠ 0 := by
    -- an entry that is live has a slot
    intro hcap
    have hle := countP_le_length (p := (·.key.isSome)) (l := s.map.slots)
    rw [← hi.live_eq, slots_length hi.base.used_le] at hle
    have hused := hi.base.used_le
    omega
  obtain ⟨s₁, hrun⟩ := ensureIndex_returns gc args hi hfit hcap
  obtain ⟨hi₁, hf, ⟨t, ht⟩, hcur⟩ := (ensureIndex_spec hi).ok hrun
  obtain ⟨slot, hprobe, -⟩ := probe_spec hi₁.base ht (hi₁.ready t ht hcur)
    (live_of_args hargs hf hkey)
  exact ⟨slot, s₁, bind_eq_ok.mpr ⟨s₁, hrun, hprobe⟩, hi₁.fitted ht hcur⟩

theorem set_fitted (hkey : key.Live s.heap) (hrun : set gc key val s = .ok s') :
    Fitted s'.map := by
  have hargs : ∀ o ∈ key.identity, o ∈ argRoots key val := fun o ho =>
    mem_append_left _ (mem_toList.mpr ho)
  obtain ⟨existing, s₁, hfind, hfit₁⟩ := find_returns gc _ hi hfit hkey hargs
  obtain ⟨hi₁, -, -⟩ := (find_spec hi hkey hargs).ok hfind
  rw [set, hfind] at hrun
  change (if existing ≠ kNotFound then _ else _) = _ at hrun
  split_ifs at hrun
  · obtain rfl := Except.ok.inj hrun
    exact hfit₁.update existing val
  · obtain ⟨s₂, hroom, hrun⟩ := bind_eq_ok.mp hrun
    obtain ⟨s₃, hindex, hrun⟩ := bind_eq_ok.mp hrun
    obtain ⟨hi₂, -⟩ := (ensureRoom_spec hi₁).ok hroom
    obtain ⟨hi₃, -, ⟨t, ht⟩, hcur⟩ := (ensureIndex_spec hi₂).ok hindex
    exact (hi₃.fitted ht hcur).insert hrun

theorem exec_fitted {e : Event} {r : Answer × State} (he : e.Allowed s)
    (hrun : exec gc s e = .ok r) : Fitted r.2.map := by
  cases e with
  | set key val =>
    obtain ⟨s', hset, hrun⟩ := bind_eq_ok.mp hrun
    obtain rfl := Except.ok.inj hrun
    exact set_fitted hi hfit he.1 hset
  | remove key =>
    obtain ⟨slot, s₁, hfind, hfit₁⟩ := find_returns gc _ hi hfit he fun o ho =>
      mem_toList.mpr ho
    obtain ⟨r', hremove, hrun⟩ := bind_eq_ok.mp hrun
    obtain rfl := Except.ok.inj hrun
    rw [remove, hfind] at hremove
    change (if slot = kNotFound then _ else _) = _ at hremove
    split_ifs at hremove
    · obtain rfl := Except.ok.inj hremove
      exact hfit₁
    · obtain rfl := Except.ok.inj hremove
      exact hfit₁.bury slot
  | find key =>
    obtain ⟨slot, s₁, hfind, hfit₁⟩ := find_returns gc _ hi hfit he fun o ho =>
      mem_toList.mpr ho
    rw [exec, hfind] at hrun
    obtain rfl := Except.ok.inj hrun
    exact hfit₁
  | clear =>
    obtain rfl := Except.ok.inj hrun
    exact hfit.clear
  | collect heap =>
    obtain rfl := Except.ok.inj hrun
    exact hfit

/-- **Only a key that is not there needs a block.** -/
theorem exec_returns {e : Event} (he : e.Allowed s)
    (hnew : ∀ key val, e = .set key val → Has s.heap s.map.bindings key) :
    ∃ r, exec gc s e = .ok r := by
  cases e with
  | set key val =>
    have hargs : ∀ o ∈ key.identity, o ∈ argRoots key val := fun o ho =>
      mem_append_left _ (mem_toList.mpr ho)
    obtain ⟨existing, s₁, hfind, -⟩ := find_returns gc _ hi hfit he.1 hargs
    obtain ⟨-, -, hfound⟩ := (find_spec hi he.1 hargs).ok hfind
    have hthere := (has_iff_contains hi.base he.1).mp (hnew key val rfl)
    have hne : existing ≠ kNotFound := by
      rcases hfound with ⟨hne, -⟩ | ⟨-, hnot⟩
      · exact hne
      · exact absurd hthere hnot
    refine ⟨(.done, { s₁ with map := update existing val s₁.map }), ?_⟩
    rw [exec, set, hfind]
    change (if existing ≠ kNotFound then _ else _) >>= _ = _
    rw [if_pos hne]
    rfl
  | remove key =>
    obtain ⟨slot, s₁, hfind, -⟩ := find_returns gc _ hi hfit he fun o ho =>
      mem_toList.mpr ho
    rw [exec, remove, hfind]
    change ∃ r, (if slot = kNotFound then _ else _) >>= _ = Except.ok r
    split_ifs
    · exact ⟨_, rfl⟩
    · exact ⟨_, rfl⟩
  | find key =>
    obtain ⟨slot, s₁, hfind, -⟩ := find_returns gc _ hi hfit he fun o ho =>
      mem_toList.mpr ho
    rw [exec, hfind]
    exact ⟨_, rfl⟩
  | clear => exact ⟨_, rfl⟩
  | collect heap => exact ⟨_, rfl⟩

end Fitted

/-- The list after the events of a run. -/
def replay (es : List (Event × Answer)) : Assoc := es.foldl (fun l e => e.1.apply l) []

section Runs

variable {gc : Collector} {h : Heap} {self : ObjectId} {es : List (Event × Answer)} {s : State}

theorem run_invariant (hself : h.live self)
    (hrun : Run (Step gc) { heap := h, map := create self } es s) :
    Inv s.heap s.map ∧ Fitted s.map ∧ s.map.bindings = replay es := by
  have hinit := create_spec hself
  refine hrun.simulates (fun s l => Inv s.heap s.map ∧ Fitted s.map ∧ s.map.bindings = l)
    (fun l e => e.1.apply l) ⟨hinit.1, fun h => absurd rfl h, by rw [bindings]⟩ ?_
  rintro s₁ _ ⟨e, a⟩ s₂ ⟨hi, hfit, rfl⟩ ⟨hallowed, hexec⟩
  obtain ⟨hi', hslots, -⟩ := (exec_spec hi hallowed).ok hexec
  refine ⟨hi', exec_fitted hi hfit hallowed hexec, ?_⟩
  rw [bindings, hslots, filterMap_slots]

end Runs

/-- A heap of two young objects, before and after they were moved. -/
def twoObjects (moved : Bool) : Heap where
  live o := o < 2
  address o := BitVec.ofNat 48 (8 * o + if moved then 64 else 16)
  isMovable _ := true
  relocationEpoch := moved.toNat
  allocations := 0
  address_inj := by
    intro (o : Nat) (o' : Nat) (ho : o < 2) (ho' : o' < 2) h
    have := congrArg BitVec.toNat h
    simp only [BitVec.toNat_ofNat] at this
    change @Eq Nat o o'
    split_ifs at this <;> omega

/-- A collector that never collects. -/
def idle : Collector where
  run _ h := h
  collects := Heap.Collects.refl

/-- The table after an event that came about. -/
def next (s : State) (e : Event) : State :=
  match exec idle s e with
  | .ok r => r.2
  | .error _ => s

/-- An empty table, the table with the second object in it, and that table after the move. -/
def empty : State := { heap := twoObjects false, map := create 0 }

def added : State := next empty (.set (.object 1) (.number 7))

def moved : State := next added (.collect (twoObjects true))

end Bronze.Collections
