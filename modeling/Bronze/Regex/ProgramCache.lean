import Bronze.Codec.Utf8
import Bronze.Table.LinkedOrder

/-!
# The cache of compiled patterns

`class RegExpCache` of `src/runtime/builtin_regexp_exec.cpp`: at most `kCapacity` patterns, each in
a slot under a key, with the least recently used one evicted for a new one. A slot that is filled
gets an id of a new generation, so that what held the old one can tell.

The links of the entries and the two ends are one value; the sentinel `kInvalid` is `none`.

## Main results

* `Consistent.lookup`, `Consistent.insert`: what the two do to the order and to the slots
-/

namespace Bronze.Regex

open LinkedOrder
open List Nat Option Function

/-- A key: the flags and the text in UTF-8. -/
abbrev Key := List Nat

def kCapacity : Nat := 512

/-- `RegExpCache::Entry`, without the links. -/
structure Entry (P : Type) where
  key : Key
  pattern : Option P
  id : Nat

/-- `class RegExpCache`: `links` are the links of the entries, `head_` and `tail_`. -/
structure RegExpCache (P : Type) where
  entries : Nat → Entry P
  keyToSlot : Key → Option Nat
  links : Links Nat
  size : Nat
  generation : Nat

namespace RegExpCache

variable {P : Type}

/-- A cache that was just made. -/
def empty : RegExpCache P where
  entries _ := { key := [], pattern := none, id := 0 }
  keyToSlot _ := none
  links := { prev := fun _ => none, next := fun _ => none, head := none, tail := none }
  size := 0
  generation := 0

def touch (slot : Nat) (c : RegExpCache P) : RegExpCache P :=
  { c with links := c.links.touch slot }

def lookup (key : Key) (c : RegExpCache P) : Option Nat × RegExpCache P :=
  match c.keyToSlot key with
  | none => (none, c)
  | some slot => (some slot, c.touch slot)

/-- The generation `RegExpCache::makeId` counts to. -/
def nextGeneration (c : RegExpCache P) : Nat := (c.generation + 1) % 2 ^ 33

/-- The id `RegExpCache::makeId` makes. -/
def nextId (slot : Nat) (c : RegExpCache P) : Nat :=
  (c.nextGeneration <<< 16) ||| (slot &&& 0xFFFF)

/-- A pattern and a new id for a slot: the assignments to `entries_[slot]` in
`RegExpCache::insert`. -/
def fill (slot : Nat) (key : Key) (pattern : P) (c : RegExpCache P) : RegExpCache P :=
  { c with
    entries := update c.entries slot { key, pattern := some pattern, id := c.nextId slot }
    generation := c.nextGeneration }

/-- The eviction of `RegExpCache::insert`. -/
def evict (slot : Nat) (c : RegExpCache P) : RegExpCache P :=
  { c with
    keyToSlot := update c.keyToSlot (c.entries slot).key none
    links := c.links.unlink slot
    entries := update c.entries slot { c.entries slot with pattern := none } }

/-- The slot `RegExpCache::insert` takes for a new key. The tail is there once the cache is full. -/
def victim (c : RegExpCache P) : Nat :=
  if c.size < kCapacity then c.size else c.links.tail.getD 0xFFFFFFFF

/-- Room for a new key at the slot: a new slot, or the one of the pattern that is evicted. -/
def makeRoom (c : RegExpCache P) : RegExpCache P :=
  if c.size < kCapacity then { c with size := c.size + 1 } else c.evict c.victim

/-- The index and the list get a slot that was filled. -/
def enter (slot : Nat) (key : Key) (c : RegExpCache P) : RegExpCache P :=
  { c with
    keyToSlot := update c.keyToSlot key (some slot)
    links := c.links.pushFront slot }

def insert (key : Key) (pattern : P) (c : RegExpCache P) : Nat × RegExpCache P :=
  match c.keyToSlot key with
  | some slot => (slot, (c.fill slot (c.entries slot).key pattern).touch slot)
  | none => (c.victim, ((c.makeRoom).fill c.victim key pattern).enter c.victim key)

def isValid (slot expectedId : Nat) (c : RegExpCache P) : Bool :=
  slot < c.size && (c.entries slot).id = expectedId && (c.entries slot).pattern.isSome

def entryId (slot : Nat) (c : RegExpCache P) : Nat := (c.entries slot).id

/-- The list runs through the slots in use, most recently used first, and the index gives each key
the slot that holds it. -/
structure Consistent (c : RegExpCache P) (order : List Nat) : Prop where
  threads : Threads c.links order
  slots : ∀ s, s ∈ order ↔ s < c.size
  size_le : c.size ≤ kCapacity
  index : ∀ key s, c.keyToSlot key = some s ↔ s < c.size ∧ (c.entries s).key = key
  filled : ∀ s < c.size, (c.entries s).pattern.isSome
  id_slot : ∀ s < c.size, (c.entries s).id % 2 ^ 16 = s

/-- The keys, most recently used first. -/
def keys (c : RegExpCache P) (order : List Nat) : List Key := order.map fun s => (c.entries s).key

variable {c : RegExpCache P} {order : List Nat} {key : Key} {slot : Nat}

theorem empty_consistent : Consistent (empty : RegExpCache P) [] where
  threads := ⟨nodup_nil, rfl, rfl, fun _ _ _ h => by simp at h, fun _ _ _ h => by simp at h⟩
  slots s := by simp [empty]
  size_le := zero_le _
  index key s := by simp [empty]
  filled s hs := absurd hs (not_lt_zero s)
  id_slot s hs := absurd hs (not_lt_zero s)

section

variable (h : Consistent c order)

include h

theorem Consistent.length_eq : order.length = c.size := by
  have hperm : order.Perm (range c.size) := by
    refine (perm_ext_iff_of_nodup h.threads.nodup nodup_range).mpr fun s => ?_
    simp [h.slots]
  simp [hperm.length_eq]

theorem Consistent.key_inj {s t : Nat} (hs : s < c.size) (ht : t < c.size)
    (heq : (c.entries s).key = (c.entries t).key) : s = t := by
  have hs' := (h.index _ s).mpr ⟨hs, rfl⟩
  have ht' := (h.index _ t).mpr ⟨ht, rfl⟩
  rw [heq, ht'] at hs'
  exact (some.inj hs').symm

theorem Consistent.keys_toFront (hslot : slot < c.size) :
    c.keys (toFront slot order) = toFront (c.entries slot).key (c.keys order) := by
  rw [keys, keys, toFront, toFront, List.map_cons, List.filter_map]
  congr 2
  refine filter_congr fun s hs => ?_
  rw [comp, Bool.eq_iff_iff, decide_eq_true_eq, decide_eq_true_eq]
  exact not_congr ⟨fun heq => heq ▸ rfl, h.key_inj ((h.slots s).mp hs) hslot⟩

/-- **A slot that is touched** comes to the front, and nothing else changes. -/
theorem Consistent.touch (hslot : slot < c.size) :
    Consistent (c.touch slot) (toFront slot order) where
  threads := h.threads.touch ((h.slots slot).mpr hslot)
  slots s := by
    rw [toFront, mem_cons, mem_filter, decide_eq_true_eq, h.slots]
    constructor
    · rintro (rfl | ⟨hs, -⟩)
      · exact hslot
      · exact hs
    · intro hs
      by_cases heq : s = slot
      · exact Or.inl heq
      · exact Or.inr ⟨hs, heq⟩
  size_le := h.size_le
  index := h.index
  filled := h.filled
  id_slot := h.id_slot

/-- **A lookup** finds the slot of the key, or there is none. -/
theorem Consistent.lookup (key : Key) :
    (∃ slot, c.lookup key = (some slot, c.touch slot) ∧ slot < c.size ∧
        (c.entries slot).key = key) ∨
      (c.lookup key = (none, c) ∧ ∀ s < c.size, (c.entries s).key ≠ key) := by
  rw [RegExpCache.lookup]
  cases hkey : c.keyToSlot key with
  | none =>
    refine Or.inr ⟨rfl, fun s hs heq => ?_⟩
    rw [(h.index key s).mpr ⟨hs, heq⟩] at hkey
    cases hkey
  | some slot =>
    obtain ⟨hlt, heq⟩ := (h.index key slot).mp hkey
    exact Or.inl ⟨slot, rfl, hlt, heq⟩

end

theorem nextId_mod (c : RegExpCache P) {slot : Nat} (h : slot < kCapacity) :
    c.nextId slot % 2 ^ 16 = slot := by
  have hlt : slot < 2 ^ 16 := lt_trans h (by decide)
  have hmask : slot &&& 0xFFFF = slot := by
    rw [show (0xFFFF : Nat) = 2 ^ 16 - 1 from rfl, Nat.and_two_pow_sub_one_eq_mod]
    exact Nat.mod_eq_of_lt hlt
  rw [nextId, hmask, Nat.shiftLeft_eq, Nat.mul_comm, ← Nat.two_pow_add_eq_or_of_lt hlt]
  omega

/-! ## Insertion -/

variable (h : Consistent c order)

include h

theorem Consistent.room :
    c.victim < c.makeRoom.size ∧ c.makeRoom.size ≤ kCapacity ∧
      Threads c.makeRoom.links (order.take (kCapacity - 1)) ∧
      (∀ s, s ∈ order.take (kCapacity - 1) ↔ s < c.makeRoom.size ∧ s ≠ c.victim) ∧
      (∀ s < c.makeRoom.size, s ≠ c.victim → s < c.size) ∧
      (∀ key s, c.makeRoom.keyToSlot key = some s ↔
        (s < c.makeRoom.size ∧ s ≠ c.victim) ∧ (c.entries s).key = key) ∧
      ∀ s, s ≠ c.victim → c.makeRoom.entries s = c.entries s := by
  have hlength := h.length_eq
  have hle := h.size_le
  rw [makeRoom, victim]
  split_ifs with hlt
  · -- a new slot
    have htake : order.take (kCapacity - 1) = order := take_of_length_le (by omega)
    rw [htake]
    have hslots : ∀ s, s < c.size ↔ s < c.size + 1 ∧ s ≠ c.size := fun s => by omega
    refine ⟨lt_succ_self _, hlt, h.threads, fun s => (h.slots s).trans (hslots s), ?_, ?_, ?_⟩
    · exact fun s hs hne => (hslots s).mpr ⟨hs, hne⟩
    · exact fun key s => (h.index key s).trans (and_congr_left fun _ => hslots s)
    · exact fun _ _ => rfl
  · -- the pattern in the tail is evicted
    have hfull : c.size = kCapacity := le_antisymm hle (not_lt.mp hlt)
    have hne : order ≠ [] := by
      rintro rfl
      rw [hfull] at hlength
      cases hlength
    obtain ⟨tail, htail⟩ : ∃ tail, c.links.tail = some tail :=
      ⟨order.getLast hne, by rw [h.threads.tail, getLast?_eq_some_getLast hne]⟩
    obtain ⟨horder, hunlink⟩ := h.threads.unlink_tail htail
    have htake : order.take (kCapacity - 1) = order.dropLast := by
      rw [dropLast_eq_take, hlength, hfull]
    have hmem : tail ∈ order := by
      rw [horder]
      exact mem_append_right _ (mem_singleton_self tail)
    have hslots : ∀ s, s ∈ order.dropLast ↔ s < c.size ∧ s ≠ tail := by
      intro s
      rw [← h.slots]
      have hnodup := h.threads.nodup
      rw [horder] at hnodup
      constructor
      · intro hs
        refine ⟨(dropLast_sublist order).subset hs, ?_⟩
        rintro rfl
        exact disjoint_of_nodup_append hnodup hs (mem_singleton_self s)
      · rintro ⟨hs, hne⟩
        rw [horder] at hs
        exact (mem_append.mp hs).resolve_right fun hlast => hne (mem_singleton.mp hlast)
    rw [htail, htake, evict]
    refine ⟨(h.slots tail).mp hmem, hle, hunlink, hslots, fun s hs _ => hs, fun key s => ?_, ?_⟩
    · dsimp only
      rw [update_apply]
      split_ifs with hkey
      · refine iff_of_false nofun ?_
        rintro ⟨⟨hs, hne⟩, heq⟩
        exact hne (h.key_inj hs ((h.slots tail).mp hmem) (heq.trans hkey))
      · rw [h.index]
        constructor
        · rintro ⟨hs, rfl⟩
          exact ⟨⟨hs, fun heq => hkey (heq ▸ rfl)⟩, rfl⟩
        · rintro ⟨⟨hs, -⟩, heq⟩
          exact ⟨hs, heq⟩
    · exact fun s hne => update_of_ne hne _ _

/-- **A new key** gets the slot in front, with a pattern and an id of its own, and the slots of the
patterns that stay are as they were. -/
theorem Consistent.insert (pattern : P)
    (hnew : ∀ s < c.size, (c.entries s).key ≠ key) :
    Consistent (c.insert key pattern).2 (c.victim :: order.take (kCapacity - 1)) ∧
      (c.insert key pattern).1 = c.victim ∧ c.victim < (c.insert key pattern).2.size ∧
      (c.insert key pattern).2.entries c.victim =
        { key, pattern := some pattern, id := c.nextId c.victim } ∧
      ∀ s < (c.insert key pattern).2.size, s ≠ c.victim →
        s < c.size ∧ (c.insert key pattern).2.entries s = c.entries s := by
  obtain ⟨hvictim, hcap, hthreads, hslots, hold, hindex, hentries⟩ := h.room
  have hnone : c.keyToSlot key = none := by
    cases hkey : c.keyToSlot key with
    | none => rfl
    | some s =>
      obtain ⟨hs, heq⟩ := (h.index key s).mp hkey
      exact absurd heq (hnew s hs)
  have hid : c.makeRoom.nextId c.victim = c.nextId c.victim := by
    have hgeneration : c.makeRoom.generation = c.generation := by
      rw [makeRoom]
      split_ifs <;> rfl
    rw [nextId, nextId, nextGeneration, nextGeneration, hgeneration]
  have hins : c.insert key pattern =
      (c.victim, ((c.makeRoom).fill c.victim key pattern).enter c.victim key) := by
    rw [RegExpCache.insert, hnone]
  have hfilled : (((c.makeRoom).fill c.victim key pattern).enter c.victim key).entries c.victim =
      { key, pattern := some pattern, id := c.nextId c.victim } := by
    change update c.makeRoom.entries c.victim _ c.victim = _
    simp [hid]
  have hkept : ∀ s, s ≠ c.victim →
      (((c.makeRoom).fill c.victim key pattern).enter c.victim key).entries s = c.entries s := by
    intro s hne
    change update c.makeRoom.entries c.victim _ s = _
    rw [update_of_ne hne, hentries s hne]
  rw [hins]
  refine ⟨⟨?_, ?_, hcap, ?_, ?_, ?_⟩, rfl, hvictim, hfilled,
    fun s hs hne => ⟨hold s hs hne, hkept s hne⟩⟩
  · exact hthreads.pushFront fun hmem => ((hslots _).mp hmem).2 rfl
  · intro s
    rw [mem_cons, hslots]
    change _ ↔ s < c.makeRoom.size
    constructor
    · rintro (rfl | ⟨hs, -⟩)
      · exact hvictim
      · exact hs
    · intro hs
      by_cases heq : s = c.victim
      · exact Or.inl heq
      · exact Or.inr ⟨hs, heq⟩
  · intro key' s
    change update c.makeRoom.keyToSlot key (some c.victim) key' = some s ↔ s < c.makeRoom.size ∧ _
    rw [update_apply]
    by_cases hs : s = c.victim
    · subst hs
      rw [hfilled]
      split_ifs with hkey
      · exact iff_of_true rfl ⟨hvictim, hkey.symm⟩
      · refine iff_of_false (fun hsome => ?_) fun heq => hkey heq.2.symm
        exact ((hindex key' _).mp hsome).1.2 rfl
    · rw [hkept s hs]
      split_ifs with hkey
      · refine iff_of_false (fun hsome => hs (some.inj hsome).symm) ?_
        rintro ⟨hlt, heq⟩
        exact hnew s (hold s hlt hs) (heq.trans hkey)
      · rw [hindex]
        exact ⟨fun ⟨⟨hlt, _⟩, heq⟩ => ⟨hlt, heq⟩, fun ⟨hlt, heq⟩ => ⟨⟨hlt, hs⟩, heq⟩⟩
  · intro s hlt
    by_cases hs : s = c.victim
    · subst hs
      rw [hfilled]
      rfl
    · rw [hkept s hs]
      exact h.filled s (hold s hlt hs)
  · intro s hlt
    by_cases hs : s = c.victim
    · subst hs
      rw [hfilled]
      exact nextId_mod c (lt_of_lt_of_le hlt hcap)
    · rw [hkept s hs]
      exact h.id_slot s (hold s hlt hs)

/-- The keys after a new one came: the least recently used one is gone from a full cache. -/
theorem Consistent.keys_insert (pattern : P) (hnew : ∀ s < c.size, (c.entries s).key ≠ key) :
    (c.insert key pattern).2.keys (c.victim :: order.take (kCapacity - 1)) =
      (toFront key (c.keys order)).take kCapacity := by
  obtain ⟨hc, -, -, hfilled, hkept⟩ := h.insert pattern hnew
  have hout : key ∉ c.keys order := by
    intro hmem
    obtain ⟨s, hs, heq⟩ := mem_map.mp hmem
    exact hnew s ((h.slots s).mp hs) heq
  have hnot : c.victim ∉ order.take (kCapacity - 1) := (nodup_cons.mp hc.threads.nodup).1
  rw [toFront_of_not_mem hout, keys, keys, map_cons, hfilled,
    show kCapacity = kCapacity - 1 + 1 from rfl, take_succ_cons, ← map_take]
  congr 1
  refine map_congr_left fun s hs => ?_
  have hlt := (hc.slots s).mp (mem_cons_of_mem _ hs)
  rw [(hkept s hlt fun heq => hnot (heq ▸ hs)).2]

end RegExpCache

end Bronze.Regex
