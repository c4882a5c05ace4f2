import Bronze.Map.Refinement

/-!
# Iteration over a table that changes

`rtMapIteratorStep` of `src/runtime/builtin_map_iterator.cpp` and the loop of `collectionForEach`
of `src/runtime/builtin_map_methods.cpp`. Both hold a slot number, the cursor, between two entries
they produce, while the program goes on to change the table.

What they should produce is said by the specification of the language, where the entries are
records of a list that only ever grows: a record is emptied and never taken out, so an index into
the list keeps its meaning. The slots of the table are not such a list, since compacting and
clearing give out slot numbers anew. The walk is right as long as no entry is given a slot below
the cursor, and no slot below the cursor is taken away.

## Main results

* `iteration_live`: with steps that keep the cursor, the table is walked as the records are
* `iteration_skips`: without, it is not
-/

namespace Bronze.Collections

open OrderedList Transition
open List Nat Option Entry Event Prod

/-- The records of a collection, emptied where they were removed, and a walk along them. -/
structure Records where
  data : List (Option (Value × Value))
  index : Nat
  done : Bool
  /-- The records the walk came to, in its order. -/
  visited : List Nat
  /-- What the steps of the walk produced, in their order. -/
  produced : List (Option (Value × Value))

def Event.applyRecords (data : List (Option (Value × Value))) :
    Event → List (Option (Value × Value))
  | .set key val =>
    if key.canonical ∈ (data.filterMap id).map canonicalKey then
      data.map fun r => if keyOf id canonicalKey r = some key.canonical
        then r.map fun b => (b.1, val) else r
    else data ++ [some (key, val)]
  | .remove key =>
    data.map fun r => if keyOf id canonicalKey r = some key.canonical then none else r
  | .find _ => data
  | .clear => data.map fun _ => none
  | .collect _ => data

namespace Records

def start (data : List (Option (Value × Value))) : Records :=
  { data, index := 0, done := false, visited := [], produced := [] }

/-- A step of the walk: it goes to the next record that is not empty, and once there is none it is
over. -/
def advance (t : Records) : Records :=
  if t.done then { t with produced := t.produced ++ [none] }
  else
    match nextIn id t.index (t.data.drop t.index) with
    | none => { t with index := t.data.length, done := true, produced := t.produced ++ [none] }
    | some (i, b) =>
      { t with
        index := i + 1
        visited := t.visited ++ [i]
        produced := t.produced ++ [some b] }

/-- **What a walk produces.** It comes to records in the order of insertion, to none of them
twice, and a record it is past and did not come to had been removed. -/
structure Exact (t : Records) : Prop where
  ascending : t.visited.Pairwise (· < ·)
  below : ∀ i ∈ t.visited, i < t.index
  passed : ∀ i < t.index, i ∈ t.visited ∨ t.data[i]? = some none
  index_le : t.index ≤ t.data.length

theorem start_exact (data : List (Option (Value × Value))) : (start data).Exact where
  ascending := .nil
  below _ h := (not_mem_nil h).elim
  passed _ h := (not_lt_zero _ h).elim
  index_le := zero_le _

variable {data : List (Option (Value × Value))}

theorem applyRecords_of_none (e : Event) {i : Nat}
    (h : data[i]? = some none) : (e.applyRecords data)[i]? = some none := by
  cases e with
  | set key val =>
    rw [applyRecords]
    split_ifs
    · rw [getElem?_map, h]
      simp [keyOf]
    · rw [List.getElem?_append_left (List.getElem?_eq_some_iff.mp h).1, h]
  | remove key =>
    rw [applyRecords, getElem?_map, h]
    simp [keyOf]
  | clear => rw [applyRecords, getElem?_map, h]; rfl
  | find | collect => exact h

theorem le_length_applyRecords (data : List (Option (Value × Value))) (e : Event) :
    data.length ≤ (e.applyRecords data).length := by
  cases e with
  | set key val =>
    rw [applyRecords]
    split_ifs
    · simp
    · rw [length_append]
      exact le_add_right _ _
  | remove | clear => simp [applyRecords]
  | find | collect => exact le_rfl

theorem Exact.apply {t : Records} (h : t.Exact) (e : Event) :
    Exact { t with data := e.applyRecords t.data } where
  ascending := h.ascending
  below := h.below
  passed i hi := (h.passed i hi).imp_right (applyRecords_of_none e)
  index_le := h.index_le.trans (le_length_applyRecords ..)

theorem getElem?_of_nextIn_none {n i : Nat} (h : nextIn id n (data.drop n) = none) (hn : n ≤ i)
    (hi : i < data.length) : data[i]? = some none := by
  have hempty := filterMap_eq_nil_iff.mp (nextIn_eq_none.mp h)
  obtain ⟨d, rfl⟩ := Nat.exists_eq_add_of_le hn
  have hget : data[n + d] = none := by
    refine hempty _ (mem_of_getElem? (i := d) ?_)
    rw [getElem?_drop, getElem?_eq_getElem hi]
  rw [getElem?_eq_getElem hi, hget]

theorem Exact.advance {t : Records} (h : t.Exact) : t.advance.Exact := by
  unfold Records.advance
  split_ifs
  · exact ⟨h.ascending, h.below, h.passed, h.index_le⟩
  split
  case h_1 hnone =>
    refine ⟨h.ascending, fun i hi => (h.below i hi).trans_le h.index_le, ?_, le_rfl⟩
    intro i hi
    rcases lt_or_ge i t.index with hlt | hge
    · exact h.passed i hlt
    · exact .inr (getElem?_of_nextIn_none hnone hge hi)
  case h_2 j b hsome =>
    obtain ⟨hle, hlt, -, hskip, -, -⟩ := nextIn_drop hsome
    refine ⟨?_, ?_, ?_, hlt⟩
    · rw [pairwise_append]
      refine ⟨h.ascending, pairwise_singleton .., ?_⟩
      intro i hi j' hj'
      rw [mem_singleton.mp hj']
      exact (h.below i hi).trans_le hle
    · intro i hi
      rcases mem_append.mp hi with hi | hi
      · exact (h.below i hi).trans_le (hle.trans (le_succ j))
      · rw [mem_singleton.mp hi]
        exact lt_succ_self j
    · intro i hi
      rcases lt_trichotomy i j with hij | rfl | hij
      · rcases lt_or_ge i t.index with hlt' | hge
        · exact (h.passed i hlt').imp_left (mem_append_left _)
        · -- between the index and the record that was come to
          obtain ⟨e, he, hnone⟩ := hskip i hge hij
          exact .inr (he.trans (congrArg some hnone))
      · exact .inl (mem_append_right _ (mem_singleton_self i))
      · exact absurd hi (by dsimp only; omega)

end Records

/-! ## The walk along the table -/

inductive Kind where
  | keys
  | values
  | entries
  deriving DecidableEq

/-- Who walks: an iterator object, or a call of `forEach`. -/
inductive Walker where
  | iterator (kind : Kind)
  | forEach
  deriving DecidableEq

/-- What the program gets: a value, the pair of an entry, or the arguments of the callback. -/
inductive Produced where
  | value (v : Value)
  | pair (first second : Value)
  | arguments (first second : Value)
  deriving DecidableEq

structure Cursor where
  /-- `[[IteratedMap]]` was not set to undefined, and the loop of `forEach` was not left. -/
  active : Bool
  /-- `[[MapNextIndex]]`, and the variable of the loop of `forEach`. -/
  nextIndex : Nat

/-- The cursor of a fresh iterator, and of a loop that begins. -/
def Cursor.start : Cursor := { active := true, nextIndex := 0 }

def MapHeader.valueAt (m : MapHeader) (slot : Nat) : Value :=
  (m.entryData.getD slot .undefined).value

/-- What a walker makes of an entry. -/
def Walker.yields (isSet : Bool) (b : Value × Value) : Walker → Produced
  | .iterator .keys => .value b.1
  | .iterator .values => .value (if isSet then b.1 else b.2)
  | .iterator .entries => .pair b.1 (if isSet then b.1 else b.2)
  | .forEach => .arguments (if isSet then b.1 else b.2) b.1

def MapHeader.entryAt (m : MapHeader) (slot : Nat) : Value × Value :=
  ((m.keyAt slot).getD .undefined, m.valueAt slot)

/-- `while (at < map->used() && !map->liveAt(at)) ++at`. -/
def skipTombstones (m : MapHeader) : Nat → Nat → Nat
  | 0, slot => slot
  | fuel + 1, slot =>
    if slot < m.usedCount && !(m.keyAt slot).isSome then skipTombstones m fuel (slot + 1) else slot

def mapIteratorStep (kind : Kind) (isSet : Bool) (m : MapHeader) (it : Cursor) :
    Option Produced × Cursor :=
  if !it.active then (none, it)
  else
    let slot := skipTombstones m m.usedCount it.nextIndex
    if slot ≥ m.usedCount then (none, { it with active := false })
    else
      (some (Walker.yields isSet (m.entryAt slot) (.iterator kind)),
        { it with nextIndex := slot + 1 })

/-- The loop of `collectionForEach`, up to the next call of the callback: the slot of that call. -/
def forEachLoop (m : MapHeader) : Nat → Nat → Option Nat
  | 0, _ => none
  | fuel + 1, slot =>
    if slot < m.usedCount then
      if (m.keyAt slot).isSome then some slot else forEachLoop m fuel (slot + 1)
    else none

/-- `collectionForEach`, from one call of the callback to the next. -/
def forEachStep (isSet : Bool) (m : MapHeader) (c : Cursor) : Option Produced × Cursor :=
  if !c.active then (none, c)
  else
    match forEachLoop m (m.usedCount + 1) c.nextIndex with
    | none => (none, { c with active := false })
    | some slot =>
      (some (Walker.yields isSet (m.entryAt slot) .forEach), { c with nextIndex := slot + 1 })

def walkStep (w : Walker) (isSet : Bool) (m : MapHeader) (c : Cursor) : Option Produced × Cursor :=
  match w with
  | .iterator kind => mapIteratorStep kind isSet m c
  | .forEach => forEachStep isSet m c

section Loops

variable {m : MapHeader} {fuel slot : Nat}

theorem drop_slots (hused : m.usedCount ≤ m.capacity) (h : slot < m.usedCount) :
    ∃ e, m.slots.drop slot = e :: m.slots.drop (slot + 1) ∧ m.keyAt slot = e.key ∧
      m.valueAt slot = e.value := by
  have hlt : slot < m.slots.length := by rwa [slots_length hused]
  have hget : m.entryData[slot]? = some m.slots[slot] := by
    rw [← getElem?_eq_getElem hlt, MapHeader.slots, getElem?_take_of_lt h]
  refine ⟨m.slots[slot], drop_eq_getElem_cons hlt, ?_, ?_⟩
  · rw [MapHeader.keyAt, hget]
    rfl
  · rw [MapHeader.valueAt, getD_eq_getElem?_getD, hget]
    rfl

theorem drop_slots_nil (hused : m.usedCount ≤ m.capacity) (h : m.usedCount ≤ slot) :
    m.slots.drop slot = [] :=
  drop_eq_nil_of_le (by rwa [slots_length hused])

theorem entryAt_eq {e : Entry} {b : Value × Value} (hkey : m.keyAt slot = e.key)
    (hval : m.valueAt slot = e.value) (hb : e.binding = some b) : m.entryAt slot = b := by
  obtain ⟨k, hk, rfl⟩ := map_eq_some_iff.mp hb
  rw [MapHeader.entryAt, hkey, hk, hval]
  rfl

section

variable (hused : m.usedCount ≤ m.capacity)

include hused

theorem skipTombstones_spec (hfuel : m.usedCount ≤ slot + fuel) :
    match nextIn binding slot (m.slots.drop slot) with
    | none => m.usedCount ≤ skipTombstones m fuel slot
    | some (i, b) => skipTombstones m fuel slot = i ∧ i < m.usedCount ∧ m.entryAt i = b := by
  induction fuel generalizing slot with
  | zero =>
    rw [drop_slots_nil hused (show m.usedCount ≤ slot by omega)]
    exact hfuel
  | succ fuel ih =>
    rcases lt_or_ge slot m.usedCount with hlt | hge
    · obtain ⟨e, hdrop, hkey, hval⟩ := drop_slots hused hlt
      rw [hdrop, nextIn, skipTombstones]
      cases hk : e.key with
      | none =>
        have hb : e.binding = none := by rw [binding, hk]; rfl
        have := ih (by omega : _ ≤ slot + 1 + fuel)
        simpa [hb, hkey, hk, hlt] using this
      | some k =>
        have hb : e.binding = some (k, e.value) := by rw [binding, hk]; rfl
        simp [hb, hkey, hk, hlt, entryAt_eq hkey hval hb]
    · rw [drop_slots_nil hused hge, skipTombstones]
      simpa [nextIn, not_lt.mpr hge] using hge

/-- The loop of `forEach` stops at the next entry. -/
theorem forEachLoop_spec (hfuel : m.usedCount < slot + fuel) :
    match nextIn binding slot (m.slots.drop slot) with
    | none => forEachLoop m fuel slot = none
    | some (i, b) => forEachLoop m fuel slot = some i ∧ m.entryAt i = b := by
  induction fuel generalizing slot with
  | zero =>
    rw [drop_slots_nil hused (by omega)]
    rfl
  | succ fuel ih =>
    rcases lt_or_ge slot m.usedCount with hlt | hge
    · obtain ⟨e, hdrop, hkey, hval⟩ := drop_slots hused hlt
      rw [hdrop, nextIn, forEachLoop]
      cases hk : e.key with
      | none =>
        have hb : e.binding = none := by rw [binding, hk]; rfl
        have := ih (by omega : _ < slot + 1 + fuel)
        simpa [hb, hkey, hk, hlt] using this
      | some k =>
        have hb : e.binding = some (k, e.value) := by rw [binding, hk]; rfl
        simp [hb, hkey, hk, hlt, entryAt_eq hkey hval hb]
    · rw [drop_slots_nil hused hge, forEachLoop]
      simp [nextIn, not_lt.mpr hge]

/-- **Both walkers go to the next entry**, and are over when there is none. -/
theorem walkStep_spec (w : Walker) (isSet : Bool) (c : Cursor)
    (hc : c.active = true) :
    walkStep w isSet m c =
      match nextIn binding c.nextIndex (m.slots.drop c.nextIndex) with
      | none => (none, { c with active := false })
      | some (i, b) => (some (w.yields isSet b), { c with nextIndex := i + 1 }) := by
  cases w with
  | iterator kind =>
    have hloop := skipTombstones_spec hused (by omega : _ ≤ c.nextIndex + m.usedCount)
    simp only [walkStep, mapIteratorStep, hc, Bool.not_true, Bool.false_eq_true, if_false]
    cases hn : nextIn binding c.nextIndex (m.slots.drop c.nextIndex) with
    | none =>
      rw [hn] at hloop
      exact if_pos hloop
    | some p =>
      rw [hn] at hloop
      obtain ⟨hskip, hlt, hentry⟩ := hloop
      rw [hskip, if_neg (not_le.mpr hlt), hentry]
  | forEach =>
    have hloop := forEachLoop_spec hused (by omega : _ < c.nextIndex + (m.usedCount + 1))
    simp only [walkStep, forEachStep, hc, Bool.not_true, Bool.false_eq_true, if_false]
    cases hn : nextIn binding c.nextIndex (m.slots.drop c.nextIndex) with
    | none =>
      rw [hn] at hloop
      rw [hloop]
    | some p =>
      rw [hn] at hloop
      obtain ⟨hloop, hentry⟩ := hloop
      simp [hloop, hentry]

end

theorem walkStep_inactive (w : Walker) (isSet : Bool) (c : Cursor) (hc : c.active = false) :
    walkStep w isSet m c = (none, c) := by
  cases w <;> simp [walkStep, mapIteratorStep, forEachStep, hc]

end Loops

/-- A table, and a walk along it. -/
structure Walk where
  table : State
  cursor : Cursor

inductive Happening where
  | table (e : Event) (a : Answer)
  | step (p : Option Produced)

/-- What a step of the walk returned. -/
def Happening.result : Happening → Option (Option Produced)
  | .table _ _ => none
  | .step p => some p

/-- The table changes, or the walk goes on. -/
def WalkStep (gc : Collector) (w : Walker) (isSet : Bool) (s : Walk) : Happening → Walk → Prop
  | .table e a, s' => Step gc s.table (e, a) s'.table ∧ s'.cursor = s.cursor
  | .step p, s' => walkStep w isSet s.table.map s.cursor = (p, s'.cursor) ∧ s'.table = s.table

/-- What happens leaves below the cursor what lies there: a key that is added gets no slot below
the cursor, and if the entry block is compacted for it, there is no tombstone below the cursor. -/
def Keeps (s : Walk) : Happening → Prop
  | .table (.set key _) _ =>
    s.cursor.active = true → ¬Contains s.table.map key →
      s.cursor.nextIndex ≤ s.table.map.usedCount ∧
      (s.table.map.usedCount ≥ s.table.map.capacity →
        ∀ slot < s.cursor.nextIndex, (s.table.map.keyAt slot).isSome)
  | _ => True

def Records.happen (t : Records) : Happening → Records
  | .table e _ => { t with data := e.applyRecords t.data }
  | .step _ => t.advance

/-- The records of a table that was run from `create`. -/
def recordsOf (es : List (Event × Answer)) : List (Option (Value × Value)) :=
  es.foldl (fun data e => e.1.applyRecords data) []

/-- The walk along the records of a table, from what happened since it began. -/
def replayWalk (es₀ : List (Event × Answer)) (es : List Happening) : Records :=
  es.foldl Records.happen (.start (recordsOf es₀))

/-- The walk along the table returned what the walk along the records produces. -/
def Live (w : Walker) (isSet : Bool) (es₀ : List (Event × Answer)) (es : List Happening) : Prop :=
  es.filterMap Happening.result =
    (replayWalk es₀ es).produced.map (Option.map fun b => w.yields isSet b)

/-- The slots and the records hold the same entries, before the cursor and from it on. -/
structure Split (slots : List Entry) (c : Nat) (data : List (Option (Value × Value))) (n : Nat) :
    Prop where
  passed : (slots.take c).filterMap Entry.binding = (data.take n).filterMap id
  ahead : (slots.drop c).filterMap Entry.binding = (data.drop n).filterMap id
  le_length : n ≤ data.length

namespace Split

variable {slots : List Entry} {c n : Nat} {data : List (Option (Value × Value))} {m : MapHeader}

theorem all (h : Split slots c data n) : slots.filterMap binding = data.filterMap id := by
  calc slots.filterMap binding
      = (slots.take c ++ slots.drop c).filterMap binding := by simp
    _ = (data.take n ++ data.drop n).filterMap id := by
        rw [filterMap_append, h.passed, h.ahead, ← filterMap_append]
    _ = data.filterMap id := by rw [take_append_drop]

theorem filterMap_rewriteRecord (key val : Value) (data : List (Option (Value × Value))) :
    (data.map fun r => if keyOf id canonicalKey r = some key.canonical
        then r.map fun b => (b.1, val) else r).filterMap id =
      (data.filterMap id).map fun b =>
        if canonicalKey b = key.canonical then (b.1, val) else b := by
  apply filterMap_rewrite
  rintro r b rfl
  rfl

section

variable (h : Split slots c data n)

include h

theorem rewrite (key val : Value) :
    Split (rewriteKey key (fun e => { e with value := val }) slots) c
      (data.map fun r => if keyOf id canonicalKey r = some key.canonical
        then r.map fun b => (b.1, val) else r) n where
  passed := by
    rw [← map_take, filterMap_rewriteRecord, ← h.passed, ← filterMap_rewriteKey, rewriteKey,
      rewriteKey, map_take]
  ahead := by
    rw [← map_drop, filterMap_rewriteRecord, ← h.ahead, ← filterMap_rewriteKey, rewriteKey,
      rewriteKey, map_drop]
  le_length := by
    rw [length_map]
    exact h.le_length

theorem bury (key : Value) :
    Split (rewriteKey key (fun _ => .tombstone) slots) c
      (data.map fun r => if keyOf id canonicalKey r = some key.canonical then none else r) n where
  passed := by
    rw [← map_take, filterMap_drop_key _ rfl, ← h.passed, ← filterMap_buryKey, rewriteKey,
      rewriteKey, map_take]
  ahead := by
    rw [← map_drop, filterMap_drop_key _ rfl, ← h.ahead, ← filterMap_buryKey, rewriteKey,
      rewriteKey, map_drop]
  le_length := by
    rw [length_map]
    exact h.le_length

theorem append (hc : c ≤ slots.length) (e : Entry)
    {b : Value × Value} (hb : e.binding = some b) :
    Split (slots ++ [e]) c (data ++ [some b]) n where
  passed := by
    rw [take_append_of_le_length hc, take_append_of_le_length h.le_length, h.passed]
  ahead := by
    rw [drop_append_of_le_length hc, drop_append_of_le_length h.le_length,
      filterMap_append, filterMap_append, h.ahead, filterMap_cons, hb]
    rfl
  le_length := by
    rw [length_append]
    exact h.le_length.trans (le_add_right _ _)

theorem filter (hc : c ≤ slots.length) (hlive : ∀ e ∈ slots.take c, e.key.isSome = true) :
    Split (slots.filter (·.key.isSome)) c data n ∧
      c ≤ (slots.filter (·.key.isSome)).length := by
  have hfilter : slots.filter (·.key.isSome) =
      slots.take c ++ (slots.drop c).filter (·.key.isSome) := by
    rw [← filter_eq_self.mpr hlive, ← filter_append, take_append_drop]
  have hlen : (slots.take c).length = c := length_take_of_le hc
  have hbinding : ((slots.drop c).filter (·.key.isSome)).filterMap binding =
      (slots.drop c).filterMap binding := filterMap_binding_filter _
  refine ⟨⟨?_, ?_, h.le_length⟩, ?_⟩
  · rw [hfilter, take_left' hlen, h.passed]
  · rw [hfilter, drop_left' hlen, hbinding, h.ahead]
  · rw [hfilter, length_append, hlen]
    exact le_add_right _ _

end

theorem nil (c : Nat) (hn : n ≤ data.length) : Split [] c (data.map fun _ => none) n where
  passed := by
    rw [← map_take]
    simp
  ahead := by
    simp
  le_length := by rwa [length_map]

/-- **An event that leaves the cursor its slots keeps the split.** -/
theorem event (h : Split m.slots c data n) (hused : m.usedCount ≤ m.capacity) (e : Event)
    (hkeeps : ∀ key val, e = .set key val → ¬Contains m key → c ≤ m.usedCount ∧
      (m.usedCount ≥ m.capacity → ∀ slot < c, (m.keyAt slot).isSome)) :
    Split (e.slots m) c (e.applyRecords data) n := by
  cases e with
  | set key val =>
    have hiff : key.canonical ∈ (data.filterMap id).map canonicalKey ↔ Contains m key := by
      rw [← h.all]
      exact contains_iff_mem.symm
    rw [slots, applyRecords]
    by_cases hcontains : Contains m key
    · rw [if_pos hcontains, if_pos (hiff.mpr hcontains)]
      exact h.rewrite key val
    · rw [if_neg fun hmem => hcontains (hiff.mp hmem)]
      obtain ⟨hc, hlive⟩ := hkeeps key val rfl hcontains
      have hlen : c ≤ m.slots.length := by rwa [slots_length hused]
      unfold roomy
      split_ifs with hfull
      · have hlive' : ∀ e ∈ m.slots.take c, e.key.isSome = true := by
          intro e he
          obtain ⟨slot, hlt, rfl⟩ := getElem_of_mem he
          have hslot : slot < c := by
            rw [length_take] at hlt
            omega
          have := hlive hfull slot hslot
          rw [keyAt_of_lt (hslot.trans_le hc), getElem?_eq_getElem (hslot.trans_le hlen)] at this
          rwa [getElem_take]
        obtain ⟨hsplit, hc'⟩ := h.filter hlen hlive'
        exact hsplit.append hc' _ rfl
      · exact h.append hlen _ rfl
  | remove key => exact h.bury key
  | clear => exact nil c h.le_length
  | find | collect => exact h

end Split

/-! ### Runs -/

/-- How a walk along the table stands to the walk along the records. -/
structure Tracks (w : Walker) (isSet : Bool) (es : List Happening) (s : Walk) (t : Records) :
    Prop where
  inv : Inv s.table.heap s.table.map
  active : s.cursor.active = !t.done
  split : s.cursor.active = true → Split s.table.map.slots s.cursor.nextIndex t.data t.index
  result : es.filterMap Happening.result = t.produced.map (Option.map fun b => w.yields isSet b)

section Runs

variable {gc : Collector} {w : Walker} {isSet : Bool} {h : Heap} {self : ObjectId}
  {es₀ : List (Event × Answer)} {es : List Happening} {s₀ : State} {s s' : Walk} {t : Records}

theorem Tracks.step (ht : Tracks w isSet es s t) {p : Option Produced}
    (hstep : WalkStep gc w isSet s (.step p) s') :
    Tracks w isSet (es ++ [.step p]) s' t.advance := by
  obtain ⟨hwalk, htable⟩ := hstep
  have hresult : (es ++ [Happening.step p]).filterMap Happening.result =
      t.produced.map (Option.map fun b => w.yields isSet b) ++ [p] := by
    rw [filterMap_append, ht.result]
    rfl
  cases hdone : t.done with
  | true =>
    have hinactive : s.cursor.active = false := by rw [ht.active, hdone]; rfl
    rw [walkStep_inactive w isSet _ hinactive] at hwalk
    obtain ⟨rfl, hcursor⟩ := mk.inj hwalk
    have hadvance : t.advance = { t with produced := t.produced ++ [none] } := if_pos hdone
    rw [hadvance]
    refine ⟨by rw [htable]; exact ht.inv, ?_, ?_, ?_⟩
    · rw [← hcursor, hinactive, hdone]
      rfl
    · rw [← hcursor, hinactive]
      nofun
    · rw [hresult, map_append]
      rfl
  | false =>
    have hactive : s.cursor.active = true := by rw [ht.active, hdone]; rfl
    have hsplit := ht.split hactive
    rw [walkStep_spec ht.inv.base.used_le w isSet _ hactive] at hwalk
    rw [Records.advance, if_neg (by simp [hdone])]
    have hahead := hsplit.ahead
    cases hn : nextIn binding s.cursor.nextIndex
        (s.table.map.slots.drop s.cursor.nextIndex) with
    | none =>
      rw [hn] at hwalk
      obtain ⟨rfl, hcursor⟩ := mk.inj hwalk
      -- neither the slots nor the records have anything left
      have hnone : nextIn id t.index (t.data.drop t.index) = none := by
        rw [nextIn_eq_none, ← hahead, ← nextIn_eq_none (i := s.cursor.nextIndex), hn]
      rw [hnone]
      refine ⟨by rw [htable]; exact ht.inv, by rw [← hcursor]; rfl, ?_, ?_⟩
      · rw [← hcursor]
        nofun
      · rw [hresult, map_append]
        rfl
    | some q =>
      obtain ⟨j, b⟩ := q
      rw [hn] at hwalk
      obtain ⟨rfl, hcursor⟩ := mk.inj hwalk
      obtain ⟨-, -, -, -, htake, hdrop⟩ := nextIn_drop hn
      cases hm : nextIn id t.index (t.data.drop t.index) with
      | none =>
        rw [nextIn_eq_none, ← hahead, hdrop] at hm
        cases hm
      | some q =>
        obtain ⟨j', b'⟩ := q
        obtain ⟨-, hlt, -, -, htake', hdrop'⟩ := nextIn_drop hm
        -- the heads of what lies ahead are one entry
        obtain ⟨rfl, htail⟩ := cons.inj (hdrop.symm.trans (hahead.trans hdrop'))
        refine ⟨by rw [htable]; exact ht.inv, by rw [← hcursor, hactive, hdone]; rfl, ?_, ?_⟩
        · intro _
          rw [← hcursor, htable]
          exact ⟨by rw [htake, htake', hsplit.passed], htail, hlt⟩
        · rw [hresult, map_append]
          rfl

theorem Tracks.table (ht : Tracks w isSet es s t) {e : Event} {a : Answer}
    (hkeeps : Keeps s (.table e a)) (hstep : WalkStep gc w isSet s (.table e a) s') :
    Tracks w isSet (es ++ [.table e a]) s' { t with data := e.applyRecords t.data } := by
  obtain ⟨⟨hallowed, hexec⟩, hcursor⟩ := hstep
  obtain ⟨hi, hslots, -⟩ := (exec_spec ht.inv hallowed).ok hexec
  refine ⟨hi, by rw [hcursor]; exact ht.active, ?_, ?_⟩
  · intro hactive
    rw [hcursor] at hactive ⊢
    rw [hslots]
    apply (ht.split hactive).event ht.inv.base.used_le
    rintro key val rfl
    exact hkeeps hactive
  · rw [filterMap_append, ht.result]
    simp [Happening.result]

theorem filterMap_recordsOf (es : List (Event × Answer)) :
    (recordsOf es).filterMap id = replay es := by
  induction es using reverseRecOn with
  | nil => rfl
  | append_singleton es e ih =>
    rw [recordsOf, foldl_append, ← recordsOf, replay, foldl_append, ← replay, ← ih]
    obtain ⟨e, a⟩ := e
    cases e with
    | set key val =>
      simp only [foldl_cons, foldl_nil, applyRecords]
      by_cases hmem : key.canonical ∈ ((recordsOf es).filterMap id).map canonicalKey
      · have hmem' : canonicalKey (key, val) ∈ ((recordsOf es).filterMap id).map canonicalKey :=
          hmem
        rw [if_pos hmem, Split.filterMap_rewriteRecord]
        exact (put_of_mem hmem').symm
      · rw [if_neg hmem, filterMap_append]
        exact (put_of_not_mem hmem).symm
    | remove key => exact filterMap_drop_key _ rfl
    | clear => simp [applyRecords, apply]
    | find | collect => rfl

/-- **Iteration is live**, in every run whose steps keep the cursor: an iterator opened on a table
with any past, or a call of `forEach`, returns what the walk along the records produces. That
walk comes to the records in the order of insertion, to none of them twice, and past a record it
did not come to only if the record had been removed. -/
theorem iteration_live (hself : h.live self)
    (hrun₀ : Run (Step gc) { heap := h, map := create self } es₀ s₀)
    (hrun : Run (fun s e s' => WalkStep gc w isSet s e s' ∧ Keeps s e)
      { table := s₀, cursor := .start } es s) :
    Live w isSet es₀ es ∧ (replayWalk es₀ es).Exact := by
  obtain ⟨hinv, -, hb⟩ := run_invariant hself hrun₀
  have htracks : Tracks w isSet es s (replayWalk es₀ es) := by
    induction hrun with
    | nil =>
      refine ⟨hinv, rfl, fun _ => ⟨rfl, ?_, zero_le _⟩, rfl⟩
      exact hb.trans (filterMap_recordsOf es₀).symm
    | @snoc es e s₁ s₂ _ hstep ih =>
      rw [replayWalk, foldl_append]
      cases e with
      | table e a => exact ih.table hstep.2 hstep.1
      | step p => exact ih.step hstep.1
  refine ⟨htracks.result, ?_⟩
  -- the walk along the records is exact whatever happens
  clear hrun htracks
  induction es using reverseRecOn with
  | nil => exact Records.start_exact _
  | append_singleton es e ih =>
    rw [replayWalk, foldl_append]
    cases e with
    | table e a => exact ih.apply e
    | step p => exact ih.advance

end Runs

instance (s : Walk) (e : Happening) : Decidable (Keeps s e) :=
  match e with
  | .table (.set key _) _ => inferInstanceAs (Decidable (s.cursor.active = true →
      ¬Contains s.table.map key → s.cursor.nextIndex ≤ s.table.map.usedCount ∧
      (s.table.map.usedCount ≥ s.table.map.capacity →
        ∀ slot < s.cursor.nextIndex, (s.table.map.keyAt slot).isSome)))
  | .table (.remove _) _ | .table (.find _) _ | .table .clear _ | .table (.collect _) _
  | .step _ => .isTrue trivial

/-- Changes of the table and steps of the walk, one after another, as long as a check holds. -/
def play (check : Walk → Happening → Bool) (gc : Collector) (w : Walker) (isSet : Bool) :
    List (Option Event) → Walk → Option (List Happening × Walk)
  | [], s => some ([], s)
  | none :: acts, s => do
    let (p, cursor) := walkStep w isSet s.table.map s.cursor
    guard (check s (.step p))
    let (es, s) ← play check gc w isSet acts { s with cursor }
    return (.step p :: es, s)
  | some e :: acts, s =>
    match exec gc s.table e with
    | .error _ => none
    | .ok (a, table) => do
      guard (check s (.table e a))
      let (es, s) ← play check gc w isSet acts { s with table }
      return (.table e a :: es, s)

variable {acts : List (Option Event)}

theorem play_run {check : Walk → Happening → Bool} {gc : Collector} {w : Walker} {isSet : Bool}
    {s s' s₀ : Walk} {es es' : List Happening} {step : Walk → Happening → Walk → Prop}
    (hcheck : ∀ s e s', WalkStep gc w isSet s e s' → check s e = true → step s e s')
    (hallowed : ∀ e, some e ∈ acts → ∀ s, e.Allowed s) (hrun : Run step s₀ es s)
    (h : play check gc w isSet acts s = some (es', s')) : Run step s₀ (es ++ es') s' := by
  induction acts generalizing s es es' with
  | nil =>
    obtain ⟨rfl, rfl⟩ := mk.inj (some.inj h)
    rwa [append_nil]
  | cons act acts ih =>
    have hallowed' : ∀ e, some e ∈ acts → ∀ s, e.Allowed s :=
      fun e he => hallowed e (mem_cons_of_mem _ he)
    cases act with
    | none =>
      simp only [play, bind_eq_bind, bind_eq_some_iff, guard_eq_some'] at h
      obtain ⟨-, hkept, ⟨es'', s''⟩, hplay, h⟩ := h
      obtain ⟨rfl, rfl⟩ := mk.inj (some.inj h)
      have hstep : WalkStep gc w isSet s (.step (walkStep w isSet s.table.map s.cursor).1)
          { s with cursor := (walkStep w isSet s.table.map s.cursor).2 } := ⟨rfl, rfl⟩
      have := ih hallowed' (hrun.snoc (hcheck _ _ _ hstep hkept)) hplay
      rwa [append_assoc] at this
    | some e =>
      rw [play] at h
      cases hexec : exec gc s.table e with
      | error => simp [hexec] at h
      | ok r =>
        obtain ⟨a, table⟩ := r
        simp only [hexec, bind_eq_bind, bind_eq_some_iff, guard_eq_some'] at h
        obtain ⟨-, hkept, ⟨es'', s''⟩, hplay, h⟩ := h
        obtain ⟨rfl, rfl⟩ := mk.inj (some.inj h)
        have hstep : WalkStep gc w isSet s (.table e a) { s with table } :=
          ⟨⟨hallowed e mem_cons_self _, hexec⟩, rfl⟩
        have := ih hallowed' (hrun.snoc (hcheck _ _ _ hstep hkept)) hplay
        rwa [append_assoc] at this

/-- A number as a key, by its bits. -/
def addNumber (bits : UInt64) : Option Event := some (.set (.number bits) .undefined)

/-- A set is cleared under an iterator that has produced a key: the key added next gets slot 0. -/
def clearedBehind : List (Option Event) := [addNumber 1, none, some .clear, addNumber 2, none]

/-- A full set is compacted under an iterator that has produced a key: the slots below the cursor
become one less, and the next key is lost. -/
def compactedBehind : List (Option Event) :=
  (range 8).map (fun i => addNumber (.ofNat (i + 1))) ++
    [none, some (.remove (.number 1)), addNumber 9, none]

/-- An iterator on an empty table. -/
def opened : Walk := { table := empty, cursor := .start }

/-- A full set of eight keys, the third of which is removed ahead of an iterator; the ninth key
compacts the entry block. -/
def compactedAhead : List (Option Event) :=
  (range 8).map (fun i => addNumber (.ofNat (i + 1))) ++
    [none, some (.remove (.number 3)), addNumber 9, none, none]

theorem live_of_no_identity {v : Value} (hv : v.identity = none) {h : Heap} : v.Live h := by
  intro o ho
  rw [hv] at ho
  cases ho

/-- The iterator produces the keys that are there, also when the block is compacted ahead of it. -/
theorem iteration_live_added : ∃ es, Live (.iterator .keys) true [] es ∧
    es.filterMap Happening.result =
      [some (.value (.number 1)), some (.value (.number 2)), some (.value (.number 4))] := by
  have h : ((play (fun s e => Keeps s e) idle (.iterator .keys) true compactedAhead opened).map
      fun r => r.1.filterMap Happening.result) =
      some [some (.value (.number 1)), some (.value (.number 2)), some (.value (.number 4))] := by
    decide +kernel
  obtain ⟨⟨es, s⟩, hplay, hresult⟩ := map_eq_some_iff.mp h
  have hallowed : ∀ e, some e ∈ compactedAhead → ∀ s, e.Allowed s := by
    rintro e he s
    simp only [compactedAhead, addNumber, List.mem_append, List.mem_map, List.mem_cons,
      some.injEq, reduceCtorEq, List.not_mem_nil, or_false, false_or] at he
    rcases he with ⟨i, -, rfl⟩ | rfl | rfl
    · exact ⟨live_of_no_identity rfl, live_of_no_identity rfl⟩
    · exact live_of_no_identity rfl
    · exact ⟨live_of_no_identity rfl, live_of_no_identity rfl⟩
  have hrun : Run (fun s e s' => WalkStep idle (.iterator .keys) true s e s' ∧ Keeps s e)
      opened es s :=
    play_run (fun _ _ _ hstep hkept => ⟨hstep, of_decide_eq_true hkept⟩) hallowed .nil hplay
  exact ⟨es, (iteration_live (by decide : (0 : ObjectId) < 2) .nil hrun).1, hresult⟩

/-- What a play returned, and what it should have. -/
def outcome (acts : List (Option Event)) :
    Option (List (Option Produced) × List (Option Produced)) :=
  (play (fun _ _ => true) idle (.iterator .keys) true acts opened).map fun r =>
    (r.1.filterMap Happening.result,
      (replayWalk [] r.1).produced.map (Option.map (Walker.yields true · (.iterator .keys))))

/-- Playing the acts is a run in which the cursor does not visit what the list does. -/
def Skips (acts : List (Option Event)) : Prop :=
  ∃ es s, play (fun _ _ => true) idle (.iterator .keys) true acts opened = some (es, s) ∧
    Run (WalkStep idle (.iterator .keys) true) opened es s ∧
    ¬Live (.iterator .keys) true [] es

theorem skips_of_outcome
    {got wanted : List (Option Produced)} (hallowed : ∀ e, some e ∈ acts → ∀ s, e.Allowed s)
    (h : outcome acts = some (got, wanted)) (hne : got ≠ wanted) : Skips acts := by
  obtain ⟨⟨es, s⟩, hplay, hr⟩ := map_eq_some_iff.mp h
  obtain ⟨rfl, rfl⟩ := mk.inj hr
  exact ⟨es, s, hplay, play_run (fun _ _ _ hstep _ => hstep) hallowed .nil hplay, hne⟩

/-- **A live cursor is left behind** by clearing, and by compacting. -/
theorem iteration_skips : Skips clearedBehind ∧ Skips compactedBehind := by
  constructor
  · have h : outcome clearedBehind = some ([some (.value (.number 1)), none],
        [some (.value (.number 1)), some (.value (.number 2))]) := by decide +kernel
    refine skips_of_outcome ?_ h (by decide)
    rintro e he s
    simp only [clearedBehind, addNumber, mem_cons, some.injEq, reduceCtorEq,
      not_mem_nil, or_false, false_or] at he
    rcases he with rfl | rfl | rfl
    · exact ⟨live_of_no_identity rfl, live_of_no_identity rfl⟩
    · trivial
    · exact ⟨live_of_no_identity rfl, live_of_no_identity rfl⟩
  · have h : outcome compactedBehind =
        some ([some (.value (.number 1)), some (.value (.number 3))],
          [some (.value (.number 1)), some (.value (.number 2))]) := by decide +kernel
    refine skips_of_outcome ?_ h (by decide)
    rintro e he s
    simp only [compactedBehind, addNumber, List.mem_append, List.mem_map, List.mem_cons,
      some.injEq, reduceCtorEq, List.not_mem_nil, or_false, false_or] at he
    rcases he with ⟨i, -, rfl⟩ | rfl | rfl
    · exact ⟨live_of_no_identity rfl, live_of_no_identity rfl⟩
    · exact live_of_no_identity rfl
    · exact ⟨live_of_no_identity rfl, live_of_no_identity rfl⟩

end Bronze.Collections
