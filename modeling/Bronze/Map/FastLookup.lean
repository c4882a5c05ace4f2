import Bronze.Map.Weak

/-!
# Lookups that do not allocate

`MapHeader::findFast` and `MapHeader::findFastIdentity` of `src/runtime/map.cpp` look a key up
without bringing the index up to date, and answer only where the index is valid as it stands: the
epoch is current, or no key can move, and the table is where it was. Runs are those of a strong or a
weak table, with collections at its allocations and between its operations.

## Main results

* `findFastIdentity_eq`: on objects and symbols the two lookups are one
* `find_of_findFast`: where `findFast` answers, `find` answers the same, and changes nothing
* `fast_lookups_agree`: in every state of a run they agree with `find`, and miss no key
-/

namespace Bronze.Collections

open LinearProbing Transition Holding

/-! ## The lookups -/

/-- The validity test of `findFast`. -/
def indexValid (h : Heap) (m : MapHeader) : Bool :=
  m.index.isSome && epochCurrent h m && m.indexAnchor = (h.address m.self).toNat

/-- `MapHeader::findFast`: `none` where it answers false. -/
def findFast (h : Heap) (m : MapHeader) (key : Value) : Except Exit (Option Nat) :=
  if m.liveCount = 0 then .ok (some kNotFound)
  else if !indexValid h m then .ok none
  else
    let count := m.bucketCount
    if count = 0 then .ok none
    else
      let mask := count - 1
      match search m.buckets mask (hits h m key) count ((hashKey h key).toNat &&& mask) with
      | none => .error .diverges
      | some none => .ok (some kNotFound)
      | some (some slot) => .ok (some slot)

/-- The compare of `findFastIdentity`. A tombstone, a number, a string and a BigInt have bits that
no object and no symbol has. -/
def hitsIdentity (h : Heap) (m : MapHeader) (want : Nat) (slot : Nat) : Bool :=
  match m.keyAt slot with
  | some k => rawBits h k = some want
  | none => false

def findFastIdentity (h : Heap) (m : MapHeader) (key : Value) : Except Exit (Option Nat) :=
  if m.liveCount = 0 then .ok (some kNotFound)
  else if !indexValid h m then .ok none
  else
    let count := m.bucketCount
    if count = 0 then .ok none
    else
      let mask := count - 1
      let want := (rawBits h key).getD 0
      match search m.buckets mask (hitsIdentity h m want) count
          ((mix64 (UInt64.ofNat want)).toNat &&& mask) with
      | none => .error .diverges
      | some none => .ok (some kNotFound)
      | some (some slot) => .ok (some slot)

section Lookups

variable {h : Heap} {m : MapHeader} {key : Value} {slot : Nat}

theorem sameValueZero_identity (k : Value) (hid : key.identity.isSome) :
    sameValueZero h k key =
      match rawBits h k, rawBits h key with
      | some x, some y => decide (x = y)
      | _, _ => false := by
  cases key with
  | object o | symbol o => cases k <;> rfl
  | number | string | bigint | bool | null | undefined => cases hid

theorem exists_rawBits (hid : key.identity.isSome) : ∃ want, rawBits h key = some want := by
  cases key with
  | object o | symbol o => exact ⟨_, rfl⟩
  | number | string | bigint | bool | null | undefined => cases hid

theorem hits_eq_hitsIdentity (hid : key.identity.isSome) :
    hits h m key = hitsIdentity h m ((rawBits h key).getD 0) := by
  obtain ⟨want, hwant⟩ := exists_rawBits (h := h) hid
  funext slot
  unfold hits hitsIdentity
  cases m.keyAt slot with
  | none => rfl
  | some k =>
    dsimp only
    rw [sameValueZero_identity k hid, hwant]
    cases rawBits h k with
    | none => rfl
    | some x => simp

/-- **On objects and symbols** the lookup by identity is the lookup. -/
theorem findFastIdentity_eq (hid : key.identity.isSome) :
    findFastIdentity h m key = findFast h m key := by
  have hhash : hashKey h key = mix64 (UInt64.ofNat ((rawBits h key).getD 0)) := by
    cases key with
    | object o | symbol o => rfl
    | number | string | bigint | bool | null | undefined => cases hid
  unfold findFastIdentity findFast
  rw [hits_eq_hitsIdentity hid, hhash]

variable {s : State}

/-- What `findFast` answered it found along a valid index. -/
theorem probe_of_findFast (hlive : s.map.liveCount ≠ 0)
    (h : findFast s.heap s.map key = .ok (some slot)) :
    indexValid s.heap s.map = true ∧ probe key s = .ok (slot, s) := by
  unfold findFast at h
  rw [if_neg hlive] at h
  cases hvalid : indexValid s.heap s.map with
  | false =>
    simp only [hvalid] at h
    cases h
  | true =>
    simp only [hvalid] at h
    by_cases hcount : s.map.bucketCount = 0
    · rw [if_pos hcount] at h
      cases h
    · refine ⟨rfl, ?_⟩
      simp only [probe, if_neg hcount] at h ⊢
      revert h
      cases search s.map.buckets (s.map.bucketCount - 1) (hits s.heap s.map key)
          s.map.bucketCount ((hashKey s.heap key).toNat &&& (s.map.bucketCount - 1)) with
      | none =>
        intro h
        cases h
      | some r =>
        cases r with
        | none =>
          rintro ⟨rfl⟩
          rfl
        | some slot' =>
          rintro ⟨rfl⟩
          rfl

/-- **Where `findFast` answers**, `find` answers the same and leaves the state as it is. -/
theorem find_of_findFast {hold : Holding} {args : List ObjectId}
    (h : findFast s.heap s.map key = .ok (some slot)) : find hold args key s = .ok (slot, s) := by
  rw [find_eq_probe]
  by_cases hzero : s.map.liveCount = 0
  · rw [findFast, if_pos hzero] at h
    obtain ⟨rfl⟩ := h
    exact if_pos hzero
  · obtain ⟨hvalid, hprobe⟩ := probe_of_findFast hzero h
    have hensure : ensureIndex hold args s = .ok s := if_pos hvalid
    rw [if_neg hzero, hensure]
    exact hprobe

/-- What `findFast` answers is so: the slot holds the key, or no slot does. -/
theorem found_of_findFast (hl : Loose s.heap s.map) (hkey : key.Live s.heap)
    (h : findFast s.heap s.map key = .ok (some slot)) : Found s.map key slot := by
  by_cases hzero : s.map.liveCount = 0
  · rw [findFast, if_pos hzero] at h
    obtain ⟨rfl⟩ := h
    exact .inr ⟨rfl, hl.not_contains hzero key⟩
  · obtain ⟨hvalid, hprobe⟩ := probe_of_findFast hzero h
    simp only [indexValid, Bool.and_eq_true] at hvalid
    obtain ⟨t, ht⟩ := Option.isSome_iff_exists.mp hvalid.1.1
    obtain ⟨slot', hprobe', hfound⟩ := probe_spec hl.base ht (hl.ready t ht hvalid.1.2) hkey
    obtain rfl := (Prod.mk.inj (Except.ok.inj (hprobe.symm.trans hprobe'))).1
    exact hfound

end Lookups

/-- What the program asks of a table, or what the collector does between two of its operations. -/
inductive Use where
  | set (key val : Value)
  | remove (key : Value)
  | find (key : Value)
  | clear
  /-- The heap is as a collection, or an allocation elsewhere, left it. -/
  | collect (heap : Heap) (alive : ObjectId → Bool)

def Holding.exec (hold : Holding) (s : State) : Use → Except Exit State
  | .set key val => set hold key val s
  | .remove key => do
    let (_, s) ← remove hold key s
    return s
  | .find key => do
    let (_, s) ← find hold key.identity.toList key s
    return s
  | .clear => .ok { s with map := Collections.clear s.map }
  | .collect heap alive => .ok { heap, map := sweep alive s.map }

/-- A program holds what it passes. A collection keeps every key of a strong table, and sweeps
from a weak one the keys that die. -/
def Use.Allowed (hold : Holding) (s : State) : Use → Prop
  | .set key val => key.Live s.heap ∧ val.Live s.heap
  | .remove key => key.Live s.heap
  | .find key => key.Live s.heap
  | .clear => True
  | .collect heap alive =>
    match hold with
    | .strong _ => Heap.Collects s.map.roots s.heap heap ∧ ∀ o, alive o = true
    | .weak _ => Heap.Collects [s.map.self] s.heap heap ∧
      ∀ o, s.heap.live o → (alive o = true ↔ heap.live o)

/-- A use that came about. -/
def Holding.Step (hold : Holding) (s : State) (e : Use) (s' : State) : Prop :=
  e.Allowed hold s ∧ hold.exec s e = .ok s'

section Runs

variable {hold : Holding} {h : Heap} {self : ObjectId} {es : List Use} {s s' : State}

/-- **One use** keeps the invariant. -/
theorem Holding.Step.loose {e : Use} (hl : Loose s.heap s.map) (hstep : hold.Step s e s') :
    Loose s'.heap s'.map := by
  obtain ⟨hallowed, hexec⟩ := hstep
  cases e with
  | set key val => exact (set_spec hl hallowed.1).ok hexec
  | remove key =>
    have hy : Yields (hold.exec s (.remove key)) fun s' => Loose s'.heap s'.map :=
      (remove_spec hl hallowed).bind fun _ hr => hr
    exact hy.ok hexec
  | find key =>
    have hy : Yields (hold.exec s (.find key)) fun s' => Loose s'.heap s'.map :=
      (find_spec hl hallowed fun o ho => Option.mem_toList.mpr ho).bind fun _ hr => hr.1
    exact hy.ok hexec
  | clear =>
    obtain rfl := Except.ok.inj hexec
    exact clear_loose hl
  | collect heap alive =>
    obtain rfl := Except.ok.inj hexec
    cases hold with
    | strong gc =>
      obtain ⟨hc, hall⟩ := hallowed
      rw [sweep_all hall]
      exact hl.keeps (.of_collects hc (List.Subset.refl _))
    | weak gc =>
      obtain ⟨hc, halive⟩ := hallowed
      have hk : Heap.Keeps ((sweep alive s.map).roots ++ []) s.heap heap :=
        keeps_sweep hc halive
      rw [List.append_nil] at hk
      exact hl.sweep.keeps hk

theorem run_loose (hself : h.live self)
    (hrun : Run hold.Step { heap := h, map := create self } es s) : Loose s.heap s.map :=
  hrun.invariant (fun s => Loose s.heap s.map) (create_spec hself).1.loose
    fun _ _ _ hl hstep => hstep.loose hl

/-- **The fast lookups agree with `find`.** In every state that a table comes to, of strong or of
weak keys, and for every key: where `findFast` answers, `find` gives the slot it answers, and the
table as it is; and so where `findFastIdentity` answers for an object or a symbol. What they answer
of a live key is so: it is at that slot, or nowhere in the table. -/
theorem fast_lookups_agree (hself : h.live self)
    (hrun : Run hold.Step { heap := h, map := create self } es s) (key : Value)
    (args : List ObjectId) :
    (∀ slot, findFast s.heap s.map key = .ok (some slot) →
      find hold args key s = .ok (slot, s) ∧ (key.Live s.heap → Found s.map key slot)) ∧
    (key.identity.isSome → ∀ slot, findFastIdentity s.heap s.map key = .ok (some slot) →
      find hold args key s = .ok (slot, s) ∧ (key.Live s.heap → Found s.map key slot)) := by
  have hl := run_loose hself hrun
  have hfast : ∀ slot, findFast s.heap s.map key = .ok (some slot) →
      find hold args key s = .ok (slot, s) ∧ (key.Live s.heap → Found s.map key slot) :=
    fun slot h => ⟨find_of_findFast h, fun hkey => found_of_findFast hl hkey h⟩
  refine ⟨hfast, fun hid slot h => hfast slot ?_⟩
  rw [← findFastIdentity_eq hid]
  exact h

end Runs

/-- A sweeper that never collects. -/
def idleSweeper : Sweeper where
  toCollector := idle
  survives _ _ _ := true
  survives_iff _ _ _ ho := iff_of_true rfl ho

/-- The weak table of one object, after the object was moved. -/
def movedWeak : State :=
  match (Holding.weak idleSweeper).exec empty (.set (.object 1) (.number 7)) with
  | .ok s => { heap := twoObjects true, map := sweep (fun _ => true) s.map }
  | .error _ => empty

/-- The same, after the key was looked for. -/
def foundWeak : State :=
  match (Holding.weak idleSweeper).exec movedWeak (.find (.object 1)) with
  | .ok s => s
  | .error _ => movedWeak

/-- After the move the lookup by identity does not answer, and after the index is built anew it
finds the key at its slot. -/
theorem fast_lookups_agree_moved :
    findFastIdentity movedWeak.heap movedWeak.map (.object 1) = .ok none ∧
    findFastIdentity foundWeak.heap foundWeak.map (.object 1) = .ok (some 0) ∧
    find (weak idleSweeper) [] (.object 1) foundWeak = .ok (0, foundWeak) := by
  have hlive : ∀ h : Heap, h.live 1 → (Value.object 1).Live h := by
    rintro h hone o ⟨rfl⟩
    exact hone
  have hset : (weak idleSweeper).Step empty (.set (.object 1) (.number 7)) added :=
    ⟨⟨hlive _ (by decide : 1 < 2), nofun⟩, rfl⟩
  have hmove : (weak idleSweeper).Step added
      (.collect (twoObjects true) fun _ => true) movedWeak :=
    ⟨⟨⟨fun _ _ ho => ho, fun _ _ _ (h : true = false) => (nomatch h), by decide,
      fun h => absurd h (by decide)⟩, fun _ ho => iff_of_true rfl ho⟩, rfl⟩
  have hfind : (weak idleSweeper).Step movedWeak (.find (.object 1)) foundWeak :=
    ⟨hlive _ (by decide : 1 < 2), rfl⟩
  have hagree := fast_lookups_agree (by decide : (0 : ObjectId) < 2)
    (((Run.nil.snoc hset).snoc hmove).snoc hfind) (.object 1) []
  exact ⟨rfl, rfl, (hagree.2 rfl 0 rfl).1⟩

end Bronze.Collections
