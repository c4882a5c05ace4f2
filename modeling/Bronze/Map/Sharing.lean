import Bronze.Map.Refinement

/-!
# Tables that share a heap

An operation on one table allocates, and so may move what another table holds. It is given the
objects its caller and the other tables hold as further roots, and keeps them: the other tables
then keep their invariant.

## Main results

* `find_keeps`, `set_keeps`, `remove_keeps`: an operation keeps the further roots
* `set_keys`, `remove_keys`: the keys of the table after an operation
-/

namespace Bronze.Collections

open OrderedList Heap List

theorem Heap.Collects.mono {roots roots' : List ObjectId} {h h' : Heap}
    (hc : Collects roots h h') (hsub : roots' ⊆ roots) : Collects roots' h h' where
  live o ho := hc.live o (hsub ho)
  old := hc.old
  epoch_le := hc.epoch_le
  moved := hc.moved

/-- A collector that is given further roots. -/
def Collector.keeping (gc : Collector) (more : List ObjectId) : Collector where
  run roots h := gc.run (roots ++ more) h
  collects roots h := (gc.collects (roots ++ more) h).mono (List.subset_append_left roots more)

/-- The operation returns what `Q` says, if it returns. -/
def Ensures {α : Type} (x : Except Exit α) (Q : α → Prop) : Prop := ∀ a, x = .ok a → Q a

section Ensures

variable {α β : Type} {Q : α → Prop} {R : β → Prop}

theorem Ensures.pure {a : α} (h : Q a) : Ensures (.ok a) Q := by
  rintro _ ⟨rfl⟩
  exact h

theorem Ensures.error {e : Exit} : Ensures (.error e) Q := nofun

variable {x : Except Exit α}

theorem Ensures.bind {f : α → Except Exit β} (h : Ensures x Q) (hf : ∀ a, Q a → Ensures (f a) R) :
    Ensures (x >>= f) R := by
  cases x with
  | ok a => exact hf a (h a rfl)
  | error e => exact Ensures.error

theorem Ensures.mono {Q' : α → Prop} (h : Ensures x Q) (hQ : ∀ a, Q a → Q' a) : Ensures x Q' :=
  fun a ha => hQ a (h a ha)

theorem Ensures.and {Q' : α → Prop} (h : Ensures x Q) (h' : Ensures x Q') :
    Ensures x fun a => Q a ∧ Q' a :=
  fun a ha => ⟨h a ha, h' a ha⟩

theorem Yields.ensures (h : Yields x Q) : Ensures x Q := fun _ => h.ok

end Ensures

section Keeps

variable {gc : Collector} {more args : List ObjectId} {key val : Value} {s : State}

theorem allocate_keeps (roots : List ObjectId) (bytes : Nat) (h : Heap) :
    Ensures (allocate (gc.keeping more) roots bytes h) fun h' => Heap.Keeps more h h' := by
  unfold allocate
  dsimp only
  split_ifs
  · exact Ensures.error
  · apply Ensures.pure
    have hc := gc.collects (roots ++ more) { h with allocations := h.allocations + 1 }
    have hk := Keeps.of_collects hc (subset_append_right roots more)
    exact ⟨hk.live, hk.old, hk.epoch_le, hk.moved⟩

theorem allocation_keeps (bytes : Nat) :
    Ensures ((gc.keeping more).allocation args bytes s) fun s' =>
      Heap.Keeps more s.heap s'.heap :=
  (allocate_keeps _ bytes s.heap).bind fun _ hk => Ensures.pure hk

theorem bucketBlock_keeps (wanted : Nat) :
    Ensures (bucketBlock (gc.keeping more) args wanted s) fun s' =>
      Heap.Keeps more s.heap s'.heap := by
  unfold bucketBlock
  split_ifs
  · exact Ensures.pure (.refl more s.heap)
  · exact (allocation_keeps _).bind fun _ hk => Ensures.pure hk

theorem reindex_keeps :
    Ensures (reindex (gc.keeping more) args s) fun s' => Heap.Keeps more s.heap s'.heap := by
  refine (bucketBlock_keeps _).bind fun s₁ hk => ?_
  have hplace : Ensures (placeEntries s₁.heap s₁.map.slots 0
      (replicate (bucketCountFor s.map.capacity) 0)) fun _ => True := fun _ _ => trivial
  exact hplace.bind fun _ _ => Ensures.pure hk

theorem ensureIndex_keeps :
    Ensures (ensureIndex (gc.keeping more) args s) fun s' => Heap.Keeps more s.heap s'.heap := by
  unfold ensureIndex
  split_ifs
  · exact Ensures.pure (.refl more s.heap)
  · exact reindex_keeps

theorem ensureRoom_keeps :
    Ensures (ensureRoom (gc.keeping more) args s) fun s' => Heap.Keeps more s.heap s'.heap := by
  unfold ensureRoom
  split_ifs
  · unfold growEntries
    refine (allocation_keeps _).bind fun s₁ hk => ?_
    exact reindex_keeps.mono fun _ hk' => hk.trans hk'
  · exact Ensures.pure (.refl more s.heap)

/-- **`find` keeps the further roots.** -/
theorem find_keeps :
    Ensures (find (gc.keeping more) args key s) fun r => Heap.Keeps more s.heap r.2.heap := by
  unfold find
  split_ifs
  · exact Ensures.pure (.refl more s.heap)
  refine ensureIndex_keeps.bind fun s₁ hk => ?_
  dsimp only
  split_ifs
  · exact Ensures.pure hk
  split
  · exact Ensures.error
  · exact Ensures.pure hk
  · exact Ensures.pure hk

theorem insert_heap : Ensures (insert key val s) fun s' => s'.heap = s.heap := by
  unfold insert
  dsimp only
  split
  · exact Ensures.error
  · exact Ensures.pure rfl

/-- **`set` keeps the further roots.** -/
theorem set_keeps :
    Ensures (set (gc.keeping more) key val s) fun s' => Heap.Keeps more s.heap s'.heap := by
  refine find_keeps.bind ?_
  rintro ⟨existing, s₁⟩ hk₁
  dsimp only at hk₁ ⊢
  split_ifs
  · exact Ensures.pure hk₁
  refine ensureRoom_keeps.bind fun s₂ hk₂ => ?_
  refine ensureIndex_keeps.bind fun s₃ hk₃ => ?_
  refine insert_heap.mono fun s₄ hheap => ?_
  rw [hheap]
  exact (hk₁.trans hk₂).trans hk₃

/-- **`remove` keeps the further roots.** -/
theorem remove_keeps :
    Ensures (remove (gc.keeping more) key s) fun r => Heap.Keeps more s.heap r.2.heap := by
  refine find_keeps.bind ?_
  rintro ⟨slot, s₁⟩ hk
  dsimp only at hk ⊢
  split_ifs
  · exact Ensures.pure hk
  · exact Ensures.pure hk

end Keeps

section Keys

variable {gc : Collector} {key val : Value} {s : State}

theorem keys_rewriteKey (entries : List Entry) :
    (rewriteKey key (fun e => { e with value := val }) entries).filterMap Entry.key =
      entries.filterMap Entry.key := by
  rw [rewriteKey, filterMap_map]
  apply filterMap_congr
  intro e _
  dsimp only [Function.comp]
  split_ifs <;> rfl

variable (hi : Inv s.heap s.map)

include hi

variable (hkey : key.Live s.heap)

include hkey

/-- **The keys after `set`**: the key is appended, if it was not there. -/
theorem set_keys :
    Ensures (set gc key val s) fun s' => Inv s'.heap s'.map ∧
      s'.map.keys = if Contains s.map key then s.map.keys else s.map.keys ++ [key] := by
  refine (set_slots hi hkey).ensures.mono fun s' ⟨hi', hslots⟩ => ⟨hi', ?_⟩
  rw [MapHeader.keys, hslots, Event.slots]
  split_ifs
  · exact keys_rewriteKey _
  · rw [filterMap_append, roomy_keys]
    rfl

/-- **The keys after `remove`** are of those before. -/
theorem remove_keys :
    Ensures (remove gc key s) fun r => Inv r.2.heap r.2.map ∧ r.2.map.keys ⊆ s.map.keys := by
  refine (remove_slots hi hkey).ensures.mono fun r ⟨hi', _, hslots⟩ => ⟨hi', ?_⟩
  intro k hk
  rw [MapHeader.keys, hslots] at hk
  obtain ⟨e', he', hek⟩ := mem_filterMap.mp hk
  obtain ⟨e, he, rfl⟩ := mem_map.mp he'
  split_ifs at hek
  · cases hek
  · exact mem_filterMap.mpr ⟨e, he, hek⟩

theorem find_inv {args : List ObjectId} (hargs : ∀ o ∈ key.identity, o ∈ args) :
    Ensures (find gc args key s) fun r => Inv r.2.heap r.2.map ∧ r.2.map.keys = s.map.keys :=
  (find_spec hi hkey hargs).ensures.mono fun _ ⟨hi', hf, _⟩ => ⟨hi', hf.same.keys⟩

end Keys

end Bronze.Collections
