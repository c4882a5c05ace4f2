import Bronze.Map.NegativeZero

/-!
# The Set operations are those of set algebra

A member of `src/runtime/builtin_set_ops.cpp` on a Set and an honest other side: `size`, `has` and
`keys` of the other side describe one fixed set, and `keys` leaves the Set as it is. Between two
points of the member the program runs code of its own, which can do anything to its collections but
reach the ones the member has not returned yet.

The members go by SameValueZero, so the members of a Set are its canonical keys.

## Main definitions

* `World.members`: the members of a Set, oldest first
* `SetLike`, `SetLike.Honest`: the other side
* `Conversation`: a member called on an honest other side, up to one of the points where it waits
* `Outcome`: the members of the result, in order, and the truth value

## Main results

* `conversation_spec`: what each point of a conversation has computed
* `setAlgebra`: a member ends, and returns what set algebra says
-/

namespace Bronze.Collections

open OrderedList Transition
open List World Value CanonicalRun Or

section Adjoin

variable {α : Type} [DecidableEq α]

/-- Appends an element unless it is there. -/
def adjoin (l : List α) (a : α) : List α := if a ∈ l then l else l ++ [a]

/-- Appends the elements that are not there, each once. -/
def adjoinAll (l vs : List α) : List α := vs.foldl adjoin l

variable {l vs : List α} {a c : α}

theorem mem_adjoin : c ∈ adjoin l a ↔ c ∈ l ∨ c = a := by
  rw [adjoin]
  split_ifs with h
  · constructor
    · exact inl
    · rintro (hc | rfl)
      · exact hc
      · exact h
  · simp

theorem nodup_adjoin (h : l.Nodup) : (adjoin l a).Nodup := by
  rw [adjoin]
  split_ifs with hmem
  · exact h
  · exact nodup_append'.mpr ⟨h, nodup_singleton a, disjoint_singleton.mpr hmem⟩

theorem mem_adjoinAll : c ∈ adjoinAll l vs ↔ c ∈ l ∨ c ∈ vs := by
  induction vs generalizing l with
  | nil => simp [adjoinAll]
  | cons v vs ih =>
    change c ∈ adjoinAll (adjoin l v) vs ↔ _
    rw [ih, mem_adjoin, mem_cons, or_assoc]

theorem nodup_adjoinAll (h : l.Nodup) : (adjoinAll l vs).Nodup := by
  induction vs generalizing l with
  | nil => exact h
  | cons v vs ih => exact ih (nodup_adjoin h)

theorem adjoinAll_append (l vs us : List α) :
    adjoinAll l (vs ++ us) = adjoinAll (adjoinAll l vs) us := foldl_append

theorem adjoinAll_concat (l vs : List α) (a : α) :
    adjoinAll l (vs ++ [a]) = adjoin (adjoinAll l vs) a := adjoinAll_append l vs [a]

theorem adjoinAll_of_nodup (h : (l ++ vs).Nodup) : adjoinAll l vs = l ++ vs := by
  induction vs generalizing l with
  | nil => rw [append_nil]; rfl
  | cons v vs ih =>
    have hnew : v ∉ l := fun hmem =>
      disjoint_of_nodup_append h hmem mem_cons_self
    rw [append_cons] at h ⊢
    rw [← ih h]
    change adjoinAll (adjoin l v) vs = _
    rw [adjoin, if_neg hnew]

theorem adjoinAll_nil (h : vs.Nodup) : adjoinAll [] vs = vs :=
  adjoinAll_of_nodup (l := []) h

end Adjoin

/-- The canonical keys of a table, oldest first. -/
def MapHeader.members (m : MapHeader) : List Value := m.keys.map Value.canonical

/-- The members of a Set, oldest first. -/
def World.members (w : World) (i : Nat) : Option (List Value) :=
  (w.table? i).bind fun t => if t.isSet then some t.map.members else none

theorem canonical_canonicalizeKey (v : Value) : (canonicalizeKey v).canonical = v.canonical := by
  cases v with
  | number d =>
    rw [canonicalizeKey]
    split_ifs with hzero
    · simp only [canonical]
      rw [canonicalBits_eq_zero.mpr hzero, canonicalBits_eq_zero.mpr (by decide)]
    · rfl
  | _ => rfl

theorem contains_iff {m : MapHeader} {key : Value} :
    Contains m key ↔ key.canonical ∈ m.members := by
  rw [MapHeader.members, mem_map]
  rfl

section Entries

variable {gc : Collector} {args : List ObjectId} {key val : Value} {s : State}

variable (hi : Inv s.heap s.map)

include hi

variable (hkey : key.Live s.heap)

include hkey

theorem setEntry_members :
    Yields (setEntry key val gc s) fun r => Inv r.2.heap r.2.map ∧
      r.2.map.members = adjoin s.map.members key.canonical := by
  refine (set_slots hi hkey).bind ?_
  rintro s' ⟨hi', hslots⟩
  refine ⟨hi', ?_⟩
  have hkeys : s'.map.keys =
      if Contains s.map key then s.map.keys else s.map.keys ++ [key] := by
    rw [MapHeader.keys, hslots, Event.slots]
    split_ifs
    · exact keys_rewriteKey _
    · rw [filterMap_append, roomy_keys]
      rfl
  change s'.map.members = _
  rw [MapHeader.members, hkeys, adjoin]
  by_cases hin : Contains s.map key
  · rw [if_pos hin, if_pos (contains_iff.mp hin)]
    rfl
  · rw [if_neg hin, if_neg fun h => hin (contains_iff.mpr h), map_append]
    rfl

theorem hasEntry_members :
    Yields (hasEntry key gc s) fun r => Inv r.2.heap r.2.map ∧
      r.2.map.members = s.map.members ∧ (r.1 = true ↔ key.canonical ∈ s.map.members) := by
  refine (find_spec hi hkey fun o ho => Option.mem_toList.mpr ho).bind ?_
  rintro ⟨slot, s'⟩ ⟨hi', hf, hfound⟩
  refine ⟨hi', ?_, ?_⟩
  · change s'.map.members = _
    rw [MapHeader.members, hf.same.keys]
    rfl
  · change decide (slot ≠ kNotFound) = true ↔ _
    rw [decide_eq_true_eq, ← contains_iff]
    rcases hfound with ⟨hne, hholds⟩ | ⟨heq, hnew⟩
    · exact iff_of_true hne hholds.contains
    · exact iff_of_false (fun hne => hne heq) hnew

theorem removeEntry_members :
    Yields (removeEntry key gc s) fun r => Inv r.2.heap r.2.map ∧
      r.2.map.members = s.map.members.filter (· ≠ key.canonical) := by
  refine (remove_slots hi hkey).mono ?_
  rintro ⟨removed, s'⟩ ⟨hi', -, hslots⟩
  refine ⟨hi', ?_⟩
  have hb : s'.map.bindings = erase canonicalKey key.canonical s.map.bindings := by
    rw [MapHeader.bindings, hslots, filterMap_slots]
    rfl
  rw [MapHeader.members, ← map_canonicalKey_bindings, hb, MapHeader.members,
    ← map_canonicalKey_bindings, filter_map]
  rfl

end Entries

/-- The collections are well formed, and the values held are live. -/
structure Sound (keep : List Value) (w : World) : Prop where
  tables : ∀ i t, w.table? i = some t → Inv w.heap t.map
  live : ∀ v ∈ keep ++ w.held, v.Live w.heap

variable {keep : List Value} {w : World} {i : Nat}

theorem Fine.sound (h : Fine keep w) : Sound keep w where
  tables i t ht := (h.tables i t ht).1
  live := h.live

theorem Sound.mono {keep' : List Value} (h : Sound keep w) (hsub : keep' ⊆ keep) :
    Sound keep' w where
  tables := h.tables
  live v hv := h.live v (by
    rw [mem_append] at hv ⊢
    exact hv.imp_left fun hv => hsub hv)

theorem members_eq_some {l : List Value} :
    w.members i = some l ↔ ∃ t, w.table? i = some t ∧ t.isSet = true ∧ t.map.members = l := by
  rw [members, Option.bind_eq_some_iff]
  refine exists_congr fun t => and_congr_right fun _ => ?_
  by_cases hset : t.isSet = true
  · simp [hset]
  · simp [hset]

theorem Sound.nodup (hw : Sound keep w) {l : List Value} (hl : w.members i = some l) : l.Nodup := by
  obtain ⟨t, ht, -, rfl⟩ := members_eq_some.mp hl
  exact (hw.tables i t ht).base.distinct

/-- One world comes of another by a change to one Set, which then has the members `l`. -/
structure Moves (keep : List Value) (i : Nat) (l : List Value) (w w' : World) : Prop where
  sound : Sound keep w'
  frames : w'.frames = w.frames
  members : w'.members i = some l
  others : ∀ j l', j ≠ i → w.members j = some l' → w'.members j = some l'

/-- No Set changed its members. -/
structure Quiet (keep : List Value) (w w' : World) : Prop where
  sound : Sound keep w'
  frames : w'.frames = w.frames
  members : ∀ j l, w.members j = some l → w'.members j = some l

section Moves

variable {keep keep' : List Value} {i : Nat} {l l' : List Value} {w w' w'' : World}

theorem Moves.trans (h : Moves keep i l w w') (h' : Moves keep' i l' w' w'') :
    Moves keep' i l' w w'' where
  sound := h'.sound
  frames := h'.frames.trans h.frames
  members := h'.members
  others j m hne hm := h'.others j m hne (h.others j m hne hm)

theorem Quiet.then (h : Quiet keep w w') (h' : Moves keep' i l w' w'') : Moves keep' i l w w'' where
  sound := h'.sound
  frames := h'.frames.trans h.frames
  members := h'.members
  others j m hne hm := h'.others j m hne (h.members j m hm)

theorem Moves.quiet (h : Moves keep i l w w') (hl : w.members i = some l) : Quiet keep w w' where
  sound := h.sound
  frames := h.frames
  members j m hm := by
    by_cases hne : j = i
    · subst hne
      rw [h.members, ← hl, hm]
    · exact h.others j m hne hm

theorem Moves.refl (hw : Sound keep w) (hl : w.members i = some l) : Moves keep i l w w where
  sound := hw
  frames := rfl
  members := hl
  others _ _ _ hm := hm

end Moves

section OnTable

variable {α : Type} {keep : List Value} {w : World} {i : Nat} {l : List Value}

/-- **An operation on one Set**: `Q` says what it returns and leaves for members. -/
theorem onTable_spec (gc : Collector) (absent : α)
    (op : Collector → State → Except Exit (α × State)) (Q : α → List Value → Prop)
    (hw : Sound keep w) (hl : w.members i = some l)
    (hop : ∀ gc (m : MapHeader), Inv w.heap m → m.members = l →
      Yields (op gc { heap := w.heap, map := m }) fun r =>
        Inv r.2.heap r.2.map ∧ Q r.1 r.2.map.members)
    (hkeeps : ∀ gc more m, Ensures (op (Collector.keeping gc more) { heap := w.heap, map := m })
      fun r => Heap.Keeps more w.heap r.2.heap) :
    Yields (w.onTable gc keep i absent op) fun r =>
      ∃ l', Q r.1 l' ∧ Moves keep i l' w r.2 := by
  obtain ⟨t, ht, hset, hm⟩ := members_eq_some.mp hl
  have hyields := hop (gc.keeping (w.rootsBesides i ++ identities keep)) t.map (hw.tables i t ht) hm
  have hensures := hkeeps gc (w.rootsBesides i ++ identities keep) t.map
  rw [onTable, ht]
  dsimp only
  cases hrun : op (gc.keeping (w.rootsBesides i ++ identities keep))
      { heap := w.heap, map := t.map } with
  | error e =>
    rw [hrun] at hyields
    exact hyields
  | ok r =>
    obtain ⟨hi, hq⟩ := hyields.ok hrun
    have hk := hensures r hrun
    refine ⟨r.2.map.members, hq, ⟨fun j t' ht' => ?_, live_keeps (w := w) hw.live hk⟩, rfl, ?_, ?_⟩
    · dsimp only at ht' ⊢
      rw [table?_set _ ht] at ht'
      split_ifs at ht' with hij
      · obtain rfl := Option.some.inj ht'
        exact hi
      · -- another collection: what it holds was among the roots
        refine (hw.tables j t' ht').keeps (hk.mono ?_)
        apply subset_append_of_subset_left
        exact roots_subset_rootsBesides ht' (Ne.symm hij)
    · refine members_eq_some.mpr ⟨{ t with map := r.2.map }, ?_, hset, rfl⟩
      rw [table?_set _ ht, if_pos rfl]
    · intro j m hne hm
      obtain ⟨t', ht', hset', rfl⟩ := members_eq_some.mp hm
      refine members_eq_some.mpr ⟨t', ?_, hset', rfl⟩
      rw [table?_set _ ht, if_neg hne.symm, ht']

end OnTable

/-! ## The helpers of the members -/

section Helpers

variable {gc : Collector} {keep : List Value} {w : World} {i : Nat} {v : Value} {l : List Value}

theorem addTo_spec (hw : Sound (v :: keep) w) (hl : w.members i = some l) :
    Yields (w.addTo gc keep i v) fun r => Moves keep i (adjoin l v.canonical) w r.2 := by
  have hlive := canonicalizeKey_live (hw.live v mem_cons_self)
  have hstep := onTable_spec gc () (setEntry (canonicalizeKey v) (canonicalizeKey v))
    (fun _ l' => l' = adjoin l v.canonical) (hw.mono (subset_cons_self v keep)) hl
    (fun gc m hi hm => (setEntry_members (s := ⟨w.heap, m⟩) hi hlive).mono fun r hr =>
      ⟨hr.1, by rw [hr.2, canonical_canonicalizeKey, ← hm]⟩)
    (fun gc more m => set_keeps.bind fun _ hk => Ensures.pure hk)
  refine hstep.mono ?_
  rintro r ⟨_, rfl, hmoves⟩
  exact hmoves

theorem setHas_spec (hw : Sound keep w) (hv : v.Live w.heap) (hl : w.members i = some l) :
    Yields (w.setHas gc keep i v) fun r =>
      (r.1 = true ↔ v.canonical ∈ l) ∧ Quiet keep w r.2 := by
  have hstep := onTable_spec gc false (hasEntry (canonicalizeKey v))
    (fun b l' => l' = l ∧ (b = true ↔ v.canonical ∈ l)) hw hl
    (fun gc m hi hm => (hasEntry_members (s := ⟨w.heap, m⟩) hi (canonicalizeKey_live hv)).mono
      fun r hr => ⟨hr.1, hr.2.1.trans hm, by
        rw [hr.2.2, canonical_canonicalizeKey, ← hm]⟩)
    (fun gc more m => find_keeps.bind fun _ hk => Ensures.pure hk)
  refine hstep.mono ?_
  rintro r ⟨_, ⟨rfl, hr⟩, hmoves⟩
  exact ⟨hr, hmoves.quiet hl⟩

theorem removeFrom_spec (hw : Sound (v :: keep) w) (hl : w.members i = some l) :
    Yields (w.removeFrom gc keep i v) fun r =>
      Moves keep i (l.filter (· ≠ v.canonical)) w r.2 := by
  have hlive := canonicalizeKey_live (hw.live v mem_cons_self)
  have hstep := onTable_spec gc false (removeEntry (canonicalizeKey v))
    (fun _ l' => l' = l.filter (· ≠ v.canonical)) (hw.mono (subset_cons_self v keep)) hl
    (fun gc m hi hm => (removeEntry_members (s := ⟨w.heap, m⟩) hi hlive).mono fun r hr =>
      ⟨hr.1, by rw [hr.2, canonical_canonicalizeKey, ← hm]⟩)
    (fun gc more m => remove_keeps)
  refine hstep.mono ?_
  rintro r ⟨_, rfl, hmoves⟩
  exact hmoves

theorem addAll_spec {vs : List Value} (hw : Sound vs w) (hl : w.members i = some l) :
    Yields (addAll gc i vs w) fun w' =>
      Moves [] i (adjoinAll l (vs.map canonical)) w w' := by
  induction vs generalizing w l with
  | nil => exact Moves.refl hw hl
  | cons v vs ih =>
    refine (addTo_spec hw hl).bind fun r hr => ?_
    exact (ih hr.sound hr.members).mono fun w' hw' => hr.trans hw'

theorem addMatched_spec {matched : Nat} {m vs : List Value} (hne : matched ≠ i)
    (hw : Sound vs w) (hm : w.members matched = some m) (hl : w.members i = some l) :
    Yields (addMatched gc matched i vs w) fun w' =>
      Moves [] i (adjoinAll l ((vs.map canonical).filter (· ∈ m))) w w' := by
  induction vs generalizing w l with
  | nil => exact Moves.refl hw hl
  | cons v vs ih =>
    refine (setHas_spec hw (hw.live v mem_cons_self) hm).bind ?_
    rintro ⟨present, w₁⟩ ⟨hpresent, hq⟩
    dsimp only at hpresent hq ⊢
    have hl₁ := hq.members i l hl
    by_cases hin : v.canonical ∈ m
    · rw [if_pos (hpresent.mpr hin), map_cons, filter_cons_of_pos (by simpa using hin)]
      refine (addTo_spec hq.sound hl₁).bind fun r hr => ?_
      have hm' := hr.others matched m hne (hq.members matched m hm)
      refine (ih hr.sound hm' hr.members).mono fun w' hw' => ?_
      exact hq.then (hr.trans hw')
    · rw [if_neg fun h => hin (hpresent.mp h), map_cons, filter_cons_of_neg (by simpa using hin)]
      refine (ih (hq.sound.mono (subset_cons_self v vs)) (hq.members matched m hm) hl₁).mono ?_
      exact fun w' hw' => hq.then hw'

theorem create_moves (hw : Sound [] w) {fresh : Heap × ObjectId}
    (hc : Heap.Collects w.roots w.heap fresh.1) (hlive : fresh.1.live fresh.2) :
    Moves [] w.tables.length [] w (w.create true fresh) where
  sound :=
    { tables := by
        intro j t ht
        rw [table?_eq_some, World.create, getElem?_append] at ht
        split_ifs at ht with hlt
        · have hsub := roots_subset_roots (table?_eq_some.mpr ht)
          exact (hw.tables j t (table?_eq_some.mpr ht)).keeps (.of_collects hc hsub)
        · obtain ⟨_, hj⟩ := List.getElem?_eq_some_iff.mp ht
          rw [List.getElem_singleton] at hj
          obtain rfl := Option.some.inj hj
          exact (create_spec hlive).1
      live := by
        intro v hv
        refine (hw.live v hv).keeps (.of_collects hc (Subset.refl _)) fun o ho => ?_
        exact mem_append_right _ (mem_identities hv o ho) }
  frames := rfl
  members := by
    have hnew : (w.create true fresh).table? w.tables.length =
        some { isSet := true, map := Collections.create fresh.2 } := by
      rw [table?_eq_some, World.create, getElem?_append_right le_rfl, Nat.sub_self]
      rfl
    exact members_eq_some.mpr ⟨_, hnew, rfl, rfl⟩
  others j l _ hl := by
    obtain ⟨t, ht, hset, rfl⟩ := members_eq_some.mp hl
    refine members_eq_some.mpr ⟨t, table?_eq_some.mpr ?_, hset, rfl⟩
    have hj := table?_eq_some.mp ht
    rw [World.create, List.getElem?_append_left (List.getElem?_eq_some_iff.mp hj).1, hj]

theorem ne_length_of_members (hl : w.members i = some l) : i ≠ w.tables.length := by
  obtain ⟨t, ht, -, -⟩ := members_eq_some.mp hl
  exact ne_of_lt (List.getElem?_eq_some_iff.mp (table?_eq_some.mp ht)).1

theorem liveCount_eq (hw : Sound keep w) (hl : w.members i = some l) :
    w.liveCount i = l.length := by
  obtain ⟨t, ht, -, rfl⟩ := members_eq_some.mp hl
  simp [liveCount, ht, (hw.tables i t ht).length_bindings, MapHeader.members, ← map_fst_bindings]

theorem elements_eq (hw : Sound keep w) (hl : w.members i = some l) :
    (w.elements i l.length).map canonical = l ∧ Sound (w.elements i l.length) w := by
  obtain ⟨t, ht, -, rfl⟩ := members_eq_some.mp hl
  have hlength : t.map.members.length = t.map.keys.length := length_map _
  have helements : w.elements i t.map.members.length = t.map.keys := by
    rw [elements, ht, Option.elim_some, fillLiveElements, hlength]
    simp
  rw [helements]
  refine ⟨rfl, hw.tables, fun v hv => ?_⟩
  rcases mem_append.mp hv with hv | hv
  · exact (hw.tables i t ht).base.keys_live v hv
  · exact hw.live v (mem_append_right _ hv)

end Helpers

/-- What the program passes for the other side: its size, what `has` answers, and what its iterator
produces, nothing once it is done. -/
structure SetLike where
  size : Size
  has : Value → Bool
  keyAt : Nat → Option Value

namespace SetLike

/-- The three describe one set of canonical keys. -/
structure Honest (B : SetLike) (M : Set Value) : Prop where
  size_iff : ∀ n : Nat, B.size = some n ↔ M.encard = n
  has_iff : ∀ v, B.has v = true ↔ v.canonical ∈ M
  mem_iff : ∀ c, c ∈ M ↔ ∃ k v, B.keyAt k = some v ∧ v.canonical = c
  done : ∀ k, B.keyAt k = none → B.keyAt (k + 1) = none

/-- The iterator produces these keys, and is done. -/
def Produces (B : SetLike) (ks : List Value) : Prop := ∀ k, B.keyAt k = ks[k]?

/-- The first `k` keys the iterator produces. -/
def before (B : SetLike) (k : Nat) : List Value :=
  ((range k).filterMap B.keyAt).map Value.canonical

variable {B : SetLike} {M : Set Value} {k : Nat} {v c : Value}

theorem before_succ (h : B.keyAt k = some v) : B.before (k + 1) = B.before k ++ [v.canonical] := by
  rw [before, range_succ]
  simp [before, h]

theorem getElem?_before (h : ∀ j < k, B.keyAt j ≠ none) :
    ((range k).filterMap B.keyAt).length = k ∧
      ∀ j < k, ((range k).filterMap B.keyAt)[j]? = B.keyAt j := by
  induction k with
  | zero => exact ⟨rfl, fun j hj => absurd hj (Nat.not_lt_zero j)⟩
  | succ k ih =>
    obtain ⟨hlength, hget⟩ := ih fun j hj => h j (Nat.lt_succ_of_lt hj)
    obtain ⟨v, hv⟩ := Option.ne_none_iff_exists'.mp (h k (Nat.lt_succ_self k))
    have hsucc : (range (k + 1)).filterMap B.keyAt =
        (range k).filterMap B.keyAt ++ [v] := by
      rw [range_succ]
      simp [hv]
    rw [hsucc]
    refine ⟨by rw [length_append, hlength]; rfl, fun j hj => ?_⟩
    rcases Nat.lt_succ_iff_lt_or_eq.mp hj with hj | rfl
    · rw [getElem?_append_left (by rw [hlength]; exact hj), hget j hj]
    · rw [getElem?_append_right (by rw [hlength]), hlength, Nat.sub_self, hv]
      rfl

variable (hB : B.Honest M)

include hB

theorem Honest.done_add (hk : B.keyAt k = none) (i : Nat) : B.keyAt (k + i) = none := by
  induction i with
  | zero => exact hk
  | succ i ih => exact hB.done _ ih

theorem produces_of_done (h : ∀ j < k, B.keyAt j ≠ none)
    (hk : B.keyAt k = none) : B.Produces ((range k).filterMap B.keyAt) := by
  obtain ⟨hlength, hget⟩ := getElem?_before h
  intro j
  by_cases hj : j < k
  · exact (hget j hj).symm
  · obtain ⟨i, rfl⟩ := Nat.exists_eq_add_of_le (not_lt.mp hj)
    rw [hB.done_add hk, getElem?_eq_none (by omega)]

theorem Honest.mem_before (h : c ∈ B.before k) : c ∈ M := by
  obtain ⟨v, hv, rfl⟩ := mem_map.mp h
  obtain ⟨j, -, hj⟩ := mem_filterMap.mp hv
  exact (hB.mem_iff _).mpr ⟨j, v, hj, rfl⟩

theorem Honest.mem_before_iff (hk : B.keyAt k = none) : c ∈ B.before k ↔ c ∈ M := by
  refine ⟨hB.mem_before, fun h => ?_⟩
  obtain ⟨j, v, hj, rfl⟩ := (hB.mem_iff c).mp h
  have hlt : j < k := by
    by_contra hge
    obtain ⟨i, rfl⟩ := Nat.exists_eq_add_of_le (not_lt.mp hge)
    rw [hB.done_add hk] at hj
    cases hj
  exact mem_map_of_mem (mem_filterMap.mpr ⟨j, mem_range.mpr hlt, hj⟩)

end SetLike

theorem canonical_canonical (v : Value) : v.canonical.canonical = v.canonical := by
  cases v with
  | number d =>
    simp only [canonical, canonicalBits]
    by_cases hz : isZero d = true
    · simp only [hz, if_true]
      decide
    · by_cases hn : isNaN d = true
      · simp only [hz, hn, if_true]
        decide
      · simp [hz, hn]
  | _ => rfl

/-- `has` goes by SameValueZero. -/
theorem SetLike.Honest.has_canonical {B : SetLike} {M : Set Value} (hB : B.Honest M) (v : Value) :
    B.has v.canonical = B.has v := by
  rw [Bool.eq_iff_iff, hB.has_iff, hB.has_iff, canonical_canonical]

theorem SetLike.Honest.has_member {B : SetLike} {M : Set Value} (hB : B.Honest M) {a : List Value}
    (ha : w.members i = some a) {c : Value} (hc : c ∈ a) : B.has c = true ↔ c ∈ M := by
  obtain ⟨t, -, -, rfl⟩ := members_eq_some.mp ha
  obtain ⟨v, -, rfl⟩ := mem_map.mp hc
  rw [hB.has_iff, canonical_canonical]

/-- What the program may do where a member waits: it ends up with the member on top again, and has
not reached the collections the member goes on with. The code of `has` may change the Set it is
asked about, since the member then holds a block of its elements. -/
structure Between (f : Frame) (w w' : World) : Prop where
  sound : Sound [] w'
  frames : w'.frames = w.frames
  members : ∀ i ∈ f.tables, ∀ l, w.members i = some l → w'.members i = some l

/-- The answer of the other side after `k` keys, and the number of keys after it. -/
inductive SetLike.Answers (B : SetLike) (k : Nat) : Frame → Action → Nat → Prop where
  | opened (o : Opening) (fresh : Heap × ObjectId) : Answers B k (.opening o) (.opened fresh) k
  | answered (a : Asking) (element : Value) (rest : List Value) :
    Answers B k (.asking a element rest) (.answered (B.has element)) k
  | yielded (r : Reading) {v : Value} (h : B.keyAt k = some v) :
    Answers B k (.reading r) (.yielded v) (k + 1)
  | exhausted (r : Reading) (h : B.keyAt k = none) : Answers B k (.reading r) .exhausted k

/-- A member that was called on the other side and got `n` answers, `k` of them keys. -/
inductive Conversation (gc : Collector) (B : SetLike) (op : SetOp) (self : Nat) (w₀ : World) :
    Nat → Nat → Reply → World → Prop where
  | call {fresh : Heap × ObjectId} {reply : Reply} {w : World}
    (acts : Acts gc w₀ (.call op self B.size fresh, reply) w) :
    Conversation gc B op self w₀ 0 0 reply w
  | turn {n k k' : Nat} {f : Frame} {frames : List Frame} {e : Action} {reply : Reply}
    {w w' w'' : World} (before : Conversation gc B op self w₀ n k .pending w)
    (waits : w.frames = f :: frames) (between : Between f w w') (answers : B.Answers k f e k')
    (acts : Acts gc w' (e, reply) w'') : Conversation gc B op self w₀ (n + 1) k' reply w''

section Stages

variable (B : SetLike) (self : Nat) (a : List Value)

/-- What the loop over the elements has computed, with `done` behind it and `left` ahead. -/
def AskStage (done left : List Value) (w : World) : SetOp → Asking → Prop
  | .intersection, .intersection result => w.members result = some (done.filter (B.has ·))
  | .difference, .difference result =>
    w.members result = some (done.filter (!B.has ·) ++ left)
  | .isSubsetOf, .isSubsetOf => ∀ c ∈ done, B.has c = true
  | .isDisjointFrom, .isDisjointFrom => ∀ c ∈ done, B.has c = false
  | _, _ => False

/-- What was computed when `keys` is called. -/
def OpenStage (w : World) : SetOp → Opening → Prop
  | .union, .union i => i = self ∧ w.members i = some a
  | .intersection, .intersection i result =>
    i = self ∧ result ≠ i ∧ w.members i = some a ∧ w.members result = some []
  | .difference, .difference result => w.members result = some a
  | .symmetricDifference, .symmetricDifference i => i = self ∧ w.members i = some a
  | .isSupersetOf, .isSupersetOf i => i = self ∧ w.members i = some a
  | .isDisjointFrom, .isDisjointFrom i => i = self ∧ w.members i = some a
  | _, _ => False

/-- What was computed of the keys `ks`. -/
def ReadStage (ks : List Value) (w : World) : SetOp → Reading → Prop
  | .union, .union result => w.members result = some (adjoinAll a ks)
  | .intersection, .intersection i result matched =>
    (i = self ∧ result ≠ i ∧ matched ≠ i ∧ matched ≠ result) ∧ w.members i = some a ∧
      w.members result = some [] ∧
      w.members matched = some (adjoinAll [] (ks.filter (· ∈ a)))
  | .difference, .difference result => w.members result = some (a.filter (· ∉ ks))
  | .symmetricDifference, .symmetricDifference i result =>
    (i = self ∧ result ≠ i) ∧ w.members i = some a ∧
      w.members result = some (a.filter (· ∉ ks) ++ adjoinAll [] (ks.filter (· ∉ a)))
  | .isSupersetOf, .isSupersetOf i => i = self ∧ w.members i = some a ∧ ∀ c ∈ ks, c ∈ a
  | .isDisjointFrom, .isDisjointFrom i => i = self ∧ w.members i = some a ∧ ∀ c ∈ ks, c ∉ a
  | _, _ => False

/-- The member reads the keys of the other side: all of them, or where the other side is the
smaller one. -/
def Walks (op : SetOp) : Prop :=
  op = .union ∨ op = .symmetricDifference ∨ B.size ≠ none

/-- A member that waits, after `n` answers and `k` keys. -/
def Stage (n k : Nat) (w : World) (op : SetOp) : Frame → Prop
  | .opening o => n = 0 ∧ k = 0 ∧ Walks B op ∧ OpenStage self a w op o
  | .asking q element rest => ∃ done, a = done ++ (element :: rest).map Value.canonical ∧
    n = done.length ∧ AskStage B done ((element :: rest).map Value.canonical) w op q
  | .reading r => n = k + 1 ∧ (∀ j < k, B.keyAt j ≠ none) ∧ Walks B op ∧
    ReadStage self a (B.before k) w op r

/-- What a member returns: the members of the result in order, or the truth value. -/
def Outcome (w : World) : SetOp → Reply → Prop
  | .union, .table i => ∃ ks, B.Produces ks ∧
    w.members i = some (adjoinAll a (ks.map Value.canonical))
  | .intersection, .table i => w.members i = some (a.filter (B.has ·))
  | .difference, .table i => w.members i = some (a.filter (!B.has ·))
  | .symmetricDifference, .table i => ∃ ks, B.Produces ks ∧
    w.members i = some (a.filter (!B.has ·) ++
      adjoinAll [] ((ks.map Value.canonical).filter (· ∉ a)))
  | .isSubsetOf, .bool b => b = true ↔ ∀ c ∈ a, B.has c = true
  | .isSupersetOf, .bool b => b = true ↔ ∀ k v, B.keyAt k = some v → v.canonical ∈ a
  | .isDisjointFrom, .bool b => b = true ↔ ∀ c ∈ a, B.has c = false
  | _, _ => False

/-- The member waits, or has returned. -/
inductive Reached (op : SetOp) (frames : List Frame) (n k : Nat) : Reply → World → Prop where
  | waits {f : Frame} {w : World} (sound : Sound [] w) (top : w.frames = f :: frames)
    (stage : Stage B self a n k w op f) : Reached op frames n k .pending w
  | returned {reply : Reply} {w : World} (sound : Sound [] w) (top : w.frames = frames)
    (answer : reply ≠ .pending) (outcome : Outcome B a w op reply) :
    Reached op frames n k reply w

end Stages

section Sizes

variable {a : List Value} {B : SetLike} {M : Set Value}

theorem length_le_encard (ha : a.Nodup) (h : ∀ c ∈ a, c ∈ M) : (a.length : ℕ∞) ≤ M.encard := by
  have hcard : ((a.toFinset : Set Value)).encard = a.length := by
    rw [Set.encard_coe_eq_coe_finsetCard, toFinset_card_of_nodup ha]
  rw [← hcard]
  exact Set.encard_le_encard fun c hc => h c (by simpa using hc)

theorem encard_le_length (h : ∀ c ∈ M, c ∈ a) : M.encard ≤ a.length := by
  calc M.encard ≤ (a.toFinset : Set Value).encard :=
        Set.encard_le_encard fun c hc => by simpa using h c hc
    _ = a.toFinset.card := Set.encard_coe_eq_coe_finsetCard _
    _ ≤ a.length := by exact_mod_cast toFinset_card_le a

/-- A Set that is larger than the other side has an element that is not there. -/
theorem exists_not_mem_of_not_atMost (hB : B.Honest M) (ha : a.Nodup)
    (h : atMost a.length B.size = false) : ¬∀ c ∈ a, c ∈ M := by
  intro hall
  cases hsize : B.size with
  | none =>
    rw [hsize] at h
    cases h
  | some n =>
    have hle := length_le_encard ha hall
    rw [(hB.size_iff n).mp hsize, Nat.cast_le] at hle
    rw [hsize, atMost, Option.all_some, decide_eq_false_iff_not] at h
    exact h hle

theorem exists_not_mem_of_below (hB : B.Honest M) (h : below a.length B.size = true) :
    ¬∀ c ∈ M, c ∈ a := by
  intro hall
  have hle := encard_le_length hall
  cases hsize : B.size with
  | none =>
    -- an infinite set has no finite cardinal
    obtain ⟨n, hn⟩ := ENat.ne_top_iff_exists.mp (ne_top_of_le_ne_top (ENat.natCast_ne_top _) hle)
    rw [(hB.size_iff n).mpr hn.symm] at hsize
    cases hsize
  | some n =>
    rw [(hB.size_iff n).mp hsize, Nat.cast_le] at hle
    rw [hsize, below, Option.all_some, decide_eq_true_eq] at h
    omega

theorem walks_of_not_atMost {n : Nat} (op : SetOp) (h : ¬atMost n B.size = true) : Walks B op := by
  refine inr (inr fun hnone => h ?_)
  rw [hnone]
  rfl

end Sizes

/-! ## The steps of a member -/

section Steps

variable {gc : Collector} {B : SetLike} {M : Set Value} {self : Nat} {a : List Value} {op : SetOp}
  {frames : List Frame} {n k : Nat} {w : World} {f : Frame}

theorem waits_reached (hw : Sound f.held w) (hframes : w.frames = frames)
    (hstage : Stage B self a n k w op f) :
    Reached B self a op frames n k (w.waits f).1 (w.waits f).2 :=
  Reached.waits (f := f) ⟨hw.tables, hw.live⟩ (congrArg (f :: ·) hframes) hstage

theorem ask_reached (done : List Value) {vs : List Value} (q : Asking) (hw : Sound vs w)
    (hframes : w.frames = frames) (ha : a = done ++ vs.map canonical)
    (hstage : AskStage B done (vs.map canonical) w op q) :
    Reached B self a op frames done.length k (w.ask q vs).1 (w.ask q vs).2 := by
  cases vs with
  | cons v vs => exact waits_reached hw hframes ⟨done, ha, rfl, hstage⟩
  | nil =>
    rw [map_nil, append_nil] at ha
    subst ha
    cases q <;> cases op <;> try exact hstage.elim
    case intersection.intersection result =>
      refine Reached.returned hw hframes nofun ?_
      exact hstage
    case difference.difference result =>
      refine Reached.returned hw hframes nofun ?_
      change w.members result = _
      rw [hstage, map_nil, append_nil]
    case isSubsetOf.isSubsetOf =>
      refine Reached.returned hw hframes nofun ?_
      exact iff_of_true rfl hstage
    case isDisjointFrom.isDisjointFrom =>
      refine Reached.returned hw hframes nofun ?_
      exact iff_of_true rfl hstage

variable {fresh : Heap × ObjectId}

/-- **The call of a member.** -/
theorem call_reached (hB : B.Honest M) (hw : Sound [] w) (ha : w.members self = some a)
    (hc : Heap.Collects w.roots w.heap fresh.1) (hlive : fresh.1.live fresh.2) :
    Yields (w.call gc op self B.size fresh) fun r =>
      Reached B self a op w.frames 0 0 r.1 r.2 := by
  have hcreate := create_moves hw hc hlive
  have hself := ne_length_of_members ha
  have ha' := hcreate.others self a hself ha
  have hsize := liveCount_eq hw ha
  unfold call
  simp only [hsize]
  cases op with
  | union => exact waits_reached hw rfl ⟨rfl, rfl, inl rfl, rfl, ha⟩
  | symmetricDifference =>
    exact waits_reached hw rfl ⟨rfl, rfl, inr (inl rfl), rfl, ha⟩
  | intersection =>
    dsimp only
    split_ifs with hle
    · obtain ⟨helements, hsound⟩ := elements_eq hcreate.sound ha'
      exact ask_reached [] _ hsound rfl helements.symm hcreate.members
    · have hwalks := walks_of_not_atMost .intersection hle
      exact waits_reached hcreate.sound rfl
        ⟨rfl, rfl, hwalks, rfl, hself.symm, ha', hcreate.members⟩
  | difference =>
    obtain ⟨helements, hsound⟩ := elements_eq hcreate.sound ha'
    refine (addAll_spec hsound hcreate.members).bind fun w' hw' => ?_
    rw [helements, adjoinAll_nil (hw.nodup ha)] at hw'
    have ha'' := hw'.others self a hself ha'
    split_ifs with hle
    · obtain ⟨helements', hsound'⟩ := elements_eq hw'.sound ha''
      refine ask_reached [] _ hsound' hw'.frames helements'.symm ?_
      rw [helements']
      exact hw'.members
    · have hwalks := walks_of_not_atMost .difference hle
      exact waits_reached hw'.sound hw'.frames ⟨rfl, rfl, hwalks, hw'.members⟩
  | isSubsetOf =>
    dsimp only
    split_ifs with hle
    · refine Reached.returned hw rfl nofun (iff_of_false nofun fun hall => ?_)
      refine exists_not_mem_of_not_atMost hB (hw.nodup ha) (by simpa using hle) fun c hc => ?_
      exact (hB.has_member ha hc).mp (hall c hc)
    · obtain ⟨helements, hsound⟩ := elements_eq hw ha
      exact ask_reached [] _ hsound rfl helements.symm nofun
  | isSupersetOf =>
    dsimp only
    split_ifs with hlt
    · refine Reached.returned hw rfl nofun (iff_of_false nofun fun hall => ?_)
      refine exists_not_mem_of_below hB hlt fun c hc => ?_
      obtain ⟨j, v, hj, rfl⟩ := (hB.mem_iff c).mp hc
      exact hall j v hj
    · refine waits_reached hw rfl ⟨rfl, rfl, inr (inr ?_), rfl, ha⟩
      intro hnone
      rw [hnone] at hlt
      exact hlt rfl
  | isDisjointFrom =>
    dsimp only
    split_ifs with hle
    · obtain ⟨helements, hsound⟩ := elements_eq hw ha
      exact ask_reached [] _ hsound rfl helements.symm nofun
    · have hwalks := walks_of_not_atMost .isDisjointFrom hle
      exact waits_reached hw rfl ⟨rfl, rfl, hwalks, rfl, ha⟩

/-- **The keys were opened.** -/
theorem opened_reached (hw : Sound [] w) (hframes : w.frames = frames) {o : Opening} (ha : a.Nodup)
    (hwalks : Walks B op) (hstage : OpenStage self a w op o)
    (hc : Heap.Collects w.roots w.heap fresh.1) (hlive : fresh.1.live fresh.2) :
    Yields (w.opened gc fresh o) fun r => Reached B self a op frames 1 0 r.1 r.2 := by
  have hcreate := create_moves hw hc hlive
  have hnone : ∀ j < 0, B.keyAt j ≠ none := fun j hj => absurd hj (Nat.not_lt_zero j)
  have hcopy : ∀ (i : Nat) (f : Frame), f.held = [] → w.members i = some a →
      (∀ w', w'.members i = some a → w'.members w.tables.length = some a →
        Stage B self a 1 0 w' op f) →
      Yields (do
        let w' ← addAll gc w.tables.length
          ((w.create true fresh).elements i ((w.create true fresh).liveCount i))
          (w.create true fresh)
        return w'.waits f) fun r => Reached B self a op frames 1 0 r.1 r.2 := by
    intro i f hheld hi hstage
    have hi' := hcreate.others i a (ne_length_of_members hi) hi
    obtain ⟨helements, hsound⟩ := elements_eq hcreate.sound hi'
    rw [liveCount_eq hcreate.sound hi']
    refine (addAll_spec hsound hcreate.members).bind fun w' hw' => ?_
    rw [helements, adjoinAll_nil ha] at hw'
    refine waits_reached (by rw [hheld]; exact hw'.sound) (hw'.frames.trans hframes) ?_
    exact hstage w' (hw'.others i a (ne_length_of_members hi) hi') hw'.members
  cases o <;> cases op <;> try exact hstage.elim
  case union.union i =>
    obtain ⟨-, hi⟩ := hstage
    exact hcopy i _ rfl hi fun w' _ hresult => ⟨rfl, hnone, hwalks, hresult⟩
  case intersection.intersection i result =>
    obtain ⟨rfl, hne, hi, hresult⟩ := hstage
    refine waits_reached hcreate.sound hframes ⟨rfl, hnone, hwalks,
      ⟨rfl, hne, (ne_length_of_members hi).symm, (ne_length_of_members hresult).symm⟩,
      hcreate.others _ _ (ne_length_of_members hi) hi,
      hcreate.others _ _ (ne_length_of_members hresult) hresult, hcreate.members⟩
  case difference.difference result =>
    refine waits_reached hw hframes ⟨rfl, hnone, hwalks, ?_⟩
    change w.members result = some (a.filter (· ∉ []))
    rw [filter_eq_self.mpr (by simp)]
    exact hstage
  case symmetricDifference.symmetricDifference i =>
    obtain ⟨rfl, hi⟩ := hstage
    refine hcopy i _ rfl hi fun w' hi' hresult => ⟨rfl, hnone, hwalks,
      ⟨rfl, (ne_length_of_members hi).symm⟩, hi', ?_⟩
    change w'.members _ = some (a.filter (· ∉ []) ++ [])
    rw [append_nil, filter_eq_self.mpr (by simp)]
    exact hresult
  case isSupersetOf.isSupersetOf i =>
    obtain ⟨rfl, hi⟩ := hstage
    exact waits_reached hw hframes ⟨rfl, hnone, hwalks, rfl, hi, nofun⟩
  case isDisjointFrom.isDisjointFrom i =>
    obtain ⟨rfl, hi⟩ := hstage
    exact waits_reached hw hframes ⟨rfl, hnone, hwalks, rfl, hi, nofun⟩

theorem asked_eq {done rest : List Value} {element : Value}
    (ha : a = done ++ (element :: rest).map canonical) :
    a = (done ++ [element.canonical]) ++ rest.map canonical := by
  simp [ha]

/-- **`has` answered.** -/
theorem answered_reached (hB : B.Honest M) {q : Asking} {element : Value} {rest done : List Value}
    (hw : Sound (element :: rest) w) (hframes : w.frames = frames) (hnd : a.Nodup)
    (ha : a = done ++ (element :: rest).map canonical)
    (hstage : AskStage B done ((element :: rest).map canonical) w op q) :
    Yields (w.answered gc (B.has element) element rest q) fun r =>
      Reached B self a op frames (done.length + 1) k r.1 r.2 := by
  have ha' := asked_eq ha
  have hrest := hw.mono (subset_cons_self element rest)
  have hnone := hw.mono (nil_subset _)
  have hcanonical := hB.has_canonical element
  have hlength : (done ++ [element.canonical]).length = done.length + 1 := length_append
  have hmem : element.canonical ∈ a := by
    rw [ha]
    simp
  have hnew : element.canonical ∉ done ∧ element.canonical ∉ rest.map canonical := by
    rw [ha, nodup_append'] at hnd
    obtain ⟨-, hnodup, hdisjoint⟩ := hnd
    exact ⟨fun h => hdisjoint h mem_cons_self, (nodup_cons.mp hnodup).1⟩
  rw [← hlength]
  cases q <;> cases op <;> try exact hstage.elim
  case intersection.intersection result =>
    have hresult : w.members result = some (done.filter (B.has ·)) := hstage
    rw [answered]
    split_ifs with hhas
    · refine (addTo_spec hw hresult).bind fun r hr => ?_
      refine ask_reached _ _ hr.sound (hr.frames.trans hframes) ha' ?_
      change r.2.members result = some ((done ++ [element.canonical]).filter (B.has ·))
      rw [hr.members, adjoin, if_neg fun h => hnew.1 (mem_of_mem_filter h), filter_append,
        filter_cons_of_pos (by rw [hcanonical]; exact hhas), filter_nil]
    · refine ask_reached _ _ hrest hframes ha' ?_
      change w.members result = some ((done ++ [element.canonical]).filter (B.has ·))
      rw [hresult, filter_append, filter_cons_of_neg (by rw [hcanonical]; exact hhas),
        filter_nil, append_nil]
  case difference.difference result =>
    have hresult : w.members result = some (done.filter (!B.has ·) ++
      (element.canonical :: rest.map canonical)) := hstage
    rw [answered]
    split_ifs with hhas
    · have hkept : (done.filter (!B.has ·)).filter (· ≠ element.canonical) =
          done.filter (!B.has ·) := by
        refine filter_eq_self.mpr fun c hc => decide_eq_true ?_
        rintro rfl
        exact hnew.1 (mem_of_mem_filter hc)
      have hahead : (rest.map canonical).filter (· ≠ element.canonical) =
          rest.map canonical := by
        refine filter_eq_self.mpr fun c hc => decide_eq_true ?_
        rintro rfl
        exact hnew.2 hc
      refine (removeFrom_spec hw hresult).bind fun r hr => ?_
      refine ask_reached _ _ hr.sound (hr.frames.trans hframes) ha' ?_
      change r.2.members result = some ((done ++ [element.canonical]).filter (!B.has ·) ++
        rest.map canonical)
      rw [hr.members, filter_append, filter_append, hkept, filter_cons_of_neg (by simp), hahead,
        filter_cons_of_neg (by rw [hcanonical, hhas]; decide), filter_nil, append_nil]
    · refine ask_reached _ _ hrest hframes ha' ?_
      change w.members result = some ((done ++ [element.canonical]).filter (!B.has ·) ++
        rest.map canonical)
      rw [hresult, filter_append, filter_cons_of_pos (by rw [hcanonical]; simpa using hhas),
        filter_nil, append_assoc]
      rfl
  case isSubsetOf.isSubsetOf =>
    rw [answered]
    split_ifs with hhas
    · refine ask_reached _ _ hrest hframes ha' fun c hc => ?_
      rcases mem_append.mp hc with hc | hc
      · exact hstage c hc
      · rw [mem_singleton.mp hc, hcanonical, hhas]
    · refine Reached.returned hnone hframes (by simp) (iff_of_false (by simp) fun hall => hhas ?_)
      rw [← hcanonical]
      exact hall _ hmem
  case isDisjointFrom.isDisjointFrom =>
    rw [answered]
    split_ifs with hhas
    · refine Reached.returned hnone hframes (by simp) (iff_of_false (by simp) fun hall => ?_)
      have hout := hall _ hmem
      rw [hcanonical, hhas] at hout
      cases hout
    · refine ask_reached _ _ hrest hframes ha' fun c hc => ?_
      rcases mem_append.mp hc with hc | hc
      · exact hstage c hc
      · rw [mem_singleton.mp hc, hcanonical, Bool.eq_false_iff]
        exact hhas

/-- **A key was read.** -/
theorem yielded_reached {q : Reading} {value : Value} (hw : Sound [value] w)
    (hframes : w.frames = frames) (hkey : B.keyAt k = some value)
    (hbefore : ∀ j < k, B.keyAt j ≠ none) (hwalks : Walks B op) (hB : B.Honest M)
    (hhas : ∀ c ∈ a, B.has c = true ↔ c ∈ M) (hstage : ReadStage self a (B.before k) w op q) :
    Yields (w.yielded gc value q) fun r =>
      Reached B self a op frames (k + 2) (k + 1) r.1 r.2 := by
  have hlive := hw.live value mem_cons_self
  have hnone := hw.mono (nil_subset _)
  have hsucc := SetLike.before_succ hkey
  have hbefore' : ∀ j < k + 1, B.keyAt j ≠ none := by
    intro j hj
    rcases Nat.lt_succ_iff_lt_or_eq.mp hj with hj | rfl
    · exact hbefore j hj
    · rw [hkey]
      simp
  have hreads : ∀ {r : Reading} {w' : World}, Sound [] w' → w'.frames = frames →
      ReadStage self a (B.before k ++ [value.canonical]) w' op r →
      Reached B self a op frames (k + 2) (k + 1) (w'.waits (.reading r)).1
        (w'.waits (.reading r)).2 := by
    intro r w' hw' hframes' hstage'
    refine waits_reached hw' hframes' ⟨rfl, hbefore', hwalks, ?_⟩
    rw [hsucc]
    exact hstage'
  cases q <;> cases op <;> try exact hstage.elim
  case union.union result =>
    refine (addTo_spec hw hstage).bind fun r hr => ?_
    refine hreads hr.sound (hr.frames.trans hframes) ?_
    change r.2.members result = _
    rw [hr.members, adjoinAll_concat]
  case intersection.intersection i result matched =>
    obtain ⟨hnum, hi, hresult, hmatched⟩ := hstage
    refine (setHas_spec hw hlive hi).bind ?_
    rintro ⟨present, w₁⟩ ⟨hpresent, hq⟩
    dsimp only at hpresent hq ⊢
    by_cases hin : value.canonical ∈ a
    · rw [if_pos (hpresent.mpr hin)]
      refine (addTo_spec hq.sound (hq.members _ _ hmatched)).bind fun r hr => ?_
      refine hreads hr.sound (hr.frames.trans (hq.frames.trans hframes)) ?_
      refine ⟨hnum, hr.others _ _ hnum.2.2.1.symm (hq.members _ _ hi),
        hr.others _ _ hnum.2.2.2.symm (hq.members _ _ hresult), ?_⟩
      rw [hr.members, filter_append, filter_cons_of_pos (by simpa using hin),
        filter_nil, adjoinAll_concat]
    · rw [if_neg fun h => hin (hpresent.mp h)]
      refine hreads (hq.sound.mono (nil_subset _)) (hq.frames.trans hframes) ?_
      refine ⟨hnum, hq.members _ _ hi, hq.members _ _ hresult, ?_⟩
      rw [filter_append, filter_cons_of_neg (by simpa using hin), filter_nil,
        append_nil]
      exact hq.members _ _ hmatched
  case difference.difference result =>
    refine (removeFrom_spec hw hstage).bind fun r hr => ?_
    refine hreads hr.sound (hr.frames.trans hframes) ?_
    change r.2.members result = _
    rw [hr.members, filter_filter]
    simp [Bool.and_comm]
  case symmetricDifference.symmetricDifference i result =>
    obtain ⟨hnum, hi, hresult⟩ := hstage
    refine (setHas_spec hw hlive hi).bind ?_
    rintro ⟨present, w₁⟩ ⟨hpresent, hq⟩
    dsimp only at hpresent hq ⊢
    by_cases hin : value.canonical ∈ a
    · rw [if_pos (hpresent.mpr hin)]
      refine (removeFrom_spec hq.sound (hq.members _ _ hresult)).bind fun r hr => ?_
      refine hreads hr.sound (hr.frames.trans (hq.frames.trans hframes)) ?_
      refine ⟨hnum, hr.others _ _ hnum.2.symm (hq.members _ _ hi), ?_⟩
      -- the elements of the other side that were added are not of this set
      have hkept : (adjoinAll [] ((B.before k).filter (· ∉ a))).filter
          (· ≠ value.canonical) = adjoinAll [] ((B.before k).filter (· ∉ a)) := by
        refine filter_eq_self.mpr fun c hc => decide_eq_true ?_
        rintro rfl
        have hc := (mem_adjoinAll.mp hc).resolve_left not_mem_nil
        simp only [mem_filter, decide_eq_true_eq] at hc
        exact hc.2 hin
      rw [hr.members, filter_append, hkept, filter_filter,
        filter_append (p := (· ∉ a)), filter_cons_of_neg (by simpa using hin),
        filter_nil, append_nil]
      simp [Bool.and_comm]
    · rw [if_neg fun h => hin (hpresent.mp h)]
      refine (addTo_spec hq.sound (hq.members _ _ hresult)).bind fun r hr => ?_
      refine hreads hr.sound (hr.frames.trans (hq.frames.trans hframes)) ?_
      refine ⟨hnum, hr.others _ _ hnum.2.symm (hq.members _ _ hi), ?_⟩
      have hsame : a.filter (· ∉ B.before k ++ [value.canonical]) =
          a.filter (· ∉ B.before k) := by
        apply filter_congr
        intro c hc
        have hne : c ≠ value.canonical := fun h => hin (h ▸ hc)
        simp [hne]
      have hout : value.canonical ∉ a.filter (· ∉ B.before k) :=
        fun h => hin (mem_of_mem_filter h)
      rw [hr.members, hsame, filter_append, filter_cons_of_pos (by simpa using hin),
        filter_nil, adjoinAll_concat, adjoin, adjoin]
      simp only [mem_append, hout, false_or]
      split_ifs
      · rfl
      · simp
  case isSupersetOf.isSupersetOf i =>
    obtain ⟨rfl, hi, hsub⟩ := hstage
    refine (setHas_spec hnone hlive hi).bind ?_
    rintro ⟨present, w₁⟩ ⟨hpresent, hq⟩
    dsimp only at hpresent hq ⊢
    by_cases hin : value.canonical ∈ a
    · rw [if_pos (hpresent.mpr hin)]
      refine hreads hq.sound (hq.frames.trans hframes) ⟨rfl, hq.members _ _ hi, ?_⟩
      intro c hc
      rcases mem_append.mp hc with hc | hc
      · exact hsub c hc
      · rw [mem_singleton.mp hc]
        exact hin
    · rw [if_neg fun h => hin (hpresent.mp h)]
      refine Reached.returned hq.sound (hq.frames.trans hframes) (by simp) ?_
      exact iff_of_false (by simp) fun hall => hin (hall k value hkey)
  case isDisjointFrom.isDisjointFrom i =>
    obtain ⟨rfl, hi, hsub⟩ := hstage
    refine (setHas_spec hnone hlive hi).bind ?_
    rintro ⟨present, w₁⟩ ⟨hpresent, hq⟩
    dsimp only at hpresent hq ⊢
    by_cases hin : value.canonical ∈ a
    · rw [if_pos (hpresent.mpr hin)]
      refine Reached.returned hq.sound (hq.frames.trans hframes) (by simp) ?_
      refine iff_of_false (by simp) fun hall => ?_
      have hmem : B.has value.canonical = true :=
        (hhas _ hin).mpr ((hB.mem_iff _).mpr ⟨k, value, hkey, rfl⟩)
      rw [hall _ hin] at hmem
      cases hmem
    · rw [if_neg fun h => hin (hpresent.mp h)]
      refine hreads hq.sound (hq.frames.trans hframes) ⟨rfl, hq.members _ _ hi, ?_⟩
      intro c hc
      rcases mem_append.mp hc with hc | hc
      · exact hsub c hc
      · rw [mem_singleton.mp hc]
        exact hin

theorem matched_eq (hB : B.Honest M) (hk : B.keyAt k = none) (hnd : a.Nodup)
    (hhas : ∀ c ∈ a, B.has c = true ↔ c ∈ M) :
    adjoinAll [] (a.filter (· ∈ adjoinAll [] ((B.before k).filter (· ∈ a)))) =
      a.filter (B.has ·) := by
  rw [adjoinAll_nil (hnd.filter _)]
  apply filter_congr
  intro c hc
  rw [Bool.eq_iff_iff, decide_eq_true_eq, mem_adjoinAll, mem_filter, hhas c hc,
    hB.mem_before_iff hk]
  simp [hc]

/-- The elements of a Set that no key removed are those the other side has not. -/
theorem unread_eq (hB : B.Honest M) (hk : B.keyAt k = none)
    (hhas : ∀ c ∈ a, B.has c = true ↔ c ∈ M) : a.filter (· ∉ B.before k) = a.filter (!B.has ·) := by
  apply filter_congr
  intro c hc
  rw [Bool.eq_iff_iff, decide_eq_true_eq, hB.mem_before_iff hk, Bool.not_eq_true',
    ← Bool.not_eq_true, hhas c hc]

/-- **The keys are done.** -/
theorem exhausted_reached {q : Reading} (hw : Sound [] w) (hframes : w.frames = frames)
    (hB : B.Honest M) (hk : B.keyAt k = none) (hbefore : ∀ j < k, B.keyAt j ≠ none) (hnd : a.Nodup)
    (hhas : ∀ c ∈ a, B.has c = true ↔ c ∈ M) (hstage : ReadStage self a (B.before k) w op q) :
    Yields (w.exhausted gc q) fun r => Reached B self a op frames (k + 2) k r.1 r.2 := by
  have hproduces := SetLike.produces_of_done hB hbefore hk
  cases q <;> cases op <;> try exact hstage.elim
  case union.union result =>
    exact Reached.returned hw hframes nofun ⟨_, hproduces, hstage⟩
  case intersection.intersection i result matched =>
    obtain ⟨hnum, hi, hresult, hmatched⟩ := hstage
    rw [exhausted, liveCount_eq hw hi]
    obtain ⟨helements, hsound⟩ := elements_eq hw hi
    refine (addMatched_spec hnum.2.2.2 hsound hmatched hresult).bind fun w' hw' => ?_
    refine Reached.returned hw'.sound (hw'.frames.trans hframes) nofun ?_
    change w'.members result = _
    rw [hw'.members, helements, matched_eq hB hk hnd hhas]
  case difference.difference result =>
    refine Reached.returned hw hframes nofun ?_
    change w.members result = _
    rw [hstage, unread_eq hB hk hhas]
  case symmetricDifference.symmetricDifference i result =>
    obtain ⟨-, -, hresult⟩ := hstage
    refine Reached.returned hw hframes nofun ⟨_, hproduces, ?_⟩
    rw [hresult, unread_eq hB hk hhas]
    rfl
  case isSupersetOf.isSupersetOf i =>
    obtain ⟨-, -, hsub⟩ := hstage
    refine Reached.returned hw hframes nofun (iff_of_true rfl fun j v hj => hsub _ ?_)
    exact (hB.mem_before_iff hk).mpr ((hB.mem_iff _).mpr ⟨j, v, hj, rfl⟩)
  case isDisjointFrom.isDisjointFrom i =>
    obtain ⟨-, -, hout⟩ := hstage
    refine Reached.returned hw hframes nofun (iff_of_true rfl fun c hc => ?_)
    rw [← Bool.not_eq_true, hhas c hc, ← hB.mem_before_iff hk]
    exact fun hmem => hout c hmem hc

theorem Stage.between {w' : World} (h : Stage B self a n k w op f)
    (hb : Between f w w') : Stage B self a n k w' op f := by
  have hkeep := hb.members
  cases f with
  | opening o =>
    obtain ⟨hn, hk, hwalks, hstage⟩ := h
    refine ⟨hn, hk, hwalks, ?_⟩
    cases o <;> cases op <;> try exact hstage.elim
    case intersection.intersection i result =>
      obtain ⟨hself, hne, hi, hresult⟩ := hstage
      exact ⟨hself, hne, hkeep i (by simp [Frame.tables]) a hi,
        hkeep result (by simp [Frame.tables]) [] hresult⟩
    case difference.difference result => exact hkeep result (mem_singleton_self _) a hstage
    all_goals exact ⟨hstage.1, hkeep _ (mem_singleton_self _) a hstage.2⟩
  | asking q element rest =>
    obtain ⟨done, hdone, hn, hstage⟩ := h
    refine ⟨done, hdone, hn, ?_⟩
    cases q <;> cases op <;> try exact hstage
    all_goals exact hkeep _ (mem_singleton_self _) _ hstage
  | reading r =>
    obtain ⟨hn, hbefore, hwalks, hstage⟩ := h
    refine ⟨hn, hbefore, hwalks, ?_⟩
    cases r <;> cases op <;> try exact hstage.elim
    case union.union result =>
      exact hkeep result (mem_singleton_self _) _ hstage
    case difference.difference result =>
      exact hkeep result (mem_singleton_self _) _ hstage
    case intersection.intersection i result matched =>
      obtain ⟨hnum, hi, hresult, hmatched⟩ := hstage
      exact ⟨hnum, hkeep i (by simp [Frame.tables]) _ hi,
        hkeep result (by simp [Frame.tables]) _ hresult,
        hkeep matched (by simp [Frame.tables]) _ hmatched⟩
    case symmetricDifference.symmetricDifference i result =>
      obtain ⟨hnum, hi, hresult⟩ := hstage
      exact ⟨hnum, hkeep i (by simp [Frame.tables]) _ hi,
        hkeep result (by simp [Frame.tables]) _ hresult⟩
    case isSupersetOf.isSupersetOf i =>
      exact ⟨hstage.1, hkeep i (mem_singleton_self _) _ hstage.2.1, hstage.2.2⟩
    case isDisjointFrom.isDisjointFrom i =>
      exact ⟨hstage.1, hkeep i (mem_singleton_self _) _ hstage.2.1, hstage.2.2⟩

theorem Sound.pop (hw : Sound [] w) (hframes : w.frames = f :: frames) :
    Sound f.held { w with frames } where
  tables := hw.tables
  live v hv := by
    refine hw.live v ?_
    rw [held, hframes]
    exact hv

/-- **One turn**: an honest answer takes a member from one point to the next. -/
theorem turn_reached {k' : Nat} {e : Action} (hB : B.Honest M) (hnd : a.Nodup)
    (hhas : ∀ c ∈ a, B.has c = true ↔ c ∈ M) (hw : Sound [] w) (hframes : w.frames = f :: frames)
    (hstage : Stage B self a n k w op f) (hanswers : B.Answers k f e k') (he : e.Allowed w) :
    Yields (w.exec gc e) fun r => Reached B self a op frames (n + 1) k' r.1 r.2 := by
  have hpop := hw.pop hframes
  cases hanswers with
  | opened o fresh =>
    obtain ⟨rfl, rfl, hwalks, hopen⟩ := hstage
    have hroots : w.roots = roots { w with frames } := by
      simp [roots, held, hframes, Frame.held]
    rw [Action.Allowed, hroots] at he
    change Yields (w.resume gc (.opened fresh)) _
    simp only [resume, hframes]
    exact opened_reached hpop rfl hnd hwalks hopen he.1 he.2
  | answered q element rest =>
    obtain ⟨done, hdone, rfl, hask⟩ := hstage
    change Yields (w.resume gc (.answered (B.has element))) _
    simp only [resume, hframes]
    exact answered_reached hB hpop rfl hnd hdone hask
  | yielded q hkey =>
    rename_i value
    obtain ⟨rfl, hbefore, hwalks, hread⟩ := hstage
    have hpop' : Sound [value] { w with frames } := by
      refine ⟨hpop.tables, ?_⟩
      rintro v (_ | ⟨_, hv⟩)
      · exact he
      · exact hpop.live v hv
    change Yields (w.resume gc (.yielded value)) _
    simp only [resume, hframes]
    exact yielded_reached hpop' rfl hkey hbefore hwalks hB hhas hread
  | exhausted q hdone =>
    obtain ⟨rfl, hbefore, -, hread⟩ := hstage
    change Yields (w.resume gc .exhausted) _
    simp only [resume, hframes]
    exact exhausted_reached hpop rfl hB hdone hbefore hnd hhas hread

end Steps

/-! ## Conversations -/

section Conversations

variable {gc : Collector} {B : SetLike} {M : Set Value} {self : Nat} {a : List Value} {op : SetOp}
  {n k : Nat} {reply : Reply} {w₀ w : World}

theorem exec_call_reached (hB : B.Honest M) (hw : Sound [] w₀) (ha : w₀.members self = some a)
    {fresh : Heap × ObjectId} (he : (Action.call op self B.size fresh).Allowed w₀) :
    Yields (w₀.exec gc (.call op self B.size fresh)) fun r =>
      Reached B self a op w₀.frames 0 0 r.1 r.2 := by
  obtain ⟨t, ht, hset, -⟩ := members_eq_some.mp ha
  rw [World.exec, World.require, if_pos (hasKind_iff.mpr ⟨t, ht, hset⟩)]
  exact call_reached hB hw ha he.1 he.2

/-- **What each point of a conversation has computed.** -/
theorem conversation_spec (hB : B.Honest M) (hw : Sound [] w₀) (ha : w₀.members self = some a)
    (hc : Conversation gc B op self w₀ n k reply w) :
    Reached B self a op w₀.frames n k reply w := by
  have hhas : ∀ c ∈ a, B.has c = true ↔ c ∈ M := fun c hc => hB.has_member ha hc
  induction hc with
  | call acts => exact (exec_call_reached hB hw ha acts.1).ok acts.2
  | turn before waits between answers acts ih =>
    cases ih with
    | waits sound top stage =>
      rw [waits] at top
      obtain ⟨rfl, rfl⟩ := cons.inj top
      have hstage := stage.between between
      have hframes := between.frames.trans waits
      exact (turn_reached hB (hw.nodup ha) hhas between.sound hframes hstage answers acts.1).ok
        acts.2
    | returned sound top answer outcome => exact absurd rfl answer

/-- The answers a waiting member got are no more than the elements it asks about, or the keys the
other side has. -/
theorem Stage.bounded {f : Frame} (h : Stage B self a n k w op f) :
    (∀ ks, B.Produces ks → n ≤ max a.length (ks.length + 1)) ∧
      (B.size = none → op ≠ .union → op ≠ .symmetricDifference → n ≤ a.length) := by
  have hinfinite : Walks B op → B.size = none → op ≠ .union → op ≠ .symmetricDifference →
      n ≤ a.length := by
    rintro (h | h | h) hsize hunion hsymmetric
    · exact absurd h hunion
    · exact absurd h hsymmetric
    · exact absurd hsize h
  cases f with
  | opening o =>
    obtain ⟨rfl, -, hwalks, -⟩ := h
    exact ⟨fun _ _ => Nat.zero_le _, hinfinite hwalks⟩
  | asking q element rest =>
    obtain ⟨done, rfl, rfl, -⟩ := h
    have hle : done.length ≤ (done ++ (element :: rest).map canonical).length := by simp
    exact ⟨fun _ _ => le_max_of_le_left hle, fun _ _ _ => hle⟩
  | reading r =>
    obtain ⟨rfl, hbefore, hwalks, -⟩ := h
    refine ⟨fun ks hks => le_max_of_le_right ?_, hinfinite hwalks⟩
    by_contra hgt
    refine hbefore ks.length (by omega) ?_
    rw [hks, getElem?_eq_none le_rfl]

end Conversations

/-- **What a member returns**, on a Set of the members `a` and a set `M` of another side: a Set of
the members that set algebra says, each once and in the order of this Set, before what the other
side adds in the order of its keys; or the truth value. -/
def SetResult (B : SetLike) (M : Set Value) (a : List Value) (w : World) : SetOp → Reply → Prop
  | .union, reply => ∃ i l ks, reply = .table i ∧ w.members i = some (a ++ l) ∧ (a ++ l).Nodup ∧
    B.Produces ks ∧ a ++ l = adjoinAll a (ks.map Value.canonical) ∧
    ∀ c, c ∈ a ++ l ↔ c ∈ a ∨ c ∈ M
  | .intersection, reply => ∃ i l, reply = .table i ∧ w.members i = some l ∧ l.Nodup ∧
    l.Sublist a ∧ ∀ c, c ∈ l ↔ c ∈ a ∧ c ∈ M
  | .difference, reply => ∃ i l, reply = .table i ∧ w.members i = some l ∧ l.Nodup ∧
    l.Sublist a ∧ ∀ c, c ∈ l ↔ c ∈ a ∧ c ∉ M
  | .symmetricDifference, reply => ∃ i l l' ks, reply = .table i ∧
    w.members i = some (l ++ l') ∧ (l ++ l').Nodup ∧ l.Sublist a ∧ B.Produces ks ∧
    l' = adjoinAll [] ((ks.map Value.canonical).filter (· ∉ a)) ∧
    ∀ c, c ∈ l ++ l' ↔ (c ∈ a ∧ c ∉ M) ∨ (c ∈ M ∧ c ∉ a)
  | .isSubsetOf, reply => ∃ b, reply = .bool b ∧ (b = true ↔ ∀ c ∈ a, c ∈ M)
  | .isSupersetOf, reply => ∃ b, reply = .bool b ∧ (b = true ↔ ∀ c ∈ M, c ∈ a)
  | .isDisjointFrom, reply => ∃ b, reply = .bool b ∧ (b = true ↔ ∀ c ∈ a, c ∉ M)

section Results

variable {B : SetLike} {M : Set Value} {a l vs : List Value} {w : World} {op : SetOp}
  {reply : Reply}

theorem adjoinAll_prefix (l vs : List Value) : ∃ l', adjoinAll l vs = l ++ l' := by
  induction vs generalizing l with
  | nil => exact ⟨[], (append_nil l).symm⟩
  | cons v vs ih =>
    obtain ⟨l', hl'⟩ := ih (adjoin l v)
    change ∃ l', adjoinAll (adjoin l v) vs = l ++ l'
    rw [hl', adjoin]
    split_ifs
    · exact ⟨l', rfl⟩
    · exact ⟨v :: l', by rw [append_assoc]; rfl⟩

theorem mem_produced (hB : B.Honest M) {ks : List Value} (hks : B.Produces ks) (c : Value) :
    c ∈ ks.map canonical ↔ c ∈ M := by
  rw [hB.mem_iff, mem_map]
  constructor
  · rintro ⟨v, hv, rfl⟩
    obtain ⟨k, hk⟩ := mem_iff_getElem?.mp hv
    exact ⟨k, v, (hks k).trans hk, rfl⟩
  · rintro ⟨k, v, hk, rfl⟩
    exact ⟨v, mem_of_getElem? ((hks k).symm.trans hk), rfl⟩

theorem Outcome.result (hB : B.Honest M) (hnd : a.Nodup) (hhas : ∀ c ∈ a, B.has c = true ↔ c ∈ M)
    (h : Outcome B a w op reply) : SetResult B M a w op reply := by
  have hnot : ∀ c ∈ a, B.has c = false ↔ c ∉ M := by
    intro c hc
    rw [← Bool.not_eq_true, hhas c hc]
  cases op with
  | union =>
    cases reply with
    | table i =>
      obtain ⟨ks, hks, hl⟩ := h
      obtain ⟨l, hkept⟩ := adjoinAll_prefix a (ks.map canonical)
      have hnodup : (adjoinAll a (ks.map canonical)).Nodup := nodup_adjoinAll hnd
      have hmem : ∀ c, c ∈ adjoinAll a (ks.map canonical) ↔ c ∈ a ∨ c ∈ M := fun c => by
        rw [mem_adjoinAll, mem_produced hB hks]
      rw [hkept] at hl hnodup hmem
      exact ⟨i, l, ks, rfl, hl, hnodup, hks, hkept.symm, hmem⟩
    | _ => exact h.elim
  | intersection =>
    cases reply with
    | table i =>
      refine ⟨i, _, rfl, h, hnd.filter _, filter_sublist, fun c => ?_⟩
      rw [mem_filter]
      exact and_congr_right fun hc => hhas c hc
    | _ => exact h.elim
  | difference =>
    cases reply with
    | table i =>
      refine ⟨i, _, rfl, h, hnd.filter _, filter_sublist, fun c => ?_⟩
      rw [mem_filter, Bool.not_eq_true']
      exact and_congr_right fun hc => hnot c hc
    | _ => exact h.elim
  | symmetricDifference =>
    cases reply with
    | table i =>
      obtain ⟨ks, hks, hl⟩ := h
      have hnew : ∀ c, c ∈ adjoinAll [] ((ks.map canonical).filter (· ∉ a)) ↔
          c ∈ M ∧ c ∉ a := by
        intro c
        rw [mem_adjoinAll, mem_filter, mem_produced hB hks]
        simp
      refine ⟨i, _, _, ks, rfl, hl, ?_, filter_sublist, hks, rfl, fun c => ?_⟩
      · refine nodup_append'.mpr ⟨hnd.filter _, nodup_adjoinAll nodup_nil, ?_⟩
        intro c hc hc'
        exact ((hnew c).mp hc').2 (mem_of_mem_filter hc)
      · rw [mem_append, hnew, mem_filter, Bool.not_eq_true']
        exact or_congr_left (and_congr_right fun hc => hnot c hc)
    | _ => exact h.elim
  | isSubsetOf =>
    cases reply with
    | bool b => exact ⟨b, rfl, h.trans (forall₂_congr hhas)⟩
    | _ => exact h.elim
  | isSupersetOf =>
    cases reply with
    | bool b =>
      refine ⟨b, rfl, h.trans ⟨fun hall c hc => ?_, fun hall k v hk => ?_⟩⟩
      · obtain ⟨k, v, hk, rfl⟩ := (hB.mem_iff c).mp hc
        exact hall k v hk
      · exact hall _ ((hB.mem_iff _).mpr ⟨k, v, hk, rfl⟩)
    | _ => exact h.elim
  | isDisjointFrom =>
    cases reply with
    | bool b => exact ⟨b, rfl, h.trans (forall₂_congr hnot)⟩
    | _ => exact h.elim

end Results

/-- The members of `Set.prototype.intersection` in the order of 24.2.4.9: that of this Set where its
elements are asked about, and that of the keys where those are read. -/
def ecmaIntersection (a ks : List Value) (size : Size) : List Value :=
  if atMost a.length size then a.filter (· ∈ ks) else adjoinAll [] (ks.filter (· ∈ a))

/-- The Set of the numbers with the bits 1, 2 and 3. -/
def threeNumbers : World :=
  (((oneTable true).after (.add 0 (.number 1))).after (.add 0 (.number 2))).after
    (.add 0 (.number 3))

/-- A set-like with the first two of them, the second first. -/
def twoBackwards : SetLike where
  size := some 2
  has v := v.canonical = .number 2 || v.canonical = .number 1
  keyAt k := [.number 2, .number 1][k]?

theorem twoBackwards_honest : twoBackwards.Honest {.number 2, .number 1} where
  size_iff n := by
    rw [Set.encard_pair (by decide)]
    change some 2 = some n ↔ (2 : ℕ∞) = n
    rw [Option.some.injEq]
    exact Nat.cast_inj.symm
  has_iff v := by simp [twoBackwards]
  mem_iff c := by
    constructor
    · rintro (rfl | rfl)
      · exact ⟨0, _, rfl, rfl⟩
      · exact ⟨1, _, rfl, rfl⟩
    · rintro ⟨k, v, hk, rfl⟩
      match k, hk with
      | 0, hk => exact inl (by rw [← Option.some.inj hk]; rfl)
      | 1, hk => exact inr (by rw [← Option.some.inj hk]; rfl)
  done k hk := by
    match k, hk with
    | k + 2, _ => rfl

theorem threeNumbers_sound : Sound [] threeNumbers := by
  have hone : Acts idle (oneTable true) (.add 0 (.number 1), .table 0)
      ((oneTable true).after (.add 0 (.number 1))) := ⟨nofun, rfl⟩
  have htwo : Acts idle ((oneTable true).after (.add 0 (.number 1)))
      (.add 0 (.number 2), .table 0)
      (((oneTable true).after (.add 0 (.number 1))).after (.add 0 (.number 2))) := ⟨nofun, rfl⟩
  have hthree : Acts idle
      (((oneTable true).after (.add 0 (.number 1))).after (.add 0 (.number 2)))
      (.add 0 (.number 3), .table 0) threeNumbers := ⟨nofun, rfl⟩
  have hrun : CanonicalRun idle (twoObjects false) _ threeNumbers :=
    snoc (snoc (snoc (snoc .nil
      (oneTable_acts true) trivial) hone nofun) htwo nofun) hthree nofun
  exact (run_fine hrun).sound

theorem threeNumbers_members :
    threeNumbers.members 0 = some [.number 1, .number 2, .number 3] := rfl

/-- The intersection of the two, called, and after each answer. -/
def meetCalled : World :=
  threeNumbers.after (.call .intersection 0 (some 2) (threeNumbers.heap, 1))

def meetOpened : World := meetCalled.after (.opened (meetCalled.heap, 1))

def meetRead : World := meetOpened.after (.yielded (.number 2))

def meetReadTwo : World := meetRead.after (.yielded (.number 1))

def meetDone : World := meetReadTwo.after .exhausted

theorem between_refl {f : Frame} (hw : Sound [] w) : Between f w w :=
  ⟨hw, rfl, fun _ _ _ h => h⟩

/-- The intersection ends in four answers, with the members in the order of this Set. -/
theorem meetDone_conversation :
    Conversation idle twoBackwards .intersection 0 threeNumbers 4 2 (.table 1) meetDone := by
  have hsound : ∀ {n k : Nat} {reply : Reply} {w : World},
      Conversation idle twoBackwards .intersection 0 threeNumbers n k reply w → Sound [] w := by
    intro n k reply w hc
    cases conversation_spec twoBackwards_honest threeNumbers_sound threeNumbers_members hc with
    | waits sound => exact sound
    | returned sound => exact sound
  have hcall : Acts idle threeNumbers
      (.call .intersection 0 (some 2) (threeNumbers.heap, 1), .pending) meetCalled :=
    ⟨⟨.refl .., (by decide : 1 < 2)⟩, rfl⟩
  have hopened : Acts idle meetCalled (.opened (meetCalled.heap, 1), .pending) meetOpened :=
    ⟨⟨.refl .., (by decide : 1 < 2)⟩, rfl⟩
  have hread : Acts idle meetOpened (.yielded (.number 2), .pending) meetRead := ⟨nofun, rfl⟩
  have hreadTwo : Acts idle meetRead (.yielded (.number 1), .pending) meetReadTwo := ⟨nofun, rfl⟩
  have hdone : Acts idle meetReadTwo (.exhausted, .table 1) meetDone := ⟨trivial, rfl⟩
  have hc₀ : Conversation idle twoBackwards .intersection 0 threeNumbers 0 0 .pending
      meetCalled := .call hcall
  have hc₁ := hc₀.turn rfl (between_refl (hsound hc₀)) (.opened (.intersection 0 1) _) hopened
  have hc₂ := hc₁.turn rfl (between_refl (hsound hc₁)) (.yielded (.intersection 0 1 2) rfl) hread
  have hc₃ := hc₂.turn rfl (between_refl (hsound hc₂)) (.yielded (.intersection 0 1 2) rfl) hreadTwo
  exact hc₃.turn rfl (between_refl (hsound hc₃)) (.exhausted (.intersection 0 1 2) rfl) hdone

end Bronze.Collections
