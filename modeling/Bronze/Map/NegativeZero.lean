import Bronze.Map.SetOperations

/-!
# No collection stores `-0`

The language stores `+0` where a program passes `-0` for a key. The members of
`src/runtime/builtin_set_ops.cpp` do so for every key they store; `Map.prototype.set` and
`Set.prototype.add` store the key as it is, and so keep `-0` out only while no program adds it to a
collection that holds no zero.

## Main results

* `exec_fine`: a canonical action keeps the collections fine
* `negativeZero_never_stored`: after a run of canonical actions no key is `-0`, and the next action
  leaves none if and only if it is canonical
-/

namespace Bronze.Collections

open OrderedList Transition
open List Option Ensures World

/-- The collections are well formed and hold no `-0`, and the values held are live. -/
structure Fine (keep : List Value) (w : World) : Prop where
  tables : ∀ i t, w.table? i = some t → Inv w.heap t.map ∧ negativeZero ∉ t.map.keys
  live : ∀ v ∈ keep ++ w.held, v.Live w.heap

theorem Fine.mono {keep keep' : List Value} {w : World} (h : Fine keep w) (hsub : keep' ⊆ keep) :
    Fine keep' w where
  tables := h.tables
  live v hv := h.live v (by
    rw [mem_append] at hv ⊢
    exact hv.imp_left fun hv => hsub hv)

section Roots

variable {w : World} {i j : Nat} {t : Table}

theorem mem_identities {vs : List Value} {v : Value} (hv : v ∈ vs) :
    ∀ o ∈ v.identity, o ∈ identities vs :=
  fun _ ho => mem_filterMap.mpr ⟨v, hv, ho⟩

theorem roots_subset_tableRoots {tables : List (Option Table)} (h : some t ∈ tables) :
    t.map.roots ⊆ tableRoots tables :=
  fun _ ho => mem_flatMap.mpr ⟨some t, h, ho⟩

theorem table?_eq_some : w.table? i = some t ↔ w.tables[i]? = some (some t) := by
  rw [table?, join_eq_some_iff]

theorem roots_subset_roots (h : w.table? i = some t) : t.map.roots ⊆ w.roots := by
  apply subset_append_of_subset_left
  exact roots_subset_tableRoots (mem_of_getElem? (table?_eq_some.mp h))

theorem roots_subset_rootsBesides (h : w.table? j = some t) (hne : j ≠ i) :
    t.map.roots ⊆ w.rootsBesides i := by
  apply subset_append_of_subset_left
  refine roots_subset_tableRoots (mem_of_getElem? (i := j) ?_)
  rw [getElem?_set_ne hne.symm]
  exact table?_eq_some.mp h

theorem table?_set (x : Table) (h : w.table? i = some t) (heap : Heap) :
    table? { w with heap, tables := w.tables.set i (some x) } j =
      if i = j then some x else w.table? j := by
  have hlt : i < w.tables.length := (List.getElem?_eq_some_iff.mp (table?_eq_some.mp h)).1
  rw [table?, getElem?_set]
  split_ifs <;> rfl

theorem live_keeps {keep : List Value} {h' : Heap} (hlive : ∀ v ∈ keep ++ w.held, v.Live w.heap)
    (hk : Heap.Keeps (w.rootsBesides i ++ identities keep) w.heap h') :
    ∀ v ∈ keep ++ w.held, v.Live h' := by
  intro v hv
  refine (hlive v hv).keeps hk fun o ho => ?_
  rcases mem_append.mp hv with hv | hv
  · exact mem_append_right _ (mem_identities hv o ho)
  · exact mem_append_left _ (mem_append_right _ (mem_identities hv o ho))

end Roots

section OnTable

variable {α : Type} {gc : Collector} {keep : List Value} {w : World} {i : Nat} {absent : α}
  {op : Collector → State → Except Exit (α × State)}

/-- An operation that keeps further roots, and leaves its table fine. -/
structure SafeOn (op : Collector → State → Except Exit (α × State)) (heap : Heap)
    (m : MapHeader) : Prop where
  keeps : ∀ gc more, Ensures (op (Collector.keeping gc more) { heap, map := m }) fun r =>
    Heap.Keeps more heap r.2.heap
  fine : ∀ gc, Ensures (op gc { heap, map := m }) fun r =>
    Inv r.2.heap r.2.map ∧ negativeZero ∉ r.2.map.keys

/-- **An operation on one collection** leaves all of them fine. -/
theorem onTable_fine (hw : Fine keep w) (hop : ∀ t, w.table? i = some t → SafeOn op w.heap t.map) :
    Ensures (w.onTable gc keep i absent op) fun r => Fine keep r.2 ∧ r.2.frames = w.frames := by
  unfold onTable
  split
  · exact pure ⟨hw, rfl⟩
  · next t ht =>
    have hsafe := hop t ht
    refine ((hsafe.fine _).and (hsafe.keeps gc _)).bind ?_
    rintro ⟨a, s⟩ ⟨⟨hi, hnew⟩, hk⟩
    apply Ensures.pure
    refine ⟨⟨fun j t' ht' => ?_, live_keeps (w := w) hw.live hk⟩, rfl⟩
    rw [table?_set _ ht] at ht'
    split_ifs at ht' with hij
    · obtain rfl := some.inj ht'
      exact ⟨hi, hnew⟩
    · -- another collection: what it holds was among the roots
      obtain ⟨hi', hnz⟩ := hw.tables j t' ht'
      refine ⟨hi'.keeps (hk.mono ?_), hnz⟩
      apply subset_append_of_subset_left
      exact roots_subset_rootsBesides ht' (Ne.symm hij)

end OnTable

section Entries

variable {heap : Heap} {m : MapHeader} {key val : Value}

theorem setEntry_safe (hi : Inv heap m) (hnz : negativeZero ∉ m.keys) (hkey : key.Live heap)
    (hcanonical : key = negativeZero → Contains m key) : SafeOn (setEntry key val) heap m where
  keeps _ _ := set_keeps.bind fun _ hk => pure hk
  fine _ := by
    refine (set_keys hi hkey).bind fun s' ⟨hi', hkeys⟩ => pure ⟨hi', ?_⟩
    rw [hkeys]
    split_ifs with hcontains
    · exact hnz
    · rw [mem_append, mem_singleton]
      rintro (h | h)
      · exact hnz h
      · exact hcontains (hcanonical h.symm)

theorem hasEntry_safe (hi : Inv heap m) (hnz : negativeZero ∉ m.keys) (hkey : key.Live heap) :
    SafeOn (hasEntry key) heap m where
  keeps _ _ := find_keeps.bind fun _ hk => pure hk
  fine _ := by
    refine (find_inv hi hkey fun o ho => mem_toList.mpr ho).bind ?_
    rintro ⟨slot, s'⟩ ⟨hi', hkeys⟩
    apply Ensures.pure
    rw [hkeys]
    exact ⟨hi', hnz⟩

theorem removeEntry_safe (hi : Inv heap m) (hnz : negativeZero ∉ m.keys) (hkey : key.Live heap) :
    SafeOn (removeEntry key) heap m where
  keeps _ _ := remove_keeps
  fine _ := (remove_keys hi hkey).mono fun _ ⟨hi', hsub⟩ => ⟨hi', fun h => hnz (hsub h)⟩

theorem clear_safe (hi : Inv heap m) :
    SafeOn (fun _ s => .ok ((), { s with map := clear s.map })) heap m where
  keeps _ more := pure (.refl more heap)
  fine _ := by
    obtain ⟨hi', hslots⟩ := clear_spec (s := { heap, map := m }) hi
    apply Ensures.pure
    refine ⟨hi', ?_⟩
    exact not_mem_nil

theorem canonicalizeKey_ne (v : Value) : canonicalizeKey v ≠ negativeZero := by
  cases v with
  | number d =>
    rw [canonicalizeKey]
    split_ifs with hzero
    · decide
    · rintro ⟨rfl⟩
      exact hzero (by decide)
  | _ => nofun

theorem canonicalizeKey_live {v : Value} (h : v.Live heap) : (canonicalizeKey v).Live heap := by
  cases v with
  | number d =>
    rw [canonicalizeKey]
    split_ifs
    · nofun
    · nofun
  | _ => exact h

end Entries

section Helpers

variable {gc : Collector} {keep : List Value} {w : World} {i : Nat} {v : Value}

theorem addTo_fine (hw : Fine (v :: keep) w) :
    Ensures (w.addTo gc keep i v) fun r => Fine keep r.2 ∧ r.2.frames = w.frames := by
  refine onTable_fine (hw.mono (subset_cons_self v keep)) fun t ht => ?_
  obtain ⟨hi, hnz⟩ := hw.tables i t ht
  have hlive := canonicalizeKey_live (hw.live v mem_cons_self)
  exact setEntry_safe hi hnz hlive fun h => absurd h (canonicalizeKey_ne v)

theorem setHas_fine (hw : Fine keep w) (hv : v.Live w.heap) :
    Ensures (w.setHas gc keep i v) fun r => Fine keep r.2 ∧ r.2.frames = w.frames := by
  refine onTable_fine hw fun t ht => ?_
  obtain ⟨hi, hnz⟩ := hw.tables i t ht
  exact hasEntry_safe hi hnz (canonicalizeKey_live hv)

theorem removeFrom_fine (hw : Fine (v :: keep) w) :
    Ensures (w.removeFrom gc keep i v) fun r => Fine keep r.2 ∧ r.2.frames = w.frames := by
  refine onTable_fine (hw.mono (subset_cons_self v keep)) fun t ht => ?_
  obtain ⟨hi, hnz⟩ := hw.tables i t ht
  exact removeEntry_safe hi hnz (canonicalizeKey_live (hw.live v mem_cons_self))

variable {vs : List Value}

theorem addAll_fine (hw : Fine vs w) :
    Ensures (addAll gc i vs w) fun w' => Fine [] w' ∧ w'.frames = w.frames := by
  induction vs generalizing w with
  | nil => exact pure ⟨hw, rfl⟩
  | cons v vs ih =>
    refine (addTo_fine hw).bind fun r ⟨hr, hframes⟩ => ?_
    refine (ih hr).mono fun w' ⟨hw', hframes'⟩ => ?_
    exact ⟨hw', hframes'.trans hframes⟩

theorem addMatched_fine {matched result : Nat} (hw : Fine vs w) :
    Ensures (addMatched gc matched result vs w) fun w' =>
      Fine [] w' ∧ w'.frames = w.frames := by
  induction vs generalizing w with
  | nil => exact pure ⟨hw, rfl⟩
  | cons v vs ih =>
    refine (setHas_fine hw (hw.live v mem_cons_self)).bind ?_
    rintro ⟨present, w₁⟩ ⟨hw₁, hframes₁⟩
    dsimp only at hw₁ hframes₁ ⊢
    split_ifs
    · refine (addTo_fine hw₁).bind fun r ⟨hr, hframes⟩ => ?_
      refine (ih hr).mono fun w' ⟨hw', hframes'⟩ => ?_
      exact ⟨hw', hframes'.trans (hframes.trans hframes₁)⟩
    · refine (ih (hw₁.mono (subset_cons_self v vs))).mono fun w' ⟨hw', hframes'⟩ => ?_
      exact ⟨hw', hframes'.trans hframes₁⟩

theorem create_fine (hw : Fine [] w) (isSet : Bool) {fresh : Heap × ObjectId}
    (hc : Heap.Collects w.roots w.heap fresh.1) (hlive : fresh.1.live fresh.2) :
    Fine [] (w.create isSet fresh) where
  tables j t ht := by
    rw [table?_eq_some, World.create, getElem?_append] at ht
    split_ifs at ht with hlt
    · obtain ⟨hi, hnz⟩ := hw.tables j t (table?_eq_some.mpr ht)
      have hsub := roots_subset_roots (table?_eq_some.mpr ht)
      exact ⟨hi.keeps (.of_collects hc hsub), hnz⟩
    · obtain ⟨_, hj⟩ := List.getElem?_eq_some_iff.mp ht
      rw [List.getElem_singleton] at hj
      obtain rfl := some.inj hj
      obtain ⟨hi, hslots⟩ := create_spec hlive
      refine ⟨hi, ?_⟩
      exact not_mem_nil
  live v hv := by
    refine (hw.live v hv).keeps (.of_collects hc (Subset.refl _)) fun o ho => ?_
    exact mem_append_right _ (mem_identities hv o ho)

theorem elements_fine (hw : Fine [] w) (i count : Nat) : Fine (w.elements i count) w where
  tables := hw.tables
  live v hv := by
    rcases mem_append.mp hv with hv | hv
    · cases ht : w.table? i with
      | none =>
        rw [elements, ht] at hv
        cases hv
      | some t =>
        rw [elements, ht] at hv
        rcases mem_append.mp hv with hv | hv
        · exact (hw.tables i t ht).1.base.keys_live v (mem_of_mem_take hv)
        · rw [eq_of_mem_replicate hv]
          nofun
    · exact hw.live v hv

theorem waits_fine {f : Frame} (hw : Fine f.held w) : Fine [] (w.waits f).2 where
  tables := hw.tables
  live v hv := hw.live v hv

theorem ask_fine (a : Asking) (hw : Fine vs w) : Fine [] (w.ask a vs).2 := by
  cases vs with
  | nil => cases a <;> exact hw
  | cons v vs => exact waits_fine hw

end Helpers

section Members

variable {gc : Collector} {w : World}

theorem addAll_waits_fine {i self count : Nat} {f : Frame} (hheld : f.held = []) (hw : Fine [] w) :
    Ensures (do
      let w ← addAll gc i (w.elements self count) w
      return w.waits f) fun r => Fine [] r.2 :=
  (addAll_fine (elements_fine hw self count)).bind fun _ ⟨hw', _⟩ =>
    pure (waits_fine (by rwa [hheld]))

variable {fresh : Heap × ObjectId}

theorem call_fine (hw : Fine [] w) (op : SetOp) (self : Nat) (size : Size)
    (hc : Heap.Collects w.roots w.heap fresh.1) (hlive : fresh.1.live fresh.2) :
    Ensures (w.call gc op self size fresh) fun r => Fine [] r.2 := by
  have hnew := create_fine hw true hc hlive
  unfold call
  cases op with
  | union | symmetricDifference => exact pure (waits_fine hw)
  | intersection =>
    dsimp only
    split_ifs
    · exact pure (ask_fine _ (elements_fine hnew ..))
    · exact pure (waits_fine hnew)
  | difference =>
    refine (addAll_fine (elements_fine hnew ..)).bind fun w' ⟨hw', _⟩ => ?_
    split_ifs
    · exact pure (ask_fine _ (elements_fine hw' ..))
    · exact pure (waits_fine hw')
  | isSubsetOf =>
    dsimp only
    split_ifs
    · exact pure hw
    · exact pure (ask_fine _ (elements_fine hw ..))
  | isSupersetOf =>
    dsimp only
    split_ifs
    · exact pure hw
    · exact pure (waits_fine hw)
  | isDisjointFrom =>
    dsimp only
    split_ifs
    · exact pure (ask_fine _ (elements_fine hw ..))
    · exact pure (waits_fine hw)

theorem opened_fine (hw : Fine [] w) (o : Opening) (hc : Heap.Collects w.roots w.heap fresh.1)
    (hlive : fresh.1.live fresh.2) : Ensures (w.opened gc fresh o) fun r => Fine [] r.2 := by
  have hnew := create_fine hw true hc hlive
  cases o with
  | union | symmetricDifference => exact addAll_waits_fine rfl hnew
  | intersection => exact pure (waits_fine hnew)
  | difference | isSupersetOf | isDisjointFrom => exact pure (waits_fine hw)

theorem answered_fine {element : Value} {rest : List Value} (hw : Fine (element :: rest) w)
    (present : Bool) (a : Asking) :
    Ensures (w.answered gc present element rest a) fun r => Fine [] r.2 := by
  have hrest := hw.mono (subset_cons_self element rest)
  have hnone := hw.mono (nil_subset _)
  cases a with
  | intersection result =>
    rw [answered]
    split_ifs
    · exact (addTo_fine hw).bind fun _ ⟨hr, _⟩ => pure (ask_fine _ hr)
    · exact pure (ask_fine _ hrest)
  | difference result =>
    rw [answered]
    split_ifs
    · exact (removeFrom_fine hw).bind fun _ ⟨hr, _⟩ => pure (ask_fine _ hr)
    · exact pure (ask_fine _ hrest)
  | isSubsetOf =>
    rw [answered]
    split_ifs
    · exact pure (ask_fine _ hrest)
    · exact pure hnone
  | isDisjointFrom =>
    rw [answered]
    split_ifs
    · exact pure hnone
    · exact pure (ask_fine _ hrest)

theorem yielded_fine {value : Value} (hw : Fine [value] w) (r : Reading) :
    Ensures (w.yielded gc value r) fun r => Fine [] r.2 := by
  have hlive := hw.live value mem_cons_self
  have hnone := hw.mono (nil_subset _)
  cases r with
  | union => exact (addTo_fine hw).bind fun _ ⟨hr, _⟩ => pure (waits_fine hr)
  | difference => exact (removeFrom_fine hw).bind fun _ ⟨hr, _⟩ => pure (waits_fine hr)
  | intersection =>
    refine (setHas_fine hw hlive).bind fun p ⟨hp, _⟩ => ?_
    dsimp only
    split_ifs
    · exact (addTo_fine hp).bind fun _ ⟨hr, _⟩ => pure (waits_fine hr)
    · exact pure (waits_fine (hp.mono (nil_subset _)))
  | symmetricDifference =>
    refine (setHas_fine hw hlive).bind fun p ⟨hp, _⟩ => ?_
    dsimp only
    split_ifs
    · exact (removeFrom_fine hp).bind fun _ ⟨hr, _⟩ => pure (waits_fine hr)
    · exact (addTo_fine hp).bind fun _ ⟨hr, _⟩ => pure (waits_fine hr)
  | isSupersetOf | isDisjointFrom =>
    refine (setHas_fine hnone hlive).bind fun p ⟨hp, _⟩ => ?_
    dsimp only
    split_ifs
    · first | exact pure (waits_fine hp) | exact pure hp
    · first | exact pure (waits_fine hp) | exact pure hp

theorem exhausted_fine (hw : Fine [] w) (r : Reading) :
    Ensures (w.exhausted gc r) fun r => Fine [] r.2 := by
  cases r with
  | intersection =>
    exact (addMatched_fine (elements_fine hw ..)).bind fun _ ⟨hw', _⟩ => pure hw'
  | union | difference | symmetricDifference | isSupersetOf | isDisjointFrom =>
    exact pure hw

end Members

/-! ## Actions -/

/-- The action adds no `-0` as it is: it is given no `-0`, or the collection has a zero. -/
def Action.Canonical (w : World) : Action → Prop
  | .set i key _ => key = negativeZero → ∀ t, w.table? i = some t → t.isSet = false →
    Contains t.map key
  | .add i key => key = negativeZero → ∀ t, w.table? i = some t → t.isSet = true →
    Contains t.map key
  | _ => True

section Actions

variable {gc : Collector} {w : World}

theorem Fine.pop {f : Frame} {frames : List Frame} (hw : Fine [] w)
    (hframes : w.frames = f :: frames) : Fine f.held { w with frames } where
  tables := hw.tables
  live v hv := by
    refine hw.live v ?_
    rw [held, hframes]
    exact hv

variable {isSet : Bool} {i : Nat}

theorem hasKind_iff : w.hasKind isSet i = true ↔ ∃ t, w.table? i = some t ∧ t.isSet = isSet := by
  rw [hasKind, Option.any_eq_true]
  simp

theorem require_fine {α : Type} {absent : α} (reply : α → Reply)
    {op : Collector → State → Except Exit (α × State)} (hw : Fine [] w)
    (hop : ∀ t, w.table? i = some t → t.isSet = isSet → SafeOn op w.heap t.map) :
    Ensures (w.require isSet i do
      let (a, w) ← w.onTable gc [] i absent op
      return (reply a, w)) fun r => Fine [] r.2 := by
  unfold require
  split_ifs with hkind
  · obtain ⟨t, ht, hisSet⟩ := hasKind_iff.mp hkind
    refine (onTable_fine hw fun t' ht' => ?_).bind fun _ ⟨hr, _⟩ => pure hr
    obtain rfl := some.inj (ht.symm.trans ht')
    exact hop t ht hisSet
  · exact pure hw

/-- **A canonical action** keeps the collections fine. -/
theorem exec_fine (hw : Fine [] w) {e : Action} (he : e.Allowed w) (hcanonical : e.Canonical w) :
    Ensures (w.exec gc e) fun r => Fine [] r.2 := by
  cases e with
  | create isSet fresh => exact pure (create_fine hw isSet he.1 he.2)
  | set i key val =>
    refine require_fine (fun _ => .table i) hw fun t ht hisSet => ?_
    obtain ⟨hi, hnz⟩ := hw.tables i t ht
    exact setEntry_safe hi hnz he.1 fun h => hcanonical h t ht hisSet
  | add i key =>
    refine require_fine (fun _ => .table i) hw fun t ht hisSet => ?_
    obtain ⟨hi, hnz⟩ := hw.tables i t ht
    exact setEntry_safe hi hnz he fun h => hcanonical h t ht hisSet
  | delete isSet i key =>
    refine require_fine .bool hw fun t ht _ => ?_
    obtain ⟨hi, hnz⟩ := hw.tables i t ht
    exact removeEntry_safe hi hnz he
  | has isSet i key =>
    refine require_fine .bool hw fun t ht _ => ?_
    obtain ⟨hi, hnz⟩ := hw.tables i t ht
    exact hasEntry_safe hi hnz he
  | clear isSet i =>
    exact require_fine (fun _ => .done) hw fun t ht _ => clear_safe (hw.tables i t ht).1
  | call op self size fresh =>
    rw [World.exec, World.require]
    split_ifs
    · exact call_fine hw op self size he.1 he.2
    · exact pure hw
  | opened fresh =>
    change Ensures (w.resume gc (.opened fresh)) _
    rw [resume]
    split
    · next o frames hframes =>
      have hroots : w.roots = roots { w with frames } := by
        simp [roots, held, hframes, Frame.held]
      rw [Action.Allowed, hroots] at he
      exact opened_fine (hw.pop hframes) o he.1 he.2
    · exact pure hw
  | answered present =>
    change Ensures (w.resume gc (.answered present)) _
    rw [resume]
    split
    · next hframes => exact answered_fine (hw.pop hframes) present _
    · exact pure hw
  | yielded value =>
    change Ensures (w.resume gc (.yielded value)) _
    rw [resume]
    split
    · next r frames hframes =>
      have hpop : Fine [] { w with frames } := hw.pop hframes
      refine yielded_fine ⟨hpop.tables, ?_⟩ r
      rintro v (_ | ⟨_, hv⟩)
      · exact he
      · exact hpop.live v hv
    · exact pure hw
  | exhausted =>
    change Ensures (w.resume gc .exhausted) _
    rw [resume]
    split
    · next hframes => exact exhausted_fine (hw.pop hframes) _
    · exact pure hw
  | throws =>
    refine pure ⟨hw.tables, fun v hv => hw.live v ?_⟩
    obtain ⟨f, hf, hv⟩ := mem_flatMap.mp hv
    exact mem_flatMap.mpr ⟨f, mem_of_mem_tail hf, hv⟩
  | forget i =>
    refine pure ⟨fun j t ht => hw.tables j t ?_, hw.live⟩
    rw [table?_eq_some] at ht ⊢
    by_cases hij : i = j
    · subst hij
      obtain ⟨_, hx⟩ := List.getElem?_eq_some_iff.mp ht
      rw [List.getElem_set_self] at hx
      cases hx
    · rwa [getElem?_set_ne hij] at ht
  | collect heap =>
    refine pure ⟨fun j t ht => ?_, fun v hv => ?_⟩
    · obtain ⟨hi, hnz⟩ := hw.tables j t ht
      exact ⟨hi.keeps (.of_collects he (roots_subset_roots ht)), hnz⟩
    · refine (hw.live v hv).keeps (.of_collects he (Subset.refl _)) fun o ho => ?_
      exact mem_append_right _ (mem_identities hv o ho)

theorem onTable_stores {key val : Value} {t : Table} (ht : w.table? i = some t)
    (hi : Inv w.heap t.map) (hkey : key.Live w.heap) (hnew : ¬Contains t.map key) :
    Ensures (w.onTable gc [] i () (setEntry key val)) fun r =>
      ∃ t', r.2.table? i = some t' ∧ key ∈ t'.map.keys := by
  rw [onTable, ht]
  have hset : Ensures (setEntry key val (gc.keeping (w.rootsBesides i ++ identities []))
      { heap := w.heap, map := t.map }) fun r => key ∈ r.2.map.keys := by
    refine (set_keys hi hkey).bind fun s' ⟨_, hkeys⟩ => pure ?_
    rw [hkeys, if_neg hnew]
    exact mem_append_right _ (mem_singleton_self key)
  refine hset.bind fun r hr => pure ⟨{ t with map := r.2.map }, ?_, hr⟩
  rw [table?_set _ ht, if_pos rfl]

theorem require_stores {key val : Value} {t : Table} (ht : w.table? i = some t)
    (hisSet : t.isSet = isSet) (hi : Inv w.heap t.map) (hkey : key.Live w.heap)
    (hnew : ¬Contains t.map key) : Ensures (w.require isSet i do
      let (_, w) ← w.onTable gc [] i () (setEntry key val)
      return (.table i, w)) fun r => ∃ t', r.2.table? i = some t' ∧ key ∈ t'.map.keys := by
  rw [require, if_pos (hasKind_iff.mpr ⟨t, ht, hisSet⟩)]
  exact (onTable_stores ht hi hkey hnew).bind fun _ hr => pure hr

/-- **An action that leaves no `-0` is canonical.** -/
theorem canonical_of_exec (hw : Fine [] w) {e : Action} (he : e.Allowed w) :
    Ensures (w.exec gc e) fun r =>
      (∀ i t, r.2.table? i = some t → negativeZero ∉ t.map.keys) → e.Canonical w := by
  cases e with
  | set i key val =>
    rintro r hrun hnone rfl t ht hisSet
    by_contra hnew
    obtain ⟨t', ht', hmem⟩ := require_stores ht hisSet (hw.tables i t ht).1 he.1 hnew r hrun
    exact hnone i t' ht' hmem
  | add i key =>
    rintro r hrun hnone rfl t ht hisSet
    by_contra hnew
    obtain ⟨t', ht', hmem⟩ := require_stores ht hisSet (hw.tables i t ht).1 he hnew r hrun
    exact hnone i t' ht' hmem
  | _ => exact fun _ _ _ => trivial

end Actions

/-- The keys among what a walk produces. -/
def Walker.keysOf (isSet : Bool) : Walker → Produced → List Value
  | .iterator .keys, .value v => [v]
  | .iterator .values, .value v => if isSet then [v] else []
  | .iterator .entries, .pair first second => if isSet then [first, second] else [first]
  | .forEach, .arguments first second => if isSet then [first, second] else [second]
  | _, _ => []

theorem keysOf_yields (walker : Walker) (isSet : Bool) (b : Value × Value) :
    ∀ v ∈ walker.keysOf isSet (walker.yields isSet b), v = b.1 := by
  intro v hv
  rcases walker with (_ | _ | _) | _ <;> cases isSet <;>
    simp_all [Walker.keysOf, Walker.yields]

theorem walkStep_keys {m : MapHeader} (hused : m.usedCount ≤ m.capacity) {walker : Walker}
    {isSet : Bool} {c c' : Cursor} {p : Produced}
    (h : walkStep walker isSet m c = (some p, c')) : walker.keysOf isSet p ⊆ m.keys := by
  cases hc : c.active with
  | false =>
    rw [walkStep_inactive walker isSet c hc] at h
    cases h
  | true =>
    rw [walkStep_spec hused walker isSet c hc] at h
    cases hn : nextIn Entry.binding c.nextIndex (m.slots.drop c.nextIndex) with
    | none =>
      rw [hn] at h
      cases h
    | some q =>
      obtain ⟨i, b⟩ := q
      rw [hn] at h
      obtain rfl := some.inj (Prod.mk.inj h).1
      obtain ⟨-, -, ⟨e, he, hb⟩, -⟩ := nextIn_drop hn
      obtain ⟨k, hk, rfl⟩ := map_eq_some_iff.mp hb
      intro v hv
      rw [keysOf_yields walker isSet _ v hv]
      exact mem_filterMap.mpr ⟨e, mem_of_getElem? he, hk⟩

section Runs

variable {gc : Collector} {heap : Heap} {es : List (Action × Reply)} {w : World}

abbrev CanonicalRun (gc : Collector) (heap : Heap) : List (Action × Reply) → World → Prop :=
  Run (fun w e w' => e.1.Canonical w ∧ Acts gc w e w') (.start heap)

theorem CanonicalRun.snoc {e : Action × Reply} {w' : World} (hrun : CanonicalRun gc heap es w)
    (hacts : Acts gc w e w') (hcanonical : e.1.Canonical w) : CanonicalRun gc heap (es ++ [e]) w' :=
  Run.snoc hrun ⟨hcanonical, hacts⟩

theorem run_fine (hrun : CanonicalRun gc heap es w) : Fine [] w := by
  have hstart : Fine [] (.start heap) := by
    refine ⟨fun i t ht => ?_, nofun⟩
    cases ht
  refine hrun.invariant (Fine []) hstart ?_
  rintro w₁ e w₂ hw ⟨hcanonical, hallowed, hexec⟩
  exact exec_fine hw hallowed hcanonical _ hexec

/-- **`-0` is never stored** while every action is canonical: no key of a collection is `-0`, and
no walk along one produces `-0` for a key. The next action leaves it so precisely if it is canonical
too. -/
theorem negativeZero_never_stored (hrun : CanonicalRun gc heap es w) :
    (∀ i t, w.table? i = some t → negativeZero ∉ t.map.keys ∧
      ∀ walker c p c', walkStep walker t.isSet t.map c = (some p, c') →
        negativeZero ∉ walker.keysOf t.isSet p) ∧
    ∀ e w', Acts gc w e w' →
      ((∀ i t, w'.table? i = some t → negativeZero ∉ t.map.keys) ↔ e.1.Canonical w) := by
  have hw := run_fine hrun
  refine ⟨fun i t ht => ?_, fun e w' ⟨hallowed, hexec⟩ => ⟨?_, fun hcanonical i t ht => ?_⟩⟩
  · obtain ⟨hi, hnz⟩ := hw.tables i t ht
    refine ⟨hnz, fun walker c p c' hstep hmem => hnz ?_⟩
    exact walkStep_keys hi.base.used_le hstep hmem
  · exact canonical_of_exec hw hallowed _ hexec
  · exact ((exec_fine hw hallowed hcanonical _ hexec).tables i t ht).2

end Runs

/-- The world after an action that came about. -/
def World.after (w : World) (e : Action) : World :=
  match w.exec idle e with
  | .ok r => r.2
  | .error _ => w

/-- A program with one `Set`, or one `Map`. -/
def oneTable (isSet : Bool) : World :=
  (World.start (twoObjects false)).after (.create isSet (twoObjects false, 0))

theorem oneTable_acts (isSet : Bool) :
    Acts idle (.start (twoObjects false)) (.create isSet (twoObjects false, 0), .table 0)
      (oneTable isSet) :=
  ⟨⟨.refl .., (by decide : 0 < 2)⟩, rfl⟩

def zeroSet : World := (oneTable true).after (.add 0 (.number 0))

/-- The same, after `-0` was added. -/
def zeroTwice : World := zeroSet.after (.add 0 negativeZero)

/-- Its union with another collection, before the keys of that are read. -/
def unionCalled : World := zeroTwice.after (.call .union 0 (some 1) (zeroTwice.heap, 1))

def unionOpened : World := unionCalled.after (.opened (unionCalled.heap, 1))

/-- The union, once `-0` was read. -/
def zeroUnion : World := unionOpened.after (.yielded negativeZero)

/-- The `Set` of a zero takes `-0` for it, and so does its union with a collection of `-0`. -/
theorem negativeZero_never_stored_union :
    (∀ i t, zeroUnion.table? i = some t → negativeZero ∉ t.map.keys) ∧
      zeroUnion.tables.length = 2 := by
  have hadd : Acts idle (oneTable true) (.add 0 (.number 0), .table 0) zeroSet := ⟨nofun, rfl⟩
  have htwice : Acts idle zeroSet (.add 0 negativeZero, .table 0) zeroTwice := ⟨nofun, rfl⟩
  have hcall : Acts idle zeroTwice
      (.call .union 0 (some 1) (zeroTwice.heap, 1), .pending) unionCalled :=
    ⟨⟨.refl .., (by decide : 1 < 2)⟩, rfl⟩
  have hopened : Acts idle unionCalled (.opened (unionCalled.heap, 1), .pending) unionOpened :=
    ⟨⟨.refl .., (by decide : 1 < 2)⟩, rfl⟩
  have hyielded : Acts idle unionOpened (.yielded negativeZero, .pending) zeroUnion :=
    ⟨nofun, rfl⟩
  have hzero : (Action.add 0 negativeZero).Canonical zeroSet := by
    rintro - _ ⟨rfl⟩ -
    exact ⟨.number 0, mem_singleton_self _, rfl⟩
  have hrun : CanonicalRun idle (twoObjects false) _ zeroUnion :=
    CanonicalRun.snoc (CanonicalRun.snoc (CanonicalRun.snoc (CanonicalRun.snoc
      (CanonicalRun.snoc (CanonicalRun.snoc .nil (oneTable_acts true) trivial) hadd nofun)
      htwice hzero) hcall trivial) hopened trivial) hyielded trivial
  exact ⟨fun i t ht => ((negativeZero_never_stored hrun).1 i t ht).1, rfl⟩

/-- `new Map().set(-0, 1)` and `new Set().add(-0)` store `-0`, and a walk produces it. -/
theorem negativeZero_stored :
    (∃ es w, Run (Acts idle) (.start (twoObjects false)) es w ∧ ∃ t, w.table? 0 = some t ∧
      t.isSet = false ∧ negativeZero ∈ t.map.keys ∧
      (walkStep (.iterator .keys) false t.map .start).1 = some (.value negativeZero)) ∧
    ∃ es w, Run (Acts idle) (.start (twoObjects false)) es w ∧ ∃ t, w.table? 0 = some t ∧
      t.isSet = true ∧ negativeZero ∈ t.map.keys ∧
      (walkStep (.iterator .values) true t.map .start).1 = some (.value negativeZero) := by
  have hset : Acts idle (oneTable false) (.set 0 negativeZero (.number 1), .table 0)
      ((oneTable false).after (.set 0 negativeZero (.number 1))) := ⟨⟨nofun, nofun⟩, rfl⟩
  have hadd : Acts idle (oneTable true) (.add 0 negativeZero, .table 0)
      ((oneTable true).after (.add 0 negativeZero)) := ⟨nofun, rfl⟩
  exact ⟨⟨_, _, (Run.nil.snoc (oneTable_acts false)).snoc hset, _, rfl, rfl,
      mem_singleton_self _, rfl⟩,
    ⟨_, _, (Run.nil.snoc (oneTable_acts true)).snoc hadd, _, rfl, rfl,
      mem_singleton_self _, rfl⟩⟩

end Bronze.Collections
