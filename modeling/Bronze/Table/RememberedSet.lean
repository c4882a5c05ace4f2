import Mathlib

/-!
# Remembered sets

Slots that hold words, some of them young. A pass that visits only the slots on a set does the
work of a pass over all slots, as long as every slot with a young word is on the set.

## Main definitions

* `Slots`: a store whose slots are read and modified one at a time
* `Covers`: the slots that hold young words are on the set
* `Slots.visitMinor`: the pass over the set, and what the set is afterwards

## Main results

* `Slots.get_visitMinor`, `Slots.covers_visitMinor`: the store and the set after the pass
-/

namespace Bronze.RememberedSet

variable {σ ι ω : Type*}

/-- `add` of the two sets. -/
def add [DecidableEq ι] (set : List ι) (i : ι) : List ι :=
  if set.getLast? = some i then set else set ++ [i]

@[simp] theorem mem_add [DecidableEq ι] {set : List ι} {i j : ι} :
    j ∈ add set i ↔ j ∈ set ∨ j = i := by
  unfold add
  split
  next h => exact ⟨.inl, fun hj => hj.elim id fun e => e ▸ List.mem_of_getLast? h⟩
  next => simp

/-- A store with slots. -/
structure Slots (σ ι ω : Type*) [DecidableEq ι] where
  get : σ → ι → Option ω
  modify : ι → (ω → ω) → σ → σ
  get_modify : ∀ i f s j, get (modify i f s) j = if j = i then (get s j).map f else get s j

/-- Of the slots in `P`, those with a young word are on the set. -/
def Covers (P : ι → Prop) (get : ι → Option ω) (young : ω → Bool) (set : List ι) : Prop :=
  ∀ i v, P i → get i = some v → young v → i ∈ set

namespace Slots

variable [LinearOrder ι] (S : Slots σ ι ω)

/-- Sorted and without repeats. -/
def normalize (set : List ι) : List ι := (set.mergeSort (· ≤ ·)).dedup

omit S in
@[simp] theorem mem_normalize {set : List ι} {i : ι} : i ∈ normalize set ↔ i ∈ set := by
  simp [normalize]

omit S in
theorem normalize_pairwise (set : List ι) : (normalize set).Pairwise (· < ·) := by
  have hle : (normalize set).Pairwise (· ≤ ·) :=
    (List.pairwise_mergeSort' (· ≤ ·) set).sublist (List.dedup_sublist _)
  exact hle.imp₂ (fun _ _ hle hne => lt_of_le_of_ne hle hne) (List.nodup_dedup _)

/-- `visit` is done to the slots of a list, in its order. -/
def visitAll (visit : ω → ω) (l : List ι) (s : σ) : σ := l.foldl (fun s i => S.modify i visit s) s

/-- A minor pass: every slot on the set once, keeping those still young. -/
def visitMinor (visit : ω → ω) (young : ω → Bool) (set : List ι) (s : σ) : σ × List ι :=
  let set := normalize set
  let s := S.visitAll visit set s
  (s, set.filter fun i => (S.get s i).any young)

variable {visit : ω → ω} {young young' : ω → Bool} {set l : List ι} {s : σ} {P : ι → Prop} {i : ι}

theorem visitAll_keeps (Q : ω → Prop) (hQ : ∀ v, Q v → Q (visit v)) (h : ∀ v ∈ S.get s i, Q v) :
    ∀ v ∈ S.get (S.visitAll visit l s) i, Q v := by
  induction l generalizing s with
  | nil => exact h
  | cons j l ih =>
    refine ih fun v hv => ?_
    rw [S.get_modify] at hv
    split at hv
    next hij =>
      obtain ⟨w, hw, rfl⟩ := Option.map_eq_some_iff.mp hv
      exact hQ w (h w hw)
    next => exact h v hv

/-- What visits never make young is still covered after them. -/
theorem covers_visitAll (hcov : Covers P (S.get s) young set)
    (hold : ∀ v, ¬young v → ¬young (visit v)) :
    Covers P (S.get (S.visitAll visit l s)) young set := by
  intro i v hi hv hy
  by_contra hset
  exact S.visitAll_keeps (¬young ·) hold (fun w hw hyw => hset (hcov i w hi hw hyw)) v hv hy

theorem get_visitAll_of_not_mem (hi : i ∉ l) : S.get (S.visitAll visit l s) i = S.get s i := by
  induction l generalizing s with
  | nil => rfl
  | cons j l ih =>
    rw [List.mem_cons, not_or] at hi
    exact (ih hi.2).trans ((S.get_modify ..).trans (if_neg hi.1))

theorem get_visitAll (hl : l.Nodup) :
    S.get (S.visitAll visit l s) i = if i ∈ l then (S.get s i).map visit else S.get s i := by
  induction l generalizing s with
  | nil => rfl
  | cons j l ih =>
    obtain ⟨hj, hl⟩ := List.nodup_cons.mp hl
    change S.get (S.visitAll visit l (S.modify j visit s)) i = _
    rw [ih hl, S.get_modify]
    by_cases hij : i = j
    · subst hij
      simp [hj]
    · simp [hij]

/-- **A pass over the set visits every slot of `P`**, if the set covers them. -/
theorem get_visitMinor (young' : ω → Bool) (hcov : Covers P (S.get s) young set)
    (hold : ∀ v, ¬young v → visit v = v) (hi : P i) :
    S.get (S.visitMinor visit young' set s).1 i = (S.get s i).map visit := by
  simp only [visitMinor, S.get_visitAll ((normalize_pairwise set).imp ne_of_lt), mem_normalize]
  split
  next => rfl
  next hset =>
    cases hv : S.get s i with
    | none => rfl
    | some v => rw [Option.map_some, hold v fun hy => hset (hcov i v hi hv hy)]

theorem get_visitMinor_of_not_mem (young' : ω → Bool) (hi : i ∉ set) :
    S.get (S.visitMinor visit young' set s).1 i = S.get s i :=
  S.get_visitAll_of_not_mem (mt mem_normalize.mp hi)

theorem mem_visitMinor : i ∈ (S.visitMinor visit young' set s).2 ↔
    i ∈ set ∧ (S.get (S.visitMinor visit young' set s).1 i).any young' := by
  simp [visitMinor]

/-- **The set covers the slots after a pass**, which makes no old word young. -/
theorem covers_visitMinor (hcov : Covers P (S.get s) young set)
    (hold : ∀ v, ¬young v → visit v = v ∧ ¬young' v) :
    Covers P (S.get (S.visitMinor visit young' set s).1) young'
      (S.visitMinor visit young' set s).2 := by
  intro i v hi hv hy
  refine S.mem_visitMinor.mpr ⟨by_contra fun hset => ?_, by rw [hv]; exact hy⟩
  rw [S.get_visitMinor_of_not_mem young' hset] at hv
  exact (hold v fun hv' => hset (hcov i v hi hv hv')).2 hy

end Slots

end Bronze.RememberedSet
