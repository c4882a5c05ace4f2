import Mathlib

/-!
# Lists in insertion order, and the slots that hold them

A keyed collection that remembers the order of insertion, as a list of its elements, and the block
of slots such a list is kept in: a slot holds an element or nothing, and the list is what the slots
hold, in order. An element is taken out by emptying its slot.

`f` says what a slot holds and `key` what an element goes by. As long as no key is held twice, to
write the slot of a key is to write every slot with that key, which is how the operations on slots
are related to the operations on the list.

## Main results

* `modify_eq_map`, `set_eq_map`: a write at one slot is a write by key
* `filterMap_rewrite`, `filterMap_drop_key`: what a write by key does to the list
-/

namespace Bronze.OrderedList

open List Option

variable {ε α κ : Type*}

section List

variable [DecidableEq κ] (key : α → κ)

/-- Rewrites the element that goes by the key of `new`, and appends `new` where there is none. -/
def put (rewrite : α → α) (new : α) (l : List α) : List α :=
  if key new ∈ l.map key then l.map fun a => if key a = key new then rewrite a else a
  else l ++ [new]

/-- Takes out the element that goes by `k`. -/
def erase (k : κ) (l : List α) : List α := l.filter fun a => key a ≠ k

variable {key} {rewrite : α → α} {new : α} {k : κ} {l : List α}

theorem put_of_mem (h : key new ∈ l.map key) :
    put key rewrite new l = l.map fun a => if key a = key new then rewrite a else a :=
  if_pos h

theorem put_of_not_mem (h : key new ∉ l.map key) : put key rewrite new l = l ++ [new] :=
  if_neg h

theorem erase_of_not_mem (h : k ∉ l.map key) : erase key k l = l := by
  refine filter_eq_self.mpr fun a ha => decide_eq_true ?_
  rintro rfl
  exact h (mem_map_of_mem ha)

end List

section Slots

variable {f : ε → Option α} {key : α → κ} {l : List ε} {i : Nat} {e : ε} {k : κ}

/-- The key a slot is held under. -/
def keyOf (f : ε → Option α) (key : α → κ) (e : ε) : Option κ := (f e).map key

theorem filterMap_keyOf (l : List ε) : l.filterMap (keyOf f key) = (l.filterMap f).map key := by
  rw [map_filterMap]
  rfl

theorem index_unique (hnd : ((l.filterMap f).map key).Nodup) {j : Nat} {e' : ε}
    (hi : l[i]? = some e) (hj : l[j]? = some e') (he : keyOf f key e = some k)
    (he' : keyOf f key e' = some k) : i = j := by
  rw [← filterMap_keyOf] at hnd
  induction l generalizing i j with
  | nil => simp at hi
  | cons x l ih =>
    have htail : (l.filterMap (keyOf f key)).Nodup := by
      rw [filterMap_cons] at hnd
      cases hx : keyOf f key x with
      | none => rwa [hx] at hnd
      | some k' =>
        rw [hx] at hnd
        exact (nodup_cons.mp hnd).2
    -- were `x` held under `k` there would be no other
    have hhead : ∀ {n : Nat} {y : ε}, keyOf f key x = some k → l[n]? = some y →
        keyOf f key y ≠ some k := by
      intro n y hx hy hk
      rw [filterMap_cons, hx] at hnd
      exact (nodup_cons.mp hnd).1 (mem_filterMap.mpr ⟨y, mem_of_getElem? hy, hk⟩)
    cases i with
    | zero =>
      obtain rfl := some.inj hi
      cases j with
      | zero => rfl
      | succ j => exact absurd he' (hhead he hj)
    | succ i =>
      cases j with
      | zero =>
        obtain rfl := some.inj hj
        exact absurd he (hhead he' hi)
      | succ j => rw [ih htail hi hj]

variable [DecidableEq κ]

/-- **A rewrite of the slot of a key is a rewrite by key.** -/
theorem modify_eq_map (hnd : ((l.filterMap f).map key).Nodup) (hi : l[i]? = some e)
    (he : keyOf f key e = some k) (g : ε → ε) :
    l.modify i g = l.map fun e => if keyOf f key e = some k then g e else e := by
  apply ext_getElem?
  intro j
  rw [getElem?_modify, getElem?_map]
  cases hj : l[j]? with
  | none => rfl
  | some e' =>
    by_cases hij : i = j
    · subst hij
      obtain rfl := some.inj (hi.symm.trans hj)
      simp [he]
    · have hne : keyOf f key e' ≠ some k := fun he' => hij (index_unique hnd hi hj he he')
      simp [hij, hne]

/-- **To empty the slot of a key is to empty by key.** -/
theorem set_eq_map (hnd : ((l.filterMap f).map key).Nodup) (hi : l[i]? = some e)
    (he : keyOf f key e = some k) (e₀ : ε) :
    l.set i e₀ = l.map fun e => if keyOf f key e = some k then e₀ else e := by
  rw [← modify_eq_map hnd hi he fun _ => e₀, modify_eq_set_getElem?]
  simp [hi]

theorem filterMap_rewrite {g : ε → ε} {rewrite : α → α} (l : List ε)
    (hg : ∀ e a, f e = some a → f (g e) = some (rewrite a)) :
    (l.map fun e => if keyOf f key e = some k then g e else e).filterMap f =
      (l.filterMap f).map fun a => if key a = k then rewrite a else a := by
  rw [filterMap_map, map_filterMap]
  apply filterMap_congr
  intro e _
  cases hf : f e with
  | none => simp [keyOf, hf]
  | some a =>
    by_cases hk : key a = k
    · simp [keyOf, hf, hk, hg e a hf]
    · simp [keyOf, hf, hk]

theorem filterMap_drop_key {e₀ : ε} (l : List ε) (h₀ : f e₀ = none) :
    (l.map fun e => if keyOf f key e = some k then e₀ else e).filterMap f =
      erase key k (l.filterMap f) := by
  rw [erase, filter_filterMap, filterMap_map]
  apply filterMap_congr
  intro e _
  cases hf : f e with
  | none => simp [keyOf, hf]
  | some a =>
    by_cases hk : key a = k
    · simp [keyOf, hf, hk, h₀, Option.filter]
    · simp [keyOf, hf, hk, Option.filter]

end Slots

section Walk

variable (f : ε → Option α)

/-- The first slot of `l` that holds something, with slots counted from `i` on. -/
def nextIn : Nat → List ε → Option (Nat × α)
  | _, [] => none
  | i, e :: l =>
    match f e with
    | some a => some (i, a)
    | none => nextIn (i + 1) l

variable {f} {i j : Nat} {a : α} {l : List ε}

theorem nextIn_eq_none : nextIn f i l = none ↔ l.filterMap f = [] := by
  induction l generalizing i with
  | nil => simp [nextIn]
  | cons e l ih =>
    rw [nextIn, filterMap_cons]
    cases hf : f e with
    | none => simpa [hf] using ih
    | some a => simp

/-- **What lies between `i` and the next slot is empty.** -/
theorem nextIn_eq_some (h : nextIn f i l = some (j, a)) :
    ∃ l₁ e l₂, l = l₁ ++ e :: l₂ ∧ j = i + l₁.length ∧ l₁.filterMap f = [] ∧ f e = some a := by
  induction l generalizing i with
  | nil => cases h
  | cons e l ih =>
    rw [nextIn] at h
    cases hf : f e with
    | some b =>
      rw [hf] at h
      obtain ⟨rfl, rfl⟩ := Prod.mk.inj (some.inj h)
      exact ⟨[], e, l, rfl, rfl, rfl, hf⟩
    | none =>
      rw [hf] at h
      obtain ⟨l₁, e', l₂, rfl, rfl, hempty, he'⟩ := ih h
      refine ⟨e :: l₁, e', l₂, rfl, by simp; omega, ?_, he'⟩
      simp [hf, hempty]

/-- **A step along the slots** takes the head off what lies ahead, and adds it to what is
passed. -/
theorem nextIn_drop (h : nextIn f i (l.drop i) = some (j, a)) :
    i ≤ j ∧ j < l.length ∧ (∃ e, l[j]? = some e ∧ f e = some a) ∧
      (∀ n, i ≤ n → n < j → ∃ e, l[n]? = some e ∧ f e = none) ∧
      (l.take (j + 1)).filterMap f = (l.take i).filterMap f ++ [a] ∧
      (l.drop i).filterMap f = a :: (l.drop (j + 1)).filterMap f := by
  obtain ⟨l₁, e, l₂, hl, rfl, hempty, he⟩ := nextIn_eq_some h
  have hget : ∀ n, l[i + n]? = (l₁ ++ e :: l₂)[n]? := by
    intro n
    rw [← hl, getElem?_drop]
  refine ⟨Nat.le_add_right i _, ?_, ⟨e, by rw [hget]; simp, he⟩, ?_, ?_, ?_⟩
  · have := congrArg length hl
    simp only [length_drop, length_append, length_cons] at this
    omega
  · intro n hin hnj
    obtain ⟨d, rfl⟩ := Nat.exists_eq_add_of_le hin
    have hd : d < l₁.length := by omega
    refine ⟨l₁[d], by rw [hget, getElem?_append_left hd, getElem?_eq_getElem hd], ?_⟩
    exact filterMap_eq_nil_iff.mp hempty _ (getElem_mem hd)
  · have htake : l.take (i + l₁.length + 1) = l.take i ++ (l₁ ++ [e]) := by
      rw [Nat.add_assoc, take_add, hl]
      simp [take_append, take_of_length_le]
    rw [htake]
    simp [hempty, he]
  · have hdrop : l.drop (i + l₁.length + 1) = l₂ := by
      rw [Nat.add_assoc, ← drop_drop, hl]
      simp [drop_append]
    rw [hdrop, hl]
    simp [hempty, he]

end Walk

end Bronze.OrderedList
