import Mathlib

/-!
# A doubly linked list, and the order it threads

Nodes with a link to the one before and the one after, and the two ends. `Threads` says that the
links run through a list of nodes in order. Taking a node out and putting one in front are then what
they are on the list, and so is moving a node to the front, which keeps a list of nodes by the time
they were last used.
-/

namespace Bronze.LinkedOrder

open List Option Function

variable {ν : Type*}

/-- The links of some nodes, and the two ends. -/
structure Links (ν : Type*) where
  prev : ν → Option ν
  next : ν → Option ν
  head : Option ν
  tail : Option ν

namespace Links

variable [DecidableEq ν]

/-- The node before is linked to the node after, or the list begins there. -/
def skipForward (L : Links ν) (s : ν) : Links ν :=
  match L.prev s with
  | some p => { L with next := update L.next p (L.next s) }
  | none => if L.head = some s then { L with head := L.next s } else L

/-- The node after is linked to the node before, or the list ends there. -/
def skipBackward (L : Links ν) (s : ν) : Links ν :=
  match L.next s with
  | some n => { L with prev := update L.prev n (L.prev s) }
  | none => if L.tail = some s then { L with tail := L.prev s } else L

def clear (L : Links ν) (s : ν) : Links ν :=
  { L with prev := update L.prev s none, next := update L.next s none }

def unlink (L : Links ν) (s : ν) : Links ν := ((L.skipForward s).skipBackward s).clear s

/-- The old head is linked to a new node. -/
def linkHead (L : Links ν) (s : ν) : Links ν :=
  match L.head with
  | some h => { L with prev := update L.prev h (some s) }
  | none => L

/-- The links of a node that comes to the front. -/
def place (L : Links ν) (s : ν) : Links ν :=
  { L with prev := update L.prev s none, next := update L.next s L.head }

/-- The ends of a list with a new head. -/
def moveEnds (L : Links ν) (s : ν) : Links ν :=
  { L with head := some s, tail := if L.tail = none then some s else L.tail }

def pushFront (L : Links ν) (s : ν) : Links ν := ((L.place s).linkHead s).moveEnds s

/-- A node is moved to the front. -/
def touch (L : Links ν) (s : ν) : Links ν :=
  if L.head = some s then L else (L.unlink s).pushFront s

end Links

/-- **The links run through the list.** -/
structure Threads (L : Links ν) (order : List ν) : Prop where
  nodup : order.Nodup
  head : L.head = order.head?
  tail : L.tail = order.getLast?
  next : ∀ l s r, order = l ++ s :: r → L.next s = r.head?
  prev : ∀ l s r, order = l ++ s :: r → L.prev s = l.getLast?

/-- A node moved to the front of a list. -/
def toFront [DecidableEq ν] (s : ν) (order : List ν) : List ν := s :: order.filter (· ≠ s)

section Lists

variable {l r : List ν} {s x : ν}

theorem split_cases {l' r' : List ν} (h : l ++ r = l' ++ x :: r') :
    (∃ m, l' = l ++ m ∧ r = m ++ x :: r') ∨ ∃ m, l = l' ++ x :: m ∧ r' = m ++ r := by
  rcases append_eq_append_iff.mp h with ⟨m, rfl, hr⟩ | ⟨m, rfl, hx⟩
  · exact Or.inl ⟨m, rfl, hr⟩
  · cases m with
    | nil => exact Or.inl ⟨[], by simp, by simpa using hx.symm⟩
    | cons y m =>
      obtain ⟨rfl, rfl⟩ := cons.inj hx
      exact Or.inr ⟨m, rfl, rfl⟩

variable [DecidableEq ν]

theorem toFront_append (h : (l ++ s :: r).Nodup) : toFront s (l ++ s :: r) = s :: (l ++ r) := by
  obtain ⟨hl, hr, hdisjoint⟩ := nodup_append'.mp h
  have hkeep : ∀ t : List ν, s ∉ t → t.filter (· ≠ s) = t := by
    intro t ht
    refine filter_eq_self.mpr fun y hy => decide_eq_true ?_
    rintro rfl
    exact ht hy
  rw [toFront, filter_append, hkeep l fun hs => hdisjoint hs mem_cons_self,
    filter_cons_of_neg (by simp), hkeep r (nodup_cons.mp hr).1]

theorem toFront_of_not_mem {order : List ν} (h : s ∉ order) : toFront s order = s :: order := by
  rw [toFront]
  congr 1
  refine filter_eq_self.mpr fun y hy => decide_eq_true ?_
  rintro rfl
  exact h hy

end Lists

section Unlink

variable [DecidableEq ν] (L : Links ν) (s : ν)

theorem skipForward_next (x : ν) :
    (L.skipForward s).next x = if L.prev s = some x then L.next s else L.next x := by
  rw [Links.skipForward]
  cases L.prev s with
  | none => split_ifs <;> simp_all
  | some p =>
    change update L.next p (L.next s) x = _
    rw [update_apply]
    simp [eq_comm]

theorem skipForward_head : (L.skipForward s).head =
    if L.prev s = none ∧ L.head = some s then L.next s else L.head := by
  rw [Links.skipForward]
  cases L.prev s with
  | none => split_ifs <;> simp_all
  | some p => simp

theorem skipForward_prev : (L.skipForward s).prev = L.prev := by
  rw [Links.skipForward]
  split
  · rfl
  · split_ifs <;> rfl

theorem skipForward_tail : (L.skipForward s).tail = L.tail := by
  rw [Links.skipForward]
  split
  · rfl
  · split_ifs <;> rfl

theorem skipBackward_prev (x : ν) :
    (L.skipBackward s).prev x = if L.next s = some x then L.prev s else L.prev x := by
  rw [Links.skipBackward]
  cases L.next s with
  | none => split_ifs <;> simp_all
  | some n =>
    change update L.prev n (L.prev s) x = _
    rw [update_apply]
    simp [eq_comm]

theorem skipBackward_tail : (L.skipBackward s).tail =
    if L.next s = none ∧ L.tail = some s then L.prev s else L.tail := by
  rw [Links.skipBackward]
  cases L.next s with
  | none => split_ifs <;> simp_all
  | some n => simp

theorem skipBackward_next : (L.skipBackward s).next = L.next := by
  rw [Links.skipBackward]
  split
  · rfl
  · split_ifs <;> rfl

theorem skipBackward_head : (L.skipBackward s).head = L.head := by
  rw [Links.skipBackward]
  split
  · rfl
  · split_ifs <;> rfl

variable {L s}

theorem unlink_next (x : ν) : (L.unlink s).next x =
    if x = s then none else if L.prev s = some x then L.next s else L.next x := by
  change update ((L.skipForward s).skipBackward s).next s none x = _
  rw [update_apply, skipBackward_next, skipForward_next]

theorem unlink_prev (hs : L.prev s ≠ some s) (x : ν) : (L.unlink s).prev x =
    if x = s then none else if L.next s = some x then L.prev s else L.prev x := by
  change update ((L.skipForward s).skipBackward s).prev s none x = _
  rw [update_apply, skipBackward_prev, skipForward_prev, skipForward_next, if_neg hs]

theorem unlink_head : (L.unlink s).head =
    if L.prev s = none ∧ L.head = some s then L.next s else L.head := by
  change ((L.skipForward s).skipBackward s).head = _
  rw [skipBackward_head, skipForward_head]

theorem unlink_tail (hs : L.prev s ≠ some s) : (L.unlink s).tail =
    if L.next s = none ∧ L.tail = some s then L.prev s else L.tail := by
  change ((L.skipForward s).skipBackward s).tail = _
  rw [skipBackward_tail, skipForward_next, if_neg hs, skipForward_prev, skipForward_tail]

end Unlink

section PushFront

variable [DecidableEq ν] (L : Links ν) (s : ν)

theorem linkHead_prev (x : ν) :
    (L.linkHead s).prev x = if L.head = some x then some s else L.prev x := by
  rw [Links.linkHead]
  cases L.head with
  | none => simp
  | some h =>
    change update L.prev h (some s) x = _
    rw [update_apply]
    simp [eq_comm]

theorem linkHead_next : (L.linkHead s).next = L.next := by
  rw [Links.linkHead]
  split <;> rfl

theorem linkHead_tail : (L.linkHead s).tail = L.tail := by
  rw [Links.linkHead]
  split <;> rfl

variable {L s}

theorem pushFront_prev (x : ν) : (L.pushFront s).prev x =
    if L.head = some x then some s else if x = s then none else L.prev x := by
  change ((L.place s).linkHead s).prev x = _
  rw [linkHead_prev]
  change (if L.head = some x then some s else update L.prev s none x) = _
  rw [update_apply]

theorem pushFront_next (x : ν) : (L.pushFront s).next x = if x = s then L.head else L.next x := by
  change ((L.place s).linkHead s).next x = _
  rw [linkHead_next]
  exact update_apply L.next s L.head x

theorem pushFront_tail : (L.pushFront s).tail = if L.tail = none then some s else L.tail := by
  change (if ((L.place s).linkHead s).tail = none then some s
    else ((L.place s).linkHead s).tail) = _
  rw [linkHead_tail]
  rfl

end PushFront

/-! ## The links and the list -/

section Threads

variable {L : Links ν} {l r order : List ν} {s x : ν}

theorem not_mem_of_nodup (h : (l ++ s :: r).Nodup) : s ∉ l ∧ s ∉ r := by
  obtain ⟨-, hr, hdisjoint⟩ := nodup_append'.mp h
  exact ⟨fun hs => hdisjoint hs mem_cons_self, (nodup_cons.mp hr).1⟩

theorem Threads.prev_ne (h : Threads L (l ++ s :: r)) : L.prev s ≠ some s := by
  rw [h.prev l s r rfl]
  intro hlast
  exact (not_mem_of_nodup h.nodup).1 (mem_of_getLast? hlast)

variable [DecidableEq ν]

/-- **Taking a node out** of the links is taking it out of the list. -/
theorem Threads.unlink (h : Threads L (l ++ s :: r)) : Threads (L.unlink s) (l ++ r) := by
  have hprev := h.prev l s r rfl
  have hnext := h.next l s r rfl
  have hne := h.prev_ne
  obtain ⟨hsl, hsr⟩ := not_mem_of_nodup h.nodup
  have hnodup : (l ++ r).Nodup :=
    h.nodup.sublist (sublist_append_right [s] r |>.append_left l)
  refine ⟨hnodup, ?_, ?_, ?_, ?_⟩
  · rw [unlink_head, hprev, hnext, h.head]
    cases l with
    | nil => simp
    | cons a l => simp
  · rw [unlink_tail hne, hprev, hnext, h.tail]
    cases r with
    | nil => simp
    | cons a r => simp [getLast?_append]
  · intro l' x r' hsplit
    have hx : x ≠ s := by
      rintro rfl
      have hmem : x ∈ l ++ r := hsplit ▸ mem_append_right _ mem_cons_self
      exact (mem_append.mp hmem).elim hsl hsr
    rw [unlink_next, if_neg hx, hprev, hnext]
    rcases split_cases hsplit with ⟨m, rfl, rfl⟩ | ⟨m, rfl, rfl⟩
    · -- a node after the one taken out
      have hout : l.getLast? ≠ some x := by
        intro hlast
        refine disjoint_of_nodup_append hnodup (mem_of_getLast? hlast) ?_
        exact mem_append_right _ mem_cons_self
      rw [if_neg hout, h.next (l ++ s :: m) x r' (by simp)]
    · -- a node before it: the last of them is linked past it
      have hold := h.next l' x (m ++ s :: r) (by simp)
      cases m with
      | nil => simp
      | cons y m =>
        have hout : (l' ++ x :: y :: m).getLast? ≠ some x := by
          intro hlast
          have hlast' : (y :: m).getLast? = some x := by
            rw [← hlast, append_cons, getLast?_append_of_ne_nil _ (by simp)]
          have hnd := (nodup_append'.mp (nodup_append'.mp hnodup).1).2.1
          exact (nodup_cons.mp hnd).1 (mem_of_getLast? hlast')
        rw [if_neg hout, hold]
        rfl
  · intro l' x r' hsplit
    have hx : x ≠ s := by
      rintro rfl
      have hmem : x ∈ l ++ r := hsplit ▸ mem_append_right _ mem_cons_self
      exact (mem_append.mp hmem).elim hsl hsr
    rw [unlink_prev hne, if_neg hx, hprev, hnext]
    rcases split_cases hsplit with ⟨m, rfl, rfl⟩ | ⟨m, rfl, rfl⟩
    · -- a node after the one taken out: the first of them is linked past it
      have hold := h.prev (l ++ s :: m) x r' (by simp)
      cases m with
      | nil => simp
      | cons y m =>
        have hout : ((y :: m) ++ x :: r').head? ≠ some x := by
          intro hhead
          have hy : y = x := some.inj hhead
          subst hy
          have hnd := (nodup_append'.mp hnodup).2.1
          exact (nodup_cons.mp hnd).1 (mem_append_right _ mem_cons_self)
        rw [if_neg hout, hold]
        simp [getLast?_append]
    · have hout : r.head? ≠ some x := by
        intro hhead
        refine disjoint_of_nodup_append hnodup ?_ (mem_of_mem_head? hhead)
        exact mem_append_right _ mem_cons_self
      rw [if_neg hout, h.prev l' x (m ++ s :: r) (by simp)]

variable (h : Threads L order)

include h

/-- **Putting a node in front** of the links is putting it in front of the list. -/
theorem Threads.pushFront (hs : s ∉ order) : Threads (L.pushFront s) (s :: order) := by
  refine ⟨nodup_cons.mpr ⟨hs, h.nodup⟩, rfl, ?_, ?_, ?_⟩
  · rw [pushFront_tail, h.tail]
    cases order with
    | nil => rfl
    | cons a order => simp [getLast?_cons]
  · intro l x r hsplit
    rw [pushFront_next, h.head]
    cases l with
    | nil =>
      obtain ⟨rfl, rfl⟩ := cons.inj hsplit
      exact if_pos rfl
    | cons a l =>
      obtain ⟨rfl, rfl⟩ := cons.inj hsplit
      have hx : x ≠ s := by
        rintro rfl
        exact hs (mem_append_right _ mem_cons_self)
      rw [if_neg hx, h.next l x r rfl]
  · intro l x r hsplit
    rw [pushFront_prev, h.head]
    cases l with
    | nil =>
      obtain ⟨rfl, rfl⟩ := cons.inj hsplit
      have hout : order.head? ≠ some s := fun hhead => hs (mem_of_mem_head? hhead)
      rw [if_neg hout, if_pos rfl]
      rfl
    | cons a l =>
      obtain ⟨rfl, rfl⟩ := cons.inj hsplit
      have hx : x ≠ s := by
        rintro rfl
        exact hs (mem_append_right _ mem_cons_self)
      cases l with
      | nil => simp
      | cons b l =>
        have hout : ((b :: l).append (x :: r)).head? ≠ some x := by
          intro hhead
          have hb : b = x := some.inj hhead
          subst hb
          exact (nodup_cons.mp h.nodup).1 (mem_append_right _ mem_cons_self)
        rw [if_neg hout, if_neg hx, h.prev (b :: l) x r rfl]
        simp [getLast?_cons]

/-- **Moving a node to the front** of the links is moving it to the front of the list. -/
theorem Threads.touch (hs : s ∈ order) : Threads (L.touch s) (toFront s order) := by
  obtain ⟨l, r, rfl⟩ := append_of_mem hs
  have hnodup := h.nodup
  rw [toFront_append hnodup, Links.touch, h.head]
  split_ifs with hhead
  · -- it is in front already
    cases l with
    | nil => exact h
    | cons a l =>
      obtain rfl : a = s := some.inj hhead
      exact absurd mem_cons_self (not_mem_of_nodup hnodup).1
  · obtain ⟨hsl, hsr⟩ := not_mem_of_nodup hnodup
    exact h.unlink.pushFront fun hmem => (mem_append.mp hmem).elim hsl hsr

theorem Threads.unlink_tail (hs : L.tail = some s) :
    order = order.dropLast ++ [s] ∧ Threads (L.unlink s) order.dropLast := by
  have hlast : order.getLast? = some s := by rw [← h.tail, hs]
  have horder : order = order.dropLast ++ [s] := (dropLast_append_getLast? s hlast).symm
  refine ⟨horder, ?_⟩
  rw [horder] at h
  have hunlink := h.unlink
  rwa [append_nil] at hunlink

end Threads

end Bronze.LinkedOrder
