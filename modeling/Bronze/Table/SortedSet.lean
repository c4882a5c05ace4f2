import Mathlib

/-!
# Sets as sorted lists

A finite set of a linear order, as the list of its elements in strictly increasing order. The
operations go over their lists once, from the front.

## Main results

* `SortedSet.ext`: a set is determined by its elements
* `SortedSet.mem_unionInto`, `SortedSet.unionInto_grew`: the union, and when it is another set
* `SortedSet.mem_insertInto`, `SortedSet.insertInto_grew`: the same for one element
-/

namespace Bronze

open List

/-- A strictly increasing list. -/
def SortedSet (α : Type*) [LinearOrder α] := { l : List α // l.Pairwise (· < ·) }

namespace SortedSet

variable {α : Type*} [LinearOrder α]

instance : Membership α (SortedSet α) := ⟨fun s a => a ∈ s.1⟩

instance : DecidableEq (SortedSet α) := inferInstanceAs (DecidableEq { _l : List α // _ })

theorem mem_def {a : α} {s : SortedSet α} : a ∈ s ↔ a ∈ s.1 := Iff.rfl

def empty : SortedSet α := ⟨[], .nil⟩

def singleton (a : α) : SortedSet α := ⟨[a], pairwise_singleton _ a⟩

@[simp] theorem mem_singleton {a b : α} : a ∈ singleton b ↔ a = b := List.mem_singleton

theorem ext {s t : SortedSet α} (h : ∀ a, a ∈ s ↔ a ∈ t) : s = t := by
  have hnodup : ∀ u : SortedSet α, u.1.Nodup := fun u => u.2.imp fun hlt => ne_of_lt hlt
  have hperm : s.1.Perm t.1 := (perm_ext_iff_of_nodup (hnodup s) (hnodup t)).mpr h
  refine Subtype.ext (hperm.eq_of_pairwise ?_ s.2 t.2)
  intro a b _ _ hab hba
  exact absurd hab (not_lt_of_gt hba)

def includes : List α → List α → Bool
  | _, [] => true
  | [], _ :: _ => false
  | a :: as, b :: bs =>
    if b < a then false else if a < b then includes as (b :: bs) else includes as bs

variable {l l' : List α}

theorem includes_iff (hl : l.Pairwise (· < ·)) (hl' : l'.Pairwise (· < ·)) :
    includes l l' = true ↔ ∀ b ∈ l', b ∈ l := by
  fun_induction includes l l' with
  | case1 => simp
  | case2 b bs =>
    refine iff_of_false Bool.false_ne_true fun hall => ?_
    exact absurd (hall b (mem_cons_self ..)) not_mem_nil
  | case3 a as b bs hlt =>
    -- everything in the first list is above `b`
    refine iff_of_false Bool.false_ne_true fun hall => ?_
    rcases mem_cons.mp (hall b (mem_cons_self ..)) with heq | hmem
    · exact absurd hlt (heq ▸ lt_irrefl _)
    · exact absurd (lt_trans hlt ((pairwise_cons.mp hl).1 b hmem)) (lt_irrefl _)
  | case4 a as b bs hle hlt ih =>
    rw [ih (pairwise_cons.mp hl).2 hl']
    have hne : ∀ c ∈ b :: bs, c ≠ a := by
      intro c hc
      rcases mem_cons.mp hc with rfl | hc
      · exact ne_of_gt hlt
      · exact ne_of_gt (lt_trans hlt ((pairwise_cons.mp hl').1 c hc))
    refine forall₂_congr fun c hc => ?_
    rw [mem_cons, or_iff_right (hne c hc)]
  | case5 a as b bs hle hge ih =>
    obtain rfl : a = b := le_antisymm (not_lt.mp hle) (not_lt.mp hge)
    rw [ih (pairwise_cons.mp hl).2 (pairwise_cons.mp hl').2, forall_mem_cons,
      and_iff_right (mem_cons_self ..)]
    refine forall₂_congr fun c hc => ?_
    have hlt := (pairwise_cons.mp hl').1 c hc
    rw [mem_cons, or_iff_right (ne_of_gt hlt)]

def merge : List α → List α → List α
  | [], l' => l'
  | l, [] => l
  | a :: as, b :: bs =>
    if b < a then b :: merge (a :: as) bs
    else if a < b then a :: merge as (b :: bs)
    else a :: merge as bs

theorem mem_merge {c : α} : c ∈ merge l l' ↔ c ∈ l ∨ c ∈ l' := by
  fun_induction merge l l' with
  | case1 => simp
  | case2 => simp
  | case3 a as b bs hlt ih =>
    rw [mem_cons, ih, mem_cons (l := bs)]
    exact or_left_comm
  | case4 a as b bs hle hlt ih =>
    rw [mem_cons, ih, mem_cons (l := as), or_assoc]
  | case5 a as b bs hle hge ih =>
    obtain rfl : a = b := le_antisymm (not_lt.mp hle) (not_lt.mp hge)
    rw [mem_cons, mem_cons, mem_cons]
    tauto

theorem merge_pairwise (hl : l.Pairwise (· < ·)) (hl' : l'.Pairwise (· < ·)) :
    (merge l l').Pairwise (· < ·) := by
  fun_induction merge l l' with
  | case1 => exact hl'
  | case2 => exact hl
  | case3 a as b bs hlt ih =>
    obtain ⟨hb, hbs⟩ := pairwise_cons.mp hl'
    refine pairwise_cons.mpr ⟨fun c hc => ?_, ih hl hbs⟩
    rcases mem_merge.mp hc with hc | hc
    · rcases mem_cons.mp hc with rfl | hc
      · exact hlt
      · exact lt_trans hlt ((pairwise_cons.mp hl).1 c hc)
    · exact hb c hc
  | case4 a as b bs hle hlt ih =>
    obtain ⟨ha, has⟩ := pairwise_cons.mp hl
    refine pairwise_cons.mpr ⟨fun c hc => ?_, ih has hl'⟩
    rcases mem_merge.mp hc with hc | hc
    · exact ha c hc
    · rcases mem_cons.mp hc with rfl | hc
      · exact hlt
      · exact lt_trans hlt ((pairwise_cons.mp hl').1 c hc)
  | case5 a as b bs hle hge ih =>
    obtain ⟨ha, has⟩ := pairwise_cons.mp hl
    obtain ⟨hb, hbs⟩ := pairwise_cons.mp hl'
    obtain rfl : a = b := le_antisymm (not_lt.mp hle) (not_lt.mp hge)
    refine pairwise_cons.mpr ⟨fun c hc => ?_, ih has hbs⟩
    rcases mem_merge.mp hc with hc | hc
    · exact ha c hc
    · exact hb c hc

/-- `unionInto`: the set with every element of `from_`, and whether it grew. -/
def unionInto (into from_ : SortedSet α) : SortedSet α × Bool :=
  if from_.1 = [] then (into, false)
  else if into.1 = [] then (from_, true)
  else if includes into.1 from_.1 then (into, false)
  else (⟨merge into.1 from_.1, merge_pairwise into.2 from_.2⟩, true)

section Union

variable {s t : SortedSet α}

theorem mem_unionInto {a : α} : a ∈ (s.unionInto t).1 ↔ a ∈ s ∨ a ∈ t := by
  unfold unionInto
  split_ifs with hfrom hinto hincludes
  · rw [mem_def (s := t), hfrom]
    simp
  · rw [mem_def (s := s), hinto]
    simp
  · exact (or_iff_left_of_imp ((includes_iff s.2 t.2).mp hincludes a)).symm
  · exact mem_merge

theorem unionInto_grew : (s.unionInto t).2 = true ↔ (s.unionInto t).1 ≠ s := by
  unfold unionInto
  split_ifs with hfrom hinto hincludes
  · simp
  · refine iff_of_true rfl ?_
    rintro rfl
    exact hfrom hinto
  · simp
  · refine iff_of_true rfl fun heq => hincludes ((includes_iff s.2 t.2).mpr fun b hb => ?_)
    rw [← heq]
    exact mem_merge.mpr (.inr hb)

end Union

theorem insert_pairwise (hl : l.Pairwise (· < ·)) {a : α}
    (hnot : (l.dropWhile (· < a)).head? ≠ some a) :
    (l.takeWhile (· < a) ++ a :: l.dropWhile (· < a)).Pairwise (· < ·) := by
  induction l with
  | nil => exact pairwise_singleton _ a
  | cons b bs ih =>
    obtain ⟨hb, hbs⟩ := pairwise_cons.mp hl
    by_cases hlt : b < a
    · rw [takeWhile_cons_of_pos (by simpa using hlt),
        dropWhile_cons_of_pos (by simpa using hlt)] at *
      refine pairwise_cons.mpr ⟨fun c hc => ?_, ih hbs hnot⟩
      rcases mem_append.mp hc with hc | hc
      · exact hb c ((takeWhile_sublist _).subset hc)
      · rcases mem_cons.mp hc with rfl | hc
        · exact hlt
        · exact hb c ((dropWhile_sublist _).subset hc)
    · rw [takeWhile_cons_of_neg (by simpa using hlt),
        dropWhile_cons_of_neg (by simpa using hlt)] at *
      have hab : a < b := lt_of_le_of_ne (not_lt.mp hlt) fun heq => hnot (congrArg some heq.symm)
      refine pairwise_cons.mpr ⟨fun c hc => ?_, hl⟩
      rcases mem_cons.mp hc with rfl | hc
      · exact hab
      · exact lt_trans hab (hb c hc)

/-- `insertInto`: the set with one more element, and whether it was not there. The place is that
of `std::lower_bound`. -/
def insertInto (into : SortedSet α) (a : α) : SortedSet α × Bool :=
  if h : (into.1.dropWhile (· < a)).head? = some a then (into, false)
  else (⟨into.1.takeWhile (· < a) ++ a :: into.1.dropWhile (· < a), insert_pairwise into.2 h⟩, true)

section Insert

variable {s : SortedSet α} {a : α}

theorem head?_dropWhile_iff {l : List α} (hl : l.Pairwise (· < ·)) :
    (l.dropWhile (· < a)).head? = some a ↔ a ∈ l := by
  constructor
  · intro h
    exact (dropWhile_sublist _).subset (mem_of_mem_head? h)
  · intro hmem
    induction l with
    | nil => cases hmem
    | cons b bs ih =>
      obtain ⟨hb, hbs⟩ := pairwise_cons.mp hl
      rcases mem_cons.mp hmem with rfl | hmem
      · rw [dropWhile_cons_of_neg (by simp)]
        rfl
      · rw [dropWhile_cons_of_pos (by simpa using hb a hmem)]
        exact ih hbs hmem

theorem mem_insertInto {b : α} : b ∈ (s.insertInto a).1 ↔ b ∈ s ∨ b = a := by
  unfold insertInto
  split_ifs with h
  · refine (or_iff_left_of_imp ?_).symm
    rintro rfl
    exact (head?_dropWhile_iff s.2).mp h
  · have hsplit : b ∈ s ↔ b ∈ s.1.takeWhile (· < a) ∨ b ∈ s.1.dropWhile (· < a) := by
      rw [← mem_append, takeWhile_append_dropWhile]
      exact Iff.rfl
    rw [mem_def, mem_append, mem_cons]
    tauto

theorem insertInto_grew : (s.insertInto a).2 = true ↔ (s.insertInto a).1 ≠ s := by
  unfold insertInto
  split_ifs with h
  · simp
  · refine iff_of_true rfl fun heq => h ((head?_dropWhile_iff s.2).mpr ?_)
    rw [← heq]
    exact mem_append_right _ (mem_cons_self ..)

end Insert

end SortedSet

end Bronze
