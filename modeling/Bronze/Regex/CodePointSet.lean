import Bronze.Regex.Pattern

/-!
# Sets of code points

The operations of `src/regex/chars.cpp` on range lists. A list stands for a set of code points; the
lists `normalizeRanges` leaves are a normal form of the sets below `kMaxCodePoint`, and on them the
operations are those of the sets.

## Main results

* `Canonical.ext`: a set has one normal form
* `rangeList_algebra`: the operations compute the set operations, in normal form
-/

namespace Bronze.Regex

open List Nat Or

def kMaxCodePoint : Nat := 0x10FFFF

/-- `x + 1` on `uint32_t`. -/
def after (code : Nat) : Nat := (code + 1) % 2 ^ 32

/-- `x - 1` on `uint32_t`. -/
def before (code : Nat) : Nat := (code + (2 ^ 32 - 1)) % 2 ^ 32

def addRange (list : RangeList) (lo hi : Nat) : RangeList :=
  if lo > hi then list else list ++ [⟨lo, hi⟩]

/-- The comparison `normalizeRanges` sorts by. -/
def Range.precedes (a b : Range) : Bool :=
  if a.lo ≠ b.lo then a.lo < b.lo else a.hi < b.hi

/-- The sort of `normalizeRanges`. Ranges neither of which precedes the other are equal. -/
def sortRanges (list : RangeList) : RangeList :=
  list.mergeSort fun a b => !b.precedes a

/-- The loop of `normalizeRanges`, from its second range on: `back` is `merged.back()`. -/
def mergeFrom (back : Range) : RangeList → RangeList
  | [] => [back]
  | r :: list =>
    -- `+ 1` merges adjacent ranges too
    if r.lo ≤ after back.hi then mergeFrom ⟨back.lo, max back.hi r.hi⟩ list
    else back :: mergeFrom r list

def normalizeRanges (list : RangeList) : RangeList :=
  match sortRanges list with
  | [] => []
  | r :: sorted => mergeFrom r sorted

/-- A `push_back` under a condition. -/
def pushIf (found : Bool) (r : Range) : RangeList := if found then [r] else []

/-- The loop of `complementRanges`, with what it pushes after it. -/
def gapsFrom (ceiling next : Nat) : RangeList → RangeList
  | [] => pushIf (next ≤ ceiling) ⟨next, ceiling⟩
  | r :: list =>
    -- the `break`: a member above the ceiling cannot punch a hole
    if r.lo > ceiling then pushIf (next ≤ ceiling) ⟨next, ceiling⟩
    else
      pushIf (r.lo > next) ⟨next, before r.lo⟩ ++
        if r.hi ≥ ceiling then [] else gapsFrom ceiling (after r.hi) list

def complementRanges (list : RangeList) (ceiling : Nat) : RangeList :=
  gapsFrom ceiling 0 (normalizeRanges list)

/-- The loop of `intersectRanges`: the two lists from `i` and from `j` on. -/
def overlaps : RangeList → RangeList → RangeList
  | [], _ => []
  | _ :: _, [] => []
  | r :: left, s :: right =>
    pushIf (max r.lo s.lo ≤ min r.hi s.hi) ⟨max r.lo s.lo, min r.hi s.hi⟩ ++
      -- whichever ends first is dropped
      if r.hi < s.hi then overlaps left (s :: right) else overlaps (r :: left) right
termination_by left right => left.length + right.length

def intersectRanges (a b : RangeList) : RangeList :=
  normalizeRanges (overlaps (normalizeRanges a) (normalizeRanges b))

/-- Where a difference goes on after a range of the second list. -/
def pastRange (next : Nat) (s : Range) : Nat := if s.hi ≥ next then after s.hi else next

/-- The inner loop of `subtractRanges` over `k`, with what is pushed after it. -/
def cutFrom (hi next : Nat) : RangeList → RangeList
  | [] => pushIf (next ≤ hi) ⟨next, hi⟩
  | s :: right =>
    if s.lo ≤ hi then
      pushIf (s.lo > next) ⟨next, before s.lo⟩ ++
        if pastRange next s > hi then pushIf (pastRange next s ≤ hi) ⟨pastRange next s, hi⟩
        else cutFrom hi (pastRange next s) right
    else pushIf (next ≤ hi) ⟨next, hi⟩

/-- The outer loop of `subtractRanges`: `right` is the second list from `j` on. -/
def pieces : RangeList → RangeList → RangeList
  | [], _ => []
  | r :: left, right =>
    -- `j` is never rewound
    cutFrom r.hi r.lo (right.dropWhile fun s => s.hi < r.lo) ++
      pieces left (right.dropWhile fun s => s.hi < r.lo)

def subtractRanges (a b : RangeList) : RangeList :=
  normalizeRanges (pieces (normalizeRanges a) (normalizeRanges b))

def members (list : RangeList) : Set Nat := { code | ∃ r ∈ list, r.lo ≤ code ∧ code ≤ r.hi }

/-- The lists of ranges over the code points, the ones the engine builds. -/
def InRange (list : RangeList) : Prop := ∀ r ∈ list, r.lo ≤ r.hi ∧ r.hi ≤ kMaxCodePoint

/-- A list made by `addRange` and `normalizeRanges`. -/
inductive Built : RangeList → Prop where
  | empty : Built []
  | add {list : RangeList} (lo : Nat) {hi : Nat} (built : Built list) (below : hi ≤ kMaxCodePoint) :
      Built (addRange list lo hi)
  | normalize {list : RangeList} (built : Built list) : Built (normalizeRanges list)

/-- Sorted and disjoint, with a gap between any two ranges. -/
def Canonical (list : RangeList) : Prop :=
  (∀ r ∈ list, r.lo ≤ r.hi) ∧ list.Pairwise fun r s => r.hi + 1 < s.lo

variable {list more left right : RangeList} {code next hi : Nat} {found : Bool} {r : Range}

@[simp]
theorem mem_members : code ∈ members list ↔ ∃ r ∈ list, r.lo ≤ code ∧ code ≤ r.hi := Iff.rfl

@[simp]
theorem members_nil : members [] = ∅ := by
  ext code
  simp

theorem members_cons (r : Range) (list : RangeList) :
    members (r :: list) = Set.Icc r.lo r.hi ∪ members list := by
  ext code
  simp

theorem members_append (list more : RangeList) :
    members (list ++ more) = members list ∪ members more := by
  ext code
  simp only [mem_members, mem_append]
  constructor
  · rintro ⟨r, hr | hr, hin⟩
    · exact inl ⟨r, hr, hin⟩
    · exact inr ⟨r, hr, hin⟩
  · rintro (⟨r, hr, hin⟩ | ⟨r, hr, hin⟩)
    · exact ⟨r, inl hr, hin⟩
    · exact ⟨r, inr hr, hin⟩

@[simp]
theorem mem_pushIf {s : Range} : s ∈ pushIf found r ↔ found = true ∧ s = r := by
  cases found <;> simp [pushIf]

@[simp]
theorem mem_members_pushIf :
    code ∈ members (pushIf found r) ↔ found = true ∧ r.lo ≤ code ∧ code ≤ r.hi := by
  cases found <;> simp [pushIf]

/-- Below `2 ^ 32` nothing wraps: the code points are. -/
theorem after_eq (h : code ≤ kMaxCodePoint) : after code = code + 1 := by
  simp only [kMaxCodePoint] at h
  exact mod_eq_of_lt (by omega)

theorem before_eq (hpos : 0 < code) (h : code ≤ kMaxCodePoint) : before code = code - 1 := by
  simp only [kMaxCodePoint] at h
  simp only [before]
  omega

@[simp]
theorem inRange_nil : InRange [] := by
  intro r hr
  cases hr

theorem inRange_cons : InRange (r :: list) ↔ (r.lo ≤ r.hi ∧ r.hi ≤ kMaxCodePoint) ∧ InRange list :=
  forall_mem_cons

theorem inRange_append : InRange (list ++ more) ↔ InRange list ∧ InRange more :=
  forall_mem_append

theorem InRange.le (h : InRange list) (hin : code ∈ members list) : code ≤ kMaxCodePoint := by
  obtain ⟨r, hr, -, hhi⟩ := hin
  exact le_trans hhi (h r hr).2

theorem canonical_cons : Canonical (r :: list) ↔
      r.lo ≤ r.hi ∧ (∀ s ∈ list, r.hi + 1 < s.lo) ∧ Canonical list := by
  simp only [Canonical, forall_mem_cons, pairwise_cons]
  tauto

@[simp]
theorem canonical_nil : Canonical [] := ⟨nofun, List.Pairwise.nil⟩

/-- What `rangesContain` needs of a list. -/
theorem Canonical.normalized (h : Canonical list) : Normalized list :=
  ⟨h.1, h.2.imp fun {_ _} hlt => by omega⟩

section

variable (h : Canonical (r :: list))

include h

theorem Canonical.above (hin : code ∈ members list) : r.hi + 1 < code := by
  obtain ⟨s, hs, hlo, -⟩ := hin
  exact lt_of_lt_of_le ((canonical_cons.mp h).2.1 s hs) hlo

theorem Canonical.tail : Canonical list := (canonical_cons.mp h).2.2

theorem Canonical.head_le : r.lo ≤ r.hi := (canonical_cons.mp h).1

theorem Canonical.mem_tail_iff (code : Nat) :
    code ∈ members list ↔ code ∈ members (r :: list) ∧ r.hi < code := by
  rw [members_cons]
  constructor
  · intro hin
    exact ⟨inr hin, by have := h.above hin; omega⟩
  · rintro ⟨⟨-, hhi⟩ | hin, hlt⟩
    · omega
    · exact hin

theorem Canonical.head_lo_le (hin : code ∈ members (r :: list)) : r.lo ≤ code := by
  rw [members_cons] at hin
  rcases hin with hin | hin
  · exact hin.1
  · have := h.above hin
    have := h.head_le
    omega

end

theorem head_lo_mem (list : RangeList) (h : r.lo ≤ r.hi) : r.lo ∈ members (r :: list) :=
  ⟨r, mem_cons_self, le_rfl, h⟩

theorem Canonical.head_hi_le {s : Range} (h : Canonical (r :: list))
    (heq : members (r :: list) = members (s :: more)) (hlo : r.lo = s.lo) : s.hi ≤ r.hi := by
  by_contra hlt
  -- the code point after `r` would be a member, and no range of the list holds it
  have hin : r.hi + 1 ∈ members (r :: list) := by
    rw [heq, members_cons]
    have := h.head_le
    exact inl ⟨by omega, by omega⟩
  rw [members_cons] at hin
  rcases hin with hin | hin
  · have := hin.2
    omega
  · have := h.above hin
    omega

/-- **A set has one normal form.** -/
theorem Canonical.ext {a b : RangeList} (ha : Canonical a) (hb : Canonical b)
    (heq : members a = members b) : a = b := by
  induction a generalizing b with
  | nil =>
    cases b with
    | nil => rfl
    | cons s more =>
      have hin := head_lo_mem more hb.head_le
      rw [← heq, members_nil] at hin
      exact absurd hin (Set.notMem_empty _)
  | cons r list ih =>
    cases b with
    | nil =>
      have hin := head_lo_mem list ha.head_le
      rw [heq, members_nil] at hin
      exact absurd hin (Set.notMem_empty _)
    | cons s more =>
      have hlo : r.lo = s.lo := by
        apply le_antisymm
        · exact ha.head_lo_le (heq ▸ head_lo_mem more hb.head_le)
        · exact hb.head_lo_le (heq ▸ head_lo_mem list ha.head_le)
      have hhi : r.hi = s.hi := by
        apply le_antisymm
        · exact hb.head_hi_le heq.symm hlo.symm
        · exact ha.head_hi_le heq hlo
      have htail : members list = members more := by
        ext code
        rw [ha.mem_tail_iff, hb.mem_tail_iff, heq, hhi]
      rw [ih ha.tail hb.tail htail]
      congr 1
      cases r
      cases s
      simp only at hlo hhi
      rw [hlo, hhi]

/-! ## Normalization -/

theorem sortRanges_perm (list : RangeList) : (sortRanges list).Perm list :=
  mergeSort_perm list _

theorem sortRanges_pairwise (list : RangeList) :
    (sortRanges list).Pairwise fun a b => a.lo ≤ b.lo := by
  have hsorted : (sortRanges list).Pairwise fun a b => !b.precedes a := by
    apply pairwise_mergeSort
    · intro a b c hab hbc
      simp only [Range.precedes] at hab hbc ⊢
      grind
    · intro a b
      simp only [Range.precedes]
      grind
  apply hsorted.imp
  intro a b hab
  simp only [Range.precedes] at hab
  grind

theorem members_perm (h : list.Perm more) : members list = members more := by
  ext code
  simp [h.mem_iff]

/-- What the loop of `normalizeRanges` stands on: the ranges from `back` on ascend. -/
structure Ascending (back : Range) (list : RangeList) : Prop where
  inRange : InRange (back :: list)
  sorted : (back :: list).Pairwise fun a b => a.lo ≤ b.lo

section Merge

variable {back r : Range} {list : RangeList}

section

variable (h : Ascending back (r :: list))

include h

theorem Ascending.rest : Ascending r list :=
  ⟨(inRange_cons.mp h.inRange).2, h.sorted.of_cons⟩

theorem Ascending.le : back.lo ≤ r.lo :=
  (pairwise_cons.mp h.sorted).1 r mem_cons_self

theorem Ascending.grown : Ascending ⟨back.lo, max back.hi r.hi⟩ list := by
  obtain ⟨hback, hr, hin⟩ := inRange_cons.mp h.inRange |>.imp_right inRange_cons.mp
  obtain ⟨hlo, hsorted⟩ := pairwise_cons.mp h.sorted
  obtain ⟨-, hsorted⟩ := pairwise_cons.mp hsorted
  refine ⟨inRange_cons.mpr ⟨⟨?_, ?_⟩, hin⟩, pairwise_cons.mpr ⟨?_, hsorted⟩⟩
  · exact le_trans hback.1 (le_max_left ..)
  · exact max_le hback.2 hr.2
  · exact fun s hs => hlo s (mem_cons_of_mem r hs)

end

variable (h : Ascending back list)

include h

theorem Ascending.le_of_mem_mergeFrom {s : Range}
    (hs : s ∈ mergeFrom back list) : back.lo ≤ s.lo := by
  induction list generalizing back with
  | nil =>
    rw [mergeFrom, mem_singleton] at hs
    rw [hs]
  | cons r list ih =>
    rw [mergeFrom] at hs
    split at hs
    · have hle := ih h.grown hs
      exact hle
    · rcases mem_cons.mp hs with rfl | hs
      · exact le_rfl
      · exact le_trans h.le (ih h.rest hs)

/-- Merging keeps the members: what lies between two merged ranges is in one of them. -/
theorem Ascending.members_mergeFrom : members (mergeFrom back list) = members (back :: list) := by
  induction list generalizing back with
  | nil => rfl
  | cons r list ih =>
    obtain ⟨hback, hr, -⟩ := inRange_cons.mp h.inRange |>.imp_right inRange_cons.mp
    have hlo := h.le
    rw [mergeFrom, after_eq hback.2]
    split
    next hle =>
      rw [ih h.grown]
      ext code
      simp only [members_cons, Set.mem_union, Set.mem_Icc]
      rw [← or_assoc]
      apply or_congr_left
      omega
    next hgt => rw [members_cons, ih h.rest, ← members_cons]

theorem Ascending.canonical_mergeFrom : Canonical (mergeFrom back list) := by
  induction list generalizing back with
  | nil => exact canonical_cons.mpr ⟨(inRange_cons.mp h.inRange).1.1, nofun, canonical_nil⟩
  | cons r list ih =>
    have hback := (inRange_cons.mp h.inRange).1
    rw [mergeFrom, after_eq hback.2]
    split
    next hle => exact ih h.grown
    next hgt =>
      refine canonical_cons.mpr ⟨hback.1, ?_, ih h.rest⟩
      -- the ranges after `back` begin at `r` or later
      intro s hs
      have := h.rest.le_of_mem_mergeFrom hs
      omega

end Merge

/-- A list with ordered ranges whose members are code points is over the code points. -/
theorem Canonical.inRange (h : Canonical list) (hle : ∀ code ∈ members list, code ≤ kMaxCodePoint) :
    InRange list := by
  intro s hs
  have hlo := h.1 s hs
  exact ⟨hlo, hle s.hi ⟨s, hs, hlo, le_rfl⟩⟩

section Normalize

variable {list : RangeList} (h : InRange list)

include h

theorem InRange.sorted : InRange (sortRanges list) := fun r hr =>
  h r ((sortRanges_perm list).mem_iff.mp hr)

theorem InRange.ascending {r : Range} {sorted : RangeList} (heq : sortRanges list = r :: sorted) :
    Ascending r sorted := by
  have hin := h.sorted
  have hsorted := sortRanges_pairwise list
  rw [heq] at hin hsorted
  exact ⟨hin, hsorted⟩

theorem members_normalizeRanges : members (normalizeRanges list) = members list := by
  rw [← members_perm (sortRanges_perm list), normalizeRanges]
  cases heq : sortRanges list with
  | nil => rfl
  | cons r sorted => exact (h.ascending heq).members_mergeFrom

theorem canonical_normalizeRanges : Canonical (normalizeRanges list) := by
  rw [normalizeRanges]
  cases heq : sortRanges list with
  | nil => exact canonical_nil
  | cons r sorted => exact (h.ascending heq).canonical_mergeFrom

theorem inRange_normalizeRanges : InRange (normalizeRanges list) := by
  apply (canonical_normalizeRanges h).inRange
  rw [members_normalizeRanges h]
  exact fun _ hin => h.le hin

end Normalize

/-! ## Complement -/

/-- The ranges of a normal form come after a code point. -/
def From (next : Nat) (list : RangeList) : Prop := ∀ s ∈ list, next ≤ s.lo

theorem from_zero (list : RangeList) : From 0 list := fun s _ => zero_le s.lo

theorem from_cons : From next (r :: list) ↔ next ≤ r.lo ∧ From next list := forall_mem_cons

theorem Canonical.from_after (h : Canonical (r :: list)) : From (r.hi + 1) list := by
  intro s hs
  have := (canonical_cons.mp h).2.1 s hs
  omega

theorem canonical_pushIf_append (hr : found = true → r.lo ≤ r.hi ∧ From (r.hi + 2) list)
    (h : Canonical list) : Canonical (pushIf found r ++ list) := by
  cases found with
  | false => exact h
  | true =>
    obtain ⟨hle, hfrom⟩ := hr rfl
    refine canonical_cons.mpr ⟨hle, ?_, h⟩
    intro s hs
    have := hfrom s hs
    omega

section Complement

variable {ceiling next : Nat} {list : RangeList}

variable (h : Canonical list)

include h

variable (hin : InRange list)

include hin

variable (hnext : From next list)

include hnext

theorem from_gapsFrom : From next (gapsFrom ceiling next list) := by
  induction list generalizing next with
  | nil =>
    intro s hs
    rw [gapsFrom, mem_pushIf] at hs
    rw [hs.2]
  | cons r list ih =>
    obtain ⟨hr, hin⟩ := inRange_cons.mp hin
    obtain ⟨hnr, -⟩ := from_cons.mp hnext
    intro s hs
    rw [gapsFrom, after_eq hr.2] at hs
    split at hs
    · rw [mem_pushIf] at hs
      rw [hs.2]
    · rcases mem_append.mp hs with hs | hs
      · rw [mem_pushIf] at hs
        rw [hs.2]
      · split at hs
        · cases hs
        · have := ih h.tail hin h.from_after s hs
          omega

theorem canonical_gapsFrom : Canonical (gapsFrom ceiling next list) := by
  induction list generalizing next with
  | nil =>
    rw [gapsFrom, ← append_nil (pushIf ..)]
    exact canonical_pushIf_append (fun hle => ⟨of_decide_eq_true hle, nofun⟩) canonical_nil
  | cons r list ih =>
    obtain ⟨hr, hin⟩ := inRange_cons.mp hin
    obtain ⟨hnr, -⟩ := from_cons.mp hnext
    rw [gapsFrom, after_eq hr.2]
    split
    · rw [← append_nil (pushIf ..)]
      exact canonical_pushIf_append (fun hle => ⟨of_decide_eq_true hle, nofun⟩) canonical_nil
    · apply canonical_pushIf_append
      · intro hgap
        have hlt : next < r.lo := of_decide_eq_true hgap
        rw [before_eq (by omega) (by omega)]
        refine ⟨by simp only; omega, ?_⟩
        split
        · exact nofun
        · intro s hs
          have := from_gapsFrom h.tail hin h.from_after s hs
          simp only
          omega
      · split
        · exact canonical_nil
        · exact ih h.tail hin h.from_after

/-- The gaps are what the list leaves of the code points from `next` to the ceiling. -/
theorem mem_members_gapsFrom (code : Nat) :
    code ∈ members (gapsFrom ceiling next list) ↔
      next ≤ code ∧ code ≤ ceiling ∧ code ∉ members list := by
  induction list generalizing next with
  | nil =>
    rw [gapsFrom, mem_members_pushIf, members_nil]
    simp only [decide_eq_true_eq, Set.mem_empty_iff_false, not_false_eq_true, and_true]
    omega
  | cons r list ih =>
    have habove : code ∈ members list → r.hi + 1 < code := h.above
    obtain ⟨hr, hin⟩ := inRange_cons.mp hin
    obtain ⟨hnr, -⟩ := from_cons.mp hnext
    rw [gapsFrom, after_eq hr.2, members_cons, Set.mem_union, Set.mem_Icc]
    split
    next hgt =>
      -- the ranges from here on are above the ceiling
      rw [mem_members_pushIf]
      simp only [decide_eq_true_eq]
      constructor
      · rintro ⟨-, hlo, hhi⟩
        refine ⟨hlo, hhi, ?_⟩
        rintro (hin | hin)
        · omega
        · have := habove hin
          omega
      · rintro ⟨hlo, hhi, -⟩
        exact ⟨le_trans hlo hhi, hlo, hhi⟩
    next hle =>
      rw [members_append, Set.mem_union, mem_members_pushIf]
      have hgap : (decide (r.lo > next) = true ∧ next ≤ code ∧ code ≤ before r.lo) ↔
          next ≤ code ∧ code < r.lo := by
        rw [decide_eq_true_eq]
        by_cases hlt : next < r.lo
        · rw [before_eq (by omega) (by omega)]
          omega
        · omega
      rw [hgap]
      split
      next hge =>
        rw [members_nil]
        constructor
        · rintro (⟨hlo, hhi⟩ | hin)
          · refine ⟨hlo, by omega, ?_⟩
            rintro (hin | hin)
            · omega
            · have := habove hin
              omega
          · exact absurd hin (Set.notMem_empty _)
        · rintro ⟨hlo, hhi, hout⟩
          exact inl ⟨hlo, by omega⟩
      next hlt =>
        rw [ih h.tail hin h.from_after]
        by_cases hmem : code ∈ members list
        · have := habove hmem
          simp only [hmem, not_true_eq_false, and_false, or_false, or_true, iff_false]
          omega
        · simp only [hmem, not_false_eq_true, and_true, or_false]
          omega

end Complement

section

variable {list : RangeList} (h : InRange list) (ceiling : Nat)

include h

theorem canonical_complementRanges : Canonical (complementRanges list ceiling) :=
  canonical_gapsFrom (canonical_normalizeRanges h) (inRange_normalizeRanges h) (from_zero _)

theorem members_complementRanges :
    members (complementRanges list ceiling) = { code | code ≤ ceiling ∧ code ∉ members list } := by
  ext code
  rw [complementRanges, mem_members_gapsFrom (canonical_normalizeRanges h)
    (inRange_normalizeRanges h) (from_zero _), members_normalizeRanges h]
  simp

theorem inRange_complementRanges (hceiling : ceiling ≤ kMaxCodePoint) :
    InRange (complementRanges list ceiling) := by
  apply (canonical_complementRanges h ceiling).inRange
  rw [members_complementRanges h]
  exact fun code hcode => le_trans hcode.1 hceiling

end

/-- The overlaps of two normal forms: the range that ends first meets nothing of what is left. -/
theorem members_overlaps (hl : Canonical left) (hr : Canonical right) :
    members (overlaps left right) = members left ∩ members right := by
  induction left, right using overlaps.induct with
  | case1 right => simp [overlaps]
  | case2 r left => simp [overlaps]
  | case3 r left s right ihl ihr =>
    have habove : ∀ code ∈ members left, r.hi + 1 < code := fun _ => hl.above
    have habove' : ∀ code ∈ members right, s.hi + 1 < code := fun _ => hr.above
    ext code
    specialize habove code
    specialize habove' code
    rw [overlaps]
    split
    next hlt =>
      rw [members_append, ihl hl.tail hr]
      simp only [members_cons, Set.mem_union, Set.mem_inter_iff, Set.mem_Icc, mem_members_pushIf,
        decide_eq_true_eq]
      by_cases hleft : code ∈ members left
      · have := habove hleft
        simp only [hleft, or_true, true_and]
        by_cases hright : code ∈ members right
        · simp [hright]
        · simp only [hright, or_false]
          omega
      · simp only [hleft, or_false, false_and]
        by_cases hright : code ∈ members right
        · have := habove' hright
          omega
        · simp only [hright, or_false]
          omega
    next hge =>
      rw [members_append, ihr hl hr.tail]
      simp only [members_cons, Set.mem_union, Set.mem_inter_iff, Set.mem_Icc, mem_members_pushIf,
        decide_eq_true_eq]
      by_cases hright : code ∈ members right
      · have := habove' hright
        simp only [hright, or_true, and_true]
        by_cases hleft : code ∈ members left
        · simp [hleft]
        · simp only [hleft, or_false]
          omega
      · simp only [hright, or_false, and_false]
        by_cases hleft : code ∈ members left
        · have := habove hleft
          omega
        · simp only [hleft, or_false]
          omega

theorem inRange_overlaps (hl : InRange left) (hr : InRange right) :
    InRange (overlaps left right) := by
  induction left, right using overlaps.induct with
  | case1 right => simp [overlaps]
  | case2 r left => simp [overlaps]
  | case3 r left s right ihl ihr =>
    obtain ⟨hr₁, hleft⟩ := inRange_cons.mp hl
    obtain ⟨hs₁, hright⟩ := inRange_cons.mp hr
    rw [overlaps, inRange_append]
    constructor
    · intro t ht
      obtain ⟨hle, rfl⟩ := mem_pushIf.mp ht
      exact ⟨of_decide_eq_true hle, le_trans (min_le_left ..) hr₁.2⟩
    · split
      · exact ihl hleft hr
      · exact ihr hl hright

section

variable {a b : RangeList} (ha : InRange a) (hb : InRange b)

include ha hb

theorem inRange_overlaps_normalize : InRange (overlaps (normalizeRanges a) (normalizeRanges b)) :=
  inRange_overlaps (inRange_normalizeRanges ha) (inRange_normalizeRanges hb)

theorem canonical_intersectRanges : Canonical (intersectRanges a b) :=
  canonical_normalizeRanges (inRange_overlaps_normalize ha hb)

theorem inRange_intersectRanges : InRange (intersectRanges a b) :=
  inRange_normalizeRanges (inRange_overlaps_normalize ha hb)

theorem members_intersectRanges : members (intersectRanges a b) = members a ∩ members b := by
  rw [intersectRanges, members_normalizeRanges (inRange_overlaps_normalize ha hb),
    members_overlaps (canonical_normalizeRanges ha) (canonical_normalizeRanges hb),
    members_normalizeRanges ha, members_normalizeRanges hb]

end

/-! ## Difference -/

/-- What one range keeps of the code points from `next` on. -/
theorem mem_members_cutFrom (h : Canonical right) (hin : InRange right) (code : Nat) :
    code ∈ members (cutFrom hi next right) ↔ next ≤ code ∧ code ≤ hi ∧ code ∉ members right := by
  induction right generalizing next with
  | nil =>
    rw [cutFrom, mem_members_pushIf, members_nil]
    simp only [decide_eq_true_eq, Set.mem_empty_iff_false, not_false_eq_true, and_true]
    omega
  | cons s right ih =>
    have habove : code ∈ members right → s.hi + 1 < code := h.above
    obtain ⟨hs, hin⟩ := inRange_cons.mp hin
    rw [cutFrom, members_cons, Set.mem_union, Set.mem_Icc]
    split
    next hle =>
      have hpast : pastRange next s = max next (s.hi + 1) := by
        rw [pastRange, after_eq hs.2]
        split <;> omega
      have hgap : (decide (s.lo > next) = true ∧ next ≤ code ∧ code ≤ before s.lo) ↔
          next ≤ code ∧ code < s.lo := by
        rw [decide_eq_true_eq]
        by_cases hlt : next < s.lo
        · rw [before_eq (by omega) (by omega)]
          omega
        · omega
      rw [members_append, Set.mem_union, mem_members_pushIf]
      rw [hgap]
      by_cases hmem : code ∈ members right
      · have := habove hmem
        split
        next hgt =>
          rw [mem_members_pushIf]
          simp only [hmem, or_true, not_true_eq_false, and_false, iff_false]
          omega
        next hgt =>
          rw [ih h.tail hin]
          simp only [hmem, or_true, not_true_eq_false, and_false, or_false, iff_false]
          omega
      · split
        next hgt =>
          rw [mem_members_pushIf]
          simp only [hmem, or_false]
          omega
        next hgt =>
          rw [ih h.tail hin]
          simp only [hmem, not_false_eq_true, and_true, or_false]
          omega
    next hgt =>
      -- the ranges from here on are above `hi`
      rw [mem_members_pushIf]
      simp only [decide_eq_true_eq]
      constructor
      · rintro ⟨-, hlo, hhi⟩
        refine ⟨hlo, hhi, ?_⟩
        rintro (hin | hin)
        · omega
        · have := habove hin
          omega
      · rintro ⟨hlo, hhi, -⟩
        exact ⟨le_trans hlo hhi, hlo, hhi⟩

theorem inRange_cutFrom (hhi : hi ≤ kMaxCodePoint) (hin : InRange right) :
    InRange (cutFrom hi next right) := by
  have hlast : ∀ next, InRange (pushIf (next ≤ hi) ⟨next, hi⟩) := by
    intro next t ht
    obtain ⟨hle, rfl⟩ := mem_pushIf.mp ht
    exact ⟨of_decide_eq_true hle, hhi⟩
  induction right generalizing next with
  | nil => exact hlast next
  | cons s right ih =>
    obtain ⟨hs, hin⟩ := inRange_cons.mp hin
    rw [cutFrom]
    split
    · refine inRange_append.mpr ⟨?_, ?_⟩
      · intro t ht
        obtain ⟨hgap, rfl⟩ := mem_pushIf.mp ht
        have hlt : next < s.lo := of_decide_eq_true hgap
        simp only
        rw [before_eq (by omega) (by omega)]
        omega
      · split
        · exact hlast _
        · exact ih hin
    · exact hlast next

/-- Ranges that ended before a code point do not hold it or what is above it. -/
theorem mem_members_dropWhile {lo : Nat} (h : lo ≤ code) :
    code ∈ members (right.dropWhile fun s => s.hi < lo) ↔ code ∈ members right := by
  induction right with
  | nil => rfl
  | cons s right ih =>
    rw [dropWhile_cons]
    split
    next hlt =>
      have hlt : s.hi < lo := of_decide_eq_true hlt
      rw [ih, members_cons, Set.mem_union, Set.mem_Icc]
      constructor
      · exact inr
      · rintro (hin | hin)
        · omega
        · exact hin
    next hge => rfl

theorem canonical_dropWhile (h : Canonical right) (p : Range → Bool) :
    Canonical (right.dropWhile p) :=
  ⟨fun r hr => h.1 r ((dropWhile_sublist p).mem hr), h.2.sublist (dropWhile_sublist p)⟩

theorem inRange_dropWhile (h : InRange right) (p : Range → Bool) : InRange (right.dropWhile p) :=
  fun r hr => h r ((dropWhile_sublist p).mem hr)

theorem members_pieces (hl : Canonical left) (hr : Canonical right) (hin : InRange right) :
    members (pieces left right) = members left \ members right := by
  induction left generalizing right with
  | nil => simp [pieces]
  | cons r left ih =>
    rw [pieces, members_append, ih hl.tail (canonical_dropWhile hr _) (inRange_dropWhile hin _)]
    ext code
    rw [Set.mem_union, mem_members_cutFrom (canonical_dropWhile hr _) (inRange_dropWhile hin _),
      Set.mem_sdiff, Set.mem_sdiff, members_cons, Set.mem_union, Set.mem_Icc]
    by_cases hlo : r.lo ≤ code
    · rw [mem_members_dropWhile hlo]
      tauto
    · -- below the first range there is nothing
      have hout : code ∉ members left := fun hmem => by
        have := hl.above hmem
        have := hl.head_le
        omega
      simp [hlo, hout]

theorem inRange_pieces (hl : InRange left) (hr : InRange right) : InRange (pieces left right) := by
  induction left generalizing right with
  | nil => exact inRange_nil
  | cons r left ih =>
    obtain ⟨hr₁, hl⟩ := inRange_cons.mp hl
    rw [pieces, inRange_append]
    exact ⟨inRange_cutFrom hr₁.2 (inRange_dropWhile hr _), ih hl (inRange_dropWhile hr _)⟩

section

variable {a b : RangeList} (ha : InRange a) (hb : InRange b)

include ha hb

theorem inRange_pieces_normalize : InRange (pieces (normalizeRanges a) (normalizeRanges b)) :=
  inRange_pieces (inRange_normalizeRanges ha) (inRange_normalizeRanges hb)

theorem canonical_subtractRanges : Canonical (subtractRanges a b) :=
  canonical_normalizeRanges (inRange_pieces_normalize ha hb)

theorem inRange_subtractRanges : InRange (subtractRanges a b) :=
  inRange_normalizeRanges (inRange_pieces_normalize ha hb)

theorem members_subtractRanges : members (subtractRanges a b) = members a \ members b := by
  have hpieces := members_pieces (canonical_normalizeRanges ha) (canonical_normalizeRanges hb)
    (inRange_normalizeRanges hb)
  simp [subtractRanges, members_normalizeRanges (inRange_pieces_normalize ha hb), hpieces,
    members_normalizeRanges ha, members_normalizeRanges hb]

end

/-! ## The algebra -/

theorem inRange_addRange (h : InRange list) (lo : Nat) (hhi : hi ≤ kMaxCodePoint) :
    InRange (addRange list lo hi) := by
  rw [addRange]
  split
  next => exact h
  next hle =>
    rw [inRange_append, inRange_cons]
    exact ⟨h, ⟨not_lt.mp hle, hhi⟩, inRange_nil⟩

theorem Built.inRange (h : Built list) : InRange list := by
  induction h with
  | empty => exact inRange_nil
  | add lo built below ih => exact inRange_addRange ih lo below
  | normalize built ih => exact inRange_normalizeRanges ih

theorem InRange.built (h : InRange list) : Built list := by
  induction list using reverseRecOn with
  | nil => exact Built.empty
  | append_singleton list r ih =>
    obtain ⟨hlist, hr⟩ := inRange_append.mp h
    obtain ⟨hr, -⟩ := inRange_cons.mp hr
    have hadd : list ++ [r] = addRange list r.lo r.hi := by
      rw [addRange, if_neg (not_lt.mpr hr.1)]
    rw [hadd]
    exact Built.add r.lo (ih hlist) hr.2

section

variable {a b : RangeList} (ha : InRange a) (hb : InRange b)

include ha

theorem complementRanges_complementRanges :
    complementRanges (complementRanges a kMaxCodePoint) kMaxCodePoint = normalizeRanges a := by
  have hin := inRange_complementRanges ha kMaxCodePoint le_rfl
  apply (canonical_complementRanges hin _).ext (canonical_normalizeRanges ha)
  rw [members_complementRanges hin, members_complementRanges ha, members_normalizeRanges ha]
  ext code
  simp only [Set.mem_ofPred_eq, not_and, not_not]
  constructor
  · rintro ⟨hle, hmem⟩
    exact hmem hle
  · intro hmem
    exact ⟨ha.le hmem, fun _ => hmem⟩

include hb

theorem subtractRanges_eq :
    subtractRanges a b = intersectRanges a (complementRanges b kMaxCodePoint) := by
  have hin := inRange_complementRanges hb kMaxCodePoint le_rfl
  apply (canonical_subtractRanges ha hb).ext (canonical_intersectRanges ha hin)
  rw [members_subtractRanges ha hb, members_intersectRanges ha hin, members_complementRanges hb]
  ext code
  constructor
  · rintro ⟨hmem, hout⟩
    exact ⟨hmem, ha.le hmem, hout⟩
  · rintro ⟨hmem, -, hout⟩
    exact ⟨hmem, hout⟩

end

/-- **The operations of a range list are those of its set of code points.** Each leaves the normal
form, so complementing twice gives the list back and a difference is an intersection with the
complement; and each stays below `kMaxCodePoint`, so that no step wraps. -/
theorem rangeList_algebra {a b : RangeList} (ha : Built a) (hb : Built b) :
    (Canonical (normalizeRanges a) ∧ members (normalizeRanges a) = members a) ∧
      (∀ code, rangesContain (normalizeRanges a) code = true ↔ code ∈ members a) ∧
      (∀ ceiling ≤ kMaxCodePoint,
        Built (complementRanges a ceiling) ∧ Canonical (complementRanges a ceiling) ∧
          members (complementRanges a ceiling) =
            { code | code ≤ ceiling ∧ code ∉ members a }) ∧
      (Built (intersectRanges a b) ∧ Canonical (intersectRanges a b) ∧
        members (intersectRanges a b) = members a ∩ members b) ∧
      (Built (subtractRanges a b) ∧ Canonical (subtractRanges a b) ∧
        members (subtractRanges a b) = members a \ members b) ∧
      complementRanges (complementRanges a kMaxCodePoint) kMaxCodePoint = normalizeRanges a ∧
      subtractRanges a b = intersectRanges a (complementRanges b kMaxCodePoint) := by
  have hina := ha.inRange
  have hinb := hb.inRange
  refine ⟨⟨canonical_normalizeRanges hina, members_normalizeRanges hina⟩, ?_, ?_, ?_, ?_,
    complementRanges_complementRanges hina, subtractRanges_eq hina hinb⟩
  · intro code
    rw [rangesContain_iff (canonical_normalizeRanges hina).normalized, ← mem_members,
      members_normalizeRanges hina]
  · intro ceiling hceiling
    exact ⟨(inRange_complementRanges hina ceiling hceiling).built,
      canonical_complementRanges hina ceiling, members_complementRanges hina ceiling⟩
  · exact ⟨(inRange_intersectRanges hina hinb).built, canonical_intersectRanges hina hinb,
      members_intersectRanges hina hinb⟩
  · exact ⟨(inRange_subtractRanges hina hinb).built, canonical_subtractRanges hina hinb,
      members_subtractRanges hina hinb⟩

/-- Two adjacent ranges that reach the two ends of the alphabet. -/
theorem rangeList_algebra_ends :
    complementRanges (complementRanges
        (addRange (addRange [] 0x80 kMaxCodePoint) 0 0x7F) kMaxCodePoint) kMaxCodePoint =
      normalizeRanges (addRange (addRange [] 0x80 kMaxCodePoint) 0 0x7F) :=
  (rangeList_algebra (Built.add 0 (Built.add 0x80 Built.empty le_rfl) (by decide))
    Built.empty).2.2.2.2.2.1

end Bronze.Regex
