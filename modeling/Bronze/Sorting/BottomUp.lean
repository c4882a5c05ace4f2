import Mathlib

/-!
# Bottom-up merge sort, as a relation

What a bottom-up merge sort may make of a list, when all that is known of its comparisons is which
answers they can give. A merge takes from the left where the answer is not positive. A pass merges
neighbouring runs of a width, and the last runs may be short or missing; the width doubles until one
run is left. The comparisons may have effects, answer differently each time and contradict each
other: a run of such a sort is related to its result here all the same.

## Main results

* `BottomUp.induct`: what holds of single elements and is kept by merges holds of the result
* `BottomUp.perm`: the result is a permutation, whatever the answers
* `BottomUp.segregated`: elements that only lose comparisons come last, whatever the other answers
* `BottomUp.stableSort`: consistent answers give the stable sort
-/

namespace Bronze.Sorting

open List

variable {α : Type} {answers : α → α → Int → Prop}

/-- A merge of two lists: from the left where an answer is not positive. -/
inductive Merged (answers : α → α → Int → Prop) : List α → List α → List α → Prop where
  | leftDone (ys : List α) : Merged answers [] ys ys
  | rightDone (xs : List α) : Merged answers xs [] xs
  | takeLeft {x y : α} {xs ys out : List α} {answer : Int} (hanswer : answers x y answer)
      (hle : answer ≤ 0) (rest : Merged answers xs (y :: ys) out) :
      Merged answers (x :: xs) (y :: ys) (x :: out)
  | takeRight {x y : α} {xs ys out : List α} {answer : Int} (hanswer : answers x y answer)
      (hgt : 0 < answer) (rest : Merged answers (x :: xs) ys out) :
      Merged answers (x :: xs) (y :: ys) (y :: out)

variable {xs ys out : List α}

theorem Merged.perm (h : Merged answers xs ys out) : out.Perm (xs ++ ys) := by
  induction h with
  | leftDone ys => exact .refl _
  | rightDone xs => simp
  | takeLeft _ _ _ ih => exact ih.cons _
  | takeRight _ _ _ ih => exact (ih.cons _).trans perm_middle.symm

theorem Merged.length_eq (h : Merged answers xs ys out) : out.length = xs.length + ys.length := by
  simp [h.perm.length_eq]

/-- A pass over a list: neighbouring runs of `width` are merged. -/
inductive Passed (answers : α → α → Int → Prop) (width : Nat) : List α → List α → Prop where
  | done : Passed answers width [] []
  | step {l run rest : List α} (hne : l ≠ [])
      (hrun : Merged answers (l.take width) ((l.drop width).take width) run)
      (hrest : Passed answers width (l.drop (2 * width)) rest) :
      Passed answers width l (run ++ rest)

/-- Passes over runs of a width that doubles, until one run holds everything. -/
inductive BottomUp (answers : α → α → Int → Prop) : Nat → List α → List α → Prop where
  | done {width : Nat} {l : List α} (hle : l.length ≤ width) : BottomUp answers width l l
  | pass {width : Nat} {l l' out : List α} (hlt : width < l.length)
      (hpass : Passed answers width l l') (hrest : BottomUp answers (2 * width) l' out) :
      BottomUp answers width l out

theorem Passed.eq_nil {width : Nat} {out : List α} (h : Passed answers width [] out) :
    out = [] := by
  cases h with
  | done => rfl
  | step hne _ _ => exact absurd rfl hne

/-- The runs that a merge of a pass takes are the elements it leaves out of the rest. -/
theorem length_runs (l : List α) (width : Nat) :
    (l.take width).length + ((l.drop width).take width).length = min (2 * width) l.length := by
  rw [length_take, length_take, length_drop]
  omega

theorem take_double (l : List α) (width : Nat) :
    l.take (2 * width) = l.take width ++ (l.drop width).take width := by
  rw [Nat.two_mul, take_add]

theorem Passed.perm {width : Nat} {l out : List α} (h : Passed answers width l out) :
    out.Perm l := by
  induction h with
  | done => exact .nil
  | @step l run rest _ hrun _ ih =>
    have hjoined := hrun.perm.append ih
    rw [← take_double, take_append_drop] at hjoined
    exact hjoined

section Chunks

variable {P : List α → List α → Prop}

/-- Run by run, the first list is to the second as `P` says. -/
def Chunks (P : List α → List α → Prop) (width : Nat) (l original : List α) : Prop :=
  ∀ k, P ((l.drop (k * width)).take width) ((original.drop (k * width)).take width)

variable {l out : List α} {width : Nat}

/-- **A pass joins the runs in pairs.** -/
theorem Passed.chunks (hnil : P [] [])
    (hmerge : ∀ {xs ys xs₀ ys₀ out}, P xs xs₀ → P ys ys₀ → Merged answers xs ys out →
      P out (xs₀ ++ ys₀)) (h : Passed answers width l out) :
    ∀ original, original.length = l.length → Chunks P width l original →
      Chunks P (2 * width) out original := by
  induction h with
  | done =>
    intro original hlen _ k
    rw [length_eq_zero_iff.mp hlen]
    simpa using hnil
  | @step l run rest _ hrun hrest ih =>
    intro original hlen hchunks k
    have hrunLen : run.length = min (2 * width) l.length := by
      rw [hrun.length_eq, length_runs]
    cases k with
    | zero =>
      -- the first run is the merge, and the rest is empty if that is short
      have hfirst : (run ++ rest).take (2 * width) = run := by
        rcases Nat.lt_or_ge l.length (2 * width) with hshort | hlong
        · rw [drop_eq_nil_of_le hshort.le] at hrest
          rw [hrest.eq_nil, append_nil, take_of_length_le (by omega)]
        · exact take_left' (by omega)
      rw [Nat.zero_mul, drop_zero, hfirst, take_double]
      have hzero := hchunks 0
      have hone := hchunks 1
      rw [Nat.zero_mul] at hzero
      rw [Nat.one_mul] at hone
      exact hmerge hzero hone hrun
    | succ k =>
      have hsplit : (k + 1) * (2 * width) = 2 * width + k * (2 * width) := by
        rw [Nat.succ_mul, Nat.add_comm]
      rcases Nat.lt_or_ge l.length (2 * width) with hshort | hlong
      · rw [drop_eq_nil_of_le hshort.le] at hrest
        have hl : (run ++ rest).drop ((k + 1) * (2 * width)) = [] := by
          rw [hrest.eq_nil, append_nil]
          exact drop_eq_nil_of_le (by omega)
        have horiginal : original.drop ((k + 1) * (2 * width)) = [] :=
          drop_eq_nil_of_le (by omega)
        rw [hl, horiginal, take_nil]
        exact hnil
      · have hl : (run ++ rest).drop ((k + 1) * (2 * width)) = rest.drop (k * (2 * width)) := by
          rw [hsplit, ← drop_drop, drop_left' (by omega)]
        rw [hl, hsplit, ← drop_drop]
        refine ih (original.drop (2 * width)) (by simp [hlen]) (fun j => ?_) k
        have hj := hchunks (j + 2)
        have hshift : (j + 2) * width = 2 * width + j * width := by rw [Nat.add_mul, Nat.add_comm]
        rw [hshift, ← drop_drop, ← drop_drop] at hj
        exact hj

theorem BottomUp.of_chunks (hnil : P [] [])
    (hmerge : ∀ {xs ys xs₀ ys₀ out}, P xs xs₀ → P ys ys₀ → Merged answers xs ys out →
      P out (xs₀ ++ ys₀)) (h : BottomUp answers width l out) :
    ∀ original, original.length = l.length → Chunks P width l original →
      P out original := by
  induction h with
  | done hle =>
    intro original hlen hchunks
    have hzero := hchunks 0
    rw [Nat.zero_mul, drop_zero, drop_zero, take_of_length_le hle,
      take_of_length_le (by omega)] at hzero
    exact hzero
  | pass _ hpass _ ih =>
    intro original hlen hchunks
    exact ih original (hlen.trans hpass.perm.length_eq.symm)
      (hpass.chunks hnil hmerge original hlen hchunks)

/-- **What holds of single elements and is kept by merges** holds of the sort's result and its
input. -/
theorem BottomUp.induct (h : BottomUp answers 1 l out) (hnil : P [] []) (hone : ∀ x ∈ l, P [x] [x])
    (hmerge : ∀ {xs ys xs₀ ys₀ out}, P xs xs₀ → P ys ys₀ → Merged answers xs ys out →
      P out (xs₀ ++ ys₀)) : P out l := by
  refine h.of_chunks hnil hmerge l rfl fun k => ?_
  rw [Nat.mul_one]
  cases hrest : l.drop k with
  | nil => exact hnil
  | cons x rest => exact hone x (mem_of_mem_drop (hrest ▸ mem_cons_self ..))

end Chunks

/-- **Whatever the answers**, nothing is lost and nothing is doubled. -/
theorem BottomUp.perm {l out : List α} (h : BottomUp answers 1 l out) : out.Perm l :=
  h.induct (P := fun xs xs₀ => xs.Perm xs₀) .nil (fun _ _ => .refl _)
    fun hxs hys hout => hout.perm.trans (hxs.append hys)

section Segregated

variable {last : α → Prop}

/-- The elements of a kind are at the end. -/
def Segregated (last : α → Prop) (l : List α) : Prop := l.Pairwise fun x y => last x → last y

variable (hlose : ∀ x y answer, answers x y answer → last x → ¬ last y → 0 < answer)

include hlose

variable (hwin : ∀ x y answer, answers x y answer → ¬ last x → last y → answer ≤ 0)

include hwin

theorem Merged.segregated {xs ys out : List α} (h : Merged answers xs ys out) :
    Segregated last xs → Segregated last ys → Segregated last out := by
  induction h with
  | leftDone ys => exact fun _ hys => hys
  | rightDone xs => exact fun hxs _ => hxs
  | @takeLeft x y xs ys out answer hanswer hle rest ih =>
    intro hxs hys
    refine pairwise_cons.mpr ⟨fun z hz hx => ?_, ih (pairwise_cons.mp hxs).2 hys⟩
    rcases mem_append.mp (rest.perm.subset hz) with hz | hz
    · exact (pairwise_cons.mp hxs).1 z hz hx
    · -- the element on the right is of the kind too, and so is what follows it
      have hy : last y := by
        by_contra hy
        have := hlose x y answer hanswer hx hy
        omega
      rcases mem_cons.mp hz with rfl | hz
      · exact hy
      · exact (pairwise_cons.mp hys).1 z hz hy
  | @takeRight x y xs ys out answer hanswer hgt rest ih =>
    intro hxs hys
    refine pairwise_cons.mpr ⟨fun z hz hy => ?_, ih hxs (pairwise_cons.mp hys).2⟩
    have hx : last x := by
      by_contra hx
      have := hwin x y answer hanswer hx hy
      omega
    rcases mem_append.mp (rest.perm.subset hz) with hz | hz
    · rcases mem_cons.mp hz with rfl | hz
      · exact hx
      · exact (pairwise_cons.mp hxs).1 z hz hx
    · exact (pairwise_cons.mp hys).1 z hz hy

/-- **What loses to everything else comes last**, whatever the other answers. -/
theorem BottomUp.segregated {l out : List α} (h : BottomUp answers 1 l out) : Segregated last out :=
  h.induct (P := fun xs _ => Segregated last xs) .nil
    (fun _ _ => pairwise_singleton ..) fun hxs hys hout => hout.segregated hlose hwin hxs hys

end Segregated

section Stable

variable {c : α → α → Int} {S : α → Prop}

/-- The answers of a total preorder, on the elements of `S`. -/
structure IsConsistent (c : α → α → Int) (S : α → Prop) : Prop where
  flip : ∀ {x y}, S x → S y → (c x y).sign = -(c y x).sign
  trans : ∀ {x y z}, S x → S y → S z → c x y ≤ 0 → c y z ≤ 0 → c x z ≤ 0

variable {x y z : α} {xs out : List α}

theorem IsConsistent.lt_iff (h : IsConsistent c S) (hx : S x) (hy : S y) :
    0 < c x y ↔ c y x < 0 := by
  rw [← Int.sign_eq_one_iff_pos, ← Int.sign_eq_neg_one_iff_neg, h.flip hx hy]
  omega

theorem IsConsistent.eq_iff (h : IsConsistent c S) (hx : S x) (hy : S y) :
    c x y = 0 ↔ c y x = 0 := by
  rw [← Int.sign_eq_zero_iff_zero, ← Int.sign_eq_zero_iff_zero (a := c y x), h.flip hx hy]
  omega

/-- Sorted, with the elements of a list, and for each of them those that compare equal to it in the
order of that list. -/
structure StableSort (c : α → α → Int) (S : α → Prop) (out l : List α) : Prop where
  mem : ∀ x ∈ l, S x
  perm : out.Perm l
  sorted : out.Pairwise fun x y => c x y ≤ 0
  stable : ∀ z, S z → out.filter (fun x => c x z = 0) = l.filter (fun x => c x z = 0)

theorem Merged.sorted (hc : IsConsistent c S) {ys : List α}
    (h : Merged (fun x y answer => answer = c x y) xs ys out) :
    (∀ x ∈ xs, S x) → (∀ y ∈ ys, S y) → xs.Pairwise (fun x y => c x y ≤ 0) →
      ys.Pairwise (fun x y => c x y ≤ 0) → out.Pairwise fun x y => c x y ≤ 0 := by
  induction h with
  | leftDone ys => exact fun _ _ _ hys => hys
  | rightDone xs => exact fun _ _ hxs _ => hxs
  | @takeLeft x y xs ys out answer hanswer hle rest ih =>
    intro hSx hSy hxs hys
    obtain ⟨hx, hSx⟩ := forall_mem_cons.mp hSx
    have hy := hSy y (mem_cons_self ..)
    obtain ⟨hfirst, hxs⟩ := pairwise_cons.mp hxs
    rw [hanswer] at hle
    refine pairwise_cons.mpr ⟨fun z hz => ?_, ih hSx hSy hxs hys⟩
    rcases mem_append.mp (rest.perm.subset hz) with hz | hz
    · exact hfirst z hz
    · rcases mem_cons.mp hz with rfl | hz'
      · exact hle
      · exact hc.trans hx hy (hSy z hz) hle ((pairwise_cons.mp hys).1 z hz')
  | @takeRight x y xs ys out answer hanswer hgt rest ih =>
    intro hSx hSy hxs hys
    obtain ⟨hy, hSy⟩ := forall_mem_cons.mp hSy
    have hx := hSx x (mem_cons_self ..)
    obtain ⟨hfirst, hys⟩ := pairwise_cons.mp hys
    rw [hanswer] at hgt
    have hless : c y x ≤ 0 := ((hc.lt_iff hx hy).mp hgt).le
    refine pairwise_cons.mpr ⟨fun z hz => ?_, ih hSx hSy hxs hys⟩
    rcases mem_append.mp (rest.perm.subset hz) with hz | hz
    · rcases mem_cons.mp hz with rfl | hz'
      · exact hless
      · exact hc.trans hy hx (hSx z hz) hless ((pairwise_cons.mp hxs).1 z hz')
    · exact hfirst z hz

theorem filter_left_eq_nil (hc : IsConsistent c S) (hSx : ∀ u ∈ x :: xs, S u) (hy : S y)
    (hz : S z) (hxs : (x :: xs).Pairwise fun x y => c x y ≤ 0) (hgt : 0 < c x y) (hyz : c y z = 0) :
    (x :: xs).filter (fun u => c u z = 0) = [] := by
  rw [filter_eq_nil_iff]
  intro u hu huz
  rw [decide_eq_true_eq] at huz
  have hx := hSx x (mem_cons_self ..)
  -- the element would be both above `x` and equal to what is below `x`
  have hxu : c x u ≤ 0 := by
    rcases mem_cons.mp hu with rfl | hu
    · have hself := hc.flip hx hx
      have : (c u u).sign = 0 := by omega
      exact (Int.sign_eq_zero_iff_zero.mp this).le
    · exact (pairwise_cons.mp hxs).1 u hu
  have hxz : c x z ≤ 0 := hc.trans hx (hSx u hu) hz hxu huz.le
  have hzy : c z y ≤ 0 := ((hc.eq_iff hy hz).mp hyz).le
  have := hc.trans hx hz hy hxz hzy
  omega

theorem filter_cons_equal (h : c x z = 0) (l : List α) :
    (x :: l).filter (fun u => c u z = 0) = x :: l.filter (fun u => c u z = 0) := by simp [h]

theorem filter_cons_unequal (h : c x z ≠ 0) (l : List α) :
    (x :: l).filter (fun u => c u z = 0) = l.filter (fun u => c u z = 0) := by simp [h]

theorem Merged.filter (hc : IsConsistent c S) (hz : S z) {ys : List α}
    (h : Merged (fun x y answer => answer = c x y) xs ys out) :
    (∀ x ∈ xs, S x) → (∀ y ∈ ys, S y) → xs.Pairwise (fun x y => c x y ≤ 0) →
      out.filter (fun x => c x z = 0) =
        xs.filter (fun x => c x z = 0) ++ ys.filter (fun x => c x z = 0) := by
  induction h with
  | leftDone ys => exact fun _ _ _ => rfl
  | rightDone xs => exact fun _ _ _ => (append_nil _).symm
  | @takeLeft x y xs ys out answer hanswer hle rest ih =>
    intro hSx hSy hxs
    have hrest := ih (forall_mem_cons.mp hSx).2 hSy (pairwise_cons.mp hxs).2
    by_cases hxz : c x z = 0
    · simp [hrest, filter_cons_equal hxz]
    · rw [filter_cons_unequal hxz, hrest, filter_cons_unequal hxz]
  | @takeRight x y xs ys out answer hanswer hgt rest ih =>
    intro hSx hSy hxs
    obtain ⟨hy, hSy⟩ := forall_mem_cons.mp hSy
    have hrest := ih hSx hSy hxs
    rw [hanswer] at hgt
    by_cases hyz : c y z = 0
    · have hnone := filter_left_eq_nil hc hSx hy hz hxs hgt hyz
      rw [hnone, nil_append] at hrest
      simp [hrest, hnone, filter_cons_equal hyz]
    · rw [filter_cons_unequal hyz, hrest, filter_cons_unequal hyz]

/-- **Consistent answers give the stable sort.** -/
theorem BottomUp.stableSort {l : List α} (h : BottomUp (fun x y answer => answer = c x y) 1 l out)
    (hc : IsConsistent c S) (hl : ∀ x ∈ l, S x) : StableSort c S out l := by
  refine h.induct (P := StableSort c S) ⟨nofun, .nil, .nil, fun _ _ => rfl⟩ (fun x hx => ?_) ?_
  · refine ⟨fun y hy => ?_, .refl _, pairwise_singleton .., fun _ _ => rfl⟩
    rw [mem_singleton.mp hy]
    exact hl x hx
  · intro xs ys xs₀ ys₀ out hxs hys hout
    have hSx : ∀ x ∈ xs, S x := fun x hx => hxs.mem x (hxs.perm.subset hx)
    have hSy : ∀ y ∈ ys, S y := fun y hy => hys.mem y (hys.perm.subset hy)
    refine ⟨fun x hx => ?_, hout.perm.trans (hxs.perm.append hys.perm),
      hout.sorted hc hSx hSy hxs.sorted hys.sorted, fun z hz => ?_⟩
    · rcases mem_append.mp hx with hx | hx
      · exact hxs.mem x hx
      · exact hys.mem x hx
    · simp [hout.filter hc hz hSx hSy hxs.sorted, hxs.stable z hz, hys.stable z hz]

end Stable

end Bronze.Sorting
