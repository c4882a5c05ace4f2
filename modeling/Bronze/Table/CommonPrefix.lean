import Mathlib

/-!
# The longest common prefix

The elements two lists begin with alike, as the loop that counts them. It is the greatest lower
bound of the two in the order of prefixes.

## Main results

* `prefix_commonPrefix_iff`: a list is a prefix of the common prefix if it is one of both
-/

namespace Bronze

open List Nat

section CommonPrefix

variable {α : Type} [DecidableEq α]

/-- How many elements two lists begin with alike. -/
def commonLength : List α → List α → Nat
  | x :: xs, y :: ys => if x = y then commonLength xs ys + 1 else 0
  | _, _ => 0

/-- The elements two lists begin with alike. -/
def commonPrefix (xs ys : List α) : List α := xs.take (commonLength xs ys)

theorem commonPrefix_cons (x : α) (xs ys : List α) :
    commonPrefix (x :: xs) (x :: ys) = x :: commonPrefix xs ys := by
  simp [commonLength, commonPrefix]

theorem commonLength_le_left (xs ys : List α) : commonLength xs ys ≤ xs.length := by
  induction xs generalizing ys with
  | nil => exact le_refl 0
  | cons x xs ih =>
    cases ys with
    | nil => exact zero_le _
    | cons y ys =>
      rw [commonLength]
      split
      · exact succ_le_succ (ih ys)
      · exact zero_le _

theorem length_commonPrefix (xs ys : List α) : (commonPrefix xs ys).length = commonLength xs ys :=
  length_take_of_le (commonLength_le_left xs ys)

/-- **The common prefix is the meet of the two lists.** -/
theorem prefix_commonPrefix_iff (zs xs ys : List α) :
    zs <+: commonPrefix xs ys ↔ zs <+: xs ∧ zs <+: ys := by
  induction zs generalizing xs ys with
  | nil => simp
  | cons z zs ih =>
    cases xs with
    | nil => simp [commonPrefix]
    | cons x xs =>
      cases ys with
      | nil => simp [commonPrefix, commonLength]
      | cons y ys =>
        by_cases hxy : x = y
        · subst hxy
          rw [commonPrefix_cons, cons_prefix_cons, cons_prefix_cons, cons_prefix_cons, ih]
          exact and_and_left
        · rw [commonPrefix, commonLength, if_neg hxy, cons_prefix_cons, cons_prefix_cons]
          refine iff_of_false (by simp) ?_
          rintro ⟨⟨rfl, -⟩, rfl, -⟩
          exact hxy rfl

theorem commonPrefix_prefix_left (xs ys : List α) : commonPrefix xs ys <+: xs :=
  ((prefix_commonPrefix_iff _ xs ys).mp (prefix_refl _)).1

theorem commonPrefix_prefix_right (xs ys : List α) : commonPrefix xs ys <+: ys :=
  ((prefix_commonPrefix_iff _ xs ys).mp (prefix_refl _)).2

/-- The common prefix is the first list if this one is a prefix of the other. -/
theorem commonLength_eq_left_iff (xs ys : List α) : commonLength xs ys = xs.length ↔ xs <+: ys := by
  constructor
  · intro h
    have hall : commonPrefix xs ys = xs := by simp [commonPrefix, h]
    exact hall ▸ commonPrefix_prefix_right xs ys
  · intro h
    have hle := ((prefix_commonPrefix_iff xs xs ys).mpr ⟨prefix_refl xs, h⟩).length_le
    rw [length_commonPrefix] at hle
    exact le_antisymm (commonLength_le_left xs ys) hle

theorem commonLength_eq_both_iff (xs ys : List α) :
    commonLength xs ys = xs.length ∧ commonLength xs ys = ys.length ↔ xs = ys := by
  constructor
  · rintro ⟨hx, hy⟩
    exact ((commonLength_eq_left_iff xs ys).mp hx).eq_of_length (hx.symm.trans hy)
  · rintro rfl
    have h := (commonLength_eq_left_iff xs xs).mpr (prefix_refl xs)
    exact ⟨h, h⟩

end CommonPrefix

end Bronze
