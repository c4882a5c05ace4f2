import Bronze.BigNum.Double

/-!
# The order of double precision

Comparisons of doubles: NaN is neither below nor above anything, the two zeros are equal, and what
is left is the order of the rationals between two infinities.

## Main results

* `stdMin_le`, `le_stdMax`: bounds of both arguments, if the first is no NaN
-/

namespace Bronze.Ieee

open BigNum (Double)

/-- The rationals between two infinities. -/
abbrev Extended := WithBot (WithTop ℚ)

/-- A rational, between the infinities. -/
def rational (q : ℚ) : Extended := ((q : WithTop ℚ) : WithBot (WithTop ℚ))

/-- The place of a double in the order. -/
def extended : Double → Option Extended
  | .nan => none
  | .infinite true => some ⊥
  | .infinite false => some (⊤ : WithTop ℚ)
  | .finite true d => some (rational (-d.value))
  | .finite false d => some (rational d.value)

/-- `a < b`; false where either is NaN. -/
def lt (a b : Double) : Bool :=
  match extended a, extended b with
  | some x, some y => x < y
  | _, _ => false

/-- `a <= b`; false where either is NaN. -/
def le (a b : Double) : Bool :=
  match extended a, extended b with
  | some x, some y => x ≤ y
  | _, _ => false

/-- `a == b`: the two zeros are equal, and NaN is equal to nothing. -/
def eq (a b : Double) : Bool := le a b && le b a

/-- `a >= q`, against a rational. -/
def atLeast (q : ℚ) (a : Double) : Bool := (extended a).any (rational q ≤ ·)

/-- `a <= q`, against a rational. -/
def atMost (q : ℚ) (a : Double) : Bool := (extended a).any (· ≤ rational q)

/-- `a > q`, against a rational. -/
def above (q : ℚ) (a : Double) : Bool := (extended a).any (rational q < ·)

/-- `a < q`, against a rational. -/
def below (q : ℚ) (a : Double) : Bool := (extended a).any (· < rational q)

/-- `std::isfinite`. -/
def isFinite : Double → Bool
  | .finite _ _ => true
  | _ => false

/-- `std::min`: the first argument where the comparison fails, so also beside NaN. -/
def stdMin (a b : Double) : Double := if lt b a then b else a

/-- `std::max`: the first argument where the comparison fails, so also beside NaN. -/
def stdMax (a b : Double) : Double := if lt a b then b else a

variable {a b n : Double} {x y : Extended} {p q : ℚ}

/-- Only NaN has no place in the order. -/
theorem extended_eq_none : extended n = none ↔ n = .nan := by
  cases n with
  | nan => simp [extended]
  | infinite negative => cases negative <;> simp [extended]
  | finite negative d => cases negative <;> simp [extended]

/-- What is no NaN has a place in the order. -/
theorem exists_extended (h : n ≠ .nan) : ∃ x, extended n = some x :=
  Option.ne_none_iff_exists'.mp fun hnone => h (extended_eq_none.mp hnone)

/-- `<` of two doubles is `<` of their places. -/
theorem lt_iff (ha : extended a = some x) (hb : extended b = some y) : lt a b = true ↔ x < y := by
  simp [lt, ha, hb]

/-- `<=` of two doubles is `≤` of their places. -/
theorem le_iff (ha : extended a = some x) (hb : extended b = some y) : le a b = true ↔ x ≤ y := by
  simp [le, ha, hb]

/-- NaN is below nothing. -/
theorem le_nan_left : le .nan n = false := rfl

/-- Nothing is below NaN. -/
theorem le_nan_right : le n .nan = false := by
  rw [le]
  cases extended n <;> rfl

/-- Doubles that compare are no NaN. -/
theorem ne_nan_of_le (h : le a b = true) : a ≠ .nan ∧ b ≠ .nan := by
  constructor
  · rintro rfl
    cases h
  · rintro rfl
    rw [le_nan_right] at h
    cases h

section

variable (hn : extended n = some x)

include hn

theorem atLeast_iff : atLeast q n = true ↔ rational q ≤ x := by
  simp [atLeast, hn]

theorem atMost_iff : atMost q n = true ↔ x ≤ rational q := by
  simp [atMost, hn]

theorem above_iff : above q n = true ↔ rational q < x := by
  simp [above, hn]

theorem below_iff : below q n = true ↔ x < rational q := by
  simp [below, hn]

end

@[simp] theorem rational_le : rational p ≤ rational q ↔ p ≤ q := by
  simp [rational]

@[simp] theorem rational_lt : rational p < rational q ↔ p < q := by
  simp [rational]

/-- Above a bound is at least the bound. -/
theorem atLeast_of_above (h : above q n = true) : atLeast q n = true := by
  cases hn : extended n with
  | none => simp [above, hn] at h
  | some x => exact (atLeast_iff hn).mpr ((above_iff hn).mp h).le

theorem not_atMost_of_above (h : above q n = true) : ¬atMost q n = true := by
  cases hn : extended n with
  | none => simp [above, hn] at h
  | some x => exact fun hle => absurd ((above_iff hn).mp h) (not_lt.mpr ((atMost_iff hn).mp hle))

theorem not_atLeast_of_below (h : below q n = true) : ¬atLeast q n = true := by
  cases hn : extended n with
  | none => simp [below, hn] at h
  | some x => exact fun hle => absurd ((below_iff hn).mp h) (not_lt.mpr ((atLeast_iff hn).mp hle))

/-- At least a bound and not equal to it is above the bound. -/
theorem above_of_atLeast (h : atLeast q n = true)
    (hne : ¬(atLeast q n = true ∧ atMost q n = true)) : above q n = true := by
  cases hn : extended n with
  | none => simp [atLeast, hn] at h
  | some x =>
    refine (above_iff hn).mpr (not_le.mp fun hle => hne ⟨h, ?_⟩)
    exact (atMost_iff hn).mpr hle

/-- The places of two doubles that compare. -/
theorem exists_of_le (h : le a b = true) :
    ∃ x y, extended a = some x ∧ extended b = some y ∧ x ≤ y := by
  obtain ⟨x, hx⟩ := exists_extended (ne_nan_of_le h).1
  obtain ⟨y, hy⟩ := exists_extended (ne_nan_of_le h).2
  exact ⟨x, y, hx, hy, (le_iff hx hy).mp h⟩

/-- `<=` is transitive. -/
theorem le_trans (hab : le a b = true) (hbn : le b n = true) : le a n = true := by
  obtain ⟨x, y, hx, hy, hxy⟩ := exists_of_le hab
  obtain ⟨y', z, hy', hz, hyz⟩ := exists_of_le hbn
  obtain rfl := Option.some.inj (hy.symm.trans hy')
  exact (le_iff hx hz).mpr (hxy.trans hyz)

/-- A lower bound holds of every larger double. -/
theorem atLeast_of_le (h : atLeast q a = true) (hle : le a n = true) : atLeast q n = true := by
  obtain ⟨x, y, hx, hy, hxy⟩ := exists_of_le hle
  rw [atLeast_iff hx] at h
  exact (atLeast_iff hy).mpr (h.trans hxy)

/-- An upper bound holds of every smaller double. -/
theorem atMost_of_le (h : atMost q b = true) (hle : le n b = true) : atMost q n = true := by
  obtain ⟨x, y, hx, hy, hxy⟩ := exists_of_le hle
  rw [atMost_iff hy] at h
  exact (atMost_iff hx).mpr (hxy.trans h)

theorem above_of_le (h : above q a = true) (hle : le a n = true) : above q n = true := by
  obtain ⟨x, y, hx, hy, hxy⟩ := exists_of_le hle
  rw [above_iff hx] at h
  exact (above_iff hy).mpr (h.trans_le hxy)

theorem below_of_le (h : below q b = true) (hle : le n b = true) : below q n = true := by
  obtain ⟨x, y, hx, hy, hxy⟩ := exists_of_le hle
  rw [below_iff hy] at h
  exact (below_iff hx).mpr (hxy.trans_lt h)

/-- The smaller of two is below whatever is above either, if the first is no NaN. -/
theorem stdMin_le (ha : a ≠ .nan) (h : le a n = true ∨ le b n = true) :
    le (stdMin a b) n = true := by
  obtain ⟨x, hx⟩ := exists_extended ha
  rw [stdMin]
  split_ifs with hlt
  · obtain ⟨y, hy⟩ : ∃ y, extended b = some y := by
      refine exists_extended fun hb => ?_
      rw [hb] at hlt
      cases hlt
    rw [lt_iff hy hx] at hlt
    rcases h with h | h
    · exact le_trans ((le_iff hy hx).mpr hlt.le) h
    · exact h
  · rcases h with h | h
    · exact h
    · obtain ⟨y, hy⟩ := exists_extended (ne_nan_of_le h).1
      rw [lt_iff hy hx, not_lt] at hlt
      exact le_trans ((le_iff hx hy).mpr hlt) h

/-- The larger of two is above whatever is below either, if the first is no NaN. -/
theorem le_stdMax (ha : a ≠ .nan) (h : le n a = true ∨ le n b = true) :
    le n (stdMax a b) = true := by
  obtain ⟨x, hx⟩ := exists_extended ha
  rw [stdMax]
  split_ifs with hlt
  · obtain ⟨y, hy⟩ : ∃ y, extended b = some y := by
      refine exists_extended fun hb => ?_
      rw [hb, lt, hx] at hlt
      cases hlt
    rw [lt_iff hx hy] at hlt
    rcases h with h | h
    · exact le_trans h ((le_iff hx hy).mpr hlt.le)
    · exact h
  · rcases h with h | h
    · exact h
    · obtain ⟨y, hy⟩ := exists_extended (ne_nan_of_le h).2
      rw [lt_iff hx hy, not_lt] at hlt
      exact le_trans h ((le_iff hy hx).mpr hlt)

/-- A NaN that comes first stays. -/
theorem stdMin_nan : stdMin .nan b = .nan := by
  have hlt : lt b .nan = false := by
    rw [lt]
    cases extended b <;> rfl
  rw [stdMin, hlt]
  rfl

/-- A NaN that comes first stays. -/
theorem stdMax_nan : stdMax .nan b = .nan := rfl

end Bronze.Ieee
