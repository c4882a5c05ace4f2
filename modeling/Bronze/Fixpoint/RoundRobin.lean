import Bronze.Fixpoint.Passes

/-!
# Sets that are brought up to date in turn

Each of a family of finite sets has a transfer function that is monotone in all of them. From empty
sets, passes over a list bring one after the other up to date, until none changes. They end with the
least sets that the transfer functions leave as they are.

## Main results

* `refresh_ends`: the least fixpoint is reached, and when
-/

namespace Bronze.Fixpoint

open List Function Finset

variable {ι α ε : Type}

/-- The set of an index is brought up to date, with whether it changed. -/
def refresh [DecidableEq ι] [DecidableEq α] (F : (ι → Finset α) → ι → Finset α)
    (s : (ι → Finset α) × Bool) (b : ι) : (ι → Finset α) × Bool :=
  if F s.1 b ≠ s.1 b then (update s.1 b (F s.1 b), true) else s

/-- What holds between two steps: the sets are on their way to the least that are closed. -/
structure Rising (F : (ι → Finset α) → ι → Finset α) (l : List ι) (s : ι → Finset α) : Prop where
  behind : ∀ b ∈ l, s b ⊆ F s b
  outside : ∀ b, b ∉ l → s b = ∅
  least : ∀ t : ι → Finset α, (∀ b ∈ l, F t b ⊆ t b) → s ≤ t

variable {F : (ι → Finset α) → ι → Finset α} {l : List ι} {s s' : ι → Finset α}

theorem rising_empty : Rising F l fun _ => ∅ :=
  ⟨fun _ _ => empty_subset _, fun _ _ => rfl, fun _ _ _ => empty_subset _⟩

variable [DecidableEq ι]

/-- A set that is brought up to date grows. -/
theorem Rising.le_update (h : Rising F l s) {b : ι} (hb : b ∈ l) : s ≤ update s b (F s b) := by
  intro c
  by_cases hc : c = b
  · subst hc
    rw [update_self]
    exact h.behind c hb
  · rw [update_of_ne hc]

theorem Rising.update (hmono : Monotone F) (h : Rising F l s) {b : ι} (hb : b ∈ l) :
    Rising F l (update s b (F s b)) := by
  have hle := h.le_update hb
  refine ⟨fun c hc => ?_, fun c hc => ?_, fun t ht c => ?_⟩
  · by_cases hcb : c = b
    · subst hcb
      rw [update_self]
      exact hmono hle c
    · rw [update_of_ne hcb]
      exact (h.behind c hc).trans (hmono hle c)
  · rw [update_of_ne fun hcb : c = b => hc (hcb ▸ hb)]
    exact h.outside c hc
  · by_cases hcb : c = b
    · subst hcb
      rw [update_self]
      exact (hmono (h.least t ht) c).trans (ht c hb)
    · rw [update_of_ne hcb]
      exact h.least t ht c

/-- The elements of all sets, counted. -/
def total (l : List ι) (s : ι → Finset α) : Nat := ∑ b ∈ l.toFinset, (s b).card

theorem total_lt (h : s ≤ s') {b : ι} (hb : b ∈ l) (hne : s b ≠ s' b) : total l s < total l s' :=
  Finset.sum_lt_sum (fun b _ => card_le_card (h b))
    ⟨b, mem_toFinset.mpr hb, card_lt_card ((h b).ssubset_of_ne hne)⟩

variable [DecidableEq α]

/-- What a pass from one family to another leaves behind. -/
structure Passed (F : (ι → Finset α) → ι → Finset α) (l bs : List ι) (s s' : ι → Finset α)
    (changed changed' : Bool) : Prop where
  rising : Rising F l s'
  more : total l s ≤ total l s'
  kept : changed = true → changed' = true
  grown : changed' = true → changed = true ∨ total l s < total l s'
  silent : changed' = false → s' = s ∧ ∀ b ∈ bs, F s b = s b

/-- **A pass** keeps the invariant; it changes nothing, or the sets grow. -/
theorem foldl_refresh (hmono : Monotone F) (h : Rising F l s) {bs : List ι} (hbs : ∀ b ∈ bs, b ∈ l)
    {changed changed' : Bool} (hpass : bs.foldl (refresh F) (s, changed) = (s', changed')) :
    Passed F l bs s s' changed changed' := by
  induction bs generalizing s changed with
  | nil =>
    obtain ⟨rfl, rfl⟩ := Prod.mk.inj hpass
    exact ⟨h, le_rfl, id, .inl, fun _ => ⟨rfl, fun _ hb => absurd hb not_mem_nil⟩⟩
  | cons b bs ih =>
    obtain ⟨hb, hbs⟩ := forall_mem_cons.mp hbs
    rw [foldl_cons, refresh] at hpass
    by_cases hne : F s b ≠ s b
    · rw [if_pos hne] at hpass
      have hlt : total l s < total l (Function.update s b (F s b)) := by
        refine total_lt (h.le_update hb) hb ?_
        rw [update_self]
        exact hne.symm
      obtain ⟨hrise, hmore, hkept, -, -⟩ := ih (h.update hmono hb) hbs hpass
      have hchanged := hkept rfl
      refine ⟨hrise, hlt.le.trans hmore, fun _ => hchanged, fun _ => .inr (hlt.trans_le hmore),
        fun hsilent => ?_⟩
      rw [hchanged] at hsilent
      cases hsilent
    · rw [if_neg hne] at hpass
      obtain ⟨hrise, hmore, hkept, hgrown, hsame⟩ := ih h hbs hpass
      refine ⟨hrise, hmore, hkept, hgrown, fun hsilent => ?_⟩
      obtain ⟨rfl, hrest⟩ := hsame hsilent
      exact ⟨rfl, forall_mem_cons.mpr ⟨not_not.mp hne, hrest⟩⟩

/-- **The passes end** with the least fixpoint, once there are more than elements to come. -/
theorem refresh_ends (hmono : Monotone F) {bs : List ι} (hbs : ∀ b, b ∈ bs ↔ b ∈ l) {U : Finset α}
    (hU : ∀ b ∈ l, F (fun _ => U) b ⊆ U) (outOfFuel : ε) :
    ∃ s, Rising F l s ∧ (∀ b ∈ l, F s b = s b) ∧ ∀ fuel, l.toFinset.card * U.card < fuel →
      untilUnchanged outOfFuel (fun s => .ok (bs.foldl (refresh F) (s, false))) fuel (fun _ => ∅) =
        .ok s := by
  have hends : ∀ fuel, l.toFinset.card * U.card < fuel → ∃ s, Rising F l s ∧
      (∀ b ∈ l, F s b = s b) ∧
        untilUnchanged outOfFuel (fun s => .ok (bs.foldl (refresh F) (s, false))) fuel
          (fun _ => ∅) = .ok s := by
    intro fuel hfuel
    have hpassed : ∀ s s' changed, Rising F l s →
        (.ok (bs.foldl (refresh F) (s, false)) : Except ε _) = .ok (s', changed) →
          Passed F l bs s s' false changed := fun s s' changed hs hpass =>
      foldl_refresh hmono hs (fun b => (hbs b).mp) (Except.ok.inj hpass)
    have hgrown : ∀ s s' changed, Rising F l s →
        (.ok (bs.foldl (refresh F) (s, false)) : Except ε _) = .ok (s', changed) →
          Rising F l s' ∧ (changed = true → total l s < total l s') := by
      intro s s' changed hs hpass
      have h := hpassed s s' changed hs hpass
      exact ⟨h.rising, fun hchanged => (h.grown hchanged).resolve_left Bool.false_ne_true⟩
    have hbound : ∀ s, Rising F l s → total l s ≤ l.toFinset.card * U.card := fun s hs =>
      sum_le_card_nsmul _ _ _ fun b _ => card_le_card (hs.least (fun _ => U) hU b)
    obtain ⟨s₀, hs₀, hrun⟩ := @untilUnchanged_spec _ ε _ outOfFuel _ _ _ hgrown hbound fuel _
      rising_empty (hfuel.trans_le (Nat.le_add_left _ _))
    cases hresult : untilUnchanged outOfFuel (fun s => .ok (bs.foldl (refresh F) (s, false))) fuel
        (fun _ => ∅) with
    | error e =>
      rw [hresult] at hrun
      cases hrun
    | ok s =>
      rw [hresult] at hrun
      obtain ⟨rfl, hfixed⟩ := (hpassed s₀ s false hs₀ hrun).silent rfl
      exact ⟨s, hs₀, fun b hb => hfixed b ((hbs b).mpr hb), rfl⟩
  -- each number of rounds reaches a least fixpoint, so all reach the same
  obtain ⟨s, hs, hfixed, -⟩ := hends _ (Nat.lt_succ_self _)
  refine ⟨s, hs, hfixed, fun fuel hfuel => ?_⟩
  obtain ⟨s', hs', hfixed', hrun⟩ := hends fuel hfuel
  rw [hrun, le_antisymm (hs'.least s fun b hb => (hfixed b hb).le)
    (hs.least s' fun b hb => (hfixed' b hb).le)]

end Bronze.Fixpoint
