import Mathlib

/-!
# Passes that may fail

A pass goes over a list and changes a state, or fails. Repeated until it changes nothing, it fails,
or it ends with a state that one more pass leaves as it is. It does end if every change increases a
bounded measure.

## Main results

* `foldlM_ok`, `foldlM_error`: the invariant of a pass
* `foldlM_stable`: a pass that changes nothing
* `untilUnchanged_spec`: what the repetition ends with
-/

namespace Bronze.Fixpoint

open List Except

variable {α β σ ε : Type}

theorem bind_eq_ok {x : Except ε α} {f : α → Except ε β} {b : β} :
    (x >>= f) = .ok b ↔ ∃ a, x = .ok a ∧ f a = .ok b := by
  cases x with
  | error e =>
    constructor
    · intro h
      cases h
    · rintro ⟨a, ha, -⟩
      cases ha
  | ok a =>
    constructor
    · exact fun h => ⟨a, rfl, h⟩
    · rintro ⟨a', ha, h⟩
      cases ha
      exact h

theorem bind_eq_error {x : Except ε α} {f : α → Except ε β} {e : ε} :
    (x >>= f) = .error e ↔ x = .error e ∨ ∃ a, x = .ok a ∧ f a = .error e := by
  cases x with
  | error e' =>
    constructor
    · intro h
      cases h
      exact .inl rfl
    · rintro (h | ⟨a, ha, -⟩)
      · cases h
        rfl
      · cases ha
  | ok a =>
    constructor
    · exact fun h => .inr ⟨a, rfl, h⟩
    · rintro (h | ⟨a', ha, h⟩)
      · cases h
      · cases ha
        exact h

section Pass

variable {f : σ → α → Except ε σ} {P : List α → σ → Prop} {l : List α} {s s' : σ}

theorem foldlM_ok (h : l.foldlM f s = .ok s') (hnil : P [] s)
    (hstep : ∀ pre a suf s s', l = pre ++ a :: suf → P pre s → f s a = .ok s' →
      P (pre ++ [a]) s') : P l s' := by
  -- by induction on the rest of the list
  suffices ∀ rest pre s, l = pre ++ rest → P pre s → rest.foldlM f s = .ok s' → P l s' from
    this l [] s rfl hnil h
  intro rest
  induction rest with
  | nil =>
    intro pre s hl hs h
    obtain rfl : s = s' := ok.inj h
    rwa [hl, append_nil]
  | cons a rest ih =>
    intro pre s hl hs h
    obtain ⟨s₁, hs₁, h⟩ := bind_eq_ok.mp h
    refine ih (pre ++ [a]) s₁ ?_ (hstep pre a rest s s₁ hl hs hs₁) h
    rw [hl, append_assoc]
    rfl

/-- A pass ends if each of its steps can be made, and fails as one of its steps does. -/
theorem foldlM_error {e : ε} (h : l.foldlM f s = .error e) (hnil : P [] s)
    (hstep : ∀ pre a suf s s', l = pre ++ a :: suf → P pre s → f s a = .ok s' → P (pre ++ [a]) s') :
    ∃ pre a suf s₁, l = pre ++ a :: suf ∧ P pre s₁ ∧ f s₁ a = .error e := by
  suffices ∀ rest pre s, l = pre ++ rest → P pre s → rest.foldlM f s = .error e →
      ∃ pre a suf s₁, l = pre ++ a :: suf ∧ P pre s₁ ∧ f s₁ a = .error e from
    this l [] s rfl hnil h
  intro rest
  induction rest with
  | nil =>
    intro pre s hl hs h
    cases h
  | cons a rest ih =>
    intro pre s hl hs h
    rcases bind_eq_error.mp h with h | ⟨s₁, hs₁, h⟩
    · exact ⟨pre, a, rest, s, hl, hs, h⟩
    · refine ih (pre ++ [a]) s₁ ?_ (hstep pre a rest s s₁ hl hs hs₁) h
      rw [hl, append_assoc]
      rfl

theorem foldlM_exists (hnil : P [] s)
    (hstep : ∀ pre a suf s, l = pre ++ a :: suf → P pre s → ∃ s', f s a = .ok s' ∧
      P (pre ++ [a]) s') :
    ∃ s', l.foldlM f s = .ok s' ∧ P l s' := by
  suffices ∀ rest pre s, l = pre ++ rest → P pre s → ∃ s', rest.foldlM f s = .ok s' ∧ P l s' from
    this l [] s rfl hnil
  intro rest
  induction rest with
  | nil =>
    intro pre s hl hs
    rw [append_nil] at hl
    exact ⟨s, rfl, hl ▸ hs⟩
  | cons a rest ih =>
    intro pre s hl hs
    obtain ⟨s₁, hs₁, hpre⟩ := hstep pre a rest s hl hs
    obtain ⟨s', hs', h⟩ := ih (pre ++ [a]) s₁ (by rw [hl, append_assoc]; rfl) hpre
    refine ⟨s', ?_, h⟩
    exact bind_eq_ok.mpr ⟨s₁, hs₁, hs'⟩

/-- If no step that changes the state is silent, a silent pass made every step on one state. -/
theorem foldlM_stable {f : σ × Bool → α → Except ε (σ × Bool)} {l : List α} {s s' : σ × Bool}
    (h : l.foldlM f s = .ok s') (hsilent : s'.2 = false)
    (hstep : ∀ s a s', f s a = .ok s' → s'.2 = false → s' = s) :
    s' = s ∧ ∀ a ∈ l, f s a = .ok s := by
  induction l generalizing s with
  | nil => exact ⟨(ok.inj h).symm, nofun⟩
  | cons a l ih =>
    obtain ⟨s₁, hs₁, h⟩ := bind_eq_ok.mp h
    obtain ⟨rfl, hrest⟩ := ih h
    obtain rfl := hstep s a s' hs₁ hsilent
    refine ⟨rfl, fun b hb => ?_⟩
    rcases mem_cons.mp hb with rfl | hb
    · exact hs₁
    · exact hrest b hb

theorem forM_eq_ok {f : α → Except ε Unit} {l : List α} {u : Unit} :
    l.forM f = .ok u ↔ ∀ a ∈ l, f a = .ok () := by
  induction l with
  | nil => exact ⟨nofun, fun _ => rfl⟩
  | cons a l ih =>
    show (f a >>= fun _ => l.forM f) = .ok u ↔ _
    rw [bind_eq_ok, forall_mem_cons]
    constructor
    · rintro ⟨_, ha, hl⟩
      exact ⟨ha, ih.mp hl⟩
    · rintro ⟨ha, hl⟩
      exact ⟨(), ha, ih.mpr hl⟩

theorem foldlM_forall {Q : α → Prop} (h : l.foldlM f s = .ok s')
    (hstep : ∀ s a s', f s a = .ok s' → Q a) : ∀ a ∈ l, Q a := by
  refine foldlM_ok (P := fun pre _ => ∀ a ∈ pre, Q a) h nofun fun pre a _ s s' _ hpre hs b hb => ?_
  rcases mem_append.mp hb with hb | hb
  · exact hpre b hb
  · rw [mem_singleton.mp hb]
    exact hstep s a s' hs

end Pass

theorem mapM_ok {f : α → Except ε β} {l : List α} {ys : List β}
    (h : l.mapM f = .ok ys) : Forall₂ (fun a b => f a = .ok b) l ys := by
  induction l generalizing ys with
  | nil =>
    obtain rfl : [] = ys := ok.inj h
    exact .nil
  | cons a l ih =>
    rw [mapM_cons] at h
    obtain ⟨b, hb, h⟩ := bind_eq_ok.mp h
    obtain ⟨bs, hbs, h⟩ := bind_eq_ok.mp h
    obtain rfl : b :: bs = ys := ok.inj h
    exact .cons hb (ih hbs)

theorem mapM_error {f : α → Except ε β} {l : List α} {e : ε}
    (h : l.mapM f = .error e) : ∃ a ∈ l, f a = .error e := by
  induction l with
  | nil => cases h
  | cons a l ih =>
    rw [mapM_cons] at h
    rcases bind_eq_error.mp h with h | ⟨b, -, h⟩
    · exact ⟨a, mem_cons_self .., h⟩
    · rcases bind_eq_error.mp h with h | ⟨bs, -, h⟩
      · obtain ⟨a', ha', h⟩ := ih h
        exact ⟨a', mem_cons_of_mem a ha', h⟩
      · cases h

/-- A pass, repeated until it reports that it changed nothing. -/
def untilUnchanged (outOfFuel : ε) (pass : σ → Except ε (σ × Bool)) :
    (fuel : Nat) → σ → Except ε σ
  | 0, _ => .error outOfFuel
  | fuel + 1, s =>
    match pass s with
    | .error e => .error e
    | .ok (s', changed) => if changed then untilUnchanged outOfFuel pass fuel s' else .ok s'

variable {pass : σ → Except ε (σ × Bool)} {outOfFuel : ε} {P : σ → Prop}

/-- What the repetition ends with is what a pass leaves as it is, and keeps the invariant of the
passes. -/
theorem untilUnchanged_ok (hpass : ∀ s s' changed, P s → pass s = .ok (s', changed) → P s')
    {fuel : Nat} {s s' : σ} (hs : P s) (h : untilUnchanged outOfFuel pass fuel s = .ok s') :
    ∃ s₀, P s₀ ∧ pass s₀ = .ok (s', false) := by
  induction fuel generalizing s with
  | zero => cases h
  | succ fuel ih =>
    rw [untilUnchanged] at h
    cases hrun : pass s with
    | error e =>
      rw [hrun] at h
      cases h
    | ok r =>
      obtain ⟨s₁, changed⟩ := r
      rw [hrun] at h
      cases changed with
      | false =>
        obtain rfl : s₁ = s' := ok.inj h
        exact ⟨s, hs, hrun⟩
      | true => exact ih (hpass s s₁ true hs hrun) h

/-- **Passes that get the state somewhere end** once there is nothing left to change, or before
that. -/
theorem untilUnchanged_ends {P : Nat → σ → Prop}
    {n : Nat} (hpass : ∀ k s, P k s → ∃ s' changed, pass s = .ok (s', changed) ∧ P (k + 1) s' ∧
      (n ≤ k → changed = false)) {fuel k : Nat} {s : σ} (hs : P k s) (hk : k ≤ n)
    (hfuel : n < k + fuel) :
    ∃ s₀ s' k', untilUnchanged outOfFuel pass fuel s = .ok s' ∧ pass s₀ = .ok (s', false) ∧
      P k' s₀ ∧ P (k' + 1) s' := by
  induction fuel generalizing k s with
  | zero => omega
  | succ fuel ih =>
    obtain ⟨s', changed, hrun, hs', hsilent⟩ := hpass k s hs
    rw [untilUnchanged, hrun]
    cases changed with
    | false => exact ⟨s, s', k, rfl, hrun, hs, hs'⟩
    | true =>
      have hlt : ¬n ≤ k := fun hle => Bool.noConfusion (hsilent hle)
      exact ih hs' (by omega) (by omega)

/-- **A pass that increases a bounded measure ends**, with the outcome of a pass from a state that
keeps the invariant. -/
theorem untilUnchanged_spec
    {measure : σ → Nat} {bound : Nat} (hpass : ∀ s s' changed, P s → pass s = .ok (s', changed) →
      P s' ∧ (changed = true → measure s < measure s'))
    (hbound : ∀ s, P s → measure s ≤ bound) {fuel : Nat} {s : σ} (hs : P s)
    (hfuel : bound < measure s + fuel) :
    ∃ s₀, P s₀ ∧ match untilUnchanged outOfFuel pass fuel s with
      | .ok s' => pass s₀ = .ok (s', false)
      | .error e => pass s₀ = .error e := by
  induction fuel generalizing s with
  | zero =>
    have hle := hbound s hs
    omega
  | succ fuel ih =>
    rw [untilUnchanged]
    cases hrun : pass s with
    | error e => exact ⟨s, hs, hrun⟩
    | ok r =>
      obtain ⟨s', changed⟩ := r
      obtain ⟨hs', hlt⟩ := hpass s s' changed hs hrun
      cases changed with
      | false => exact ⟨s, hs, hrun⟩
      | true =>
        have hlt := hlt rfl
        exact ih hs' (by omega)

end Bronze.Fixpoint
