import Mathlib

/-!
# Depth-first walks

A walk follows the edges of each vertex in their order, enters a vertex once, and emits it on the
way out. The vertices that were entered are seen, whether or not they were emitted already, so a
walk goes round a cycle once.

## Main results

* `Visits.nodup`, `Visits.mem_iff_reachable`: what a walk emits
* `Visits.congr`: two orders of the edges make one walk if they agree on what is fresh
-/

namespace Bronze.Graph

open List

variable {V : Type}

/-- `Visits adj seen todo seen' out entries`: from `todo`, with `seen` entered before, the walk
emits `out` and ends with `seen'` entered. `entries` are the vertices it entered, each with what
was seen before. -/
inductive Visits (adj : V → List V) :
    List V → List V → List V → List V → List (List V × V) → Prop where
  | nil (seen : List V) : Visits adj seen [] seen [] []
  | skip {seen seen' out vs : List V} {v : V} {entries : List (List V × V)} (hv : v ∈ seen)
      (htail : Visits adj seen vs seen' out entries) :
      Visits adj seen (v :: vs) seen' out entries
  | enter {seen seen₁ seen₂ out₁ out₂ vs : List V} {v : V}
      {entries₁ entries₂ : List (List V × V)} (hv : v ∉ seen)
      (hbelow : Visits adj (v :: seen) (adj v) seen₁ out₁ entries₁)
      (htail : Visits adj seen₁ vs seen₂ out₂ entries₂) :
      Visits adj seen (v :: vs) seen₂ (out₁ ++ v :: out₂) ((seen, v) :: (entries₁ ++ entries₂))

namespace Visits

variable {adj : V → List V} {seen seen' todo out : List V} {entries : List (List V × V)}

theorem append {seen₁ seen₂ todo₁ todo₂ out₁ out₂ : List V} {entries₁ entries₂ : List (List V × V)}
    (h₁ : Visits adj seen todo₁ seen₁ out₁ entries₁)
    (h₂ : Visits adj seen₁ todo₂ seen₂ out₂ entries₂) :
    Visits adj seen (todo₁ ++ todo₂) seen₂ (out₁ ++ out₂) (entries₁ ++ entries₂) := by
  induction h₁ with
  | nil seen => exact h₂
  | skip hv _ ih => exact .skip hv (ih h₂)
  | enter hv hbelow _ _ ih =>
    have h := enter hv hbelow (ih h₂)
    simpa [append_assoc] using h

section

variable (h : Visits adj seen todo seen' out entries)

include h

theorem unique {seen₂ out₂ : List V}
    {entries₂ : List (List V × V)} (h₂ : Visits adj seen todo seen₂ out₂ entries₂) :
    seen' = seen₂ ∧ out = out₂ ∧ entries = entries₂ := by
  induction h generalizing seen₂ out₂ entries₂ with
  | nil seen => cases h₂ with | nil => exact ⟨rfl, rfl, rfl⟩
  | skip hv _ ih =>
    cases h₂ with
    | skip _ htail => exact ih htail
    | enter hnot _ _ => exact absurd hv hnot
  | enter hv _ _ ihbelow ihtail =>
    cases h₂ with
    | skip hin _ => exact absurd hin hv
    | enter _ hbelow htail =>
      obtain ⟨rfl, rfl, rfl⟩ := ihbelow hbelow
      obtain ⟨rfl, rfl, rfl⟩ := ihtail htail
      exact ⟨rfl, rfl, rfl⟩

theorem mem_seen (x : V) : x ∈ seen' ↔ x ∈ seen ∨ x ∈ out := by
  induction h with
  | nil seen => simp
  | skip _ _ ih => exact ih
  | enter _ _ _ ihbelow ihtail =>
    rw [ihtail, ihbelow]
    simp only [mem_append, mem_cons]
    tauto

theorem not_mem_seen : ∀ x ∈ out, x ∉ seen := by
  induction h with
  | nil seen => simp
  | skip _ _ ih => exact ih
  | @enter _ _ _ _ _ _ v _ _ hv hbelow _ ihbelow ihtail =>
    intro x hx hseen
    rcases mem_append.mp hx with hx | hx
    · exact ihbelow x hx (mem_cons_of_mem v hseen)
    · rcases mem_cons.mp hx with rfl | hx
      · exact hv hseen
      · exact ihtail x hx ((hbelow.mem_seen x).mpr (.inl (mem_cons_of_mem v hseen)))

/-- **No vertex is emitted twice.** -/
theorem nodup : out.Nodup := by
  induction h with
  | nil seen => exact nodup_nil
  | skip _ _ ih => exact ih
  | @enter seen _ _ _ _ _ v _ _ hv hbelow htail ihbelow ihtail =>
    have hseen := hbelow.mem_seen
    refine nodup_append.mpr ⟨ihbelow, nodup_cons.mpr ⟨?_, ihtail⟩, ?_⟩
    · intro hv'
      exact htail.not_mem_seen v hv' ((hseen v).mpr (.inl (mem_cons_self ..)))
    · intro x hx y hy hxy
      subst hxy
      rcases mem_cons.mp hy with rfl | hy
      · exact hbelow.not_mem_seen _ hx (mem_cons_self ..)
      · exact htail.not_mem_seen x hy ((hseen x).mpr (.inr hx))

theorem todo_subset : ∀ x ∈ todo, x ∈ seen' := by
  induction h with
  | nil seen => simp
  | skip hv htail ih =>
    intro x hx
    rcases mem_cons.mp hx with rfl | hx
    · exact (htail.mem_seen x).mpr (.inl hv)
    · exact ih x hx
  | enter _ hbelow htail _ ihtail =>
    intro x hx
    rcases mem_cons.mp hx with rfl | hx
    · exact (htail.mem_seen x).mpr (.inl ((hbelow.mem_seen x).mpr (.inl (mem_cons_self ..))))
    · exact ihtail x hx

theorem closed : ∀ x ∈ out, ∀ y ∈ adj x, y ∈ seen' := by
  induction h with
  | nil seen => simp
  | skip _ _ ih => exact ih
  | enter _ hbelow htail ihbelow ihtail =>
    intro x hx y hy
    have hlater : ∀ z ∈ _, z ∈ _ := fun z hz => (htail.mem_seen z).mpr (.inl hz)
    rcases mem_append.mp hx with hx | hx
    · exact hlater y (ihbelow x hx y hy)
    · rcases mem_cons.mp hx with rfl | hx
      · exact hlater y (hbelow.todo_subset y hy)
      · exact ihtail x hx y hy

theorem reachable : ∀ x ∈ out, ∃ v ∈ todo, Relation.ReflTransGen (fun a b => b ∈ adj a) v x := by
  induction h with
  | nil seen => simp
  | skip _ _ ih =>
    intro x hx
    obtain ⟨v, hv, hreach⟩ := ih x hx
    exact ⟨v, mem_cons_of_mem _ hv, hreach⟩
  | @enter _ _ _ _ _ _ v _ _ _ _ _ ihbelow ihtail =>
    intro x hx
    rcases mem_append.mp hx with hx | hx
    · obtain ⟨w, hw, hreach⟩ := ihbelow x hx
      exact ⟨v, mem_cons_self .., .head hw hreach⟩
    · rcases mem_cons.mp hx with rfl | hx
      · exact ⟨x, mem_cons_self .., .refl⟩
      · obtain ⟨w, hw, hreach⟩ := ihtail x hx
        exact ⟨w, mem_cons_of_mem _ hw, hreach⟩

end

/-- **A walk from one vertex emits what it reaches.** -/
theorem mem_iff_reachable {v : V} (h : Visits adj [] [v] seen' out entries) (x : V) :
    x ∈ out ↔ Relation.ReflTransGen (fun a b => b ∈ adj a) v x := by
  constructor
  · intro hx
    obtain ⟨w, hw, hreach⟩ := h.reachable x hx
    rwa [mem_singleton.mp hw] at hreach
  · intro hreach
    have hout : ∀ y, y ∈ seen' → y ∈ out := by
      intro y hy
      exact ((h.mem_seen y).mp hy).resolve_left (not_mem_nil)
    induction hreach with
    | refl => exact hout v (h.todo_subset v (mem_cons_self ..))
    | tail _ hedge ih => exact hout _ (h.closed _ ih _ hedge)

end Visits

section Fresh

variable [DecidableEq V]

/-- The vertices of a list that are not seen, each at its first place. -/
def fresh (seen : List V) : List V → List V
  | [] => []
  | v :: vs => if v ∈ seen then fresh seen vs else v :: fresh (v :: seen) vs

variable {adj adj' : V → List V} {seen seen' todo out known : List V}
  {entries : List (List V × V)}

theorem visits_fresh (hknown : known ⊆ seen) :
    Visits adj seen (fresh known todo) seen' out entries ↔
      Visits adj seen todo seen' out entries := by
  induction todo generalizing seen known out entries with
  | nil => exact Iff.rfl
  | cons v vs ih =>
    rw [fresh]
    split_ifs with hv
    · -- what is known is seen
      rw [ih hknown]
      constructor
      · exact .skip (hknown hv)
      · intro h
        cases h with
        | skip _ htail => exact htail
        | enter hnot _ _ => exact absurd (hknown hv) hnot
    · constructor
      · intro h
        cases h with
        | skip hin htail => exact .skip hin ((ih (cons_subset.mpr ⟨hin, hknown⟩)).mp htail)
        | @enter _ _ _ _ _ _ _ _ _ hnot hbelow htail =>
          refine .enter hnot hbelow ((ih ?_).mp htail)
          intro x hx
          refine (hbelow.mem_seen x).mpr (.inl ?_)
          exact cons_subset_cons v hknown hx
      · intro h
        cases h with
        | skip hin htail => exact .skip hin ((ih (cons_subset.mpr ⟨hin, hknown⟩)).mpr htail)
        | @enter _ _ _ _ _ _ _ _ _ hnot hbelow htail =>
          refine .enter hnot hbelow ((ih ?_).mpr htail)
          intro x hx
          refine (hbelow.mem_seen x).mpr (.inl ?_)
          exact cons_subset_cons v hknown hx

/-- **Two orders of the edges make one walk** if, whenever a vertex is entered, what is fresh of
its edges comes in one order. -/
theorem Visits.congr (h : Visits adj seen todo seen' out entries)
    (hsame : ∀ e ∈ entries, fresh (e.2 :: e.1) (adj e.2) = fresh (e.2 :: e.1) (adj' e.2)) :
    Visits adj' seen todo seen' out entries := by
  induction h with
  | nil seen => exact .nil seen
  | skip hv _ ih => exact .skip hv (ih hsame)
  | @enter seen _ _ _ _ _ v _ _ hv _ _ ihbelow ihtail =>
    have hbelow := ihbelow fun e he =>
      hsame e (mem_cons_of_mem _ (mem_append_left _ he))
    have htail := ihtail fun e he =>
      hsame e (mem_cons_of_mem _ (mem_append_right _ he))
    rw [← visits_fresh (Subset.refl _), hsame _ (mem_cons_self ..),
      visits_fresh (Subset.refl _)] at hbelow
    exact .enter hv hbelow htail

end Fresh

end Bronze.Graph
