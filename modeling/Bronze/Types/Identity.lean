import Bronze.Types.Lattice

/-!
# What a join knows about an object

An identity is a claim on two axes, which object and how well it was watched, and a join is to keep
the weaker side of each. What it drops to where two classes meet is `object()`, an object of no
class; the constructor leaves its flag as it is for a watched object, so the join of two objects
that were not watched says that it was.

## Main results

* `join_watches_iff`: exactly when a join and a merge owe nothing
-/

namespace Bronze.Types

open Ty List

/-- What a join may not strengthen: an object nobody watched being made, a guessed identity, and
which class it is. -/
def KeepsDoubt (a b : Ty) : Prop :=
  (a.builtHere = false → b.builtHere = false → (join a b).builtHere = false) ∧
  (a.identityOnly = true ∨ b.identityOnly = true → (join a b).shapeClass ≠ none →
    (join a b).identityOnly = true) ∧
  ∀ C, (join a b).shapeClass = some C →
    (a = .never ∨ a.shapeClass = some C) ∧ (b = .never ∨ b.shapeClass = some C)

/-- A merge that says the object was watched being made says it of every edge. -/
def WatchesAll (edges : List Ty) : Prop :=
  (mergeEdges join edges).builtHere = true → ∀ e ∈ edges, e = .never ∨ e.builtHere = true

/-- Objects of two classes, neither of which was watched. -/
def BlursPair (a b : Ty) : Prop :=
  a.kind = .object ∧ b.kind = .object ∧ a.builtHere = false ∧ b.builtHere = false ∧
    a.shapeClass ≠ b.shapeClass

/-- Nothing but objects, not all of one class, and one that was not watched. -/
def Blurs (edges : List Ty) : Prop :=
  (∀ e ∈ edges, e = .never ∨ e.kind = .object) ∧
  (∃ e ∈ edges, e ≠ .never ∧ e.builtHere = false) ∧
  ∃ e ∈ edges, ∃ f ∈ edges, e ≠ .never ∧ f ≠ .never ∧ e.shapeClass ≠ f.shapeClass

section Objects

variable {a b : Ty} {C : ShapeClassId}

theorem kind_eq_object : a.kind = .object ↔ ∃ i, a = .object i := by
  cases a <;> simp [kind]

theorem shapeClass_eq_some : a.shapeClass = some C ↔ ∃ p, a = .object (some (C, p)) := by
  cases a with
  | object i => rcases i with - | ⟨D, p⟩ <;> simp [shapeClass]
  | _ => simp [shapeClass]

theorem identityOnly_iff : a.identityOnly = true ↔ ∃ C, a = .object (some (C, .identityOnly)) := by
  cases a with
  | object i => rcases i with - | ⟨D, p | p | p⟩ <;> simp [identityOnly]
  | _ => simp [identityOnly]

theorem builtHere_iff :
    a.builtHere = true ↔ a = .object none ∨ ∃ C, a = .object (some (C, .builtHere)) := by
  cases a with
  | object i => rcases i with - | ⟨D, p | p | p⟩ <;> simp [builtHere]
  | _ => simp [builtHere]

variable {k : Option (ShapeClassId × Provenance)}

theorem le_object_iff : a ≤ .object k ↔ a = .never ∨ ∃ i, a = .object i ∧ IdentityLe i k := by
  constructor
  · intro h
    by_cases ha : a = .never
    · exact .inl ha
    · exact .inr (le_object ha h)
  · rintro (rfl | ⟨i, rfl, h⟩)
    · exact never_le _
    · exact object_le_object.mpr h

/-- An object of the class `C`, however well it is known, or nothing yet. -/
theorem le_classOf_iff :
    a ≤ .object (some (C, .identityOnly)) ↔ a = .never ∨ a.shapeClass = some C := by
  rw [le_object_iff, shapeClass_eq_some]
  refine or_congr_right ⟨?_, ?_⟩
  · rintro ⟨- | ⟨D, p⟩, rfl, h⟩
    · cases h
    · obtain rfl : D = C := h.1
      exact ⟨p, rfl⟩
  · rintro ⟨p, rfl⟩
    exact ⟨_, rfl, rfl, by cases p <;> decide⟩

theorem le_anyObject_iff : a ≤ .object none ↔ a = .never ∨ a.kind = .object := by
  rw [le_object_iff, kind_eq_object]
  refine or_congr_right ⟨?_, ?_⟩
  · rintro ⟨i, rfl, -⟩
    exact ⟨i, rfl⟩
  · rintro ⟨i, rfl⟩
    exact ⟨i, rfl, trivial⟩

theorem le_watched (h : a ≤ .object (some (C, .builtHere))) : a = .never ∨ a.builtHere = true := by
  obtain rfl | ⟨- | ⟨D, p⟩, rfl, hle⟩ := le_object_iff.mp h
  · exact .inl rfl
  · cases hle
  · obtain rfl : p = .builtHere := Provenance.rank_inj (Nat.le_zero.mp hle.2)
    exact .inr rfl

theorem guess_le (h : .object (some (C, .identityOnly)) ≤ a) (hclass : a.shapeClass ≠ none) :
    a.identityOnly = true := by
  obtain ⟨D, hD⟩ := Option.ne_none_iff_exists'.mp hclass
  obtain ⟨q, rfl⟩ := shapeClass_eq_some.mp hD
  have hle := object_le_object.mp h
  obtain rfl : q = .identityOnly := by
    have hrank := hle.2
    cases q with
    | identityOnly => rfl
    | builtHere => exact absurd hrank (by decide)
    | notBuiltHere => exact absurd hrank (by decide)
  rfl

theorem join_le_object (ha : a ≤ .object k) (hb : b ≤ .object k) : join a b ≤ .object k := by
  have hmixed : ¬Mixed a b := by
    rintro (⟨rfl, -⟩ | ⟨rfl, -⟩)
    · cases ha
    · cases ha
  rw [join_eq, if_neg hmixed]
  exact sup_le ha hb

end Objects

section Merges

variable {edges : List Ty} {e : Ty}

theorem le_mergeEdges_join (h : e ∈ edges) : e ≤ mergeEdges join edges := by
  induction edges using reverseRecOn with
  | nil => cases h
  | append_singleton edges t ih =>
    rw [mergeEdges_concat]
    rcases mem_append.mp h with h | h
    · exact (ih h).trans (le_join ..).1
    · rw [mem_singleton.mp h]
      exact (le_join ..).2

theorem mergeEdges_le_object {k : Option (ShapeClassId × Provenance)}
    (h : ∀ e ∈ edges, e ≤ .object k) : mergeEdges join edges ≤ .object k := by
  induction edges using reverseRecOn with
  | nil => exact never_le _
  | append_singleton edges t ih =>
    rw [mergeEdges_concat]
    exact join_le_object (ih fun e he => h e (mem_append_left _ he))
      (h t (mem_append_right _ (mem_singleton_self t)))

/-- **A merge says too much exactly where it blurs**: two classes meet, and one edge was not
watched. -/
theorem watchesAll_iff : WatchesAll edges ↔ ¬Blurs edges := by
  constructor
  · rintro h ⟨hobjects, ⟨e, he, hne, hbuilt⟩, f, hf, g, hg, hfne, hgne, hclasses⟩
    have hbuilt' := (h ?_ e he).resolve_left hne
    · rw [hbuilt] at hbuilt'
      cases hbuilt'
    -- of the object of no class the flag says watched
    obtain hnever | ⟨i, hi, -⟩ := le_object_iff.mp (mergeEdges_le_object
      fun e he => le_anyObject_iff.mpr (hobjects e he))
    · exact absurd (le_never.mp (hnever ▸ le_mergeEdges_join he)) hne
    · rw [hi]
      rcases i with - | ⟨C, p⟩
      · rfl
      · -- a class would be the one of both
        have hC : mergeEdges join edges ≤ .object (some (C, .identityOnly)) :=
          le_classOf_iff.mpr (.inr (by rw [hi]; rfl))
        have hf' := (le_classOf_iff.mp ((le_mergeEdges_join hf).trans hC)).resolve_left hfne
        have hg' := (le_classOf_iff.mp ((le_mergeEdges_join hg).trans hC)).resolve_left hgne
        exact absurd (hf'.trans hg'.symm) hclasses
  · intro h hbuilt e he
    obtain hnone | ⟨C, hC⟩ := builtHere_iff.mp hbuilt
    · by_contra hnot
      obtain ⟨hne, hunwatched⟩ := not_or.mp hnot
      have hobjects : ∀ e ∈ edges, e = .never ∨ e.kind = .object := fun e he =>
        le_anyObject_iff.mp (hnone ▸ le_mergeEdges_join he)
      obtain ⟨i, rfl⟩ := kind_eq_object.mp ((hobjects e he).resolve_left hne)
      rcases i with - | ⟨C, p⟩
      · exact hunwatched rfl
      -- if all were of its class, the merge would be
      have hother : ∃ f ∈ edges, f ≠ .never ∧ f.shapeClass ≠ some C := by
        by_contra hall
        have hle : mergeEdges join edges ≤ .object (some (C, .identityOnly)) :=
          mergeEdges_le_object fun f hf => le_classOf_iff.mpr (by
            by_cases hfne : f = .never
            · exact .inl hfne
            · exact .inr (by_contra fun hclass => hall ⟨f, hf, hfne, hclass⟩))
        rw [hnone] at hle
        exact object_le_object.mp hle
      obtain ⟨f, hf, hfne, hclass⟩ := hother
      exact h ⟨hobjects, ⟨_, he, hne, Bool.not_eq_true _ |>.mp hunwatched⟩, f, hf, _, he, hfne,
        hne, hclass⟩
    · exact le_watched (hC ▸ le_mergeEdges_join he)

end Merges

section Pairs

variable {a b : Ty}

theorem join_shapeClass {C : ShapeClassId} (h : (join a b).shapeClass = some C) :
    (a = .never ∨ a.shapeClass = some C) ∧ (b = .never ∨ b.shapeClass = some C) := by
  have hle : join a b ≤ .object (some (C, .identityOnly)) := le_classOf_iff.mpr (.inr h)
  exact ⟨le_classOf_iff.mp ((le_join a b).1.trans hle),
    le_classOf_iff.mp ((le_join a b).2.trans hle)⟩

theorem join_identityOnly (h : a.identityOnly = true ∨ b.identityOnly = true)
    (hclass : (join a b).shapeClass ≠ none) : (join a b).identityOnly = true := by
  rcases h with h | h
  · obtain ⟨C, rfl⟩ := identityOnly_iff.mp h
    exact guess_le (le_join ..).1 hclass
  · obtain ⟨C, rfl⟩ := identityOnly_iff.mp h
    exact guess_le (le_join ..).2 hclass

/-- **A join strengthens what is known exactly where two classes meet**, neither watched. -/
theorem keepsDoubt_iff : KeepsDoubt a b ↔ ¬BlursPair a b := by
  have hlast : KeepsDoubt a b ↔
      (a.builtHere = false → b.builtHere = false → (join a b).builtHere = false) :=
    ⟨fun h => h.1, fun h => ⟨h, join_identityOnly, fun _ => join_shapeClass⟩⟩
  rw [hlast]
  constructor
  · rintro h ⟨ha, hb, hnota, hnotb, hclass⟩
    obtain ⟨- | ⟨C, p⟩, rfl⟩ := kind_eq_object.mp ha
    · cases hnota
    obtain ⟨- | ⟨D, q⟩, rfl⟩ := kind_eq_object.mp hb
    · cases hnotb
    have hne : C ≠ D := fun heq => hclass (congrArg some heq)
    have hjoin : join (.object (some (C, p))) (.object (some (D, q))) = .object none := by
      simp [join, is, kind, isDynamicNumOrUndef, shapeClass, hne]
    have hunwatched := h hnota hnotb
    rw [hjoin] at hunwatched
    cases hunwatched
  · intro h hnota hnotb
    by_contra hbuilt
    rw [Bool.not_eq_false] at hbuilt
    obtain hnone | ⟨C, hC⟩ := builtHere_iff.mp hbuilt
    · have ha := le_anyObject_iff.mp (hnone ▸ (le_join a b).1)
      have hb := le_anyObject_iff.mp (hnone ▸ (le_join a b).2)
      rcases ha with rfl | ha
      · rw [join_never_left] at hbuilt
        rw [hnotb] at hbuilt
        cases hbuilt
      rcases hb with rfl | hb
      · rw [join_comm, join_never_left] at hbuilt
        rw [hnota] at hbuilt
        cases hbuilt
      refine h ⟨ha, hb, hnota, hnotb, fun hclass => ?_⟩
      obtain ⟨- | ⟨C, p⟩, rfl⟩ := kind_eq_object.mp ha
      · cases hnota
      -- the join of one class keeps the class
      have hle : join (.object (some (C, p))) b ≤ .object (some (C, .identityOnly)) :=
        join_le_object (le_classOf_iff.mpr (.inr rfl)) (le_classOf_iff.mpr (.inr hclass.symm))
      rw [hnone] at hle
      exact object_le_object.mp hle
    · rcases le_watched (hC ▸ (le_join a b).1) with rfl | ha
      · rcases le_watched (hC ▸ (le_join .never b).2) with rfl | hb
        · cases hC
        · rw [hnotb] at hb
          cases hb
      · rw [hnota] at ha
        cases ha

end Pairs

/-- **A join and a merge keep every doubt about an object**, unless two classes meet and an object
was not watched being made. -/
theorem join_watches_iff (a b : Ty) (edges : List Ty) :
    (KeepsDoubt a b ↔ ¬BlursPair a b) ∧ (WatchesAll edges ↔ ¬Blurs edges) :=
  ⟨keepsDoubt_iff, watchesAll_iff⟩

/-- Two objects read out of fields, of two classes: the join says it was watched being made. -/
theorem join_blurs : ¬((∀ a b, KeepsDoubt a b) ∧ ∀ edges, WatchesAll edges) := by
  rintro ⟨h, -⟩
  have hdoubt := (h (.object (some (0, .notBuiltHere))) (.object (some (1, .notBuiltHere)))).1
  exact absurd (hdoubt rfl rfl) (by decide)

end Bronze.Types
