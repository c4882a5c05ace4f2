import Mathlib

/-!
# Dominators

A vertex dominates another if every path from the root to the other passes through it.  A
function that gives each vertex a parent is a tree of dominators as soon as the parent of a vertex
is an ancestor of each of its predecessors; no order of the vertices takes part in that.

## Main results

* `Dominates.pred`, `Dominates.reachable`: the predecessors of a vertex, and its dominators
* `exists_first`: a reachable vertex is reached a first time
* `ancestor_dominates`: the ancestors of a vertex dominate it
-/

namespace Bronze.Graph

open Relation

variable {V : Type} (edge : V → V → Prop)

/-- A path from `u` to `v` on which `a` does not lie. -/
def Avoids (a u v : V) : Prop := u ≠ a ∧ Relation.ReflTransGen (fun x y => edge x y ∧ y ≠ a) u v

/-- Every path from the root to `b` passes through `a`. -/
def Dominates (root a b : V) : Prop := ¬ Avoids edge a root b

/-- `a` is `b`, or lies above it. -/
inductive Ancestor (up : V → Option V) (a : V) : V → Prop where
  | refl : Ancestor up a a
  | step {b p : V} (hup : up b = some p) (h : Ancestor up a p) : Ancestor up a b

variable {edge} {root a b c u v : V}

theorem Avoids.refl (h : u ≠ a) : Avoids edge a u u := ⟨h, .refl⟩

theorem Avoids.tail (h : Avoids edge a u b) (hedge : edge b c) (hc : c ≠ a) : Avoids edge a u c :=
  ⟨h.1, h.2.tail ⟨hedge, hc⟩⟩

theorem Avoids.ne (h : Avoids edge a u v) : v ≠ a := by
  obtain ⟨hu, hpath⟩ := h
  cases hpath with
  | refl => exact hu
  | tail _ hlast => exact hlast.2

theorem Avoids.reachable (h : Avoids edge a u v) : ReflTransGen edge u v :=
  h.2.lift id fun _ _ h => h.1

theorem Dominates.pred (h : Dominates edge root a c) (hedge : edge b c) (hc : c ≠ a) :
    Dominates edge root a b := fun hb => h (hb.tail hedge hc)

theorem Dominates.reachable (h : Dominates edge root a b)
    (hb : ReflTransGen edge root b) : ReflTransGen edge root a := by
  refine Classical.byContradiction fun hnot => ?_
  have hroot : root ≠ a := by
    rintro rfl
    exact hnot .refl
  refine h ⟨hroot, ?_⟩
  clear h
  induction hb with
  | refl => exact .refl
  | tail hpath hlast ih =>
    refine ih.tail ⟨hlast, ?_⟩
    rintro rfl
    exact hnot (hpath.tail hlast)

/-- A reachable vertex is reached a first time: by way of an edge from a vertex to which a path
leads that misses it. -/
theorem exists_first (h : ReflTransGen edge root a) :
    root = a ∨ ∃ p, Avoids edge a root p ∧ edge p a := by
  by_cases hroot : root = a
  · exact .inl hroot
  refine .inr ?_
  -- along the path: it has missed `a` so far, or an edge into `a` was found
  suffices ∀ v, ReflTransGen edge root v →
      Avoids edge a root v ∨ ∃ p, Avoids edge a root p ∧ edge p a by
    rcases this a h with havoid | hfound
    · exact absurd rfl havoid.ne
    · exact hfound
  intro v hv
  induction hv with
  | refl => exact .inl (.refl hroot)
  | @tail x y _ hedge ih =>
    rcases ih with havoid | hfound
    · by_cases hy : y = a
      · subst hy
        exact .inr ⟨x, havoid, hedge⟩
      · exact .inl (havoid.tail hedge hy)
    · exact .inr hfound

/-- Of two vertices that dominate each other, one is the other, if it can be reached. -/
theorem Dominates.antisymm (h : Dominates edge root a b) (h' : Dominates edge root b a)
    (hb : ReflTransGen edge root b) : a = b := by
  refine Classical.byContradiction fun hne => ?_
  rcases exists_first hb with rfl | ⟨p, ⟨hroot, hpath⟩, hedge⟩
  · exact h (.refl (Ne.symm hne))
  -- the path to `b` up to its first visit misses `a`, which `b` dominates
  suffices havoid : Avoids edge a root p from h (havoid.tail hedge (Ne.symm hne))
  have hmiss : ∀ x, ReflTransGen (fun x y => edge x y ∧ y ≠ b) root x → x ≠ a := by
    rintro x hx rfl
    exact h' ⟨hroot, hx⟩
  refine ⟨hmiss root .refl, ?_⟩
  clear hedge
  induction hpath with
  | refl => exact .refl
  | tail hpath hlast ih => exact ih.tail ⟨hlast.1, hmiss _ (hpath.tail hlast)⟩

variable {up : V → Option V}

theorem Ancestor.trans (h₁ : Ancestor up a b) (h₂ : Ancestor up b c) : Ancestor up a c := by
  induction h₂ with
  | refl => exact h₁
  | step hup _ ih => exact .step hup ih

/-- **The ancestors of a vertex dominate it**, if the parent of each vertex is an ancestor of
every predecessor that can be reached. -/
theorem ancestor_dominates (hroot : ∀ a, Ancestor up a root → a = root)
    (hedge : ∀ p b, ReflTransGen edge root p → edge p b → b ≠ root →
      ∃ q, up b = some q ∧ Ancestor up q p)
    (h : Ancestor up a b) : Dominates edge root a b := by
  rintro ⟨hne, hpath⟩
  induction hpath with
  | refl => exact hne (hroot a h).symm
  | @tail p b hpath hlast ih =>
    have hp : ReflTransGen edge root p :=
      hpath.lift id fun _ _ h => h.1
    by_cases hb : b = root
    · subst hb
      exact hne (hroot a h).symm
    · obtain ⟨q, hq, hqp⟩ := hedge p b hp hlast.1 hb
      cases h with
      | refl => exact hlast.2 rfl
      | step hup haq =>
        -- the parent of `b` is `q`, which lies above `p`, and so does `a`
        obtain rfl := Option.some.inj (hup.symm.trans hq)
        exact ih (haq.trans hqp)

end Bronze.Graph
