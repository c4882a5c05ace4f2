import Bronze.Graph.Dominators

/-!
# Dominator trees by iteration

The vertices are numbered so that each but the root can be entered from one with a smaller number,
as in a reverse postorder; an edge to a number that is not greater retreats. Tentative parents are
improved one vertex at a time: the new parent is the place where the ways up from those
predecessors meet that have a parent already. Two things hold throughout. What dominates a vertex
dominates its parent, so the parents are never too high. And after so many passes the parent lies
on every path with fewer retreating edges, so they are not too low for long.

## Main results

* `Tree.ancestor`: what dominates a vertex is on the way up from it
* `Tree.update`, `Level.update`: one improvement
* `Tree.eq_of_level`: the parents that lie on every path are determined
-/

namespace Bronze.Graph

open List Option Function Relation

variable {V : Type} {edge : V → V → Prop} {root : V} {index : V → Nat}

/-- Each vertex but the root is entered from one with a smaller number. -/
structure Numbering (edge : V → V → Prop) (root : V) (index : V → Nat) : Prop where
  entered : ∀ b, Relation.ReflTransGen edge root b → b ≠ root →
    ∃ p, Relation.ReflTransGen edge root p ∧ edge p b ∧ index p < index b
  injective : ∀ a b, Relation.ReflTransGen edge root a → Relation.ReflTransGen edge root b →
    index a = index b → a = b

theorem dominates_root {a : V} (h : Dominates edge root a root) : a = root := by
  by_contra hne
  exact h (.refl (Ne.symm hne))

/-- A path from the root to `v` on which `a` does not lie, with at most `n` retreating edges. -/
inductive AvoidsWithin (edge : V → V → Prop) (root : V) (index : V → Nat) (a : V) :
    Nat → V → Prop where
  | refl {n : Nat} (h : root ≠ a) : AvoidsWithin edge root index a n root
  | forward {n : Nat} {p b : V} (h : AvoidsWithin edge root index a n p) (hedge : edge p b)
      (hb : b ≠ a) (hlt : index p < index b) : AvoidsWithin edge root index a n b
  | retreat {n : Nat} {p b : V} (h : AvoidsWithin edge root index a n p) (hedge : edge p b)
      (hb : b ≠ a) : AvoidsWithin edge root index a (n + 1) b

namespace AvoidsWithin

variable {a b c : V} {m n : Nat}

variable (h : AvoidsWithin edge root index a n b)

include h

theorem mono (hle : n ≤ m) : AvoidsWithin edge root index a m b := by
  induction h generalizing m with
  | refl h => exact .refl h
  | forward _ hedge hb hlt ih => exact .forward (ih hle) hedge hb hlt
  | retreat _ hedge hb ih =>
    obtain ⟨k, rfl⟩ := Nat.exists_eq_add_of_le' hle
    exact .retreat (ih (Nat.le_add_left ..)) hedge hb

theorem avoids : Avoids edge a root b := by
  induction h with
  | refl h => exact .refl h
  | forward _ hedge hb _ ih => exact ih.tail hedge hb
  | retreat _ hedge hb ih => exact ih.tail hedge hb

theorem reachable : ReflTransGen edge root b :=
  h.avoids.reachable

/-- If the path meets `c`, the part of it up to there misses what it misses. -/
theorem to_vertex
    (hc : ¬AvoidsWithin edge root index c n b) : AvoidsWithin edge root index a n c := by
  induction h with
  | refl h =>
    by_cases hroot : root = c
    · exact hroot ▸ .refl h
    · exact absurd (.refl hroot) hc
  | @forward n p b h hedge hb hlt ih =>
    by_cases hbc : b = c
    · exact hbc ▸ .forward h hedge hb hlt
    · exact ih fun hp => hc (.forward hp hedge hbc hlt)
  | @retreat n p b h hedge hb ih =>
    by_cases hbc : b = c
    · exact hbc ▸ .retreat h hedge hb
    · exact (ih fun hp => hc (.retreat hp hedge hbc)).mono (Nat.le_succ n)

end AvoidsWithin

theorem Avoids.within (index : V → Nat) {a b : V} (h : Avoids edge a root b) :
    ∃ n, AvoidsWithin edge root index a n b := by
  obtain ⟨hroot, hpath⟩ := h
  induction hpath with
  | refl => exact ⟨0, .refl hroot⟩
  | tail _ hlast ih =>
    obtain ⟨n, hn⟩ := ih
    exact ⟨n + 1, .retreat hn hlast.1 hlast.2⟩

/-- Among finitely many vertices there is a number of retreats that is enough. -/
theorem exists_retreats (vs : List V) :
    ∃ n, ∀ a ∈ vs, ∀ b ∈ vs, Avoids edge a root b → AvoidsWithin edge root index a n b := by
  have hone : ∀ a, ∀ us : List V,
      ∃ n, ∀ b ∈ us, Avoids edge a root b → AvoidsWithin edge root index a n b := by
    intro a us
    induction us with
    | nil => exact ⟨0, nofun⟩
    | cons b us ih =>
      obtain ⟨n, hn⟩ := ih
      by_cases hb : Avoids edge a root b
      · obtain ⟨m, hm⟩ := hb.within index
        refine ⟨max n m, forall_mem_cons.mpr ⟨fun _ => hm.mono (le_max_right ..), ?_⟩⟩
        exact fun c hc h => (hn c hc h).mono (le_max_left ..)
      · exact ⟨n, forall_mem_cons.mpr ⟨fun h => absurd h hb, hn⟩⟩
  suffices ∀ us : List V,
      ∃ n, ∀ a ∈ us, ∀ b ∈ vs, Avoids edge a root b → AvoidsWithin edge root index a n b from
    this vs
  intro us
  induction us with
  | nil => exact ⟨0, nofun⟩
  | cons a us ih =>
    obtain ⟨n, hn⟩ := ih
    obtain ⟨m, hm⟩ := hone a vs
    refine ⟨max n m, forall_mem_cons.mpr ⟨?_, ?_⟩⟩
    · exact fun b hb h => (hm b hb h).mono (le_max_right ..)
    · exact fun c hc b hb h => (hn c hc b hb h).mono (le_max_left ..)

/-- What holds of the parents throughout: they are numbered lower, and what dominates a vertex
dominates its parent. The root is its own parent. -/
structure Tree (edge : V → V → Prop) (root : V) (index : V → Nat) (up : V → Option V) : Prop where
  entry : up root = some root
  closed : ∀ x p, up x = some p → up p ≠ none
  reachable : ∀ x p, up x = some p → Relation.ReflTransGen edge root x
  falls : ∀ x p, up x = some p → x ≠ root → index p < index x
  below : ∀ x p d, up x = some p → x ≠ root → Dominates edge root d x → d ≠ x →
    Dominates edge root d p

/-- The parents lie on every path with less than `n` retreating edges. -/
def Level (edge : V → V → Prop) (root : V) (index : V → Nat) (n : Nat) (up : V → Option V)
    (x : V) : Prop :=
  ∀ p, up x = some p → x ≠ root → ∀ m < n, ¬AvoidsWithin edge root index p m x

/-- The place where the ways up from some vertices meet. -/
structure Meets (up : V → Option V) (ps : V → Prop) (new : V) : Prop where
  ancestor : ∀ p, ps p → Ancestor up new p
  lowest : ∀ c, (∀ p, ps p → Ancestor up c p) → Ancestor up c new

/-- The predecessors of a vertex that have a parent. -/
def Known (edge : V → V → Prop) (up : V → Option V) (b p : V) : Prop := edge p b ∧ up p ≠ none

section Tree

variable {up : V → Option V}

section

variable (ht : Tree edge root index up)

include ht

theorem Tree.ancestor_root {a : V} (h : Ancestor up a root) : a = root := by
  suffices ∀ b, Ancestor up a b → b = root → a = root from this root h rfl
  intro b hb
  induction hb with
  | refl => exact id
  | step hup _ ih =>
    rintro rfl
    rw [ht.entry] at hup
    exact ih (some.inj hup).symm

theorem Tree.index_le {a b : V} (h : Ancestor up a b) : index a ≤ index b := by
  induction h with
  | refl => exact le_rfl
  | @step b p hup _ ih =>
    by_cases hb : b = root
    · subst hb
      rw [ht.entry] at hup
      exact some.inj hup ▸ ih
    · exact ih.trans (ht.falls b p hup hb).le

/-- Where there is a parent, what dominates a vertex is on the way up from it. -/
theorem Tree.ancestor {d b : V} (hb : up b ≠ none)
    (h : Dominates edge root d b) : Ancestor up d b := by
  induction hk : index b using Nat.strongRecOn generalizing b with
  | ind k ih =>
    subst hk
    by_cases hroot : b = root
    · subst hroot
      exact dominates_root h ▸ .refl
    by_cases hdb : d = b
    · exact hdb ▸ .refl
    obtain ⟨p, hp⟩ := ne_none_iff_exists'.mp hb
    exact .step hp (ih (index p) (ht.falls b p hp hroot) (ht.closed b p hp)
      (ht.below b p d hp hroot h hdb) rfl)

theorem Tree.dominates_ancestor {d q b : V} (h : Dominates edge root d b) (hq : Ancestor up q b)
    (hle : index d ≤ index q) : Dominates edge root d q := by
  induction hq with
  | refl => exact h
  | @step b p hup hq ih =>
    by_cases hroot : b = root
    · subst hroot
      rw [ht.entry] at hup
      exact ih (some.inj hup ▸ h)
    · refine ih (ht.below b p d hup hroot h ?_)
      rintro rfl
      have hlt := ht.falls d p hup hroot
      have hqp := ht.index_le hq
      omega

theorem Level.ancestor {n m : Nat} {a b : V}
    (hlevel : ∀ x, index x ≤ index b → ReflTransGen edge root x →
      Level edge root index n up x)
    (hreach : ReflTransGen edge root b) (h : Ancestor up a b) (hm : m < n) :
    ¬AvoidsWithin edge root index a m b := by
  induction h with
  | refl => exact fun h => h.avoids.ne rfl
  | @step b p hup h ih =>
    by_cases hroot : b = root
    · subst hroot
      rw [ht.entry] at hup
      obtain rfl := some.inj hup
      exact ih hlevel hreach
    · intro havoid
      have hlt := ht.falls b p hup hroot
      -- the path meets the parent, and the way up from there
      have hp := havoid.to_vertex (hlevel b le_rfl hreach p hup hroot m hm)
      exact ih (fun x hx => hlevel x (hx.trans hlt.le)) hp.reachable hp

end

section Update

variable {b new : V}

section

variable (ht : Tree edge root index up)

include ht

/-- The parents that are known meet below what dominates the vertex, and above one that is numbered
lower. -/
theorem Meets.spec (hmeets : Meets up (Known edge up b) new) {p : V} (hp : Known edge up b p) :
    ∀ d, Dominates edge root d b → d ≠ b → Dominates edge root d new := by
  intro d hd hne
  have hdown : ∀ p, Known edge up b p → Dominates edge root d p := fun p hp =>
    hd.pred hp.1 (Ne.symm hne)
  have hanc : Ancestor up d new := hmeets.lowest d fun p hp => ht.ancestor hp.2 (hdown p hp)
  exact ht.dominates_ancestor (hdown p hp) (hmeets.ancestor p hp) (ht.index_le hanc)

theorem Tree.closed_ancestor {a b : V} (h : Ancestor up a b) (hb : up b ≠ none) : up a ≠ none := by
  induction h with
  | refl => exact hb
  | step hup _ ih => exact ih (ht.closed _ _ hup)

variable (hmeets : Meets up (Known edge up b) new)

include hmeets

/-- **An improvement keeps the parents from being too high.** -/
theorem Tree.update [DecidableEq V] (hroot : b ≠ root) (hreach : ReflTransGen edge root b)
    {p : V} (hp : Known edge up b p) (hlt : index p < index b) :
    Tree edge root index (Function.update up b (some new)) := by
  have hother : ∀ x, x ≠ b → Function.update up b (some new) x = up x := fun x hx =>
    Function.update_of_ne hx ..
  have hself : Function.update up b (some new) b = some new := Function.update_self ..
  have hnew : up new ≠ none := ht.closed_ancestor (hmeets.ancestor p hp) hp.2
  have hkeep : ∀ x, up x ≠ none → Function.update up b (some new) x ≠ none := by
    intro x hx
    by_cases hxb : x = b
    · rw [hxb, hself]
      exact some_ne_none new
    · rw [hother x hxb]
      exact hx
  refine ⟨?_, ?_, ?_, ?_, ?_⟩
  · rw [hother root (Ne.symm hroot)]
    exact ht.entry
  · intro x q hx
    apply hkeep
    by_cases hxb : x = b
    · rw [hxb, hself] at hx
      exact some.inj hx ▸ hnew
    · rw [hother x hxb] at hx
      exact ht.closed x q hx
  · intro x q hx
    by_cases hxb : x = b
    · exact hxb ▸ hreach
    · rw [hother x hxb] at hx
      exact ht.reachable x q hx
  · intro x q hx hxroot
    by_cases hxb : x = b
    · rw [hxb, hself] at hx
      rw [hxb, ← some.inj hx]
      exact (ht.index_le (hmeets.ancestor p hp)).trans_lt hlt
    · rw [hother x hxb] at hx
      exact ht.falls x q hx hxroot
  · intro x q d hx hxroot hd hne
    by_cases hxb : x = b
    · rw [hxb, hself] at hx
      rw [hxb] at hd hne
      exact some.inj hx ▸ hmeets.spec ht hp d hd hne
    · rw [hother x hxb] at hx
      exact ht.below x q d hx hxroot hd hne

/-- **An improvement takes a vertex one level up**, if those with smaller numbers are there
already. -/
theorem Level.update [DecidableEq V] {n : Nat}
    (hroot : b ≠ root)
    (hknown : ∀ x, ReflTransGen edge root x → 0 < n ∨ index x < index b → up x ≠ none)
    (hall : ∀ x, ReflTransGen edge root x → Level edge root index n up x)
    (hdone : ∀ x, ReflTransGen edge root x → index x < index b →
      Level edge root index (n + 1) up x) :
    Level edge root index (n + 1) (update up b (some new)) b := by
  intro p hp _ m hm havoid
  rw [update_self] at hp
  obtain rfl := some.inj hp
  cases havoid with
  | refl => exact hroot rfl
  | @forward _ q _ h hedge _ hlt =>
    have hq := h.reachable
    refine Level.ancestor ht (fun x hx hreach => hdone x hreach (hx.trans_lt hlt)) hq
      (hmeets.ancestor q ⟨hedge, hknown q hq (.inr hlt)⟩) hm h
  | @retreat m q _ h hedge _ =>
    have hq := h.reachable
    have hn : m < n := Nat.lt_of_succ_lt_succ hm
    refine Level.ancestor ht (fun x _ hreach => hall x hreach) hq
      (hmeets.ancestor q ⟨hedge, hknown q hq (.inl (Nat.zero_lt_of_lt hn))⟩) hn h

end

theorem Level.update_of_ne [DecidableEq V] {n : Nat} {x : V} (h : Level edge root index n up x)
    (hx : x ≠ b) (v : Option V) : Level edge root index n (Function.update up b v) x := by
  intro p hp
  rw [Function.update_of_ne hx] at hp
  exact h p hp

end Update

/-- What lies on every path, and is dominated by the other dominators, is determined. -/
theorem Tree.eq_of_level {up' : V → Option V} (ht : Tree edge root index up)
    (ht' : Tree edge root index up') (hset : ∀ x, ReflTransGen edge root x → up x ≠ none)
    (hset' : ∀ x, ReflTransGen edge root x → up' x ≠ none)
    (hdom : ∀ x p, up x = some p → x ≠ root → Dominates edge root p x)
    (hdom' : ∀ x p, up' x = some p → x ≠ root → Dominates edge root p x) : up = up' := by
  have hnone : ∀ x, ¬ReflTransGen edge root x → up x = none ∧ up' x = none := by
    intro x hx
    refine ⟨?_, ?_⟩
    · by_contra hne
      obtain ⟨p, hp⟩ := ne_none_iff_exists'.mp hne
      exact hx (ht.reachable x p hp)
    · by_contra hne
      obtain ⟨p, hp⟩ := ne_none_iff_exists'.mp hne
      exact hx (ht'.reachable x p hp)
  funext x
  by_cases hx : ReflTransGen edge root x
  · by_cases hroot : x = root
    · rw [hroot, ht.entry, ht'.entry]
    obtain ⟨p, hp⟩ := ne_none_iff_exists'.mp (hset x hx)
    obtain ⟨q, hq⟩ := ne_none_iff_exists'.mp (hset' x hx)
    have hpx : p ≠ x := by
      rintro rfl
      exact absurd (ht.falls p p hp hroot) (lt_irrefl _)
    have hqx : q ≠ x := by
      rintro rfl
      exact absurd (ht'.falls q q hq hroot) (lt_irrefl _)
    -- each is a dominator that the other has to be dominated by
    have hpq := ht'.below x q p hq hroot (hdom x p hp hroot) hpx
    have hqp := ht.below x p q hp hroot (hdom' x q hq hroot) hqx
    rw [hp, hq, hpq.antisymm hqp ((hdom' x q hq hroot).reachable hx)]
  · rw [(hnone x hx).1, (hnone x hx).2]

end Tree

end Bronze.Graph
