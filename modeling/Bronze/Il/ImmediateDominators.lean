import Bronze.Il.Dominance
import Bronze.Graph.DominatorTree

/-!
# The dominators of the verifier are exact

The walk enters each block from one that it leaves later, so the order is a numbering in which
every block but the entry is entered from an earlier one.  Over such a numbering the passes end,
whatever the edges are, and the chain above a reachable block is the chain of its dominators.

## Main results

* `reversePostorder_ends`: the walk
* `immediateDominators_ends`: the passes
* `dominates_exact`: what `dominates` answers
-/

namespace Bronze.Il

open Fixpoint Graph
open List Nat Option Relation

section Walk

variable {succs : Nat → List Nat} {n : Nat}

/-- The steps that are left: over the edges of what is under way, and of what was not entered. -/
def pending (succs : Nat → List Nat) (n : Nat) (dfsStack : List (Nat × Nat)) (seen : List Nat) :
    Nat :=
  (dfsStack.map fun e => (succs e.1).length + 1 - e.2).sum +
    ∑ b ∈ Finset.range n with b ∉ seen, ((succs b).length + 1)

variable {seen rpo stack : List Nat} {b : Nat}

theorem sum_unseen_cons {s : Nat} (hs : s < n) (hnot : s ∉ seen) :
    ((succs s).length + 1) + ∑ b ∈ Finset.range n with b ∉ s :: seen, ((succs b).length + 1) =
      ∑ b ∈ Finset.range n with b ∉ seen, ((succs b).length + 1) := by
  have herase : (Finset.range n).filter (· ∉ s :: seen) =
      ((Finset.range n).filter (· ∉ seen)).erase s := by
    ext b
    simp only [Finset.mem_filter, Finset.mem_erase, mem_cons]
    tauto
  rw [herase]
  exact Finset.add_sum_erase _ (fun b => (succs b).length + 1) (by simp [hs, hnot])

variable {dfsStack : List (Nat × Nat)}

/-- **The walk ends** if no edge leaves the blocks. -/
theorem walk_ends (hsuccs : ∀ b, ∀ s ∈ succs b, s < n)
    (hstack : ∀ e ∈ dfsStack, e.2 ≤ (succs e.1).length) :
    ∃ out, ∀ fuel, pending succs n dfsStack seen ≤ fuel →
      walk succs fuel dfsStack seen rpo = .ok out := by
  induction hm : pending succs n dfsStack seen using Nat.strongRecOn
    generalizing dfsStack seen rpo with
  | ind m ih =>
    subst hm
    cases dfsStack with
    | nil =>
      refine ⟨rpo, fun fuel _ => ?_⟩
      cases fuel <;> rfl
    | cons e dfsStack =>
      obtain ⟨b, next⟩ := e
      have hnext : next ≤ (succs b).length := hstack _ (mem_cons_self ..)
      have hrest : ∀ e ∈ dfsStack, e.2 ≤ (succs e.1).length := fun e he =>
        hstack e (mem_cons_of_mem _ he)
      cases hs : (succs b)[next]? with
      | some s =>
        obtain ⟨hlt, hget⟩ := List.getElem?_eq_some_iff.mp hs
        have hmem : s ∈ succs b := hget ▸ List.getElem_mem hlt
        by_cases hseen : s ∈ seen
        · have hless : pending succs n ((b, next + 1) :: dfsStack) seen <
              pending succs n ((b, next) :: dfsStack) seen := by
            simp only [pending, map_cons, sum_cons]
            omega
          have hstack' : ∀ e ∈ (b, next + 1) :: dfsStack, e.2 ≤ (succs e.1).length :=
            forall_mem_cons.mpr ⟨hlt, hrest⟩
          obtain ⟨out, hout⟩ := ih _ hless hstack' rfl
          refine ⟨out, fun fuel hfuel => ?_⟩
          obtain ⟨fuel, rfl⟩ := Nat.exists_eq_succ_of_ne_zero (by omega : fuel ≠ 0)
          rw [walk, hs]
          dsimp only
          rw [if_pos hseen]
          exact hout fuel (by omega)
        · have hless : pending succs n ((s, 0) :: (b, next + 1) :: dfsStack) (s :: seen) <
              pending succs n ((b, next) :: dfsStack) seen := by
            have hsum := @sum_unseen_cons succs n seen s (hsuccs b s hmem) hseen
            simp only [pending, map_cons, sum_cons]
            omega
          have hstack' : ∀ e ∈ (s, 0) :: (b, next + 1) :: dfsStack, e.2 ≤ (succs e.1).length :=
            forall_mem_cons.mpr ⟨Nat.zero_le _, forall_mem_cons.mpr ⟨hlt, hrest⟩⟩
          obtain ⟨out, hout⟩ := ih _ hless hstack' rfl
          refine ⟨out, fun fuel hfuel => ?_⟩
          obtain ⟨fuel, rfl⟩ := Nat.exists_eq_succ_of_ne_zero (by omega : fuel ≠ 0)
          rw [walk, hs]
          dsimp only
          rw [if_neg hseen]
          exact hout fuel (by omega)
      | none =>
        have hless :
            pending succs n dfsStack seen < pending succs n ((b, next) :: dfsStack) seen := by
          simp only [pending, map_cons, sum_cons]
          omega
        obtain ⟨out, hout⟩ := ih _ hless hrest rfl
        refine ⟨out, fun fuel hfuel => ?_⟩
        obtain ⟨fuel, rfl⟩ := Nat.exists_eq_succ_of_ne_zero (by omega : fuel ≠ 0)
        rw [walk, hs]
        exact hout fuel (by omega)

/-! ## The order of the walk -/

/-- What is under way was entered from what is under it. -/
def Chained (succs : Nat → List Nat) : List Nat → Prop
  | [] => True
  | [b] => b = 0
  | b :: p :: rest => b ∈ succs p ∧ Chained succs (p :: rest)

theorem Chained.tail (h : Chained succs (b :: stack)) : Chained succs stack := by
  cases stack with
  | nil => trivial
  | cons p rest => exact h.2

/-- What holds between two steps of a walk: what was emitted was entered from what is under way,
or is earlier in the order. -/
structure Ordered (succs : Nat → List Nat) (stack seen rpo : List Nat) : Prop where
  chained : Chained succs stack
  mem_seen : ∀ x, x ∈ seen ↔ x ∈ stack ∨ x ∈ rpo
  nodup : (stack ++ rpo).Nodup
  entered : ∀ x ∈ rpo, x ≠ 0 →
    ∃ p, x ∈ succs p ∧ (p ∈ stack ∨ p ∈ rpo ∧ rpo.idxOf p < rpo.idxOf x)

theorem Ordered.enter {s : Nat} (h : Ordered succs (b :: stack) seen rpo) (hs : s ∈ succs b)
    (hnot : s ∉ seen) : Ordered succs (s :: b :: stack) (s :: seen) rpo := by
  refine ⟨⟨hs, h.chained⟩, fun x => ?_, ?_, fun x hx hx0 => ?_⟩
  · rw [mem_cons, h.mem_seen, mem_cons (b := s)]
    exact or_assoc.symm
  · rw [cons_append, nodup_cons]
    refine ⟨fun hmem => hnot ((h.mem_seen s).mpr (mem_append.mp hmem)), h.nodup⟩
  · obtain ⟨p, hp, hplace⟩ := h.entered x hx hx0
    exact ⟨p, hp, hplace.imp_left (mem_cons_of_mem s)⟩

theorem Ordered.leave (h : Ordered succs (b :: stack) seen rpo) :
    Ordered succs stack seen (b :: rpo) := by
  have hnodup := h.nodup
  rw [cons_append, nodup_cons, mem_append, not_or] at hnodup
  obtain ⟨⟨hstack, hrpo⟩, hnodup⟩ := hnodup
  have hlater : ∀ x ∈ rpo, (b :: rpo).idxOf x = rpo.idxOf x + 1 := by
    intro x hx
    refine idxOf_cons_ne _ ?_
    rintro rfl
    exact hrpo hx
  refine ⟨h.chained.tail, fun x => ?_, ?_, fun x hx hx0 => ?_⟩
  · rw [h.mem_seen, mem_cons, mem_cons]
    tauto
  · exact nodup_middle.mpr (nodup_cons.mpr
      ⟨fun hmem => (mem_append.mp hmem).elim hstack hrpo, hnodup⟩)
  · rcases mem_cons.mp hx with rfl | hx
    · -- it was entered from what is under it
      cases stack with
      | nil => exact absurd h.chained hx0
      | cons p rest => exact ⟨p, h.chained.1, .inl (mem_cons_self ..)⟩
    · obtain ⟨p, hp, hplace⟩ := h.entered x hx hx0
      refine ⟨p, hp, ?_⟩
      have hxlater := hlater x hx
      rcases hplace with hplace | ⟨hp', hlt⟩
      · rcases mem_cons.mp hplace with rfl | hplace
        · refine .inr ⟨mem_cons_self .., ?_⟩
          rw [idxOf_cons_self, hxlater]
          exact succ_pos _
        · exact .inl hplace
      · refine .inr ⟨mem_cons_of_mem _ hp', ?_⟩
        rw [hlater p hp', hxlater]
        exact succ_lt_succ hlt

/-- **The order of a walk**: each block but the entry is entered from an earlier one. -/
theorem walk_ordered {fuel : Nat} {out : List Nat} (h : walk succs fuel dfsStack seen rpo = .ok out)
    (hordered : Ordered succs (dfsStack.map Prod.fst) seen rpo) :
    ∃ seen', Ordered succs [] seen' out := by
  induction fuel generalizing dfsStack seen rpo with
  | zero =>
    cases dfsStack with
    | nil => exact Except.ok.inj h ▸ ⟨seen, hordered⟩
    | cons => cases h
  | succ fuel ih =>
    cases dfsStack with
    | nil => exact Except.ok.inj h ▸ ⟨seen, hordered⟩
    | cons e dfsStack =>
      obtain ⟨b, next⟩ := e
      rw [walk] at h
      cases hs : (succs b)[next]? with
      | some s =>
        rw [hs] at h
        dsimp only at h
        split at h
        · exact ih h hordered
        · next hnot => exact ih h (hordered.enter (mem_of_getElem? hs) hnot)
      | none =>
        rw [hs] at h
        exact ih h hordered.leave

end Walk

section Order

variable {fn : Function} {fuel : Nat} {rpo : List Nat}

/-- The order of the blocks: those that a path reaches, each but the entry behind one that leads to
it. -/
structure Order (fn : Function) (rpo : List Nat) : Prop where
  numbering : Numbering (Follows fn) 0 (rpoIndex rpo)
  nodup : rpo.Nodup
  mem_iff : ∀ x, x ∈ rpo ↔ Relation.ReflTransGen (Follows fn) 0 x

theorem rpoIndex_of_mem {x : Nat} (hx : x ∈ rpo) : rpoIndex rpo x = rpo.idxOf x := if_pos hx

theorem Order.rpoIndex_lt (h : Order fn rpo) {x : Nat}
    (hx : ReflTransGen (Follows fn) 0 x) : rpoIndex rpo x < rpo.length := by
  have hmem := (h.mem_iff x).mpr hx
  rw [rpoIndex_of_mem hmem]
  exact idxOf_lt_length_iff.mpr hmem

theorem successors_lt (b : Nat) : ∀ s ∈ successors fn b, s < fn.blocks.1.length := by
  intro s hs
  unfold successors at hs
  split at hs
  · cases hs
  · rw [List.mem_eraseDups, List.mem_map] at hs
    obtain ⟨t, ht, rfl⟩ := hs
    exact (of_decide_eq_true (mem_filter.mp ht).2).2

/-- **The walk over the blocks ends.** -/
theorem reversePostorder_ends (fn : Function) :
    ∃ rounds rpo, ∀ fuel, rounds ≤ fuel → reversePostorder fn fuel = .ok rpo := by
  have hends : ∃ rpo, ∀ fuel, pending (successors fn) fn.blocks.1.length [(0, 0)] [0] ≤ fuel →
      walk (successors fn) fuel [(0, 0)] [0] [] = .ok rpo :=
    walk_ends successors_lt (by simp)
  obtain ⟨rpo, hrpo⟩ := hends
  exact ⟨_, rpo, hrpo⟩

/-- **The order is a numbering.** -/
theorem order_reversePostorder (h : reversePostorder fn fuel = .ok rpo) : Order fn rpo := by
  have hstart : Ordered (successors fn) [0] [0] [] := ⟨rfl, by simp, by simp, nofun⟩
  obtain ⟨seen, hordered⟩ := walk_ordered h hstart
  have hentered : ∀ x ∈ rpo, x ≠ 0 →
      ∃ p, Follows fn p x ∧ p ∈ rpo ∧ rpo.idxOf p < rpo.idxOf x := by
    intro x hx hx0
    obtain ⟨p, hp, hplace⟩ := hordered.entered x hx hx0
    exact ⟨p, hp, hplace.resolve_left not_mem_nil⟩
  have hreach : ∀ x ∈ rpo, ReflTransGen (Follows fn) 0 x := by
    intro x hx
    induction hk : rpo.idxOf x using Nat.strongRecOn generalizing x with
    | ind k ih =>
      subst hk
      by_cases hx0 : x = 0
      · exact hx0 ▸ .refl
      · obtain ⟨p, hp, hp', hlt⟩ := hentered x hx hx0
        exact (ih _ hlt p hp' rfl).tail hp
  have hmem : ∀ x, x ∈ rpo ↔ ReflTransGen (Follows fn) 0 x := fun x =>
    ⟨hreach x, mem_reversePostorder h⟩
  refine ⟨⟨fun b hb hb0 => ?_, fun a b ha hb heq => ?_⟩, hordered.nodup, hmem⟩
  · have hbmem := (hmem b).mpr hb
    obtain ⟨p, hp, hp', hlt⟩ := hentered b hbmem hb0
    refine ⟨p, hreach p hp', hp, ?_⟩
    rw [rpoIndex_of_mem hp', rpoIndex_of_mem hbmem]
    exact hlt
  · have hamem := (hmem a).mpr ha
    rw [rpoIndex_of_mem hamem, rpoIndex_of_mem ((hmem b).mpr hb)] at heq
    exact (idxOf_inj hamem).mp heq

theorem Order.mem_of_lt (h : Order fn rpo) {pre suf : List Nat} {b x : Nat}
    (hrpo : rpo = pre ++ b :: suf) (hx : ReflTransGen (Follows fn) 0 x)
    (hlt : rpoIndex rpo x < rpoIndex rpo b) : x ∈ pre := by
  by_contra hnot
  have hb : b ∈ rpo := hrpo ▸ mem_append_right pre (mem_cons_self ..)
  have hbpre : b ∉ pre := by
    have hnodup := h.nodup
    rw [hrpo] at hnodup
    intro hmem
    exact (disjoint_of_nodup_append hnodup) hmem (mem_cons_self ..)
  rw [rpoIndex_of_mem ((h.mem_iff x).mpr hx), rpoIndex_of_mem hb, hrpo, idxOf_append_of_notMem hnot,
    idxOf_append_of_notMem hbpre, idxOf_cons_self] at hlt
  omega

end Order

section Meet

variable {fn : Function} {rpo : List Nat} {idom : Nat → Option Nat}
  (ho : Order fn rpo) (ht : Tree (Follows fn) 0 (rpoIndex rpo) idom)

include ht

theorem root_ancestor {b : Nat} (hb : idom b ≠ none) : Ancestor idom 0 b :=
  ht.ancestor hb fun h => h.1 rfl

theorem meets_climb {b₁ b₂ p r : Nat} (hp : idom b₁ = some p) (h₂ : idom b₂ ≠ none)
    (hlt : rpoIndex rpo b₂ < rpoIndex rpo b₁) (h : Meets idom (fun x => x = p ∨ x = b₂) r) :
    Meets idom (fun x => x = b₁ ∨ x = b₂) r := by
  refine ⟨?_, fun c hc => h.lowest c ?_⟩
  · rintro x (rfl | rfl)
    · exact .step hp (h.ancestor p (.inl rfl))
    · exact h.ancestor _ (.inr rfl)
  · have hc₂ := hc b₂ (.inr rfl)
    rintro x (rfl | rfl)
    · cases hc b₁ (.inl rfl) with
      | refl => exact absurd (ht.index_le hc₂) (by omega)
      | step hup hanc => exact some.inj (hup.symm.trans hp) ▸ hanc
    · exact hc₂

include ho

/-- **Two blocks meet** at the lowest block above both, after so many turns. -/
theorem intersectIdom_meets {b₁ b₂ : Nat} (h₁ : idom b₁ ≠ none) (h₂ : idom b₂ ≠ none) :
    ∃ r, Meets idom (fun x => x = b₁ ∨ x = b₂) r ∧
      ∀ fuel, rpoIndex rpo b₁ + rpoIndex rpo b₂ < fuel →
        intersectIdom rpo idom fuel b₁ b₂ = .ok r := by
  induction hm : rpoIndex rpo b₁ + rpoIndex rpo b₂ using Nat.strongRecOn
    generalizing b₁ b₂ with
  | ind m ih =>
    subst hm
    obtain ⟨p₁, hp₁⟩ := ne_none_iff_exists'.mp h₁
    obtain ⟨p₂, hp₂⟩ := ne_none_iff_exists'.mp h₂
    have hle₁ := ht.index_le (root_ancestor ht h₁)
    have hle₂ := ht.index_le (root_ancestor ht h₂)
    by_cases heq : b₁ = b₂
    · subst heq
      refine ⟨b₁, ⟨?_, fun c hc => hc b₁ (.inl rfl)⟩, fun fuel hfuel => ?_⟩
      · rintro x (rfl | rfl) <;> exact .refl
      · obtain ⟨fuel, rfl⟩ := exists_eq_succ_of_ne_zero (by omega : fuel ≠ 0)
        simp [intersectIdom]
    rcases lt_trichotomy (rpoIndex rpo b₂) (rpoIndex rpo b₁) with hlt | hsame | hlt
    · have hroot : b₁ ≠ 0 := by
        rintro rfl
        omega
      have hfall := ht.falls b₁ p₁ hp₁ hroot
      obtain ⟨r, hr, hrun⟩ := ih _ (by omega) (ht.closed b₁ p₁ hp₁) h₂ rfl
      refine ⟨r, meets_climb ht hp₁ h₂ hlt hr, fun fuel hfuel => ?_⟩
      obtain ⟨fuel, rfl⟩ := exists_eq_succ_of_ne_zero (by omega : fuel ≠ 0)
      rw [intersectIdom, if_neg heq, if_pos hlt, hp₁]
      exact hrun fuel (by omega)
    · exact absurd (ho.numbering.injective b₂ b₁ (ht.reachable b₂ p₂ hp₂)
        (ht.reachable b₁ p₁ hp₁) hsame) (Ne.symm heq)
    · have hroot : b₂ ≠ 0 := by
        rintro rfl
        omega
      have hfall := ht.falls b₂ p₂ hp₂ hroot
      obtain ⟨r, hr, hrun⟩ := ih _ (by omega) h₁ (ht.closed b₂ p₂ hp₂) rfl
      have hswap : ∀ a b, Meets idom (fun x => x = a ∨ x = b) r →
          Meets idom (fun x => x = b ∨ x = a) r := fun a b h =>
        ⟨fun x hx => h.ancestor x hx.symm, fun c hc => h.lowest c fun x hx => hc x hx.symm⟩
      refine ⟨r, hswap _ _ (meets_climb ht hp₂ h₁ hlt (hswap _ _ hr)), fun fuel hfuel => ?_⟩
      obtain ⟨fuel, rfl⟩ := exists_eq_succ_of_ne_zero (by omega : fuel ≠ 0)
      rw [intersectIdom, if_neg heq, if_neg (by omega), if_pos hlt, hp₂]
      exact hrun fuel (by omega)

/-- What the loop over the predecessors has found. -/
def Found (idom : Nat → Option Nat) (pre : List Nat) : Option Nat → Prop
  | none => ∀ p ∈ pre, idom p = none
  | some q => (∃ p ∈ pre, idom p ≠ none) ∧ Meets idom (fun p => p ∈ pre ∧ idom p ≠ none) q

/-- **The predecessors that have a dominator meet** at the lowest block above all of them. -/
theorem meetPredecessors_meets {fuel : Nat} (hfuel : 2 * rpo.length < fuel) (preds : List Nat) :
    ∃ new, meetPredecessors rpo idom fuel preds = .ok new ∧ Found idom preds new := by
  have hlt : ∀ x, idom x ≠ none → rpoIndex rpo x < rpo.length := by
    intro x hx
    obtain ⟨p, hp⟩ := ne_none_iff_exists'.mp hx
    exact ho.rpoIndex_lt (ht.reachable x p hp)
  refine foldlM_exists (P := Found idom) (show Found idom [] none from nofun) ?_
  rintro pre p suf new - hfound
  by_cases hp : idom p = none
  · refine ⟨new, if_pos (.inr hp), ?_⟩
    -- a predecessor without a dominator is passed over
    have hkeep : ∀ x, (x ∈ pre ++ [p] ∧ idom x ≠ none) ↔ x ∈ pre ∧ idom x ≠ none := by
      intro x
      rw [mem_append, mem_singleton]
      constructor
      · rintro ⟨hx | rfl, hne⟩
        · exact ⟨hx, hne⟩
        · exact absurd hp hne
      · exact fun h => ⟨.inl h.1, h.2⟩
    cases new with
    | none => exact fun x hx => (mem_append.mp hx).elim (hfound x) fun hx =>
        mem_singleton.mp hx ▸ hp
    | some q =>
      obtain ⟨⟨x, hx, hne⟩, hmeets⟩ := hfound
      exact ⟨⟨x, mem_append_left _ hx, hne⟩,
        fun y hy => hmeets.ancestor y ((hkeep y).mp hy),
        fun c hc => hmeets.lowest c fun y hy => hc y ((hkeep y).mpr hy)⟩
  · obtain ⟨up, hup⟩ := ne_none_iff_exists'.mp hp
    have htakes : ¬(p ∉ rpo ∨ idom p = none) :=
      not_or.mpr ⟨not_not.mpr ((ho.mem_iff p).mpr (ht.reachable p up hup)), hp⟩
    have hlast : p ∈ pre ++ [p] := mem_append_right _ (mem_singleton_self p)
    cases new with
    | none =>
      refine ⟨some p, if_neg htakes, ⟨p, hlast, hp⟩, ?_, fun c hc => hc p ⟨hlast, hp⟩⟩
      rintro x ⟨hx, hne⟩
      rcases mem_append.mp hx with hx | hx
      · exact absurd (hfound x hx) hne
      · exact mem_singleton.mp hx ▸ .refl
    | some q =>
      obtain ⟨⟨x, hx, hne⟩, hmeets⟩ := hfound
      have hq : idom q ≠ none := ht.closed_ancestor (hmeets.ancestor x ⟨hx, hne⟩) hne
      obtain ⟨r, hr, hrun⟩ := intersectIdom_meets ho ht hq hp
      have hqlt := hlt q hq
      have hplt := hlt p hp
      refine ⟨some r, ?_, ⟨p, hlast, hp⟩, ?_, fun c hc => hr.lowest c ?_⟩
      · rw [if_neg htakes]
        dsimp only
        rw [hrun fuel (by omega)]
        rfl
      · rintro y ⟨hy, hyne⟩
        rcases mem_append.mp hy with hy | hy
        · exact (hr.ancestor q (.inl rfl)).trans (hmeets.ancestor y ⟨hy, hyne⟩)
        · exact mem_singleton.mp hy ▸ hr.ancestor p (.inr rfl)
      · rintro y (rfl | rfl)
        · exact hmeets.lowest c fun z hz => hc z ⟨mem_append_left _ hz.1, hz.2⟩
        · exact hc _ ⟨hlast, hp⟩

end Meet

/-! ## The passes -/

section Passes

variable {fn : Function} {rpo : List Nat}

/-- The state in the middle of a pass, with `k` passes before it and `pre` gone over in this one. -/
structure Stage (fn : Function) (rpo : List Nat) (k : Nat) (pre : List Nat)
    (idom : Nat → Option Nat) : Prop where
  tree : Tree (Follows fn) 0 (rpoIndex rpo) idom
  known : ∀ x, Relation.ReflTransGen (Follows fn) 0 x → 0 < k ∨ x ∈ pre → idom x ≠ none
  level : ∀ x, Relation.ReflTransGen (Follows fn) 0 x → Level (Follows fn) 0 (rpoIndex rpo) k idom x
  ahead : ∀ x, Relation.ReflTransGen (Follows fn) 0 x → x ∈ pre →
    Level (Follows fn) 0 (rpoIndex rpo) (k + 1) idom x

/-- The immediate dominators: each block that is reached has one, which dominates it, and every
other dominator dominates that one. -/
structure Dominators (fn : Function) (rpo : List Nat) (idom : Nat → Option Nat) : Prop where
  tree : Tree (Follows fn) 0 (rpoIndex rpo) idom
  known : ∀ x, Relation.ReflTransGen (Follows fn) 0 x → idom x ≠ none
  sound : ∀ x p, idom x = some p → x ≠ 0 → Dominates (Follows fn) 0 p x

variable {idom : Nat → Option Nat} {k : Nat}

theorem Dominators.unique {idom' : Nat → Option Nat} (h : Dominators fn rpo idom)
    (h' : Dominators fn rpo idom') : idom = idom' :=
  h.tree.eq_of_level h'.tree h.known h'.known h.sound h'.sound

/-- A number of retreats that is enough for the paths between the blocks of the order. -/
def Enough (fn : Function) (rpo : List Nat) (M : Nat) : Prop :=
  ∀ a ∈ rpo, ∀ b ∈ rpo, Avoids (Follows fn) a 0 b →
    AvoidsWithin (Follows fn) 0 (rpoIndex rpo) a M b

theorem exists_enough (fn : Function) (rpo : List Nat) : ∃ M, Enough fn rpo M :=
  exists_retreats rpo

theorem Stage.dominators {M : Nat} {pre : List Nat} (ho : Order fn rpo)
    (h : Stage fn rpo k pre idom) (hM : Enough fn rpo M) (hk : M < k) : Dominators fn rpo idom := by
  refine ⟨h.tree, fun x hx => h.known x hx (.inl (zero_lt_of_lt hk)), ?_⟩
  intro x p hp hx0 havoid
  have hx := h.tree.reachable x p hp
  obtain ⟨q, hq⟩ := ne_none_iff_exists'.mp (h.tree.closed x p hp)
  have hpmem := (ho.mem_iff p).mpr (h.tree.reachable p q hq)
  exact h.level x hx p hp hx0 M hk (hM p hpmem x ((ho.mem_iff x).mpr hx) havoid)

theorem Stage.next (ho : Order fn rpo) (h : Stage fn rpo k rpo idom) :
    Stage fn rpo (k + 1) [] idom where
  tree := h.tree
  known := fun x hx _ => h.known x hx (.inr ((ho.mem_iff x).mpr hx))
  level := fun x hx => h.ahead x hx ((ho.mem_iff x).mpr hx)
  ahead := nofun

variable {idom : Nat → Option Nat}

theorem Stage.entry {k : Nat} {pre : List Nat}
    (h : Stage fn rpo k pre idom) : Stage fn rpo k (pre ++ [0]) idom := by
  refine ⟨h.tree, fun x hx hplace => ?_, h.level, fun x hx hmem => ?_⟩
  · rcases hplace with hk | hmem
    · exact h.known x hx (.inl hk)
    · rcases mem_append.mp hmem with hmem | hmem
      · exact h.known x hx (.inr hmem)
      · rw [mem_singleton.mp hmem, h.tree.entry]
        exact some_ne_none 0
  · rcases mem_append.mp hmem with hmem | hmem
    · exact h.ahead x hx hmem
    · intro p _ hx0
      exact absurd (mem_singleton.mp hmem) hx0

variable {pre suf : List Nat}

theorem Stage.update {k b new : Nat}
    (ho : Order fn rpo) (h : Stage fn rpo k pre idom) (hrpo : rpo = pre ++ b :: suf) (hb : b ≠ 0)
    (hmeets : Meets idom (Known (Follows fn) idom b) new) :
    Stage fn rpo k (pre ++ [b]) (Function.update idom b (some new)) := by
  have hbmem : b ∈ rpo := hrpo ▸ mem_append_right pre (mem_cons_self ..)
  have hreach := (ho.mem_iff b).mp hbmem
  obtain ⟨p, hp, hedge, hlt⟩ := ho.numbering.entered b hreach hb
  have hknown := h.known p hp (.inr (ho.mem_of_lt hrpo hp hlt))
  have hbehind := Level.update h.tree hmeets hb
    (fun x hx hplace => h.known x hx (hplace.imp_right (ho.mem_of_lt hrpo hx))) h.level
    fun x hx hlt => h.ahead x hx (ho.mem_of_lt hrpo hx hlt)
  refine ⟨h.tree.update hmeets hb hreach ⟨hedge, hknown⟩ hlt, ?_, ?_, ?_⟩
  · intro x hx hplace
    by_cases hxb : x = b
    · rw [hxb, Function.update_self]
      exact some_ne_none new
    · rw [Function.update_of_ne hxb]
      refine h.known x hx (hplace.imp_right fun hmem => ?_)
      exact (mem_append.mp hmem).resolve_right fun hmem => hxb (mem_singleton.mp hmem)
  · intro x hx
    by_cases hxb : x = b
    · subst hxb
      exact fun q hq hx0 m hm => hbehind q hq hx0 m (lt_succ_of_lt hm)
    · exact (h.level x hx).update_of_ne hxb _
  · intro x hx hmem
    by_cases hxb : x = b
    · exact hxb ▸ hbehind
    · refine (h.ahead x hx ?_).update_of_ne hxb _
      exact (mem_append.mp hmem).resolve_right fun hmem => hxb (mem_singleton.mp hmem)

/-- **A turn of a pass** can be made, and tells of a change only if there is one. -/
theorem updateIdom_stage {b fuel : Nat} {s : (Nat → Option Nat) × Bool} (ho : Order fn rpo)
    (hfuel : 2 * rpo.length < fuel) (h : Stage fn rpo k pre s.1) (hrpo : rpo = pre ++ b :: suf) :
    ∃ s', updateIdom (predecessors fn) rpo fuel s b = .ok s' ∧ Stage fn rpo k (pre ++ [b]) s'.1 ∧
      (s' = s ∨ s'.1 ≠ s.1) := by
  by_cases hb : b = 0
  · subst hb
    exact ⟨s, if_pos rfl, h.entry, .inl rfl⟩
  have hreach := (ho.mem_iff b).mp (hrpo ▸ mem_append_right pre (mem_cons_self ..))
  obtain ⟨p, hp, hedge, hlt⟩ := ho.numbering.entered b hreach hb
  have hknown := h.known p hp (.inr (ho.mem_of_lt hrpo hp hlt))
  obtain ⟨new, hrun, hfound⟩ := meetPredecessors_meets ho h.tree hfuel (predecessors fn b)
  cases new with
  | none => exact absurd (hfound p (mem_predecessors.mpr hedge)) hknown
  | some q =>
    have hsame : (fun p => p ∈ predecessors fn b ∧ s.1 p ≠ none) = Known (Follows fn) s.1 b :=
      funext fun p => propext (and_congr_left' mem_predecessors)
    have hnext := h.update ho hrpo hb (hsame ▸ hfound.2)
    by_cases hset : s.1 b = some q
    · refine ⟨s, ?_, ?_, .inl rfl⟩
      · rw [updateIdom, if_neg hb, hrun]
        exact if_neg fun hchange => hchange.2 hset
      · rwa [← hset, Function.update_eq_self] at hnext
    · refine ⟨(Function.update s.1 b (some q), true), ?_, hnext, .inr fun heq => hset ?_⟩
      · rw [updateIdom, if_neg hb, hrun]
        exact if_pos ⟨some_ne_none q, hset⟩
      · rw [← congrFun heq b]
        exact Function.update_self ..

/-- **A pass** can be made, and changes nothing once there were enough of them. -/
theorem pass_stage {M fuel : Nat} (ho : Order fn rpo) (hfuel : 2 * rpo.length < fuel)
    (hM : Enough fn rpo M) (h : Stage fn rpo k [] idom) :
    ∃ idom' changed, rpo.foldlM (updateIdom (predecessors fn) rpo fuel) (idom, false) =
        .ok (idom', changed) ∧
      Stage fn rpo (k + 1) [] idom' ∧ (M + 1 ≤ k → changed = false) := by
  obtain ⟨⟨idom', changed⟩, hrun, hstage, hsilent⟩ :=
    foldlM_exists (f := updateIdom (predecessors fn) rpo fuel) (l := rpo) (s := (idom, false))
      (P := fun pre s => Stage fn rpo k pre s.1 ∧ (M + 1 ≤ k → s = (idom, false)))
      ⟨h, fun _ => rfl⟩ (by
        rintro pre b suf s hrpo ⟨hs, hsame⟩
        obtain ⟨s', hs', hstage, hkept⟩ := updateIdom_stage ho hfuel hs hrpo
        refine ⟨s', hs', hstage, fun hk => ?_⟩
        -- the dominators are there already
        have heq := (hstage.dominators ho hM hk).unique (hs.dominators ho hM hk)
        exact (hkept.resolve_right (not_not.mpr heq)).trans (hsame hk))
  exact ⟨idom', changed, hrun, hstage.next ho, fun hk => congrArg Prod.snd (hsilent hk)⟩

theorem stage_start : Stage fn rpo 0 [] (Function.update (fun _ => none) 0 (some 0)) := by
  have hroot : ∀ x p, Function.update (fun _ => none) 0 (some 0) x = some p → x = 0 ∧ p = 0 := by
    intro x p hx
    by_cases hx0 : x = 0
    · subst hx0
      exact ⟨rfl, (some.inj hx).symm⟩
    · rw [Function.update_of_ne hx0] at hx
      cases hx
  refine ⟨⟨Function.update_self .., ?_, ?_, ?_, ?_⟩, ?_, fun _ _ _ _ _ _ hm => absurd hm (by omega),
    nofun⟩
  · intro x p hx
    rw [(hroot x p hx).2]
    exact some_ne_none 0
  · intro x p hx
    exact (hroot x p hx).1 ▸ .refl
  · exact fun x p hx hx0 => absurd (hroot x p hx).1 hx0
  · exact fun x p d hx hx0 => absurd (hroot x p hx).1 hx0
  · exact fun x _ hplace => hplace.elim (absurd · (by omega)) nofun

/-- **The passes end**, with the immediate dominators. -/
theorem immediateDominators_ends (fn : Function) :
    ∃ rounds rpo idom, Order fn rpo ∧ Dominators fn rpo idom ∧ ∀ fuel, rounds ≤ fuel →
      reversePostorder fn fuel = .ok rpo ∧
        immediateDominators (predecessors fn) rpo fuel = .ok idom := by
  obtain ⟨rounds, rpo, hwalk⟩ := reversePostorder_ends fn
  have ho := order_reversePostorder (hwalk rounds le_rfl)
  obtain ⟨M, hM⟩ := exists_enough fn rpo
  have hends : ∀ fuel, rounds ≤ fuel → 2 * rpo.length < fuel → M + 1 < fuel →
      ∃ idom, Dominators fn rpo idom ∧
        immediateDominators (predecessors fn) rpo fuel = .ok idom := by
    intro fuel hrounds hfuel hpasses
    obtain ⟨s₀, idom, k, hrun, -, -, hstage⟩ : ∃ s₀ idom k,
        immediateDominators (predecessors fn) rpo fuel = .ok idom ∧ _ ∧ _ ∧
          Stage fn rpo (k + 1) [] idom :=
      untilUnchanged_ends (P := fun k => Stage fn rpo k [])
        (fun k s hs => pass_stage ho hfuel hM hs) stage_start (zero_le (M + 1)) (by omega)
    refine ⟨idom, ⟨hstage.tree, fun x hx => hstage.known x hx (.inl (succ_pos k)), ?_⟩, hrun⟩
    -- a pass that changes nothing has the parents above the predecessors
    obtain ⟨hroot, -⟩ := immediateDominators_spec hrun
    exact fun x p hp _ => ancestor_dominates (fun a ha => hroot.ancestor_entry ha)
      (fun p b hp hedge hb0 => (reached_idom (hwalk fuel hrounds) hrun (hp.tail hedge)).2 p hp
        hedge hb0) (.step hp .refl)
  obtain ⟨idom, hidom, -⟩ := hends (rounds + 2 * rpo.length + M + 2) (by omega) (by omega)
    (by omega)
  refine ⟨rounds + 2 * rpo.length + M + 2, rpo, idom, ho, hidom, fun fuel hfuel => ?_⟩
  obtain ⟨idom', hidom', hrun⟩ := hends fuel (by omega) (by omega) (by omega)
  exact ⟨hwalk fuel (by omega), hidom.unique hidom' ▸ hrun⟩

end Passes

section Answer

variable {fn : Function} {rpo : List Nat} {idom : Nat → Option Nat}

theorem Dominators.ancestor_iff (h : Dominators fn rpo idom) {a b : Nat}
    (hb : ReflTransGen (Follows fn) 0 b) :
    Ancestor idom a b ↔ Dominates (Follows fn) 0 a b := by
  refine ⟨fun hanc => ?_, h.tree.ancestor (h.known b hb)⟩
  induction hanc with
  | refl => exact fun havoid => havoid.ne rfl
  | @step b p hup hanc ih =>
    by_cases hb0 : b = 0
    · subst hb0
      rw [h.tree.entry] at hup
      obtain rfl := some.inj hup
      exact ih hb
    · -- a path to the block passes through its parent, and so through what is above that
      have hp := h.sound b p hup hb0
      intro havoid
      have hreach := hp.reachable hb
      refine ih hreach ?_
      obtain ⟨n, hn⟩ := havoid.within (rpoIndex rpo)
      exact (hn.to_vertex fun hp' => hp hp'.avoids).avoids

variable {b c fuel : Nat} {a : Analysis}

/-- The loop of `dominates`, after so many turns. -/
theorem climbsTo_iff (h : Dominators fn rpo idom) (ha : a.idom = Function.update idom 0 none)
    (hc : idom c ≠ none) (hfuel : rpoIndex rpo c < fuel) :
    ∃ r, a.climbsTo b fuel (some c) = .ok r ∧ (r = true ↔ Ancestor idom b c) := by
  induction fuel generalizing c with
  | zero => omega
  | succ fuel ih =>
    rw [Analysis.climbsTo]
    by_cases hcb : c = b
    · subst hcb
      exact ⟨true, if_pos rfl, iff_of_true rfl .refl⟩
    rw [if_neg hcb, ha]
    by_cases hc0 : c = 0
    · subst hc0
      refine ⟨false, by cases fuel <;> rfl, iff_of_false Bool.false_ne_true fun hanc => ?_⟩
      exact hcb (h.tree.ancestor_root hanc).symm
    · obtain ⟨p, hp⟩ := ne_none_iff_exists'.mp hc
      rw [Function.update_of_ne hc0, hp]
      have hlt := h.tree.falls c p hp hc0
      obtain ⟨r, hr, hiff⟩ := ih (h.tree.closed c p hp) (by omega)
      refine ⟨r, hr, hiff.trans ⟨.step hp, fun hanc => ?_⟩⟩
      cases hanc with
      | refl => exact absurd rfl hcb
      | step hup hanc => exact some.inj (hup.symm.trans hp) ▸ hanc

theorem climbsTo_dominates_iff (ho : Order fn rpo) (h : Dominators fn rpo idom)
    (ha : a.idom = Function.update idom 0 none) (hne : b ≠ c)
    (hc : ReflTransGen (Follows fn) 0 c) (hfuel : rpo.length < fuel) :
    ∃ r, a.climbsTo b fuel (a.idom c) = .ok r ∧ (r = true ↔ Dominates (Follows fn) 0 b c) := by
  by_cases hc0 : c = 0
  · subst hc0
    rw [ha]
    refine ⟨false, by cases fuel <;> rfl, iff_of_false Bool.false_ne_true fun hdom => ?_⟩
    exact hne (dominates_root hdom)
  · obtain ⟨p, hp⟩ := ne_none_iff_exists'.mp (h.known c hc)
    have hset := h.tree.closed c p hp
    obtain ⟨q, hq⟩ := ne_none_iff_exists'.mp hset
    have hlt := ho.rpoIndex_lt (h.tree.reachable p q hq)
    obtain ⟨r, hr, hiff⟩ := climbsTo_iff h ha (b := b) hset (hlt.trans hfuel)
    refine ⟨r, ?_, hiff.trans ?_⟩
    · rw [ha, Function.update_of_ne hc0, hp]
      exact hr
    · rw [← h.ancestor_iff hc]
      refine ⟨.step hp, fun hanc => ?_⟩
      cases hanc with
      | refl => exact absurd rfl hne
      | step hup hanc => exact some.inj (hup.symm.trans hp) ▸ hanc

/-- **`dominates` is exact** for the blocks that are reached. -/
theorem dominates_exact (ho : Order fn rpo) (h : Dominators fn rpo idom) (defs : List Definition)
    (hlt : c < fn.blocks.1.length) (hc : ReflTransGen (Follows fn) 0 c)
    (hfuel : rpo.length < fuel) :
    ∃ r, Analysis.dominates ⟨fn, defs, rpo, Function.update idom 0 none, fuel⟩ b c = .ok r ∧
      (r = true ↔ Dominates (Follows fn) 0 b c) := by
  unfold Analysis.dominates
  by_cases hbc : b = c
  · subst hbc
    exact ⟨true, if_pos rfl, iff_of_true rfl fun havoid => havoid.ne rfl⟩
  · rw [if_neg hbc, if_neg (not_le.mpr hlt), if_neg (not_not.mpr ((ho.mem_iff c).mpr hc))]
    exact climbsTo_dominates_iff ho h rfl hbc hc hfuel

end Answer

end Bronze.Il
