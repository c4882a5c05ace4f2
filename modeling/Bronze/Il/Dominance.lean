import Bronze.Il.Verifier
import Bronze.Graph.Dominators

/-!
# The dominators of the verifier

The walk reaches every block that a path from the entry reaches, and the passes over the immediate
dominators end with a tree in which the parent of a block is an ancestor of each of its
predecessors.  So a block that `dominates` answers true of lies on every path to the other.

## Main results

* `mem_reversePostorder`: the order has every reachable block
* `immediateDominators_spec`: the parent of a block is an ancestor of its predecessors
* `dominates_sound`: `dominates` is right of the blocks that are reached
-/

namespace Bronze.Il

open Fixpoint Graph
open List Option Except Relation

section Walk

variable {succs : Nat → List Nat}

/-- What was entered is under way or done, and the edges that were followed lead to what was
entered; so at the end the edges of what is done lead to what is done. -/
theorem walk_closed {fuel : Nat} {dfsStack : List (Nat × Nat)} {seen rpo out : List Nat}
    (h : walk succs fuel dfsStack seen rpo = .ok out)
    (hseen : ∀ x ∈ seen, x ∈ rpo ∨ ∃ n, (x, n) ∈ dfsStack)
    (hdone : ∀ x ∈ rpo, ∀ y ∈ succs x, y ∈ seen)
    (hunderway : ∀ e ∈ dfsStack, ∀ y ∈ (succs e.1).take e.2, y ∈ seen) :
    (∀ x ∈ seen, x ∈ out) ∧ ∀ x ∈ out, ∀ y ∈ succs x, y ∈ out := by
  induction fuel generalizing dfsStack seen rpo with
  | zero =>
    cases dfsStack with
    | nil =>
      obtain rfl : rpo = out := ok.inj h
      have hall : ∀ x ∈ seen, x ∈ rpo := by
        intro x hx
        rcases hseen x hx with hx | ⟨n, hn⟩
        · exact hx
        · cases hn
      exact ⟨hall, fun x hx y hy => hall y (hdone x hx y hy)⟩
    | cons e dfsStack => cases h
  | succ fuel ih =>
    cases dfsStack with
    | nil =>
      obtain rfl : rpo = out := ok.inj h
      have hall : ∀ x ∈ seen, x ∈ rpo := by
        intro x hx
        rcases hseen x hx with hx | ⟨n, hn⟩
        · exact hx
        · cases hn
      exact ⟨hall, fun x hx y hy => hall y (hdone x hx y hy)⟩
    | cons e dfsStack =>
      obtain ⟨b, next⟩ := e
      rw [walk] at h
      cases hs : (succs b)[next]? with
      | some s =>
        rw [hs] at h
        dsimp only at h
        -- one more edge of `b` is followed
        have htake : (succs b).take (next + 1) = (succs b).take next ++ [s] := by
          rw [take_add_one, hs]
          rfl
        split at h
        · next hmem =>
          refine ih h ?_ hdone ?_
          · intro x hx
            rcases hseen x hx with hx | ⟨n, hn⟩
            · exact .inl hx
            · rcases mem_cons.mp hn with heq | hn
              · cases heq
                exact .inr ⟨_, mem_cons_self ..⟩
              · exact .inr ⟨n, mem_cons_of_mem _ hn⟩
          · intro e he y hy
            rcases mem_cons.mp he with rfl | he
            · rw [htake] at hy
              rcases mem_append.mp hy with hy | hy
              · exact hunderway _ (mem_cons_self ..) y hy
              · rw [mem_singleton.mp hy]
                exact hmem
            · exact hunderway e (mem_cons_of_mem _ he) y hy
        · next hnot =>
          have hkept := ih h ?_ ?_ ?_
          · exact ⟨fun x hx => hkept.1 x (mem_cons_of_mem s hx), hkept.2⟩
          · intro x hx
            rcases mem_cons.mp hx with rfl | hx
            · exact .inr ⟨0, mem_cons_self ..⟩
            · rcases hseen x hx with hx | ⟨n, hn⟩
              · exact .inl hx
              · rcases mem_cons.mp hn with heq | hn
                · cases heq
                  exact .inr ⟨_, mem_cons_of_mem _ (mem_cons_self ..)⟩
                · exact .inr ⟨n, mem_cons_of_mem _ (mem_cons_of_mem _ hn)⟩
          · exact fun x hx y hy => mem_cons_of_mem s (hdone x hx y hy)
          · intro e he y hy
            rcases mem_cons.mp he with rfl | he
            · cases hy
            · rcases mem_cons.mp he with rfl | he
              · rw [htake] at hy
                rcases mem_append.mp hy with hy | hy
                · exact mem_cons_of_mem s (hunderway _ (mem_cons_self ..) y hy)
                · rw [mem_singleton.mp hy]
                  exact mem_cons_self ..
              · exact mem_cons_of_mem s (hunderway e (mem_cons_of_mem _ he) y hy)
      | none =>
        rw [hs] at h
        -- every edge of `b` was followed
        have hfull : (succs b).take next = succs b :=
          take_of_length_le (getElem?_eq_none_iff.mp hs)
        refine ih h ?_ ?_ fun e he => hunderway e (mem_cons_of_mem _ he)
        · intro x hx
          rcases hseen x hx with hx | ⟨n, hn⟩
          · exact .inl (mem_cons_of_mem b hx)
          · rcases mem_cons.mp hn with heq | hn
            · cases heq
              exact .inl (mem_cons_self ..)
            · exact .inr ⟨n, hn⟩
        · intro x hx y hy
          rcases mem_cons.mp hx with rfl | hx
          · refine hunderway (x, next) (mem_cons_self ..) y ?_
            rw [hfull]
            exact hy
          · exact hdone x hx y hy

end Walk

/-- The edges the verifier adds. -/
def Follows (fn : Function) (b c : Nat) : Prop := c ∈ successors fn b

section Idom

variable {fn : Function} {fuel : Nat} {rpo : List Nat} {idom : Nat → Option Nat} {b : Nat}

theorem mem_reversePostorder (h : reversePostorder fn fuel = .ok rpo)
    (hb : ReflTransGen (Follows fn) 0 b) : b ∈ rpo := by
  have hclosed := walk_closed h (by simp) (by simp) (by simp)
  induction hb with
  | refl => exact hclosed.1 0 (mem_singleton_self 0)
  | tail _ hlast ih => exact hclosed.2 _ ih _ hlast

theorem mem_predecessors {p b : Nat} : p ∈ predecessors fn b ↔ Follows fn p b := by
  unfold predecessors Follows
  rw [mem_filter, mem_range, decide_eq_true_iff]
  refine and_iff_right_of_imp fun h => ?_
  -- a block past the end has no edges
  by_contra hlt
  rw [successors, getElem?_eq_none (by omega)] at h
  cases h

/-! ## The immediate dominators -/

/-- What every assignment keeps: the entry is its own dominator, and the dominator of a block has
one. -/
structure Rooted (idom : Nat → Option Nat) : Prop where
  entry : idom 0 = some 0
  closed : ∀ x p, idom x = some p → idom p ≠ none

theorem Rooted.ancestor_entry (h : Rooted idom) {a : Nat} (ha : Ancestor idom a 0) : a = 0 := by
  suffices ∀ b, Ancestor idom a b → b = 0 → a = 0 from this 0 ha rfl
  intro b hb
  induction hb with
  | refl => exact id
  | step hup _ ih =>
    rintro rfl
    rw [h.entry] at hup
    exact ih (some.inj hup).symm

theorem intersectIdom_ancestor (hroot : Rooted idom) {b₁ b₂ r : Nat} (h₁ : idom b₁ ≠ none)
    (h₂ : idom b₂ ≠ none) (h : intersectIdom rpo idom fuel b₁ b₂ = .ok r) :
    Ancestor idom r b₁ ∧ Ancestor idom r b₂ ∧ idom r ≠ none := by
  induction fuel generalizing b₁ b₂ with
  | zero => cases h
  | succ fuel ih =>
    rw [intersectIdom] at h
    split at h
    · next heq =>
      obtain rfl : b₁ = r := ok.inj h
      subst heq
      exact ⟨.refl, .refl, h₁⟩
    · split at h
      · cases hp : idom b₁ with
        | none => exact absurd hp h₁
        | some p =>
          rw [hp] at h
          obtain ⟨hr₁, hr₂, hr⟩ := ih (hroot.closed b₁ p hp) h₂ h
          exact ⟨.step hp hr₁, hr₂, hr⟩
      · split at h
        · cases hp : idom b₂ with
          | none => exact absurd hp h₂
          | some p =>
            rw [hp] at h
            obtain ⟨hr₁, hr₂, hr⟩ := ih h₁ (hroot.closed b₂ p hp) h
            exact ⟨hr₁, .step hp hr₂, hr⟩
        · exact ih h₁ h₂ h

theorem meetPredecessors_ancestor (hroot : Rooted idom) {preds : List Nat} {new : Option Nat}
    (h : meetPredecessors rpo idom fuel preds = .ok new) :
    (∀ q, new = some q → idom q ≠ none) ∧
      ∀ p ∈ preds, p ∈ rpo → idom p ≠ none → ∃ q, new = some q ∧ Ancestor idom q p := by
  refine foldlM_ok (P := fun pre new => (∀ q, new = some q → idom q ≠ none) ∧
    ∀ p ∈ pre, p ∈ rpo → idom p ≠ none → ∃ q, new = some q ∧ Ancestor idom q p) h
    ⟨nofun, nofun⟩ ?_
  rintro pre p suf new new' - ⟨hset, hmeet⟩ hstep
  split at hstep
  · next hskip =>
    obtain rfl : new = new' := ok.inj hstep
    refine ⟨hset, fun x hx hxr hxi => ?_⟩
    rcases mem_append.mp hx with hx | hx
    · exact hmeet x hx hxr hxi
    · obtain rfl := mem_singleton.mp hx
      rcases hskip with hnot | hnone
      · exact absurd hxr hnot
      · exact absurd hnone hxi
  · next htakes =>
    obtain ⟨-, hp⟩ := not_or.mp htakes
    cases new with
    | none =>
      obtain rfl : some p = new' := ok.inj hstep
      refine ⟨fun q hq => some.inj hq ▸ hp, fun x hx hxr hxi => ?_⟩
      rcases mem_append.mp hx with hx | hx
      · obtain ⟨q, hq, -⟩ := hmeet x hx hxr hxi
        cases hq
      · obtain rfl := mem_singleton.mp hx
        exact ⟨x, rfl, .refl⟩
    | some q =>
      dsimp only at hstep
      cases hmet : intersectIdom rpo idom fuel q p with
      | error e =>
        rw [hmet] at hstep
        cases hstep
      | ok r =>
        rw [hmet] at hstep
        obtain rfl : some r = new' := ok.inj hstep
        obtain ⟨hq, hrp, hr⟩ := intersectIdom_ancestor hroot (hset q rfl) hp hmet
        refine ⟨fun q' hq' => some.inj hq' ▸ hr, fun x hx hxr hxi => ⟨r, rfl, ?_⟩⟩
        rcases mem_append.mp hx with hx | hx
        · obtain ⟨q', hq', hxq⟩ := hmeet x hx hxr hxi
          obtain rfl := some.inj hq'
          exact hq.trans hxq
        · rw [mem_singleton.mp hx]
          exact hrp

variable {preds : Nat → List Nat}

theorem updateIdom_rooted {s s' : (Nat → Option Nat) × Bool} (hroot : Rooted s.1)
    (h : updateIdom preds rpo fuel s b = .ok s') : Rooted s'.1 := by
  unfold updateIdom at h
  split at h
  · obtain rfl : s = s' := ok.inj h
    exact hroot
  · next hb =>
    obtain ⟨new, hnew, h⟩ := bind_eq_ok.mp h
    split at h
    · next hchange =>
      obtain rfl := ok.inj h
      obtain ⟨q, rfl⟩ := ne_none_iff_exists'.mp hchange.1
      have hq := (meetPredecessors_ancestor hroot hnew).1 q rfl
      refine ⟨?_, fun x p hx => ?_⟩ <;> dsimp only at *
      · rw [Function.update_of_ne (Ne.symm hb)]
        exact hroot.entry
      · -- a block that had a dominator has one still
        have hkeep : ∀ y, s.1 y ≠ none → Function.update s.1 b (some q) y ≠ none := by
          intro y hy
          by_cases hyb : y = b
          · subst hyb
            rw [Function.update_self]
            exact some_ne_none q
          · rw [Function.update_of_ne hyb]
            exact hy
        apply hkeep
        by_cases hxb : x = b
        · subst hxb
          rw [Function.update_self] at hx
          exact some.inj hx ▸ hq
        · rw [Function.update_of_ne hxb] at hx
          exact hroot.closed x p hx
    · obtain rfl := ok.inj h
      exact hroot

/-- **The dominators at the end**: the dominator of a block is an ancestor of each predecessor
that the order and the dominators know. -/
theorem immediateDominators_spec (h : immediateDominators preds rpo fuel = .ok idom) :
    Rooted idom ∧ ∀ b ∈ rpo, b ≠ 0 → ∀ p ∈ preds b, p ∈ rpo → idom p ≠ none →
      ∃ q, idom b = some q ∧ Ancestor idom q p := by
  have hstart : Rooted (Function.update (fun _ => none) 0 (some 0)) := by
    refine ⟨Function.update_self .., fun x p hx => ?_⟩
    by_cases hx0 : x = 0
    · subst hx0
      obtain rfl := some.inj hx
      exact some_ne_none 0
    · rw [Function.update_of_ne hx0] at hx
      cases hx
  obtain ⟨idom₀, hroot, hpass⟩ := untilUnchanged_ok (P := Rooted) (fun s s' changed hs hrun =>
    foldlM_ok (P := fun _ s => Rooted s.1) hrun hs
      fun _ _ _ _ _ _ hs hstep => updateIdom_rooted hs hstep) hstart h
  -- the last pass changed nothing, so each of its turns agreed with what there was
  have hturn : ∀ s b s', updateIdom preds rpo fuel s b = .ok s' → s'.2 = false → s' = s := by
    intro s b s' hs hsilent
    unfold updateIdom at hs
    split at hs
    · exact (ok.inj hs).symm
    · obtain ⟨new, -, hs⟩ := bind_eq_ok.mp hs
      split at hs
      · obtain rfl := ok.inj hs
        cases hsilent
      · exact (ok.inj hs).symm
  obtain ⟨heq, hturns⟩ := foldlM_stable hpass rfl hturn
  obtain rfl : idom = idom₀ := congrArg Prod.fst heq
  refine ⟨hroot, fun b hb hb0 p hp hpr hpi => ?_⟩
  have hfix := hturns b hb
  rw [updateIdom, if_neg hb0] at hfix
  obtain ⟨new, hnew, hfix⟩ := bind_eq_ok.mp hfix
  obtain ⟨q, rfl, hq⟩ := (meetPredecessors_ancestor hroot hnew).2 p hp hpr hpi
  split at hfix
  · cases congrArg Prod.snd (ok.inj hfix)
  · next hsame =>
    have : idom b = some q := by
      by_contra hne
      exact hsame ⟨some_ne_none q, hne⟩
    exact ⟨q, this, hq⟩

/-- Every block that a path reaches has a dominator, which is an ancestor of the block before it on
the path. -/
theorem reached_idom (hrpo : reversePostorder fn fuel = .ok rpo)
    (hidom : immediateDominators (predecessors fn) rpo fuel = .ok idom)
    (hb : ReflTransGen (Follows fn) 0 b) :
    idom b ≠ none ∧ ∀ p, ReflTransGen (Follows fn) 0 p → Follows fn p b → b ≠ 0 →
      ∃ q, idom b = some q ∧ Ancestor idom q p := by
  obtain ⟨hroot, hspec⟩ := immediateDominators_spec hidom
  have hset : ∀ c, ReflTransGen (Follows fn) 0 c → idom c ≠ none := by
    intro c hc
    induction hc with
    | refl =>
      rw [hroot.entry]
      exact some_ne_none 0
    | @tail p c hp hlast ih =>
      by_cases hc0 : c = 0
      · subst hc0
        rw [hroot.entry]
        exact some_ne_none 0
      · obtain ⟨q, hq, -⟩ := hspec c (mem_reversePostorder hrpo (hp.tail hlast)) hc0 p
          (mem_predecessors.mpr hlast) (mem_reversePostorder hrpo hp) ih
        rw [hq]
        exact some_ne_none q
  exact ⟨hset b hb, fun p hp hedge hb0 => hspec b (mem_reversePostorder hrpo hb) hb0 p
    (mem_predecessors.mpr hedge) (mem_reversePostorder hrpo hp) (hset p hp)⟩

end Idom

variable {idom : Nat → Option Nat} {b fuel : Nat} {a : Analysis}

theorem Analysis.climbsTo_ancestor
    (hsub : ∀ x p, a.idom x = some p → idom x = some p) {cur : Option Nat}
    (h : a.climbsTo b fuel cur = .ok true) : ∃ c, cur = some c ∧ Ancestor idom b c := by
  induction fuel generalizing cur with
  | zero => cases cur <;> cases h
  | succ fuel ih =>
    cases cur with
    | none => cases h
    | some c =>
      rw [climbsTo] at h
      split at h
      · next heq =>
        subst heq
        exact ⟨c, rfl, .refl⟩
      · obtain ⟨p, hp, hanc⟩ := ih h
        exact ⟨c, rfl, .step (hsub c p hp) hanc⟩

variable {fn : Function} {rpo : List Nat} (hrpo : reversePostorder fn fuel = .ok rpo)

include hrpo

variable (hidom : immediateDominators (predecessors fn) rpo fuel = .ok idom)

include hidom

theorem climbsTo_dominates (ha : a.idom = Function.update idom 0 none) {c : Nat}
    (h : a.climbsTo b fuel (a.idom c) = .ok true) : Dominates (Follows fn) 0 b c := by
  obtain ⟨hroot, -⟩ := immediateDominators_spec hidom
  refine ancestor_dominates (fun a ha => hroot.ancestor_entry ha)
    (fun p b hp hedge hb0 => (reached_idom hrpo hidom (hp.tail hedge)).2 p hp hedge hb0) ?_
  have hsub : ∀ x p, a.idom x = some p → idom x = some p := by
    intro x p hx
    rw [ha] at hx
    by_cases hx0 : x = 0
    · subst hx0
      cases hx
    · rwa [Function.update_of_ne hx0] at hx
  obtain ⟨p, hp, hanc⟩ := Analysis.climbsTo_ancestor hsub h
  exact .step (hsub c p hp) hanc

/-- **`dominates` is right of the blocks that are reached.** -/
theorem dominates_sound {defs : List Definition} {c : Nat}
    (hc : ReflTransGen (Follows fn) 0 c)
    (h : Analysis.dominates ⟨fn, defs, rpo, Function.update idom 0 none, fuel⟩ b c = .ok true) :
    Dominates (Follows fn) 0 b c := by
  unfold Analysis.dominates at h
  split at h
  · next heq =>
    subst heq
    exact fun havoid => havoid.ne rfl
  · split at h
    · cases h
    · split at h
      · next hnot => exact absurd (mem_reversePostorder hrpo hc) hnot
      · exact climbsTo_dominates hrpo hidom rfl h

end Bronze.Il
