import Bronze.Regex.Matcher

/-!
# Failure leaves the captures

Every attempt that answers `false` leaves every slot of the captures as it was, at any position and
for any tree and continuation: the combinators keep that, and the functions of the matcher are made
of them.
-/

namespace Bronze.Regex

open Attempt

/-- What an attempt leaves of the memory: the captures where it fails, and what went astray. -/
structure Tame (a : Attempt) : Prop where
  restores : ∀ σ σ', a σ = .ok (false, σ') → σ'.captures = σ.captures
  astray : ∀ σ found σ', a σ = .ok (found, σ') → σ.astray = true → σ'.astray = true

section Tame

variable {a b : Attempt}

theorem Tame.not_astray (h : Tame a) {σ σ' : Memory} {found : Bool} (ha : a σ = .ok (found, σ'))
    (hstray : σ'.astray = false) : σ.astray = false := by
  cases hσ : σ.astray with
  | false => rfl
  | true =>
    rw [h.astray σ found σ' ha hσ] at hstray
    cases hstray

theorem Tame.fail : Tame fail where
  restores := by
    intro σ σ' h
    cases h
    rfl
  astray := by
    intro σ found σ' h hσ
    cases h
    exact hσ

theorem Tame.giveUp (e : GiveUp) : Tame (giveUp e) where
  restores := nofun
  astray := nofun

theorem Tame.done (pos : Nat) : Tame fun σ => .ok (true, { σ with endPos := pos }) where
  restores := by
    intro σ σ' h
    cases h
  astray := by
    intro σ found σ' h hσ
    cases h
    exact hσ

theorem Tame.orElse (h : Tame a) (h' : Tame b) : Tame (orElse a b) where
  restores := by
    intro σ σ' hσ
    rw [Attempt.orElse] at hσ
    cases ha : a σ with
    | error e => rw [ha] at hσ; cases hσ
    | ok r =>
      obtain ⟨found, σ₁⟩ := r
      rw [ha] at hσ
      cases found with
      | true => cases hσ
      | false => exact (h'.restores σ₁ σ' hσ).trans (h.restores σ σ₁ ha)
  astray := by
    intro σ found σ' hσ hastray
    rw [Attempt.orElse] at hσ
    cases ha : a σ with
    | error e => rw [ha] at hσ; cases hσ
    | ok r =>
      obtain ⟨first, σ₁⟩ := r
      have hastray₁ := h.astray σ first σ₁ ha hastray
      rw [ha] at hσ
      cases first with
      | true =>
        cases hσ
        exact hastray₁
      | false => exact h'.astray σ₁ found σ' hσ hastray₁

theorem Tame.tick (h : Tame a) : Tame (tick a) where
  restores := by
    intro σ σ' hσ
    rw [Attempt.tick] at hσ
    split at hσ
    · cases hσ
    · exact h.restores { σ with steps := σ.steps + 1 } σ' hσ
  astray := by
    intro σ found σ' hσ hastray
    rw [Attempt.tick] at hσ
    split at hσ
    · cases hσ
    · exact h.astray { σ with steps := σ.steps + 1 } found σ' hσ hastray

theorem Tame.undoing (h : Tame a) {write : (Nat → Int) → Nat → Int}
    {restore : (Nat → Int) → (Nat → Int) → Nat → Int}
    (hback : ∀ captures, restore captures (write captures) = captures) :
    Tame fun σ => undoing write (restore σ.captures) a σ where
  restores := by
    intro σ σ' hσ
    simp only [Attempt.undoing] at hσ
    cases ha : a { σ with captures := write σ.captures } with
    | error e => rw [ha] at hσ; cases hσ
    | ok r =>
      obtain ⟨found, σ₁⟩ := r
      rw [ha] at hσ
      cases found with
      | true => cases hσ
      | false =>
        have hcaptures : σ₁.captures = write σ.captures := h.restores _ σ₁ ha
        cases hσ
        show restore σ.captures σ₁.captures = σ.captures
        rw [hcaptures, hback]
  astray := by
    intro σ found σ' hσ hastray
    simp only [Attempt.undoing] at hσ
    cases ha : a { σ with captures := write σ.captures } with
    | error e => rw [ha] at hσ; cases hσ
    | ok r =>
      obtain ⟨first, σ₁⟩ := r
      have hastray₁ := h.astray { σ with captures := write σ.captures } first σ₁ ha hastray
      rw [ha] at hσ
      cases first <;>
      · cases hσ
        exact hastray₁

theorem Tame.orElse_byCaptures (h : Tame a) (f : (Nat → Int) → Attempt) :
    (fun σ => Attempt.orElse a (f σ.captures) σ) = Attempt.orElse a fun σ => f σ.captures σ := by
  funext σ
  simp only [Attempt.orElse]
  split
  next σ' ha => rw [h.restores σ σ' ha]
  next => rfl

end Tame

namespace Matcher

variable {m : Matcher}

theorem restore_clear (q : Quantifier) (captures : Nat → Int) :
    restoreRepeatCaptures q captures (clearRepeatCaptures q captures) = captures := by
  funext slot
  rw [restoreRepeatCaptures, clearRepeatCaptures]
  cases inRepeat q slot <;> rfl

theorem reopen_close (j mark pos : Nat) (captures : Nat → Int) :
    reopenCapture j captures (closeCapture j mark pos captures) = captures := by
  funext slot
  rw [reopenCapture, closeCapture]
  split
  · rfl
  next h => rw [if_neg fun h' => h (.inl h'), if_neg fun h' => h (.inr h')]

/-! ## Relations the matcher keeps -/

section Congruent

/-- A relation of attempts that everything the functions of the matcher are made of keeps. -/
structure Congruent (R : Attempt → Attempt → Prop) : Prop where
  fail : R fail fail
  done (pos : Nat) :
    R (fun σ => .ok (true, { σ with endPos := pos })) fun σ => .ok (true, { σ with endPos := pos })
  -- what a failed way out of the loop leaves is what the turn writes back
  orUndoing {a a' b b' : Attempt} {write : (Nat → Int) → Nat → Int}
    {restore : (Nat → Int) → (Nat → Int) → Nat → Int}
    (hback : ∀ captures, restore captures (write captures) = captures) : R a b → R a' b' →
      R (fun σ => orElse a (undoing write (restore σ.captures) a') σ)
        fun σ => orElse b (undoing write (restore σ.captures) b') σ
  undoing {a b : Attempt} {write : (Nat → Int) → Nat → Int}
    {restore : (Nat → Int) → (Nat → Int) → Nat → Int}
    (hback : ∀ captures, restore captures (write captures) = captures) : R a b →
      R (fun σ => undoing write (restore σ.captures) a σ)
        fun σ => undoing write (restore σ.captures) b σ
  orElse {a a' b b' : Attempt} : R a b → R a' b' → R (orElse a a') (orElse b b')
  tick {a b : Attempt} : R a b → R (tick a) (tick b)
  backreference {m : Matcher} {rest rest' : Nat → Attempt}
    (hrest : ∀ pos, R (rest pos) (rest' pos)) (index pos : Nat) (backward : Bool) :
    R (m.matchBackreference rest index pos backward)
      (m.matchBackreference rest' index pos backward)
  lookaround {self self' : Descend} {rest rest' : Nat → Attempt} {behind : Bool} {body : Node}
    {pos : Nat} (hself : R (self body pos .done behind) (self' body pos .done behind))
    (hrest : R (rest pos) (rest' pos)) (negative : Bool) :
    R (matchLookaround self rest negative behind body pos)
      (matchLookaround self' rest' negative behind body pos)

variable {R : Attempt → Attempt → Prop} {self self' : Descend} {rest rest' : Nat → Attempt}
  (hR : Congruent R)
  (hself : ∀ node pos k backward, R (self node pos k backward) (self' node pos k backward))
  (hrest : ∀ pos, R (rest pos) (rest' pos))

include hR hrest

theorem Congruent.oneCharacter (node : Node) (pos : Nat) (backward : Bool) :
    R (m.matchOneCharacter rest node pos backward)
      (m.matchOneCharacter rest' node pos backward) := by
  rw [matchOneCharacter, matchOneCharacter]
  cases m.consume pos backward with
  | none => exact hR.fail
  | some step =>
    dsimp only
    split
    · exact hrest _
    · exact hR.fail

theorem Congruent.strings (pos : Nat) (backward : Bool) (strings : List (List Nat)) :
    R (m.matchStrings rest pos backward strings) (m.matchStrings rest' pos backward strings) := by
  induction strings with
  | nil => exact hR.fail
  | cons member strings ih =>
    rw [matchStrings, matchStrings]
    cases m.consumeMember backward (if backward then member.reverse else member) pos with
    | none => exact ih
    | some at' => exact hR.orElse (hrest at') ih

theorem Congruent.classSet (c : CharacterClass) (pos : Nat) (backward : Bool) :
    R (m.matchClassSet rest c pos backward) (m.matchClassSet rest' c pos backward) := by
  refine hR.orElse (hR.strings hrest pos backward c.strings) (hR.orElse ?_ ?_)
  · split
    · exact hR.fail
    · exact hR.oneCharacter hrest _ pos backward
  · split
    · exact hrest pos
    · exact hR.fail

theorem Congruent.giveBack (min : Nat) (backward : Bool) (n cur : Nat) :
    R (m.giveBack rest min backward n cur) (m.giveBack rest' min backward n cur) := by
  induction n generalizing cur with
  | zero => exact hrest cur
  | succ n ih =>
    refine hR.orElse (hrest cur) ?_
    split
    · exact hR.fail
    · exact ih _

theorem Congruent.takeMore (backward : Bool) (left cur : Nat) :
    R (m.takeMore rest backward left cur) (m.takeMore rest' backward left cur) := by
  induction left generalizing cur with
  | zero => exact hrest cur
  | succ left ih => exact hR.orElse (hrest cur) (ih _)

theorem Congruent.simpleRepeat (q : Quantifier) (atom : Node) (pos : Nat) (backward : Bool) :
    R (m.matchSimpleRepeat rest q atom pos backward)
      (m.matchSimpleRepeat rest' q atom pos backward) := by
  rw [matchSimpleRepeat, matchSimpleRepeat]
  dsimp only
  split
  · exact hR.fail
  · split
    · exact hR.giveBack hrest _ backward ..
    · exact hR.takeMore hrest backward _ _

include hself

theorem Congruent.sequence (terms : List Node) (index pos : Nat) (k : Cont) (backward : Bool) :
    R (matchSequence self rest terms index pos k backward)
      (matchSequence self' rest' terms index pos k backward) := by
  rw [matchSequence, matchSequence]
  split
  · exact hrest pos
  · cases terms[if backward then terms.length - 1 - index else index]? with
    | none => exact hR.fail
    | some term => exact hself term pos _ backward

theorem Congruent.alternatives (pos : Nat) (k : Cont) (backward : Bool)
    (alternatives : List (List Node)) :
    R (matchAlternatives self rest pos k backward alternatives)
      (matchAlternatives self' rest' pos k backward alternatives) := by
  induction alternatives with
  | nil => exact hR.fail
  | cons terms alternatives ih =>
    exact hR.orElse (hR.sequence hself hrest terms 0 pos k backward) ih

theorem Congruent.repeats (q : Quantifier) (atom : Node) (min max pos : Nat) (k : Cont)
    (backward : Bool) : R (matchRepeat self rest q atom min max pos k backward)
      (matchRepeat self' rest' q atom min max pos k backward) := by
  by_cases hmax : max = 0
  · rw [matchRepeat, matchRepeat, if_pos hmax, if_pos hmax]
    exact hrest pos
  · have hturn := hself atom pos (.repeats q atom min max pos backward k) backward
    rw [matchRepeat_eq self rest q atom min hmax, matchRepeat_eq self' rest' q atom min hmax]
    simp only [turnOrLeave]
    split
    · exact hR.undoing (restore_clear q) hturn
    · split
      · exact hR.orElse (hR.undoing (restore_clear q) hturn) (hrest pos)
      · exact hR.orUndoing (restore_clear q) (hrest pos) hturn

omit hrest

theorem Congruent.runCont (k : Cont) (pos : Nat) :
    R (runCont self k pos) (runCont self' k pos) := by
  induction k generalizing pos with
  | done => exact hR.tick (hR.done pos)
  | sequence terms index backward next ih =>
    exact hR.tick (hR.sequence hself ih terms index pos next backward)
  | repeats q atom min max mark backward next ih =>
    rw [Matcher.runCont, Matcher.runCont]
    split
    · exact hR.tick hR.fail
    · exact hR.tick (hR.repeats hself ih q atom _ _ pos next backward)
  | capture captureIndex mark next ih =>
    exact hR.tick (hR.undoing (reopen_close captureIndex mark pos) (ih pos))

theorem Congruent.node (node : Node) (pos : Nat) (k : Cont) (backward : Bool) :
    R (m.matchNodeInner self node pos k backward) (m.matchNodeInner self' node pos k backward) := by
  have hrest := hR.runCont hself k
  cases node with
  | alternation alternatives => exact hR.alternatives hself hrest pos k backward alternatives
  | sequence terms => exact hR.sequence hself hrest terms 0 pos k backward
  | char ch => exact hR.oneCharacter hrest _ pos backward
  | characterClass c =>
    rw [matchNodeInner, matchNodeInner]
    split
    · exact hR.classSet hrest c pos backward
    · exact hR.oneCharacter hrest _ pos backward
  | dot => exact hR.oneCharacter hrest _ pos backward
  | assertion kind =>
    rw [matchNodeInner, matchNodeInner]
    split
    · exact hR.fail
    · exact hrest pos
  | lookahead negative body => exact hR.lookaround (hself body pos ..) (hrest pos) negative
  | lookbehind negative body => exact hR.lookaround (hself body pos ..) (hrest pos) negative
  | group captureIndex body =>
    rw [matchNodeInner, matchNodeInner]
    split
    · exact hself body pos k backward
    · exact hself body pos _ backward
  | backreference index => exact hR.backreference hrest index pos backward
  | repeats q atom =>
    rw [matchNodeInner, matchNodeInner]
    split
    · exact hR.simpleRepeat hrest q atom pos backward
    · exact hR.repeats hself hrest q atom q.min q.max pos k backward

end Congruent

section Level

/-- The level below leaves the captures where it fails. -/
def DescendTame (self : Descend) : Prop := ∀ node pos k backward, Tame (self node pos k backward)

variable {self : Descend} {rest : Nat → Attempt}

theorem matchBackreference_tame (hrest : ∀ pos, Tame (rest pos)) (index pos : Nat)
    (backward : Bool) : Tame (m.matchBackreference rest index pos backward) where
  restores := by
    intro σ σ' h
    rw [matchBackreference_eq] at h
    cases hstep : m.backreferenceStep σ.captures index pos backward with
    | none =>
      rw [hstep] at h
      exact Tame.fail.restores σ σ' h
    | some step =>
      rw [hstep] at h
      exact (hrest step.1).restores { σ with astray := σ.astray || step.2 } σ' h
  astray := by
    intro σ found σ' h hastray
    rw [matchBackreference_eq] at h
    cases hstep : m.backreferenceStep σ.captures index pos backward with
    | none =>
      rw [hstep] at h
      exact Tame.fail.astray σ found σ' h hastray
    | some step =>
      rw [hstep] at h
      exact (hrest step.1).astray { σ with astray := σ.astray || step.2 } found σ' h
        (by simp [hastray])

/-- What a lookaround comes to: its body fails it, or the continuation is run with the captures of
before or with those of the body. -/
theorem matchLookaround_cases {negative behind found : Bool} {body : Node} {pos : Nat}
    {σ σ' : Memory} (h : matchLookaround self rest negative behind body pos σ = .ok (found, σ')) :
    ∃ inner σ₁, self body pos .done behind σ = .ok (inner, σ₁) ∧
      (inner = negative ∧ found = false ∧
          σ' = { σ₁ with endPos := σ.endPos, captures := σ.captures } ∨
        inner = false ∧ negative = true ∧
          rest pos { σ₁ with endPos := σ.endPos, captures := σ.captures } = .ok (found, σ') ∨
        inner = true ∧ negative = false ∧
          ∃ τ, rest pos { σ₁ with endPos := σ.endPos } = .ok (found, τ) ∧
            (found = true ∧ σ' = τ ∨ found = false ∧ σ' = { τ with captures := σ.captures })) := by
  simp only [matchLookaround] at h
  cases hrun : self body pos .done behind σ with
  | error e => rw [hrun] at h; cases h
  | ok r =>
    obtain ⟨inner, σ₁⟩ := r
    rw [hrun] at h
    refine ⟨inner, σ₁, rfl, ?_⟩
    cases negative with
    | true =>
      cases inner with
      | true =>
        cases h
        exact .inl ⟨rfl, rfl, rfl⟩
      | false => exact .inr (.inl ⟨rfl, rfl, h⟩)
    | false =>
      cases inner with
      | false =>
        cases h
        exact .inl ⟨rfl, rfl, rfl⟩
      | true =>
        refine .inr (.inr ⟨rfl, rfl, ?_⟩)
        simp only [undoing, id_eq] at h
        cases hrest : rest pos { σ₁ with endPos := σ.endPos } with
        | error e => rw [hrest] at h; cases h
        | ok r =>
          obtain ⟨last, τ⟩ := r
          rw [hrest] at h
          cases last with
          | true =>
            cases h
            exact ⟨_, rfl, .inl ⟨rfl, rfl⟩⟩
          | false =>
            cases h
            exact ⟨τ, rfl, .inr ⟨rfl, rfl⟩⟩

theorem matchLookaround_tame {behind : Bool} {body : Node} {pos : Nat}
    (hself : Tame (self body pos .done behind)) (hrest : Tame (rest pos)) (negative : Bool) :
    Tame (matchLookaround self rest negative behind body pos) where
  restores := by
    intro σ σ' h
    obtain ⟨inner, σ₁, -, ⟨-, -, rfl⟩ | ⟨-, -, hrun⟩ | ⟨-, -, τ, -, ⟨hfound, -⟩ | ⟨-, rfl⟩⟩⟩ :=
      matchLookaround_cases h
    · rfl
    · exact hrest.restores { σ₁ with endPos := σ.endPos, captures := σ.captures } σ' hrun
    · cases hfound
    · rfl
  astray := by
    intro σ found σ' h hastray
    obtain ⟨inner, σ₁, hbody, hcases⟩ := matchLookaround_cases h
    have hastray₁ := hself.astray σ inner σ₁ hbody hastray
    obtain ⟨-, -, rfl⟩ | ⟨-, -, hrun⟩ | ⟨-, -, τ, hrun, ⟨-, rfl⟩ | ⟨-, rfl⟩⟩ := hcases
    · exact hastray₁
    · exact hrest.astray { σ₁ with endPos := σ.endPos, captures := σ.captures } found σ' hrun
        hastray₁
    · exact hrest.astray { σ₁ with endPos := σ.endPos } found _ hrun hastray₁
    · exact hrest.astray { σ₁ with endPos := σ.endPos } found τ hrun hastray₁

/-- Leaving the captures is kept, as a relation that reads its left side only. -/
theorem congruent_tame : Congruent fun a _ => Tame a where
  fail := Tame.fail
  done := Tame.done
  orUndoing {_ a' _ _ write restore} hback h h' := by
    rw [h.orElse_byCaptures fun captures => undoing write (restore captures) a']
    exact h.orElse (h'.undoing hback)
  undoing hback h := h.undoing hback
  orElse := Tame.orElse
  tick := Tame.tick
  backreference hrest := matchBackreference_tame hrest
  lookaround hself hrest negative := matchLookaround_tame hself hrest negative

variable (hself : DescendTame self)

include hself

theorem matchRepeat_tame (hrest : ∀ pos, Tame (rest pos)) (q : Quantifier) (atom : Node)
    (min max pos : Nat) (k : Cont) (backward : Bool) :
    Tame (matchRepeat self rest q atom min max pos k backward) :=
  @Congruent.repeats _ self self rest rest congruent_tame hself hrest q atom min max pos k backward

theorem runCont_tame (k : Cont) (pos : Nat) : Tame (runCont self k pos) :=
  @Congruent.runCont _ self self congruent_tame hself k pos

theorem matchNodeInner_tame : DescendTame (m.matchNodeInner self) :=
  @Congruent.node m _ self self congruent_tame hself

omit hself

/-- **A node that fails leaves the captures**, at every level. -/
theorem matchNode_tame (levels : Nat) : DescendTame (m.matchNode levels) := by
  induction levels with
  | zero => exact fun _ _ _ _ => Tame.giveUp _
  | succ levels ih => exact matchNodeInner_tame ih

end Level

end Matcher

end Bronze.Regex
