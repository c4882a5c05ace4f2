import Bronze.Regex.Correspondence
import Bronze.Regex.Undo

/-!
# The repeat of one character

`matchSimpleRepeat` scans an atom of one character and then runs the continuation at one position
after the other; `matchRepeat` reaches the same positions by matching the atom turn by turn, with a
level and a step of the budget for each. What the two share is the list of positions at which the
continuation is run until it succeeds.

## Main results

* `Matcher.matchNode_agree`: a node answers the same at every level
* `Matcher.runs_functional`: the positions decide the answer
-/

namespace Bronze.Regex

open Attempt
open List Nat Option

/-! ## Attempts that differ in their budget -/

/-- The memories are the same but for the steps. -/
structure SameMemory (σ τ : Memory) : Prop where
  captures : σ.captures = τ.captures
  endPos : σ.endPos = τ.endPos
  astray : σ.astray = τ.astray

theorem SameMemory.refl (σ : Memory) : SameMemory σ σ := ⟨rfl, rfl, rfl⟩

theorem SameMemory.symm {σ τ : Memory} (h : SameMemory σ τ) : SameMemory τ σ :=
  ⟨h.captures.symm, h.endPos.symm, h.astray.symm⟩

theorem SameMemory.trans {σ τ ρ : Memory} (h : SameMemory σ τ) (h' : SameMemory τ ρ) :
    SameMemory σ ρ :=
  ⟨h.captures.trans h'.captures, h.endPos.trans h'.endPos, h.astray.trans h'.astray⟩

/-- Where neither gives up, both answer the same. -/
def Agree (a b : Attempt) : Prop :=
  ∀ σ τ, SameMemory σ τ → ∀ x σ' y τ', a σ = .ok (x, σ') → b τ = .ok (y, τ') →
    x = y ∧ SameMemory σ' τ'

section Agree

variable {a a' b b' : Attempt}

theorem Agree.pure (x : Bool) : Agree (fun σ => .ok (x, σ)) (fun σ => .ok (x, σ)) := by
  intro σ τ h _ _ _ _ h₁ h₂
  cases h₁
  cases h₂
  exact ⟨rfl, h⟩

theorem Agree.fail : Agree fail fail := Agree.pure false

theorem Agree.giveUp_left (e : GiveUp) (b : Attempt) : Agree (giveUp e) b := by
  intro σ τ _ _ _ _ _ h
  cases h

theorem Agree.giveUp_right (e : GiveUp) (a : Attempt) : Agree a (giveUp e) := by
  intro σ τ _ _ _ _ _ _ h
  cases h

theorem Agree.orElse (h : Agree a b) (h' : Agree a' b') : Agree (orElse a a') (orElse b b') := by
  intro σ τ hsame x σ' y τ' hx hy
  rw [Attempt.orElse] at hx hy
  cases ha : a σ with
  | error e => rw [ha] at hx; cases hx
  | ok r =>
    cases hb : b τ with
    | error e => rw [hb] at hy; cases hy
    | ok s =>
      obtain ⟨x₁, σ₁⟩ := r
      obtain ⟨y₁, τ₁⟩ := s
      obtain ⟨rfl, hsame₁⟩ := h σ τ hsame _ _ _ _ ha hb
      rw [ha] at hx
      rw [hb] at hy
      cases x₁ with
      | false => exact h' σ₁ τ₁ hsame₁ _ _ _ _ hx hy
      | true =>
        cases hx
        cases hy
        exact ⟨rfl, hsame₁⟩

theorem Agree.tick (h : Agree a b) : Agree (tick a) (tick b) := by
  intro σ τ hsame x σ' y τ' hx hy
  rw [Attempt.tick] at hx hy
  split at hx
  · cases hx
  · split at hy
    · cases hy
    · exact h { σ with steps := σ.steps + 1 } { τ with steps := τ.steps + 1 }
        ⟨hsame.captures, hsame.endPos, hsame.astray⟩ _ _ _ _ hx hy

theorem Agree.undoing (h : Agree a b) (write : (Nat → Int) → Nat → Int)
    (restore : (Nat → Int) → (Nat → Int) → Nat → Int) :
    Agree (fun σ => undoing write (restore σ.captures) a σ)
      (fun σ => undoing write (restore σ.captures) b σ) := by
  intro σ τ hsame x σ' y τ' hx hy
  simp only [Attempt.undoing] at hx hy
  have hsame' : SameMemory { σ with captures := write σ.captures }
      { τ with captures := write τ.captures } :=
    ⟨congrArg write hsame.captures, hsame.endPos, hsame.astray⟩
  cases ha : a { σ with captures := write σ.captures } with
  | error e => rw [ha] at hx; cases hx
  | ok r =>
    cases hb : b { τ with captures := write τ.captures } with
    | error e => rw [hb] at hy; cases hy
    | ok s =>
      obtain ⟨x₁, σ₁⟩ := r
      obtain ⟨y₁, τ₁⟩ := s
      obtain ⟨rfl, hsame₁⟩ := h _ _ hsame' _ _ _ _ ha hb
      rw [ha] at hx
      rw [hb] at hy
      cases x₁ with
      | false =>
        cases hx
        cases hy
        exact ⟨rfl, by rw [hsame.captures, hsame₁.captures], hsame₁.endPos, hsame₁.astray⟩
      | true =>
        cases hx
        cases hy
        exact ⟨rfl, hsame₁⟩

theorem Agree.byCaptures {f g : (Nat → Int) → Attempt}
    (h : ∀ captures, Agree (f captures) (g captures)) :
    Agree (fun σ => f σ.captures σ) (fun σ => g σ.captures σ) := by
  intro σ τ hsame x σ' y τ' hx hy
  refine h σ.captures σ τ hsame x σ' y τ' hx ?_
  rw [hsame.captures]
  exact hy

end Agree

namespace Matcher

variable {m : Matcher}

section Levels

/-- The nodes that the two levels below attempt agree. -/
def DescendAgree (self self' : Descend) : Prop :=
  ∀ node pos k backward, Agree (self node pos k backward) (self' node pos k backward)

variable {self self' : Descend} {rest rest' : Nat → Attempt}

theorem matchBackreference_agree (hrest : ∀ pos, Agree (rest pos) (rest' pos)) (index pos : Nat)
    (backward : Bool) :
    Agree (m.matchBackreference rest index pos backward)
      (m.matchBackreference rest' index pos backward) := by
  intro σ τ hsame x σ' y τ' hx hy
  rw [matchBackreference_eq] at hx hy
  have hback : m.backreferenceStep τ.captures index pos backward =
      m.backreferenceStep σ.captures index pos backward := by rw [hsame.captures]
  rw [hback] at hy
  cases hstep : m.backreferenceStep σ.captures index pos backward with
  | none =>
    rw [hstep] at hx hy
    exact Agree.fail σ τ hsame x σ' y τ' hx hy
  | some step =>
    rw [hstep] at hx hy
    exact hrest step.1 { σ with astray := σ.astray || step.2 }
      { τ with astray := τ.astray || step.2 }
      ⟨hsame.captures, hsame.endPos, congrArg (· || step.2) hsame.astray⟩ _ _ _ _ hx hy

theorem matchLookaround_agree {behind : Bool} {body : Node} {pos : Nat}
    (h : Agree (self body pos .done behind) (self' body pos .done behind))
    (hrest : Agree (rest pos) (rest' pos)) (negative : Bool) :
    Agree (matchLookaround self rest negative behind body pos)
      (matchLookaround self' rest' negative behind body pos) := by
  intro σ τ hsame x σ' y τ' hx hy
  simp only [matchLookaround] at hx hy
  cases hσ : self body pos .done behind σ with
  | error e => rw [hσ] at hx; cases hx
  | ok r =>
    cases hτ : self' body pos .done behind τ with
    | error e => rw [hτ] at hy; cases hy
    | ok s =>
      obtain ⟨inner, σ₁⟩ := r
      obtain ⟨inner', τ₁⟩ := s
      obtain ⟨rfl, hsame₁⟩ := h σ τ hsame _ _ _ _ hσ hτ
      rw [hσ] at hx
      rw [hτ] at hy
      have hback : SameMemory { σ₁ with endPos := σ.endPos, captures := σ.captures }
          { τ₁ with endPos := τ.endPos, captures := τ.captures } :=
        ⟨hsame.captures, hsame.endPos, hsame₁.astray⟩
      cases negative with
      | true =>
        cases inner with
        | true => exact Agree.fail _ _ hback x σ' y τ' hx hy
        | false => exact hrest _ _ hback x σ' y τ' hx hy
      | false =>
        cases inner with
        | false => exact Agree.fail _ _ hback x σ' y τ' hx hy
        | true =>
          have hkept : SameMemory { σ₁ with endPos := σ.endPos } { τ₁ with endPos := τ.endPos } :=
            ⟨hsame₁.captures, hsame.endPos, hsame₁.astray⟩
          have hundo := hrest.undoing id fun _ _ => σ.captures
          rw [← hsame.captures] at hy
          exact hundo _ _ hkept x σ' y τ' hx hy

theorem congruent_agree : Congruent Agree where
  fail := .fail
  done pos := by
    intro σ τ hsame _ _ _ _ hx hy
    cases hx
    cases hy
    exact ⟨rfl, hsame.captures, rfl, hsame.astray⟩
  orUndoing {_ _ _ _ write restore} _ h h' :=
    Agree.byCaptures fun saved => h.orElse (h'.undoing write fun _ => restore saved)
  undoing _ h := h.undoing _ _
  orElse := .orElse
  tick := .tick
  backreference hrest := matchBackreference_agree hrest
  lookaround h hrest negative := matchLookaround_agree h hrest negative

/-- **A node answers the same at every level**, where neither gives up. -/
theorem matchNode_agree (levels levels' : Nat) :
    DescendAgree (m.matchNode levels) (m.matchNode levels') := by
  induction levels generalizing levels' with
  | zero => exact fun _ _ _ _ => Agree.giveUp_left _ _
  | succ levels ih =>
    cases levels' with
    | zero => exact fun _ _ _ _ => Agree.giveUp_right _ _
    | succ levels' => exact congruent_agree.node (ih levels')

end Levels

section Calls

/-- An attempt that runs one of some continuations at a list of positions, in order, until it
succeeds. -/
inductive Calls (rests : (Nat → Attempt) → Prop) : List Nat → Attempt → Prop
  | fail : Calls rests [] fail
  | here {rest : Nat → Attempt} (pos : Nat) (h : rests rest) : Calls rests [pos] (rest pos)
  | orElse {list list' : List Nat} {a b : Attempt} (h : Calls rests list a)
      (h' : Calls rests list' b) : Calls rests (list ++ list') (orElse a b)
  | tick {list : List Nat} {a : Attempt} (h : Calls rests list a) : Calls rests list (tick a)
  | giveUp (list : List Nat) (e : GiveUp) : Calls rests list (giveUp e)

/-- The answer of such an attempt: at each position the continuation is run, at some level and with
some steps taken, until it succeeds. -/
inductive Runs (rests : (Nat → Attempt) → Prop) : List Nat → Memory → Bool × Memory → Prop
  | nil {σ τ : Memory} (h : SameMemory σ τ) : Runs rests [] σ (false, τ)
  | success {rest : Nat → Attempt} {pos : Nat} {list : List Nat} {σ τ τ' : Memory} (h : rests rest)
      (hsame : SameMemory σ τ) (heq : rest pos τ = .ok (true, τ')) :
      Runs rests (pos :: list) σ (true, τ')
  | failure {rest : Nat → Attempt} {pos : Nat} {list : List Nat} {σ τ τ' : Memory}
      {r : Bool × Memory} (h : rests rest) (hsame : SameMemory σ τ)
      (heq : rest pos τ = .ok (false, τ')) (hlater : Runs rests list τ' r) :
      Runs rests (pos :: list) σ r

variable {rests : (Nat → Attempt) → Prop} {list list' : List Nat} {σ τ : Memory}

variable {r : Bool × Memory}

theorem Runs.of_same (h : Runs rests list σ r) (hsame : SameMemory τ σ) : Runs rests list τ r := by
  cases h with
  | nil h => exact .nil (hsame.trans h)
  | success h hsame' heq => exact .success h (hsame.trans hsame') heq
  | failure h hsame' heq hlater => exact .failure h (hsame.trans hsame') heq hlater

theorem Runs.append_success (h : Runs rests list σ (true, τ)) :
    Runs rests (list ++ list') σ (true, τ) := by
  generalize hr : (true, τ) = r at h
  induction h with
  | nil => cases hr
  | success h hsame heq =>
    cases hr
    exact .success h hsame heq
  | failure h hsame heq _ ih => exact .failure h hsame heq (ih hr)

theorem Runs.append_failure (h : Runs rests list σ (false, τ)) (h' : Runs rests list' τ r) :
    Runs rests (list ++ list') σ r := by
  generalize hr : (false, τ) = s at h
  induction h with
  | nil hsame =>
    cases hr
    exact h'.of_same hsame
  | success => cases hr
  | failure h hsame heq _ ih => exact .failure h hsame heq (ih hr)

theorem Calls.runs {a : Attempt} (h : Calls rests list a) (ha : a σ = .ok r) :
    Runs rests list σ r := by
  induction h generalizing σ r with
  | fail =>
    cases ha
    exact .nil (SameMemory.refl σ)
  | here pos h =>
    obtain ⟨x, σ'⟩ := r
    cases x with
    | true => exact .success h (SameMemory.refl σ) ha
    | false => exact .failure h (SameMemory.refl σ) ha (.nil (SameMemory.refl σ'))
  | orElse h h' ih ih' =>
    rename_i a b
    rw [Attempt.orElse] at ha
    cases hfirst : a σ with
    | error e => rw [hfirst] at ha; cases ha
    | ok s =>
      obtain ⟨x, σ₁⟩ := s
      rw [hfirst] at ha
      cases x with
      | true =>
        cases ha
        exact (ih hfirst).append_success
      | false => exact (ih hfirst).append_failure (ih' ha)
  | tick h ih =>
    rw [Attempt.tick] at ha
    split at ha
    · cases ha
    · exact (ih ha).of_same ⟨rfl, rfl, rfl⟩
  | giveUp => cases ha

/-- **The positions decide the answer**, where the continuations agree. -/
theorem runs_functional (hagree : ∀ rest rest', rests rest → rests rest' →
      ∀ pos, Agree (rest pos) (rest' pos)) {s : Bool × Memory} (hsame : SameMemory σ τ)
    (h : Runs rests list σ r) (h' : Runs rests list τ s) : r.1 = s.1 ∧ SameMemory r.2 s.2 := by
  induction h generalizing τ s with
  | nil hσ =>
    cases h' with
    | nil hτ => exact ⟨rfl, hσ.symm.trans (hsame.trans hτ)⟩
  | success h hσ heq =>
    cases h' with
    | success h' hτ heq' =>
      exact hagree _ _ h h' _ _ _ (hσ.symm.trans (hsame.trans hτ)) _ _ _ _ heq heq'
    | failure h' hτ heq' _ =>
      have hverdict := hagree _ _ h h' _ _ _ (hσ.symm.trans (hsame.trans hτ)) _ _ _ _ heq heq'
      cases hverdict.1
  | failure h hσ heq _ ih =>
    cases h' with
    | success h' hτ heq' =>
      have hverdict := hagree _ _ h h' _ _ _ (hσ.symm.trans (hsame.trans hτ)) _ _ _ _ heq heq'
      cases hverdict.1
    | failure h' hτ heq' hlater' =>
      have hverdict := hagree _ _ h h' _ _ _ (hσ.symm.trans (hsame.trans hτ)) _ _ _ _ heq heq'
      exact ih hverdict.2 hlater'

end Calls

/-! ## Both repeats -/

section Repeats

variable {test : Nat → Bool} {backward : Bool} {i t min : Nat}

/-- The positions after so many repetitions, in the order of the quantifier. -/
def tries (m : Matcher) (greedy backward : Bool) (i min t : Nat) : List Nat :=
  (if greedy then (stops backward i min t).reverse else stops backward i min t).map m.position

section Orders

variable {rests : (Nat → Attempt) → Prop} {rest : Nat → Attempt}

/-- **A greedy quantifier gives one repetition back after the other.** -/
theorem giveBack_calls (hrest : rests rest) (hi : i ≤ m.text.length) {n : Nat}
    (hroom : m.Room backward i n) (hmin : min ≤ n) :
    Calls rests (m.tries true backward i min n)
      (m.giveBack rest min backward n (m.position (reach backward i n))) := by
  rw [tries, if_pos rfl]
  induction n, hmin using le_induction with
  | base =>
    rw [stops_self]
    have hone := Calls.here (m.position (reach backward i min)) hrest
    cases min with
    | zero => exact hone
    | succ min =>
      rw [giveBack, if_pos rfl]
      exact hone.orElse .fail
  | succ n hmin ih =>
    have hroom' : m.Room backward i n := by
      cases backward with
      | false => exact le_of_succ_le hroom
      | true => exact le_of_succ_le hroom
    rw [giveBack, if_neg (ne_of_gt (lt_succ_of_le hmin)), stops_concat hmin,
      reverse_append, shrink_position hroom (lt_succ_self n) hi]
    exact (Calls.here _ hrest).orElse (ih hroom')

/-- **A lazy quantifier takes one repetition more after the other.** -/
theorem takeMore_calls (hrest : rests rest) (hi : i ≤ m.text.length)
    (hroom : m.Room backward i t) {left k : Nat} (hk : k + left = t) :
    Calls rests (m.tries false backward i k t)
      (m.takeMore rest backward left (m.position (reach backward i k))) := by
  rw [tries]
  induction left generalizing k with
  | zero =>
    obtain rfl : k = t := hk
    rw [stops_self]
    exact Calls.here _ hrest
  | succ left ih =>
    have hlt : k < t := by omega
    rw [takeMore, stops_cons hlt.le, grow_position hroom hlt hi]
    exact (Calls.here _ hrest).orElse (ih (by omega))

end Orders

variable {q : Quantifier} {atom : Node} {max : Nat}

theorem tries_eq_nil (greedy : Bool) (h : t < min) : m.tries greedy backward i min t = [] := by
  rw [tries, stops_eq_nil h, reverse_nil, ite_self]
  rfl

theorem tries_self (greedy : Bool) :
    m.tries greedy backward i t t = [m.position (reach backward i t)] := by
  rw [tries, stops_self, reverse_singleton, ite_self]
  rfl

variable {rests : (Nat → Attempt) → Prop} {rest : Nat → Attempt}

/-- **The scan comes first, and then the continuation at each of its positions.** -/
theorem matchSimpleRepeat_calls
    (hrest : rests rest) (hi : i ≤ m.text.length) (hroom : m.Room backward i t)
    (hscan : m.scan atom q.max backward m.input.length 0 (m.position i) =
      (0 + t, m.position (reach backward i t))) :
    Calls rests (m.tries q.greedy backward i q.min t)
      (m.matchSimpleRepeat rest q atom (m.position i) backward) := by
  rw [matchSimpleRepeat, hscan]
  dsimp only
  rw [Nat.zero_add]
  by_cases hmin : t < q.min
  · rw [if_pos hmin, tries_eq_nil q.greedy hmin]
    exact .fail
  · have hle : q.min ≤ t := Nat.not_lt.mp hmin
    rw [if_neg hmin]
    cases q.greedy with
    | true => exact giveBack_calls hrest hi hroom hle
    | false =>
      rw [grow_iterate hroom hle hi]
      exact takeMore_calls hrest hi hroom (Nat.add_sub_cancel' hle)

theorem turn_eq (hcount : q.captureCount = 0) (self : Descend) (min max pos : Nat) (k : Cont)
    (backward : Bool) (saved : Nat → Int) :
    turn self q atom min max pos k backward saved =
      self atom pos (.repeats q atom min max pos backward k) backward := by
  have hin : ∀ slot, inRepeat q slot = false := by
    intro slot
    rw [inRepeat, Bool.and_eq_false_iff, decide_eq_false_iff_not, decide_eq_false_iff_not]
    omega
  have hclear : clearRepeatCaptures q = id := by
    funext captures slot
    rw [clearRepeatCaptures, hin]
    rfl
  have hrestore : restoreRepeatCaptures q saved = id := by
    funext captures slot
    rw [restoreRepeatCaptures, hin]
    rfl
  funext σ
  rw [turn, hclear, hrestore]
  simp only [undoing, id_eq]
  split
  next h => rw [h]
  next => rfl

theorem turnOrLeave_calls {self : Descend}
    (hrest : rests rest) (hcount : q.captureCount = 0) {pos : Nat} {k : Cont} {list : List Nat}
    (hself : Calls rests list (self atom pos (.repeats q atom min max pos backward k) backward))
    (saved : Nat → Int) :
    Calls rests (if min ≠ 0 then list else if q.greedy then list ++ [pos] else pos :: list)
      (turnOrLeave self rest q atom min max pos k backward saved) := by
  have hleave := Calls.here pos hrest
  rw [turnOrLeave, turn_eq hcount]
  split
  · exact hself
  · split
    · exact hself.orElse hleave
    · exact hleave.orElse hself

theorem matchRepeat_eq_turnOrLeave (hcount : q.captureCount = 0) (self : Descend)
    (rest : Nat → Attempt) (min : Nat) (hmax : max ≠ 0) (pos : Nat) (k : Cont) (backward : Bool)
    (saved : Nat → Int) :
    matchRepeat self rest q atom min max pos k backward =
      turnOrLeave self rest q atom min max pos k backward saved := by
  rw [matchRepeat_eq self rest q atom min hmax]
  funext σ
  rw [turnOrLeave, turnOrLeave, turn_eq hcount, turn_eq hcount]

/-- The continuations of a frame, at any level. -/
def AtLevel (m : Matcher) (k : Cont) (rest : Nat → Attempt) : Prop :=
  ∃ levels, rest = runCont (m.matchNode levels) k

theorem matchNodeInner_oneCharacter (hone : atom.oneCharacter = true) (self : Descend) (pos : Nat)
    (k : Cont) (backward : Bool) :
    m.matchNodeInner self atom pos k backward =
      m.matchOneCharacter (runCont self k) atom pos backward := by
  cases atom with
  | characterClass c =>
    have hplain : ¬((!c.strings.isEmpty || c.matchesEmpty) = true) := by
      simpa [Node.oneCharacter] using hone
    exact if_neg hplain
  | char ch => rfl
  | dot => rfl
  | _ => cases hone

theorem tries_step (greedy : Bool) {ch f : Nat}
    (hstep : Semantics.stepOver m.codes backward i = some (ch, f)) :
    m.tries greedy backward i min (t + 1) =
      if min ≠ 0 then m.tries greedy backward f (min - 1) t
      else if greedy then m.tries greedy backward f (min - 1) t ++ [m.position i]
      else m.position i :: m.tries greedy backward f (min - 1) t := by
  cases min with
  | zero =>
    rw [tries, stops_cons (zero_le _), ← stops_step hstep, reach_zero, tries]
    cases greedy with
    | false => rfl
    | true => simp
  | succ min =>
    rw [tries, ← stops_step hstep]
    rfl

/-- **Turn by turn, the continuation is run at the same positions.** -/
theorem matchRepeat_calls (hone : atom.oneCharacter = true) (hcount : q.captureCount = 0)
    (levels : Nat) (k : Cont) (hi : i ≤ m.text.length) (hmax : max ≤ kUnbounded)
    (hmin : max ≠ kUnbounded → min ≤ max)
    (hrun : Repeats m.codes (m.singleCharMatches atom) backward i t)
    (hstop : Stuck m.codes (m.singleCharMatches atom) backward (reach backward i t) ∨
      max ≠ kUnbounded ∧ t = max)
    (hle : max ≠ kUnbounded → t ≤ max) :
    Calls (m.AtLevel k) (m.tries q.greedy backward i min t)
      (matchRepeat (m.matchNode levels) (runCont (m.matchNode levels) k) q atom min max
        (m.position i) k backward) := by
  induction t generalizing i min max levels with
  | zero =>
    have hrest : m.AtLevel k (runCont (m.matchNode levels) k) := ⟨levels, rfl⟩
    by_cases hzero : max = 0
    · subst hzero
      obtain rfl : min = 0 := le_zero.mp (hmin (by decide))
      rw [tries_self, reach_zero]
      exact Calls.here _ hrest
    · have hstuck := hstop.resolve_right fun h => hzero h.2.symm
      rw [reach_zero] at hstuck
      -- the turn fails, or there is no level for it
      have hself : Calls (m.AtLevel k) [] (m.matchNode levels atom (m.position i)
          (.repeats q atom min max (m.position i) backward k) backward) := by
        cases levels with
        | zero => exact .giveUp ..
        | succ levels =>
          rw [matchNode, matchNodeInner_oneCharacter hone, matchOneCharacter, consume_position hi]
          cases hstep : Semantics.stepOver m.codes backward i with
          | none => exact .fail
          | some step =>
            rw [map_some]
            dsimp only
            rw [hstuck step.1 step.2 hstep]
            exact .fail
      rw [matchRepeat_eq_turnOrLeave hcount _ _ min hzero _ _ _ fun _ => kUnset]
      have hcalls := turnOrLeave_calls hrest hcount hself fun _ => kUnset
      cases min with
      | zero =>
        rw [nil_append, ite_self] at hcalls
        rwa [tries_self, reach_zero]
      | succ min =>
        rwa [tries_eq_nil _ (succ_pos min)]
  | succ t ih =>
    have hrest : m.AtLevel k (runCont (m.matchNode levels) k) := ⟨levels, rfl⟩
    obtain ⟨ch, f, hstep, htest, hrun⟩ := hrun
    have hzero : max ≠ 0 := by
      rintro rfl
      exact not_succ_le_zero t (hle (by decide))
    rw [← reach_step hstep] at hstop
    have hself : Calls (m.AtLevel k) (m.tries q.greedy backward f (min - 1) t)
        (m.matchNode levels atom (m.position i)
          (.repeats q atom min max (m.position i) backward k) backward) := by
      cases levels with
      | zero => exact .giveUp ..
      | succ levels =>
        have hmoved : ¬(min = 0 ∧ m.position f = m.position i) := fun h =>
          stepOver_ne hstep ((position_inj (stepOver_le hi hstep) hi).mp h.2)
        rw [matchNode, matchNodeInner_oneCharacter hone, matchOneCharacter, consume_position hi,
          hstep, map_some]
        dsimp only
        rw [htest, runCont, if_neg hmoved]
        refine .tick (ih levels (stepOver_le hi hstep) ?_ ?_ hrun ?_ ?_)
        · split
          · exact le_refl _
          · exact (sub_le max 1).trans hmax
        · split
          · exact absurd rfl
          next hbound => exact fun _ => Nat.sub_le_sub_right (hmin hbound) 1
        · refine hstop.imp_right fun h => ?_
          rw [if_neg h.1, ← h.2]
          refine ⟨?_, rfl⟩
          omega
        · split
          · exact absurd rfl
          next hbound => exact fun _ => le_sub_one_of_lt (hle hbound)
    rw [matchRepeat_eq_turnOrLeave hcount _ _ min hzero _ _ _ fun _ => kUnset, tries_step _ hstep]
    exact turnOrLeave_calls hrest hcount hself _

/-- **The fast repeat agrees with the general one**: from a position where a character starts, both
run the continuation at the same positions, in the same order, until it succeeds; and where neither
gives up they answer the same, with the same captures and the same end. -/
theorem matchSimpleRepeat_agrees (hq : q.Built atom) (hsimple : q.simpleAtom = true) {pos : Nat}
    (hpos : pos ≤ m.input.length) (hstart : insidePair m.input m.unicode pos = false)
    (levels : Nat) (k : Cont) (backward : Bool) :
    (∃ list, Calls (m.AtLevel k) list
        (m.matchSimpleRepeat (runCont (m.matchNode levels) k) q atom pos backward) ∧
      Calls (m.AtLevel k) list
        (matchRepeat (m.matchNode levels) (runCont (m.matchNode levels) k) q atom q.min q.max pos k
          backward)) ∧
    Agree (m.matchSimpleRepeat (runCont (m.matchNode levels) k) q atom pos backward)
      (matchRepeat (m.matchNode levels) (runCont (m.matchNode levels) k) q atom q.min q.max pos k
        backward) := by
  obtain ⟨i, hi, rfl⟩ := exists_offset hpos hstart
  obtain ⟨hcount, hone⟩ := hq.simple hsimple
  obtain ⟨t, hscan, hrun, hstop, hle⟩ := scan_start (fun _ => rfl) q.max backward hi
  have hsimple : Calls (m.AtLevel k) (m.tries q.greedy backward i q.min t)
      (m.matchSimpleRepeat (runCont (m.matchNode levels) k) q atom (m.position i) backward) :=
    matchSimpleRepeat_calls ⟨levels, rfl⟩ hi (room_of_repeats hi hrun) hscan
  have hgeneral : Calls (m.AtLevel k) (m.tries q.greedy backward i q.min t)
      (matchRepeat (m.matchNode levels) (runCont (m.matchNode levels) k) q atom q.min q.max
        (m.position i) k backward) :=
    matchRepeat_calls hone hcount levels k hi hq.max_le (fun _ => hq.min_le_max) hrun hstop hle
  refine ⟨⟨_, hsimple, hgeneral⟩, ?_⟩
  intro σ τ hsame x σ' y τ' hx hy
  refine runs_functional ?_ hsame (hsimple.runs hx) (hgeneral.runs hy)
  rintro _ _ ⟨levels₁, rfl⟩ ⟨levels₂, rfl⟩ pos
  exact congruent_agree.runCont (matchNode_agree levels₁ levels₂) k pos

/-- Case tables that fold nothing. -/
def plainTables : CaseTables where
  uppercase := id
  simpleCaseFold := id
  caseCandidates := fun _ _ => []
  foldedWords := fun _ => basicWords

/-- A matcher without flags but `u`. -/
def plain (unicode : Bool) (input : List UInt16) : Matcher where
  tables := plainTables
  flags := ⟨false, false, false, unicode, false⟩
  input := input

def starQuantifier : Quantifier where
  min := 0
  max := kUnbounded
  greedy := true
  firstCapture := 1
  captureCount := 0
  simpleAtom := true

theorem starQuantifier_built : starQuantifier.Built .dot where
  min_le_max := zero_le _
  max_le := le_refl _
  covers := by
    intro i
    simp only [Quantifier.Covers, starQuantifier, Node.groups, not_mem_nil, iff_false]
    omega
  simpleAtom := rfl

/-- Backward over a surrogate pair, from the end of the input. -/
theorem matchSimpleRepeat_agrees_pair :
    (∃ list, Calls ((plain true [0xD83D, 0xDE00]).AtLevel .done) list
        ((plain true [0xD83D, 0xDE00]).matchSimpleRepeat
          (runCont ((plain true [0xD83D, 0xDE00]).matchNode 5) .done) starQuantifier .dot 2 true) ∧
      Calls ((plain true [0xD83D, 0xDE00]).AtLevel .done) list
        (matchRepeat ((plain true [0xD83D, 0xDE00]).matchNode 5)
          (runCont ((plain true [0xD83D, 0xDE00]).matchNode 5) .done) starQuantifier .dot 0
          kUnbounded 2 .done true)) ∧
    Agree ((plain true [0xD83D, 0xDE00]).matchSimpleRepeat
        (runCont ((plain true [0xD83D, 0xDE00]).matchNode 5) .done) starQuantifier .dot 2 true)
      (matchRepeat ((plain true [0xD83D, 0xDE00]).matchNode 5)
        (runCont ((plain true [0xD83D, 0xDE00]).matchNode 5) .done) starQuantifier .dot 0
        kUnbounded 2 .done true) :=
  matchSimpleRepeat_agrees starQuantifier_built rfl (by decide) (by decide) 5 .done true

/-- At the last level the general repeat has no level for a turn, and gives up where the fast one
succeeds. -/
theorem fastRepeat_outlasts :
    ¬ ∀ (m : Matcher) (q : Quantifier) (atom : Node), q.Built atom → q.simpleAtom = true →
      ∀ pos ≤ m.input.length, insidePair m.input m.unicode pos = false →
      ∀ (levels : Nat) (k : Cont) (backward : Bool) (σ : Memory),
        (∃ σ', m.matchSimpleRepeat (runCont (m.matchNode levels) k) q atom pos backward σ =
          .ok (true, σ')) ↔
        ∃ σ', matchRepeat (m.matchNode levels) (runCont (m.matchNode levels) k) q atom q.min q.max
          pos k backward σ = .ok (true, σ') := by
  intro h
  have hiff := h (plain false [0x61]) starQuantifier .dot starQuantifier_built rfl 0 (by decide)
    (by decide) 0 .done false start
  obtain ⟨σ', hσ'⟩ := hiff.mp ⟨_, rfl⟩
  cases hσ'

end Repeats

end Matcher

end Bronze.Regex
