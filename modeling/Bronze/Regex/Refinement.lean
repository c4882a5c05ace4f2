import Bronze.Regex.FastRepeat

/-!
# The matcher refines the semantics

A continuation of the matcher stands for one of the semantics: `Stands` says so for each frame, with
the marks as positions of characters. By induction on the levels every attempt of the matcher has
the answer of the semantics, with the end and the captures read as positions, unless it gives up;
and an attempt that fails leaves the captures as they were.

The exception is a comparison of a backreference that runs backward: it starts so many units before
the position, which under the `u` flag may be inside a surrogate pair, and it may hold there. The
memory records it as `astray`.

## Main definitions

* `Matcher.Reads`: captures read as ranges of characters
-/

namespace Bronze.Regex

open Attempt Semantics List Answer.Below Answer Bool Option

open Semantics (Answer MatchState MatcherContinuation failed success compile compileAlternative
  compileDisjunction bound)

namespace Matcher

abbrev Captures := Nat → Option (Nat × Nat)

/-- The slots of a capture hold where its range starts and ends. -/
def ReadsRange (m : Matcher) (first last : Int) (range : Option (Nat × Nat)) : Prop :=
  match range with
  | none => first = kUnset ∧ last = kUnset
  | some (rs, re) => first = m.position rs ∧ last = m.position re ∧ rs ≤ re ∧ re ≤ m.text.length

/-- The slots hold the captures of a state. -/
def Reads (m : Matcher) (captures : Nat → Int) (caps : Captures) : Prop :=
  ∀ i, m.ReadsRange (captures (2 * i)) (captures (2 * i + 1)) (caps i)

/-- What the matcher answered is the answer of the semantics. -/
def Answers (m : Matcher) (found : Bool) (σ : Memory) : Option MatchState → Prop
  | none => found = false
  | some y => found = true ∧ y.endIndex ≤ m.text.length ∧ σ.endPos = m.position y.endIndex ∧
      m.Reads σ.captures y.captures

/-- An attempt does what the semantics says, for states that differ in their captures. -/
structure Simulates (m : Matcher) (a : Attempt) (s : Nat → Captures → Answer) : Prop where
  tame : Tame a
  /-- More fuel keeps every answer. -/
  grows : ∀ fuel fuel' caps, fuel ≤ fuel' → (s fuel caps).Below (s fuel' caps)
  /-- With enough fuel the answer is the one of the semantics. -/
  answers : ∀ σ caps found σ', m.Reads σ.captures caps → a σ = .ok (found, σ') →
    σ'.astray = false → ∃ fuel r, s fuel caps = some r ∧ m.Answers found σ' r

/-- A continuation does what one of the semantics says. -/
structure Continues (m : Matcher) (rest : Nat → Attempt) (c : Nat → MatcherContinuation) :
    Prop where
  tame : ∀ pos, Tame (rest pos)
  simulates : ∀ i ≤ m.text.length,
    m.Simulates (rest (m.position i)) fun fuel caps => c fuel ⟨i, caps⟩

variable {m : Matcher}

/-! ## Attempts -/

section Attempts

variable {a b : Attempt} {s s' : Nat → Captures → Answer}

theorem Answers.eq_none {σ : Memory} {r : Option MatchState} (h : m.Answers false σ r) :
    r = none := by
  cases r with
  | none => rfl
  | some y => cases h.1

theorem simulates_fail : m.Simulates fail fun _ _ => failed where
  tame := Tame.fail
  grows := fun _ _ _ _ => refl _
  answers := by
    intro σ caps found σ' _ h _
    cases h
    exact ⟨0, none, rfl, rfl⟩

theorem simulates_giveUp (e : GiveUp)
    (hgrows : ∀ fuel fuel' caps, fuel ≤ fuel' → (s fuel caps).Below (s fuel' caps)) :
    m.Simulates (giveUp e) s where
  tame := Tame.giveUp e
  grows := hgrows
  answers := nofun

theorem Simulates.orElse (h : m.Simulates a s) (h' : m.Simulates b s') :
    m.Simulates (orElse a b) fun fuel caps => (s fuel caps).orElse (s' fuel caps) where
  tame := h.tame.orElse h'.tame
  grows := fun fuel fuel' caps hle => (h.grows fuel fuel' caps hle).orElse
    (h'.grows fuel fuel' caps hle)
  answers := by
    intro σ caps found σ' hreads hσ hastray
    rw [Attempt.orElse] at hσ
    cases ha : a σ with
    | error e => rw [ha] at hσ; cases hσ
    | ok r =>
      obtain ⟨first, σ₁⟩ := r
      rw [ha] at hσ
      cases first with
      | true =>
        cases hσ
        obtain ⟨fuel, r, hr, hanswer⟩ := h.answers σ caps true _ hreads ha hastray
        cases r with
        | none => cases hanswer
        | some y => exact ⟨fuel, some y, by rw [hr]; rfl, hanswer⟩
      | false =>
        -- the second attempt begins with the captures of the first
        have hastray₁ := h'.tame.not_astray hσ hastray
        obtain ⟨fuel, r, hr, hanswer⟩ := h.answers σ caps false σ₁ hreads ha hastray₁
        have hreads₁ : m.Reads σ₁.captures caps := by rwa [h.tame.restores σ σ₁ ha]
        obtain ⟨fuel', r', hr', hanswer'⟩ := h'.answers σ₁ caps found σ' hreads₁ hσ hastray
        refine ⟨max fuel fuel', r', ?_, hanswer'⟩
        rw [h.grows fuel _ caps (Nat.le_max_left _ _) r hr, hanswer.eq_none]
        exact h'.grows fuel' _ caps (Nat.le_max_right ..) r' hr'

theorem orElse_assoc (a b d : Attempt) : orElse (orElse a b) d = orElse a (orElse b d) := by
  funext σ
  simp only [Attempt.orElse]
  rcases a σ with e | ⟨found, σ'⟩
  · rfl
  · cases found <;> rfl

variable (h : m.Simulates a s)

include h

theorem Simulates.tick : m.Simulates (tick a) s where
  tame := h.tame.tick
  grows := h.grows
  answers := by
    intro σ caps found σ' hreads hσ hastray
    rw [Attempt.tick] at hσ
    split at hσ
    · cases hσ
    · exact h.answers { σ with steps := σ.steps + 1 } caps found σ' hreads hσ hastray

theorem Simulates.undoing {write : (Nat → Int) → Nat → Int}
    {restore : (Nat → Int) → (Nat → Int) → Nat → Int} {w : Captures → Captures}
    (hback : ∀ captures, restore captures (write captures) = captures)
    (hwrite : ∀ captures caps, m.Reads captures caps → m.Reads (write captures) (w caps)) :
    m.Simulates (fun σ => undoing write (restore σ.captures) a σ) fun fuel caps =>
      s fuel (w caps) where
  tame := h.tame.undoing hback
  grows := fun fuel fuel' caps => h.grows fuel fuel' (w caps)
  answers := by
    intro σ caps found σ' hreads hσ hastray
    simp only [Attempt.undoing] at hσ
    have hreads' := hwrite σ.captures caps hreads
    cases ha : a { σ with captures := write σ.captures } with
    | error e => rw [ha] at hσ; cases hσ
    | ok r =>
      obtain ⟨first, σ₁⟩ := r
      rw [ha] at hσ
      cases first with
      | true =>
        cases hσ
        exact h.answers { σ with captures := write σ.captures } (w caps) true _ hreads' ha hastray
      | false =>
        cases hσ
        obtain ⟨fuel, r, hr, hanswer⟩ :=
          h.answers { σ with captures := write σ.captures } (w caps) false σ₁ hreads' ha hastray
        obtain rfl := hanswer.eq_none
        exact ⟨fuel, none, hr, rfl⟩

theorem Simulates.below
    (hgrows : ∀ fuel fuel' caps, fuel ≤ fuel' → (s' fuel caps).Below (s' fuel' caps))
    (hbelow : ∀ fuel caps, ∃ fuel', (s fuel caps).Below (s' fuel' caps)) : m.Simulates a s' where
  tame := h.tame
  grows := hgrows
  answers := by
    intro σ caps found σ' hreads hσ hastray
    obtain ⟨fuel, r, hr, hanswer⟩ := h.answers σ caps found σ' hreads hσ hastray
    obtain ⟨fuel', hbelow⟩ := hbelow fuel caps
    exact ⟨fuel', r, hbelow r hr, hanswer⟩

end Attempts

/-- The terms of a sequence that are left. -/
def remaining (terms : List Node) (index : Nat) (backward : Bool) : List Node :=
  if backward then terms.take (terms.length - index) else terms.drop index

/-- The turns that follow a turn from a position. -/
def turnsAfter (m : Matcher) (q : Quantifier) (atom : Node) (min max i : Nat) (backward : Bool)
    (c : Nat → MatcherContinuation) (fuel : Nat) : MatcherContinuation := fun y =>
  if min = 0 ∧ y.endIndex = i then failed
  else Semantics.repeatMatcher (compile m.codes m.flags fuel atom backward) atom.groups q.greedy
    fuel (min - 1) ((bound max).map (· - 1)) y (c fuel)

/-- The state with a capture between two positions. -/
def closeBetween (y : MatchState) (j xe : Nat) : MatchState :=
  ⟨y.endIndex, Function.update y.captures j (some (min xe y.endIndex, max xe y.endIndex))⟩

/-- A continuation of the matcher that was built for a tree of the parser stands for one of the
semantics. -/
inductive Stands (m : Matcher) : Cont → (Nat → MatcherContinuation) → Prop
  | done : Stands m .done fun _ => success
  | sequence {terms : List Node} {index : Nat} (backward : Bool) {next : Cont}
      {c : Nat → MatcherContinuation} (hterms : TermsBuilt terms) (hindex : index ≤ terms.length)
      (h : Stands m next c) :
      Stands m (.sequence terms index backward next) fun fuel y =>
        compileAlternative m.codes m.flags fuel (remaining terms index backward) backward y (c fuel)
  | repeats {q : Quantifier} {atom : Node} (min : Nat) {max i : Nat} (backward : Bool) {next : Cont}
      {c : Nat → MatcherContinuation} (hq : q.Built atom) (hatom : atom.Built)
      (hmax : max ≤ kUnbounded) (hzero : max ≠ 0) (hi : i ≤ m.text.length) (h : Stands m next c) :
      Stands m (.repeats q atom min max (m.position i) backward next)
        (turnsAfter m q atom min max i backward c)
  | capture (j : Nat) {i : Nat} {next : Cont} {c : Nat → MatcherContinuation}
      (hi : i ≤ m.text.length) (h : Stands m next c) :
      Stands m (.capture j (m.position i) next) fun fuel y => c fuel (closeBetween y j i)

section Growth

variable {c : Nat → MatcherContinuation} {k : Cont} {fuel fuel' : Nat}

/-- A continuation that more fuel only makes answer more. -/
def Grows (c : Nat → MatcherContinuation) : Prop :=
  ∀ fuel fuel' y, fuel ≤ fuel' → (c fuel y).Below (c fuel' y)

theorem compile_grows (hc : Grows c) (node : Node) (backward : Bool) (x : MatchState)
    (hle : fuel ≤ fuel') :
    (compile m.codes m.flags fuel node backward x (c fuel)).Below
      (compile m.codes m.flags fuel' node backward x (c fuel')) :=
  compile_improves hle node backward x _ _ fun y _ => hc fuel fuel' y hle

theorem compileAlternative_grows (hc : Grows c) (terms : List Node) (backward : Bool)
    (x : MatchState) (hle : fuel ≤ fuel') :
    (compileAlternative m.codes m.flags fuel terms backward x (c fuel)).Below
      (compileAlternative m.codes m.flags fuel' terms backward x (c fuel')) :=
  compileAlternative_improves hle terms backward x _ _ fun y _ => hc fuel fuel' y hle

theorem repeatMatcher_grows (hc : Grows c) (q : Quantifier) (atom : Node) (min : Nat)
    (max : Option Nat) (backward : Bool) (x : MatchState) {fuel fuel' n n' : Nat}
    (hle : fuel ≤ fuel') (hn : n ≤ n') :
    (repeatMatcher (compile m.codes m.flags fuel atom backward) atom.groups q.greedy n min
        max x (c fuel)).Below
      (repeatMatcher (compile m.codes m.flags fuel' atom backward) atom.groups q.greedy n'
        min max x (c fuel')) :=
  repeatMatcher_improves atom.groups q.greedy
    (compile_improves hle atom backward) hn min max x _ _
    fun y _ => hc fuel fuel' y hle

theorem turnsAfter_grows (hc : Grows c) (q : Quantifier) (atom : Node) (min max i : Nat)
    (backward : Bool) : Grows (turnsAfter m q atom min max i backward c) := by
  intro fuel fuel' y hle
  rw [turnsAfter, turnsAfter]
  split
  · exact refl _
  · exact repeatMatcher_grows hc q atom _ _ backward y hle hle

theorem Stands.grows (h : m.Stands k c) : Grows c := by
  induction h with
  | done => exact fun _ _ _ _ => refl _
  | sequence backward _ _ _ ih =>
    exact fun fuel fuel' y hle => compileAlternative_grows ih _ backward y hle
  | repeats min backward _ _ _ _ _ _ ih => exact turnsAfter_grows ih _ _ min _ _ backward
  | capture j _ _ ih => exact fun fuel fuel' y hle => ih fuel fuel' _ hle

end Growth

section Captures

variable {captures : Nat → Int} {caps : Captures}

theorem reads_clear {q : Quantifier} {atom : Node} (hq : q.Built atom) (h : m.Reads captures caps) :
    m.Reads (clearRepeatCaptures q captures) fun i => if i ∈ atom.groups then none else caps i := by
  intro i
  have hin : ∀ b < 2, inRepeat q (2 * i + b) = decide (q.Covers i) := by
    intro b hb
    rw [inRepeat, ← decide_and, decide_eq_decide, Quantifier.Covers]
    omega
  have hcovers := hq.covers i
  have h0 := hin 0 Nat.two_pos
  rw [Nat.add_zero] at h0
  rw [clearRepeatCaptures, clearRepeatCaptures, h0, hin 1 Nat.one_lt_two]
  show m.ReadsRange _ _ (if i ∈ atom.groups then none else caps i)
  by_cases hmem : i ∈ atom.groups
  · rw [if_pos hmem, decide_eq_true (hcovers.mpr hmem)]
    exact ⟨rfl, rfl⟩
  · rw [if_neg hmem, decide_eq_false (mt hcovers.mp hmem)]
    exact h i

theorem closeCapture_start (j mark pos : Nat) (captures : Nat → Int) :
    closeCapture j mark pos captures (2 * j) = ((if mark < pos then mark else pos : Nat) : Int) :=
  if_pos rfl

theorem closeCapture_end (j mark pos : Nat) (captures : Nat → Int) :
    closeCapture j mark pos captures (2 * j + 1) =
      ((if mark < pos then pos else mark : Nat) : Int) := by
  simp [closeCapture]

theorem reads_close {i j e : Nat} (hi : i ≤ m.text.length) (he : e ≤ m.text.length)
    (h : m.Reads captures caps) :
    m.Reads (closeCapture j (m.position i) (m.position e) captures)
      (Function.update caps j (some (min i e, max i e))) := by
  intro n
  by_cases hn : n = j
  · subst hn
    rw [Function.update_self, closeCapture_start, closeCapture_end]
    rcases Nat.lt_or_ge i e with hlt | hge
    · have hpos := (position_lt_iff he).mpr hlt
      rw [if_pos hpos, if_pos hpos]
      exact ⟨by rw [Nat.min_eq_left hlt.le], by rw [Nat.max_eq_right hlt.le],
        Nat.le_trans (Nat.min_le_left _ _) (Nat.le_max_left _ _), Nat.max_le.mpr ⟨hi, he⟩⟩
    · have hnot := mt (position_lt_iff he).mp (Nat.not_lt.mpr hge)
      rw [if_neg hnot, if_neg hnot]
      exact ⟨by rw [Nat.min_eq_right hge], by rw [Nat.max_eq_left hge],
        Nat.le_trans (Nat.min_le_left _ _) (Nat.le_max_left _ _), Nat.max_le.mpr ⟨hi, he⟩⟩
  · rw [Function.update_of_ne hn, closeCapture, closeCapture, if_neg (by omega), if_neg (by omega),
      if_neg (by omega), if_neg (by omega)]
    exact h n

end Captures

section Level

/-- The level below does what the semantics says. -/
structure Descends (m : Matcher) (descend : Descend) : Prop where
  tame : DescendTame descend
  simulates : ∀ node k c i backward, node.Built → m.Stands k c → i ≤ m.text.length →
    m.Simulates (descend node (m.position i) k backward) fun fuel caps =>
      compile m.codes m.flags fuel node backward ⟨i, caps⟩ (c fuel)

variable {self : Descend} {rest : Nat → Attempt} {c : Nat → MatcherContinuation} {k : Cont}
  {backward : Bool} {i : Nat}

theorem Continues.grows (h : m.Continues rest c) (hi : i ≤ m.text.length) {fuel fuel' : Nat}
    (caps : Captures) (hle : fuel ≤ fuel') : (c fuel ⟨i, caps⟩).Below (c fuel' ⟨i, caps⟩) :=
  (h.simulates i hi).grows fuel fuel' caps hle

variable (terms : List Node)

theorem compileAlternative_concat (term : Node) (fuel : Nat) (x : MatchState)
    (d : MatcherContinuation) :
    compileAlternative m.codes m.flags fuel (terms ++ [term]) true x d =
      compile m.codes m.flags fuel term true x fun y =>
        compileAlternative m.codes m.flags fuel terms true y d := by
  induction terms generalizing d with
  | nil => rw [nil_append]; rfl
  | cons first terms ih =>
    exact ih _

theorem remaining_length (backward : Bool) : remaining terms terms.length backward = [] := by
  cases backward <;> simp [remaining]

theorem remaining_zero (backward : Bool) : remaining terms 0 backward = terms := by
  cases backward <;> simp [remaining]

theorem matchSequence_simulates (hself : m.Descends self) (hk : m.Stands k c)
    (hrest : m.Continues rest c) {terms : List Node} (hterms : TermsBuilt terms) {index : Nat}
    (hindex : index ≤ terms.length) (hi : i ≤ m.text.length) :
    m.Simulates (matchSequence self rest terms index (m.position i) k backward) fun fuel caps =>
      compileAlternative m.codes m.flags fuel (remaining terms index backward) backward ⟨i, caps⟩
        (c fuel) := by
  rw [matchSequence]
  split
  next heq =>
    simp only [heq, remaining_length]
    exact hrest.simulates i hi
  next hne =>
    have hlt : index < terms.length := Nat.lt_of_le_of_ne hindex hne
    cases backward with
    | false =>
      have hterm := getElem?_eq_getElem hlt
      have hsplit : remaining terms index false =
          terms[index] :: remaining terms (index + 1) false :=
        drop_eq_getElem_cons hlt
      have hbuilt := termsBuilt_iff.mp hterms _ (getElem_mem hlt)
      rw [if_neg Bool.false_ne_true, hterm, hsplit]
      exact hself.simulates _ _ _ i false hbuilt (.sequence false hterms hlt hk) hi
    | true =>
      have hlt' : terms.length - 1 - index < terms.length := by omega
      have hterm := getElem?_eq_getElem hlt'
      have hsplit : remaining terms index true =
          remaining terms (index + 1) true ++ [terms[terms.length - 1 - index]] := by
        show terms.take (terms.length - index) = terms.take (terms.length - (index + 1)) ++ _
        rw [show terms.length - (index + 1) = terms.length - 1 - index by omega,
          ← take_succ_eq_append_getElem hlt']
        congr 1
        omega
      have hbuilt := termsBuilt_iff.mp hterms _ (getElem_mem hlt')
      rw [if_pos rfl, hterm, hsplit]
      simp only [compileAlternative_concat]
      exact hself.simulates _ _ _ i true hbuilt (.sequence true hterms hlt hk) hi

theorem matchAlternatives_simulates (hself : m.Descends self) (hk : m.Stands k c)
    (hrest : m.Continues rest c) {alternatives : List (List Node)}
    (hbuilt : AlternativesBuilt alternatives) (hi : i ≤ m.text.length) :
    m.Simulates (matchAlternatives self rest (m.position i) k backward alternatives)
      fun fuel caps => compileDisjunction m.codes m.flags fuel alternatives backward ⟨i, caps⟩
        (c fuel) := by
  induction alternatives with
  | nil =>
    exact simulates_fail
  | cons terms alternatives ih =>
    have hfirst : m.Simulates (matchSequence self rest terms 0 (m.position i) k backward) _ :=
      matchSequence_simulates hself hk hrest hbuilt.1 (Nat.zero_le _) hi
    simp only [remaining_zero] at hfirst
    exact hfirst.orElse (ih hbuilt.2)

variable {max : Nat}

theorem bound_pred (hmax : max ≤ kUnbounded) :
    (bound max).map (· - 1) = bound (if max = kUnbounded then kUnbounded else max - 1) := by
  by_cases h : max = kUnbounded
  · rw [h]
    rfl
  · have hne : ¬max - 1 = kUnbounded := by
      omega
    simp [bound, h, hne]

theorem bound_eq_zero : bound max = some 0 ↔ max = 0 := by
  rw [bound]
  split
  next h =>
    subst h
    exact ⟨nofun, nofun⟩
  next => exact ⟨some.inj, congrArg some⟩

section

variable (hself : m.Descends self)

include hself

variable (hk : m.Stands k c)

include hk

theorem matchRepeat_simulates (hrest : m.Continues rest c) {q : Quantifier} {atom : Node}
    (hq : q.Built atom) (hatom : atom.Built) (min : Nat) (hmax : max ≤ kUnbounded)
    (hi : i ≤ m.text.length) :
    m.Simulates (matchRepeat self rest q atom min max (m.position i) k backward) fun fuel caps =>
      repeatMatcher (compile m.codes m.flags fuel atom backward) atom.groups q.greedy fuel
        min (bound max) ⟨i, caps⟩ (c fuel) := by
  have hgrows : ∀ (fuel fuel' : Nat) (caps : Captures), fuel ≤ fuel' →
      (repeatMatcher (compile m.codes m.flags fuel atom backward) atom.groups q.greedy
        fuel min (bound max) ⟨i, caps⟩ (c fuel)).Below
      (repeatMatcher (compile m.codes m.flags fuel' atom backward) atom.groups q.greedy
        fuel' min (bound max) ⟨i, caps⟩ (c fuel')) :=
    fun fuel fuel' caps hle =>
      repeatMatcher_grows hk.grows q atom min (bound max) backward ⟨i, caps⟩ hle hle
  by_cases hzero : max = 0
  · -- the loop is over
    rw [matchRepeat, if_pos hzero]
    refine (hrest.simulates i hi).below hgrows fun fuel caps => ⟨fuel + 1, ?_⟩
    rw [repeatMatcher]
    dsimp only
    rw [if_pos (bound_eq_zero.mpr hzero)]
    exact hrest.grows hi caps (Nat.le_succ fuel)
  · rw [matchRepeat_eq self rest q atom min hzero]
    have hturn : m.Simulates
        (fun σ => turn self q atom min max (m.position i) k backward σ.captures σ) _ :=
      (hself.simulates atom _ _ i backward hatom
        (.repeats min backward hq hatom hmax hzero hi hk) hi).undoing
        (restore_clear q) fun _ _ => reads_clear hq
    -- what one turn with the fuel left comes to
    have hbelow : ∀ fuel caps, (compile m.codes m.flags fuel atom backward
          (MatchState.clear ⟨i, caps⟩ atom.groups)
          (turnsAfter m q atom min max i backward c fuel)).Below
        (compile m.codes m.flags (fuel + 1) atom backward (MatchState.clear ⟨i, caps⟩ atom.groups)
          fun y => if min = 0 ∧ y.endIndex = i then failed
            else repeatMatcher (compile m.codes m.flags (fuel + 1) atom backward)
              atom.groups q.greedy fuel (min - 1) ((bound max).map (· - 1)) y (c (fuel + 1))) := by
      intro fuel caps
      refine compile_improves (Nat.le_succ fuel) atom backward _ _ _ fun y _ => ?_
      rw [turnsAfter]
      split
      · exact refl _
      · exact repeatMatcher_grows hk.grows q atom _ _ backward y (Nat.le_succ fuel) le_rfl
    have hbound : bound max ≠ some 0 := mt bound_eq_zero.mp hzero
    have hrest' := hrest.simulates i hi
    by_cases hmin : min ≠ 0
    · simp only [turnOrLeave, if_pos hmin]
      refine hturn.below hgrows fun fuel caps => ⟨fuel + 1, ?_⟩
      rw [repeatMatcher]
      dsimp only
      rw [if_neg hbound, if_pos hmin]
      exact hbelow fuel caps
    · simp only [turnOrLeave, if_neg hmin]
      cases hgreedy : q.greedy with
      | true =>
        refine (hturn.orElse hrest').below (hgreedy ▸ hgrows) fun fuel caps => ⟨fuel + 1, ?_⟩
        rw [repeatMatcher]
        dsimp only
        rw [if_neg hbound, if_neg hmin]
        exact (hgreedy ▸ hbelow fuel caps).orElse (hrest.grows hi caps (Nat.le_succ fuel))
      | false =>
        simp only [false_eq_true, if_false]
        rw [hrest'.tame.orElse_byCaptures]
        refine (hrest'.orElse hturn).below (hgreedy ▸ hgrows) fun fuel caps => ⟨fuel + 1, ?_⟩
        rw [repeatMatcher]
        dsimp only
        rw [if_neg hbound, if_neg hmin]
        exact (hrest.grows hi caps (Nat.le_succ fuel)).orElse (hgreedy ▸ hbelow fuel caps)

/-- **A continuation does what the one it stands for does.** -/
theorem runCont_simulates (hi : i ≤ m.text.length) :
    m.Simulates (runCont self k (m.position i)) fun fuel caps => c fuel ⟨i, caps⟩ := by
  have htame := runCont_tame hself.tame
  induction hk generalizing i with
  | done =>
    refine Simulates.tick ⟨Tame.done _, fun _ _ _ _ => refl _, ?_⟩
    intro σ caps found σ' hreads h _
    cases h
    exact ⟨0, some ⟨i, caps⟩, rfl, rfl, hi, rfl, hreads⟩
  | sequence backward hterms hindex hk ih =>
    exact (matchSequence_simulates hself hk ⟨htame _, fun _ => ih⟩ hterms hindex hi).tick
  | repeats min backward hq hatom hmax hzero hmark hk ih =>
    rw [runCont]
    split
    next hempty =>
      have heq := (position_inj hi hmark).mp hempty.2
      simp only [turnsAfter, if_pos (And.intro hempty.1 heq)]
      exact simulates_fail.tick
    next hmoved =>
      have hne := fun h : min = 0 ∧ i = _ => hmoved ⟨h.1, congrArg m.position h.2⟩
      simp only [turnsAfter, if_neg hne, bound_pred hmax]
      refine (matchRepeat_simulates hself hk ⟨htame _, fun _ => ih⟩ hq hatom (min - 1) ?_ hi).tick
      split
      · exact Nat.le_refl _
      · exact (Nat.sub_le _ 1).trans hmax
  | capture j hmark hk ih =>
    exact ((ih hi).undoing (reopen_close j _ _) fun _ _ => reads_close hmark hi).tick

theorem runCont_continues : m.Continues (runCont self k) c :=
  ⟨runCont_tame hself.tame k, fun _ => runCont_simulates hself hk⟩

/-! ### Characters -/

end

theorem matchOneCharacter_simulates (hrest : m.Continues rest c) {node : Node} {A : Nat → Bool}
    {invert : Bool} (hset : ∀ ch, m.singleCharMatches node ch = (A ch != invert))
    (hi : i ≤ m.text.length) :
    m.Simulates (m.matchOneCharacter rest node (m.position i) backward) fun fuel caps =>
      characterSetMatcher m.codes A invert backward ⟨i, caps⟩ (c fuel) := by
  rw [matchOneCharacter, consume_position hi]
  simp only [characterSetMatcher]
  cases hstep : stepOver m.codes backward i with
  | none => exact simulates_fail
  | some step =>
    obtain ⟨ch, f⟩ := step
    rw [map_some]
    dsimp only
    rw [hset]
    by_cases hA : A ch = invert
    · have hout : ¬((A ch != invert) = true) := by simp [hA]
      simp only [if_pos hA, if_neg hout]
      exact simulates_fail
    · have hin : (A ch != invert) = true := by simp [hA]
      simp only [if_neg hA, if_pos hin]
      exact hrest.simulates f (stepOver_le hi hstep)

/-- The position behind the characters of a list, if the input has them. -/
def walk (input : List Nat) (backward : Bool) : List Nat → Nat → Option Nat
  | [], e => some e
  | code :: member, e =>
    match Semantics.stepOver input backward e with
    | none => none
    | some (ch, f) => if ch ≠ code then none else walk input backward member f

variable (input : List Nat)

theorem walk_concat (backward : Bool) (member : List Nat) (code e : Nat) :
    walk input backward (member ++ [code]) e =
      (walk input backward member e).bind (walk input backward [code]) := by
  induction member generalizing e with
  | nil => rfl
  | cons first member ih =>
    simp only [cons_append, walk]
    cases stepOver input backward e with
    | none => rfl
    | some step =>
      dsimp only
      split
      · rfl
      · exact ih step.2

theorem characterSetMatcher_one (backward : Bool) (code : Nat) (x : MatchState)
    (d : MatcherContinuation) :
    characterSetMatcher input (· == code) false backward x d =
      match walk input backward [code] x.endIndex with
      | none => failed
      | some f => d ⟨f, x.captures⟩ := by
  rw [characterSetMatcher, walk]
  cases stepOver input backward x.endIndex with
  | none => rfl
  | some step =>
    dsimp only
    by_cases h : step.1 = code
    · rw [if_neg (not_not.mpr h), if_neg (by simp [h])]
      rfl
    · simp [h]

/-- The matcher of a member walks over its characters, from the end of the direction. -/
theorem memberMatcher_eq (backward : Bool) (member : List Nat) (x : MatchState)
    (d : MatcherContinuation) :
    memberMatcher input backward member x d =
      match walk input backward (if backward then member.reverse else member) x.endIndex with
      | none => failed
      | some f => d ⟨f, x.captures⟩ := by
  cases backward with
  | false =>
    rw [if_neg Bool.false_ne_true]
    induction member generalizing x with
    | nil => rfl
    | cons code member ih =>
      rw [Semantics.memberMatcher, Semantics.matchSequence, if_neg Bool.false_ne_true,
        characterSetMatcher_one, walk, walk]
      cases stepOver input false x.endIndex with
      | none => rfl
      | some step =>
        dsimp only
        by_cases h : step.1 = code
        · rw [if_neg (not_not.mpr h), if_neg (not_not.mpr h)]
          exact ih ⟨step.2, x.captures⟩
        · simp [h]
  | true =>
    rw [if_pos rfl]
    induction member generalizing d with
    | nil => rfl
    | cons code member ih =>
      rw [Semantics.memberMatcher, Semantics.matchSequence, ih, reverse_cons, walk_concat]
      cases walk input true member.reverse x.endIndex with
      | none => rfl
      | some f => exact characterSetMatcher_one input true code ⟨f, x.captures⟩ d

theorem consumeMember_position (member : List Nat) (hi : i ≤ m.text.length) :
    m.consumeMember backward member (m.position i) =
      (walk m.codes backward member i).map m.position := by
  induction member generalizing i with
  | nil => rfl
  | cons code member ih =>
    rw [consumeMember, consume_position hi, walk]
    cases hstep : stepOver m.codes backward i with
    | none => rfl
    | some step =>
      rw [map_some]
      dsimp only
      split
      · rfl
      · exact ih (stepOver_le hi hstep)

theorem walk_le {member : List Nat} {f : Nat} (hi : i ≤ m.text.length)
    (h : walk m.codes backward member i = some f) : f ≤ m.text.length := by
  induction member generalizing i with
  | nil => exact (some.inj h) ▸ hi
  | cons code member ih =>
    rw [walk] at h
    cases hstep : stepOver m.codes backward i with
    | none => rw [hstep] at h; cases h
    | some step =>
      rw [hstep] at h
      dsimp only at h
      split at h
      · cases h
      · exact ih (stepOver_le hi hstep) h

theorem matchStrings_simulates (hrest : m.Continues rest c) {last : Attempt}
    {s : Nat → Captures → Answer} (hlast : m.Simulates last s) (strings : List (List Nat))
    (hi : i ≤ m.text.length) :
    m.Simulates (orElse (m.matchStrings rest (m.position i) backward strings) last)
      fun fuel caps => strings.foldr
        (fun member a => (memberMatcher m.codes backward member ⟨i, caps⟩
          (c fuel)).orElse a) (s fuel caps) := by
  induction strings with
  | nil => exact simulates_fail.orElse hlast
  | cons member strings ih =>
    rw [matchStrings, consumeMember_position _ hi]
    simp only [foldr_cons, memberMatcher_eq]
    cases hwalk : walk m.codes backward (if backward then member.reverse else member) i with
    | none =>
      simp only [memberMatcher_eq] at ih ⊢
      exact ih
    | some f =>
      simp only [map_some, memberMatcher_eq] at ih ⊢
      rw [orElse_assoc]
      exact (hrest.simulates f (walk_le hi hwalk)).orElse ih

theorem foldr_alternatives (f : List Nat → MatcherClosure)
    (base : MatcherClosure) (strings : List (List Nat)) (x : MatchState)
    (d : MatcherContinuation) :
    strings.foldr (fun member m => matchTwoAlternatives (f member) m) base x d =
      strings.foldr (fun member a => (f member x d).orElse a) (base x d) := by
  induction strings with
  | nil => rfl
  | cons member strings ih =>
    rw [foldr_cons, foldr_cons, ← ih]
    rfl

variable {cls : CharacterClass}

theorem matchShort_simulates (hcase : m.flags.ignoreCase = false) (hrest : m.Continues rest c)
    (hbuilt : cls.Built) (hpositive : cls.negated = false) (hi : i ≤ m.text.length) :
    m.Simulates
      (orElse
        (if cls.ranges.isEmpty then fail
          else m.matchOneCharacter rest (.characterClass cls) (m.position i) backward)
        (if cls.matchesEmpty then rest (m.position i) else fail))
      fun fuel caps =>
        (if cls.matchesEmpty then
          matchTwoAlternatives
            (characterSetMatcher m.codes (memberOf cls.ranges) false backward)
            emptyMatcher
        else characterSetMatcher m.codes (memberOf cls.ranges) false backward)
          ⟨i, caps⟩ (c fuel) := by
  have hset : m.Simulates
      (if cls.ranges.isEmpty then fail
        else m.matchOneCharacter rest (.characterClass cls) (m.position i) backward)
      fun fuel caps => characterSetMatcher m.codes (memberOf cls.ranges) false
        backward ⟨i, caps⟩ (c fuel) := by
    split
    next hempty =>
      -- no character is in no range
      have hnone : ∀ fuel caps, characterSetMatcher m.codes
          (memberOf cls.ranges) false backward ⟨i, caps⟩ (c fuel) = failed := by
        intro fuel caps
        rw [characterSetMatcher, isEmpty_iff.mp hempty]
        cases stepOver m.codes backward i with
        | none => rfl
        | some step => rfl
      simp only [hnone]
      exact simulates_fail
    next =>
      refine matchOneCharacter_simulates hrest (fun ch => ?_) hi
      rw [singleCharMatches, classMatches_eq hcase hbuilt.normalized, hpositive]
  cases hempty : cls.matchesEmpty with
  | true => exact hset.orElse (hrest.simulates i hi)
  | false =>
    have hone := hset.orElse simulates_fail
    simp only [orElse_failed] at hone
    exact hone

theorem class_simulates (hcase : m.flags.ignoreCase = false) (hrest : m.Continues rest c)
    (hbuilt : cls.Built) (hi : i ≤ m.text.length) :
    m.Simulates
      (if !cls.strings.isEmpty || cls.matchesEmpty then
        m.matchClassSet rest cls (m.position i) backward
      else m.matchOneCharacter rest (.characterClass cls) (m.position i) backward)
      fun fuel caps => classMatcher m.codes cls backward ⟨i, caps⟩ (c fuel) := by
  by_cases hset : (!cls.strings.isEmpty || cls.matchesEmpty) = true
  · have hplain : ¬((cls.strings.isEmpty && !cls.matchesEmpty) = true) := by
      revert hset
      cases cls.strings.isEmpty <;> cases cls.matchesEmpty <;> simp
    have hpositive : cls.negated = false := by
      refine hbuilt.positive ?_
      revert hset
      rw [or_eq_true, not_eq_true', isEmpty_eq_false_iff]
      exact id
    simp only [classMatcher, if_neg hplain, foldr_alternatives]
    rw [if_pos hset]
    exact matchStrings_simulates hrest
      (matchShort_simulates hcase hrest hbuilt hpositive hi) cls.strings hi
  · have hplain : (cls.strings.isEmpty && !cls.matchesEmpty) = true := by
      revert hset
      cases cls.strings.isEmpty <;> cases cls.matchesEmpty <;> simp
    simp only [classMatcher, if_pos hplain]
    rw [if_neg hset]
    exact matchOneCharacter_simulates hrest
      (classMatches_eq hcase hbuilt.normalized) hi

theorem matchLookaround_simulates (hself : m.Descends self) (hrest : m.Continues rest c)
    (negative behind : Bool) {body : Node} (hbody : body.Built) (hi : i ≤ m.text.length)
    (hgrows : Grows c) :
    m.Simulates (matchLookaround self rest negative behind body (m.position i)) fun fuel caps =>
      lookaroundMatcher negative (compile m.codes m.flags fuel body behind) ⟨i, caps⟩
        (c fuel) := by
  have hinner := hself.simulates body .done _ i behind hbody .done hi
  have hrest' := hrest.simulates i hi
  refine ⟨matchLookaround_tame (hself.tame ..) (hrest.tame _) negative, ?_, ?_⟩
  · intro fuel fuel' caps hle
    exact lookaroundMatcher_improves negative
      (compile_improves hle body behind) ⟨i, caps⟩ _ _
      fun y (_ : Ahead false i y.endIndex) => hgrows fuel fuel' y hle
  · intro σ caps found σ' hreads h hastray
    obtain ⟨inner, σ₁, hbody, hcases⟩ := matchLookaround_cases h
    have hastray₁ : σ₁.astray = false := by
      obtain ⟨-, -, rfl⟩ | ⟨-, -, hrun⟩ | ⟨-, -, τ, hrun, ⟨-, rfl⟩ | ⟨-, rfl⟩⟩ := hcases
      · exact hastray
      all_goals
        have hnot := hrest'.tame.not_astray hrun hastray
        exact hnot
    obtain ⟨fuel, r, hr, hanswer⟩ := hinner.answers σ caps inner σ₁ hreads hbody hastray₁
    -- the answer of the body with more fuel
    have hmore : ∀ fuel', fuel ≤ fuel' →
        compile m.codes m.flags fuel' body behind ⟨i, caps⟩ success = some r :=
      fun fuel' hle => hinner.grows fuel fuel' caps hle r hr
    obtain ⟨rfl, rfl, rfl⟩ | ⟨rfl, rfl, hrun⟩ | ⟨rfl, rfl, τ, hrun, hend⟩ := hcases
    · -- the body decides
      refine ⟨fuel, none, ?_, rfl⟩
      rw [lookaroundMatcher, hr]
      cases r with
      | none =>
        obtain rfl : inner = false := hanswer
        rfl
      | some y =>
        obtain rfl : inner = true := hanswer.1
        rfl
    · obtain ⟨fuel', r', hr', hanswer'⟩ := hrest'.answers
        { σ₁ with endPos := σ.endPos, captures := σ.captures } caps found σ' hreads hrun hastray
      obtain rfl := hanswer.eq_none
      refine ⟨max fuel fuel', r', ?_, hanswer'⟩
      rw [lookaroundMatcher, hmore _ (Nat.le_max_left _ _)]
      exact hrest'.grows fuel' _ caps (Nat.le_max_right ..) r' hr'
    · cases r with
      | none => cases hanswer
      | some y =>
        -- the captures of the body stay
        have hτ : τ.astray = false := by
          obtain ⟨-, rfl⟩ | ⟨-, rfl⟩ := hend
          · exact hastray
          · exact hastray
        obtain ⟨fuel', r', hr', hanswer'⟩ := hrest'.answers { σ₁ with endPos := σ.endPos }
          y.captures found τ hanswer.2.2.2 hrun hτ
        refine ⟨max fuel fuel', r', ?_, ?_⟩
        · rw [lookaroundMatcher, hmore _ (Nat.le_max_left _ _)]
          exact hrest'.grows fuel' _ y.captures (Nat.le_max_right ..) r' hr'
        · obtain ⟨rfl, rfl⟩ | ⟨rfl, rfl⟩ := hend
          · exact hanswer'
          · obtain rfl := hanswer'.eq_none
            rfl

/-! ### Backreferences -/

section Backreference

variable {captures : Nat → Int} {caps : Captures} {n rs len : Nat}

theorem backreferenceMatcher_forward (hn : caps n = some (rs, rs + len))
    (hrs : rs + len ≤ m.text.length) (hi : i ≤ m.text.length) (d : MatcherContinuation) :
    backreferenceMatcher m.codes n false ⟨i, caps⟩ d =
      if sameText m.codes rs i len then d ⟨i + len, caps⟩ else failed := by
  simp only [backreferenceMatcher, hn, Nat.add_sub_cancel_left, skip,
    false_eq_true, if_false]
  by_cases hroom : i + len > m.codes.length
  · -- then the texts are not the same
    have hdiff : ¬sameText m.codes rs i len = true := by
      intro hsame
      have hle := (position_of_same hrs hi (sameText_iff.mp hsame)).1
      rw [codes_length] at hroom
      omega
    simp [hroom, hdiff]
  · rw [if_neg hroom]
    simp [Nat.min_eq_left (Nat.le_add_right i len)]

theorem backreferenceMatcher_backward (hn : caps n = some (rs, rs + len))
    (d : MatcherContinuation) :
    backreferenceMatcher m.codes n true ⟨i, caps⟩ d =
      if len ≤ i ∧ sameText m.codes rs (i - len) len then d ⟨i - len, caps⟩
      else failed := by
  simp only [backreferenceMatcher, hn, Nat.add_sub_cancel_left, skip, if_true]
  by_cases hroom : i < len
  · rw [if_pos hroom, if_neg fun h => absurd h.1 (Nat.not_le.mpr hroom)]
  · rw [if_neg hroom]
    simp [Nat.not_lt.mp hroom]

theorem backreferenceStep_eq (hrange : m.ReadsRange (captures (2 * n)) (captures (2 * n + 1))
      (some (rs, rs + len))) (pos : Nat) :
    m.backreferenceStep captures n pos backward =
      let length := m.position (rs + len) - m.position rs
      if (if backward then pos < length else pos + length > m.input.length) then none
      else if m.comparesFrom (m.position rs) (if backward then pos - length else pos) length length
          0 then
        some (if backward then pos - length else pos + length,
          backward && insidePair m.input m.unicode (if backward then pos - length else pos))
      else none := by
  obtain ⟨hfirst, hlast, -, -⟩ := hrange
  have hset : ¬(captures (2 * n) = kUnset ∨ captures (2 * n + 1) = kUnset) := by
    rw [kUnset]
    omega
  have hlength : (captures (2 * n + 1) - captures (2 * n)).toNat =
      m.position (rs + len) - m.position rs := by
    omega
  have hstart : (captures (2 * n)).toNat = m.position rs := by
    simp [hfirst]
  rw [backreferenceStep]
  rw [if_neg hset, hlength, hstart]

variable (hcase : m.flags.ignoreCase = false)

include hcase

theorem comparesFrom_eq (hrs : rs + len ≤ m.text.length)
    {f : Nat} (hroom : m.position f + (m.position (rs + len) - m.position rs) ≤ m.input.length) :
    m.comparesFrom (m.position rs) (m.position f) (m.position (rs + len) - m.position rs)
        (m.position (rs + len) - m.position rs) 0 =
      sameText m.codes rs f len := by
  have hunits := len_le_units hrs
  rw [Bool.eq_iff_iff, sameText_iff]
  exact comparesFrom_position hcase rfl rfl hrs (by omega) hroom (by omega)

section

variable (hrange : m.ReadsRange (captures (2 * n)) (captures (2 * n + 1)) (some (rs, rs + len)))

include hrange

theorem backreferenceStep_forward (hi : i ≤ m.text.length) :
    m.backreferenceStep captures n (m.position i) false =
      if sameText m.codes rs i len then some (m.position (i + len), false) else none := by
  have hrs : rs + len ≤ m.text.length := hrange.2.2.2
  have hunits := len_le_units hrs
  have hsameunits : sameText m.codes rs i len = true →
      m.position i + (m.position (rs + len) - m.position rs) = m.position (i + len) ∧
        i + len ≤ m.text.length := by
    intro hsame
    have hpos := position_of_same hrs hi (sameText_iff.mp hsame)
    exact ⟨by omega, hpos.1⟩
  rw [backreferenceStep_eq hrange]
  simp only [Bool.false_eq_true, if_false, Bool.false_and]
  by_cases hroom : m.position i + (m.position (rs + len) - m.position rs) > m.input.length
  · have hdiff : ¬sameText m.codes rs i len = true := by
      intro hsame
      obtain ⟨heq, hle⟩ := hsameunits hsame
      have hend : m.position (i + len) ≤ m.input.length := offset_le m.unicode m.input hle
      omega
    simp [hroom, hdiff]
  · rw [if_neg hroom, comparesFrom_eq hcase hrs (Nat.not_lt.mp hroom)]
    by_cases hsame : sameText m.codes rs i len = true
    · simp [(hsameunits hsame).1]
    · simp [hsame]

/-- Backward the comparison may start inside a pair; where it does not, it is that of the
semantics. -/
theorem backreferenceStep_backward (hi : i ≤ m.text.length) :
    (∃ e, m.backreferenceStep captures n (m.position i) true = some (e, true) ∧
      ¬(len ≤ i ∧ sameText m.codes rs (i - len) len = true)) ∨
    m.backreferenceStep captures n (m.position i) true =
      if len ≤ i ∧ sameText m.codes rs (i - len) len then
        some (m.position (i - len), false)
      else none := by
  have hrs : rs + len ≤ m.text.length := hrange.2.2.2
  have hunits := len_le_units hrs
  -- the same text before the position has as many units
  have hsameunits : (len ≤ i ∧ sameText m.codes rs (i - len) len = true) →
      m.position (i - len) + (m.position (rs + len) - m.position rs) = m.position i := by
    rintro ⟨hle, hsame⟩
    have hpos := (position_of_same hrs ((Nat.sub_le i len).trans hi)
      (sameText_iff.mp hsame)).2
    rw [Nat.sub_add_cancel hle] at hpos
    omega
  have hend : m.position i ≤ m.input.length := offset_le m.unicode m.input hi
  rw [backreferenceStep_eq hrange]
  simp only [if_true, Bool.true_and]
  by_cases hroom : m.position i < m.position (rs + len) - m.position rs
  · have hdiff : ¬(len ≤ i ∧ sameText m.codes rs (i - len) len = true) := by
      intro hsame
      have := hsameunits hsame
      omega
    right
    simp [hroom, hdiff]
  · rw [if_neg hroom]
    cases hinside : insidePair m.input m.unicode
        (m.position i - (m.position (rs + len) - m.position rs)) with
    | true =>
      -- no character starts there
      have hdiff : ¬(len ≤ i ∧ sameText m.codes rs (i - len) len = true) := by
        intro hsame
        have heq := hsameunits hsame
        have hnot : insidePair m.input m.unicode (m.position (i - len)) = false :=
          not_insidePair_offset ((Nat.sub_le i len).trans hi)
        rw [show m.position i - (m.position (rs + len) - m.position rs) = m.position (i - len) by
          omega, hnot] at hinside
        cases hinside
      split
      · exact .inl ⟨_, rfl, hdiff⟩
      · exact .inr rfl
    | false =>
      right
      obtain ⟨f, hf, hfpos⟩ := exists_offset ((Nat.sub_le ..).trans hend) hinside
      replace hfpos : m.position f = m.position i - (m.position (rs + len) - m.position rs) := hfpos
      have hfroom : m.position f + (m.position (rs + len) - m.position rs) ≤ m.input.length := by
        omega
      rw [← hfpos, comparesFrom_eq hcase hrs hfroom]
      by_cases hsame : sameText m.codes rs f len = true
      · -- so many characters before the position is where it starts
        obtain ⟨hle, hpos⟩ := position_of_same hrs hf (sameText_iff.mp hsame)
        obtain rfl : f + len = i := (position_inj hle hi).mp (by omega)
        have hback : f + len - len = f := Nat.add_sub_cancel f len
        simp
      · have hdiff : ¬(len ≤ i ∧ sameText m.codes rs (i - len) len = true) := by
          intro h
          have heq := hsameunits h
          obtain rfl : i - len = f :=
            (position_inj ((Nat.sub_le i len).trans hi) hf).mp (by omega)
          exact hsame h.2
        simp [hsame, hdiff]

end

/-- **A step of a backreference is the step of the semantics**, unless it goes astray: then there is
none. -/
theorem backreferenceStep_cases
    (hreads : m.Reads captures caps) (n : Nat) (backward : Bool) (hi : i ≤ m.text.length) :
    ((∃ e, m.backreferenceStep captures n (m.position i) backward = some (e, true)) ∧
      ∀ d, backreferenceMatcher m.codes n backward ⟨i, caps⟩ d = failed) ∨
    (m.backreferenceStep captures n (m.position i) backward = none ∧
      ∀ d, backreferenceMatcher m.codes n backward ⟨i, caps⟩ d = failed) ∨
    ∃ f ≤ m.text.length,
      m.backreferenceStep captures n (m.position i) backward = some (m.position f, false) ∧
      ∀ d, backreferenceMatcher m.codes n backward ⟨i, caps⟩ d = d ⟨f, caps⟩ := by
  have hrange := hreads n
  cases hn : caps n with
  | none =>
    rw [hn] at hrange
    refine .inr (.inr ⟨i, hi, ?_, fun d => ?_⟩)
    · rw [backreferenceStep]
      exact if_pos (.inl hrange.1)
    · simp [backreferenceMatcher, hn]
  | some range =>
    obtain ⟨rs, re⟩ := range
    rw [hn] at hrange
    obtain ⟨len, rfl⟩ := Nat.exists_eq_add_of_le hrange.2.2.1
    have hrs : rs + len ≤ m.text.length := hrange.2.2.2
    cases backward with
    | false =>
      right
      by_cases hsame : sameText m.codes rs i len = true
      · have hle := (position_of_same hrs hi (sameText_iff.mp hsame)).1
        refine .inr ⟨i + len, hle, ?_, fun d => ?_⟩
        · rw [backreferenceStep_forward hcase hrange hi, if_pos hsame]
        · rw [backreferenceMatcher_forward hn hrs hi, if_pos hsame]
      · refine .inl ⟨?_, fun d => ?_⟩
        · rw [backreferenceStep_forward hcase hrange hi, if_neg hsame]
        · rw [backreferenceMatcher_forward hn hrs hi, if_neg hsame]
    | true =>
      rcases backreferenceStep_backward hcase hrange hi with ⟨e, hstep, hdiff⟩ | hstep
      · exact .inl ⟨⟨e, hstep⟩, fun d => by rw [backreferenceMatcher_backward hn, if_neg hdiff]⟩
      · right
        by_cases hsame : len ≤ i ∧ sameText m.codes rs (i - len) len = true
        · refine .inr ⟨i - len, (Nat.sub_le i len).trans hi, ?_, fun d => ?_⟩
          · rw [hstep, if_pos hsame]
          · rw [backreferenceMatcher_backward hn, if_pos hsame]
        · refine .inl ⟨?_, fun d => ?_⟩
          · rw [hstep, if_neg hsame]
          · rw [backreferenceMatcher_backward hn, if_neg hsame]

theorem matchBackreference_simulates
    (hrest : m.Continues rest c) (n : Nat) (hi : i ≤ m.text.length) (hgrows : Grows c) :
    m.Simulates (m.matchBackreference rest n (m.position i) backward) fun fuel caps =>
      backreferenceMatcher m.codes n backward ⟨i, caps⟩ (c fuel) where
  tame := matchBackreference_tame hrest.tame n _ backward
  grows := fun fuel fuel' caps hle =>
    backreferenceMatcher_improves m.codes n backward ⟨i, caps⟩ _ _
      fun y _ => hgrows fuel fuel' y hle
  answers := by
    intro σ caps found σ' hreads h hastray
    rw [matchBackreference_eq] at h
    obtain ⟨⟨e, hstep⟩, -⟩ | ⟨hstep, hspec⟩ | ⟨f, hf, hstep, hspec⟩ :=
      backreferenceStep_cases hcase hreads n backward hi
    · -- it went astray, and stays so
      rw [hstep] at h
      have hnot := (hrest.tame e).astray { σ with astray := σ.astray || true } found σ' h
        (or_true _)
      rw [hastray] at hnot
      cases hnot
    · rw [hstep] at h
      cases h
      exact ⟨0, none, hspec _, rfl⟩
    · rw [hstep] at h
      have hanswers := (hrest.simulates f hf).answers { σ with astray := σ.astray || false } caps
        found σ' hreads h hastray
      simp only [hspec]
      exact hanswers

end Backreference

/-! ### Nodes -/

theorem firstAnswer_append (d : Nat → Answer) (list list' : List Nat) :
    firstAnswer d (list ++ list') = (firstAnswer d list).orElse (firstAnswer d list') := by
  induction list with
  | nil => rfl
  | cons f list ih =>
    rw [cons_append, firstAnswer, foldr_cons, ← firstAnswer, ih, ← Answer.orElse_assoc]
    rfl

theorem firstAnswer_below {d d' : Nat → Answer} {list : List Nat}
    (h : ∀ f ∈ list, (d f).Below (d' f)) : (firstAnswer d list).Below (firstAnswer d' list) := by
  induction list with
  | nil => exact refl _
  | cons f list ih =>
    obtain ⟨hf, h⟩ := forall_mem_cons.mp h
    exact hf.orElse (ih h)

theorem Calls.simulates (hrest : m.Continues rest c) {positions : List Nat} {a : Attempt}
    (h : Calls (· = rest) positions a) {list : List Nat} (hlist : positions = list.map m.position)
    (hle : ∀ f ∈ list, f ≤ m.text.length) :
    m.Simulates a fun fuel caps => firstAnswer (fun f => c fuel ⟨f, caps⟩) list := by
  induction h generalizing list with
  | fail =>
    obtain rfl := map_eq_nil_iff.mp hlist.symm
    exact simulates_fail
  | here pos h =>
    subst h
    obtain ⟨f, rfl, rfl⟩ := map_eq_singleton_iff.mp hlist.symm
    simp only [firstAnswer, foldr_cons, foldr_nil, orElse_failed]
    exact hrest.simulates f (hle f mem_cons_self)
  | orElse h h' ih ih' =>
    obtain ⟨list₁, list₂, rfl, rfl, rfl⟩ := map_eq_append_iff.mp hlist.symm
    obtain ⟨hle₁, hle₂⟩ := forall_mem_append.mp hle
    simp only [firstAnswer_append]
    exact (ih rfl hle₁).orElse (ih' rfl hle₂)
  | tick h ih => exact (ih hlist hle).tick
  | giveUp positions e =>
    exact simulates_giveUp e fun fuel fuel' caps hfuel =>
      firstAnswer_below fun f hf => hrest.grows (hle f hf) caps hfuel

theorem stops_le {t min f : Nat} (hi : i ≤ m.text.length) (hroom : m.Room backward i t)
    (hf : f ∈ stops backward i min t) : f ≤ m.text.length := by
  obtain ⟨k, hk, rfl⟩ := mem_map.mp hf
  obtain ⟨hmin, hlt⟩ := mem_range'_1.mp hk
  exact hroom.reach_le hi (by omega)

theorem matchSimpleRepeat_simulates (hcase : m.flags.ignoreCase = false)
    (hrest : m.Continues rest c) (hgrows : Grows c) {q : Quantifier} {atom : Node}
    (hq : q.Built atom) (hatom : atom.Built) (hsimple : q.simpleAtom = true)
    (hi : i ≤ m.text.length) :
    m.Simulates (m.matchSimpleRepeat rest q atom (m.position i) backward) fun fuel caps =>
      repeatMatcher (compile m.codes m.flags fuel atom backward) atom.groups q.greedy fuel
        q.min (bound q.max) ⟨i, caps⟩ (c fuel) := by
  obtain ⟨hcount, hone⟩ := hq.simple hsimple
  obtain ⟨A, invert, hset, htest⟩ := compile_oneCharacter hcase hone hatom
  obtain ⟨t, hscan, hrun, hstop, hle⟩ := scan_start htest q.max backward hi
  have hroom := room_of_repeats hi hrun
  have hcalls : Calls (· = rest) (m.tries q.greedy backward i q.min t)
      (m.matchSimpleRepeat rest q atom (m.position i) backward) :=
    matchSimpleRepeat_calls rfl hi hroom hscan
  have hstops : ∀ f ∈ (if q.greedy then (stops backward i q.min t).reverse
      else stops backward i q.min t), f ≤ m.text.length := by
    intro f hf
    split at hf
    · exact stops_le hi hroom (mem_reverse.mp hf)
    · exact stops_le hi hroom hf
  refine (hcalls.simulates hrest rfl hstops).below ?_ ?_
  · exact fun fuel fuel' caps hfuel => repeatMatcher_grows hgrows q atom _ _ backward _ hfuel hfuel
  · intro fuel caps
    refine ⟨fuel + t + 1, ?_⟩
    have hmax : ∀ b, bound q.max = some b → q.max ≠ kUnbounded ∧ q.max = b := by
      intro b hb
      rw [bound] at hb
      split at hb
      · cases hb
      next h => exact ⟨h, some.inj hb⟩
    have hstop' : Stuck m.codes (fun ch => A ch != invert) backward
        (reach backward i t) ∨ bound q.max = some t := by
      refine hstop.imp_right fun h => ?_
      rw [bound, if_neg h.1, h.2]
    rw [hset, groups_of_oneCharacter hone, repeatMatcher_run (by omega) hrun hstop'
      (fun b hb => (hmax b hb).2 ▸ hle (hmax b hb).1)
      (fun b hb => (hmax b hb).2 ▸ hq.min_le_max)]
    exact firstAnswer_below fun f hf => hrest.grows (hstops f hf) caps (by omega)

theorem closeBetween_eq (j : Nat) {y : MatchState} (h : Ahead backward i y.endIndex) :
    closeBetween y j i = y.close j i backward := by
  cases backward with
  | false =>
    have hle : i ≤ y.endIndex := h
    rw [closeBetween, min_eq_left hle, max_eq_right hle]
    rfl
  | true =>
    have hle : y.endIndex ≤ i := h
    rw [closeBetween, min_eq_right hle, max_eq_left hle]
    rfl

theorem group_simulates (hself : m.Descends self) (hk : m.Stands k c) {captureIndex : Nat}
    {body : Node} (hbody : body.Built) (hi : i ≤ m.text.length) (hindex : captureIndex ≠ 0) :
    m.Simulates
      (self body (m.position i) (.capture captureIndex (m.position i) k) backward)
      fun fuel caps => compile m.codes m.flags fuel (.group captureIndex body) backward ⟨i, caps⟩
        (c fuel) := by
  have hinner := hself.simulates body _ _ i backward hbody (.capture captureIndex hi hk) hi
  have heq : ∀ fuel caps, compile m.codes m.flags fuel (.group captureIndex body) backward
      ⟨i, caps⟩ (c fuel) = compile m.codes m.flags fuel body backward ⟨i, caps⟩
        fun y => c fuel (closeBetween y captureIndex i) := by
    intro fuel caps
    rw [compile, if_neg hindex]
    have himproves : Improves backward (compile m.codes m.flags fuel body backward)
        (compile m.codes m.flags fuel body backward) :=
      compile_improves (Nat.le_refl fuel) body backward
    refine antisymm (himproves ⟨i, caps⟩ _ _ fun y hy => ?_)
      (himproves ⟨i, caps⟩ _ _ fun y hy => ?_)
    · rw [closeBetween_eq captureIndex hy]
      exact refl _
    · rw [closeBetween_eq captureIndex hy]
      exact refl _
  simp only [heq]
  exact hinner

variable (hcase : m.flags.ignoreCase = false)

include hcase

theorem matchNodeInner_descends (hself : m.Descends self) : m.Descends (m.matchNodeInner self) := by
  refine ⟨matchNodeInner_tame hself.tame, ?_⟩
  intro node k c i backward hnode hk hi
  have hrest := runCont_continues hself hk
  -- an atom that compiles to a set of characters
  have hcharacter : node.oneCharacter = true →
      m.Simulates (m.matchOneCharacter (runCont self k) node (m.position i) backward)
        fun fuel caps => compile m.codes m.flags fuel node backward ⟨i, caps⟩ (c fuel) := by
    intro hone
    obtain ⟨A, invert, hset, htest⟩ := compile_oneCharacter hcase hone hnode
    simp only [hset]
    exact matchOneCharacter_simulates hrest htest hi
  cases node with
  | alternation alternatives =>
    exact matchAlternatives_simulates hself hk hrest hnode hi
  | sequence terms =>
    have hseq : m.Simulates
        (matchSequence self (runCont self k) terms 0 (m.position i) k backward) _ :=
      matchSequence_simulates hself hk hrest hnode (Nat.zero_le _) hi
    simp only [remaining_zero] at hseq
    exact hseq
  | char ch => exact hcharacter rfl
  | characterClass cls =>
    exact class_simulates hcase hrest hnode hi
  | dot => exact hcharacter rfl
  | assertion kind =>
    simp only [compile]
    rw [matchNodeInner, assertionHolds_position hcase kind hi]
    by_cases htest : assertionTest m.codes m.flags kind i = true
    · simp only [htest]
      exact hrest.simulates i hi
    · simp only [not_eq_true] at htest
      simp only [htest]
      exact simulates_fail
  | lookahead negative body =>
    exact matchLookaround_simulates hself hrest negative false hnode hi hk.grows
  | lookbehind negative body =>
    exact matchLookaround_simulates hself hrest negative true hnode hi hk.grows
  | group captureIndex body =>
    rw [matchNodeInner]
    by_cases hindex : captureIndex = 0
    · simp only [compile, if_pos hindex]
      exact hself.simulates body k c i backward hnode hk hi
    · rw [if_neg hindex]
      exact group_simulates hself hk hnode hi hindex
  | backreference n =>
    exact matchBackreference_simulates hcase hrest n hi hk.grows
  | repeats q atom =>
    rw [matchNodeInner]
    by_cases hsimple : q.simpleAtom = true
    · rw [if_pos hsimple]
      exact matchSimpleRepeat_simulates hcase hrest hk.grows hnode.1 hnode.2 hsimple hi
    · rw [if_neg hsimple]
      exact matchRepeat_simulates hself hk hrest hnode.1 hnode.2 q.min hnode.1.max_le hi

/-- **Every level does what the semantics says.** -/
theorem matchNode_descends (levels : Nat) : m.Descends (m.matchNode levels) := by
  induction levels with
  | zero =>
    refine ⟨matchNode_tame 0, fun node k c i backward _ hk _ => ?_⟩
    exact simulates_giveUp _ fun fuel fuel' caps hle => compile_grows hk.grows node backward _ hle
  | succ levels ih => exact matchNodeInner_descends hcase ih

end Level

/-! ## A match -/

/-- The captures of a match that begins. -/
def noCaptures : Captures := fun _ => none

theorem reads_start : m.Reads start.captures noCaptures := fun _ => ⟨rfl, rfl⟩

/-- A comparison of the run went astray. -/
def strays (m : Matcher) (root : Node) (first : Nat) : Bool :=
  match m.matchNode kMaxDepth root first .done false start with
  | .error _ => false
  | .ok (_, σ) => σ.astray

/-- The status of a match from a character is the answer of the semantics: the captures are its
captures, and those of the whole match are the start and the end. -/
def StatusIs (m : Matcher) (i : Nat) : ExecStatus → Option MatchState → Prop
  | .error _, _ => True
  | .noMatch, r => r = none
  | .found captures, r => ∃ y, r = some y ∧ captures 0 = m.position i ∧
      captures 1 = m.position y.endIndex ∧
      ∀ j ≠ 0, m.ReadsRange (captures (2 * j)) (captures (2 * j + 1)) (y.captures j)

/-- What the matcher has to do with the semantics. -/
structure Refines (m : Matcher) : Prop where
  /-- Every failure leaves the captures, for any tree and at any position. -/
  undoes : ∀ levels k pos backward,
    (∀ node, Tame (m.matchNode levels node pos k backward)) ∧
    Tame (runCont (m.matchNode levels) k pos) ∧
    (∀ q atom min max, Tame (matchRepeat (m.matchNode levels) (runCont (m.matchNode levels) k) q
      atom min max pos k backward)) ∧
    ∀ negative behind body, Tame (matchLookaround (m.matchNode levels)
      (runCont (m.matchNode levels) k) negative behind body pos)
  /-- From a character, for a tree of the parser, every function answers what the semantics does. -/
  simulates : ∀ levels k c, m.Stands k c → ∀ i ≤ m.text.length, ∀ backward,
    (∀ node, node.Built → m.Simulates (m.matchNode levels node (m.position i) k backward)
      fun fuel caps => compile m.codes m.flags fuel node backward ⟨i, caps⟩ (c fuel)) ∧
    m.Simulates (runCont (m.matchNode levels) k (m.position i))
      (fun fuel caps => c fuel ⟨i, caps⟩) ∧
    (∀ q atom min max, q.Built atom → atom.Built → max ≤ kUnbounded →
      m.Simulates (matchRepeat (m.matchNode levels) (runCont (m.matchNode levels) k) q atom min max
          (m.position i) k backward)
        fun fuel caps => Semantics.repeatMatcher (compile m.codes m.flags fuel atom backward)
          atom.groups q.greedy fuel min (bound max) ⟨i, caps⟩ (c fuel)) ∧
    ∀ negative behind body, body.Built →
      m.Simulates (matchLookaround (m.matchNode levels) (runCont (m.matchNode levels) k) negative
          behind body (m.position i))
        fun fuel caps => Semantics.lookaroundMatcher negative
          (compile m.codes m.flags fuel body behind) ⟨i, caps⟩ (c fuel)
  /-- A run without a comparison that went astray has the outcome of the semantics. -/
  run : ∀ root : Node, root.Built → ∀ i ≤ m.text.length, m.strays root (m.position i) = false →
    (∃ e, m.run root (m.position i) = .error e) ∨
    ∃ r, Semantics.ComesTo m.codes m.flags root false ⟨i, noCaptures⟩ r ∧
      m.StatusIs i (m.run root (m.position i)) r
  /-- A comparison holds where that of the semantics does, if and only if it does not go astray. -/
  compares : ∀ captures caps, m.Reads captures caps → ∀ n, ∀ i ≤ m.text.length, ∀ backward,
    ((m.backreferenceStep captures n (m.position i) backward).isSome = true ↔
        ∃ y, Semantics.backreferenceMatcher m.codes n backward ⟨i, caps⟩ success = success y) ↔
      ¬∃ e, m.backreferenceStep captures n (m.position i) backward = some (e, true)

section Match

theorem run_status (hcase : m.flags.ignoreCase = false) {root : Node} (hroot : root.Built) {i : Nat}
    (hi : i ≤ m.text.length) (hstrays : m.strays root (m.position i) = false) :
    (∃ e, m.run root (m.position i) = .error e) ∨
    ∃ r, ComesTo m.codes m.flags root false ⟨i, noCaptures⟩ r ∧
      m.StatusIs i (m.run root (m.position i)) r := by
  have hsimulates :=
    (matchNode_descends hcase kMaxDepth).simulates root .done _ i false hroot .done hi
  rw [strays] at hstrays
  rw [run]
  cases hrun : m.matchNode kMaxDepth root (m.position i) .done false start with
  | error e => exact .inl ⟨e, rfl⟩
  | ok result =>
    obtain ⟨found, σ⟩ := result
    rw [hrun] at hstrays
    obtain ⟨fuel, r, hr, hanswer⟩ :=
      hsimulates.answers start noCaptures found σ reads_start hrun hstrays
    refine .inr ⟨r, ⟨fuel, hr⟩, ?_⟩
    cases found with
    | false => exact hanswer.eq_none
    | true =>
      cases r with
      | none => cases hanswer
      | some y =>
        obtain ⟨-, -, hend, hreads⟩ := hanswer
        refine ⟨y, rfl, rfl, congrArg Int.ofNat hend, fun j hj => ?_⟩
        have hslot : wholeMatch (m.position i) σ.endPos σ.captures (2 * j) =
            σ.captures (2 * j) := by
          rw [wholeMatch, if_neg (by omega), if_neg (by omega)]
        have hslot' : wholeMatch (m.position i) σ.endPos σ.captures (2 * j + 1) =
            σ.captures (2 * j + 1) := by
          rw [wholeMatch, if_neg (by omega), if_neg (by omega)]
        rw [hslot, hslot']
        exact hreads j

theorem compares_iff (hcase : m.flags.ignoreCase = false) {captures : Nat → Int} {caps : Captures}
    (hreads : m.Reads captures caps) (n : Nat) {i : Nat} (hi : i ≤ m.text.length)
    (backward : Bool) :
    ((m.backreferenceStep captures n (m.position i) backward).isSome = true ↔
        ∃ y, backreferenceMatcher m.codes n backward ⟨i, caps⟩ success = success y) ↔
      ¬∃ e, m.backreferenceStep captures n (m.position i) backward = some (e, true) := by
  obtain ⟨hstray, hspec⟩ | ⟨hstep, hspec⟩ | ⟨f, -, hstep, hspec⟩ :=
    backreferenceStep_cases hcase hreads n backward hi
  · obtain ⟨e, hstep⟩ := hstray
    have hnone : ¬∃ y, failed = success y := by
      rintro ⟨y, hy⟩
      cases hy
    rw [hstep, hspec]
    exact ⟨fun hiff => absurd (hiff.mp rfl) hnone, fun hstay => absurd ⟨e, rfl⟩ hstay⟩
  · rw [hstep, hspec]
    refine ⟨fun _ => ?_, fun _ => ⟨nofun, nofun⟩⟩
    rintro ⟨e, he⟩
    cases he
  · rw [hstep, hspec]
    refine ⟨fun _ => ?_, fun _ => ⟨fun _ => ⟨_, rfl⟩, fun _ => rfl⟩⟩
    rintro ⟨e, he⟩
    cases he

/-- **The matcher refines the semantics**, in every run in which no comparison goes astray. -/
theorem refines_unless_astray (hcase : m.flags.ignoreCase = false) : m.Refines where
  undoes := by
    intro levels k pos backward
    have hself : DescendTame (m.matchNode levels) := matchNode_tame levels
    have hrest := runCont_tame hself k
    exact ⟨fun node => hself node pos k backward, hrest pos,
      fun q atom min max => matchRepeat_tame hself hrest q atom min max pos k backward,
      fun negative behind body => matchLookaround_tame (hself ..) (hrest _) negative⟩
  simulates := by
    intro levels k c hk i hi backward
    have hself := matchNode_descends hcase levels
    have hrest := runCont_continues hself hk
    exact ⟨fun node hnode => hself.simulates node k c i backward hnode hk hi, hrest.simulates i hi,
      fun q atom min max hq hatom hmax =>
        matchRepeat_simulates hself hk hrest hq hatom min hmax hi,
      fun negative behind body hbody =>
        matchLookaround_simulates hself hrest negative behind hbody hi hk.grows⟩
  run := fun _ hroot _ hi hstrays => run_status hcase hroot hi hstrays
  compares := fun _ _ hreads n _ hi backward => compares_iff hcase hreads n hi backward

def repeatedPattern : Node := .alternation [[.group 1 (.char 0x61), .backreference 1]]

theorem repeatedPattern_built : repeatedPattern.Built := by
  simp [repeatedPattern, Node.Built, AlternativesBuilt, TermsBuilt]

/-- On `aa` the outcome is that of the semantics. -/
theorem refines_unless_astray_repeated :
    (∃ e, (plain true [0x61, 0x61]).run repeatedPattern ((plain true [0x61, 0x61]).position 0) =
      .error e) ∨
    ∃ r, ComesTo (plain true [0x61, 0x61]).codes (plain true [0x61, 0x61]).flags
        repeatedPattern false ⟨0, noCaptures⟩ r ∧
      (plain true [0x61, 0x61]).StatusIs 0 ((plain true [0x61, 0x61]).run repeatedPattern
        ((plain true [0x61, 0x61]).position 0)) r :=
  (refines_unless_astray (m := plain true [0x61, 0x61]) rfl).run _ repeatedPattern_built 0
    (Nat.zero_le _) (by decide +kernel)

def astrayPattern : Node :=
  .alternation [[.lookbehind false (.alternation [[.backreference 1, .group 1 .dot]]),
    .assertion .finish]]

theorem astrayPattern_built : astrayPattern.Built := by
  simp [astrayPattern, Node.Built, AlternativesBuilt, TermsBuilt]

/-- A surrogate pair and another trail surrogate. -/
def astrayInput : List UInt16 := [0xD83D, 0xDE00, 0xDE00]

/-- Whether a match was found. -/
def ExecStatus.isFound : ExecStatus → Bool
  | .found _ => true
  | _ => false

theorem ExecStatus.isFound_iff {status : ExecStatus} :
    status.isFound = true ↔ ∃ captures, status = .found captures := by
  cases status with
  | found captures => exact ⟨fun _ => ⟨captures, rfl⟩, fun _ => rfl⟩
  | noMatch => exact ⟨nofun, nofun⟩
  | error e => exact ⟨nofun, nofun⟩

/-- At the end of the input the comparison starts inside the pair and holds there: the matcher finds
a match, and the semantics has none. -/
theorem astray_match :
    ¬ ∀ (m : Matcher), m.flags.ignoreCase = false → ∀ root, root.Built →
      ∀ i ≤ m.text.length, (∀ e, m.run root (m.position i) ≠ .error e) →
        ((∃ captures, m.run root (m.position i) = .found captures) ↔
          ∃ y, ComesTo m.codes m.flags root false ⟨i, noCaptures⟩ (some y)) := by
  intro h
  have hfound : ((plain true astrayInput).run astrayPattern
      ((plain true astrayInput).position 2)).isFound = true := by decide +kernel
  have hnone : (compile (plain true astrayInput).codes (plain true astrayInput).flags 0
      astrayPattern false ⟨2, noCaptures⟩ success).map isNone = some true := by
    decide +kernel
  obtain ⟨r, hr, hisNone⟩ := map_eq_some_iff.mp hnone
  obtain rfl := isNone_iff_eq_none.mp hisNone
  obtain ⟨captures, hrun⟩ := ExecStatus.isFound_iff.mp hfound
  have hiff := h (plain true astrayInput) rfl astrayPattern astrayPattern_built 2
    (by decide +kernel) (fun e he => by rw [hrun] at he; cases he)
  obtain ⟨y, hy⟩ := hiff.mp ⟨captures, hrun⟩
  cases comesTo_functional hy ⟨0, hr⟩

end Match

end Matcher

end Bronze.Regex
