import Bronze.Regex.Backreference

/-!
# Positions stay inside the input

The matcher of `Bronze.Regex.Matcher` reads a unit at any index. Here it is again with a test before
every decode, and what follows a test that fails is a parameter: if the two are equal whatever it
is, no decode is out of bounds. The ranges of the captures are inside the input, and a match that
starts between characters ends behind its start.

The one step that crosses the position it came from is the last repetition that a greedy quantifier
gives back, where the first one began inside a surrogate pair.
-/

namespace Bronze.Regex

open Attempt

namespace Matcher

/-! ## The matcher with tests -/

section Checked

variable (m : Matcher) (crash : Attempt)

/-- A position of the input or its end. -/
def Inside (pos : Nat) : Prop := pos ≤ m.input.length

instance (pos : Nat) : Decidable (m.Inside pos) := by
  unfold Inside
  infer_instance

def checkedRest (rest : Nat → Attempt) (pos : Nat) : Attempt :=
  if m.Inside pos then rest pos else crash

def checkedConsume (pos : Nat) (backward : Bool) : Option (Option (Nat × Nat)) :=
  if m.Inside pos then some (m.consume pos backward) else none

def checkedOneCharacter (rest : Nat → Attempt) (node : Node) (pos : Nat) (backward : Bool) :
    Attempt :=
  match m.checkedConsume pos backward with
  | none => crash
  | some none => fail
  | some (some (code, at')) => if m.singleCharMatches node code then rest at' else fail

def checkedMember (backward : Bool) : List Nat → Nat → Option (Option Nat)
  | [], at' => some (some at')
  | code :: member, at' =>
    match m.checkedConsume at' backward with
    | none => none
    | some none => some none
    | some (some (found, next)) =>
      if found ≠ code then some none else checkedMember backward member next

def checkedStrings (rest : Nat → Attempt) (pos : Nat) (backward : Bool) : List (List Nat) → Attempt
  | [] => fail
  | member :: strings =>
    match m.checkedMember backward (if backward then member.reverse else member) pos with
    | none => crash
    | some none => checkedStrings rest pos backward strings
    | some (some at') => orElse (rest at') (checkedStrings rest pos backward strings)

def checkedClassSet (rest : Nat → Attempt) (c : CharacterClass) (pos : Nat) (backward : Bool) :
    Attempt :=
  orElse (m.checkedStrings crash rest pos backward c.strings)
    (orElse
      (if c.ranges.isEmpty then fail
        else m.checkedOneCharacter crash rest (.characterClass c) pos backward)
      (if c.matchesEmpty then rest pos else fail))

def checkedScan (atom : Node) (max : Nat) (backward : Bool) :
    (fuel count pos : Nat) → Option (Nat × Nat)
  | 0, count, pos => some (count, pos)
  | fuel + 1, count, pos =>
    if max = kUnbounded ∨ count < max then
      match m.checkedConsume pos backward with
      | none => none
      | some none => some (count, pos)
      | some (some (code, next)) =>
        if m.singleCharMatches atom code then checkedScan atom max backward fuel (count + 1) next
        else some (count, pos)
    else some (count, pos)

/-- A character follows the position. -/
def hasNext (pos : Nat) : Bool := pos < m.input.length

/-- A character ends at the position. -/
def hasPrevious (pos : Nat) : Bool := 0 < pos && pos ≤ m.input.length

def checkedShrink (backward : Bool) (cur : Nat) : Option Nat :=
  if if backward then m.hasNext cur else m.hasPrevious cur then some (m.shrink backward cur)
  else none

def checkedGrow (backward : Bool) (cur : Nat) : Option Nat :=
  if if backward then m.hasPrevious cur else m.hasNext cur then some (m.grow backward cur)
  else none

def checkedGiveBack (rest : Nat → Attempt) (min : Nat) (backward : Bool) :
    (n cur : Nat) → Attempt
  | 0, cur => rest cur
  | n + 1, cur =>
    orElse (rest cur)
      (if n + 1 = min then fail
        else
          match m.checkedShrink backward cur with
          | none => crash
          | some next => checkedGiveBack rest min backward n next)

def checkedTakeMore (rest : Nat → Attempt) (backward : Bool) : (left cur : Nat) → Attempt
  | 0, cur => rest cur
  | left + 1, cur =>
    orElse (rest cur)
      (match m.checkedGrow backward cur with
        | none => crash
        | some next => checkedTakeMore rest backward left next)

/-- The first repetitions of a lazy quantifier. -/
def checkedGrowBy (backward : Bool) : (n cur : Nat) → Option Nat
  | 0, cur => some cur
  | n + 1, cur => (m.checkedGrow backward cur).bind (checkedGrowBy backward n)

def checkedSimpleRepeat (rest : Nat → Attempt) (q : Quantifier) (atom : Node) (pos : Nat)
    (backward : Bool) : Attempt :=
  match m.checkedScan atom q.max backward m.input.length 0 pos with
  | none => crash
  | some (count, last) =>
    if count < q.min then fail
    else if q.greedy then m.checkedGiveBack crash rest q.min backward count last
    else
      match m.checkedGrowBy backward q.min pos with
      | none => crash
      | some first => m.checkedTakeMore crash rest backward (count - q.min) first

def checkedCompares (start first length : Nat) : (fuel i : Nat) → Option Bool
  | 0, _ => some true
  | fuel + 1, i =>
    if i < length then
      if m.hasNext (start + i) && m.hasNext (first + i) then
        let a := codePointAt m.input (start + i) m.unicode
        let b := codePointAt m.input (first + i) m.unicode
        if a.code ≠ b.code ∧ (a.width ≠ b.width ∨ m.flags.ignoreCase = false ∨
            m.canonical a.code ≠ m.canonical b.code ∧
              m.tables.simpleCaseFold a.code ≠ m.tables.simpleCaseFold b.code) then
          some false
        else checkedCompares start first length fuel (i + a.width)
      else none
    else some true

def checkedBackreference (rest : Nat → Attempt) (index pos : Nat) (backward : Bool) : Attempt :=
  fun σ =>
    let start := σ.captures (2 * index)
    let finish := σ.captures (2 * index + 1)
    if start = kUnset ∨ finish = kUnset then rest pos σ
    else
      let length := (finish - start).toNat
      if (if backward then pos < length else pos + length > m.input.length) then fail σ
      else
        let first := if backward then pos - length else pos
        match m.checkedCompares start.toNat first length length 0 with
        | none => crash σ
        | some true =>
          rest (if backward then pos - length else pos + length)
            { σ with astray := σ.astray || (backward && insidePair m.input m.unicode first) }
        | some false => fail σ

def checkedInner (self : Descend) (node : Node) (pos : Nat) (k : Cont) (backward : Bool) :
    Attempt :=
  let rest := m.checkedRest crash (runCont self k)
  if m.Inside pos then
    match node with
    | .alternation alternatives => matchAlternatives self rest pos k backward alternatives
    | .sequence terms => matchSequence self rest terms 0 pos k backward
    | .characterClass c =>
      if !c.strings.isEmpty || c.matchesEmpty then m.checkedClassSet crash rest c pos backward
      else m.checkedOneCharacter crash rest node pos backward
    | .char _ | .dot => m.checkedOneCharacter crash rest node pos backward
    | .assertion kind => if !m.assertionHolds kind pos then fail else rest pos
    | .lookahead negative body => matchLookaround self rest negative false body pos
    | .lookbehind negative body => matchLookaround self rest negative true body pos
    | .group captureIndex body =>
      if captureIndex = 0 then self body pos k backward
      else self body pos (.capture captureIndex pos k) backward
    | .backreference index => m.checkedBackreference crash rest index pos backward
    | .repeats q atom =>
      if q.simpleAtom then m.checkedSimpleRepeat crash rest q atom pos backward
      else matchRepeat self rest q atom q.min q.max pos k backward
  else crash

/-- `matchNode` with the tests. -/
def checkedNode : (levels : Nat) → Descend
  | 0 => fun _ _ _ _ => giveUp .depth
  | levels + 1 => m.checkedInner crash (checkedNode levels)

def checkedRun (root : Node) (first : Nat) : ExecStatus :=
  match m.checkedNode crash kMaxDepth root first .done false start with
  | .error e => .error e
  | .ok (false, _) => .noMatch
  | .ok (true, σ) => .found (wholeMatch first σ.endPos σ.captures)

end Checked

/-! ## One character further, or back -/

section Steps

variable {m : Matcher} {p q code : Nat} {backward : Bool}

/-- A position between characters. -/
def Between (m : Matcher) (pos : Nat) : Prop := insidePair m.input m.unicode pos = false

theorem insidePair_iff : insidePair m.input m.unicode p = true ↔
    m.unicode = true ∧ 0 < p ∧ p < m.input.length ∧
      isLeadSurrogate (unitAt m.input (p - 1)) = true ∧
        isTrailSurrogate (unitAt m.input p) = true := by
  simp [insidePair, and_assoc]

/-- The character at a position is a pair if the next position is inside one. -/
theorem width_characterAt :
    (m.characterAt p).width = if insidePair m.input m.unicode (p + 1) then 2 else 1 := by
  rw [characterAt, codePointAt]
  simp only [insidePair, Nat.add_sub_cancel]
  cases m.unicode <;> cases isLeadSurrogate (unitAt m.input p) <;>
    cases isTrailSurrogate (unitAt m.input (p + 1)) <;>
    by_cases hlen : p + 1 < m.input.length <;> simp [hlen, Nat.not_le.mpr, Nat.not_lt.mp]

/-- The character before a position is a pair if the position before is inside one. -/
theorem width_characterBefore (hle : p + 1 ≤ m.input.length) :
    (m.characterBefore (p + 1)).width = if insidePair m.input m.unicode p then 2 else 1 := by
  have hlt : p < m.input.length := hle
  have hsub : p + 1 - 2 = p - 1 := by omega
  have hfirst : p + 1 < 2 ↔ ¬0 < p := by omega
  rw [characterBefore, codePointBefore]
  simp only [insidePair, Nat.add_sub_cancel, hsub, hlt, hfirst]
  cases m.unicode <;> cases isLeadSurrogate (unitAt m.input (p - 1)) <;>
    cases isTrailSurrogate (unitAt m.input p) <;>
    by_cases hpos : 0 < p <;> simp [hpos]

theorem between_succ (h : insidePair m.input m.unicode p = true) : m.Between (p + 1) := by
  obtain ⟨-, -, -, -, htrail⟩ := insidePair_iff.mp h
  rw [Between, insidePair, Nat.add_sub_cancel, not_lead_of_trail htrail]
  simp

theorem between_pred (h : insidePair m.input m.unicode p = true) : m.Between (p - 1) := by
  cases hinside : insidePair m.input m.unicode (p - 1) with
  | false => exact hinside
  | true =>
    have hnot := between_succ hinside
    rw [Between, Nat.sub_add_cancel (insidePair_iff.mp h).2.1, h] at hnot
    cases hnot

/-- **A step forward** ends between characters. -/
theorem consume_forward (h : m.consume p false = some (code, q)) :
    p < m.input.length ∧ q ≤ m.input.length ∧ p < q ∧ m.Between q ∧
      m.grow false p = q ∧ (m.Between p → m.shrink false q = p) ∧
        (¬m.Between p → m.shrink false q = p - 1) := by
  rw [consume, if_neg Bool.false_ne_true] at h
  split at h
  · cases h
  next hlt =>
    have hlt := Nat.not_le.mp hlt
    cases h
    have hgrow : m.grow false p = p + (m.characterAt p).width := rfl
    have hshrink : ∀ r, m.shrink false r = r - (m.characterBefore r).width := fun _ => rfl
    rw [hgrow, hshrink]
    cases hinside : insidePair m.input m.unicode (p + 1) with
    | true =>
      have hwidth : (m.characterAt p).width = 2 := by rw [width_characterAt, hinside]; rfl
      have hend := (insidePair_iff.mp hinside).2.2.1
      have hback := width_characterBefore hend
      rw [hinside] at hback
      have hnot : m.Between p := between_pred hinside
      rw [hwidth, hback]
      refine ⟨hlt, hend, by omega, between_succ hinside, rfl, fun _ => rfl, absurd hnot⟩
    | false =>
      have hwidth : (m.characterAt p).width = 1 := by rw [width_characterAt, hinside]; rfl
      have hback := width_characterBefore (show p + 1 ≤ m.input.length from hlt)
      rw [hwidth, hback]
      refine ⟨hlt, hlt, by omega, hinside, rfl, fun hnot => ?_, fun hpair => ?_⟩
      · have hnot : insidePair m.input m.unicode p = false := hnot
        rw [hnot]
        rfl
      · rw [Between, Bool.not_eq_false] at hpair
        rw [hpair, if_pos rfl]
        omega

/-- **A step backward** ends between characters. -/
theorem consume_backward (hp : p ≤ m.input.length) (h : m.consume p true = some (code, q)) :
    0 < p ∧ q < p ∧ m.Between q ∧ m.grow true p = q ∧ (m.Between p → m.shrink true q = p) ∧
      (¬m.Between p → m.shrink true q = p + 1 ∧ p < m.input.length) := by
  rw [consume, if_pos rfl] at h
  split at h
  · cases h
  next hne =>
    obtain ⟨n, rfl⟩ := Nat.exists_eq_succ_of_ne_zero hne
    cases h
    have hgrow : m.grow true (n + 1) = n + 1 - (m.characterBefore (n + 1)).width := rfl
    have hshrink : ∀ r, m.shrink true r = r + (m.characterAt r).width := fun _ => rfl
    rw [hgrow, hshrink, width_characterBefore hp]
    cases hinside : insidePair m.input m.unicode n with
    | true =>
      have hpos := (insidePair_iff.mp hinside).2.1
      have hprev : n + 1 - 2 = n - 1 := by omega
      have hback : n - 1 + 1 = n := Nat.sub_add_cancel hpos
      have hnot : m.Between (n + 1) := between_succ hinside
      rw [if_pos rfl, hprev, width_characterAt, hback, hinside, if_pos rfl]
      exact ⟨by omega, by omega, between_pred hinside, rfl, fun _ => by omega,
        absurd hnot⟩
    | false =>
      rw [if_neg Bool.false_ne_true, Nat.add_sub_cancel, width_characterAt]
      refine ⟨by omega, by omega, hinside, rfl, fun hnot => ?_, fun hpair => ?_⟩
      · have hnot : insidePair m.input m.unicode (n + 1) = false := hnot
        rw [hnot]
        rfl
      · rw [Between, Bool.not_eq_false] at hpair
        rw [hpair]
        exact ⟨rfl, (insidePair_iff.mp hpair).2.2.1⟩

theorem checkedConsume_eq (hp : m.Inside p) :
    m.checkedConsume p backward = some (m.consume p backward) :=
  if_pos hp

end Steps

/-- Every capture is unset or a range of the input. -/
def Ranges (m : Matcher) (captures : Nat → Int) : Prop :=
  ∀ i, (captures (2 * i) = kUnset ∧ captures (2 * i + 1) = kUnset) ∨
    0 ≤ captures (2 * i) ∧ captures (2 * i) ≤ captures (2 * i + 1) ∧
      captures (2 * i + 1) ≤ m.input.length

/-- The memory holds positions of the input. -/
structure Kept (m : Matcher) (σ : Memory) : Prop where
  ranges : m.Ranges σ.captures
  endPos_le : m.Inside σ.endPos

theorem start_kept (m : Matcher) : m.Kept start := ⟨fun _ => .inl ⟨rfl, rfl⟩, Nat.zero_le _⟩

section Captures

variable {m : Matcher} {captures saved : Nat → Int}

theorem ranges_of_pairs {written : Nat → Int}
    (h : ∀ i, (written (2 * i) = kUnset ∧ written (2 * i + 1) = kUnset) ∨
      (written (2 * i) = captures (2 * i) ∧ written (2 * i + 1) = captures (2 * i + 1)) ∨
      (written (2 * i) = saved (2 * i) ∧ written (2 * i + 1) = saved (2 * i + 1)))
    (hcaptures : m.Ranges captures) (hsaved : m.Ranges saved) : m.Ranges written := by
  intro i
  rcases h i with hunset | ⟨h0, h1⟩ | ⟨h0, h1⟩
  · exact .inl hunset
  · rw [h0, h1]
    exact hcaptures i
  · rw [h0, h1]
    exact hsaved i

theorem inRepeat_succ (q : Quantifier) (i : Nat) : inRepeat q (2 * i + 1) = inRepeat q (2 * i) := by
  rw [inRepeat, inRepeat, ← Bool.decide_and, ← Bool.decide_and, decide_eq_decide]
  omega

variable (h : m.Ranges captures)

include h

theorem Ranges.clear (q : Quantifier) : m.Ranges (clearRepeatCaptures q captures) := by
  refine ranges_of_pairs (fun i => ?_) h h
  rw [clearRepeatCaptures, clearRepeatCaptures, inRepeat_succ]
  cases inRepeat q (2 * i) with
  | false => exact .inr (.inl ⟨rfl, rfl⟩)
  | true => exact .inl ⟨rfl, rfl⟩

theorem Ranges.restore (hsaved : m.Ranges saved) (q : Quantifier) :
    m.Ranges (restoreRepeatCaptures q saved captures) := by
  refine ranges_of_pairs (fun i => ?_) h hsaved
  rw [restoreRepeatCaptures, restoreRepeatCaptures, inRepeat_succ]
  cases inRepeat q (2 * i) with
  | false => exact .inr (.inl ⟨rfl, rfl⟩)
  | true => exact .inr (.inr ⟨rfl, rfl⟩)

theorem Ranges.reopen (hsaved : m.Ranges saved) (j : Nat) :
    m.Ranges (reopenCapture j saved captures) := by
  refine ranges_of_pairs (fun i => ?_) h hsaved
  rw [reopenCapture, reopenCapture]
  by_cases hi : i = j
  · rw [if_pos (.inl (by rw [hi])), if_pos (.inr (by rw [hi]))]
    exact .inr (.inr ⟨rfl, rfl⟩)
  · rw [if_neg (by omega), if_neg (by omega)]
    exact .inr (.inl ⟨rfl, rfl⟩)

/-- **A group is closed** with the lower of its two positions first. -/
theorem Ranges.close {mark pos : Nat} (hmark : m.Inside mark)
    (hpos : m.Inside pos) (j : Nat) : m.Ranges (closeCapture j mark pos captures) := by
  rw [Inside] at hmark hpos
  intro i
  rw [closeCapture, closeCapture]
  by_cases hi : i = j
  · subst hi
    rw [if_pos rfl, if_neg (show ¬2 * i + 1 = 2 * i by omega)]
    refine .inr ⟨by omega, ?_, ?_⟩ <;> split_ifs <;> omega
  · rw [if_neg (show ¬2 * i = 2 * j by omega), if_neg (show ¬2 * i = 2 * j + 1 by omega),
      if_neg (show ¬2 * i + 1 = 2 * j by omega), if_neg (show ¬2 * i + 1 = 2 * j + 1 by omega)]
    exact h i

end Captures

/-- The tests make no difference to an attempt, it keeps the memory in the input, and a match ends
at a bound or behind it. -/
def SoundAt (m : Matcher) (lo : Nat) (σ : Memory) (a b : Attempt) : Prop :=
  a σ = b σ ∧ ∀ found σ', b σ = .ok (found, σ') → m.Kept σ' ∧ (found = true → lo ≤ σ'.endPos)

def Sound (m : Matcher) (lo : Nat) (a b : Attempt) : Prop :=
  ∀ σ, m.Kept σ → m.SoundAt lo σ a b

section Attempts

variable {m : Matcher} {lo : Nat} {a b a' b' : Attempt} {σ : Memory}

theorem sound_fail : m.Sound lo fail fail := by
  intro σ hσ
  refine ⟨rfl, fun found σ' h => ?_⟩
  cases h
  exact ⟨hσ, nofun⟩

theorem sound_giveUp (e : GiveUp) : m.Sound lo (giveUp e) (giveUp e) := fun _ _ => ⟨rfl, nofun⟩

theorem SoundAt.orElse (h : m.SoundAt lo σ a b) (h' : m.Sound lo a' b') :
    m.SoundAt lo σ (orElse a a') (orElse b b') := by
  obtain ⟨heq, hkeeps⟩ := h
  rw [SoundAt, Attempt.orElse, Attempt.orElse, heq]
  cases hb : b σ with
  | error e => exact ⟨rfl, nofun⟩
  | ok r =>
    obtain ⟨found, σ'⟩ := r
    obtain ⟨hσ', hend⟩ := hkeeps found σ' hb
    cases found with
    | true =>
      refine ⟨rfl, fun found σ'' h => ?_⟩
      cases h
      exact ⟨hσ', hend⟩
    | false => exact h' σ' hσ'

variable (h : m.Sound lo a b)

include h

theorem Sound.orElse (h' : m.Sound lo a' b') : m.Sound lo (orElse a a') (orElse b b') :=
  fun σ hσ => (h σ hσ).orElse h'

theorem Sound.tick : m.Sound lo (tick a) (tick b) := by
  intro σ hσ
  rw [SoundAt, Attempt.tick, Attempt.tick]
  split
  · exact ⟨rfl, nofun⟩
  · exact h _ ⟨hσ.ranges, hσ.endPos_le⟩

theorem Sound.undoing (hσ : m.Kept σ) {write restore : (Nat → Int) → Nat → Int}
    (hwrite : m.Ranges (write σ.captures))
    (hrestore : ∀ captures, m.Ranges captures → m.Ranges (restore captures)) :
    m.SoundAt lo σ (undoing write restore a) (undoing write restore b) := by
  obtain ⟨heq, hkeeps⟩ := h { σ with captures := write σ.captures } ⟨hwrite, hσ.endPos_le⟩
  rw [SoundAt, Attempt.undoing, Attempt.undoing, heq]
  cases hb : b { σ with captures := write σ.captures } with
  | error e => exact ⟨rfl, nofun⟩
  | ok r =>
    obtain ⟨found, σ'⟩ := r
    obtain ⟨hσ', hend⟩ := hkeeps found σ' hb
    refine ⟨rfl, fun found' σ'' h => ?_⟩
    cases found with
    | true =>
      cases h
      exact ⟨hσ', hend⟩
    | false =>
      cases h
      exact ⟨⟨hrestore _ hσ'.ranges, hσ'.endPos_le⟩, nofun⟩

end Attempts

/-! ## Repetitions of one character -/

section Repetitions

variable {m : Matcher} {lo pos : Nat} {backward : Bool}

/-- Where so many steps lead. -/
def stepsTo (m : Matcher) (backward : Bool) (pos : Nat) : Nat → Option Nat
  | 0 => some pos
  | n + 1 => (stepsTo m backward pos n).bind fun p => (m.consume p backward).map Prod.snd

variable {n p q : Nat}

theorem stepsTo_succ :
    (m.stepsTo backward pos n = some p ∧ ∃ code, m.consume p backward = some (code, q)) →
      m.stepsTo backward pos (n + 1) = some q := by
  rintro ⟨hp, code, hq⟩
  simp [stepsTo, hp, hq]

theorem exists_of_stepsTo_succ (h : m.stepsTo backward pos (n + 1) = some q) :
    ∃ p code, m.stepsTo backward pos n = some p ∧ m.consume p backward = some (code, q) := by
  rw [stepsTo, Option.bind_eq_some_iff] at h
  obtain ⟨p, hp, hq⟩ := h
  obtain ⟨⟨code, q'⟩, hstep, rfl⟩ := Option.map_eq_some_iff.mp hq
  exact ⟨p, code, hp, hstep⟩

/-- Steps stay in the input, go in their direction, and end between characters. -/
theorem stepsTo_spec (hpos : m.Inside pos) (h : m.stepsTo backward pos n = some p) :
    m.Inside p ∧ (backward = false → pos ≤ p) ∧ (n ≠ 0 → m.Between p) := by
  induction n generalizing p with
  | zero =>
    obtain rfl : pos = p := Option.some.inj h
    exact ⟨hpos, fun _ => le_rfl, absurd rfl⟩
  | succ n ih =>
    obtain ⟨q, code, hq, hstep⟩ := exists_of_stepsTo_succ h
    obtain ⟨hinside, hle, -⟩ := ih hq
    cases backward with
    | false =>
      obtain ⟨-, hend, hlt, hbetween, -⟩ := consume_forward hstep
      exact ⟨hend, fun _ => (hle rfl).trans hlt.le, fun _ => hbetween⟩
    | true =>
      obtain ⟨-, hlt, hbetween, -⟩ := consume_backward hinside hstep
      exact ⟨hlt.le.trans hinside, nofun, fun _ => hbetween⟩

/-- A bound of the start is a bound of where steps lead; backward there is none but 0. -/
theorem le_of_stepsTo (hdir : backward = true → lo = 0) (hle : lo ≤ pos) (hpos : m.Inside pos)
    (h : m.stepsTo backward pos n = some p) : lo ≤ p := by
  cases backward with
  | false => exact hle.trans ((stepsTo_spec hpos h).2.1 rfl)
  | true =>
    rw [hdir rfl]
    exact Nat.zero_le p

theorem exists_stepsTo_of_le {t : Nat} (h : m.stepsTo backward pos n = some p) (hle : t ≤ n) :
    ∃ q, m.stepsTo backward pos t = some q := by
  induction n generalizing p with
  | zero => exact ⟨p, by rwa [Nat.le_zero.mp hle]⟩
  | succ n ih =>
    rcases Nat.le_succ_iff.mp hle with hle | rfl
    · obtain ⟨q, -, hq, -⟩ := exists_of_stepsTo_succ h
      exact ih hq hle
    · exact ⟨p, h⟩

theorem checkedScan_spec (backward : Bool) (atom : Node) (max : Nat) (hpos : m.Inside pos) :
    ∀ (fuel count p : Nat), m.stepsTo backward pos count = some p →
      ∃ n last, m.scan atom max backward fuel count p = (n, last) ∧
        m.checkedScan atom max backward fuel count p = some (n, last) ∧
        m.stepsTo backward pos n = some last := by
  intro fuel
  induction fuel with
  | zero => exact fun count p hp => ⟨count, p, rfl, rfl, hp⟩
  | succ fuel ih =>
    intro count p hp
    rw [scan, checkedScan, checkedConsume_eq (stepsTo_spec hpos hp).1]
    split
    · cases hstep : m.consume p backward with
      | none => exact ⟨count, p, rfl, rfl, hp⟩
      | some step =>
        obtain ⟨code, next⟩ := step
        dsimp only
        split
        · exact ih _ _ (stepsTo_succ ⟨hp, code, hstep⟩)
        · exact ⟨count, p, rfl, rfl, hp⟩
    · exact ⟨count, p, rfl, rfl, hp⟩

theorem checkedGrow_spec {code : Nat} (hp : m.Inside p)
    (h : m.consume p backward = some (code, q)) :
    m.checkedGrow backward p = some q ∧ m.grow backward p = q := by
  cases backward with
  | false =>
    obtain ⟨hlt, -, -, -, hgrow, -⟩ := consume_forward h
    refine ⟨?_, hgrow⟩
    rw [checkedGrow, if_pos (by simpa [hasNext] using hlt), hgrow]
  | true =>
    obtain ⟨hpos, -, -, hgrow, -⟩ := consume_backward hp h
    refine ⟨?_, hgrow⟩
    rw [checkedGrow, if_pos (by simpa [hasPrevious] using ⟨hpos, hp⟩), hgrow]

/-- **A repetition is given back** to where it began, and across it where it began inside a
pair. -/
theorem checkedShrink_spec {code : Nat} (hp : m.Inside p)
    (h : m.consume p backward = some (code, q)) :
    m.checkedShrink backward q = some (m.shrink backward q) ∧
      (m.Between p → m.shrink backward q = p) ∧ m.Inside (m.shrink backward q) ∧
        (backward = false → p ≤ m.shrink backward q + 1) := by
  cases backward with
  | false =>
    obtain ⟨hlt, hend, hlt', -, -, hsame, hcross⟩ := consume_forward h
    have hguard : m.hasPrevious q = true := by
      rw [hasPrevious, Bool.and_eq_true, decide_eq_true_eq, decide_eq_true_eq]
      exact ⟨by omega, hend⟩
    refine ⟨if_pos hguard, hsame, ?_, fun _ => ?_⟩
    · rw [Inside]
      by_cases hbetween : m.Between p
      · rw [hsame hbetween]
        exact hp
      · rw [hcross hbetween]
        exact (Nat.sub_le ..).trans hp
    · by_cases hbetween : m.Between p
      · rw [hsame hbetween]
        exact Nat.le_succ p
      · rw [hcross hbetween]
        omega
  | true =>
    obtain ⟨-, hlt, -, -, hsame, hcross⟩ := consume_backward hp h
    have hguard : m.hasNext q = true := decide_eq_true (lt_of_lt_of_le hlt hp)
    refine ⟨if_pos hguard, hsame, ?_, nofun⟩
    by_cases hbetween : m.Between p
    · rw [hsame hbetween]
      exact hp
    · obtain ⟨heq, hlen⟩ := hcross hbetween
      rw [heq]
      exact hlen

theorem consume_of_stepsTo (hp : m.stepsTo backward pos n = some p)
    (hq : m.stepsTo backward pos (n + 1) = some q) :
    ∃ code, m.consume p backward = some (code, q) := by
  obtain ⟨p', code, hp', hstep⟩ := exists_of_stepsTo_succ hq
  rw [hp] at hp'
  cases hp'
  exact ⟨code, hstep⟩

theorem checkedGrowBy_spec (hpos : m.Inside pos) {t cur last : Nat}
    (hcur : m.stepsTo backward pos t = some cur)
    (hlast : m.stepsTo backward pos (t + n) = some last) :
    m.checkedGrowBy backward n cur = some ((m.grow backward)^[n] cur) ∧
      m.stepsTo backward pos (t + n) = some ((m.grow backward)^[n] cur) := by
  induction n generalizing t cur with
  | zero => exact ⟨rfl, hcur⟩
  | succ n ih =>
    obtain ⟨next, hnext⟩ := exists_stepsTo_of_le hlast (show t + 1 ≤ t + (n + 1) by omega)
    obtain ⟨code, hstep⟩ := consume_of_stepsTo hcur hnext
    obtain ⟨hchecked, hgrow⟩ := checkedGrow_spec (stepsTo_spec hpos hcur).1 hstep
    have hmore := ih hnext (by rw [Nat.add_assoc, Nat.add_comm 1 n]; exact hlast)
    rw [Nat.add_assoc, Nat.add_comm 1 n, ← hgrow] at hmore
    rw [checkedGrowBy, hchecked, ← hgrow]
    exact hmore

/-- What is done at every position from a bound on. -/
def SoundFrom (m : Matcher) (lo : Nat) (rest' rest : Nat → Attempt) : Prop :=
  ∀ p, lo ≤ p → m.Inside p → m.Sound lo (rest' p) (rest p)

variable {crash : Attempt} {rest' rest : Nat → Attempt}

theorem SoundFrom.checked (h : m.SoundFrom lo rest' rest) (crash : Attempt) :
    m.SoundFrom lo (m.checkedRest crash rest') rest := by
  intro p hle hp
  rw [checkedRest, if_pos hp]
  exact h p hle hp

/-- **The repetitions are given back** in the input, and behind a bound that is between
characters. -/
theorem giveBack_sound (hlo : m.Between lo) (hdir : backward = true → lo = 0)
    (hrest : m.SoundFrom lo rest' rest) (hle : lo ≤ pos) (hpos : m.Inside pos) (min : Nat) :
    ∀ n cur, m.stepsTo backward pos n = some cur →
      m.Sound lo (m.checkedGiveBack crash rest' min backward n cur)
        (m.giveBack rest min backward n cur) := by
  have hbound := fun {n cur} => le_of_stepsTo (n := n) (p := cur) hdir hle hpos
  intro n
  induction n with
  | zero => exact fun cur hcur => hrest cur (hbound hcur) (stepsTo_spec hpos hcur).1
  | succ n ih =>
    intro cur hcur
    refine (hrest cur (hbound hcur) (stepsTo_spec hpos hcur).1).orElse ?_
    split
    · exact sound_fail
    · obtain ⟨p, code, hp, hstep⟩ := exists_of_stepsTo_succ hcur
      obtain ⟨hinside, -, hbetween⟩ := stepsTo_spec hpos hp
      obtain ⟨hchecked, hsame, hinside', hback⟩ := checkedShrink_spec hinside hstep
      rw [hchecked]
      by_cases hnot : m.Between p
      · rw [hsame hnot]
        exact ih p hp
      · -- only the first repetition begins inside a pair, and it is the last to be given back
        obtain rfl : n = 0 := by
          by_contra hne
          exact hnot (hbetween hne)
        refine hrest _ ?_ hinside'
        cases backward with
        | true => rw [hdir rfl]; exact Nat.zero_le _
        | false =>
          have hne : lo ≠ p := fun heq => hnot (heq ▸ hlo)
          have hlep := hbound hp
          have hpred := hback rfl
          omega

theorem takeMore_sound (hdir : backward = true → lo = 0) (hrest : m.SoundFrom lo rest' rest)
    (hle : lo ≤ pos) (hpos : m.Inside pos) (last : Nat) :
    ∀ left n cur, m.stepsTo backward pos n = some cur →
      m.stepsTo backward pos (n + left) = some last →
      m.Sound lo (m.checkedTakeMore crash rest' backward left cur)
        (m.takeMore rest backward left cur) := by
  have hbound := fun {n cur} => le_of_stepsTo (n := n) (p := cur) hdir hle hpos
  intro left
  induction left with
  | zero => exact fun n cur hcur _ => hrest cur (hbound hcur) (stepsTo_spec hpos hcur).1
  | succ left ih =>
    intro n cur hcur hlast
    refine (hrest cur (hbound hcur) (stepsTo_spec hpos hcur).1).orElse ?_
    obtain ⟨next, hnext⟩ := exists_stepsTo_of_le hlast (show n + 1 ≤ n + (left + 1) by omega)
    obtain ⟨code, hstep⟩ := consume_of_stepsTo hcur hnext
    obtain ⟨hchecked, hgrow⟩ := checkedGrow_spec (stepsTo_spec hpos hcur).1 hstep
    rw [hchecked, hgrow]
    exact ih (n + 1) next hnext (by rw [Nat.add_assoc, Nat.add_comm 1 left]; exact hlast)

theorem matchSimpleRepeat_sound (hlo : m.Between lo) (hdir : backward = true → lo = 0)
    (hrest : m.SoundFrom lo rest' rest) (q : Quantifier) (atom : Node) (hle : lo ≤ pos)
    (hpos : m.Inside pos) :
    m.Sound lo (m.checkedSimpleRepeat crash rest' q atom pos backward)
      (m.matchSimpleRepeat rest q atom pos backward) := by
  obtain ⟨n, last, hscan, hchecked, hlast⟩ :=
    checkedScan_spec backward atom q.max hpos m.input.length 0 pos rfl
  rw [checkedSimpleRepeat, matchSimpleRepeat, hscan, hchecked]
  dsimp only
  split
  · exact sound_fail
  next hcount =>
    split
    · exact giveBack_sound hlo hdir hrest hle hpos q.min n last hlast
    · obtain ⟨first, hfirst⟩ := exists_stepsTo_of_le hlast (Nat.not_lt.mp hcount)
      obtain ⟨hgrow, hsteps⟩ := checkedGrowBy_spec hpos (t := 0) rfl (by rw [Nat.zero_add, hfirst])
      rw [hgrow]
      refine takeMore_sound hdir hrest hle hpos last (n - q.min) q.min _
        (by rwa [Nat.zero_add] at hsteps) ?_
      rw [Nat.add_sub_cancel' (Nat.not_lt.mp hcount), hlast]

section

variable (hdir : backward = true → lo = 0)

include hdir

theorem matchOneCharacter_sound
    (hrest : m.SoundFrom lo rest' rest) (node : Node) (hle : lo ≤ pos) (hpos : m.Inside pos) :
    m.Sound lo (m.checkedOneCharacter crash rest' node pos backward)
      (m.matchOneCharacter rest node pos backward) := by
  rw [checkedOneCharacter, matchOneCharacter, checkedConsume_eq hpos]
  cases hstep : m.consume pos backward with
  | none => exact sound_fail
  | some step =>
    obtain ⟨code, next⟩ := step
    have hnext := stepsTo_succ (n := 0) ⟨rfl, code, hstep⟩
    dsimp only
    split
    · exact hrest next (le_of_stepsTo hdir hle hpos hnext) (stepsTo_spec hpos hnext).1
    · exact sound_fail

theorem checkedMember_spec (member : List Nat) (hle : lo ≤ p) (hp : m.Inside p) :
    m.checkedMember backward member p = some (m.consumeMember backward member p) ∧
      ∀ q, m.consumeMember backward member p = some q → lo ≤ q ∧ m.Inside q := by
  induction member generalizing p with
  | nil =>
    refine ⟨rfl, fun q h => ?_⟩
    cases h
    exact ⟨hle, hp⟩
  | cons code member ih =>
    rw [checkedMember, consumeMember, checkedConsume_eq hp]
    cases hstep : m.consume p backward with
    | none => exact ⟨rfl, nofun⟩
    | some step =>
      obtain ⟨found, next⟩ := step
      have hnext := stepsTo_succ (n := 0) ⟨rfl, found, hstep⟩
      dsimp only
      split
      · exact ⟨rfl, nofun⟩
      · exact ih (le_of_stepsTo hdir hle hp hnext) (stepsTo_spec hp hnext).1

theorem matchStrings_sound (hrest : m.SoundFrom lo rest' rest)
    (strings : List (List Nat)) (hle : lo ≤ pos) (hpos : m.Inside pos) :
    m.Sound lo (m.checkedStrings crash rest' pos backward strings)
      (m.matchStrings rest pos backward strings) := by
  induction strings with
  | nil => exact sound_fail
  | cons member strings ih =>
    rw [checkedStrings, matchStrings]
    obtain ⟨hchecked, hends⟩ := checkedMember_spec hdir
      (if backward then member.reverse else member) hle hpos
    rw [hchecked]
    cases hmember : m.consumeMember backward (if backward then member.reverse else member) pos with
    | none => exact ih
    | some q =>
      obtain ⟨hleq, hq⟩ := hends q hmember
      exact (hrest q hleq hq).orElse ih

theorem matchClassSet_sound (hrest : m.SoundFrom lo rest' rest)
    (c : CharacterClass) (hle : lo ≤ pos) (hpos : m.Inside pos) :
    m.Sound lo (m.checkedClassSet crash rest' c pos backward)
      (m.matchClassSet rest c pos backward) := by
  refine (matchStrings_sound hdir hrest c.strings hle hpos).orElse (Sound.orElse ?_ ?_)
  · split
    · exact sound_fail
    · exact matchOneCharacter_sound hdir hrest _ hle hpos
  · split
    · exact hrest pos hle hpos
    · exact sound_fail

end

theorem checkedCompares_eq {start first length : Nat} (hstart : start + length ≤ m.input.length)
    (hfirst : first + length ≤ m.input.length) (fuel i : Nat) :
    m.checkedCompares start first length fuel i =
      some (m.comparesFrom start first length fuel i) := by
  induction fuel generalizing i with
  | zero => rfl
  | succ fuel ih =>
    rw [checkedCompares, comparesFrom]
    split
    next hi =>
      have hguard : (m.hasNext (start + i) && m.hasNext (first + i)) = true := by
        rw [hasNext, hasNext, Bool.and_eq_true, decide_eq_true_eq, decide_eq_true_eq]
        omega
      rw [if_pos hguard]
      dsimp only
      split
      · rfl
      · exact ih _
    · rfl

theorem matchBackreference_sound (hdir : backward = true → lo = 0)
    (hrest : m.SoundFrom lo rest' rest) (index : Nat) (hle : lo ≤ pos) (hpos : m.Inside pos) :
    m.Sound lo (m.checkedBackreference crash rest' index pos backward)
      (m.matchBackreference rest index pos backward) := by
  intro σ hσ
  rw [SoundAt, checkedBackreference, matchBackreference]
  by_cases hunset : σ.captures (2 * index) = kUnset ∨ σ.captures (2 * index + 1) = kUnset
  · rw [if_pos hunset, if_pos hunset]
    exact hrest pos hle hpos σ hσ
  · rw [if_neg hunset]
    obtain ⟨hstart, hfinish⟩ := not_or.mp hunset
    obtain ⟨hnonneg, hordered, hend⟩ := (hσ.ranges index).resolve_left fun h => hstart h.1
    have hinside : pos ≤ m.input.length := hpos
    -- the capture is a range of the input
    generalize hlength : (σ.captures (2 * index + 1) - σ.captures (2 * index)).toNat = length
    have hfits : (σ.captures (2 * index)).toNat + length ≤ m.input.length := by omega
    have hkept : ∀ b, m.Kept { σ with astray := b } := fun _ => ⟨hσ.ranges, hσ.endPos_le⟩
    cases backward with
    | false =>
      simp only [Bool.false_eq_true, if_false]
      split
      · exact sound_fail σ hσ
      next hroom =>
        have hroom := Nat.not_lt.mp hroom
        rw [checkedCompares_eq hfits hroom]
        cases m.comparesFrom (σ.captures (2 * index)).toNat pos length length 0 with
        | false => exact sound_fail σ hσ
        | true => exact hrest _ (by omega) hroom _ (hkept _)
    | true =>
      simp only [if_true]
      split
      · exact sound_fail σ hσ
      next hroom =>
        rw [checkedCompares_eq hfits (by omega)]
        cases m.comparesFrom (σ.captures (2 * index)).toNat (pos - length) length length 0 with
        | false => exact sound_fail σ hσ
        | true =>
          refine hrest _ ?_ ((Nat.sub_le ..).trans hpos) _ (hkept _)
          rw [hdir rfl]
          exact Nat.zero_le _

end Repetitions

/-! ## The tree -/

/-- The marks of a continuation are in the input, and one that goes backward has no bound. -/
def Reaches (m : Matcher) (lo : Nat) : Cont → Prop
  | .done => True
  | .sequence _ _ backward next => (backward = true → lo = 0) ∧ Reaches m lo next
  | .repeats _ _ _ _ _ backward next => (backward = true → lo = 0) ∧ Reaches m lo next
  | .capture _ mark next => m.Inside mark ∧ Reaches m lo next

/-- The tests make no difference on a level. -/
def Descends' (m : Matcher) (self' self : Descend) : Prop :=
  ∀ lo, m.Between lo → ∀ node pos k backward, (backward = true → lo = 0) → lo ≤ pos →
    m.Inside pos → m.Reaches lo k →
      m.Sound lo (self' node pos k backward) (self node pos k backward)

section Tree

variable {m : Matcher} {lo pos : Nat} {self' self : Descend} {rest' rest : Nat → Attempt}
  {backward : Bool} {k : Cont} {crash : Attempt}

section

variable (hself : m.Descends' self' self)

include hself

section

variable (hlo : m.Between lo)

include hlo

section

variable (hdir : backward = true → lo = 0)

include hdir

theorem matchSequence_sound (hrest : m.SoundFrom lo rest' rest) (hk : m.Reaches lo k)
    (terms : List Node) (index : Nat) (hle : lo ≤ pos) (hpos : m.Inside pos) :
    m.Sound lo (matchSequence self' rest' terms index pos k backward)
      (matchSequence self rest terms index pos k backward) := by
  rw [matchSequence, matchSequence]
  split
  · exact hrest pos hle hpos
  · cases terms[if backward then terms.length - 1 - index else index]? with
    | none => exact sound_fail
    | some term => exact hself lo hlo term pos _ backward hdir hle hpos ⟨hdir, hk⟩

theorem matchAlternatives_sound (hrest : m.SoundFrom lo rest' rest) (hk : m.Reaches lo k)
    (alternatives : List (List Node)) (hle : lo ≤ pos) (hpos : m.Inside pos) :
    m.Sound lo (matchAlternatives self' rest' pos k backward alternatives)
      (matchAlternatives self rest pos k backward alternatives) := by
  induction alternatives with
  | nil => exact sound_fail
  | cons terms alternatives ih =>
    exact (matchSequence_sound hself hlo hdir hrest hk terms 0 hle hpos).orElse ih

theorem turn_sound (hk : m.Reaches lo k) (q : Quantifier) (atom : Node) (min max : Nat)
    (hle : lo ≤ pos) (hpos : m.Inside pos) {saved : Nat → Int} (hsaved : m.Ranges saved) :
    m.Sound lo (turn self' q atom min max pos k backward saved)
      (turn self q atom min max pos k backward saved) := by
  intro σ hσ
  have hturn := hself lo hlo atom pos (.repeats q atom min max pos backward k) backward hdir hle
    hpos ⟨hdir, hk⟩
  exact hturn.undoing hσ (hσ.ranges.clear q) fun captures h => h.restore hsaved q

theorem matchRepeat_sound (hrest : m.SoundFrom lo rest' rest) (hk : m.Reaches lo k) (q : Quantifier)
    (atom : Node) (min max : Nat) (hle : lo ≤ pos) (hpos : m.Inside pos) :
    m.Sound lo (matchRepeat self' rest' q atom min max pos k backward)
      (matchRepeat self rest q atom min max pos k backward) := by
  by_cases hmax : max = 0
  · rw [matchRepeat, matchRepeat, if_pos hmax, if_pos hmax]
    exact hrest pos hle hpos
  · rw [matchRepeat_eq _ _ _ _ _ hmax, matchRepeat_eq _ _ _ _ _ hmax]
    intro σ hσ
    have hturn := turn_sound hself hlo hdir hk q atom min max hle hpos hσ.ranges
    have hleave := hrest pos hle hpos
    have hboth : m.Sound lo (turnOrLeave self' rest' q atom min max pos k backward σ.captures)
        (turnOrLeave self rest q atom min max pos k backward σ.captures) := by
      rw [turnOrLeave, turnOrLeave]
      split
      · exact hturn
      · split
        · exact hturn.orElse hleave
        · exact hleave.orElse hturn
    exact hboth σ hσ

end

theorem runCont_sound (hk : m.Reaches lo k) :
    m.SoundFrom lo (runCont self' k) (runCont self k) := by
  induction k with
  | done =>
    intro p hle hp
    refine Sound.tick fun σ hσ => ⟨rfl, fun found σ' h => ?_⟩
    cases h
    exact ⟨⟨hσ.ranges, hp⟩, fun _ => hle⟩
  | sequence terms index backward next ih =>
    exact fun p hle hp =>
      (matchSequence_sound hself hlo hk.1 (ih hk.2) hk.2 terms index hle hp).tick
  | repeats q atom min max mark backward next ih =>
    intro p hle hp
    refine Sound.tick ?_
    split
    · exact sound_fail
    · exact matchRepeat_sound hself hlo hk.1 (ih hk.2) hk.2 q atom _ _ hle hp
  | capture j mark next ih =>
    intro p hle hp
    refine Sound.tick fun σ hσ => ?_
    exact (ih hk.2 p hle hp).undoing hσ (hσ.ranges.close hk.1 hp j)
      fun captures h => h.reopen hσ.ranges j

end

/-- **A lookaround** puts the end back, and has no bound of its own. -/
theorem matchLookaround_sound (hrest : m.SoundFrom lo rest' rest) (negative behind : Bool)
    (body : Node) (hle : lo ≤ pos) (hpos : m.Inside pos) :
    m.Sound lo (matchLookaround self' rest' negative behind body pos)
      (matchLookaround self rest negative behind body pos) := by
  intro σ hσ
  have hzero : m.Between 0 := by simp [Between, insidePair]
  obtain ⟨heq, hkeeps⟩ := hself 0 hzero body pos .done behind (fun _ => rfl) (Nat.zero_le _) hpos
    trivial σ hσ
  rw [SoundAt, matchLookaround, matchLookaround, heq]
  cases hbody : self body pos .done behind σ with
  | error e => exact ⟨rfl, fun _ _ h => by cases h⟩
  | ok r =>
    obtain ⟨inner, σ'⟩ := r
    have hσ' := (hkeeps inner σ' hbody).1
    cases negative with
    | true =>
      cases inner with
      | true => exact sound_fail _ ⟨hσ.ranges, hσ.endPos_le⟩
      | false => exact hrest pos hle hpos _ ⟨hσ.ranges, hσ.endPos_le⟩
    | false =>
      cases inner with
      | false => exact sound_fail _ ⟨hσ.ranges, hσ.endPos_le⟩
      | true =>
        have hafter : m.Kept { σ' with endPos := σ.endPos } := ⟨hσ'.ranges, hσ.endPos_le⟩
        exact (hrest pos hle hpos).undoing hafter hσ'.ranges fun _ _ => hσ.ranges

/-- **The tests make no difference** on the next level. -/
theorem checkedInner_sound : m.Descends' (m.checkedInner crash self') (m.matchNodeInner self) := by
  intro lo hlo node pos k backward hdir hle hpos hk
  have hrest := (runCont_sound hself hlo hk).checked crash
  have hhere := hrest pos hle hpos
  unfold checkedInner matchNodeInner
  rw [if_pos hpos]
  cases node with
  | alternation alternatives =>
    exact matchAlternatives_sound hself hlo hdir hrest hk alternatives hle hpos
  | sequence terms => exact matchSequence_sound hself hlo hdir hrest hk terms 0 hle hpos
  | characterClass c =>
    dsimp only
    split
    · exact matchClassSet_sound hdir hrest c hle hpos
    · exact matchOneCharacter_sound hdir hrest _ hle hpos
  | char ch => exact matchOneCharacter_sound hdir hrest _ hle hpos
  | dot => exact matchOneCharacter_sound hdir hrest _ hle hpos
  | assertion kind =>
    dsimp only
    split
    · exact sound_fail
    · exact hhere
  | lookahead negative body => exact matchLookaround_sound hself hrest negative false body hle hpos
  | lookbehind negative body => exact matchLookaround_sound hself hrest negative true body hle hpos
  | group captureIndex body =>
    dsimp only
    split
    · exact hself lo hlo body pos k backward hdir hle hpos hk
    · exact hself lo hlo body pos _ backward hdir hle hpos ⟨hpos, hk⟩
  | backreference index => exact matchBackreference_sound hdir hrest index hle hpos
  | repeats q atom =>
    dsimp only
    split
    · exact matchSimpleRepeat_sound hlo hdir hrest q atom hle hpos
    · exact matchRepeat_sound hself hlo hdir hrest hk q atom _ _ hle hpos

end

/-- **The tests make no difference**, on any level. -/
theorem checkedNode_sound (m : Matcher) (crash : Attempt) (levels : Nat) :
    m.Descends' (m.checkedNode crash levels) (m.matchNode levels) := by
  induction levels with
  | zero => exact fun _ _ _ _ _ _ _ _ _ _ => sound_giveUp .depth
  | succ levels ih => exact checkedInner_sound ih

end Tree

/-- A match starts before it ends, and its captures are ranges of the input. -/
structure WellFormed (m : Matcher) (captures : Nat → Int) : Prop where
  start_nonneg : 0 ≤ captures 0
  start_le_end : captures 0 ≤ captures 1
  end_le : captures 1 ≤ m.input.length
  ranges : m.Ranges captures

section Run

variable {m : Matcher} {first : Nat}

/-- **No decode of a run is out of bounds**, wherever it starts. -/
theorem checkedRun_eq (crash : Attempt) (root : Node) (hfirst : m.Inside first) :
    m.checkedRun crash root first = m.run root first := by
  have hzero : m.Between 0 := by simp [Between, insidePair]
  obtain ⟨heq, -⟩ := checkedNode_sound m crash kMaxDepth 0 hzero root first .done false
    (fun _ => rfl) (Nat.zero_le _) hfirst trivial start (start_kept m)
  simp only [checkedRun, heq]
  rfl

/-- **A match that starts between characters** is well formed. -/
theorem run_wellFormed (hfirst : m.Inside first) (hbetween : m.Between first) (root : Node)
    {captures : Nat → Int} (hrun : m.run root first = .found captures) : m.WellFormed captures := by
  obtain ⟨-, hkeeps⟩ := checkedNode_sound m fail kMaxDepth first hbetween root first .done false
    nofun le_rfl hfirst trivial start (start_kept m)
  rw [run] at hrun
  split at hrun
  · cases hrun
  · cases hrun
  next σ hσ =>
    obtain ⟨hkept, hend⟩ := hkeeps true σ hσ
    have hle := hend rfl
    have hinside : σ.endPos ≤ m.input.length := hkept.endPos_le
    cases hrun
    have h0 : wholeMatch first σ.endPos σ.captures 0 = first := rfl
    have h1 : wholeMatch first σ.endPos σ.captures 1 = σ.endPos := rfl
    have hwhole : 0 ≤ wholeMatch first σ.endPos σ.captures 0 ∧
        wholeMatch first σ.endPos σ.captures 0 ≤ wholeMatch first σ.endPos σ.captures 1 ∧
          wholeMatch first σ.endPos σ.captures 1 ≤ m.input.length := by omega
    refine ⟨hwhole.1, hwhole.2.1, hwhole.2.2, fun i => ?_⟩
    cases i with
    | zero => exact .inr hwhole
    | succ i =>
      exact hkept.ranges (i + 1)

end Run

end Matcher

end Bronze.Regex
