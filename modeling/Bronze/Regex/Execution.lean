import Bronze.Numeric.Ieee
import Bronze.Regex.Bounds
import Bronze.Regex.FastRepeat

/-!
# Executing a pattern

`matchAt` and `search` of `src/regex/matcher.cpp`, the kernels of `src/regex/regex_jit.cpp` that
they ask first, over the tables of a plan, and `rtRegExpExec` of
`src/runtime/builtin_regexp_exec.cpp` from the number that `lastIndex` holds.

## Main results

* `Matcher.respects_iff`: where every match of every pattern is well formed
-/

namespace Bronze.Regex

open BigNum (Double)

open Attempt Nat

/-- `class RegexJitPlan`, with whether the kernels are in. -/
structure JitPlan where
  ready : Bool
  requiresCaptureExtraction : Bool
  anchorsAtStart : Bool
  startState : Int
  numDfaStates : Int
  transitionTable : Int → Nat → Int
  acceptTable : Int → Int

inductive KernelAnswer (α : Type) where
  /-- A unit is not ASCII. -/
  | bailout
  | noMatch
  | found (a : α)

namespace JitPlan

variable (plan : JitPlan) (input : List UInt16)

/-- The loop of both kernels over the units, with the end of the best match so far. -/
def scan : (fuel cur : Nat) → (state : Int) → (best : Option Nat) → KernelAnswer (Option Nat)
  | 0, _, _, best => .found best
  | fuel + 1, cur, state, best =>
    match input[cur]? with
    | none => .found best
    | some u =>
      if u.toNat ≥ 128 then .bailout
      else
        let next := plan.transitionTable state u.toNat
        if next < 0 then .found best
        else
          let acc := plan.acceptTable next
          let best := if acc > 0 then some (cur + 1) else best
          if acc = 2 then .found best else scan fuel (cur + 1) next best

/-- The match from a position, for both kernels. -/
def scanFrom (pos : Nat) : KernelAnswer (Option Nat) :=
  let acc := plan.acceptTable plan.startState
  let best := if acc > 0 then some pos else none
  if acc = 2 then .found best else plan.scan input input.length pos plan.startState best

def dfaMatchAt (pos : Nat) : KernelAnswer Nat :=
  if plan.startState < 0 ∨ pos > input.length then .noMatch
  else
    match plan.scanFrom input pos with
    | .bailout => .bailout
    | .found (some last) => .found last
    | _ => .noMatch

/-- The outer loop of `regex_dfa_search`. -/
def searchLoop : (fuel pos : Nat) → KernelAnswer (Nat × Nat)
  | 0, _ => .noMatch
  | fuel + 1, pos =>
    if pos > input.length then .noMatch
    else
      match plan.scanFrom input pos with
      | .bailout => .bailout
      | .found (some last) => .found (pos, last)
      | _ =>
        match input[pos]? with
        | none => searchLoop fuel (pos + 1)
        | some u => if u.toNat ≥ 128 then .bailout else searchLoop fuel (pos + 1)

def dfaSearch (start : Nat) : KernelAnswer (Nat × Nat) :=
  if plan.startState < 0 ∨ start > input.length then .noMatch
  else plan.searchLoop input (input.length + 1) start

/-- The captures of a kernel: the whole match. -/
def slots (first last : Nat) : Nat → Int := Matcher.wholeMatch first last fun _ => kUnset

def tryMatchAt (pos : Nat) : Option Matcher.ExecStatus :=
  if !plan.ready then none
  else if pos > input.length ∨ plan.anchorsAtStart ∧ pos ≠ 0 ∨ plan.startState < 0 ∨
      plan.numDfaStates ≤ 0 then
    some .noMatch
  else
    match plan.dfaMatchAt input pos with
    | .bailout => none
    | .noMatch => some .noMatch
    | .found last => some (.found (slots pos last))

def trySearch (start : Nat) : Option Matcher.ExecStatus :=
  if !plan.ready then none
  else if start > input.length ∨ plan.startState < 0 ∨ plan.numDfaStates ≤ 0 then some .noMatch
  else if plan.anchorsAtStart then
    if start > 0 then some .noMatch else plan.tryMatchAt input 0
  else
    match plan.dfaSearch input start with
    | .bailout => none
    | .noMatch => some .noMatch
    | .found (first, last) => some (.found (slots first last))

end JitPlan

namespace Matcher

section Execution

variable (m : Matcher) (run : Nat → ExecStatus) (plan : Option JitPlan)

/-- `matchAt`, with the function that runs the matcher. -/
def matchAtBy (pos : Nat) : ExecStatus :=
  if pos > m.input.length then .noMatch
  else
    match plan with
    | none => run pos
    | some p =>
      match p.tryMatchAt m.input pos with
      | some (.found captures) => if p.requiresCaptureExtraction then run pos else .found captures
      | some status => status
      | none => run pos

def searchLoop : (fuel pos : Nat) → ExecStatus
  | 0, _ => .noMatch
  | fuel + 1, pos =>
    if pos > m.input.length then .noMatch
    else
      match run pos with
      | .noMatch => searchLoop fuel (advanceStringIndex m.input pos m.unicode)
      | status => status

/-- `search`, with the function that runs the matcher. -/
def searchBy (start : Nat) : ExecStatus :=
  if start > m.input.length then .noMatch
  else
    match plan with
    | none => m.searchLoop run (m.input.length + 1) start
    | some p =>
      match p.trySearch m.input start with
      | some (.found captures) =>
        if p.requiresCaptureExtraction then run (captures 0).toNat else .found captures
      | some status => status
      | none => m.searchLoop run (m.input.length + 1) start

variable (root : Node)

def matchAt (pos : Nat) : ExecStatus := m.matchAtBy (m.run root) plan pos

def search (start : Nat) : ExecStatus := m.searchBy (m.run root) plan start

variable (crash : Attempt)

/-- `matchAt` with a test before every decode. -/
def checkedMatchAt (pos : Nat) : ExecStatus := m.matchAtBy (m.checkedRun crash root) plan pos

/-- `search` with a test before every decode. -/
def checkedSearch (start : Nat) : ExecStatus := m.searchBy (m.checkedRun crash root) plan start

end Execution

end Matcher

/-- `lastIndexOf`, of the number that the value converts to. -/
def lastIndexOf : Double → Nat
  | .nan => 0
  | .infinite true => 0
  | .infinite false => 2 ^ 64 - 1
  | .finite true _ => 0
  | .finite false d => if d.value ≥ 9007199254740991 then 2 ^ 64 - 1 else ⌊d.value⌋.toNat

/-- What `rtRegExpExec` comes to. -/
inductive ExecOutcome where
  | null
  | matched (captures : Nat → Int)
  | typeError
  | rangeError (e : GiveUp)

/-- The flags that are no matcher's business, and whether the object is frozen. -/
structure Cursor where
  isGlobal : Bool
  isSticky : Bool
  frozen : Bool
  lastIndex : Double

def Cursor.tracks (r : Cursor) : Bool := r.isGlobal || r.isSticky

/-- Where the match is tried from. -/
def Cursor.startIndex (r : Cursor) : Nat := if r.tracks then lastIndexOf r.lastIndex else 0

/-- `rtRegExpExec`: what it comes to, and the `lastIndex` that is stored. -/
def rtRegExpExec (m : Matcher) (root : Node) (plan : Option JitPlan) (r : Cursor) :
    ExecOutcome × Option Int :=
  let status :=
    if r.startIndex ≤ m.input.length then
      if r.isSticky then m.matchAt plan root r.startIndex else m.search plan root r.startIndex
    else .noMatch
  match status with
  | .error e => (.rangeError e, none)
  | .noMatch =>
    if r.tracks then if r.frozen then (.typeError, none) else (.null, some 0) else (.null, none)
  | .found captures =>
    if r.tracks then
      if r.frozen then (.typeError, none) else (.matched captures, some (captures 1))
    else (.matched captures, none)

namespace Matcher

/-! ## Where a match starts and ends -/

section Starts

variable {m : Matcher} {plan : JitPlan} {first last : Nat}

theorem between_of_ascii {pos : Nat} (h : unitAt m.input pos < 128) : m.Between (pos + 1) := by
  have hlead : isLeadSurrogate (unitAt m.input pos) = false := by
    rw [isLeadSurrogate, Bool.and_eq_false_iff]
    exact .inl (decide_eq_false (by omega))
  simp [Between, insidePair, hlead]

theorem between_advance {pos : Nat} (h : pos < m.input.length) :
    m.Between (advanceStringIndex m.input pos m.unicode) := by
  have hstep : m.consume pos false =
      some ((m.characterAt pos).code, pos + (m.characterAt pos).width) := by
    simp [consume, not_le.mpr h]
  rw [advanceStringIndex, if_neg (not_le.mpr h)]
  exact (consume_forward hstep).2.2.2.1

theorem slots_wellFormed (hle : first ≤ last) (hlast : m.Inside last) :
    m.WellFormed (JitPlan.slots first last) := by
  have h0 : JitPlan.slots first last 0 = first := rfl
  have h1 : JitPlan.slots first last 1 = last := rfl
  rw [Inside] at hlast
  refine ⟨by omega, by omega, by omega, fun i => ?_⟩
  cases i with
  | zero => exact .inr (by rw [mul_zero, zero_add]; omega)
  | succ i => exact .inl ⟨rfl, rfl⟩

/-- **The best match of a kernel** ends at a unit that it read, or where it began. -/
theorem scan_inside {lo : Nat} (fuel cur : Nat) (state : Int) (best : Option Nat)
    (hcur : lo ≤ cur) (hbest : ∀ b, best = some b → lo ≤ b ∧ m.Inside b)
    (h : plan.scan m.input fuel cur state best = .found (some last)) :
    lo ≤ last ∧ m.Inside last := by
  induction fuel generalizing cur state best with
  | zero =>
    cases h
    exact hbest last rfl
  | succ fuel ih =>
    rw [JitPlan.scan] at h
    cases hunit : m.input[cur]? with
    | none =>
      rw [hunit] at h
      cases h
      exact hbest last rfl
    | some u =>
      rw [hunit] at h
      dsimp only at h
      have hlt : cur < m.input.length := (List.getElem?_eq_some_iff.mp hunit).1
      -- the match is longer where the state accepts
      have hbest' : ∀ b, (if plan.acceptTable (plan.transitionTable state u.toNat) > 0 then
          some (cur + 1) else best) = some b → lo ≤ b ∧ m.Inside b := by
        intro b hb
        split at hb
        · cases hb
          exact ⟨hcur.trans (le_succ cur), hlt⟩
        · exact hbest b hb
      by_cases hascii : u.toNat ≥ 128
      · rw [if_pos hascii] at h
        cases h
      · rw [if_neg hascii] at h
        by_cases hdead : plan.transitionTable state u.toNat < 0
        · rw [if_pos hdead] at h
          cases h
          exact hbest last rfl
        · rw [if_neg hdead] at h
          by_cases hstop : plan.acceptTable (plan.transitionTable state u.toNat) = 2
          · rw [if_pos hstop] at h
            exact hbest' last (KernelAnswer.found.inj h)
          · rw [if_neg hstop] at h
            exact ih _ _ _ (hcur.trans (le_succ cur)) hbest' h

theorem scanFrom_inside (hfirst : m.Inside first)
    (h : plan.scanFrom m.input first = .found (some last)) : first ≤ last ∧ m.Inside last := by
  have hbest : ∀ b, (if plan.acceptTable plan.startState > 0 then some first else none) = some b →
      first ≤ b ∧ m.Inside b := by
    intro b hb
    split at hb
    · cases hb
      exact ⟨le_rfl, hfirst⟩
    · cases hb
  rw [JitPlan.scanFrom] at h
  split at h
  · exact hbest last (KernelAnswer.found.inj h)
  · exact scan_inside _ _ _ _ le_rfl hbest h

/-- **A kernel finds a match** that starts where it began or behind an ASCII unit. -/
theorem searchLoop_inside (fuel pos : Nat)
    (h : plan.searchLoop m.input fuel pos = .found (first, last)) :
    (m.Between pos → m.Between first) ∧ first ≤ last ∧ m.Inside last := by
  induction fuel generalizing pos with
  | zero => cases h
  | succ fuel ih =>
    rw [JitPlan.searchLoop] at h
    by_cases hend : pos > m.input.length
    · rw [if_pos hend] at h
      cases h
    · rw [if_neg hend] at h
      have hinside : m.Inside pos := not_lt.mp hend
      -- the next position is behind an ASCII unit, or behind the input
      have hnext : (match m.input[pos]? with
          | none => plan.searchLoop m.input fuel (pos + 1)
          | some u => if u.toNat ≥ 128 then .bailout else plan.searchLoop m.input fuel (pos + 1)) =
            .found (first, last) → m.Between first ∧ first ≤ last ∧ m.Inside last := by
        intro h
        cases hunit : m.input[pos]? with
        | none =>
          rw [hunit] at h
          have hlen := List.getElem?_eq_none_iff.mp hunit
          have hbehind : m.Between (pos + 1) := by
            rw [Between, ← Bool.not_eq_true, insidePair_iff]
            omega
          exact (ih (pos + 1) h).imp_left fun hstart => hstart hbehind
        | some u =>
          rw [hunit] at h
          dsimp only at h
          split at h
          · cases h
          next hascii =>
            refine (ih (pos + 1) h).imp_left fun hstart => hstart (between_of_ascii ?_)
            rw [unitAt, hunit]
            exact not_le.mp hascii
      cases hscan : plan.scanFrom m.input pos with
      | bailout =>
        rw [hscan] at h
        cases h
      | noMatch =>
        rw [hscan] at h
        exact (hnext h).imp_left fun hstart _ => hstart
      | found best =>
        cases best with
        | none =>
          rw [hscan] at h
          exact (hnext h).imp_left fun hstart _ => hstart
        | some end' =>
          rw [hscan] at h
          cases h
          exact ⟨id, scanFrom_inside hinside hscan⟩

variable {captures : Nat → Int}

theorem tryMatchAt_wellFormed (h : plan.tryMatchAt m.input first = some (.found captures)) :
    captures 0 = first ∧ m.WellFormed captures := by
  rw [JitPlan.tryMatchAt, JitPlan.dfaMatchAt] at h
  split at h
  · cases h
  · split at h
    · cases h
    next hbounds =>
      have hfirst : m.Inside first := not_lt.mp fun hlt => hbounds (.inl hlt)
      split at h
      · cases h
      · cases h
      next last hmatch =>
        cases h
        split at hmatch
        · cases hmatch
        · split at hmatch
          · cases hmatch
          next best hscan =>
            cases hmatch
            obtain ⟨hle, hlast⟩ := scanFrom_inside hfirst hscan
            exact ⟨rfl, slots_wellFormed hle hlast⟩
          · cases hmatch

theorem trySearch_wellFormed (h : plan.trySearch m.input first = some (.found captures)) :
    (m.Between first → m.Between (captures 0).toNat) ∧ m.WellFormed captures := by
  rw [JitPlan.trySearch] at h
  split at h
  · cases h
  · split at h
    · cases h
    · split at h
      · split at h
        · cases h
        · obtain ⟨h0, hwell⟩ := tryMatchAt_wellFormed h
          rw [h0]
          exact ⟨fun _ => by simp [Between, insidePair], hwell⟩
      · split at h
        · cases h
        · cases h
        next start last hsearch =>
          cases h
          rw [JitPlan.dfaSearch] at hsearch
          split at hsearch
          · cases hsearch
          · obtain ⟨hstart, hle, hlast⟩ := searchLoop_inside _ _ hsearch
            exact ⟨hstart, slots_wellFormed hle hlast⟩

theorem WellFormed.start_inside (h : m.WellFormed captures) : m.Inside (captures 0).toNat := by
  have hle := h.start_le_end.trans h.end_le
  rw [Inside]
  omega

end Starts

section Tried

variable {m : Matcher} {run run' : Nat → ExecStatus} {plan : Option JitPlan} {pos : Nat}
  {captures : Nat → Int}

section

variable (h : ∀ first, m.Inside first → run first = run' first)

include h

/-- `matchAt` runs the matcher in the input. -/
theorem matchAtBy_congr : m.matchAtBy run plan pos = m.matchAtBy run' plan pos := by
  unfold matchAtBy
  by_cases hpos : pos > m.input.length
  · simp [hpos]
  · simp [h pos (not_lt.mp hpos)]

theorem searchLoop_congr (fuel : Nat) : m.searchLoop run fuel pos = m.searchLoop run' fuel pos := by
  induction fuel generalizing pos with
  | zero => rfl
  | succ fuel ih =>
    rw [searchLoop, searchLoop]
    by_cases hpos : pos > m.input.length
    · simp [hpos]
    · rw [if_neg hpos, if_neg hpos, h pos (not_lt.mp hpos)]
      cases run' pos with
      | noMatch => exact ih
      | found captures => rfl
      | error e => rfl

/-- `search` runs the matcher in the input. -/
theorem searchBy_congr : m.searchBy run plan pos = m.searchBy run' plan pos := by
  unfold searchBy
  by_cases hpos : pos > m.input.length
  · simp [hpos]
  · rw [if_neg hpos, if_neg hpos]
    cases plan with
    | none => exact searchLoop_congr h _
    | some p =>
      dsimp only
      cases htry : p.trySearch m.input pos with
      | none => exact searchLoop_congr h _
      | some status =>
        cases status with
        | noMatch => rfl
        | error e => rfl
        | found slots =>
          dsimp only
          rw [h _ (trySearch_wellFormed htry).2.start_inside]

end

/-- A run from a position between characters is well formed. -/
def RunsWell (m : Matcher) (run : Nat → ExecStatus) : Prop :=
  ∀ first, m.Inside first → m.Between first →
    ∀ captures, run first = .found captures → m.WellFormed captures

variable (hrun : m.RunsWell run)

include hrun

theorem matchAtBy_wellFormed (hbetween : m.Between pos)
    (h : m.matchAtBy run plan pos = .found captures) : m.WellFormed captures := by
  unfold matchAtBy at h
  split at h
  · cases h
  next hle =>
    have hinside : m.Inside pos := not_lt.mp hle
    cases plan with
    | none => exact hrun pos hinside hbetween captures h
    | some p =>
      dsimp only at h
      cases htry : p.tryMatchAt m.input pos with
      | none =>
        rw [htry] at h
        exact hrun pos hinside hbetween captures h
      | some status =>
        rw [htry] at h
        cases status with
        | noMatch => cases h
        | error e => cases h
        | found slots =>
          dsimp only at h
          split at h
          · exact hrun pos hinside hbetween captures h
          · cases h
            exact (tryMatchAt_wellFormed htry).2

/-- **The loop of `search`** goes on between characters. -/
theorem searchLoop_wellFormed (fuel : Nat) (hpos : m.Inside pos → m.Between pos)
    (h : m.searchLoop run fuel pos = .found captures) : m.WellFormed captures := by
  induction fuel generalizing pos with
  | zero => cases h
  | succ fuel ih =>
    rw [searchLoop] at h
    split at h
    · cases h
    next hle =>
      have hinside : m.Inside pos := not_lt.mp hle
      cases hhere : run pos with
      | noMatch =>
        rw [hhere] at h
        refine ih (fun hnext => ?_) h
        rcases lt_or_ge pos m.input.length with hlt | hge
        · exact between_advance hlt
        · rw [Inside, advanceStringIndex, if_pos hge] at hnext
          omega
      | error e =>
        rw [hhere] at h
        cases h
      | found slots =>
        rw [hhere] at h
        cases h
        exact hrun pos hinside (hpos hinside) captures hhere

theorem searchBy_wellFormed (hbetween : m.Between pos)
    (h : m.searchBy run plan pos = .found captures) : m.WellFormed captures := by
  unfold searchBy at h
  split at h
  · cases h
  · cases plan with
    | none => exact searchLoop_wellFormed hrun _ (fun _ => hbetween) h
    | some p =>
      dsimp only at h
      cases htry : p.trySearch m.input pos with
      | none =>
        rw [htry] at h
        exact searchLoop_wellFormed hrun _ (fun _ => hbetween) h
      | some status =>
        rw [htry] at h
        cases status with
        | noMatch => cases h
        | error e => cases h
        | found slots =>
          obtain ⟨hstart, hwell⟩ := trySearch_wellFormed htry
          dsimp only at h
          split at h
          · exact hrun _ hwell.start_inside (hstart hbetween) captures h
          · cases h
            exact hwell

end Tried

/-! ## A start inside a pair -/

/-- `.?` behind two groups. -/
def optional : Node := .repeats ⟨0, 1, true, 3, 0, true⟩ .dot

def backAcross : Node :=
  .sequence [.lookahead false (.sequence [.group 1 (.sequence [.dot])]),
    .group 2 (.sequence [optional]), .lookahead false (.sequence [.backreference 2]),
    .lookahead true (.sequence [.backreference 1])]

theorem optional_built : optional.Built := by
  refine ⟨⟨by decide, by decide, fun i => ?_, rfl⟩, trivial⟩
  simp only [Quantifier.Covers, Node.groups, List.not_mem_nil, iff_false]
  omega

theorem backAcross_built : backAcross.Built := by
  simp only [backAcross, Node.Built, TermsBuilt, and_true, true_and]
  exact optional_built

section Across

variable {m : Matcher} {pos : Nat}

section

variable (h : insidePair m.input m.unicode pos = true)

include h

theorem characters_of_inside :
    m.characterAt pos = ⟨unitAt m.input pos, 1⟩ ∧ (m.characterAt (pos - 1)).width = 2 ∧
      (m.characterAt (pos - 1)).code ≠ unitAt m.input pos := by
  obtain ⟨hunicode, hpos, hlen, hlead, htrail⟩ := insidePair_iff.mp h
  have hback : pos - 1 + 1 = pos := Nat.sub_add_cancel hpos
  have hpair : m.characterAt (pos - 1) =
      ⟨combineSurrogates (unitAt m.input (pos - 1)) (unitAt m.input pos), 2⟩ := by
    rw [characterAt, codePointAt]
    simp only [hunicode, hlead, hback, htrail]
    simp [hlen]
  have hlone : m.characterAt pos = ⟨unitAt m.input pos, 1⟩ := by
    rw [characterAt, codePointAt, not_lead_of_trail htrail]
    simp
  have hunit : unitAt m.input pos ≤ 0xDFFF := by
    rw [isTrailSurrogate, Bool.and_eq_true] at htrail
    exact of_decide_eq_true htrail.2
  have hcode : 0xDFFF < combineSurrogates (unitAt m.input (pos - 1)) (unitAt m.input pos) := by
    unfold combineSurrogates
    omega
  rw [hpair]
  exact ⟨hlone, rfl, (lt_of_le_of_lt hunit hcode).ne'⟩

theorem consume_of_inside : m.consume pos false = some (unitAt m.input pos, pos + 1) := by
  obtain ⟨-, -, hlen, -⟩ := insidePair_iff.mp h
  simp [consume, not_le.mpr hlen, (characters_of_inside h).1]

theorem dotMatches_of_inside : m.dotMatches (unitAt m.input pos) = true := by
  obtain ⟨-, -, -, -, htrail⟩ := insidePair_iff.mp h
  rw [isTrailSurrogate, Bool.and_eq_true, decide_eq_true_eq] at htrail
  simp only [dotMatches, isLineTerminator, Bool.or_eq_true, Bool.not_eq_true', Bool.or_eq_false_iff,
    beq_eq_false_iff_ne]
  omega

theorem scan_of_inside : m.scan .dot 1 false m.input.length 0 pos = (1, pos + 1) := by
  obtain ⟨-, -, hlen, -⟩ := insidePair_iff.mp h
  obtain ⟨fuel, hfuel⟩ := exists_eq_succ_of_ne_zero (ne_zero_of_lt hlen)
  have hstop : ∀ fuel, m.scan .dot 1 false fuel 1 (pos + 1) = (1, pos + 1) := by
    intro fuel
    cases fuel with
    | zero => rfl
    | succ fuel => rw [scan, if_neg (by decide)]
  rw [hfuel, scan, if_pos (.inr zero_lt_one), consume_of_inside h]
  dsimp only
  simp [singleCharMatches, dotMatches_of_inside h, hstop]

end

/-- The first group has the trail half, and the second one ends at a position. -/
def halves (pos last : Nat) : Nat → Int :=
  closeCapture 2 pos last (closeCapture 1 pos (pos + 1) fun _ => kUnset)

/-- Given back across the start, the second group has the lead half, which is compared as the pair
with itself. -/
theorem halves_second (h : insidePair m.input m.unicode pos = true) :
    m.backreferenceStep (halves pos (pos - 1)) 2 (pos - 1) false = some (pos, false) := by
  obtain ⟨-, hpos, hlen, -⟩ := insidePair_iff.mp h
  have hlow : halves pos (pos - 1) 4 = (pos - 1 : Nat) := by
    simp [halves, closeCapture, not_lt.mpr (sub_le pos 1)]
  have hhigh : halves pos (pos - 1) 5 = pos := by
    simp [halves, closeCapture, not_lt.mpr (sub_le pos 1)]
  have hlength : ((pos : Int) - (pos - 1 : Nat)).toNat = 1 := by omega
  have hback : pos - 1 + 1 = pos := Nat.sub_add_cancel hpos
  simp [backreferenceStep, hlow, hhigh, hlength, hback, comparesFrom, kUnset, hlen.le]

theorem halves_first (h : insidePair m.input m.unicode pos = true) :
    m.backreferenceStep (halves pos (pos - 1)) 1 (pos - 1) false = none := by
  obtain ⟨-, hpos, hlen, -⟩ := insidePair_iff.mp h
  obtain ⟨hlone, hwidth, hcode⟩ := characters_of_inside h
  rw [characterAt] at hlone hwidth hcode
  have hlow : halves pos (pos - 1) 2 = pos := by simp [halves, closeCapture]
  have hhigh : halves pos (pos - 1) 3 = (pos + 1 : Nat) := by simp [halves, closeCapture]
  have hback : pos - 1 + 1 = pos := Nat.sub_add_cancel hpos
  simp [backreferenceStep, hlow, hhigh, hback, comparesFrom, kUnset, hlone, hwidth, hcode.symm]
  omega

theorem halves_taken (m : Matcher) (pos : Nat) :
    m.backreferenceStep (halves pos (pos + 1)) 1 (pos + 1) false =
      m.backreferenceStep (halves pos (pos + 1)) 2 (pos + 1) false := by
  simp [backreferenceStep, halves, closeCapture]

variable (h : insidePair m.input m.unicode pos = true)

include h

/-- **The last repetition that is given back** crosses the start. -/
theorem shrink_of_inside : m.shrink false (pos + 1) = pos - 1 := by
  obtain ⟨-, -, -, -, -, -, hcross⟩ := consume_forward (consume_of_inside h)
  exact hcross fun hbetween => Bool.false_ne_true (hbetween.symm.trans h)

/-- **The match ends before it starts**: taken, the second group repeats the first, and the last two
lookaheads contradict each other. -/
theorem run_backAcross :
    ∃ captures, m.run backAcross pos = .found captures ∧ captures 0 = pos ∧
      captures 1 = (pos - 1 : Nat) := by
  have hread := consume_of_inside h
  have hdot := dotMatches_of_inside h
  have hscan := scan_of_inside h
  have hshrink := shrink_of_inside h
  have hsecond := halves_second h
  have hfirst := halves_first h
  have htaken := halves_taken m pos
  obtain ⟨n, hlevels⟩ : ∃ n, kMaxDepth = n + 9 := ⟨1991, rfl⟩
  rw [run, hlevels]
  cases hagain : m.backreferenceStep (halves pos (pos + 1)) 2 (pos + 1) false with
  | none =>
    rw [halves] at hsecond hfirst hagain
    simp [matchNode, matchNodeInner, backAcross, optional, matchSequence, runCont, tick,
      matchLookaround, kStepBudget, start, matchOneCharacter, singleCharMatches, hread, hdot,
      undoing, matchSimpleRepeat, hscan, giveBack, orElse, hshrink, matchBackreference_eq, hagain,
      hsecond, hfirst, fail, wholeMatch, reopen_close]
  | some step =>
    rw [halves] at hsecond hfirst hagain htaken
    simp [matchNode, matchNodeInner, backAcross, optional, matchSequence, runCont, tick,
      matchLookaround, kStepBudget, start, matchOneCharacter, singleCharMatches, hread, hdot,
      undoing, matchSimpleRepeat, hscan, giveBack, orElse, hshrink, matchBackreference_eq, hagain,
      hsecond, hfirst, htaken, fail, wholeMatch, reopen_close]

end Across

/-- Every match of every pattern from a position is well formed, and found without a decode out of
bounds. -/
structure Respects (m : Matcher) (pos : Nat) : Prop where
  matches_inside : ∀ root plan crash, m.checkedMatchAt plan root crash pos = m.matchAt plan root pos
  searches_inside : ∀ root plan crash, m.checkedSearch plan root crash pos = m.search plan root pos
  matched : ∀ root, root.Built → ∀ plan captures,
    m.matchAt plan root pos = .found captures → m.WellFormed captures
  searched : ∀ root, root.Built → ∀ plan captures,
    m.search plan root pos = .found captures → m.WellFormed captures
  executed : ∀ root, root.Built → ∀ plan r, r.startIndex = pos → ∀ captures last,
    rtRegExpExec m root plan r = (.matched captures, last) → m.WellFormed captures

theorem found_of_matched {m : Matcher} {root : Node} {plan : Option JitPlan} {r : Cursor}
    {captures : Nat → Int} {last : Option Int}
    (h : rtRegExpExec m root plan r = (.matched captures, last)) :
    m.matchAt plan root r.startIndex = .found captures ∨
      m.search plan root r.startIndex = .found captures := by
  unfold rtRegExpExec at h
  generalize hstatus : (if r.startIndex ≤ m.input.length then
    if r.isSticky then m.matchAt plan root r.startIndex else m.search plan root r.startIndex
    else ExecStatus.noMatch) = status at h
  cases status with
  | error e => cases h
  | noMatch =>
    dsimp only at h
    split at h
    · split at h
      · cases h
      · cases h
    · cases h
  | found slots =>
    have hslots : slots = captures := by
      dsimp only at h
      split at h
      · split at h
        · cases h
        · cases h
          rfl
      · cases h
        rfl
    rw [hslots] at hstatus
    split at hstatus
    · split at hstatus
      · exact .inl hstatus
      · exact .inr hstatus
    · cases hstatus

/-- **Matches are well formed** from a position if and only if it is not inside a surrogate pair
that the flags make one character. -/
theorem respects_iff (m : Matcher) (pos : Nat) : m.Respects pos ↔ m.Between pos := by
  constructor
  · intro h
    by_contra hinside
    rw [Between, Bool.not_eq_false] at hinside
    obtain ⟨captures, hrun, hfirst, hlast⟩ := run_backAcross hinside
    obtain ⟨-, hpos, hlen, -⟩ := insidePair_iff.mp hinside
    have hfound : m.matchAt none backAcross pos = .found captures := by
      rw [matchAt, matchAtBy, if_neg (not_lt.mpr hlen.le)]
      exact hrun
    have hle := (h.matched backAcross backAcross_built none captures hfound).start_le_end
    omega
  · intro hbetween
    have hruns : ∀ root, m.RunsWell (m.run root) := fun root first hfirst hbetween captures hrun =>
      run_wellFormed hfirst hbetween root hrun
    refine ⟨fun root plan crash => matchAtBy_congr fun _ hfirst => checkedRun_eq crash root hfirst,
      fun root plan crash => searchBy_congr fun _ hfirst => checkedRun_eq crash root hfirst,
      fun root _ plan captures h => matchAtBy_wellFormed (hruns root) hbetween h,
      fun root _ plan captures h => searchBy_wellFormed (hruns root) hbetween h,
      fun root _ plan r hstart captures last h => ?_⟩
    rcases found_of_matched h with h | h
    · exact matchAtBy_wellFormed (hruns root) (hstart ▸ hbetween) h
    · exact searchBy_wellFormed (hruns root) (hstart ▸ hbetween) h

def starAcross : Node :=
  .sequence [.repeats starQuantifier .dot, .lookahead false (.sequence [.dot])]

/-- `lastIndex` is 1, and the flag is `y`. -/
def stickyAtOne : Cursor where
  isGlobal := false
  isSticky := true
  frozen := false
  lastIndex := .finite false
    ⟨1, by simpa using Binary64.representable_natCast (n := 1) (by norm_num)⟩

theorem stickyAtOne_startIndex : stickyAtOne.startIndex = 1 := by
  rw [Cursor.startIndex]
  simp [Cursor.tracks, stickyAtOne, lastIndexOf]

/-- Sticky over a surrogate pair, from its trail half. -/
theorem starAcross_crosses : ¬(plain true [0xD83D, 0xDE00]).Respects 1 := by
  intro h
  have hmatch : ∃ captures, rtRegExpExec (plain true [0xD83D, 0xDE00]) starAcross none stickyAtOne =
      (.matched captures, some 0) ∧ captures 0 = 1 ∧ captures 1 = 0 := by
    exact ⟨_, rfl, rfl, rfl⟩
  obtain ⟨captures, hmatched, hfirst, hlast⟩ := hmatch
  have hbuilt : starAcross.Built :=
    ⟨⟨starQuantifier_built, trivial⟩, ⟨trivial, trivial⟩, trivial⟩
  have hle := (h.executed starAcross hbuilt none stickyAtOne stickyAtOne_startIndex captures _
    hmatched).start_le_end
  omega

end Matcher

end Bronze.Regex
