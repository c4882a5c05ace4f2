import Bronze.Regex.Pattern

/-!
# The matcher

`class Matcher` of `src/regex/matcher.cpp`: backtracking, with what is left to do as a chain of
continuations and the captures in one place, written and written back. The functions call each
other through `matchNode`, which counts the levels; what they call at the next level is a parameter
of theirs, and `matchNode` closes the knot over the levels that are left. What they run next on the
same level is the continuation, by its chain.

Giving up is an exception: no caller of the source does more than return after `failed_` is set.
-/

namespace Bronze.Regex

def kStepBudget : Nat := 20000000

def kMaxDepth : Nat := 2000

def isLineTerminator (u : Nat) : Bool := u == 0x000A || u == 0x000D || u == 0x2028 || u == 0x2029

inductive Cont where
  | done
  | sequence (terms : List Node) (index : Nat) (backward : Bool) (next : Cont)
  | repeats (q : Quantifier) (atom : Node) (min max mark : Nat) (backward : Bool) (next : Cont)
  | capture (captureIndex mark : Nat) (next : Cont)

def kUnset : Int := -1

/-- What the matcher writes. `astray` is no variable of the source: it records that a comparison of
a backreference began inside a surrogate pair and held. -/
structure Memory where
  captures : Nat → Int
  endPos : Nat
  steps : Nat
  astray : Bool

/-- What `giveUp` is given a message for. -/
inductive GiveUp where
  | budget
  | depth
  deriving DecidableEq

/-- A function of the matcher that answers whether the rest of the match was found. -/
abbrev Attempt := Memory → Except GiveUp (Bool × Memory)

namespace Attempt

def fail : Attempt := fun σ => .ok (false, σ)

/-- `if (a) return true; if (failed_) return false; return b;` -/
def orElse (a b : Attempt) : Attempt := fun σ =>
  match a σ with
  | .ok (false, σ) => b σ
  | r => r

def giveUp (e : GiveUp) : Attempt := fun _ => .error e

/-- The captures written, the attempt made, and the captures written again where it fails. -/
def undoing (write restore : (Nat → Int) → Nat → Int) (a : Attempt) : Attempt := fun σ =>
  match a { σ with captures := write σ.captures } with
  | .ok (false, σ) => .ok (false, { σ with captures := restore σ.captures })
  | r => r

def tick (a : Attempt) : Attempt := fun σ =>
  if σ.steps + 1 > kStepBudget then .error .budget else a { σ with steps := σ.steps + 1 }

end Attempt

open Attempt

/-- `matchNode`, at the level below. -/
abbrev Descend := Node → Nat → Cont → Bool → Attempt

/-- `class Matcher`, what it reads. -/
structure Matcher where
  tables : CaseTables
  flags : Flags
  input : List UInt16

namespace Matcher

variable (m : Matcher)

def unicode : Bool := m.flags.unicodeMode

def canonical (code : Nat) : Nat := canonicalize m.tables code m.flags.ignoreCase m.unicode

def charMatches (patternCode inputCode : Nat) : Bool := m.canonical inputCode == patternCode

def classMatches (node : CharacterClass) (inputCode : Nat) : Bool :=
  let found := rangesContain node.ranges inputCode ||
    (m.flags.ignoreCase &&
      (rangesContain node.ranges (m.canonical inputCode) ||
        (m.tables.caseCandidates (m.canonical inputCode) m.unicode).any
          (rangesContain node.ranges)))
  if node.negated then !found else found

def dotMatches (inputCode : Nat) : Bool := m.flags.dotAll || !isLineTerminator inputCode

def singleCharMatches (node : Node) (inputCode : Nat) : Bool :=
  match node with
  | .char ch => m.charMatches ch inputCode
  | .characterClass c => m.classMatches c inputCode
  | .dot => m.dotMatches inputCode
  | _ => false

def characterAt (pos : Nat) : CodePointStep := codePointAt m.input pos m.unicode

def characterBefore (pos : Nat) : CodePointStep := codePointBefore m.input pos m.unicode

def isWordAt (pos : Int) : Bool :=
  0 ≤ pos && pos < m.input.length &&
    rangesContain (wordRanges m.tables m.flags.ignoreCase m.unicode) (unitAt m.input pos.toNat)

def assertionHolds (kind : AssertionKind) (pos : Nat) : Bool :=
  match kind with
  | .start => pos == 0 || (m.flags.multiline && isLineTerminator (unitAt m.input (pos - 1)))
  | .finish =>
    pos == m.input.length || (m.flags.multiline && isLineTerminator (unitAt m.input pos))
  | .wordBoundary => m.isWordAt (pos - 1) != m.isWordAt pos
  | .notWordBoundary => m.isWordAt (pos - 1) == m.isWordAt pos

/-- The character an atom consumes, on the side of `pos` the direction picks: its code, and where
the match resumes. -/
def consume (pos : Nat) (backward : Bool) : Option (Nat × Nat) :=
  if backward then
    if pos = 0 then none
    else
      let step := m.characterBefore pos
      some (step.code, pos - step.width)
  else if pos ≥ m.input.length then none
  else
    let step := m.characterAt pos
    some (step.code, pos + step.width)

def matchOneCharacter (rest : Nat → Attempt) (node : Node) (pos : Nat) (backward : Bool) :
    Attempt :=
  match m.consume pos backward with
  | none => fail
  | some (code, at') => if m.singleCharMatches node code then rest at' else fail

/-- The loop over one member of `matchClassSet`, which reads it from its end backward. -/
def consumeMember (backward : Bool) : List Nat → Nat → Option Nat
  | [], at' => some at'
  | code :: member, at' =>
    match m.consume at' backward with
    | none => none
    | some (found, next) => if found ≠ code then none else consumeMember backward member next

/-- The loop of `matchClassSet` over the members of two characters and more. -/
def matchStrings (rest : Nat → Attempt) (pos : Nat) (backward : Bool) : List (List Nat) → Attempt
  | [] => fail
  | member :: strings =>
    match m.consumeMember backward (if backward then member.reverse else member) pos with
    | none => matchStrings rest pos backward strings
    | some at' => orElse (rest at') (matchStrings rest pos backward strings)

def matchClassSet (rest : Nat → Attempt) (c : CharacterClass) (pos : Nat) (backward : Bool) :
    Attempt :=
  orElse (m.matchStrings rest pos backward c.strings)
    (orElse
      (if c.ranges.isEmpty then fail else m.matchOneCharacter rest (.characterClass c) pos backward)
      (if c.matchesEmpty then rest pos else fail))

/-- A slot of a capture inside the quantified atom. -/
def inRepeat (q : Quantifier) (slot : Nat) : Bool :=
  2 * q.firstCapture ≤ slot && slot < 2 * (q.firstCapture + q.captureCount)

def clearRepeatCaptures (q : Quantifier) (captures : Nat → Int) (slot : Nat) : Int :=
  if inRepeat q slot then kUnset else captures slot

def restoreRepeatCaptures (q : Quantifier) (saved captures : Nat → Int) (slot : Nat) : Int :=
  if inRepeat q slot then saved slot else captures slot

/-- The scan of `matchSimpleRepeat`: how many characters match, and where they end. There are no
more of them than units. -/
def scan (atom : Node) (max : Nat) (backward : Bool) : (fuel count pos : Nat) → Nat × Nat
  | 0, count, pos => (count, pos)
  | fuel + 1, count, pos =>
    if max = kUnbounded ∨ count < max then
      match m.consume pos backward with
      | none => (count, pos)
      | some (code, next) =>
        if m.singleCharMatches atom code then scan atom max backward fuel (count + 1) next
        else (count, pos)
    else (count, pos)

/-- One repetition given back. -/
def shrink (backward : Bool) (cur : Nat) : Nat :=
  if backward then cur + (m.characterAt cur).width else cur - (m.characterBefore cur).width

def grow (backward : Bool) (cur : Nat) : Nat :=
  if backward then cur - (m.characterBefore cur).width else cur + (m.characterAt cur).width

/-- The loop of a greedy quantifier, from `n` repetitions down to `min`. -/
def giveBack (rest : Nat → Attempt) (min : Nat) (backward : Bool) : (n cur : Nat) → Attempt
  | 0, cur => rest cur
  | n + 1, cur =>
    orElse (rest cur)
      (if n + 1 = min then fail else giveBack rest min backward n (m.shrink backward cur))

/-- The loop of a lazy quantifier, with `left` repetitions to go. -/
def takeMore (rest : Nat → Attempt) (backward : Bool) : (left cur : Nat) → Attempt
  | 0, cur => rest cur
  | left + 1, cur => orElse (rest cur) (takeMore rest backward left (m.grow backward cur))

def matchSimpleRepeat (rest : Nat → Attempt) (q : Quantifier) (atom : Node) (pos : Nat)
    (backward : Bool) : Attempt :=
  let (count, last) := m.scan atom q.max backward m.input.length 0 pos
  if count < q.min then fail
  else if q.greedy then m.giveBack rest q.min backward count last
  else m.takeMore rest backward (count - q.min) ((m.grow backward)^[q.min] pos)

def matchRepeat (self : Descend) (rest : Nat → Attempt) (q : Quantifier) (atom : Node)
    (min max pos : Nat) (k : Cont) (backward : Bool) : Attempt :=
  if max = 0 then rest pos
  else fun σ =>
    let once := undoing (clearRepeatCaptures q) (restoreRepeatCaptures q σ.captures)
      (self atom pos (.repeats q atom min max pos backward k) backward)
    if min ≠ 0 then once σ
    else if !q.greedy then orElse (rest pos) once σ
    else orElse once (rest pos) σ

/-- One more turn of the loop, against the captures `matchRepeat` saved. -/
def turn (self : Descend) (q : Quantifier) (atom : Node) (min max pos : Nat) (k : Cont)
    (backward : Bool) (saved : Nat → Int) : Attempt :=
  undoing (clearRepeatCaptures q) (restoreRepeatCaptures q saved)
    (self atom pos (.repeats q atom min max pos backward k) backward)

/-- The turn and the way out of the loop, in the order of the quantifier. -/
def turnOrLeave (self : Descend) (rest : Nat → Attempt) (q : Quantifier) (atom : Node)
    (min max pos : Nat) (k : Cont) (backward : Bool) (saved : Nat → Int) : Attempt :=
  if min ≠ 0 then turn self q atom min max pos k backward saved
  else if q.greedy then orElse (turn self q atom min max pos k backward saved) (rest pos)
  else orElse (rest pos) (turn self q atom min max pos k backward saved)

theorem matchRepeat_eq (self : Descend) (rest : Nat → Attempt) (q : Quantifier) (atom : Node)
    (min : Nat) {max : Nat} (hmax : max ≠ 0) (pos : Nat) (k : Cont) (backward : Bool) :
    matchRepeat self rest q atom min max pos k backward =
      fun σ => turnOrLeave self rest q atom min max pos k backward σ.captures σ := by
  funext σ
  rw [matchRepeat, if_neg hmax, turnOrLeave]
  cases q.greedy with
  | false =>
    split <;> rfl
  | true =>
    split <;> rfl

def matchSequence (self : Descend) (rest : Nat → Attempt) (terms : List Node) (index pos : Nat)
    (k : Cont) (backward : Bool) : Attempt :=
  if index = terms.length then rest pos
  else
    match terms[if backward then terms.length - 1 - index else index]? with
    | none => fail
    | some term => self term pos (.sequence terms (index + 1) backward k) backward

/-- The range of a group that was entered at `mark` and left at `pos`. -/
def closeCapture (captureIndex mark pos : Nat) (captures : Nat → Int) (slot : Nat) : Int :=
  if slot = 2 * captureIndex then ((if mark < pos then mark else pos : Nat) : Int)
  else if slot = 2 * captureIndex + 1 then ((if mark < pos then pos else mark : Nat) : Int)
  else captures slot

/-- The two slots of a capture as they were. -/
def reopenCapture (captureIndex : Nat) (old captures : Nat → Int) (slot : Nat) : Int :=
  if slot = 2 * captureIndex ∨ slot = 2 * captureIndex + 1 then old slot else captures slot

def runCont (self : Descend) : Cont → Nat → Attempt
  | .done, pos => tick fun σ => .ok (true, { σ with endPos := pos })
  | .sequence terms index backward next, pos =>
    tick (matchSequence self (runCont self next) terms index pos next backward)
  | .repeats q atom min max mark backward next, pos =>
    -- A turn that consumed nothing ends the loop.
    tick (if min = 0 ∧ pos = mark then fail
      else matchRepeat self (runCont self next) q atom (min - 1)
        (if max = kUnbounded then kUnbounded else max - 1) pos next backward)
  | .capture captureIndex mark next, pos => tick fun σ =>
    undoing (closeCapture captureIndex mark pos) (reopenCapture captureIndex σ.captures)
      (runCont self next pos) σ

/-- The loop of `matchBackreference`. A step is of one unit at least. -/
def comparesFrom (start first length : Nat) : (fuel i : Nat) → Bool
  | 0, _ => true
  | fuel + 1, i =>
    if i < length then
      let a := codePointAt m.input (start + i) m.unicode
      let b := codePointAt m.input (first + i) m.unicode
      if a.code ≠ b.code ∧ (a.width ≠ b.width ∨ m.flags.ignoreCase = false ∨
          m.canonical a.code ≠ m.canonical b.code ∧
            m.tables.simpleCaseFold a.code ≠ m.tables.simpleCaseFold b.code) then
        false
      else comparesFrom start first length fuel (i + a.width)
    else true

def matchBackreference (rest : Nat → Attempt) (index pos : Nat) (backward : Bool) : Attempt :=
  fun σ =>
    let start := σ.captures (2 * index)
    let finish := σ.captures (2 * index + 1)
    if start = kUnset ∨ finish = kUnset then rest pos σ
    else
      let length := (finish - start).toNat
      if (if backward then pos < length else pos + length > m.input.length) then fail σ
      else
        let first := if backward then pos - length else pos
        if m.comparesFrom start.toNat first length length 0 then
          rest (if backward then pos - length else pos + length)
            { σ with astray := σ.astray || (backward && insidePair m.input m.unicode first) }
        else fail σ

/-- Where a backreference resumes, if its comparison holds, and whether it went astray. -/
def backreferenceStep (captures : Nat → Int) (index pos : Nat) (backward : Bool) :
    Option (Nat × Bool) :=
  let start := captures (2 * index)
  let finish := captures (2 * index + 1)
  if start = kUnset ∨ finish = kUnset then some (pos, false)
  else
    let length := (finish - start).toNat
    if (if backward then pos < length else pos + length > m.input.length) then none
    else
      let first := if backward then pos - length else pos
      if m.comparesFrom start.toNat first length length 0 then
        some (if backward then pos - length else pos + length,
          backward && insidePair m.input m.unicode first)
      else none

theorem matchBackreference_eq (rest : Nat → Attempt) (index pos : Nat) (backward : Bool)
    (σ : Memory) :
    m.matchBackreference rest index pos backward σ =
      match m.backreferenceStep σ.captures index pos backward with
      | none => fail σ
      | some (at', strays) => rest at' { σ with astray := σ.astray || strays } := by
  have hsame : { σ with astray := σ.astray || false } = σ := by simp
  simp only [matchBackreference, backreferenceStep]
  by_cases hunset : σ.captures (2 * index) = kUnset ∨ σ.captures (2 * index + 1) = kUnset
  · rw [if_pos hunset, if_pos hunset]
    exact congrArg (rest pos) hsame.symm
  · rw [if_neg hunset]
    cases backward with
    | false =>
      simp only [Bool.false_eq_true, if_false]
      split
      · rfl
      · split <;> rfl
    | true =>
      simp only [if_true]
      split
      · rfl
      · split <;> rfl

def matchLookaround (self : Descend) (rest : Nat → Attempt) (negative behind : Bool) (body : Node)
    (pos : Nat) : Attempt := fun σ =>
  match self body pos .done behind σ with
  | .error e => .error e
  | .ok (inner, σ') =>
    let σ' := { σ' with endPos := σ.endPos }
    if negative then
      let σ' := { σ' with captures := σ.captures }
      if inner then fail σ' else rest pos σ'
    else if !inner then fail { σ' with captures := σ.captures }
    else undoing id (fun _ => σ.captures) (rest pos) σ'

/-- The alternatives, left to right. -/
def matchAlternatives (self : Descend) (rest : Nat → Attempt) (pos : Nat) (k : Cont)
    (backward : Bool) : List (List Node) → Attempt
  | [] => fail
  | terms :: alternatives =>
    orElse (matchSequence self rest terms 0 pos k backward)
      (matchAlternatives self rest pos k backward alternatives)

def matchNodeInner (self : Descend) (node : Node) (pos : Nat) (k : Cont) (backward : Bool) :
    Attempt :=
  let rest := runCont self k
  match node with
  | .alternation alternatives => matchAlternatives self rest pos k backward alternatives
  | .sequence terms => matchSequence self rest terms 0 pos k backward
  | .characterClass c =>
    if !c.strings.isEmpty || c.matchesEmpty then m.matchClassSet rest c pos backward
    else m.matchOneCharacter rest node pos backward
  | .char _ | .dot => m.matchOneCharacter rest node pos backward
  | .assertion kind => if !m.assertionHolds kind pos then fail else rest pos
  | .lookahead negative body => matchLookaround self rest negative false body pos
  | .lookbehind negative body => matchLookaround self rest negative true body pos
  | .group captureIndex body =>
    if captureIndex = 0 then self body pos k backward
    else self body pos (.capture captureIndex pos k) backward
  | .backreference index => m.matchBackreference rest index pos backward
  | .repeats q atom =>
    if q.simpleAtom then m.matchSimpleRepeat rest q atom pos backward
    else matchRepeat self rest q atom q.min q.max pos k backward

/-- `matchNode`, with so many levels left of `kMaxDepth`. -/
def matchNode : (levels : Nat) → Descend
  | 0 => fun _ _ _ _ => giveUp .depth
  | levels + 1 => m.matchNodeInner (matchNode levels)

/-- `enum class ExecStatus`, with what comes with each. -/
inductive ExecStatus where
  | noMatch
  | found (captures : Nat → Int)
  | error (e : GiveUp)

/-- The memory a run begins with. -/
def start : Memory where
  captures := fun _ => kUnset
  endPos := 0
  steps := 0
  astray := false

/-- The whole match, in the slots of capture 0. -/
def wholeMatch (first last : Nat) (captures : Nat → Int) (slot : Nat) : Int :=
  if slot = 0 then first else if slot = 1 then last else captures slot

def run (root : Node) (first : Nat) : ExecStatus :=
  match m.matchNode kMaxDepth root first .done false start with
  | .error e => .error e
  | .ok (false, _) => .noMatch
  | .ok (true, σ) => .found (wholeMatch first σ.endPos σ.captures)

end Matcher

end Bronze.Regex
