import Bronze.Regex.Pattern

/-!
# What a pattern means

The functional matcher of the standard, section 22.2.2, for patterns without the `i` flag: a node
compiles to a matcher, which takes a state and a continuation and answers a state or failure. The
input is its characters, and positions are indices of characters. Only `RepeatMatcher` calls itself
on no smaller part of the pattern, and it is given fuel: an answer is `none` where the fuel ran out,
and otherwise stays what it is under more fuel.

## Main results

* `compile_improves`: more fuel and better continuations keep every answer, and the continuation is
  asked only about states ahead
-/

namespace Bronze.Regex

namespace Semantics

open Nat Option

/-- A MatchState, without its input. -/
structure MatchState where
  endIndex : Nat
  captures : Nat → Option (Nat × Nat)

/-- A match result, or `none` where the fuel ran out. Inside, `none` is failure. -/
abbrev Answer := Option (Option MatchState)

abbrev MatcherContinuation := MatchState → Answer

abbrev MatcherClosure := MatchState → MatcherContinuation → Answer

def failed : Answer := some none

def success (y : MatchState) : Answer := some (some y)

/-- The first answer, or the second where the first is failure. -/
def Answer.orElse : Answer → Answer → Answer
  | some none, b => b
  | a, _ => a

/-- Whatever the first answers, the second answers too. -/
def Answer.Below (a b : Answer) : Prop := ∀ r, a = some r → b = some r

section Below

variable {a b c d : Answer}

theorem Answer.Below.refl (a : Answer) : a.Below a := fun _ h => h

theorem Answer.Below.antisymm (h : a.Below b) (h' : b.Below a) : a = b := by
  cases a with
  | some r => exact (h r rfl).symm
  | none =>
    cases b with
    | none => rfl
    | some r => exact h' r rfl

theorem Answer.none_below (a : Answer) : Answer.Below none a := nofun

theorem Answer.Below.orElse (h : a.Below c) (h' : b.Below d) : (a.orElse b).Below (c.orElse d) := by
  cases a with
  | none => exact Answer.none_below _
  | some r =>
    obtain rfl := h r rfl
    cases r with
    | none => exact h'
    | some y => exact Answer.Below.refl _

end Below

/-- One character in the direction, and the index behind it. -/
def stepOver (input : List Nat) (backward : Bool) (e : Nat) : Option (Nat × Nat) :=
  if backward then
    match e with
    | 0 => none
    | f + 1 => input[f]?.map fun ch => (ch, f)
  else input[e]?.map fun ch => (ch, e + 1)

theorem stepOver_forward (input : List Nat) (e : Nat) :
    stepOver input false e = input[e]?.map fun ch => (ch, e + 1) := rfl

theorem stepOver_backward_succ (input : List Nat) (f : Nat) :
    stepOver input true (f + 1) = input[f]?.map fun ch => (ch, f) := rfl

def characterSetMatcher (input : List Nat) (A : Nat → Bool) (invert backward : Bool) :
    MatcherClosure := fun x c =>
  match stepOver input backward x.endIndex with
  | none => failed
  | some (ch, f) => if A ch = invert then failed else c ⟨f, x.captures⟩

/-- The members of a list of ranges. -/
def memberOf (ranges : RangeList) (ch : Nat) : Bool :=
  ranges.any fun r => r.lo ≤ ch && ch ≤ r.hi

def lineTerminators : List Nat := [0x000A, 0x000D, 0x2028, 0x2029]

/-- AllCharacters, without the line terminators where the `s` flag is missing. -/
def dotSet (flags : Flags) (ch : Nat) : Bool := flags.dotAll || !lineTerminators.contains ch

def isWordChar (input : List Nat) (e : Int) : Bool :=
  0 ≤ e && (input[e.toNat]?.any (memberOf basicWords))

def assertionTest (input : List Nat) (flags : Flags) (kind : AssertionKind) (e : Nat) : Bool :=
  match kind with
  | .start => e == 0 || (flags.multiline && input[e - 1]?.any lineTerminators.contains)
  | .finish => e == input.length || (flags.multiline && input[e]?.any lineTerminators.contains)
  | .wordBoundary => isWordChar input (e - 1) != isWordChar input e
  | .notWordBoundary => isWordChar input (e - 1) == isWordChar input e

def emptyMatcher : MatcherClosure := fun x c => c x

def matchTwoAlternatives (m₁ m₂ : MatcherClosure) : MatcherClosure :=
  fun x c => (m₁ x c).orElse (m₂ x c)

def matchSequence (m₁ m₂ : MatcherClosure) (backward : Bool) : MatcherClosure := fun x c =>
  if backward then m₂ x fun y => m₁ y c else m₁ x fun y => m₂ y c

/-- The matcher of one member of a class, character by character. -/
def memberMatcher (input : List Nat) (backward : Bool) : List Nat → MatcherClosure
  | [] => emptyMatcher
  | code :: member =>
    matchSequence (characterSetMatcher input (· == code) false backward)
      (memberMatcher input backward member) backward

/-- The matcher of a CharacterClass: a set of characters, or the members in descending order of
their lengths. -/
def classMatcher (input : List Nat) (cls : CharacterClass) (backward : Bool) : MatcherClosure :=
  if cls.strings.isEmpty && !cls.matchesEmpty then
    characterSetMatcher input (memberOf cls.ranges) cls.negated backward
  else
    cls.strings.foldr (fun member m => matchTwoAlternatives (memberMatcher input backward member) m)
      (if cls.matchesEmpty then
        matchTwoAlternatives (characterSetMatcher input (memberOf cls.ranges) false backward)
          emptyMatcher
      else characterSetMatcher input (memberOf cls.ranges) false backward)

/-- The text of a range is at another place too. -/
def sameText (input : List Nat) (start first length : Nat) : Bool :=
  (List.range length).all fun i => input[start + i]? == input[first + i]?

/-- The index so many characters on, in the direction. -/
def skip (input : List Nat) (backward : Bool) (e length : Nat) : Option Nat :=
  if backward then
    if e < length then none else some (e - length)
  else if e + length > input.length then none else some (e + length)

def backreferenceMatcher (input : List Nat) (n : Nat) (backward : Bool) : MatcherClosure :=
  fun x c =>
    match x.captures n with
    | none => c x
    | some (rs, re) =>
      match skip input backward x.endIndex (re - rs) with
      | none => failed
      | some f =>
        if sameText input rs (min x.endIndex f) (re - rs) then c ⟨f, x.captures⟩ else failed

/-- The state with a capture set, by the direction it was matched in. -/
def MatchState.close (y : MatchState) (i xe : Nat) (backward : Bool) : MatchState :=
  ⟨y.endIndex, Function.update y.captures i
    (some (if backward then (y.endIndex, xe) else (xe, y.endIndex)))⟩

/-- A lookahead or a lookbehind, by the matcher of its body. -/
def lookaroundMatcher (negative : Bool) (m : MatcherClosure) : MatcherClosure := fun x c =>
  match m x success with
  | none => none
  | some none => if negative then c x else failed
  | some (some y) => if negative then failed else c ⟨x.endIndex, y.captures⟩

def MatchState.clear (x : MatchState) (groups : List Nat) : MatchState :=
  ⟨x.endIndex, fun i => if i ∈ groups then none else x.captures i⟩

/-- RepeatMatcher. A missing maximum is +∞. -/
def repeatMatcher (m : MatcherClosure) (groups : List Nat) (greedy : Bool) :
    (fuel min : Nat) → (max : Option Nat) → MatcherClosure
  | 0, _, _ => fun _ _ => none
  | fuel + 1, min, max => fun x c =>
    if max = some 0 then c x
    else
      let d : MatcherContinuation := fun y =>
        if min = 0 ∧ y.endIndex = x.endIndex then failed
        else repeatMatcher m groups greedy fuel (min - 1) (max.map (· - 1)) y c
      if min ≠ 0 then m (x.clear groups) d
      else if greedy then (m (x.clear groups) d).orElse (c x)
      else (c x).orElse (m (x.clear groups) d)

/-- The maximum of a quantifier, which is missing for +∞. -/
def bound (max : Nat) : Option Nat := if max = kUnbounded then none else some max

section Compile

variable (input : List Nat) (flags : Flags) (fuel : Nat)

mutual

/-- CompileSubpattern and CompileAtom, by the kinds of nodes. -/
def compile : Node → (backward : Bool) → MatcherClosure
  | .alternation alternatives, backward => compileDisjunction alternatives backward
  | .sequence terms, backward => compileAlternative terms backward
  | .char ch, backward => characterSetMatcher input (· == ch) false backward
  | .characterClass cls, backward => classMatcher input cls backward
  | .dot, backward => characterSetMatcher input (dotSet flags) false backward
  | .assertion kind, _ =>
    fun x c => if assertionTest input flags kind x.endIndex then c x else failed
  | .lookahead negative body, _ => lookaroundMatcher negative (compile body false)
  | .lookbehind negative body, _ => lookaroundMatcher negative (compile body true)
  | .group i body, backward =>
    if i = 0 then compile body backward
    else fun x c => compile body backward x fun y => c (y.close i x.endIndex backward)
  | .backreference n, backward => backreferenceMatcher input n backward
  | .repeats q atom, backward =>
    repeatMatcher (compile atom backward) atom.groups q.greedy fuel q.min (bound q.max)

def compileAlternative : List Node → (backward : Bool) → MatcherClosure
  | [], _ => emptyMatcher
  | term :: terms, backward =>
    matchSequence (compile term backward) (compileAlternative terms backward) backward

def compileDisjunction : List (List Node) → (backward : Bool) → MatcherClosure
  | [], _ => fun _ _ => failed
  | terms :: alternatives, backward =>
    matchTwoAlternatives (compileAlternative terms backward)
      (compileDisjunction alternatives backward)

end

end Compile

/-! ## More fuel -/

/-- A position reached from another in the direction. -/
def Ahead (backward : Bool) (e f : Nat) : Prop := if backward then f ≤ e else e ≤ f

theorem Ahead.refl (backward : Bool) (e : Nat) : Ahead backward e e := by
  cases backward <;> exact le_refl e

theorem Ahead.trans {backward : Bool} {e f g : Nat} (h : Ahead backward e f)
    (h' : Ahead backward f g) : Ahead backward e g := by
  cases backward with
  | false => exact le_trans h h'
  | true => exact le_trans h' h

/-- The second matcher answers whatever the first does, also where its continuation answers more,
and no continuation is asked about a state that is not ahead. -/
def Improves (backward : Bool) (m m' : MatcherClosure) : Prop :=
  ∀ x c c', (∀ y : MatchState, Ahead backward x.endIndex y.endIndex → (c y).Below (c' y)) →
    (m x c).Below (m' x c')

section Improves

variable {backward : Bool} {m m' m₁ m₁' m₂ m₂' : MatcherClosure}

theorem stepOver_ahead {input : List Nat} {e ch f : Nat}
    (h : stepOver input backward e = some (ch, f)) : Ahead backward e f := by
  cases backward with
  | false =>
    rw [stepOver_forward, map_eq_some_iff] at h
    obtain ⟨a, -, heq⟩ := h
    obtain rfl : e + 1 = f := congrArg Prod.snd heq
    exact le_succ e
  | true =>
    cases e with
    | zero => cases h
    | succ e =>
      rw [stepOver_backward_succ, map_eq_some_iff] at h
      obtain ⟨a, -, heq⟩ := h
      obtain rfl : e = f := congrArg Prod.snd heq
      exact le_succ e

theorem characterSetMatcher_improves (input : List Nat) (A : Nat → Bool) (invert backward : Bool) :
    Improves backward (characterSetMatcher input A invert backward)
      (characterSetMatcher input A invert backward) := by
  intro x c c' h
  rw [characterSetMatcher, characterSetMatcher]
  cases hstep : stepOver input backward x.endIndex with
  | none => exact Answer.Below.refl _
  | some step =>
    dsimp only
    split
    · exact Answer.Below.refl _
    · exact h _ (stepOver_ahead hstep)

theorem emptyMatcher_improves : Improves backward emptyMatcher emptyMatcher :=
  fun x _ _ h => h x (Ahead.refl backward _)

theorem matchTwoAlternatives_improves (h₁ : Improves backward m₁ m₁')
    (h₂ : Improves backward m₂ m₂') :
    Improves backward (matchTwoAlternatives m₁ m₂) (matchTwoAlternatives m₁' m₂') :=
  fun x c c' h => (h₁ x c c' h).orElse (h₂ x c c' h)

theorem matchSequence_improves (h₁ : Improves backward m₁ m₁') (h₂ : Improves backward m₂ m₂') :
    Improves backward (matchSequence m₁ m₂ backward) (matchSequence m₁' m₂' backward) := by
  intro x c c' h
  cases hb : backward with
  | false =>
    exact h₁ x _ _ fun y hy => h₂ y _ _ fun z hz => h z (hy.trans hz)
  | true =>
    exact h₂ x _ _ fun y hy => h₁ y _ _ fun z hz => h z (hy.trans hz)

theorem memberMatcher_improves (input : List Nat) (backward : Bool) (member : List Nat) :
    Improves backward (memberMatcher input backward member)
      (memberMatcher input backward member) := by
  induction member with
  | nil => exact emptyMatcher_improves
  | cons code member ih =>
    exact matchSequence_improves (characterSetMatcher_improves input _ _ backward) ih

theorem classMatcher_improves (input : List Nat) (cls : CharacterClass) (backward : Bool) :
    Improves backward (classMatcher input cls backward) (classMatcher input cls backward) := by
  have hset := fun invert =>
    characterSetMatcher_improves input (memberOf cls.ranges) invert backward
  rw [classMatcher]
  split
  · exact hset _
  · induction cls.strings with
    | nil =>
      split
      · exact matchTwoAlternatives_improves (hset false) emptyMatcher_improves
      · exact hset false
    | cons member strings ih =>
      exact matchTwoAlternatives_improves (memberMatcher_improves input backward member) ih

theorem skip_ahead {input : List Nat} {e length f : Nat}
    (h : skip input backward e length = some f) : Ahead backward e f := by
  rw [skip] at h
  cases backward with
  | false =>
    rw [if_neg Bool.false_ne_true] at h
    split at h
    · cases h
    · exact (some.inj h) ▸ le_add_right e length
  | true =>
    rw [if_pos rfl] at h
    split at h
    · cases h
    · exact (some.inj h) ▸ sub_le e length

theorem backreferenceMatcher_improves (input : List Nat) (n : Nat) (backward : Bool) :
    Improves backward (backreferenceMatcher input n backward)
      (backreferenceMatcher input n backward) := by
  intro x c c' h
  rw [backreferenceMatcher, backreferenceMatcher]
  cases hn : x.captures n with
  | none => exact h x (Ahead.refl backward _)
  | some range =>
    dsimp only
    cases hf : skip input backward x.endIndex (range.2 - range.1) with
    | none => exact Answer.Below.refl _
    | some f =>
      dsimp only
      split
      · exact h _ (skip_ahead hf)
      · exact Answer.Below.refl _

theorem lookaroundMatcher_improves (negative : Bool) {behind : Bool} (h : Improves behind m m') :
    Improves backward (lookaroundMatcher negative m) (lookaroundMatcher negative m') := by
  intro x c c' hc
  rw [lookaroundMatcher, lookaroundMatcher]
  cases hm : m x success with
  | none => exact Answer.none_below _
  | some r =>
    -- the body's answer is the same
    rw [h x success success (fun y _ => Answer.Below.refl _) r hm]
    cases r with
    | none =>
      cases negative with
      | false => exact Answer.Below.refl _
      | true => exact hc x (Ahead.refl backward _)
    | some y =>
      cases negative with
      | false => exact hc _ (Ahead.refl backward _)
      | true => exact Answer.Below.refl _

theorem repeatMatcher_improves (groups : List Nat) (greedy : Bool) (h : Improves backward m m')
    {fuel fuel' : Nat} (hle : fuel ≤ fuel') (min : Nat) (max : Option Nat) :
    Improves backward (repeatMatcher m groups greedy fuel min max)
      (repeatMatcher m' groups greedy fuel' min max) := by
  intro x c c' hc
  induction fuel generalizing fuel' min max x with
  | zero => exact Answer.none_below _
  | succ fuel ih =>
    obtain ⟨fuel', rfl⟩ : ∃ n, fuel' = n + 1 := exists_eq_add_one.mpr (by omega)
    have hx := hc x (Ahead.refl backward _)
    -- the turns that follow this one
    have hagain : ∀ y, Ahead backward x.endIndex y.endIndex →
        (if min = 0 ∧ y.endIndex = x.endIndex then failed
          else repeatMatcher m groups greedy fuel (min - 1) (max.map (· - 1)) y c).Below
        (if min = 0 ∧ y.endIndex = x.endIndex then failed
          else repeatMatcher m' groups greedy fuel' (min - 1) (max.map (· - 1)) y c') := by
      intro y hy
      split
      · exact Answer.Below.refl _
      · exact ih (le_of_succ_le_succ hle) _ _ y fun z hz => hc z (hy.trans hz)
    have honce := h (x.clear groups) _ _ hagain
    rw [repeatMatcher, repeatMatcher]
    split
    · exact hx
    · split
      · exact honce
      · split
        · exact honce.orElse hx
        · exact hx.orElse honce

end Improves

section Compile

variable {input : List Nat} {flags : Flags} {fuel fuel' : Nat}

mutual

/-- **More fuel keeps every answer, and a continuation is asked only about states ahead.** -/
theorem compile_improves (hle : fuel ≤ fuel') :
    (node : Node) → (backward : Bool) →
      Improves backward (compile input flags fuel node backward)
        (compile input flags fuel' node backward)
  | .alternation alternatives, backward => by
    rw [compile, compile]
    exact compileDisjunction_improves hle alternatives backward
  | .sequence terms, backward => by
    rw [compile, compile]
    exact compileAlternative_improves hle terms backward
  | .char ch, backward => by
    rw [compile, compile]
    exact characterSetMatcher_improves input _ _ backward
  | .characterClass cls, backward => by
    rw [compile, compile]
    exact classMatcher_improves input cls backward
  | .dot, backward => by
    rw [compile, compile]
    exact characterSetMatcher_improves input _ _ backward
  | .assertion kind, backward => by
    rw [compile, compile]
    intro x c c' h
    dsimp only
    split
    · exact h x (Ahead.refl backward _)
    · exact Answer.Below.refl _
  | .lookahead negative body, backward => by
    rw [compile, compile]
    exact lookaroundMatcher_improves negative (compile_improves hle body false)
  | .lookbehind negative body, backward => by
    rw [compile, compile]
    exact lookaroundMatcher_improves negative (compile_improves hle body true)
  | .group i body, backward => by
    have hbody := compile_improves hle body backward
    rw [compile, compile]
    split
    · exact hbody
    · exact fun x c c' h => hbody x _ _ fun y hy => h (y.close i x.endIndex backward) hy
  | .backreference n, backward => by
    rw [compile, compile]
    exact backreferenceMatcher_improves input n backward
  | .repeats q atom, backward => by
    rw [compile, compile]
    exact repeatMatcher_improves _ _ (compile_improves hle atom backward) hle _ _

theorem compileAlternative_improves (hle : fuel ≤ fuel') :
    (terms : List Node) → (backward : Bool) →
      Improves backward (compileAlternative input flags fuel terms backward)
        (compileAlternative input flags fuel' terms backward)
  | [], backward => by
    rw [compileAlternative, compileAlternative]
    exact emptyMatcher_improves
  | term :: terms, backward => by
    rw [compileAlternative, compileAlternative]
    exact matchSequence_improves (compile_improves hle term backward)
      (compileAlternative_improves hle terms backward)

theorem compileDisjunction_improves (hle : fuel ≤ fuel') :
    (alternatives : List (List Node)) → (backward : Bool) →
      Improves backward (compileDisjunction input flags fuel alternatives backward)
        (compileDisjunction input flags fuel' alternatives backward)
  | [], backward => by
    rw [compileDisjunction, compileDisjunction]
    exact fun _ _ _ _ => Answer.Below.refl _
  | terms :: alternatives, backward => by
    rw [compileDisjunction, compileDisjunction]
    exact matchTwoAlternatives_improves (compileAlternative_improves hle terms backward)
      (compileDisjunction_improves hle alternatives backward)

end

/-- The answer of a matcher, with enough fuel. -/
def ComesTo (input : List Nat) (flags : Flags) (node : Node) (backward : Bool) (x : MatchState)
    (r : Option MatchState) : Prop :=
  ∃ fuel, compile input flags fuel node backward x success = some r

theorem comesTo_functional {node : Node} {backward : Bool} {x : MatchState}
    {r r' : Option MatchState} (h : ComesTo input flags node backward x r)
    (h' : ComesTo input flags node backward x r') : r = r' := by
  obtain ⟨fuel, hr⟩ := h
  obtain ⟨fuel', hr'⟩ := h'
  have hmore : ∀ n ≤ max fuel fuel', (compile input flags n node backward x success).Below
      (compile input flags (max fuel fuel') node backward x success) := fun n hle =>
    compile_improves hle node backward x _ _ fun y _ => Answer.Below.refl _
  have hsame := (hmore fuel (le_max_left ..) r hr).symm.trans
    (hmore fuel' (le_max_right ..) r' hr')
  exact some.inj hsame

end Compile

end Semantics

end Bronze.Regex
