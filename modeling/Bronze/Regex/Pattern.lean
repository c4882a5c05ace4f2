import Bronze.Regex.Text

/-!
# Patterns

The tree of `src/regex/pattern.h`, with one constructor for a kind of node, the flags, and what the
case tables of `src/regex/chars.cpp` and `src/regex/unicode.cpp` answer, which are a parameter.
-/

namespace Bronze.Regex

open List

/-- `struct Range`: an inclusive range of code points. -/
structure Range where
  lo : Nat
  hi : Nat
  deriving DecidableEq

abbrev RangeList := List Range

def rangesContain : RangeList → Nat → Bool
  | [], _ => false
  | r :: list, code =>
    if code < r.lo then false
    else if code ≤ r.hi then true
    else rangesContain list code

/-- Sorted and disjoint, as `normalizeRanges` leaves a list. -/
def Normalized (list : RangeList) : Prop :=
  (∀ r ∈ list, r.lo ≤ r.hi) ∧ list.Pairwise fun r s => r.hi < s.lo

theorem rangesContain_iff {list : RangeList} (h : Normalized list) (code : Nat) :
    rangesContain list code = true ↔ ∃ r ∈ list, r.lo ≤ code ∧ code ≤ r.hi := by
  obtain ⟨hle, hsorted⟩ := h
  induction list with
  | nil => simp [rangesContain]
  | cons r list ih =>
    obtain ⟨hrle, hle⟩ := forall_mem_cons.mp hle
    obtain ⟨hr, hsorted⟩ := pairwise_cons.mp hsorted
    rw [rangesContain]
    split
    next hlt =>
      -- the ranges after it are higher
      refine ⟨nofun, ?_⟩
      rintro ⟨s, hs, hlo, -⟩
      rcases mem_cons.mp hs with rfl | hs
      · omega
      · have := hr s hs
        omega
    next hge =>
      split
      next hhi => exact ⟨fun _ => ⟨r, mem_cons_self, Nat.not_lt.mp hge, hhi⟩, fun _ => rfl⟩
      next hhi =>
        rw [ih hle hsorted]
        constructor
        · rintro ⟨s, hs, hin⟩
          exact ⟨s, mem_cons_of_mem r hs, hin⟩
        · rintro ⟨s, hs, hin⟩
          rcases mem_cons.mp hs with rfl | hs
          · exact absurd hin.2 hhi
          · exact ⟨s, hs, hin⟩

/-- `struct Flags`, as far as the matcher reads it. -/
structure Flags where
  ignoreCase : Bool
  multiline : Bool
  dotAll : Bool
  unicode : Bool
  unicodeSets : Bool

def Flags.unicodeMode (flags : Flags) : Bool := flags.unicode || flags.unicodeSets

/-- What the case tables answer: the uppercase of a unit, the simple case folding of a code point,
the characters with a given canonical form, and the word characters under the `i` flag. -/
structure CaseTables where
  uppercase : Nat → Nat
  simpleCaseFold : Nat → Nat
  caseCandidates : Nat → Bool → List Nat
  foldedWords : Bool → RangeList

def canonicalize (tables : CaseTables) (code : Nat) (ignoreCase unicode : Bool) : Nat :=
  if !ignoreCase then code
  else if unicode then tables.simpleCaseFold code
  else tables.uppercase code

/-- The basic word characters of `makeWords`. -/
def basicWords : RangeList :=
  [⟨0x30, 0x39⟩, ⟨0x41, 0x5A⟩, ⟨0x5F, 0x5F⟩, ⟨0x61, 0x7A⟩]

/-- `wordRanges`: without the `i` flag nothing is added to the basic ones. -/
def wordRanges (tables : CaseTables) (ignoreCase unicode : Bool) : RangeList :=
  if ignoreCase then tables.foldedWords unicode else basicWords

structure CharacterClass where
  ranges : RangeList
  negated : Bool
  /-- The members of two characters and more, longest first. -/
  strings : List (List Nat)
  matchesEmpty : Bool

inductive AssertionKind where
  | start
  | finish
  | wordBoundary
  | notWordBoundary
  deriving DecidableEq

def kUnbounded : Nat := 0xFFFFFFFF

/-- The fields of a `Repeat` node, besides the atom. -/
structure Quantifier where
  min : Nat
  max : Nat
  greedy : Bool
  firstCapture : Nat
  captureCount : Nat
  simpleAtom : Bool

/-- `struct Node`. The alternatives of a disjunction are sequences of terms. -/
inductive Node where
  | alternation (alternatives : List (List Node))
  | sequence (terms : List Node)
  | char (ch : Nat)
  | characterClass (c : CharacterClass)
  | dot
  | assertion (kind : AssertionKind)
  | lookahead (negative : Bool) (body : Node)
  | lookbehind (negative : Bool) (body : Node)
  | group (captureIndex : Nat) (body : Node)
  | backreference (index : Nat)
  | repeats (q : Quantifier) (atom : Node)

/-- The capture indices of a quantified atom. -/
def Quantifier.Covers (q : Quantifier) (i : Nat) : Prop :=
  q.firstCapture ≤ i ∧ i < q.firstCapture + q.captureCount

instance (q : Quantifier) (i : Nat) : Decidable (q.Covers i) := by
  unfold Quantifier.Covers
  infer_instance

/-- The atoms that `parseTerm` counts as consuming one character. -/
def Node.oneCharacter : Node → Bool
  | .char _ => true
  | .characterClass c => c.strings.isEmpty && !c.matchesEmpty
  | .dot => true
  | _ => false

mutual

def Node.groups : Node → List Nat
  | .alternation alternatives => alternativeGroups alternatives
  | .sequence terms => termGroups terms
  | .lookahead _ body => body.groups
  | .lookbehind _ body => body.groups
  | .group captureIndex body =>
    if captureIndex = 0 then body.groups else captureIndex :: body.groups
  | .repeats _ atom => atom.groups
  | _ => []

def termGroups : List Node → List Nat
  | [] => []
  | term :: terms => term.groups ++ termGroups terms

def alternativeGroups : List (List Node) → List Nat
  | [] => []
  | terms :: alternatives => termGroups terms ++ alternativeGroups alternatives

end

theorem groups_of_oneCharacter {node : Node} (h : node.oneCharacter = true) : node.groups = [] := by
  cases node with
  | char ch => rfl
  | characterClass c => rfl
  | dot => rfl
  | _ => cases h

/-- A class is normalized, and one with members of other lengths is not negated. -/
structure CharacterClass.Built (c : CharacterClass) : Prop where
  normalized : Normalized c.ranges
  positive : c.strings ≠ [] ∨ c.matchesEmpty = true → c.negated = false

/-- A quantifier as `parseTerm` makes it. -/
structure Quantifier.Built (q : Quantifier) (atom : Node) : Prop where
  min_le_max : q.min ≤ q.max
  max_le : q.max ≤ kUnbounded
  covers : ∀ i, q.Covers i ↔ i ∈ atom.groups
  simpleAtom : q.simpleAtom = (q.captureCount == 0 && atom.oneCharacter)

/-- A quantifier that is scanned is over one character and covers no capture. -/
theorem Quantifier.Built.simple {q : Quantifier} {atom : Node} (h : q.Built atom)
    (hsimple : q.simpleAtom = true) : q.captureCount = 0 ∧ atom.oneCharacter = true := by
  have hatom := h.simpleAtom.symm.trans hsimple
  rwa [Bool.and_eq_true, beq_iff_eq] at hatom

mutual

/-- A node of a tree that the parser builds. -/
def Node.Built : Node → Prop
  | .alternation alternatives => AlternativesBuilt alternatives
  | .sequence terms => TermsBuilt terms
  | .characterClass c => c.Built
  | .lookahead _ body => body.Built
  | .lookbehind _ body => body.Built
  | .group _ body => body.Built
  | .repeats q atom => q.Built atom ∧ atom.Built
  | _ => True

def TermsBuilt : List Node → Prop
  | [] => True
  | term :: terms => term.Built ∧ TermsBuilt terms

def AlternativesBuilt : List (List Node) → Prop
  | [] => True
  | terms :: alternatives => TermsBuilt terms ∧ AlternativesBuilt alternatives

end

theorem termsBuilt_iff {terms : List Node} : TermsBuilt terms ↔ ∀ term ∈ terms, term.Built := by
  induction terms with
  | nil => simp [TermsBuilt]
  | cons term terms ih => simp [TermsBuilt, ih]

end Bronze.Regex
