import Bronze.Regex.Canonicalize
import Bronze.Regex.Escape

/-!
# The parser of a class

Everything between the brackets: `src/regex/parser_class.cpp`. A function reads the units that are
left and leaves the ones behind what it read. A loop has as many turns as there are units; the class
in a class is read by a parameter, which is the same reader one level deeper.
-/

namespace Bronze.Regex

def isClassSetSyntaxCharacter (c : UInt16) : Bool := isOneOf "()[]\x7b\x7d/-\\|" c

def isClassSetDoubledPunctuator (c : UInt16) : Bool := isOneOf "&!#$%*+,.:;<=>?@^\x60~" c

namespace PatternParser

variable (p : PatternParser)

/-- The four hexadecimal digits of a unit. -/
def hexOf (unit : Nat) : String :=
  String.ofList ([12, 8, 4, 0].map fun shift =>
    ("0123456789ABCDEF".toList[unit >>> shift % 16]?).getD '0')

def caseTableFailure {α : Type} (s : Units) (unit : Nat) : Except String α :=
  p.refuse s ("unsupported: case-insensitive matching of U+" ++ hexOf unit ++ " without the `u` " ++
    "flag (only ASCII, Latin-1, Latin Extended-A, Greek, Cyrillic and Armenian fold under `i` " ++
    "alone; adding `u` switches 22.2.2.9 to simple case folding, which bronze carries in full)")

/-- The test for a unit without an uppercase table, of all the units of a range. -/
def checkCased (s : Units) (lo hi : Nat) : Except String Unit :=
  if p.flags.ignoreCase && !p.flags.unicodeMode then
    match firstUnknownCasedUnitInRange lo hi with
    | some offender => p.caseTableFailure s offender
    | none => .ok ()
  else .ok ()

def readClassAtom (s : Units) : Except String (EscapeValue × Units) :=
  match s with
  | [] => p.refuse [] "`]` was expected to close a character class"
  | c :: s =>
    if c = ch '\\' then
      match s with
      | [] => p.refuse [] "a trailing `\\` with nothing to escape"
      | c :: s => p.readEscapeValue true c s
    else
      let (code, s) := p.readSourceCharacter (c :: s)
      .ok (.character code, s)

/-- The rest of a turn of `parseCharacterClass` behind a character: the range it begins or
itself. -/
def readClassRange (lo : Nat) (s : Units) : Except String (RangeList × Units) :=
  if peek s 0 = ch '-' ∧ 1 < s.length ∧ peek s 1 ≠ ch ']' then do
    let (rhs, s) ← p.readClassAtom s.tail
    match rhs with
    | .set _ => p.refuse s "a character class escape cannot be the end of a range"
    | .character hi =>
      if lo > hi then p.refuse s "a character class range whose start is after its end"
      else do
        p.checkCased s lo hi
        .ok (addRange [] lo hi, s)
  else do
    p.checkCased s lo lo
    .ok (addRange [] lo lo, s)

/-- The loop of `parseCharacterClass`. -/
def readClassRanges : (fuel : Nat) → RangeList → Units → Except String (RangeList × Units)
  | 0, ranges, s => .ok (ranges, s)
  | fuel + 1, ranges, s =>
    if s = [] ∨ peek s 0 = ch ']' then .ok (ranges, s)
    else do
      let (lhs, s) ← p.readClassAtom s
      match lhs with
      | .set set => readClassRanges fuel (ranges ++ set) s
      | .character lo =>
        let (member, s) ← p.readClassRange lo s
        readClassRanges fuel (ranges ++ member) s

structure ClassSetValue where
  ranges : RangeList
  strings : List (List Nat)
  empty : Bool
  mayContainStrings : Bool

def ofRanges (ranges : RangeList) : ClassSetValue := ⟨ranges, [], false, false⟩

def addString (list : List (List Nat)) (s : List Nat) : List (List Nat) :=
  if s ∈ list then list else list ++ [s]

/-- The comparison of `sortLongestFirst`. -/
def comesFirst (a b : List Nat) : Bool :=
  if a.length ≠ b.length then a.length > b.length else a < b

/-- `sortLongestFirst`, of strings that differ. -/
def sortLongestFirst (list : List (List Nat)) : List (List Nat) :=
  list.mergeSort fun a b => !comesFirst b a

def readClassSetCharacter (s : Units) : Except String (Nat × Units) :=
  match s with
  | [] => p.refuse [] "`]` was expected to close a character class"
  | c :: s =>
    if isClassSetSyntaxCharacter c then
      p.refuse (c :: s) ("`" ++ textOf (asciiOf [c]) ++ "` must be escaped inside a `v`-mode " ++
        "character class (22.2.1 reserves `( ) [ ] \x7b \x7d / - \\ |` there, so that a set " ++
        "operator spelled with one cannot be read as the character)")
    else if isClassSetDoubledPunctuator c ∧ peek s 0 = c then
      let text := textOf (asciiOf [c])
      p.refuse (c :: s) ("`" ++ text ++ text ++ "` is a reserved double punctuator inside a " ++
        "`v`-mode character class (22.2.1 holds every doubled punctuator for a set operator; " ++
        "write `\\" ++ text ++ "\\" ++ text ++ "` for the two characters)")
    else .ok (p.readSourceCharacter (c :: s))

/-- One character of an alternative of `\q`, or of the end of a range: escaped or not. A set is
refused with the words of the caller. -/
def readCharacterOf (what : String) (s : Units) : Except String (Nat × Units) :=
  match s with
  | [] => p.readClassSetCharacter []
  | c :: s =>
    if c = ch '\\' then
      match s with
      | [] => p.refuse [] "a trailing `\\` with nothing to escape"
      | c :: s => do
        let (value, s) ← p.readEscapeValue true c s
        match value with
        | .set _ => p.refuse s what
        | .character code => .ok (code, s)
    else p.readClassSetCharacter (c :: s)

/-- The loop over one alternative of `readClassStringDisjunction`. -/
def readAlternativeOf : (fuel : Nat) → List Nat → Units → Except String (List Nat × Units)
  | 0, alternative, s => .ok (alternative, s)
  | fuel + 1, alternative, s =>
    if s = [] ∨ peek s 0 = ch '|' ∨ peek s 0 = ch '\x7d' then .ok (alternative, s)
    else do
      let (code, s) ← p.readCharacterOf ("a character class escape cannot appear inside " ++
        "`\\q\x7b...\x7d` (22.2.1's ClassString is a run of single characters)") s
      readAlternativeOf fuel (alternative ++ [code]) s

/-- A member added: one character is a range. -/
def ClassSetValue.addAlternative (out : ClassSetValue) (alternative : List Nat) : ClassSetValue :=
  match alternative with
  | [code] => { out with ranges := addRange out.ranges code code }
  | [] => { out with mayContainStrings := true, empty := true }
  | _ => { out with mayContainStrings := true, strings := addString out.strings alternative }

/-- The loop over the alternatives of `readClassStringDisjunction`. -/
def readAlternatives : (fuel : Nat) → ClassSetValue → Units → Except String (ClassSetValue × Units)
  | 0, _, s => p.refuse s "`\x7d` was expected to close `\\q\x7b...\x7d`"
  | fuel + 1, out, s => do
    let (alternative, s) ← p.readAlternativeOf s.length [] s
    match eat '|' s, eat '\x7d' s with
    | some s, _ => readAlternatives fuel (out.addAlternative alternative) s
    | none, some s => .ok (out.addAlternative alternative, s)
    | none, none => p.refuse s "`\x7d` was expected to close `\\q\x7b...\x7d`"

/-- `readClassStringDisjunction`, behind `\q`. -/
def readClassStringDisjunction (s : Units) : Except String (ClassSetValue × Units) :=
  match eat '\x7b' s with
  | none => p.refuse s ("`\x7b` was expected after `\\q` (22.2.1's ClassStringDisjunction is " ++
      "`\\q\x7b...\x7d`)")
  | some s => do
    let (out, s) ← p.readAlternatives (s.length + 1) (ofRanges []) s
    if p.flags.ignoreCase ∧ out.strings ≠ [] then
      p.refuse s ("unsupported: `\\q\x7b...\x7d` with a member longer than one character, under " ++
        "the `i` flag (22.2.2.9 folds each element of each member, and bronze canonicalizes " ++
        "characters only)")
    else .ok ({ out with ranges := normalizeRanges out.ranges }, s)

/-! ## ClassSetExpression -/

/-- The reader of a class one level deeper. -/
abbrev Nested := Units → Except String (ClassSetValue × Units)

variable (self : Nested)

/-- `readClassSetOperand`, with the code where the operand is one character. -/
def readClassSetOperand (s : Units) : Except String ((ClassSetValue × Option Nat) × Units) :=
  match s with
  | [] => p.refuse [] "`]` was expected to close a character class"
  | c :: s =>
    if c = ch '[' then do
      let (value, s) ← self s
      .ok ((value, none), s)
    else if c = ch '\\' then
      match s with
      | [] => p.refuse [] "a trailing `\\` with nothing to escape"
      | c :: s =>
        if c = ch 'q' then do
          let (value, s) ← p.readClassStringDisjunction s
          .ok ((value, none), s)
        else do
          let (value, s) ← p.readEscapeValue true c s
          match value with
          | .set ranges => .ok ((ofRanges ranges, none), s)
          | .character code => .ok ((ofRanges (addRange [] code code), some code), s)
    else do
      let (code, s) ← p.readClassSetCharacter (c :: s)
      .ok ((ofRanges (addRange [] code code), some code), s)

/-- One step of the loop over `&&`. -/
def intersectValues (acc rhs : ClassSetValue) : ClassSetValue where
  ranges := intersectRanges (p.foldedForOperation acc.ranges) (p.foldedForOperation rhs.ranges)
  strings := acc.strings.filter fun s => decide (s ∈ rhs.strings)
  empty := acc.empty && rhs.empty
  mayContainStrings := acc.mayContainStrings && rhs.mayContainStrings

/-- One step of the loop over `--`. -/
def subtractValues (acc rhs : ClassSetValue) : ClassSetValue where
  ranges := subtractRanges (p.foldedForOperation acc.ranges) (p.foldedForOperation rhs.ranges)
  strings := acc.strings.filter fun s => !decide (s ∈ rhs.strings)
  empty := acc.empty && !rhs.empty
  mayContainStrings := acc.mayContainStrings

/-- A loop over an operator that is written twice. -/
def readOperator (operator : Char) (combine : ClassSetValue → ClassSetValue → ClassSetValue) :
    (fuel : Nat) → ClassSetValue → Units → Except String (ClassSetValue × Units)
  | 0, acc, s => .ok (acc, s)
  | fuel + 1, acc, s =>
    match eatTwo operator s with
    | none => .ok (acc, s)
    | some s => do
      let ((rhs, _), s) ← p.readClassSetOperand self s
      readOperator operator combine fuel (combine acc rhs) s

/-- A union with one more operand. -/
def uniteValues (out pending : ClassSetValue) : ClassSetValue where
  ranges := out.ranges ++ pending.ranges
  strings := pending.strings.foldl addString out.strings
  empty := out.empty || pending.empty
  mayContainStrings := out.mayContainStrings || pending.mayContainStrings

/-- The body of the loop of `readClassSetUnion`: a range or an operand. -/
def readUnionItem (out pending : ClassSetValue) (code : Option Nat) (s : Units) :
    Except String (ClassSetValue × Units) :=
  match code with
  | some lo =>
    if peek s 0 = ch '-' ∧ peek s 1 ≠ ch '-' ∧ peek s 1 ≠ ch ']' then do
      let (hi, s) ← p.readCharacterOf "a character class escape cannot be the end of a range" s.tail
      if lo > hi then p.refuse s "a character class range whose start is after its end"
      else .ok ({ out with ranges := addRange out.ranges lo hi }, s)
    else .ok (uniteValues out pending, s)
  | none => .ok (uniteValues out pending, s)

/-- The loop of `readClassSetUnion`. -/
def readUnionFrom : (fuel : Nat) → (out pending : ClassSetValue) → Option Nat → Units →
    Except String (ClassSetValue × Units)
  | fuel, out, pending, code, s => do
    let (out, s) ← p.readUnionItem out pending code s
    if s = [] ∨ peek s 0 = ch ']' then .ok (out, s)
    else
      match fuel with
      | 0 => .ok (out, s)
      | fuel + 1 => do
        let ((pending, code), s) ← p.readClassSetOperand self s
        readUnionFrom fuel out pending code s

def readClassSetUnion (first : ClassSetValue) (code : Option Nat) (s : Units) :
    Except String (ClassSetValue × Units) := do
  let (out, s) ← p.readUnionFrom self s.length (ofRanges []) first code s
  .ok ({ out with ranges := normalizeRanges out.ranges }, s)

/-- The refusal of two operators in one class. -/
def refuseMixed {α : Type} (s : Units) : Except String α :=
  p.refuse s ("`--` and `&&` cannot be mixed in one `v`-mode character class (22.2.1 gives them " ++
    "separate productions and no precedence; write the inner operation as a nested class)")

def readClassSetExpression (s : Units) : Except String (ClassSetValue × Units) :=
  if peek s 0 = ch ']' then .ok (ofRanges [], s)
  else do
    let ((first, code), s) ← p.readClassSetOperand self s
    if peek s 0 = ch '&' ∧ peek s 1 = ch '&' then do
      let (acc, s) ← p.readOperator self '&' p.intersectValues s.length first s
      if peek s 0 = ch '-' ∧ peek s 1 = ch '-' then p.refuseMixed s else .ok (acc, s)
    else if peek s 0 = ch '-' ∧ peek s 1 = ch '-' then do
      let (acc, s) ← p.readOperator self '-' p.subtractValues s.length first s
      if peek s 0 = ch '&' ∧ peek s 1 = ch '&' then p.refuseMixed s else .ok (acc, s)
    else p.readClassSetUnion self first code s

/-- The end of `readNestedClass`: the complement, where the class is negated. -/
def closeClass (negated : Bool) (set : ClassSetValue) : ClassSetValue where
  ranges := normalizeRanges (if negated then p.complementInMode set.ranges else set.ranges)
  strings := set.strings
  empty := set.empty
  mayContainStrings := if negated then false else set.mayContainStrings

/-- `readNestedClass`, behind the bracket. -/
def readNestedClass : (levels : Nat) → Nested
  | 0, s => p.refuse (ch '[' :: s) "regular expression is nested too deeply"
  | levels + 1, s => do
    let (set, s') ← p.readClassSetExpression (readNestedClass levels) ((eat '^' s).getD s)
    match eat ']' s' with
    | none => p.refuse s' "`]` was expected to close a character class"
    | some s' =>
      if (eat '^' s).isSome ∧ set.mayContainStrings then
        p.refuse s' ("a negated `v`-mode character class cannot contain a set of strings " ++
          "(22.2.1 makes `[^...\\q\x7b...\x7d...]` an early error, because the complement of a " ++
          "set of sequences is not a set of characters)")
      else .ok (p.closeClass (eat '^' s).isSome set, s')

/-- `parseClassSet`, behind the bracket. -/
def parseClassSet (levels : Nat) (s : Units) : Except String (CharacterClass × Units) := do
  let (set, s) ← p.readNestedClass levels s
  .ok (⟨set.ranges, false, sortLongestFirst set.strings, set.empty⟩, s)

/-- `parseCharacterClass`, behind the bracket. -/
def parseCharacterClass (levels : Nat) (s : Units) : Except String (CharacterClass × Units) :=
  if p.flags.unicodeSets then p.parseClassSet levels s
  else do
    let negated := (eat '^' s).isSome
    let s := (eat '^' s).getD s
    let (ranges, s) ← p.readClassRanges s.length [] s
    match eat ']' s with
    | none => p.refuse s "`]` was expected to close a character class"
    | some s => .ok (⟨normalizeRanges ranges, negated, [], false⟩, s)

end PatternParser

end Bronze.Regex
