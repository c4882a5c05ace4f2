import Bronze.Regex.ClassParser

/-!
# The parser of a pattern

The pattern grammar of `src/regex/parser.cpp`, the scan for groups before it, and `compile`. A
disjunction in a group is read by a parameter, which is the same parser one level deeper; a loop has
as many turns as there are units.
-/

namespace Bronze.Regex

/-- The name behind `(?<`, where the `(` at the front of the units before opens a named group. -/
def prescanName (s : Units) : Option (List UInt8) :=
  if peek s 1 = ch '<' ∧ 2 < s.length ∧ peek s 2 ≠ ch '=' ∧ peek s 2 ≠ ch '!' then
    some (asciiOf ((s.drop 2).takeWhile fun u => u != ch '>'))
  else none

/-- What a `(` adds to the names: nothing where it does not capture. -/
def prescanGroup (s : Units) : List (List UInt8) :=
  if peek s 0 = ch '?' then (prescanName s).toList else [[]]

/-- The loop of `prescanGroups`, in so many brackets, with whether a backslash was the unit
before. -/
def prescanFrom (unicodeSets : Bool) : Units → (escaped : Bool) → (classDepth : Nat) →
    List (List UInt8)
  | [], _, _ => []
  | _ :: s, true, classDepth => prescanFrom unicodeSets s false classDepth
  | c :: s, false, classDepth =>
    if c = ch '\\' then prescanFrom unicodeSets s true classDepth
    else if classDepth ≠ 0 then
      let classDepth := if c = ch '[' ∧ unicodeSets = true then classDepth + 1 else classDepth
      prescanFrom unicodeSets s false (if c = ch ']' then classDepth - 1 else classDepth)
    else if c = ch '[' then prescanFrom unicodeSets s false 1
    else if c = ch '(' then prescanGroup s ++ prescanFrom unicodeSets s false 0
    else prescanFrom unicodeSets s false 0

def prescanGroups (s : Units) (unicodeSets : Bool) : GroupInfo :=
  let names := prescanFrom unicodeSets s false 0
  ⟨names.length, names⟩

/-- Where the parser is. `names` is no variable of the source: it has the name of every group that
was opened, in order. -/
structure Place where
  rest : Units
  captureCounter : Nat
  names : List (List UInt8)

/-- The parser of a disjunction one level deeper. -/
abbrev Disjunctions := Place → Except String (Node × Place)

/-- Which production a `(` opens. -/
inductive GroupKind where
  | group (captureIndex : Nat)
  | lookahead (negative : Bool)
  | lookbehind (negative : Bool)

def GroupKind.node : GroupKind → Node → Node
  | .group captureIndex, body => .group captureIndex body
  | .lookahead negative, body => .lookahead negative body
  | .lookbehind negative, body => .lookbehind negative body

/-- The group that is opened next captures. -/
def Place.capture (place : Place) (name : List UInt8) (rest : Units) : GroupKind × Place :=
  (.group (place.captureCounter + 1), ⟨rest, place.captureCounter + 1, place.names ++ [name]⟩)

/-- A node that no quantifier may follow. -/
def Node.isAssertion : Node → Bool
  | .assertion _ | .lookahead _ _ | .lookbehind _ _ => true
  | _ => false

namespace PatternParser

variable (p : PatternParser)

def charNode (code : Nat) (s : Units) : Except String Node := do
  p.checkCased s code code
  .ok (.char (canonicalize p.tables code p.flags.ignoreCase p.flags.unicodeMode))

/-- The loop over the digits of a decimal escape, which stops above `0xFFFFFF`. -/
def readDecimal (value : Nat) : Units → Nat × Units
  | [] => (value, [])
  | c :: s =>
    if isDecimalDigit c then
      if value * 10 + (c.toNat - 0x30) > 0xFFFFFF then (value * 10 + (c.toNat - 0x30), c :: s)
      else readDecimal (value * 10 + (c.toNat - 0x30)) s
    else (value, c :: s)

/-- `parseAtomEscape` at `\k`, behind the letter. -/
def parseNamedReference (s : Units) : Except String (Node × Units) :=
  match eat '<' s with
  | none => p.refuse s "`<` was expected after `\\k`"
  | some s =>
    let name := asciiOf (s.takeWhile isIdentifierPart)
    match eat '>' (s.dropWhile isIdentifierPart) with
    | none => p.refuse (s.dropWhile isIdentifierPart) "`>` was expected to close `\\k<`"
    | some s =>
      match p.groups.names.findIdx? fun n => n == name with
      | some i => .ok (.backreference (i + 1), s)
      | none =>
        p.refuse s ("`\\k<" ++ textOf name ++ ">` names no capture group in this pattern")

/-- `parseAtomEscape` at a digit from 1 to 9. -/
def parseDecimalEscape (s : Units) : Except String (Node × Units) :=
  let (value, s') := readDecimal 0 s
  if value > p.groups.count then
    p.refuse s ("`\\" ++ toString value ++ "` refers to capture group " ++ toString value ++
      ", and this pattern has " ++ toString p.groups.count ++
      " (legacy octal escapes are not implemented)")
  else .ok (.backreference value, s')

/-- `parseAtomEscape`, behind the backslash. -/
def parseAtomEscape (s : Units) : Except String (Node × Units) :=
  match s with
  | [] => p.refuse [] "a trailing `\\` with nothing to escape"
  | c :: s =>
    if c = ch 'b' then .ok (.assertion .wordBoundary, s)
    else if c = ch 'B' then .ok (.assertion .notWordBoundary, s)
    else if c = ch 'k' then p.parseNamedReference s
    else if isWithin '1' '9' c then p.parseDecimalEscape (c :: s)
    else do
      let (value, s) ← p.readEscapeValue false c s
      match value with
      | .set ranges => .ok (.characterClass ⟨normalizeRanges ranges, false, [], false⟩, s)
      | .character code =>
        let node ← p.charNode code s
        .ok (node, s)

/-- `parseAtom` at a unit that begins no other production. -/
def parseSourceCharacter (s : Units) : Except String (Node × Units) := do
  let (code, s) := p.readSourceCharacter s
  let node ← p.charNode code s
  .ok (node, s)

def readBoundedDigits (s : Units) : Option (Nat × Units) :=
  match s.takeWhile isDecimalDigit with
  | [] => none
  | digits => some (digits.foldl (fun value d => min (value * 10 + (d.toNat - 0x30)) 0xFFFFFFFE) 0,
      s.dropWhile isDecimalDigit)

/-- The bounds of `readQuantifier` behind a brace. -/
def readBounds (s : Units) : Option ((Nat × Nat) × Units) :=
  match readBoundedDigits s with
  | none => none
  | some (lo, s) =>
    match eat ',' s with
    | none => (eat '\x7d' s).map fun s => ((lo, lo), s)
    | some s =>
      match eat '\x7d' s with
      | some s => some ((lo, kUnbounded), s)
      | none =>
        match readBoundedDigits s with
        | none => none
        | some (hi, s) => (eat '\x7d' s).map fun s => ((lo, hi), s)

/-- `readQuantifier`: the bounds, and whether it is greedy. -/
def readQuantifier (s : Units) : Option ((Nat × Nat × Bool) × Units) :=
  let bounds : Option ((Nat × Nat) × Units) :=
    match s with
    | [] => none
    | c :: s =>
      if c = ch '*' then some ((0, kUnbounded), s)
      else if c = ch '+' then some ((1, kUnbounded), s)
      else if c = ch '?' then some ((0, 1), s)
      else if c = ch '\x7b' then readBounds s
      else none
  bounds.map fun ((min, max), s) => ((min, max, (eat '?' s).isNone), (eat '?' s).getD s)

/-! ## Groups, terms and disjunctions -/

/-- The part of `parseGroup` before the body, behind the `(`. -/
def readOpening (place : Place) (s : Units) : Except String (GroupKind × Place) :=
  match eat '?' s with
  | none => .ok (Place.capture place [] s)
  | some s =>
    match s with
    | [] => p.refuse s "an unsupported group modifier after `(?`"
    | c :: s' =>
      if c = ch ':' then .ok (.group 0, { place with rest := s' })
      else if c = ch '=' then .ok (.lookahead false, { place with rest := s' })
      else if c = ch '!' then .ok (.lookahead true, { place with rest := s' })
      else if c = ch '<' then
        if peek s' 0 = ch '=' ∨ peek s' 0 = ch '!' then
          .ok (.lookbehind (peek s' 0 = ch '!'), { place with rest := s'.tail })
        else if isIdentifierStart (peek s' 0) then
          match eat '>' (s'.dropWhile isIdentifierPart) with
          | none =>
            p.refuse (s'.dropWhile isIdentifierPart)
              "`>` was expected to close a capture group name"
          | some s'' => .ok (Place.capture place (asciiOf (s'.takeWhile isIdentifierPart)) s'')
        else p.refuse s' "a capture group name must start with a letter, `_` or `$`"
      else p.refuse s "an unsupported group modifier after `(?`"

variable (self : Disjunctions)

def parseGroup (place : Place) (s : Units) : Except String (Node × Place) := do
  let (kind, place) ← p.readOpening place s
  let (body, place) ← self place
  match eat ')' place.rest with
  | none => p.refuse place.rest "`)` was expected to close a group"
  | some s => .ok (kind.node body, { place with rest := s })

/-- An atom that opens no group. -/
def withoutGroup (place : Place) (read : Except String (Node × Units)) :
    Except String (Node × Place) := do
  let (node, s) ← read
  .ok (node, { place with rest := s })

def parseClassAtom (levels : Nat) (s : Units) : Except String (Node × Units) := do
  let (c, s) ← p.parseCharacterClass levels s
  .ok (.characterClass c, s)

def parseAtom (levels : Nat) (place : Place) : Except String (Node × Place) :=
  match place.rest with
  | [] => p.refuse [] "an atom was expected"
  | c :: s =>
    if c = ch '^' then .ok (.assertion .start, { place with rest := s })
    else if c = ch '$' then .ok (.assertion .finish, { place with rest := s })
    else if c = ch '.' then .ok (.dot, { place with rest := s })
    else if c = ch '(' then p.parseGroup self place s
    else if c = ch '[' then withoutGroup place (p.parseClassAtom levels s)
    else if c = ch '\\' then withoutGroup place (p.parseAtomEscape s)
    else if c = ch '*' ∨ c = ch '+' ∨ c = ch '?' then
      p.refuse (c :: s) "a quantifier with nothing to repeat"
    else if c = ch ')' then p.refuse (c :: s) "an atom was expected"
    else if c = ch ']' ∧ p.flags.unicodeMode = true then
      p.refuse (c :: s) ("a lone `]`, which the `u` and `v` flags make a syntax error (write " ++
        "`\\]` for the character)")
    else if c = ch '\x7b' ∧ p.flags.unicodeMode = true then
      p.refuse (c :: s)
        ("a `\x7b` that does not begin a quantifier, which the `u` and `v` flags " ++
        "make a syntax error (write `\\\x7b` for the character)")
    else if c = ch '\x7d' ∧ p.flags.unicodeMode = true then
      p.refuse (c :: s) ("a lone `\x7d`, which the `u` and `v` flags make a syntax error (write " ++
        "`\\\x7d` for the character)")
    else withoutGroup place (p.parseSourceCharacter (c :: s))

/-- The quantifier of a `Repeat` node. -/
def quantifierOf (min max : Nat) (greedy : Bool) (before after : Nat) (atom : Node) :
    Quantifier where
  min := min
  max := max
  greedy := greedy
  firstCapture := before + 1
  captureCount := after - before
  simpleAtom := after - before == 0 && atom.oneCharacter

def parseTerm (levels : Nat) (place : Place) : Except String (Node × Place) := do
  let (atom, place') ← p.parseAtom self levels place
  match readQuantifier place'.rest with
  | none => .ok (atom, place')
  | some ((min, max, greedy), s) =>
    if atom.isAssertion then p.refuse s "a quantifier applied to an assertion"
    else if min > max then p.refuse s "a quantifier whose minimum exceeds its maximum"
    else
      .ok (.repeats (quantifierOf min max greedy place.captureCounter place'.captureCounter atom)
        atom, { place' with rest := s })

/-- The loop of `parseAlternative`. -/
def parseTerms (levels : Nat) : (fuel : Nat) → List Node → Place →
    Except String (List Node × Place)
  | 0, terms, place => .ok (terms, place)
  | fuel + 1, terms, place =>
    if place.rest = [] ∨ peek place.rest 0 = ch '|' ∨ peek place.rest 0 = ch ')' then
      .ok (terms, place)
    else do
      let (term, place) ← p.parseTerm self levels place
      parseTerms levels fuel (terms ++ [term]) place

def parseAlternative (levels : Nat) (place : Place) : Except String (List Node × Place) :=
  p.parseTerms self levels place.rest.length [] place

/-- The loop of `parseDisjunction`. -/
def parseAlternatives (levels : Nat) : (fuel : Nat) → List (List Node) → Place →
    Except String (List (List Node) × Place)
  | 0, alternatives, place => .ok (alternatives, place)
  | fuel + 1, alternatives, place =>
    match eat '|' place.rest with
    | none => .ok (alternatives, place)
    | some s => do
      let (next, place) ← p.parseAlternative self levels { place with rest := s }
      parseAlternatives levels fuel (alternatives ++ [next]) place

def parseDisjunction : (levels : Nat) → Disjunctions
  | 0, place => p.refuse place.rest "regular expression is nested too deeply"
  | levels + 1, place => do
    let (first, place) ← p.parseAlternative (parseDisjunction levels) levels place
    if peek place.rest 0 ≠ ch '|' then .ok (.sequence first, place)
    else do
      let (alternatives, place) ←
        p.parseAlternatives (parseDisjunction levels) levels place.rest.length [first] place
      .ok (.alternation alternatives, place)

def parse (source : Units) : Except String (Node × Place) := do
  let (root, place) ← p.parseDisjunction kMaxDepth ⟨source, 0, []⟩
  if place.rest ≠ [] then p.refuse place.rest "unmatched ')'" else .ok (root, place)

end PatternParser

/-- The parser that `compile` makes for a source. -/
def parserFor (tables : CaseTables) (sources : List Nat)
    (properties : List UInt8 → List UInt8 → Except String RangeList) (flags : Flags)
    (source : Units) : PatternParser where
  tables := tables
  simpleCaseFoldSources := sources
  unicodePropertySet := properties
  size := source.length
  flags := flags
  groups := prescanGroups source flags.unicodeSets

end Bronze.Regex
