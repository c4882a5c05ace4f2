import Bronze.Regex.CodePointSet

/-!
# Escapes of a pattern

The cursor of `PatternParser` of `src/regex/parser_internal.h`, as the units that are left, and the
escapes of `src/regex/parser.cpp` that an atom and a class share. A refusal is the message with the
index it is reported at. The sets of the property escapes are a parameter, and so are the case
tables.
-/

namespace Bronze.Regex

/-- `UnitsView`, from the cursor on. -/
abbrev Units := List UInt16

/-- The unit of an ASCII character. -/
def ch (c : Char) : UInt16 := c.toNat.toUInt16

def peek (s : Units) (ahead : Nat) : UInt16 := s[ahead]?.getD 0

def eat (c : Char) : Units → Option Units
  | [] => none
  | u :: s => if u = ch c then some s else none

def eatTwo (c : Char) : Units → Option Units
  | u :: v :: s => if u = ch c ∧ v = ch c then some s else none
  | _ => none

/-- A unit between two ASCII characters. -/
def isWithin (lo hi : Char) (c : UInt16) : Bool := ch lo ≤ c && c ≤ ch hi

def isDecimalDigit (c : UInt16) : Bool := isWithin '0' '9' c

def isLetter (c : UInt16) : Bool := isWithin 'a' 'z' c || isWithin 'A' 'Z' c

def isIdentifierStart (c : UInt16) : Bool := isLetter c || c == ch '_' || c == ch '$'

def isIdentifierPart (c : UInt16) : Bool := isIdentifierStart c || isDecimalDigit c

def isAlphanumeric (c : UInt16) : Bool := isLetter c || isDecimalDigit c

def isPropertyCharacter (c : UInt16) : Bool := isLetter c || isDecimalDigit c || c == ch '_'

/-- A unit of a list of ASCII characters. -/
def isOneOf (text : String) (c : UInt16) : Bool := text.toList.any fun t => c == ch t

def isSyntaxCharacter (c : UInt16) : Bool := isOneOf "^$\\.*+?()[]\x7b\x7d|" c

def isClassSetReservedPunctuator (c : UInt16) : Bool := isOneOf "&-!#%,:;<=>@\x60~" c

def hexDigitValue (c : UInt16) : Option Nat :=
  if isWithin '0' '9' c then some (c.toNat - 0x30)
  else if isWithin 'a' 'f' c then some (c.toNat - 0x61 + 10)
  else if isWithin 'A' 'F' c then some (c.toNat - 0x41 + 10)
  else none

/-- `asciiOf`: a byte for every unit. -/
def asciiOf (units : Units) : List UInt8 := units.map UInt16.toUInt8

/-- Bytes as the text of a message. -/
def textOf (bytes : List UInt8) : String := String.ofList (bytes.map fun b => Char.ofNat b.toNat)

structure GroupInfo where
  count : Nat
  names : List (List UInt8)

/-- `class PatternParser`, what it reads besides the units that are left: the tables, the length of
the source, the flags and the groups of the scan before. -/
structure PatternParser where
  tables : CaseTables
  simpleCaseFoldSources : List Nat
  unicodePropertySet : List UInt8 → List UInt8 → Except String RangeList
  size : Nat
  flags : Flags
  groups : GroupInfo

def digitRanges : RangeList := [⟨0x30, 0x39⟩]

def spaceRanges : RangeList :=
  [⟨0x9, 0xD⟩, ⟨0x20, 0x20⟩, ⟨0xA0, 0xA0⟩, ⟨0x1680, 0x1680⟩, ⟨0x2000, 0x200A⟩, ⟨0x2028, 0x2029⟩,
    ⟨0x202F, 0x202F⟩, ⟨0x205F, 0x205F⟩, ⟨0x3000, 0x3000⟩, ⟨0xFEFF, 0xFEFF⟩]

def alphabetCeiling (unicode : Bool) : Nat := if unicode then kMaxCodePoint else 0xFFFF

inductive EscapeValue where
  | character (code : Nat)
  | set (ranges : RangeList)

namespace PatternParser

variable (p : PatternParser)

def kMaxDepth : Nat := 256

def describe (s : Units) (what : String) : String :=
  what ++ " at index " ++ toString (p.size - s.length) ++ " of the pattern"

def refuse {α : Type} (s : Units) (what : String) : Except String α := .error (p.describe s what)

def readSourceCharacter (s : Units) : Nat × Units :=
  let step := codePointAt s 0 p.flags.unicodeMode
  (step.code, s.drop step.width)

/-- The loop of `foldedForOperation`: what the fold moves, and where it arrives. -/
def foldMoves (set : RangeList) : List Nat → RangeList × RangeList
  | [] => ([], [])
  | code :: sources =>
    let (moved, arrived) := foldMoves set sources
    if rangesContain set code then
      let folded := p.tables.simpleCaseFold code
      (addRange [] code code ++ moved, addRange [] folded folded ++ arrived)
    else (moved, arrived)

def foldedForOperation (set : RangeList) : RangeList :=
  if !p.flags.ignoreCase then set
  else
    let (moved, arrived) := p.foldMoves set p.simpleCaseFoldSources
    if moved.isEmpty then set
    else
      normalizeRanges (subtractRanges set (normalizeRanges moved) ++ normalizeRanges arrived)

def simpleCaseFoldFixedPoints : RangeList :=
  complementRanges (normalizeRanges (p.simpleCaseFoldSources.map fun code => ⟨code, code⟩))
    kMaxCodePoint

def complementInMode (set : RangeList) : RangeList :=
  if p.flags.unicodeSets && p.flags.ignoreCase then
    subtractRanges p.simpleCaseFoldFixedPoints (p.foldedForOperation set)
  else complementRanges set (alphabetCeiling p.flags.unicodeMode)

/-! ## The escapes -/

/-- `readHex`, with the value of the digits before. -/
def readHexFrom : (count value : Nat) → Units → Option Nat
  | 0, value, _ => some value
  | _ + 1, _, [] => none
  | count + 1, value, d :: s =>
    match hexDigitValue d with
    | none => none
    | some digit => readHexFrom count (value * 16 + digit) s

def readHex (count : Nat) (s : Units) : Option Nat := readHexFrom count 0 s

def isHexDigit (c : UInt16) : Bool := (hexDigitValue c).isSome

/-- The value of the digits of a code point escape, which stays above the last code point. -/
def cappedHex (digits : Units) : Nat :=
  digits.foldl (fun value d =>
    let value := value * 16 + (hexDigitValue d).getD 0
    if value > kMaxCodePoint then kMaxCodePoint + 1 else value) 0

/-- `readUnicodeEscape`, behind the `u`. -/
def readUnicodeEscape (s : Units) : Except String (EscapeValue × Units) :=
  match eat '\x7b' s with
  | some s' =>
    if !p.flags.unicodeMode then
      p.refuse (ch 'u' :: s) ("unsupported: `\\u\x7b...\x7d` is a code point escape only under " ++
        "the `u` flag; without it, `\\u` takes exactly four hexadecimal digits and bronze does " ++
        "not implement Annex B's quantified reading")
    else
      let digits := s'.takeWhile isHexDigit
      match digits, eat '\x7d' (s'.dropWhile isHexDigit) with
      | _ :: _, some s'' =>
        if cappedHex digits > kMaxCodePoint then
          p.refuse (ch 'u' :: s)
            "`\\u\x7b...\x7d` names a value above U+10FFFF, which is not a code point"
        else .ok (.character (cappedHex digits), s'')
      | _, _ => p.refuse (ch 'u' :: s)
          "`\\u\x7b` must be closed by `\x7d` around at least one hexadecimal digit"
  | none =>
    match readHex 4 s with
    | none => p.refuse (ch 'u' :: s) "four hexadecimal digits were expected after `\\u`"
    | some v =>
      let s' := s.drop 4
      if p.flags.unicodeMode && isLeadSurrogate v && peek s' 0 == ch '\\' &&
          peek s' 1 == ch 'u' then
        match readHex 4 (s'.drop 2) with
        | some trail =>
          if isTrailSurrogate trail then
            .ok (.character (combineSurrogates v trail), s'.drop 6)
          else .ok (.character v, s')
        | none => .ok (.character v, s')
      else .ok (.character v, s')

/-- The name and the value of a property escape, and what is left. -/
def propertyText (s : Units) : (List UInt8 × List UInt8) × Units :=
  let first := asciiOf (s.takeWhile isPropertyCharacter)
  match eat '=' (s.dropWhile isPropertyCharacter) with
  | some s' =>
    ((first, asciiOf (s'.takeWhile isPropertyCharacter)), s'.dropWhile isPropertyCharacter)
  | none => (([], first), s.dropWhile isPropertyCharacter)

/-- `readPropertyEscape`, behind the letter. -/
def readPropertyEscape (negated : Bool) (s : Units) : Except String (EscapeValue × Units) :=
  if !p.flags.unicodeMode then
    p.refuse (ch 'p' :: s) ("unsupported: unicode property escapes `\\p\x7b...\x7d` are a " ++
      "+UnicodeMode production and this pattern has no `u` flag (bronze does not implement " ++
      "Annex B's reading of `\\p` as the letter `p`)")
  else
    match eat '\x7b' s with
    | none =>
      p.refuse s "`\x7b` was expected after `\\p`, which begins a unicode property escape"
    | some s =>
      match eat '\x7d' (propertyText s).2 with
      | none => p.refuse (propertyText s).2 "`\x7d` was expected to close a unicode property escape"
      | some s' =>
        if (propertyText s).1.2.isEmpty then
          p.refuse s' "a unicode property escape names no property"
        else
          match p.unicodePropertySet (propertyText s).1.1 (propertyText s).1.2 with
          | .error why => p.refuse s' why
          | .ok set => .ok (.set (if negated then p.complementInMode set else set), s')

/-- The letters of `readEscapeValue` that denote a set. -/
def classEscape (c : UInt16) : Option RangeList :=
  let words := wordRanges p.tables p.flags.ignoreCase p.flags.unicodeMode
  if c = ch 'd' then some digitRanges
  else if c = ch 'D' then some (p.complementInMode digitRanges)
  else if c = ch 's' then some spaceRanges
  else if c = ch 'S' then some (p.complementInMode spaceRanges)
  else if c = ch 'w' then some words
  else if c = ch 'W' then some (p.complementInMode words)
  else none

/-- The letters of `readEscapeValue` that denote a character by themselves. -/
def controlEscape (c : UInt16) : Option Nat :=
  if c = ch 'f' then some 0x0C
  else if c = ch 'n' then some 0x0A
  else if c = ch 'r' then some 0x0D
  else if c = ch 't' then some 0x09
  else if c = ch 'v' then some 0x0B
  else if c = ch 'b' then some 0x08
  else none

/-- The end of `readEscapeValue`, where no letter of the table stands. -/
def readIdentityEscape (inClass : Bool) (c : UInt16) (s : Units) :
    Except String (EscapeValue × Units) :=
  if isAlphanumeric c then
    p.refuse (c :: s)
      ("`\\" ++ textOf (asciiOf [c]) ++ "` is not an escape sequence bronze implements")
  else if p.flags.unicodeSets && inClass && isClassSetReservedPunctuator c then
    .ok (.character c.toNat, s)
  else if p.flags.unicodeMode && !isSyntaxCharacter c && c != ch '/' &&
      !(inClass && c == ch '-') then
    p.refuse (c :: s) ("`\\" ++ textOf (asciiOf [c]) ++ "` is not a valid escape under the `u` " ++
      "flag (an identity escape there may only precede a syntax character or `/`)")
  else .ok (.character c.toNat, s)

/-- `readEscapeValue`, at the unit `c` behind the backslash. -/
def readEscapeValue (inClass : Bool) (c : UInt16) (s : Units) :
    Except String (EscapeValue × Units) :=
  match p.classEscape c, controlEscape c with
  | some ranges, _ => .ok (.set ranges, s)
  | none, some code => .ok (.character code, s)
  | none, none =>
    if c = ch 'p' ∨ c = ch 'P' then p.readPropertyEscape (c = ch 'P') s
    else if c = ch 'q' ∧ p.flags.unicodeSets = true ∧ inClass = true then
      p.refuse (c :: s)
        ("`\\q\x7b...\x7d` can only stand where a `v`-mode class expects a whole " ++
        "operand (22.2.1's ClassSetOperand) — it is a set of strings, so it cannot be one end " ++
        "of a range or a member of another `\\q\x7b...\x7d`")
    else if c = ch '0' then
      if isDecimalDigit (peek s 0) then p.refuse s "a legacy octal escape is not implemented"
      else .ok (.character 0, s)
    else if c = ch 'c' then
      match s with
      | [] => p.refuse (c :: s) "a control letter was expected after `\\c`"
      | letter :: s' =>
        if isLetter letter then .ok (.character (letter.toNat % 32), s')
        else p.refuse (c :: s) "a control letter was expected after `\\c`"
    else if c = ch 'x' then
      match readHex 2 s with
      | none => p.refuse (c :: s) "two hexadecimal digits were expected after `\\x`"
      | some v => .ok (.character v, s.drop 2)
    else if c = ch 'u' then p.readUnicodeEscape s
    else p.readIdentityEscape inClass c s

end PatternParser

end Bronze.Regex
