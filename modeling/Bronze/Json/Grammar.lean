import Mathlib

/-!
# The JSON grammar

The text of a JSON value over UTF-16 code units, as RFC 8259 and ECMA-262 25.5.1 give it, and the
tree of `src/json/json.h` that a text stands for. A derivation names the text it spells and the
tree it builds. A number keeps the literal it was written as.
-/

namespace Bronze.Json

/-- UTF-16 text. -/
abbrev Units := List UInt16

/-- The code unit of an ASCII character. -/
def unit (c : Char) : UInt16 := c.toNat.toUInt16

/-- The code units of an ASCII text. -/
def units (s : String) : Units := s.toList.map unit

/-- `struct Value`, its kind and its payload. -/
inductive Value where
  | null
  | bool (b : Bool)
  /-- The literal whose value `strtod` is. -/
  | number (literal : Units)
  | string (text : Units)
  | array (elements : List Value)
  /-- Members in the order of the text, duplicates included. -/
  | object (members : List (Units × Value))

mutual

/-- How deep arrays and objects nest. -/
def Value.nesting : Value → Nat
  | .array elements => nestingElements elements + 1
  | .object members => nestingMembers members + 1
  | _ => 0

/-- The deepest nesting of a list of elements. -/
def nestingElements : List Value → Nat
  | [] => 0
  | v :: elements => max v.nesting (nestingElements elements)

/-- The deepest nesting of a list of members. -/
def nestingMembers : List (Units × Value) → Nat
  | [] => 0
  | (_, v) :: members => max v.nesting (nestingMembers members)

end

/-- JSONWhitespace, these four and no other. -/
def isWhitespace (c : UInt16) : Bool :=
  c = unit ' ' || c = unit '\t' || c = unit '\n' || c = unit '\r'

def isDigit (c : UInt16) : Bool := unit '0' ≤ c && c ≤ unit '9'

def Whitespace (w : Units) : Prop := ∀ c ∈ w, isWhitespace c = true

/-- A hexadecimal digit and its value. -/
inductive HexDigit (c : UInt16) : Nat → Prop
  | digit (h : isDigit c = true) : HexDigit c (c.toNat - (unit '0').toNat)
  | lower (h : unit 'a' ≤ c ∧ c ≤ unit 'f') : HexDigit c (c.toNat - (unit 'a').toNat + 10)
  | upper (h : unit 'A' ≤ c ∧ c ≤ unit 'F') : HexDigit c (c.toNat - (unit 'A').toNat + 10)

/-- The escapes of one character, each with the unit it stands for. -/
def escapes : List (UInt16 × UInt16) :=
  [(unit '"', unit '"'), (unit '\\', unit '\\'), (unit '/', unit '/'), (unit 'b', 8),
    (unit 'f', 12), (unit 'n', 10), (unit 'r', 13), (unit 't', 9)]

/-- JSONStringCharacter: one unit, and its spelling. -/
inductive StringCharacter : Units → UInt16 → Prop
  | plain {c : UInt16} (hctl : 0x20 ≤ c) (hquote : c ≠ unit '"') (hback : c ≠ unit '\\') :
    StringCharacter [c] c
  | escape {e c : UInt16} (h : (e, c) ∈ escapes) : StringCharacter [unit '\\', e] c
  | unicode {h₁ h₂ h₃ h₄ : UInt16} {d₁ d₂ d₃ d₄ : Nat} (e₁ : HexDigit h₁ d₁)
    (e₂ : HexDigit h₂ d₂) (e₃ : HexDigit h₃ d₃) (e₄ : HexDigit h₄ d₄) :
    StringCharacter [unit '\\', unit 'u', h₁, h₂, h₃, h₄]
      (((d₁ * 16 + d₂) * 16 + d₃) * 16 + d₄).toUInt16

/-- What stands between the quotes of a string. -/
inductive StringCharacters : Units → Units → Prop
  | nil : StringCharacters [] []
  | cons {s t text : Units} {c : UInt16} (h : StringCharacter s c)
    (ht : StringCharacters t text) : StringCharacters (s ++ t) (c :: text)

inductive JSONString : Units → Units → Prop
  | quoted {s text : Units} (h : StringCharacters s text) :
    JSONString (unit '"' :: (s ++ [unit '"'])) text

def Digits (s : Units) : Prop := s ≠ [] ∧ ∀ c ∈ s, isDigit c = true

/-- The integer part: no leading zero. -/
def IntegerPart (s : Units) : Prop := s = [unit '0'] ∨ Digits s ∧ s.head? ≠ some (unit '0')

def FractionPart (s : Units) : Prop := s = [] ∨ ∃ t, Digits t ∧ s = unit '.' :: t

def ExponentPart (s : Units) : Prop :=
  s = [] ∨ ∃ e sign t, (e = unit 'e' ∨ e = unit 'E') ∧
    (sign = [] ∨ sign = [unit '+'] ∨ sign = [unit '-']) ∧ Digits t ∧ s = e :: (sign ++ t)

def JSONNumber (s : Units) : Prop :=
  ∃ sign i f e, (sign = [] ∨ sign = [unit '-']) ∧ IntegerPart i ∧ FractionPart f ∧
    ExponentPart e ∧ s = sign ++ (i ++ (f ++ e))

mutual

/-- JSONValue, without the whitespace around it. -/
inductive JSONValue : Units → Value → Prop
  | null : JSONValue (units "null") .null
  | true : JSONValue (units "true") (.bool true)
  | false : JSONValue (units "false") (.bool false)
  | string {s text : Units} (h : JSONString s text) : JSONValue s (.string text)
  | number {s : Units} (h : JSONNumber s) : JSONValue s (.number s)
  | emptyArray {w : Units} (hw : Whitespace w) :
    JSONValue (unit '[' :: (w ++ [unit ']'])) (.array [])
  | array {s : Units} {elements : List Value} (h : Elements s elements) :
    JSONValue (unit '[' :: (s ++ [unit ']'])) (.array elements)
  | emptyObject {w : Units} (hw : Whitespace w) :
    JSONValue (unit '{' :: (w ++ [unit '}'])) (.object [])
  | object {s : Units} {members : List (Units × Value)} (h : Members s members) :
    JSONValue (unit '{' :: (s ++ [unit '}'])) (.object members)

/-- One element or more, with a comma between two. -/
inductive Elements : Units → List Value → Prop
  | last {w₁ s w₂ : Units} {v : Value} (hw₁ : Whitespace w₁) (h : JSONValue s v)
    (hw₂ : Whitespace w₂) : Elements (w₁ ++ (s ++ w₂)) [v]
  | cons {w₁ s w₂ t : Units} {v : Value} {elements : List Value} (hw₁ : Whitespace w₁)
    (h : JSONValue s v) (hw₂ : Whitespace w₂) (ht : Elements t elements) :
    Elements (w₁ ++ (s ++ (w₂ ++ unit ',' :: t))) (v :: elements)

/-- One member or more, with a comma between two. -/
inductive Members : Units → List (Units × Value) → Prop
  | last {w₁ k w₂ w₃ s w₄ key : Units} {v : Value} (hw₁ : Whitespace w₁) (hk : JSONString k key)
    (hw₂ : Whitespace w₂) (hw₃ : Whitespace w₃) (h : JSONValue s v) (hw₄ : Whitespace w₄) :
    Members (w₁ ++ (k ++ (w₂ ++ unit ':' :: (w₃ ++ (s ++ w₄))))) [(key, v)]
  | cons {w₁ k w₂ w₃ s w₄ t key : Units} {v : Value} {members : List (Units × Value)}
    (hw₁ : Whitespace w₁) (hk : JSONString k key) (hw₂ : Whitespace w₂) (hw₃ : Whitespace w₃)
    (h : JSONValue s v) (hw₄ : Whitespace w₄) (ht : Members t members) :
    Members (w₁ ++ (k ++ (w₂ ++ unit ':' :: (w₃ ++ (s ++ (w₄ ++ unit ',' :: t))))))
      ((key, v) :: members)

end

/-- JSON text: one value, with whitespace around it. -/
def JSONText (text : Units) (v : Value) : Prop :=
  ∃ w₁ s w₂, Whitespace w₁ ∧ JSONValue s v ∧ Whitespace w₂ ∧ text = w₁ ++ (s ++ w₂)

end Bronze.Json
