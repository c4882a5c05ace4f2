import Bronze.Json.Grammar

/-!
# The JSON parser

`class Parser` of `src/json/json.cpp`. The parser runs over the units it has still to read, with
the count of those it has read. A read past the end of the text is a fault, and so is a loop that
outlives its fuel; a syntax error is the null pointer of the source, with the first error kept.

`Parse` is the monad of the source's early returns: a null pointer of one step is the null pointer
of the whole function. The depth bound is a parameter of the functions, which `parse` sets.

## Main results

* `Triple` and its rules: what a run leaves behind, with no fault and no silent rejection
-/

namespace Bronze.Json

/-- What a run may not do. -/
inductive Fault where
  /-- A read past the end of the text. -/
  | outOfBounds
  /-- A loop that outlives its fuel. -/
  | outOfFuel
  deriving DecidableEq, Repr

/-- The state of `class Parser`: `text_` from `pos_` on, `pos_`, `depth_` and `error_`. -/
structure Parser where
  rest : Units
  pos : Nat
  depth : Nat
  error : String

namespace Parser

def advance (p : Parser) (k : Nat) : Parser := { p with rest := p.rest.drop k, pos := p.pos + k }

/-- `Parser::fail`: the first error is kept. -/
def fail (p : Parser) (what : String) : Parser :=
  if p.error ≠ "" then p
  else { p with
    error := "Unexpected token in JSON at position " ++ toString p.pos ++ ": " ++ what }

variable (p : Parser)

@[simp] theorem advance_rest (k : Nat) : (p.advance k).rest = p.rest.drop k := rfl

@[simp] theorem advance_depth (k : Nat) : (p.advance k).depth = p.depth := rfl

@[simp] theorem advance_zero : p.advance 0 = p := rfl

@[simp] theorem advance_advance (j k : Nat) : (p.advance j).advance k = p.advance (j + k) := by
  simp [advance, Nat.add_assoc]

theorem fail_error (what : String) : (p.fail what).error ≠ "" := by
  unfold fail
  split_ifs with h
  · exact h
  · intro h
    have := congrArg String.length h
    simp at this

end Parser

/-- What a function of the parser returns. -/
inductive Outcome (α : Type) where
  | fault (f : Fault)
  /-- The null pointer, or `false`. -/
  | null (p : Parser)
  | value (a : α) (p : Parser)

def Parse (α : Type) := Parser → Outcome α

instance : Monad Parse where
  pure a p := .value a p
  bind x f p :=
    match x p with
    | .fault e => .fault e
    | .null p => .null p
    | .value a p => f a p

def atEnd : Parse Bool := fun p => .value p.rest.isEmpty p

def peek : Parse UInt16 := fun p => .value (p.rest.headD 0) p

/-- `text_.size() - pos_`. -/
def remaining : Parse Nat := fun p => .value p.rest.length p

/-- `text_[pos_ + i]`. -/
def unitAt (i : Nat) : Parse UInt16 := fun p =>
  match p.rest[i]? with
  | some c => .value c p
  | none => .fault .outOfBounds

def advance (k : Nat) : Parse Unit := fun p => .value () (p.advance k)

/-- `fail` and the null return after it. -/
def fail {α : Type} (what : String) : Parse α := fun p => .null (p.fail what)

/-- A loop without fuel. -/
def exhausted {α : Type} : Parse α := fun _ => .fault .outOfFuel

/-- A loop that is given one unit of fuel for each unit of text, and one more. -/
def withFuel {α : Type} (loop : Nat → Parse α) : Parse α := fun p => loop (p.rest.length + 1) p

/-- The loop of `skipWhitespace` and of the digit runs in `parseNumber`: past every unit that
satisfies `q`. -/
def skipWhile (q : UInt16 → Bool) : Nat → Parse Unit
  | 0 => exhausted
  | fuel + 1 => do
    if ← atEnd then return ()
    else
      let c ← unitAt 0
      if q c then
        advance 1
        skipWhile q fuel
      else return ()

def skipWhitespace : Parse Unit := withFuel (skipWhile isWhitespace)

/-- The comparison loop of `matchWord`. -/
def matchUnits : Units → Nat → Parse Bool
  | [], _ => return true
  | w :: word, i => do
    let c ← unitAt i
    if c ≠ w then return false else matchUnits word (i + 1)

def matchWord (word : Units) : Parse Bool := do
  let left ← remaining
  if left < word.length then return false
  else
    if ← matchUnits word 0 then
      advance word.length
      return true
    else return false

def unexpected {α : Type} : Parse α := do
  let c ← peek
  if c = unit '\'' then fail "a string must be double-quoted"
  else if c = unit '+' ∨ c = unit '.' then fail "a JSON number has no leading '+' or '.'"
  else if c = unit '/' then fail "JSON has no comments"
  else if c = unit ']' ∨ c = unit '}' then fail "a trailing comma is not a JSON value"
  else fail "a JSON value was expected"

def hexDigit (c : UInt16) : Option Nat :=
  if unit '0' ≤ c ∧ c ≤ unit '9' then some (c.toNat - (unit '0').toNat)
  else if unit 'a' ≤ c ∧ c ≤ unit 'f' then some (c.toNat - (unit 'a').toNat + 10)
  else if unit 'A' ≤ c ∧ c ≤ unit 'F' then some (c.toNat - (unit 'A').toNat + 10)
  else none

/-- The digit loop of a `\u` escape: `n` digits from index `i`. -/
def hexDigits : Nat → Nat → Nat → Parse Nat
  | 0, _, value => return value
  | n + 1, i, value => do
    let c ← unitAt i
    match hexDigit c with
    | none => fail "\\u needs four hexadecimal digits"
    | some digit => hexDigits n (i + 1) (value * 16 + digit)

/-- The switch of `parseString` on the unit after a backslash. -/
def escaped (e : UInt16) : Parse UInt16 :=
  if e = unit '"' then return unit '"'
  else if e = unit '\\' then return unit '\\'
  else if e = unit '/' then return unit '/'
  else if e = unit 'b' then return 8
  else if e = unit 'f' then return 12
  else if e = unit 'n' then return 10
  else if e = unit 'r' then return 13
  else if e = unit 't' then return 9
  else if e = unit 'u' then do
    let left ← remaining
    if left < 4 then fail "\\u needs four hexadecimal digits"
    else
      let value ← hexDigits 4 0 0
      advance 4
      return value.toUInt16
  else fail "that escape is not one JSON defines"

/-- The loop of `parseString`, after the opening quote. -/
def stringLoop : Nat → Parse Units
  | 0 => exhausted
  | fuel + 1 => do
    if ← atEnd then fail "the string was not closed before the end of the input"
    else
      let c ← unitAt 0
      if c = unit '"' then
        advance 1
        return []
      else if c < 0x20 then fail "a control character must be escaped inside a JSON string"
      else if c ≠ unit '\\' then
        advance 1
        let out ← stringLoop fuel
        return c :: out
      else
        advance 1
        if ← atEnd then fail "the string ended inside an escape"
        else
          let e ← unitAt 0
          advance 1
          let u ← escaped e
          let out ← stringLoop fuel
          return u :: out

def parseString : Parse Units := do
  advance 1
  withFuel stringLoop

def numberSign : Parse Unit := do
  let c ← peek
  if c = unit '-' then advance 1 else return ()

/-- The test for a digit before a run of them. -/
def demandDigit (what : String) : Parse Unit := do
  let e ← atEnd
  let c ← peek
  if e || !isDigit c then fail what else return ()

def skipDigits : Parse Unit := withFuel (skipWhile isDigit)

/-- The integer part of `parseNumber`. -/
def numberInteger : Parse Unit := do
  demandDigit "a digit was expected in a JSON number"
  let c ← peek
  if c = unit '0' then
    advance 1
    let e ← atEnd
    let c ← peek
    if !e && isDigit c then fail "a JSON number has no leading zero" else return ()
  else skipDigits

def numberFraction : Parse Unit := do
  let c ← peek
  if c = unit '.' then
    advance 1
    demandDigit "a digit was expected after the decimal point"
    skipDigits
  else return ()

def exponentSign : Parse Unit := do
  let c ← peek
  if c = unit '+' ∨ c = unit '-' then advance 1 else return ()

def numberExponent : Parse Unit := do
  let c ← peek
  if c = unit 'e' ∨ c = unit 'E' then
    advance 1
    exponentSign
    demandDigit "a digit was expected in the exponent"
    skipDigits
  else return ()

/-- The units from the position a function started at to the one it reached. -/
def spanOf (x : Parse Unit) : Parse Units := fun p =>
  match x p with
  | .fault e => .fault e
  | .null p' => .null p'
  | .value _ p' => .value (p.rest.take (p'.pos - p.pos)) p'

def parseNumber : Parse Value := do
  let literal ← spanOf (do
    numberSign
    numberInteger
    numberFraction
    numberExponent)
  return .number literal

/-! ## Values -/

/-- `struct DepthGuard` around the body of a function. -/
def nested {α : Type} (kMaxDepth : Nat) (body : Parse α) : Parse α := fun p =>
  let p := { p with depth := p.depth + 1 }
  if p.depth ≤ kMaxDepth then
    match body p with
    | .fault e => .fault e
    | .null p => .null { p with depth := p.depth - 1 }
    | .value a p => .value a { p with depth := p.depth - 1 }
  else
    let p := p.fail "the JSON value nests too deeply"
    .null { p with depth := p.depth - 1 }

mutual

def parseValue (kMaxDepth : Nat) : Nat → Parse Value
  | 0 => exhausted
  | fuel + 1 => do
    if ← atEnd then fail "a value was expected"
    else
      let c ← peek
      if c = unit '{' then parseObject kMaxDepth fuel
      else if c = unit '[' then parseArray kMaxDepth fuel
      else if c = unit '"' then
        let text ← parseString
        return .string text
      else if c = unit 't' then
        if ← matchWord (units "true") then return .bool true else unexpected
      else if c = unit 'f' then
        if ← matchWord (units "false") then return .bool false else unexpected
      else if c = unit 'n' then
        if ← matchWord (units "null") then return .null else unexpected
      else if c = unit '-' ∨ isDigit c then parseNumber
      else unexpected

def parseObject (kMaxDepth : Nat) : Nat → Parse Value
  | 0 => exhausted
  | fuel + 1 => nested kMaxDepth do
    advance 1
    skipWhitespace
    let c ← peek
    if c = unit '}' then
      advance 1
      return .object []
    else
      let members ← objectMembers kMaxDepth fuel
      return .object members

/-- The loop of `parseObject`, from a key to the closing brace. -/
def objectMembers (kMaxDepth : Nat) : Nat → Parse (List (Units × Value))
  | 0 => exhausted
  | fuel + 1 => do
    skipWhitespace
    let c ← peek
    if c ≠ unit '"' then fail "an object key must be a double-quoted string"
    else
      let key ← parseString
      skipWhitespace
      let c ← peek
      if c ≠ unit ':' then fail "':' was expected after an object key"
      else
        advance 1
        skipWhitespace
        let value ← parseValue kMaxDepth fuel
        skipWhitespace
        let c ← peek
        if c = unit ',' then
          advance 1
          let members ← objectMembers kMaxDepth fuel
          return (key, value) :: members
        else if c = unit '}' then
          advance 1
          return [(key, value)]
        else fail "',' or '\x7d' was expected after an object member"

def parseArray (kMaxDepth : Nat) : Nat → Parse Value
  | 0 => exhausted
  | fuel + 1 => nested kMaxDepth do
    advance 1
    skipWhitespace
    let c ← peek
    if c = unit ']' then
      advance 1
      return .array []
    else
      let elements ← arrayElements kMaxDepth fuel
      return .array elements

/-- The loop of `parseArray`, from an element to the closing bracket. -/
def arrayElements (kMaxDepth : Nat) : Nat → Parse (List Value)
  | 0 => exhausted
  | fuel + 1 => do
    skipWhitespace
    let element ← parseValue kMaxDepth fuel
    skipWhitespace
    let c ← peek
    if c = unit ',' then
      advance 1
      let elements ← arrayElements kMaxDepth fuel
      return element :: elements
    else if c = unit ']' then
      advance 1
      return [element]
    else fail "',' or ']' was expected after an array element"

end

/-- Fuel for a text: `parseValue`, the function for the bracket and its loop, for each unit. -/
def fuelFor (rest : Units) : Nat := 3 * rest.length + 1

/-- `parseValue`, given its fuel. -/
def parseFueled (kMaxDepth : Nat) : Parse Value := fun p =>
  parseValue kMaxDepth (fuelFor p.rest) p

def parseText (kMaxDepth : Nat) : Parse Value := do
  skipWhitespace
  let value ← parseFueled kMaxDepth
  skipWhitespace
  if ← atEnd then return value
  else fail "unexpected text after the end of the JSON value"

def kMaxDepth : Nat := 512

/-- `json::parse` at a depth bound: the tree or the null pointer, and the error. -/
def parseWithin (kMaxDepth : Nat) (text : Units) : Except Fault (Option Value × String) :=
  match parseText kMaxDepth { rest := text, pos := 0, depth := 0, error := "" } with
  | .fault f => .error f
  | .null p => .ok (none, if p.error = "" then "Unexpected end of JSON input" else p.error)
  | .value v p => .ok (some v, p.error)

def parse (text : Units) : Except Fault (Option Value × String) := parseWithin kMaxDepth text

section Rules

variable {α β : Type} {p : Parser}

theorem bind_apply (x : Parse α) (f : α → Parse β) (p : Parser) :
    (x >>= f) p = match x p with
      | .fault e => .fault e
      | .null p => .null p
      | .value a p => f a p := rfl

theorem bind_of_value {x : Parse α} {f : α → Parse β} {a : α} {p' : Parser}
    (h : x p = .value a p') : (x >>= f) p = f a p' := by
  rw [bind_apply, h]

@[simp] theorem pure_apply (a : α) (p : Parser) : (pure a : Parse α) p = .value a p := rfl

@[simp] theorem atEnd_bind (f : Bool → Parse β) (p : Parser) :
    (atEnd >>= f) p = f p.rest.isEmpty p := rfl

@[simp] theorem peek_bind (f : UInt16 → Parse β) (p : Parser) :
    (peek >>= f) p = f (p.rest.headD 0) p := rfl

@[simp] theorem remaining_bind (f : Nat → Parse β) (p : Parser) :
    (remaining >>= f) p = f p.rest.length p := rfl

@[simp] theorem advance_bind (k : Nat) (f : Unit → Parse β) (p : Parser) :
    (advance k >>= f) p = f () (p.advance k) := rfl

theorem unitAt_bind {i : Nat} {c : UInt16} (h : p.rest[i]? = some c) (f : UInt16 → Parse β) :
    (unitAt i >>= f) p = f c p := by
  rw [bind_apply, unitAt, h]

/-- A run from `p` does not fault, sets an error when it returns the null pointer, and otherwise
returns what `Q` says. -/
def Triple (x : Parse α) (p : Parser) (Q : α → Parser → Prop) : Prop :=
  match x p with
  | .fault _ => False
  | .null p' => p'.error ≠ ""
  | .value a p' => Q a p'

variable {Q : α → Parser → Prop} {R : β → Parser → Prop}

theorem Triple.mono {x : Parse α} {Q' : α → Parser → Prop} (h : Triple x p Q)
    (hQ : ∀ a p', Q a p' → Q' a p') : Triple x p Q' := by
  unfold Triple at *
  cases hx : x p with
  | fault => simp [hx] at h
  | null => simpa [hx] using h
  | value a p' =>
    simp only [hx] at h ⊢
    exact hQ a p' h

theorem Triple.bind {x : Parse α} {f : α → Parse β} (h : Triple x p Q)
    (hf : ∀ a p', Q a p' → Triple (f a) p' R) : Triple (x >>= f) p R := by
  unfold Triple at h
  cases hx : x p with
  | fault => simp [hx] at h
  | null => simpa [Triple, bind_apply, hx] using h
  | value a p' =>
    simp only [hx] at h
    simpa [Triple, bind_apply, hx] using hf a p' h

theorem Triple.pure {a : α} (h : Q a p) : Triple (pure a) p Q := h

theorem Triple.fail (what : String) : Triple (fail what : Parse α) p Q :=
  Parser.fail_error p what

theorem Triple.unexpected : Triple (Json.unexpected : Parse α) p Q := by
  unfold Json.unexpected
  rw [Triple, peek_bind]
  split_ifs <;> exact Parser.fail_error p _

theorem Triple.atEnd_bind {f : Bool → Parse β} (h : Triple (f p.rest.isEmpty) p R) :
    Triple (atEnd >>= f) p R := h

theorem Triple.peek_bind {f : UInt16 → Parse β} (h : Triple (f (p.rest.headD 0)) p R) :
    Triple (peek >>= f) p R := h

theorem Triple.remaining_bind {f : Nat → Parse β} (h : Triple (f p.rest.length) p R) :
    Triple (remaining >>= f) p R := h

theorem Triple.advance_bind {k : Nat} {f : Unit → Parse β} (h : Triple (f ()) (p.advance k) R) :
    Triple (advance k >>= f) p R := h

theorem Triple.withFuel {loop : Nat → Parse α} (h : Triple (loop (p.rest.length + 1)) p Q) :
    Triple (withFuel loop) p Q := h

theorem Triple.unitAt_bind {i : Nat} {c : UInt16} {f : UInt16 → Parse β}
    (hc : p.rest[i]? = some c) (h : Triple (f c) p R) : Triple (unitAt i >>= f) p R := by
  unfold Triple at *
  rwa [Json.unitAt_bind hc]

end Rules

end Bronze.Json
