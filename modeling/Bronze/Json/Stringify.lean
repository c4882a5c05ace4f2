import Bronze.Json.NumberText
import Bronze.Json.Parser

/-!
# `JSON.stringify`

The serializer of `json_stringify.cpp`. Whatever can run user code (a read, a call, the own keys of
a proxy, a conversion) is an operation of the runtime on its state, and a parameter; so are the
questions the serializer asks of an object's header. Deep recursion ends in a fault, which the
fuel stands for.
-/

namespace Bronze.Json

/-- A value of the language, objects by their identity. -/
inductive JsValue (O : Type)
  | undefined
  | null
  | bool (b : Bool)
  | number (x : Number)
  | string (text : Units)
  | symbol (id : Nat)
  | bigint (n : Int)
  | object (o : O)

/-- `HeapKind`, as far as the dispatch tells kinds apart. -/
inductive Kind (O : Type)
  | array (length : Nat)
  | plain
  | moduleNamespace
  | typedArray
  | arrayBuffer
  | dataView
  | regExp
  /-- A proxy and its target, none when it is revoked. -/
  | proxy (target : Option (JsValue O))
  /-- An iteration record or an environment. -/
  | internal

inductive Thrown (O : Type)
  | typeError (message : String)
  | user (value : JsValue O)

/-- How a run ended: with an answer, a throw, or the death of the process. -/
inductive Result (W O α : Type)
  | done (a : α) (w : W)
  | threw (t : Thrown O) (w : W)
  | fault

/-- A computation over the state of the runtime. -/
def Run (W O α : Type) : Type := W → Result W O α

namespace Run

variable {W O : Type}

instance : Monad (Run W O) where
  pure a := fun w => .done a w
  bind x f := fun w =>
    match x w with
    | .done a w' => f a w'
    | .threw t w' => .threw t w'
    | .fault => .fault

/-- A question that changes nothing. -/
def read {α : Type} (f : W → α) : Run W O α := fun w => .done (f w) w

def typeError {α : Type} (message : String) : Run W O α := fun w => .threw (.typeError message) w

/-- `fatal`, or a stack that is used up. -/
def fault {α : Type} : Run W O α := fun _ => .fault

end Run

/-- What the serializer uses of the runtime. -/
structure Runtime (W O : Type) where
  /-- `bronze_elem_get` -/
  elemGet : JsValue O → Units → Run W O (JsValue O)
  /-- `bronze_dynamic_call`: the function, the receiver and the arguments. -/
  dynamicCall : JsValue O → JsValue O → List (JsValue O) → Run W O (JsValue O)
  /-- `bronze_object_keys` -/
  objectKeys : JsValue O → Run W O (List Units)
  /-- `rtToNumber` -/
  toNumber : JsValue O → Run W O Number
  /-- A fresh plain object that has the value under the empty key. -/
  createWrapper : JsValue O → Run W O (JsValue O)
  kind : W → O → Kind O
  /-- `rtIsCallableValue` -/
  callable : W → O → Bool
  /-- `rtWrapperPrimitive` -/
  wrapperPrimitive : W → O → Option (JsValue O)
  /-- `rtBigIntWrapperData` -/
  bigIntWrapperData : W → O → Option (JsValue O)
  /-- `shape->prototypeValue().isNull()` -/
  prototypeIsNull : W → O → Bool
  /-- `shape->lookupProperty`, and what the slot holds. -/
  ownSlot : W → O → Units → Option (JsValue O)
  /-- `ArrayHeader::getElem` -/
  arrayElement : W → O → Nat → JsValue O

/-- A lower-case hexadecimal digit. -/
def hexUnit (d : Nat) : UInt16 :=
  if d < 10 then unit '0' + d.toUInt16 else unit 'a' + (d - 10).toUInt16

def isHighSurrogate (c : UInt16) : Bool := 0xD800 ≤ c && c ≤ 0xDBFF

def isLowSurrogate (c : UInt16) : Bool := 0xDC00 ≤ c && c ≤ 0xDFFF

/-- `\u` and the four digits of a unit. -/
def escapeUnit (c : UInt16) : Units :=
  [unit '\\', unit 'u', hexUnit (c.toNat / 4096 % 16), hexUnit (c.toNat / 256 % 16),
    hexUnit (c.toNat / 16 % 16), hexUnit (c.toNat % 16)]

/-- The escape of one character that a unit has, if it has one. -/
def shortEscape (c : UInt16) : Option Units :=
  if c = 0x08 then some (units "\\b")
  else if c = 0x09 then some (units "\\t")
  else if c = 0x0A then some (units "\\n")
  else if c = 0x0C then some (units "\\f")
  else if c = 0x0D then some (units "\\r")
  else if c = 0x22 then some (units "\\\"")
  else if c = 0x5C then some (units "\\\\")
  else none

/-- The loop of `quoteJsonString`. -/
def quoteUnits : Units → Units
  | [] => []
  | [c] => quoteUnit c
  | c :: d :: rest =>
    -- a surrogate pair passes through whole
    if isHighSurrogate c && isLowSurrogate d then c :: d :: quoteUnits rest
    else quoteUnit c ++ quoteUnits (d :: rest)
where
  /-- One unit that starts no pair. -/
  quoteUnit (c : UInt16) : Units :=
    match shortEscape c with
    | some escape => escape
    | none => if c < 0x20 || (0xD800 ≤ c && c ≤ 0xDFFF) then escapeUnit c else [c]

def quoteJsonString (s : Units) : Units :=
  unit '"' :: (quoteUnits s ++ [unit '"'])

/-- The parts, with a comma and `between` between two, each after `before`. -/
def joinParts (before between : Units) : List Units → Units
  | [] => []
  | [part] => before ++ part
  | part :: parts => before ++ (part ++ (unit ',' :: (between ++ joinParts before between parts)))

def joinPartial (parts : List Units) (indent stepback gap : Units) (opening closing : UInt16) :
    Units :=
  if parts = [] then [opening, closing]
  else if gap = [] then opening :: (joinParts [] [] parts ++ [closing])
  else opening :: unit '\n' ::
    (joinParts indent [unit '\n'] parts ++ (unit '\n' :: (stepback ++ [closing])))

/-! ## The serializer -/

/-- `State`, but for the indentation and the stack, which are handed down. -/
structure State (O : Type) where
  gap : Units
  /-- The replacer, when it is a function. -/
  replacer : Option (JsValue O)
  /-- The allow-list, when the replacer is an array. -/
  propertyList : Option (List Units)

section Serialize

variable {W O : Type} [DecidableEq O] (rt : Runtime W O) (state : State O)

def isCallable (w : W) : JsValue O → Bool
  | .object o => rt.callable w o
  | _ => false

/-- What serializes a property: the indentation, the stack, the key and the holder. -/
abbrev Serializer (W O : Type) : Type :=
  Units → List O → Units → JsValue O → Run W O (Option Units)

def serializeArray (serialize : Serializer W O) (indent : Units) (stack : List O) (o : O)
    (length : Nat) : Run W O (Option Units) :=
  if o ∈ stack then .typeError "Converting circular structure to JSON"
  else do
    let parts ← (List.range length).mapM fun i => do
      let element ← serialize (indent ++ state.gap) (o :: stack) (units (toString i)) (.object o)
      return element.getD (units "null")
    return some (joinPartial parts (indent ++ state.gap) indent state.gap (unit '[') (unit ']'))

/-- The member of an object, from the text of its value. -/
def memberText (gap key value : Units) : Units :=
  quoteJsonString key ++ (unit ':' :: ((if gap = [] then [] else [unit ' ']) ++ value))

/-- The keys `serializeObject` visits: the allow-list, or the own enumerable ones. -/
def memberKeys (o : O) : Run W O (List Units) :=
  match state.propertyList with
  | some keys => return keys
  | none => rt.objectKeys (.object o)

/-- The loop of `serializeObject` over the keys. -/
def serializeMembers (serialize : Serializer W O) (indent : Units) (stack : List O) (o : O)
    (keys : List Units) : Run W O (Option Units) := do
  let members ← keys.mapM fun key => do
    let serialized ← serialize (indent ++ state.gap) (o :: stack) key (.object o)
    return serialized.map (memberText state.gap key)
  -- an undefined member is not written at all
  let parts := members.filterMap id
  return some (joinPartial parts (indent ++ state.gap) indent state.gap (unit '{') (unit '}'))

def serializeObject (serialize : Serializer W O) (indent : Units) (stack : List O) (o : O) :
    Run W O (Option Units) :=
  if o ∈ stack then .typeError "Converting circular structure to JSON"
  else do
    let keys ← memberKeys rt state o
    serializeMembers state serialize indent stack o keys

/-- The loop of `serializeProxy`: what is behind a chain of proxies. -/
def proxyTarget : Nat → JsValue O → Run W O (JsValue O)
  | 0, _ => .fault
  | fuel + 1, .object o => do
    match ← Run.read fun w => rt.kind w o with
    | .proxy none => .typeError "Cannot perform 'IsArray' on a proxy that has been revoked"
    | .proxy (some target) => proxyTarget fuel target
    | _ => return .object o
  | _ + 1, v => return v

def isArray (w : W) : JsValue O → Bool
  | .object o => match rt.kind w o with
    | .array _ => true
    | _ => false
  | _ => false

/-- The length a number stands for, capped where the index of the loop is. -/
def lengthOf : Number → Nat
  | .nan => 0
  | .infinity negative => if negative then 0 else 4294967295
  | .finite negative x =>
    if negative then 0 else if 4294967295 ≤ x.value then 4294967295 else ⌊x.value⌋.toNat

def serializeProxy (serialize : Serializer W O) (fuel : Nat) (indent : Units) (stack : List O)
    (o : O) : Run W O (Option Units) := do
  let target ← proxyTarget rt fuel (.object o)
  if ← Run.read fun w => isArray rt w target then
    let lengthValue ← rt.elemGet (.object o) (units "length")
    let n ← rt.toNumber lengthValue
    serializeArray state serialize indent stack o (lengthOf n)
  else serializeObject rt state serialize indent stack o

/-- The text of a raw JSON object: no prototype, and the two names `JSON.rawJSON` gives one. -/
def rawJson (w : W) (o : O) : Option Units :=
  if rt.prototypeIsNull w o then
    match rt.ownSlot w o (units "__isRawJSON__"), rt.ownSlot w o (units "rawJSON") with
    | some _, some (.string raw) => some raw
    | _, _ => none
  else none

/-- `toJSON`, consulted on any object. -/
def consultToJson (key : Units) : JsValue O → Run W O (JsValue O)
  | .object o => do
    let toJson ← rt.elemGet (.object o) (units "toJSON")
    if ← Run.read fun w => isCallable rt w toJson then
      rt.dynamicCall toJson (.object o) [.string key]
    else return .object o
  | v => return v

/-- The replacer function, which sees every key. -/
def consultReplacer (key : Units) (holder value : JsValue O) : Run W O (JsValue O) :=
  match state.replacer with
  | some replacer => rt.dynamicCall replacer holder [.string key, value]
  | none => return value

/-- A primitive wrapper is unwrapped. -/
def unwrap (w : W) : JsValue O → JsValue O
  | .object o =>
    ((rt.wrapperPrimitive w o).orElse fun _ => rt.bigIntWrapperData w o).getD (.object o)
  | v => v

/-- The dispatch over the kind of an object. -/
def serializeObjectValue (serialize : Serializer W O) (fuel : Nat) (indent : Units)
    (stack : List O) (o : O) : Run W O (Option Units) := do
  match ← Run.read fun w => rt.kind w o with
  | .array length => serializeArray state serialize indent stack o length
  | .plain =>
    match ← Run.read fun w => rawJson rt w o with
    | some raw => return some raw
    | none => serializeObject rt state serialize indent stack o
  | .moduleNamespace | .typedArray | .arrayBuffer | .dataView | .regExp =>
    serializeObject rt state serialize indent stack o
  | .proxy _ => serializeProxy rt state serialize fuel indent stack o
  | .internal => .fault

/-- The dispatch over the type of a value. -/
def serializeValue (serialize : Serializer W O) (fuel : Nat) (indent : Units) (stack : List O) :
    JsValue O → Run W O (Option Units)
  | .null => return some (units "null")
  | .bool b => return some (units (if b then "true" else "false"))
  | .string s => return some (quoteJsonString s)
  | .bigint _ => .typeError "Do not know how to serialize a BigInt"
  | .number (.finite negative x) => return some (formatJsNumber (.finite negative x))
  | .number _ => return some (units "null")
  | .object o => do
    if ← Run.read fun w => rt.callable w o then return none
    else serializeObjectValue rt state serialize fuel indent stack o
  | .undefined => return none
  | .symbol _ => return none

def serializeProperty : Nat → Serializer W O
  | 0, _, _, _, _ => .fault
  | fuel + 1, indent, stack, key, holder => do
    let value ← rt.elemGet holder key
    let value ← consultToJson rt key value
    let value ← consultReplacer rt state key holder value
    let value ← Run.read fun w => unwrap rt w value
    serializeValue rt state (serializeProperty fuel) fuel indent stack value

/-- A Number or a String wrapper gives its primitive. -/
def unwrapArgument (w : W) : JsValue O → JsValue O
  | .object o => match rt.wrapperPrimitive w o with
    | some (.bool _) => .object o
    | some primitive => primitive
    | none => .object o
  | v => v

/-- The key an element of an array replacer names, if it names one. -/
def listedKey (w : W) (item : JsValue O) : Option Units :=
  match unwrapArgument rt w item with
  | .string s => some s
  | .number x => some (formatJsNumber x)
  | _ => none

/-- The allow-list: in the order of the array, without duplicates. -/
def allowList (w : W) (o : O) (length : Nat) : List Units :=
  (List.range length).foldl (fun list i =>
    match listedKey rt w (rt.arrayElement w o i) with
    | some key => if key ∈ list then list else list ++ [key]
    | none => list) []

/-- The number of spaces a number asks for. -/
def spaces : Number → Nat
  | .nan => 0
  | .infinity negative => if negative then 0 else 10
  | .finite negative x => if negative then 0 else min 10 ⌊x.value⌋.toNat

/-- The gap the `space` argument asks for. -/
def gapOf (w : W) (space : JsValue O) : Units :=
  match unwrapArgument rt w space with
  | .number x => List.replicate (spaces x) (unit ' ')
  | .string s => s.take 10
  | _ => []

/-- The state the `replacer` and `space` arguments ask for. -/
def stateOf (w : W) (replacer space : JsValue O) : State O where
  gap := gapOf rt w space
  replacer := if isCallable rt w replacer then some replacer else none
  propertyList :=
    if isCallable rt w replacer then none
    else match replacer with
      | .object o => match rt.kind w o with
        | .array length => some (allowList rt w o length)
        | _ => none
      | _ => none

/-- `rtJsonStringify`; the fuel bounds the recursion. -/
def rtJsonStringify (fuel : Nat) (value replacer space : JsValue O) : Run W O (JsValue O) := do
  let state ← Run.read fun w => stateOf rt w replacer space
  let wrapper ← rt.createWrapper value
  let out ← serializeProperty rt state fuel [] [] [] wrapper
  return (out.map .string).getD .undefined

end Serialize

/-- `jsonRawJSON`: the text the object it makes is tagged with, or the message of the error. -/
def jsonRawJSON (text : Units) : Except Fault (Except String Units) :=
  (parse text).map fun answer =>
    if answer.1.isSome then .ok text else .error ("SyntaxError: " ++ answer.2)

end Bronze.Json
