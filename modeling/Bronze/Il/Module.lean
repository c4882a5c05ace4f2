import Bronze.Codec.Wire

/-!
# Modules of the intermediate language

The data of a compiled program: functions of blocks of instructions, and the tables that belong to
a module as a whole. The texts of the source files and their line tables are left out: they are
never written, and are rebuilt from the files.

A `double` is its bits. A number that stands for none, such as `kNoValue`, is kept as a number.
-/

namespace Bronze.Il

open Codec

abbrev Str := Vec UInt8

inductive Op where
  | constF64 | constI32 | constBool | constUndefined | constNull | constBigInt | add
  | concatBegin | concatAppend | concatEnd | sub | neg | mul | div | mod | pow | toNumeric
  | numericStep | toInt32 | bitAnd | bitOr | bitXor | mathImul | shl | shr | uShr | bitNot
  | cmpLt | cmpGt | cmpLe | cmpGe | cmpEq | cmpNe | numTruthy | strictEq | looseEq | relLt
  | relGt | relLe | relGe | typeOf | toStr | instanceOf | in_ | isNullish | isNumber
  | isDenseArray | ret | throw | excTake | jump | branch | call | box | unbox | propGet
  | superGet | superSet | propSet | elemGet | elemSet | elemGetTyped | elemSetTyped | mathUnary
  | dynamicCall | construct | createObject | coroStart | coroSuspend | coroMode | dynamicImport
  | moduleNamespace | objectKeys | forInKeys | methodDef | methodDefComputed | accessorDef
  | accessorDefComputed | defineOwnAttr | getNewTarget | importMeta | propDelete | elemDelete
  | globalGet | resolveName | immutableAssign | pinGuard | censusRecord | classExtend
  | privateNew | privateHas | privateGet | privateAdd | privateSet | privateMisuse | iterOpen
  | asyncIterOpen | asyncIterNext | asyncIterClose | iterStep | iterValue | iterClose | iterRest
  | iterDelegate | patternCheck | arrayAppend | arrayAppendHole | arraySpread | objectSpread
  | objectRest | dynamicCallSpread | methodCall | methodCallSpread | superCall | superCallSpread
  | templateCached | templateObject | constructSpread | createArray | createFunction
  | functionRef | envCreate | envGet | envSet | envInitTdz | envGetTdz | moduleEnvSet
  | moduleEnvGet | print | printErr | printSpread | printSpreadErr | keepAlive | methodIcIs
  | accessorIcIs | isTypedArray | isNumberArray | methodSlotFn | closureIs | closureEnv
  | objectLitProto | mathRandom | isShape | layoutEpoch | layoutFact | feedbackRecord | isArray
  deriving DecidableEq, Repr

inductive IlType where
  | void | bool | i32 | f64 | str | dynamic
  deriving DecidableEq, Repr

/-- `Span`: a range of a source file. -/
structure Span where
  begin : UInt32 := 0
  end_ : UInt32 := 0
  file : UInt16 := 0
  deriving DecidableEq

abbrev ValueId := UInt32

abbrev BlockId := UInt32

def kNoValue : ValueId := 0xFFFFFFFF

def kNoBlock : BlockId := 0xFFFFFFFF

structure BlockParam where
  id : ValueId := kNoValue
  type : IlType := .void

structure BlockTarget where
  block : BlockId := kNoBlock
  args : Vec ValueId := ∅

def kNoStaticSlot : UInt32 := 0xFFFFFFFF

def kNoFamily : UInt32 := 0xFFFFFFFF

def kNoTransitionRun : UInt32 := 0xFFFFFFFF

def kNoDefineAddCell : UInt32 := 0xFFFFFFFF

def kNoDirectTarget : UInt32 := 0xFFFFFFFF

def kNoEnvHops : UInt32 := 0xFFFFFFFF

def kChainWaysMask : UInt32 := 7

structure Instruction where
  op : Op
  type : IlType := .void
  result : ValueId := kNoValue
  operands : Vec ValueId := ∅
  immF64 : UInt64 := 0
  immI32 : Int32 := 0
  calleeIndex : UInt32 := 0
  boxType : IlType := .void
  keyIndex : UInt32 := 0
  icIndex : UInt32 := 0
  icMonomorphic : Bool := false
  icPolymorphic : Bool := false
  icAbsent : Bool := false
  icFnRecv : Bool := false
  rawUnbox : Bool := false
  nullishUnbox : Bool := false
  numberBits : Bool := false
  shapeGuarded : Bool := false
  staticSlot : UInt32 := kNoStaticSlot
  staticCellIndex : UInt32 := 0
  familyLo : UInt32 := kNoFamily
  familySpan : UInt32 := 0
  staticSlotGuessed : Bool := false
  staticRegrow : Bool := false
  transitionRunCell : UInt32 := kNoTransitionRun
  transitionRunLength : UInt32 := 0
  transitionRunSlot : UInt32 := 0
  defineAddCell : UInt32 := kNoDefineAddCell
  directTarget : UInt32 := kNoDirectTarget
  typedTarget : UInt32 := kNoDirectTarget
  envDepth : UInt32 := 0
  envIndex : UInt32 := 0
  envImmutable : Bool := false
  numberHint : Bool := false
  truthHint : UInt8 := 0
  icChain : UInt8 := 0
  callEnvHops : UInt32 := kNoEnvHops
  inlineFrame : UInt32 := 0
  span : Span := {}
  target : BlockTarget := {}
  elseTarget : BlockTarget := {}

inductive CopyClass where
  | shared | fast | slow
  deriving DecidableEq, Repr

def kNoCopyRegion : UInt32 := 0xFFFFFFFF

structure Block where
  id : BlockId := 0
  params : Vec BlockParam := ∅
  instructions : Vec Instruction := ∅
  copyClass : CopyClass := .shared
  cold : Bool := false
  copyRegion : UInt32 := kNoCopyRegion
  handler : BlockId := kNoBlock

structure Param where
  name : Str
  type : IlType
  pinned : Bool := false
  pinKeyIndex : UInt32 := 0
  knownConstInt : Option Int64 := none

structure InlineFrame where
  callee : UInt32 := 0
  callSpan : Span := {}
  parent : UInt32 := 0

def kNotCoroutine : Int8 := -1

def kFnFlagsOrdinary : UInt32 := 3

def kNoTypedOrigin : UInt32 := 0xFFFFFFFF

structure Function where
  name : Str := ∅
  params : Vec Param := ∅
  returnType : IlType := .void
  returnPinned : Bool := false
  returnPinKeyIndex : UInt32 := 0
  isExported : Bool := false
  isExternal : Bool := false
  isEntryPoint : Bool := false
  needsEnv : Bool := false
  needsThis : Bool := false
  needsArguments : Bool := false
  isStrict : Bool := false
  isGenerator : Bool := false
  coroKind : Int8 := kNotCoroutine
  fnFlags : UInt32 := kFnFlagsOrdinary
  hasRestParam : Bool := false
  requiredArgs : UInt32 := 0
  nameKeyIndex : UInt32 := 0xFFFFFFFF
  sourceFile : UInt16 := 0
  sourceBegin : UInt32 := 0
  sourceEnd : UInt32 := 0
  displayName : Str := ∅
  descFlags : UInt32 := 0
  typedOrigin : UInt32 := kNoTypedOrigin
  typedArgc : UInt32 := 0
  inlineFrames : Vec InlineFrame := ∅
  blocks : Vec Block := ∅
  valueCount : UInt32 := 0

structure ClassFamilyField where
  keyIndex : UInt32 := 0
  writable : Bool := true

structure ClassFamilyEntry where
  name : Str := ∅
  fields : Vec ClassFamilyField := ∅

structure CensusSiteEntry where
  keyIndex : UInt32 := 0
  info : UInt32 := 0

structure NativeImport where
  name : Str := ∅
  signature : Str := ∅
  functionIndex : UInt32 := 0
  bufferReturnKind : UInt32 := 0xFFFFFFFF

structure Module where
  name : Str := ∅
  keyConstants : Vec Str := ∅
  icSiteCount : UInt32 := 0
  templateSiteCount : UInt32 := 0
  staticSiteCount : UInt32 := 0
  classFamilies : Vec ClassFamilyEntry := ∅
  slotReprFields : Vec UInt32 := ∅
  censusSites : Vec CensusSiteEntry := ∅
  censusOutPath : Str := ∅
  nativeImports : Vec NativeImport := ∅
  functions : Vec Function := ∅
  sourceFiles : Vec Str := ∅

end Bronze.Il
