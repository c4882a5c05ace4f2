import Bronze.Il.Module

/-!
# The bytes of a module

The writer puts the fields of a module one after another. A field of an instruction that has its
default is left out, and a mask before the fields says which are there; the reader takes the
defaults for the others. `staticRegrow` has no field in the bytes.

A reader is made of the steps of a `Wire`, so it is one that stops at a failure and one that goes on.
-/

namespace Bronze.Il

open Codec

variable {M : Type → Type} [Monad M] [Wire M]

def Op.byte (op : Op) : UInt8 := .ofNat op.ctorIdx

def IlType.byte (t : IlType) : UInt8 := .ofNat t.ctorIdx

def CopyClass.byte (c : CopyClass) : UInt8 := .ofNat c.ctorIdx

def readOp : M Op := Wire.enum Op.ofNat Op.isArray.ctorIdx "bad op"

def readType : M IlType := Wire.enum IlType.ofNat IlType.dynamic.ctorIdx "bad type"

def readCopyClass : M CopyClass :=
  Wire.enum CopyClass.ofNat CopyClass.slow.ctorIdx "bad copy class"

def writeFlag (b : Bool) : Bytes := Writer.u8 (if b then 1 else 0)

def readFlag : M Bool := do
  let b ← Wire.u8
  pure (b ≠ 0)

/-- A 32-bit number of the bytes. -/
def writeU32 (v : UInt32) : Bytes := Writer.var v.toUInt64

/-- A number that may be the greatest one, which wraps to 0. -/
def writeNext (v : UInt32) : Bytes := writeU32 (v + 1)

def readNext : M UInt32 := do
  let v ← Wire.u32
  pure (v - 1)

/-- A file, read as a number that must be small enough. -/
def readFile (what : String) : M UInt16 := do
  let file ← Wire.u32
  Wire.reject (file > 0xFFFF) what
  pure file.toUInt16

def writeFile (file : UInt16) : Bytes := writeU32 file.toUInt32

/-! ## Instructions -/

/-- `InstBits`: the bits of the mask of an instruction, lowest first. -/
inductive InstBits where
  | hasResult | hasOperands | hasImmF64 | hasImmI32 | hasCallee | hasBoxType | hasKey | hasIc
  | hasStaticSlot | hasStaticCell | hasFamilyLo | hasFamilySpan | hasDirect | hasEnvDepth
  | hasEnvIndex | hasEnvHops | hasSpan | hasTarget | hasElse | icMonomorphic | icFnRecv | rawUnbox
  | nullishUnbox | envImmutable | hasTyped | hasInlineFrame | hasTransitionRun | hasDefineAdd
  | numberBits | staticSlotGuessed | icPolymorphic | icAbsent | shapeGuarded | numberHint
  | hasTruthHint | hasIcChain
  deriving DecidableEq

/-- The bit, of a mask that was written or read. -/
def InstBits.on (b : InstBits) (m : UInt64) : Bool := bit m b.ctorIdx

def kKnownBits : UInt64 := ((1 : UInt64) <<< 36) - 1

def hasTarget (t : BlockTarget) : Bool := t.block ≠ kNoBlock ∨ t.args.1 ≠ []

/-- What the mask of an instruction says of it. -/
def Instruction.bits (inst : Instruction) : InstBits → Bool
  | .hasResult => inst.result ≠ kNoValue
  | .hasOperands => inst.operands.1 ≠ []
  | .hasImmF64 => inst.immF64 ≠ 0
  | .hasImmI32 => inst.immI32 ≠ 0
  | .hasCallee => inst.calleeIndex ≠ 0
  | .hasBoxType => inst.boxType ≠ .void
  | .hasKey => inst.keyIndex ≠ 0
  | .hasIc => inst.icIndex ≠ 0
  | .hasStaticSlot => inst.staticSlot ≠ kNoStaticSlot
  | .hasStaticCell => inst.staticCellIndex ≠ 0
  | .hasFamilyLo => inst.familyLo ≠ kNoFamily
  | .hasFamilySpan => inst.familySpan ≠ 0
  | .hasDirect => inst.directTarget ≠ kNoDirectTarget
  | .hasEnvDepth => inst.envDepth ≠ 0
  | .hasEnvIndex => inst.envIndex ≠ 0
  | .hasEnvHops => inst.callEnvHops ≠ kNoEnvHops
  | .hasSpan => inst.span.begin ≠ 0 ∨ inst.span.end_ ≠ 0 ∨ inst.span.file ≠ 0
  | .hasTarget => hasTarget inst.target
  | .hasElse => hasTarget inst.elseTarget
  | .icMonomorphic => inst.icMonomorphic
  | .icFnRecv => inst.icFnRecv
  | .rawUnbox => inst.rawUnbox
  | .nullishUnbox => inst.nullishUnbox
  | .envImmutable => inst.envImmutable
  | .hasTyped => inst.typedTarget ≠ kNoDirectTarget
  | .hasInlineFrame => inst.inlineFrame ≠ 0
  | .hasTransitionRun => inst.transitionRunCell ≠ kNoTransitionRun
  | .hasDefineAdd => inst.defineAddCell ≠ kNoDefineAddCell
  | .numberBits => inst.numberBits
  | .staticSlotGuessed => inst.staticSlotGuessed
  | .icPolymorphic => inst.icPolymorphic
  | .icAbsent => inst.icAbsent
  | .shapeGuarded => inst.shapeGuarded
  | .numberHint => inst.numberHint
  | .hasTruthHint => inst.truthHint ≠ 0
  | .hasIcChain => inst.icChain ≠ 0

def Instruction.mask (inst : Instruction) : UInt64 :=
  Codec.mask (fun i => inst.bits (InstBits.ofNat i)) 36

def writeTarget (t : BlockTarget) : Bytes :=
  [writeNext t.block, Writer.vec writeU32 t.args].flatten

def readTarget : M BlockTarget := do
  let block ← readNext
  let args ← Wire.vec Wire.u32
  pure { block, args }

/-- The span of an instruction: its begin, its length, its file. -/
def writeSpan (s : Span) : Bytes :=
  [writeU32 s.begin, Writer.svar (s.end_.toUInt64.toInt64 - s.begin.toUInt64.toInt64),
    writeFile s.file].flatten

def readSpan : M Span := do
  let begin ← Wire.u32
  let d ← Wire.i32
  let len := begin.toUInt64.toInt64 + d.toInt64
  Wire.reject (len.toInt < 0 ∨ len.toInt > 0xFFFFFFFF) "bad span"
  let file ← readFile "bad span file"
  pure { begin, end_ := len.toUInt64.toUInt32, file }

/-- The three fields of a transition run, which ride on one bit. -/
def writeTransitionRun (inst : Instruction) : Bytes :=
  [writeU32 inst.transitionRunCell, writeU32 inst.transitionRunLength,
    writeU32 inst.transitionRunSlot].flatten

def readTransitionRun : M (UInt32 × UInt32 × UInt32) := do
  let cell ← Wire.u32
  let length ← Wire.u32
  let slot ← Wire.u32
  pure (cell, length, slot)

def readTruthHint : M UInt8 := do
  let h ← Wire.u32
  Wire.reject (h = 0 ∨ h > 15) "bad truthiness hint"
  pure h.toUInt8

def readIcChain : M UInt8 := do
  let c ← Wire.u32
  Wire.reject (c = 0 ∨ c > 15 ∨ c &&& kChainWaysMask > 4) "bad inline-cache chain"
  pure c.toUInt8

def writeInstruction (inst : Instruction) : Bytes :=
  let m := inst.mask
  let field (b : InstBits) (bytes : Bytes) := Writer.field (b.on m) bytes
  [Writer.u8 inst.op.byte,
    Writer.u8 inst.type.byte,
    Writer.var m,
    field .hasResult (writeU32 inst.result),
    field .hasOperands (Writer.vec writeU32 inst.operands),
    field .hasImmF64 (Writer.f64 inst.immF64),
    field .hasImmI32 (Writer.svar inst.immI32.toInt64),
    field .hasCallee (writeU32 inst.calleeIndex),
    field .hasBoxType (Writer.u8 inst.boxType.byte),
    field .hasKey (writeU32 inst.keyIndex),
    field .hasIc (writeU32 inst.icIndex),
    field .hasStaticSlot (writeU32 inst.staticSlot),
    field .hasStaticCell (writeU32 inst.staticCellIndex),
    field .hasFamilyLo (writeU32 inst.familyLo),
    field .hasFamilySpan (writeU32 inst.familySpan),
    field .hasDirect (writeU32 inst.directTarget),
    field .hasTyped (writeU32 inst.typedTarget),
    field .hasEnvDepth (writeU32 inst.envDepth),
    field .hasEnvIndex (writeU32 inst.envIndex),
    field .hasEnvHops (writeU32 inst.callEnvHops),
    field .hasInlineFrame (writeU32 inst.inlineFrame),
    field .hasTransitionRun (writeTransitionRun inst),
    field .hasDefineAdd (writeU32 inst.defineAddCell),
    field .hasTruthHint (writeU32 inst.truthHint.toUInt32),
    field .hasIcChain (writeU32 inst.icChain.toUInt32),
    field .hasSpan (writeSpan inst.span),
    field .hasTarget (writeTarget inst.target),
    field .hasElse (writeTarget inst.elseTarget)].flatten

def readInstruction : M Instruction := do
  let op ← readOp
  let type ← readType
  let m ← Wire.var
  Wire.reject (m &&& ~~~kKnownBits ≠ 0) "unknown instruction field"
  let result ← Wire.field (InstBits.hasResult.on m) kNoValue Wire.u32
  let operands ← Wire.field (InstBits.hasOperands.on m) ∅ (Wire.vec Wire.u32)
  let immF64 ← Wire.field (InstBits.hasImmF64.on m) 0 Wire.f64
  let immI32 ← Wire.field (InstBits.hasImmI32.on m) 0 Wire.i32
  let calleeIndex ← Wire.field (InstBits.hasCallee.on m) 0 Wire.u32
  let boxType ← Wire.field (InstBits.hasBoxType.on m) .void readType
  let keyIndex ← Wire.field (InstBits.hasKey.on m) 0 Wire.u32
  let icIndex ← Wire.field (InstBits.hasIc.on m) 0 Wire.u32
  let staticSlot ← Wire.field (InstBits.hasStaticSlot.on m) kNoStaticSlot Wire.u32
  let staticCellIndex ← Wire.field (InstBits.hasStaticCell.on m) 0 Wire.u32
  let familyLo ← Wire.field (InstBits.hasFamilyLo.on m) kNoFamily Wire.u32
  let familySpan ← Wire.field (InstBits.hasFamilySpan.on m) 0 Wire.u32
  let directTarget ← Wire.field (InstBits.hasDirect.on m) kNoDirectTarget Wire.u32
  let typedTarget ← Wire.field (InstBits.hasTyped.on m) kNoDirectTarget Wire.u32
  let envDepth ← Wire.field (InstBits.hasEnvDepth.on m) 0 Wire.u32
  let envIndex ← Wire.field (InstBits.hasEnvIndex.on m) 0 Wire.u32
  let callEnvHops ← Wire.field (InstBits.hasEnvHops.on m) kNoEnvHops Wire.u32
  let inlineFrame ← Wire.field (InstBits.hasInlineFrame.on m) 0 Wire.u32
  let run ← Wire.field (InstBits.hasTransitionRun.on m) (kNoTransitionRun, 0, 0) readTransitionRun
  let defineAddCell ← Wire.field (InstBits.hasDefineAdd.on m) kNoDefineAddCell Wire.u32
  let truthHint ← Wire.field (InstBits.hasTruthHint.on m) 0 readTruthHint
  let icChain ← Wire.field (InstBits.hasIcChain.on m) 0 readIcChain
  let span ← Wire.field (InstBits.hasSpan.on m) {} readSpan
  let target ← Wire.field (InstBits.hasTarget.on m) {} readTarget
  let elseTarget ← Wire.field (InstBits.hasElse.on m) {} readTarget
  pure
    { op, type, result, operands, immF64, immI32, calleeIndex, boxType, keyIndex, icIndex,
      staticSlot, staticCellIndex, familyLo, familySpan, directTarget, typedTarget, envDepth,
      envIndex, callEnvHops, inlineFrame, defineAddCell, truthHint, icChain, span, target,
      elseTarget
      transitionRunCell := run.1
      transitionRunLength := run.2.1
      transitionRunSlot := run.2.2
      icMonomorphic := InstBits.icMonomorphic.on m
      icPolymorphic := InstBits.icPolymorphic.on m
      icAbsent := InstBits.icAbsent.on m
      icFnRecv := InstBits.icFnRecv.on m
      rawUnbox := InstBits.rawUnbox.on m
      nullishUnbox := InstBits.nullishUnbox.on m
      numberBits := InstBits.numberBits.on m
      shapeGuarded := InstBits.shapeGuarded.on m
      staticSlotGuessed := InstBits.staticSlotGuessed.on m
      envImmutable := InstBits.envImmutable.on m
      numberHint := InstBits.numberHint.on m }

def writeBlockParam (p : BlockParam) : Bytes := [writeU32 p.id, Writer.u8 p.type.byte].flatten

def readBlockParam : M BlockParam := do
  let id ← Wire.u32
  let type ← readType
  pure { id, type }

def writeBlock (b : Block) : Bytes :=
  [writeU32 b.id,
    Writer.vec writeBlockParam b.params,
    Writer.u8 b.copyClass.byte,
    writeFlag b.cold,
    writeNext b.copyRegion,
    writeNext b.handler,
    Writer.vec writeInstruction b.instructions].flatten

def readBlock : M Block := do
  let id ← Wire.u32
  let params ← Wire.vec readBlockParam
  let copyClass ← readCopyClass
  let cold ← readFlag
  let copyRegion ← readNext
  let handler ← readNext
  let instructions ← Wire.vecOk { op := .constF64 } readInstruction
  pure { id, params, copyClass, cold, copyRegion, handler, instructions }

/-! ## Functions -/

/-- `FnBits`: the bits of the mask of a function, lowest first. -/
inductive FnBits where
  | returnPinned | isExported | isExternal | isEntryPoint | needsEnv | needsThis | needsArguments
  | isStrict | isGenerator | hasRestParam
  deriving DecidableEq

def FnBits.on (b : FnBits) (m : UInt64) : Bool := bit m b.ctorIdx

def Function.bits (fn : Function) : FnBits → Bool
  | .returnPinned => fn.returnPinned
  | .isExported => fn.isExported
  | .isExternal => fn.isExternal
  | .isEntryPoint => fn.isEntryPoint
  | .needsEnv => fn.needsEnv
  | .needsThis => fn.needsThis
  | .needsArguments => fn.needsArguments
  | .isStrict => fn.isStrict
  | .isGenerator => fn.isGenerator
  | .hasRestParam => fn.hasRestParam

def Function.mask (fn : Function) : UInt64 := Codec.mask (fun i => fn.bits (FnBits.ofNat i)) 10

/-- The flags of a parameter: 1 if it is pinned, 2 if it is known to be constant. -/
def Param.flags (p : Param) : UInt8 :=
  (if p.pinned then 1 else 0) ||| (if p.knownConstInt.isSome then 2 else 0)

def writeKnownConstInt : Option Int64 → Bytes
  | none => []
  | some v => Writer.svar v

def readKnownConstInt : M (Option Int64) := do
  let v ← Wire.i32
  pure (some v.toInt64)

def writeParam (p : Param) : Bytes :=
  [Writer.str p.name,
    Writer.u8 p.type.byte,
    Writer.u8 p.flags,
    writeU32 p.pinKeyIndex,
    writeKnownConstInt p.knownConstInt].flatten

def readParam : M Param := do
  let name ← Wire.str
  let type ← readType
  let pflags ← Wire.u8
  let pinKeyIndex ← Wire.u32
  let knownConstInt ← Wire.field (pflags &&& 2 ≠ 0) none readKnownConstInt
  pure { name, type, pinned := pflags &&& 1 ≠ 0, pinKeyIndex, knownConstInt }

def writeInlineFrame (f : InlineFrame) : Bytes :=
  [writeU32 f.callee, writeU32 f.callSpan.begin, writeU32 f.callSpan.end_,
    writeFile f.callSpan.file, writeU32 f.parent].flatten

def readInlineFrame : M InlineFrame := do
  let callee ← Wire.u32
  let begin ← Wire.u32
  let end_ ← Wire.u32
  let file ← readFile "bad inline frame file"
  let parent ← Wire.u32
  pure { callee, callSpan := { begin, end_, file }, parent }

def readCoroKind : M Int8 := do
  let coro ← Wire.i32
  Wire.reject (coro.toInt < -128 ∨ coro.toInt > 127) "bad coroutine kind"
  pure coro.toInt8

def writeFunction (fn : Function) : Bytes :=
  [Writer.str fn.name,
    Writer.var fn.mask,
    Writer.vec writeParam fn.params,
    Writer.u8 fn.returnType.byte,
    writeU32 fn.returnPinKeyIndex,
    Writer.svar fn.coroKind.toInt64,
    writeU32 fn.fnFlags,
    writeU32 fn.requiredArgs,
    writeU32 fn.nameKeyIndex,
    writeFile fn.sourceFile,
    writeU32 fn.sourceBegin,
    writeU32 fn.sourceEnd,
    Writer.str fn.displayName,
    writeU32 fn.descFlags,
    writeNext fn.typedOrigin,
    writeU32 fn.typedArgc,
    Writer.vec writeInlineFrame fn.inlineFrames,
    writeU32 fn.valueCount,
    Writer.vec writeBlock fn.blocks].flatten

def readFunction : M Function := do
  let name ← Wire.str
  let bits ← Wire.var
  let params ← Wire.vec readParam
  let returnType ← readType
  let returnPinKeyIndex ← Wire.u32
  let coroKind ← readCoroKind
  let fnFlags ← Wire.u32
  let requiredArgs ← Wire.u32
  let nameKeyIndex ← Wire.u32
  let sourceFile ← readFile "bad source file"
  let sourceBegin ← Wire.u32
  let sourceEnd ← Wire.u32
  let displayName ← Wire.str
  let descFlags ← Wire.u32
  let typedOrigin ← readNext
  let typedArgc ← Wire.u32
  let inlineFrames ← Wire.vec readInlineFrame
  let valueCount ← Wire.u32
  let blocks ← Wire.vecOk {} readBlock
  pure
    { name, params, returnType, returnPinKeyIndex, coroKind, fnFlags, requiredArgs, nameKeyIndex,
      sourceFile, sourceBegin, sourceEnd, displayName, descFlags, typedOrigin, typedArgc,
      inlineFrames, valueCount, blocks
      returnPinned := FnBits.returnPinned.on bits
      isExported := FnBits.isExported.on bits
      isExternal := FnBits.isExternal.on bits
      isEntryPoint := FnBits.isEntryPoint.on bits
      needsEnv := FnBits.needsEnv.on bits
      needsThis := FnBits.needsThis.on bits
      needsArguments := FnBits.needsArguments.on bits
      isStrict := FnBits.isStrict.on bits
      isGenerator := FnBits.isGenerator.on bits
      hasRestParam := FnBits.hasRestParam.on bits }

def writeClassFamilyField (f : ClassFamilyField) : Bytes :=
  [writeU32 f.keyIndex, writeFlag f.writable].flatten

def readClassFamilyField : M ClassFamilyField := do
  let keyIndex ← Wire.u32
  let writable ← readFlag
  pure { keyIndex, writable }

def writeClassFamily (fam : ClassFamilyEntry) : Bytes :=
  [Writer.str fam.name, Writer.vec writeClassFamilyField fam.fields].flatten

def readClassFamily : M ClassFamilyEntry := do
  let name ← Wire.str
  let fields ← Wire.vec readClassFamilyField
  pure { name, fields }

def writeCensusSite (c : CensusSiteEntry) : Bytes :=
  [writeU32 c.keyIndex, writeU32 c.info].flatten

def readCensusSite : M CensusSiteEntry := do
  let keyIndex ← Wire.u32
  let info ← Wire.u32
  pure { keyIndex, info }

def writeNativeImport (n : NativeImport) : Bytes :=
  [Writer.str n.name, Writer.str n.signature, writeU32 n.functionIndex,
    writeU32 n.bufferReturnKind].flatten

def readNativeImport : M NativeImport := do
  let name ← Wire.str
  let signature ← Wire.str
  let functionIndex ← Wire.u32
  let bufferReturnKind ← Wire.u32
  pure { name, signature, functionIndex, bufferReturnKind }

def kModuleMagic : UInt64 := 0x4C49524B

def kFormatVersion : UInt64 := 25

/-- What follows the magic number and the version. -/
def writeModule (m : Module) : Bytes :=
  [Writer.str m.name,
    Writer.vec Writer.str m.keyConstants,
    writeU32 m.icSiteCount,
    writeU32 m.templateSiteCount,
    writeU32 m.staticSiteCount,
    Writer.vec writeClassFamily m.classFamilies,
    Writer.vec writeU32 m.slotReprFields,
    Writer.vec writeCensusSite m.censusSites,
    Writer.str m.censusOutPath,
    Writer.vec writeNativeImport m.nativeImports,
    Writer.vec Writer.str m.sourceFiles,
    Writer.vec writeFunction m.functions].flatten

def readModule : M Module := do
  let name ← Wire.str
  let keyConstants ← Wire.vec Wire.str
  let icSiteCount ← Wire.u32
  let templateSiteCount ← Wire.u32
  let staticSiteCount ← Wire.u32
  let classFamilies ← Wire.vec readClassFamily
  let slotReprFields ← Wire.vec Wire.u32
  let censusSites ← Wire.vec readCensusSite
  let censusOutPath ← Wire.str
  let nativeImports ← Wire.vec readNativeImport
  let sourceFiles ← Wire.vec Wire.str
  let functions ← Wire.vecOk {} readFunction
  pure
    { name, keyConstants, icSiteCount, templateSiteCount, staticSiteCount, classFamilies,
      slotReprFields, censusSites, censusOutPath, nativeImports, sourceFiles, functions }

def serializeModule (m : Module) : Bytes :=
  Writer.var kModuleMagic ++ (Writer.var kFormatVersion ++ writeModule m)

/-- A number that the bytes must begin with. -/
def expect (n : UInt64) (what : String) (bytes : Bytes) : Except String Bytes :=
  match Reader.var bytes with
  | .ok (v, rest) => if v = n then .ok rest else .error what
  | .error _ => .error what

/-- The module that was read, if nothing is left. -/
def finish : Except String (Module × Bytes) → Except String Module
  | .ok (m, []) => .ok m
  | .ok (_, _ :: _) => .error ("malformed IL: " ++ "trailing bytes")
  | .error what => .error ("malformed IL: " ++ what)

def deserializeModule (bytes : Bytes) : Except String Module := do
  let bytes ← expect kModuleMagic "not an IL module" bytes
  let bytes ← expect kFormatVersion "IL format version mismatch" bytes
  finish (readModule (M := Reader) bytes)

end Bronze.Il
