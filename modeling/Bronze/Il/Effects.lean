import Bronze.Il.Verifier

/-!
# What an instruction does

`src/il/effects.cpp`: whether an instruction can throw, as everything can that runs code of the
program.
-/

namespace Bronze.Il

def kElemKindMask : Int32 := 0xFFFF

def kElemKindPlainArrayF64 : Int32 := 100

/-- `PinBarrier::DenseArray`, a byte -/
def kPinDenseArray : UInt8 := 2

def elemGetCoerces (inst : Instruction) : Bool :=
  inst.op = .elemGetTyped ∧ inst.immI32 &&& kElemKindMask = kElemKindPlainArrayF64

/-- `unbox.f64` of what nothing proved, which is ToNumber. -/
def checkedUnbox (inst : Instruction) : Bool :=
  inst.type = .f64 ∧ inst.rawUnbox = false ∧ inst.nullishUnbox = false

def canThrow (inst : Instruction) : Bool :=
  match inst.op with
  | .constF64 | .constI32 | .constBool | .constUndefined | .constNull | .constBigInt | .cmpLt
  | .cmpGt | .cmpLe | .cmpGe | .cmpEq | .cmpNe | .numTruthy | .strictEq | .isNullish | .isNumber
  | .isDenseArray | .typeOf | .box | .censusRecord | .feedbackRecord | .createObject | .coroMode
  | .moduleNamespace | .createArray | .createFunction | .functionRef | .envCreate | .envGet
  | .envSet | .envInitTdz | .moduleEnvSet | .moduleEnvGet | .privateNew | .globalGet | .print
  | .printErr | .printSpread | .printSpreadErr | .excTake | .keepAlive | .methodIcIs
  | .accessorIcIs | .isShape | .isTypedArray | .isArray | .isNumberArray | .methodSlotFn
  | .closureIs | .closureEnv | .elemSetTyped | .mathUnary | .mathRandom | .layoutEpoch
  | .layoutFact | .templateCached => false
  | .elemGetTyped => elemGetCoerces inst
  | .concatBegin | .concatAppend | .concatEnd | .add | .neg | .sub | .mul | .div | .mod | .pow
  | .bitAnd | .bitOr | .bitXor | .mathImul | .shl | .shr | .uShr => inst.type = .dynamic
  | .bitNot => true
  | .pinGuard => inst.immI32.toUInt32.toUInt8 = kPinDenseArray
  | .unbox => checkedUnbox inst
  | .toInt32 => inst.boxType = .dynamic
  | op => !isTerminator op

end Bronze.Il
