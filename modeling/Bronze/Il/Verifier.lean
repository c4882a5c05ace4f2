import Bronze.Il.Module
import Bronze.Fixpoint.Passes

/-!
# The verifier

`verifyFunction` of `src/il/verifier.cpp`.  It records where each value is defined, builds the
control-flow graph with an edge from every block to its handler, computes the immediate dominators
of Cooper, Harvey and Kennedy, and then goes over the instructions once more: each use is of a
value that is defined earlier in the block, or in a block that dominates it.

Indices of blocks and instructions are natural numbers, and the index of a parameter among the
instructions of its block is `-1`.  The loops of the source that end when something stops changing
take their number of rounds as `fuel`.  The certificates that `verifyFunctionProofs` asks for stay
a parameter: they can only refuse more functions.
-/

namespace Bronze.Il

open Fixpoint

/-- What a diagnostic of the verifier names. -/
inductive Refusal where
  | noBlocks | entryId | entryParams
  | sentinelDefinition | duplicateDefinition (id : ValueId)
  | blockId (block : Nat) | copyClass (block : Nat)
  | handlerRange (block : Nat) | handlerParams (handler : Nat) | voidParam (block param : Nat)
  | undefinedValue (id : ValueId) | useBeforeDefinition (id : ValueId)
  | differentCopy (id : ValueId) | notDominated (id : ValueId) (block : Nat)
  | targetRange (target : Nat) | argumentCount (target : Nat)
  | sentinelArgument (target : Nat) | argumentType (target : Nat)
  | noInstructions (block : Nat) | earlyTerminator (block : Nat) | noTerminator (block : Nat)
  | inlineFrame | rule (op : Op) | shapeGuard (op : Op) | concatChain
  | branchCondition | identicalTargets | certificates
  /-- A loop of the source was given too few rounds. -/
  | unfinished
  deriving DecidableEq

/-- `if (!c) { diags.error(..); return false; }` -/
def require (c : Prop) [Decidable c] (e : Refusal) : Except Refusal Unit :=
  if c then .ok () else .error e

theorem require_eq_ok {c : Prop} [Decidable c] {e : Refusal} {u : Unit} :
    require c e = .ok u ↔ c := by
  unfold require
  split <;> simp_all

def isTerminator (op : Op) : Bool := op ∈ [Op.ret, .jump, .branch, .throw]

/-- The targets a terminator may pass control to. -/
def Instruction.targets (inst : Instruction) : List BlockTarget :=
  if inst.op = .jump then [inst.target]
  else if inst.op = .branch then [inst.target, inst.elseTarget]
  else []

def layoutFactOperand (inst : Instruction) : Option ValueId :=
  if !inst.shapeGuarded then none
  else if inst.op = .propGet ∧ inst.operands.1.length = 2 then inst.operands.1[1]?
  else if inst.op = .propSet ∧ inst.operands.1.length = 3 then inst.operands.1[2]?
  else none

def Function.isCoroutineBody (fn : Function) : Bool := fn.coroKind ≠ kNotCoroutine

/-- An entry of `definedTypes` and `defLocations`. -/
structure Definition where
  id : ValueId
  type : IlType
  blockIdx : Nat
  instIdx : Int
  deriving DecidableEq

def recordDef (defs : List Definition) (d : Definition) : Except Refusal (List Definition) := do
  require (d.id ≠ kNoValue) .sentinelDefinition
  require (∀ e ∈ defs, e.id ≠ d.id) (.duplicateDefinition d.id)
  return defs ++ [d]

/-- A block parameter, which may not be void. -/
def recordParam (bIdx : Nat) (defs : List Definition) (p : BlockParam × Nat) :
    Except Refusal (List Definition) := do
  require (p.1.type ≠ .void) (.voidParam bIdx p.2)
  recordDef defs ⟨p.1.id, p.1.type, bIdx, -1⟩

/-- The result of an instruction, if it has one. -/
def recordResult (bIdx : Nat) (defs : List Definition) (i : Instruction × Nat) :
    Except Refusal (List Definition) :=
  if i.1.result ≠ kNoValue then recordDef defs ⟨i.1.result, i.1.type, bIdx, i.2⟩ else .ok defs

/-- The turn of the recording loop for one block. -/
def recordBlock (fn : Function) (defs : List Definition) (b : Block × Nat) :
    Except Refusal (List Definition) := do
  require (b.1.id.toNat = b.2) (.blockId b.2)
  require (b.1.copyClass = .shared ↔ b.1.copyRegion = kNoCopyRegion) (.copyClass b.2)
  require (b.1.handler = kNoBlock ∨ b.1.handler.toNat < fn.blocks.1.length) (.handlerRange b.2)
  require (∀ h ∈ fn.blocks.1[b.1.handler.toNat]?, b.1.handler = kNoBlock ∨ h.params.1 = [])
    (.handlerParams b.1.handler.toNat)
  let defs ← b.1.params.1.zipIdx.foldlM (recordParam b.2) defs
  b.1.instructions.1.zipIdx.foldlM (recordResult b.2) defs

/-- A parameter of the function, recorded against block 0. -/
def recordFunctionParam (defs : List Definition) (p : Param × Nat) :
    Except Refusal (List Definition) :=
  recordDef defs ⟨UInt32.ofNat p.2, p.1.type, 0, -1⟩

/-- Steps 1 and 2: the parameters of the function, then the blocks in their order. -/
def recordDefinitions (fn : Function) : Except Refusal (List Definition) := do
  let defs ← fn.params.1.zipIdx.foldlM recordFunctionParam []
  fn.blocks.1.zipIdx.foldlM (recordBlock fn) defs

/-- `addEdge`, for the edges that leave a block: to its handler, and where its last instruction
goes. -/
def successors (fn : Function) (b : Nat) : List Nat :=
  match fn.blocks.1[b]? with
  | none => []
  | some blk =>
    let targets : List BlockId :=
      match blk.instructions.1.getLast? with
      | some term => term.targets.map BlockTarget.block
      | none => []
    ((blk.handler :: targets).filter fun b => b ≠ kNoBlock ∧ b.toNat < fn.blocks.1.length).map
      UInt32.toNat |>.eraseDups

/-- The blocks with an edge to `b`, in the order in which the edges are added. -/
def predecessors (fn : Function) (b : Nat) : List Nat :=
  (List.range fn.blocks.1.length).filter fun p => b ∈ successors fn p

/-- The depth-first walk: the blocks under way, each with its next edge, the blocks that were
entered, and the postorder from its end. -/
def walk (succs : Nat → List Nat) :
    (fuel : Nat) → List (Nat × Nat) → List Nat → List Nat → Except Refusal (List Nat)
  | _, [], _, rpo => .ok rpo
  | 0, _ :: _, _, _ => .error .unfinished
  | fuel + 1, (b, next) :: dfsStack, seen, rpo =>
    match (succs b)[next]? with
    | some s =>
      if s ∈ seen then walk succs fuel ((b, next + 1) :: dfsStack) seen rpo
      else walk succs fuel ((s, 0) :: (b, next + 1) :: dfsStack) (s :: seen) rpo
    | none => walk succs fuel dfsStack seen (b :: rpo)

def reversePostorder (fn : Function) (fuel : Nat) : Except Refusal (List Nat) :=
  walk (successors fn) fuel [(0, 0)] [0] []

/-- `rpoIndex`: the place of a block in the order, and `UINT32_MAX` if it has none. -/
def rpoIndex (rpo : List Nat) (b : Nat) : Nat := if b ∈ rpo then rpo.idxOf b else 0xFFFFFFFF

/-- `intersectIdom`: the lower of the two climbs until they meet. -/
def intersectIdom (rpo : List Nat) (idom : Nat → Option Nat) :
    (fuel : Nat) → Nat → Nat → Except Refusal Nat
  | 0, _, _ => .error .unfinished
  | fuel + 1, b₁, b₂ =>
    if b₁ = b₂ then .ok b₁
    else if rpoIndex rpo b₂ < rpoIndex rpo b₁ then
      match idom b₁ with
      | none => .ok b₂
      | some p => intersectIdom rpo idom fuel p b₂
    else if rpoIndex rpo b₁ < rpoIndex rpo b₂ then
      match idom b₂ with
      | none => .ok b₁
      | some p => intersectIdom rpo idom fuel b₁ p
    else intersectIdom rpo idom fuel b₁ b₂

/-- The loop over the predecessors of a block: those that have an immediate dominator already
meet. -/
def meetPredecessors (rpo : List Nat) (idom : Nat → Option Nat) (fuel : Nat) (preds : List Nat) :
    Except Refusal (Option Nat) :=
  preds.foldlM (fun newIdom p =>
    if p ∉ rpo ∨ idom p = none then .ok newIdom
    else match newIdom with
      | none => .ok (some p)
      | some q => some <$> intersectIdom rpo idom fuel q p) none

/-- One turn of a pass over the blocks: the dominators, and whether one changed. -/
def updateIdom (preds : Nat → List Nat) (rpo : List Nat) (fuel : Nat)
    (s : (Nat → Option Nat) × Bool) (b : Nat) : Except Refusal ((Nat → Option Nat) × Bool) :=
  if b = 0 then .ok s
  else do
    let newIdom ← meetPredecessors rpo s.1 fuel (preds b)
    if newIdom ≠ none ∧ s.1 b ≠ newIdom then
      return (Function.update s.1 b newIdom, true)
    return s

/-- `idom`, up to the last assignment: passes over the blocks until none changes. -/
def immediateDominators (preds : Nat → List Nat) (rpo : List Nat) (fuel : Nat) :
    Except Refusal (Nat → Option Nat) :=
  untilUnchanged .unfinished (fun idom => rpo.foldlM (updateIdom preds rpo fuel) (idom, false)) fuel
    (Function.update (fun _ => none) 0 (some 0))

/-- What the last step of the verifier reads. -/
structure Analysis where
  fn : Function
  defs : List Definition
  rpo : List Nat
  /-- `idom`, where the entry has none any more. -/
  idom : Nat → Option Nat
  fuel : Nat

namespace Analysis

variable (a : Analysis)

/-- `definedTypes.find`, `defLocations` -/
def find (id : ValueId) : Option Definition := a.defs.find? fun d => d.id = id

def typeOf (id : ValueId) : IlType := ((a.find id).map Definition.type).getD .void

/-- The loop of `dominates`: whether `b` is on the way up. -/
def climbsTo (b : Nat) : (fuel : Nat) → Option Nat → Except Refusal Bool
  | _, none => .ok false
  | 0, some _ => .error .unfinished
  | fuel + 1, some cur => if cur = b then .ok true else climbsTo b fuel (a.idom cur)

/-- `dominates`: every block dominates one that no path reaches. -/
def dominates (b c : Nat) : Except Refusal Bool :=
  if b = c then .ok true
  else if a.fn.blocks.1.length ≤ c then .ok false
  else if c ∉ a.rpo then .ok true
  else a.climbsTo b a.fuel (a.idom c)

/-- A value of a copy of a guarded region is read in the same copy only. -/
def sameCopy (defBlock useBlock : Nat) : Prop :=
  ∀ d ∈ a.fn.blocks.1[defBlock]?, ∀ u ∈ a.fn.blocks.1[useBlock]?,
    d.copyClass = .shared ∨ d.copyClass = u.copyClass ∧ d.copyRegion = u.copyRegion

instance (defBlock useBlock : Nat) : Decidable (a.sameCopy defBlock useBlock) := by
  unfold sameCopy
  infer_instance

def checkUse (id : ValueId) (useBlockIdx useInstIdx : Nat) : Except Refusal Unit :=
  match a.find id with
  | none => .error (.undefinedValue id)
  | some loc => do
    require (¬ (loc.blockIdx = useBlockIdx ∧ (useInstIdx : Int) ≤ loc.instIdx))
      (.useBeforeDefinition id)
    -- a parameter of the function is exempt: block 0 is not where it lives
    if id.toNat < a.fn.params.1.length then return ()
    require (a.sameCopy loc.blockIdx useBlockIdx) (.differentCopy id)
    if loc.blockIdx = useBlockIdx then return ()
    let dominated ← a.dominates loc.blockIdx useBlockIdx
    require (dominated = true) (.notDominated id useBlockIdx)

/-- One turn of the loop of `checkTarget`. -/
def checkArgument (target useBlockIdx useInstIdx : Nat) (arg : ValueId × BlockParam) :
    Except Refusal Unit := do
  require (arg.1 ≠ kNoValue) (.sentinelArgument target)
  a.checkUse arg.1 useBlockIdx useInstIdx
  require (a.typeOf arg.1 = arg.2.type) (.argumentType target)

def checkTarget (target : BlockTarget) (useBlockIdx useInstIdx : Nat) : Except Refusal Unit :=
  match a.fn.blocks.1[target.block.toNat]? with
  | none => .error (.targetRange target.block.toNat)
  | some tgtBlock => do
    require (target.args.1.length = tgtBlock.params.1.length)
      (.argumentCount target.block.toNat)
    (target.args.1.zip tgtBlock.params.1).forM
      (a.checkArgument target.block.toNat useBlockIdx useInstIdx)

/-- The last instruction with a result, which the source looks for over the whole function. -/
def producer (id : ValueId) : Option Instruction :=
  ((a.fn.blocks.1.flatMap fun b => b.instructions.1).filter fun inst => inst.result = id).getLast?

/-- `closureEnvProved`: `closure.env` stands first in the one successor of its test. -/
def closureEnvProved (bIdx iIdx : Nat) (inst : Instruction) : Bool :=
  let terms := a.fn.blocks.1.filterMap fun b => b.instructions.1.getLast?
  let toHere := fun (t : BlockTarget) => t.block.toNat = bIdx
  let edges := (terms.map fun t =>
    (if (t.op = .jump ∨ t.op = .branch) ∧ toHere t.target then 1 else 0) +
    (if t.op = .branch ∧ toHere t.elseTarget then 2 else 0)).sum
  let tests := terms.filter fun t => t.op = .branch ∧ toHere t.target
  iIdx = 0 ∧ edges = 1 ∧ ∃ test ∈ tests.getLast?, ∃ c ∈ test.operands.1[0]?,
    ∃ d ∈ a.producer c, d.op = .closureIs ∧ d.operands.1 ≠ [] ∧
      d.operands.1[0]? = inst.operands.1[0]?

def dynamicOperand (inst : Instruction) : Bool :=
  inst.operands.1.length = 1 ∧ ∀ x ∈ inst.operands.1[0]?, a.typeOf x = .dynamic

/-- A shape-guarded site is a load or a store at a claimed slot, and stores a number box. -/
def shapeGuardOk (inst : Instruction) : Bool :=
  let site := (inst.op = .propGet ∨ inst.op = .propSet) ∧ inst.staticSlot ≠ kNoStaticSlot ∧
    inst.directTarget = kNoDirectTarget
  let numberValue := inst.op ≠ .propSet ∨ ∃ v ∈ inst.operands.1[1]?, ∃ d ∈ a.producer v,
    d.op = .box ∧ d.boxType = .f64
  let factOk := ∀ v ∈ layoutFactOperand inst, ∃ d ∈ a.producer v,
    d.op = .layoutFact ∧ d.operands.1.length = 1 ∧ d.operands.1[0]? = inst.operands.1[0]?
  site ∧ numberValue ∧ factOk

/-- `kTypedArrayPristineLength`, the bit of `is.typed_array` above the element kind. -/
def kTypedArrayPristineLength : Int32 := 256

def kTypedArrayAnyFloat : Int32 := 0x7F

/-- The operations whose fixed-operand form ends at sixteen arguments, each with the operands
before them. -/
def fixedPrefix : Op → Option Nat
  | .dynamicCall => some 2
  | .superCall => some 2
  | .methodCall => some 1
  | .construct => some 1
  | _ => none

/-- The rules that one operation is under, in the order of the source. -/
def operationOk (bIdx iIdx : Nat) (inst : Instruction) : Bool :=
  let one := inst.operands.1.length = 1
  let result := inst.result ≠ kNoValue
  let kind := inst.immI32 &&& ~~~kTypedArrayPristineLength
  match inst.op with
  | .methodIcIs | .accessorIcIs | .closureIs => one ∧ inst.type = .bool
  | .methodSlotFn => one ∧ inst.type = .dynamic ∧ result
  | .closureEnv =>
    one ∧ inst.type = .dynamic ∧ result ∧ a.closureEnvProved bIdx iIdx inst
  | .isShape =>
    a.dynamicOperand inst ∧ inst.type = .bool ∧ result ∧ inst.staticSlot ≠ kNoStaticSlot
  | .layoutFact =>
    a.dynamicOperand inst ∧ inst.type = .f64 ∧ result ∧ inst.staticSlot ≠ kNoStaticSlot
  | .isTypedArray =>
    a.dynamicOperand inst ∧ inst.type = .bool ∧ result ∧
      (inst.immI32 = kTypedArrayAnyFloat ∨ 0 ≤ kind.toInt ∧ kind.toInt ≤ 8)
  | .coroSuspend => a.fn.isCoroutineBody ∧ a.dynamicOperand inst ∧ inst.type = .dynamic
  | .coroMode => a.fn.isCoroutineBody ∧ inst.type = .i32
  | .throw => a.dynamicOperand inst
  | .isNumber => a.dynamicOperand inst ∧ result ∧ inst.type = .bool
  | .isDenseArray | .isNumberArray =>
    a.dynamicOperand inst ∧ result ∧ inst.type = .bool ∧ 0 ≤ inst.immI32.toInt
  | op => ∀ prefixSize ∈ fixedPrefix op, inst.operands.1.length ≤ prefixSize + 16

/-- What a branch is under besides its targets. -/
def checkBranch (inst : Instruction) : Except Refusal Unit :=
  if inst.op = .branch then do
    require (∃ c ∈ inst.operands.1[0]?, a.typeOf c = .bool) .branchCondition
    require (inst.target.block ≠ inst.elseTarget.block) .identicalTargets
  else .ok ()

/-- The turn of the last loop for one instruction. -/
def checkInstruction (bIdx last : Nat) (i : Instruction × Nat) : Except Refusal Unit := do
  require (isTerminator i.1.op = true → i.2 = last) (.earlyTerminator bIdx)
  require (i.2 = last → isTerminator i.1.op = true) (.noTerminator bIdx)
  i.1.operands.1.forM fun id => a.checkUse id bIdx i.2
  require (i.1.inlineFrame.toNat ≤ a.fn.inlineFrames.1.length) .inlineFrame
  require (a.operationOk bIdx i.2 i.1 = true) (.rule i.1.op)
  require (i.1.shapeGuarded = true → a.shapeGuardOk i.1 = true) (.shapeGuard i.1.op)
  a.checkBranch i.1
  i.1.targets.forM fun target => a.checkTarget target bIdx i.2

/-- The turn of the last loop for one block. -/
def checkBlock (b : Block × Nat) : Except Refusal Unit := do
  require (b.1.instructions.1 ≠ []) (.noInstructions b.2)
  b.1.instructions.1.zipIdx.forM (a.checkInstruction b.2 (b.1.instructions.1.length - 1))

end Analysis

/-- The accumulators: the results of `concat.begin` and `concat.append`, with their places. -/
def accumulators (fn : Function) : List (ValueId × Nat × Nat) :=
  fn.blocks.1.zipIdx.flatMap fun b => b.1.instructions.1.zipIdx.filterMap fun i =>
    if i.1.op = .concatBegin ∨ i.1.op = .concatAppend then some (i.1.result, b.2, i.2) else none

/-- `verifyConcatChain`: an accumulator is used once, by the next link of its chain. -/
def verifyConcatChain (fn : Function) : Bool :=
  let accs := accumulators fn
  let insts := fn.blocks.1.flatMap fun b => b.instructions.1
  let isLink := fun (inst : Instruction) => inst.op = .concatAppend ∨ inst.op = .concatEnd
  accs = [] ∨
    (∀ b ∈ fn.blocks.1.zipIdx, ∀ i ∈ b.1.instructions.1.zipIdx, isLink i.1 →
      ∃ acc ∈ i.1.operands.1[0]?, ∃ place ∈ (accs.filter fun x => x.1 = acc).getLast?,
        place.2.1 = b.2 ∧ place.2.2 < i.2) ∧
    ∀ acc ∈ accs,
      (insts.map fun inst => inst.operands.1.count acc.1).sum = 1 ∧
      (insts.filter fun inst => isLink inst ∧ inst.operands.1[0]? = some acc.1).length = 1

def verifyFunction (certificates : Function → Bool) (fuel : Nat) (fn : Function) :
    Except Refusal Unit := do
  match fn.blocks.1[0]? with
  | none => .error .noBlocks
  | some entry => do
    require (entry.id = 0) .entryId
    require (entry.params.1 = []) .entryParams
    let defs ← recordDefinitions fn
    let rpo ← reversePostorder fn fuel
    let idom ← immediateDominators (predecessors fn) rpo fuel
    let a : Analysis := ⟨fn, defs, rpo, Function.update idom 0 none, fuel⟩
    fn.blocks.1.zipIdx.forM a.checkBlock
    require (verifyConcatChain fn = true) .concatChain
    require (certificates fn = true) .certificates

def Accepts (certificates : Function → Bool) (fn : Function) : Prop :=
  ∃ fuel, verifyFunction certificates fuel fn = .ok ()

end Bronze.Il
