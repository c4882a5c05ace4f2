import Bronze.Il.Verifier

/-!
# Running a function

What the instructions of a function do, one after the other. The operations that test, box and unbox
are spelled out, since the passes reason about them; what the other ones do to their operands and to
the world is up to the `Machine`. The world is the heap together with everything that was observed
so far: two runs that end in one world have the same trace.
-/

namespace Bronze.Il

variable {D F R W : Type}

/-- The value of an instruction: boxed, a double, a boolean, or of one of the other types. A double
stands for its class under `sameValue`, so there is one NaN. -/
inductive Val (D F R : Type)
  | dynamic (d : D)
  | f64 (n : F)
  | bool (b : Bool)
  | other (r : R)

/-- What an instruction needs from the runtime. -/
structure Machine (D F R W : Type) where
  undefined : D
  ofBool : Bool → D
  ofNumber : F → D
  ofOther : R → D
  /-- The double of a Number. -/
  asNumber : D → Option F
  /-- The boolean of a Boolean. -/
  asBool : D → Option Bool
  /-- `ToBoolean` -/
  truthy : D → Bool
  /-- `===` -/
  strictEquals : D → D → Bool
  /-- `ToNumber`, which may run code of the program, and may throw. -/
  toNumber : D → W → Except (D × W) (F × W)
  /-- The other operations. -/
  perform : Instruction → List (Val D F R) → W → Except (D × W) (Val D F R × W)
  /-- A throw on its way to a handler. -/
  caught : D → W → W
  asNumber_eq_some {d : D} {n : F} : asNumber d = some n ↔ d = ofNumber n
  asBool_eq_some {d : D} {b : Bool} : asBool d = some b ↔ d = ofBool b
  truthy_ofBool (b : Bool) : truthy (ofBool b) = b
  strictEquals_undefined : strictEquals undefined undefined = true
  undefined_strictEquals {d : D} (h : d ≠ undefined) : strictEquals undefined d = false
  strictEquals_of_ne {d : D} (h : d ≠ undefined) : strictEquals d undefined = false
  strictEquals_ofBool (a b : Bool) : strictEquals (ofBool a) (ofBool b) = (a == b)
  toNumber_ofNumber (n : F) (w : W) : toNumber (ofNumber n) w = .ok (n, w)

/-- What an operation is apart from the values it names: a copy of it may be at another site of the
inline caches, and in a frame that was inlined. -/
def Instruction.payload (inst : Instruction) : Instruction :=
  { inst with
    result := 0
    operands := ∅
    icIndex := if inst.op = .propGet ∨ inst.op = .propSet then 0 else inst.icIndex
    inlineFrame := 0 }

/-- The values an instruction names, with the one it defines. -/
def Instruction.define {α : Type} (inst : Instruction) (env : ValueId → α) (v : α) : ValueId → α :=
  if inst.result = kNoValue then env else Function.update env inst.result v

/-- The parameters of a block take their values at once. -/
def bindParams {α : Type} (env : ValueId → α) (params : List ValueId) (args : List α) :
    ValueId → α :=
  (params.zip args).foldl (fun env p => Function.update env p.1 p.2) env

namespace Machine

variable (M : Machine D F R W)

def boxed : Val D F R → D
  | .dynamic d => d
  | .f64 n => M.ofNumber n
  | .bool b => M.ofBool b
  | .other r => M.ofOther r

/-- What one instruction does that is no terminator. `raw` and `nullish` on an unboxing say what is
proven of the operand, and with it how ToNumber is computed. -/
def exec (inst : Instruction) (args : List (Val D F R)) (w : W) :
    Except (D × W) (Val D F R × W) :=
  match inst.op, args with
  | .constBool, _ => .ok (.bool (inst.immI32 ≠ 0), w)
  | .constUndefined, _ => .ok (.dynamic M.undefined, w)
  | .box, v :: _ => .ok (.dynamic (M.boxed v), w)
  | .unbox, v :: _ => match inst.type with
    | .f64 => (fun r => (.f64 r.1, r.2)) <$> M.toNumber (M.boxed v) w
    | .bool => .ok (.bool (M.truthy (M.boxed v)), w)
    | _ => M.perform inst.payload args w
  | .isNumber, v :: _ => .ok (.bool (M.asNumber (M.boxed v)).isSome, w)
  | .strictEq, [a, b] => .ok (.bool (M.strictEquals (M.boxed a) (M.boxed b)), w)
  | .cmpEq, [a, b] => match M.asBool (M.boxed a), M.asBool (M.boxed b) with
    | some x, some y => .ok (.bool (x == y), w)
    | _, _ => M.perform inst.payload args w
  | _, _ => M.perform inst.payload args w

end Machine

/-! ## Functions -/

/-- A function under way: the next instruction, the values so far, and the world. -/
structure Config (D F R W : Type) where
  block : Nat
  index : Nat
  env : ValueId → Val D F R
  world : W

/-- The instruction that comes next. -/
def Config.inst (fn : Function) (c : Config D F R W) : Option Instruction :=
  (fn.blocks.1[c.block]?).bind fun blk => blk.instructions.1[c.index]?

inductive Move (D F R W : Type)
  | goes (c : Config D F R W)
  | returns (v : Val D F R) (w : W)
  | raises (d : D) (w : W)
  | stuck

namespace Machine

variable (M : Machine D F R W) (fn : Function)

/-- Control passes to a block; `kNoBlock` is none. -/
def enter (target : BlockTarget) (c : Config D F R W) : Move D F R W :=
  if target.block = kNoBlock then .stuck
  else match fn.blocks.1[target.block.toNat]? with
    | none => .stuck
    | some blk => .goes
      ⟨target.block.toNat, 0,
        bindParams c.env (blk.params.1.map BlockParam.id) (target.args.1.map c.env), c.world⟩

/-- A throw goes to the handler of the block, or leaves the function. -/
def raise (c : Config D F R W) (d : D) (w : W) : Move D F R W :=
  match fn.blocks.1[c.block]? with
  | none => .stuck
  | some blk =>
    if blk.handler = kNoBlock then .raises d w
    else .goes ⟨blk.handler.toNat, 0, c.env, M.caught d w⟩

/-- The first operand, and `undefined` where there is none. -/
def firstOperand (inst : Instruction) (env : ValueId → Val D F R) : Val D F R :=
  match inst.operands.1 with
  | v :: _ => if v = kNoValue then .dynamic M.undefined else env v
  | [] => .dynamic M.undefined

/-- One instruction of the function. -/
def step (c : Config D F R W) : Move D F R W :=
  match c.inst fn with
  | none => .stuck
  | some inst =>
    match inst.op with
    | .ret => .returns (M.firstOperand inst c.env) c.world
    | .jump => enter fn inst.target c
    | .branch =>
      if M.truthy (M.boxed (M.firstOperand inst c.env)) then enter fn inst.target c
      else enter fn inst.elseTarget c
    | .throw => M.raise fn c (M.boxed (M.firstOperand inst c.env)) c.world
    | _ => match M.exec inst (inst.operands.1.map c.env) c.world with
      | .ok (v, w) => .goes ⟨c.block, c.index + 1, inst.define c.env v, w⟩
      | .error (d, w) => M.raise fn c d w

def Next (c c' : Config D F R W) : Prop := M.step fn c = .goes c'

/-- A call that has not begun: the parameters are the first values. -/
def start (args : List (Val D F R)) (w : W) : Config D F R W :=
  ⟨0, 0, fun v => args.getD v.toNat (.dynamic M.undefined), w⟩

variable {M fn}

variable {c c' : Config D F R W}

theorem step_of_not_terminator {c : Config D F R W} {inst : Instruction}
    (hinst : c.inst fn = some inst) (hterm : isTerminator inst.op = false) :
    M.step fn c = match M.exec inst (inst.operands.1.map c.env) c.world with
      | .ok (v, w) => .goes ⟨c.block, c.index + 1, inst.define c.env v, w⟩
      | .error (d, w) => M.raise fn c d w := by
  rw [step, hinst]
  dsimp only
  split
  · next h => rw [h] at hterm; cases hterm
  · next h => rw [h] at hterm; cases hterm
  · next h => rw [h] at hterm; cases hterm
  · next h => rw [h] at hterm; cases hterm
  · rfl

/-- **What a step can do**: complete an instruction, pass to a target, or throw to a handler. -/
theorem step_goes (h : M.step fn c = .goes c') :
    ∃ inst, c.inst fn = some inst ∧
      ((∃ v w, isTerminator inst.op = false ∧
          M.exec inst (inst.operands.1.map c.env) c.world = .ok (v, w) ∧
          c' = ⟨c.block, c.index + 1, inst.define c.env v, w⟩) ∨
        (∃ target ∈ inst.targets, target.block ≠ kNoBlock ∧
          ∃ blk, fn.blocks.1[target.block.toNat]? = some blk ∧ c' = ⟨target.block.toNat, 0,
            bindParams c.env (blk.params.1.map BlockParam.id) (target.args.1.map c.env),
            c.world⟩) ∨
        ∃ blk w, fn.blocks.1[c.block]? = some blk ∧ blk.handler ≠ kNoBlock ∧
          c' = ⟨blk.handler.toNat, 0, c.env, w⟩) := by
  have henter : ∀ target, enter fn target c = .goes c' →
      target.block ≠ kNoBlock ∧ ∃ blk, fn.blocks.1[target.block.toNat]? = some blk ∧
        c' = ⟨target.block.toNat, 0,
          bindParams c.env (blk.params.1.map BlockParam.id) (target.args.1.map c.env),
          c.world⟩ := by
    intro target h
    unfold enter at h
    split at h
    · cases h
    next hnamed =>
    refine ⟨hnamed, ?_⟩
    cases hblk : fn.blocks.1[target.block.toNat]? with
    | none =>
      rw [hblk] at h
      cases h
    | some blk =>
      rw [hblk] at h
      exact ⟨blk, rfl, (Move.goes.inj h).symm⟩
  have hraise : ∀ d w, M.raise fn c d w = .goes c' →
      ∃ blk w, fn.blocks.1[c.block]? = some blk ∧ blk.handler ≠ kNoBlock ∧
        c' = ⟨blk.handler.toNat, 0, c.env, w⟩ := by
    intro d w h
    unfold raise at h
    cases hblk : fn.blocks.1[c.block]? with
    | none =>
      rw [hblk] at h
      cases h
    | some blk =>
      rw [hblk] at h
      dsimp only at h
      split at h
      · cases h
      · next hhandler => exact ⟨blk, _, rfl, hhandler, (Move.goes.inj h).symm⟩
  cases hinst : c.inst fn with
  | none =>
    rw [step, hinst] at h
    cases h
  | some inst =>
    refine ⟨inst, rfl, ?_⟩
    by_cases hterm : isTerminator inst.op = true
    · rw [step, hinst] at h
      dsimp only at h
      split at h
      · cases h
      · next hop =>
        obtain ⟨hnamed, blk, hblk, hc'⟩ := henter _ h
        exact .inr (.inl ⟨inst.target, by simp [Instruction.targets, hop], hnamed, blk, hblk, hc'⟩)
      · next hop =>
        split at h
        · obtain ⟨hnamed, blk, hblk, hc'⟩ := henter _ h
          have hmem : inst.target ∈ inst.targets := by simp [Instruction.targets, hop]
          exact .inr (.inl ⟨inst.target, hmem, hnamed, blk, hblk, hc'⟩)
        · obtain ⟨hnamed, blk, hblk, hc'⟩ := henter _ h
          have hmem : inst.elseTarget ∈ inst.targets := by simp [Instruction.targets, hop]
          exact .inr (.inl ⟨inst.elseTarget, hmem, hnamed, blk, hblk, hc'⟩)
      · exact .inr (.inr (hraise _ _ h))
      · next hret hjump hbranch hthrow =>
        -- the four terminators are done
        simp only [isTerminator, List.mem_cons, List.not_mem_nil, or_false,
          decide_eq_true_eq] at hterm
        rcases hterm with hop | hop | hop | hop
        · exact absurd hop hret
        · exact absurd hop hjump
        · exact absurd hop hbranch
        · exact absurd hop hthrow
    · rw [Bool.not_eq_true] at hterm
      rw [step_of_not_terminator hinst hterm] at h
      cases hexec : M.exec inst (inst.operands.1.map c.env) c.world with
      | ok r =>
        rw [hexec] at h
        exact .inl ⟨r.1, r.2, hterm, rfl, (Move.goes.inj h).symm⟩
      | error r =>
        rw [hexec] at h
        exact .inr (.inr (hraise _ _ h))

end Machine

variable {α : Type} {v : ValueId}

theorem bindParams_of_notMem {params : List ValueId} (hv : v ∉ params)
    (env : ValueId → α) (args : List α) : bindParams env params args v = env v := by
  unfold bindParams
  induction params generalizing env args with
  | nil => rfl
  | cons p params ih =>
    cases args with
    | nil => rfl
    | cons x args =>
      rw [List.mem_cons, not_or] at hv
      simp [ih hv.2, Function.update_of_ne hv.1]

variable {inst : Instruction}

theorem Instruction.define_of_ne {env : ValueId → α}
    (h : inst.result ≠ v) (x : α) : inst.define env x v = env v := by
  unfold define
  split
  · rfl
  · exact Function.update_of_ne (Ne.symm h) ..

theorem Instruction.define_self (h : inst.result ≠ kNoValue)
    (env : ValueId → α) (x : α) : inst.define env x inst.result = x := by
  unfold define
  simp [h]

end Bronze.Il
