import Bronze.Il.Effects
import Bronze.Il.Machine

/-!
# Transition runs

`src/lower/transition_runs.cpp`: a stretch of a block that adds keys to one receiver is marked on
its first write, and gets cells in which the runtime caches where its shapes begin and end. The
backend then installs the last of the shapes first, and each write is a store at a slot of its own.

The receiver of an execution is the keys of its shape in the order of their slots, and the slots. It
is a plain object, and no key of the run is on its prototype chain, as the guard of a run has
tested.
-/

namespace Bronze.Lower.Transition

open Codec Il

/-! ## The pass -/

def kFnFlagConstruct : UInt32 := 1

def kObjInlineSlots : Int32 := 4

def kObjOverflowSlot : Nat := 16

def kTransitionRunCells : UInt32 := 5

def protoKey : List UInt8 := [95, 95, 112, 114, 111, 116, 111, 95, 95]

/-- An integer-like name, which is an element of an array. -/
def isDigits (key : Str) : Bool := key.1.all fun c => 48 ≤ c ∧ c ≤ 57

def runKey (key : Str) : Bool := key.1 ≠ protoKey ∧ isDigits key = false

def scalar (t : IlType) : Bool := t ∈ [IlType.f64, .i32, .bool]

def between (defined : List ValueId) (inst : Instruction) : Bool :=
  match inst.op with
  | .constF64 | .constI32 | .constBool | .constUndefined | .constNull | .isNumber | .numTruthy
  | .createObject | .createArray => true
  | .box => scalar inst.boxType
  | .unbox => inst.type = .f64 && inst.operands.1.head?.any fun v =>
    inst.rawUnbox || inst.nullishUnbox || !defined.contains v
  | .add | .sub | .mul | .div | .neg | .cmpLt | .cmpLe | .cmpGt | .cmpGe | .cmpEq | .cmpNe =>
    scalar inst.type
  | _ => false

def usesValue (inst : Instruction) (v : ValueId) : Bool :=
  v ∈ inst.operands.1 ∨ v ∈ inst.target.args.1 ∨ v ∈ inst.elseTarget.args.1

/-- The value that an instruction writes to a property of the receiver, which is not itself. -/
def written (recv : ValueId) (inst : Instruction) : Option ValueId :=
  match inst.op, inst.operands.1 with
  | .propSet, [r, v] =>
    if r = recv ∧ v ≠ recv ∧ inst.directTarget = kNoDirectTarget then some v else none
  | _, _ => none

def receiverOf (inst : Instruction) : ValueId := inst.operands.1.headD kNoValue

def isSiteOn (keys : List Str) (recv : ValueId) (inst : Instruction) : Bool :=
  (written recv inst).isSome && keys[inst.keyIndex.toNat]?.any runKey

/-- The values defined so far, with that of an instruction. -/
def definedBy (inst : Instruction) (defined : List ValueId) : List ValueId :=
  if inst.result = kNoValue then defined else inst.result :: defined

/-- The writes of a run, each with its distance from where the scan stands. -/
def grow (keys : List Str) (recv : ValueId) :
    (defined : List ValueId) → (taken : List UInt32) → List Instruction → List (Nat × Instruction)
  | _, _, [] => []
  | defined, taken, inst :: rest =>
    let next taken := (grow keys recv (definedBy inst defined) taken rest).map (Prod.map (· + 1) id)
    if isSiteOn keys recv inst then
      if inst.keyIndex ∈ taken then [] else (0, inst) :: next (inst.keyIndex :: taken)
    else if between defined inst ∧ usesValue inst recv = false then next taken
    else []

def defOp (fn : Function) (v : ValueId) : Option Op :=
  let insts := fn.blocks.1.flatMap fun b => b.instructions.1
  (insts.reverse.find? fun inst => inst.result ≠ kNoValue ∧ inst.result = v).map Instruction.op

def ownReceiver (fn : Function) (recv : ValueId) : Bool :=
  let constructs : Bool := fn.fnFlags &&& kFnFlagConstruct ≠ 0
  let thisValue := if constructs ∧ fn.needsThis then (if fn.needsEnv then 1 else 0) else kNoValue
  recv = thisValue ∨
    constructs ∧ (defOp fn recv = some .superCall ∨ defOp fn recv = some .superCallSpread)

/-- `creator`: where the receiver was made, if nothing has touched it since. The instructions before
the run come last first. -/
def creator (recv : ValueId) : List Instruction → Option Nat
  | [] => none
  | inst :: before =>
    if inst.result = recv then some before.length
    else if usesValue inst recv then none
    else creator recv before

/-- A run: its extent, its first slot, and the literal that is asked for more inline slots. -/
structure Run where
  extent : Nat
  slot : UInt32
  made : Option (Nat × Int32)

/-- The run whose first write is `first`. -/
def runAt (keys : List Str) (fn : Function) (before : List Instruction) (first : Instruction)
    (rest : List Instruction) : Option Run := do
  let recv := receiverOf first
  guard (isSiteOn keys recv first ∧ defOp fn recv ≠ some .createArray)
  let fresh := if defOp fn recv = some .createObject then creator recv before else none
  guard (ownReceiver fn recv ∨ fresh.isSome)
  let sites := grow keys recv [] [] (first :: rest)
  guard (2 ≤ sites.length)
  let consecutive := sites.zipIdx.all fun s => s.1.2.staticSlot ≠ kNoStaticSlot ∧
    s.1.2.staticSlot.toNat = first.staticSlot.toNat + s.2
  guard (consecutive ∨ fresh.isSome)
  let last ← sites.getLast?
  let want : Int32 := .ofNat (min sites.length kObjOverflowSlot)
  some ⟨last.1 + 1, if fresh.isSome then 0 else first.staticSlot, fresh.map fun d => (d, want)⟩

/-- The literals of the runs ask for the slots of their writes. -/
def widen (made : List (Nat × Int32)) (i : Nat) (inst : Instruction) : Instruction :=
  { inst with
    immI32 := made.foldl (fun imm m =>
      if m.1 = i ∧ kObjInlineSlots < m.2 ∧ imm < m.2 then m.2 else imm) inst.immI32 }

/-- The loop over a block: `skip` instructions are in the run before. The literals of its runs come
with it, and the count of the cells. -/
def markFrom (keys : List Str) (fn : Function) :
    (before : List Instruction) → (skip : Nat) → (insts : List Instruction) → (cells : UInt32) →
      { out : List Instruction // out.length = insts.length } × List (Nat × Int32) × UInt32
  | _, _, [], cells => (⟨[], rfl⟩, [], cells)
  | before, skip + 1, inst :: rest, cells =>
    let (out, made, cells) := markFrom keys fn (inst :: before) skip rest cells
    (⟨inst :: out.1, congrArg (· + 1) out.2⟩, made, cells)
  | before, 0, inst :: rest, cells =>
    match runAt keys fn before inst rest with
    | none =>
      let (out, made, cells) := markFrom keys fn (inst :: before) 0 rest cells
      (⟨inst :: out.1, congrArg (· + 1) out.2⟩, made, cells)
    | some run =>
      let head := { inst with
        transitionRunCell := cells
        transitionRunLength := .ofNat run.extent
        transitionRunSlot := run.slot }
      let (out, made, cells) :=
        markFrom keys fn (inst :: before) (run.extent - 1) rest (cells + kTransitionRunCells)
      (⟨head :: out.1, congrArg (· + 1) out.2⟩, run.made.toList ++ made, cells)

/-- A walk over a list that hands a count on. -/
def each {α : Type} (f : α → UInt32 → α × UInt32) :
    (l : List α) → UInt32 → { l' : List α // l'.length = l.length } × UInt32
  | [], n => (⟨[], rfl⟩, n)
  | a :: l, n =>
    let (a, n) := f a n
    let (l, n) := each f l n
    (⟨a :: l.1, congrArg (· + 1) l.2⟩, n)

def eachVec {α : Type} (f : α → UInt32 → α × UInt32) (l : Vec α) (n : UInt32) : Vec α × UInt32 :=
  let r := each f l.1 n
  (⟨r.1.1, by rw [r.1.2]; exact l.2⟩, r.2)

/-- The turn of the loop over the blocks. -/
def markBlock (keys : List Str) (fn : Function) (blk : Block) (cells : UInt32) : Block × UInt32 :=
  let r := markFrom keys fn [] 0 blk.instructions.1 cells
  have hlength : (r.1.1.mapIdx (widen r.2.1)).length < 2 ^ 64 := by
    rw [List.length_mapIdx, r.1.2]
    exact blk.instructions.2
  ({ blk with instructions := ⟨_, hlength⟩ }, r.2.2)

/-- The turn of the loop over the functions. -/
def markFunction (keys : List Str) (fn : Function) (cells : UInt32) : Function × UInt32 :=
  if fn.isExternal ∨ fn.blocks.1 = [] then (fn, cells) else
  let r := eachVec (markBlock keys fn) fn.blocks cells
  ({ fn with blocks := r.1 }, r.2)

def markTransitionRuns (m : Module) : Module :=
  let r := eachVec (markFunction m.keyConstants.1) m.functions m.staticSiteCount
  { m with functions := r.1, staticSiteCount := r.2 }

/-- The receiver of a run: the keys of its shape, and its slots. -/
structure Receiver (V : Type) where
  keys : List Str
  slots : List V

/-- An execution under way: the values so far, the receiver, and the rest of the heap. -/
structure Frame (V W : Type) where
  env : ValueId → V
  receiver : Receiver V
  world : W

/-- The operations on values alone. They neither read nor write an object that exists: a literal is
an object of its own, and a conversion of a Number runs no code. -/
def computes (op : Op) : Bool :=
  op ∈ [Op.constF64, .constI32, .constBool, .constUndefined, .constNull, .isNumber, .numTruthy,
    .box, .unbox, .add, .sub, .mul, .div, .neg, .cmpLt, .cmpLe, .cmpGt, .cmpGe, .cmpEq, .cmpNe,
    .createObject, .createArray]

/-- What the operations do that run no code of the program. -/
structure Runtime (V W : Type) where
  undefined : V
  isNumber : V → Bool
  /-- An operation on values, with the rest of the heap, where a literal is made. -/
  compute : Instruction → List V → W → V × W
  /-- Any other operation may read and write every object, the receiver among them. -/
  access : Instruction → List V → Receiver V → W → V × Receiver V × W

variable {V W : Type} (keys : List Str) (recv : ValueId)

def keyOf (inst : Instruction) : Str := keys.getD inst.keyIndex.toNat ∅

/-- The keys of the writes, in turn. -/
def keysOf (insts : List Instruction) : List Str :=
  (insts.filter fun inst => (written recv inst).isSome).map (keyOf keys)

/-- An ordinary write: a key that is absent is added. -/
def put (_ : Nat) (inst : Instruction) (v : V) (o : Receiver V) : Receiver V :=
  let key := keyOf keys inst
  if key ∈ o.keys then { o with slots := o.slots.set (o.keys.idxOf key) v }
  else ⟨o.keys ++ [key], o.slots ++ [v]⟩

/-- The `k`-th write once the last shape is installed. -/
def store (slot k : Nat) (_ : Instruction) (v : V) (o : Receiver V) : Receiver V :=
  { o with slots := o.slots.set (slot + k) v }

namespace Runtime

variable (R : Runtime V W)

/-- The last shape of a run is installed. -/
def install (insts : List Instruction) (o : Receiver V) : Receiver V :=
  ⟨o.keys ++ keysOf keys recv insts,
    o.slots ++ List.replicate (keysOf keys recv insts).length R.undefined⟩

/-- What can throw runs code of the program, unless it is ToNumber of a Number. -/
def runsCode (env : ValueId → V) (inst : Instruction) : Bool :=
  canThrow inst && !(inst.op = .unbox && inst.operands.1.head?.any (R.isNumber ∘ env))

/-- The instructions in turn, `write` being the `k`-th write. There is no outcome if one of them
runs code of the program, or is handed the receiver without being a write to it. -/
def run (write : Nat → Instruction → V → Receiver V → Receiver V) :
    (k : Nat) → List Instruction → Frame V W → Option (Frame V W)
  | _, [], fr => some fr
  | k, inst :: rest, fr =>
    match written recv inst with
    | some v =>
      run write (k + 1) rest { fr with receiver := write k inst (fr.env v) fr.receiver }
    | none =>
      if usesValue inst recv || R.runsCode fr.env inst then none
      else if computes inst.op then
        let r := R.compute inst (inst.operands.1.map fr.env) fr.world
        run write k rest { fr with env := inst.define fr.env r.1, world := r.2 }
      else
        let r := R.access inst (inst.operands.1.map fr.env) fr.receiver fr.world
        run write k rest ⟨inst.define fr.env r.1, r.2.1, r.2.2⟩

/-- What the guard of a run has tested: the shape is the one the run starts at, and what ToNumber
is asked of is a Number. -/
structure Guard (slot : Nat) (insts : List Instruction) (fr : Frame V W) : Prop where
  slots : fr.receiver.slots.length = slot
  absent : ∀ key ∈ keysOf keys recv insts, key ∉ fr.receiver.keys
  numbers : ∀ inst ∈ insts, inst.op = .unbox → checkedUnbox inst →
    ∀ v ∈ inst.operands.1.head?, R.isNumber (fr.env v)

end Runtime

/-- **A marked run is well formed**: it ends in its block, it meets no other, and its writes are to
keys of one receiver that are distinct and no indices. What stands between two writes computes on
values and leaves the objects alone. Past its guard no code of the program runs from the first write
to the last, nothing else is handed the receiver, and to install the last shape and store at the
slots comes to the same as the writes one by one. -/
structure Marked (insts out : List Instruction) (i : Nat) (head : Instruction) : Prop where
  inside : i + head.transitionRunLength.toNat ≤ insts.length
  apart : ∀ j next, i < j → out[j]? = some next → next.transitionRunCell ≠ kNoTransitionRun →
    i + head.transitionRunLength.toNat ≤ j
  same : ∃ recv stretch, recv = receiverOf head ∧
    stretch = (insts.drop i).take head.transitionRunLength.toNat ∧
    (∀ inst ∈ stretch, inst.result = recv → recv = kNoValue) ∧
    (∀ inst ∈ stretch, usesValue inst recv = true → (written recv inst).isSome) ∧
    (∀ inst ∈ stretch, (written recv inst).isSome ∨ computes inst.op = true) ∧
    (keysOf keys recv stretch).Nodup ∧ (∀ key ∈ keysOf keys recv stretch, isDigits key = false) ∧
    ∀ {V W : Type} (R : Runtime V W) (fr : Frame V W),
      R.Guard keys recv head.transitionRunSlot.toNat stretch fr →
      ∃ fr', R.run recv (put keys) 0 stretch fr = some fr' ∧
        R.run recv (store head.transitionRunSlot.toNat) 0 stretch
          { fr with receiver := R.install keys recv stretch fr.receiver } = some fr'

/-! ## The writes of a run -/

/-- What may follow where a run is under way. -/
inductive Stretch : (defined : List ValueId) → (taken : List UInt32) → List Instruction → Prop
  | nil {defined taken} : Stretch defined taken []
  | write {defined taken inst rest} (hsite : isSiteOn keys recv inst = true)
      (hkey : inst.keyIndex ∉ taken)
      (h : Stretch (definedBy inst defined) (inst.keyIndex :: taken) rest) :
      Stretch defined taken (inst :: rest)
  | between {defined taken inst rest} (hbetween : between defined inst = true)
      (huse : usesValue inst recv = false) (h : Stretch (definedBy inst defined) taken rest) :
      Stretch defined taken (inst :: rest)

variable {keys recv} {defined : List ValueId} {taken : List UInt32}
  {insts insts' : List Instruction} {inst : Instruction}

theorem grow_stretch {s : Nat × Instruction} (h : s ∈ grow keys recv defined taken insts) :
    s.1 < insts.length ∧ Stretch keys recv defined taken (insts.take (s.1 + 1)) := by
  induction insts generalizing defined taken s with
  | nil => cases h
  | cons inst rest ih =>
    -- a write further on is one of the rest
    have hnext : ∀ {taken}, s ∈ (grow keys recv (definedBy inst defined) taken rest).map
        (Prod.map (· + 1) id) → ∃ n, s.1 = n + 1 ∧ n < rest.length ∧
          Stretch keys recv (definedBy inst defined) taken (rest.take (n + 1)) := by
      intro taken h
      obtain ⟨s', hs', rfl⟩ := List.mem_map.mp h
      exact ⟨s'.1, rfl, ih hs'⟩
    unfold grow at h
    dsimp only at h
    split at h
    · next hsite =>
      split at h
      · cases h
      next hkey =>
      rcases List.mem_cons.mp h with rfl | h
      · exact ⟨by simp, .write hsite hkey .nil⟩
      · obtain ⟨n, hn, hlt, hrest⟩ := hnext h
        rw [hn]
        exact ⟨by simpa using hlt, .write hsite hkey hrest⟩
    · split at h
      · next hbetween =>
        obtain ⟨n, hn, hlt, hrest⟩ := hnext h
        rw [hn]
        exact ⟨by simpa using hlt, .between hbetween.1 hbetween.2 hrest⟩
      · cases h

theorem written_of_between (h : between defined inst = true) : written recv inst = none := by
  have hop : inst.op ≠ .propSet := by
    intro hop
    simp only [between, hop] at h
    cases h
  unfold written
  split
  · contradiction
  · rfl

theorem computes_of_between (h : between defined inst = true) : computes inst.op = true := by
  unfold between at h
  split at h
  all_goals first
    | next hop => rw [hop]; rfl
    | cases h

theorem keysOf_cons (inst : Instruction) (rest : List Instruction) :
    keysOf keys recv (inst :: rest) = if (written recv inst).isSome then
      keyOf keys inst :: keysOf keys recv rest else keysOf keys recv rest := by
  unfold keysOf
  rw [List.filter_cons]
  split_ifs <;> rfl

theorem keyOf_eq (h : keys[inst.keyIndex.toNat]?.any runKey = true) :
    ∃ hlt : inst.keyIndex.toNat < keys.length, keyOf keys inst = keys[inst.keyIndex.toNat] ∧
      isDigits (keyOf keys inst) = false := by
  obtain ⟨key, hkey, hrun⟩ := (Option.any_eq_true _ _).mp h
  obtain ⟨hlt, rfl⟩ := List.getElem?_eq_some_iff.mp hkey
  have heq : keyOf keys inst = keys[inst.keyIndex.toNat] := by simp [keyOf, hlt]
  exact ⟨hlt, heq, heq ▸ (of_decide_eq_true hrun).2⟩

theorem mem_definedBy {v : ValueId} (h : v ∈ defined) : v ∈ definedBy inst defined := by
  unfold definedBy
  split_ifs
  · exact h
  · exact List.mem_cons_of_mem _ h

theorem define_of_notMem {v : ValueId} (h : v ∉ definedBy inst defined) {env : ValueId → V}
    {x : V} : inst.define env x v = env v := by
  unfold definedBy at h
  unfold Instruction.define
  split_ifs at h ⊢
  · rfl
  · exact Function.update_of_ne (List.ne_of_not_mem_cons h) ..

theorem runsCode_of_between (R : Runtime V W) {env : ValueId → V}
    (h : between defined inst = true) (hnumber : inst.op = .unbox → checkedUnbox inst →
      ∀ v ∈ inst.operands.1.head?, v ∉ defined → R.isNumber (env v)) :
    R.runsCode env inst = false := by
  -- of what may stand between two writes, only a checked ToNumber can throw
  have hthrow : canThrow inst = true → inst.op = .unbox ∧ checkedUnbox inst = true := by
    intro hthrow
    unfold between at h
    split at h <;> simp_all [canThrow, scalar]
  by_cases hcan : canThrow inst = true
  · obtain ⟨hop, hchecked⟩ := hthrow hcan
    simp only [between, hop, Bool.and_eq_true, Option.any_eq_true] at h
    obtain ⟨-, v, hv, hraw⟩ := h
    simp only [checkedUnbox, decide_eq_true_eq] at hchecked
    have hnum := hnumber hop (by simpa [checkedUnbox] using hchecked) v hv
      (by simpa [hchecked] using hraw)
    have hhead : inst.operands.1.head? = some v := hv
    simp [Runtime.runsCode, hop, hhead, hnum]
  · simp [Runtime.runsCode, hcan]

namespace Stretch

theorem take (h : Stretch keys recv defined taken insts) (n : Nat) :
    Stretch keys recv defined taken (insts.take n) := by
  induction h generalizing n with
  | nil => simpa using nil
  | write hsite hkey _ ih =>
    cases n with
    | zero => exact .nil
    | succ n => exact .write hsite hkey (ih n)
  | between hbetween huse _ ih =>
    cases n with
    | zero => exact .nil
    | succ n => exact .between hbetween huse (ih n)

/-- What is no write computes on values and does not use the receiver, and the writes take their
keys in turn. -/
theorem writes (h : Stretch keys recv defined taken insts) :
    ∀ inst ∈ insts, (usesValue inst recv = true → (written recv inst).isSome) ∧
      ((written recv inst).isSome ∨ computes inst.op = true) ∧
      ((written recv inst).isSome → inst.keyIndex ∉ taken ∧
        keys[inst.keyIndex.toNat]?.any runKey = true) := by
  induction h with
  | nil => simp
  | write hsite hkey _ ih =>
    obtain ⟨hwritten, hrun⟩ := Bool.and_eq_true_iff.mp hsite
    rintro b (_ | ⟨_, hb⟩)
    · exact ⟨fun _ => hwritten, .inl hwritten, fun _ => ⟨hkey, hrun⟩⟩
    · obtain ⟨huse, hcomputes, hkeys⟩ := ih b hb
      refine ⟨huse, hcomputes, fun h => ?_⟩
      exact ⟨fun hmem => (hkeys h).1 (List.mem_cons_of_mem _ hmem), (hkeys h).2⟩
  | between hbetween huse _ ih =>
    rintro b (_ | ⟨_, hb⟩)
    · simp [huse, written_of_between hbetween, computes_of_between hbetween]
    · exact ih b hb

theorem mem_keysOf (h : Stretch keys recv defined taken insts) {key : Str}
    (hkey : key ∈ keysOf keys recv insts) : ∃ inst, inst.keyIndex ∉ taken ∧
      keys[inst.keyIndex.toNat]?.any runKey = true ∧ keyOf keys inst = key := by
  obtain ⟨inst, hinst, rfl⟩ := List.mem_map.mp hkey
  obtain ⟨hinst, hwritten⟩ := List.mem_filter.mp hinst
  obtain ⟨htaken, hrun⟩ := (h.writes inst hinst).2.2 hwritten
  exact ⟨inst, htaken, hrun, rfl⟩

theorem keysOf_nodup (h : Stretch keys recv defined taken insts) (hkeys : keys.Nodup) :
    (keysOf keys recv insts).Nodup := by
  induction h with
  | nil => exact .nil
  | write hsite _ hrest ih =>
    obtain ⟨hwritten, hrun⟩ := Bool.and_eq_true_iff.mp hsite
    rw [keysOf_cons, if_pos hwritten, List.nodup_cons]
    refine ⟨fun hmem => ?_, ih⟩
    obtain ⟨b, htaken, hbrun, heq⟩ := hrest.mem_keysOf hmem
    obtain ⟨_, ha, -⟩ := keyOf_eq hrun
    obtain ⟨_, hb, -⟩ := keyOf_eq hbrun
    -- the constants are distinct, so the key was taken
    rw [ha, hb, hkeys.getElem_inj_iff, UInt32.toNat_inj] at heq
    exact htaken (heq ▸ List.mem_cons_self)
  | between hbetween _ _ ih =>
    rwa [keysOf_cons, if_neg (by simp [written_of_between hbetween])]

/-- **The run lemma**: writes one by one, and writes at their slots, come to the same. -/
theorem run_eq (h : Stretch keys recv defined taken insts) (R : Runtime V W) {slot k : Nat}
    {fr : Frame V W} {env : ValueId → V} (henv : ∀ v, v ∉ defined → fr.env v = env v)
    (hslots : fr.receiver.slots.length = slot + k) (hnodup : (keysOf keys recv insts).Nodup)
    (habsent : ∀ key ∈ keysOf keys recv insts, key ∉ fr.receiver.keys)
    (hnumbers : ∀ inst ∈ insts, inst.op = .unbox → checkedUnbox inst →
      ∀ v ∈ inst.operands.1.head?, R.isNumber (env v)) :
    ∃ fr', R.run recv (put keys) k insts fr = some fr' ∧
      R.run recv (store slot) k insts
        { fr with receiver := R.install keys recv insts fr.receiver } = some fr' := by
  induction h generalizing k fr with
  | nil => exact ⟨fr, rfl, by simp [Runtime.run, Runtime.install, keysOf]⟩
  | @write defined taken inst rest hsite hkey _ ih =>
    obtain ⟨v, hv⟩ := Option.isSome_iff_exists.mp (Bool.and_eq_true_iff.mp hsite).1
    rw [keysOf_cons, if_pos (by simp [hv])] at hnodup habsent
    rw [List.nodup_cons] at hnodup
    have hnew := habsent _ List.mem_cons_self
    obtain ⟨fr', hput, hstore⟩ := @ih (k + 1) { fr with
      receiver := ⟨fr.receiver.keys ++ [keyOf keys inst], fr.receiver.slots ++ [fr.env v]⟩ }
      (fun w hw => henv w fun h => hw (mem_definedBy h)) (by simp [hslots, Nat.add_assoc])
      hnodup.2 (by
        intro key hmem
        rw [List.mem_append, List.mem_singleton, not_or]
        exact ⟨habsent key (List.mem_cons_of_mem _ hmem), fun h => hnodup.1 (h ▸ hmem)⟩)
      fun b hb => hnumbers b (List.mem_cons_of_mem _ hb)
    refine ⟨fr', ?_, ?_⟩
    · simpa [Runtime.run, hv, put, hnew] using hput
    · -- the slot of the write is the first of those that are installed
      simpa [Runtime.run, hv, store, Runtime.install, keysOf_cons, List.replicate_succ, ← hslots]
        using hstore
  | @between defined taken inst rest hbetween huse _ ih =>
    have hnone : written recv _ = none := written_of_between hbetween
    rw [keysOf_cons, if_neg (by simp [hnone])] at hnodup habsent
    have hquiet : R.runsCode fr.env inst = false :=
      runsCode_of_between R hbetween fun hop hchecked w hw hout => by
        rw [henv w hout]
        exact hnumbers inst List.mem_cons_self hop hchecked w hw
    -- an operation on values is handed no more than its operands and the rest of the heap
    have hcomputes := computes_of_between hbetween
    obtain ⟨fr', hput, hstore⟩ := @ih k { fr with
      env := inst.define fr.env (R.compute inst (inst.operands.1.map fr.env) fr.world).1
      world := (R.compute inst (inst.operands.1.map fr.env) fr.world).2 }
      (fun w hw => (define_of_notMem hw).trans (henv w fun h => hw (mem_definedBy h)))
      hslots hnodup habsent fun b hb => hnumbers b (List.mem_cons_of_mem _ hb)
    refine ⟨fr', ?_, ?_⟩
    · simpa [Runtime.run, hnone, huse, hquiet, hcomputes] using hput
    · simpa [Runtime.run, hnone, huse, hquiet, hcomputes, Runtime.install, keysOf_cons]
        using hstore

end Stretch

/-! ## The marks -/

def cellsOf (insts : List Instruction) : List UInt32 :=
  (insts.map Instruction.transitionRunCell).filter (· ≠ kNoTransitionRun)

/-- The cells are those that the count has passed. -/
def Allots (cells cells' : UInt32) (taken : List UInt32) : Prop :=
  ∃ k, cells' = (· + kTransitionRunCells)^[k] cells ∧
    taken = (List.iterate (· + kTransitionRunCells) cells k).filter (· ≠ kNoTransitionRun)

theorem Allots.append {c c' c'' : UInt32} {l l' : List UInt32} (h : Allots c c' l)
    (h' : Allots c' c'' l') : Allots c c'' (l ++ l') := by
  obtain ⟨k, rfl, rfl⟩ := h
  obtain ⟨k', rfl, rfl⟩ := h'
  refine ⟨k + k', ?_, ?_⟩
  · rw [Nat.add_comm, Function.iterate_add_apply]
  · rw [List.iterate_add, List.filter_append]

theorem Allots.apart {c c' : UInt32} {l : List UInt32} (h : Allots c c' l)
    (hfits : c.toNat + 5 * l.length < 2 ^ 32 - 1) :
    l.Pairwise (fun a b => a.toNat + 5 ≤ b.toNat) ∧ ∀ a ∈ l, c.toNat ≤ a.toNat := by
  obtain ⟨k, -, rfl⟩ := h
  induction k generalizing c with
  | zero => exact ⟨.nil, nofun⟩
  | succ k ih =>
    have hne : c ≠ kNoTransitionRun := by
      rintro rfl
      exact absurd hfits (by simp [kNoTransitionRun])
    rw [List.iterate, List.filter_cons_of_pos (by simpa using hne)] at hfits ⊢
    rw [List.length_cons] at hfits
    have hnext : (c + kTransitionRunCells).toNat = c.toNat + 5 := by
      rw [UInt32.toNat_add]
      exact Nat.mod_eq_of_lt (by simp [kTransitionRunCells]; omega)
    obtain ⟨hpairwise, hle⟩ := @ih (c + kTransitionRunCells) (by omega)
    rw [hnext] at hle
    refine ⟨List.pairwise_cons.mpr ⟨hle, hpairwise⟩, fun a ha => ?_⟩
    rcases List.mem_cons.mp ha with rfl | ha
    · rfl
    · exact (Nat.le_add_right ..).trans (hle a ha)

theorem runAt_stretch {fn : Function} {before rest : List Instruction} {run : Run}
    (h : runAt keys fn before inst rest = some run) : run.extent ≤ rest.length + 1 ∧
      Stretch keys (receiverOf inst) [] [] ((inst :: rest).take run.extent) := by
  obtain ⟨_, -, h⟩ := Option.bind_eq_some_iff.mp h
  obtain ⟨_, -, h⟩ := Option.bind_eq_some_iff.mp h
  obtain ⟨_, -, h⟩ := Option.bind_eq_some_iff.mp h
  obtain ⟨_, -, h⟩ := Option.bind_eq_some_iff.mp h
  obtain ⟨s, hlast, h⟩ := Option.bind_eq_some_iff.mp h
  obtain rfl := Option.some.inj h
  exact grow_stretch (List.mem_of_getLast? hlast)

/-- No instruction defines a value that it or one before it in the block reads. -/
def DefinedFirst : List Instruction → Prop
  | [] => True
  | inst :: rest => (∀ b ∈ inst :: rest, ∀ v ∈ inst.operands.1, b.result = v → v = kNoValue) ∧
    DefinedFirst rest

/-- An instruction without its mark, and the inline slots it asks for. -/
def strip (inst : Instruction) : Instruction :=
  { inst with
    immI32 := 0, transitionRunCell := 0, transitionRunLength := 0, transitionRunSlot := 0 }

/-- What the loop over a block leaves. -/
def Outcome (keys : List Str) (skip : Nat) (insts out : List Instruction) (cells cells' : UInt32) :
    Prop :=
  out.map strip = insts.map strip ∧
    (∀ i head, out[i]? = some head → head.transitionRunCell ≠ kNoTransitionRun →
      skip ≤ i ∧ Marked keys insts out i head) ∧
    Allots cells cells' (cellsOf out)

theorem Marked.cons {out rest : List Instruction} {i : Nat} {head a b : Instruction}
    (h : Marked keys rest out i head) : Marked keys (a :: rest) (b :: out) (i + 1) head where
  inside := by
    have := h.inside
    simp only [List.length_cons]
    omega
  apart := by
    rintro (_ | j) next hlt hnext hmarked
    · cases hlt
    · have := h.apart j next (by omega) hnext hmarked
      omega
  same := h.same

theorem markFrom_outcome (hkeys : keys.Nodup) (fn : Function) (before : List Instruction)
    (skip : Nat) (hinsts : ∀ inst ∈ insts, inst.transitionRunCell = kNoTransitionRun)
    (hfirst : DefinedFirst insts) (cells : UInt32) :
    Outcome keys skip insts (markFrom keys fn before skip insts cells).1.1 cells
      (markFrom keys fn before skip insts cells).2.2 := by
  induction insts generalizing before skip cells with
  | nil =>
    have hend : Outcome keys skip [] [] cells cells := ⟨rfl, by simp, 0, rfl, rfl⟩
    cases skip <;> exact hend
  | cons inst rest ih =>
    obtain ⟨hinst, hrest⟩ := List.forall_mem_cons.mp hinsts
    have ih := fun skip => ih (inst :: before) skip hrest hfirst.2
    -- an instruction that is left as it is
    have hpass : ∀ {skip skip' out cells cells'}, skip' ≤ skip + 1 →
        Outcome keys skip rest out cells cells' →
        Outcome keys skip' (inst :: rest) (inst :: out) cells cells' := by
      intro skip skip' out cells cells' hskip h
      refine ⟨congrArg (strip inst :: ·) h.1, ?_, by simpa [cellsOf, hinst] using h.2.2⟩
      rintro (_ | i) head hhead hmarked
      · cases hhead
        exact absurd hinst hmarked
      · obtain ⟨hle, hrun⟩ := h.2.1 i head hhead hmarked
        exact ⟨by omega, hrun.cons⟩
    cases skip with
    | succ skip => exact hpass le_rfl (ih skip cells)
    | zero =>
      unfold markFrom
      cases hrun : runAt keys fn before inst rest with
      | none => exact hpass (Nat.zero_le _) (ih 0 cells)
      | some run =>
        obtain ⟨hextent, hstretch⟩ := runAt_stretch hrun
        have h := ih (run.extent - 1) (cells + kTransitionRunCells)
        have hmod : (UInt32.ofNat run.extent).toNat ≤ run.extent := by
          rw [UInt32.toNat_ofNat']
          exact Nat.mod_le ..
        have hinit : Stretch keys (receiverOf inst) [] []
            ((inst :: rest).take (UInt32.ofNat run.extent).toNat) := by
          have h := hstretch.take (UInt32.ofNat run.extent).toNat
          rwa [List.take_take, min_eq_left hmod] at h
        refine ⟨congrArg (strip inst :: ·) h.1, ?_, ?_⟩
        · rintro (_ | i) head hhead hmarked
          · cases hhead
            refine ⟨le_rfl, by simpa using hmod.trans hextent, ?_, _, _, rfl, rfl, ?_,
              fun b hb => (hinit.writes b hb).1, fun b hb => (hinit.writes b hb).2.1,
              hinit.keysOf_nodup hkeys, fun key hkey => ?_,
              fun R fr hguard => hinit.run_eq R (fun _ _ => rfl) hguard.slots
                (hinit.keysOf_nodup hkeys) hguard.absent hguard.numbers⟩
            · rintro (_ | j) next hlt hnext hmarked
              · cases hlt
              · have hle := (h.2.1 j next hnext hmarked).1
                change 0 + (UInt32.ofNat run.extent).toNat ≤ j + 1
                omega
            · -- the receiver is an operand of the first write
              intro b hb hresult
              cases hops : inst.operands.1 with
              | nil => simp [receiverOf, hops]
              | cons r l =>
                refine hfirst.1 b (List.mem_of_mem_take hb) _ ?_ hresult
                simp [receiverOf, hops]
            · obtain ⟨b, -, hrun, rfl⟩ := hinit.mem_keysOf hkey
              obtain ⟨_, _, hdigits⟩ := keyOf_eq hrun
              exact hdigits
          · exact ⟨Nat.zero_le _, (h.2.1 i head hhead hmarked).2.cons⟩
        · obtain ⟨k, hk, hcells⟩ := h.2.2
          refine ⟨k + 1, hk, ?_⟩
          rw [List.iterate, List.filter_cons, ← hcells, cellsOf, List.map_cons, List.filter_cons]
          rfl

theorem each_spec {α : Type} {P : α → α → Prop} {taken : α → List UInt32}
    {f : α → UInt32 → α × UInt32} {l : List α}
    (h : ∀ a ∈ l, ∀ n, P a (f a n).1 ∧ Allots n (f a n).2 (taken (f a n).1)) (n : UInt32) :
    List.Forall₂ P l (each f l n).1.1 ∧
      Allots n (each f l n).2 ((each f l n).1.1.flatMap taken) := by
  induction l generalizing n with
  | nil => exact ⟨.nil, 0, rfl, rfl⟩
  | cons a l ih =>
    obtain ⟨ha, hl⟩ := List.forall_mem_cons.mp h
    obtain ⟨hP, hcells⟩ := ha n
    obtain ⟨hrest, hcells'⟩ := ih hl (f a n).2
    exact ⟨.cons hP hrest, hcells.append hcells'⟩

/-- A block has got its marks, and is otherwise the same. -/
def MarkedBlock (keys : List Str) (blk blk' : Block) : Prop :=
  blk'.instructions.1.map strip = blk.instructions.1.map strip ∧
    ∀ i head, blk'.instructions.1[i]? = some head → head.transitionRunCell ≠ kNoTransitionRun →
      Marked keys blk.instructions.1 blk'.instructions.1 i head

/-- The cells of the runs of a function, in turn. -/
def runCells (fn : Function) : List UInt32 :=
  fn.blocks.1.flatMap fun blk => cellsOf blk.instructions.1

/-- A function that is as it was lowered. -/
def Unmarked (fn : Function) : Prop :=
  ∀ blk ∈ fn.blocks.1, (∀ inst ∈ blk.instructions.1, inst.transitionRunCell = kNoTransitionRun) ∧
    DefinedFirst blk.instructions.1

theorem markBlock_marked (hkeys : keys.Nodup) (fn : Function) {blk : Block}
    (hinsts : ∀ inst ∈ blk.instructions.1, inst.transitionRunCell = kNoTransitionRun)
    (hfirst : DefinedFirst blk.instructions.1) (cells : UInt32) :
    MarkedBlock keys blk (markBlock keys fn blk cells).1 ∧
      Allots cells (markBlock keys fn blk cells).2
        (cellsOf (markBlock keys fn blk cells).1.instructions.1) := by
  obtain ⟨hstrip, hmarks, hcells⟩ := markFrom_outcome hkeys fn [] 0 hinsts hfirst cells
  unfold markBlock MarkedBlock
  dsimp only
  generalize markFrom keys fn [] 0 blk.instructions.1 cells = r at hstrip hmarks hcells ⊢
  -- an inline slot more is no other mark
  have hwiden : ∀ {β : Type} (g : Instruction → β), (∀ i a, g (widen r.2.1 i a) = g a) →
      (r.1.1.mapIdx (widen r.2.1)).map g = r.1.1.map g := fun g hg =>
    List.ext_getElem (by simp) fun i hi hi' => by simp [hg]
  have hget : ∀ {i a}, (r.1.1.mapIdx (widen r.2.1))[i]? = some a →
      ∃ b, r.1.1[i]? = some b ∧ widen r.2.1 i b = a := by
    simp
  refine ⟨⟨(hwiden strip fun _ _ => rfl).trans hstrip, fun i head hhead hmarked => ?_⟩, ?_⟩
  · obtain ⟨a, ha, rfl⟩ := hget hhead
    obtain ⟨-, hmark⟩ := hmarks i a ha hmarked
    refine ⟨hmark.inside, fun j next hlt hnext hnextMarked => ?_, hmark.same⟩
    obtain ⟨b, hb, rfl⟩ := hget hnext
    exact hmark.apart j b hlt hb hnextMarked
  · rw [cellsOf, hwiden _ fun _ _ => rfl]
    exact hcells

theorem markFunction_marked (hkeys : keys.Nodup) {fn : Function} (hfn : Unmarked fn)
    (cells : UInt32) :
    List.Forall₂ (MarkedBlock keys) fn.blocks.1 (markFunction keys fn cells).1.blocks.1 ∧
      Allots cells (markFunction keys fn cells).2
        (runCells (markFunction keys fn cells).1) := by
  unfold markFunction
  split_ifs
  · -- a function that is passed over has no mark
    refine ⟨List.forall₂_same.mpr fun blk hblk => ⟨rfl, fun i head hhead hmarked =>
      absurd ((hfn blk hblk).1 head (List.mem_of_getElem? hhead)) hmarked⟩, 0, rfl, ?_⟩
    refine List.flatMap_eq_nil_iff.mpr fun blk hblk => ?_
    have hnone := (hfn blk hblk).1
    simpa [cellsOf] using hnone
  · exact each_spec (fun blk hblk => markBlock_marked hkeys fn (hfn blk hblk).1 (hfn blk hblk).2)
      cells

/-- **Transition runs are well formed**, in functions none of which was marked before, of a module
whose key constants are distinct. The cells of the runs are disjoint as long as the count does not
wrap. -/
theorem markTransitionRuns_marked (m : Module) (hkeys : m.keyConstants.1.Nodup)
    (hfns : ∀ fn ∈ m.functions.1, Unmarked fn) :
    List.Forall₂ (fun fn fn' =>
        List.Forall₂ (MarkedBlock m.keyConstants.1) fn.blocks.1 fn'.blocks.1)
      m.functions.1 (markTransitionRuns m).functions.1 ∧
    (m.staticSiteCount.toNat +
        5 * ((markTransitionRuns m).functions.1.flatMap runCells).length < 2 ^ 32 - 1 →
      ((markTransitionRuns m).functions.1.flatMap runCells).Pairwise
        fun a b => a.toNat + 5 ≤ b.toNat) := by
  refine And.imp_right
    (fun (h : Allots _ (markTransitionRuns m).staticSiteCount _) hfits => (h.apart hfits).1) ?_
  exact each_spec (fun fn hfn => markFunction_marked hkeys (hfns fn hfn)) m.staticSiteCount

/-- A constructor that stores its argument, and a number made of it. -/
def coercing : Module where
  keyConstants := .pair ⟨[97], by decide⟩ ⟨[98], by decide⟩
  functions := {{
    needsThis := true
    blocks := {{
      instructions := ⟨[
        { op := .propSet, operands := .pair 0 1, staticSlot := 0 },
        { op := .unbox, type := .f64, result := 2, operands := {1} },
        { op := .box, boxType := .f64, type := .dynamic, result := 3, operands := {2} },
        { op := .propSet, operands := .pair 0 3, keyIndex := 1, staticSlot := 1 }],
        by decide⟩ }} }}

/-- **A marked run may call `valueOf`**: its guard tests what ToNumber is asked of, and it is marked
whatever that is. -/
theorem markTransitionRuns_coerces :
    ∃ fn ∈ (markTransitionRuns coercing).functions.1, ∃ blk ∈ fn.blocks.1, ∃ head inst rest,
      blk.instructions.1 = head :: inst :: rest ∧ head.transitionRunCell = 0 ∧
        head.transitionRunLength = 4 ∧
        ∀ {V W : Type} (R : Runtime V W) (env : ValueId → V), R.isNumber (env 1) = false →
          R.runsCode env inst = true :=
  ⟨_, List.mem_cons_self, _, List.mem_cons_self, _, _, _, rfl, rfl, rfl,
    fun R env h => by
      change (true && !(true && R.isNumber (env 1))) = true
      rw [h]
      rfl⟩

theorem markTransitionRuns_marked_coercing :
    List.Forall₂ (fun fn fn' =>
        List.Forall₂ (MarkedBlock coercing.keyConstants.1) fn.blocks.1 fn'.blocks.1)
      coercing.functions.1 (markTransitionRuns coercing).functions.1 := by
  have hfns : ∀ fn ∈ coercing.functions.1, Unmarked fn := by
    rintro fn (_ | ⟨_, ⟨⟩⟩) blk (_ | ⟨_, ⟨⟩⟩)
    refine ⟨by decide, ?_⟩
    simp [DefinedFirst, Vec.pair, kNoValue]
  exact (markTransitionRuns_marked coercing (by decide) hfns).1

end Bronze.Lower.Transition
