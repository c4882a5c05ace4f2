import Bronze.Il.Equations

/-!
# Operations that need a licence

Two rules of the verifier are about what a fast operation relies on.

The result of `concat.begin` or `concat.append` is a builder, which the next link of its chain
writes into in place. The verifier counts the operands that name a builder, and refuses any but the
first operand of one later link in the same block. An argument of a jump or of a branch is no
operand, so it is not counted.

`closure.env` reads what only a closure has, so it stands first in a block that is entered by one
edge, the true edge of a branch on a `closure.is` of the same value. The verifier counts the edges
of jumps and branches: neither the call of the function nor a throw to a handler is one.

## Main results

* `builders_linear_iff`: exactly when the builders of an accepted function are linear
* `closureEnv_guarded_iff`: exactly when its `closure.env` are guarded
* `passed_builder`, `caught_closureEnv`: accepted functions where they are not
-/

namespace Bronze.Il

open Graph
open List Instruction Machine State Option

/-- The result of instruction `i` of block `b` is a builder. -/
def Builds (fn : Function) (b i : Nat) (acc : ValueId) : Prop :=
  ∃ inst, InstAt fn b i inst ∧ inst.result = acc ∧
    (inst.op = .concatBegin ∨ inst.op = .concatAppend)

/-- The instruction takes the builder over. -/
def Instruction.Continues (inst : Instruction) (acc : ValueId) : Prop :=
  (inst.op = .concatAppend ∨ inst.op = .concatEnd) ∧ inst.operands.1[0]? = some acc

def Function.instructions (fn : Function) : List Instruction :=
  fn.blocks.1.flatMap fun b => b.instructions.1

/-- How often a value is read in the whole function. -/
def reads (fn : Function) (v : ValueId) : Nat :=
  (fn.instructions.map fun inst => inst.uses.count v).sum

/-- Every builder is read exactly once, by a later link in its block. -/
def Linear (fn : Function) : Prop :=
  ∀ b i acc, Builds fn b i acc → reads fn acc = 1 ∧
    ∃ j inst, i < j ∧ InstAt fn b j inst ∧ inst.Continues acc

/-- No execution has a second holder of a builder: what reads it is its link. -/
def Unobserved (fn : Function) : Prop :=
  ∀ st, Reaches fn st → ∀ inst, st.inst fn = some inst → ∀ acc ∈ inst.uses, ∀ b i,
    Builds fn b i acc → st.block = b ∧ i < st.index ∧ inst.Continues acc

/-- No terminator passes a builder to a block. -/
def Unpassed (fn : Function) : Prop :=
  ∀ inst ∈ fn.instructions, ∀ target ∈ inst.targets, ∀ acc ∈ target.args.1, ∀ b i,
    ¬Builds fn b i acc

variable {fn : Function} {a : Analysis} {b i : Nat} {acc : ValueId} {inst : Instruction}

theorem InstAt.mem (h : InstAt fn b i inst) : inst ∈ fn.instructions := by
  obtain ⟨blk, hblk, hinst⟩ := h
  exact mem_flatMap.mpr ⟨blk, mem_of_getElem? hblk, mem_of_getElem? hinst⟩

theorem exists_instAt (h : inst ∈ fn.instructions) : ∃ b i, InstAt fn b i inst := by
  obtain ⟨blk, hblk, hinst⟩ := mem_flatMap.mp h
  obtain ⟨b, hb⟩ := mem_iff_getElem?.mp hblk
  obtain ⟨i, hi⟩ := mem_iff_getElem?.mp hinst
  exact ⟨b, i, blk, hb, hi⟩

/-- Operands are read, and so are arguments. -/
theorem reads_eq (fn : Function) (v : ValueId) :
    reads fn v = (fn.instructions.map fun inst => inst.operands.1.count v).sum +
      (fn.instructions.map fun inst =>
        (inst.targets.flatMap fun target => target.args.1).count v).sum := by
  unfold reads
  rw [← sum_map_add]
  simp [uses]

/-- Where the sum is one, one element contributes. -/
theorem eq_of_sum_eq_one {α : Type} {f : α → Nat} {l : List α} (h : (l.map f).sum = 1) {x y : α}
    (hx : x ∈ l) (hy : y ∈ l) (hfx : f x ≠ 0) (hfy : f y ≠ 0) : x = y := by
  induction l with
  | nil => cases hx
  | cons z l ih =>
    rw [map_cons, sum_cons] at h
    have hle : ∀ w ∈ l, f w ≤ (l.map f).sum := fun w hw =>
      le_sum_of_mem (mem_map_of_mem hw)
    rcases mem_cons.mp hx with rfl | hx
    · rcases mem_cons.mp hy with rfl | hy
      · rfl
      · have hless := hle y hy
        omega
    · have hless := hle x hx
      rcases mem_cons.mp hy with rfl | hy
      · omega
      · exact ih (by omega) hx hy

theorem mem_accumulators {p : Nat × Nat} : (acc, p) ∈ accumulators fn ↔ Builds fn p.1 p.2 acc := by
  unfold accumulators Builds InstAt
  constructor
  · intro h
    obtain ⟨⟨blk, b⟩, hblk, h⟩ := mem_flatMap.mp h
    obtain ⟨⟨inst, i⟩, hinst, h⟩ := mem_filterMap.mp h
    dsimp only at h
    split at h
    · next hop =>
      obtain ⟨rfl, rfl, rfl⟩ := some.inj h
      exact ⟨inst, ⟨blk, mem_zipIdx_iff_getElem?.mp hblk,
        mem_zipIdx_iff_getElem?.mp hinst⟩, rfl, hop⟩
    · cases h
  · rintro ⟨inst, ⟨blk, hblk, hinst⟩, rfl, hop⟩
    refine mem_flatMap.mpr ⟨(blk, p.1), mem_zipIdx_iff_getElem?.mpr hblk,
      mem_filterMap.mpr ⟨(inst, p.2), mem_zipIdx_iff_getElem?.mpr hinst, ?_⟩⟩
    exact if_pos hop

/-- Two places that make one builder are one place. -/
theorem Builds.unique (hv : Verified fn a) (hacc : acc ≠ kNoValue) {b' i' : Nat}
    (h : Builds fn b i acc) (h' : Builds fn b' i' acc) : b' = b ∧ i' = i := by
  obtain ⟨inst, hinst, rfl, -⟩ := h
  obtain ⟨inst', hinst', hresult, -⟩ := h'
  exact (hv.defines_unique (hinst.defines hacc)).1 b' i' (hresult ▸ hinst'.defines (hresult ▸ hacc))

/-- What an operand names is no sentinel. -/
theorem Verified.operand_ne (hv : Verified fn a) (hinst : InstAt fn b i inst)
    (hmem : acc ∈ inst.uses) : acc ≠ kNoValue := by
  obtain ⟨blk, hblk, hget⟩ := hinst
  obtain ⟨loc, hloc, rfl, -⟩ := Analysis.checkUse_ok (hv.use b blk hblk i inst hget acc hmem)
  exact (recordDefinitions_spec hv.definitions).1.named loc hloc

theorem Instruction.Continues.mem (h : inst.Continues acc) : acc ∈ inst.operands.1 :=
  mem_of_getElem? h.2

section

variable (hv : Verified fn a)

include hv

variable (hchain : verifyConcatChain fn = true)

include hchain

/-- A link stands after the builder that it continues, in the same block. -/
theorem link_place (h : Builds fn b i acc) {b' j : Nat} (hat : InstAt fn b' j inst)
    (hcontinues : inst.Continues acc) : b' = b ∧ i < j := by
  have hne : accumulators fn ≠ [] := ne_nil_of_mem (mem_accumulators (p := (b, i)).mpr h)
  obtain ⟨hlinks, -⟩ := (of_decide_eq_true hchain).resolve_left hne
  have hacc := hv.operand_ne hat (mem_append_left _ hcontinues.mem)
  obtain ⟨hop, hoperand⟩ := hcontinues
  obtain ⟨blk, hblk, hget⟩ := hat
  obtain ⟨acc', hacc', ⟨_, place⟩, hplace, rfl, hj⟩ := hlinks (blk, b')
    (mem_zipIdx_iff_getElem?.mpr hblk) (inst, j) (mem_zipIdx_iff_getElem?.mpr hget)
    hop
  obtain rfl : acc = acc' := some.inj (hoperand.symm.trans hacc')
  obtain ⟨hmem, hid⟩ := mem_filter.mp (mem_of_getLast? hplace)
  obtain rfl := of_decide_eq_true hid
  obtain ⟨hb, hi⟩ := h.unique hv hacc (mem_accumulators.mp hmem)
  exact ⟨hb, hi ▸ hj⟩

/-- **What `verifyConcatChain` establishes**: one operand names a builder, and it is that of a
later link in its block. -/
theorem verifyConcatChain_spec (h : Builds fn b i acc) :
    (fn.instructions.map fun inst => inst.operands.1.count acc).sum = 1 ∧
      ∃ j link, i < j ∧ InstAt fn b j link ∧ link.Continues acc := by
  have hmem := mem_accumulators (p := (b, i)).mpr h
  obtain ⟨-, hcounts⟩ := (of_decide_eq_true hchain).resolve_left (ne_nil_of_mem hmem)
  obtain ⟨hsum, hone⟩ := hcounts _ hmem
  refine ⟨hsum, ?_⟩
  obtain ⟨link, hlink⟩ := length_eq_one_iff.mp hone
  have hfilter := mem_filter.mp (hlink ▸ mem_singleton_self link)
  obtain ⟨hop, hoperand⟩ := of_decide_eq_true hfilter.2
  obtain ⟨b', j, hat⟩ := exists_instAt hfilter.1
  have hcontinues : link.Continues acc := ⟨hop, hoperand⟩
  obtain ⟨rfl, hj⟩ := link_place hv hchain h hat hcontinues
  exact ⟨j, link, hj, hat, hcontinues⟩

theorem linear_iff : Linear fn ↔ Unpassed fn := by
  constructor
  · intro hlinear inst hinst target htarget acc hacc b i hbuilds
    obtain ⟨hreads, -⟩ := hlinear b i acc hbuilds
    rw [reads_eq, (verifyConcatChain_spec hv hchain hbuilds).1] at hreads
    have hzero := sum_eq_zero_iff.mp (Nat.add_eq_left.mp hreads) _ (mem_map_of_mem hinst)
    exact count_eq_zero.mp hzero (mem_flatMap.mpr ⟨target, htarget, hacc⟩)
  · intro hunpassed b i acc hbuilds
    obtain ⟨hsum, hlink⟩ := verifyConcatChain_spec hv hchain hbuilds
    refine ⟨?_, hlink⟩
    rw [reads_eq, hsum, Nat.add_eq_left, sum_eq_zero_iff]
    intro n hn
    obtain ⟨inst, hinst, rfl⟩ := mem_map.mp hn
    refine count_eq_zero.mpr fun hmem => ?_
    obtain ⟨target, htarget, hacc⟩ := mem_flatMap.mp hmem
    exact hunpassed inst hinst target htarget acc hacc b i hbuilds

/-- What reads a builder that is read once is its link. -/
theorem unobserved_of_linear (hlinear : Linear fn) : Unobserved fn := by
  intro st _ inst hinst acc hmem b i hbuilds
  obtain ⟨hreads, j, link, hj, hat, hcontinues⟩ := hlinear b i acc hbuilds
  have hhere : InstAt fn st.block st.index inst := inst_eq hinst
  have hcount : ∀ {inst : Instruction}, acc ∈ inst.uses → inst.uses.count acc ≠ 0 :=
    fun h => (count_pos_iff.mpr h).ne'
  have hlink : acc ∈ link.uses := mem_append_left _ hcontinues.mem
  obtain rfl := eq_of_sum_eq_one hreads hhere.mem hat.mem (hcount hmem) (hcount hlink)
  obtain ⟨hblock, hindex⟩ := link_place hv hchain hbuilds hhere hcontinues
  exact ⟨hblock, hindex, hcontinues⟩

end

/-- **Exactly when builders are linear**: no terminator of the accepted function passes one to a
block. Then no execution has a second holder of a builder. -/
theorem builders_linear_iff (certificates : Function → Bool) (fn : Function)
    (h : Accepts certificates fn) : Linear fn ∧ Unobserved fn ↔ Unpassed fn := by
  obtain ⟨a, hv, -, hchain⟩ := h.passed
  rw [← linear_iff hv hchain]
  exact ⟨And.left, fun hlinear => ⟨hlinear, unobserved_of_linear hv hchain hlinear⟩⟩

/-- A function that ends a chain, and passes the builder on as well. -/
def passing : Function where
  blocks := ⟨[
    { id := 0
      instructions := ⟨[
        { op := .constUndefined, type := .dynamic, result := 0 },
        { op := .concatBegin, type := .dynamic, result := 1, operands := .pair 0 0 },
        { op := .concatEnd, type := .dynamic, result := 2, operands := .pair 1 0 },
        { op := .jump, target := ⟨1, {1}⟩ }], by decide⟩ },
    { id := 1
      params := ⟨[⟨3, .dynamic⟩], by decide⟩
      instructions := ⟨[{ op := .ret, operands := {3} }], by decide⟩ }], by decide⟩

theorem passing_accepted (certificates : Function → Bool) (h : certificates passing = true) :
    Accepts certificates passing := by
  refine ⟨10, ?_⟩
  show require (certificates passing = true) .certificates = .ok ()
  rw [require, if_pos h]

/-- **An accepted function whose builder is read twice**: by the end of its chain, and by the jump
that passes it on. -/
theorem passed_builder :
    (∀ certificates, certificates passing = true → Accepts certificates passing) ∧
      Builds passing 0 1 1 ∧ reads passing 1 = 2 :=
  ⟨passing_accepted, ⟨_, ⟨_, rfl, rfl⟩, rfl, .inl rfl⟩, rfl⟩

theorem builders_linear_iff_passing : Linear passing ∧ Unobserved passing ↔ Unpassed passing :=
  builders_linear_iff (fun _ => true) passing (passing_accepted _ rfl)

/-! ## Control transfers -/

/-- How control comes to a block: by the call, from a terminator, or by a throw. -/
inductive Transfer where
  | call
  | edge (terminator : Instruction) (target : BlockTarget)
  | raise

/-- An execution comes to a state by a transfer. -/
inductive Arrives (fn : Function) : Transfer → State → Prop where
  | call : Arrives fn .call (start fn)
  | edge {st : State} {inst : Instruction} {target : BlockTarget} {blk : Block}
    (h : Reaches fn st) (hinst : st.inst fn = some inst) (htarget : target ∈ inst.targets)
    (hnamed : target.block ≠ kNoBlock) (hblk : fn.blocks.1[target.block.toNat]? = some blk) :
    Arrives fn (.edge inst target)
      ⟨target.block.toNat, 0, inst.completed st.defined ∪ blk.taken⟩
  | raise {st : State} {inst : Instruction} {blk : Block} (h : Reaches fn st)
    (hinst : st.inst fn = some inst) (hblk : fn.blocks.1[st.block]? = some blk)
    (hnamed : blk.handler ≠ kNoBlock) : Arrives fn .raise ⟨blk.handler.toNat, 0, st.defined⟩

/-- The transfer is the true edge of a branch on the `closure.is` of the value. -/
def Licenses (fn : Function) (v : ValueId) : Transfer → Prop
  | .edge test target => test.op = .branch ∧ target.block = test.target.block ∧
    target.block ≠ test.elseTarget.block ∧ ∃ c b i probe, test.operands.1[0]? = some c ∧
      InstAt fn b i probe ∧ probe.result = c ∧ probe.op = .closureIs ∧
      probe.operands.1[0]? = some v
  | _ => False

/-- Whenever `closure.env` executes, control has just come by the true edge of its test. -/
def EnvGuarded (fn : Function) : Prop :=
  ∀ st, Reaches fn st → ∀ inst, st.inst fn = some inst → inst.op = .closureEnv →
    ∃ v, inst.operands.1[0]? = some v ∧ st.index = 0 ∧ ∀ t, Arrives fn t st → Licenses fn v t

/-- No `closure.env` is first in the entry, or in the handler of a block that is reached. -/
def EnvSealed (fn : Function) : Prop :=
  (∀ inst, InstAt fn 0 0 inst → inst.op ≠ .closureEnv) ∧
    ∀ d blk, fn.blocks.1[d]? = some blk → Relation.ReflTransGen (Edge fn) 0 d →
      blk.handler ≠ kNoBlock → ∀ inst, InstAt fn blk.handler.toNat 0 inst → inst.op ≠ .closureEnv

def Function.terminators (fn : Function) : List Instruction :=
  fn.blocks.1.filterMap fun b => b.instructions.1.getLast?

/-- What an instruction adds to the `edges` of a block. -/
def Instruction.edgesTo (bIdx : Nat) (t : Instruction) : Nat :=
  (if (t.op = .jump ∨ t.op = .branch) ∧ t.target.block.toNat = bIdx then 1 else 0) +
    if t.op = .branch ∧ t.elseTarget.block.toNat = bIdx then 2 else 0

/-- The only edge to a block of `closure.env` is the true edge of its test. -/
structure Guards (fn : Function) (b : Nat) (v c : ValueId) (test : Instruction) : Prop where
  mem : test ∈ fn.terminators
  op : test.op = .branch
  condition : test.operands.1[0]? = some c
  target : test.target.block.toNat = b
  elseTarget : test.elseTarget.block.toNat ≠ b
  only : ∀ inst ∈ fn.terminators, inst.edgesTo b ≠ 0 → inst = test
  probe : ∃ d k probe, InstAt fn d k probe ∧ probe.result = c ∧ probe.op = .closureIs ∧
    probe.operands.1[0]? = some v

/-- **What `closureEnvProved` establishes.** -/
theorem closureEnvProved_spec (hv : Verified fn a) {v : ValueId}
    (hoperand : inst.operands.1[0]? = some v) (h : a.closureEnvProved b i inst = true) :
    i = 0 ∧ ∃ c test, Guards fn b v c test := by
  obtain ⟨hi, hedges, test, htest, c, hc, probe, hprobe, hop, -, hsame⟩ := of_decide_eq_true h
  rw [hv.fn_eq] at hedges htest
  refine ⟨hi, c, test, ?_⟩
  obtain ⟨hmem, htrue⟩ := mem_filter.mp (mem_of_getLast? htest)
  obtain ⟨hbranch, htarget⟩ := of_decide_eq_true htrue
  have hsum : (fn.terminators.map (edgesTo b)).sum = 1 := hedges
  have hone : test.edgesTo b ≠ 0 := by
    simp [edgesTo, hbranch, htarget]
  have hle : test.edgesTo b ≤ (fn.terminators.map (edgesTo b)).sum :=
    le_sum_of_mem (mem_map_of_mem hmem)
  obtain ⟨hprobe, hresult⟩ := mem_filter.mp (mem_of_getLast? hprobe)
  rw [hv.fn_eq] at hprobe
  obtain ⟨d, k, hat⟩ := exists_instAt hprobe
  refine ⟨hmem, hbranch, hc, htarget, fun helse => ?_,
    fun inst hinst hne => eq_of_sum_eq_one hsum hinst hmem hne hone,
    d, k, probe, hat, of_decide_eq_true hresult, hop, hsame.trans hoperand⟩
  rw [hsum] at hle
  simp [edgesTo, hbranch, helse] at hle

variable {certificates : Function → Bool}

/-- An accepted `closure.env` is first in its block, and guarded. -/
theorem Accepts.guards (h : Accepts certificates fn)
    (hat : InstAt fn b i inst) (hop : inst.op = .closureEnv) :
    ∃ v, inst.operands.1[0]? = some v ∧ i = 0 ∧ ∃ c test, Guards fn b v c test := by
  obtain ⟨a, hv, hrules, -⟩ := h.passed
  obtain ⟨blk, hblk, hget⟩ := hat
  have hrule := hrules b blk hblk i inst hget
  unfold Analysis.operationOk at hrule
  rw [hop] at hrule
  obtain ⟨hone, -, -, hproved⟩ := of_decide_eq_true hrule
  obtain ⟨v, hoperand⟩ : ∃ v, inst.operands.1[0]? = some v :=
    ⟨_, getElem?_eq_getElem (by omega)⟩
  exact ⟨v, hoperand, closureEnvProved_spec hv hoperand hproved⟩

variable {v c : ValueId} {test : Instruction} {target : BlockTarget} {d : Nat}

/-- An edge that leads to a guarded block is the true edge of the test. -/
theorem Guards.of_edge (hv : Verified fn a) (h : Guards fn b v c test) (hat : InstAt fn d i inst)
    (htarget : target ∈ inst.targets) (hb : target.block.toNat = b) :
    inst = test ∧ target.block = test.target.block ∧
      target.block ≠ test.elseTarget.block := by
  obtain ⟨blk, hblk, hget⟩ := hat
  have hmem := mem_of_getElem? hblk
  have hlast := (hv.terminator blk hmem i inst hget).mp (isTerminator_of_targets htarget)
  have hterm : inst ∈ fn.terminators := by
    refine mem_filterMap.mpr ⟨blk, hmem, ?_⟩
    rw [getLast?_eq_getElem?, ← hlast, hget]
  have hcases : (inst.op = .jump ∨ inst.op = .branch) ∧ target = inst.target ∨
      inst.op = .branch ∧ target = inst.elseTarget := by
    unfold targets at htarget
    split at htarget
    · next hop => exact .inl ⟨.inl hop, mem_singleton.mp htarget⟩
    · split at htarget
      · next hop =>
        rcases mem_cons.mp htarget with heq | htarget
        · exact .inl ⟨.inr hop, heq⟩
        · exact .inr ⟨hop, mem_singleton.mp htarget⟩
      · cases htarget
  have hedge : inst.edgesTo b ≠ 0 := by
    unfold edgesTo
    rcases hcases with ⟨hop, rfl⟩ | ⟨hop, rfl⟩
    · rw [if_pos ⟨hop, hb⟩]
      omega
    · have htwo : (if inst.op = .branch ∧ inst.elseTarget.block.toNat = b then 2 else 0) = 2 :=
        if_pos ⟨hop, hb⟩
      omega
  obtain rfl := h.only inst hterm hedge
  refine ⟨rfl, ?_, fun heq => h.elseTarget (heq ▸ hb)⟩
  rcases hcases with ⟨-, rfl⟩ | ⟨-, rfl⟩
  · rfl
  · exact absurd hb h.elseTarget

theorem guarded_of_sealed (h : Accepts certificates fn)
    (hsealed : EnvSealed fn) : EnvGuarded fn := by
  intro st _ inst hinst hop
  obtain ⟨a, hv, -⟩ := h.passed
  have hat : InstAt fn st.block st.index inst := inst_eq hinst
  obtain ⟨v, hoperand, hindex, c, test, hguards⟩ := h.guards hat hop
  refine ⟨v, hoperand, hindex, fun t ht => ?_⟩
  cases ht with
  | call => exact absurd hop (hsealed.1 inst hat)
  | @edge st inst' target blk hreach hinst' htarget hnamed hblk =>
    obtain ⟨rfl, htrue, helse⟩ := hguards.of_edge hv (inst_eq hinst') htarget rfl
    obtain ⟨d, k, probe, hprobe, hresult, hprobeOp, hsame⟩ := hguards.probe
    exact ⟨hguards.op, htrue, helse, c, d, k, probe, hguards.condition, hprobe, hresult,
      hprobeOp, hsame⟩
  | @raise st inst' blk hreach hinst' hblk hnamed =>
    have hreached := (Keeps.run hv hreach).reached
    exact absurd hop (hsealed.2 st.block blk hblk hreached hnamed inst hat)

theorem sealed_of_guarded (h : Accepts certificates fn)
    (hguarded : EnvGuarded fn) : EnvSealed fn := by
  obtain ⟨a, hv, -⟩ := h.passed
  constructor
  · rintro inst ⟨blk, hblk, hget⟩ hop
    obtain ⟨v, -, -, hall⟩ := hguarded (start fn) .refl inst (inst_mk hblk hget) hop
    exact hall .call .call
  · rintro d blk hblk hreached hnamed inst ⟨handler, hhandler, hget⟩ hop
    obtain ⟨defined, hreach⟩ := reaches_block hv hreached
    obtain ⟨first, hfirst⟩ := hv.first hblk
    -- the first instruction of the protected block throws
    have hinst : State.inst fn ⟨d, 0, defined⟩ = some first := State.inst_mk hblk hfirst
    obtain ⟨v, -, -, hall⟩ := hguarded ⟨blk.handler.toNat, 0, defined⟩
      (hreach.tail (.raise hinst hblk hnamed)) inst (inst_mk hhandler hget) hop
    exact hall .raise (.raise hreach hinst hblk hnamed)

/-! ## What the test has said -/

section Value

variable {probe : Instruction} {k : Nat}

/-- Control comes to a sealed `closure.env` from its test only. -/
theorem Guards.of_pred (hv : Verified fn a) (hsealed : EnvSealed fn) (h : Guards fn b v c test)
    (hat : InstAt fn b 0 inst) (hop : inst.op = .closureEnv) {p : Nat}
    (hp : Relation.ReflTransGen (Edge fn) 0 p) (hedge : Edge fn p b) : ∃ j, InstAt fn p j test := by
  obtain ⟨blk, hblk, id, hid, hnamed, rfl⟩ := hedge
  rcases mem_cons.mp hid with rfl | hid
  · exact absurd hop (hsealed.2 p blk hblk hp hnamed inst hat)
  · obtain ⟨here, hhere, hid⟩ := mem_flatMap.mp hid
    obtain ⟨target, htarget, rfl⟩ := mem_map.mp hid
    obtain ⟨j, hj⟩ := mem_iff_getElem?.mp hhere
    obtain ⟨rfl, -⟩ := h.of_edge hv ⟨blk, hblk, hj⟩ htarget rfl
    exact ⟨j, blk, hblk, hj⟩

/-- The probe lies above the `closure.env`, and no handler passes it by. -/
theorem Guards.passed (hv : Verified fn a) (hsealed : EnvSealed fn) (hhandlers : HandlersSealed fn)
    (h : Guards fn b v c test) (hat : InstAt fn b 0 inst) (hop : inst.op = .closureEnv)
    (hprobe : InstAt fn d k probe) (hresult : probe.result = c) (hc : c ≠ kNoValue)
    (hreach : Relation.ReflTransGen (Edge fn) 0 b) :
    d ≠ b ∧ Dominates (Edge fn) 0 d b ∧ ¬Leaks fn d b := by
  have hentry : 0 ≠ b := by
    rintro rfl
    exact hsealed.1 inst hat hop
  have hmem : c ∈ test.operands.1 := mem_of_getElem? h.condition
  have habove : ∀ {p}, Relation.ReflTransGen (Edge fn) 0 p → Edge fn p b →
      d = p ∨ Dominates (Edge fn) 0 d p := by
    intro p hp hedge
    obtain ⟨j, htest⟩ := h.of_pred hv hsealed hat hop hp hedge
    obtain ⟨hunique, htaken, htakes⟩ := hv.defines_unique (hprobe.defines (hresult ▸ hc))
    subst hresult
    rcases hv.operand_place htest hmem hp with htakes' | ⟨d', k', hdef, hplace⟩
    · exact absurd htakes' htakes
    · rcases hdef with ⟨-, htaken'⟩ | ⟨i, -, hdefines⟩
      · exact absurd htaken' (htaken d')
      · obtain ⟨rfl, -⟩ := hunique d' i hdefines
        exact hplace.imp And.left And.right
  have hnot : ∀ {p}, Avoids (Edge fn) d 0 p → ¬Edge fn p b := by
    intro p havoid hedge
    rcases habove havoid.reachable hedge with rfl | hdom
    · exact havoid.ne rfl
    · exact hdom havoid
  have hdom : Dominates (Edge fn) 0 d b := by
    rintro ⟨hne, hpath⟩
    cases hpath with
    | refl => exact hentry rfl
    | tail hpath hlast => exact hnot ⟨hne, hpath⟩ hlast.1
  refine ⟨?_, hdom, ?_⟩
  · rintro rfl
    rcases exists_first hreach with heq | ⟨p, havoid, hedge⟩
    · exact hentry heq
    · exact hnot havoid hedge
  · rintro ⟨blk, hblk, hnamed, hne, hpath⟩
    have hd := hdom.reachable hreach
    cases hpath with
    | refl => exact hsealed.2 d blk hblk hd hnamed inst hat hop
    | @tail p _ hpath hlast =>
      have hhandler : Edge fn d blk.handler.toNat :=
        ⟨blk, hblk, _, mem_cons_self .., hnamed, rfl⟩
      have hp := (hd.tail hhandler).trans (Avoids.reachable ⟨hne, hpath⟩)
      obtain ⟨j, user, huser, htest⟩ := h.of_pred hv hsealed hat hop hp hlast.1
      obtain ⟨blk', hblk', hget⟩ := hprobe
      obtain rfl := some.inj (hblk.symm.trans hblk')
      exact hhandlers d blk hblk hd hnamed p ⟨hne, hpath⟩ user huser test
        (mem_of_getElem? htest) c (mem_append_left _ hmem) probe
        (mem_of_getElem? hget) hresult

variable {D F R W : Type} {M : Machine D F R W}

/-- A branch whose condition is false goes to its other target. -/
theorem Machine.truthy_of_next {e e' : Config D F R W} (hnext : M.Next fn e e')
    (hinst : e.inst fn = some test) (hop : test.op = .branch)
    (helse : test.elseTarget.block.toNat ≠ e'.block) :
    M.truthy (M.boxed (M.firstOperand test e.env)) = true := by
  refine Classical.byContradiction fun hfalse => helse ?_
  unfold Next step at hnext
  rw [hinst] at hnext
  dsimp only at hnext
  rw [hop] at hnext
  dsimp only at hnext
  rw [if_neg hfalse] at hnext
  unfold enter at hnext
  split at hnext
  · cases hnext
  · split at hnext
    · cases hnext
    · obtain rfl := Move.goes.inj hnext
      rfl

/-- **The test has said yes**, of the value that `closure.env` reads. -/
def EnvTested (fn : Function) : Prop :=
  ∀ (D F R W : Type) (M : Machine D F R W) args w e,
    Relation.ReflTransGen (M.Next fn) (M.start args w) e → ∀ inst, e.inst fn = some inst →
    inst.op = .closureEnv → ∃ v probe w w' answer, inst.operands.1[0]? = some v ∧
      probe.op = .closureIs ∧ M.exec probe [e.env v] w = .ok (answer, w') ∧
      M.truthy (M.boxed answer) = true

theorem envTested_of_sealed {certificates : Function → Bool} (h : Accepts certificates fn)
    (hsealed : EnvSealed fn) (hhandlers : HandlersSealed fn) : EnvTested fn := by
  intro D F R W M args w e hrun inst hinst hop
  obtain ⟨a, hv, hrules, -⟩ := h.passed
  have hat := Config.inst_eq_some.mp hinst
  obtain ⟨v, hoperand, hindex, c, test, hguards⟩ := h.guards hat hop
  rw [hindex] at hat
  obtain ⟨hreach, hexplains⟩ := hv.explains hrun
  cases hrun with
  | refl => exact absurd hop (hsealed.1 inst hat)
  | @tail e₀ _ hrun hnext =>
    have hreach₀ := (hv.explains hrun).1
    obtain ⟨here, hhere, hcases⟩ := step_goes hnext
    have hhere' := Config.inst_eq_some.mp hhere
    rcases hcases with ⟨x, w, -, -, rfl⟩ | ⟨target, htarget, hnamed, blk, hblk, rfl⟩ |
      ⟨blk, w, hblk, hnamed, rfl⟩
    · cases hindex
    · obtain ⟨rfl, -⟩ := hguards.of_edge hv hhere' htarget rfl
      have hmem : c ∈ here.operands.1 := mem_of_getElem? hguards.condition
      have hc := hv.operand_ne hhere' (mem_append_left _ hmem)
      obtain ⟨d, k, probe, hprobe, hresult, hprobeOp, hsame⟩ := hguards.probe
      have hpassed := hguards.passed hv hsealed hhandlers hat hop hprobe hresult hc hreach
      have hterm : isTerminator probe.op = false := by
        rw [hprobeOp]
        decide
      obtain ⟨w, w', hexec⟩ := hexplains d k probe hprobe (hresult ▸ hc) hterm (.inr hpassed)
      have hprobeOperands : probe.operands.1 = [v] := by
        obtain ⟨blk', hblk', hget⟩ := hprobe
        have hrule := hrules d blk' hblk' k probe hget
        unfold Analysis.operationOk at hrule
        rw [hprobeOp] at hrule
        obtain ⟨u, hu⟩ := length_eq_one_iff.mp (of_decide_eq_true hrule).1
        rw [hu] at hsame ⊢
        rw [some.inj hsame]
      have htruthy := truthy_of_next hnext hhere hguards.op hguards.elseTarget
      refine ⟨v, probe, w, w', _, hoperand, hprobeOp, hprobeOperands ▸ hexec, ?_⟩
      -- the answer is no parameter of the block
      have hparam := (hv.passed_notMem hblk hprobe (hresult ▸ hc) hreach hpassed.1 hpassed.2.1).1
      dsimp only
      rw [bindParams_of_notMem hparam, hresult]
      unfold firstOperand at htruthy
      have hcondition := hguards.condition
      cases hoperands : here.operands.1 with
      | nil =>
        rw [hoperands] at hcondition
        cases hcondition
      | cons u rest =>
        rw [hoperands] at hcondition htruthy
        obtain rfl : u = c := some.inj hcondition
        dsimp only at htruthy
        rwa [if_neg hc] at htruthy
    · exact absurd hop (hsealed.2 e₀.block blk hblk hreach₀ hnamed inst hat)

end Value

/-- **Exactly when `closure.env` is guarded** in an accepted function: neither a call nor a throw
comes to one. If no value leaks to a handler either, the test has said yes of the value itself. -/
theorem closureEnv_guarded_iff (certificates : Function → Bool) (fn : Function)
    (h : Accepts certificates fn) : (EnvGuarded fn ↔ EnvSealed fn) ∧
      (EnvSealed fn → HandlersSealed fn → EnvTested fn) :=
  ⟨⟨sealed_of_guarded h, guarded_of_sealed h⟩, envTested_of_sealed h⟩

/-- The block that a test guards is the handler of a block that throws. -/
def caught : Function where
  params := ⟨[⟨∅, .dynamic, false, 0, none⟩], by decide⟩
  blocks := ⟨[
    { id := 0
      handler := 1
      instructions := ⟨[
        { op := .globalGet, type := .dynamic, result := 1 },
        { op := .closureIs, type := .bool, result := 2, operands := {0} },
        { op := .branch, operands := {2}, target := ⟨1, ∅⟩, elseTarget := ⟨2, ∅⟩ }],
        by decide⟩ },
    { id := 1
      instructions := ⟨[
        { op := .closureEnv, type := .dynamic, result := 3, operands := {0} },
        { op := .ret, operands := {3} }], by decide⟩ },
    { id := 2
      instructions := ⟨[{ op := .ret, operands := {0} }], by decide⟩ }], by decide⟩

theorem caught_accepted (certificates : Function → Bool) (h : certificates caught = true) :
    Accepts certificates caught := by
  refine ⟨10, ?_⟩
  show require (certificates caught = true) .certificates = .ok ()
  rw [require, if_pos h]

/-- **An accepted function whose `closure.env` is not guarded**: the read of a global throws, and
`closure.env` reads the environment of a value that was not tested. -/
theorem caught_closureEnv :
    (∀ certificates, certificates caught = true → Accepts certificates caught) ∧
      ∃ st inst, Arrives caught .raise st ∧ st.inst caught = some inst ∧ inst.op = .closureEnv :=
  ⟨caught_accepted, _, _, .raise .refl rfl rfl (by decide), rfl, rfl⟩

theorem closureEnv_guarded_iff_caught : (EnvGuarded caught ↔ EnvSealed caught) ∧
    (EnvSealed caught → HandlersSealed caught → EnvTested caught) :=
  closureEnv_guarded_iff (fun _ => true) caught (caught_accepted _ rfl)

end Bronze.Il
