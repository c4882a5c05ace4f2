import Bronze.Il.Dominance

/-!
# What the verifier establishes

The table of definitions has each value once: the parameters of the function, the parameters of
the blocks and the results of the instructions.  An accepted function has its terminators at the
ends of its blocks and nowhere else, its targets are blocks, its handlers take no parameters, and
every use passed `checkUse`.

## Main results

* `recordDefinitions_spec`: the table of definitions
* `Verified`, `Accepts.passed`: what an accepted function has
-/

namespace Bronze.Il

open Fixpoint Graph
open List Analysis

/-- The values an instruction reads: its operands, and the arguments a terminator passes. -/
def Instruction.uses (inst : Instruction) : List ValueId :=
  inst.operands.1 ++ inst.targets.flatMap fun target => target.args.1

/-! ## The table of definitions -/

/-- The entries of the parameters of the function. -/
def paramDefinitions (fn : Function) : List Definition :=
  fn.params.1.zipIdx.flatMap fun p => [⟨UInt32.ofNat p.2, p.1.type, 0, -1⟩]

def blockDefinitions (b : Block × Nat) : List Definition :=
  (b.1.params.1.zipIdx.flatMap fun p => [⟨p.1.id, p.1.type, b.2, -1⟩]) ++
    b.1.instructions.1.zipIdx.flatMap fun i =>
      if i.1.result ≠ kNoValue then [⟨i.1.result, i.1.type, b.2, i.2⟩] else []

/-- No value is defined twice, and the sentinel is not defined. -/
structure Distinct (defs : List Definition) : Prop where
  nodup : (defs.map Definition.id).Nodup
  named : ∀ d ∈ defs, d.id ≠ kNoValue

variable {defs defs' : List Definition} {fn : Function} {b : Nat}

theorem foldlM_records {α : Type} {f : List Definition → α → Except Refusal (List Definition)}
    {g : α → List Definition} {l : List α} (hstep : ∀ defs x defs', f defs x = .ok defs' →
      defs' = defs ++ g x ∧ (Distinct defs → Distinct defs')) (h : l.foldlM f defs = .ok defs') :
    defs' = defs ++ l.flatMap g ∧ (Distinct defs → Distinct defs') := by
  refine foldlM_ok (P := fun pre s => s = defs ++ pre.flatMap g ∧ (Distinct defs → Distinct s)) h
    ⟨by simp, id⟩ ?_
  rintro pre x suf s s' - ⟨rfl, hs⟩ hx
  obtain ⟨rfl, hx⟩ := hstep _ x s' hx
  refine ⟨?_, fun hd => hx (hs hd)⟩
  simp

theorem recordDef_ok {d : Definition} (h : recordDef defs d = .ok defs') :
    defs' = defs ++ [d] ∧ (Distinct defs → Distinct defs') := by
  obtain ⟨_, hnamed, h⟩ := bind_eq_ok.mp h
  obtain ⟨_, hfresh, h⟩ := bind_eq_ok.mp h
  have hnamed := require_eq_ok.mp hnamed
  have hfresh := require_eq_ok.mp hfresh
  obtain rfl := Except.ok.inj h
  refine ⟨rfl, fun hd => ⟨?_, ?_⟩⟩
  · rw [map_append]
    refine nodup_append.mpr ⟨hd.nodup, nodup_singleton _, ?_⟩
    intro x hx y hy hxy
    obtain ⟨e, he, rfl⟩ := mem_map.mp hx
    rw [mem_singleton.mp hy] at hxy
    exact hfresh e he hxy
  · intro e he
    rcases mem_append.mp he with he | he
    · exact hd.named e he
    · rw [mem_singleton.mp he]
      exact hnamed

theorem recordParam_ok {bIdx : Nat} {p : BlockParam × Nat}
    (h : recordParam bIdx defs p = .ok defs') :
    defs' = defs ++ [⟨p.1.id, p.1.type, bIdx, -1⟩] ∧ (Distinct defs → Distinct defs') := by
  obtain ⟨-, -, h⟩ := bind_eq_ok.mp h
  exact recordDef_ok h

theorem recordResult_ok {bIdx : Nat} {i : Instruction × Nat}
    (h : recordResult bIdx defs i = .ok defs') :
    defs' = defs ++ (if i.1.result ≠ kNoValue then [⟨i.1.result, i.1.type, bIdx, i.2⟩] else []) ∧
      (Distinct defs → Distinct defs') := by
  unfold recordResult at h
  split at h
  · next hresult =>
    rw [if_pos hresult]
    exact recordDef_ok h
  · next hresult =>
    obtain rfl := Except.ok.inj h
    rw [if_neg hresult, append_nil]
    exact ⟨rfl, id⟩

/-- What a block is checked for when it is recorded. -/
structure BlockOk (fn : Function) (blk : Block) : Prop where
  handler : blk.handler = kNoBlock ∨ blk.handler.toNat < fn.blocks.1.length
  handlerParams : ∀ h ∈ fn.blocks.1[blk.handler.toNat]?, blk.handler = kNoBlock ∨ h.params.1 = []

theorem recordBlock_ok {b : Block × Nat} (h : recordBlock fn defs b = .ok defs') :
    BlockOk fn b.1 ∧ defs' = defs ++ blockDefinitions b ∧ (Distinct defs → Distinct defs') := by
  obtain ⟨-, -, h⟩ := bind_eq_ok.mp h
  obtain ⟨-, -, h⟩ := bind_eq_ok.mp h
  obtain ⟨_, hhandler, h⟩ := bind_eq_ok.mp h
  obtain ⟨_, hparams, h⟩ := bind_eq_ok.mp h
  obtain ⟨mid, hmid, h⟩ := bind_eq_ok.mp h
  obtain ⟨rfl, hkeep⟩ := foldlM_records (f := recordParam b.2) (fun _ _ _ => recordParam_ok) hmid
  obtain ⟨rfl, hkeep'⟩ := foldlM_records (f := recordResult b.2) (fun _ _ _ => recordResult_ok) h
  refine ⟨⟨require_eq_ok.mp hhandler, require_eq_ok.mp hparams⟩, ?_, fun hd => hkeep' (hkeep hd)⟩
  simp [blockDefinitions]

/-- **The table of definitions.** -/
theorem recordDefinitions_spec (h : recordDefinitions fn = .ok defs) :
    Distinct defs ∧ defs = paramDefinitions fn ++ fn.blocks.1.zipIdx.flatMap blockDefinitions ∧
      ∀ blk ∈ fn.blocks.1, BlockOk fn blk := by
  obtain ⟨mid, hmid, h⟩ := bind_eq_ok.mp h
  obtain ⟨rfl, hkeep⟩ :=
    foldlM_records (f := recordFunctionParam) (fun _ _ _ h => recordDef_ok h) hmid
  obtain ⟨rfl, hkeep'⟩ :=
    foldlM_records (f := recordBlock fn) (fun _ _ _ h => (recordBlock_ok h).2) h
  refine ⟨hkeep' (hkeep ⟨nodup_nil, nofun⟩), ?_, ?_⟩
  · simp [paramDefinitions]
  · intro blk hblk
    obtain ⟨b, hb⟩ := mem_iff_getElem?.mp hblk
    exact foldlM_forall (f := recordBlock fn) h (fun _ _ _ h => (recordBlock_ok h).1) (blk, b)
      (mem_zipIdx_iff_getElem?.mpr hb)

/-- The value is the result of instruction `i` of block `b`. -/
def Defines (fn : Function) (b i : Nat) (id : ValueId) : Prop :=
  ∃ blk inst, fn.blocks.1[b]? = some blk ∧ blk.instructions.1[i]? = some inst ∧
    inst.result = id ∧ id ≠ kNoValue

/-- The value is a parameter of block `b`. -/
def BlockTakes (fn : Function) (b : Nat) (id : ValueId) : Prop :=
  ∃ blk, fn.blocks.1[b]? = some blk ∧ ∃ p ∈ blk.params.1, p.id = id

/-- The value is a parameter of the function. -/
def Takes (fn : Function) (id : ValueId) : Prop :=
  ∃ i, i < fn.params.1.length ∧ UInt32.ofNat i = id

section Table

variable {fn : Function} {defs : List Definition} {d e : Definition}

theorem Distinct.unique (h : Distinct defs) (hd : d ∈ defs) (he : e ∈ defs) (hid : d.id = e.id) :
    d = e := inj_on_of_nodup_map h.nodup hd he hid

theorem mem_blockDefinitions {b : Block × Nat} (hd : d ∈ blockDefinitions b) :
    d.blockIdx = b.2 ∧ ((d.instIdx = -1 ∧ ∃ p ∈ b.1.params.1, p.id = d.id) ∨
      ∃ i : Nat, d.instIdx = i ∧ ∃ inst, b.1.instructions.1[i]? = some inst ∧
        inst.result = d.id ∧ d.id ≠ kNoValue) := by
  rcases mem_append.mp hd with hd | hd
  · obtain ⟨p, hp, hd⟩ := mem_flatMap.mp hd
    obtain rfl := mem_singleton.mp hd
    exact ⟨rfl, .inl ⟨rfl, p.1, fst_mem_of_mem_zipIdx hp, rfl⟩⟩
  · obtain ⟨⟨inst, i⟩, hi, hd⟩ := mem_flatMap.mp hd
    split at hd
    · next hresult =>
      obtain rfl := mem_singleton.mp hd
      exact ⟨rfl, .inr ⟨i, rfl, inst, mem_zipIdx_iff_getElem?.mp hi, rfl, hresult⟩⟩
    · cases hd

theorem mem_definitions (h : recordDefinitions fn = .ok defs) (hd : d ∈ defs) :
    (d.instIdx = -1 ∧ (Takes fn d.id ∧ d.blockIdx = 0 ∨ BlockTakes fn d.blockIdx d.id)) ∨
      ∃ i : Nat, d.instIdx = i ∧ Defines fn d.blockIdx i d.id := by
  obtain ⟨-, rfl, -⟩ := recordDefinitions_spec h
  rcases mem_append.mp hd with hd | hd
  · obtain ⟨⟨p, i⟩, hi, hd⟩ := mem_flatMap.mp hd
    obtain rfl := mem_singleton.mp hd
    have hlt := (List.getElem?_eq_some_iff.mp (List.mem_zipIdx_iff_getElem?.mp hi)).1
    exact .inl ⟨rfl, .inl ⟨⟨i, hlt, rfl⟩, rfl⟩⟩
  · obtain ⟨⟨blk, b⟩, hb, hd⟩ := mem_flatMap.mp hd
    have hblk := mem_zipIdx_iff_getElem?.mp hb
    obtain ⟨hbIdx, ⟨hinst, hp⟩ | ⟨i, hi, inst, hget, hresult, hne⟩⟩ := mem_blockDefinitions hd
    · refine .inl ⟨hinst, .inr ⟨blk, ?_, hp⟩⟩
      rw [hbIdx]
      exact hblk
    · refine .inr ⟨i, hi, blk, inst, ?_, hget, hresult, hne⟩
      rw [hbIdx]
      exact hblk

variable {id : ValueId}

variable (h : recordDefinitions fn = .ok defs)

include h

theorem mem_of_defines {b i : Nat}
    (hdef : Defines fn b i id) : ∃ d ∈ defs, d.id = id ∧ d.blockIdx = b ∧ d.instIdx = i := by
  obtain ⟨-, rfl, -⟩ := recordDefinitions_spec h
  obtain ⟨blk, inst, hblk, hget, rfl, hne⟩ := hdef
  refine ⟨⟨inst.result, inst.type, b, i⟩, ?_, rfl, rfl, rfl⟩
  refine mem_append_right _ (mem_flatMap.mpr
    ⟨(blk, b), mem_zipIdx_iff_getElem?.mpr hblk, mem_append_right _ ?_⟩)
  refine mem_flatMap.mpr ⟨(inst, i), mem_zipIdx_iff_getElem?.mpr hget, ?_⟩
  rw [if_pos hne]
  exact mem_singleton_self _

theorem mem_of_takes (htakes : Takes fn id) :
    ∃ d ∈ defs, d.id = id ∧ d.blockIdx = 0 ∧ d.instIdx = -1 := by
  obtain ⟨-, rfl, -⟩ := recordDefinitions_spec h
  obtain ⟨i, hi, rfl⟩ := htakes
  refine ⟨⟨UInt32.ofNat i, fn.params.1[i].type, 0, -1⟩, mem_append_left _ ?_, rfl, rfl, rfl⟩
  exact mem_flatMap.mpr ⟨(fn.params.1[i], i),
    mem_zipIdx_iff_getElem?.mpr (getElem?_eq_getElem hi), mem_singleton_self _⟩

theorem mem_of_blockTakes {b : Nat}
    (htakes : BlockTakes fn b id) : ∃ d ∈ defs, d.id = id ∧ d.blockIdx = b ∧ d.instIdx = -1 := by
  obtain ⟨-, rfl, -⟩ := recordDefinitions_spec h
  obtain ⟨blk, hblk, p, hp, rfl⟩ := htakes
  obtain ⟨i, hi⟩ := mem_iff_getElem?.mp hp
  refine ⟨⟨p.id, p.type, b, -1⟩, ?_, rfl, rfl, rfl⟩
  exact mem_append_right _ (mem_flatMap.mpr ⟨(blk, b),
    mem_zipIdx_iff_getElem?.mpr hblk, mem_append_left _ (mem_flatMap.mpr
      ⟨(p, i), mem_zipIdx_iff_getElem?.mpr hi, mem_singleton_self _⟩)⟩)

end Table

/-- What an accepted function has, apart from what its uses passed. -/
structure Verified (fn : Function) (a : Analysis) : Prop where
  definitions : recordDefinitions fn = .ok a.defs
  order : reversePostorder fn a.fuel = .ok a.rpo
  dominators : ∃ idom, immediateDominators (predecessors fn) a.rpo a.fuel = .ok idom ∧
    a = ⟨fn, a.defs, a.rpo, Function.update idom 0 none, a.fuel⟩
  entry : ∃ blk, fn.blocks.1[0]? = some blk ∧ blk.params.1 = []
  nonempty : ∀ blk ∈ fn.blocks.1, blk.instructions.1 ≠ []
  terminator : ∀ blk ∈ fn.blocks.1, ∀ i inst, blk.instructions.1[i]? = some inst →
    (isTerminator inst.op = true ↔ i = blk.instructions.1.length - 1)
  target : ∀ blk ∈ fn.blocks.1, ∀ inst ∈ blk.instructions.1, ∀ t ∈ inst.targets,
    t.block.toNat < fn.blocks.1.length
  use : ∀ b blk, fn.blocks.1[b]? = some blk → ∀ i inst, blk.instructions.1[i]? = some inst →
    ∀ v ∈ inst.uses, a.checkUse v b i = .ok ()

theorem Analysis.checkTarget_ok {a : Analysis} {t : BlockTarget} {i : Nat}
    (h : a.checkTarget t b i = .ok ()) :
    t.block.toNat < a.fn.blocks.1.length ∧ ∀ v ∈ t.args.1, a.checkUse v b i = .ok () := by
  unfold checkTarget at h
  cases hblk : a.fn.blocks.1[t.block.toNat]? with
  | none =>
    rw [hblk] at h
    cases h
  | some blk =>
    rw [hblk] at h
    obtain ⟨_, hlen, h⟩ := bind_eq_ok.mp h
    have hlen := require_eq_ok.mp hlen
    refine ⟨(List.getElem?_eq_some_iff.mp hblk).1, fun v hv => ?_⟩
    rw [← map_fst_zip hlen.le] at hv
    obtain ⟨⟨v, p⟩, hzip, rfl⟩ := mem_map.mp hv
    have harg := forM_eq_ok.mp h (v, p) hzip
    obtain ⟨-, -, harg⟩ := bind_eq_ok.mp harg
    obtain ⟨_, huse, _⟩ := bind_eq_ok.mp harg
    exact huse

theorem Analysis.checkInstruction_ok {a : Analysis} {last i : Nat} {inst : Instruction}
    (h : a.checkInstruction b last (inst, i) = .ok ()) : (isTerminator inst.op = true ↔ i = last) ∧
      (∀ t ∈ inst.targets, t.block.toNat < a.fn.blocks.1.length) ∧
      a.operationOk b i inst = true ∧ ∀ v ∈ inst.uses, a.checkUse v b i = .ok () := by
  obtain ⟨_, hearly, h⟩ := bind_eq_ok.mp h
  obtain ⟨_, hlast, h⟩ := bind_eq_ok.mp h
  obtain ⟨_, hoperands, h⟩ := bind_eq_ok.mp h
  obtain ⟨-, -, h⟩ := bind_eq_ok.mp h
  obtain ⟨_, hrule, h⟩ := bind_eq_ok.mp h
  obtain ⟨-, -, h⟩ := bind_eq_ok.mp h
  obtain ⟨-, -, h⟩ := bind_eq_ok.mp h
  have htargets := fun t ht => checkTarget_ok (forM_eq_ok.mp h t ht)
  refine ⟨⟨require_eq_ok.mp hearly, require_eq_ok.mp hlast⟩, fun t ht => (htargets t ht).1,
    require_eq_ok.mp hrule, ?_⟩
  intro v hv
  rcases mem_append.mp hv with hv | hv
  · exact forM_eq_ok.mp hoperands v hv
  · obtain ⟨t, ht, hv⟩ := mem_flatMap.mp hv
    exact (htargets t ht).2 v hv

variable {certificates : Function → Bool}

/-- **What the verifier establishes.** -/
theorem Accepts.passed (h : Accepts certificates fn) :
    ∃ a, Verified fn a ∧ (∀ b blk, fn.blocks.1[b]? = some blk → ∀ i inst,
      blk.instructions.1[i]? = some inst → a.operationOk b i inst = true) ∧
      verifyConcatChain fn = true := by
  obtain ⟨fuel, h⟩ := h
  unfold verifyFunction at h
  cases hentry : fn.blocks.1[0]? with
  | none =>
    rw [hentry] at h
    cases h
  | some entry =>
    rw [hentry] at h
    obtain ⟨-, -, h⟩ := bind_eq_ok.mp h
    obtain ⟨_, hparams, h⟩ := bind_eq_ok.mp h
    obtain ⟨defs, hdefs, h⟩ := bind_eq_ok.mp h
    obtain ⟨rpo, hrpo, h⟩ := bind_eq_ok.mp h
    obtain ⟨idom, hidom, h⟩ := bind_eq_ok.mp h
    obtain ⟨_, hblocks, h⟩ := bind_eq_ok.mp h
    obtain ⟨_, hchain, -⟩ := bind_eq_ok.mp h
    -- every block and every instruction passed the last loop
    have hblock : ∀ b blk, fn.blocks.1[b]? = some blk → blk.instructions.1 ≠ [] ∧
        ∀ i inst, blk.instructions.1[i]? = some inst →
          checkInstruction ⟨fn, defs, rpo, Function.update idom 0 none, fuel⟩ b
            (blk.instructions.1.length - 1) (inst, i) = .ok () := by
      intro b blk hblk
      have hb := forM_eq_ok.mp hblocks (blk, b) (mem_zipIdx_iff_getElem?.mpr hblk)
      obtain ⟨_, hne, hinsts⟩ := bind_eq_ok.mp hb
      exact ⟨require_eq_ok.mp hne, fun i inst hinst =>
        forM_eq_ok.mp hinsts (inst, i) (mem_zipIdx_iff_getElem?.mpr hinst)⟩
    refine ⟨⟨fn, defs, rpo, Function.update idom 0 none, fuel⟩, ⟨hdefs, hrpo, ⟨idom, hidom, rfl⟩,
      ⟨entry, hentry, require_eq_ok.mp hparams⟩, ?_, ?_, ?_, ?_⟩, ?_, require_eq_ok.mp hchain⟩
    · intro blk hblk
      obtain ⟨b, hb⟩ := mem_iff_getElem?.mp hblk
      exact (hblock b blk hb).1
    · intro blk hblk i inst hinst
      obtain ⟨b, hb⟩ := mem_iff_getElem?.mp hblk
      exact (checkInstruction_ok ((hblock b blk hb).2 i inst hinst)).1
    · intro blk hblk inst hinst
      obtain ⟨b, hb⟩ := mem_iff_getElem?.mp hblk
      obtain ⟨i, hi⟩ := mem_iff_getElem?.mp hinst
      exact (checkInstruction_ok ((hblock b blk hb).2 i inst hi)).2.1
    · intro b blk hb i inst hi
      exact (checkInstruction_ok ((hblock b blk hb).2 i inst hi)).2.2.2
    · intro b blk hb i inst hi
      exact (checkInstruction_ok ((hblock b blk hb).2 i inst hi)).2.2.1

theorem Accepts.verified (h : Accepts certificates fn) : ∃ a, Verified fn a := by
  obtain ⟨a, hv, -⟩ := h.passed
  exact ⟨a, hv⟩

end Bronze.Il
