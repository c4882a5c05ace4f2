import Bronze.Il.Ssa
import Bronze.Il.Machine

/-!
# Values keep the equation of their definition

In an accepted function, the value of an instruction that lies above the present point is what the
instruction makes of the present values of its operands. An operand cannot have been computed anew
in between: its definition dominates the instruction, and the instruction the present point. Where a
throw may have left the block of the instruction before it ran, nothing is said.

## Main results

* `Verified.explains`: it is so in every state of a run
-/

namespace Bronze.Il

open Graph
open List Option Relation Instruction

variable {D F R W : Type} {M : Machine D F R W} {fn : Function} {a : Analysis}

/-- Instruction `k` of block `d` lies on every way to the present point, and no throw passed it
by. -/
def Config.HasPassed (fn : Function) (c : Config D F R W) (d k : Nat) : Prop :=
  d = c.block ∧ k < c.index ∨
    d ≠ c.block ∧ Dominates (Edge fn) 0 d c.block ∧ ¬Leaks fn d c.block

/-- The value of the instruction is what it makes of the values of its operands. -/
def Machine.Explains (M : Machine D F R W) (inst : Instruction) (env : ValueId → Val D F R) :
    Prop :=
  ∃ w w', M.exec inst (inst.operands.1.map env) w = .ok (env inst.result, w')

variable {inst : Instruction}

theorem Machine.Explains.congr {env env' : ValueId → Val D F R} (h : M.Explains inst env)
    (hresult : env' inst.result = env inst.result)
    (hoperands : ∀ v ∈ inst.operands.1, env' v = env v) : M.Explains inst env' := by
  obtain ⟨w, w', hexec⟩ := h
  refine ⟨w, w', ?_⟩
  rw [hresult, map_congr_left hoperands]
  exact hexec

/-- An instruction of a function, at its place. -/
def InstAt (fn : Function) (d k : Nat) (inst : Instruction) : Prop :=
  ∃ blk, fn.blocks.1[d]? = some blk ∧ blk.instructions.1[k]? = some inst

theorem Config.inst_eq_some {c : Config D F R W} :
    c.inst fn = some inst ↔ InstAt fn c.block c.index inst := by
  unfold Config.inst InstAt
  rw [bind_eq_some_iff]

theorem InstAt.defines {d k : Nat} (h : InstAt fn d k inst) (hresult : inst.result ≠ kNoValue) :
    Defines fn d k inst.result := by
  obtain ⟨blk, hblk, hinst⟩ := h
  exact ⟨blk, inst, hblk, hinst, rfl, hresult⟩

namespace Verified

variable {b d k : Nat} {v : ValueId} {inst : Instruction}

section

variable (hv : Verified fn a)

include hv

theorem not_blockTakes (htakes : Takes fn v) : ¬BlockTakes fn b v := by
  intro htaken
  obtain ⟨e, he, hid, hblock, -⟩ := mem_of_takes hv.definitions htakes
  obtain ⟨e', he', hid', hblock', -⟩ := mem_of_blockTakes hv.definitions htaken
  obtain rfl := (recordDefinitions_spec hv.definitions).1.unique he he' (hid.trans hid'.symm)
  -- the entry has no parameters
  obtain ⟨blk, hblk, p, hp, -⟩ := htaken
  obtain ⟨entry, hentry, hparams⟩ := hv.entry
  rw [← hblock', hblock, hentry] at hblk
  obtain rfl := some.inj hblk
  rw [hparams] at hp
  cases hp

theorem definedAt_of_blockTakes {k : Int} (htaken : BlockTakes fn b v)
    (hdef : DefinedAt fn d k v) : d = b := by
  obtain ⟨e, he, hid, hblock, -⟩ := mem_of_blockTakes hv.definitions htaken
  rcases hdef with ⟨-, htaken'⟩ | ⟨i, -, hdefines⟩
  · obtain ⟨e', he', hid', hblock', -⟩ := mem_of_blockTakes hv.definitions htaken'
    obtain rfl := (recordDefinitions_spec hv.definitions).1.unique he he' (hid.trans hid'.symm)
    exact hblock'.symm.trans hblock
  · exact absurd htaken ((hv.defines_unique hdefines).2.1 b)

/-- Where the operand of an instruction is defined, if it is not a parameter of the function. -/
theorem operand_place (hinst : InstAt fn d k inst)
    (hvu : v ∈ inst.operands.1) (hreach : ReflTransGen (Edge fn) 0 d) :
    Takes fn v ∨ ∃ d' k', DefinedAt fn d' k' v ∧
      (d' = d ∧ k' < k ∨ d' ≠ d ∧ Dominates (Edge fn) 0 d' d) := by
  obtain ⟨blk, hblk, hget⟩ := hinst
  rcases hv.use_place hblk hget (mem_append_left _ hvu) with htakes | ⟨d', k', hdef, hplace⟩
  · exact .inl htakes
  · exact .inr ⟨d', k', hdef, hplace.imp_right fun h => ⟨h.1, hv.dominates hreach h.2⟩⟩

theorem result_notMem (hinst : InstAt fn d k inst)
    (hresult : inst.result ≠ kNoValue) : inst.result ∉ inst.operands.1 := by
  intro hmem
  obtain ⟨hunique, htaken, htakes⟩ := hv.defines_unique (hinst.defines hresult)
  obtain ⟨blk, hblk, hget⟩ := hinst
  rcases hv.use_place hblk hget (mem_append_left _ hmem) with h | ⟨d', k', hdef, hplace⟩
  · exact htakes h
  · rcases hdef with ⟨-, h⟩ | ⟨i, rfl, h⟩
    · exact htaken d' h
    · obtain ⟨rfl, rfl⟩ := hunique d' i h
      rcases hplace with ⟨-, hlt⟩ | ⟨hne, -⟩
      · omega
      · exact hne rfl

/-- What an instruction above the present one reads or defines is not defined here. -/
theorem passed_ne {i : Nat} {here : Instruction} (hhere : InstAt fn b i here)
    (hresult : here.result ≠ kNoValue) (hinst : InstAt fn d k inst)
    (hreach : ReflTransGen (Edge fn) 0 b)
    (hpassed : d = b ∧ k < i ∨ d ≠ b ∧ Dominates (Edge fn) 0 d b) :
    here.result ≠ inst.result ∧ here.result ∉ inst.operands.1 := by
  obtain ⟨hunique, htaken, htakes⟩ := hv.defines_unique (hhere.defines hresult)
  constructor
  · intro heq
    obtain ⟨rfl, rfl⟩ := hunique d k (heq ▸ hinst.defines (heq ▸ hresult))
    rcases hpassed with ⟨-, hlt⟩ | ⟨hne, -⟩
    · omega
    · exact hne rfl
  · intro hmem
    have hd : ReflTransGen (Edge fn) 0 d := by
      rcases hpassed with ⟨rfl, -⟩ | ⟨-, hdom⟩
      · exact hreach
      · exact hdom.reachable hreach
    rcases hv.operand_place hinst hmem hd with h | ⟨d', k', ⟨-, h⟩ | ⟨k', rfl, h⟩, hplace⟩
    · exact htakes h
    · exact htaken d' h
    · -- defined here and above, so the two dominate each other
      obtain ⟨rfl, rfl⟩ := hunique d' k' h
      rcases hpassed with ⟨rfl, hlt⟩ | ⟨hne, hdom⟩
      · rcases hplace with ⟨-, hlt'⟩ | ⟨hne, -⟩
        · omega
        · exact hne rfl
      · rcases hplace with ⟨heq, -⟩ | ⟨-, hdom'⟩
        · exact hne heq.symm
        · exact hne (hdom.antisymm hdom' hreach)

/-- What an instruction above a block reads or defines is no parameter of the block. -/
theorem passed_notMem {blk : Block} (hblk : fn.blocks.1[b]? = some blk) (hinst : InstAt fn d k inst)
    (hresult : inst.result ≠ kNoValue) (hreach : ReflTransGen (Edge fn) 0 b) (hne : d ≠ b)
    (hdom : Dominates (Edge fn) 0 d b) : inst.result ∉ blk.params.1.map BlockParam.id ∧
      ∀ v ∈ inst.operands.1, v ∉ blk.params.1.map BlockParam.id := by
  have htaken : ∀ v, v ∈ blk.params.1.map BlockParam.id → BlockTakes fn b v := by
    intro v hmem
    obtain ⟨p, hp, rfl⟩ := mem_map.mp hmem
    exact ⟨blk, hblk, p, hp, rfl⟩
  constructor
  · intro hmem
    exact (hv.defines_unique (hinst.defines hresult)).2.1 b (htaken _ hmem)
  · intro v hv' hmem
    rcases hv.operand_place hinst hv' (hdom.reachable hreach) with h | ⟨d', k', hdef, hplace⟩
    · exact hv.not_blockTakes h (htaken v hmem)
    · obtain rfl : d' = b := hv.definedAt_of_blockTakes (htaken v hmem) hdef
      rcases hplace with ⟨heq, -⟩ | ⟨-, hdom'⟩
      · exact hne heq.symm
      · exact hne (hdom.antisymm hdom' hreach)

end

theorem passed_pred {b' : Nat} (hedge : Edge fn b b') (hne : d ≠ b') (hd : d ≠ b)
    (hdom : Dominates (Edge fn) 0 d b') (hleak : ¬Leaks fn d b') :
    d ≠ b ∧ Dominates (Edge fn) 0 d b ∧ ¬Leaks fn d b := by
  refine ⟨hd, hdom.pred hedge (Ne.symm hne), ?_⟩
  rintro ⟨blk, hblk, hnamed, havoid⟩
  exact hleak ⟨blk, hblk, hnamed, havoid.tail hedge (Ne.symm hne)⟩

theorem explains_step (hv : Verified fn a) {c c' : Config D F R W}
    (hreach : ReflTransGen (Edge fn) 0 c.block) (hnext : M.Next fn c c')
    (hexplains : ∀ d k inst, InstAt fn d k inst → inst.result ≠ kNoValue →
      isTerminator inst.op = false → c.HasPassed fn d k → M.Explains inst c.env) :
    ReflTransGen (Edge fn) 0 c'.block ∧
      ∀ d k inst, InstAt fn d k inst → inst.result ≠ kNoValue →
        isTerminator inst.op = false → c'.HasPassed fn d k → M.Explains inst c'.env := by
  obtain ⟨here, hhere, hcases⟩ := Machine.step_goes hnext
  have hhere' := Config.inst_eq_some.mp hhere
  rcases hcases with ⟨v, w, hterm, hexec, rfl⟩ | ⟨target, htarget, hnamed, blk, hblk, rfl⟩ |
    ⟨blk, w, hblk, hnamed, rfl⟩
  · -- the instruction completes: its own equation is new, and it defines nothing that is read above
    refine ⟨hreach, fun d k inst hinst hresult hterm' hpassed => ?_⟩
    have hor : (d = c.block ∧ k = c.index) ∨ c.HasPassed fn d k := by
      rcases hpassed with ⟨hd, hk⟩ | hpassed
      · dsimp only at hd hk
        rcases Nat.lt_or_eq_of_le (Nat.lt_succ_iff.mp hk) with hlt | heq
        · exact .inr (.inl ⟨hd, hlt⟩)
        · exact .inl ⟨hd, heq⟩
      · exact .inr (.inr hpassed)
    rcases hor with ⟨rfl, rfl⟩ | hpassed
    · obtain rfl : inst = here := by
        obtain ⟨blk, hblk, hget⟩ := hinst
        obtain ⟨blk', hblk', hget'⟩ := hhere'
        obtain rfl := some.inj (hblk.symm.trans hblk')
        exact some.inj (hget.symm.trans hget')
      refine ⟨c.world, w, ?_⟩
      have hnot := hv.result_notMem hinst hresult
      have hoperands : ∀ u ∈ inst.operands.1, inst.define c.env v u = c.env u :=
        fun u hu => define_of_ne (fun heq => hnot (heq ▸ hu)) v
      dsimp only
      rw [map_congr_left hoperands, define_self hresult]
      exact hexec
    · by_cases hnone : here.result = kNoValue
      · have hsame : here.define c.env v = c.env := if_pos hnone
        rw [hsame]
        exact hexplains d k inst hinst hresult hterm' hpassed
      · have habove := hpassed.imp_right fun h => And.intro h.1 h.2.1
        obtain ⟨hne, hnot⟩ := hv.passed_ne hhere' hnone hinst hreach habove
        refine (hexplains d k inst hinst hresult hterm' hpassed).congr ?_ fun u hu => ?_
        · exact define_of_ne hne v
        · exact define_of_ne (fun heq => hnot (heq ▸ hu)) v
  · -- control passes on: what lies above the new block lies above the old one, or in it
    obtain ⟨hereBlk, hhereBlk, hget⟩ := hhere'
    have hmem := mem_of_getElem? hhereBlk
    have hedge : Edge fn c.block target.block.toNat := by
      refine ⟨hereBlk, hhereBlk, target.block, mem_cons_of_mem _ (mem_flatMap.mpr
        ⟨here, mem_of_getElem? hget, mem_map.mpr ⟨target, htarget, rfl⟩⟩), hnamed, rfl⟩
    have hreach' := hreach.tail hedge
    refine ⟨hreach', fun d k inst hinst hresult hterm' hpassed => ?_⟩
    rcases hpassed with ⟨-, hk⟩ | ⟨hne, hdom, hleak⟩
    · exact absurd hk (Nat.not_lt_zero k)
    have hpassed : c.HasPassed fn d k := by
      by_cases hd : d = c.block
      · -- the terminator is the last instruction
        subst hd
        obtain ⟨blk', hblk', hget'⟩ := hinst
        obtain rfl := some.inj (hblk'.symm.trans hhereBlk)
        have hlast := (hv.terminator blk' hmem _ here hget).mp (isTerminator_of_targets htarget)
        have hlt := (List.getElem?_eq_some_iff.mp hget').1
        have hk : k ≠ c.index := by
          rintro rfl
          obtain rfl := some.inj (hget.symm.trans hget')
          rw [isTerminator_of_targets htarget] at hterm'
          cases hterm'
        exact .inl ⟨rfl, by omega⟩
      · exact .inr (passed_pred hedge hne hd hdom hleak)
    obtain ⟨hnot, hnot'⟩ := hv.passed_notMem hblk hinst hresult hreach' hne hdom
    refine (hexplains d k inst hinst hresult hterm' hpassed).congr ?_ fun u hu => ?_
    · exact bindParams_of_notMem hnot ..
    · exact bindParams_of_notMem (hnot' u hu) ..
  · -- a throw passes by the rest of the block, so nothing is said of the block
    have hedge : Edge fn c.block blk.handler.toNat :=
      ⟨blk, hblk, blk.handler, mem_cons_self .., hnamed, rfl⟩
    refine ⟨hreach.tail hedge, fun d k inst hinst hresult hterm' hpassed => ?_⟩
    rcases hpassed with ⟨-, hk⟩ | ⟨hne, hdom, hleak⟩
    · exact absurd hk (Nat.not_lt_zero k)
    have hd : d ≠ c.block := by
      rintro rfl
      exact hleak ⟨blk, hblk, hnamed, .refl (Ne.symm hne)⟩
    exact hexplains d k inst hinst hresult hterm' (.inr (passed_pred hedge hne hd hdom hleak))

/-- **In every state of a run, a value above the present point is what its instruction makes of the
present values of its operands.** -/
theorem explains (hv : Verified fn a) {args : List (Val D F R)} {w : W} {c : Config D F R W}
    (hrun : ReflTransGen (M.Next fn) (M.start args w) c) :
    ReflTransGen (Edge fn) 0 c.block ∧
      ∀ d k inst, InstAt fn d k inst → inst.result ≠ kNoValue →
        isTerminator inst.op = false → c.HasPassed fn d k → M.Explains inst c.env := by
  induction hrun with
  | refl =>
    refine ⟨.refl, fun d k inst hinst hresult hterm hpassed => ?_⟩
    rcases hpassed with ⟨-, hk⟩ | ⟨hne, hdom, -⟩
    · exact absurd hk (Nat.not_lt_zero k)
    · exact absurd (Avoids.refl (Ne.symm hne)) hdom
  | tail _ hnext ih => exact hv.explains_step ih.1 hnext ih.2

end Verified

end Bronze.Il
