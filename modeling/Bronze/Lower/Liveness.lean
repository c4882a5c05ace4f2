import Bronze.Fixpoint.RoundRobin
import Bronze.Il.Ssa
import Bronze.Lower.Dominators

/-!
# Liveness

`computeLiveIn` and `liveBefore` of `src/lower/guard_region_cfg.cpp`, and the parameters that
`src/lower/guard_region_build.cpp` gives the tail of a block that is split. A vector of flags is the
set of the values whose flag is up.

## Main definitions

* `Live`: a path from a point to a read, with no definition in between
* `Settled`: what a block has to be for its sets to be exact

## Main results

* `computeLiveIn_exact_iff`: the sets are those of the paths exactly when every block that is
  reached is settled
-/

namespace Bronze.Lower

open Il Fixpoint
open List Relation Instruction

/-! ## The code -/

/-- `forEachUse` -/
def eachUse (inst : Instruction) : List ValueId :=
  inst.operands.1 ++ inst.target.args.1 ++ inst.elseTarget.args.1

/-- `cur[id] = 0`, for a value that has a flag. -/
def clear (values : UInt32) (cur : Finset ValueId) (id : ValueId) : Finset ValueId :=
  if id < values then cur.erase id else cur

/-- `cur[id] = 1`, for a value that has a flag. -/
def mark (values : UInt32) (cur : Finset ValueId) (id : ValueId) : Finset ValueId :=
  if id < values then insert id cur else cur

/-- The turn of the loop that goes back over the instructions of a block. -/
def liveThrough (values : UInt32) (inst : Instruction) (cur : Finset ValueId) : Finset ValueId :=
  (eachUse inst).foldl (mark values)
    (if inst.result ≠ kNoValue then clear values cur inst.result else cur)

def liveOut (cfg : Cfg) (live : Nat → Finset ValueId) (b : Nat) : Finset ValueId :=
  (cfg.succs b).foldl (fun cur s => cur ∪ live s) ∅

/-- The flags of a block, from those of the blocks after it. -/
def transfer (fn : Function) (cfg : Cfg) (live : Nat → Finset ValueId) (b : Nat) :
    Finset ValueId :=
  match fn.blocks.1[b]? with
  | none => ∅
  | some block =>
    block.params.1.foldl (fun cur param => clear fn.valueCount cur param.id)
      (block.instructions.1.foldr (liveThrough fn.valueCount) (liveOut cfg live b))

/-- A sweep: the blocks in the opposite of reverse postorder, and whether one changed. -/
def sweep (fn : Function) (cfg : Cfg) (live : Nat → Finset ValueId) :
    Except Unit ((Nat → Finset ValueId) × Bool) :=
  .ok (cfg.rpo.reverse.foldl (refresh (transfer fn cfg)) (live, false))

/-- The values whose flag is up, in ascending order. -/
def flagged (values : UInt32) (cur : Finset ValueId) : List ValueId :=
  ((range values.toNat).map UInt32.ofNat).filter (· ∈ cur)

/-- `computeLiveIn`, with so many sweeps. -/
def computeLiveIn (fn : Function) (cfg : Cfg) (rounds : Nat) : Option (Nat → List ValueId) :=
  (untilUnchanged () (sweep fn cfg) rounds fun _ => ∅).toOption.map fun live b =>
    flagged fn.valueCount (live b)

def liveBefore (fn : Function) (cfg : Cfg) (liveIn : Nat → List ValueId) (blockId index : Nat) :
    List ValueId :=
  let out := (cfg.succs blockId).foldl
    (fun cur s => (liveIn s).foldl (mark fn.valueCount) cur) ∅
  flagged fn.valueCount <|
    match fn.blocks.1[blockId]? with
    | none => out
    | some block => (block.instructions.1.drop index).foldr (liveThrough fn.valueCount) out

/-- `SlowSplit::params`: what is handed over where a block is split. -/
def splitParams (fn : Function) (cfg : Cfg) (liveIn : Nat → List ValueId)
    (definedInRegion : ValueId → Bool) (b index : Nat) : List ValueId :=
  (liveBefore fn cfg liveIn b index).filter definedInRegion

/-! ## The paths -/

/-- Control passes from before an instruction to another point, past no definition of the value:
to the next instruction, to a target, or from any instruction to the handler. -/
inductive Leads (fn : Function) (v : ValueId) : Nat × Nat → Nat × Nat → Prop where
  | next {b i : Nat} {blk : Block} {inst : Instruction} (hblk : fn.blocks.1[b]? = some blk)
    (hinst : blk.instructions.1[i]? = some inst) (hterm : isTerminator inst.op = false)
    (hkeep : ¬Defines fn b i v) : Leads fn v (b, i) (b, i + 1)
  | edge {b i : Nat} {blk : Block} {inst : Instruction} {t : BlockTarget}
    (hblk : fn.blocks.1[b]? = some blk) (hinst : blk.instructions.1[i]? = some inst)
    (ht : t ∈ inst.targets) (hnamed : t.block ≠ kNoBlock) (hkeep : ¬Defines fn b i v)
    (hparams : ¬BlockTakes fn t.block.toNat v) : Leads fn v (b, i) (t.block.toNat, 0)
  | handler {b i : Nat} {blk : Block} {inst : Instruction} (hblk : fn.blocks.1[b]? = some blk)
    (hinst : blk.instructions.1[i]? = some inst) (hnamed : blk.handler ≠ kNoBlock)
    (hparams : ¬BlockTakes fn blk.handler.toNat v) : Leads fn v (b, i) (blk.handler.toNat, 0)

/-- The instruction at a point reads the value, as an operand or a block argument. -/
def Reads (fn : Function) (v : ValueId) (p : Nat × Nat) : Prop :=
  ∃ blk inst, fn.blocks.1[p.1]? = some blk ∧ blk.instructions.1[p.2]? = some inst ∧ v ∈ inst.uses

/-- A path from a point to a read of the value, with no definition of it in between. -/
def Live (fn : Function) (v : ValueId) (p : Nat × Nat) : Prop :=
  ∃ q, ReflTransGen (Leads fn v) p q ∧ Reads fn v q

/-- The same from the start of a block, where its parameters are defined. -/
def LiveIn (fn : Function) (v : ValueId) (b : Nat) : Prop :=
  ¬BlockTakes fn b v ∧ Live fn v (b, 0)

/-- The sets of a block are those of the paths. -/
structure ExactAt (fn : Function) (cfg : Cfg) (liveIn : Nat → List ValueId) (b : Nat) : Prop where
  start : ∀ v, v ∈ liveIn b ↔ LiveIn fn v b
  before : ∀ i v, (∃ blk, fn.blocks.1[b]? = some blk ∧ i < blk.instructions.1.length) →
    (v ∈ liveBefore fn cfg liveIn b i ↔ Live fn v (b, i))
  handed : ∀ i v definedInRegion,
    (∃ blk, fn.blocks.1[b]? = some blk ∧ i < blk.instructions.1.length) →
      (v ∈ splitParams fn cfg liveIn definedInRegion b i ↔
        definedInRegion v = true ∧ Live fn v (b, i))

/-- What a block has to be: it reads values that are counted, it carries no arguments for targets
it does not have, unless they are live anyway, and no value that its handler needs is made in it,
unless by an instruction that reads it. -/
structure Settled (fn : Function) (b : Nat) : Prop where
  counted : ∀ i v, Reads fn v (b, i) → v < fn.valueCount
  carried : ∀ blk i inst, fn.blocks.1[b]? = some blk → blk.instructions.1[i]? = some inst →
    ∀ v ∈ eachUse inst, v ∉ inst.uses → v < fn.valueCount → Live fn v (b, i)
  handled : ∀ blk i inst, fn.blocks.1[b]? = some blk → blk.instructions.1[i]? = some inst →
    blk.handler ≠ kNoBlock → ∀ v, LiveIn fn v blk.handler.toNat → Defines fn b i v →
      v ∈ eachUse inst

/-! ## The sets of the code -/

section Sets

variable {fn : Function} {cfg : Cfg} {values : UInt32} {live live' : Nat → Finset ValueId}
variable {cur cur' : Finset ValueId} {ids : List ValueId} {inst : Instruction} {v : ValueId}
variable {b i : Nat}

theorem mem_foldl_mark : v ∈ ids.foldl (mark values) cur ↔ v ∈ cur ∨ v < values ∧ v ∈ ids := by
  induction ids generalizing cur with
  | nil => simp
  | cons id ids ih =>
    rw [foldl_cons, ih, mark]
    split_ifs with hid
    · rw [Finset.mem_insert, mem_cons]
      constructor
      · rintro ((rfl | h) | ⟨hv, h⟩)
        · exact .inr ⟨hid, .inl rfl⟩
        · exact .inl h
        · exact .inr ⟨hv, .inr h⟩
      · rintro (h | ⟨hv, rfl | h⟩)
        · exact .inl (.inr h)
        · exact .inl (.inl rfl)
        · exact .inr ⟨hv, h⟩
    · rw [mem_cons]
      refine or_congr_right (and_congr_right fun hv => (or_iff_right ?_).symm)
      rintro rfl
      exact hid hv

theorem mem_clear {id : ValueId} : v ∈ clear values cur id ↔ v ∈ cur ∧ ¬(v = id ∧ v < values) := by
  rw [clear]
  split_ifs with hid
  · rw [Finset.mem_erase, and_comm]
    refine and_congr_right fun _ => not_congr ⟨?_, And.left⟩
    rintro rfl
    exact ⟨rfl, hid⟩
  · refine (and_iff_left ?_).symm
    rintro ⟨rfl, hv⟩
    exact hid hv

theorem mem_foldl_clear {params : List BlockParam} :
    v ∈ params.foldl (fun cur param => clear values cur param.id) cur ↔
      v ∈ cur ∧ ¬(v < values ∧ ∃ p ∈ params, p.id = v) := by
  induction params generalizing cur with
  | nil => simp
  | cons p params ih =>
    rw [foldl_cons, ih, mem_clear, and_assoc, exists_mem_cons_iff]
    refine and_congr_right fun _ => ?_
    rw [← not_or]
    refine not_congr ⟨?_, ?_⟩
    · rintro (⟨rfl, hv⟩ | ⟨hv, h⟩)
      · exact ⟨hv, .inl rfl⟩
      · exact ⟨hv, .inr h⟩
    · rintro ⟨hv, rfl | h⟩
      · exact .inl ⟨rfl, hv⟩
      · exact .inr ⟨hv, h⟩

/-- An instruction takes away what it defines, and then adds what it reads. -/
theorem mem_liveThrough : v ∈ liveThrough values inst cur ↔
    (v ∈ cur ∧ ¬(inst.result = v ∧ v ≠ kNoValue ∧ v < values)) ∨ v < values ∧ v ∈ eachUse inst := by
  rw [liveThrough, mem_foldl_mark]
  refine or_congr_left ?_
  split_ifs with hresult
  · rw [mem_clear]
    refine and_congr_right fun _ => not_congr ⟨?_, ?_⟩
    · rintro ⟨rfl, hv⟩
      exact ⟨rfl, hresult, hv⟩
    · rintro ⟨rfl, -, hv⟩
      exact ⟨rfl, hv⟩
  · refine (and_iff_left ?_).symm
    rintro ⟨rfl, hv, -⟩
    exact hresult hv

theorem mem_liveOut : v ∈ liveOut cfg live b ↔ ∃ s ∈ cfg.succs b, v ∈ live s := by
  have key : ∀ (l : List Nat) (cur : Finset ValueId),
      v ∈ l.foldl (fun cur s => cur ∪ live s) cur ↔ v ∈ cur ∨ ∃ s ∈ l, v ∈ live s := by
    intro l
    induction l with
    | nil => simp
    | cons s l ih =>
      intro cur
      rw [foldl_cons, ih, Finset.mem_union, or_assoc, exists_mem_cons_iff]
  rw [liveOut, key]
  simp

/-- What the code has live before an instruction of a block. -/
def liveAt (fn : Function) (cfg : Cfg) (live : Nat → Finset ValueId) (b i : Nat) :
    Finset ValueId :=
  match fn.blocks.1[b]? with
  | none => ∅
  | some block =>
    (block.instructions.1.drop i).foldr (liveThrough fn.valueCount) (liveOut cfg live b)

theorem liveAt_of_get {blk : Block} (hblk : fn.blocks.1[b]? = some blk) : liveAt fn cfg live b i =
    (blk.instructions.1.drop i).foldr (liveThrough fn.valueCount) (liveOut cfg live b) := by
  rw [liveAt, hblk]

/-- Behind the last instruction are the sets of the blocks that follow. -/
theorem liveAt_end {blk : Block} (hblk : fn.blocks.1[b]? = some blk)
    (hi : blk.instructions.1.length ≤ i) : liveAt fn cfg live b i = liveOut cfg live b := by
  rw [liveAt_of_get hblk, drop_eq_nil_of_le hi]
  rfl

/-- **Back over an instruction.** -/
theorem mem_liveAt {blk : Block} (hblk : fn.blocks.1[b]? = some blk)
    (hinst : blk.instructions.1[i]? = some inst) : v ∈ liveAt fn cfg live b i ↔
      (v ∈ liveAt fn cfg live b (i + 1) ∧ ¬(Defines fn b i v ∧ v < fn.valueCount)) ∨
        v < fn.valueCount ∧ v ∈ eachUse inst := by
  obtain ⟨hi, rfl⟩ := List.getElem?_eq_some_iff.mp hinst
  have hdefines : Defines fn b i v ↔ blk.instructions.1[i].result = v ∧ v ≠ kNoValue := by
    constructor
    · rintro ⟨blk', inst', hblk', hinst', hresult⟩
      obtain rfl := Option.some.inj (hblk.symm.trans hblk')
      obtain rfl := Option.some.inj (hinst.symm.trans hinst')
      exact hresult
    · exact fun h => ⟨blk, _, hblk, hinst, h⟩
  rw [liveAt_of_get hblk, liveAt_of_get hblk, drop_eq_getElem_cons hi, foldr_cons,
    mem_liveThrough, hdefines, and_assoc]

theorem mem_transfer : v ∈ transfer fn cfg live b ↔
    v ∈ liveAt fn cfg live b 0 ∧ ¬(v < fn.valueCount ∧ BlockTakes fn b v) := by
  rw [transfer, liveAt]
  cases hblk : fn.blocks.1[b]? with
  | none => simp
  | some blk =>
    have htakes : BlockTakes fn b v ↔ ∃ p ∈ blk.params.1, p.id = v := by
      constructor
      · rintro ⟨blk', hblk', h⟩
        obtain rfl := Option.some.inj (hblk.symm.trans hblk')
        exact h
      · exact fun h => ⟨blk, hblk, h⟩
    dsimp only
    rw [mem_foldl_clear, htakes, drop_zero]

theorem liveAt_mono (h : live ≤ live') (b i : Nat) :
    liveAt fn cfg live b i ⊆ liveAt fn cfg live' b i := by
  rw [liveAt, liveAt]
  cases fn.blocks.1[b]? with
  | none => exact Finset.Subset.refl _
  | some blk =>
    dsimp only
    induction blk.instructions.1.drop i with
    | nil =>
      intro v hv
      obtain ⟨s, hs, hv⟩ := mem_liveOut.mp hv
      exact mem_liveOut.mpr ⟨s, hs, h s hv⟩
    | cons inst insts ih =>
      intro v hv
      rw [foldr_cons, mem_liveThrough] at hv ⊢
      exact hv.imp_left (And.imp_left fun hv => ih hv)

theorem transfer_mono (fn : Function) (cfg : Cfg) : Monotone (transfer fn cfg) := by
  intro live live' h b v hv
  rw [mem_transfer] at hv ⊢
  exact ⟨liveAt_mono h b 0 hv.1, hv.2⟩

theorem mem_flagged : v ∈ flagged values cur ↔ v ∈ cur ∧ v < values := by
  rw [flagged, mem_filter, mem_map, decide_eq_true_iff, and_comm]
  refine and_congr_right fun _ => ?_
  constructor
  · rintro ⟨n, hn, rfl⟩
    rw [UInt32.lt_iff_toNat_lt]
    exact (Nat.mod_le n _).trans_lt (mem_range.mp hn)
  · intro hv
    exact ⟨v.toNat, mem_range.mpr (UInt32.lt_iff_toNat_lt.mp hv), UInt32.ofNat_toNat⟩

theorem liveAt_lt (h : ∀ c ∈ cfg.succs b, ∀ v ∈ live c, v < fn.valueCount)
    (hv : v ∈ liveAt fn cfg live b i) : v < fn.valueCount := by
  rw [liveAt] at hv
  cases hblk : fn.blocks.1[b]? with
  | none =>
    rw [hblk] at hv
    exact absurd hv (Finset.notMem_empty v)
  | some blk =>
    rw [hblk] at hv
    dsimp only at hv
    generalize blk.instructions.1.drop i = insts at hv
    induction insts with
    | nil =>
      obtain ⟨s, hs, hv⟩ := mem_liveOut.mp hv
      exact h s hs v hv
    | cons inst insts ih =>
      rw [foldr_cons, mem_liveThrough] at hv
      exact hv.elim (fun hv => ih hv.1) And.left

/-- The second pass over a block sees what the fixpoint has there. -/
theorem mem_liveBefore (h : ∀ c ∈ cfg.succs b, ∀ v ∈ live c, v < fn.valueCount) {blk : Block}
    (hblk : fn.blocks.1[b]? = some blk) :
    v ∈ liveBefore fn cfg (fun c => flagged fn.valueCount (live c)) b i ↔
      v ∈ liveAt fn cfg live b i := by
  have key : ∀ (l : List Nat) (cur : Finset ValueId) (v : ValueId),
      v ∈ l.foldl (fun cur s => (flagged fn.valueCount (live s)).foldl (mark fn.valueCount) cur)
          cur ↔ v ∈ cur ∨ ∃ s ∈ l, v ∈ live s ∧ v < fn.valueCount := by
    intro l
    induction l with
    | nil => simp
    | cons s l ih =>
      intro cur v
      rw [foldl_cons, ih, mem_foldl_mark, mem_flagged, or_assoc, exists_mem_cons_iff, and_comm,
        and_assoc, and_self]
  have hout : (cfg.succs b).foldl
      (fun cur s => (flagged fn.valueCount (live s)).foldl (mark fn.valueCount) cur) ∅ =
        liveOut cfg live b := by
    ext v
    rw [key, mem_liveOut, or_iff_right (Finset.notMem_empty v)]
    exact exists_congr fun s => and_congr_right fun hs => and_iff_left_of_imp (h s hs v)
  rw [liveBefore, hblk]
  dsimp only
  rw [hout, ← liveAt_of_get hblk, mem_flagged]
  exact and_iff_left_of_imp (liveAt_lt h)

end Sets

/-! ## The paths of an accepted function -/

section Paths

variable {fn : Function} {a : Analysis} {blk : Block} {inst : Instruction} {v : ValueId}
variable {b c i : Nat}

theorem Live.lead {p q : Nat × Nat} (hpq : Leads fn v p q) (h : Live fn v q) : Live fn v p := by
  obtain ⟨r, hqr, hread⟩ := h
  exact ⟨r, .head hpq hqr, hread⟩

theorem uses_subset (inst : Instruction) : inst.uses ⊆ eachUse inst := by
  intro v hv
  rw [eachUse, append_assoc]
  refine mem_append.mpr ((mem_append.mp hv).imp_right fun hv => ?_)
  obtain ⟨t, ht, hv⟩ := mem_flatMap.mp hv
  unfold targets at ht
  split_ifs at ht
  · rw [mem_singleton.mp ht] at hv
    exact mem_append_left _ hv
  · rcases mem_cons.mp ht with rfl | ht
    · exact mem_append_left _ hv
    · rw [mem_singleton.mp ht] at hv
      exact mem_append_right _ hv
  · cases ht

theorem Settled.live (h : Settled fn b) (hblk : fn.blocks.1[b]? = some blk)
    (hinst : blk.instructions.1[i]? = some inst) (huse : v ∈ eachUse inst)
    (hvalue : v < fn.valueCount) : Live fn v (b, i) := by
  by_cases hread : v ∈ inst.uses
  · exact ⟨(b, i), .refl, blk, inst, hblk, hinst, hread⟩
  · exact h.carried blk i inst hblk hinst v huse hread hvalue

/-- **The edges of the graph** are those that control may take. -/
theorem follows_iff_edge (hv : Verified fn a) : Follows fn b c ↔ Edge fn b c := by
  refine ⟨fun h => ?_, hv.follows⟩
  unfold Follows successors at h
  cases hblk : fn.blocks.1[b]? with
  | none =>
    rw [hblk] at h
    cases h
  | some blk =>
    rw [hblk] at h
    simp only [mem_eraseDups, mem_map, mem_filter, decide_eq_true_iff] at h
    obtain ⟨id, ⟨hid, hnamed, -⟩, rfl⟩ := h
    refine ⟨blk, hblk, id, ?_, hnamed, rfl⟩
    rcases mem_cons.mp hid with rfl | hid
    · exact mem_cons_self ..
    · refine mem_cons_of_mem _ ?_
      cases hlast : blk.instructions.1.getLast? with
      | none =>
        rw [hlast] at hid
        cases hid
      | some inst =>
        rw [hlast] at hid
        exact mem_flatMap.mpr ⟨inst, mem_of_getLast? hlast, hid⟩

theorem reached_iff (hv : Verified fn a) :
    ReflTransGen (Edge fn) 0 b ↔ ReflTransGen (Follows fn) 0 b :=
  ⟨hv.reached, fun h => h.lift id fun _ _ => (follows_iff_edge hv).mp⟩

variable {cfg : Cfg} {live : Nat → Finset ValueId}

/-- **What the code has live is live**, as far as the sets it starts from are. -/
theorem live_of_mem (hv : Verified fn a) (hsuccs : cfg.succs = successors fn)
    (hsettled : Settled fn b)
    (hlive : ∀ c, Edge fn b c → ∀ v ∈ live c, v < fn.valueCount ∧ LiveIn fn v c)
    (hblk : fn.blocks.1[b]? = some blk) (hi : i < blk.instructions.1.length)
    (hmem : v ∈ liveAt fn cfg live b i) : Live fn v (b, i) := by
  have hlt : ∀ c ∈ cfg.succs b, ∀ v ∈ live c, v < fn.valueCount := by
    intro c hc v hv'
    rw [hsuccs] at hc
    exact (hlive c ((follows_iff_edge hv).mp hc) v hv').1
  have hvalue := liveAt_lt hlt hmem
  -- from the end of the block: the last instruction, and then those that lead to the next
  obtain ⟨k, hk⟩ := Nat.exists_eq_add_of_lt hi
  induction k generalizing i with
  | zero =>
    have hinst := getElem?_eq_getElem hi
    rcases (mem_liveAt hblk hinst).mp hmem with ⟨hnext, hkeep⟩ | ⟨-, huse⟩
    · have hkeep : ¬Defines fn b i v := fun hdef => hkeep ⟨hdef, hvalue⟩
      rw [liveAt_end hblk (by omega), mem_liveOut, hsuccs] at hnext
      obtain ⟨c, hc, hv'⟩ := hnext
      have hedge : Edge fn b c := (follows_iff_edge hv).mp hc
      obtain ⟨-, hparams, hpath⟩ := hlive c hedge v hv'
      obtain ⟨blk', hblk', id, hid, hnamed, rfl⟩ := hedge
      obtain rfl := Option.some.inj (hblk.symm.trans hblk')
      rcases mem_cons.mp hid with rfl | hid
      · exact hpath.lead (.handler hblk hinst hnamed hparams)
      · obtain ⟨inst, hmem', hid⟩ := mem_flatMap.mp hid
        obtain ⟨t, ht, rfl⟩ := mem_map.mp hid
        obtain ⟨j, hj⟩ := mem_iff_getElem?.mp hmem'
        have hlast := (hv.terminator blk (mem_of_getElem? hblk) j inst hj).mp
          (isTerminator_of_targets ht)
        obtain rfl : j = i := by omega
        exact hpath.lead (.edge hblk hj ht hnamed hkeep hparams)
    · exact hsettled.live hblk hinst huse hvalue
  | succ k ih =>
    have hinst := getElem?_eq_getElem hi
    rcases (mem_liveAt hblk hinst).mp hmem with ⟨hnext, hkeep⟩ | ⟨-, huse⟩
    · have hterm : isTerminator blk.instructions.1[i].op = false := by
        refine Bool.eq_false_iff.mpr fun hterm => ?_
        have hlast := (hv.terminator blk (mem_of_getElem? hblk) i _ hinst).mp hterm
        omega
      exact (ih (by omega) hnext (by omega)).lead
        (.next hblk hinst hterm fun hdef => hkeep ⟨hdef, hvalue⟩)
    · exact hsettled.live hblk hinst huse hvalue

/-- What is live at the start of a block is live behind the last instruction of a block before. -/
theorem mem_liveAt_end (hv : Verified fn a) (hsuccs : cfg.succs = successors fn)
    (hfixed : transfer fn cfg live c = live c) (hedge : Edge fn b c)
    (hblk : fn.blocks.1[b]? = some blk) (hparams : ¬BlockTakes fn c v)
    (hmem : v ∈ liveAt fn cfg live c 0) :
    v ∈ liveAt fn cfg live b blk.instructions.1.length := by
  rw [liveAt_end hblk le_rfl, mem_liveOut, hsuccs]
  refine ⟨c, hv.follows hedge, ?_⟩
  rw [← hfixed]
  exact mem_transfer.mpr ⟨hmem, fun h => hparams h.2⟩

/-- What the handler of a settled block needs is live throughout the block. -/
theorem mem_liveAt_handler (hsettled : Settled fn b) (hblk : fn.blocks.1[b]? = some blk)
    (hnamed : blk.handler ≠ kNoBlock) (hlive : LiveIn fn v blk.handler.toNat)
    (hvalue : v < fn.valueCount) (hend : v ∈ liveAt fn cfg live b blk.instructions.1.length)
    (hi : i ≤ blk.instructions.1.length) : v ∈ liveAt fn cfg live b i := by
  obtain ⟨k, hk⟩ := Nat.exists_eq_add_of_le hi
  induction k generalizing i with
  | zero => rwa [hk, Nat.add_zero] at hend
  | succ k ih =>
    have hinst := getElem?_eq_getElem (show i < blk.instructions.1.length by omega)
    refine (mem_liveAt hblk hinst).mpr ?_
    by_cases hdef : Defines fn b i v
    · exact .inr ⟨hvalue, hsettled.handled blk i _ hblk hinst hnamed v hlive hdef⟩
    · exact .inl ⟨ih (by omega) (by omega), fun h => hdef h.1⟩

/-- **What is live the code has live**, if it has the starts of all blocks at rest. -/
theorem mem_of_live (hv : Verified fn a) (hsuccs : cfg.succs = successors fn)
    (hsettled : ∀ b, ReflTransGen (Edge fn) 0 b → Settled fn b)
    (hfixed : ∀ b, ReflTransGen (Edge fn) 0 b → transfer fn cfg live b = live b)
    (hreach : ReflTransGen (Edge fn) 0 b) (hlive : Live fn v (b, i)) :
    v < fn.valueCount ∧ v ∈ liveAt fn cfg live b i := by
  obtain ⟨q, hpath, hread⟩ := hlive
  -- along the path, from the read back
  suffices ∀ p, ReflTransGen (Leads fn v) p q → ReflTransGen (Edge fn) 0 p.1 →
      v < fn.valueCount ∧ v ∈ liveAt fn cfg live p.1 p.2 from this (b, i) hpath hreach
  intro p hpath
  induction hpath using ReflTransGen.head_induction_on with
  | refl =>
    intro hreach
    obtain ⟨blk, inst, hblk, hinst, huse⟩ := hread
    have hvalue := (hsettled q.1 hreach).counted q.2 v ⟨blk, inst, hblk, hinst, huse⟩
    exact ⟨hvalue, (mem_liveAt hblk hinst).mpr (.inr ⟨hvalue, uses_subset inst huse⟩)⟩
  | head hlead hrest ih =>
    intro hreach
    cases hlead with
    | next hblk hinst hterm hkeep =>
      obtain ⟨hvalue, hmem⟩ := ih hreach
      exact ⟨hvalue, (mem_liveAt hblk hinst).mpr (.inl ⟨hmem, fun h => hkeep h.1⟩)⟩
    | @edge b i blk inst t hblk hinst ht hnamed hkeep hparams =>
      have hmem := mem_of_getElem? hblk
      have hedge : Edge fn b t.block.toNat := ⟨blk, hblk, t.block, mem_cons_of_mem _
        (mem_flatMap.mpr ⟨inst, mem_of_getElem? hinst, mem_map.mpr ⟨t, ht, rfl⟩⟩), hnamed, rfl⟩
      have hnext := hreach.tail hedge
      obtain ⟨hvalue, hstart⟩ := ih hnext
      have hend := mem_liveAt_end hv hsuccs (hfixed _ hnext) hedge hblk hparams hstart
      have hlast := (hv.terminator blk hmem i inst hinst).mp (isTerminator_of_targets ht)
      have hpos := length_pos_of_ne_nil (hv.nonempty blk hmem)
      have hsucc : blk.instructions.1.length = i + 1 := by omega
      rw [hsucc] at hend
      exact ⟨hvalue, (mem_liveAt hblk hinst).mpr (.inl ⟨hend, fun h => hkeep h.1⟩)⟩
    | @handler b i blk inst hblk hinst hnamed hparams =>
      have hedge : Edge fn b blk.handler.toNat :=
        ⟨blk, hblk, blk.handler, mem_cons_self .., hnamed, rfl⟩
      have hnext := hreach.tail hedge
      obtain ⟨hvalue, hstart⟩ := ih hnext
      have hend := mem_liveAt_end hv hsuccs (hfixed _ hnext) hedge hblk hparams hstart
      obtain ⟨hi, -⟩ := List.getElem?_eq_some_iff.mp hinst
      exact ⟨hvalue, mem_liveAt_handler (hsettled b hreach) hblk hnamed ⟨hparams, q, hrest, hread⟩
        hvalue hend hi.le⟩

end Paths

/-! ## The fixpoint -/

section Exact

variable {fn : Function} {cfg : Cfg} {a : Analysis} {live : Nat → Finset ValueId} {b : Nat}

theorem succs_of_computeRpo {fuel : Nat} {cfg' : Cfg} (h : computeRpo fuel cfg = some cfg') :
    cfg'.succs = cfg.succs := by
  unfold computeRpo at h
  split_ifs at h
  · rw [← Option.some.inj h]
  · obtain ⟨postorder, -, h⟩ := Option.bind_eq_some_iff.mp h
    rw [← Option.some.inj h]

/-- The other loops of `buildCfg` leave the edges alone. -/
theorem succs_of_buildCfg {fuel : Nat} (h : buildCfg fn fuel = some cfg) :
    cfg.succs = successors fn := by
  obtain ⟨cfg', hrpo, h⟩ := Option.bind_eq_some_iff.mp h
  rw [← succs_edges, ← succs_of_computeRpo hrpo]
  split_ifs at h
  · rw [← Option.some.inj h]
  · obtain ⟨idom, -, h⟩ := Option.bind_eq_some_iff.mp h
    rw [← Option.some.inj h]

/-- Values that are counted. -/
def Counted (fn : Function) (live : Nat → Finset ValueId) : Prop :=
  ∀ b, ∀ v ∈ live b, v < fn.valueCount

/-- Sets that hold what is live and counted are closed, if the blocks are settled. -/
theorem transfer_live (hv : Verified fn a) (hsuccs : cfg.succs = successors fn)
    (hsettled : Settled fn b)
    (hlive : ∀ c v, v ∈ live c ↔ v < fn.valueCount ∧ LiveIn fn v c) :
    transfer fn cfg live b ⊆ live b := by
  intro v hv'
  obtain ⟨hmem, hparams⟩ := mem_transfer.mp hv'
  have hvalue := liveAt_lt (fun c _ v hv' => ((hlive c v).mp hv').1) hmem
  rw [hlive]
  refine ⟨hvalue, fun htakes => hparams ⟨hvalue, htakes⟩, ?_⟩
  cases hblk : fn.blocks.1[b]? with
  | none =>
    rw [liveAt, hblk] at hmem
    exact absurd hmem (Finset.notMem_empty v)
  | some blk =>
    have hpos := length_pos_of_ne_nil (hv.nonempty blk (mem_of_getElem? hblk))
    exact live_of_mem hv hsuccs hsettled (fun c _ v hv' => (hlive c v).mp hv') hblk hpos hmem

/-- Sets that are exact come from settled blocks. -/
theorem settled_of_exact (hcounted : Counted fn live)
    (h : ExactAt fn cfg (fun c => flagged fn.valueCount (live c)) b) : Settled fn b := by
  have hbefore : ∀ i v blk inst, fn.blocks.1[b]? = some blk →
      blk.instructions.1[i]? = some inst →
        (v ∈ liveAt fn cfg live b i ↔ Live fn v (b, i)) := by
    intro i v blk inst hblk hinst
    obtain ⟨hi, -⟩ := List.getElem?_eq_some_iff.mp hinst
    rw [← h.before i v ⟨blk, hblk, hi⟩, mem_liveBefore (fun c _ => hcounted c) hblk]
  refine ⟨fun i v hread => ?_, fun blk i inst hblk hinst v huse _ hvalue => ?_,
    fun blk i inst hblk hinst hnamed v hlive hdef => ?_⟩
  · have hlive : Live fn v (b, i) := ⟨(b, i), .refl, hread⟩
    obtain ⟨blk, inst, hblk, hinst, -⟩ := hread
    exact liveAt_lt (fun c _ => hcounted c)
      ((hbefore i v blk inst hblk hinst).mpr hlive)
  · exact (hbefore i v blk inst hblk hinst).mp ((mem_liveAt hblk hinst).mpr (.inr ⟨hvalue, huse⟩))
  · have hmem := (hbefore i v blk inst hblk hinst).mpr
      (hlive.2.lead (.handler hblk hinst hnamed hlive.1))
    have hvalue := liveAt_lt (fun c _ => hcounted c) hmem
    rcases (mem_liveAt hblk hinst).mp hmem with ⟨-, hkeep⟩ | ⟨-, huse⟩
    · exact absurd ⟨hdef, hvalue⟩ hkeep
    · exact huse

/-- Settled blocks have exact sets. -/
theorem exact_of_settled (hv : Verified fn a) (hsuccs : cfg.succs = successors fn)
    (hsettled : ∀ b, ReflTransGen (Edge fn) 0 b → Settled fn b)
    (hfixed : ∀ b, ReflTransGen (Edge fn) 0 b → transfer fn cfg live b = live b)
    (hlive : ∀ c, ∀ v ∈ live c, v < fn.valueCount ∧ LiveIn fn v c)
    (hreach : ReflTransGen (Edge fn) 0 b) :
    ExactAt fn cfg (fun c => flagged fn.valueCount (live c)) b := by
  have hbefore : ∀ i v, (∃ blk, fn.blocks.1[b]? = some blk ∧ i < blk.instructions.1.length) →
      (v ∈ liveBefore fn cfg (fun c => flagged fn.valueCount (live c)) b i ↔
        Live fn v (b, i)) := by
    rintro i v ⟨blk, hblk, hi⟩
    rw [mem_liveBefore (fun c _ v hv' => (hlive c v hv').1) hblk]
    exact ⟨live_of_mem hv hsuccs (hsettled b hreach) (fun c _ => hlive c) hblk hi,
      fun h => (mem_of_live hv hsuccs hsettled hfixed hreach h).2⟩
  refine ⟨fun v => ?_, hbefore, fun i v definedInRegion hi => ?_⟩
  · rw [mem_flagged]
    refine ⟨fun h => (hlive b v h.1).2, fun h => ?_⟩
    obtain ⟨hvalue, hmem⟩ := mem_of_live hv hsuccs hsettled hfixed hreach h.2
    rw [← hfixed b hreach]
    exact ⟨mem_transfer.mpr ⟨hmem, fun htakes => h.1 htakes.2⟩, hvalue⟩
  · rw [splitParams, mem_filter, hbefore i v hi, and_comm]

/-- **Liveness is exact, exactly for settled blocks.** The sweeps over an accepted function end, and
after that the sets of the blocks that are reached, and of the points in them, are those of the
paths if and only if these blocks are settled. -/
theorem computeLiveIn_exact_iff (certificates : Function → Bool) (fn : Function)
    (h : Accepts certificates fn) :
    ∃ rounds cfg liveIn, (∀ fuel, rounds ≤ fuel → buildCfg fn fuel = some cfg ∧
      computeLiveIn fn cfg fuel = some liveIn) ∧
        ((∀ b, ReflTransGen (Edge fn) 0 b → ExactAt fn cfg liveIn b) ↔
          ∀ b, ReflTransGen (Edge fn) 0 b → Settled fn b) := by
  classical
  obtain ⟨a, hv⟩ := h.verified
  have hblocks : fn.blocks.1 ≠ [] := by
    obtain ⟨blk, hblk, -⟩ := hv.entry
    exact ne_nil_of_mem (mem_of_getElem? hblk)
  obtain ⟨rounds, cfg, rpo, idom, hcfg, ho, -, hends⟩ := buildCfg_ends hblocks
  have hsuccs := succs_of_buildCfg (hends rounds le_rfl).1
  have hrpo : ∀ b, b ∈ rpo ↔ ReflTransGen (Edge fn) 0 b := fun b =>
    (ho.mem_iff b).trans (reached_iff hv).symm
  let all : Finset ValueId := Finset.univ.filter (· < fn.valueCount)
  have hall : ∀ b ∈ rpo, transfer fn cfg (fun _ => all) b ⊆ all := by
    intro b _ v hv'
    have hvalue := liveAt_lt (fun _ _ v hv' => (Finset.mem_filter.mp hv').2)
      (mem_transfer.mp hv').1
    exact Finset.mem_filter.mpr ⟨Finset.mem_univ v, hvalue⟩
  have hsweep : ∀ b, b ∈ cfg.rpo.reverse ↔ b ∈ rpo := fun b => by
    rw [mem_reverse, hcfg.ordered.rpo_eq]
  obtain ⟨live, hrising, hfixed, hrun⟩ := refresh_ends (transfer_mono fn cfg) hsweep hall ()
  have hfixed : ∀ b, ReflTransGen (Edge fn) 0 b → transfer fn cfg live b = live b :=
    fun b hb => hfixed b ((hrpo b).mpr hb)
  have hcounted : Counted fn live := fun b v hv' =>
    (Finset.mem_filter.mp (hrising.least (fun _ => all) hall b hv')).2
  refine ⟨rounds + rpo.toFinset.card * all.card + 1, cfg,
    fun b => flagged fn.valueCount (live b), fun fuel hfuel => ⟨(hends fuel (by omega)).1, ?_⟩,
      fun hexact b hb => settled_of_exact hcounted (hexact b hb), fun hsettled b hb =>
        exact_of_settled hv hsuccs hsettled hfixed (fun c v hv' => ?_) hb⟩
  · change ((untilUnchanged () (fun live => .ok (cfg.rpo.reverse.foldl (refresh (transfer fn cfg))
      (live, false))) fuel fun _ => ∅).toOption.map _) = _
    rw [hrun fuel (by omega)]
    rfl
  -- the sets of the paths are closed, and the code has the least that are
  · let paths : Nat → Finset ValueId := fun c => all.filter fun v => LiveIn fn v c
    have hpaths : ∀ c v, v ∈ paths c ↔ v < fn.valueCount ∧ LiveIn fn v c := by
      intro c v
      simp [paths, all]
    have hclosed : ∀ b ∈ rpo, transfer fn cfg paths b ⊆ paths b := fun b hb =>
      transfer_live hv hsuccs (hsettled b ((hrpo b).mp hb)) hpaths
    exact (hpaths c v).mp (hrising.least paths hclosed c hv')

/-- A loop with a parameter that it hands on, under a handler that returns what was made before. -/
def repeating : Function where
  valueCount := 7
  blocks := ⟨[
    { id := 0
      instructions := ⟨[
        { op := .constBool, type := .bool, result := 4 },
        { op := .jump, target := { block := 1, args := ⟨[4], by decide⟩ } }], by decide⟩ },
    { id := 1
      handler := 2
      params := ⟨[⟨5, .bool⟩], by decide⟩
      instructions := ⟨[
        { op := .constBool, type := .bool, result := 6 },
        { op := .branch, operands := ⟨[5], by decide⟩
          target := { block := 1, args := ⟨[6], by decide⟩ }, elseTarget := { block := 2 } }],
        by decide⟩ },
    { id := 2
      instructions := ⟨[{ op := .ret, operands := ⟨[4], by decide⟩ }], by decide⟩ }], by decide⟩

theorem repeating_settled (b : Nat) : Settled repeating b := by
  have huses : ∀ blk ∈ repeating.blocks.1, ∀ inst ∈ blk.instructions.1,
      eachUse inst = inst.uses := by decide
  have hcounted : ∀ blk ∈ repeating.blocks.1, ∀ inst ∈ blk.instructions.1,
      (eachUse inst).all (· < repeating.valueCount) = true := by decide
  have hresults : ∀ blk ∈ repeating.blocks.1, blk.handler ≠ kNoBlock →
      blk.handler = 2 ∧ ∀ inst ∈ blk.instructions.1, inst.result ≠ 4 := by decide
  have hhandler : ∀ v, Live repeating v (2, 0) → v = 4 := by
    rintro v ⟨q, hpath, hread⟩
    rcases hpath.cases_head with rfl | ⟨r, hlead, -⟩
    · obtain ⟨blk, inst, hblk, hinst, huse⟩ := hread
      cases hblk
      cases hinst
      exact mem_singleton.mp huse
    · cases hlead with
      | next hblk hinst hterm =>
        cases hblk
        cases hinst
        cases hterm
      | edge hblk hinst ht =>
        cases hblk
        cases hinst
        cases ht
      | handler hblk hinst hnamed =>
        cases hblk
        exact absurd rfl hnamed
  refine ⟨fun i v hread => ?_, fun blk i inst hblk hinst v huse hread _ => ?_,
    fun blk i inst hblk hinst hnamed v hlive hdef => ?_⟩
  · obtain ⟨blk, inst, hblk, hinst, huse⟩ := hread
    exact of_decide_eq_true (all_eq_true.mp
      (hcounted blk (mem_of_getElem? hblk) inst (mem_of_getElem? hinst)) v (uses_subset inst huse))
  · rw [huses blk (mem_of_getElem? hblk) inst (mem_of_getElem? hinst)] at huse
    exact absurd huse hread
  · obtain ⟨htwo, hne⟩ := hresults blk (mem_of_getElem? hblk) hnamed
    rw [htwo] at hlive
    obtain ⟨blk', inst', hblk', hinst', hresult, -⟩ := hdef
    obtain rfl := Option.some.inj (hblk.symm.trans hblk')
    obtain rfl := Option.some.inj (hinst.symm.trans hinst')
    rw [hhandler v hlive.2] at hresult
    exact absurd hresult (hne inst (mem_of_getElem? hinst))

theorem computeLiveIn_exact_repeating :
    ∃ rounds cfg liveIn, (∀ fuel, rounds ≤ fuel → buildCfg repeating fuel = some cfg ∧
      computeLiveIn repeating cfg fuel = some liveIn) ∧
        ∀ b, ReflTransGen (Edge repeating) 0 b → ExactAt repeating cfg liveIn b := by
  obtain ⟨rounds, cfg, liveIn, hends, hiff⟩ :=
    computeLiveIn_exact_iff (fun _ => true) repeating ⟨20, rfl⟩
  exact ⟨rounds, cfg, liveIn, hends, hiff.mpr fun b _ => repeating_settled b⟩

/-- A read of a global under a handler that returns the value made after it. -/
def caught : Function := { leaky with valueCount := 2 }

/-- **A value that is missed**: control may pass from the first instruction to the handler, which
reads value 1, and the sets before that instruction are empty. -/
theorem computeLiveIn_misses :
    (∀ certificates, certificates caught = true → Accepts certificates caught) ∧
      LiveIn caught 1 0 ∧ Live caught 1 (0, 0) ∧
        ∃ cfg liveIn, buildCfg caught 10 = some cfg ∧ computeLiveIn caught cfg 10 = some liveIn ∧
          1 ∉ liveIn 0 ∧ 1 ∉ liveBefore caught cfg liveIn 0 0 := by
  have hnone : ∀ b, ¬BlockTakes caught b 1 := by
    rintro b ⟨blk, hblk, p, hp, -⟩
    have hparams : ∀ blk ∈ caught.blocks.1, blk.params.1 = [] := by decide
    rw [hparams blk (mem_of_getElem? hblk)] at hp
    cases hp
  have hlead := @Leads.handler caught 1 0 0 _ _ rfl rfl (by decide) (hnone 1)
  have hlive : Live caught 1 (0, 0) :=
    ⟨(1, 0), .single hlead, _, _, rfl, rfl, mem_singleton_self _⟩
  refine ⟨fun certificates h => ⟨10, ?_⟩, ⟨hnone 0, hlive⟩, hlive, _, _, rfl, rfl, by decide,
    by decide⟩
  change require (certificates caught = true) .certificates = .ok ()
  rw [require, if_pos h]

end Exact

end Bronze.Lower
