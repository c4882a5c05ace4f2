import Bronze.Il.Acceptance

/-!
# Values are defined before they are read

An execution of a function runs through the instructions of a block.  An instruction that
completes defines its result, a jump or a branch passes to one of its targets and defines the
parameters of that block, and any instruction may throw, which passes control to the handler of
the block from where it stands.

The verifier asks that the block that defines a value dominates the block that reads it, and lets
the edge from a block to its handler leave from the end of the block.  An accepted function reads
no value before its definition exactly if nothing that is reached from a handler without coming
back to the protected block reads a result of that block.

## Main results

* `verifyFunction_safe_iff`: exactly when an accepted function is safe
* `verifyFunction_unsafe`: an accepted function that is not
-/

namespace Bronze.Il

open Graph
open List Option Relation Instruction

/-- Where an execution stands, and what it has defined on its way. -/
structure State where
  block : Nat
  index : Nat
  defined : Set ValueId

/-- The instruction that comes next. -/
def State.inst (fn : Function) (st : State) : Option Instruction :=
  (fn.blocks.1[st.block]?).bind fun blk => blk.instructions.1[st.index]?

/-- What is defined once an instruction completes. -/
def Instruction.completed (inst : Instruction) (defined : Set ValueId) : Set ValueId :=
  if inst.result = kNoValue then defined else insert inst.result defined

def Block.taken (blk : Block) : Set ValueId := {v | ∃ p ∈ blk.params.1, p.id = v}

/-- At the entry the parameters of the function are defined. -/
def start (fn : Function) : State := ⟨0, 0, {v | Takes fn v}⟩

inductive Step (fn : Function) (st : State) : State → Prop where
  | next {inst : Instruction} (hinst : st.inst fn = some inst)
    (hterm : isTerminator inst.op = false) :
    Step fn st ⟨st.block, st.index + 1, inst.completed st.defined⟩
  | transfer {inst : Instruction} {target : BlockTarget} {blk : Block}
    (hinst : st.inst fn = some inst) (htarget : target ∈ inst.targets)
    (hnamed : target.block ≠ kNoBlock) (hblk : fn.blocks.1[target.block.toNat]? = some blk) :
    Step fn st ⟨target.block.toNat, 0, inst.completed st.defined ∪ blk.taken⟩
  | raise {inst : Instruction} {blk : Block} (hinst : st.inst fn = some inst)
    (hblk : fn.blocks.1[st.block]? = some blk) (hnamed : blk.handler ≠ kNoBlock) :
    Step fn st ⟨blk.handler.toNat, 0, st.defined⟩

/-- The states of the executions. -/
def Reaches (fn : Function) : State → Prop := Relation.ReflTransGen (Step fn) (start fn)

/-- No execution reads a value that it has not defined. -/
def Safe (fn : Function) : Prop :=
  ∀ st, Reaches fn st → ∀ inst, st.inst fn = some inst → ∀ v ∈ inst.uses, v ∈ st.defined

/-- Where control may go from a block: to its handler, or to a target of its terminator. -/
def Block.exits (blk : Block) : List BlockId :=
  blk.handler :: blk.instructions.1.flatMap fun inst => inst.targets.map BlockTarget.block

/-- Control may pass from the one block to the other. -/
def Edge (fn : Function) (b c : Nat) : Prop :=
  ∃ blk, fn.blocks.1[b]? = some blk ∧ ∃ id ∈ blk.exits, id ≠ kNoBlock ∧ id.toNat = c

/-- What is reached from a handler, short of the block it protects, reads no result of that
block. -/
def HandlersSealed (fn : Function) : Prop :=
  ∀ d blk, fn.blocks.1[d]? = some blk → Relation.ReflTransGen (Edge fn) 0 d →
    blk.handler ≠ kNoBlock → ∀ u, Avoids (Edge fn) d blk.handler.toNat u →
    ∀ user, fn.blocks.1[u]? = some user → ∀ inst ∈ user.instructions.1, ∀ v ∈ inst.uses,
    ∀ maker ∈ blk.instructions.1, maker.result ≠ v

section Verified

variable {fn : Function} {a : Analysis} {v : ValueId} {b c d k : Nat}

variable {inst : Instruction} {i : Nat}

theorem isTerminator_of_targets {t : BlockTarget} (h : t ∈ inst.targets) :
    isTerminator inst.op = true := by
  unfold targets at h
  unfold isTerminator
  split at h
  · next hop => simp [hop]
  · split at h
    · next hop => simp [hop]
    · cases h

namespace Verified

variable (hv : Verified fn a)

include hv

theorem follows (h : Edge fn b c) : Follows fn b c := by
  obtain ⟨blk, hblk, id, hid, hnamed, rfl⟩ := h
  have hmem : blk ∈ fn.blocks.1 := mem_of_getElem? hblk
  have hok := (recordDefinitions_spec hv.definitions).2.2 blk hmem
  unfold Follows successors
  rw [hblk]
  simp only [List.mem_eraseDups, List.mem_map, List.mem_filter, decide_eq_true_iff]
  rcases mem_cons.mp hid with rfl | hid
  · exact ⟨blk.handler, ⟨List.mem_cons_self .., hnamed, hok.handler.resolve_left hnamed⟩, rfl⟩
  · obtain ⟨inst, hinst, hid⟩ := mem_flatMap.mp hid
    obtain ⟨target, htarget, rfl⟩ := mem_map.mp hid
    obtain ⟨i, hi⟩ := mem_iff_getElem?.mp hinst
    -- only the last instruction has targets
    have hlast := (hv.terminator blk hmem i inst hi).mp (isTerminator_of_targets htarget)
    have hget : blk.instructions.1.getLast? = some inst := by
      rw [getLast?_eq_getElem?, ← hlast, hi]
    rw [hget]
    exact ⟨target.block, ⟨List.mem_cons_of_mem _ (List.mem_map.mpr ⟨target, htarget, rfl⟩),
      hnamed, hv.target blk hmem inst hinst target htarget⟩, rfl⟩

theorem reached (h : ReflTransGen (Edge fn) 0 b) :
    ReflTransGen (Follows fn) 0 b := h.lift id fun _ _ => hv.follows

theorem dominates (hc : ReflTransGen (Edge fn) 0 c)
    (h : a.dominates b c = .ok true) : Dominates (Edge fn) 0 b c := by
  obtain ⟨idom, hidom, ha⟩ := hv.dominators
  rw [ha] at h
  intro havoid
  refine dominates_sound hv.order hidom (hv.reached hc) h ⟨havoid.1, ?_⟩
  exact havoid.2.lift id fun _ _ h => ⟨hv.follows h.1, h.2⟩

theorem first {blk : Block} (hblk : fn.blocks.1[b]? = some blk) :
    ∃ inst, blk.instructions.1[0]? = some inst := by
  have hne := hv.nonempty blk (mem_of_getElem? hblk)
  exact ⟨_, getElem?_eq_getElem (length_pos_of_ne_nil hne)⟩

theorem block (h : Edge fn b c) : ∃ blk, fn.blocks.1[c]? = some blk := by
  obtain ⟨blk, hblk, id, hid, hnamed, rfl⟩ := h
  have hmem : blk ∈ fn.blocks.1 := mem_of_getElem? hblk
  suffices id.toNat < fn.blocks.1.length from ⟨_, getElem?_eq_getElem this⟩
  rcases mem_cons.mp hid with rfl | hid
  · exact ((recordDefinitions_spec hv.definitions).2.2 blk hmem).handler.resolve_left hnamed
  · obtain ⟨inst, hinst, hid⟩ := mem_flatMap.mp hid
    obtain ⟨target, htarget, rfl⟩ := mem_map.mp hid
    exact hv.target blk hmem inst hinst target htarget

theorem defines_unique (h : Defines fn d k v) :
    (∀ d' k', Defines fn d' k' v → d' = d ∧ k' = k) ∧ (∀ d', ¬ BlockTakes fn d' v) ∧
      ¬ Takes fn v := by
  have hdistinct := (recordDefinitions_spec hv.definitions).1
  obtain ⟨e, he, hid, hblock, hinst⟩ := mem_of_defines hv.definitions h
  refine ⟨fun d' k' h' => ?_, fun d' h' => ?_, fun h' => ?_⟩
  · obtain ⟨e', he', hid', hblock', hinst'⟩ := mem_of_defines hv.definitions h'
    obtain rfl := hdistinct.unique he he' (hid.trans hid'.symm)
    exact ⟨hblock'.symm.trans hblock, by omega⟩
  · obtain ⟨e', he', hid', -, hinst'⟩ := mem_of_blockTakes hv.definitions h'
    obtain rfl := hdistinct.unique he he' (hid.trans hid'.symm)
    omega
  · obtain ⟨e', he', hid', -, hinst'⟩ := mem_of_takes hv.definitions h'
    obtain rfl := hdistinct.unique he he' (hid.trans hid'.symm)
    omega

end Verified

/-! ## Sealed handlers are enough -/

/-- Block `d` defines the value: as a parameter, or at instruction `k`. -/
def DefinedAt (fn : Function) (d : Nat) (k : Int) (v : ValueId) : Prop :=
  k = -1 ∧ BlockTakes fn d v ∨ ∃ i : Nat, k = i ∧ Defines fn d i v

/-- Block `b` can be reached from the handler of block `d` without coming back to `d`. -/
def Leaks (fn : Function) (d b : Nat) : Prop :=
  ∃ blk, fn.blocks.1[d]? = some blk ∧ blk.handler ≠ kNoBlock ∧
    Avoids (Edge fn) d blk.handler.toNat b

/-- What every execution keeps: a value of a block that dominates the present one is defined,
unless control left that block by its handler. -/
structure Keeps (fn : Function) (st : State) : Prop where
  reached : Relation.ReflTransGen (Edge fn) 0 st.block
  takes : ∀ v, Takes fn v → v ∈ st.defined
  here : ∀ k v, DefinedAt fn st.block k v → k < st.index → v ∈ st.defined
  above : ∀ d k v, DefinedAt fn d k v → d ≠ st.block → Dominates (Edge fn) 0 d st.block →
    v ∈ st.defined ∨ 0 ≤ k ∧ Leaks fn d st.block

theorem State.inst_eq {st : State} (h : st.inst fn = some inst) :
    ∃ blk, fn.blocks.1[st.block]? = some blk ∧ blk.instructions.1[st.index]? = some inst := by
  obtain ⟨blk, hblk, hinst⟩ := bind_eq_some_iff.mp h
  exact ⟨blk, hblk, hinst⟩

theorem State.inst_mk {blk : Block} {defined : Set ValueId} (hblk : fn.blocks.1[b]? = some blk)
    (hinst : blk.instructions.1[i]? = some inst) : State.inst fn ⟨b, i, defined⟩ = some inst :=
  bind_eq_some_iff.mpr ⟨blk, hblk, hinst⟩

theorem Instruction.subset_completed (inst : Instruction) (defined : Set ValueId) :
    defined ⊆ inst.completed defined := by
  unfold completed
  split
  · exact subset_rfl
  · exact Set.subset_insert _ _

theorem completed_defines {st : State} (hinst : st.inst fn = some inst)
    (h : Defines fn st.block st.index v) : v ∈ inst.completed st.defined := by
  obtain ⟨blk, hblk, hget⟩ := State.inst_eq hinst
  obtain ⟨blk', inst', hblk', hget', rfl, hne⟩ := h
  obtain rfl := some.inj (hblk.symm.trans hblk')
  obtain rfl := some.inj (hget.symm.trans hget')
  rw [completed, if_neg hne]
  exact Set.mem_insert _ _

namespace Keeps

variable {st st' : State}

theorem start (hv : Verified fn a) : Keeps fn (start fn) := by
  refine ⟨.refl, fun v hv => hv, fun k v hdef hk => ?_, fun d k v _ hd hdom => ?_⟩
  · -- the entry has no parameters, and none of its instructions has run
    rcases hdef with ⟨-, blk, hblk, p, hp, -⟩ | ⟨i, rfl, -⟩
    · obtain ⟨entry, hentry, hparams⟩ := hv.entry
      obtain rfl := some.inj (hblk.symm.trans hentry)
      rw [hparams] at hp
      cases hp
    · exact absurd hk (by dsimp only [Il.start]; omega)
  · exact absurd (Avoids.refl (Ne.symm hd)) hdom

/-- Control goes on to another block: what is defined above the new block is what was defined
above the old one, and the values of the old one. -/
theorem moves {defined : Set ValueId} (h : Keeps fn st) (hedge : Edge fn st.block c)
    (hsub : st.defined ⊆ defined) (htaken : ∀ v, BlockTakes fn c v → v ∈ defined)
    (hleft : ∀ k v, DefinedAt fn st.block k v → c ≠ st.block →
      v ∈ defined ∨ 0 ≤ k ∧ Leaks fn st.block c) :
    Keeps fn ⟨c, 0, defined⟩ := by
  refine ⟨h.reached.tail hedge, fun v hv => hsub (h.takes v hv), fun k v hdef hk => ?_,
    fun d k v hdef hd hdom => ?_⟩
  · rcases hdef with ⟨-, htakes⟩ | ⟨i, rfl, -⟩
    · exact htaken v htakes
    · exact absurd hk (by dsimp only; omega)
  · by_cases hblock : d = st.block
    · subst hblock
      exact hleft k v hdef (Ne.symm hd)
    · rcases h.above d k v hdef hblock (hdom.pred hedge (Ne.symm hd)) with hmem | ⟨hk, hleak⟩
      · exact .inl (hsub hmem)
      · obtain ⟨blk, hblk, hnamed, havoid⟩ := hleak
        exact .inr ⟨hk, blk, hblk, hnamed, havoid.tail hedge (Ne.symm hd)⟩

theorem step (hv : Verified fn a) (h : Keeps fn st) (hstep : Step fn st st') : Keeps fn st' := by
  cases hstep with
  | @next inst hinst _ =>
    have hsub := inst.subset_completed st.defined
    refine ⟨h.reached, fun v hv => hsub (h.takes v hv), fun k v hdef hk => ?_,
      fun d k v hdef hd hdom => (h.above d k v hdef hd hdom).imp_left fun hmem => hsub hmem⟩
    by_cases hlast : k = st.index
    · rcases hdef with ⟨hk', -⟩ | ⟨i, hi, hdef⟩
      · omega
      · obtain rfl : i = st.index := by omega
        exact completed_defines hinst hdef
    · exact hsub (h.here k v hdef (by dsimp only at hk; omega))
  | @transfer inst target blk hinst htarget hnamed hblk =>
    obtain ⟨here, hhere, hget⟩ := State.inst_eq hinst
    have hmem : here ∈ fn.blocks.1 := mem_of_getElem? hhere
    have hedge : Edge fn st.block target.block.toNat := by
      refine ⟨here, hhere, target.block, mem_cons_of_mem _ (mem_flatMap.mpr
        ⟨inst, mem_of_getElem? hget, mem_map.mpr ⟨target, htarget, rfl⟩⟩), hnamed, rfl⟩
    have hsub := (inst.subset_completed st.defined).trans (Set.subset_union_left (t := blk.taken))
    refine h.moves hedge hsub (fun v hv => ?_) fun k v hdef _ => .inl ?_
    · obtain ⟨blk', hblk', hp⟩ := hv
      obtain rfl := some.inj (hblk.symm.trans hblk')
      exact .inr hp
    · -- a terminator is the last instruction: every value of its block is defined
      have hlast := (hv.terminator here hmem st.index inst hget).mp
        (isTerminator_of_targets htarget)
      by_cases hk : k < st.index
      · exact hsub (h.here k v hdef hk)
      · rcases hdef with ⟨rfl, -⟩ | ⟨i, rfl, hdef⟩
        · omega
        · obtain ⟨blk', maker, hblk', hmaker, -, -⟩ := id hdef
          obtain rfl := some.inj (hhere.symm.trans hblk')
          have hlt := (List.getElem?_eq_some_iff.mp hmaker).1
          obtain rfl : i = st.index := by omega
          exact .inl (completed_defines hinst hdef)
  | @raise inst blk hinst hblk hnamed =>
    have hedge : Edge fn st.block blk.handler.toNat :=
      ⟨blk, hblk, blk.handler, mem_cons_self .., hnamed, rfl⟩
    refine h.moves hedge subset_rfl (fun v hv' => ?_) fun k v hdef hne => ?_
    · -- a handler has no parameters
      have hok := (recordDefinitions_spec hv.definitions).2.2 blk (mem_of_getElem? hblk)
      obtain ⟨handler, hhandler, p, hp, -⟩ := hv'
      rw [(hok.handlerParams handler hhandler).resolve_left hnamed] at hp
      cases hp
    · rcases hdef with ⟨rfl, htakes⟩ | ⟨i, rfl, -⟩
      · exact .inl (h.here (-1) v (.inl ⟨rfl, htakes⟩) (by omega))
      · exact .inr ⟨by omega, blk, hblk, hnamed, .refl hne⟩

theorem run (hv : Verified fn a) (h : Reaches fn st) : Keeps fn st := by
  induction h with
  | refl => exact start hv
  | tail _ hstep ih => exact ih.step hv hstep

end Keeps

/-- The places of a value that `checkUse` accepts. -/
theorem Analysis.checkUse_ok (h : a.checkUse v b i = .ok ()) :
    ∃ loc ∈ a.defs, loc.id = v ∧ ¬ (loc.blockIdx = b ∧ (i : Int) ≤ loc.instIdx) ∧
      (v.toNat < a.fn.params.1.length ∨ loc.blockIdx = b ∨
        a.dominates loc.blockIdx b = .ok true) := by
  unfold checkUse at h
  cases hfind : a.find v with
  | none =>
    rw [hfind] at h
    cases h
  | some loc =>
    rw [hfind] at h
    obtain ⟨_, hplace, h⟩ := Fixpoint.bind_eq_ok.mp h
    refine ⟨loc, mem_of_find?_eq_some hfind, ?_, require_eq_ok.mp hplace, ?_⟩
    · simpa using find?_some hfind
    · split at h
      · next hlt => exact .inl hlt
      · obtain ⟨_, _, h⟩ := Fixpoint.bind_eq_ok.mp h
        split at h
        · next heq => exact .inr (.inl heq)
        · obtain ⟨dominated, hdom, h⟩ := Fixpoint.bind_eq_ok.mp h
          rw [require_eq_ok.mp h] at hdom
          exact .inr (.inr hdom)

theorem Verified.fn_eq (hv : Verified fn a) : a.fn = fn := by
  obtain ⟨idom, -, ha⟩ := hv.dominators
  rw [ha]

/-- A value that is read is a parameter of the function, or it is defined further up in the block or
in a block that is accepted as a dominator. -/
theorem Verified.use_place (hv : Verified fn a) {blk : Block} (hblk : fn.blocks.1[b]? = some blk)
    (hinst : blk.instructions.1[i]? = some inst) (hvu : v ∈ inst.uses) :
    Takes fn v ∨ ∃ d k, DefinedAt fn d k v ∧
      (d = b ∧ k < i ∨ d ≠ b ∧ a.dominates d b = .ok true) := by
  obtain ⟨loc, hloc, rfl, hplace, hdom⟩ :=
    Analysis.checkUse_ok (hv.use b blk hblk i inst hinst v hvu)
  by_cases htakes : Takes fn loc.id
  · exact .inl htakes
  have hdef : DefinedAt fn loc.blockIdx loc.instIdx loc.id := by
    rcases mem_definitions hv.definitions hloc with ⟨hi, ⟨hparam, -⟩ | hblock⟩ | hinst'
    · exact absurd hparam htakes
    · exact .inl ⟨hi, hblock⟩
    · exact .inr hinst'
  refine .inr ⟨_, _, hdef, ?_⟩
  by_cases hhere : loc.blockIdx = b
  · exact .inl ⟨hhere, by omega⟩
  · rcases hdom with hparam | heq | hdom
    · refine absurd ⟨loc.id.toNat, hv.fn_eq ▸ hparam, ?_⟩ htakes
      exact UInt32.ofNat_toNat
    · exact absurd heq hhere
    · exact .inr ⟨hhere, hdom⟩

/-- **An accepted function whose handlers are sealed is safe.** -/
theorem safe_of_sealed (hv : Verified fn a) (hsealed : HandlersSealed fn) : Safe fn := by
  intro st hst inst hinst v hvu
  have hkeeps := Keeps.run hv hst
  obtain ⟨blk, hblk, hget⟩ := State.inst_eq hinst
  rcases hv.use_place hblk hget hvu with htakes | ⟨d, k, hdef, ⟨rfl, hk⟩ | ⟨hhere, hdom⟩⟩
  · exact hkeeps.takes _ htakes
  · exact hkeeps.here _ _ hdef hk
  have hdominates := hv.dominates hkeeps.reached hdom
  rcases hkeeps.above _ _ _ hdef hhere hdominates with hmem | ⟨hk, maker, hmaker, hnamed, havoid⟩
  · exact hmem
  · -- control left the block of the definition by its handler: the handlers are sealed
    rcases hdef with ⟨hk', -⟩ | ⟨i, -, blk', inst', hblk', hget', hresult, -⟩
    · omega
    · obtain rfl := some.inj (hmaker.symm.trans hblk')
      exact absurd hresult (hsealed _ maker hmaker (hdominates.reachable hkeeps.reached) hnamed _
        havoid blk hblk inst (mem_of_getElem? hget) _ hvu inst' (mem_of_getElem? hget'))

/-! ## Sealed handlers are needed -/

section Leak

variable {defined : Set ValueId} {P : Set ValueId → Prop} {blk : Block}

/-- A block runs up to any of its instructions. -/
theorem runs_to (hv : Verified fn a) (hblk : fn.blocks.1[b]? = some blk)
    (hP : ∀ inst ∈ blk.instructions.1, ∀ defined, P defined → P (inst.completed defined))
    (h : Reaches fn ⟨b, 0, defined⟩) (hdefined : P defined) {i : Nat}
    (hi : i < blk.instructions.1.length) :
    ∃ defined', Reaches fn ⟨b, i, defined'⟩ ∧ P defined' := by
  induction i with
  | zero => exact ⟨defined, h, hdefined⟩
  | succ i ih =>
    obtain ⟨defined', hreach, hdefined'⟩ := ih (by omega)
    have hinst : State.inst fn ⟨b, i, defined'⟩ = some blk.instructions.1[i] :=
      State.inst_mk hblk (getElem?_eq_getElem _)
    -- only the last instruction is a terminator
    have hterm : isTerminator blk.instructions.1[i].op = false := by
      have hiff := hv.terminator blk (mem_of_getElem? hblk) i _ (getElem?_eq_getElem (by omega))
      rw [← Bool.not_eq_true, hiff]
      omega
    exact ⟨_, hreach.tail (.next hinst hterm), hP _ (getElem_mem _) _ hdefined'⟩

/-- Control can pass along any edge. -/
theorem crosses (hv : Verified fn a) (hedge : Edge fn b c)
    (hP : ∀ blk, fn.blocks.1[b]? = some blk → ∀ inst ∈ blk.instructions.1, ∀ defined,
      P defined → P (inst.completed defined))
    (htaken : ∀ blk, fn.blocks.1[c]? = some blk → ∀ defined, P defined → P (defined ∪ blk.taken))
    (h : Reaches fn ⟨b, 0, defined⟩) (hdefined : P defined) :
    ∃ defined', Reaches fn ⟨c, 0, defined'⟩ ∧ P defined' := by
  obtain ⟨tgt, htgt⟩ := hv.block hedge
  obtain ⟨blk, hblk, id, hid, hnamed, rfl⟩ := hedge
  rcases mem_cons.mp hid with rfl | hid
  · obtain ⟨inst, hinst⟩ := hv.first hblk
    exact ⟨defined, h.tail (.raise (State.inst_mk hblk hinst) hblk hnamed), hdefined⟩
  · obtain ⟨inst, hinst, hid⟩ := mem_flatMap.mp hid
    obtain ⟨target, htarget, rfl⟩ := mem_map.mp hid
    obtain ⟨i, hi, rfl⟩ := mem_iff_getElem.mp hinst
    obtain ⟨defined', hreach, hdefined'⟩ := runs_to hv hblk (hP blk hblk) h hdefined hi
    have hget : State.inst fn ⟨b, i, defined'⟩ = some blk.instructions.1[i] :=
      State.inst_mk hblk (getElem?_eq_getElem hi)
    exact ⟨_, hreach.tail (.transfer hget htarget hnamed htgt),
      htaken tgt htgt _ (hP blk hblk _ hinst _ hdefined')⟩

/-- A block other than the one that defines a value leaves it undefined. -/
theorem not_mem_completed (hdef : ∀ i, ¬ Defines fn b i v)
    (hblk : fn.blocks.1[b]? = some blk) (hvalue : v ≠ kNoValue) (hinst : inst ∈ blk.instructions.1)
    (hnot : v ∉ defined) : v ∉ inst.completed defined := by
  intro hmem
  unfold completed at hmem
  split at hmem
  · exact hnot hmem
  · rcases Set.mem_insert_iff.mp hmem with heq | hmem
    · obtain ⟨i, hi⟩ := mem_iff_getElem?.mp hinst
      exact hdef i ⟨blk, inst, hblk, hi, heq.symm, hvalue⟩
    · exact hnot hmem

variable (hv : Verified fn a)

include hv

/-- Control can pass along any edge without defining the value, if its block is not the one that
defines it. -/
theorem passes (hdefines : Defines fn d k v) (hbd : b ≠ d)
    (hedge : Edge fn b c) (h : Reaches fn ⟨b, 0, defined⟩)
    (hnot : v ∉ defined) : ∃ defined', Reaches fn ⟨c, 0, defined'⟩ ∧ v ∉ defined' := by
  obtain ⟨hunique, hparams, -⟩ := hv.defines_unique hdefines
  obtain ⟨-, -, -, -, -, hvalue⟩ := hdefines
  refine crosses hv hedge (P := (v ∉ ·)) (fun blk hblk inst hinst defined hnot => ?_)
    (fun blk hblk defined hnot => ?_) h hnot
  · exact not_mem_completed (fun i hi => hbd (hunique b i hi).1) hblk hvalue hinst hnot
  · rintro (hmem | ⟨p, hp, hpv⟩)
    · exact hnot hmem
    · exact hparams _ ⟨blk, hblk, p, hp, hpv⟩

/-- What the edges reach, an execution reaches. -/
theorem reaches_block (h : ReflTransGen (Edge fn) 0 b) :
    ∃ defined, Reaches fn ⟨b, 0, defined⟩ := by
  induction h with
  | refl => exact ⟨_, .refl⟩
  | tail _ hedge ih =>
    obtain ⟨defined, hreach⟩ := ih
    obtain ⟨defined', hreach', -⟩ := crosses hv hedge (P := fun _ => True)
      (fun _ _ _ _ _ h => h) (fun _ _ _ h => h) hreach trivial
    exact ⟨defined', hreach'⟩

/-- A path that misses the block of the definition can be followed without defining the value. -/
theorem follows_path (hdefines : Defines fn d k v)
    (hpath : Avoids (Edge fn) d b c) (h : Reaches fn ⟨b, 0, defined⟩)
    (hnot : v ∉ defined) : ∃ defined', Reaches fn ⟨c, 0, defined'⟩ ∧ v ∉ defined' := by
  obtain ⟨hne, hpath⟩ := hpath
  induction hpath with
  | refl => exact ⟨defined, h, hnot⟩
  | @tail x y hpath hlast ih =>
    obtain ⟨defined', hreach, hnot'⟩ := ih
    exact passes hv hdefines (Avoids.ne ⟨hne, hpath⟩) hlast.1 hreach hnot'

/-- The block of a definition is reached a first time, with the value undefined. -/
theorem reaches_first (hdefines : Defines fn d k v) (hreach : ReflTransGen (Edge fn) 0 d) :
    ∃ defined, Reaches fn ⟨d, 0, defined⟩ ∧ v ∉ defined := by
  have hstart : v ∉ (start fn).defined := (hv.defines_unique hdefines).2.2
  rcases exists_first hreach with rfl | ⟨p, havoid, hedge⟩
  · exact ⟨_, .refl, hstart⟩
  · obtain ⟨defined, hp, hnot⟩ := follows_path hv hdefines havoid .refl hstart
    exact passes hv hdefines havoid.ne hedge hp hnot

/-- **The handlers of an accepted function that is safe are sealed.** -/
theorem sealed_of_safe (hsafe : Safe fn) : HandlersSealed fn := by
  intro d blk hblk hreach hnamed u havoid user huser inst hinst v hvu maker hmaker hresult
  obtain ⟨k, hk⟩ := mem_iff_getElem?.mp hmaker
  obtain ⟨j, hj, rfl⟩ := mem_iff_getElem.mp hinst
  -- the sentinel is no operand
  have hvalue : v ≠ kNoValue := by
    obtain ⟨loc, hloc, rfl, -⟩ :=
      Analysis.checkUse_ok (hv.use u user huser j _ (getElem?_eq_getElem hj) v hvu)
    exact (recordDefinitions_spec hv.definitions).1.named loc hloc
  have hdefines : Defines fn d k v := ⟨blk, maker, hblk, hk, hresult, hvalue⟩
  obtain ⟨defined, hd, hnot⟩ := reaches_first hv hdefines hreach
  -- the first instruction of the protected block throws
  obtain ⟨first, hfirst⟩ := hv.first hblk
  have hraise : Step fn ⟨d, 0, defined⟩ ⟨blk.handler.toNat, 0, defined⟩ :=
    .raise (State.inst_mk hblk hfirst) hblk hnamed
  obtain ⟨defined', hu, hnot'⟩ := follows_path hv hdefines havoid (hd.tail hraise) hnot
  have hdef : ∀ i, ¬ Defines fn u i v := fun i hi =>
    havoid.ne ((hv.defines_unique hdefines).1 u i hi).1
  obtain ⟨defined'', hj', hundefined⟩ := runs_to hv huser (P := (v ∉ ·))
    (fun _ hinst _ => not_mem_completed hdef huser hvalue hinst) hu hnot' hj
  exact hundefined (hsafe ⟨u, j, defined''⟩ hj' user.instructions.1[j]
    (State.inst_mk huser (getElem?_eq_getElem hj)) v hvu)

end Leak

end Verified

/-- **Exactly when an accepted function is safe**: nothing that is reached from a handler, short
of the block it protects, reads a result of that block. -/
theorem verifyFunction_safe_iff (certificates : Function → Bool) (fn : Function)
    (h : Accepts certificates fn) : Safe fn ↔ HandlersSealed fn := by
  obtain ⟨a, hv⟩ := h.verified
  exact ⟨sealed_of_safe hv, safe_of_sealed hv⟩

/-- A read of a global that may throw, in a block whose handler returns the value that the block
defines after it. -/
def leaky : Function where
  blocks := ⟨[
    { id := 0
      handler := 1
      instructions := ⟨[
        { op := .globalGet, type := .dynamic, result := 0 },
        { op := .constUndefined, type := .dynamic, result := 1 },
        { op := .ret, operands := ⟨[1], by decide⟩ }], by decide⟩ },
    { id := 1
      instructions := ⟨[{ op := .ret, operands := ⟨[1], by decide⟩ }], by decide⟩ }], by decide⟩

theorem leaky_verified (certificates : Function → Bool) (h : certificates leaky = true) :
    Accepts certificates leaky := by
  refine ⟨10, ?_⟩
  show require (certificates leaky = true) .certificates = .ok ()
  rw [require, if_pos h]

/-- **An accepted function that is not safe**: its handler is entered from the first instruction,
and reads what the second one would have defined. -/
theorem verifyFunction_unsafe :
    (∀ certificates, certificates leaky = true → Accepts certificates leaky) ∧
      ∃ st, Reaches leaky st ∧ ∃ inst, st.inst leaky = some inst ∧
        ∃ v ∈ inst.uses, v ∉ st.defined := by
  refine ⟨leaky_verified, ⟨1, 0, (start leaky).defined⟩, ?_, _, rfl, 1, mem_singleton_self _, ?_⟩
  · have hraise := @Step.raise leaky (start leaky) _ _ rfl rfl (by decide)
    exact .single hraise
  · rintro ⟨i, hi, -⟩
    cases hi

theorem verifyFunction_safe_iff_leaky : Safe leaky ↔ HandlersSealed leaky :=
  verifyFunction_safe_iff (fun _ => true) leaky (leaky_verified _ rfl)

end Bronze.Il
