import Bronze.Il.ImmediateDominators

/-!
# The control-flow graph of the guarded regions

`buildCfg` and `naturalLoop` of `src/lower/guard_region_cfg.cpp`: the edges of a function with
those to the handlers, the reverse postorder of a walk from the entry, the immediate dominators of
Cooper, Harvey and Kennedy, and the natural loop of a back edge.

The vectors of a `Cfg` are functions of the block, where `kNoBlock` and the number of a block that
no path reaches are `none`. The loops that end when there is nothing left to do take their number
of rounds as `fuel`, and give `none` if it is not enough.

## Main results

* `succs_edges`, `preds_edges`: the edges are those that the verifier adds
-/

namespace Bronze.Lower

open Il
open List Function

/-- `Cfg`, with the length of its vectors. -/
structure Cfg where
  size : Nat
  succs : Nat → List Nat := fun _ => []
  preds : Nat → List Nat := fun _ => []
  idom : Nat → Option Nat := fun _ => none
  rpoIndex : Nat → Option Nat := fun _ => none
  rpo : List Nat := []

def addEdge (cfg : Cfg) (from_ : Nat) (to_ : BlockId) : Cfg :=
  if to_ = kNoBlock ∨ cfg.size ≤ to_.toNat then cfg
  else
    let s := cfg.succs from_
    let p := cfg.preds to_.toNat
    { cfg with
      succs := if to_.toNat ∈ s then cfg.succs else update cfg.succs from_
        (s ++ [to_.toNat])
      preds := if from_ ∈ p then cfg.preds else update cfg.preds to_.toNat (p ++ [from_]) }

/-- The edges that leave a block. -/
def addBlock (cfg : Cfg) (block : Block × Nat) : Cfg :=
  let cfg := addEdge cfg block.2 block.1.handler
  match block.1.instructions.1.getLast? with
  | none => cfg
  | some term =>
    if term.op = .jump then addEdge cfg block.2 term.target.block
    else if term.op = .branch then
      addEdge (addEdge cfg block.2 term.target.block) block.2 term.elseTarget.block
    else cfg

def edges (fn : Function) : Cfg :=
  fn.blocks.1.zipIdx.foldl addBlock { size := fn.blocks.1.length }

/-- The depth-first loop of `computeRpo`. -/
def postorderLoop (succs : Nat → List Nat) :
    (fuel : Nat) → List (Nat × Nat) → List Nat → List Nat → Option (List Nat)
  | _, [], _, postorder => some postorder
  | 0, _ :: _, _, _ => none
  | fuel + 1, (block, next) :: stack, seen, postorder =>
    match (succs block)[next]? with
    | some succ =>
      if succ ∈ seen then postorderLoop succs fuel ((block, next + 1) :: stack) seen postorder
      else postorderLoop succs fuel ((succ, 0) :: (block, next + 1) :: stack) (succ :: seen)
        postorder
    | none => postorderLoop succs fuel stack seen (postorder ++ [block])

def computeRpo (fuel : Nat) (cfg : Cfg) : Option Cfg :=
  if cfg.size = 0 then some cfg
  else do
    let postorder ← postorderLoop cfg.succs fuel [(0, 0)] [0] []
    let rpo := postorder.reverse
    return { cfg with
      rpo
      rpoIndex := rpo.zipIdx.foldl (fun index e => update index e.1 (some e.2))
        fun _ => none }

/-- The number of a block, which is `UINT32_MAX` if no path reaches it. -/
def Cfg.number (cfg : Cfg) (b : Nat) : Nat := (cfg.rpoIndex b).getD 0xFFFFFFFF

def intersect (cfg : Cfg) (idom : Nat → Option Nat) : (fuel : Nat) → Nat → Nat → Option Nat
  | 0, _, _ => none
  | fuel + 1, a, b =>
    if a = b then some a
    else if cfg.number b < cfg.number a then
      match idom a with
      | none => some b
      | some p => intersect cfg idom fuel p b
    else if cfg.number a < cfg.number b then
      match idom b with
      | none => some a
      | some p => intersect cfg idom fuel a p
    else intersect cfg idom fuel a b

/-- The loop over the predecessors of a block. -/
def newIdom (cfg : Cfg) (idom : Nat → Option Nat) (fuel : Nat) (preds : List Nat) :
    Option (Option Nat) :=
  preds.foldlM (fun new p =>
    if cfg.rpoIndex p = none ∨ idom p = none then some new
    else match new with
      | none => some (some p)
      | some q => some <$> intersect cfg idom fuel q p) none

/-- The turn of a pass for one block, with whether something changed. -/
def improve (cfg : Cfg) (fuel : Nat) (s : (Nat → Option Nat) × Bool) (b : Nat) :
    Option ((Nat → Option Nat) × Bool) :=
  if b = 0 then some s
  else do
    let new ← newIdom cfg s.1 fuel (cfg.preds b)
    if new ≠ none ∧ s.1 b ≠ new then return (update s.1 b new, true)
    return s

/-- The passes, until none changes anything. -/
def passes (cfg : Cfg) (fuel : Nat) : (rounds : Nat) → (Nat → Option Nat) →
    Option (Nat → Option Nat)
  | 0, _ => none
  | rounds + 1, idom => do
    let (idom, changed) ← cfg.rpo.foldlM (improve cfg fuel) (idom, false)
    if changed then passes cfg fuel rounds idom else return idom

def buildCfg (fn : Function) (fuel : Nat) : Option Cfg := do
  let cfg ← computeRpo fuel (edges fn)
  if cfg.rpo = [] then return cfg
  let idom ← passes cfg fuel fuel (update cfg.idom 0 (some 0))
  return { cfg with idom := update idom 0 none }

def Cfg.climb (cfg : Cfg) (a : Nat) : (fuel : Nat) → Option Nat → Option Bool
  | _, none => some false
  | 0, some _ => none
  | fuel + 1, some cur => if cur = a then some true else cfg.climb a fuel (cfg.idom cur)

def Cfg.dominates (cfg : Cfg) (fuel : Nat) (a b : Nat) : Option Bool :=
  if a = b then some true
  else if cfg.size ≤ b ∨ cfg.rpoIndex b = none then some false
  else cfg.climb a fuel (cfg.idom b)

/-- One predecessor: it is put into the loop and on the work list, unless it is there. -/
def enterLoop (s : List Nat × List Nat) (p : Nat) : List Nat × List Nat :=
  if p ∈ s.1 then s else (p :: s.1, p :: s.2)

/-- The work list of `naturalLoop`. -/
def collect (preds : Nat → List Nat) : (fuel : Nat) → (inLoop work : List Nat) → Option (List Nat)
  | _, inLoop, [] => some inLoop
  | 0, _, _ :: _ => none
  | fuel + 1, inLoop, b :: work =>
    let (inLoop, work) := (preds b).foldl enterLoop (inLoop, work)
    collect preds fuel inLoop work

/-- `naturalLoop`: the blocks in the loop, in ascending order. -/
def naturalLoop (cfg : Cfg) (fuel : Nat) (header tail : Nat) : Option (List Nat) := do
  let (inLoop, work) := if tail ≠ header then ([tail, header], [tail]) else ([header], [])
  let inLoop ← collect cfg.preds fuel inLoop work
  return (range cfg.size).filter (· ∈ inLoop)

/-! ## The edges are those of the verifier -/

section Edges

variable {fn : Function} {cfg : Cfg} {b : Nat}

/-- The targets an edge is added for. -/
def kept (size : Nat) (ts : List BlockId) : List Nat :=
  (ts.filter fun t => t ≠ kNoBlock ∧ t.toNat < size).map UInt32.toNat

theorem kept_append (size : Nat) (ts us : List BlockId) :
    kept size (ts ++ us) = kept size ts ++ kept size us := by
  rw [kept, filter_append, map_append]
  rfl

theorem kept_singleton_of_not {size : Nat} {t : BlockId} (h : t = kNoBlock ∨ size ≤ t.toNat) :
    kept size [t] = [] := by
  have hno : ¬(t ≠ kNoBlock ∧ t.toNat < size) := by
    rintro ⟨hne, hlt⟩
    rcases h with h | h
    · exact hne h
    · omega
  rw [kept, filter_cons_of_neg (by simpa using hno)]
  rfl

theorem kept_singleton {size : Nat} {t : BlockId} (h : ¬(t = kNoBlock ∨ size ≤ t.toNat)) :
    kept size [t] = [t.toNat] := by
  have hyes : t ≠ kNoBlock ∧ t.toNat < size := by
    rw [not_or, Nat.not_le] at h
    exact h
  rw [kept, filter_cons_of_pos (by simpa using hyes)]
  rfl

/-- Edges from a block that had none. -/
structure Added (cfg cfg' : Cfg) (b : Nat) (ts : List Nat) : Prop where
  size : cfg'.size = cfg.size
  idom : cfg'.idom = cfg.idom
  succs : ∀ x, cfg'.succs x = if x = b then ts.eraseDups else cfg.succs x
  preds : ∀ x, cfg'.preds x = if x ∈ ts then cfg.preds x ++ [b] else cfg.preds x

theorem eraseDups_concat (ts : List Nat) (t : Nat) :
    (ts ++ [t]).eraseDups = if t ∈ ts then ts.eraseDups else ts.eraseDups ++ [t] := by
  rw [eraseDups_append]
  by_cases ht : t ∈ ts
  · simp [removeAll, ht]
  · simp [removeAll, ht, eraseDups_cons]

theorem Added.concat {cfg' : Cfg} {ts : List Nat} (h : Added cfg cfg' b ts)
    (hb : ∀ x, b ∉ cfg.preds x) (t : BlockId) :
    Added cfg (addEdge cfg' b t) b (ts ++ kept cfg.size [t]) := by
  unfold addEdge
  split_ifs with hskip
  · rw [h.size] at hskip
    rw [kept_singleton_of_not hskip, append_nil]
    exact h
  · rw [h.size] at hskip
    rw [kept_singleton hskip]
    refine ⟨h.size, h.idom, fun x => ?_, fun x => ?_⟩
    · have hmem : t.toNat ∈ cfg'.succs b ↔ t.toNat ∈ ts := by
        simp [h.succs]
      dsimp only
      rw [eraseDups_concat]
      by_cases ht : t.toNat ∈ ts
      · rw [if_pos (hmem.mpr ht), if_pos ht]
        exact h.succs x
      · rw [if_neg (mt hmem.mp ht), if_neg ht]
        by_cases hx : x = b
        · simp [hx, h.succs]
        · simp [h.succs, hx]
    · have hmem : b ∈ cfg'.preds t.toNat ↔ t.toNat ∈ ts := by
        rw [h.preds]
        split_ifs with ht
        · simp [ht]
        · exact iff_of_false (hb _) ht
      dsimp only
      by_cases ht : t.toNat ∈ ts
      · rw [if_pos (hmem.mpr ht), h.preds]
        have hsame : x ∈ ts ++ [t.toNat] ↔ x ∈ ts := by
          rw [mem_append, mem_singleton]
          exact or_iff_left_of_imp fun hx => hx ▸ ht
        simp [hsame]
      · rw [if_neg (mt hmem.mp ht)]
        by_cases hx : x = t.toNat
        · subst hx
          simp [h.preds, ht]
        · rw [update_of_ne hx, h.preds]
          simp [hx]

theorem added_nil (hb : cfg.succs b = []) : Added cfg cfg b [] := by
  refine ⟨rfl, rfl, fun x => ?_, fun x => (if_neg not_mem_nil).symm⟩
  split_ifs with hx
  · rw [hx, hb]
    rfl
  · rfl

theorem added_foldl (hb : cfg.succs b = []) (hpreds : ∀ x, b ∉ cfg.preds x) (ts : List BlockId) :
    Added cfg (ts.foldl (fun cfg t => addEdge cfg b t) cfg) b (kept cfg.size ts) := by
  induction ts using reverseRecOn with
  | nil => exact added_nil hb
  | append_singleton ts t ih =>
    rw [foldl_append, kept_append]
    exact ih.concat hpreds t

/-- Where the last instruction of a block goes. -/
def exits (block : Block) : List BlockId :=
  match block.instructions.1.getLast? with
  | some term => term.targets.map BlockTarget.block
  | none => []

theorem addBlock_eq (cfg : Cfg) (block : Block × Nat) :
    addBlock cfg block =
      (block.1.handler :: exits block.1).foldl (fun cfg t => addEdge cfg block.2 t) cfg := by
  unfold addBlock exits
  cases block.1.instructions.1.getLast? with
  | none => rfl
  | some term =>
    dsimp only
    unfold Instruction.targets
    split_ifs <;> rfl

theorem successors_eq {block : Block} (h : fn.blocks.1[b]? = some block) :
    successors fn b = (kept fn.blocks.1.length (block.handler :: exits block)).eraseDups := by
  unfold successors
  rw [h]
  rfl

/-- After so many blocks, the edges of those blocks. -/
structure EdgesOf (fn : Function) (k : Nat) (cfg : Cfg) : Prop where
  size : cfg.size = fn.blocks.1.length
  idom : cfg.idom = fun _ => none
  succs : ∀ x, cfg.succs x = if x < k then successors fn x else []
  preds : ∀ x, cfg.preds x = (range k).filter fun p => x ∈ successors fn p

theorem EdgesOf.block {k : Nat} {block : Block} (h : EdgesOf fn k cfg)
    (hblock : fn.blocks.1[k]? = some block) : EdgesOf fn (k + 1) (addBlock cfg (block, k)) := by
  have hb : cfg.succs k = [] := by
    simp [h.succs]
  have hpreds : ∀ x, k ∉ cfg.preds x := by
    intro x hmem
    rw [h.preds] at hmem
    exact absurd (mem_range.mp (mem_filter.mp hmem).1) (Nat.lt_irrefl k)
  rw [addBlock_eq]
  obtain ⟨hsize, hidom, hsuccs, hpreds⟩ := added_foldl hb hpreds (block.handler :: exits block)
  have hedges : ∀ x, x ∈ kept cfg.size (block.handler :: exits block) ↔ x ∈ successors fn k := by
    intro x
    simp [successors_eq hblock, h.size]
  refine ⟨hsize.trans h.size, hidom.trans h.idom, fun x => ?_, fun x => ?_⟩
  · rw [hsuccs, h.size]
    split_ifs with hx hlt hlt
    · rw [hx, successors_eq hblock]
    · omega
    · rw [h.succs, if_pos (by omega)]
    · rw [h.succs, if_neg (by omega)]
  · rw [hpreds, range_succ, filter_append, h.preds]
    by_cases hx : x ∈ successors fn k
    · rw [if_pos ((hedges x).mpr hx), filter_cons_of_pos (by simpa using hx)]
      rfl
    · rw [if_neg (mt (hedges x).mp hx), filter_cons_of_neg (by simpa using hx), filter_nil,
      append_nil]

variable (fn : Function)

theorem edgesOf_edges : EdgesOf fn fn.blocks.1.length (edges fn) := by
  suffices ∀ (rest : List Block) (k : Nat) (cfg : Cfg), fn.blocks.1.drop k = rest →
      EdgesOf fn k cfg → EdgesOf fn (k + rest.length) ((rest.zipIdx k).foldl addBlock cfg) by
    have hstart : EdgesOf fn 0 { size := fn.blocks.1.length } :=
      ⟨rfl, rfl, fun _ => rfl, fun _ => rfl⟩
    have hall := this fn.blocks.1 0 _ drop_zero hstart
    rwa [Nat.zero_add] at hall
  intro rest
  induction rest with
  | nil => exact fun k cfg _ h => h
  | cons block rest ih =>
    intro k cfg hrest h
    have hblock : fn.blocks.1[k]? = some block := by
      rw [← head?_drop, hrest]
      rfl
    have hnext : fn.blocks.1.drop (k + 1) = rest := by
      rw [← drop_drop, hrest]
      rfl
    have hdone := ih (k + 1) _ hnext (h.block hblock)
    rw [length_cons, Nat.add_comm rest.length 1, ← Nat.add_assoc]
    exact hdone

/-- **The edges are those of the verifier**, in its order. -/
theorem succs_edges : (edges fn).succs = successors fn := by
  funext x
  rw [(edgesOf_edges fn).succs]
  split_ifs with hx
  · rfl
  · rw [successors, getElem?_eq_none (Nat.not_lt.mp hx)]

theorem preds_edges : (edges fn).preds = predecessors fn :=
  funext (edgesOf_edges fn).preds

end Edges

end Bronze.Lower
