import Bronze.Lower.Cfg

/-!
# The dominators of the guarded regions are exact

The loops of `buildCfg` are those of the verifier, so they end with the immediate dominators of the
function, whatever its edges are. The work list of `naturalLoop` takes in the predecessors of what
it holds, down to the header, which it never goes behind.

## Main results

* `buildCfg_ends`: the graph of a function, after so many rounds
* `naturalLoop_ends`: the blocks of a natural loop
* `buildCfg_exact`: the graph is exact, and the verifier answers as it does
-/

namespace Bronze.Lower

open Il Fixpoint Graph
open List Nat Function Relation.ReflTransGen

/-! ## The loops of the verifier -/

section Loops

variable {α σ : Type} {ε : Type}

theorem toOption_bind {β : Type} (x : Except ε α) (f : α → Except ε β) :
    (x >>= f).toOption = x.toOption >>= fun a => (f a).toOption := by
  cases x <;> rfl

theorem foldlM_toOption (f : σ → α → Except ε σ) (l : List α) (s : σ) :
    l.foldlM (fun s a => (f s a).toOption) s = (l.foldlM f s).toOption := by
  induction l generalizing s with
  | nil => rfl
  | cons a l ih =>
    rw [foldlM_cons, foldlM_cons, toOption_bind]
    exact congrArg _ (funext ih)

theorem toOption_eq_some {x : Except ε α} {a : α} (h : x = .ok a) : x.toOption = some a :=
  congrArg Except.toOption h

variable {succs : Nat → List Nat}

theorem postorderLoop_eq (fuel : Nat) (stack : List (Nat × Nat)) (seen postorder : List Nat) :
    (postorderLoop succs fuel stack seen postorder).map reverse =
      (walk succs fuel stack seen postorder.reverse).toOption := by
  induction fuel generalizing stack seen postorder with
  | zero => cases stack <;> rfl
  | succ fuel ih =>
    cases stack with
    | nil => rfl
    | cons e stack =>
      obtain ⟨block, next⟩ := e
      rw [postorderLoop, walk]
      cases (succs block)[next]? with
      | some succ =>
        dsimp only
        split_ifs
        · exact ih ..
        · exact ih ..
      | none =>
        rw [ih, reverse_append]
        rfl

variable {cfg : Cfg} {rpo : List Nat}

/-- The order of a graph, with the numbers of its blocks. -/
structure OrderedBy (cfg : Cfg) (rpo : List Nat) : Prop where
  rpo_eq : cfg.rpo = rpo
  rpoIndex_eq : ∀ b, cfg.rpoIndex b = if b ∈ rpo then some (rpo.idxOf b) else none

theorem OrderedBy.number_eq (h : OrderedBy cfg rpo) (b : Nat) : cfg.number b = rpoIndex rpo b := by
  rw [Cfg.number, h.rpoIndex_eq, rpoIndex]
  split_ifs <;> rfl

theorem OrderedBy.rpoIndex_eq_none (h : OrderedBy cfg rpo) (b : Nat) :
    cfg.rpoIndex b = none ↔ b ∉ rpo := by
  rw [h.rpoIndex_eq]
  split_ifs with hb <;> simp [hb]

theorem foldl_rpoIndex (hnodup : rpo.Nodup) (b : Nat) :
    rpo.zipIdx.foldl (fun (index : Nat → Option Nat) e => update index e.1 (some e.2))
        (fun _ => none) b =
      if b ∈ rpo then some (rpo.idxOf b) else none := by
  suffices ∀ (l : List Nat) (k : Nat) (index : Nat → Option Nat), l.Nodup →
      (l.zipIdx k).foldl (fun (index : Nat → Option Nat) e =>
          update index e.1 (some e.2)) index b =
        if b ∈ l then some (k + l.idxOf b) else index b by
    rw [this rpo 0 _ hnodup, zero_add]
  intro l
  induction l with
  | nil => exact fun _ _ _ => (if_neg not_mem_nil).symm
  | cons a l ih =>
    intro k index hl
    obtain ⟨ha, hl⟩ := nodup_cons.mp hl
    rw [zipIdx_cons, foldl_cons, ih (k + 1) _ hl]
    by_cases hb : b = a
    · subst hb
      rw [if_neg ha, if_pos (mem_cons_self ..), idxOf_cons_self, update_self]
      rfl
    · have hmem : b ∈ a :: l ↔ b ∈ l := by
        rw [mem_cons]
        exact or_iff_right hb
      simp only [hmem, idxOf_cons_ne l (Ne.symm hb), update_of_ne hb]
      split_ifs
      · exact congrArg some (by omega)
      · rfl

section

variable (h : OrderedBy cfg rpo)

include h

variable (idom : Nat → Option Nat)

theorem intersect_eq (fuel a b : Nat) :
    intersect cfg idom fuel a b = (intersectIdom rpo idom fuel a b).toOption := by
  induction fuel generalizing a b with
  | zero => rfl
  | succ fuel ih =>
    rw [intersect, intersectIdom, h.number_eq, h.number_eq]
    split_ifs
    · rfl
    · cases idom a with
      | none => rfl
      | some p => exact ih p b
    · cases idom b with
      | none => rfl
      | some p => exact ih a p
    · exact ih a b

theorem newIdom_eq (fuel : Nat) (preds : List Nat) :
    newIdom cfg idom fuel preds = (meetPredecessors rpo idom fuel preds).toOption := by
  rw [meetPredecessors, ← foldlM_toOption, newIdom]
  congr 1
  funext new p
  simp only [h.rpoIndex_eq_none]
  split_ifs
  · rfl
  · cases new with
    | none => rfl
    | some q =>
      dsimp only
      rw [intersect_eq h]
      cases intersectIdom rpo idom fuel q p <;> rfl

theorem improve_eq (fuel : Nat) (s : (Nat → Option Nat) × Bool) (b : Nat) :
    improve cfg fuel s b = (updateIdom cfg.preds rpo fuel s b).toOption := by
  unfold improve updateIdom
  split_ifs with hb
  · rfl
  · rw [newIdom_eq h, toOption_bind]
    congr 1
    funext new
    split_ifs <;> rfl

/-- **The passes are those of the verifier.** -/
theorem passes_eq (fuel rounds : Nat) (idom : Nat → Option Nat) :
    passes cfg fuel rounds idom =
      (untilUnchanged .unfinished
        (fun idom => rpo.foldlM (updateIdom cfg.preds rpo fuel) (idom, false)) rounds
          idom).toOption := by
  induction rounds generalizing idom with
  | zero => rfl
  | succ rounds ih =>
    have hpass : improve cfg fuel = fun s b => (updateIdom cfg.preds rpo fuel s b).toOption :=
      funext fun s => funext fun b => improve_eq h fuel s b
    rw [passes, untilUnchanged, h.rpo_eq, hpass, foldlM_toOption]
    cases rpo.foldlM (updateIdom cfg.preds rpo fuel) (idom, false) with
    | error e => rfl
    | ok r =>
      obtain ⟨idom', changed⟩ := r
      cases changed with
      | true => exact ih idom'
      | false => rfl

end

theorem climb_eq {a : Analysis} (ha : a.idom = cfg.idom) (b fuel : Nat) (cur : Option Nat) :
    cfg.climb b fuel cur = (a.climbsTo b fuel cur).toOption := by
  induction fuel generalizing cur with
  | zero => cases cur <;> rfl
  | succ fuel ih =>
    cases cur with
    | none => rfl
    | some c =>
      rw [Cfg.climb, Analysis.climbsTo, ha]
      split_ifs
      · rfl
      · exact ih _

end Loops

/-- The graph of a function: its edges, the order of its blocks, and their immediate dominators. -/
structure Built (fn : Function) (cfg : Cfg) (rpo : List Nat) (idom : Nat → Option Nat) : Prop where
  size : cfg.size = fn.blocks.1.length
  preds : cfg.preds = predecessors fn
  ordered : OrderedBy cfg rpo
  idom : cfg.idom = update idom 0 none

/-- **`buildCfg` ends**, with a graph that has the dominators the verifier computes. -/
theorem buildCfg_ends {fn : Function} (hblocks : fn.blocks.1 ≠ []) :
    ∃ rounds cfg rpo idom, Built fn cfg rpo idom ∧ Order fn rpo ∧ Dominators fn rpo idom ∧
      ∀ fuel, rounds ≤ fuel → buildCfg fn fuel = some cfg ∧
        reversePostorder fn fuel = .ok rpo ∧
          immediateDominators (predecessors fn) rpo fuel = .ok idom := by
  obtain ⟨rounds, rpo, idom, ho, hidom, hends⟩ := immediateDominators_ends fn
  have hedges := edgesOf_edges fn
  have hsize : (edges fn).size ≠ 0 := by
    rw [hedges.size]
    exact fun h => hblocks (length_eq_zero_iff.mp h)
  let cfg : Cfg := { edges fn with
    rpo
    rpoIndex := rpo.zipIdx.foldl (fun index e => update index e.1 (some e.2))
      fun _ => none }
  have hordered : OrderedBy cfg rpo := ⟨rfl, foldl_rpoIndex ho.nodup⟩
  refine ⟨rounds, { cfg with idom := update idom 0 none }, rpo, idom,
    ⟨hedges.size, preds_edges fn, ⟨rfl, hordered.rpoIndex_eq⟩, rfl⟩, ho, hidom,
      fun fuel hfuel => ?_⟩
  obtain ⟨hwalk, hrun⟩ := hends fuel hfuel
  refine ⟨?_, hwalk, hrun⟩
  have hrpo : computeRpo fuel (edges fn) = some cfg := by
    have hwalk' : walk (edges fn).succs fuel [(0, 0)] [0] [] = .ok rpo := by
      rw [succs_edges]
      exact hwalk
    have hloop :
        (postorderLoop (edges fn).succs fuel [(0, 0)] [0] []).map reverse = some rpo :=
      (postorderLoop_eq ..).trans (toOption_eq_some hwalk')
    obtain ⟨postorder, hpost, rfl⟩ := Option.map_eq_some_iff.mp hloop
    rw [computeRpo, if_neg hsize, hpost]
    rfl
  have hne : ¬cfg.rpo = [] := by
    intro hnil
    have hentry : 0 ∈ rpo := (ho.mem_iff 0).mpr .refl
    rw [show rpo = [] from hnil] at hentry
    cases hentry
  have hpasses : passes cfg fuel fuel (update cfg.idom 0 (some 0)) = some idom := by
    rw [passes_eq hordered, show cfg.preds = predecessors fn from preds_edges fn,
      show cfg.idom = fun _ => none from hedges.idom]
    exact toOption_eq_some hrun
  rw [buildCfg, hrpo]
  change (if cfg.rpo = [] then some cfg else do
    let idom ← passes cfg fuel fuel (update cfg.idom 0 (some 0))
    return { cfg with idom := update idom 0 none }) = _
  rw [if_neg hne, hpasses]
  rfl

/-! ## Natural loops -/

section NaturalLoop

variable {fn : Function} {header tail n : Nat} {inLoop work : List Nat}

/-- What holds between two turns of the work list: what was collected leads to the tail past the
header, and what is not on the list has its predecessors collected. -/
structure Collected (fn : Function) (header tail : Nat) (inLoop work : List Nat) : Prop where
  header_mem : header ∈ inLoop
  tail_mem : tail ∈ inLoop
  sound : ∀ x ∈ inLoop, x ≠ header → Avoids (Follows fn) header x tail
  waits : ∀ x ∈ work, x ∈ inLoop ∧ x ≠ header
  closed : ∀ x ∈ inLoop, x ≠ header → x ∉ work → ∀ p ∈ predecessors fn x, p ∈ inLoop

/-- How much there is left to collect. -/
def uncollected (n : Nat) (inLoop : List Nat) : Nat := ((Finset.range n).filter (· ∉ inLoop)).card

theorem uncollected_cons {p : Nat} (hp : p < n) (hnot : p ∉ inLoop) :
    uncollected n (p :: inLoop) + 1 = uncollected n inLoop := by
  have herase : (Finset.range n).filter (· ∉ p :: inLoop) =
      ((Finset.range n).filter (· ∉ inLoop)).erase p := by
    ext b
    simp only [Finset.mem_filter, Finset.mem_erase, mem_cons, not_or]
    tauto
  rw [uncollected, herase]
  exact Finset.card_erase_add_one (by simp [hp, hnot])

theorem foldl_enterLoop (inLoop work : List Nat) {ps : List Nat} (hps : ∀ p ∈ ps, p < n) :
    (∀ x, x ∈ (ps.foldl enterLoop (inLoop, work)).1 ↔ x ∈ inLoop ∨ x ∈ ps) ∧
      (∀ x, x ∈ (ps.foldl enterLoop (inLoop, work)).2 ↔ x ∈ work ∨ x ∈ ps ∧ x ∉ inLoop) ∧
        (ps.foldl enterLoop (inLoop, work)).2.length +
            uncollected n (ps.foldl enterLoop (inLoop, work)).1 =
          work.length + uncollected n inLoop := by
  induction ps generalizing inLoop work with
  | nil => simp
  | cons p ps ih =>
    obtain ⟨hp, hps⟩ := forall_mem_cons.mp hps
    rw [foldl_cons, enterLoop]
    by_cases hmem : p ∈ inLoop
    · rw [if_pos hmem]
      obtain ⟨hin, hwork, hcount⟩ := ih inLoop work hps
      refine ⟨fun x => ?_, fun x => ?_, hcount⟩
      · rw [hin, mem_cons]
        constructor
        · exact fun h => h.imp_right .inr
        · rintro (h | rfl | h)
          · exact .inl h
          · exact .inl hmem
          · exact .inr h
      · rw [hwork, mem_cons]
        constructor
        · exact fun h => h.imp_right fun h => ⟨.inr h.1, h.2⟩
        · rintro (h | ⟨rfl | h, hnot⟩)
          · exact .inl h
          · exact absurd hmem hnot
          · exact .inr ⟨h, hnot⟩
    · rw [if_neg hmem]
      obtain ⟨hin, hwork, hcount⟩ := ih (p :: inLoop) (p :: work) hps
      have hless := uncollected_cons hp hmem
      refine ⟨fun x => ?_, fun x => ?_, ?_⟩
      · rw [hin, mem_cons, mem_cons]
        tauto
      · rw [hwork, mem_cons, mem_cons, mem_cons]
        constructor
        · rintro ((rfl | h) | ⟨h, hnot⟩)
          · exact .inr ⟨.inl rfl, hmem⟩
          · exact .inl h
          · exact .inr ⟨.inr h, fun hx => hnot (.inr hx)⟩
        · rintro (h | ⟨rfl | h, hnot⟩)
          · exact .inl (.inr h)
          · exact .inl (.inl rfl)
          · by_cases hx : x = p
            · exact .inl (.inl hx)
            · exact .inr ⟨h, fun hor => hor.elim hx hnot⟩
      · rw [hcount, length_cons]
        omega

theorem predecessors_lt (fn : Function) (x : Nat) : ∀ p ∈ predecessors fn x,
    p < fn.blocks.1.length := fun _ hp =>
  mem_range.mp (mem_filter.mp hp).1

theorem Collected.turn {b : Nat} (h : Collected fn header tail inLoop (b :: work)) :
    Collected fn header tail ((predecessors fn b).foldl enterLoop (inLoop, work)).1
      ((predecessors fn b).foldl enterLoop (inLoop, work)).2 := by
  obtain ⟨hin, hwork, -⟩ := foldl_enterLoop inLoop work (predecessors_lt fn b)
  obtain ⟨hb, hbne⟩ := h.waits b (mem_cons_self ..)
  refine ⟨(hin _).mpr (.inl h.header_mem), (hin _).mpr (.inl h.tail_mem), ?_, ?_, ?_⟩
  · intro x hx hne
    rcases (hin x).mp hx with hx | hx
    · exact h.sound x hx hne
    · -- an edge to the block, and on from there
      obtain ⟨-, hpath⟩ := h.sound b hb hbne
      exact ⟨hne, .head ⟨mem_predecessors.mp hx, hbne⟩ hpath⟩
  · intro x hx
    rcases (hwork x).mp hx with hx | ⟨hx, hnot⟩
    · obtain ⟨hmem, hne⟩ := h.waits x (mem_cons_of_mem b hx)
      exact ⟨(hin x).mpr (.inl hmem), hne⟩
    · refine ⟨(hin x).mpr (.inr hx), ?_⟩
      rintro rfl
      exact hnot h.header_mem
  · intro x hx hne hnot p hp
    by_cases hxb : x = b
    · exact (hin p).mpr (.inr (hxb ▸ hp))
    · have hold : x ∈ inLoop := by
        by_contra hnew
        exact hnot ((hwork x).mpr (.inr ⟨((hin x).mp hx).resolve_left hnew, hnew⟩))
      refine (hin p).mpr (.inl (h.closed x hold hne ?_ p hp))
      intro hmem
      exact hnot ((hwork x).mpr (.inl ((mem_cons.mp hmem).resolve_left hxb)))

/-- **The work list runs empty.** -/
theorem collect_ends (h : Collected fn header tail inLoop work) :
    ∃ out, Collected fn header tail out [] ∧
      ∀ fuel, work.length + uncollected fn.blocks.1.length inLoop ≤ fuel →
        collect (predecessors fn) fuel inLoop work = some out := by
  induction hm : work.length + uncollected fn.blocks.1.length inLoop using Nat.strongRecOn
    generalizing inLoop work with
  | ind m ih =>
    subst hm
    cases work with
    | nil =>
      refine ⟨inLoop, h, fun fuel _ => ?_⟩
      cases fuel <;> rfl
    | cons b work =>
      obtain ⟨-, -, hcount⟩ := foldl_enterLoop inLoop work (predecessors_lt fn b)
      obtain ⟨out, hout, hrun⟩ := ih _ (by rw [length_cons]; omega) h.turn rfl
      refine ⟨out, hout, fun fuel hfuel => ?_⟩
      rw [length_cons] at hfuel
      obtain ⟨fuel, rfl⟩ := exists_eq_succ_of_ne_zero (by omega : fuel ≠ 0)
      exact hrun fuel (by rw [hcount]; omega)

theorem Collected.mem_iff (h : Collected fn header tail inLoop []) (x : Nat) :
    x ∈ inLoop ↔ x = header ∨ Avoids (Follows fn) header x tail := by
  constructor
  · intro hx
    by_cases hne : x = header
    · exact .inl hne
    · exact .inr (h.sound x hx hne)
  · rintro (rfl | ⟨hne, hpath⟩)
    · exact h.header_mem
    · induction hpath using head_induction_on with
      | refl => exact h.tail_mem
      | head hedge _ ih =>
        exact h.closed _ (ih hedge.2) hedge.2 not_mem_nil _ (mem_predecessors.mpr hedge.1)

theorem follows_lt {b c : Nat} (h : Follows fn b c) : b < fn.blocks.1.length := by
  by_contra hlt
  rw [Follows, successors, getElem?_eq_none (not_lt.mp hlt)] at h
  cases h

/-- **A natural loop** has the blocks that reach its tail past its header, and the header. -/
theorem naturalLoop_ends {cfg : Cfg} {rpo : List Nat} {idom : Nat → Option Nat}
    (hcfg : Built fn cfg rpo idom) (hedge : Follows fn tail header) :
    ∃ loop, (∀ x, x ∈ loop ↔ x = header ∨ Avoids (Follows fn) header x tail) ∧
      ∀ fuel, fn.blocks.1.length + 1 ≤ fuel → naturalLoop cfg fuel header tail = some loop := by
  have htail : tail < fn.blocks.1.length := follows_lt hedge
  have hheader : header < fn.blocks.1.length := successors_lt tail header hedge
  have hlt : ∀ x, x = header ∨ Avoids (Follows fn) header x tail → x < fn.blocks.1.length := by
    rintro x (rfl | ⟨-, hpath⟩)
    · exact hheader
    · cases hpath using head_induction_on with
      | refl => exact htail
      | head hedge _ => exact follows_lt hedge.1
  have hall : ∀ l, uncollected fn.blocks.1.length l ≤ fn.blocks.1.length := fun l =>
    (Finset.card_filter_le ..).trans_eq (Finset.card_range _)
  suffices ∃ out, (∀ x, x ∈ out ↔ x = header ∨ Avoids (Follows fn) header x tail) ∧
      ∀ fuel, fn.blocks.1.length + 1 ≤ fuel →
        collect cfg.preds fuel (if tail ≠ header then ([tail, header], [tail]) else
          ([header], [])).1
          (if tail ≠ header then ([tail, header], [tail]) else ([header], [])).2 = some out by
    obtain ⟨out, hout, hrun⟩ := this
    refine ⟨(range cfg.size).filter (· ∈ out), fun x => ?_, fun fuel hfuel => ?_⟩
    · rw [mem_filter, mem_range, decide_eq_true_iff, hout, hcfg.size]
      exact and_iff_right_of_imp (hlt x)
    · unfold naturalLoop
      dsimp only
      rw [hrun fuel hfuel]
      rfl
  rw [hcfg.preds]
  by_cases hne : tail ≠ header
  · have hstart : Collected fn header tail [tail, header] [tail] := by
      refine ⟨by simp, by simp, ?_, ?_, ?_⟩
      · intro x hx hx'
        rcases mem_cons.mp hx with rfl | hx
        · exact .refl hne
        · exact absurd (mem_singleton.mp hx) hx'
      · intro x hx
        rw [mem_singleton.mp hx]
        exact ⟨mem_cons_self .., hne⟩
      · intro x hx hx' hnot
        rcases mem_cons.mp hx with rfl | hx
        · exact absurd (mem_singleton_self _) hnot
        · exact absurd (mem_singleton.mp hx) hx'
    obtain ⟨out, hout, hrun⟩ := collect_ends hstart
    refine ⟨out, hout.mem_iff, fun fuel hfuel => ?_⟩
    rw [if_pos hne]
    have hle := hall [tail, header]
    exact hrun fuel (by rw [length_singleton]; omega)
  · -- a block that goes back to itself
    obtain rfl := not_not.mp hne
    refine ⟨[tail], fun x => ?_, fun fuel _ => ?_⟩
    · rw [mem_singleton]
      exact (or_iff_left fun havoid => havoid.ne rfl).symm
    · rw [if_neg hne]
      cases fuel <;> rfl

end NaturalLoop

/-- After so many rounds: `dominates` answers whether every path to a block that is reached passes
through another, the dominators of the verifier give the same answer, and a natural loop has the
blocks that reach its tail past its header, and its header. -/
structure Cfg.Exact (fn : Function) (cfg : Cfg) (rounds : Nat) : Prop where
  dominates : ∀ a b fuel, b < fn.blocks.1.length → Relation.ReflTransGen (Follows fn) 0 b →
    rounds ≤ fuel → ∃ r, cfg.dominates fuel a b = some r ∧
      (r = true ↔ Dominates (Follows fn) 0 a b)
  verifier : ∀ fuel, 0 < fn.blocks.1.length → rounds ≤ fuel → ∃ rpo idom,
    reversePostorder fn fuel = .ok rpo ∧
      immediateDominators (predecessors fn) rpo fuel = .ok idom ∧
        ∀ defs a b, b < fn.blocks.1.length → Relation.ReflTransGen (Follows fn) 0 b →
          ∃ r, Analysis.dominates ⟨fn, defs, rpo, update idom 0 none, fuel⟩ a b = .ok r ∧
            cfg.dominates fuel a b = some r
  naturalLoop : ∀ header tail fuel, Follows fn tail header →
    cfg.dominates fuel header tail = some true → rounds ≤ fuel → ∃ loop,
      naturalLoop cfg fuel header tail = some loop ∧
        ∀ b, b ∈ loop ↔ b = header ∨ Avoids (Follows fn) header b tail

section Exact

variable {fn : Function} {cfg : Cfg} {rpo : List Nat} {idom : Nat → Option Nat}

theorem Built.dominates_iff (hcfg : Built fn cfg rpo idom) (ho : Order fn rpo)
    (hidom : Dominators fn rpo idom) {a b fuel : Nat} (hb : b < fn.blocks.1.length)
    (hreach : Relation.ReflTransGen (Follows fn) 0 b) (hfuel : rpo.length < fuel) :
    ∃ r, cfg.dominates fuel a b = some r ∧ (r = true ↔ Dominates (Follows fn) 0 a b) := by
  unfold Cfg.dominates
  by_cases hab : a = b
  · subst hab
    exact ⟨true, if_pos rfl, iff_of_true rfl fun havoid => havoid.ne rfl⟩
  have hknown : ¬(cfg.size ≤ b ∨ cfg.rpoIndex b = none) := by
    rw [hcfg.size, hcfg.ordered.rpoIndex_eq_none, (not_congr (ho.mem_iff b))]
    exact not_or.mpr ⟨not_le.mpr hb, not_not.mpr hreach⟩
  rw [if_neg hab, if_neg hknown, climb_eq (a := ⟨fn, [], rpo, cfg.idom, fuel⟩) rfl]
  obtain ⟨r, hr, hiff⟩ := climbsTo_dominates_iff (a := ⟨fn, [], rpo, cfg.idom, fuel⟩) ho hidom
    hcfg.idom hab hreach hfuel
  exact ⟨r, toOption_eq_some hr, hiff⟩

end Exact

/-- **The dominators are exact**, for every function: the graph is built after so many rounds, and
what it and the verifier say of the dominators and of the natural loops is what holds of the
paths. -/
theorem buildCfg_exact (fn : Function) :
    ∃ rounds cfg, (∀ fuel, rounds ≤ fuel → buildCfg fn fuel = some cfg) ∧ cfg.Exact fn rounds := by
  by_cases hblocks : fn.blocks.1 = []
  · -- without a block there is nothing to say
    have hnone : ∀ b, ¬b < fn.blocks.1.length := by
      rw [hblocks]
      exact not_lt_zero
    have hedges : edges fn = { size := fn.blocks.1.length } := by
      rw [edges, hblocks]
      rfl
    refine ⟨0, edges fn, fun fuel _ => ?_, fun a b _ hb => absurd hb (hnone b),
      fun _ hpos => absurd hpos (hnone 0), fun _ tail _ hedge => absurd (follows_lt hedge)
        (hnone tail)⟩
    have hrpo : computeRpo fuel (edges fn) = some (edges fn) := by
      rw [computeRpo, hedges, if_pos (by rw [hblocks]; rfl)]
    rw [buildCfg, hrpo]
    change (if (edges fn).rpo = [] then some (edges fn) else _) = _
    rw [if_pos (by rw [hedges])]
  · obtain ⟨rounds, cfg, rpo, idom, hcfg, ho, hidom, hends⟩ := buildCfg_ends hblocks
    refine ⟨rounds + rpo.length + fn.blocks.1.length + 1, cfg,
      fun fuel hfuel => (hends fuel (by omega)).1, ?_, ?_, ?_⟩
    · exact fun a b fuel hb hreach hfuel => hcfg.dominates_iff ho hidom hb hreach (by omega)
    · intro fuel _ hfuel
      obtain ⟨-, hwalk, hrun⟩ := hends fuel (by omega)
      refine ⟨rpo, idom, hwalk, hrun, fun defs a b hb hreach => ?_⟩
      obtain ⟨r, hr, hiff⟩ := dominates_exact ho hidom defs (b := a) hb hreach
        (by omega : rpo.length < fuel)
      obtain ⟨r', hr', hiff'⟩ := hcfg.dominates_iff ho hidom (a := a) hb hreach
        (by omega : rpo.length < fuel)
      have hsame : r = r' := Bool.eq_iff_iff.mpr (hiff.trans hiff'.symm)
      exact ⟨r, hr, hsame ▸ hr'⟩
    · intro header tail fuel hedge _ hfuel
      obtain ⟨loop, hmem, hrun⟩ := naturalLoop_ends hcfg hedge
      exact ⟨loop, hrun fuel (by omega), hmem⟩

end Bronze.Lower
