import Bronze.Table.RememberedSet

/-!
# The remembered sets of the module tables

The roots a thread keeps outside the heap: the spans of cells its modules registered, and the
function singletons. A minor collection visits those on two sets (`root_remset.h`), which every
writer, every registration and every drop has to keep up. Addresses count words.

## Main definitions

* `ThreadModuleState`: the tables, with the memory and the words that are young
* `Step`, `Reachable`: what is done to them, in any order

## Main results

* `verification_silent`: the check of a verifying pass never stops the process
* `minor_visits_roots`: a pass forwards every root, and writes to nothing that was dropped
* `minor_sets_exact`: the sets after a pass
-/

namespace Bronze.Gc

open RememberedSet

abbrev Word := UInt64

structure SingletonEntry where
  code : Word
  value : Word
  epoch : Nat
  realm : Nat

structure ModuleSpan where
  cells : Nat
  count : Nat
  epoch : Nat

/-- The tables whose cells only the runtime writes to. -/
inductive Table
  | moduleRememberedCells
  | globalCacheSpans
  | moduleFnSlots
  deriving DecidableEq

namespace Table

def name : Table → String
  | moduleRememberedCells => "a module's template or method-site env"
  | globalCacheSpans => "a module's global cache"
  | moduleFnSlots => "a module's fn slot"

/-- The words of a cell, of which the last is the value. -/
def words : Table → Nat
  | moduleFnSlots => 2
  | _ => 1

end Table

structure ThreadModuleState where
  memory : Nat → Word
  /-- `gcHoldsYoung` -/
  young : Word → Bool
  functionSingletons : List SingletonEntry := []
  functionSingletonIndex : Word × Nat → Option Nat := fun _ => none
  moduleValueCells : List ModuleSpan := []
  moduleRememberedCells : List ModuleSpan := []
  moduleFnSlots : List ModuleSpan := []
  globalCacheSpans : List ModuleSpan := []
  youngCells : List Nat := []
  youngSingletons : List Nat := []
  rememberedRanges : List (Nat × Nat) := []
  rememberedRangesStale : Bool := true

/-- `BRONZE_ABI_HOLE_BITS` -/
def kHole : Word := 0xFFF7000000000000

/-- The cells that are visited through a pointer. -/
def cellSlots : Slots (Nat → Word) Nat Word where
  get m c := some (m c)
  modify c f m := Function.update m c (f (m c))
  get_modify c f m d := by
    by_cases h : d = c
    · subst h; simp
    · simp [h]

def singletonSlots : Slots (List SingletonEntry) Nat Word where
  get es i := es[i]?.map (·.value)
  modify i f es := es.modify i fun e => { e with value := f e.value }
  get_modify i f es j := by
    by_cases h : j = i
    · subst h; simp [Function.comp_def]
    · simp [h, Ne.symm h]

def rtRootRemsetMissText (table : String) (index : Nat) (bits : Word) : String :=
  "root remembered set: " ++ table ++ " cell " ++ toString index ++
    " holds the young reference 0x" ++
    String.ofList ((Nat.toDigits 16 bits.toNat).leftpad 16 '0') ++
    " but is on no remembered set (a writer of the table missed it; runtime/root_remset.h)"

namespace ThreadModuleState

variable (s : ThreadModuleState)

def table : Table → List ModuleSpan
  | .moduleRememberedCells => s.moduleRememberedCells
  | .globalCacheSpans => s.globalCacheSpans
  | .moduleFnSlots => s.moduleFnSlots

/-- The remembered spans. -/
def spans : List (Table × ModuleSpan) :=
  [.moduleRememberedCells, .globalCacheSpans, .moduleFnSlots].flatMap fun table =>
    (s.table table).map (table, ·)

/-- The values of a span, with their indices. A slot counts if it has a code. -/
def values (p : Table × ModuleSpan) : List (Nat × Nat) :=
  ((List.range p.2.count).filter fun i =>
    p.1.words = 1 ∨ s.memory (p.2.cells + p.1.words * i) ≠ 0).map fun i =>
      (p.2.cells + p.1.words * i + (p.1.words - 1), i)

def rebuildRanges : ThreadModuleState :=
  { s with
    rememberedRanges := (s.spans.map fun (table, span) =>
      (span.cells, span.cells + span.count * table.words)).mergeSort fun r r' =>
        r.1 < r'.1 ∨ r.1 = r'.1 ∧ r.2 ≤ r'.2
    rememberedRangesStale := false }

def freshRanges : ThreadModuleState := if s.rememberedRangesStale then s.rebuildRanges else s

/-- `inRememberedSpan`, with ranges that are not stale. The last range that starts at or below the
cell decides. -/
def inRememberedSpan (cell : Nat) : Bool :=
  (s.rememberedRanges.filter (·.1 ≤ cell)).getLast?.any (cell < ·.2)

/-- The end of `moduleRemsetSpanAdded` and `moduleRemsetFnSlotsAdded`. -/
def addYoung (cells : List (Nat × Nat)) : ThreadModuleState :=
  { s with
    rememberedRangesStale := true
    youngCells := cells.foldl
      (fun set c => if s.young (s.memory c.1) then add set c.1 else set) s.youngCells }

def moduleRemsetSpanAdded (span : ModuleSpan) : ThreadModuleState :=
  s.addYoung (s.values (.moduleRememberedCells, span))

def moduleRemsetFnSlotsAdded (span : ModuleSpan) : ThreadModuleState :=
  s.addYoung (s.values (.moduleFnSlots, span))

def moduleRemsetSpansDropped : ThreadModuleState :=
  let s := s.rebuildRanges
  { s with youngCells := s.youngCells.filter s.inRememberedSpan }

def moduleRemsetSingletonsChanged : ThreadModuleState :=
  { s with
    youngSingletons := ((List.range s.functionSingletons.length).filter fun i =>
      s.functionSingletons[i]?.any (s.young ·.value)).map (· % 2 ^ 32) }

def moduleRemsetNoteCell (cell : Nat) : ThreadModuleState :=
  if s.young (s.memory cell) then
    let s := s.freshRanges
    if s.inRememberedSpan cell then { s with youngCells := add s.youngCells cell } else s
  else s

def moduleTablesRemsetCheck : Option String :=
  (s.spans.findSome? fun p => (s.values p).findSome? fun (c, i) =>
    if s.young (s.memory c) ∧ c ∉ s.youngCells then
      some (rtRootRemsetMissText p.1.name i (s.memory c))
    else none).or
  (s.functionSingletons.zipIdx.findSome? fun (e, i) =>
    if s.young e.value ∧ i % 2 ^ 32 ∉ s.youngSingletons then
      some (rtRootRemsetMissText "the function singletons" i e.value)
    else none)

/-- A visit to every cell of some spans. -/
def visitSpans (visit : Word → Word) (spans : List ModuleSpan) : Nat → Word :=
  cellSlots.visitAll visit (spans.flatMap fun span => List.range' span.cells span.count) s.memory

/-- What a minor pass visits; `visit` and `young` are the tracer's. -/
def visitSets (visit : Word → Word) (young : Word → Bool) : ThreadModuleState :=
  let cells := cellSlots.visitMinor visit young s.youngCells (s.visitSpans visit s.moduleValueCells)
  let entries := singletonSlots.visitMinor visit young s.youngSingletons s.functionSingletons
  { s with
    memory := cells.1
    young
    youngCells := cells.2
    functionSingletons := entries.1
    youngSingletons := entries.2 }

/-- A verifying pass checks first, and may stop the process. -/
def moduleTablesVisitMinor (verifying : Bool) (visit : Word → Word) (young : Word → Bool) :
    Except String ThreadModuleState :=
  match if verifying then s.moduleTablesRemsetCheck else none with
  | some miss => .error miss
  | none => .ok (s.visitSets visit young)

/-! ## Registrations, writers and drops -/

def bronze_register_value_cells (cells count epoch : Nat) : ThreadModuleState :=
  if cells = 0 ∨ count = 0 then s
  else { s with moduleValueCells := s.moduleValueCells ++ [⟨cells, count, epoch⟩] }

/-- A span joins the template cells and the method-site env words. -/
def remember (span : ModuleSpan) : ThreadModuleState :=
  moduleRemsetSpanAdded { s with moduleRememberedCells := s.moduleRememberedCells ++ [span] } span

def bronze_register_template_cells (cells count epoch : Nat) : ThreadModuleState :=
  if cells = 0 ∨ count = 0 then s else s.remember ⟨cells, count, epoch⟩

def bronze_register_fn_slots (cells count epoch : Nat) : ThreadModuleState :=
  if cells = 0 ∨ count = 0 then s
  else
    moduleRemsetFnSlotsAdded
      { s with moduleFnSlots := s.moduleFnSlots ++ [⟨cells, count, epoch⟩] } ⟨cells, count, epoch⟩

/-- A site has twelve words; words 3 and 9 are the envs. -/
def bronze_register_method_ic_cells (icTable : Nat) (siteIndexes : List Nat) (epoch : Nat) :
    ThreadModuleState :=
  if icTable = 0 then s
  else (siteIndexes.flatMap fun site => [icTable + site * 12 + 3, icTable + site * 12 + 9]).foldl
    (fun s word => s.remember ⟨word, 1, epoch⟩) s

/-- A store that is noted: `rtNoteRootCellWrite` after `*cell = w`. -/
def rtNoteRootCellWrite (cell : Nat) (w : Word) : ThreadModuleState :=
  if cell = 0 then s
  else moduleRemsetNoteCell { s with memory := Function.update s.memory cell w } cell

/-- The env words as the latch left them. -/
def latchMethodIcAndNote (icEntry : Nat) (env env' : Word) : ThreadModuleState :=
  (moduleRemsetNoteCell
    { s with
      memory := Function.update (Function.update s.memory (icEntry + 9) env') (icEntry + 3) env }
    (icEntry + 3)).moduleRemsetNoteCell (icEntry + 9)

/-- The span of a cache is registered at its first use. -/
def rememberGlobals (cells count epoch : Nat) : ThreadModuleState :=
  if s.globalCacheSpans.any (·.cells = cells) then s
  else
    let ends (span : ModuleSpan) : Bool := span.cells + span.count = cells
    let span := ⟨cells, count, ((s.moduleRememberedCells.find? ends).or
      (s.moduleValueCells.find? ends)).elim epoch (·.epoch)⟩
    moduleRemsetSpanAdded { s with globalCacheSpans := s.globalCacheSpans ++ [span] } span

/-- `resolved` is there when it may be cached. -/
def bronze_global_get_cached (cells count slot epoch : Nat) (resolved : Option Word) :
    ThreadModuleState :=
  if cells ≠ 0 ∧ slot < count then
    let s := s.rememberGlobals cells count epoch
    resolved.elim s (s.rtNoteRootCellWrite (cells + slot))
  else s

/-- `fresh` is the function a miss creates. -/
def bronze_function_singleton (code : Word) (realm epoch : Nat) (fresh : Word) (slotCell : Nat) :
    ThreadModuleState :=
  let n := s.functionSingletons.length
  let (s, result) :=
    match s.functionSingletonIndex (code, realm) with
    | some i => (s, s.functionSingletons[i]?.elim 0 (·.value))
    | none =>
      ({ s with
          functionSingletons := s.functionSingletons ++ [⟨code, fresh, epoch, realm⟩]
          functionSingletonIndex :=
            Function.update s.functionSingletonIndex (code, realm) (some n)
          youngSingletons :=
            if s.young fresh then add s.youngSingletons (n % 2 ^ 32) else s.youngSingletons },
        fresh)
  if slotCell = 0 then s
  else
    moduleRemsetNoteCell
      { s with
        memory := Function.update (Function.update s.memory slotCell code) (slotCell + 1) result }
      (slotCell + 1)

def rtInvalidateGlobalCaches : ThreadModuleState :=
  { s with memory := s.visitSpans (fun _ => kHole) s.globalCacheSpans }

def retainSpans (keep : ModuleSpan → Bool) : ThreadModuleState :=
  moduleRemsetSpansDropped
    { s with
      moduleValueCells := s.moduleValueCells.filter keep
      moduleRememberedCells := s.moduleRememberedCells.filter keep
      moduleFnSlots := s.moduleFnSlots.filter keep
      globalCacheSpans := s.globalCacheSpans.filter keep }

def rtDropModuleCellsWithin (first size : Nat) : ThreadModuleState :=
  if first = 0 ∨ size = 0 then s
  else s.retainSpans fun span => !(first ≤ span.cells && span.cells < first + size)

def reindex (index : Word × Nat → Option Nat) (entries : List SingletonEntry) :
    Word × Nat → Option Nat :=
  entries.zipIdx.foldl (fun index (e, i) => Function.update index (e.code, e.realm) (some i)) index

def rtDropRealmFunctionSingletons (realm : Nat) : ThreadModuleState :=
  let entries := s.functionSingletons.filter (·.realm ≠ realm)
  if realm = 0 ∨ entries.length = s.functionSingletons.length then s
  else
    moduleRemsetSingletonsChanged
      { s with
        functionSingletons := entries
        functionSingletonIndex := reindex (fun _ => none) entries }

/-- The codes `dropModuleSpansAndSingletons` takes out of the index. -/
def droppedCodes (epoch : Nat) : List Word :=
  ((s.moduleFnSlots.filter (·.epoch = epoch)).flatMap fun span =>
    ((List.range span.count).map fun i => s.memory (span.cells + 2 * i)).filter (· ≠ 0)) ++
  (s.functionSingletons.filter (·.epoch = epoch)).map (·.code)

def rtDropModuleEpoch (epoch : Nat) : ThreadModuleState :=
  if epoch = 0 then s
  else
    let codes := s.droppedCodes epoch
    let index := fun k => if k.1 ∈ codes then none else s.functionSingletonIndex k
    let entries := s.functionSingletons.filter fun e =>
      e.epoch ≠ epoch ∧ (index (e.code, e.realm)).isSome
    moduleRemsetSingletonsChanged
      (retainSpans
        { s with functionSingletons := entries, functionSingletonIndex := reindex index entries }
        (·.epoch ≠ epoch))

end ThreadModuleState

/-! ## Runs -/

/-- A word of a span. -/
def Within (p : Table × ModuleSpan) (c : Nat) : Prop :=
  p.2.cells ≤ c ∧ c < p.2.cells + p.2.count * p.1.words

namespace ThreadModuleState

variable (s : ThreadModuleState)

def Remembered (c : Nat) : Prop := ∃ p ∈ s.spans, Within p c

/-- Spans never overlap, though one may be registered again. -/
def Aligned : Prop :=
  ∀ p ∈ s.spans, ∀ q ∈ s.spans, ∀ c, Within p c → Within q c →
    p.1 = q.1 ∧ p.2.cells = q.2.cells ∧ p.2.count = q.2.count

/-- The address of a fn slot. -/
def Slot (c : Nat) : Prop :=
  ∃ span ∈ s.moduleFnSlots, ∃ i < span.count, c = span.cells + 2 * i

/-- The contract of a minor collection: old references stay as they are, and old. -/
def KeepsOld (visit : Word → Word) (young : Word → Bool) : Prop :=
  ∀ w, ¬s.young w → visit w = w ∧ ¬young w

end ThreadModuleState

open ThreadModuleState

/-- What the runtime, the generated code and the collector do. -/
inductive Step (s : ThreadModuleState) : ThreadModuleState → Prop
  | valueCells (cells count epoch : Nat) : Step s (s.bronze_register_value_cells cells count epoch)
  | templateCells (cells count epoch : Nat) :
      Step s (s.bronze_register_template_cells cells count epoch)
  | fnSlots (cells count epoch : Nat) : Step s (s.bronze_register_fn_slots cells count epoch)
  | methodIcCells (icTable : Nat) (sites : List Nat) (epoch : Nat) :
      Step s (s.bronze_register_method_ic_cells icTable sites epoch)
  | noteWrite {cell : Nat} (w : Word) (h : ¬s.Slot cell) : Step s (s.rtNoteRootCellWrite cell w)
  | latch {icEntry : Nat} (env env' : Word) (h : ¬s.Slot (icEntry + 3))
      (h' : ¬s.Slot (icEntry + 9)) : Step s (s.latchMethodIcAndNote icEntry env env')
  | globalGet {cells slot : Nat} (count epoch : Nat) (resolved : Option Word)
      (h : ¬s.Slot (cells + slot)) :
      Step s (s.bronze_global_get_cached cells count slot epoch resolved)
  | singleton {slotCell : Nat} (code : Word) (realm epoch : Nat) (fresh : Word)
      (hsize : s.functionSingletons.length < 2 ^ 32)
      (h : s.Slot slotCell ∨ ¬s.Remembered slotCell ∧ ¬s.Remembered (slotCell + 1)) :
      Step s (s.bronze_function_singleton code realm epoch fresh slotCell)
  | invalidate : Step s s.rtInvalidateGlobalCaches
  | dropCells (first size : Nat) : Step s (s.rtDropModuleCellsWithin first size)
  | dropRealm (realm : Nat) : Step s (s.rtDropRealmFunctionSingletons realm)
  | dropEpoch (epoch : Nat) : Step s (s.rtDropModuleEpoch epoch)
  | store {cell : Nat} (w : Word) (h : ¬s.Remembered cell) :
      Step s { s with memory := Function.update s.memory cell w }
  | minor {verifying : Bool} {visit : Word → Word} {young : Word → Bool} {s' : ThreadModuleState}
      (hold : s.KeepsOld visit young)
      (h : s.moduleTablesVisitMinor verifying visit young = .ok s') : Step s s'

inductive Reachable : ThreadModuleState → Prop
  | initial {memory : Nat → Word} {young : Word → Bool} (hnull : ¬young 0) (hhole : ¬young kHole) :
      Reachable { memory, young }
  | step {s s' : ThreadModuleState} (h : Reachable s) (hs : Step s s') (hal : s'.Aligned) :
      Reachable s'

/-! ## The invariant -/

namespace ThreadModuleState

variable {s s' : ThreadModuleState} {C : List Nat} {c d : Nat} {p : Table × ModuleSpan}

/-- A cell that the check reads. -/
def Root (s : ThreadModuleState) (c : Nat) : Prop := ∃ p ∈ s.spans, ∃ i, (c, i) ∈ s.values p

theorem mem_spans : p ∈ s.spans ↔ p.2 ∈ s.table p.1 := by
  obtain ⟨table, span⟩ := p
  cases table <;> simp [spans]

theorem mem_spans_append {t : Table} {span : ModuleSpan}
    (h : ∀ t', s'.table t' = if t' = t then s.table t' ++ [span] else s.table t') :
    ∀ p, p ∈ s'.spans ↔ p ∈ s.spans ∨ p = (t, span) := by
  rintro ⟨t', span'⟩
  rw [mem_spans, mem_spans, h, Prod.mk.injEq]
  split <;> simp_all

theorem mem_values : (∃ i, (c, i) ∈ s.values p) ↔ ∃ i < p.2.count,
    (p.1.words = 1 ∨ s.memory (p.2.cells + p.1.words * i) ≠ 0) ∧
      c = p.2.cells + p.1.words * i + (p.1.words - 1) := by
  simp only [values, List.mem_map, List.mem_filter, List.mem_range, decide_eq_true_eq,
    Prod.mk.injEq]
  constructor
  · rintro ⟨-, j, ⟨hj, hcode⟩, rfl, rfl⟩
    exact ⟨j, hj, hcode, rfl⟩
  · rintro ⟨j, hj, hcode, rfl⟩
    exact ⟨j, j, ⟨hj, hcode⟩, rfl, rfl⟩

theorem within_iff : Within p c ↔
    p.2.cells ≤ c ∧ c < p.2.cells + p.2.count * p.1.words := Iff.rfl

theorem within_of_mem_values (h : ∃ i, (c, i) ∈ s.values p) : Within p c := by
  obtain ⟨i, hi, -, rfl⟩ := mem_values.mp h
  obtain ⟨t, span⟩ := p
  dsimp only at hi ⊢
  cases t <;> simp only [within_iff, Table.words] <;> omega

theorem Root.remembered (h : s.Root c) : s.Remembered c := by
  obtain ⟨p, hp, hc⟩ := h
  exact ⟨p, hp, within_of_mem_values hc⟩

theorem Slot.within (h : s.Slot c) : ∃ p ∈ s.spans, p.1 = .moduleFnSlots ∧ Within p c ∧
    Within p (c + 1) ∧ ∃ i, c = p.2.cells + 2 * i := by
  obtain ⟨span, hs, i, hi, rfl⟩ := h
  refine ⟨(.moduleFnSlots, span), mem_spans.mpr hs, rfl, ?_, ?_, i, rfl⟩ <;>
    simp only [within_iff, Table.words] <;> omega

/-- A slot is in no span of cells, and starts at an even word of its own. -/
theorem Slot.span (hal : s.Aligned) (hc : s.Slot c) (hp : p ∈ s.spans) (hpc : Within p c) :
    p.1 = .moduleFnSlots ∧ ∃ i, c = p.2.cells + 2 * i := by
  obtain ⟨q, hq, hq1, hqc, -, i, hi⟩ := hc.within
  obtain ⟨h1, h2, -⟩ := hal p hp q hq c hpc hqc
  exact ⟨h1.trans hq1, i, h2 ▸ hi⟩

theorem Slot.ne_succ (hal : s.Aligned) (hc : s.Slot c) (hd : s.Slot d) : c ≠ d + 1 := by
  rintro rfl
  obtain ⟨q, hq, -, -, hqd, j, rfl⟩ := hd.within
  obtain ⟨-, i, hi⟩ := hc.span hal hq hqd
  omega

theorem Slot.not_root (hal : s.Aligned) (hc : s.Slot c) : ¬s.Root c := by
  rintro ⟨⟨t, span⟩, hp, hv⟩
  obtain ⟨ht, i, hi⟩ := hc.span hal hp (within_of_mem_values hv)
  obtain rfl : t = .moduleFnSlots := ht
  obtain ⟨j, -, -, hj⟩ := mem_values.mp hv
  simp only [Table.words] at hi hj
  omega

/-- Only a slot can become a root by a write to another word, its code. -/
theorem root_of_memory {m : Nat → Word} (h : { s with memory := m }.Root d)
    (hm : ∀ c, s.Slot c → d = c + 1 → m c ≠ 0 → s.memory c ≠ 0) : s.Root d := by
  obtain ⟨⟨t, span⟩, hp, hd⟩ := h
  obtain ⟨i, hi, hcode, hd⟩ := mem_values.mp hd
  refine ⟨(t, span), hp, mem_values.mpr ⟨i, hi, ?_, hd⟩⟩
  cases t with
  | moduleFnSlots =>
    have hcode := hcode.resolve_left (by simp [Table.words])
    exact .inr (hm _ ⟨span, mem_spans.mp hp, i, hi, rfl⟩ hd hcode)
  | _ => exact .inl rfl

/-- The range index finds the remembered spans. -/
theorem inRememberedSpan_iff (hal : s.Aligned) (hpos : ∀ p ∈ s.spans, 0 < p.2.count * p.1.words) :
    s.rebuildRanges.inRememberedSpan c ↔ s.Remembered c := by
  have hmem : ∀ r, r ∈ s.rebuildRanges.rememberedRanges.filter (·.1 ≤ c) ↔
      (∃ p ∈ s.spans, (p.2.cells, p.2.cells + p.2.count * p.1.words) = r) ∧ r.1 ≤ c := by
    simp [rebuildRanges]
  have hsort : s.rebuildRanges.rememberedRanges.Pairwise (·.1 ≤ ·.1) := by
    refine (List.pairwise_mergeSort ?_ ?_ _).imp fun h => ?_
    · simp only [decide_eq_true_eq]; omega
    · simp only [Bool.or_eq_true, decide_eq_true_eq]; omega
    · simp only [decide_eq_true_eq] at h; omega
  rw [inRememberedSpan, Option.any_eq_true]
  constructor
  · rintro ⟨r, hr, hlt⟩
    obtain ⟨⟨p, hp, rfl⟩, hle⟩ := (hmem r).mp (List.mem_of_getLast? hr)
    exact ⟨p, hp, hle, of_decide_eq_true hlt⟩
  · rintro ⟨p, hp, hc⟩
    have hpr := (hmem _).mpr ⟨⟨p, hp, rfl⟩, hc.1⟩
    obtain ⟨r, hr⟩ : ∃ r, (s.rebuildRanges.rememberedRanges.filter (·.1 ≤ c)).getLast? = some r :=
      ⟨_, List.getLast?_eq_some_getLast (List.ne_nil_of_mem hpr)⟩
    obtain ⟨⟨q, hq, rfl⟩, hqc⟩ := (hmem r).mp (List.mem_of_getLast? hr)
    refine ⟨_, hr, decide_eq_true ?_⟩
    -- the last range starts inside that of `p`, so the two are one range
    have hle : p.2.cells ≤ q.2.cells := by
      obtain ⟨l, hl⟩ := List.getLast?_eq_some_iff.mp hr
      have hpair := hsort.filter fun r : Nat × Nat => r.1 ≤ c
      rw [hl] at hpair
      rw [hl, List.mem_append, List.mem_singleton] at hpr
      rcases hpr with hpr | heq
      · exact (List.pairwise_append.mp hpair).2.2 _ hpr _ (List.mem_singleton_self _)
      · exact (congrArg Prod.fst heq).le
    have hqpos := hpos q hq
    obtain ⟨h1, h2, h3⟩ := hal p hp q hq q.2.cells ⟨hle, lt_of_le_of_lt hqc hc.2⟩
      ⟨le_rfl, by omega⟩
    rw [← h1, ← h2, ← h3]
    exact hc.2

/-- Every root that holds a young word is on its set, but for the cells in `C`, and the sets name
nothing but roots that are still there. -/
structure Kept (s : ThreadModuleState) (C : List Nat) : Prop where
  null : ¬s.young 0
  hole : ¬s.young kHole
  pos : ∀ p ∈ s.spans, 0 < p.2.count * p.1.words
  ranges : s.rememberedRangesStale = false →
    s.rememberedRanges = s.rebuildRanges.rememberedRanges
  cells : ∀ c, s.Root c → c ∉ C → s.young (s.memory c) → c ∈ s.youngCells
  live : ∀ c ∈ s.youngCells, s.Remembered c
  entries : Covers (fun _ => True) (singletonSlots.get s.functionSingletons) s.young
    s.youngSingletons
  bounds : ∀ i ∈ s.youngSingletons, i < s.functionSingletons.length
  size : s.functionSingletons.length ≤ 2 ^ 32

namespace Kept

theorem ranged {C' : List Nat} (h : Kept s C) {set : List Nat}
    (hcells : ∀ d, s.Root d → d ∉ C' → s.young (s.memory d) → d ∈ set)
    (hlive : ∀ d ∈ set, s.Remembered d) : Kept { s.rebuildRanges with youngCells := set } C' :=
  { h with ranges := fun _ => rfl, cells := hcells, live := hlive }

theorem freshRanges_eq (h : Kept s C) : s.freshRanges = s.rebuildRanges := by
  rw [freshRanges]
  split
  next => rfl
  next hstale =>
    have hstale := Bool.eq_false_of_not_eq_true hstale
    change s = { s with
      rememberedRanges := s.rebuildRanges.rememberedRanges, rememberedRangesStale := false }
    rw [← h.ranges hstale, ← hstale]

/-- **A write that is noted is kept.** -/
theorem note (h : Kept s (c :: C)) (hal : s.Aligned) : Kept (s.moduleRemsetNoteCell c) C := by
  have hrest : ∀ {d}, s.Root d → d ∉ C → d ≠ c → s.young (s.memory d) → d ∈ s.youngCells :=
    fun hd hC hne => h.cells _ hd (by simp [hne, hC])
  have h' : Kept s C ∨ s.young (s.memory c) := by
    by_cases hy : s.young (s.memory c)
    · exact .inr hy
    · exact .inl { h with
        cells := fun d hd hC hyd => hrest hd hC (fun e => hy (e ▸ hyd)) hyd }
  rw [moduleRemsetNoteCell]
  split
  next =>
    rw [h.freshRanges_eq]
    dsimp only
    have hin := inRememberedSpan_iff (c := c) hal h.pos
    split
    next hc =>
      refine h.ranged ?_ ?_
      · intro d hd hC hy
        rw [mem_add]
        exact or_iff_not_imp_right.mpr fun hne => hrest hd hC hne hy
      · intro d hd
        rcases mem_add.mp hd with hd | rfl
        · exact h.live d hd
        · exact hin.mp hc
    next hc =>
      refine h.ranged (fun d hd hC hy => hrest hd hC ?_ hy) h.live
      rintro rfl
      exact hc (hin.mpr hd.remembered)
  next hy => exact h'.resolve_right hy

/-- A write that has still to be noted. -/
theorem write (h : Kept s C) (hc : ¬s.Slot c) (w : Word) :
    Kept { s with memory := Function.update s.memory c w } (c :: C) := by
  refine { h with cells := fun d hd hC hy => ?_ }
  obtain ⟨hne, hC⟩ := not_or.mp (List.mem_cons.not.mp hC)
  refine h.cells d (root_of_memory hd fun a ha _ hcode => ?_) hC ?_
  · rwa [Function.update_of_ne (fun heq => hc (by rwa [← heq]))] at hcode
  · simpa only [Function.update_of_ne hne] using hy

/-- The two words of a slot are written. -/
theorem writeSlot (h : Kept s []) (hal : s.Aligned)
    (hc : s.Slot c ∨ ¬s.Remembered c ∧ ¬s.Remembered (c + 1)) (code w : Word) :
    Kept { s with memory := Function.update (Function.update s.memory c code) (c + 1) w }
      [c + 1] := by
  refine { h with cells := fun d hd hne hy => ?_ }
  rw [List.mem_singleton] at hne
  have hroot : s.Root d := by
    refine root_of_memory hd fun a ha hda hcode => ?_
    have hac : a ≠ c + 1 := by
      rcases hc with hc | ⟨-, hc⟩
      · exact Slot.ne_succ hal ha hc
      · rintro rfl
        obtain ⟨p, hp, -, hpc, -⟩ := ha.within
        exact hc ⟨p, hp, hpc⟩
    rwa [Function.update_of_ne hac, Function.update_of_ne (by omega)] at hcode
  have hdc : d ≠ c := by
    rintro rfl
    exact hc.elim (fun hc => hc.not_root hal hroot) fun hc => hc.1 hroot.remembered
  refine h.cells d hroot (by simp) ?_
  simpa only [Function.update_of_ne hne, Function.update_of_ne hdc] using hy

theorem mem_addYoung {cells : List (Nat × Nat)} : c ∈ (s.addYoung cells).youngCells ↔
    c ∈ s.youngCells ∨ (∃ i, (c, i) ∈ cells) ∧ s.young (s.memory c) := by
  simp only [addYoung]
  generalize s.youngCells = set
  induction cells generalizing set with
  | nil => simp
  | cons d cells ih =>
    rw [List.foldl_cons, ih]
    split <;> grind [mem_add]

/-- **A span is registered.** -/
theorem registered (h : Kept s []) {A B G : List ModuleSpan}
    (hs' : s' = { s with moduleRememberedCells := A, moduleFnSlots := B, globalCacheSpans := G })
    (hcount : p.2.count ≠ 0) (hspans : ∀ q, q ∈ s'.spans ↔ q ∈ s.spans ∨ q = p) :
    Kept (s'.addYoung (s.values p)) [] := by
  have hpos : ∀ q ∈ s'.spans, 0 < q.2.count * q.1.words := by
    intro q hq
    rcases (hspans q).mp hq with hq | rfl
    · exact h.pos q hq
    · exact Nat.mul_pos (Nat.pos_of_ne_zero hcount) (by cases q.1 <;> decide)
  subst hs'
  refine { h with
    pos := hpos, ranges := nofun, cells := fun c hc _ hy => ?_, live := fun c hc => ?_ }
  · obtain ⟨q, hq, hc⟩ := hc
    rcases (hspans q).mp hq with hq | rfl
    · exact mem_addYoung.mpr (.inl (h.cells c ⟨q, hq, hc⟩ (by simp) hy))
    · exact mem_addYoung.mpr (.inr ⟨hc, hy⟩)
  · rcases mem_addYoung.mp hc with hc | ⟨hc, -⟩
    · obtain ⟨q, hq, hqc⟩ := h.live c hc
      exact ⟨q, (hspans q).mpr (.inl hq), hqc⟩
    · exact ⟨p, (hspans p).mpr (.inr rfl), within_of_mem_values hc⟩

/-- **Spans are dropped.** -/
theorem retained (h : Kept s []) {keep : ModuleSpan → Bool} (hal : (s.retainSpans keep).Aligned) :
    Kept (s.retainSpans keep) [] := by
  have hsub : ∀ p ∈ (s.retainSpans keep).spans, p ∈ s.spans := by
    intro p hp
    rw [mem_spans] at hp ⊢
    cases hp1 : p.1 <;> rw [hp1] at hp <;> exact List.mem_of_mem_filter hp
  have hpos : ∀ p ∈ (s.retainSpans keep).spans, 0 < p.2.count * p.1.words :=
    fun p hp => h.pos p (hsub p hp)
  have hin := fun c => inRememberedSpan_iff (c := c) hal hpos
  refine { h with pos := hpos, ranges := fun _ => rfl, cells := ?_, live := ?_ }
  · rintro c ⟨p, hp, hc⟩ _ hy
    exact List.mem_filter.mpr ⟨h.cells c ⟨p, hsub p hp, hc⟩ (by simp) hy,
      (hin c).mpr ⟨p, hp, within_of_mem_values hc⟩⟩
  · exact fun c hc => (hin c).mp (List.mem_filter.mp hc).2

/-- The singletons and their set are replaced. -/
theorem withEntries (h : Kept s C) {es : List SingletonEntry} {set : List Nat}
    {index : Word × Nat → Option Nat}
    (hcov : Covers (fun _ => True) (singletonSlots.get es) s.young set)
    (hbounds : ∀ i ∈ set, i < es.length) (hsize : es.length ≤ 2 ^ 32) :
    Kept { s with
      functionSingletons := es, functionSingletonIndex := index, youngSingletons := set } C :=
  { h with entries := hcov, bounds := hbounds, size := hsize }

theorem singletonsChanged (h : Kept s C) {es : List SingletonEntry}
    {index : Word × Nat → Option Nat} (hlen : es.length ≤ s.functionSingletons.length) :
    Kept (moduleRemsetSingletonsChanged
      { s with functionSingletons := es, functionSingletonIndex := index }) C := by
  have hsize := hlen.trans h.size
  have hmem : ∀ i, i ∈ ((List.range es.length).filter fun i =>
      es[i]?.any (s.young ·.value)).map (· % 2 ^ 32) ↔
        i < es.length ∧ es[i]?.any (s.young ·.value) := by
    intro i
    rw [List.mem_map]
    constructor
    · rintro ⟨j, hj, rfl⟩
      rw [List.mem_filter, List.mem_range] at hj
      rwa [Nat.mod_eq_of_lt (by omega)]
    · exact fun hi => ⟨i, List.mem_filter.mpr ⟨List.mem_range.mpr hi.1, hi.2⟩,
        Nat.mod_eq_of_lt (by omega)⟩
  refine h.withEntries (fun i v _ hv hy => (hmem i).mpr ?_) (fun i hi => ((hmem i).mp hi).1) hsize
  obtain ⟨e, he, rfl⟩ := Option.map_eq_some_iff.mp hv
  exact ⟨(List.getElem?_eq_some_iff.mp he).1, by rw [he]; exact hy⟩

theorem globalsEmptied (h : Kept s []) (hal : s.Aligned) : Kept s.rtInvalidateGlobalCaches [] := by
  have hcov : Covers s.Root (cellSlots.get s.memory) s.young s.youngCells := fun c v hc hv hy =>
    h.cells c hc (by simp) (by cases hv; exact hy)
  refine { h with cells := fun c hc _ hy => ?_ }
  refine cellSlots.covers_visitAll hcov (fun _ _ => h.hole) c _ (root_of_memory hc ?_) rfl hy
  intro a ha _
  -- a code is no cell of a cache
  refine mt fun hz => Option.some_inj.mp ((cellSlots.get_visitAll_of_not_mem fun hmem => ?_).trans
    (congrArg some hz))
  obtain ⟨span, hs, hin⟩ := List.mem_flatMap.mp hmem
  have hp : (Table.globalCacheSpans, span) ∈ s.spans := mem_spans.mpr hs
  have := (ha.span hal hp (by simpa [within_iff, Table.words] using List.mem_range'_1.mp hin)).1
  cases this

theorem pushed (h : Kept s C) {e : SingletonEntry} {index : Word × Nat → Option Nat}
    (hsize : s.functionSingletons.length < 2 ^ 32) :
    Kept { s with
      functionSingletons := s.functionSingletons ++ [e]
      functionSingletonIndex := index
      youngSingletons :=
        if s.young e.value then add s.youngSingletons (s.functionSingletons.length % 2 ^ 32)
        else s.youngSingletons } C := by
  rw [Nat.mod_eq_of_lt hsize]
  have hmem : ∀ i, i ∈ (if s.young e.value then
      add s.youngSingletons s.functionSingletons.length else s.youngSingletons) ↔
      i ∈ s.youngSingletons ∨ s.young e.value ∧ i = s.functionSingletons.length := by
    intro i
    split <;> simp_all
  refine h.withEntries (fun i v _ hv hy => (hmem i).mpr ?_) (fun i hi => ?_) (by simpa using hsize)
  · obtain ⟨e', he, rfl⟩ := Option.map_eq_some_iff.mp hv
    rw [List.getElem?_append] at he
    split at he
    next => exact .inl (h.entries i _ trivial (Option.map_eq_some_iff.mpr ⟨e', he, rfl⟩) hy)
    next hle =>
      obtain ⟨hi, rfl⟩ := List.getElem?_eq_some_iff.mp he
      simp only [List.length_singleton] at hi
      exact .inr ⟨by simpa using hy, by omega⟩
  · rw [List.length_append, List.length_singleton]
    rcases (hmem i).mp hi with hi | ⟨-, rfl⟩
    · have := h.bounds i hi
      omega
    · omega

/-- The always-visited cells hold what is covered, still. -/
theorem covers (h : Kept s []) {visit : Word → Word} {young : Word → Bool}
    (hold : s.KeepsOld visit young) :
    Covers s.Root (cellSlots.get (s.visitSpans visit s.moduleValueCells)) s.young s.youngCells := by
  refine cellSlots.covers_visitAll ?_ fun v hv => by rwa [(hold v hv).1]
  exact fun c v hc hv hy => h.cells c hc (by simp) (by cases hv; exact hy)

theorem length_visitAll (visit : Word → Word) (l : List Nat) (es : List SingletonEntry) :
    (singletonSlots.visitAll visit l es).length = es.length := by
  induction l generalizing es with
  | nil => rfl
  | cons i l ih => exact (ih _).trans (List.length_modify ..)

/-- **A pass keeps the sets.** -/
theorem visitSets (h : Kept s []) {visit : Word → Word} {young : Word → Bool}
    (hold : s.KeepsOld visit young) : Kept (s.visitSets visit young) [] := by
  have hvisit : ∀ v, v = 0 → visit v = 0 := by
    rintro v rfl
    exact (hold 0 h.null).1
  have hzero : ∀ c, s.memory c = 0 → (s.visitSets visit young).memory c = 0 := fun c hc =>
    cellSlots.visitAll_keeps (· = 0) hvisit
      (cellSlots.visitAll_keeps (· = 0) hvisit (by rintro v ⟨⟩; exact hc)) _ rfl
  have hlen : (s.visitSets visit young).functionSingletons.length = s.functionSingletons.length :=
    length_visitAll ..
  refine { h with
    null := (hold 0 h.null).2
    hole := (hold kHole h.hole).2
    cells := fun c hc _ hy => ?_
    live := fun c hc => h.live c (cellSlots.mem_visitMinor.mp hc).1
    entries := singletonSlots.covers_visitMinor h.entries hold
    bounds := fun i hi => (h.bounds i (singletonSlots.mem_visitMinor.mp hi).1).trans_eq hlen.symm
    size := hlen.le.trans h.size }
  exact cellSlots.covers_visitMinor (h.covers hold) hold c _
    (root_of_memory hc fun a _ _ => mt (hzero a)) rfl hy

end Kept

@[simp] theorem aligned_note : (s.moduleRemsetNoteCell c).Aligned ↔ s.Aligned := by
  have hspans : (s.moduleRemsetNoteCell c).spans = s.spans := by
    unfold moduleRemsetNoteCell freshRanges
    dsimp only
    split_ifs <;> rfl
  rw [Aligned, hspans, Aligned]

theorem moduleTablesVisitMinor_eq {verifying : Bool} {visit : Word → Word} {young : Word → Bool}
    (h : s.moduleTablesVisitMinor verifying visit young = .ok s') :
    s' = s.visitSets visit young := by
  rw [moduleTablesVisitMinor] at h
  split at h <;> cases h
  rfl

/-- **Every step keeps the sets.** -/
theorem Kept.step (h : Kept s []) (hal : s.Aligned) (hs : Step s s') (hal' : s'.Aligned) :
    Kept s' [] := by
  cases hs with
  | valueCells =>
    rw [bronze_register_value_cells]
    split
    · exact h
    · exact { h with cells := h.cells }
  | templateCells =>
    rw [bronze_register_template_cells]
    split
    next => exact h
    next hne => exact h.registered rfl (mt .inr hne) (mem_spans_append (by rintro ⟨⟩ <;> rfl))
  | fnSlots =>
    rw [bronze_register_fn_slots]
    split
    next => exact h
    next hne => exact h.registered rfl (mt .inr hne) (mem_spans_append (by rintro ⟨⟩ <;> rfl))
  | methodIcCells icTable sites epoch =>
    rw [bronze_register_method_ic_cells]
    split
    · exact h
    · refine List.foldlRecOn _ _ (motive := fun s => Kept s []) h fun s h word _ => ?_
      exact h.registered rfl one_ne_zero (mem_spans_append (by rintro ⟨⟩ <;> rfl))
  | noteWrite w hc =>
    rw [rtNoteRootCellWrite]
    split
    · exact h
    · exact (h.write hc w).note hal
  | latch env env' hc hc' =>
    exact (((h.write hc' env').write hc env).note hal).note (aligned_note.mpr hal)
  | @globalGet cells slot count epoch resolved hc =>
    rw [bronze_global_get_cached] at hal' ⊢
    split at hal'
    next hslot =>
      rw [if_pos hslot]
      have hglobals : Kept (s.rememberGlobals cells count epoch) [] ∧
          ¬(s.rememberGlobals cells count epoch).Slot (cells + slot) := by
        rw [rememberGlobals]
        split
        · exact ⟨h, hc⟩
        · refine ⟨h.registered (p := (.globalCacheSpans, _)) rfl (Nat.ne_zero_of_lt hslot.2) ?_, hc⟩
          exact mem_spans_append (by rintro ⟨⟩ <;> rfl)
      cases resolved with
      | none => exact hglobals.1
      | some w =>
        have hne : cells + slot ≠ 0 := by omega
        simp only [Option.elim_some, rtNoteRootCellWrite, if_neg hne] at hal' ⊢
        exact (hglobals.1.write hglobals.2 w).note (aligned_note.mp hal')
    next hslot => rwa [if_neg hslot]
  | singleton code realm epoch fresh hsize hc =>
    have hslot : ∀ {s₁ : ThreadModuleState} {c : Nat} (w : Word), Kept s₁ [] → s₁.Aligned →
        s₁.Slot c ∨ ¬s₁.Remembered c ∧ ¬s₁.Remembered (c + 1) →
        Kept (if c = 0 then s₁ else moduleRemsetNoteCell { s₁ with
          memory := Function.update (Function.update s₁.memory c code) (c + 1) w } (c + 1)) [] := by
      intro s₁ c w h hal hc
      split
      · exact h
      · exact (h.writeSlot hal hc code w).note hal
    rw [bronze_function_singleton]
    cases s.functionSingletonIndex (code, realm) with
    | some i => exact hslot _ h hal hc
    | none => exact hslot _ (h.pushed hsize) hal hc
  | invalidate => exact h.globalsEmptied hal
  | dropCells first size =>
    rw [rtDropModuleCellsWithin] at hal' ⊢
    split at hal'
    next hz => rwa [if_pos hz]
    next hz =>
      rw [if_neg hz]
      exact h.retained hal'
  | dropRealm realm =>
    rw [rtDropRealmFunctionSingletons]
    split
    · exact h
    · exact h.singletonsChanged (List.length_filter_le ..)
  | dropEpoch epoch =>
    rw [rtDropModuleEpoch] at hal' ⊢
    split at hal'
    next hz => rwa [if_pos hz]
    next hz =>
      rw [if_neg hz]
      exact (h.retained hal').singletonsChanged (List.length_filter_le ..)
  | @store cell w hc =>
    have hslot : ¬s.Slot cell := fun hslot =>
      let ⟨p, hp, _, hpc, _⟩ := hslot.within
      hc ⟨p, hp, hpc⟩
    have hw := h.write hslot w
    refine { hw with cells := fun d hd _ hy => hw.cells d hd (fun hmem => ?_) hy }
    exact hc (List.mem_singleton.mp hmem ▸ hd.remembered)
  | minor hold hs' => exact moduleTablesVisitMinor_eq hs' ▸ h.visitSets hold

end ThreadModuleState

open ThreadModuleState

variable {s s' : ThreadModuleState} {verifying : Bool} {visit : Word → Word} {young : Word → Bool}

theorem Reachable.kept (h : Reachable s) : Kept s [] ∧ s.Aligned := by
  induction h with
  | initial hnull hhole =>
    refine ⟨⟨hnull, hhole, nofun, nofun, ?_, nofun, nofun, nofun, Nat.zero_le _⟩, nofun⟩
    rintro c ⟨t, ht, -⟩
    cases ht
  | step _ hs hal' ih => exact ⟨ih.1.step ih.2 hs hal', hal'⟩

theorem Reachable.checked (h : Reachable s) : s.moduleTablesRemsetCheck = none := by
  have hk := h.kept.1
  simp only [moduleTablesRemsetCheck, Option.or_eq_none_iff, List.findSome?_eq_none_iff]
  constructor
  · rintro t ht ⟨c, i⟩ hc
    exact if_neg fun hy => hy.2 (hk.cells c ⟨t, ht, i, hc⟩ (by simp) hy.1)
  · rintro ⟨e, i⟩ he
    refine if_neg fun hy => hy.2 ?_
    have he := List.mk_mem_zipIdx_iff_getElem?.mp he
    rw [Nat.mod_eq_of_lt ((List.getElem?_eq_some_iff.mp he).1.trans_le hk.size)]
    exact hk.entries i e.value trivial (by simp [singletonSlots, he]) hy.1

/-- Two template cells and a fn slot that held young words when they were registered, and the
singleton of a function that was young when it was made. -/
def registered : ThreadModuleState :=
  ((bronze_register_template_cells
    { memory := fun c => if c = 4 ∨ c = 11 then 7 else if c = 5 then 8 else if c = 10 then 3 else 0
      young := fun w => w = 7 ∨ w = 8 }
    4 2 0).bronze_register_fn_slots 10 1 0).bronze_function_singleton 3 0 0 7 0

theorem registered_reachable : Reachable registered := by
  have htemplates : ∀ p ∈ [(Table.moduleRememberedCells, (⟨4, 2, 0⟩ : ModuleSpan))],
      p = (.moduleRememberedCells, ⟨4, 2, 0⟩) := fun p => List.mem_singleton.mp
  have hboth : ∀ p ∈ [(Table.moduleRememberedCells, (⟨4, 2, 0⟩ : ModuleSpan)),
      (.moduleFnSlots, ⟨10, 1, 0⟩)],
      p = (.moduleRememberedCells, ⟨4, 2, 0⟩) ∨ p = (.moduleFnSlots, ⟨10, 1, 0⟩) := by
    simp
  -- the two spans have no word in common
  have hapart : ∀ c, Within (.moduleRememberedCells, ⟨4, 2, 0⟩) c →
      Within (.moduleFnSlots, ⟨10, 1, 0⟩) c → False := by
    simp only [Within, Table.words]
    omega
  have haligned : ∀ s : ThreadModuleState, s.spans = [(Table.moduleRememberedCells, ⟨4, 2, 0⟩),
      (.moduleFnSlots, ⟨10, 1, 0⟩)] → s.Aligned := by
    intro s hs p hp q hq c hpc hqc
    rw [hs] at hp hq
    rcases hboth p hp with rfl | rfl <;> rcases hboth q hq with rfl | rfl
    · exact ⟨rfl, rfl, rfl⟩
    · exact (hapart c hpc hqc).elim
    · exact (hapart c hqc hpc).elim
    · exact ⟨rfl, rfl, rfl⟩
  refine .step (.step (.step (.initial (by decide) (by decide)) (.templateCells 4 2 0) ?_)
    (.fnSlots 10 1 0) (haligned _ rfl))
    (@Step.singleton _ 0 3 0 0 7 (Nat.zero_lt_succ _) (.inr ⟨?_, ?_⟩)) (haligned _ rfl)
  · intro p hp q hq c _ _
    obtain rfl := htemplates p hp
    obtain rfl := htemplates q hq
    exact ⟨rfl, rfl, rfl⟩
  all_goals
    rintro ⟨p, hp, hc⟩
    rcases hboth p hp with rfl | rfl <;> simp only [Within, Table.words] at hc <;> omega

/-- **No writer misses its set**: in a state that was reached, the check finds nothing, and a pass
does not stop the process. -/
theorem verification_silent (h : Reachable s) (verifying : Bool) (visit : Word → Word)
    (young : Word → Bool) : s.moduleTablesRemsetCheck = none ∧
      ∃ s', s.moduleTablesVisitMinor verifying visit young = .ok s' := by
  refine ⟨h.checked, s.visitSets visit young, ?_⟩
  rw [moduleTablesVisitMinor, h.checked, ite_self]

theorem verification_silent_template :
    registered.moduleTablesRemsetCheck = none ∧
      ∃ s', registered.moduleTablesVisitMinor true id registered.young = .ok s' :=
  verification_silent registered_reachable true id registered.young

theorem visitSets_memory (h : Reachable s) (hold : s.KeepsOld visit young) {c : Nat}
    (hc : s.Root c) :
    (s.visitSets visit young).memory c = visit (s.visitSpans visit s.moduleValueCells c) :=
  Option.some_inj.mp (cellSlots.get_visitMinor young (h.kept.1.covers hold)
    (fun v hv => (hold v hv).1) hc)

theorem visitSets_singletons (h : Reachable s) (hold : s.KeepsOld visit young) :
    (s.visitSets visit young).functionSingletons.map (·.value) =
      s.functionSingletons.map (visit ·.value) := by
  refine List.ext_getElem? fun i => ?_
  have hi := singletonSlots.get_visitMinor young h.kept.1.entries
    (fun v hv => (hold v hv).1) (i := i) trivial
  rw [List.getElem?_map, List.getElem?_map]
  exact hi.trans (Option.map_map ..)

/-- **A pass is as good as a visit to every root**, and it writes to no word that was dropped. -/
theorem minor_visits_roots (h : Reachable s) (hold : s.KeepsOld visit young)
    (hs' : s.moduleTablesVisitMinor verifying visit young = .ok s') :
    (∀ c, s.Root c → s'.memory c = visit (s.visitSpans visit s.moduleValueCells c)) ∧
      (∀ c, ¬s.Remembered c → s'.memory c = s.visitSpans visit s.moduleValueCells c) ∧
      s'.functionSingletons.map (·.value) = s.functionSingletons.map (visit ·.value) := by
  obtain rfl := moduleTablesVisitMinor_eq hs'
  refine ⟨fun c hc => visitSets_memory h hold hc, fun c hc => ?_, visitSets_singletons h hold⟩
  have hlive := mt (h.kept.1.live c) hc
  exact Option.some_inj.mp (cellSlots.get_visitMinor_of_not_mem young hlive)

/-- One of the young words is forwarded, and its target is old; the other one stays young. -/
def promote (w : Word) : Word := if w = 7 then 9 else w

theorem promote_keepsOld : registered.KeepsOld promote (· = 8) := by
  intro w hw
  have hne : ¬(w = 7 ∨ w = 8) := fun heq => hw (decide_eq_true heq)
  obtain ⟨hforwarded, hkept⟩ := not_or.mp hne
  exact ⟨if_neg hforwarded, fun heq => hkept (of_decide_eq_true heq)⟩

theorem minor_visits_roots_template :
    (registered.visitSets promote (· = 8)).memory 4 = promote 7 ∧
      (registered.visitSets promote (· = 8)).memory 11 = promote 7 ∧
      (registered.visitSets promote (· = 8)).functionSingletons.map (·.value) = [promote 7] := by
  obtain ⟨hroots, -, hsingletons⟩ := minor_visits_roots registered_reachable promote_keepsOld
    (rfl : moduleTablesVisitMinor _ false _ _ = .ok _)
  exact ⟨hroots 4 ⟨_, .head _, 0, .head _⟩, hroots 11 ⟨_, .tail _ (.head _), 0, .head _⟩,
    hsingletons⟩

/-- **The sets are exact after a pass.** -/
theorem minor_sets_exact (h : Reachable s) (hold : s.KeepsOld visit young)
    (hs' : s.moduleTablesVisitMinor verifying visit young = .ok s') :
    s'.youngCells.Pairwise (· < ·) ∧ (∀ c ∈ s'.youngCells, young (s'.memory c)) ∧
      (∀ c, s'.Root c → young (s'.memory c) → c ∈ s'.youngCells) ∧
      s'.youngSingletons.Pairwise (· < ·) ∧
      ∀ i, i ∈ s'.youngSingletons ↔ ∃ e, s'.functionSingletons[i]? = some e ∧ young e.value := by
  obtain rfl := moduleTablesVisitMinor_eq hs'
  have hk := h.kept.1.visitSets hold
  refine ⟨(Slots.normalize_pairwise _).filter _, fun c hc => (cellSlots.mem_visitMinor.mp hc).2,
    fun c hc => hk.cells c hc (by simp), (Slots.normalize_pairwise _).filter _, fun i => ⟨?_, ?_⟩⟩
  · intro hi
    obtain ⟨v, hv, hy⟩ := (Option.any_eq_true ..).mp (singletonSlots.mem_visitMinor.mp hi).2
    obtain ⟨e, he, rfl⟩ := Option.map_eq_some_iff.mp hv
    exact ⟨e, he, hy⟩
  · rintro ⟨e, he, hy⟩
    exact hk.entries i e.value trivial (Option.map_eq_some_iff.mpr ⟨e, he, rfl⟩) hy

/-- The cell that is still young stays on its set, and the one that was forwarded leaves it. -/
theorem minor_sets_exact_template :
    5 ∈ (registered.visitSets promote (· = 8)).youngCells ∧
      4 ∉ (registered.visitSets promote (· = 8)).youngCells ∧
      (registered.visitSets promote (· = 8)).youngSingletons = [] := by
  obtain ⟨-, hyoung, hroots, -, hsingletons⟩ := minor_sets_exact registered_reachable
    promote_keepsOld (rfl : moduleTablesVisitMinor _ false _ _ = .ok _)
  have hroot : registered.Root 4 ∧ registered.Root 5 :=
    ⟨⟨_, .head _, 0, .head _⟩, _, .head _, 1, .tail _ (.head _)⟩
  have hforwarded := visitSets_memory registered_reachable promote_keepsOld hroot.1
  have hkept := visitSets_memory registered_reachable promote_keepsOld hroot.2
  refine ⟨hroots 5 ⟨_, .head _, 1, .tail _ (.head _)⟩ ?_, fun hmem => ?_, ?_⟩
  · rw [hkept]
    rfl
  · have hstill := hyoung 4 hmem
    rw [hforwarded] at hstill
    cases hstill
  · refine List.eq_nil_iff_forall_not_mem.mpr fun i hi => ?_
    obtain ⟨e, he, hvalue⟩ := (hsingletons i).mp hi
    -- the only entry was forwarded
    have hmem : e.value ∈ [promote 7] := by
      rw [← show (registered.visitSets promote (· = 8)).functionSingletons.map (·.value) =
        [promote 7] from visitSets_singletons registered_reachable promote_keepsOld]
      exact List.mem_map_of_mem (List.mem_of_getElem? he)
    rw [List.mem_singleton.mp hmem] at hvalue
    cases hvalue

end Bronze.Gc
