import Bronze.Il.Serialize

/-!
# What the reader makes of the bytes of a module

A step of the reader for a step of the writer, in their order, from the fields of an instruction
up to the module. Where the reader refuses something that can be written, this is a condition on
the field: a hint and a chain of an inline cache are bounded, the length of a span and a constant
known of a parameter are `int32_t`s.
-/

namespace Bronze.Il

open Codec Instruction Writer Reads Param List Module InstBits

variable {α : Type}

theorem reads_enum {ofNat : Nat → α} {toNat : α → Nat} {last : Nat} {what : String}
    (hinv : ∀ x, ofNat (toNat x) = x) (hle : ∀ x, toNat x ≤ last) (hlast : last < 256) (x : α) :
    Reads (Reader.enum ofNat last what) (u8 (.ofNat (toNat x))) x := by
  have hbyte : (UInt8.ofNat (toNat x)).toNat = toNat x :=
    UInt8.toNat_ofNat_of_lt ((hle x).trans_lt hlast)
  have hok : decide ((UInt8.ofNat (toNat x)).toNat > last) = false := by
    rw [hbyte]
    exact decide_eq_false (Nat.not_lt.mpr (hle x))
  refine of_pieces (Decodes.next (reads_u8 _) (Decodes.pass hok ?_))
  rw [hbyte, hinv]
  exact Decodes.done x

theorem reads_op (op : Op) : Reads readOp (u8 op.byte) op :=
  reads_enum Op.ofNat_ctorIdx (by intro x; cases x <;> decide) (by decide) op

theorem reads_type (t : IlType) : Reads readType (u8 t.byte) t :=
  reads_enum IlType.ofNat_ctorIdx (by intro x; cases x <;> decide) (by decide) t

theorem reads_copyClass (c : CopyClass) : Reads readCopyClass (u8 c.byte) c :=
  reads_enum CopyClass.ofNat_ctorIdx (by intro x; cases x <;> decide) (by decide) c

theorem reads_flag (b : Bool) : Reads readFlag (writeFlag b) b := by
  cases b <;> exact fun _ => rfl

theorem reads_next (v : UInt32) : Reads readNext (writeNext v) v := by
  refine of_pieces (Decodes.next (reads_u32 (v + 1)) ?_)
  rw [show v + 1 - 1 = v by grind]
  exact Decodes.done v

theorem reads_file (what : String) (file : UInt16) :
    Reads (readFile what) (writeFile file) file := by
  have hok : decide (file.toUInt32 > 0xFFFF) = false := by
    refine decide_eq_false (UInt32.not_lt.mpr (UInt32.le_iff_toNat_le.mpr ?_))
    exact Nat.le_of_lt_succ file.toNat_lt
  refine of_pieces (Decodes.next (reads_u32 _) (Decodes.pass hok ?_))
  rw [UInt16.toUInt16_toUInt32]
  exact Decodes.done file

theorem on_mask (inst : Instruction) (b : InstBits) : b.on inst.mask = inst.bits b := by
  rw [on, Instruction.mask, bit_mask (by decide) (by cases b <;> decide),
    ofNat_ctorIdx]

theorem mask_known (inst : Instruction) : decide (inst.mask &&& ~~~kKnownBits ≠ 0) = false := by
  refine decide_eq_false (not_not.mpr (mask_and_compl (by decide) ?_))
  decide

theorem on_mask_fn (fn : Function) (b : FnBits) : b.on fn.mask = fn.bits b := by
  rw [FnBits.on, Function.mask, bit_mask (by decide) (by cases b <;> decide), FnBits.ofNat_ctorIdx]

/-! ## The fields of an instruction -/

theorem reads_default {r : Reader α} {bytes : Bytes} {x default : α}
    (h : Reads r bytes x) {p : Prop} [Decidable p] (habsent : ¬p → x = default) :
    Reads (Reader.field (decide p) default r) (field (decide p) bytes) x :=
  h.field fun hnot => habsent (of_decide_eq_false hnot)

theorem reads_i32 (v : Int32) : Reads Reader.i32 (svar v.toInt64) v := by
  have hlo := v.le_toInt
  have hhi := v.toInt_lt
  have h := (decodes_i32 v.toInt64).reads (by rw [Int32.toInt_toInt64]; omega)
  rwa [Int32.toInt32_toInt64] at h

theorem writeU32_ne_nil (v : UInt32) : writeU32 v ≠ [] := var_ne_nil _

theorem reads_target (t : BlockTarget) : Reads readTarget (writeTarget t) t := by
  refine Decodes.reads (P := True) ?_ trivial
  refine Decodes.next (reads_next _) (Decodes.next (vec _ reads_u32 writeU32_ne_nil) ?_)
  exact Decodes.done t

theorem eq_empty {l : Vec α} (h : ¬l.1 ≠ []) : l = ∅ := Subtype.ext (not_not.mp h)

theorem target_absent {t : BlockTarget} (h : ¬(t.block ≠ kNoBlock ∨ t.args.1 ≠ [])) : t = {} := by
  rw [not_or, not_not] at h
  obtain ⟨block, args⟩ := t
  rw [show block = kNoBlock from h.1, show args = ∅ from eq_empty h.2]

/-- The length of a span is an `int32_t`. -/
def Span.Fits (s : Span) : Prop :=
  -2 ^ 31 ≤ (s.end_.toNat : Int) - s.begin.toNat ∧ (s.end_.toNat : Int) - s.begin.toNat ≤ 2 ^ 31 - 1

instance (s : Span) : Decidable s.Fits := inferInstanceAs (Decidable (_ ∧ _))

theorem toInt_widen (v : UInt32) : v.toUInt64.toInt64.toInt = v.toNat := by
  have hlt := v.toNat_lt
  change v.toUInt64.toInt64.toBitVec.toInt = _
  rw [BitVec.toInt_eq_toNat_of_lt]
  · rfl
  · change 2 * v.toNat < 2 ^ 64
    omega

theorem toInt_length (s : Span) :
    (s.end_.toUInt64.toInt64 - s.begin.toUInt64.toInt64).toInt =
      (s.end_.toNat : Int) - s.begin.toNat := by
  have hbegin := s.begin.toNat_lt
  have hend := s.end_.toNat_lt
  rw [Int64.toInt_sub, toInt_widen, toInt_widen]
  exact Int.bmod_eq_of_le (by omega) (by omega)

/-- A number that is an `int32_t` is the same as one. -/
theorem toInt64_toInt32 {v : Int64} (h : -2 ^ 31 ≤ v.toInt ∧ v.toInt ≤ 2 ^ 31 - 1) :
    v.toInt32.toInt64 = v := by
  apply Int64.toInt_inj.mp
  rw [Int32.toInt_toInt64, Int64.toInt_toInt32]
  exact Int.bmod_eq_of_le (by omega) (by omega)

theorem decodes_span (s : Span) : Decodes readSpan (writeSpan s) s.Fits s := by
  refine (Decodes.next (reads_u32 _) (Decodes.bind (decodes_i32 _) fun hfit => ?_)).congr
    (Q := s.Fits) ((iff_of_eq (and_true _)).trans ?_)
  · -- the begin and the length give the end again
    have hend : s.begin.toUInt64.toInt64 +
        (s.end_.toUInt64.toInt64 - s.begin.toUInt64.toInt64).toInt32.toInt64 =
          s.end_.toUInt64.toInt64 := by
      rw [toInt64_toInt32 hfit, Int64.add_comm, Int64.sub_add_cancel]
    have hlt := s.end_.toNat_lt
    have hok :
        ¬(s.end_.toUInt64.toInt64.toInt < 0 ∨ s.end_.toUInt64.toInt64.toInt > 0xFFFFFFFF) := by
      rw [toInt_widen]
      omega
    simp only [hend]
    refine Decodes.pass (decide_eq_false hok) (Decodes.next (reads_file _ _) ?_)
    rw [UInt64.toUInt64_toInt64, UInt32.toUInt32_toUInt64]
    exact Decodes.done s
  · rw [toInt_length]
    rfl

theorem widen_eq_zero {v : UInt8} : v.toUInt32 = 0 ↔ v = 0 := by
  rw [← UInt32.toNat_inj, ← UInt8.toNat_inj]
  rfl

theorem widen_gt_fifteen {v : UInt8} : v.toUInt32 > 15 ↔ ¬v ≤ 15 := by
  rw [UInt8.not_le]
  rfl

theorem decodes_truthHint (h : UInt8) (hne : h ≠ 0) :
    Decodes readTruthHint (writeU32 h.toUInt32) (h ≤ 15) h := by
  refine (Decodes.whole (Decodes.next (reads_u32 _) (Decodes.check fun _ => ?_))).congr
    (P := _ ∧ True) ?_
  · rw [UInt8.toUInt8_toUInt32]
    exact Decodes.done h
  · simp [widen_eq_zero, widen_gt_fifteen, hne]

/-- A chain the reader accepts: at most four ways, and the prototype after them. -/
def ChainOk (c : UInt8) : Prop := c ≤ 15 ∧ c &&& 7 ≤ 4

instance (c : UInt8) : Decidable (ChainOk c) := inferInstanceAs (Decidable (_ ∧ _))

theorem decodes_icChain (c : UInt8) (hne : c ≠ 0) :
    Decodes readIcChain (writeU32 c.toUInt32) (ChainOk c) c := by
  have hways : c.toUInt32 &&& kChainWaysMask > 4 ↔ ¬c &&& 7 ≤ 4 := by
    rw [UInt8.not_le]
    rfl
  refine (Decodes.whole (Decodes.next (reads_u32 _) (Decodes.check fun _ => ?_))).congr
    (P := _ ∧ True) ?_
  · rw [UInt8.toUInt8_toUInt32]
    exact Decodes.done c
  · simp [widen_eq_zero, widen_gt_fifteen, hne, hways, ChainOk]

/-- The transition run, as far as it is written. -/
def Instruction.transitionRun (inst : Instruction) : UInt32 × UInt32 × UInt32 :=
  if inst.transitionRunCell ≠ kNoTransitionRun then
    (inst.transitionRunCell, inst.transitionRunLength, inst.transitionRunSlot)
  else (kNoTransitionRun, 0, 0)

theorem reads_transitionRun (inst : Instruction) :
    Reads
      (Reader.field (decide (inst.transitionRunCell ≠ kNoTransitionRun)) (kNoTransitionRun, 0, 0)
        readTransitionRun)
      (field (decide (inst.transitionRunCell ≠ kNoTransitionRun)) (writeTransitionRun inst))
      inst.transitionRun := by
  rw [transitionRun]
  by_cases hcell : inst.transitionRunCell ≠ kNoTransitionRun
  · rw [decide_eq_true hcell, if_pos hcell]
    refine Decodes.reads (P := True) ?_ trivial
    refine Decodes.next (reads_u32 _) (Decodes.next (reads_u32 _) (Decodes.next (reads_u32 _) ?_))
    exact Decodes.done _
  · rw [decide_eq_false hcell, if_neg hcell]
    exact pure _

theorem span_absent {s : Span} (h : ¬(s.begin ≠ 0 ∨ s.end_ ≠ 0 ∨ s.file ≠ 0)) : s = {} := by
  rw [not_or, not_or, not_not, not_not, not_not] at h
  obtain ⟨begin, end_, file⟩ := s
  rw [show begin = 0 from h.1, show end_ = 0 from h.2.1, show file = 0 from h.2.2]

/-- What the reader accepts of an instruction. -/
def Instruction.Readable (inst : Instruction) : Prop :=
  inst.truthHint ≤ 15 ∧ ChainOk inst.icChain ∧ inst.span.Fits

def Instruction.asRead (inst : Instruction) : Instruction :=
  { inst with
    staticRegrow := false
    transitionRunCell := inst.transitionRun.1
    transitionRunLength := inst.transitionRun.2.1
    transitionRunSlot := inst.transitionRun.2.2 }

theorem decodes_instruction (inst : Instruction) :
    Decodes readInstruction (writeInstruction inst) inst.Readable inst.asRead := by
  refine Decodes.congr
    (P := inst.truthHint ≤ 15 ∧ ChainOk inst.icChain ∧ inst.span.Fits ∧ True) ?_
    (by rw [and_true]; rfl)
  refine Decodes.next (reads_op _) (Decodes.next (reads_type _) (Decodes.next (reads_var _)
    (Decodes.pass (mask_known inst) ?_)))
  simp only [on_mask]
  refine Decodes.next (reads_default (reads_u32 _) not_not.mp) ?_
  refine Decodes.next (reads_default (vec _ reads_u32 writeU32_ne_nil) eq_empty) ?_
  refine Decodes.next (reads_default (reads_f64 _) not_not.mp) ?_
  refine Decodes.next (reads_default (reads_i32 _) not_not.mp) ?_
  refine Decodes.next (reads_default (reads_u32 _) not_not.mp) ?_
  refine Decodes.next (reads_default (reads_type _) not_not.mp) ?_
  iterate 12 refine Decodes.next (reads_default (reads_u32 _) not_not.mp) ?_
  refine Decodes.next (reads_transitionRun inst) ?_
  refine Decodes.next (reads_default (reads_u32 _) not_not.mp) ?_
  -- from here on a field may be refused, though not where it is absent
  refine Decodes.bind
    (Decodes.field (fun h => decodes_truthHint _ (of_decide_eq_true h)) fun h => ?_) fun _ => ?_
  · have hzero := not_not.mp (of_decide_eq_false h)
    exact ⟨hzero ▸ by decide, hzero⟩
  refine Decodes.bind
    (Decodes.field (fun h => decodes_icChain _ (of_decide_eq_true h)) fun h => ?_) fun _ => ?_
  · have hzero := not_not.mp (of_decide_eq_false h)
    exact ⟨hzero ▸ by decide, hzero⟩
  refine Decodes.bind (Decodes.field (fun _ => decodes_span _) fun h => ?_) fun _ => ?_
  · have hnone := span_absent (of_decide_eq_false h)
    exact ⟨hnone ▸ by decide, hnone⟩
  refine Decodes.next (reads_default (reads_target _) target_absent) ?_
  refine Decodes.next (reads_default (reads_target _) target_absent) ?_
  exact Decodes.done inst.asRead

variable {pieces : List Bytes} {m : Module}

theorem bytes_ne_nil {b : UInt8} : (u8 b :: pieces).flatten ≠ [] :=
  cons_ne_nil _ _

theorem var_pieces_ne_nil {v : UInt64} : (var v :: pieces).flatten ≠ [] := by
  exact append_ne_nil_of_left_ne_nil (var_ne_nil v) _

theorem str_pieces_ne_nil {s : Str} : (str s :: pieces).flatten ≠ [] := by
  rw [flatten_cons, str, append_assoc]
  exact append_ne_nil_of_left_ne_nil (var_ne_nil _) _

theorem reads_blockParam (p : BlockParam) : Reads readBlockParam (writeBlockParam p) p := by
  refine Decodes.reads (P := True) ?_ trivial
  refine Decodes.next (reads_u32 _) (Decodes.next (reads_type _) ?_)
  exact Decodes.done p

def Block.mapInstructions (f : Instruction → Instruction) (b : Block) : Block :=
  { b with instructions := b.instructions.map f }

def Block.All (P : Instruction → Prop) (b : Block) : Prop := ∀ inst ∈ b.instructions.1, P inst

theorem decodes_block (b : Block) :
    Decodes readBlock (writeBlock b) (b.All Readable)
      (b.mapInstructions asRead) := by
  refine Decodes.congr (P := b.All Readable ∧ True) ?_ (iff_of_eq (and_true _))
  refine Decodes.next (reads_u32 _) ?_
  refine Decodes.next (vec _ reads_blockParam fun _ => var_pieces_ne_nil) ?_
  refine Decodes.next (reads_copyClass _) (Decodes.next (reads_flag _) ?_)
  refine Decodes.next (reads_next _) (Decodes.next (reads_next _) ?_)
  refine Decodes.bind (Decodes.vec _ decodes_instruction fun _ => bytes_ne_nil) fun _ => ?_
  exact Decodes.done (b.mapInstructions asRead)

/-- A constant known of a parameter is an `int32_t`. -/
def Param.Readable (p : Param) : Prop :=
  ∀ v ∈ p.knownConstInt, -2 ^ 31 ≤ v.toInt ∧ v.toInt ≤ 2 ^ 31 - 1

theorem Param.flags_pinned (p : Param) : decide (p.flags &&& 1 ≠ 0) = p.pinned := by
  rw [flags]
  cases p.pinned <;> cases p.knownConstInt.isSome <;> decide

theorem Param.flags_known (p : Param) : decide (p.flags &&& 2 ≠ 0) = p.knownConstInt.isSome := by
  rw [flags]
  cases p.pinned <;> cases p.knownConstInt.isSome <;> decide

theorem decodes_knownConstInt (known : Option Int64) :
    Decodes (Reader.field known.isSome none readKnownConstInt) (writeKnownConstInt known)
      (∀ v ∈ known, -2 ^ 31 ≤ v.toInt ∧ v.toInt ≤ 2 ^ 31 - 1) known := by
  cases known with
  | none => exact (pure _).decodes_of (by simp)
  | some v =>
    -- written as an `int64_t`, read as an `int32_t`
    refine (Decodes.value (Decodes.whole (Decodes.bind (decodes_i32 v) fun _ =>
      Decodes.done (some v.toInt32.toInt64))) ?_).congr ?_
    · intro h
      rw [toInt64_toInt32 h.1]
    · simp

theorem decodes_param (p : Param) : Decodes readParam (writeParam p) p.Readable p := by
  refine Decodes.congr (P := p.Readable ∧ True) ?_ (iff_of_eq (and_true _))
  refine Decodes.next (reads_str _) (Decodes.next (reads_type _) (Decodes.next (reads_u8 _)
    (Decodes.next (reads_u32 _) ?_)))
  simp only [flags_pinned, flags_known]
  exact Decodes.bind (decodes_knownConstInt _) fun _ => Decodes.done p

theorem reads_inlineFrame (f : InlineFrame) : Reads readInlineFrame (writeInlineFrame f) f := by
  refine Decodes.reads (P := True) ?_ trivial
  refine Decodes.next (reads_u32 _) (Decodes.next (reads_u32 _) (Decodes.next (reads_u32 _) ?_))
  refine Decodes.next (reads_file _ _) (Decodes.next (reads_u32 _) ?_)
  exact Decodes.done f

theorem reads_coroKind (k : Int8) : Reads readCoroKind (svar k.toInt64) k := by
  have hlo := k.le_toInt
  have hhi := k.toInt_lt
  have hread := reads_i32 k.toInt32
  rw [Int8.toInt64_toInt32] at hread
  have hok : ¬(k.toInt32.toInt < -128 ∨ k.toInt32.toInt > 127) := by
    rw [Int8.toInt_toInt32]
    omega
  refine of_pieces (Decodes.next hread (Decodes.pass (decide_eq_false hok) ?_))
  rw [Int8.toInt8_toInt32]
  exact Decodes.done k

def Function.mapInstructions (f : Instruction → Instruction) (fn : Function) : Function :=
  { fn with blocks := fn.blocks.map (Block.mapInstructions f) }

def Function.All (P : Instruction → Prop) (Q : Param → Prop) (fn : Function) : Prop :=
  (∀ p ∈ fn.params.1, Q p) ∧ ∀ b ∈ fn.blocks.1, b.All P

theorem decodes_function (fn : Function) :
    Decodes readFunction (writeFunction fn) (fn.All Readable Readable)
      (fn.mapInstructions asRead) := by
  refine Decodes.congr (P := (∀ p ∈ fn.params.1, p.Readable) ∧
    (∀ b ∈ fn.blocks.1, b.All Readable) ∧ True) ?_ (by rw [and_true]; rfl)
  refine Decodes.next (reads_str _) (Decodes.next (reads_var _) ?_)
  simp only [on_mask_fn]
  refine Decodes.bind (Decodes.vec _ decodes_param fun _ => str_pieces_ne_nil) fun _ => ?_
  rw [Vec.map_id']
  refine Decodes.next (reads_type _) (Decodes.next (reads_u32 _) ?_)
  refine Decodes.next (reads_coroKind _) (Decodes.next (reads_u32 _) ?_)
  refine Decodes.next (reads_u32 _) (Decodes.next (reads_u32 _) ?_)
  refine Decodes.next (reads_file _ _) (Decodes.next (reads_u32 _) (Decodes.next (reads_u32 _) ?_))
  refine Decodes.next (reads_str _) (Decodes.next (reads_u32 _) ?_)
  refine Decodes.next (reads_next _) (Decodes.next (reads_u32 _) ?_)
  refine Decodes.next (vec _ reads_inlineFrame fun _ => var_pieces_ne_nil) ?_
  refine Decodes.next (reads_u32 _) ?_
  refine Decodes.bind (Decodes.vec _ decodes_block fun _ => var_pieces_ne_nil) fun _ => ?_
  exact Decodes.done (fn.mapInstructions asRead)

theorem reads_classFamilyField (f : ClassFamilyField) :
    Reads readClassFamilyField (writeClassFamilyField f) f := by
  refine Decodes.reads (P := True) ?_ trivial
  refine Decodes.next (reads_u32 _) (Decodes.next (reads_flag _) ?_)
  exact Decodes.done f

theorem reads_classFamily (fam : ClassFamilyEntry) :
    Reads readClassFamily (writeClassFamily fam) fam := by
  refine Decodes.reads (P := True) ?_ trivial
  refine Decodes.next (reads_str _) ?_
  refine Decodes.next (vec _ reads_classFamilyField fun _ => var_pieces_ne_nil) ?_
  exact Decodes.done fam

theorem reads_censusSite (c : CensusSiteEntry) : Reads readCensusSite (writeCensusSite c) c := by
  refine Decodes.reads (P := True) ?_ trivial
  refine Decodes.next (reads_u32 _) (Decodes.next (reads_u32 _) ?_)
  exact Decodes.done c

theorem reads_nativeImport (n : NativeImport) : Reads readNativeImport (writeNativeImport n) n := by
  refine Decodes.reads (P := True) ?_ trivial
  refine Decodes.next (reads_str _) (Decodes.next (reads_str _) ?_)
  refine Decodes.next (reads_u32 _) (Decodes.next (reads_u32 _) ?_)
  exact Decodes.done n

def Module.mapInstructions (f : Instruction → Instruction) (m : Module) : Module :=
  { m with functions := m.functions.map (Function.mapInstructions f) }

/-- What every instruction and every parameter of a module satisfies. -/
def Module.All (P : Instruction → Prop) (Q : Param → Prop) (m : Module) : Prop :=
  ∀ fn ∈ m.functions.1, fn.All P Q

theorem str_ne_nil (s : Str) : str s ≠ [] :=
  append_ne_nil_of_left_ne_nil (var_ne_nil _) _

theorem decodes_module (m : Module) :
    Decodes readModule (writeModule m) (m.All Readable Readable)
      (m.mapInstructions asRead) := by
  refine Decodes.congr (P := m.All Readable Readable ∧ True) ?_
    (iff_of_eq (and_true _))
  refine Decodes.next (reads_str _) (Decodes.next (vec _ reads_str str_ne_nil) ?_)
  refine Decodes.next (reads_u32 _) (Decodes.next (reads_u32 _) (Decodes.next (reads_u32 _) ?_))
  refine Decodes.next (vec _ reads_classFamily fun _ => str_pieces_ne_nil) ?_
  refine Decodes.next (vec _ reads_u32 writeU32_ne_nil) ?_
  refine Decodes.next (vec _ reads_censusSite fun _ => var_pieces_ne_nil) ?_
  refine Decodes.next (reads_str _) ?_
  refine Decodes.next (vec _ reads_nativeImport fun _ => str_pieces_ne_nil) ?_
  refine Decodes.next (vec _ reads_str str_ne_nil) ?_
  refine Decodes.bind (Decodes.vec _ decodes_function fun _ => str_pieces_ne_nil) fun _ => ?_
  exact Decodes.done (m.mapInstructions asRead)

theorem expect_eq (n : UInt64) (what : String) (rest : Bytes) :
    expect n what (var n ++ rest) = .ok rest := by
  rw [expect, reads_var n rest]
  exact if_pos rfl

theorem deserializeModule_eq (m : Module) :
    deserializeModule (serializeModule m) = finish (readModule (M := Reader) (writeModule m ++ [])) := by
  simp [deserializeModule, serializeModule, expect_eq, bind, Except.bind]

/-- **What is read back of a module whose fields the reader accepts.** -/
theorem deserialize_serialize (h : m.All Readable Readable) :
    deserializeModule (serializeModule m) = .ok (m.mapInstructions asRead) := by
  rw [deserializeModule_eq, (decodes_module m).reads h, finish]

/-- **The reader fails on any other.** -/
theorem deserialize_serialize_fails (h : ¬m.All Readable Readable) :
    ∃ what, deserializeModule (serializeModule m) = .error what := by
  obtain ⟨what, hfail⟩ := (decodes_module m).fails h []
  refine ⟨"malformed IL: " ++ what, ?_⟩
  rw [deserializeModule_eq, hfail, finish]

variable (inst : Instruction)

theorem transitionRun_cell : inst.transitionRun.1 = inst.transitionRunCell := by
  rw [transitionRun]
  split_ifs with hcell
  · rfl
  · exact (not_not.mp hcell).symm

theorem bits_asRead : inst.asRead.bits = inst.bits := by
  funext b
  cases b with
  | hasTransitionRun =>
    change decide (inst.transitionRun.1 ≠ _) = decide (inst.transitionRunCell ≠ _)
    rw [transitionRun_cell]
  | _ => rfl

theorem write_asRead : writeInstruction inst.asRead = writeInstruction inst := by
  have hmask : inst.asRead.mask = inst.mask := by
    rw [Instruction.mask, Instruction.mask, bits_asRead]
  -- the run is written only where nothing of it is lost
  have hrun :
      field (hasTransitionRun.on inst.mask) (writeTransitionRun inst.asRead) =
      field (hasTransitionRun.on inst.mask) (writeTransitionRun inst) := by
    rw [on_mask, bits]
    by_cases hcell : inst.transitionRunCell ≠ kNoTransitionRun
    · have hsame : inst.transitionRun =
          (inst.transitionRunCell, inst.transitionRunLength, inst.transitionRunSlot) := if_pos hcell
      rw [asRead, hsame]
      rfl
    · rw [decide_eq_false hcell]
      rfl
  simp only [writeInstruction, hmask, hrun]
  rfl

section Map

variable {α β : Type} {f g : Instruction → Instruction}

theorem write_map {w : α → Bytes} {f : α → α} (h : ∀ x, w (f x) = w x) (l : Vec α) :
    vec w (l.map f) = vec w l := by
  change var (.ofNat (l.1.map f).length) ++ (l.1.map f).flatMap w = _
  rw [length_map, flatMap_map]
  simp only [h]
  rfl

theorem Vec.map_inj {f g : α → β} {l : Vec α} : l.map f = l.map g ↔ ∀ x ∈ l.1, f x = g x :=
  Subtype.ext_iff.trans map_inj_left

/-- A change of instructions that their bytes do not show does not show in the module's. -/
theorem serialize_mapInstructions (h : ∀ inst, writeInstruction (f inst) = writeInstruction inst)
    (m : Module) : serializeModule (m.mapInstructions f) = serializeModule m := by
  have hblock : ∀ b, writeBlock (b.mapInstructions f) = writeBlock b := by
    intro b
    rw [writeBlock, Block.mapInstructions, write_map h]
    rfl
  have hfn : ∀ fn, writeFunction (fn.mapInstructions f) = writeFunction fn := by
    intro fn
    rw [writeFunction, Function.mapInstructions, write_map hblock]
    rfl
  rw [serializeModule, writeModule, mapInstructions, write_map hfn]
  rfl

/-- Two changes of the instructions of a module are the same if they are on each of them. -/
theorem mapInstructions_inj {m : Module} : m.mapInstructions f = m.mapInstructions g ↔
    m.All (fun inst => f inst = g inst) fun _ => True := by
  have hblock : ∀ b : Block, b.mapInstructions f = b.mapInstructions g ↔
      b.All fun inst => f inst = g inst := by
    intro b
    rw [Block.mapInstructions, Block.mapInstructions, Block.mk.injEq]
    simp only [true_and, and_true]
    exact Vec.map_inj
  have hfn : ∀ fn : Function, fn.mapInstructions f = fn.mapInstructions g ↔
      fn.All (fun inst => f inst = g inst) fun _ => True := by
    intro fn
    rw [Function.mapInstructions, Function.mapInstructions, Function.mk.injEq]
    simp only [true_and, and_true, Vec.map_inj, hblock]
    exact ⟨fun h => ⟨fun _ _ => trivial, h⟩, fun h => h.2⟩
  rw [Module.mapInstructions, Module.mapInstructions, Module.mk.injEq]
  simp only [true_and, and_true, Vec.map_inj, hfn]
  rfl

theorem mapInstructions_comp (f g : Instruction → Instruction) (m : Module) :
    (m.mapInstructions g).mapInstructions f = m.mapInstructions (f ∘ g) := by
  have hvec : ∀ {γ : Type} {f g h : γ → γ} (l : Vec γ), (∀ x, f (g x) = h x) →
      (l.map g).map f = l.map h := by
    intro γ f g h l heq
    exact Subtype.ext ((map_map ..).trans (map_congr_left fun x _ => heq x))
  have hblock : ∀ b : Block,
      (b.mapInstructions g).mapInstructions f = b.mapInstructions (f ∘ g) := by
    intro b
    exact congrArg (fun l => { b with instructions := l }) (hvec _ fun _ => rfl)
  have hfn : ∀ fn : Function,
      (fn.mapInstructions g).mapInstructions f = fn.mapInstructions (f ∘ g) := by
    intro fn
    exact congrArg (fun l => { fn with blocks := l }) (hvec _ hblock)
  exact congrArg (fun l => { m with functions := l }) (hvec _ hfn)

end Map

/-- An instruction, but for the field that has no place in the bytes. -/
def Instruction.serialized (inst : Instruction) : Instruction := { inst with staticRegrow := false }

/-- A module is read back with every serialized field as it was, and written again to the same
bytes. -/
def RoundTrips (m : Module) : Prop :=
  ∃ m', deserializeModule (serializeModule m) = .ok m' ∧
    m'.mapInstructions Instruction.serialized = m.mapInstructions Instruction.serialized ∧
    serializeModule m' = serializeModule m

/-- A transition run without a cell is empty. -/
def Instruction.RunKept (inst : Instruction) : Prop :=
  inst.transitionRunCell = kNoTransitionRun →
    inst.transitionRunLength = 0 ∧ inst.transitionRunSlot = 0

theorem serialized_asRead {inst : Instruction} :
    (serialized ∘ asRead) inst = inst.serialized ↔ inst.RunKept := by
  constructor
  · intro h hcell
    have hnone : inst.transitionRun = (kNoTransitionRun, 0, 0) := if_neg (not_not.mpr hcell)
    have hlength : inst.transitionRun.2.1 = inst.transitionRunLength :=
      congrArg transitionRunLength h
    have hslot : inst.transitionRun.2.2 = inst.transitionRunSlot :=
      congrArg transitionRunSlot h
    rw [hnone] at hlength hslot
    exact ⟨hlength.symm, hslot.symm⟩
  · intro h
    have hrun : inst.transitionRun =
        (inst.transitionRunCell, inst.transitionRunLength, inst.transitionRunSlot) := by
      by_cases hcell : inst.transitionRunCell = kNoTransitionRun
      · obtain ⟨hlength, hslot⟩ := h hcell
        simp [transitionRun, hcell, hlength, hslot]
      · exact if_pos hcell
    rw [Function.comp_apply, asRead, hrun]
    rfl

theorem Module.all_and {P P' : Instruction → Prop} {Q : Param → Prop} :
    m.All (fun inst => P inst ∧ P' inst) Q ↔ m.All P Q ∧ m.All P' fun _ => True := by
  constructor
  · intro h
    refine ⟨fun fn hfn => ⟨(h fn hfn).1, ?_⟩, fun fn hfn => ⟨fun _ _ => trivial, ?_⟩⟩
    · exact fun b hb inst hinst => ((h fn hfn).2 b hb inst hinst).1
    · exact fun b hb inst hinst => ((h fn hfn).2 b hb inst hinst).2
  · intro ⟨hP, hP'⟩ fn hfn
    refine ⟨(hP fn hfn).1, fun b hb inst hinst => ⟨?_, ?_⟩⟩
    · exact (hP fn hfn).2 b hb inst hinst
    · exact (hP' fn hfn).2 b hb inst hinst

theorem mapInstructions_serialized_asRead :
    (m.mapInstructions asRead).mapInstructions serialized =
      m.mapInstructions serialized ↔ m.All RunKept fun _ => True := by
  rw [mapInstructions_comp, mapInstructions_inj]
  simp only [serialized_asRead]

/-- **A module round-trips if and only if the reader accepts its instructions and parameters, and
no instruction has a transition run without a cell.** -/
theorem roundTrips_iff (m : Module) :
    RoundTrips m ↔ m.All (fun inst => inst.Readable ∧ inst.RunKept) Readable := by
  rw [all_and]
  constructor
  · intro ⟨m', hread, hsame, _⟩
    by_cases hreadable : m.All Readable Readable
    · rw [deserialize_serialize hreadable] at hread
      obtain rfl : _ = m' := Except.ok.inj hread
      exact ⟨hreadable, mapInstructions_serialized_asRead.mp hsame⟩
    · obtain ⟨what, hfail⟩ := deserialize_serialize_fails hreadable
      rw [hfail] at hread
      cases hread
  · intro ⟨hreadable, hkept⟩
    exact ⟨m.mapInstructions asRead, deserialize_serialize hreadable,
      mapInstructions_serialized_asRead.mpr hkept, serialize_mapInstructions write_asRead m⟩

/-- A module whose only instruction is a read of a property, with this inline-cache chain. -/
def chained (icChain : UInt8) : Module :=
  { functions := ⟨[{ blocks := ⟨[{ instructions := ⟨[{ op := .propGet, icChain }], by simp⟩ }],
      by simp⟩ }], by simp⟩ }

/-- A chain of one way, with the bit that its objects lack the key, is written and then refused. -/
theorem chained_fails : ¬RoundTrips (chained 17) := by
  have hbad : ¬(chained 17).All Readable Readable := by
    intro h
    have hinst := (h _ (mem_singleton.mpr rfl)).2 _ (mem_singleton.mpr rfl) _
      (mem_singleton.mpr rfl)
    exact absurd hinst.2.1 (by decide)
  obtain ⟨what, hfail⟩ := deserialize_serialize_fails hbad
  intro ⟨m', hread, _⟩
  rw [hfail] at hread
  cases hread

end Bronze.Il
