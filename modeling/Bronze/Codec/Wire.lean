import Mathlib

/-!
# Bytes of a binary encoding

Integers as LEB128 varints, signed ones in zigzag order, lists and strings with a varint length
before them, optional fields whose presence is a bit of a mask. A writer is the bytes it writes. A
reader takes bytes off what is left to read, and fails with a text; a failure is kept, so nothing
is read after it.

`Decodes` says of a reader and of bytes that it reads a value off them if a condition holds, and
fails if it does not, whatever comes after the bytes. It composes along the steps of a reader,
the condition of each of them being added.

## Main results

* `Decodes.next`, `Decodes.bind`: one step of a reader
-/

namespace Bronze.Codec

open List Nat

abbrev Bytes := List UInt8

/-- The elements of a vector, whose length is a 64-bit number. -/
abbrev Vec (α : Type) := { l : List α // l.length < 2 ^ 64 }

def Vec.size {α : Type} (l : Vec α) : UInt64 := .ofNat l.1.length

instance {α : Type} : EmptyCollection (Vec α) := ⟨⟨[], by simp⟩⟩

instance {α : Type} : Singleton α (Vec α) := ⟨fun a => ⟨[a], by simp⟩⟩

@[simp] theorem Vec.val_singleton {α : Type} (a : α) : ({a} : Vec α).1 = [a] := rfl

def Vec.pair {α : Type} (a b : α) : Vec α := ⟨[a, b], by simp⟩

/-- A vector with its elements replaced. -/
def Vec.map {α β : Type} (f : α → β) (l : Vec α) : Vec β := ⟨l.1.map f, by simpa using l.2⟩

theorem length_lt {α : Type} {n : UInt64} (l : { l : List α // l.length = n.toNat }) :
    l.1.length < 2 ^ 64 := by
  rw [l.2]
  exact n.toNat_lt

theorem Vec.size_toNat {α : Type} (l : Vec α) : l.size.toNat = l.1.length :=
  UInt64.toNat_ofNat_of_lt l.2

/-- What is read, and the bytes left, or the text of the failure. -/
abbrev Reader := StateT Bytes (Except String)

def bit (m : UInt64) (i : Nat) : Bool := m &&& ((1 : UInt64) <<< UInt64.ofNat i) ≠ 0

def mask (set : Nat → Bool) : (n : Nat) → UInt64
  | 0 => 0
  | n + 1 => if set n then mask set n ||| ((1 : UInt64) <<< UInt64.ofNat n) else mask set n

namespace Writer

def u8 (v : UInt8) : Bytes := [v]

/-- The bytes of a varint of which `fuel` may be followed by another. -/
def varLoop : Nat → UInt64 → Bytes
  | 0, v => [v.toUInt8]
  | fuel + 1, v =>
    if v ≥ 0x80 then ((v &&& 0x7F) ||| 0x80).toUInt8 :: varLoop fuel (v >>> 7) else [v.toUInt8]

/-- A varint: seven bits a byte, the low ones first. -/
def var (v : UInt64) : Bytes := varLoop 9 v

/-- A signed varint, in zigzag order. -/
def svar (v : Int64) : Bytes := var ((v.toUInt64 <<< 1) ^^^ (v >>> 63).toUInt64)

/-- `n` bytes, lowest first. -/
def bytesLoop : (n : Nat) → UInt64 → Bytes
  | 0, _ => []
  | n + 1, v => v.toUInt8 :: bytesLoop n (v >>> 8)

def f64 (bits : UInt64) : Bytes := bytesLoop 8 bits

def str (s : Vec UInt8) : Bytes := var s.size ++ s.1

/-- A vector: its length, and its elements one after another. -/
def vec {α : Type} (w : α → Bytes) (l : Vec α) : Bytes := var l.size ++ l.1.flatMap w

/-- A field that is written if it is present. -/
def field (present : Bool) (bytes : Bytes) : Bytes := if present then bytes else []

end Writer

namespace Reader

variable {α : Type}

def fail (what : String) : Reader α := throw what

/-- A test of what was read. -/
def reject (bad : Bool) (what : String) : Reader Unit := if bad then fail what else pure ()

def byte (what : String) : Reader UInt8 := do
  match ← get with
  | [] => fail what
  | b :: rest =>
    set rest
    pure b

def u8 : Reader UInt8 := byte "truncated"

def varLoop : Nat → UInt64 → UInt64 → Reader UInt64
  | 0, _, _ => fail "overlong varint"
  | fuel + 1, shift, v => do
    let b ← byte "truncated varint"
    let v := v ||| ((b &&& 0x7F).toUInt64 <<< shift)
    if b &&& 0x80 = 0 then pure v else varLoop fuel (shift + 7) v

def var : Reader UInt64 := varLoop 10 0 0

def u32 : Reader UInt32 := do
  let v ← var
  reject (v > 0xFFFFFFFF) "u32 out of range"
  pure v.toUInt32

def i32 : Reader Int32 := do
  let z ← var
  let v := (z >>> 1).toInt64 ^^^ -(z &&& 1).toInt64
  reject (v.toInt < -2 ^ 31 ∨ v.toInt > 2 ^ 31 - 1) "i32 out of range"
  pure v.toInt32

/-- `n` bytes, lowest first. -/
def bytesLoop (what : String) : Nat → UInt64 → UInt64 → Reader UInt64
  | 0, _, v => pure v
  | n + 1, shift, v => do
    let b ← byte what
    bytesLoop what n (shift + 8) (v ||| (b.toUInt64 <<< shift))

def f64 : Reader UInt64 := bytesLoop "truncated f64" 8 0 0

/-- A number of elements of one byte at least, bounded by what is left. -/
def count (what : String) : Reader UInt64 := do
  let n ← var
  let left ← get
  reject (n.toNat > left.length) what
  pure n

/-- What one reader reads `n` times. -/
def times (r : Reader α) : (n : Nat) → Reader { l : List α // l.length = n }
  | 0 => pure ⟨[], rfl⟩
  | n + 1 => do
    let a ← r
    let l ← times r n
    pure ⟨a :: l.1, congrArg (· + 1) l.2⟩

/-- A count, and as many elements. -/
def counted (what : String) (r : Reader α) : Reader (Vec α) := do
  let n ← count what
  let l ← times r n.toNat
  pure ⟨l.1, length_lt l⟩

def vec (r : Reader α) : Reader (Vec α) := counted "count runs past the end" r

def str : Reader (Vec UInt8) := counted "string runs past the end" u8

/-- A field that is read if it is present, and has its default otherwise. -/
def field (present : Bool) (default : α) (r : Reader α) : Reader α :=
  if present then r else pure default

/-- A byte that stands for one of the values up to `last`. -/
def enum (ofNat : Nat → α) (last : Nat) (what : String) : Reader α := do
  let b ← u8
  reject (b.toNat > last) what
  pure (ofNat b.toNat)

end Reader

/-- The steps of a reader, of one that stops at a failure or of one that goes on after it. -/
class Wire (M : Type → Type) where
  u8 : M UInt8
  var : M UInt64
  u32 : M UInt32
  i32 : M Int32
  f64 : M UInt64
  str : M (Vec UInt8)
  reject : Bool → String → M Unit
  enum {α : Type} : (Nat → α) → Nat → String → M α
  field {α : Type} : Bool → α → M α → M α
  vec {α : Type} : M α → M (Vec α)
  /-- The elements after one that fails are defaults. -/
  vecOk {α : Type} : α → M α → M (Vec α)

instance : Wire Reader where
  u8 := Reader.u8
  var := Reader.var
  u32 := Reader.u32
  i32 := Reader.i32
  f64 := Reader.f64
  str := Reader.str
  reject := Reader.reject
  enum := Reader.enum
  field := Reader.field
  vec := Reader.vec
  vecOk _ := Reader.vec

section Rules

variable {α β : Type} {r : Reader α} {f : α → Reader β} {bytes : Bytes} {pieces : List Bytes}
  {a a' : α} {b : β} {P Q : Prop}

/-- The reader reads `a` off the bytes. -/
def Reads (r : Reader α) (bytes : Bytes) (a : α) : Prop :=
  ∀ rest, r (bytes ++ rest) = .ok (a, rest)

/-- The reader reads `a` off the bytes if `P` holds, and fails on them if it does not. -/
structure Decodes (r : Reader α) (bytes : Bytes) (P : Prop) (a : α) : Prop where
  reads : P → Reads r bytes a
  fails : ¬P → ∀ rest, ∃ what, r (bytes ++ rest) = .error what

theorem Reads.decodes (h : Reads r bytes a) : Decodes r bytes True a :=
  ⟨fun _ => h, absurd trivial⟩

theorem Reads.pure (a : α) : Reads (Pure.pure a) [] a := fun _ => rfl

theorem Reads.decodes_of (h : Reads r bytes a) (hP : P) : Decodes r bytes P a :=
  ⟨fun _ => h, absurd hP⟩

theorem Decodes.congr (h : Decodes r bytes P a) (hPQ : P ↔ Q) : Decodes r bytes Q a :=
  ⟨fun hq => h.reads (hPQ.mpr hq), fun hq => h.fails (fun hp => hq (hPQ.mp hp))⟩

theorem Decodes.value (h : Decodes r bytes P a) (ha : P → a = a') : Decodes r bytes P a' :=
  ⟨fun hp => ha hp ▸ h.reads hp, h.fails⟩

theorem Decodes.whole (h : Decodes r [bytes].flatten P a) : Decodes r bytes P a := by
  rwa [flatten_singleton] at h

/-- **The end of a reader.** -/
theorem Decodes.done (a : α) : Decodes (Pure.pure a) [].flatten True a := (Reads.pure a).decodes

/-- **One step of a reader**, that may fail. -/
theorem Decodes.bind (h : Decodes r bytes P a) (hf : P → Decodes (f a) pieces.flatten Q b) :
    Decodes (r >>= f) (bytes :: pieces).flatten (P ∧ Q) b where
  reads := by
    rintro ⟨hp, hq⟩ rest
    have hrun := h.reads hp (pieces.flatten ++ rest)
    rw [← append_assoc] at hrun
    change Except.bind (r ((bytes ++ pieces.flatten) ++ rest)) _ = _
    rw [hrun]
    exact (hf hp).reads hq rest
  fails hpq rest := by
    change ∃ what, Except.bind (r ((bytes ++ pieces.flatten) ++ rest)) _ = _
    rw [append_assoc]
    by_cases hp : P
    · -- the failure is one of the steps that follow
      obtain ⟨what, hfail⟩ := (hf hp).fails (fun hq => hpq ⟨hp, hq⟩) rest
      refine ⟨what, ?_⟩
      rw [h.reads hp]
      exact hfail
    · obtain ⟨what, hfail⟩ := h.fails hp (pieces.flatten ++ rest)
      refine ⟨what, ?_⟩
      rw [hfail]
      rfl

/-- **One step of a reader**, that reads in any case. -/
theorem Decodes.next (h : Reads r bytes a) (hf : Decodes (f a) pieces.flatten Q b) :
    Decodes (r >>= f) (bytes :: pieces).flatten Q b :=
  ((h.decodes).bind fun _ => hf).congr (iff_of_eq (true_and Q))

theorem Reads.of_pieces (h : Decodes r [bytes].flatten True a) : Reads r bytes a :=
  h.whole.reads trivial

/-- **A test of what was read.** -/
theorem Decodes.check {bad : Bool} {what : String}
    (h : bad = false → Decodes r pieces.flatten Q a) :
    Decodes (Reader.reject bad what >>= fun _ => r) pieces.flatten (bad = false ∧ Q) a := by
  cases bad with
  | false => exact (h rfl).congr (by simp)
  | true => exact ⟨fun hbad => absurd hbad.1 (by decide), fun _ _ => ⟨what, rfl⟩⟩

theorem Decodes.pass {bad : Bool} {what : String} (hok : bad = false)
    (h : Decodes r pieces.flatten Q a) :
    Decodes (Reader.reject bad what >>= fun _ => r) pieces.flatten Q a := by
  subst hok
  exact h

theorem reads_byte (v : UInt8) (what : String) : Reads (Reader.byte what) [v] v := fun _ => rfl

theorem reads_u8 (v : UInt8) : Reads Reader.u8 (Writer.u8 v) v := reads_byte v _

theorem Reads.field {present : Bool} {default : α} (h : Reads r bytes a)
    (habsent : present = false → a = default) :
    Reads (Reader.field present default r) (Writer.field present bytes) a := by
  cases present with
  | true => exact h
  | false =>
    rw [habsent rfl]
    exact Reads.pure default

theorem Decodes.field {present : Bool} {default : α} (h : present = true → Decodes r bytes P a)
    (habsent : present = false → P ∧ a = default) :
    Decodes (Reader.field present default r) (Writer.field present bytes) P a := by
  cases present with
  | true => exact h rfl
  | false =>
    obtain ⟨hp, rfl⟩ := habsent rfl
    exact (Reads.pure a).decodes_of hp

end Rules

section Varint

variable {fuel k : Nat} {shift acc v : UInt64}

theorem toNat_shift_right_seven (v : UInt64) : (v >>> 7).toNat = v.toNat / 128 := by
  simp [shiftRight_eq_div_pow]

theorem toNat_last (h : v < 0x80) : v.toUInt8.toNat = v.toNat := by
  rw [UInt64.lt_iff_toNat_lt] at h
  exact mod_eq_of_lt (by simp at h; omega)

theorem toNat_more (v : UInt64) : ((v &&& 0x7F) ||| 0x80).toUInt8.toNat = v.toNat % 128 + 128 := by
  have hlow : (v &&& 0x7F).toNat = v.toNat % 128 := by
    exact and_two_pow_sub_one_eq_mod _ 7
  have hor : ((v &&& 0x7F) ||| 0x80).toNat = v.toNat % 128 + 128 := by
    rw [UInt64.toNat_or, hlow, Nat.or_comm]
    have hlt : v.toNat % 128 < 2 ^ 7 := mod_lt _ (by decide)
    exact (two_pow_add_eq_or_of_lt hlt 1).symm.trans (add_comm ..)
  rw [UInt64.toNat_toUInt8]
  omega

theorem and_0x80_eq_zero (b : UInt8) : b &&& 0x80 = 0 ↔ b.toNat < 128 := by
  have hbits : ∀ n < 256, (n &&& 128 = 0 ↔ n < 128) := by decide +kernel
  rw [← UInt8.toNat_inj]
  exact hbits b.toNat b.toNat_lt

theorem toNat_payload (b : UInt8) (hshift : shift.toNat = 7 * k) (hk : k ≤ 9)
    (hacc : acc.toNat < 2 ^ (7 * k)) (hfit : b.toNat % 128 * 2 ^ (7 * k) < 2 ^ 64) :
    (acc ||| ((b &&& 0x7F).toUInt64 <<< shift)).toNat =
      acc.toNat + b.toNat % 128 * 2 ^ (7 * k) := by
  have hlow : (b &&& 0x7F).toUInt64.toNat = b.toNat % 128 := by
    exact and_two_pow_sub_one_eq_mod _ 7
  have hmod : shift.toNat % 64 = 7 * k := by omega
  rw [UInt64.toNat_or, UInt64.toNat_shiftLeft, hlow, hmod, shiftLeft_eq, mod_eq_of_lt hfit,
    Nat.or_comm, Nat.mul_comm, ← Nat.two_pow_add_eq_or_of_lt hacc, Nat.add_comm]

theorem varLoop_last (fuel : Nat) (hshift : shift.toNat = 7 * k) (hk : k ≤ 9)
    (hacc : acc.toNat < 2 ^ (7 * k)) (hfit : v.toNat * 2 ^ (7 * k) < 2 ^ 64) (hv : v < 0x80)
    (rest : Bytes) :
    ∃ r, Reader.varLoop (fuel + 1) shift acc (v.toUInt8 :: rest) = .ok (r, rest) ∧
      r.toNat = acc.toNat + v.toNat * 2 ^ (7 * k) := by
  have hb := toNat_last hv
  have hlt : v.toUInt8.toNat < 128 := by
    rw [hb]
    exact UInt64.lt_iff_toNat_lt.mp hv
  have hmod : v.toUInt8.toNat % 128 = v.toNat := by rw [mod_eq_of_lt hlt, hb]
  refine ⟨acc ||| ((v.toUInt8 &&& 0x7F).toUInt64 <<< shift), ?_, ?_⟩
  · have hzero : v.toUInt8 &&& 0x80 = 0 := (and_0x80_eq_zero _).mpr hlt
    change (if v.toUInt8 &&& 0x80 = 0 then _ else _ : Reader UInt64) rest = _
    rw [if_pos hzero]
    rfl
  · rw [toNat_payload _ hshift hk hacc (by rwa [hmod]), hmod]

theorem varLoop_more (fuel : Nat) {b : UInt8} (hb : ¬b.toNat < 128) (rest : Bytes) :
    Reader.varLoop (fuel + 1) shift acc (b :: rest) =
      Reader.varLoop fuel (shift + 7) (acc ||| ((b &&& 0x7F).toUInt64 <<< shift)) rest := by
  have hne : ¬b &&& 0x80 = 0 := fun h => hb ((and_0x80_eq_zero b).mp h)
  change (if b &&& 0x80 = 0 then _ else _ : Reader UInt64) rest = _
  rw [if_neg hne]

theorem varLoop_reads (hk : k + fuel = 9) (hshift : shift.toNat = 7 * k)
    (hacc : acc.toNat < 2 ^ (7 * k)) (hfit : v.toNat * 2 ^ (7 * k) < 2 ^ 64) (rest : Bytes) :
    ∃ r, Reader.varLoop (fuel + 1) shift acc (Writer.varLoop fuel v ++ rest) =
        .ok (r, rest) ∧ r.toNat = acc.toNat + v.toNat * 2 ^ (7 * k) := by
  induction fuel generalizing k shift acc v with
  | zero =>
    -- at the tenth byte one bit is left
    obtain rfl : k = 9 := by omega
    exact varLoop_last 0 hshift le_rfl hacc hfit
      (UInt64.lt_iff_toNat_lt.mpr (by change v.toNat < 128; omega)) rest
  | succ fuel ih =>
    rw [Writer.varLoop]
    split_ifs with hge
    · have hb := toNat_more v
      have hmod : ((v &&& 0x7F) ||| 0x80).toUInt8.toNat % 128 = v.toNat % 128 := by omega
      have hpow : 2 ^ (7 * (k + 1)) = 2 ^ (7 * k) * 128 := by rw [mul_add, pow_add]; rfl
      -- the value, split into the seven bits of the byte and the rest
      have hmul : v.toNat * 2 ^ (7 * k) =
          v.toNat % 128 * 2 ^ (7 * k) + v.toNat / 128 * (2 ^ (7 * k) * 128) := by
        conv_lhs => rw [← mod_add_div v.toNat 128]
        ring
      have hle : v.toNat % 128 * 2 ^ (7 * k) ≤ 127 * 2 ^ (7 * k) :=
        mul_le_mul_right _ (by omega)
      have hacc' := toNat_payload ((v &&& 0x7F) ||| 0x80).toUInt8 hshift (by omega) hacc
        (by rw [hmod]; omega)
      rw [hmod] at hacc'
      have hstep : (shift + 7).toNat = 7 * (k + 1) := by
        rw [UInt64.toNat_add, hshift]
        change (7 * k + 7) % 2 ^ 64 = _
        omega
      obtain ⟨r, hrun, hr⟩ := ih (k := k + 1) (v := v >>> 7) (by omega) hstep
        (by rw [hacc']; omega) (by rw [toNat_shift_right_seven, hpow]; omega)
      refine ⟨r, ?_, ?_⟩
      · rw [cons_append, varLoop_more _ (by omega)]
        exact hrun
      · rw [hr, hacc', toNat_shift_right_seven, hpow, hmul, add_assoc]
    · exact varLoop_last _ hshift (by omega) hacc hfit (UInt64.not_le.mp hge) rest

/-- **A varint is read as it was written.** -/
theorem reads_var (v : UInt64) : Reads Reader.var (Writer.var v) v := by
  intro rest
  obtain ⟨r, hrun, hr⟩ :=
    varLoop_reads (k := 0) (v := v) (zero_add 9) (rfl : (0 : UInt64).toNat = 0)
    (by decide : (0 : UInt64).toNat < 1) (by simpa using v.toNat_lt) rest
  obtain rfl : r = v := UInt64.toNat_inj.mp (by simpa using hr)
  exact hrun

theorem var_ne_nil (v : UInt64) : Writer.var v ≠ [] := by
  rw [Writer.var, Writer.varLoop]
  split_ifs <;> simp

end Varint

/-! ## Numbers of other widths -/

section Numbers

theorem reads_u32 (v : UInt32) : Reads Reader.u32 (Writer.var v.toUInt64) v := by
  have hle : ¬v.toUInt64 > 0xFFFFFFFF := by
    rw [UInt64.not_lt]
    exact le_of_lt_succ v.toNat_lt
  refine Reads.of_pieces (Decodes.next (reads_var _) (Decodes.pass (decide_eq_false hle) ?_))
  rw [UInt32.toUInt32_toUInt64]
  exact Decodes.done v

theorem sshiftRight_sign (x : BitVec 64) :
    x.sshiftRight 63 = if x.msb then BitVec.allOnes 64 else 0#64 := by
  apply BitVec.eq_of_getLsbD_eq
  intro i hi
  have hlast : 63 + i < 64 → x.getLsbD (63 + i) = x.msb := by
    intro h
    obtain rfl : i = 0 := by omega
    simp [BitVec.msb_eq_getLsbD_last]
  rw [BitVec.getLsbD_sshiftRight]
  cases hm : x.msb
  · simp
    intro h h'
    rw [hlast h', hm]
  · simp only [if_true, BitVec.getLsbD_allOnes]
    by_cases h' : 63 + i < 64
    · rw [hlast h', hm]
      simp [hi]
    · simp [h', hi]

theorem zigzag_bits (x : BitVec 64) :
    (((x <<< 1) ^^^ x.sshiftRight 63) >>> 1) ^^^
      -(((x <<< 1) ^^^ x.sshiftRight 63) &&& 1#64) = x := by
  have hlow : ((x <<< 1) ^^^ x.sshiftRight 63) &&& 1#64 = if x.msb then 1#64 else 0#64 := by
    apply BitVec.eq_of_getLsbD_eq
    intro i hi
    rw [sshiftRight_sign]
    cases hm : x.msb <;> cases i <;> simp
  have hneg : -(if x.msb then 1#64 else 0#64) = if x.msb then BitVec.allOnes 64 else 0#64 := by
    cases x.msb <;> decide
  rw [hlow, hneg, sshiftRight_sign]
  apply BitVec.eq_of_getLsbD_eq
  intro i hi
  by_cases h : i = 63
  · have hlast : x.getLsbD i = x.msb := by
      subst h
      simp [BitVec.msb_eq_getLsbD_last]
    rw [hlast]
    subst h
    cases hm : x.msb <;> simp
  · have hnext : 1 + i < 64 := by omega
    cases hm : x.msb
    · simp [hnext, BitVec.getLsbD_eq_getElem hi]
    · simp only [if_true, BitVec.getLsbD_xor, BitVec.getLsbD_allOnes, BitVec.getLsbD_ushiftRight]
      simp [hnext, hi]

theorem zigzag (v : Int64) :
    ((((v.toUInt64 <<< 1) ^^^ (v >>> 63).toUInt64) >>> 1).toInt64 ^^^
      -(((v.toUInt64 <<< 1) ^^^ (v >>> 63).toUInt64) &&& 1).toInt64) = v := by
  obtain ⟨⟨x⟩⟩ := v
  apply Int64.toBitVec_inj.mp
  exact zigzag_bits x

/-- A signed varint is read as an `int32_t` if it is one. -/
theorem decodes_i32 (v : Int64) :
    Decodes Reader.i32 (Writer.svar v) (-2 ^ 31 ≤ v.toInt ∧ v.toInt ≤ 2 ^ 31 - 1) v.toInt32 := by
  refine Decodes.whole (Decodes.next (reads_var _) ?_)
  simp only [zigzag]
  refine (Decodes.check fun _ => Decodes.done v.toInt32).congr ?_
  simp

theorem toNat_shift_right_eight (v : UInt64) : (v >>> 8).toNat = v.toNat / 256 := by
  simp [shiftRight_eq_div_pow]

theorem bytesLoop_reads {n k : Nat} {shift acc v : UInt64} (what : String) (hk : k + n = 8)
    (hshift : shift.toNat = 8 * k) (hacc : acc.toNat < 2 ^ (8 * k))
    (hv : v.toNat < 2 ^ (8 * n)) (rest : Bytes) :
    ∃ r, Reader.bytesLoop what n shift acc (Writer.bytesLoop n v ++ rest) =
        .ok (r, rest) ∧ r.toNat = acc.toNat + v.toNat * 2 ^ (8 * k) := by
  induction n generalizing k shift acc v with
  | zero =>
    have hzero : v.toNat = 0 := by omega
    exact ⟨acc, rfl, by rw [hzero]; omega⟩
  | succ n ih =>
    have hpow : 2 ^ (8 * (k + 1)) = 2 ^ (8 * k) * 256 := by rw [mul_add, pow_add]; rfl
    have hpow' : 2 ^ (8 * (n + 1)) = 2 ^ (8 * n) * 256 := by rw [mul_add, pow_add]; rfl
    have hfull : 2 ^ (8 * k) * (2 ^ (8 * n) * 256) = 2 ^ 64 := by
      rw [← hpow', ← pow_add]
      congr 1
      omega
    -- the byte, at its place
    have hbyte : v.toUInt8.toUInt64.toNat = v.toNat % 256 := by
      simp
    have hle : 2 ^ (8 * k) * 256 ≤ 2 ^ 64 := by
      rw [← hfull]
      exact Nat.mul_le_mul_left _ (Nat.le_mul_of_pos_left _ (Nat.two_pow_pos _))
    have hfit : v.toNat % 256 * 2 ^ (8 * k) ≤ 255 * 2 ^ (8 * k) :=
      mul_le_mul_right _ (by omega)
    have hmod : shift.toNat % 64 = 8 * k := by omega
    have hacc' : (acc ||| (v.toUInt8.toUInt64 <<< shift)).toNat =
        acc.toNat + v.toNat % 256 * 2 ^ (8 * k) := by
      rw [UInt64.toNat_or, UInt64.toNat_shiftLeft, hbyte, hmod, shiftLeft_eq,
        Nat.mod_eq_of_lt (by omega), Nat.or_comm, Nat.mul_comm, ← Nat.two_pow_add_eq_or_of_lt hacc,
        add_comm]
    have hstep : (shift + 8).toNat = 8 * (k + 1) := by
      rw [UInt64.toNat_add, hshift]
      change (8 * k + 8) % 2 ^ 64 = _
      omega
    obtain ⟨r, hrun, hr⟩ := ih (k := k + 1) (v := v >>> 8) (by omega) hstep
      (by rw [hacc']; omega) (by rw [toNat_shift_right_eight]; omega)
    refine ⟨r, hrun, ?_⟩
    have hsplit : v.toNat * 2 ^ (8 * k) =
        v.toNat % 256 * 2 ^ (8 * k) + v.toNat / 256 * (2 ^ (8 * k) * 256) := by
      conv_lhs => rw [← mod_add_div v.toNat 256]
      ring
    rw [hr, hacc', toNat_shift_right_eight, hpow, hsplit, add_assoc]

/-- **The bits of a double are read as they were written.** -/
theorem reads_f64 (bits : UInt64) : Reads Reader.f64 (Writer.f64 bits) bits := by
  intro rest
  obtain ⟨r, hrun, hr⟩ := bytesLoop_reads (k := 0) (v := bits) "truncated f64" (zero_add 8)
    (rfl : (0 : UInt64).toNat = 0) (by decide : (0 : UInt64).toNat < 1) bits.toNat_lt rest
  obtain rfl : r = bits := UInt64.toNat_inj.mp (by simpa using hr)
  exact hrun

end Numbers

section Vectors

variable {α β γ : Type} {r : Reader α} {w : γ → Bytes} {P : γ → Prop} {g : γ → α}

theorem Decodes.count {n : UInt64} {what : String} {f : UInt64 → Reader β} {pieces : List Bytes}
    {Q : Prop} {b : β} (hle : n.toNat ≤ pieces.flatten.length)
    (hf : Decodes (f n) pieces.flatten Q b) :
    Decodes (Reader.count what >>= f) (Writer.var n :: pieces).flatten Q b := by
  have hcount : ∀ rest, (Reader.count what >>= f) ((Writer.var n :: pieces).flatten ++ rest) =
      f n (pieces.flatten ++ rest) := by
    intro rest
    have hvar := reads_var n (pieces.flatten ++ rest)
    have hnot : ¬n.toNat > (pieces.flatten ++ rest).length := by
      rw [length_append]
      omega
    change Except.bind (Except.bind (Reader.var ((Writer.var n ++ _) ++ rest)) _) _ = _
    rw [append_assoc, hvar]
    change Except.bind (Except.bind
      (Reader.reject (n.toNat > (pieces.flatten ++ rest).length) what _) _) _ = _
    rw [decide_eq_false hnot]
    rfl
  constructor
  · intro hq rest
    rw [hcount]
    exact hf.reads hq rest
  · intro hq rest
    rw [hcount]
    exact hf.fails hq rest

/-- **The elements of a list are read one after another.** -/
theorem Decodes.times {n : Nat} {l : List γ} (hn : n = l.length)
    (h : ∀ x ∈ l, Decodes r (w x) (P x) (g x)) :
    Decodes (Reader.times r n) (l.flatMap w) (∀ x ∈ l, P x)
      ⟨l.map g, (l.length_map g).trans hn.symm⟩ := by
  subst hn
  induction l with
  | nil => exact (Decodes.done _).congr (by simp)
  | cons x l ih =>
    have hhead := h x (mem_cons_self ..)
    have htail := ih fun y hy => h y (mem_cons_of_mem x hy)
    refine (Decodes.bind hhead fun _ => ?_).congr forall_mem_cons.symm
    rw [← append_nil (l.map w).flatten]
    change Decodes _ [(l.map w).flatten].flatten _ _
    refine (Decodes.bind htail fun _ => ?_).congr (iff_of_eq (and_true _))
    exact Decodes.done _

theorem length_le_flatMap {l : List γ} (hne : ∀ x ∈ l, w x ≠ []) :
    l.length ≤ (l.flatMap w).length := by
  induction l with
  | nil => exact zero_le _
  | cons x l ih =>
    have hhead := length_pos_iff.mpr (hne x (mem_cons_self ..))
    have htail := ih fun y hy => hne y (mem_cons_of_mem x hy)
    rw [flatMap_cons, length_append, length_cons]
    omega

/-- **A vector is read as it was written**, if each of its elements is and takes a byte. -/
theorem Decodes.counted (what : String) (l : Vec γ) (h : ∀ x, Decodes r (w x) (P x) (g x))
    (hne : ∀ x, w x ≠ []) :
    Decodes (Reader.counted what r) (Writer.vec w l) (∀ x ∈ l.1, P x) (l.map g) := by
  have htimes := Decodes.times l.size_toNat fun x _ => h x
  have hle : l.size.toNat ≤ [l.1.flatMap w].flatten.length := by
    rw [flatten_singleton, l.size_toNat]
    exact length_le_flatMap fun x _ => hne x
  rw [Writer.vec, ← append_nil (l.1.flatMap w)]
  change Decodes _ [Writer.var l.size, l.1.flatMap w].flatten _ _
  exact (Decodes.count hle (Decodes.bind htimes fun _ => Decodes.done (l.map g))).congr
    (iff_of_eq (and_true _))

theorem Decodes.vec (l : Vec γ) (h : ∀ x, Decodes r (w x) (P x) (g x)) (hne : ∀ x, w x ≠ []) :
    Decodes (Reader.vec r) (Writer.vec w l) (∀ x ∈ l.1, P x) (l.map g) :=
  Decodes.counted _ l h hne

theorem Vec.map_id' (l : Vec α) : l.map (fun x => x) = l := Subtype.ext (map_id l.1)

variable {w : α → Bytes}

theorem Reads.counted (what : String) (l : Vec α) (h : ∀ x, Reads r (w x) x)
    (hne : ∀ x, w x ≠ []) : Reads (Reader.counted what r) (Writer.vec w l) l := by
  have hvec := (Decodes.counted what l (fun x => (h x).decodes) hne).reads fun _ _ => trivial
  rwa [Vec.map_id'] at hvec

theorem Reads.vec (l : Vec α) (h : ∀ x, Reads r (w x) x) (hne : ∀ x, w x ≠ []) :
    Reads (Reader.vec r) (Writer.vec w l) l :=
  Reads.counted _ l h hne

theorem reads_str (s : Vec UInt8) : Reads Reader.str (Writer.str s) s := by
  have hvec := Reads.counted "string runs past the end" s reads_u8 fun x => cons_ne_nil x []
  rwa [Writer.vec, show s.1.flatMap Writer.u8 = s.1 from flatMap_singleton' s.1] at hvec

end Vectors

section Masks

variable {set : Nat → Bool} {n i : Nat}

theorem getLsbD_one_shift (hi : i < 64) (j : Nat) :
    ((1 : UInt64) <<< UInt64.ofNat i).toBitVec.getLsbD j = decide (i = j) := by
  change ((1 : UInt64) <<< UInt64.ofNat i).toNat.testBit j = _
  have hval : (UInt64.ofNat i).toNat = i := UInt64.toNat_ofNat_of_lt (hi.trans (by decide))
  rw [UInt64.toNat_shiftLeft, hval, Nat.mod_eq_of_lt hi]
  change (1 <<< i % 2 ^ 64).testBit j = _
  rw [Nat.one_shiftLeft, Nat.mod_eq_of_lt (Nat.pow_lt_pow_right (by decide) hi),
    Nat.testBit_two_pow]

theorem getLsbD_mask (hn : n ≤ 64) (j : Nat) :
    (mask set n).toBitVec.getLsbD j = (decide (j < n) && set j) := by
  induction n with
  | zero => simp [mask]
  | succ n ih =>
    have hrec := ih (by omega)
    have hcases : j < n + 1 ↔ j < n ∨ n = j := by omega
    rw [mask]
    cases hset : set n with
    | true =>
      rw [if_pos rfl, UInt64.toBitVec_or, BitVec.getLsbD_or, hrec, getLsbD_one_shift (by omega)]
      by_cases hj : n = j
      · subst hj
        simp [hset]
      · simp [hcases, hj]
    | false =>
      rw [if_neg (by decide), hrec]
      by_cases hj : n = j
      · subst hj
        simp [hset]
      · simp [hcases, hj]

/-- **A bit of a mask says whether its condition holds.** -/
theorem bit_mask (hn : n ≤ 64) (hi : i < n) : bit (mask set n) i = set i := by
  have hset : (mask set n).toBitVec.getLsbD i = set i := by
    rw [getLsbD_mask hn, decide_eq_true hi, Bool.true_and]
  have hand : ∀ j, (mask set n &&& ((1 : UInt64) <<< UInt64.ofNat i)).toBitVec.getLsbD j =
      (set i && decide (i = j)) := by
    intro j
    rw [UInt64.toBitVec_and, BitVec.getLsbD_and, getLsbD_one_shift (by omega)]
    by_cases hj : i = j
    · rw [← hj, hset]
    · simp [hj]
  cases hv : set i with
  | true =>
    refine decide_eq_true fun hzero => ?_
    have hbit := hand i
    rw [hzero, hv] at hbit
    simp at hbit
  | false =>
    refine decide_eq_false (not_not.mpr (UInt64.toBitVec_inj.mp ?_))
    apply BitVec.eq_of_getLsbD_eq
    intro j _
    rw [hand j, hv]
    simp

theorem mask_and_compl {known : UInt64} (hn : n ≤ 64)
    (hknown : ∀ j < n, known.toBitVec.getLsbD j = true) : mask set n &&& ~~~known = 0 := by
  apply UInt64.toBitVec_inj.mp
  apply BitVec.eq_of_getLsbD_eq
  intro j _
  rw [UInt64.toBitVec_and, BitVec.getLsbD_and, getLsbD_mask hn]
  by_cases hj : j < n
  · simp [hknown j hj]
  · simp [hj]

end Masks

end Bronze.Codec
