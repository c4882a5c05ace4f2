import Mathlib

/-!
# Strings in their representations

`src/runtime/string.cpp`: a string is Latin-1 or UTF-16, may have room past its end, and keeps its
hash in the bits of its flags. What is read of one is a function of its code units, and what is
made of two has the units of both, as long as their number fits the length field.

## Main results

* `sees_units_iff`: the operations depend on the code units alone exactly when the lengths fit
-/

namespace Bronze.Strings

open List

/-- How an operation ends early: `std::bad_alloc`, `std::abort`, or a write past an allocation. -/
inductive Fault where
  | badAlloc
  | abort
  | outOfBounds
  deriving DecidableEq, Repr

def kUTF16Flag : UInt32 := 1
def kHasHashFlag : UInt32 := 2

/-- `StringHeader`, with `header.size`. The units are read in the width of the encoding: a byte of
Latin-1 is a unit below 256. -/
structure StringHeader where
  size : Nat
  flags : UInt32
  units : List UInt16
  deriving DecidableEq, Repr

namespace StringHeader

def isUTF16 (s : StringHeader) : Bool := s.flags &&& kUTF16Flag != 0

def length (s : StringHeader) : Nat := s.units.length

def charCodeAt (s : StringHeader) (index : Nat) : UInt16 :=
  if index ≥ s.length then 0 else s.units.getD index 0

/-- `equals`: one `memcmp` where the encodings are the same. -/
def equals (s other : StringHeader) : Bool :=
  if s.length ≠ other.length then false
  else if s.isUTF16 = other.isUTF16 then s.units == other.units
  else (range s.length).all fun i => s.charCodeAt i == other.charCodeAt i

/-- The loop of `lessThan`, with so many units to go. -/
def lessFrom (s other : StringHeader) : (todo i : Nat) → Bool
  | 0, _ => s.length < other.length
  | todo + 1, i =>
    if s.charCodeAt i ≠ other.charCodeAt i then s.charCodeAt i < other.charCodeAt i
    else lessFrom s other todo (i + 1)

def lessThan (s other : StringHeader) : Bool := s.lessFrom other (min s.length other.length) 0

def hashUnit (h : UInt32) (u : UInt16) : UInt32 :=
  let h := (h ^^^ (u &&& 0xFF).toUInt32) * 0x01000193
  (h ^^^ (u >>> 8).toUInt32) * 0x01000193

def hash (s : StringHeader) : UInt32 × StringHeader :=
  if s.flags &&& kHasHashFlag != 0 then (s.flags &&& 0xFFFFFFFC, s)
  else
    let h := (range s.length).foldl (fun h i => hashUnit h (s.charCodeAt i)) 0x811c9dc5
    let cached := h &&& 0xFFFFFFFC
    (cached, { s with flags := cached ||| kHasHashFlag ||| (s.flags &&& kUTF16Flag) })

/-- `sizeof(uint16_t)` or one. -/
def unitBytes (utf16 : Bool) : Nat := if utf16 then 2 else 1

/-- The bytes of a string with room for so many units, a multiple of 8. -/
def blockSize (utf16 : Bool) (cap : Nat) : Nat :=
  (8 + (8 + (cap + 1) * unitBytes utf16) + 7) / 8 * 8

/-- `Heap::allocate`, for a string with room for so many units: `header.size`. -/
def allocate (utf16 : Bool) (cap : Nat) : Except Fault Nat :=
  if blockSize utf16 cap > 0xFFFFFFFF then .error .badAlloc else .ok (blockSize utf16 cap)

def encodingFlag (utf16 : Bool) : UInt32 := if utf16 then kUTF16Flag else 0

/-- `concat`: the lengths are added in 32 bits, and then the units of both are copied. -/
def concat (a b : StringHeader) : Except Fault StringHeader := do
  let totalLen := (a.length + b.length) % 2 ^ 32
  let utf16 := a.isUTF16 || b.isUTF16
  let size ← allocate utf16 totalLen
  if 16 + (a.length + b.length) * unitBytes utf16 > size then .error .outOfBounds
  else .ok ⟨size, encodingFlag utf16, (a.units ++ b.units).take totalLen⟩

def capacity (s : StringHeader) : Nat := (s.size - 16) / unitBytes s.isUTF16 - 1

/-- `createBuilder`, with the units that are copied into it. -/
def createBuilder (utf16 : Bool) (units : List UInt16) (cap : Nat) : Except Fault StringHeader := do
  let size ← allocate utf16 (if cap < units.length then units.length else cap)
  .ok ⟨size, encodingFlag utf16, units⟩

def startBuilder (s : StringHeader) (cap : Nat) : Except Fault StringHeader :=
  createBuilder s.isUTF16 s.units cap

def appendToBuilder (b s : StringHeader) : Except Fault StringHeader :=
  if s.length = 0 then .ok b
  else if s.length > 0xFFFFFFFF - b.length then .error .abort
  else
    let newLen := b.length + s.length
    let needUTF16 := b.isUTF16 || s.isUTF16
    if needUTF16 = b.isUTF16 ∧ b.capacity ≥ newLen then
      .ok { b with units := b.units ++ s.units, flags := b.flags &&& kUTF16Flag }
    else
      let grown := (b.capacity + b.capacity / 2) % 2 ^ 32
      createBuilder needUTF16 (b.units ++ s.units) (if grown > newLen then grown else newLen)

/-- What is done with a builder while its chain runs. -/
inductive Use where
  | append (src : StringHeader)
  | hash

def use (b : StringHeader) : Use → Except Fault StringHeader
  | .append src => b.appendToBuilder src
  | .hash => .ok b.hash.2

def hashOf (units : List UInt16) : UInt32 := units.foldl hashUnit 0x811c9dc5 &&& 0xFFFFFFFC

structure WellFormed (s : StringHeader) : Prop where
  fits : 16 + (s.length + 1) * unitBytes s.isUTF16 ≤ s.size
  size_le : s.size ≤ 0xFFFFFFFF
  latin1 : s.isUTF16 = false → ∀ u ∈ s.units, u < 0x100
  memo : s.flags &&& kHasHashFlag ≠ 0 → s.flags &&& 0xFFFFFFFC = hashOf s.units

/-- The text of a result. It is refused only where its length does not fit the length field, or
where a string with room for so many units is a larger block than the heap gives out. -/
def Makes (r : Except Fault StringHeader) (units : List UInt16) (utf16 : Bool) (most : Nat) :
    Prop :=
  match r with
  | .ok s => s.WellFormed ∧ s.units = units
  | .error .badAlloc => 0xFFFFFFFF < blockSize utf16 most
  | .error .abort => 2 ^ 32 ≤ units.length
  | .error .outOfBounds => False

/-- What a use adds to the text. -/
def Use.units : Use → List UInt16
  | .append src => src.units
  | .hash => []

variable {a b s : StringHeader}

theorem charCodeAt_eq (s : StringHeader) (i : Nat) : s.charCodeAt i = s.units.getD i 0 := by
  rw [charCodeAt]
  split_ifs with hi
  · exact (getD_eq_default _ _ hi).symm
  · rfl

theorem equals_iff : a.equals b = true ↔ a.units = b.units := by
  rw [equals]
  split_ifs with hlen hsame
  · exact ⟨nofun, fun h => absurd (congrArg List.length h) hlen⟩
  · exact beq_iff_eq
  · rw [ne_eq, not_not] at hlen
    simp only [all_eq_true, mem_range, beq_iff_eq, charCodeAt_eq]
    refine ⟨fun h => ext_getElem hlen fun i ha hb => ?_, fun h i _ => by rw [h]⟩
    have hi := h i ha
    rwa [getD_eq_getElem _ _ ha, getD_eq_getElem _ _ hb] at hi

theorem lessFrom_iff {todo i : Nat} (h : i + todo = min a.length b.length) :
    a.lessFrom b todo i = true ↔ a.units.drop i < b.units.drop i := by
  simp only [length] at h
  induction todo generalizing i with
  | zero =>
    rw [lessFrom, decide_eq_true_eq, length, length]
    constructor
    · intro hlt
      rw [drop_eq_nil_of_le (show a.units.length ≤ i by omega),
        drop_eq_getElem_cons (show i < b.units.length by omega)]
      exact nil_lt_cons ..
    · intro hlt
      by_contra hle
      rw [drop_eq_nil_of_le (show b.units.length ≤ i by omega)] at hlt
      exact not_lt_nil _ hlt
  | succ todo ih =>
    have ha : i < a.units.length := by omega
    have hb : i < b.units.length := by omega
    rw [lessFrom, charCodeAt_eq, charCodeAt_eq, drop_eq_getElem_cons ha, drop_eq_getElem_cons hb,
      cons_lt_cons_iff, getD_eq_getElem _ _ ha, getD_eq_getElem _ _ hb]
    split_ifs with hne
    · simp [hne]
    · rw [ne_eq, not_not] at hne
      rw [ih (by omega), hne]
      simp

theorem lessThan_iff : a.lessThan b = true ↔ a.units < b.units :=
  lessFrom_iff (Nat.zero_add _)

theorem and_of_or (f g m : UInt32) : (f ||| g) &&& m = (f &&& m) ||| (g &&& m) :=
  UInt32.toBitVec_inj.mp BitVec.and_or_distrib_right

/-- A memoised hash is read back, and leaves the encoding as it is. -/
theorem flags_of_cached (h f : UInt32) :
    ((h &&& 0xFFFFFFFC) ||| kHasHashFlag ||| (f &&& kUTF16Flag)) &&& 0xFFFFFFFC = h &&& 0xFFFFFFFC ∧
      ((h &&& 0xFFFFFFFC) ||| kHasHashFlag ||| (f &&& kUTF16Flag)) &&& kUTF16Flag =
        f &&& kUTF16Flag := by
  have hhash : kHasHashFlag &&& 0xFFFFFFFC = 0 := by decide
  have hutf : kUTF16Flag &&& 0xFFFFFFFC = 0 := by decide
  have hmask : (0xFFFFFFFC : UInt32) &&& kUTF16Flag = 0 := by decide
  have hbits : kHasHashFlag &&& kUTF16Flag = 0 := by decide
  simp only [and_of_or, UInt32.and_assoc, UInt32.and_self, hhash, hutf, hmask, hbits]
  simp

theorem hash_spec (hs : s.WellFormed) : s.hash.1 = hashOf s.units ∧ s.hash.2.WellFormed ∧
    s.hash.2.units = s.units := by
  have hread : (range s.length).foldl (fun h i => hashUnit h (s.charCodeAt i)) 0x811c9dc5 =
      s.units.foldl hashUnit 0x811c9dc5 := by
    have hmap : (range s.length).map s.charCodeAt = s.units := by
      refine ext_getElem (by simp [length]) fun i hi hi' => ?_
      rw [getElem_map, getElem_range, charCodeAt_eq, getD_eq_getElem _ _ hi']
    rw [← foldl_map, hmap]
  rw [hash, hread]
  split_ifs with hmemo
  · exact ⟨hs.memo (by simpa using hmemo), hs, rfl⟩
  · obtain ⟨hcached, hencoding⟩ := flags_of_cached (s.units.foldl hashUnit 0x811c9dc5) s.flags
    have hsame : ∀ size units, isUTF16 ⟨size,
        ((s.units.foldl hashUnit 0x811c9dc5 &&& 0xFFFFFFFC) ||| kHasHashFlag |||
          (s.flags &&& kUTF16Flag)), units⟩ = s.isUTF16 := by
      intro size units
      rw [isUTF16, hencoding, isUTF16]
    refine ⟨rfl, ⟨?_, hs.size_le, ?_, fun _ => hcached⟩, rfl⟩
    · rw [hsame]
      exact hs.fits
    · rw [hsame]
      exact hs.latin1

/-! ## Making strings -/

variable {utf16 : Bool} {units : List UInt16} {cap size : Nat}

theorem blockSize_mono {most : Nat} {wide : Bool} (hcap : cap ≤ most)
    (hwide : utf16 = true → wide = true) : blockSize utf16 cap ≤ blockSize wide most := by
  have hbytes : unitBytes utf16 ≤ unitBytes wide := by
    cases utf16 with
    | false => cases wide <;> decide
    | true => rw [hwide rfl]
  have hroom := Nat.mul_le_mul (Nat.add_le_add_right hcap 1) hbytes
  rw [blockSize, blockSize]
  omega

section Makes

variable {r : Except Fault StringHeader} {most : Nat} {wide : Bool}

theorem Makes.weaken (h : Makes r units utf16 cap) (hcap : cap ≤ most)
    (hwide : utf16 = true → wide = true) : Makes r units wide most := by
  cases r with
  | ok s => exact h
  | error e =>
    cases e with
    | badAlloc => exact Nat.lt_of_lt_of_le h (blockSize_mono hcap hwide)
    | abort => exact h
    | outOfBounds => exact h

theorem Makes.bind {f : StringHeader → Except Fault StringHeader} {more : List UInt16}
    (h : Makes r units utf16 most)
    (hf : ∀ s, r = .ok s → s.WellFormed → s.units = units →
      Makes (f s) (units ++ more) utf16 most) :
    Makes (r >>= f) (units ++ more) utf16 most := by
  cases r with
  | ok s => exact hf s rfl h.1 h.2
  | error e =>
    cases e with
    | badAlloc => exact h
    | abort => exact h.trans (by rw [length_append]; exact Nat.le_add_right ..)
    | outOfBounds => exact h

end Makes

theorem allocate_spec (h : allocate utf16 cap = .ok size) :
    size = blockSize utf16 cap ∧ 16 + (cap + 1) * unitBytes utf16 ≤ size ∧ size ≤ 0xFFFFFFFF := by
  rw [allocate] at h
  split_ifs at h with htotal
  cases h
  rw [blockSize] at *
  omega

theorem allocate_error {e : Fault} (h : allocate utf16 cap = .error e) :
    e = .badAlloc ∧ 0xFFFFFFFF < blockSize utf16 cap := by
  rw [allocate] at h
  split_ifs at h with htotal
  cases h
  exact ⟨rfl, htotal⟩

@[simp] theorem isUTF16_encodingFlag : isUTF16 ⟨size, encodingFlag utf16, units⟩ = utf16 := by
  change (encodingFlag utf16 &&& kUTF16Flag != 0) = utf16
  cases utf16 <;> decide

/-- **A new string** that is large enough is well formed, and has no hash. -/
theorem wellFormed_new (h : allocate utf16 cap = .ok size) (hcap : units.length ≤ cap)
    (hlatin1 : utf16 = false → ∀ u ∈ units, u < 0x100) :
    WellFormed ⟨size, encodingFlag utf16, units⟩ := by
  obtain ⟨-, hfits, hsize⟩ := allocate_spec h
  refine ⟨?_, hsize, by simpa using hlatin1, fun hmemo => absurd ?_ hmemo⟩
  · have hle := Nat.mul_le_mul_right (unitBytes utf16) (Nat.add_le_add_right hcap 1)
    simp only [isUTF16_encodingFlag, length]
    omega
  · change encodingFlag utf16 &&& kHasHashFlag = 0
    cases utf16 <;> decide

/-- **A new builder** has the encoding it is asked for, and hardly more room. -/
theorem createBuilder_spec (h : createBuilder utf16 units cap = .ok s) :
    s.isUTF16 = utf16 ∧ s.capacity ≤ max cap units.length + 7 := by
  rw [createBuilder] at h
  cases hsize : allocate utf16 (if cap < units.length then units.length else cap) with
  | error e =>
    rw [hsize] at h
    cases h
  | ok size =>
    rw [hsize] at h
    cases h
    have hroom := (allocate_spec hsize).1
    refine ⟨isUTF16_encodingFlag, ?_⟩
    rw [capacity, isUTF16_encodingFlag]
    rw [blockSize] at hroom
    cases utf16 <;> simp only [unitBytes, Bool.false_eq_true, if_false, if_true] at hroom ⊢ <;>
      split_ifs at hroom <;> omega

theorem createBuilder_makes (hlatin1 : utf16 = false → ∀ u ∈ units, u < 0x100) (cap : Nat) :
    Makes (createBuilder utf16 units cap) units utf16 (max cap units.length) := by
  have hroom : (if cap < units.length then units.length else cap) = max cap units.length := by
    split_ifs <;> omega
  rw [createBuilder, hroom]
  cases h : allocate utf16 (max cap units.length) with
  | error e =>
    obtain ⟨rfl, hlarge⟩ := allocate_error h
    exact hlarge
  | ok size => exact ⟨wellFormed_new h (Nat.le_max_right ..) hlatin1, rfl⟩

theorem latin1_append (ha : a.WellFormed) (hb : b.WellFormed)
    (h : (a.isUTF16 || b.isUTF16) = false) : ∀ u ∈ a.units ++ b.units, u < 0x100 := by
  rw [Bool.or_eq_false_iff] at h
  exact forall_mem_append.mpr ⟨ha.latin1 h.1, hb.latin1 h.2⟩

/-- The most room that an append asks for: half again as much as the text of both needs, or, where
the encoding changes, as the builder had. -/
def growth (b s : StringHeader) : Nat :=
  if b.isUTF16 || !s.isUTF16 then b.length + s.length + (b.length + s.length) / 2
  else max (b.length + s.length) (b.capacity + b.capacity / 2)

/-- **An append** makes the text of both. -/
theorem appendToBuilder_makes (hb : b.WellFormed) (hs : s.WellFormed) :
    Makes (b.appendToBuilder s) (b.units ++ s.units) (b.isUTF16 || s.isUTF16) (b.growth s) := by
  have hlength : (b.units ++ s.units).length = b.length + s.length := length_append
  have hcreate := createBuilder_makes (latin1_append hb hs)
  have hgrown := Nat.mod_le (b.capacity + b.capacity / 2) (2 ^ 32)
  rw [appendToBuilder]
  dsimp only
  split_ifs with hempty hlong hplace hgrows
  · exact ⟨hb, by rw [length_eq_zero_iff.mp hempty, append_nil]⟩
  · rw [Makes, hlength]
    omega
  · obtain ⟨hsame, hcap⟩ := hplace
    have hflag : isUTF16 ⟨b.size, b.flags &&& kUTF16Flag, b.units ++ s.units⟩ = b.isUTF16 := by
      rw [isUTF16, UInt32.and_assoc, UInt32.and_self, isUTF16]
    refine ⟨⟨?_, hb.size_le, fun h => ?_, fun hmemo => absurd ?_ hmemo⟩, rfl⟩
    · have hfits := hb.fits
      rw [hflag, length, length_append]
      rw [capacity] at hcap
      simp only [length, unitBytes] at *
      split_ifs at * <;> omega
    · exact latin1_append hb hs (by rw [hsame, ← hflag, h])
    · rw [UInt32.and_assoc, show kUTF16Flag &&& kHasHashFlag = 0 from rfl, UInt32.and_zero]
  all_goals
    refine (hcreate _).weaken ?_ id
    rw [hlength, growth]
    cases hb' : b.isUTF16 <;> cases hs' : s.isUTF16 <;> simp [hb', hs'] at hplace ⊢ <;> omega

/-- A builder in Latin-1 has at most half again as much room as was asked for at first, or as the
text needs. -/
def Roomy (b : StringHeader) (n : Nat) : Prop := b.isUTF16 = false → 2 * b.capacity ≤ 3 * n + 14

theorem Roomy.hash {n : Nat} (h : b.Roomy n) : b.hash.2.Roomy n := by
  rw [StringHeader.hash]
  split_ifs with hmemo
  · exact h
  · have hencoding : ∀ cached, isUTF16 ⟨b.size, (cached &&& 0xFFFFFFFC) ||| kHasHashFlag |||
        (b.flags &&& kUTF16Flag), b.units⟩ = b.isUTF16 := by
      intro cached
      rw [isUTF16, (flags_of_cached cached b.flags).2, isUTF16]
    intro hlatin1
    rw [hencoding] at hlatin1
    have hroom := h hlatin1
    rw [capacity, hlatin1] at hroom
    rw [capacity, hencoding, hlatin1]
    exact hroom

theorem Roomy.append {n : Nat} {b' : StringHeader} (h : b.Roomy n) (hn : b.length + s.length ≤ n)
    (happend : b.appendToBuilder s = .ok b') : b'.Roomy n := by
  rw [appendToBuilder] at happend
  dsimp only at happend
  split_ifs at happend with hempty hlong hplace hgrows
  · cases happend
    exact h
  · cases happend
    intro hlatin1
    have hflag : b.isUTF16 = false := by
      rw [← hlatin1, isUTF16, isUTF16, UInt32.and_assoc, UInt32.and_self]
    have hroom := h hflag
    rw [capacity, hflag] at hroom
    rw [capacity, hlatin1]
    exact hroom
  all_goals
    obtain ⟨hencoding, hroom⟩ := createBuilder_spec happend
    intro hlatin1
    rw [hencoding] at hlatin1
    -- the encoding is the same, so the room ran out
    have hflag := (Bool.or_eq_false_iff.mp hlatin1).1
    have hout : ¬b.capacity ≥ b.length + s.length := fun hcap =>
      hplace ⟨hlatin1.trans hflag.symm, hcap⟩
    have hgrown := Nat.mod_le (b.capacity + b.capacity / 2) (2 ^ 32)
    rw [length_append] at hroom
    simp only [length] at *
    omega

theorem Roomy.growth_le {n : Nat} (h : b.Roomy n) (hn : b.length + s.length ≤ n) :
    b.growth s ≤ 9 * n / 4 + 11 := by
  rw [growth]
  split_ifs with hsame
  · omega
  · rw [Bool.not_eq_true, Bool.or_eq_false_iff] at hsame
    have hroom := h hsame.1
    omega

/-- A use adds its units, and asks for no more than a little over twice what is there in the end. -/
theorem use_makes {n : Nat} (hb : b.WellFormed) (hroomy : b.Roomy n) (u : Use)
    (hu : ∀ src, u = .append src → src.WellFormed) (hn : (b.units ++ u.units).length ≤ n) :
    Makes (b.use u) (b.units ++ u.units) true (9 * n / 4 + 11) ∧
      ∀ b', b.use u = .ok b' → b'.Roomy n := by
  cases u with
  | append src =>
    rw [Use.units, length_append] at hn
    exact ⟨(appendToBuilder_makes hb (hu src rfl)).weaken (hroomy.growth_le hn) fun _ => rfl,
      fun b' => hroomy.append hn⟩
  | hash =>
    obtain ⟨-, hwf, hunits⟩ := hash_spec hb
    refine ⟨⟨hwf, hunits.trans (append_nil _).symm⟩, ?_⟩
    rintro b' ⟨⟩
    exact hroomy.hash

/-- **A chain of uses** makes the text of the string it starts from and of all that is appended. -/
theorem chain_makes (hs : s.WellFormed) (cap : Nat) {uses : List Use}
    (huses : ∀ src, .append src ∈ uses → src.WellFormed) :
    Makes (s.startBuilder cap >>= uses.foldlM use) (s.units ++ uses.flatMap Use.units) true
      (9 * max cap (s.units ++ uses.flatMap Use.units).length / 4 + 11) := by
  have hrun : ∀ (b : StringHeader) (n : Nat), b.WellFormed → b.Roomy n →
      (b.units ++ uses.flatMap Use.units).length ≤ n →
      Makes (uses.foldlM use b) (b.units ++ uses.flatMap Use.units) true (9 * n / 4 + 11) := by
    induction uses with
    | nil => exact fun b n hb _ _ => ⟨hb, (append_nil _).symm⟩
    | cons u uses ih =>
      intro b n hb hroomy hn
      rw [flatMap_cons, ← append_assoc] at hn ⊢
      have hfirst : (b.units ++ u.units).length ≤ n := by
        rw [length_append] at hn
        omega
      obtain ⟨hu, hroomy'⟩ := use_makes hb hroomy u
        (fun src hsrc => huses src (hsrc ▸ mem_cons_self)) hfirst
      rw [foldlM_cons]
      refine hu.bind fun b' hb' hwf hunits => ?_
      rw [← hunits] at hn ⊢
      exact ih (fun src hsrc => huses src (mem_cons_of_mem _ hsrc)) b' n hwf (hroomy' b' hb') hn
  have hlength : s.units.length ≤ (s.units ++ uses.flatMap Use.units).length := by
    rw [length_append]
    exact Nat.le_add_right ..
  have hstart : Makes (s.startBuilder cap) s.units s.isUTF16 (max cap s.units.length) :=
    createBuilder_makes hs.latin1 cap
  refine (hstart.weaken (by omega) fun _ => rfl).bind fun b hb hwf hunits => ?_
  rw [← hunits]
  refine hrun b _ hwf (fun _ => ?_) (Nat.le_max_right ..)
  have hroom := (createBuilder_spec hb).2
  rw [hunits]
  omega

/-- **Concatenation** is right, or refused, exactly when the lengths do not wrap. -/
theorem concat_makes_iff (ha : a.WellFormed) (hb : b.WellFormed) :
    Makes (a.concat b) (a.units ++ b.units) (a.isUTF16 || b.isUTF16) (a.length + b.length) ↔
      a.length + b.length < 2 ^ 32 := by
  have hfitsa := ha.fits
  have hfitsb := hb.fits
  have hsizea := ha.size_le
  have hsizeb := hb.size_le
  rw [concat]
  constructor
  · intro h
    by_contra hwraps
    -- the sum of the lengths is small after it wraps, so there is room for it
    have hroom : allocate (a.isUTF16 || b.isUTF16) ((a.length + b.length) % 2 ^ 32) = .ok
        (blockSize (a.isUTF16 || b.isUTF16) ((a.length + b.length) % 2 ^ 32)) := by
      rw [allocate, if_neg]
      rw [blockSize]
      cases ha' : a.isUTF16 <;> cases hb' : b.isUTF16 <;> rw [ha'] at hfitsa <;>
        rw [hb'] at hfitsb <;> simp only [unitBytes] at * <;> simp at * <;> omega
    have hsize := (allocate_spec hroom).2.2
    rw [hroom] at h
    change Makes (if _ then _ else _) _ _ _ at h
    rw [if_pos] at h
    · exact h
    · have hone : 1 ≤ unitBytes (a.isUTF16 || b.isUTF16) := by
        rw [unitBytes]
        split_ifs <;> omega
      have := Nat.mul_le_mul_left (a.length + b.length) hone
      omega
  · intro hlt
    rw [Nat.mod_eq_of_lt hlt]
    cases h : allocate (a.isUTF16 || b.isUTF16) (a.length + b.length) with
    | error e =>
      obtain ⟨rfl, hlarge⟩ := allocate_error h
      exact hlarge
    | ok size =>
      have hfits := (allocate_spec h).2.1
      have hlen : (a.units ++ b.units).length = a.length + b.length := length_append
      rw [Nat.add_mul] at hfits
      change Makes (if _ then _ else _) _ _ _
      rw [if_neg (by omega), take_of_length_le (Nat.le_of_eq hlen)]
      exact ⟨wellFormed_new h (Nat.le_of_eq hlen) (latin1_append ha hb), rfl⟩

/-- **Strings are their code units, exactly while lengths fit**: comparison, order, hash and
`charCodeAt` are functions of the units, whatever the representations; a chain of appends and hashes
makes the text it should, unless that or the room asked for it is too large, and the hash that is
memoised is always that of the text. Of `concat` this holds if and only if the sum of the lengths
has 32 bits. -/
theorem sees_units_iff (ha : a.WellFormed) (hb : b.WellFormed) (cap : Nat) (uses : List Use)
    (huses : ∀ src, .append src ∈ uses → src.WellFormed) :
    ((a.equals b = true ↔ a.units = b.units) ∧ (a.lessThan b = true ↔ a.units < b.units) ∧
      (∀ i, a.charCodeAt i = a.units.getD i 0) ∧
      (a.hash.1 = hashOf a.units ∧ a.hash.2.WellFormed ∧ a.hash.2.units = a.units) ∧
      Makes (a.appendToBuilder b) (a.units ++ b.units) (a.isUTF16 || b.isUTF16) (a.growth b) ∧
      Makes (a.startBuilder cap >>= uses.foldlM use) (a.units ++ uses.flatMap Use.units) true
        (9 * max cap (a.units ++ uses.flatMap Use.units).length / 4 + 11)) ∧
    (Makes (a.concat b) (a.units ++ b.units) (a.isUTF16 || b.isUTF16) (a.length + b.length) ↔
      a.length + b.length < 2 ^ 32) :=
  ⟨⟨equals_iff, lessThan_iff, charCodeAt_eq a, hash_spec ha, appendToBuilder_makes ha hb,
    chain_makes ha cap huses⟩, concat_makes_iff ha hb⟩

/-- So many letters, in Latin-1. -/
def letters (n : Nat) : StringHeader := ⟨blockSize false n, 0, replicate n 0x41⟩

@[simp] theorem length_letters (n : Nat) : (letters n).length = n := length_replicate ..

@[simp] theorem isUTF16_letters (n : Nat) : (letters n).isUTF16 = false := by
  change ((0 : UInt32) &&& kUTF16Flag != 0) = false
  decide

theorem letters_wellFormed {n : Nat} (hn : n ≤ 2 ^ 31) : (letters n).WellFormed := by
  refine ⟨?_, ?_, fun _ u hu => ?_, absurd UInt32.zero_and⟩
  · rw [isUTF16_letters, length_letters]
    change 16 + (n + 1) * 1 ≤ (8 + (8 + (n + 1) * 1) + 7) / 8 * 8
    omega
  · change (8 + (8 + (n + 1) * 1) + 7) / 8 * 8 ≤ _
    omega
  · rw [eq_of_mem_replicate hu]
    decide

theorem sees_units_letters : Makes ((letters 2).concat (letters 3)) (replicate 5 0x41) false 5 :=
  (sees_units_iff (letters_wellFormed (by decide)) (letters_wellFormed (by decide)) 0 []
    nofun).2.mpr (by decide)

theorem letters_wraps {n : Nat} (hn : n = 2 ^ 31) : (letters n).WellFormed ∧
    ¬Makes ((letters n).concat (letters n)) ((letters n).units ++ (letters n).units) false
      (n + n) := by
  have hwf := letters_wellFormed (Nat.le_of_eq hn)
  refine ⟨hwf, fun h => ?_⟩
  have hlt := (concat_makes_iff hwf hwf).mp (by rwa [isUTF16_letters, length_letters])
  rw [length_letters] at hlt
  omega

/-- The lengths of two strings of 2 GiB have the sum 0 in 32 bits. -/
theorem concat_wraps : (letters (2 ^ 31)).WellFormed ∧
    ¬Makes ((letters (2 ^ 31)).concat (letters (2 ^ 31)))
      ((letters (2 ^ 31)).units ++ (letters (2 ^ 31)).units) false (2 ^ 31 + 2 ^ 31) :=
  letters_wraps rfl

end StringHeader

end Bronze.Strings
