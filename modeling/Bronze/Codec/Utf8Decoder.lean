import Bronze.Codec.Utf8
import Bronze.Codec.StringHeader

/-!
# The decoder of UTF-8

`decodeUTF8` of `src/runtime/string.cpp` index by index, as `createFromUTF8` and
`createFromHostUTF8` use it: a read past the end of the text is a fault, and so is a write past the
units that were counted. With surrogates it reads what `rtUtf8Chars` writes; without them it is the
decoder of the Encoding Standard.

## Main definitions

* `whatwg`: the UTF-8 decoder of the Encoding Standard 4.3
* `Subpart`: what a maximal subpart is the longest of

## Main results

* `utf8_codec_iff`: a string comes back from its bytes, and foreign bytes are decoded as the
  standard has it, exactly when 32 bits count the bytes and a block holds the units
-/

namespace Bronze.Utf8

open Strings Strings.StringHeader
open List

/-! ## The code -/

/-- A loop that may not end, or end in a fault. -/
abbrev Loop := ExceptT Fault Option

/-- `s[i]`. -/
def byteAt (s : List Nat) (i : Nat) : Except Fault Nat :=
  match s[i]? with
  | some b => .ok b
  | none => .error .outOfBounds

/-- The loop of `utf8Step` with so many continuation bytes to go: the code point, and the bytes it
takes. -/
def continuationAt (s : List Nat) (n i : Nat) :
    (left k cp lower upper : Nat) → Except Fault (Nat × Nat)
  | 0, k, cp, _, _ => .ok (cp, k)
  | left + 1, k, cp, lower, upper =>
    if (i + k) % 2 ^ 32 ≥ n then .ok (kReplacement, k)
    else do
      let b ← byteAt s ((i + k) % 2 ^ 32)
      if b < lower || b > upper then .ok (kReplacement, k)
      else continuationAt s n i left (k + 1) ((cp <<< 6) ||| (b &&& 0x3F)) 0x80 0xBF

/-- `utf8Step`. -/
def utf8StepAt (s : List Nat) (n i : Nat) (surrogates : Bool) : Except Fault (Nat × Nat) := do
  let b ← byteAt s i
  if b < 0x80 then .ok (b, 1)
  else if b ≥ 0xC2 && b ≤ 0xDF then continuationAt s n i 1 1 (b &&& 0x1F) 0x80 0xBF
  else if b ≥ 0xE0 && b ≤ 0xEF then
    continuationAt s n i 2 1 (b &&& 0x0F) (if b = 0xE0 then 0xA0 else 0x80)
      (if b = 0xED ∧ surrogates = false then 0x9F else 0xBF)
  else if b ≥ 0xF0 && b ≤ 0xF4 then
    continuationAt s n i 3 1 (b &&& 0x07) (if b = 0xF0 then 0x90 else 0x80)
      (if b = 0xF4 then 0x8F else 0xBF)
  else .ok (kReplacement, 1)

/-- The three loops of `decodeUTF8`, by what is done with a code point; none for one that takes
more turns than that. -/
def decodeLoop {α : Type} (s : List Nat) (n : Nat) (surrogates : Bool)
    (body : α → Nat → Except Fault α) : (turns i : Nat) → α → Loop α
  | 0, i, acc => if i < n then ExceptT.mk none else pure acc
  | turns + 1, i, acc =>
    if i < n then do
      let (cp, taken) ← utf8StepAt s n i surrogates
      let acc ← body acc cp
      decodeLoop s n surrogates body turns ((i + taken) % 2 ^ 32) acc
    else pure acc

/-- The pass that counts: `units` and `isLatin1`. -/
def count (acc : Nat × Bool) (cp : Nat) : Except Fault (Nat × Bool) :=
  .ok ((acc.1 + if cp ≥ 0x10000 then 2 else 1) % 2 ^ 32, acc.2 && !decide (cp > 0xFF))

/-- `dst[o++] = unit`, in a string of so many units. -/
def put (units : Nat) (dst : List UInt16) (unit : UInt16) : Except Fault (List UInt16) :=
  if dst.length < units then .ok (dst ++ [unit]) else .error .outOfBounds

/-- The pass that writes. -/
def write (isLatin1 : Bool) (units : Nat) (dst : List UInt16) (cp : Nat) :
    Except Fault (List UInt16) :=
  if isLatin1 then put units dst (.ofNat (cp % 2 ^ 8)) else (unitsOf cp).foldlM (put units) dst

/-- `decodeUTF8`, with what the new block holds, and the number of units that are written. -/
def decodeUTF8 (fresh : Nat → UInt16) (s : List Nat) (n : Nat) (surrogates : Bool) :
    Loop (StringHeader × Nat) := do
  let (units, isLatin1) ← decodeLoop s n surrogates count n 0 (0, true)
  let size ← allocate (!isLatin1) units
  let dst ← decodeLoop s n surrogates (write isLatin1 units) n 0 []
  let rest := (range' dst.length (units - dst.length)).map fresh
  pure (⟨size, encodingFlag (!isLatin1), dst ++ rest⟩, dst.length)

/-- `createLatin1` of bytes. -/
def createLatin1 (str : List Nat) : Except Fault (StringHeader × Nat) := do
  let size ← allocate false str.length
  .ok (⟨size, encodingFlag false, str.map fun b => .ofNat (b % 2 ^ 8)⟩, str.length)

/-- `createFromUTF8`, which has the size of a `std::string_view` in 32 bits. -/
def createFromUTF8Text (fresh : Nat → UInt16) (sv : List Nat) : Loop (StringHeader × Nat) :=
  let utf8_len := sv.length % 2 ^ 32
  if utf8_len = 0 then createLatin1 []
  else if (sv.take utf8_len).all (· < 0x80) then createLatin1 (sv.take utf8_len)
  else decodeUTF8 fresh sv utf8_len true

def createFromHostUTF8 (fresh : Nat → UInt16) (sv : List Nat) : Loop (StringHeader × Nat) :=
  if sv = [] then createLatin1 [] else decodeUTF8 fresh sv (sv.length % 2 ^ 32) false

/-- `rtUtf8Chars` of a string in its representation: a unit of Latin-1 is a code point. -/
def rtUtf8CharsOf (s : StringHeader) : List Nat :=
  if s.isUTF16 then rtUtf8Chars s.units else s.units.flatMap fun u => appendCodePoint u.toNat

/-! ## The standard -/

/-- A code point that is no surrogate. -/
def Scalar (cp : Nat) : Prop := cp ≤ kLast ∧ ¬(0xD800 ≤ cp ∧ cp ≤ 0xDFFF)

/-- The state of the UTF-8 decoder (Encoding Standard 4.3). -/
structure Decoder where
  codePoint : Nat
  bytesNeeded : Nat
  bytesSeen : Nat
  lowerBoundary : Nat
  upperBoundary : Nat

namespace Decoder

def initial : Decoder := ⟨0, 0, 0, 0x80, 0xBF⟩

/-- A byte where none is needed: the code points it gives, and the state after it. -/
def lead (b : Nat) : List Nat × Decoder :=
  if b ≤ 0x7F then ([b], initial)
  else if 0xC2 ≤ b ∧ b ≤ 0xDF then ([], ⟨b &&& 0x1F, 1, 0, 0x80, 0xBF⟩)
  else if 0xE0 ≤ b ∧ b ≤ 0xEF then
    ([], ⟨b &&& 0xF, 2, 0, if b = 0xE0 then 0xA0 else 0x80, if b = 0xED then 0x9F else 0xBF⟩)
  else if 0xF0 ≤ b ∧ b ≤ 0xF4 then
    ([], ⟨b &&& 0x7, 3, 0, if b = 0xF0 then 0x90 else 0x80, if b = 0xF4 then 0x8F else 0xBF⟩)
  else ([kReplacement], initial)

/-- The handler. A byte out of range is restored to the queue, and met again in the initial
state. -/
def handler (d : Decoder) (b : Nat) : List Nat × Decoder :=
  if d.bytesNeeded = 0 then lead b
  else if ¬(d.lowerBoundary ≤ b ∧ b ≤ d.upperBoundary) then
    (kReplacement :: (lead b).1, (lead b).2)
  else
    let codePoint := (d.codePoint <<< 6) ||| (b &&& 0x3F)
    if d.bytesSeen + 1 ≠ d.bytesNeeded then
      ([], ⟨codePoint, d.bytesNeeded, d.bytesSeen + 1, 0x80, 0xBF⟩)
    else ([codePoint], initial)

/-- The code points of a queue of bytes, with U+FFFD for an error. -/
def run (d : Decoder) : List Nat → List Nat
  | [] => if d.bytesNeeded = 0 then [] else [kReplacement]
  | b :: rest => (d.handler b).1 ++ (d.handler b).2.run rest

end Decoder

/-- UTF-8 decode without BOM of the Encoding Standard. -/
def whatwg (bytes : List Nat) : List Nat := Decoder.initial.run bytes

/-- The start of the bytes of a code point, and not all of them. -/
def Subpart (bytes : List Nat) : Prop :=
  ∃ cp, Scalar cp ∧ bytes <+: appendCodePoint cp ∧ bytes ≠ appendCodePoint cp

/-- The code points of a text, one maximal subpart for each U+FFFD (Unicode 3.9). -/
inductive Parsed : List Nat → List Nat → Prop where
  | nil : Parsed [] []
  | char {cp : Nat} {rest cps : List Nat} (hcp : Scalar cp) (h : Parsed rest cps) :
    Parsed (appendCodePoint cp ++ rest) (cp :: cps)
  | replaced {bytes rest cps : List Nat}
    (hnone : ∀ cp, Scalar cp → ¬appendCodePoint cp <+: bytes ++ rest)
    (hpart : bytes.length = 1 ∨ 1 < bytes.length ∧ Subpart bytes)
    (hmost : ∀ more, more <+: bytes ++ rest → Subpart more → more.length ≤ bytes.length)
    (h : Parsed rest cps) : Parsed (bytes ++ rest) (kReplacement :: cps)

/-! ## A step -/

section Steps

variable {s : List Nat} {n i : Nat} {surrogates : Bool}

/-- `utf8Step` on the bytes from its index on. -/
def step (surrogates : Bool) : List Nat → Nat × Nat
  | [] => (kReplacement, 1)
  | b :: rest =>
    if b < 0x80 then (b, 1)
    else if b ≥ 0xC2 && b ≤ 0xDF then continuation 1 1 (b &&& 0x1F) 0x80 0xBF rest
    else if b ≥ 0xE0 && b ≤ 0xEF then
      continuation 2 1 (b &&& 0x0F) (if b = 0xE0 then 0xA0 else 0x80)
        (if b = 0xED ∧ surrogates = false then 0x9F else 0xBF) rest
    else if b ≥ 0xF0 && b ≤ 0xF4 then
      continuation 3 1 (b &&& 0x07) (if b = 0xF0 then 0x90 else 0x80)
        (if b = 0xF4 then 0x8F else 0xBF) rest
    else (kReplacement, 1)

theorem step_true : step true = utf8Step := by
  funext bytes
  cases bytes <;> simp [step, utf8Step]

theorem take_drop_eq_cons (hs : n ≤ s.length) (hi : i < n) :
    ∃ b, s[i]? = some b ∧ (s.take n).drop i = b :: (s.take n).drop (i + 1) := by
  have hlt : i < (s.take n).length := by
    rw [length_take]
    omega
  refine ⟨(s.take n)[i], ?_, drop_eq_getElem_cons hlt⟩
  rw [getElem_take, getElem?_eq_getElem]

theorem byteAt_eq {b : Nat} (h : s[i]? = some b) : byteAt s i = .ok b := by
  rw [byteAt, h]

/-- **The loop over the continuation bytes** reads no byte past the end. -/
theorem continuationAt_eq (hs : n ≤ s.length) (hn : n < 2 ^ 32) (left k cp lower upper : Nat)
    (hk : i + k ≤ n) : continuationAt s n i left k cp lower upper =
      .ok (continuation left k cp lower upper ((s.take n).drop (i + k))) := by
  induction left generalizing k cp lower upper with
  | zero => rfl
  | succ left ih =>
    rw [continuationAt, Nat.mod_eq_of_lt (by omega)]
    split_ifs with hend
    · rw [drop_eq_nil_of_le (by rw [length_take]; omega)]
      rfl
    · obtain ⟨b, hb, hbytes⟩ := take_drop_eq_cons hs (Nat.not_le.mp hend)
      rw [byteAt_eq hb, hbytes, continuation]
      change (if _ then _ else _) = _
      split_ifs with hrange
      · rfl
      · exact ih (k + 1) _ _ _ (by omega)

/-- **A step** reads no byte past the end. -/
theorem utf8StepAt_eq (hs : n ≤ s.length) (hn : n < 2 ^ 32) (hi : i < n) :
    utf8StepAt s n i surrogates = .ok (step surrogates ((s.take n).drop i)) := by
  obtain ⟨b, hb, hbytes⟩ := take_drop_eq_cons hs hi
  rw [utf8StepAt, byteAt_eq hb, hbytes, step]
  change (if _ then _ else _) = _
  split_ifs <;> first | rfl | exact continuationAt_eq hs hn _ _ _ _ _ hi

variable {left k cp lower upper : Nat} {rest : List Nat}

/-- Continuation bytes that are all there, or a replacement for those that are. -/
theorem continuation_taken : k ≤ (continuation left k cp lower upper rest).2 ∧
    (continuation left k cp lower upper rest).2 ≤ k + min left rest.length ∧
      ((continuation left k cp lower upper rest).1 = kReplacement ∨
        (continuation left k cp lower upper rest).2 = k + left) := by
  induction left generalizing k cp lower upper rest with
  | zero => simp [continuation]
  | succ left ih =>
    cases rest with
    | nil => simp [continuation]
    | cons b rest =>
      rw [continuation]
      split_ifs with hrange
      · simp
      · have h := @ih (k + 1) ((cp <<< 6) ||| (b &&& 0x3F)) 0x80 0xBF rest
        rw [length_cons]
        omega

/-- A step takes a byte at least, four at most, and as many as it gives units. -/
theorem step_taken (b : Nat) (rest : List Nat) : 0 < (step surrogates (b :: rest)).2 ∧
    (step surrogates (b :: rest)).2 ≤ min 4 (b :: rest).length ∧
      (unitsOf (step surrogates (b :: rest)).1).length ≤ (step surrogates (b :: rest)).2 := by
  have hunits : ∀ cp, (unitsOf cp).length = if cp ≥ 0x10000 then 2 else 1 := by
    intro cp
    rw [unitsOf]
    split_ifs <;> rfl
  have hcontinued : ∀ left cp lower upper, 1 ≤ left → left ≤ 3 →
      0 < (continuation left 1 cp lower upper rest).2 ∧
        (continuation left 1 cp lower upper rest).2 ≤ min 4 (b :: rest).length ∧
        (unitsOf (continuation left 1 cp lower upper rest).1).length ≤
          (continuation left 1 cp lower upper rest).2 := by
    intro left cp lower upper hpos hle
    obtain ⟨hk, hmost, hall⟩ := @continuation_taken left 1 cp lower upper rest
    refine ⟨hk, by rw [length_cons]; omega, ?_⟩
    rw [hunits]
    rcases hall with hnone | hall
    · rw [hnone, kReplacement]
      exact hk
    · rw [hall]
      split_ifs <;> omega
  rw [step]
  split
  next hascii =>
    rw [hunits, if_neg (by omega)]
    simp
  split
  · exact hcontinued 1 _ _ _ le_rfl (by decide)
  split
  · exact hcontinued 2 _ _ _ (by decide) (by decide)
  split
  · exact hcontinued 3 _ _ _ (by decide) le_rfl
  · simp [hunits, kReplacement]

end Steps

/-! ## The loops -/

section Loops

variable {s bytes cps : List Nat} {n i units : Nat} {surrogates : Bool}

/-- The code points of so many steps. -/
def decodeWith (surrogates : Bool) : Nat → List Nat → List Nat
  | 0, _ => []
  | _ + 1, [] => []
  | fuel + 1, b :: rest =>
    (step surrogates (b :: rest)).1 ::
      decodeWith surrogates fuel ((b :: rest).drop (step surrogates (b :: rest)).2)

/-- The code points of a text. -/
def decoded (surrogates : Bool) (bytes : List Nat) : List Nat :=
  decodeWith surrogates bytes.length bytes

theorem decodeWith_eq {fuel : Nat} (h : bytes.length ≤ fuel) :
    decodeWith surrogates fuel bytes = decoded surrogates bytes := by
  have key : ∀ f f' bytes, bytes.length ≤ f → bytes.length ≤ f' →
      decodeWith surrogates f bytes = decodeWith surrogates f' bytes := by
    intro f
    induction f with
    | zero =>
      intro f' bytes hf _
      rw [length_eq_zero_iff.mp (Nat.le_zero.mp hf)]
      cases f' <;> rfl
    | succ f ih =>
      intro f' bytes hf hf'
      cases bytes with
      | nil => cases f' <;> rfl
      | cons b rest =>
        cases f' with
        | zero => cases hf'
        | succ f' =>
          have hpos := (@step_taken surrogates b rest).1
          rw [length_cons] at hf hf'
          rw [decodeWith, decodeWith, ih f' _ _ _] <;> rw [length_drop, length_cons] <;> omega
  exact key fuel bytes.length bytes h le_rfl

theorem decoded_cons (b : Nat) (rest : List Nat) : decoded surrogates (b :: rest) =
    (step surrogates (b :: rest)).1 ::
      decoded surrogates ((b :: rest).drop (step surrogates (b :: rest)).2) := by
  have hpos := (@step_taken surrogates b rest).1
  rw [decoded, length_cons, decodeWith, decodeWith_eq]
  rw [length_drop, length_cons]
  omega

/-- A text is read step by step. -/
theorem decoded_induction (surrogates : Bool) {motive : List Nat → Prop} (nil : motive [])
    (cons : ∀ b rest, motive ((b :: rest).drop (step surrogates (b :: rest)).2) →
      motive (b :: rest)) (bytes : List Nat) : motive bytes := by
  induction hn : bytes.length using Nat.strong_induction_on generalizing bytes with
  | _ n ih =>
    cases bytes with
    | nil => exact nil
    | cons b rest =>
      have hpos := (@step_taken surrogates b rest).1
      refine cons b rest (ih _ ?_ _ rfl)
      rw [length_drop, ← hn, length_cons]
      omega

/-- A text has no more units than bytes. -/
theorem length_units_le (surrogates : Bool) (bytes : List Nat) :
    ((decoded surrogates bytes).flatMap unitsOf).length ≤ bytes.length := by
  induction bytes using decoded_induction surrogates with
  | nil => exact le_rfl
  | cons b rest ih =>
    obtain ⟨-, hle, hunits⟩ := @step_taken surrogates b rest
    rw [decoded_cons, flatMap_cons, length_append]
    rw [length_drop] at ih
    omega

theorem ok_bind {α β : Type} (a : α) (f : α → Loop β) : (ExceptT.mk (some (.ok a)) >>= f) = f a :=
  rfl

theorem lift_ok {α : Type} (a : α) :
    (liftM (Except.ok a : Except Fault α) : Loop α) = ExceptT.mk (some (.ok a)) :=
  rfl

/-- **A loop ends**, and its body is done with every code point in turn. -/
theorem decodeLoop_eq {α : Type} {body : α → Nat → Except Fault α} (hs : n ≤ s.length)
    (hn : n < 2 ^ 32) {turns : Nat} (hi : i ≤ n) (hturns : n - i ≤ turns) (acc : α) :
    decodeLoop s n surrogates body turns i acc =
      ExceptT.mk (some ((decoded surrogates ((s.take n).drop i)).foldlM body acc)) := by
  induction turns generalizing i acc with
  | zero =>
    obtain rfl : i = n := by omega
    rw [decodeLoop, if_neg (Nat.lt_irrefl i), drop_eq_nil_of_le (by rw [length_take]; omega)]
    rfl
  | succ turns ih =>
    by_cases hlt : i < n
    · obtain ⟨b, -, hbytes⟩ := take_drop_eq_cons hs hlt
      obtain ⟨hpos, hle, -⟩ := @step_taken surrogates b ((s.take n).drop (i + 1))
      rw [← hbytes] at hpos hle
      rw [length_drop, length_take] at hle
      rw [decodeLoop, if_pos hlt, utf8StepAt_eq hs hn hlt, hbytes, decoded_cons, ← hbytes,
        foldlM_cons, drop_drop]
      generalize step surrogates ((s.take n).drop i) = answer at hpos hle ⊢
      obtain ⟨cp, taken⟩ := answer
      dsimp only at hpos hle ⊢
      cases hbody : body acc cp with
      | error e =>
        change (body acc cp : Loop α) >>= _ = _
        rw [hbody]
        rfl
      | ok acc' =>
        have hmod : (i + taken) % 2 ^ 32 = i + taken := Nat.mod_eq_of_lt (by omega)
        change (body acc cp : Loop α) >>= _ = _
        rw [hbody]
        change decodeLoop s n surrogates body turns ((i + taken) % 2 ^ 32) acc' = _
        rw [hmod, ih (by omega) (by omega)]
        rfl
    · obtain rfl : i = n := by omega
      rw [decodeLoop, if_neg hlt, drop_eq_nil_of_le (by rw [length_take]; omega)]
      rfl

/-- **The pass that counts** counts the units, in 32 bits that are enough. -/
theorem foldlM_count (latin1 : Bool) (h : units + (cps.flatMap unitsOf).length < 2 ^ 32) :
    cps.foldlM count (units, latin1) =
      .ok (units + (cps.flatMap unitsOf).length, latin1 && cps.all (· ≤ 0xFF)) := by
  induction cps generalizing units latin1 with
  | nil => simp [pure, Except.pure]
  | cons cp cps ih =>
    have hunits : (unitsOf cp).length = if cp ≥ 0x10000 then 2 else 1 := by
      rw [unitsOf]
      split_ifs <;> rfl
    rw [flatMap_cons, length_append, ← Nat.add_assoc] at h
    rw [foldlM_cons, count]
    change cps.foldlM count _ = _
    rw [← hunits, Nat.mod_eq_of_lt (by omega), ih _ h, flatMap_cons, length_append, all_cons,
      Nat.add_assoc, Bool.and_assoc]
    have hle : (!decide (cp > 0xFF)) = decide (cp ≤ 0xFF) := by
      rw [Bool.eq_iff_iff]
      simp
    rw [hle]

theorem foldlM_put {dst us : List UInt16} (h : dst.length + us.length ≤ units) :
    us.foldlM (put units) dst = .ok (dst ++ us) := by
  induction us generalizing dst with
  | nil => simp [pure, Except.pure]
  | cons u us ih =>
    rw [length_cons] at h
    rw [foldlM_cons, put, if_pos (by omega)]
    change us.foldlM (put units) (dst ++ [u]) = _
    rw [ih (by rw [length_append]; simp; omega), append_assoc, singleton_append]

/-- **The pass that writes** writes no unit past those that were counted. -/
theorem foldlM_write {isLatin1 : Bool} (hlatin1 : isLatin1 = true → cps.all (· ≤ 0xFF) = true)
    {dst : List UInt16} (h : dst.length + (cps.flatMap unitsOf).length ≤ units) :
    cps.foldlM (write isLatin1 units) dst = .ok (dst ++ cps.flatMap unitsOf) := by
  induction cps generalizing dst with
  | nil => simp [pure, Except.pure]
  | cons cp cps ih =>
    rw [flatMap_cons, length_append] at h
    have hwrite : write isLatin1 units dst cp = .ok (dst ++ unitsOf cp) := by
      rw [write]
      split_ifs with hl
      · have hle := hlatin1 hl
        simp only [all_cons, Bool.and_eq_true, decide_eq_true_eq] at hle
        have hunit : unitsOf cp = [UInt16.ofNat cp] := by
          rw [unitsOf, if_neg (by omega)]
        rw [hunit, length_singleton] at h
        rw [hunit, put, if_pos (by omega), Nat.mod_eq_of_lt (by omega)]
      · exact foldlM_put (by omega)
    rw [foldlM_cons, hwrite]
    change cps.foldlM (write isLatin1 units) (dst ++ unitsOf cp) = _
    rw [ih (fun hl => ?_) (by rw [length_append]; omega), flatMap_cons, append_assoc]
    have hall := hlatin1 hl
    rw [all_cons, Bool.and_eq_true] at hall
    exact hall.2

/-- A string of the code points, and its length. -/
def made (cps : List Nat) : Loop (StringHeader × Nat) := do
  let size ← allocate (!cps.all (· ≤ 0xFF)) (cps.flatMap unitsOf).length
  pure (⟨size, encodingFlag (!cps.all (· ≤ 0xFF)), cps.flatMap unitsOf⟩,
    (cps.flatMap unitsOf).length)

/-- **Both passes** see the same code points. -/
theorem decodeUTF8_eq (fresh : Nat → UInt16) (hs : n ≤ s.length) (hn : n < 2 ^ 32) :
    decodeUTF8 fresh s n surrogates = made (decoded surrogates (s.take n)) := by
  have hle := length_units_le surrogates (s.take n)
  rw [length_take] at hle
  have hloop := fun (α : Type) (body : α → Nat → Except Fault α) (acc : α) =>
    @decodeLoop_eq s n 0 surrogates α body hs hn n (Nat.zero_le n) le_rfl acc
  simp only [drop_zero] at hloop
  rw [decodeUTF8, hloop, foldlM_count true (by omega), Bool.true_and, Nat.zero_add, ok_bind, made]
  dsimp only
  cases allocate (!(decoded surrogates (s.take n)).all (· ≤ 0xFF))
      ((decoded surrogates (s.take n)).flatMap unitsOf).length with
  | error e => rfl
  | ok size =>
    rw [lift_ok, ok_bind, ok_bind, hloop, foldlM_write (fun h => h) (by simp), ok_bind]
    simp

/-- ASCII is its own Latin-1. -/
theorem decoded_ascii (h : bytes.all (· < 0x80) = true) : decoded surrogates bytes = bytes := by
  induction bytes with
  | nil => rfl
  | cons b rest ih =>
    rw [all_cons, Bool.and_eq_true, decide_eq_true_eq] at h
    rw [decoded_cons, step, if_pos h.1, drop_one, tail_cons, ih h.2]

theorem createLatin1_eq (h : bytes.all (· < 0x80) = true) :
    (createLatin1 bytes : Loop (StringHeader × Nat)) = made (decoded surrogates bytes) := by
  have hlt : ∀ b ∈ bytes, b < 0x80 := by simpa using h
  have hunits : bytes.flatMap unitsOf = bytes.map fun b => UInt16.ofNat (b % 2 ^ 8) := by
    rw [map_eq_flatMap]
    refine flatMap_congr fun b hb => ?_
    have hb := hlt b hb
    rw [unitsOf, if_neg (by omega), Nat.mod_eq_of_lt (by omega)]
  have hlatin1 : bytes.all (· ≤ 0xFF) = true := by
    rw [all_eq_true]
    intro b hb
    have hb := hlt b hb
    exact decide_eq_true (by omega)
  rw [decoded_ascii h, made, hlatin1, hunits, length_map, createLatin1, Bool.not_true]
  cases allocate false bytes.length <;> rfl

theorem createFromUTF8Text_eq (fresh : Nat → UInt16) (sv : List Nat) :
    createFromUTF8Text fresh sv = made (decoded true (sv.take (sv.length % 2 ^ 32))) := by
  unfold createFromUTF8Text
  dsimp only
  split_ifs with hzero hascii
  · rw [hzero]
    exact createLatin1_eq rfl
  · exact createLatin1_eq hascii
  · exact decodeUTF8_eq fresh (Nat.mod_le ..) (Nat.mod_lt _ (by decide))

theorem createFromHostUTF8_eq (fresh : Nat → UInt16) (sv : List Nat) :
    createFromHostUTF8 fresh sv = made (decoded false (sv.take (sv.length % 2 ^ 32))) := by
  rw [createFromHostUTF8]
  split_ifs with hnil
  · rw [hnil]
    exact createLatin1_eq rfl
  · exact decodeUTF8_eq fresh (Nat.mod_le ..) (Nat.mod_lt _ (by decide))

end Loops

/-! ## The standard decodes alike -/

section Standard

variable {b left k cp lower upper seen : Nat} {rest : List Nat}

/-- **A state that waits** for continuation bytes is the loop over them. -/
theorem run_continuation :
    Decoder.run ⟨cp, seen + (left + 1), seen, lower, upper⟩ rest =
      (continuation (left + 1) k cp lower upper rest).1 ::
        whatwg (rest.drop ((continuation (left + 1) k cp lower upper rest).2 - k)) := by
  induction left generalizing k cp lower upper rest seen with
  | zero =>
    cases rest with
    | nil => simp [Decoder.run, Decoder.initial, continuation, whatwg]
    | cons b rest =>
      rw [continuation, Decoder.run, Decoder.handler]
      by_cases hrange : lower ≤ b ∧ b ≤ upper
      · rw [if_neg (by simp), if_neg (not_not.mpr hrange), if_neg (by simp),
          if_neg (by simp; omega), continuation]
        simp [whatwg]
      · rw [if_neg (by simp), if_pos hrange, if_pos (by simp; omega), Nat.sub_self, drop_zero]
        rfl
  | succ left ih =>
    cases rest with
    | nil => simp [Decoder.run, Decoder.initial, continuation, whatwg]
    | cons b rest =>
      rw [continuation, Decoder.run, Decoder.handler]
      by_cases hrange : lower ≤ b ∧ b ≤ upper
      · obtain ⟨hk, -, -⟩ := @continuation_taken (left + 1) (k + 1)
          ((cp <<< 6) ||| (b &&& 0x3F)) 0x80 0xBF rest
        have hneeded : seen + (left + 1 + 1) = seen + 1 + (left + 1) := by omega
        rw [if_neg (by simp), if_neg (not_not.mpr hrange), if_pos (by simp),
          if_neg (by simp; omega), hneeded, nil_append, @ih (k + 1)]
        obtain ⟨taken, htaken⟩ := Nat.exists_eq_add_of_le hk
        have hdrop : k + 1 + taken - k = taken + 1 := by omega
        rw [htaken, Nat.add_sub_cancel_left, hdrop, drop_succ_cons]
      · rw [if_neg (by simp), if_pos hrange, if_pos (by simp; omega), Nat.sub_self, drop_zero]
        rfl

/-- The standard takes the same step. -/
theorem whatwg_cons (b : Nat) (rest : List Nat) : whatwg (b :: rest) =
    (step false (b :: rest)).1 :: whatwg ((b :: rest).drop (step false (b :: rest)).2) := by
  have hlead : whatwg (b :: rest) = (Decoder.lead b).1 ++ (Decoder.lead b).2.run rest := rfl
  have hcontinued : ∀ left cp lower upper,
      Decoder.run ⟨cp, left + 1, 0, lower, upper⟩ rest =
        (continuation (left + 1) 1 cp lower upper rest).1 ::
          whatwg ((b :: rest).drop (continuation (left + 1) 1 cp lower upper rest).2) := by
    intro left cp lower upper
    obtain ⟨hk, -, -⟩ := @continuation_taken (left + 1) 1 cp lower upper rest
    have hrun := @run_continuation left 1 cp lower upper 0 rest
    rw [Nat.zero_add] at hrun
    obtain ⟨taken, htaken⟩ := Nat.exists_eq_add_of_le' hk
    rw [hrun, htaken, Nat.add_sub_cancel, drop_succ_cons]
  rw [hlead, Decoder.lead, step]
  simp only [ge_iff_le, Bool.and_eq_true, decide_eq_true_eq, and_true]
  by_cases hascii : b < 0x80
  · rw [if_pos (by omega), if_pos hascii]
    rfl
  rw [if_neg (by omega), if_neg hascii]
  by_cases htwo : 0xC2 ≤ b ∧ b ≤ 0xDF
  · rw [if_pos htwo, if_pos htwo]
    exact hcontinued _ _ _ _
  rw [if_neg htwo, if_neg htwo]
  by_cases hthree : 0xE0 ≤ b ∧ b ≤ 0xEF
  · rw [if_pos hthree, if_pos hthree]
    exact hcontinued _ _ _ _
  rw [if_neg hthree, if_neg hthree]
  by_cases hfour : 0xF0 ≤ b ∧ b ≤ 0xF4
  · rw [if_pos hfour, if_pos hfour]
    exact hcontinued _ _ _ _
  · rw [if_neg hfour, if_neg hfour]
    rfl

/-- **The decoder of the standard** gives the code points of the code without surrogates. -/
theorem whatwg_eq (bytes : List Nat) : whatwg bytes = decoded false bytes := by
  induction bytes using decoded_induction false with
  | nil => rfl
  | cons b rest ih => rw [whatwg_cons, decoded_cons, ih]

end Standard

/-! ## Maximal subparts -/

section Subparts

variable {b c cp k need lower upper : Nat} {bytes rest more cs : List Nat}

/-- Bytes that may go on after a lead byte, so many at most and the first of them in a range of its
own. -/
def Continues : (need lower upper : Nat) → List Nat → Prop
  | _, _, _, [] => True
  | 0, _, _, _ :: _ => False
  | need + 1, lower, upper, c :: cs => lower ≤ c ∧ c ≤ upper ∧ Continues need 0x80 0xBF cs

@[simp] theorem continues_nil (need lower upper : Nat) : Continues need lower upper [] := by
  cases need <;> trivial

theorem Continues.of_prefix (h : Continues need lower upper bytes) (hmore : more <+: bytes) :
    Continues need lower upper more := by
  induction bytes generalizing need lower upper more with
  | nil =>
    rw [prefix_nil.mp hmore]
    exact h
  | cons c cs ih =>
    cases more with
    | nil => exact continues_nil ..
    | cons c' more =>
      obtain ⟨rfl, htail⟩ := cons_prefix_cons.mp hmore
      cases need with
      | zero => exact h
      | succ need => exact ⟨h.1, h.2.1, ih h.2.2 htail⟩

theorem Continues.length_le (h : Continues need lower upper bytes) : bytes.length ≤ need := by
  induction bytes generalizing need lower upper with
  | nil => exact Nat.zero_le need
  | cons c cs ih =>
    cases need with
    | zero => exact h.elim
    | succ need => exact Nat.succ_le_succ (ih h.2.2)

/-- The bytes that are missing can be had. -/
theorem Continues.fill (hrange : lower ≤ upper) (h : Continues need lower upper bytes) :
    ∃ more, Continues need lower upper (bytes ++ more) ∧ (bytes ++ more).length = need := by
  induction need generalizing lower upper bytes with
  | zero => exact ⟨[], by rw [append_nil]; exact h, by simpa using h.length_le⟩
  | succ need ih =>
    have hall : 0x80 ≤ 0xBF := by decide
    cases bytes with
    | nil =>
      obtain ⟨more, hmore, hlength⟩ := ih hall (continues_nil ..)
      exact ⟨lower :: more, ⟨le_rfl, hrange, hmore⟩, congrArg Nat.succ hlength⟩
    | cons c cs =>
      obtain ⟨more, hmore, hlength⟩ := ih hall h.2.2
      exact ⟨more, ⟨h.1, h.2.1, hmore⟩, congrArg Nat.succ hlength⟩

/-- **The loop over the continuation bytes** takes as many as can go on, and has a replacement for
fewer than are needed. -/
theorem continuation_most : ∃ j, (continuation need k cp lower upper rest).2 = k + j ∧
    Continues need lower upper (rest.take j) ∧ j ≤ rest.length ∧
      (∀ more, more <+: rest → Continues need lower upper more → more.length ≤ j) ∧
        (j = need ∨ (continuation need k cp lower upper rest).1 = kReplacement) := by
  induction need generalizing k cp lower upper rest with
  | zero =>
    exact ⟨0, rfl, continues_nil .., Nat.zero_le _, fun _ _ h => h.length_le, .inl rfl⟩
  | succ need ih =>
    cases rest with
    | nil =>
      refine ⟨0, rfl, continues_nil .., le_rfl, fun more hmore _ => ?_, .inr rfl⟩
      rw [prefix_nil.mp hmore]
      exact le_rfl
    | cons c cs =>
      rw [continuation]
      split_ifs with hrange
      · refine ⟨0, rfl, continues_nil .., Nat.zero_le _, fun more hmore h => ?_, .inr rfl⟩
        cases more with
        | nil => exact le_rfl
        | cons c' more =>
          obtain ⟨rfl, -⟩ := cons_prefix_cons.mp hmore
          obtain ⟨hlower, hupper, -⟩ := h
          simp at hrange
          omega
      · obtain ⟨j, htaken, hmost, hj, hlongest, hshort⟩ :=
          @ih ((cp <<< 6) ||| (c &&& 0x3F)) (k + 1) 0x80 0xBF cs
        simp only [Bool.or_eq_true, decide_eq_true_eq, not_or, not_lt] at hrange
        refine ⟨j + 1, by rw [htaken]; omega, ⟨hrange.1, hrange.2, hmost⟩, Nat.succ_le_succ hj,
          fun more hmore h => ?_, hshort.imp_left (congrArg Nat.succ)⟩
        cases more with
        | nil => exact Nat.zero_le _
        | cons c' more =>
          obtain ⟨-, hmore⟩ := cons_prefix_cons.mp hmore
          exact Nat.succ_le_succ (hlongest more hmore h.2.2)

/-- The continuation bytes after a lead byte: their number, and the range of the first. -/
def leadOf (b : Nat) : Option (Nat × Nat × Nat) :=
  if 0xC2 ≤ b ∧ b ≤ 0xDF then some (1, 0x80, 0xBF)
  else if 0xE0 ≤ b ∧ b ≤ 0xEF then
    some (2, if b = 0xE0 then 0xA0 else 0x80, if b = 0xED then 0x9F else 0xBF)
  else if 0xF0 ≤ b ∧ b ≤ 0xF4 then
    some (3, if b = 0xF0 then 0x90 else 0x80, if b = 0xF4 then 0x8F else 0xBF)
  else none

theorem leadOf_two (h : 0xC2 ≤ b ∧ b ≤ 0xDF) : leadOf b = some (1, 0x80, 0xBF) := by
  rw [leadOf, if_pos h]

theorem leadOf_three (h : 0xE0 ≤ b ∧ b ≤ 0xEF) : leadOf b =
    some (2, if b = 0xE0 then 0xA0 else 0x80, if b = 0xED then 0x9F else 0xBF) := by
  rw [leadOf, if_neg (by omega), if_pos h]

theorem leadOf_four (h : 0xF0 ≤ b ∧ b ≤ 0xF4) : leadOf b =
    some (3, if b = 0xF0 then 0x90 else 0x80, if b = 0xF4 then 0x8F else 0xBF) := by
  rw [leadOf, if_neg (by omega), if_neg (by omega), if_pos h]

theorem leadOf_cases (h : leadOf b = some (need, lower, upper)) :
    (0xC2 ≤ b ∧ b ≤ 0xDF ∧ need = 1 ∧ lower = 0x80 ∧ upper = 0xBF) ∨
    (0xE0 ≤ b ∧ b ≤ 0xEF ∧ need = 2 ∧ lower = (if b = 0xE0 then 0xA0 else 0x80) ∧
      upper = if b = 0xED then 0x9F else 0xBF) ∨
    0xF0 ≤ b ∧ b ≤ 0xF4 ∧ need = 3 ∧ lower = (if b = 0xF0 then 0x90 else 0x80) ∧
      upper = if b = 0xF4 then 0x8F else 0xBF := by
  rw [leadOf] at h
  split at h
  next hb => exact .inl (by simp_all)
  split at h
  next hb => exact .inr (.inl (by simp_all))
  split at h
  next hb => exact .inr (.inr (by simp_all))
  · cases h

theorem leadOf_range (h : leadOf b = some (need, lower, upper)) : lower ≤ upper := by
  obtain ⟨-, -, -, rfl, rfl⟩ | ⟨-, -, -, rfl, rfl⟩ | ⟨-, -, -, rfl, rfl⟩ := leadOf_cases h
  · decide
  · split_ifs <;> omega
  · split_ifs <;> omega

/-- **The bytes of a scalar value** that is no ASCII are those that a lead byte asks for. -/
theorem encoded_iff : (∃ cp, Scalar cp ∧ appendCodePoint cp = b :: cs) ↔
    (b < 0x80 ∧ cs = []) ∨ ∃ need lower upper, leadOf b = some (need, lower, upper) ∧
      Continues need lower upper cs ∧ cs.length = need := by
  constructor
  · rintro ⟨cp, ⟨hle, hsurrogate⟩, hbytes⟩
    rw [appendCodePoint_eq hle] at hbytes
    rw [kLast] at hle
    split_ifs at hbytes with hone htwo hthree <;> obtain ⟨rfl, rfl⟩ := cons.inj hbytes
    · exact .inl ⟨by omega, rfl⟩
    · refine .inr ⟨1, _, _, leadOf_two (by omega), ?_, rfl⟩
      exact ⟨by omega, by omega, continues_nil ..⟩
    · refine .inr ⟨2, _, _, leadOf_three (by omega), ?_, rfl⟩
      exact ⟨by split_ifs <;> omega, by split_ifs <;> omega, by omega, by omega,
        continues_nil ..⟩
    · refine .inr ⟨3, _, _, leadOf_four (by omega), ?_, rfl⟩
      exact ⟨by split_ifs <;> omega, by split_ifs <;> omega, by omega, by omega, by omega,
        by omega, continues_nil ..⟩
  · rintro (⟨hascii, rfl⟩ | ⟨need, lower, upper, hlead, hcs, hlength⟩)
    · refine ⟨b, ⟨by rw [kLast]; omega, by omega⟩, ?_⟩
      rw [appendCodePoint, if_pos (by omega)]
    · obtain ⟨hb, hb', rfl, rfl, rfl⟩ | ⟨hb, hb', rfl, rfl, rfl⟩ | ⟨hb, hb', rfl, rfl, rfl⟩ :=
        leadOf_cases hlead
      · obtain ⟨c, rfl⟩ := length_eq_one_iff.mp hlength
        obtain ⟨hlower, hupper, -⟩ := hcs
        have hle : b % 32 * 64 + c % 64 ≤ kLast := by
          rw [kLast]
          omega
        refine ⟨_, ⟨hle, by omega⟩, ?_⟩
        rw [appendCodePoint_eq hle, if_neg (by omega), if_pos (by omega)]
        simp only [cons.injEq, and_true]
        omega
      · obtain ⟨c, d, rfl⟩ := length_eq_two.mp hlength
        obtain ⟨hlower, hupper, hd, hd', -⟩ := hcs
        generalize hcp : b % 16 * 4096 + c % 64 * 64 + d % 64 = cp
        have hrange : 0x800 ≤ cp ∧ ¬(0xD800 ≤ cp ∧ cp ≤ 0xDFFF) ∧ cp ≤ 0xFFFF := by
          split_ifs at hlower hupper <;> omega
        have hle : cp ≤ kLast := by
          rw [kLast]
          omega
        refine ⟨cp, ⟨hle, hrange.2.1⟩, ?_⟩
        rw [appendCodePoint_eq hle, if_neg (by omega), if_neg (by omega), if_pos hrange.2.2]
        simp only [cons.injEq, and_true]
        split_ifs at hlower hupper <;> omega
      · obtain ⟨c, d, e, rfl⟩ := length_eq_three.mp hlength
        obtain ⟨hlower, hupper, hd, hd', he, he', -⟩ := hcs
        generalize hcp : b % 8 * 262144 + c % 64 * 4096 + d % 64 * 64 + e % 64 = cp
        have hrange : 0x10000 ≤ cp ∧ cp ≤ kLast := by
          rw [kLast]
          split_ifs at hlower hupper <;> omega
        refine ⟨cp, ⟨hrange.2, by omega⟩, ?_⟩
        rw [appendCodePoint_eq hrange.2, if_neg (by omega), if_neg (by omega), if_neg (by omega)]
        simp only [cons.injEq, and_true]
        split_ifs at hlower hupper <;> omega

theorem step_lead (rest : List Nat) (h : leadOf b = some (need, lower, upper)) :
    ∃ cp, step false (b :: rest) = continuation need 1 cp lower upper rest := by
  rw [step]
  simp only [ge_iff_le, Bool.and_eq_true, decide_eq_true_eq, and_true]
  obtain ⟨hb, hb', rfl, rfl, rfl⟩ | ⟨hb, hb', rfl, rfl, rfl⟩ | ⟨hb, hb', rfl, rfl, rfl⟩ :=
    leadOf_cases h
  · exact ⟨_, by rw [if_neg (by omega), if_pos ⟨hb, hb'⟩]⟩
  · exact ⟨_, by rw [if_neg (by omega), if_neg (by omega), if_pos ⟨hb, hb'⟩]⟩
  · exact ⟨_, by
      rw [if_neg (by omega), if_neg (by omega), if_neg (by omega), if_pos ⟨hb, hb'⟩]⟩

theorem step_invalid (hb : ¬b < 0x80) (h : leadOf b = none) :
    step false (b :: rest) = (kReplacement, 1) := by
  rw [leadOf] at h
  split_ifs at h with htwo hthree hfour
  rw [step]
  simp only [ge_iff_le, Bool.and_eq_true, decide_eq_true_eq]
  rw [if_neg hb, if_neg htwo, if_neg hthree, if_neg hfour]

/-- **The bytes of a scalar value** are read as with surrogates. -/
theorem step_scalar (h : Scalar cp) (rest : List Nat) :
    step false (appendCodePoint cp ++ rest) = (cp, (appendCodePoint cp).length) := by
  rw [← utf8Step_append h.1 rest, ← step_true]
  cases hbytes : appendCodePoint cp with
  | nil => exact absurd hbytes (appendCodePoint_ne_nil cp)
  | cons b cs =>
    rw [cons_append, step, step]
    by_cases hb : b = 0xED
    · subst hb
      obtain ⟨hascii, -⟩ | ⟨need, lower, upper, hlead, hcs, hlength⟩ :=
        encoded_iff.mp ⟨cp, h, hbytes⟩
      · exact absurd hascii (by decide)
      -- the range that the surrogates leave holds the byte
      · cases hlead
        obtain ⟨c, d, rfl⟩ := length_eq_two.mp hlength
        obtain ⟨-, hupper, -⟩ := hcs
        have hnarrow : ¬0x9F < c := not_lt.mpr hupper
        have hwide : ¬0xBF < c := by omega
        simp [continuation, hnarrow, hwide]
    · simp only [hb, false_and]

/-- Where no scalar value can be read, a step takes a maximal subpart. -/
theorem step_replaced (hnone : ∀ cp, Scalar cp → ¬appendCodePoint cp <+: b :: rest) :
    (step false (b :: rest)).1 = kReplacement ∧
      (((b :: rest).take (step false (b :: rest)).2).length = 1 ∨
        1 < ((b :: rest).take (step false (b :: rest)).2).length ∧
          Subpart ((b :: rest).take (step false (b :: rest)).2)) ∧
      ∀ more, more <+: b :: rest → Subpart more →
        more.length ≤ ((b :: rest).take (step false (b :: rest)).2).length := by
  have hcontinues : ∀ cs, Subpart (b :: cs) → ¬b < 0x80 → ∃ need lower upper,
      leadOf b = some (need, lower, upper) ∧ Continues need lower upper cs := by
    rintro cs ⟨cp, hcp, hprefix, -⟩ hb
    cases hbytes : appendCodePoint cp with
    | nil => exact absurd hbytes (appendCodePoint_ne_nil cp)
    | cons b' cs' =>
      rw [hbytes] at hprefix
      obtain ⟨rfl, hcs⟩ := cons_prefix_cons.mp hprefix
      obtain ⟨hascii, -⟩ | ⟨need, lower, upper, hlead, hcs', -⟩ := encoded_iff.mp ⟨cp, hcp, hbytes⟩
      · exact absurd hascii hb
      · exact ⟨need, lower, upper, hlead, hcs'.of_prefix hcs⟩
  have hascii : ¬b < 0x80 := by
    intro hb
    obtain ⟨cp, hcp, hbytes⟩ := encoded_iff.mpr (.inl ⟨hb, rfl⟩)
    exact hnone cp hcp ⟨rest, by rw [hbytes]; rfl⟩
  cases hlead : leadOf b with
  | none =>
    rw [step_invalid hascii hlead]
    refine ⟨rfl, .inl rfl, fun more hmore hpart => ?_⟩
    cases more with
    | nil => exact Nat.zero_le _
    | cons b' cs =>
      obtain ⟨rfl, -⟩ := cons_prefix_cons.mp hmore
      obtain ⟨_, _, _, hsome, -⟩ := hcontinues cs hpart hascii
      rw [hlead] at hsome
      cases hsome
  | some asked =>
    obtain ⟨need, lower, upper⟩ := asked
    obtain ⟨cp, hstep⟩ := step_lead rest hlead
    obtain ⟨j, htaken, hmost, hj, hlongest, hshort⟩ :=
      @continuation_most cp 1 need lower upper rest
    have hlength : (rest.take j).length = j := length_take_of_le hj
    have hne : j ≠ need := by
      intro hall
      obtain ⟨cp, hcp, hbytes⟩ :=
        encoded_iff.mpr (.inr ⟨need, lower, upper, hlead, hmost, by rw [hlength, hall]⟩)
      refine hnone cp hcp ?_
      rw [hbytes, cons_prefix_cons]
      exact ⟨rfl, take_prefix j rest⟩
    have htake : (b :: rest).take (step false (b :: rest)).2 = b :: rest.take j := by
      rw [hstep, htaken, Nat.add_comm, take_succ_cons]
    rw [htake, length_cons, hlength]
    refine ⟨by rw [hstep]; exact hshort.resolve_left hne, ?_, fun more hmore hpart => ?_⟩
    · rcases Nat.eq_zero_or_pos j with rfl | hpos
      · exact .inl rfl
      obtain ⟨more, hmore, hfull⟩ := hmost.fill (leadOf_range hlead)
      obtain ⟨cp, hcp, hbytes⟩ := encoded_iff.mpr (.inr ⟨need, lower, upper, hlead, hmore, hfull⟩)
      refine .inr ⟨by omega, cp, hcp, ?_, fun heq => ?_⟩
      · rw [hbytes, cons_prefix_cons]
        exact ⟨rfl, prefix_append ..⟩
      · rw [hbytes] at heq
        rw [← (cons.inj heq).2, hlength] at hfull
        exact hne hfull
    · cases more with
      | nil => exact Nat.zero_le _
      | cons b' cs =>
        obtain ⟨rfl, hcs⟩ := cons_prefix_cons.mp hmore
        obtain ⟨_, _, _, hsome, hcontinued⟩ := hcontinues cs hpart hascii
        rw [hlead] at hsome
        cases hsome
        exact Nat.succ_le_succ (hlongest cs hcs hcontinued)

/-- **The standard replaces** maximal subparts. -/
theorem parsed_whatwg (bytes : List Nat) : Parsed bytes (whatwg bytes) := by
  induction bytes using decoded_induction false with
  | nil => exact .nil
  | cons b rest ih =>
    rw [whatwg_cons]
    by_cases hchar : ∃ cp, Scalar cp ∧ appendCodePoint cp <+: b :: rest
    · obtain ⟨cp, hcp, tail, htail⟩ := hchar
      rw [← htail, step_scalar hcp, drop_left] at ih ⊢
      exact .char hcp ih
    · obtain ⟨hcp, hpart, hmost⟩ := step_replaced fun cp h hprefix => hchar ⟨cp, h, hprefix⟩
      have htext := take_append_drop (step false (b :: rest)).2 (b :: rest)
      rw [hcp]
      conv => enter [1]; rw [← htext]
      refine .replaced ?_ hpart ?_ ih
      · rw [htext]
        exact fun cp h hprefix => hchar ⟨cp, h, hprefix⟩
      · rw [htext]
        exact hmost

/-- No surrogate is decoded. -/
theorem Parsed.scalar {cps : List Nat} (h : Parsed bytes cps) : ∀ cp ∈ cps, Scalar cp := by
  induction h with
  | nil => exact fun _ h => nomatch h
  | char hcp _ ih => exact forall_mem_cons.mpr ⟨hcp, ih⟩
  | replaced _ _ _ _ ih => exact forall_mem_cons.mpr ⟨⟨by decide, by decide⟩, ih⟩

end Subparts

/-! ## Round trip -/

section RoundTrips

variable {b k need cp lower upper m : Nat} {rest bytes cps : List Nat} {surrogates : Bool}
variable {s : StringHeader} {units : List UInt16}

theorem continuation_take (h : m ≤ rest.length) :
    continuation need k cp lower upper (rest.take m) = continuation need k cp lower upper rest ∨
      continuation need k cp lower upper (rest.take m) = (kReplacement, k + m) := by
  induction need generalizing k cp lower upper rest m with
  | zero => exact .inl rfl
  | succ need ih =>
    cases m with
    | zero => exact .inr rfl
    | succ m =>
      cases rest with
      | nil => cases h
      | cons c cs =>
        rw [take_succ_cons, continuation, continuation]
        split_ifs with hrange
        · exact .inl rfl
        · have hrest := @ih (k + 1) ((cp <<< 6) ||| (c &&& 0x3F)) 0x80 0xBF m cs
            (Nat.le_of_succ_le_succ h)
          rw [Nat.add_assoc, Nat.add_comm 1] at hrest
          exact hrest

/-- A step in a text that is cut is the step in the whole, or a replacement to the end. -/
theorem step_take (h : k ≤ rest.length) :
    step surrogates (b :: rest.take k) = step surrogates (b :: rest) ∨
      step surrogates (b :: rest.take k) = (kReplacement, k + 1) := by
  have hcontinued : ∀ need cp lower upper,
      continuation need 1 cp lower upper (rest.take k) = continuation need 1 cp lower upper rest ∨
        continuation need 1 cp lower upper (rest.take k) = (kReplacement, k + 1) := by
    intro need cp lower upper
    rw [Nat.add_comm]
    exact continuation_take h
  rw [step, step]
  split_ifs <;> first | exact .inl rfl | exact hcontinued _ _ _ _

theorem length_unitsOf_pos (cp : Nat) : 0 < (unitsOf cp).length := by
  rw [unitsOf]
  split_ifs <;> exact Nat.succ_pos _

theorem length_units_pos (h : 0 < bytes.length) :
    0 < ((decoded surrogates bytes).flatMap unitsOf).length := by
  cases bytes with
  | nil => cases h
  | cons b rest =>
    rw [decoded_cons, flatMap_cons, length_append]
    exact Nat.lt_of_lt_of_le (length_unitsOf_pos _) (Nat.le_add_right _ _)

/-- **A text that is cut** by 8 bytes or more has fewer units. -/
theorem length_units_take_lt (h : k + 8 ≤ bytes.length) :
    ((decoded surrogates (bytes.take k)).flatMap unitsOf).length <
      ((decoded surrogates bytes).flatMap unitsOf).length := by
  induction bytes using decoded_induction surrogates generalizing k with
  | nil => cases h
  | cons b rest ih =>
    obtain ⟨hpos, hle, -⟩ := @step_taken surrogates b rest
    rw [length_cons] at h hle
    cases k with
    | zero => exact length_units_pos (Nat.succ_pos _)
    | succ k =>
      obtain ⟨-, hcut, -⟩ := @step_taken surrogates b (rest.take k)
      rw [take_succ_cons, decoded_cons b rest, decoded_cons b (rest.take k), flatMap_cons,
        flatMap_cons, length_append, length_append]
      obtain heq | heq := @step_take b k rest surrogates (by omega)
      · rw [heq] at hcut ⊢
        rw [length_cons, length_take] at hcut
        have hdrop := @ih (k + 1 - (step surrogates (b :: rest)).2)
          (by rw [length_drop, length_cons]; omega)
        rw [← drop_take, take_succ_cons] at hdrop
        omega
      · have hmore := length_unitsOf_pos (step surrogates (b :: rest)).1
        have hnil : (b :: rest.take k).drop (k + 1) = [] := by
          rw [drop_succ_cons, drop_eq_nil_of_le (length_take_le k rest)]
        have hone : (unitsOf kReplacement).length = 1 := rfl
        have hnext := @length_units_pos ((b :: rest).drop (step surrogates (b :: rest)).2)
          surrogates (by rw [length_drop, length_cons]; omega)
        rw [heq, hnil, hone]
        change 1 + 0 < _
        omega

/-- A string of the units is made, and so many units are written. -/
def Yields (r : Loop (StringHeader × Nat)) (units : List UInt16) : Prop :=
  ∃ t : StringHeader, r = pure (t, units.length) ∧ t.WellFormed ∧ t.units = units

/-- A decoding ends, with as many units written as there are, or without memory. -/
def Ends (r : Loop (StringHeader × Nat)) : Prop :=
  r = ExceptT.mk (some (.error .badAlloc)) ∨
    ∃ t : StringHeader, r = pure (t, t.length) ∧ t.WellFormed

/-- A block holds the string of the code points. -/
def Fits (cps : List Nat) : Prop :=
  blockSize (!cps.all (· ≤ 0xFF)) (cps.flatMap unitsOf).length ≤ 0xFFFFFFFF

theorem latin1_units (h : (!cps.all (· ≤ 0xFF)) = false) :
    ∀ u ∈ cps.flatMap unitsOf, u < 0x100 := by
  intro u hu
  obtain ⟨cp, hcp, hu⟩ := mem_flatMap.mp hu
  have hall : cps.all (· ≤ 0xFF) = true := by simpa using h
  have hle := of_decide_eq_true (all_eq_true.mp hall cp hcp)
  rw [unitsOf, if_neg (by omega), mem_singleton] at hu
  rw [hu, UInt16.lt_iff_toNat_lt, UInt16.toNat_ofNat_of_lt' (by change cp < 2 ^ 16; omega)]
  change cp < 256
  omega

theorem made_eq (h : Fits cps) :
    ∃ t : StringHeader, made cps = pure (t, (cps.flatMap unitsOf).length) ∧ t.WellFormed ∧
      t.units = cps.flatMap unitsOf := by
  have halloc : allocate (!cps.all (· ≤ 0xFF)) (cps.flatMap unitsOf).length = .ok _ :=
    if_neg (not_lt.mpr h)
  refine ⟨_, ?_, wellFormed_new halloc le_rfl latin1_units, rfl⟩
  rw [made, halloc]
  rfl

theorem made_error (h : ¬Fits cps) : made cps = ExceptT.mk (some (.error .badAlloc)) := by
  have halloc : allocate (!cps.all (· ≤ 0xFF)) (cps.flatMap unitsOf).length = .error .badAlloc :=
    if_pos (not_le.mp h)
  rw [made, halloc]
  rfl

theorem made_ends (cps : List Nat) : Ends (made cps) := by
  by_cases h : Fits cps
  · obtain ⟨t, ht, hwell, hunits⟩ := made_eq h
    exact .inr ⟨t, by rw [ht, StringHeader.length, hunits], hwell⟩
  · exact .inl (made_error h)

theorem made_yields_iff : Yields (made cps) units ↔ cps.flatMap unitsOf = units ∧ Fits cps := by
  constructor
  · rintro ⟨t, ht, -, rfl⟩
    by_cases h : Fits cps
    · obtain ⟨t', ht', -, hunits⟩ := made_eq h
      rw [ht'] at ht
      have hsame : (t', _) = (t, _) := Except.ok.inj (Option.some.inj ht)
      exact ⟨by rw [← (Prod.mk.inj hsame).1, hunits], h⟩
    · rw [made_error h] at ht
      cases ht
  · rintro ⟨rfl, h⟩
    exact made_eq h

/-- **A text is decoded whole** when 32 bits count its bytes. -/
theorem made_view_iff (sv : List Nat) :
    Yields (made (decoded surrogates (sv.take (sv.length % 2 ^ 32))))
        ((decoded surrogates sv).flatMap unitsOf) ↔
      sv.length < 2 ^ 32 ∧ Fits (decoded surrogates sv) := by
  rw [made_yields_iff]
  constructor
  · rintro ⟨hunits, hfits⟩
    by_cases h : sv.length < 2 ^ 32
    · rw [Nat.mod_eq_of_lt h, take_length] at hfits
      exact ⟨h, hfits⟩
    · have hlt := @length_units_take_lt (sv.length % 2 ^ 32) sv surrogates (by omega)
      rw [hunits] at hlt
      exact absurd hlt (Nat.lt_irrefl _)
  · rintro ⟨h, hfits⟩
    rw [Nat.mod_eq_of_lt h, take_length]
    exact ⟨rfl, hfits⟩

theorem codePoints_latin1 (h : ∀ u ∈ units, u < 0x100) :
    codePoints units = units.map (·.toNat) := by
  induction units with
  | nil => rfl
  | cons u units ih =>
    obtain ⟨hu, hunits⟩ := forall_mem_cons.mp h
    cases units with
    | nil => rfl
    | cons v units =>
      have hlt := UInt16.lt_iff_toNat_lt.mp hu
      have hlead : ¬(Regex.isLeadSurrogate u.toNat && Regex.isTrailSurrogate v.toNat) = true := by
        change u.toNat < 256 at hlt
        simp only [Regex.isLeadSurrogate, Bool.and_eq_true, decide_eq_true_eq]
        omega
      rw [codePoints, if_neg hlead, ih hunits]
      rfl

theorem rtUtf8CharsOf_eq (h : s.WellFormed) : rtUtf8CharsOf s = rtUtf8Chars s.units := by
  rw [rtUtf8CharsOf]
  split_ifs with hutf16
  · rfl
  · rw [rtUtf8Chars, codePoints_latin1 (h.latin1 (by simpa using hutf16)), flatMap_map]

theorem decodeWith_true : decodeWith true = decodeFrom := by
  funext fuel
  induction fuel with
  | zero => rfl
  | succ fuel ih =>
    funext bytes
    cases bytes with
    | nil => rfl
    | cons b rest => rw [decodeWith, decodeFrom, step_true, ih]

/-- **The code points of a string** come back from its bytes. -/
theorem decoded_rtUtf8CharsOf (h : s.WellFormed) :
    decoded true (rtUtf8CharsOf s) = codePoints s.units := by
  rw [rtUtf8CharsOf_eq h, decoded, decodeWith_true]
  exact decodeFrom_flatMap (codePoints_le s.units) le_rfl

/-- A string fits a block as it is. -/
theorem fits_units (h : s.WellFormed) (hsize : 8 ∣ s.size) : Fits (codePoints s.units) := by
  have hfits := h.fits
  have hle := h.size_le
  rw [Fits, flatMap_unitsOf_codePoints, blockSize]
  change 16 + (s.units.length + 1) * _ ≤ _ at hfits
  cases hutf16 : s.isUTF16 with
  | false =>
    have hall : (codePoints s.units).all (· ≤ 0xFF) = true := by
      rw [codePoints_latin1 (h.latin1 hutf16), all_map, all_eq_true]
      intro u hu
      have hlt := UInt16.lt_iff_toNat_lt.mp (h.latin1 hutf16 u hu)
      exact decide_eq_true (Nat.le_of_lt_succ hlt)
    rw [hutf16] at hfits
    rw [hall]
    simp only [unitBytes, Bool.not_true, Bool.false_eq_true, if_false] at hfits ⊢
    omega
  | true =>
    rw [hutf16] at hfits
    simp only [unitBytes, if_true] at hfits ⊢
    split_ifs <;> omega

theorem createFromUTF8Text_iff (fresh : Nat → UInt16) (h : s.WellFormed) (hsize : 8 ∣ s.size) :
    Yields (createFromUTF8Text fresh (rtUtf8CharsOf s)) s.units ↔
      (rtUtf8CharsOf s).length < 2 ^ 32 := by
  have hview := @made_view_iff true (rtUtf8CharsOf s)
  rw [createFromUTF8Text_eq, ← flatMap_unitsOf_codePoints s.units, ← decoded_rtUtf8CharsOf h,
    hview, decoded_rtUtf8CharsOf h]
  exact and_iff_left (fits_units h hsize)

theorem createFromHostUTF8_iff (fresh : Nat → UInt16) (sv : List Nat) :
    Yields (createFromHostUTF8 fresh sv) ((whatwg sv).flatMap unitsOf) ↔
      sv.length < 2 ^ 32 ∧ Fits (whatwg sv) := by
  rw [createFromHostUTF8_eq, whatwg_eq]
  exact made_view_iff sv

/-- **The codec round-trips and is total**: every decoding ends, reads no byte past the end and
writes as many units as it counted. The units of a string come back from its bytes exactly when 32
bits count these; foreign bytes have the code points of the standard, one replacement for each
maximal subpart and no surrogate, exactly when 32 bits count them and a block holds the units. -/
theorem utf8_codec_iff (fresh : Nat → UInt16) :
    (∀ sv, Ends (createFromUTF8Text fresh sv) ∧ Ends (createFromHostUTF8 fresh sv)) ∧
    (∀ s : StringHeader, s.WellFormed → 8 ∣ s.size →
      (Yields (createFromUTF8Text fresh (rtUtf8CharsOf s)) s.units ↔
        (rtUtf8CharsOf s).length < 2 ^ 32)) ∧
    ∀ sv, Parsed sv (whatwg sv) ∧ (∀ cp ∈ whatwg sv, Scalar cp) ∧
      (Yields (createFromHostUTF8 fresh sv) ((whatwg sv).flatMap unitsOf) ↔
        sv.length < 2 ^ 32 ∧ Fits (whatwg sv)) := by
  refine ⟨fun sv => ?_, fun s h hsize => createFromUTF8Text_iff fresh h hsize, fun sv =>
    ⟨parsed_whatwg sv, (parsed_whatwg sv).scalar, createFromHostUTF8_iff fresh sv⟩⟩
  rw [createFromUTF8Text_eq, createFromHostUTF8_eq]
  exact ⟨made_ends _, made_ends _⟩

theorem utf8_codec_broken :
    Yields (createFromUTF8Text (fun _ => 0) (rtUtf8CharsOf ⟨24, kUTF16Flag, [0xDC00, 0xD800]⟩))
      [0xDC00, 0xD800] ∧
    Yields (createFromHostUTF8 (fun _ => 0) [0xD7, 0x34, 0xE2, 0x82]) [0xFFFD, 0x34, 0xFFFD] :=
  ⟨((utf8_codec_iff _).2.1 ⟨24, kUTF16Flag, [0xDC00, 0xD800]⟩
    ⟨by decide, by decide, fun h => absurd h (by decide), fun h => absurd rfl h⟩
    (by decide)).mpr (by decide),
    ((utf8_codec_iff _).2.2 [0xD7, 0x34, 0xE2, 0x82]).2.2.mpr ⟨by decide, by unfold Fits; decide⟩⟩

/-- So many letters é, in Latin-1. -/
def accents (n : Nat) : StringHeader := ⟨blockSize false n, 0, replicate n 0xE9⟩

theorem accents_cut {n : Nat} (hn : n = 2 ^ 31) : (accents n).WellFormed ∧
    ¬Yields (createFromUTF8Text (fun _ => 0) (rtUtf8CharsOf (accents n))) (accents n).units ∧
    ¬Yields (createFromHostUTF8 (fun _ => 0) (rtUtf8CharsOf (accents n)))
      ((whatwg (rtUtf8CharsOf (accents n))).flatMap unitsOf) := by
  have hlatin1 : (accents n).isUTF16 = false := by
    change ((0 : UInt32) &&& kUTF16Flag != 0) = false
    decide
  have hwf : (accents n).WellFormed := by
    refine ⟨?_, ?_, fun _ u hu => ?_, absurd UInt32.zero_and⟩
    · rw [hlatin1, StringHeader.length, accents, length_replicate]
      change 16 + (n + 1) * 1 ≤ (8 + (8 + (n + 1) * 1) + 7) / 8 * 8
      omega
    · change (8 + (8 + (n + 1) * 1) + 7) / 8 * 8 ≤ _
      omega
    · rw [eq_of_mem_replicate hu]
      decide
  have hsize : 8 ∣ (accents n).size := Dvd.intro_left _ rfl
  have hlength : (rtUtf8CharsOf (accents n)).length = 2 * n := by
    rw [rtUtf8CharsOf, hlatin1, if_neg (by decide), accents, length_flatMap, map_replicate,
      sum_replicate]
    change n * 2 = 2 * n
    omega
  refine ⟨hwf, ?_, ?_⟩
  · rw [createFromUTF8Text_iff _ hwf hsize, hlength]
    omega
  · rw [createFromHostUTF8_iff, hlength]
    omega

/-- The size of 4 GiB of bytes is 0 in 32 bits. -/
theorem utf8_codec_cut : (accents (2 ^ 31)).WellFormed ∧
    ¬Yields (createFromUTF8Text (fun _ => 0) (rtUtf8CharsOf (accents (2 ^ 31))))
      (accents (2 ^ 31)).units ∧
    ¬Yields (createFromHostUTF8 (fun _ => 0) (rtUtf8CharsOf (accents (2 ^ 31))))
      ((whatwg (rtUtf8CharsOf (accents (2 ^ 31)))).flatMap unitsOf) :=
  accents_cut rfl

end RoundTrips

end Bronze.Utf8
