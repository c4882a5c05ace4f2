import Bronze.BigNum.Division

/-!
# Numerals

`parse` and `toString` work in chunks: as many digits at a time as fit a limb in the radix. A chunk
in the middle of a number is written with all its digits, the one on top without leading zeros.

## Main results

* `parse_eq`: what a numeral is, and what it denotes
* `toString_spec`: the digits of a value, without leading zeros
* `text_round_trip`: reading what was written
-/

namespace Bronze.BigNum

open List Nat Option

/-! ## The loops of the source -/

/-- `digitValue`; `none` is the answer `-1`. -/
def digitValue (c : Char) : Option Nat :=
  if '0' ≤ c ∧ c ≤ '9' then some (c.toNat - '0'.toNat)
  else if 'a' ≤ c ∧ c ≤ 'z' then some (c.toNat - 'a'.toNat + 10)
  else if 'A' ≤ c ∧ c ≤ 'Z' then some (c.toNat - 'A'.toNat + 10)
  else none

/-- A `uint32_t` intermediate, at its exact value. -/
def u32 (n : Nat) : Except Fault Nat :=
  if n < 2 ^ 32 then .ok n else .error .overflow

/-- The `while (carry)` loop of `mulAddSmall`. -/
def pushCarry (carry : Nat) : Magnitude :=
  if carry = 0 then [] else low carry :: pushCarry (carry >>> 32)
termination_by carry
decreasing_by
  rw [shiftRight_eq_div_pow]
  omega

/-- The loop of `mulAddSmall`, over the limbs that are left. -/
def mulAddLoop (multiplier : Nat) : Magnitude → Nat → Except Fault Magnitude
  | [], carry => .ok (pushCarry carry)
  | x :: mag, carry => do
    let product ← u64 (x.toNat * multiplier + carry)
    let rest ← mulAddLoop multiplier mag (product >>> 32)
    return low product :: rest

/-- `mulAddSmall`: the magnitude times `multiplier`, plus `addend`. -/
def mulAddSmall (mag : Magnitude) (multiplier addend : Nat) : Except Fault Magnitude :=
  mulAddLoop multiplier mag addend

/-- The loop of `radixChunk`. The radix is two or more, so the power grows. -/
def radixChunkLoop (radix power digits : Nat) : Nat × Nat :=
  if power < power * radix ∧ power * radix ≤ 0xFFFFFFFF then
    radixChunkLoop radix (power * radix) (digits + 1)
  else (power, digits)
termination_by 0xFFFFFFFF - power

/-- `radixChunk`: the largest power of the radix that fits a limb, and its exponent. -/
def radixChunk (radix : Nat) : Nat × Nat := radixChunkLoop radix radix 1

/-- The loop of `parse`: the magnitude so far, and the chunk that is pending with its digits and its
scale. -/
def parseLoop (radix power digits : Nat) :
    List Char → Magnitude → Nat → Nat → Nat → Except Fault (Option (Magnitude × Nat × Nat × Nat))
  | [], mag, pending, pendingDigits, pendingScale =>
    .ok (some (mag, pending, pendingDigits, pendingScale))
  | c :: text, mag, pending, pendingDigits, pendingScale =>
    match digitValue c with
    | none => .ok none
    | some value =>
      if radix ≤ value then .ok none
      else do
        let pending ← u32 (pending * radix + value)
        let pendingScale ← u32 (pendingScale * radix)
        if pendingDigits + 1 = digits then do
          let mag ← mulAddSmall mag power pending
          parseLoop radix power digits text mag 0 0 1
        else parseLoop radix power digits text mag pending (pendingDigits + 1) pendingScale

/-- The sign that `parse` allows. -/
def readSign : List Char → Bool × List Char
  | '+' :: text => (false, text)
  | '-' :: text => (true, text)
  | text => (false, text)

def signed (allowSign : Bool) (text : List Char) : Bool × List Char :=
  if allowSign then readSign text else (false, text)

/-- The last chunk of `parse`. -/
def flushPending (mag : Magnitude) (pending pendingDigits pendingScale : Nat) :
    Except Fault Magnitude :=
  if pendingDigits ≠ 0 then mulAddSmall mag pendingScale pending else .ok mag

/-- `BigNum::parse`; `none` is the answer false. -/
def parse (text : List Char) (radix : Int) (allowSign : Bool) : Except Fault (Option BigNum) :=
  if radix < 2 ∨ 36 < radix then .ok none
  else
    let (negative, text) := signed allowSign text
    if text.isEmpty then .ok none
    else do
      let (power, digits) := radixChunk radix.toNat
      match ← parseLoop radix.toNat power digits text [] 0 0 1 with
      | none => return none
      | some (mag, pending, pendingDigits, pendingScale) => do
        let mag ← flushPending mag pending pendingDigits pendingScale
        return some (trim { mag, negative })

def kDigits : List Char :=
  ['0', '1', '2', '3', '4', '5', '6', '7', '8', '9', 'a', 'b', 'c', 'd', 'e', 'f', 'g', 'h', 'i',
    'j', 'k', 'l', 'm', 'n', 'o', 'p', 'q', 'r', 's', 't', 'u', 'v', 'w', 'x', 'y', 'z']

/-- The digits of one chunk, the least significant first, with `n` digits to go. -/
def chunkLoop (radix : Nat) (last : Bool) : Nat → Nat → List Char
  | 0, _ => []
  | n + 1, remainder =>
    kDigits.getD (remainder % radix) '0' ::
      -- the top chunk has no leading zeros
      if last && remainder / radix = 0 then [] else chunkLoop radix last n (remainder / radix)

theorem divModSmall_shorter (m : Magnitude) {d : Nat} (hd : 1 < d) (hne : m ≠ []) :
    value (divModSmall m d).1 + (divModSmall m d).1.length < value m + m.length := by
  obtain ⟨htrimmed, hquotient, -⟩ := divModSmall_spec (Nat.zero_lt_of_lt hd) m
  have hlen := length_pos_iff.mpr hne
  rcases Nat.eq_zero_or_pos (value m) with hzero | hpos
  · -- a value of zero loses its limbs
    rw [hzero, Nat.zero_div, htrimmed.value_eq_zero] at hquotient
    rw [hquotient, value_nil, length_nil]
    omega
  · have hlt : value (divModSmall m d).1 < value m := by
      rw [hquotient]
      exact Nat.div_lt_self hpos hd
    have hle := length_le_of_value_le htrimmed hlt.le
    omega

/-- The loop of `toString`: the digits so far are `reversed`, in the order they are pushed. The
chunk's power is two or more. -/
def toStringLoop (radix power digits : Nat) (work : Magnitude) : List Char :=
  if work = [] ∨ power ≤ 1 then []
  else
    let rest := (divModSmall work power).1
    let remainder := (divModSmall work power).2
    chunkLoop radix rest.isEmpty digits remainder ++ toStringLoop radix power digits rest
termination_by value work + work.length
decreasing_by
  rename_i h
  rw [not_or] at h
  exact divModSmall_shorter work (not_le.mp h.2) h.1

def toString (a : BigNum) (radix : Int) : List Char :=
  let radix := if radix < 2 ∨ 36 < radix then 10 else radix
  if a.mag.isEmpty then ['0']
  else
    let (power, digits) := radixChunk radix.toNat
    let reversed := toStringLoop radix.toNat power digits a.mag
    (if a.negative then ['-'] else []) ++ reversed.reverse

/-- The digits of a radix, of either case. -/
def IsDigit (radix : Nat) (c : Char) : Prop := ∃ d ∈ digitValue c, d < radix

/-- At least one digit, and digits only. -/
def IsNumeral (radix : Nat) (text : List Char) : Prop :=
  text ≠ [] ∧ ∀ c ∈ text, IsDigit radix c

/-- What a character counts for, where it is a digit. -/
def digit (c : Char) : Nat := (digitValue c).getD 0

/-- The digits after a number make it longer. -/
def positionalFrom (radix value : Nat) (text : List Char) : Nat :=
  text.foldl (fun value c => value * radix + digit c) value

/-- The value of digits, the most significant first. -/
def positional (radix : Nat) (text : List Char) : Nat := positionalFrom radix 0 text

theorem digitValue_kDigits : ∀ d < 36, digitValue (kDigits.getD d '0') = some d := by decide

theorem kDigits_eq_zero : ∀ d < 36, kDigits.getD d '0' = '0' → d = 0 := by decide

theorem positional_reverse (radix : Nat) (text : List Char) :
    positional radix text.reverse = ofDigits radix (text.map digit) := by
  unfold positional positionalFrom
  rw [foldl_reverse]
  induction text with
  | nil => rfl
  | cons c text ih =>
    rw [foldr_cons, ih, map_cons, ofDigits_cons, mul_comm, add_comm]

theorem value_pushCarry (carry : Nat) : value (pushCarry carry) = carry := by
  induction carry using Nat.strong_induction_on with
  | _ carry ih =>
    rw [pushCarry]
    split
    · next h => rw [h, value_nil]
    · next h =>
      have hlt : carry >>> 32 < carry := by
        omega
      rw [value_cons, ih _ hlt, low_add_shift]

theorem mulAddLoop_spec {multiplier : Nat} (hm : multiplier < 2 ^ 32) (mag : Magnitude) :
    ∀ carry, carry < 2 ^ 32 → ∃ out, mulAddLoop multiplier mag carry = .ok out ∧
      value out = value mag * multiplier + carry := by
  induction mag with
  | nil =>
    intro carry _
    refine ⟨_, rfl, ?_⟩
    simp [value_pushCarry]
  | cons x mag ih =>
    intro carry hc
    have hproduct : x.toNat * multiplier + carry < 2 ^ 64 := by
      have := @step_lt 0 _ _ _ (by decide) x.toNat_lt hm hc
      omega
    obtain ⟨rest, hrun, hvalue⟩ := ih _ (shift_carry_lt hproduct)
    refine ⟨low (x.toNat * multiplier + carry) :: rest, ?_, ?_⟩
    · rw [mulAddLoop, u64_ok hproduct]
      dsimp only [bind, Except.bind]
      rw [hrun]
      rfl
    · have hsplit := low_add_shift (x.toNat * multiplier + carry)
      rw [value_cons, value_cons, hvalue, mul_add]
      calc (low (x.toNat * multiplier + carry)).toNat + (kBase * (value mag * multiplier) +
            kBase * ((x.toNat * multiplier + carry) >>> 32))
          = kBase * (value mag * multiplier) + (x.toNat * multiplier + carry) := by omega
        _ = _ := by ring

theorem mulAddSmall_spec {multiplier addend : Nat} (hm : multiplier < 2 ^ 32)
    (ha : addend < 2 ^ 32) (mag : Magnitude) : ∃ out, mulAddSmall mag multiplier addend = .ok out ∧
      value out = value mag * multiplier + addend :=
  mulAddLoop_spec hm mag addend ha

/-- A power that fits a limb, and at least one digit. -/
structure IsChunk (radix power digits : Nat) : Prop where
  eq_pow : power = radix ^ digits
  fits : power < 2 ^ 32
  digits_pos : 0 < digits

theorem radixChunkLoop_spec {radix : Nat} :
    ∀ power digits, IsChunk radix power digits →
      IsChunk radix (radixChunkLoop radix power digits).1
        (radixChunkLoop radix power digits).2 := by
  intro power digits h
  fun_induction radixChunkLoop radix power digits with
  | case1 power digits hnext ih =>
    refine ih ⟨?_, by omega, succ_pos _⟩
    rw [h.eq_pow, pow_succ]
  | case2 power digits _ => exact h

theorem radixChunk_spec {radix : Nat} (h : radix ≤ 36) :
    IsChunk radix (radixChunk radix).1 (radixChunk radix).2 :=
  radixChunkLoop_spec radix 1 ⟨(pow_one radix).symm, by omega, one_pos⟩

theorem IsChunk.one_lt {radix power digits : Nat} (h : IsChunk radix power digits)
    (hradix : 2 ≤ radix) : 1 < power := by
  rw [h.eq_pow]
  exact one_lt_pow h.digits_pos.ne' hradix

/-! ## Reading -/

section Reading

variable {radix power digits value₀ : Nat} {mag : Magnitude}
  {pending pendingDigits pendingScale : Nat}

/-- The magnitude, scaled, and what is pending are the value `value₀` of the digits read. -/
structure HasRead (radix digits value₀ : Nat) (mag : Magnitude)
    (pending pendingDigits pendingScale : Nat) : Prop where
  scale : pendingScale = radix ^ pendingDigits
  room : pendingDigits < digits
  lt_scale : pending < pendingScale
  eq : value mag * pendingScale + pending = value₀

theorem parseLoop_step (hchunk : IsChunk radix power digits)
    (h : HasRead radix digits value₀ mag pending pendingDigits pendingScale) {c : Char} {d : Nat}
    (hc : digitValue c = some d) (hd : d < radix) (text : List Char) :
    ∃ mag' pending' pendingDigits' pendingScale',
      parseLoop radix power digits (c :: text) mag pending pendingDigits pendingScale =
        parseLoop radix power digits text mag' pending' pendingDigits' pendingScale' ∧
      HasRead radix digits (value₀ * radix + d) mag' pending' pendingDigits' pendingScale' := by
  obtain ⟨hscale, hroom, hlt, heq⟩ := h
  have hradix : 0 < radix := zero_lt_of_lt hd
  -- the chunk fits a limb, so what is pending does
  have hscale' : pendingScale * radix = radix ^ (pendingDigits + 1) := by rw [hscale, pow_succ]
  have hfits : pendingScale * radix < 2 ^ 32 := by
    calc pendingScale * radix = radix ^ (pendingDigits + 1) := hscale'
      _ ≤ radix ^ digits := Nat.pow_le_pow_right hradix hroom
      _ = power := hchunk.eq_pow.symm
      _ < 2 ^ 32 := hchunk.fits
  have hpending : pending * radix + d < pendingScale * radix := by
    calc pending * radix + d < (pending + 1) * radix := by
          rw [succ_mul]
          omega
      _ ≤ pendingScale * radix := mul_le_mul_right _ hlt
  have hvalue :
      value mag * (pendingScale * radix) + (pending * radix + d) = value₀ * radix + d := by
    rw [← heq]
    ring
  have hu32 : u32 (pending * radix + d) = .ok (pending * radix + d) := if_pos (hpending.trans hfits)
  have hu32' : u32 (pendingScale * radix) = .ok (pendingScale * radix) := if_pos hfits
  rw [parseLoop, hc]
  dsimp only
  rw [if_neg (not_le.mpr hd), hu32]
  dsimp only [bind, Except.bind]
  rw [hu32']
  dsimp only
  by_cases hfull : pendingDigits + 1 = digits
  · rw [if_pos hfull]
    have hpower : power = pendingScale * radix := by rw [hchunk.eq_pow, hscale', hfull]
    obtain ⟨mag', hrun, hmag'⟩ := mulAddSmall_spec hchunk.fits (hpending.trans hfits) mag
    rw [hrun]
    refine ⟨mag', 0, 0, 1, rfl, (pow_zero radix).symm, hchunk.digits_pos, one_pos, ?_⟩
    simp [hmag', hpower, hvalue]
  · rw [if_neg hfull]
    exact ⟨mag, pending * radix + d, pendingDigits + 1, pendingScale * radix, rfl, hscale',
      by omega, hpending, hvalue⟩

variable {text : List Char}

theorem parseLoop_some (hchunk : IsChunk radix power digits)
    (h : HasRead radix digits value₀ mag pending pendingDigits pendingScale)
    (htext : ∀ c ∈ text, IsDigit radix c) :
    ∃ mag' pending' pendingDigits' pendingScale',
      parseLoop radix power digits text mag pending pendingDigits pendingScale =
        .ok (some (mag', pending', pendingDigits', pendingScale')) ∧
      HasRead radix digits (positionalFrom radix value₀ text) mag' pending' pendingDigits'
        pendingScale' := by
  induction text generalizing value₀ mag pending pendingDigits pendingScale with
  | nil => exact ⟨mag, pending, pendingDigits, pendingScale, rfl, h⟩
  | cons c text ih =>
    obtain ⟨d, hc, hd⟩ := htext c (mem_cons_self ..)
    obtain ⟨mag', pending', pendingDigits', pendingScale', hrun, h'⟩ :=
      parseLoop_step hchunk h hc hd text
    have hdigit : digit c = d := by
      unfold digit
      rw [hc]
      rfl
    rw [hrun]
    unfold positionalFrom
    rw [foldl_cons, hdigit]
    exact ih h' fun c hmem => htext c (mem_cons_of_mem _ hmem)

theorem parseLoop_none (hchunk : IsChunk radix power digits)
    (h : HasRead radix digits value₀ mag pending pendingDigits pendingScale)
    (htext : ¬ ∀ c ∈ text, IsDigit radix c) :
    parseLoop radix power digits text mag pending pendingDigits pendingScale = .ok none := by
  induction text generalizing value₀ mag pending pendingDigits pendingScale with
  | nil => exact absurd (fun c hmem => by cases hmem) htext
  | cons c text ih =>
    by_cases hdigit : IsDigit radix c
    · obtain ⟨d, hc, hd⟩ := hdigit
      obtain ⟨mag', pending', pendingDigits', pendingScale', hrun, h'⟩ :=
        parseLoop_step hchunk h hc hd text
      rw [hrun]
      refine ih h' fun hall => htext fun c' hmem => ?_
      rcases mem_cons.mp hmem with rfl | hmem
      · exact ⟨d, hc, hd⟩
      · exact hall c' hmem
    · rw [parseLoop]
      cases hc : digitValue c with
      | none => rfl
      | some d =>
        have hge : radix ≤ d := Nat.le_of_not_lt fun hd => hdigit ⟨d, hc, hd⟩
        dsimp only
        rw [if_pos hge]

/-- **What `parse` takes**: at least one digit and digits only, after a sign where one is allowed;
and it returns the positional value. -/
theorem parse_eq {r : Int} (h₂ : 2 ≤ r) (h₃₆ : r ≤ 36) (text : List Char) (allowSign : Bool) :
    (IsNumeral r.toNat (signed allowSign text).2 → ∃ c, parse text r allowSign = .ok (some c) ∧
      c.Canonical ∧ c.toInt = if (signed allowSign text).1
        then -(positional r.toNat (signed allowSign text).2 : Int)
        else positional r.toNat (signed allowSign text).2) ∧
    (¬ IsNumeral r.toNat (signed allowSign text).2 → parse text r allowSign = .ok none) := by
  have hchunk := radixChunk_spec (show r.toNat ≤ 36 by omega)
  have hstart : HasRead r.toNat (radixChunk r.toNat).2 0 [] 0 0 1 :=
    ⟨(pow_zero _).symm, hchunk.digits_pos, one_pos, rfl⟩
  have hrange : ¬ (r < 2 ∨ 36 < r) := by omega
  unfold parse
  rw [if_neg hrange]
  generalize signed allowSign text = pair
  obtain ⟨negative, body⟩ := pair
  dsimp only
  refine ⟨fun hnumeral => ?_, fun hnumeral => ?_⟩
  · obtain ⟨hne, hdigits⟩ := hnumeral
    obtain ⟨mag, pending, pendingDigits, pendingScale, hrun, hread⟩ :=
      parseLoop_some hchunk hstart hdigits
    obtain ⟨hscale, hroom, hlt, heq⟩ := hread
    have hscalelt : pendingScale < 2 ^ 32 := by
      calc pendingScale = r.toNat ^ pendingDigits := hscale
        _ ≤ r.toNat ^ (radixChunk r.toNat).2 := Nat.pow_le_pow_right (by omega) hroom.le
        _ = (radixChunk r.toNat).1 := hchunk.eq_pow.symm
        _ < 2 ^ 32 := hchunk.fits
    obtain ⟨out, hflush, hout⟩ : ∃ out,
        flushPending mag pending pendingDigits pendingScale = .ok out ∧
        value out = positional r.toNat body := by
      unfold flushPending positional
      rw [← heq]
      split
      · exact mulAddSmall_spec hscalelt (hlt.trans hscalelt) mag
      · next hnone =>
        rw [not_not] at hnone
        rw [hnone, pow_zero] at hscale
        exact ⟨mag, rfl, by rw [hscale] at hlt ⊢; omega⟩
    refine ⟨trim { mag := out, negative }, ?_, canonical_trim _, ?_⟩
    · rw [if_neg (by simpa using hne), hrun]
      dsimp only [bind, Except.bind]
      rw [hflush]
      rfl
    · rw [toInt_trim, ← hout]
      rfl
  · by_cases hnil : body = []
    · rw [hnil]
      rfl
    · rw [if_neg (by simpa using hnil),
        parseLoop_none hchunk hstart fun hall => hnumeral ⟨hnil, hall⟩]
      rfl

end Reading

/-! ## Writing -/

section Writing

variable {radix power digits : Nat}

theorem isDigit_kDigits {d : Nat} (hd : d < radix) (h₃₆ : radix ≤ 36) :
    IsDigit radix (kDigits.getD d '0') := ⟨d, digitValue_kDigits d (by omega), hd⟩

theorem digit_kDigits {d : Nat} (hd : d < 36) : digit (kDigits.getD d '0') = d := by
  unfold digit
  rw [digitValue_kDigits d hd]
  rfl

theorem chunkLoop_full (h₂ : 2 ≤ radix) (h₃₆ : radix ≤ 36) :
    ∀ n remainder, remainder < radix ^ n →
      (chunkLoop radix false n remainder).length = n ∧
      (∀ c ∈ chunkLoop radix false n remainder, IsDigit radix c) ∧
      ofDigits radix ((chunkLoop radix false n remainder).map digit) = remainder := by
  intro n
  induction n with
  | zero =>
    intro remainder hlt
    rw [pow_zero] at hlt
    refine ⟨rfl, nofun, ?_⟩
    change 0 = remainder
    omega
  | succ n ih =>
    intro remainder hlt
    have hdigit : remainder % radix < radix := mod_lt _ (by omega)
    obtain ⟨hlen, hdigits, hvalue⟩ := ih (remainder / radix) (by
      rw [pow_succ'] at hlt
      exact Nat.div_lt_of_lt_mul hlt)
    have hloop : chunkLoop radix false (n + 1) remainder =
        kDigits.getD (remainder % radix) '0' :: chunkLoop radix false n (remainder / radix) := rfl
    rw [hloop]
    refine ⟨by simp [hlen], ?_, ?_⟩
    · intro c hc
      rcases mem_cons.mp hc with rfl | hc
      · exact isDigit_kDigits hdigit h₃₆
      · exact hdigits c hc
    · rw [map_cons, ofDigits_cons, hvalue, digit_kDigits (by omega), mod_add_div]

theorem chunkLoop_last (h₂ : 2 ≤ radix) (h₃₆ : radix ≤ 36) :
    ∀ n remainder, 0 < remainder → remainder < radix ^ n →
      (∃ c ∈ (chunkLoop radix true n remainder).getLast?, c ≠ '0') ∧
      (∀ c ∈ chunkLoop radix true n remainder, IsDigit radix c) ∧
      ofDigits radix ((chunkLoop radix true n remainder).map digit) = remainder := by
  intro n
  induction n with
  | zero =>
    intro remainder hpos hlt
    rw [pow_zero] at hlt
    omega
  | succ n ih =>
    intro remainder hpos hlt
    have hdigit : remainder % radix < radix := mod_lt _ (by omega)
    have hsplit := mod_add_div remainder radix
    have hloop : chunkLoop radix true (n + 1) remainder = kDigits.getD (remainder % radix) '0' ::
        if remainder / radix = 0 then [] else chunkLoop radix true n (remainder / radix) := by
      rw [chunkLoop]
      simp [Bool.true_and]
    rw [hloop]
    split
    · next hdone =>
      rw [hdone, mul_zero, add_zero] at hsplit
      refine ⟨⟨_, rfl, fun hzero => ?_⟩, ?_, ?_⟩
      · have := kDigits_eq_zero _ (by omega) hzero
        omega
      · intro c hc
        rw [mem_singleton] at hc
        rw [hc]
        exact isDigit_kDigits hdigit h₃₆
      · rw [map_singleton, ofDigits_singleton, digit_kDigits (by omega), hsplit]
    · next hmore =>
      obtain ⟨⟨c, hlast, hne⟩, hdigits, hvalue⟩ := ih (remainder / radix)
        (pos_of_ne_zero hmore) (by
          rw [pow_succ'] at hlt
          exact Nat.div_lt_of_lt_mul hlt)
      refine ⟨⟨c, ?_, hne⟩, ?_, ?_⟩
      · rw [getLast?_cons, mem_def.mp hlast]
        rfl
      · intro c hc
        rcases mem_cons.mp hc with rfl | hc
        · exact isDigit_kDigits hdigit h₃₆
        · exact hdigits c hc
      · rw [map_cons, ofDigits_cons, hvalue, digit_kDigits (by omega), hsplit]

theorem toStringLoop_spec (h₂ : 2 ≤ radix) (h₃₆ : radix ≤ 36) (hchunk : IsChunk radix power digits)
    {work : Magnitude} (hwork : Trimmed work) (hne : work ≠ []) :
    (∃ c ∈ (toStringLoop radix power digits work).getLast?, c ≠ '0') ∧
      (∀ c ∈ toStringLoop radix power digits work, IsDigit radix c) ∧
      ofDigits radix ((toStringLoop radix power digits work).map digit) = value work := by
  induction hn : value work using Nat.strong_induction_on generalizing work with
  | _ n ih =>
    subst hn
    have hpower := hchunk.one_lt h₂
    have hpos : 0 < value work := pos_of_ne_zero fun hzero => hne (hwork.value_eq_zero.mp hzero)
    obtain ⟨htrimmed, hquotient, hremainder⟩ := divModSmall_spec (zero_lt_of_lt hpower) work
    have hsplit := mod_add_div (value work) power
    have hstop : ¬ (work = [] ∨ power ≤ 1) := not_or.mpr ⟨hne, by omega⟩
    rw [toStringLoop, if_neg hstop]
    generalize divModSmall work power = pair at htrimmed hquotient hremainder ⊢
    obtain ⟨rest, remainder⟩ := pair
    dsimp only at htrimmed hquotient hremainder ⊢
    have hlt : remainder < radix ^ digits := by
      rw [hremainder, ← hchunk.eq_pow]
      exact mod_lt _ (by omega)
    rw [← hremainder, ← hquotient] at hsplit
    by_cases hlast : rest = []
    · -- the chunk on top is all that is left
      have hend : toStringLoop radix power digits [] = [] := by
        simp [toStringLoop]
      rw [hlast, value_nil] at hsplit
      rw [hlast, hend, append_nil, ← hsplit]
      exact chunkLoop_last h₂ h₃₆ digits remainder (by omega) hlt
    · have hfull : rest.isEmpty = false := by simpa using hlast
      have hless : value rest < value work := by
        rw [hquotient]
        exact div_lt_self hpos hpower
      obtain ⟨⟨c, hc, hcne⟩, hdigits, hvalue⟩ := ih _ hless htrimmed hlast rfl
      obtain ⟨hlen, hdigits', hvalue'⟩ := chunkLoop_full h₂ h₃₆ digits remainder hlt
      rw [hfull]
      refine ⟨⟨c, ?_, hcne⟩, ?_, ?_⟩
      · rw [getLast?_append, mem_def.mp hc]
        rfl
      · intro c hmem
        rcases mem_append.mp hmem with hmem | hmem
        · exact hdigits' c hmem
        · exact hdigits c hmem
      · rw [map_append, ofDigits_append, length_map, hlen, hvalue', hvalue, ← hchunk.eq_pow, hsplit]

/-- **What `toString` writes**: a sign, and the digits of the magnitude without leading zeros. -/
theorem toString_spec {r : Int} (h₂ : 2 ≤ r) (h₃₆ : r ≤ 36) {a : BigNum} (ha : a.Canonical) :
    ∃ ds, toString a r = (if a.negative then ['-'] else []) ++ ds ∧ IsNumeral r.toNat ds ∧
      positional r.toNat ds = value a.mag ∧ (ds = ['0'] ∨ ds.head? ≠ some '0') := by
  have hrange : ¬ (r < 2 ∨ 36 < r) := by omega
  unfold toString
  rw [if_neg hrange]
  by_cases hnil : a.mag = []
  · have hsign := ha.zero hnil
    refine ⟨['0'], ?_, ⟨nofun, fun c hc => ?_⟩, ?_, .inl rfl⟩
    · rw [hnil, hsign]
      rfl
    · rw [mem_singleton] at hc
      rw [hc]
      exact ⟨0, rfl, by omega⟩
    · rw [hnil]
      change 0 * r.toNat + 0 = 0
      omega
  · have hchunk := radixChunk_spec (show r.toNat ≤ 36 by omega)
    obtain ⟨⟨c, hc, hcne⟩, hdigits, hvalue⟩ := toStringLoop_spec (show 2 ≤ r.toNat by omega)
      (by omega) hchunk ha.trimmed hnil
    dsimp only
    rw [if_neg (by simpa using hnil)]
    refine ⟨_, rfl, ⟨fun hempty => ?_, fun c hmem => hdigits c (mem_reverse.mp hmem)⟩, ?_,
      .inr fun hzero => ?_⟩
    · rw [reverse_eq_nil_iff.mp hempty] at hc
      cases hc
    · rw [positional_reverse, hvalue]
    · rw [head?_reverse, mem_def.mp hc] at hzero
      exact hcne (some.inj hzero)

end Writing

theorem readSign_of_isNumeral {radix : Nat} {text : List Char} (h : IsNumeral radix text) :
    readSign text = (false, text) := by
  obtain ⟨hne, hdigits⟩ := h
  unfold readSign
  split
  · obtain ⟨d, hd, -⟩ := hdigits '+' (mem_cons_self ..)
    cases hd
  · obtain ⟨d, hd, -⟩ := hdigits '-' (mem_cons_self ..)
    cases hd
  · rfl

/-- **Numerals** in every radix: reading what was written gives the value back, what is written has
no leading zeros, and what is read is exactly the texts of digits, for their positional value. -/
theorem text_round_trip {r : Int} (h₂ : 2 ≤ r) (h₃₆ : r ≤ 36) :
    (∀ a, a.Canonical → parse (toString a r) r true = .ok (some a) ∧
      ∃ ds, toString a r = (if a.negative then ['-'] else []) ++ ds ∧
        (ds = ['0'] ∨ ds.head? ≠ some '0')) ∧
    ∀ text, (IsNumeral r.toNat text → ∃ c, parse text r false = .ok (some c) ∧ c.Canonical ∧
        c.toInt = positional r.toNat text) ∧
      (¬ IsNumeral r.toNat text → parse text r false = .ok none) := by
  refine ⟨fun a ha => ?_, fun text => parse_eq h₂ h₃₆ text false⟩
  obtain ⟨ds, hds, hnumeral, hvalue, hzeros⟩ := toString_spec h₂ h₃₆ ha
  refine ⟨?_, ds, hds, hzeros⟩
  have hsigned : signed true (toString a r) = (a.negative, ds) := by
    rw [hds]
    cases a.negative with
    | true => rfl
    | false => exact readSign_of_isNumeral hnumeral
  have hread := (parse_eq h₂ h₃₆ (toString a r) true).1
  rw [hsigned] at hread
  obtain ⟨c, hrun, hc, htoInt⟩ := hread hnumeral
  rw [hvalue] at htoInt
  rw [hrun, (toInt_inj hc ha).mp htoInt]

/-- A negative number of two chunks in base ten, `-4294967303`. -/
theorem text_round_trip_decimal :
    parse (toString { mag := [7, 1], negative := true } 10) 10 true =
      .ok (some { mag := [7, 1], negative := true }) := by
  have ha : Canonical { mag := [7, 1], negative := true } := ⟨by simp [Trimmed], nofun⟩
  exact ((text_round_trip (by decide) (by decide)).1 _ ha).1

end Bronze.BigNum
