import Bronze.Json.Grammar
import Bronze.Numeric.Binary64

/-!
# Numbers as JSON text

`formatJsNumber` writes a number the way ECMA-262 `Number::toString` does, from its shortest
digits; `strtod` reads the literal of a JSON number. The first is a right inverse of the second.

## Main results

* `formatJsNumber_json`: the text of a finite number is a JSON number
* `strtod_formatJsNumber`: and is read as that number, `-0` apart
-/

namespace Bronze.Json

open Binary64
open List

inductive Number
  | nan
  | infinity (negative : Bool)
  | finite (negative : Bool) (magnitude : Magnitude)
  deriving DecidableEq

/-- The character of a decimal digit. -/
def digitUnit (d : ℕ) : UInt16 := unit '0' + d.toUInt16

/-- The characters of decimal digits. -/
def text (digits : List ℕ) : Units := digits.map digitUnit

def signText (negative : Bool) : Units := if negative then [unit '-'] else []

/-- The layout of the shortest digits: the value is `0.d₁d₂…dₖ * 10 ^ (exp10 + 1)`. -/
def layout (digits : List ℕ) (exp10 : ℤ) : Units :=
  let k : ℤ := digits.length
  let n := exp10 + 1
  if k ≤ n ∧ n ≤ 21 then text digits ++ replicate (n - k).toNat (unit '0')
  else if 0 < n ∧ n ≤ 21 then
    text (digits.take n.toNat) ++ unit '.' :: text (digits.drop n.toNat)
  else if -6 < n ∧ n ≤ 0 then
    unit '0' :: unit '.' :: (replicate (-n).toNat (unit '0') ++ text digits)
  else
    text (digits.take 1) ++ ((if 1 < k then unit '.' :: text (digits.drop 1) else []) ++
      unit 'e' :: (if n - 1 < 0 then unit '-' else unit '+') :: text (decimal (n - 1).natAbs))

/-- `formatJsNumber`, of a positive finite number. -/
def magnitudeText (x : ℚ) : Units :=
  -- an integer below 2^53 is its own digits
  if x < 9007199254740992 ∧ x.den = 1 then text (decimal x.num.toNat)
  else layout (shortest x).1 (shortest x).2

def formatJsNumber : Number → Units
  | .nan => units "NaN"
  | .infinity negative => signText negative ++ units "Infinity"
  | .finite negative x =>
    if x.value = 0 then [unit '0'] else signText negative ++ magnitudeText x.value

/-- The value of a digit's character. -/
def digitValue (c : UInt16) : ℕ := (c - unit '0').toNat

def leadingDigits (s : Units) : List ℕ := (s.takeWhile isDigit).map digitValue

/-- The fraction a text starts with, if it does, and what follows it. -/
def readFraction (s : Units) : List ℕ × Units :=
  if s.head? = some (unit '.') then (leadingDigits s.tail, s.tail.dropWhile isDigit) else ([], s)

/-- The exponent a text starts with, if it does. -/
def readExponent (s : Units) : ℤ :=
  if s.head? = some (unit 'e') ∨ s.head? = some (unit 'E') then
    if s.tail.head? = some (unit '-') then -(ofDecimal (leadingDigits s.tail.tail) : ℤ)
    else if s.tail.head? = some (unit '+') then ofDecimal (leadingDigits s.tail.tail)
    else ofDecimal (leadingDigits s.tail)
  else 0

/-- The number nearest to a rational. -/
def Number.read (negative : Bool) (x : ℚ) (hx : 0 ≤ x) : Number :=
  match h : nearest x with
  | some y => .finite negative ⟨y, representable_of_nearest hx h⟩
  | none => .infinity negative

/-- The rational an unsigned JSON number stands for. -/
def decimalValue (s : Units) : ℚ :=
  let fraction := readFraction (s.dropWhile isDigit)
  ofDecimal (leadingDigits s ++ fraction.1) *
    (10 : ℚ) ^ (readExponent fraction.2 - fraction.1.length)

theorem decimalValue_nonneg (s : Units) : 0 ≤ decimalValue s := by
  rw [decimalValue]
  positivity

/-- `std::strtod`, on the literal of a JSON number. -/
def strtod (s : Units) : Number :=
  if s.head? = some (unit '-') then .read true (decimalValue s.tail) (decimalValue_nonneg _)
  else .read false (decimalValue s) (decimalValue_nonneg _)

section Digits

variable {d : ℕ}

theorem isDigit_digitUnit (h : d < 10) : isDigit (digitUnit d) = true := by
  revert d
  decide

theorem digitValue_digitUnit (h : d < 10) : digitValue (digitUnit d) = d := by
  revert d
  decide

theorem digitUnit_ne_zero (h : d < 10) (hne : d ≠ 0) : digitUnit d ≠ unit '0' := by
  revert d
  decide

variable {digits : List ℕ}

variable (h : ∀ d ∈ digits, d < 10)

include h

theorem isDigit_text : ∀ c ∈ text digits, isDigit c = true := by
  intro c hc
  obtain ⟨d, hd, rfl⟩ := mem_map.mp hc
  exact isDigit_digitUnit (h d hd)

theorem digits_text (hne : digits ≠ []) : Digits (text digits) :=
  ⟨by simpa [text] using hne, isDigit_text h⟩

theorem map_digitValue_text : (text digits).map digitValue = digits := by
  rw [text, map_map]
  conv_rhs => rw [← map_id digits]
  exact map_congr_left fun d hd => digitValue_digitUnit (h d hd)

variable {r : Units} (hr : ∀ c ∈ r.head?, isDigit c = false)

include hr

theorem leadingDigits_text : leadingDigits (text digits ++ r) = digits := by
  rw [leadingDigits, takeWhile_append_of_pos (isDigit_text h)]
  have hstop : r.takeWhile isDigit = [] := by
    cases r with
    | nil => rfl
    | cons c r => simp [hr c (by simp)]
  simp [hstop, map_digitValue_text h]

theorem dropWhile_text : (text digits ++ r).dropWhile isDigit = r := by
  rw [dropWhile_append_of_pos (isDigit_text h)]
  cases r with
  | nil => rfl
  | cons c r => simp [hr c (by simp)]

end Digits

def exponentText : Option (Bool × List ℕ) → Units
  | none => []
  | some (negative, digits) =>
    unit 'e' :: (if negative then unit '-' else unit '+') :: text digits

/-- A decimal, written with a fraction if it has one and an exponent if it has one. -/
def spell (whole fraction : List ℕ) (exponent : Option (Bool × List ℕ)) : Units :=
  text whole ++ ((if fraction = [] then [] else unit '.' :: text fraction) ++
    exponentText exponent)

def exponentValue : Option (Bool × List ℕ) → ℤ
  | none => 0
  | some (negative, digits) => if negative then -(ofDecimal digits : ℤ) else ofDecimal digits

section Spelling

variable {whole fraction : List ℕ} {exponent : Option (Bool × List ℕ)} {negative : Bool}

theorem spell_json
    (hwhole : whole = [0] ∨ whole ≠ [] ∧ (∀ d ∈ whole, d < 10) ∧ whole.head? ≠ some 0)
    (hfraction : ∀ d ∈ fraction, d < 10) (hexponent : ∀ e ∈ exponent, e.2 ≠ [] ∧ ∀ d ∈ e.2, d < 10)
    (negative : Bool) : JSONNumber (signText negative ++ spell whole fraction exponent) := by
  refine ⟨signText negative, text whole,
    if fraction = [] then [] else unit '.' :: text fraction, _, ?_, ?_, ?_, ?_, rfl⟩
  · cases negative <;> simp [signText]
  · rcases hwhole with rfl | ⟨hne, hdigits, hhead⟩
    · exact .inl rfl
    · refine .inr ⟨digits_text hdigits hne, ?_⟩
      cases whole with
      | nil => exact absurd rfl hne
      | cons d whole =>
        have := digitUnit_ne_zero (hdigits d (by simp)) (by simpa using hhead)
        simpa [text] using this
  · by_cases hnil : fraction = []
    · exact .inl (if_pos hnil)
    · exact .inr ⟨text fraction, digits_text hfraction hnil, if_neg hnil⟩
  · cases exponent with
    | none => exact .inl rfl
    | some e =>
      obtain ⟨hne, hdigits⟩ := hexponent e rfl
      refine .inr ⟨unit 'e', [if e.1 then unit '-' else unit '+'], text e.2, .inl rfl, ?_,
        digits_text hdigits hne, rfl⟩
      cases e.1 <;> simp

theorem head_exponentText (exponent : Option (Bool × List ℕ)) :
    ∀ c ∈ (exponentText exponent).head?, c = unit 'e' := by
  cases exponent <;> simp [exponentText]

theorem readFraction_spell (hfraction : ∀ d ∈ fraction, d < 10) :
    readFraction ((if fraction = [] then [] else unit '.' :: text fraction) ++
      exponentText exponent) = (fraction, exponentText exponent) := by
  have hstop : ∀ c ∈ (exponentText exponent).head?, isDigit c = false := by
    intro c hc
    rw [head_exponentText exponent c hc]
    decide
  by_cases hnil : fraction = []
  · -- no point: what follows starts with an `e`, or does not follow
    have hpoint : (exponentText exponent).head? ≠ some (unit '.') := by
      intro h
      exact absurd (head_exponentText exponent _ h) (by decide)
    simp [readFraction, hnil, hpoint]
  · simp [readFraction, hnil, leadingDigits_text hfraction hstop, dropWhile_text hfraction hstop]

theorem readExponent_spell (hexponent : ∀ e ∈ exponent, ∀ d ∈ e.2, d < 10) :
    readExponent (exponentText exponent) = exponentValue exponent := by
  cases exponent with
  | none => rfl
  | some e =>
    obtain ⟨negative, digits⟩ := e
    have hdigits : leadingDigits (text digits) = digits := by
      simpa using leadingDigits_text (r := []) (hexponent _ rfl) (by simp)
    have hsigns : unit '+' ≠ unit '-' := by decide
    cases negative <;> simp [readExponent, exponentText, exponentValue, hdigits, hsigns]

theorem decimalValue_spell (hwhole : ∀ d ∈ whole, d < 10) (hfraction : ∀ d ∈ fraction, d < 10)
    (hexponent : ∀ e ∈ exponent, ∀ d ∈ e.2, d < 10) :
    decimalValue (spell whole fraction exponent) =
      ofDecimal (whole ++ fraction) * (10 : ℚ) ^ (exponentValue exponent - fraction.length) := by
  have hstop : ∀ c ∈ ((if fraction = [] then [] else unit '.' :: text fraction) ++
      exponentText exponent).head?, isDigit c = false := by
    intro c hc
    by_cases hnil : fraction = []
    · rw [head_exponentText exponent c (by simpa [hnil] using hc)]
      decide
    · obtain rfl : unit '.' = c := by simpa [hnil] using hc
      decide
  simp [decimalValue, spell, leadingDigits_text hwhole hstop, dropWhile_text hwhole hstop,
    readFraction_spell hfraction, readExponent_spell hexponent]

end Spelling

/-! ## The layout spells the shortest digits -/

section Layout

variable {digits : List ℕ} {exp10 : ℤ}

/-- A text that spells a positive decimal. -/
structure Spells (s : Units) (x : ℚ) : Prop where
  json : ∀ negative, JSONNumber (signText negative ++ s)
  value : decimalValue s = x
  head : ∃ c t, s = c :: t ∧ isDigit c = true

theorem spells_spell (whole fraction : List ℕ) (exponent : Option (Bool × List ℕ))
    (hwhole : whole = [0] ∨ whole ≠ [] ∧ (∀ d ∈ whole, d < 10) ∧ whole.head? ≠ some 0)
    (hfraction : ∀ d ∈ fraction, d < 10)
    (hexponent : ∀ e ∈ exponent, e.2 ≠ [] ∧ ∀ d ∈ e.2, d < 10) :
    Spells (spell whole fraction exponent)
      (ofDecimal (whole ++ fraction) *
        (10 : ℚ) ^ (exponentValue exponent - fraction.length)) := by
  have hdigits : ∀ d ∈ whole, d < 10 := by
    rcases hwhole with rfl | ⟨-, h, -⟩
    · simp
    · exact h
  refine ⟨spell_json hwhole hfraction hexponent,
    decimalValue_spell hdigits hfraction fun e he => (hexponent e he).2, ?_⟩
  obtain ⟨d, rest, rfl⟩ : ∃ d rest, whole = d :: rest := by
    rcases hwhole with rfl | ⟨h, -, -⟩
    · exact ⟨0, [], rfl⟩
    · exact exists_cons_of_ne_nil h
  exact ⟨_, _, rfl, isDigit_digitUnit (hdigits d (by simp))⟩

theorem spells_integer (hne : digits ≠ []) (hdigits : ∀ d ∈ digits, d < 10)
    (hhead : digits.head? ≠ some 0) (zeros : ℕ) :
    Spells (text digits ++ replicate zeros (unit '0'))
      (ofDecimal digits * (10 : ℚ) ^ (zeros : ℤ)) := by
  have h := spells_spell (digits ++ replicate zeros 0) [] none
    (.inr ⟨by simp [hne], ?_, ?_⟩) (by simp) (by simp)
  · have htext : spell (digits ++ replicate zeros 0) [] none =
        text digits ++ replicate zeros (unit '0') := by
      simp [spell, exponentText, text, show digitUnit 0 = unit '0' from rfl]
    rw [htext] at h
    simpa [ofDecimal_append, exponentValue] using h
  · intro d hd
    rcases mem_append.mp hd with hd | hd
    · exact hdigits d hd
    · rw [eq_of_mem_replicate hd]
      norm_num
  · rwa [head?_append_of_ne_nil _ hne]

theorem spells_point (hdigits : ∀ d ∈ digits, d < 10) (hhead : digits.head? ≠ some 0) {n : ℕ}
    (hpos : 0 < n) (hlt : n < digits.length) :
    Spells (text (digits.take n) ++ unit '.' :: text (digits.drop n))
      (ofDecimal digits * (10 : ℚ) ^ ((n : ℤ) - digits.length)) := by
  have hdrop : digits.drop n ≠ [] := by
    simpa [drop_eq_nil_iff] using hlt
  have h := spells_spell (digits.take n) (digits.drop n) none
    (.inr ⟨?_, fun d hd => hdigits d (mem_of_mem_take hd), ?_⟩)
    (fun d hd => hdigits d (mem_of_mem_drop hd)) (by simp)
  · rw [take_append_drop] at h
    have hexp : exponentValue none - ((digits.drop n).length : ℤ) = n - digits.length := by
      rw [length_drop, Nat.cast_sub hlt.le, exponentValue]
      ring
    rw [hexp] at h
    simpa [spell, exponentText, hdrop] using h
  · intro hnil
    have := congrArg length hnil
    rw [length_take, length_nil] at this
    omega
  · rwa [head?_take, if_neg (by omega)]

variable (hne : digits ≠ [])

include hne

variable (hdigits : ∀ d ∈ digits, d < 10)

include hdigits

theorem spells_small (zeros : ℕ) :
    Spells (unit '0' :: unit '.' :: (replicate zeros (unit '0') ++ text digits))
      (ofDecimal digits * (10 : ℚ) ^ (-(zeros : ℤ) - digits.length)) := by
  have h := spells_spell [0] (replicate zeros 0 ++ digits) none (.inl rfl) ?_ (by simp)
  · have hvalue : ofDecimal ([0] ++ (replicate zeros 0 ++ digits)) = ofDecimal digits := by
      simp [ofDecimal_append, ofDecimal_cons]
    have hexp : exponentValue none - ((replicate zeros 0 ++ digits).length : ℤ) =
        -(zeros : ℤ) - digits.length := by
      rw [length_append, length_replicate, exponentValue]
      push_cast
      ring
    rw [hvalue, hexp] at h
    simpa [spell, exponentText, hne, text, show digitUnit 0 = unit '0' from rfl] using h
  · intro d hd
    rcases mem_append.mp hd with hd | hd
    · rw [eq_of_mem_replicate hd]
      norm_num
    · exact hdigits d hd

theorem spells_scientific (hhead : digits.head? ≠ some 0) {e : ℤ} (he : e ≠ 0) :
    Spells (text (digits.take 1) ++
        ((if 1 < (digits.length : ℤ) then unit '.' :: text (digits.drop 1) else []) ++
        unit 'e' :: (if e < 0 then unit '-' else unit '+') :: text (decimal e.natAbs)))
      (ofDecimal digits * (10 : ℚ) ^ (e + 1 - digits.length)) := by
  obtain ⟨d, rest, rfl⟩ := exists_cons_of_ne_nil hne
  have h := spells_spell [d] rest (some (decide (e < 0), decimal e.natAbs))
    (.inr ⟨by simp, fun d' hd' => hdigits d' (by simp_all), by simpa using hhead⟩)
    (fun d' hd' => hdigits d' (by simp [hd']))
    (fun e' he' => by
      cases he'
      exact ⟨decimal_ne_nil (by simpa using he), fun d' => decimal_lt⟩)
  have hexp : exponentValue (some (decide (e < 0), decimal e.natAbs)) - (rest.length : ℤ) =
      e + 1 - (d :: rest).length := by
    simp only [exponentValue, ofDecimal_decimal, length_cons, decide_eq_true_eq]
    split_ifs <;> omega
  rw [hexp] at h
  by_cases hrest : rest = []
  · subst hrest
    simpa [spell, exponentText] using h
  · have hlong : 1 < ((d :: rest).length : ℤ) := by
      have := length_pos_iff.mpr hrest
      simp only [length_cons]
      omega
    rw [if_pos hlong]
    simpa [spell, exponentText, hrest] using h

/-- **Every layout spells the value of the digits.** -/
theorem spells_layout (hhead : digits.head? ≠ some 0) :
    Spells (layout digits exp10)
      (ofDecimal digits * (10 : ℚ) ^ (exp10 + 1 - digits.length)) := by
  unfold layout
  by_cases hwhole : (digits.length : ℤ) ≤ exp10 + 1 ∧ exp10 + 1 ≤ 21
  · rw [if_pos hwhole]
    obtain ⟨zeros, hzeros⟩ := Int.eq_ofNat_of_zero_le (sub_nonneg.mpr hwhole.1)
    rw [hzeros]
    exact spells_integer hne hdigits hhead zeros
  rw [if_neg hwhole]
  by_cases hpoint : 0 < exp10 + 1 ∧ exp10 + 1 ≤ 21
  · rw [if_pos hpoint]
    obtain ⟨n, hn⟩ := Int.eq_ofNat_of_zero_le hpoint.1.le
    rw [hn] at hwhole hpoint ⊢
    exact spells_point hdigits hhead (by omega) (by omega)
  rw [if_neg hpoint]
  by_cases hsmall : -6 < exp10 + 1 ∧ exp10 + 1 ≤ 0
  · rw [if_pos hsmall]
    obtain ⟨zeros, hzeros⟩ := Int.eq_ofNat_of_zero_le (neg_nonneg.mpr hsmall.2)
    have hn : exp10 + 1 = -(zeros : ℤ) := by omega
    rw [hn, neg_neg]
    exact spells_small hne hdigits zeros
  · rw [if_neg hsmall, add_sub_cancel_right]
    refine spells_scientific hne hdigits hhead ?_
    -- an exponent of zero is written with a point
    rintro rfl
    omega

end Layout

/-- The text of a positive number spells a rational that is read as the number. -/
theorem spells_magnitude {x : ℚ} (hx : Representable x) (hpos : 0 < x) :
    ∃ y, Spells (magnitudeText x) y ∧ nearest y = some x := by
  rw [magnitudeText]
  split_ifs with hwhole
  · have hnum : 0 < x.num := Rat.num_pos.mpr hpos
    have hne : x.num.toNat ≠ 0 := by omega
    have h := spells_integer (decimal_ne_nil hne) (fun d => decimal_lt) (head_decimal_ne_zero hne) 0
    refine ⟨_, by simpa using h, ?_⟩
    have hvalue : ((ofDecimal (decimal x.num.toNat) : ℕ) : ℚ) = x := by
      rw [ofDecimal_decimal, ← Int.cast_natCast, Int.toNat_of_nonneg hnum.le]
      exact (Rat.den_eq_one_iff x).mp hwhole.2
    rw [hvalue, nearest_of_representable hx hpos]
  · obtain ⟨digits, exponent, heq, hne, hdigits, hhead, hreads⟩ := shortest_spec hx hpos
    rw [heq]
    exact ⟨_, spells_layout hne hdigits hhead, hreads⟩

/-- **The text of a finite number is a JSON number.** -/
theorem formatJsNumber_json (negative : Bool) (x : Magnitude) :
    JSONNumber (formatJsNumber (.finite negative x)) := by
  rw [formatJsNumber]
  split_ifs with hzero
  · exact ⟨[], [unit '0'], [], [], .inl rfl, .inl rfl, .inl rfl, .inl rfl, rfl⟩
  · obtain ⟨y, hspells, -⟩ :=
      spells_magnitude x.representable (lt_of_le_of_ne x.representable.nonneg (Ne.symm hzero))
    exact hspells.json negative

theorem Number.read_eq {negative : Bool} {y : ℚ} (hy : 0 ≤ y) {x : Magnitude}
    (h : nearest y = some x.value) : Number.read negative y hy = .finite negative x := by
  rw [Number.read]
  split
  · rename_i z hz
    obtain rfl : x.value = z := by simpa [h] using hz
    rfl
  · rename_i hnone
    rw [h] at hnone
    cases hnone

/-- **A finite number is read back from its text**, but that `-0` is written without its sign. -/
theorem strtod_formatJsNumber {negative : Bool} {x : Magnitude}
    (hzero : x.value = 0 → negative = false) :
    strtod (formatJsNumber (.finite negative x)) = .finite negative x := by
  rw [formatJsNumber]
  by_cases h : x.value = 0
  · rw [if_pos h, hzero h]
    have hvalue : decimalValue [unit '0'] = 0 := by
      have := @decimalValue_spell [0] [] none (by simp) (by simp) (by simp)
      simpa [spell, exponentText, text, ofDecimal, show digitUnit 0 = unit '0' from rfl] using this
    have hread : nearest (decimalValue [unit '0']) = some x.value := by
      rw [hvalue, h]
      simp [nearest, show roundEven 0 = 0 from roundEven_intCast 0]
    rw [strtod, if_neg (by decide)]
    exact Number.read_eq _ hread
  · rw [if_neg h]
    obtain ⟨y, hspells, hreads⟩ :=
      spells_magnitude x.representable (lt_of_le_of_ne x.representable.nonneg (Ne.symm h))
    have hread : nearest (decimalValue (magnitudeText x.value)) = some x.value := by
      rw [hspells.value, hreads]
    cases negative with
    | true =>
      rw [strtod, if_pos (by rfl)]
      exact Number.read_eq _ hread
    | false =>
      obtain ⟨c, t, heq, hc⟩ := hspells.head
      have hminus : (magnitudeText x.value).head? ≠ some (unit '-') := by
        rw [heq]
        rintro ⟨⟩
        exact absurd hc (by decide)
      rw [signText, if_neg (by simp), nil_append, strtod, if_neg hminus]
      exact Number.read_eq _ hread

/-- **A finite number is what its text reads as**, and two have one text only if they are one; but
for the two zeros. -/
theorem formatJsNumber_inj {m n : Bool} {x y : Magnitude} :
    strtod (formatJsNumber (.finite m x)) = .finite (if x.value = 0 then false else m) x ∧
    (formatJsNumber (.finite m x) = formatJsNumber (.finite n y) ↔
      x = y ∧ (x.value = 0 ∨ m = n)) := by
  have hread : ∀ (n : Bool) (x : Magnitude), strtod (formatJsNumber (.finite n x)) =
      .finite (if x.value = 0 then false else n) x := by
    intro n x
    split_ifs with hzero
    · rw [← strtod_formatJsNumber (x := x) fun _ => rfl, formatJsNumber, formatJsNumber,
        if_pos hzero, if_pos hzero]
    · exact strtod_formatJsNumber fun h => absurd h hzero
  refine ⟨hread m x, fun h => ?_, ?_⟩
  · have heq := congrArg strtod h
    rw [hread, hread, Number.finite.injEq] at heq
    obtain ⟨hsign, rfl⟩ := heq
    refine ⟨rfl, or_iff_not_imp_left.mpr fun hzero => ?_⟩
    rwa [if_neg hzero, if_neg hzero] at hsign
  · rintro ⟨rfl, hzero | rfl⟩
    · rw [formatJsNumber, formatJsNumber, if_pos hzero, if_pos hzero]
    · rfl

end Bronze.Json
