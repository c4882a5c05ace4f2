import Bronze.Json.NumberText
import Bronze.Numeric.Shortest

/-!
# Numbers are written as the standard writes them

`Number::toString` of ECMA-262 chooses integers `n`, `k` and `s`, where `k` is the least number of
digits with which the number is read back, and lays the digits of `s` out in one of five ways.
`formatJsNumber` takes the digits from the scientific text of `std::to_chars` and has a path of its
own for whole numbers below `2 ^ 53`; both write what the standard asks for.

## Main definitions

* `NumberToString`: the texts the standard allows for a number
* `jsShortestDigits`: the digits and the exponent, from the text of `std::to_chars`

## Main results

* `jsShortestDigits_toChars`: that text is taken apart into the shortest digits
* `magnitudeText_eq_layout`: the path of the whole numbers writes what the other would
* `formatJsNumber_standard`: the text is the standard's, is read back, and has at most 25 characters
-/

namespace Bronze.Json

open Binary64
open List

/-! ## The digits of `std::to_chars` -/

/-- The text of `std::to_chars`, in the scientific format: `d[.ddd]e±EE`, with two digits of
exponent or more. -/
def toCharsScientific (x : ℚ) : Units :=
  let digits := (shortest x).1
  let e := (shortest x).2
  text (digits.take 1) ++ ((if 1 < digits.length then unit '.' :: text (digits.drop 1) else []) ++
    unit 'e' :: (if e < 0 then unit '-' else unit '+') ::
      text (replicate (2 - (decimal e.natAbs).length) 0 ++ decimal e.natAbs))

/-- The digits after the point, if there is one, and the text from the `e` on. -/
def sciFraction (p : Units) : Units × Units :=
  if p.head? = some (unit '.') then
    (p.tail.takeWhile (· != unit 'e'), p.tail.dropWhile (· != unit 'e'))
  else ([], p)

/-- The exponent, after the `e`. -/
def sciExponent (p : Units) : ℤ :=
  let expNeg : Bool := p.head? = some (unit '-')
  let p := if p.head? = some (unit '+') ∨ p.head? = some (unit '-') then p.tail else p
  let e := ofDecimal (p.map digitValue)
  if expNeg then -(e : ℤ) else e

/-- `jsShortestDigits`: the digits and the exponent of the first, of the text in `sci`. -/
def jsShortestDigits (sci : Units) : List ℕ × ℤ :=
  let p := if sci.head? = some (unit '-') then sci.tail else sci
  let fraction := sciFraction p.tail
  ((p.take 1 ++ fraction.1).map digitValue, sciExponent fraction.2.tail)

section Scientific

variable {digits : List ℕ}

theorem digitUnit_ne {d : ℕ} (h : d < 10) :
    digitUnit d ≠ unit '-' ∧ digitUnit d ≠ unit '+' ∧ digitUnit d ≠ unit '.' ∧
      digitUnit d ≠ unit 'e' := by
  revert d
  decide

theorem sciFraction_text (hdigits : ∀ d ∈ digits, d < 10) (r : Units) :
    sciFraction ((if digits = [] then [] else unit '.' :: text digits) ++ unit 'e' :: r) =
      (text digits, unit 'e' :: r) := by
  have hall : ∀ c ∈ text digits, (c != unit 'e') = true := by
    intro c hc
    obtain ⟨d, hd, rfl⟩ := mem_map.mp hc
    exact bne_iff_ne.mpr (digitUnit_ne (hdigits d hd)).2.2.2
  have hpoint : unit 'e' ≠ unit '.' := by decide
  by_cases hnil : digits = []
  · simp [sciFraction, hnil, hpoint, text]
  · simp [sciFraction, hnil, takeWhile_append_of_pos hall, dropWhile_append_of_pos hall]

theorem sciExponent_text (e : ℤ) (hdigits : ∀ d ∈ digits, d < 10)
    (hvalue : ofDecimal digits = e.natAbs) :
    sciExponent ((if e < 0 then unit '-' else unit '+') :: text digits) = e := by
  have hsigns : unit '+' ≠ unit '-' := by decide
  by_cases he : e < 0
  · simp [sciExponent, he, map_digitValue_text hdigits, hvalue, abs_of_neg he]
  · simp [sciExponent, he, hsigns, map_digitValue_text hdigits, hvalue,
      abs_of_nonneg (not_lt.mp he)]

/-- **The text of `std::to_chars` is taken apart** into the shortest digits and their exponent. -/
theorem jsShortestDigits_toChars {x : ℚ} (hx : Representable x) (hpos : 0 < x) :
    jsShortestDigits (toCharsScientific x) = shortest x := by
  obtain ⟨digits, e, heq, hne, hdigits, -, -⟩ := shortest_spec hx hpos
  obtain ⟨d, rest, rfl⟩ := exists_cons_of_ne_nil hne
  have hd := hdigits d mem_cons_self
  have hrest : ∀ d' ∈ rest, d' < 10 := fun d' hd' => hdigits d' (mem_cons_of_mem d hd')
  have hexponent : ∀ d' ∈ replicate (2 - (decimal e.natAbs).length) 0 ++ decimal e.natAbs,
      d' < 10 := by
    intro d' hd'
    rcases mem_append.mp hd' with hd' | hd'
    · rw [eq_of_mem_replicate hd']
      norm_num
    · exact decimal_lt hd'
  have hvalue : ofDecimal (replicate (2 - (decimal e.natAbs).length) 0 ++ decimal e.natAbs) =
      e.natAbs := by
    rw [ofDecimal_append, ofDecimal_replicate_zero, zero_mul, zero_add, ofDecimal_decimal]
  have hlong : 1 < (d :: rest).length ↔ ¬ rest = [] := by
    rw [length_cons, ← ne_eq, ← length_pos_iff]
    omega
  have htext : toCharsScientific x = digitUnit d ::
      ((if rest = [] then [] else unit '.' :: text rest) ++
        unit 'e' :: (if e < 0 then unit '-' else unit '+') ::
          text (replicate (2 - (decimal e.natAbs).length) 0 ++ decimal e.natAbs)) := by
    simp only [toCharsScientific, heq, hlong, ite_not]
    rfl
  rw [htext, jsShortestDigits, if_neg (by simpa using (digitUnit_ne hd).1)]
  simp only [tail_cons, sciFraction_text hrest, sciExponent_text e hexponent hvalue, heq]
  simp [digitValue_digitUnit hd, map_digitValue_text hrest]

end Scientific

/-! ## Number::toString -/

/-- `s` is a number of `k` digits, and `s * 10 ^ (n - k)` is read as `x`. -/
structure Spelling (x : ℚ) (n : ℤ) (k s : ℕ) : Prop where
  one_le : 1 ≤ k
  low : 10 ^ (k - 1) ≤ s
  high : s < 10 ^ k
  reads : nearest (s * (10 : ℚ) ^ (n - k)) = some x

/-- The text of the digits of `s`, once `n`, `k` and `s` are chosen. -/
def standardText (n : ℤ) (k s : ℕ) : Units :=
  let digits := text (decimal s)
  if -5 ≤ n ∧ n ≤ 21 then
    if n ≥ k then digits ++ replicate (n - k).toNat (unit '0')
    else if 0 < n then digits.take n.toNat ++ unit '.' :: digits.drop n.toNat
    else unit '0' :: unit '.' :: (replicate (-n).toNat (unit '0') ++ digits)
  else
    let exponentSign := if n < 0 then unit '-' else unit '+'
    let exponent := unit 'e' :: exponentSign :: text (decimal (n - 1).natAbs)
    if k = 1 then digits ++ exponent
    else digits.take 1 ++ unit '.' :: (digits.drop 1 ++ exponent)

/-- `Number::toString`, of radix 10: the least number of digits, of which there may be several. -/
inductive NumberToString : Number → Units → Prop
  | nan : NumberToString .nan (units "NaN")
  | zero {negative : Bool} {x : Magnitude} :
      x.value = 0 → NumberToString (.finite negative x) (units "0")
  | negative {x : Magnitude} {t : Units} : x.value ≠ 0 →
      NumberToString (.finite false x) t → NumberToString (.finite true x) (unit '-' :: t)
  | negativeInfinity {t : Units} : NumberToString (.infinity false) t →
      NumberToString (.infinity true) (unit '-' :: t)
  | infinity : NumberToString (.infinity false) (units "Infinity")
  | positive {x : Magnitude} {n : ℤ} {k s : ℕ} : 0 < x.value → Spelling x.value n k s →
      (∀ n' k' s', Spelling x.value n' k' s' → k ≤ k') →
        NumberToString (.finite false x) (standardText n k s)

section Layout

variable {digits : List ℕ} {exp10 : ℤ}

/-- **The layout is the standard's.** -/
theorem layout_standard (hne : digits ≠ []) (hdigits : ∀ d ∈ digits, d < 10)
    (hhead : digits.head? ≠ some 0) :
    layout digits exp10 = standardText (exp10 + 1) digits.length (ofDecimal digits) := by
  have hlength : 1 ≤ digits.length := length_pos_iff.mpr hne
  simp only [layout, standardText, decimal_ofDecimal hdigits hhead]
  generalize hn : exp10 + 1 = n
  by_cases hmiddle : -5 ≤ n ∧ n ≤ 21
  · rw [if_pos hmiddle]
    by_cases hwhole : (digits.length : ℤ) ≤ n
    · rw [if_pos ⟨hwhole, hmiddle.2⟩, if_pos hwhole]
    rw [if_neg (fun h => hwhole h.1), if_neg hwhole]
    by_cases hpoint : 0 < n
    · rw [if_pos ⟨hpoint, hmiddle.2⟩, if_pos hpoint]
      simp [text, map_take, map_drop]
    · rw [if_neg (fun h => hpoint h.1), if_neg hpoint, if_pos (by omega)]
  · rw [if_neg hmiddle, if_neg (by omega), if_neg (by omega), if_neg (by omega)]
    -- out there the two signs are of one condition
    have hsign : n - 1 < 0 ↔ n < 0 := by omega
    obtain ⟨d, rest, rfl⟩ := exists_cons_of_ne_nil hne
    by_cases hrest : rest = []
    · simp [hrest, hsign]
    · simp [length_pos_iff.mpr hrest, hrest, hsign, text]

theorem length_text : (text digits).length = digits.length := length_map _

theorem length_decimal_le {n k : ℕ} (h : n < 10 ^ k) : (decimal n).length ≤ k := by
  rw [decimal, length_reverse]
  exact (Nat.digits_length_le_iff (by norm_num) n).mpr h

/-- A sign, a point, and up to five zeros or an exponent of four digits and its `e`. -/
theorem length_layout_le (hlength : digits.length ≤ 17) (hlow : -1074 ≤ exp10)
    (hhigh : exp10 ≤ 1024) : (layout digits exp10).length ≤ 24 := by
  have hexponent : (decimal (exp10 + 1 - 1).natAbs).length ≤ 4 := length_decimal_le (by omega)
  simp only [layout]
  split_ifs <;>
    simp only [length_append, length_cons, length_nil, length_replicate, length_text, length_take,
      length_drop] <;>
    omega

end Layout

/-! ## The text of a positive number -/

section Magnitude

variable {x : ℚ} (hx : Representable x) (hpos : 0 < x)

include hx hpos

/-- **The path of the whole numbers** writes what the shortest digits would give. -/
theorem magnitudeText_eq_layout :
    magnitudeText x = layout (shortest x).1 (shortest x).2 := by
  rw [magnitudeText]
  split_ifs with hwhole
  · obtain ⟨hsmall, hden⟩ := hwhole
    obtain ⟨m, hm⟩ := Int.eq_ofNat_of_zero_le (Rat.num_pos.mpr hpos).le
    obtain rfl : (m : ℚ) = x := by
      rw [← (Rat.den_eq_one_iff x).mp hden, hm, Int.cast_natCast]
    have hlt : m < 2 ^ 53 := by
      have hcast : (m : ℚ) < (9007199254740992 : ℕ) := by exact_mod_cast hsmall
      exact_mod_cast hcast
    obtain ⟨zeros, hdigits, hexponent⟩ := shortest_whole hlt (by exact_mod_cast hpos)
    have hbound : (decimal m).length ≤ 16 := length_decimal_le (hlt.trans (by norm_num))
    rw [hdigits, length_append, length_replicate] at hbound
    have hzeros : ((shortest (m : ℚ)).2 + 1 - (shortest (m : ℚ)).1.length).toNat = zeros := by
      omega
    rw [layout, if_pos (by omega), hzeros, Rat.num_natCast, Int.toNat_natCast, hdigits]
    simp [text, show digitUnit 0 = unit '0' from rfl]
  · rfl

theorem spelling_shortest :
    Spelling x ((shortest x).2 + 1) (shortest x).1.length (ofDecimal (shortest x).1) := by
  obtain ⟨digits, exponent, heq, hne, hdigits, hhead, hreads⟩ := shortest_spec hx hpos
  rw [heq]
  exact ⟨length_pos_iff.mpr hne, le_ofDecimal hdigits hhead hne, ofDecimal_lt hdigits, hreads⟩

theorem spelling_least {n : ℤ} {k s : ℕ} (h : Spelling x n k s) : (shortest x).1.length ≤ k :=
  shortest_least hx hpos h.one_le h.low h.high h.reads

theorem magnitudeText_standard : magnitudeText x =
    standardText ((shortest x).2 + 1) (shortest x).1.length (ofDecimal (shortest x).1) := by
  obtain ⟨digits, exponent, heq, hne, hdigits, hhead, -⟩ := shortest_spec hx hpos
  rw [magnitudeText_eq_layout hx hpos, heq]
  exact layout_standard hne hdigits hhead

theorem length_magnitudeText_le : (magnitudeText x).length ≤ 24 := by
  obtain ⟨hlow, hhigh⟩ := exponent_bounds hx hpos
  rw [magnitudeText_eq_layout hx hpos]
  exact length_layout_le (shortest_length_le hx hpos) hlow hhigh

end Magnitude

/-! ## The text of a number -/

theorem magnitude_pos {x : Magnitude} (h : x.value ≠ 0) : 0 < x.value :=
  lt_of_le_of_ne x.representable.nonneg (Ne.symm h)

theorem numberToString_formatJsNumber (number : Number) :
    NumberToString number (formatJsNumber number) := by
  cases number with
  | nan => exact .nan
  | infinity negative =>
    cases negative with
    | false => exact .infinity
    | true => exact .negativeInfinity .infinity
  | finite negative x =>
    rw [formatJsNumber]
    split_ifs with hzero
    · exact .zero hzero
    · have hpos := magnitude_pos hzero
      have hpositive : NumberToString (.finite false x) (magnitudeText x.value) := by
        rw [magnitudeText_standard x.representable hpos]
        exact .positive hpos (spelling_shortest x.representable hpos)
          fun _ _ _ => spelling_least x.representable hpos
      cases negative with
      | false => exact hpositive
      | true => exact .negative hzero hpositive

theorem length_formatJsNumber_le (number : Number) : (formatJsNumber number).length ≤ 25 := by
  cases number with
  | nan => decide
  | infinity negative => cases negative <;> decide
  | finite negative x =>
    rw [formatJsNumber]
    split_ifs with hzero
    · simp
    · have hlength :=
        length_magnitudeText_le x.representable (magnitude_pos hzero)
      rw [length_append]
      cases negative <;> simp only [signText] <;> simp <;> omega

/-- Five zeros and 17 digits. -/
def longest : Number :=
  .finite true ⟨5830082025146107 * (2 : ℚ) ^ (-72 : ℤ),
    5830082025146107, -72, by norm_num, by norm_num, by norm_num,
    lt_trans (b := 1) (by norm_num) (one_lt_zpow₀ one_lt_two (by norm_num))⟩

theorem formatJsNumber_longest :
    formatJsNumber longest = units "-0.0000012345678901234567" := by
  decide +kernel

/-- **A number is written as the standard writes it**, in at most 25 characters. The digits are
taken from the shortest that are read back, the whole numbers below `2 ^ 53` are written as their
digits would be, and the text is read as the number, but for the sign of zero. -/
theorem formatJsNumber_standard (number : Number) :
    NumberToString number (formatJsNumber number) ∧
      (formatJsNumber number).length ≤ (formatJsNumber longest).length ∧
      (formatJsNumber longest).length = 25 ∧
      ∀ negative x, number = .finite negative x →
        strtod (formatJsNumber number) = .finite (if x.value = 0 then false else negative) x ∧
        (0 < x.value → jsShortestDigits (toCharsScientific x.value) = shortest x.value ∧
          (x.value < 2 ^ 53 → x.value.den = 1 → text (decimal x.value.num.toNat) =
            layout (shortest x.value).1 (shortest x.value).2)) := by
  have hlongest : (formatJsNumber longest).length = 25 := by
    rw [formatJsNumber_longest]
    rfl
  refine ⟨numberToString_formatJsNumber number, ?_, hlongest, ?_⟩
  · rw [hlongest]
    exact length_formatJsNumber_le number
  rintro negative x rfl
  refine ⟨?_, fun hpos => ⟨jsShortestDigits_toChars x.representable hpos, fun hsmall hden => ?_⟩⟩
  · split_ifs with hzero
    · have hread := @strtod_formatJsNumber false x fun _ => rfl
      rw [formatJsNumber, if_pos hzero] at hread ⊢
      exact hread
    · exact strtod_formatJsNumber fun h => absurd h hzero
  · rw [← magnitudeText_eq_layout x.representable hpos, magnitudeText,
      if_pos ⟨by norm_num at hsmall ⊢; exact hsmall, hden⟩]

end Bronze.Json
