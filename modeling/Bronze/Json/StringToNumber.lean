import Bronze.Json.NumberText

/-!
# Strings as numbers

`stringToNumber` trims the whitespace of a string, reads a literal with a radix prefix through a
64-bit integer, and leaves every other literal to `strtod` behind checks of its own. The grammar is
StringNumericLiteral of ECMA-262 7.1.4.1; a literal of a radix can be of any length there.

## Main definitions

* `stringToNumber`: the conversion
* `StringNumericLiteral`: the literals, each with its number
* `Standard`: the number of the literal, NaN where there is none

## Main results

* `literal_of_bodyNumber`, `bodyNumber_of_literal`: what is accepted is the grammar
* `stringToNumber_iff`: the conversion is the standard's but for the literals of a radix that are
  `2 ^ 64` or more
-/

namespace Bronze.Json

open Binary64
open List

/-- `isEcmaWhitespace`. -/
def isEcmaWhitespace (u : UInt16) : Bool :=
  [0x0009, 0x000A, 0x000B, 0x000C, 0x000D, 0x0020, 0x00A0, 0x1680, 0x2028, 0x2029, 0x202F, 0x205F,
    0x3000, 0xFEFF].contains u || (0x2000 ≤ u && u ≤ 0x200A)

/-- The value of a digit of `std::from_chars`; 36 is none. -/
def radixDigit (c : UInt16) : ℕ :=
  if isDigit c then digitValue c
  else if unit 'a' ≤ c && c ≤ unit 'z' then (c - unit 'a').toNat + 10
  else if unit 'A' ≤ c && c ≤ unit 'Z' then (c - unit 'A').toNat + 10
  else 36

def ofRadix (base : ℕ) (digits : Units) : ℕ :=
  digits.foldl (fun magnitude c => base * magnitude + radixDigit c) 0

/-- `std::from_chars` into a `uint64_t`: what the leading digits stand for, if there are some and it
fits, and what follows them. -/
def fromChars (base : ℕ) (s : Units) : Option ℕ × Units :=
  let digits := s.takeWhile (radixDigit · < base)
  (if digits = [] ∨ 2 ^ 64 ≤ ofRadix base digits then none else some (ofRadix base digits),
    s.dropWhile (radixDigit · < base))

/-- The base that the second character of a prefix stands for. -/
def baseOf (c : UInt16) : ℕ :=
  if c = unit 'x' ∨ c = unit 'X' then 16
  else if c = unit 'o' ∨ c = unit 'O' then 8
  else if c = unit 'b' ∨ c = unit 'B' then 2
  else 0

/-- The base of a text that starts with a prefix, 0 of any other. -/
def base : Units → ℕ
  | z :: c :: _ :: _ => if z = unit '0' then baseOf c else 0
  | _ => 0

/-- What `strtod` leaves unread from the exponent on: without a digit it is no exponent. -/
def exponentEnd (s : Units) : Units :=
  if s.head? = some (unit 'e') ∨ s.head? = some (unit 'E') then
    let digits :=
      if s.tail.head? = some (unit '+') ∨ s.tail.head? = some (unit '-') then s.tail.tail
      else s.tail
    if digits.takeWhile isDigit = [] then s else digits.dropWhile isDigit
  else s

/-- What `strtod` leaves unread of a text that starts with a decimal. -/
def strtodEnd (s : Units) : Units :=
  exponentEnd (readFraction (s.dropWhile isDigit)).2

/-- A product with the sign `1.0` or `-1.0`. -/
def Number.times (negative : Bool) : Number → Number
  | .nan => .nan
  | .infinity s => .infinity (s ^^ negative)
  | .finite s x => .finite (s ^^ negative) x

/-- The number of an integer, as a cast rounds it. -/
def Number.ofNat (n : ℕ) : Number := .read false n (Nat.cast_nonneg n)

/-- The check before `strtod`: a digit, or a point and a digit. -/
def startsDecimal (digits : Units) : Bool :=
  if digits.head? = some (unit '.') then digits.tail.head?.any isDigit
  else digits.head?.any isDigit

/-- The number of a text without its sign; `strtod` reads all of a decimal or it is none. -/
def unsignedNumber (digits : Units) : Number :=
  if digits = units "Infinity" then .infinity false
  else if digits = [] then .nan
  else if startsDecimal digits = false then .nan
  else if digits.any (units "pPxX").contains then .nan
  else if strtodEnd digits ≠ [] then .nan
  else .read false (decimalValue digits) (decimalValue_nonneg digits)

/-- The number of a text that is trimmed and not empty. -/
def bodyNumber (body : Units) : Number :=
  if body.any (0x7F < ·) then .nan
  else if base body ≠ 0 then
    match fromChars (base body) (body.drop 2) with
    | (some magnitude, []) => .ofNat magnitude
    | _ => .nan
  else
    let signed : Bool := body.head? = some (unit '+') ∨ body.head? = some (unit '-')
    (unsignedNumber (if signed then body.tail else body)).times (body.head? = some (unit '-'))

def trim (s : Units) : Units := (s.dropWhile isEcmaWhitespace).rdropWhile isEcmaWhitespace

/-- The zero of the empty string. -/
def Number.zero : Number := .finite false ⟨0, representable_zero⟩

/-- `stringToNumber`, of the code units of a string. -/
def stringToNumber (s : Units) : Number :=
  if trim s = [] then .zero else bodyNumber (trim s)

/-! ## StringNumericLiteral -/

/-- WhiteSpace, with the space separators of Unicode. -/
def whiteSpace : Units :=
  [0x09, 0x0B, 0x0C, 0xFEFF, 0x20, 0xA0, 0x1680, 0x2000, 0x2001, 0x2002, 0x2003, 0x2004, 0x2005,
    0x2006, 0x2007, 0x2008, 0x2009, 0x200A, 0x202F, 0x205F, 0x3000]

def lineTerminator : Units := [0x0A, 0x0D, 0x2028, 0x2029]

/-- StrWhiteSpace. -/
def Spaces (w : Units) : Prop := ∀ c ∈ w, c ∈ whiteSpace ++ lineTerminator

/-- The mathematical value of a decimal, of its digits around the point and its exponent. -/
def decimalMV (whole fraction exponent : Units) : ℚ :=
  ofDecimal ((whole ++ fraction).map digitValue) *
    (10 : ℚ) ^ (readExponent exponent - fraction.length)

/-- StrUnsignedDecimalLiteral without `Infinity`, and its mathematical value. -/
inductive UnsignedDecimal : Units → ℚ → Prop
  | point {d f e : Units} : Digits d → (∀ c ∈ f, isDigit c = true) → ExponentPart e →
      UnsignedDecimal (d ++ unit '.' :: (f ++ e)) (decimalMV d f e)
  | fraction {f e : Units} : Digits f → ExponentPart e →
      UnsignedDecimal (unit '.' :: (f ++ e)) (decimalMV [] f e)
  | digits {d e : Units} : Digits d → ExponentPart e → UnsignedDecimal (d ++ e) (decimalMV d [] e)

/-- StrUnsignedDecimalLiteral. -/
inductive StrUnsigned : Units → Number → Prop
  | infinity : StrUnsigned (units "Infinity") (.infinity false)
  | decimal {t : Units} {x : ℚ} (h : 0 ≤ x) : UnsignedDecimal t x → StrUnsigned t (.read false x h)

/-- The letter of HexIntegerLiteral, OctalIntegerLiteral or BinaryIntegerLiteral. -/
def Letter (c : UInt16) (base : ℕ) : Prop :=
  base = 16 ∧ c ∈ units "xX" ∨ base = 8 ∧ c ∈ units "oO" ∨ base = 2 ∧ c ∈ units "bB"

/-- NonDecimalIntegerLiteral: its base and its digits. -/
structure Radix (t : Units) (base : ℕ) (digits : Units) : Prop where
  spelled : ∃ c, Letter c base ∧ t = unit '0' :: c :: digits
  digits_ne : digits ≠ []
  digit : ∀ c ∈ digits, radixDigit c < base

/-- StrNumericLiteral. -/
inductive NumericLiteral : Units → Number → Prop
  | unsigned {t : Units} {v : Number} : StrUnsigned t v → NumericLiteral t v
  | plus {t : Units} {v : Number} : StrUnsigned t v → NumericLiteral (unit '+' :: t) v
  | minus {t : Units} {v : Number} : StrUnsigned t v → NumericLiteral (unit '-' :: t) (v.times true)
  | radix {t digits : Units} {base : ℕ} : Radix t base digits →
      NumericLiteral t (.ofNat (ofRadix base digits))

/-- StringNumericLiteral: whitespace alone is zero, and is allowed around a literal. -/
inductive StringNumericLiteral : Units → Number → Prop
  | empty {w : Units} : Spaces w → StringNumericLiteral w .zero
  | literal {w t w' : Units} {v : Number} : Spaces w → NumericLiteral t v → Spaces w' →
      StringNumericLiteral (w ++ (t ++ w')) v

/-- StringToNumber: the number of the literal, NaN where there is none. -/
def Standard (s : Units) (v : Number) : Prop :=
  (∀ v', StringNumericLiteral s v' → v = v') ∧ ((∀ v', ¬StringNumericLiteral s v') → v = .nan)

/-- A literal of a radix that does not fit in 64 bits. -/
def Oversized (s : Units) : Prop :=
  ∃ w t w' base digits, Spaces w ∧ Spaces w' ∧ s = w ++ (t ++ w') ∧ Radix t base digits ∧
    2 ^ 64 ≤ ofRadix base digits

/-! ## The characters of a literal -/

/-- From the plus sign to the letters: no whitespace, and no character that is not ASCII. -/
def Plain (c : UInt16) : Prop := unit '+' ≤ c ∧ c ≤ unit 'z'

instance (c : UInt16) : Decidable (Plain c) := inferInstanceAs (Decidable (_ ∧ _))

section Plain

variable {c : UInt16} {s t digits : Units} {b : ℕ} {v : Number}

/-- **The whitespace of the code** is that of the grammar. -/
theorem isEcmaWhitespace_iff : isEcmaWhitespace c = true ↔ c ∈ whiteSpace ++ lineTerminator := by
  simp only [isEcmaWhitespace, whiteSpace, lineTerminator, contains_eq_mem, mem_append, mem_cons,
    not_mem_nil, or_false, Bool.or_eq_true, Bool.and_eq_true, decide_eq_true_eq,
    UInt16.le_iff_toNat_le, ← UInt16.toNat_inj]
  simp
  omega

theorem Spaces.all (h : Spaces s) : ∀ c ∈ s, isEcmaWhitespace c = true :=
  fun c hc => isEcmaWhitespace_iff.mpr (h c hc)

theorem baseOf_iff : baseOf c = b ∧ b ≠ 0 ↔ Letter c b := by
  constructor
  · rintro ⟨rfl, hne⟩
    rw [baseOf] at hne ⊢
    split_ifs at hne ⊢ with h16 h8 h2
    · exact .inl ⟨rfl, by simpa [units] using h16⟩
    · exact .inr (.inl ⟨rfl, by simpa [units] using h8⟩)
    · exact .inr (.inr ⟨rfl, by simpa [units] using h2⟩)
    · exact absurd rfl hne
  · rintro (⟨rfl, h⟩ | ⟨rfl, h⟩ | ⟨rfl, h⟩)
    all_goals
      simp [units] at h
      rcases h with rfl | rfl <;> decide

theorem Radix.exists_letter (h : Radix t b digits) :
    ∃ c, baseOf c = b ∧ b ≠ 0 ∧ t = unit '0' :: c :: digits := by
  obtain ⟨⟨c, hc, rfl⟩, -⟩ := h
  obtain ⟨hbase, hne⟩ := baseOf_iff.mpr hc
  exact ⟨c, hbase, hne, rfl⟩

theorem plain_iff : Plain c ↔ 0x2B ≤ c.toNat ∧ c.toNat ≤ 0x7A := by
  rw [Plain, UInt16.le_iff_toNat_le, UInt16.le_iff_toNat_le]
  rfl

theorem Plain.not_space (h : Plain c) : isEcmaWhitespace c = false := by
  obtain ⟨hlow, hhigh⟩ := plain_iff.mp h
  rw [Bool.eq_false_iff]
  intro hspace
  simp only [isEcmaWhitespace, contains_eq_mem, mem_cons, not_mem_nil, or_false, Bool.or_eq_true,
    Bool.and_eq_true, decide_eq_true_eq, UInt16.le_iff_toNat_le, ← UInt16.toNat_inj] at hspace
  simp at hspace
  omega

theorem Plain.ascii (h : Plain c) : ¬0x7F < c := by
  rw [UInt16.lt_iff_toNat_lt]
  have := (plain_iff.mp h).2
  simp
  omega

theorem plain_digit (h : isDigit c = true) : Plain c := by
  simp only [isDigit, Bool.and_eq_true, decide_eq_true_eq] at h
  exact ⟨UInt16.le_trans (by decide) h.1, UInt16.le_trans h.2 (by decide)⟩

theorem plain_radixDigit (h : radixDigit c < 36) : Plain c := by
  rw [radixDigit] at h
  split_ifs at h with hdigit hlower hupper
  · exact plain_digit hdigit
  · simp only [Bool.and_eq_true, decide_eq_true_eq] at hlower
    exact ⟨UInt16.le_trans (by decide) hlower.1, hlower.2⟩
  · simp only [Bool.and_eq_true, decide_eq_true_eq] at hupper
    exact ⟨UInt16.le_trans (by decide) hupper.1, UInt16.le_trans hupper.2 (by decide)⟩
  · omega

/-- The characters of a decimal. -/
def Decimal (c : UInt16) : Prop := isDigit c = true ∨ c ∈ units ".eE+-"

theorem decimal_exponent (h : ExponentPart t) : ∀ c ∈ t, Decimal c := by
  rcases h with rfl | ⟨e, sign, d, he, hsign, hd, rfl⟩
  · simp
  · refine forall_mem_cons.mpr ⟨?_, forall_mem_append.mpr ⟨?_, fun c hc => .inl (hd.2 c hc)⟩⟩
    · rcases he with rfl | rfl <;> exact .inr (by decide)
    · rcases hsign with rfl | rfl | rfl <;> simp [Decimal, units]

theorem decimal_unsigned {x : ℚ} (h : UnsignedDecimal t x) : ∀ c ∈ t, Decimal c := by
  have hpoint : Decimal (unit '.') := .inr (by decide)
  have hrest : ∀ {d e : Units}, (∀ c ∈ d, isDigit c = true) → (∀ c ∈ e, Decimal c) →
      ∀ c ∈ d ++ e, Decimal c :=
    fun hd he => forall_mem_append.mpr ⟨fun c hc => .inl (hd c hc), he⟩
  cases h with
  | point hd hf he =>
    exact hrest hd.2 (forall_mem_cons.mpr ⟨hpoint, hrest hf (decimal_exponent he)⟩)
  | fraction hf he => exact forall_mem_cons.mpr ⟨hpoint, hrest hf.2 (decimal_exponent he)⟩
  | digits hd he => exact hrest hd.2 (decimal_exponent he)

theorem plain_of_all (h : t.all (Plain ·) = true) : ∀ c ∈ t, Plain c := by
  simpa using h

/-- A decimal has none of the other letters. -/
theorem Decimal.not_mem (h : Decimal c) {l : Units}
    (hl : l.all (fun c => !isDigit c && !(units ".eE+-").contains c) = true) : c ∉ l := by
  intro hc
  have hno := List.all_eq_true.mp hl c hc
  rcases h with h | h <;> simp [h] at hno

theorem Decimal.plain (h : Decimal c) : Plain c :=
  h.elim plain_digit (plain_of_all (by decide) c)

theorem plain_strUnsigned (h : StrUnsigned t v) : ∀ c ∈ t, Plain c := by
  cases h with
  | infinity => exact plain_of_all (by decide)
  | decimal hx h => exact fun c hc => (decimal_unsigned h c hc).plain

theorem baseOf_cases (h : baseOf c ≠ 0) : baseOf c ≤ 16 ∧ Plain c := by
  rw [baseOf] at h ⊢
  split_ifs at h ⊢ with h16 h8 h2
  · exact ⟨le_rfl, by rcases h16 with rfl | rfl <;> decide⟩
  · exact ⟨by norm_num, by rcases h8 with rfl | rfl <;> decide⟩
  · exact ⟨by norm_num, by rcases h2 with rfl | rfl <;> decide⟩
  · exact absurd rfl h

theorem Radix.plain (h : Radix t b digits) : ∀ c ∈ t, Plain c := by
  obtain ⟨c, rfl, hne, rfl⟩ := h.exists_letter
  obtain ⟨hle, hplain⟩ := baseOf_cases hne
  intro c' hc'
  rcases mem_cons.mp hc' with rfl | hc'
  · decide
  rcases mem_cons.mp hc' with rfl | hc'
  · exact hplain
  · exact plain_radixDigit ((h.digit c' hc').trans_le (hle.trans (by norm_num)))

theorem plain_literal (h : NumericLiteral t v) : t ≠ [] ∧ ∀ c ∈ t, Plain c := by
  cases h with
  | unsigned h =>
    refine ⟨?_, plain_strUnsigned h⟩
    cases h with
    | infinity => decide
    | decimal hx h =>
      cases h with
      | point hd => simp
      | fraction hf => simp
      | digits hd => exact append_ne_nil_of_left_ne_nil hd.1 _
  | plus h => exact ⟨cons_ne_nil _ _, forall_mem_cons.mpr ⟨by decide, plain_strUnsigned h⟩⟩
  | minus h => exact ⟨cons_ne_nil _ _, forall_mem_cons.mpr ⟨by decide, plain_strUnsigned h⟩⟩
  | radix h =>
    refine ⟨?_, h.plain⟩
    obtain ⟨⟨c, -, rfl⟩, -⟩ := h
    exact cons_ne_nil _ _

/-- **What is trimmed away** is the whitespace around a text without whitespace. -/
theorem trim_eq {w w' : Units} (hw : Spaces w) (hw' : Spaces w') (hne : t ≠ [])
    (h : ∀ c ∈ t, Plain c) : trim (w ++ (t ++ w')) = t := by
  obtain ⟨c, r, rfl⟩ := exists_cons_of_ne_nil hne
  have hfirst := (h c mem_cons_self).not_space
  rw [trim, dropWhile_append_of_pos hw.all, cons_append, dropWhile_cons_of_neg (by simp [hfirst]),
    ← cons_append]
  have hlast : rdropWhile isEcmaWhitespace (c :: r) = c :: r := by
    rw [rdropWhile_eq_self_iff]
    intro hl
    rw [(h _ (getLast_mem hl)).not_space]
    exact Bool.false_ne_true
  rw [rdropWhile, reverse_append, dropWhile_append_of_pos fun c hc => hw'.all c (mem_reverse.mp hc)]
  exact hlast

theorem exists_trim (s : Units) : ∃ w w', Spaces w ∧ Spaces w' ∧ s = w ++ (trim s ++ w') := by
  refine ⟨s.takeWhile isEcmaWhitespace, (s.dropWhile isEcmaWhitespace).rtakeWhile isEcmaWhitespace,
    fun c hc => isEcmaWhitespace_iff.mp (mem_takeWhile_imp hc), fun c hc => ?_, ?_⟩
  · exact isEcmaWhitespace_iff.mp (mem_takeWhile_imp (mem_reverse.mp hc))
  · rw [trim, rdropWhile_append_rtakeWhile, takeWhile_append_dropWhile]

end Plain

/-! ## Decimals are read whole -/

section Decimals

variable {t d f e : Units} {x : ℚ}

/-- What stands after digits: nothing, or no digit. -/
def Stops (r : Units) : Prop := ∀ c ∈ r.head?, isDigit c = false

theorem Stops.split {r : Units} (hr : Stops r) (hd : ∀ c ∈ d, isDigit c = true) :
    (d ++ r).takeWhile isDigit = d ∧ (d ++ r).dropWhile isDigit = r := by
  rw [takeWhile_append_of_pos hd, dropWhile_append_of_pos hd]
  cases r with
  | nil => simp
  | cons c r => simp [hr c rfl]

theorem Stops.any {r : Units} (hr : Stops r) : r.head?.any isDigit = false := by
  cases r with
  | nil => rfl
  | cons c r => exact hr c rfl

theorem exponent_head (h : ExponentPart e) :
    Stops e ∧ e.head? ≠ some (unit '.') ∧ exponentEnd e = [] := by
  rcases h with rfl | ⟨c, sign, digits, hc, hsign, hdigits, rfl⟩
  · exact ⟨fun _ h => (by cases h), by simp, by simp [exponentEnd]⟩
  · refine ⟨fun c' h => ?_, fun h => ?_, ?_⟩
    · obtain rfl : c = c' := by simpa using h
      rcases hc with rfl | rfl <;> rfl
    · obtain rfl : c = unit '.' := by simpa using h
      rcases hc with hc | hc <;> exact absurd hc (by decide)
    · obtain ⟨first, rest, rfl⟩ := exists_cons_of_ne_nil hdigits.1
      have hfirst := hdigits.2 first mem_cons_self
      have hplus : first ≠ unit '+' := by rintro rfl; exact absurd hfirst (by decide)
      have hminus : first ≠ unit '-' := by rintro rfl; exact absurd hfirst (by decide)
      have hall : (first :: rest).dropWhile isDigit = [] := dropWhile_eq_nil_iff.mpr hdigits.2
      rw [exponentEnd, if_pos (by simpa using hc)]
      rcases hsign with rfl | rfl | rfl <;> simp [hplus, hminus, hfirst, hall]

/-- The exponent that is read to the end. -/
theorem exponent_of_end (h : exponentEnd e = []) : ExponentPart e := by
  by_cases hc : e.head? = some (unit 'e') ∨ e.head? = some (unit 'E')
  · obtain ⟨c, r, rfl⟩ : ∃ c r, e = c :: r := by
      cases e with
      | nil => simp at hc
      | cons c r => exact ⟨c, r, rfl⟩
    rw [exponentEnd, if_pos hc] at h
    obtain ⟨sign, digits, rfl, hsign, hdigits⟩ : ∃ sign digits, r = sign ++ digits ∧
        (sign = [] ∨ sign = [unit '+'] ∨ sign = [unit '-']) ∧
        (if digits.takeWhile isDigit = [] then c :: r else digits.dropWhile isDigit) = [] := by
      by_cases hs : (c :: r).tail.head? = some (unit '+') ∨ (c :: r).tail.head? = some (unit '-')
      · cases r with
        | nil => simp at hs
        | cons sign r =>
          rw [if_pos hs] at h
          exact ⟨[sign], r, rfl, .inr (by simpa using hs), h⟩
      · rw [if_neg hs] at h
        exact ⟨[], r, rfl, .inl rfl, h⟩
    split_ifs at hdigits with hnone
    refine .inr ⟨c, sign, digits, by simpa using hc, hsign, ⟨?_, ?_⟩, rfl⟩
    · rintro rfl
      exact hnone rfl
    · exact dropWhile_eq_nil_iff.mp hdigits
  · rw [exponentEnd, if_neg hc] at h
    exact .inl h

/-- Digits, a point with digits or none, and the rest. -/
theorem decimal_parts (t : Units) : ∃ d f r, (∀ c ∈ d, isDigit c = true) ∧
    (∀ c ∈ f, isDigit c = true) ∧ strtodEnd t = exponentEnd r ∧ decimalValue t = decimalMV d f r ∧
      (t = d ++ unit '.' :: (f ++ r) ∨ t = d ++ r ∧ f = [] ∧ r.head? ≠ some (unit '.')) := by
  have hsplit := takeWhile_append_dropWhile (p := isDigit) (l := t)
  generalize hr : t.dropWhile isDigit = r at hsplit
  by_cases hpoint : r.head? = some (unit '.')
  · obtain ⟨q, rfl⟩ : ∃ q, r = unit '.' :: q := by
      cases r with
      | nil => cases hpoint
      | cons c q => exact ⟨q, by simpa using hpoint⟩
    refine ⟨t.takeWhile isDigit, q.takeWhile isDigit, q.dropWhile isDigit,
      fun c => mem_takeWhile_imp, fun c => mem_takeWhile_imp, ?_, ?_, .inl ?_⟩
    · rw [strtodEnd, hr, readFraction, if_pos hpoint]
      rfl
    · simp [decimalValue, decimalMV, hr, readFraction, leadingDigits]
    · rw [takeWhile_append_dropWhile, hsplit]
  · refine ⟨t.takeWhile isDigit, [], r, fun c => mem_takeWhile_imp, ?_, ?_, ?_,
      .inr ⟨hsplit.symm, rfl, hpoint⟩⟩
    · simp
    · rw [strtodEnd, hr, readFraction, if_neg hpoint]
    · simp [decimalValue, decimalMV, hr, readFraction, hpoint, leadingDigits]

section

variable (hd : ∀ c ∈ d, isDigit c = true) (he : ExponentPart e)

include hd he

theorem read_point (hf : ∀ c ∈ f, isDigit c = true) :
    strtodEnd (d ++ unit '.' :: (f ++ e)) = [] ∧
      decimalValue (d ++ unit '.' :: (f ++ e)) = decimalMV d f e := by
  have hpoint : Stops (unit '.' :: (f ++ e)) := by simp [Stops]; decide
  obtain ⟨htake, hdrop⟩ := hpoint.split hd
  obtain ⟨hstops, -, hend⟩ := exponent_head he
  obtain ⟨htake', hdrop'⟩ := hstops.split hf
  constructor
  · simp [strtodEnd, hdrop, readFraction, hdrop', hend]
  · simp [decimalValue, decimalMV, leadingDigits, htake, hdrop, readFraction, htake', hdrop']

theorem read_digits : strtodEnd (d ++ e) = [] ∧ decimalValue (d ++ e) = decimalMV d [] e := by
  obtain ⟨hstops, hpoint, hend⟩ := exponent_head he
  obtain ⟨htake, hdrop⟩ := hstops.split hd
  constructor
  · simp [strtodEnd, hdrop, readFraction, hpoint, hend]
  · simp [decimalValue, decimalMV, leadingDigits, htake, hdrop, readFraction, hpoint]

end

theorem starts_digits (hd : Digits d) (r : Units) : startsDecimal (d ++ r) = true := by
  obtain ⟨c, d, rfl⟩ := exists_cons_of_ne_nil hd.1
  have hc := hd.2 c mem_cons_self
  have hpoint : c ≠ unit '.' := by
    rintro rfl
    exact absurd hc (by decide)
  simp [startsDecimal, hpoint, hc]

theorem unsigned_read (h : UnsignedDecimal t x) :
    startsDecimal t = true ∧ strtodEnd t = [] ∧ decimalValue t = x := by
  cases h with
  | point hd hf he => exact ⟨starts_digits hd _, read_point hd.2 he hf⟩
  | @fraction f e hf he =>
    refine ⟨?_, @read_point [] f e (by simp) he hf.2⟩
    obtain ⟨c, r, rfl⟩ := exists_cons_of_ne_nil hf.1
    exact hf.2 c mem_cons_self
  | digits hd he => exact ⟨starts_digits hd _, read_digits hd.2 he⟩

/-- **A decimal is read whole.** -/
theorem unsignedNumber_decimal (hx : 0 ≤ x) (h : UnsignedDecimal t x) :
    unsignedNumber t = .read false x hx := by
  obtain ⟨hstarts, hend, rfl⟩ := unsigned_read h
  have hletters : t.any (units "pPxX").contains = false :=
    any_eq_false.mpr fun c hc => by simpa using (decimal_unsigned h c hc).not_mem (by decide)
  rw [unsignedNumber, if_neg, if_neg, hstarts, if_neg (by decide), hletters,
    if_neg Bool.false_ne_true, if_neg (not_not_intro hend)]
  · rintro rfl
    cases hstarts
  · rintro rfl
    exact absurd hstarts (by decide)

/-- **What is read whole is a decimal.** -/
theorem strUnsigned_of_number (h : unsignedNumber t ≠ .nan) : StrUnsigned t (unsignedNumber t) := by
  rw [unsignedNumber] at h ⊢
  split_ifs at h ⊢ with hname hnil hstarts hletters hend
  all_goals first | exact absurd rfl h | skip
  · rw [hname]
    exact .infinity
  refine .decimal _ ?_
  obtain ⟨d, f, r, hd, hf, hend', hvalue, hsplit⟩ := decimal_parts t
  have he : ExponentPart r := exponent_of_end (hend' ▸ not_not.mp hend)
  obtain ⟨hstops, -, -⟩ := exponent_head he
  rw [hvalue]
  rcases hsplit with rfl | ⟨rfl, rfl, hne⟩
  · by_cases hdnil : d = []
    · subst hdnil
      refine .fraction ⟨?_, hf⟩ he
      rintro rfl
      exact hstarts hstops.any
    · exact .point ⟨hdnil, hd⟩ hf he
  · refine .digits ⟨?_, hd⟩ he
    rintro rfl
    exact hstarts ((if_neg hne).trans hstops.any)

end Decimals

/-! ## The body -/

section Body

variable {s t digits : Units} {b : ℕ} {c : UInt16} {v : Number}

theorem Number.times_false (v : Number) : v.times false = v := by
  cases v <;> simp [Number.times]

theorem Number.read_ne_nan {x : ℚ} {hx : 0 ≤ x} : Number.read false x hx ≠ .nan := by
  rw [Number.read]
  split <;> simp

theorem Number.times_ne_nan {negative : Bool} (h : v ≠ .nan) : v.times negative ≠ .nan := by
  cases v <;> simp_all [Number.times]

theorem ne_nan_of_literal (h : NumericLiteral t v) : v ≠ .nan := by
  have hunsigned : ∀ {t v}, StrUnsigned t v → v ≠ .nan := by
    rintro t v (_ | _)
    · simp
    · exact Number.read_ne_nan
  cases h with
  | unsigned h => exact hunsigned h
  | plus h => exact hunsigned h
  | minus h => exact Number.times_ne_nan (hunsigned h)
  | radix h => exact Number.read_ne_nan

theorem baseOf_decimal (h : Decimal c) : baseOf c = 0 := by
  have hno : c ∉ units "xXoObB" := h.not_mem (by decide)
  simp only [units] at hno
  simp_all [baseOf]

theorem base_of_head (h : t.head? ≠ some (unit '0')) : base t = 0 := by
  unfold base
  split
  · exact if_neg (by simpa using h)
  · rfl

/-- A text without a sign goes to `strtod`. -/
theorem base_unsigned (h : StrUnsigned t v) :
    base t = 0 ∧ t.head? ≠ some (unit '+') ∧ t.head? ≠ some (unit '-') := by
  cases h with
  | infinity => decide
  | decimal hx h =>
    have hstarts := (unsigned_read h).1
    have hhead : ∀ c, isDigit c = false → c ≠ unit '.' → t.head? ≠ some c := by
      intro c hc hpoint heq
      simp [startsDecimal, heq, hc, hpoint] at hstarts
    refine ⟨?_, hhead _ rfl (by decide), hhead _ rfl (by decide)⟩
    · unfold base
      split
      · next c' _ _ => rw [baseOf_decimal (decimal_unsigned h c' (by simp)), ite_self]
      · rfl

theorem Radix.base_eq (h : Radix t b digits) : b ≠ 0 ∧ base t = b ∧ fromChars b (t.drop 2) =
    (if 2 ^ 64 ≤ ofRadix b digits then none else some (ofRadix b digits), []) := by
  obtain ⟨c, rfl, hbase, rfl⟩ := h.exists_letter
  obtain ⟨-, hne, hdigit⟩ := h
  obtain ⟨x, r, rfl⟩ := exists_cons_of_ne_nil hne
  have htake : (x :: r).takeWhile (radixDigit · < baseOf c) = x :: r :=
    takeWhile_eq_self_iff.mpr (by simpa using hdigit)
  have hdrop : (x :: r).dropWhile (radixDigit · < baseOf c) = [] :=
    dropWhile_eq_nil_iff.mpr (by simpa using hdigit)
  refine ⟨hbase, (if_pos rfl : (if unit '0' = unit '0' then baseOf c else 0) = _), ?_⟩
  simp only [fromChars, drop_succ_cons, drop_zero, htake, hdrop, hne, false_or]

theorem ascii_body (h : ∀ c ∈ t, Plain c) : t.any (0x7F < ·) = false :=
  any_eq_false.mpr fun c hc => by simpa using (h c hc).ascii

/-- **Every literal is accepted** with its number, one of a radix if it fits. -/
theorem bodyNumber_of_literal (h : NumericLiteral t v)
    (hfits : ∀ b digits, Radix t b digits → ofRadix b digits < 2 ^ 64) : bodyNumber t = v := by
  have hunsigned : ∀ {t v}, StrUnsigned t v → unsignedNumber t = v := by
    rintro t v (_ | ⟨hx, h⟩)
    · rfl
    · exact unsignedNumber_decimal hx h
  rw [bodyNumber, ascii_body (plain_literal h).2, if_neg Bool.false_ne_true]
  cases h with
  | unsigned h =>
    obtain ⟨hbase, hplus, hminus⟩ := base_unsigned h
    simp [hbase, hplus, hminus, hunsigned h, Number.times_false]
  | @plus t v h =>
    have hbase : base (unit '+' :: t) = 0 := base_of_head (by simp; decide)
    simp [hbase, hunsigned h, show unit '+' ≠ unit '-' by decide, Number.times_false]
  | @minus t v h =>
    have hbase : base (unit '-' :: t) = 0 := base_of_head (by simp; decide)
    simp [hbase, hunsigned h]
  | radix h =>
    obtain ⟨hne, hbase, hread⟩ := h.base_eq
    rw [if_neg (not_le.mpr (hfits _ _ h))] at hread
    simp [hbase, hread, hne]

/-- **What is accepted is a literal.** -/
theorem literal_of_bodyNumber (h : bodyNumber t ≠ .nan) : NumericLiteral t (bodyNumber t) := by
  rw [bodyNumber] at h ⊢
  split_ifs at h ⊢ with hascii hbase
  · exact absurd rfl h
  · obtain ⟨c, x, r, rfl, heq⟩ : ∃ c x r, t = unit '0' :: c :: x :: r ∧ base t = baseOf c := by
      unfold base at hbase ⊢
      split at hbase
      · next z c x r =>
        split_ifs at hbase with hz
        · exact ⟨c, x, r, by rw [hz], if_pos hz⟩
        · exact absurd rfl hbase
      · exact absurd rfl hbase
    rw [heq] at h hbase ⊢
    split at h
    · next m hread =>
      obtain ⟨hm, hdrop⟩ := Prod.mk.inj hread
      have hdigits : ∀ d ∈ x :: r, radixDigit d < baseOf c := by simpa using hdrop
      have htake : (x :: r).takeWhile (radixDigit · < baseOf c) = x :: r :=
        takeWhile_eq_self_iff.mpr (by simpa using hdigits)
      simp only [drop_succ_cons, drop_zero, htake, ite_eq_iff, reduceCtorEq, and_false,
        false_or] at hm
      rw [← Option.some.inj hm.2]
      exact .radix ⟨⟨c, baseOf_iff.mp ⟨rfl, hbase⟩, rfl⟩, cons_ne_nil x r, hdigits⟩
    · exact absurd rfl h
  · have hne : ∀ {n : Number} {negative}, n.times negative ≠ .nan → n ≠ .nan := by
      rintro _ _ h rfl
      exact h rfl
    cases t with
    | nil => exact absurd rfl h
    | cons c r =>
      by_cases hplus : c = unit '+'
      · subst hplus
        simpa [show unit '+' ≠ unit '-' by decide, Number.times_false] using
          NumericLiteral.plus (strUnsigned_of_number (hne h))
      by_cases hminus : c = unit '-'
      · subst hminus
        simpa using NumericLiteral.minus (strUnsigned_of_number (hne h))
      · simp only [head?_cons, Option.some.injEq, hplus, hminus, or_self, decide_false,
          Bool.false_eq_true, if_false, Number.times_false] at h ⊢
        exact .unsigned (strUnsigned_of_number h)

/-! ## Strings -/

theorem trim_literal {w w' : Units} (hw : Spaces w) (hw' : Spaces w') (h : NumericLiteral t v) :
    stringToNumber (w ++ (t ++ w')) = bodyNumber t := by
  obtain ⟨hne, hplain⟩ := plain_literal h
  rw [stringToNumber, trim_eq hw hw' hne hplain, if_neg hne]

/-- A literal that does not fit is not a number to `stringToNumber`. -/
theorem not_standard_of_oversized (h : Oversized s) : ¬Standard s (stringToNumber s) := by
  obtain ⟨w, t, w', b, digits, hw, hw', rfl, hradix, hlarge⟩ := h
  have hnan : bodyNumber t = .nan := by
    obtain ⟨hne, hbase, hread⟩ := hradix.base_eq
    rw [if_pos hlarge] at hread
    rw [bodyNumber, ascii_body hradix.plain]
    simp [hbase, hread, hne]
  have hliteral := NumericLiteral.radix hradix
  rw [trim_literal hw hw' hliteral, hnan]
  exact fun h => ne_nan_of_literal hliteral (h.1 _ (.literal hw hliteral hw')).symm

/-- **A string is converted as the standard does**, unless it is a literal of a radix that is
`2 ^ 64` or more. -/
theorem stringToNumber_iff (s : Units) : Standard s (stringToNumber s) ↔ ¬Oversized s := by
  refine ⟨fun h hlarge => not_standard_of_oversized hlarge h, fun hfits => ?_⟩
  refine ⟨fun v h => ?_, fun hnone => not_not.mp fun hne => ?_⟩
  · cases h with
    | empty hw =>
      have htrim : trim s = [] := by
        rw [trim, dropWhile_eq_nil_iff.mpr hw.all, rdropWhile_nil]
      rw [stringToNumber, if_pos htrim]
    | @literal w t w' v hw h hw' =>
      rw [trim_literal hw hw' h, bodyNumber_of_literal h fun b digits hradix => ?_]
      exact not_le.mp fun hle => hfits ⟨w, t, w', b, digits, hw, hw', rfl, hradix, hle⟩
  · obtain ⟨w, w', hw, hw', hs⟩ := exists_trim s
    rw [stringToNumber] at hne
    split_ifs at hne with htrim
    · rw [htrim] at hs
      refine hnone _ (.empty (w := s) ?_)
      rw [hs]
      exact forall_mem_append.mpr ⟨hw, hw'⟩
    · rw [hs] at hnone
      exact hnone _ (.literal hw (literal_of_bodyNumber hne) hw')

theorem stringToNumber_long : ¬Standard (units "0x10000000000000000")
    (stringToNumber (units "0x10000000000000000")) :=
  not_standard_of_oversized ⟨[], units "0x10000000000000000", [], 16, units "10000000000000000",
    by simp [Spaces], by simp [Spaces], by simp,
    ⟨⟨unit 'x', .inl ⟨rfl, by decide⟩, rfl⟩, by decide, by simp [units]; decide⟩, by decide⟩

end Body

end Bronze.Json
