import Bronze.Regex.Canonicalize
import Bronze.Regex.Correspondence

/-!
# Backreferences up to case

`matchBackreference` of `src/regex/matcher.cpp` compares the text of a capture with as many units
beside the position. By the standard it compares character by character, after Canonicalize; a
literal of the same text would be compared by `charMatches`. Forward, and backward where the
comparison does not start inside a surrogate pair, it is the comparison of characters, by a relation
that is wider than both where the `i` flag stands alone.

## Main results

* `Matcher.backreferenceStep_iff`: the units are compared character by character
* `Matcher.beside_iff`: the characters beside a position begin between characters
* `Matcher.meetsStandard_iff`: when a backreference is the standard's and the literal's
-/

namespace Bronze.Regex

open List Option Semantics CodePointStep

/-! ## The characters from a position on -/

section Suffixes

variable {unicode : Bool} {input : List UInt16} {chars : List CodePointStep} {p i k : Nat}

theorem unitAt_drop (input : List UInt16) (p i : Nat) :
    unitAt (input.drop p) i = unitAt input (p + i) := by
  rw [unitAt, unitAt, getElem?_drop]

theorem codePointAt_drop (hi : i < (input.drop p).length) :
    codePointAt (input.drop p) i unicode = codePointAt input (p + i) unicode := by
  have hlast : i + 1 ≥ (input.drop p).length ↔ p + i + 1 ≥ input.length := by
    rw [length_drop] at hi ⊢
    omega
  simp only [codePointAt, unitAt_drop, hlast, Nat.add_assoc]

theorem insidePair_drop (hi : 0 < i) (hp : p ≤ input.length) :
    insidePair (input.drop p) unicode i = insidePair input unicode (p + i) := by
  have hlt : i < (input.drop p).length ↔ p + i < input.length := by
    rw [length_drop]
    omega
  have hpred : p + (i - 1) = p + i - 1 := by omega
  simp only [insidePair, unitAt_drop, hlt, hpred, hi, Nat.add_pos_right p hi]

variable (chars : List CodePointStep)

theorem offset_take (i k : Nat) (hi : i ≤ k) : offset (chars.take k) i = offset chars i := by
  induction chars generalizing i k with
  | nil => rw [take_nil]
  | cons c chars ih =>
    cases i with
    | zero => rw [offset_zero, offset_zero]
    | succ i =>
      cases k with
      | zero => exact absurd hi (Nat.not_succ_le_zero i)
      | succ k => rw [take_succ_cons, offset, offset, ih i k (Nat.le_of_succ_le_succ hi)]

theorem offset_drop (i k : Nat) :
    offset chars (i + k) = offset chars i + offset (chars.drop i) k := by
  induction chars generalizing i with
  | nil =>
    cases i <;> cases k <;> rfl
  | cons c chars ih =>
    cases i with
    | zero => rw [Nat.zero_add, offset_zero, drop_zero, Nat.zero_add]
    | succ i => rw [Nat.succ_add, offset, offset, drop_succ_cons, ih, Nat.add_assoc]

theorem characters_drop (unicode : Bool) (input : List UInt16) (i : Nat) :
    characters unicode (input.drop (offset (characters unicode input) i)) =
      (characters unicode input).drop i := by
  induction input using characters.induct unicode generalizing i with
  | case1 => simp [characters]
  | case2 u => cases i <;> simp [characters, offset]
  | case3 u v rest hpair ih =>
    rw [characters, if_pos hpair]
    cases i with
    | zero => rw [offset_zero, drop_zero, drop_zero, characters, if_pos hpair]
    | succ i =>
      rw [offset, Nat.add_comm]
      exact ih i
  | case4 u v rest hpair ih =>
    rw [characters, if_neg hpair]
    cases i with
    | zero => rw [offset_zero, drop_zero, drop_zero, characters, if_neg hpair]
    | succ i =>
      rw [offset, Nat.add_comm]
      exact ih i

theorem characters_take (i : Nat) :
    characters unicode (input.take (offset (characters unicode input) i)) =
      (characters unicode input).take i := by
  induction input using characters.induct unicode generalizing i with
  | case1 => simp [characters]
  | case2 u => cases i <;> simp [characters, offset]
  | case3 u v rest hpair ih =>
    rw [characters, if_pos hpair]
    cases i with
    | zero => rw [offset_zero, take_zero, take_zero, characters]
    | succ i =>
      rw [offset, Nat.add_comm, take_succ_cons, ← ih]
      exact if_pos hpair
  | case4 u v rest hpair ih =>
    rw [characters, if_neg hpair]
    cases i with
    | zero => rw [offset_zero, take_zero, take_zero, characters]
    | succ i =>
      have ih := ih i
      rw [offset, Nat.add_comm, take_succ_cons, take_succ_cons]
      cases hn : offset (characters unicode (v :: rest)) i with
      | zero =>
        rw [hn, take_zero] at ih
        rw [take_zero, ← ih, characters, characters]
      | succ n =>
        rw [hn, take_succ_cons] at ih
        rw [take_succ_cons, characters, if_neg hpair, ih]

theorem width_of_mem {c : CodePointStep} (hc : c ∈ characters unicode input) :
    c.width = if c.code < 0x10000 then 1 else 2 := by
  obtain ⟨i, hi⟩ := getElem?_of_mem hc
  rcases unit_of_character hi with ⟨hone, -⟩ | ⟨-, -, -, htwo⟩
  · rw [hone]
    exact (if_pos (unitAt_lt ..)).symm
  · rw [htwo]
    exact (if_neg (Nat.not_lt.mpr (Matcher.combineSurrogates_ge ..))).symm

end Suffixes

/-- The characters of two texts relate one by one. -/
def Related (rel : Nat → Nat → Bool) (text found : List Nat) : Prop :=
  List.Forall₂ (fun a b => rel a b = true) text found

section Related

variable {rel rel' : Nat → Nat → Bool} {text found : List Nat} {a b : Nat}

theorem related_cons :
    Related rel (a :: text) (b :: found) ↔ rel a b = true ∧ Related rel text found :=
  forall₂_cons

theorem related_reverse : Related rel text.reverse found.reverse ↔ Related rel text found :=
  forall₂_reverse_iff

theorem Related.imp (h : ∀ a b, rel a b = true → rel' a b = true) (hall : Related rel text found) :
    Related rel' text found :=
  Forall₂.imp h hall

end Related

namespace Matcher

variable (m : Matcher)

/-- The characters between two positions. -/
def between (first last : Nat) : List Nat :=
  (characters m.unicode ((m.input.drop first).take (last - first))).map CodePointStep.code

/-- Whether a group participated, in the slots of its capture. -/
def isSet (captures : Nat → Int) (index : Nat) : Bool :=
  captures (2 * index) ≠ kUnset && captures (2 * index + 1) ≠ kUnset

def capturedLength (captures : Nat → Int) (index : Nat) : Nat :=
  if isSet captures index then (captures (2 * index + 1) - captures (2 * index)).toNat else 0

/-- The characters of a capture, and none where the group did not participate. -/
def captured (captures : Nat → Int) (index : Nat) : List Nat :=
  if isSet captures index then
    m.between (captures (2 * index)).toNat (captures (2 * index + 1)).toNat
  else []

/-- The position behind as many characters as a text has, if they relate to them one by one. -/
def alongside (rel : Nat → Nat → Bool) (backward : Bool) : List Nat → Nat → Option Nat
  | [], pos => some pos
  | ch :: text, pos =>
    match m.consume pos backward with
    | none => none
    | some (found, next) => if rel ch found then alongside rel backward text next else none

/-- The position behind or before a text, up to a relation. -/
def beside (rel : Nat → Nat → Bool) (text : List Nat) (pos : Nat) (backward : Bool) : Option Nat :=
  m.alongside rel backward (if backward then text.reverse else text) pos

/-- Canonicalize takes the characters together. -/
def standardAgrees (toUppercase : Nat → List Nat) (ch found : Nat) : Bool :=
  Semantics.canonicalize toUppercase m.tables.simpleCaseFold m.flags ch ==
    Semantics.canonicalize toUppercase m.tables.simpleCaseFold m.flags found

/-- A `Char` node for the one character matches the other. -/
def literalAgrees (ch found : Nat) : Bool := m.singleCharMatches (.char (m.canonical ch)) found

/-- **What is expected of a backreference**: it goes over the characters beside the position, one
for a character of the capture, where Canonicalize takes them together; and so does the text of the
capture, spelled in the pattern. -/
structure MeetsStandard (toUppercase : Nat → List Nat) (captures : Nat → Int) (index pos : Nat)
    (backward : Bool) : Prop where
  standard : (m.backreferenceStep captures index pos backward).map Prod.fst =
    m.beside (m.standardAgrees toUppercase) (m.captured captures index) pos backward
  literal : (∀ ch ∈ m.captured captures index, refusesLiteral m.flags ch = false) →
    (m.backreferenceStep captures index pos backward).map Prod.fst =
      m.beside m.literalAgrees (m.captured captures index) pos backward

/-- What passes for the same character in the loop of `matchBackreference`. -/
def folds (a b : Nat) : Bool :=
  m.canonical a == m.canonical b ||
    (m.flags.ignoreCase && m.tables.simpleCaseFold a == m.tables.simpleCaseFold b)

/-- Where the comparison starts. -/
def comparedFrom (captures : Nat → Int) (index pos : Nat) (backward : Bool) : Nat :=
  if backward then pos - capturedLength captures index else pos

def resumesAt (captures : Nat → Int) (index pos : Nat) (backward : Bool) : Nat :=
  if backward then pos - capturedLength captures index
  else pos + capturedLength captures index

/-- As many units beside the position as the capture has. -/
def compared (captures : Nat → Int) (index pos : Nat) (backward : Bool) : List Nat :=
  m.between (comparedFrom captures index pos backward)
    (comparedFrom captures index pos backward + capturedLength captures index)

/-- There is room for the units of the capture. -/
def HasRoom (captures : Nat → Int) (index pos : Nat) (backward : Bool) : Prop :=
  if backward then capturedLength captures index ≤ pos
  else pos + capturedLength captures index ≤ m.input.length

/-- There is a text at the position, of as many units as the capture, that resembles it: each of
its characters has the same canonical form or the same simple folding. -/
def Resembles (captures : Nat → Int) (index pos : Nat) (backward : Bool) : Prop :=
  m.HasRoom captures index pos backward ∧
    Related m.folds (m.captured captures index)
      (m.compared captures index pos backward)

/-- The comparison starts between the halves of a pair. -/
def StartsInside (captures : Nat → Int) (index pos : Nat) (backward : Bool) : Prop :=
  backward = true ∧
    insidePair m.input m.unicode (comparedFrom captures index pos backward) = true

/-- The `i` flag stands alone, and the two texts are different for the standard or for a
literal. -/
def FoldsApart (toUppercase : Nat → List Nat) (text found : List Nat) : Prop :=
  m.flags.ignoreCase = true ∧ m.unicode = false ∧
    (¬Related (m.standardAgrees toUppercase) text found ∨
      (∀ ch ∈ text, refusesLiteral m.flags ch = false) ∧
        ¬Related m.literalAgrees text found)

/-- A capture of a range of the input that ends between characters. -/
structure Captured (captures : Nat → Int) (index : Nat) : Prop where
  start_nonneg : 0 ≤ captures (2 * index)
  start_le : captures (2 * index) ≤ captures (2 * index + 1)
  le_length : captures (2 * index + 1) ≤ m.input.length
  between : insidePair m.input m.unicode (captures (2 * index + 1)).toNat = false

/-- A relation takes no character of one unit for one of two. -/
def KeepsWidth (rel : Nat → Nat → Bool) : Prop :=
  m.unicode = true → ∀ a b, rel a b = true → (a < 0x10000 ↔ b < 0x10000)

/-! ## The loop -/

section Loop

variable {m} {rel : Nat → Nat → Bool}

/-- The codes of the first characters from a position on. -/
def ahead (m : Matcher) (pos k : Nat) : List Nat :=
  ((characters m.unicode (m.input.drop pos)).take k).map CodePointStep.code

theorem length_ahead (pos k : Nat) :
    (m.ahead pos k).length = min k (characters m.unicode (m.input.drop pos)).length := by
  rw [ahead, length_map, length_take]

variable {s : List UInt16} {pos first i k : Nat}

theorem width_eq_one (hunicode : m.unicode = false) {c : CodePointStep}
    (hc : c ∈ characters m.unicode s) : c.width = 1 := by
  obtain ⟨i, hi⟩ := getElem?_of_mem hc
  rcases unit_of_character hi with ⟨hone, -⟩ | ⟨htrue, -⟩
  · rw [hone]
  · rw [hunicode] at htrue
    cases htrue

variable {a b : CodePointStep} {t : List UInt16}

theorem KeepsWidth.width_eq (h : m.KeepsWidth rel) (ha : a ∈ characters m.unicode s)
    (hb : b ∈ characters m.unicode t) (hrel : rel a.code b.code = true) : a.width = b.width := by
  cases hunicode : m.unicode with
  | false => rw [width_eq_one hunicode ha, width_eq_one hunicode hb]
  | true => simp [width_of_mem ha, width_of_mem hb, h hunicode _ _ hrel]

/-- **Related texts are of one length in units.** -/
theorem KeepsWidth.offset_eq (h : m.KeepsWidth rel) {as bs : List CodePointStep}
    (has : ∀ a ∈ as, a ∈ characters m.unicode s) (hbs : ∀ b ∈ bs, b ∈ characters m.unicode t)
    (hrel : Related rel (as.map code) (bs.map code)) (k : Nat) :
    offset as k = offset bs k := by
  induction as generalizing bs k with
  | nil =>
    cases bs with
    | nil => rfl
    | cons b bs => cases hrel
  | cons a as ih =>
    cases bs with
    | nil => cases hrel
    | cons b bs =>
      obtain ⟨hab, hrel⟩ := related_cons.mp hrel
      obtain ⟨ha, has⟩ := forall_mem_cons.mp has
      obtain ⟨hb, hbs⟩ := forall_mem_cons.mp hbs
      cases k with
      | zero => rfl
      | succ k => rw [offset, offset, ih has hbs hrel, h.width_eq ha hb hab]

section

variable (hpos : pos < m.input.length)

include hpos

theorem characters_cons : characters m.unicode (m.input.drop pos) =
      m.characterAt pos ::
        characters m.unicode (m.input.drop (pos + (m.characterAt pos).width)) := by
  have hlt : 0 < (m.input.drop pos).length := by
    rw [length_drop]
    omega
  have hchars : 0 < (characters m.unicode (m.input.drop pos)).length := by
    rw [← offset_lt_length_iff (i := 0), offset_zero]
    exact hlt
  have hread := codePointAt_offset (getElem?_eq_getElem hchars)
  rw [offset_zero, codePointAt_drop hlt, Nat.add_zero] at hread
  have hrest := characters_drop m.unicode (m.input.drop pos) 1
  rw [offset_succ (getElem?_eq_getElem hchars), offset_zero, drop_drop, Nat.zero_add,
    ← hread] at hrest
  rw [characterAt, hrest, hread]
  exact (getElem_cons_drop hchars).symm

theorem ahead_succ (k : Nat) : m.ahead pos (k + 1) =
      (m.characterAt pos).code :: m.ahead (pos + (m.characterAt pos).width) k := by
  rw [ahead, characters_cons hpos, take_succ_cons, map_cons, ahead]

theorem characterAt_mem : m.characterAt pos ∈ characters m.unicode (m.input.drop pos) := by
  rw [characters_cons hpos]
  exact mem_cons_self

end

theorem folds_eq_false_iff (hwidth : m.folds a.code b.code = true → a.width = b.width) :
    (a.code ≠ b.code ∧ (a.width ≠ b.width ∨ m.flags.ignoreCase = false ∨
        m.canonical a.code ≠ m.canonical b.code ∧
          m.tables.simpleCaseFold a.code ≠ m.tables.simpleCaseFold b.code)) ↔
      m.folds a.code b.code = false := by
  cases hfolds : m.folds a.code b.code with
  | true =>
    have hsame := hwidth hfolds
    rw [folds, Bool.or_eq_true, Bool.and_eq_true, beq_iff_eq, beq_iff_eq] at hfolds
    cases hcase : m.flags.ignoreCase with
    | false =>
      rw [canonical_eq hcase, canonical_eq hcase, hcase] at hfolds
      simpa using hfolds
    | true =>
      simp only [Bool.true_eq_false, iff_false]
      tauto
  | false =>
    rw [folds, Bool.or_eq_false_iff, beq_eq_false_iff_ne] at hfolds
    obtain ⟨hcanonical, hfold⟩ := hfolds
    refine iff_of_true ⟨fun h => hcanonical (by rw [h]), .inr ?_⟩ rfl
    rw [Bool.and_eq_false_iff, beq_eq_false_iff_ne] at hfold
    exact hfold.imp id fun h => ⟨hcanonical, h⟩

variable {start length fuel : Nat}

theorem comparesFrom_succ (hi : i < length)
    (hwidth : m.folds (m.characterAt (start + i)).code (m.characterAt (first + i)).code = true →
      (m.characterAt (start + i)).width = (m.characterAt (first + i)).width) :
    m.comparesFrom start first length (fuel + 1) i =
      (m.folds (m.characterAt (start + i)).code (m.characterAt (first + i)).code &&
        m.comparesFrom start first length fuel (i + (m.characterAt (start + i)).width)) := by
  have hstop := folds_eq_false_iff hwidth
  rw [characterAt, characterAt] at hstop ⊢
  rw [comparesFrom, if_pos hi]
  cases hpass : m.folds (codePointAt m.input (start + i) m.unicode).code
      (codePointAt m.input (first + i) m.unicode).code with
  | false => rw [if_pos (hstop.mpr hpass), Bool.false_and]
  | true =>
    rw [if_neg fun h => Bool.false_ne_true ((hstop.mp h).symm.trans hpass), Bool.true_and]

/-- **The loop compares the characters that follow**, one by one. -/
theorem comparesFrom_iff (hfolds : m.KeepsWidth m.folds)
    (hlength : length = i + offset (characters m.unicode (m.input.drop (start + i))) k)
    (hk : k ≤ (characters m.unicode (m.input.drop (start + i))).length)
    (hroom : first + length ≤ m.input.length) (hfuel : k ≤ fuel) :
    m.comparesFrom start first length fuel i = true ↔
      Related m.folds (m.ahead (start + i) k)
        (m.ahead (first + i) k) := by
  induction k generalizing i fuel with
  | zero =>
    rw [offset_zero] at hlength
    have htrue : m.comparesFrom start first length fuel i = true := by
      cases fuel with
      | zero => rfl
      | succ fuel => rw [comparesFrom, if_neg (by omega)]
    exact iff_of_true htrue Forall₂.nil
  | succ k ih =>
    obtain ⟨fuel, rfl⟩ : ∃ n, fuel = n + 1 := Nat.exists_eq_add_one.mpr (by omega)
    have hstart : start + i < m.input.length := by
      have hne := Nat.lt_of_lt_of_le (Nat.succ_pos k) hk
      rw [← offset_lt_length_iff, length_drop] at hne
      omega
    rw [characters_cons hstart, offset] at hlength
    rw [characters_cons hstart, length_cons] at hk
    have hwide := characters_wide m.unicode _ _ (characterAt_mem hstart)
    have hfirst : first + i < m.input.length := by omega
    have hwidth := hfolds.width_eq (characterAt_mem hstart) (characterAt_mem hfirst)
    rw [comparesFrom_succ (by omega) hwidth, ahead_succ hstart, ahead_succ hfirst, related_cons,
      Bool.and_eq_true]
    refine and_congr_right fun hpass => ?_
    -- the next characters begin as far from the starts
    rw [ih (by rw [← Nat.add_assoc]; omega) (by rw [← Nat.add_assoc]; omega) (by omega),
      ← Nat.add_assoc, ← Nat.add_assoc, hwidth hpass]

theorem ahead_of_le (hpos : m.input.length ≤ pos) (k : Nat) : m.ahead pos k = [] := by
  rw [ahead, drop_of_length_le hpos, characters, take_nil, map_nil]

theorem alongside_forward (text : List Nat) (pos q : Nat) :
    m.alongside rel false text pos = some q ↔
      Related rel text (m.ahead pos text.length) ∧
        q = pos + offset (characters m.unicode (m.input.drop pos)) text.length := by
  induction text generalizing pos with
  | nil =>
    rw [alongside, length_nil, offset_zero, some_inj]
    exact ⟨fun h => ⟨Forall₂.nil, h.symm⟩, fun h => h.2.symm⟩
  | cons ch text ih =>
    rw [alongside, consume, if_neg Bool.false_ne_true, length_cons]
    by_cases hpos : pos ≥ m.input.length
    · rw [if_pos hpos, ahead_of_le hpos]
      exact ⟨(fun h => by cases h), fun h => by cases h.1⟩
    · have hlt := Nat.not_le.mp hpos
      rw [if_neg hpos, ahead_succ hlt, related_cons, characters_cons hlt, offset]
      dsimp only
      cases hrel : rel ch (m.characterAt pos).code with
      | false => simp
      | true => simp [ih, Nat.add_assoc]

theorem characters_position (j : Nat) :
    characters m.unicode (m.input.drop (m.position j)) = m.text.drop j :=
  characters_drop m.unicode m.input j

theorem ahead_position (j k : Nat) :
    m.ahead (m.position j) k = ((m.text.drop j).take k).map code := by
  rw [ahead, characters_position]

theorem ahead_position_succ {j : Nat} (h : j + k < m.text.length) :
    m.ahead (m.position j) (k + 1) = m.ahead (m.position j) k ++ [(m.text[j + k]).code] := by
  rw [ahead_position, ahead_position, take_add_one, getElem?_drop,
    getElem?_eq_getElem h, map_append]
  rfl

/-- Backward, a text is compared with the characters before, the last one first. -/
theorem alongside_backward (rel : Nat → Nat → Bool) (text : List Nat) (hi : i ≤ m.text.length)
    (q : Nat) : m.alongside rel true text (m.position i) = some q ↔
      ∃ j, j + text.length = i ∧ q = m.position j ∧
        Related rel text
          (m.ahead (m.position j) text.length).reverse := by
  induction text generalizing i with
  | nil =>
    rw [alongside, some_inj]
    constructor
    · rintro rfl
      exact ⟨i, rfl, rfl, by rw [length_nil]; exact Forall₂.nil⟩
    · rintro ⟨j, rfl, rfl, -⟩
      rfl
  | cons ch text ih =>
    rw [alongside, consume_position hi]
    cases i with
    | zero =>
      exact ⟨nofun, fun ⟨j, hj, _⟩ => absurd hj (Nat.succ_ne_zero _)⟩
    | succ f =>
      have hf : f < m.text.length := hi
      rw [stepOver_backward_succ, codes_getElem?, getElem?_eq_getElem hf]
      simp only [map_some]
      -- one character further back
      have hstep : ∀ j, j + text.length = f → (m.ahead (m.position j) (text.length + 1)).reverse =
          (m.text[f]).code :: (m.ahead (m.position j) text.length).reverse := by
        intro j hj
        subst hj
        rw [ahead_position_succ hf, reverse_append]
        rfl
      have hsucc : ∀ j, j + (text.length + 1) = f + 1 ↔ j + text.length = f := fun j =>
        Nat.succ_inj
      simp only [length_cons, hsucc]
      cases hrel : rel ch (m.text[f]).code with
      | false =>
        refine ⟨nofun, ?_⟩
        rintro ⟨j, hj, -, hall⟩
        rw [hstep j hj, related_cons, hrel] at hall
        exact absurd hall.1 Bool.false_ne_true
      | true =>
        simp only [if_true, ih hf.le]
        refine exists_congr fun j => and_congr_right fun hj => and_congr_right fun _ => ?_
        rw [hstep j hj, related_cons, hrel]
        simp

theorem beside_forward (text : List Nat) (pos q : Nat) :
    m.beside rel text pos false = some q ↔
      Related rel text (m.ahead pos text.length) ∧
        q = pos + offset (characters m.unicode (m.input.drop pos)) text.length :=
  alongside_forward text pos q

theorem beside_backward (text : List Nat) (hi : i ≤ m.text.length) (q : Nat) :
    m.beside rel text (m.position i) true = some q ↔
      ∃ j, j + text.length = i ∧ q = m.position j ∧
        Related rel text (m.ahead (m.position j) text.length) := by
  have h := alongside_backward rel text.reverse hi q
  rw [length_reverse] at h
  rw [beside, if_pos rfl, h]
  simp [related_reverse]

/-! ## The capture -/

theorem between_eq_ahead {last : Nat} (hle : first ≤ last) (hlast : last ≤ m.input.length)
    (hnot : insidePair m.input m.unicode last = false) :
    ∃ k ≤ (characters m.unicode (m.input.drop first)).length,
      offset (characters m.unicode (m.input.drop first)) k = last - first ∧
        m.between first last = m.ahead first k := by
  have hinside : insidePair (m.input.drop first) m.unicode (last - first) = false := by
    rcases Nat.eq_zero_or_pos (last - first) with hzero | hpos
    · rw [hzero]
      simp [insidePair]
    · rw [insidePair_drop hpos (hle.trans hlast), Nat.add_sub_cancel' hle]
      exact hnot
  have hroom : last - first ≤ (m.input.drop first).length := by
    rw [length_drop]
    omega
  obtain ⟨k, hk, hoffset⟩ := exists_offset hroom hinside
  refine ⟨k, hk, hoffset, ?_⟩
  rw [between, ← hoffset, characters_take, ahead]

/-- The capture is so many characters from a position on. -/
structure CapturedAt (m : Matcher) (captures : Nat → Int) (index start k : Nat) : Prop where
  fits : start + capturedLength captures index ≤ m.input.length
  count : k ≤ (characters m.unicode (m.input.drop start)).length
  units : offset (characters m.unicode (m.input.drop start)) k = capturedLength captures index
  text : m.captured captures index = m.ahead start k
  compared : isSet captures index = true → (captures (2 * index)).toNat = start

theorem exists_capturedAt {captures : Nat → Int} {index : Nat}
    (h : isSet captures index = true → m.Captured captures index) :
    ∃ start k, m.CapturedAt captures index start k := by
  cases hset : isSet captures index with
  | false =>
    refine ⟨0, 0, ?_, Nat.zero_le _, ?_, ?_, ?_⟩
    · simp [capturedLength, hset]
    · simp [capturedLength, hset]
    · simp [captured, hset, ahead]
    · rw [hset]
      nofun
  | true =>
    obtain ⟨hnonneg, hle, hlen, hnot⟩ := h hset
    have hlength : capturedLength captures index =
        (captures (2 * index + 1)).toNat - (captures (2 * index)).toNat := by
      rw [capturedLength, if_pos hset]
      omega
    obtain ⟨k, hk, hunits, htext⟩ := between_eq_ahead
      (show (captures (2 * index)).toNat ≤ (captures (2 * index + 1)).toNat by omega)
      (by omega) hnot
    refine ⟨(captures (2 * index)).toNat, k, ?_, hk, hunits.trans hlength.symm, ?_, fun _ => rfl⟩
    · rw [hlength]
      omega
    · rw [captured, if_pos hset, htext]

theorem le_offset {chars : List CodePointStep} (hwide : Wide chars) (hk : k ≤ chars.length) :
    k ≤ offset chars k := by
  induction k with
  | zero => exact Nat.zero_le _
  | succ k ih => exact (ih (Nat.le_of_succ_le hk)).trans_lt (offset_lt hwide k.lt_succ_self hk)

section Compared

variable {captures : Nat → Int} {index start k pos q : Nat} {backward : Bool}

variable (hcap : m.CapturedAt captures index start k)

include hcap

/-- **What `matchBackreference` compares**: characters, from where its units begin. -/
theorem backreferenceStep_iff (hfolds : m.KeepsWidth m.folds) (hpos : pos ≤ m.input.length) :
    (m.backreferenceStep captures index pos backward).map Prod.fst = some q ↔
      m.HasRoom captures index pos backward ∧
        Related m.folds (m.captured captures index)
          (m.ahead (comparedFrom captures index pos backward) k) ∧
        resumesAt captures index pos backward = q := by
  cases hset : isSet captures index with
  | false =>
    have hunset : captures (2 * index) = kUnset ∨ captures (2 * index + 1) = kUnset := by
      simpa [isSet, imp_iff_not_or] using hset
    have hlength : capturedLength captures index = 0 := by simp [capturedLength, hset]
    have htext : m.captured captures index = [] := by simp [captured, hset]
    have hk : k = 0 := by
      have hcount := congrArg length (htext.symm.trans hcap.text)
      rw [length_ahead, Nat.min_eq_left hcap.count] at hcount
      exact hcount.symm
    have hroom : m.HasRoom captures index pos backward := by
      cases backward with
      | false => simpa [HasRoom, hlength] using hpos
      | true => simp [HasRoom, hlength]
    have hresume : resumesAt captures index pos backward = pos := by
      cases backward <;> simp [resumesAt, hlength]
    rw [backreferenceStep]
    rw [if_pos hunset, htext, hk, ahead, hresume]
    simp [hroom, Related]
  | true =>
    have hsome : ¬(captures (2 * index) = kUnset ∨ captures (2 * index + 1) = kUnset) := by
      simpa [isSet] using hset
    have hlength : (captures (2 * index + 1) - captures (2 * index)).toNat =
        capturedLength captures index := by
      rw [capturedLength, if_pos hset]
    have hcompares : comparedFrom captures index pos backward + capturedLength captures index ≤
        m.input.length → (m.comparesFrom start (comparedFrom captures index pos backward)
          (capturedLength captures index) (capturedLength captures index) 0 = true ↔
        Related m.folds (m.captured captures index)
          (m.ahead (comparedFrom captures index pos backward) k)) := by
      intro hfits
      have hle := le_offset (characters_wide m.unicode (m.input.drop start)) hcap.count
      rw [hcap.units] at hle
      rw [comparesFrom_iff hfolds (k := k) (by rw [Nat.add_zero, hcap.units, Nat.zero_add])
        (by rw [Nat.add_zero]; exact hcap.count) hfits hle,
        hcap.text, Nat.add_zero, Nat.add_zero]
    rw [backreferenceStep]
    rw [if_neg hsome, hlength, hcap.compared hset]
    cases backward with
    | false =>
      simp only [Bool.false_eq_true, if_false, comparedFrom, HasRoom, resumesAt] at hcompares ⊢
      by_cases hroom : pos + capturedLength captures index ≤ m.input.length
      · rw [if_neg (Nat.not_lt.mpr hroom), ← hcompares hroom]
        split
        next heq => simp [hroom, heq]
        next hne => simp [hne]
      · rw [if_pos (Nat.not_le.mp hroom)]
        simp [hroom]
    | true =>
      simp only [if_true, comparedFrom, HasRoom, resumesAt] at hcompares ⊢
      by_cases hroom : capturedLength captures index ≤ pos
      · rw [if_neg (Nat.not_lt.mpr hroom), ← hcompares (by omega)]
        split
        next heq => simp [hroom, heq]
        next hne => simp [hne]
      · rw [if_pos (Nat.not_le.mp hroom)]
        simp [hroom]

theorem CapturedAt.units_eq (hrel : m.KeepsWidth rel) {first : Nat}
    (hall : Related rel (m.captured captures index) (m.ahead first k)) :
    k ≤ (characters m.unicode (m.input.drop first)).length ∧
      offset (characters m.unicode (m.input.drop first)) k = capturedLength captures index := by
  rw [hcap.text, ahead, ahead] at hall
  have hoffset := hrel.offset_eq (fun a ha => mem_of_mem_take ha)
    (fun b hb => mem_of_mem_take hb) hall k
  rw [offset_take _ _ _ le_rfl, offset_take _ _ _ le_rfl, hcap.units] at hoffset
  have hlength := hall.length_eq
  rw [length_map, length_map, length_take, length_take, Nat.min_eq_left hcap.count] at hlength
  exact ⟨by omega, hoffset.symm⟩

theorem CapturedAt.length_eq : (m.captured captures index).length = k := by
  rw [hcap.text, length_ahead, Nat.min_eq_left hcap.count]

/-- **The characters beside a position** that relate to the capture begin between characters, as
far away as the capture has units. -/
theorem beside_iff (hrel : m.KeepsWidth rel) (hpos : pos ≤ m.input.length)
    (hnot : backward = true → insidePair m.input m.unicode pos = false) :
    m.beside rel (m.captured captures index) pos backward = some q ↔
      m.HasRoom captures index pos backward ∧
        ¬m.StartsInside captures index pos backward ∧
        Related rel (m.captured captures index)
          (m.ahead (comparedFrom captures index pos backward) k) ∧
        resumesAt captures index pos backward = q := by
  cases backward with
  | false =>
    rw [beside_forward, hcap.length_eq]
    simp only [Bool.false_eq_true, StartsInside, comparedFrom, if_false, HasRoom, resumesAt,
      false_and, not_false_eq_true, true_and]
    constructor
    · rintro ⟨hall, rfl⟩
      obtain ⟨hk, hunits⟩ := hcap.units_eq hrel hall
      have hle := offset_le m.unicode (m.input.drop pos) hk
      rw [length_drop] at hle
      exact ⟨by omega, hall, by rw [hunits]⟩
    · rintro ⟨-, hall, rfl⟩
      exact ⟨hall, by rw [(hcap.units_eq hrel hall).2]⟩
  | true =>
    obtain ⟨i, hi, hat⟩ := exists_offset hpos (hnot rfl)
    obtain rfl : m.position i = pos := hat
    rw [beside_backward _ hi, hcap.length_eq]
    simp only [StartsInside, comparedFrom, if_true, HasRoom, resumesAt, true_and, Bool.not_eq_true]
    -- the position is so many units behind the character it goes back to
    have hback : ∀ j, Related rel (m.captured captures index)
        (m.ahead (m.position j) k) →
          m.position (j + k) = m.position j + capturedLength captures index := by
      intro j hall
      have hunits := (hcap.units_eq hrel hall).2
      rw [characters_position] at hunits
      rw [position, offset_drop]
      exact congrArg (offset m.text j + ·) hunits
    constructor
    · rintro ⟨j, rfl, rfl, hall⟩
      have hj := hback j hall
      have hfirst : m.position (j + k) - capturedLength captures index = m.position j := by omega
      rw [hfirst]
      exact ⟨by omega, not_insidePair_offset (by omega), hall, rfl⟩
    · rintro ⟨hroom, hinside, hall, rfl⟩
      obtain ⟨j, hj, hfirst⟩ := exists_offset ((Nat.sub_le ..).trans hpos) hinside
      replace hfirst : m.position j = m.position i - capturedLength captures index := hfirst
      rw [← hfirst] at hall ⊢
      have hjk := hback j hall
      have hcount := (hcap.units_eq hrel hall).1
      rw [characters_position, length_drop] at hcount
      refine ⟨j, ?_, rfl, hall⟩
      replace hj : j ≤ m.text.length := hj
      have hle : j + k ≤ m.text.length := by omega
      exact (position_inj hle hi).mp (by omega)

theorem between_compared
    (hfolds : m.KeepsWidth m.folds) {first : Nat}
    (hfits : first + capturedLength captures index ≤ m.input.length)
    (hnot : insidePair m.input m.unicode (first + capturedLength captures index) = false)
    (hall : Related m.folds (m.captured captures index)
        (m.between first (first + capturedLength captures index)) ∨
      Related m.folds (m.captured captures index)
        (m.ahead first k)) :
    m.between first (first + capturedLength captures index) = m.ahead first k := by
  obtain ⟨k', hk', hunits, htext⟩ := between_eq_ahead (Nat.le_add_right ..) hfits hnot
  rw [Nat.add_sub_cancel_left] at hunits
  rw [htext] at hall ⊢
  rcases hall with hall | hall
  · -- as many characters as the capture has
    have hlength := hall.length_eq
    rw [hcap.length_eq, length_ahead, Nat.min_eq_left hk'] at hlength
    rw [hlength]
  · obtain ⟨hk, hunits'⟩ := hcap.units_eq hfolds hall
    rw [offset_inj (characters_wide _ _) hk' hk (hunits.trans hunits'.symm)]

end Compared

/-! ## The three relations -/

section Relations

variable {toUppercase : Nat → List Nat}

theorem folds_eq_beq (hcase : m.flags.ignoreCase = false) (a b : Nat) : m.folds a b = (a == b) := by
  rw [folds, canonical_eq hcase, canonical_eq hcase, hcase, Bool.false_and, Bool.or_false]

theorem canonical_eq_fold (hcase : m.flags.ignoreCase = true) (hunicode : m.unicode = true)
    (ch : Nat) : m.canonical ch = m.tables.simpleCaseFold ch := by
  simp [canonical, canonicalize, hcase, hunicode]

theorem canonical_eq_uppercase (hcase : m.flags.ignoreCase = true) (hunicode : m.unicode = false)
    (ch : Nat) : m.canonical ch = m.tables.uppercase ch := by
  simp [canonical, canonicalize, hcase, hunicode]

theorem folds_keepsWidth (hwidth : ∀ ch, m.tables.simpleCaseFold ch < 0x10000 ↔ ch < 0x10000) :
    m.KeepsWidth m.folds := by
  intro hunicode a b hfolds
  cases hcase : m.flags.ignoreCase with
  | false =>
    rw [folds_eq_beq hcase, beq_iff_eq] at hfolds
    rw [hfolds]
  | true =>
    have hfold : m.tables.simpleCaseFold a = m.tables.simpleCaseFold b := by
      simpa [folds, canonical_eq_fold hcase hunicode, hcase] using hfolds
    rw [← hwidth a, hfold, hwidth b]

/-- Except where the `i` flag stands alone, what passes in the loop is what the standard takes
together, and what a literal does. -/
theorem agrees_eq_folds (toUppercase : Nat → List Nat)
    (halone : ¬(m.flags.ignoreCase = true ∧ m.unicode = false)) (a b : Nat) :
    m.standardAgrees toUppercase a b = m.folds a b ∧ m.literalAgrees a b = m.folds a b := by
  rw [literalAgrees, singleCharMatches, charMatches, standardAgrees,
    Bool.beq_comm (a := m.canonical b)]
  cases hcase : m.flags.ignoreCase with
  | false =>
    rw [folds_eq_beq hcase, canonical_eq hcase, canonical_eq hcase]
    simp [Semantics.canonicalize, hcase]
  | true =>
    have hunicode : m.flags.unicodeMode = true := by
      simpa [hcase, unicode] using halone
    rw [folds, canonical_eq_fold hcase hunicode, canonical_eq_fold hcase hunicode]
    simp [Semantics.canonicalize, hcase, hunicode]

/-- Where the `i` flag stands alone, more passes in the loop. -/
theorem folds_of_agrees (hcase : m.flags.ignoreCase = true) (hunicode : m.unicode = false)
    (hblocks : m.tables.uppercase = unitUppercase)
    (hcovered : Covered toUppercase m.tables.simpleCaseFold) {a b : Nat}
    (h : m.standardAgrees toUppercase a b = true ∨ m.literalAgrees a b = true) :
    m.folds a b = true := by
  have hmode : m.flags.unicodeMode = false := hunicode
  rw [folds, canonical_eq_uppercase hcase hunicode, canonical_eq_uppercase hcase hunicode, hblocks,
    hcase]
  rcases h with hstandard | hliteral
  · have hsame : Semantics.uppercase toUppercase a = Semantics.uppercase toUppercase b := by
      simpa [standardAgrees, Semantics.canonicalize, hcase, hmode] using hstandard
    simpa using hcovered a b hsame
  · have hsame : unitUppercase b = unitUppercase a := by
      simpa [literalAgrees, singleCharMatches, charMatches, canonical_eq_uppercase hcase hunicode,
        hblocks] using hliteral
    simp [hsame]

theorem agrees_keepsWidth (toUppercase : Nat → List Nat)
    (hwidth : ∀ ch, m.tables.simpleCaseFold ch < 0x10000 ↔ ch < 0x10000) :
    m.KeepsWidth (m.standardAgrees toUppercase) ∧ m.KeepsWidth m.literalAgrees := by
  by_cases halone : m.flags.ignoreCase = true ∧ m.unicode = false
  · constructor <;>
    · intro hunicode
      rw [halone.2] at hunicode
      cases hunicode
  · have hfolds := folds_keepsWidth hwidth
    refine ⟨fun hunicode a b h => ?_, fun hunicode a b h => ?_⟩
    · exact hfolds hunicode a b ((agrees_eq_folds toUppercase halone a b).1.symm.trans h)
    · exact hfolds hunicode a b ((agrees_eq_folds toUppercase halone a b).2.symm.trans h)

end Relations

section Standard

variable {toUppercase : Nat → List Nat} {captures : Nat → Int} {index start k pos : Nat}
  {backward : Bool}

section

variable (hcap : m.CapturedAt captures index start k)

include hcap

variable (hfolds : m.KeepsWidth m.folds)

include hfolds

theorem step_eq_beside_iff (hrel : m.KeepsWidth rel) (hpos : pos ≤ m.input.length)
    (hnot : backward = true → insidePair m.input m.unicode pos = false) :
    (m.backreferenceStep captures index pos backward).map Prod.fst =
        m.beside rel (m.captured captures index) pos backward ↔
      (m.HasRoom captures index pos backward ∧
          Related m.folds (m.captured captures index)
            (m.ahead (comparedFrom captures index pos backward) k) ↔
        m.HasRoom captures index pos backward ∧ ¬m.StartsInside captures index pos backward ∧
          Related rel (m.captured captures index)
            (m.ahead (comparedFrom captures index pos backward) k)) := by
  rw [Option.ext_iff]
  simp only [backreferenceStep_iff hcap hfolds hpos, beside_iff hcap hrel hpos hnot]
  constructor
  · intro h
    have h := h (resumesAt captures index pos backward)
    simpa [and_true] using h
  · intro h q
    have h := and_congr_left_iff.mpr fun (_ : resumesAt captures index pos backward = q) => h
    simpa [and_assoc] using h

/-- The text that is compared ends between characters, and resembles the capture if the characters
from its start on do. -/
theorem compared_eq_ahead
    (hpos : pos ≤ m.input.length)
    (hnot : backward = true → insidePair m.input m.unicode pos = false)
    (hends : backward = true ∨ m.unicode = false) (hroom : m.HasRoom captures index pos backward)
    (hall : Related m.folds (m.captured captures index)
        (m.compared captures index pos backward) ∨
      Related m.folds (m.captured captures index)
        (m.ahead (comparedFrom captures index pos backward) k)) :
    m.compared captures index pos backward =
      m.ahead (comparedFrom captures index pos backward) k := by
  cases backward with
  | false =>
    have hunicode : m.unicode = false := hends.resolve_left Bool.false_ne_true
    refine between_compared hcap hfolds hroom ?_ hall
    rw [hunicode]
    rfl
  | true =>
    have hend : comparedFrom captures index pos true + capturedLength captures index = pos :=
      Nat.sub_add_cancel hroom
    refine between_compared hcap hfolds (hend.trans_le hpos) ?_ hall
    rw [hend]
    exact hnot rfl

theorem resembles_iff (hpos : pos ≤ m.input.length)
    (hnot : backward = true → insidePair m.input m.unicode pos = false)
    (hends : backward = true ∨ m.unicode = false) :
    m.Resembles captures index pos backward ↔ m.HasRoom captures index pos backward ∧
      Related m.folds (m.captured captures index)
        (m.ahead (comparedFrom captures index pos backward) k) := by
  refine and_congr_right fun hroom => ⟨fun hall => ?_, fun hall => ?_⟩
  · rwa [compared_eq_ahead hcap hfolds hpos hnot hends hroom (.inl hall)] at hall
  · rwa [compared_eq_ahead hcap hfolds hpos hnot hends hroom (.inr hall)]

end

/-- **A backreference is the standard's**, and matches what its text would match as a literal,
unless a text resembles the capture that starts between the halves of a pair, or that only the two
tables together take for it. -/
theorem meetsStandard_iff (m : Matcher) (toUppercase : Nat → List Nat)
    (hblocks : m.tables.uppercase = unitUppercase)
    (hwidth : ∀ ch, m.tables.simpleCaseFold ch < 0x10000 ↔ ch < 0x10000)
    (hcovered : Covered toUppercase m.tables.simpleCaseFold)
    (captures : Nat → Int) (index pos : Nat) (backward : Bool)
    (hcaptured : isSet captures index = true → m.Captured captures index)
    (hpos : pos ≤ m.input.length)
    (hnot : backward = true → insidePair m.input m.unicode pos = false) :
    m.MeetsStandard toUppercase captures index pos backward ↔
      ¬(m.Resembles captures index pos backward ∧
        (m.StartsInside captures index pos backward ∨
          m.FoldsApart toUppercase (m.captured captures index)
            (m.compared captures index pos backward))) := by
  obtain ⟨start, k, hcap⟩ := exists_capturedAt hcaptured
  have hfolds := folds_keepsWidth hwidth
  obtain ⟨hstandard, hliteral⟩ := agrees_keepsWidth toUppercase hwidth
  have hmeets : m.MeetsStandard toUppercase captures index pos backward ↔ _ ∧ (_ → _) :=
    ⟨fun h => ⟨h.1, h.2⟩, fun h => ⟨h.1, h.2⟩⟩
  rw [hmeets, step_eq_beside_iff hcap hfolds hstandard hpos hnot,
    step_eq_beside_iff hcap hfolds hliteral hpos hnot]
  by_cases halone : m.flags.ignoreCase = true ∧ m.unicode = false
  · obtain ⟨hcase, hunicode⟩ := halone
    have hinside : ¬m.StartsInside captures index pos backward := by
      simp [StartsInside, insidePair, hunicode]
    have hunits := resembles_iff hcap hfolds hpos hnot (.inr hunicode)
    by_cases hall : m.Resembles captures index pos backward
    · obtain ⟨hroom, hahead⟩ := hunits.mp hall
      rw [compared_eq_ahead hcap hfolds hpos hnot (.inr hunicode) hroom (.inr hahead)]
      simp [hroom, hahead, hinside, hall, FoldsApart, hcase, hunicode]
    · -- what the standard takes together, or a literal does, the loop does
      have hnone : ∀ rel : Nat → Nat → Bool, (∀ a b, rel a b = true → m.folds a b = true) →
          ¬(m.HasRoom captures index pos backward ∧ Related rel (m.captured captures index)
            (m.ahead (comparedFrom captures index pos backward) k)) :=
        fun rel hrel h => hall (hunits.mpr ⟨h.1, h.2.imp hrel⟩)
      have hstandard := hnone _ fun a b h =>
        folds_of_agrees hcase hunicode hblocks hcovered (.inl h)
      have hliteral := hnone _ fun a b h =>
        folds_of_agrees hcase hunicode hblocks hcovered (.inr h)
      simp [hall, hnone m.folds fun _ _ h => h, hinside, hstandard, hliteral]
  · -- one relation
    have hstandard : m.standardAgrees toUppercase = m.folds :=
      funext₂ fun a b => (agrees_eq_folds toUppercase halone a b).1
    have hliteral : m.literalAgrees = m.folds :=
      funext₂ fun a b => (agrees_eq_folds toUppercase halone a b).2
    have hapart : ∀ text found, ¬m.FoldsApart toUppercase text found :=
      fun text found h => halone ⟨h.1, h.2.1⟩
    rw [hstandard, hliteral]
    simp only [hapart, or_false]
    by_cases hinside : m.StartsInside captures index pos backward
    · rw [resembles_iff hcap hfolds hpos hnot (.inl hinside.1)]
      simp only [hinside, not_true, false_and, and_false, iff_false, and_true]
      exact and_iff_left_of_imp fun h _ => h
    · simp [hinside]

def asciiUppercase (ch : Nat) : List Nat := [if 0x61 ≤ ch ∧ ch ≤ 0x7A then ch - 32 else ch]

/-- Simple folding in ASCII, with the long s. -/
def asciiFold (ch : Nat) : Nat :=
  if 0x41 ≤ ch ∧ ch ≤ 0x5A then ch + 32 else if ch = 0x17F then 0x73 else ch

theorem asciiUppercase_covered : Covered asciiUppercase asciiFold := by
  have hupper : ∀ ch, unitUppercase (uppercase asciiUppercase ch) = unitUppercase ch := by
    intro ch
    by_cases hlower : 0x61 ≤ ch ∧ ch ≤ 0x7A
    · have hcapital : uppercase asciiUppercase ch = ch - 32 := by
        simp [uppercase, asciiUppercase, hlower]
        omega
      have hsmall : ch % 0x10000 = ch := Nat.mod_eq_of_lt (by omega)
      have hsmall' : (ch - 32) % 0x10000 = ch - 32 := Nat.mod_eq_of_lt (by omega)
      have hbig : ¬(0x61 ≤ ch - 32) := by omega
      rw [hcapital, unitUppercase, unitUppercase, hsmall, hsmall']
      rw [if_pos (by omega), if_pos (by omega), foldLatin1, foldLatin1, if_pos hlower,
        if_neg (fun h => hbig h.1), if_neg (by omega), if_neg (by omega), if_neg (by omega),
        if_neg (by omega)]
    · simp [uppercase, asciiUppercase, hlower]
  intro a b hsame
  rw [← hupper a, ← hupper b, hsame]
  exact .inl rfl

/-- The flags `i`, and a text without the `u` and `v` flags. -/
def caseless (input : List UInt16) : Matcher where
  tables := ⟨unitUppercase, asciiFold, fun _ _ => [], fun _ => basicWords⟩
  flags := ⟨true, false, false, false, false⟩
  input := input

def firstUnit (slot : Nat) : Int := if slot = 2 then 0 else if slot = 3 then 1 else kUnset

theorem meetsStandard_iff_letter :
    (caseless [0x61, 0x41]).MeetsStandard asciiUppercase firstUnit 1 1 false ↔
      ¬((caseless [0x61, 0x41]).Resembles firstUnit 1 1 false ∧
        ((caseless [0x61, 0x41]).StartsInside firstUnit 1 1 false ∨
          (caseless [0x61, 0x41]).FoldsApart asciiUppercase
            ((caseless [0x61, 0x41]).captured firstUnit 1)
            ((caseless [0x61, 0x41]).compared firstUnit 1 1 false))) := by
  refine meetsStandard_iff _ asciiUppercase rfl (fun ch => ?_) asciiUppercase_covered _ _ _ _
    (fun _ => ⟨by decide, by decide, by decide, by decide⟩) (by decide) nofun
  change asciiFold ch < 0x10000 ↔ ch < 0x10000
  rw [asciiFold]
  split_ifs <;> omega

theorem longS_resembles :
    ¬(caseless [0x73, 0x17F]).MeetsStandard asciiUppercase firstUnit 1 1 false := by
  intro h
  have hstep := h.standard
  revert hstep
  decide

end Standard

end Loop

end Matcher

end Bronze.Regex
