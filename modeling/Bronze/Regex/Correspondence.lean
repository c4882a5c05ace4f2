import Bronze.Regex.Matcher
import Bronze.Regex.Semantics

/-!
# Characters under both readings

The matcher reads units and moves by widths, the semantics reads characters and counts them. At a
position where a character starts, both step over the same characters, hold the same assertions and
read the same classes; a comparison that starts at a character compares characters.

## Main results

* `Matcher.compile_oneCharacter`: an atom of one character is its set of characters
* `Matcher.scan_position`, `repeatMatcher_run`: the repetitions of one character
-/

namespace Bronze.Regex

open Semantics

namespace Matcher

open List Nat Option

variable (m : Matcher)

/-- The characters of the input. -/
def text : List CodePointStep := characters m.unicode m.input

/-- The input of the semantics. -/
def codes : List Nat := m.text.map CodePointStep.code

def position (i : Nat) : Nat := offset m.text i

section Characters

variable {m} {i j : Nat} {backward : Bool}

theorem codes_getElem? (i : Nat) : m.codes[i]? = m.text[i]?.map CodePointStep.code :=
  getElem?_map

theorem codes_length : m.codes.length = m.text.length := length_map _

theorem position_length : m.position m.text.length = m.input.length :=
  offset_length m.unicode m.input

theorem position_lt_length_iff : m.position i < m.input.length ↔ i < m.text.length :=
  offset_lt_length_iff

theorem position_lt_iff (hj : j ≤ m.text.length) : m.position i < m.position j ↔ i < j :=
  offset_lt_iff (characters_wide m.unicode m.input) hj

theorem position_inj (hi : i ≤ m.text.length) (hj : j ≤ m.text.length) :
    m.position i = m.position j ↔ i = j :=
  ⟨offset_inj (characters_wide m.unicode m.input) hi hj, fun h => h ▸ rfl⟩

theorem position_succ (hi : i < m.text.length) :
    m.position (i + 1) = m.position i + (m.text[i]).width :=
  offset_succ (getElem?_eq_getElem hi)

theorem position_zero_iff (hi : i ≤ m.text.length) : m.position i = 0 ↔ i = 0 := by
  have h := position_inj hi (zero_le m.text.length)
  rwa [show m.position 0 = 0 from offset_zero] at h

theorem characterAt_position (hi : i < m.text.length) : m.characterAt (m.position i) = m.text[i] :=
  codePointAt_offset (getElem?_eq_getElem hi)

theorem characterBefore_position (hi : i < m.text.length) :
    m.characterBefore (m.position (i + 1)) = m.text[i] :=
  codePointBefore_offset (getElem?_eq_getElem hi)

/-- **The matcher steps over the characters of the semantics.** -/
theorem consume_position (hi : i ≤ m.text.length) :
    m.consume (m.position i) backward =
      (stepOver m.codes backward i).map fun step => (step.1, m.position step.2) := by
  cases backward with
  | false =>
    rw [consume, if_neg Bool.false_ne_true, stepOver_forward, codes_getElem?]
    rcases lt_or_ge i m.text.length with hlt | hge
    · rw [if_neg (not_le.mpr (position_lt_length_iff.mpr hlt)), characterAt_position hlt,
        getElem?_eq_getElem hlt, map_some, map_some, map_some, position_succ hlt]
    · rw [if_pos (not_lt.mp (mt position_lt_length_iff.mp (not_lt.mpr hge))), getElem?_eq_none hge]
      rfl
  | true =>
    rw [consume]
    cases i with
    | zero => rw [if_pos (show m.position 0 = 0 from offset_zero)]; rfl
    | succ i =>
      have hlt : i < m.text.length := lt_of_succ_le hi
      rw [if_neg (mt (position_zero_iff hi).mp (succ_ne_zero i)), stepOver_backward_succ,
        codes_getElem?, getElem?_eq_getElem hlt, characterBefore_position hlt, position_succ hlt]
      simp

theorem stepOver_le {ch f : Nat} (hi : i ≤ m.text.length)
    (h : stepOver m.codes backward i = some (ch, f)) : f ≤ m.text.length := by
  cases backward with
  | false =>
    rw [stepOver_forward, map_eq_some_iff] at h
    obtain ⟨a, ha, heq⟩ := h
    obtain rfl : i + 1 = f := congrArg Prod.snd heq
    have hlt := (List.getElem?_eq_some_iff.mp ha).1
    rwa [codes_length] at hlt
  | true => exact le_trans (stepOver_ahead h) hi

end Characters

end Matcher

theorem rangesContain_eq_memberOf {ranges : RangeList} (h : Normalized ranges) (ch : Nat) :
    rangesContain ranges ch = memberOf ranges ch := by
  rw [Bool.eq_iff_iff, rangesContain_iff h, memberOf]
  simp

theorem isLineTerminator_eq (ch : Nat) : isLineTerminator ch = lineTerminators.contains ch := by
  rw [Bool.eq_iff_iff]
  simp [isLineTerminator, lineTerminators, or_assoc]

theorem basicWords_normalized : Normalized basicWords := by
  simp [Normalized, basicWords]

namespace Matcher

section Sets

variable {m : Matcher} {i : Nat}

section

variable (hcase : m.flags.ignoreCase = false)

include hcase

theorem canonical_eq (ch : Nat) : m.canonical ch = ch := by
  simp [canonical, canonicalize, hcase]

theorem classMatches_eq {cls : CharacterClass} (hranges : Normalized cls.ranges) (ch : Nat) :
    m.classMatches cls ch = (memberOf cls.ranges ch != cls.negated) := by
  simp only [classMatches, hcase, rangesContain_eq_memberOf hranges]
  cases cls.negated <;> cases memberOf cls.ranges ch <;> rfl

/-- **An atom of one character compiles to its set of characters.** -/
theorem compile_oneCharacter {node : Node} (hone : node.oneCharacter = true) (hbuilt : node.Built) :
    ∃ A invert, (∀ fuel backward, compile m.codes m.flags fuel node backward =
      characterSetMatcher m.codes A invert backward) ∧
      ∀ ch, m.singleCharMatches node ch = (A ch != invert) := by
  cases node with
  | char ch =>
    refine ⟨(· == ch), false, fun fuel backward => by rw [compile], fun code => ?_⟩
    simp [singleCharMatches, charMatches, canonical_eq hcase]
  | characterClass cls =>
    refine ⟨memberOf cls.ranges, cls.negated, fun fuel backward => ?_, fun code => ?_⟩
    · rw [compile]
      exact if_pos hone
    · exact classMatches_eq hcase hbuilt.normalized code
  | dot =>
    refine ⟨dotSet m.flags, false, fun fuel backward => by rw [compile], fun code => ?_⟩
    simp [singleCharMatches, dotMatches, dotSet, isLineTerminator_eq]
  | _ => cases hone

end

/-- What holds of no surrogate and of nothing outside the basic plane. -/
def Basic (P : Nat → Bool) : Prop := ∀ ch, P ch = true → ch < 0xD800 ∨ 0xE000 ≤ ch ∧ ch < 0x10000

variable {P : Nat → Bool}

theorem Basic.not_lead (h : Basic P) {u : Nat} (hu : isLeadSurrogate u = true) : P u = false := by
  by_contra hP
  have hlow := h u (Bool.not_eq_false _ |>.mp hP)
  simp only [isLeadSurrogate, Bool.and_eq_true, decide_eq_true_eq] at hu
  omega

theorem Basic.not_trail (h : Basic P) {u : Nat} (hu : isTrailSurrogate u = true) : P u = false := by
  by_contra hP
  have hlow := h u (Bool.not_eq_false _ |>.mp hP)
  simp only [isTrailSurrogate, Bool.and_eq_true, decide_eq_true_eq] at hu
  omega

theorem combineSurrogates_ge (u v : Nat) : 0x10000 ≤ combineSurrogates u v :=
  Nat.le_trans (Nat.le_add_right _ _) (Nat.le_add_right _ _)

theorem Basic.not_combined (h : Basic P) (u v : Nat) : P (combineSurrogates u v) = false := by
  by_contra hP
  have hlow := h _ (Bool.not_eq_false _ |>.mp hP)
  have hge := combineSurrogates_ge u v
  omega

theorem unit_after (hP : Basic P) (hi : i < m.text.length) :
    P (unitAt m.input (m.position i)) = P (m.text[i]).code := by
  rcases unit_of_character (List.getElem?_eq_getElem hi) with ⟨hone, -⟩ | ⟨-, hlead, -, htwo⟩
  · rw [show m.text[i] = _ from hone]
    rfl
  · rw [show m.text[i] = _ from htwo]
    exact (hP.not_lead hlead).trans (hP.not_combined ..).symm

theorem unit_before (hP : Basic P) (hi : i < m.text.length) :
    P (unitAt m.input (m.position (i + 1) - 1)) = P (m.text[i]).code := by
  rw [position_succ hi]
  rcases unit_of_character (List.getElem?_eq_getElem hi) with ⟨hone, -⟩ | ⟨-, -, htrail, htwo⟩
  · rw [show m.text[i] = _ from hone]
    rfl
  · rw [show m.text[i] = _ from htwo]
    exact (hP.not_trail htrail).trans (hP.not_combined ..).symm

theorem isLineTerminator_basic : Basic isLineTerminator := by
  intro ch h
  simp only [isLineTerminator, Bool.or_eq_true, beq_iff_eq] at h
  omega

theorem basicWords_basic : Basic (memberOf basicWords) := by
  intro ch h
  simp only [memberOf, basicWords, List.any_cons, List.any_nil, Bool.or_false, Bool.or_eq_true,
    Bool.and_eq_true, decide_eq_true_eq] at h
  omega

variable (hcase : m.flags.ignoreCase = false)

include hcase

theorem isWordAt_position (i : Nat) : m.isWordAt (m.position i) = isWordChar m.codes i := by
  rw [isWordAt, isWordChar, wordRanges, hcase, if_neg Bool.false_ne_true,
    rangesContain_eq_memberOf basicWords_normalized, Int.toNat_natCast, Int.toNat_natCast,
    codes_getElem?]
  rcases lt_or_ge i m.text.length with hlt | hge
  · rw [unit_after basicWords_basic hlt, List.getElem?_eq_getElem hlt]
    have hpos := position_lt_length_iff.mpr hlt
    simp [hpos]
  · have hpos := mt position_lt_length_iff.mp (Nat.not_lt.mpr hge)
    simp [hpos, List.getElem?_eq_none hge]

theorem isWordAt_before (hi : i ≤ m.text.length) :
    m.isWordAt (m.position i - 1) = isWordChar m.codes (i - 1) := by
  rw [isWordAt, isWordChar, wordRanges, hcase, if_neg Bool.false_ne_true,
    rangesContain_eq_memberOf basicWords_normalized]
  cases i with
  | zero => simp [show m.position 0 = 0 from offset_zero]
  | succ i =>
    have hlt : i < m.text.length := Nat.lt_of_succ_le hi
    have hpos : 0 < m.position (i + 1) :=
      Nat.pos_of_ne_zero (mt (position_zero_iff hi).mp (Nat.succ_ne_zero i))
    have hle : m.position (i + 1) ≤ m.input.length := offset_le m.unicode m.input hi
    have hunit := unit_before basicWords_basic hlt
    rw [show ((m.position (i + 1) : Int) - 1) = ((m.position (i + 1) - 1 : Nat) : Int) by omega,
      show ((i + 1 : Nat) : Int) - 1 = (i : Int) by omega, Int.toNat_natCast, Int.toNat_natCast,
      codes_getElem?, List.getElem?_eq_getElem hlt, hunit]
    have hpos' : m.position (i + 1) - 1 < m.input.length := by omega
    simp [hpos']

/-- **The assertions hold at the same places.** -/
theorem assertionHolds_position (kind : AssertionKind) (hi : i ≤ m.text.length) :
    m.assertionHolds kind (m.position i) = assertionTest m.codes m.flags kind i := by
  cases kind with
  | start =>
    rw [assertionHolds, assertionTest]
    cases i with
    | zero => simp [show m.position 0 = 0 from offset_zero]
    | succ i =>
      have hlt : i < m.text.length := Nat.lt_of_succ_le hi
      have hpos : (m.position (i + 1) == 0) = false :=
        beq_eq_false_iff_ne.mpr (mt (position_zero_iff hi).mp (Nat.succ_ne_zero i))
      rw [unit_before isLineTerminator_basic hlt, isLineTerminator_eq, Nat.add_sub_cancel,
        codes_getElem?, List.getElem?_eq_getElem hlt, hpos]
      simp
  | finish =>
    rw [assertionHolds, assertionTest, codes_length, codes_getElem?]
    rcases lt_or_ge i m.text.length with hlt | hge
    · have hpos : (m.position i == m.input.length) = false :=
        beq_eq_false_iff_ne.mpr (position_lt_length_iff.mpr hlt).ne
      have hi' : (i == m.text.length) = false := beq_eq_false_iff_ne.mpr hlt.ne
      rw [unit_after isLineTerminator_basic hlt, isLineTerminator_eq,
        List.getElem?_eq_getElem hlt, hpos, hi']
      simp
    · obtain rfl := le_antisymm hi hge
      simp [position_length]
  | wordBoundary =>
    rw [assertionHolds, assertionTest, isWordAt_position hcase, isWordAt_before hcase hi]
  | notWordBoundary =>
    rw [assertionHolds, assertionTest, isWordAt_position hcase, isWordAt_before hcase hi]

end Sets

end Matcher

theorem Semantics.sameText_iff {input : List Nat} {start first length : Nat} :
    sameText input start first length = true ↔
      ∀ t < length, input[start + t]? = input[first + t]? := by
  simp [sameText]

theorem unitAt_lt (input : List UInt16) (pos : Nat) : unitAt input pos < 0x10000 := by
  rw [unitAt]
  cases input[pos]? with
  | none => exact Nat.zero_lt_succ _
  | some u => exact u.toNat_lt

namespace Matcher

section Compare

variable {m : Matcher} {rs f len : Nat}

theorem width_iff {i : Nat} (hi : i < m.text.length) :
    (m.text[i]).width = if (m.text[i]).code < 0x10000 then 1 else 2 := by
  rcases unit_of_character (List.getElem?_eq_getElem hi) with ⟨hone, -⟩ | ⟨-, -, -, htwo⟩
  · rw [show m.text[i] = _ from hone]
    exact (if_pos (unitAt_lt ..)).symm
  · rw [show m.text[i] = _ from htwo]
    exact (if_neg (not_lt.mpr (combineSurrogates_ge ..))).symm

theorem position_of_same (hrs : rs + len ≤ m.text.length) (hf : f ≤ m.text.length)
    (hsame : ∀ t < len, m.codes[rs + t]? = m.codes[f + t]?) :
    f + len ≤ m.text.length ∧
      m.position (f + len) + m.position rs = m.position f + m.position (rs + len) := by
  induction len with
  | zero => exact ⟨hf, rfl⟩
  | succ len ih =>
    obtain ⟨hle, hpos⟩ := ih (Nat.le_of_succ_le hrs) fun t ht => hsame t (Nat.lt_succ_of_lt ht)
    have hlt : rs + len < m.text.length := hrs
    have hcode := hsame len (Nat.lt_succ_self len)
    rw [codes_getElem?, codes_getElem?, List.getElem?_eq_getElem hlt] at hcode
    -- the last character is there in both
    obtain ⟨d, hd, hcd⟩ := Option.map_eq_some_iff.mp hcode.symm
    obtain ⟨hlt', rfl⟩ := List.getElem?_eq_some_iff.mp hd
    have hwidth : (m.text[f + len]).width = (m.text[rs + len]).width := by
      rw [width_iff, width_iff, hcd]
    refine ⟨hlt', ?_⟩
    rw [← Nat.add_assoc, ← Nat.add_assoc, position_succ hlt, position_succ hlt']
    omega

theorem len_le_units (hrs : rs + len ≤ m.text.length) :
    m.position rs + len ≤ m.position (rs + len) := by
  induction len with
  | zero => exact le_refl _
  | succ len ih =>
    have hlt : rs + len < m.text.length := hrs
    have hwide := characters_wide m.unicode m.input _ (List.getElem_mem hlt)
    have hle := ih (Nat.le_of_succ_le hrs)
    rw [← Nat.add_assoc, ← Nat.add_assoc, position_succ hlt]
    exact Nat.add_le_add hle hwide

/-- **A comparison that starts at a character compares the characters.** -/
theorem comparesFrom_position (hcase : m.flags.ignoreCase = false) {start first length i fuel : Nat}
    (hstart : start + i = m.position rs) (hfirst : first + i = m.position f)
    (hrs : rs + len ≤ m.text.length) (hend : start + length = m.position (rs + len))
    (hle : first + length ≤ m.input.length) (hfuel : len ≤ fuel) :
    m.comparesFrom start first length fuel i = true ↔
      ∀ t < len, m.codes[rs + t]? = m.codes[f + t]? := by
  induction len generalizing rs f i fuel with
  | zero =>
    have hi : ¬ i < length := by
      rw [Nat.add_zero] at hend
      omega
    have htrue : m.comparesFrom start first length fuel i = true := by
      cases fuel with
      | zero => rfl
      | succ fuel => rw [comparesFrom, if_neg hi]
    exact ⟨fun _ _ h => absurd h (Nat.not_lt_zero _), fun _ => htrue⟩
  | succ len ih =>
    obtain ⟨fuel, rfl⟩ : ∃ n, fuel = n + 1 := Nat.exists_eq_add_one.mpr (by omega)
    have hlt : rs < m.text.length := by omega
    have hi : i < length := by
      have := (position_lt_iff hrs).mpr (show rs < rs + (len + 1) by omega)
      omega
    have hlt' : f < m.text.length := position_lt_length_iff.mp (by omega)
    rw [comparesFrom, if_pos hi, hstart, hfirst]
    have ha := characterAt_position hlt
    have hb := characterAt_position hlt'
    rw [characterAt] at ha hb
    rw [ha, hb, hcase]
    by_cases hcode : (m.text[rs]).code = (m.text[f]).code
    · have hwidth : (m.text[rs]).width = (m.text[f]).width := by
        rw [width_iff, width_iff, hcode]
      have hstart' : start + (i + (m.text[rs]).width) = m.position (rs + 1) := by
        rw [position_succ hlt, ← hstart, Nat.add_assoc]
      have hfirst' : first + (i + (m.text[rs]).width) = m.position (f + 1) := by
        rw [position_succ hlt', ← hfirst, hwidth, Nat.add_assoc]
      have hend' : start + length = m.position (rs + 1 + len) := by
        rw [hend, Nat.add_assoc, Nat.add_comm 1 len]
      rw [if_neg fun h => h.1 hcode, ih hstart' hfirst' (by omega) hend' (by omega)]
      constructor
      · intro h t ht
        cases t with
        | zero =>
          rw [Nat.add_zero, Nat.add_zero, codes_getElem?, codes_getElem?,
            List.getElem?_eq_getElem hlt, List.getElem?_eq_getElem hlt', Option.map_some,
            Option.map_some, hcode]
        | succ t =>
          have := h t (Nat.lt_of_succ_lt_succ ht)
          rwa [Nat.add_right_comm, Nat.add_right_comm f] at this
      · intro h t ht
        have := h (t + 1) (Nat.succ_lt_succ ht)
        rwa [Nat.add_right_comm, Nat.add_right_comm f]
    · rw [if_pos ⟨hcode, .inr (.inl rfl)⟩]
      refine ⟨nofun, fun h => ?_⟩
      have h0 := h 0 (Nat.succ_pos len)
      rw [Nat.add_zero, Nat.add_zero, codes_getElem?, codes_getElem?,
        List.getElem?_eq_getElem hlt, List.getElem?_eq_getElem hlt'] at h0
      exact absurd (Option.some.inj h0) hcode

end Compare

end Matcher

/-! ## Repetitions of one character -/

/-- So many characters on, in the direction. -/
def reach (backward : Bool) (i t : Nat) : Nat := if backward then i - t else i + t

/-- So many characters match, one after the other. -/
def Repeats (input : List Nat) (test : Nat → Bool) (backward : Bool) : (i t : Nat) → Prop
  | _, 0 => True
  | i, t + 1 => ∃ ch f, stepOver input backward i = some (ch, f) ∧ test ch = true ∧
      Repeats input test backward f t

def Stuck (input : List Nat) (test : Nat → Bool) (backward : Bool) (i : Nat) : Prop :=
  ∀ ch f, stepOver input backward i = some (ch, f) → test ch = false

/-- The positions after the fewest to the most repetitions. -/
def stops (backward : Bool) (i min t : Nat) : List Nat :=
  (List.range' min (t + 1 - min)).map (reach backward i)

/-- The first answer of a list of attempts. -/
def firstAnswer (c : Nat → Answer) (list : List Nat) : Answer :=
  list.foldr (fun f a => (c f).orElse a) failed

section Repetitions

variable {input : List Nat} {test : Nat → Bool} {backward : Bool} {i t min : Nat}

@[simp] theorem reach_zero : reach backward i 0 = i := by
  cases backward <;> rfl

variable {ch f : Nat}

section

variable (h : stepOver input backward i = some (ch, f))

include h

theorem reach_step (k : Nat) : reach backward f k = reach backward i (k + 1) := by
  cases backward with
  | false =>
    rw [stepOver_forward, Option.map_eq_some_iff] at h
    obtain ⟨a, -, heq⟩ := h
    obtain rfl : i + 1 = f := congrArg Prod.snd heq
    exact Nat.add_right_comm i 1 k
  | true =>
    cases i with
    | zero => cases h
    | succ i =>
      rw [stepOver_backward_succ, Option.map_eq_some_iff] at h
      obtain ⟨a, -, heq⟩ := h
      obtain rfl : i = f := congrArg Prod.snd heq
      exact (Nat.succ_sub_succ i k).symm

theorem stepOver_ne : f ≠ i := by
  have hstep := reach_step h 0
  rw [reach_zero] at hstep
  cases backward with
  | false => exact hstep ▸ Nat.succ_ne_self i
  | true =>
    cases i with
    | zero => cases h
    | succ i => exact hstep ▸ Nat.ne_of_lt (Nat.lt_succ_self i)

end

theorem stops_eq_nil (h : t < min) : stops backward i min t = [] := by
  rw [stops, show t + 1 - min = 0 by omega]
  rfl

theorem stops_self : stops backward i t t = [reach backward i t] := by
  rw [stops, Nat.add_sub_cancel_left]
  rfl

theorem stops_concat (h : min ≤ t) :
    stops backward i min (t + 1) = stops backward i min t ++ [reach backward i (t + 1)] := by
  rw [stops, show t + 1 + 1 - min = (t + 1 - min) + 1 by omega, List.range'_1_concat,
    List.map_append, show min + (t + 1 - min) = t + 1 by omega]
  rfl

theorem stops_cons (h : min ≤ t) :
    stops backward i min t = reach backward i min :: stops backward i (min + 1) t := by
  rw [stops, show t + 1 - min = (t + 1 - (min + 1)) + 1 by omega]
  rfl

theorem stops_step (h : stepOver input backward i = some (ch, f)) :
    stops backward f min t = stops backward i (min + 1) (t + 1) := by
  have hshift : List.range' (min + 1) (t + 1 - min) =
      (List.range' min (t + 1 - min)).map (1 + ·) := by
    rw [List.map_add_range', Nat.add_comm]
  rw [stops, stops, Nat.add_sub_add_right, hshift, List.map_map]
  refine List.map_congr_left fun k _ => ?_
  rw [reach_step h, Function.comp_apply, Nat.add_comm 1 k]

theorem Answer.orElse_assoc (a b c : Answer) : (a.orElse b).orElse c = a.orElse (b.orElse c) := by
  rcases a with _ | _ | y <;> rfl

theorem Answer.orElse_failed (a : Answer) : a.orElse failed = a := by
  rcases a with _ | _ | y <;> rfl

theorem firstAnswer_concat (c : Nat → Answer) (list : List Nat) (f : Nat) :
    firstAnswer c (list ++ [f]) = (firstAnswer c list).orElse (c f) := by
  induction list with
  | nil => exact Answer.orElse_failed (c f)
  | cons e list ih =>
    rw [List.cons_append, firstAnswer, List.foldr_cons, ← firstAnswer, ih, ← Answer.orElse_assoc]
    rfl

theorem MatchState.clear_nil (x : MatchState) : x.clear [] = x := by
  simp [MatchState.clear]

/-- **RepeatMatcher over one character**: the positions after as many repetitions as there are, from
the most to the fewest or the other way. -/
theorem repeatMatcher_run {A : Nat → Bool} {invert greedy : Bool} {caps : Nat → Option (Nat × Nat)}
    {c : MatcherContinuation} {fuel : Nat} {max : Option Nat} (hfuel : t < fuel)
    (hrun : Repeats input (fun ch => A ch != invert) backward i t)
    (hstop : Stuck input (fun ch => A ch != invert) backward (reach backward i t) ∨ max = some t)
    (hmax : ∀ b, max = some b → t ≤ b) (hmin : ∀ b, max = some b → min ≤ b) :
    repeatMatcher (characterSetMatcher input A invert backward) [] greedy fuel min max ⟨i, caps⟩ c =
      firstAnswer (fun f => c ⟨f, caps⟩)
        (if greedy then (stops backward i min t).reverse else stops backward i min t) := by
  induction t generalizing i min max fuel with
  | zero =>
    obtain ⟨fuel, rfl⟩ : ∃ n, fuel = n + 1 := Nat.exists_eq_add_one.mpr hfuel
    have hone : firstAnswer (fun f => c ⟨f, caps⟩) [i] = c ⟨i, caps⟩ :=
      Answer.orElse_failed _
    rw [repeatMatcher]
    dsimp only
    by_cases hzero : max = some 0
    · obtain rfl : min = 0 := Nat.le_zero.mp (hmin 0 hzero)
      simp [hzero, stops_self, hone]
    · -- no character is consumed
      have hfail : ∀ d, characterSetMatcher input A invert backward
          (MatchState.clear ⟨i, caps⟩ []) d = failed := by
        intro d
        rw [MatchState.clear_nil, characterSetMatcher]
        cases hstep : stepOver input backward i with
        | none => rfl
        | some step =>
          have hstuck := (hstop.resolve_right hzero) step.1 step.2 (by rw [reach_zero, hstep])
          exact if_pos (by simpa using hstuck)
      rw [if_neg hzero, hfail]
      cases min with
      | zero =>
        rw [stops_self, reach_zero, List.reverse_singleton, ite_self, hone]
        cases greedy
        · exact Answer.orElse_failed _
        · rfl
      | succ min =>
        have hnil : stops backward i (min + 1) 0 = [] := stops_eq_nil (Nat.succ_pos min)
        rw [hnil, List.reverse_nil, ite_self]
        rfl
  | succ t ih =>
    obtain ⟨fuel, rfl⟩ : ∃ n, fuel = n + 1 := Nat.exists_eq_add_one.mpr (by omega)
    obtain ⟨ch, f, hstep, htest, hrun⟩ := hrun
    have hzero : max ≠ some 0 := fun h => absurd (hmax 0 h) (Nat.not_succ_le_zero t)
    rw [← reach_step hstep] at hstop
    have hmax' : ∀ b, max.map (· - 1) = some b → t ≤ b := by
      intro b hb
      obtain ⟨b', hb', rfl⟩ := Option.map_eq_some_iff.mp hb
      exact Nat.le_sub_one_of_lt (hmax b' hb')
    have hmin' : ∀ b, max.map (· - 1) = some b → min - 1 ≤ b := by
      intro b hb
      obtain ⟨b', hb', rfl⟩ := Option.map_eq_some_iff.mp hb
      exact Nat.sub_le_sub_right (hmin b' hb') 1
    have hlater := ih (Nat.lt_of_succ_lt_succ hfuel) hrun
      (hstop.imp_right fun h => by rw [h]; rfl) hmax' hmin'
    -- one character is consumed, and it moves on
    have honce : ∀ d, characterSetMatcher input A invert backward
        (MatchState.clear ⟨i, caps⟩ []) d = d ⟨f, caps⟩ := by
      intro d
      rw [MatchState.clear_nil, characterSetMatcher, hstep]
      exact if_neg (by simpa using htest)
    have hmoved : ¬(min = 0 ∧ (⟨f, caps⟩ : MatchState).endIndex = i) :=
      fun h => stepOver_ne hstep h.2
    rw [repeatMatcher]
    dsimp only
    rw [if_neg hzero, honce, if_neg hmoved, hlater]
    cases min with
    | zero =>
      have hcons : stops backward i 0 (t + 1) = i :: stops backward f 0 t := by
        rw [stops_cons (Nat.zero_le _), stops_step hstep, reach_zero]
      rw [if_neg (not_not.mpr rfl), hcons, List.reverse_cons]
      cases greedy with
      | false => rfl
      | true =>
        simp [firstAnswer_concat]
    | succ min =>
      simp [stops_step hstep]

end Repetitions

namespace Matcher

section Scan

variable {m : Matcher} {test : Nat → Bool} {backward : Bool} {i k t : Nat}

/-- There is room for so many characters. -/
def Room (m : Matcher) (backward : Bool) (i t : Nat) : Prop :=
  if backward then t ≤ i else i + t ≤ m.text.length

theorem Room.reach_le (hi : i ≤ m.text.length) (h : m.Room backward i t) (hk : k ≤ t) :
    reach backward i k ≤ m.text.length := by
  cases backward with
  | false => exact Nat.le_trans (Nat.add_le_add_left hk i) h
  | true => exact Nat.le_trans (Nat.sub_le i k) hi

theorem room_of_repeats (hi : i ≤ m.text.length) (h : Repeats m.codes test backward i t) :
    m.Room backward i t := by
  induction t generalizing i with
  | zero =>
    cases backward with
    | false => exact hi
    | true => exact Nat.zero_le i
  | succ t ih =>
    obtain ⟨ch, f, hstep, -, hrun⟩ := h
    have hroom := ih (stepOver_le hi hstep) hrun
    have hf := reach_step hstep 0
    cases backward with
    | false =>
      obtain rfl : f = i + 1 := hf
      exact (Nat.add_right_comm i 1 t).symm.trans_le hroom
    | true =>
      cases i with
      | zero => cases hstep
      | succ i =>
        obtain rfl : f = i := hf
        exact Nat.succ_le_succ hroom

section

variable (h : m.Room backward i t)

include h

theorem grow_position (hk : k < t) (hi : i ≤ m.text.length) :
    m.grow backward (m.position (reach backward i k)) = m.position (reach backward i (k + 1)) := by
  cases backward with
  | false =>
    have hlt : i + k < m.text.length := Nat.lt_of_lt_of_le (Nat.add_lt_add_left hk i) h
    show m.position (i + k) + (m.characterAt (m.position (i + k))).width = m.position (i + k + 1)
    rw [characterAt_position hlt, position_succ hlt]
  | true =>
    have hle : t ≤ i := h
    obtain ⟨j, rfl⟩ : ∃ j, i = j + (k + 1) := ⟨i - (k + 1), by omega⟩
    have hlt : j < m.text.length := by omega
    show m.position (j + (k + 1) - k) - (m.characterBefore (m.position (j + (k + 1) - k))).width =
      m.position (j + (k + 1) - (k + 1))
    rw [show j + (k + 1) - k = j + 1 by omega, Nat.add_sub_cancel, characterBefore_position hlt,
      position_succ hlt, Nat.add_sub_cancel]

theorem shrink_position (hk : k < t) (hi : i ≤ m.text.length) :
    m.shrink backward (m.position (reach backward i (k + 1))) =
      m.position (reach backward i k) := by
  cases backward with
  | false =>
    have hlt : i + k < m.text.length := Nat.lt_of_lt_of_le (Nat.add_lt_add_left hk i) h
    show m.position (i + k + 1) - (m.characterBefore (m.position (i + k + 1))).width =
      m.position (i + k)
    rw [characterBefore_position hlt, position_succ hlt, Nat.add_sub_cancel]
  | true =>
    have hle : t ≤ i := h
    obtain ⟨j, rfl⟩ : ∃ j, i = j + (k + 1) := ⟨i - (k + 1), by omega⟩
    have hlt : j < m.text.length := by omega
    show m.position (j + (k + 1) - (k + 1)) +
      (m.characterAt (m.position (j + (k + 1) - (k + 1)))).width = m.position (j + (k + 1) - k)
    rw [show j + (k + 1) - k = j + 1 by omega, Nat.add_sub_cancel, characterAt_position hlt,
      position_succ hlt]

theorem grow_iterate (hk : k ≤ t) (hi : i ≤ m.text.length) :
    (m.grow backward)^[k] (m.position i) = m.position (reach backward i k) := by
  induction k with
  | zero => rw [reach_zero]; rfl
  | succ k ih =>
    rw [Function.iterate_succ_apply', ih (Nat.le_of_succ_le hk), grow_position h hk hi]

end

/-- What a scan answers: a number of characters that match, and where they end, with no more to
take. -/
def Scanned (m : Matcher) (test : Nat → Bool) (max : Nat) (backward : Bool) (count i : Nat)
    (answer : Nat × Nat) : Prop :=
  ∃ t, answer = (count + t, m.position (reach backward i t)) ∧
    Repeats m.codes test backward i t ∧
    (Stuck m.codes test backward (reach backward i t) ∨ max ≠ kUnbounded ∧ count + t = max) ∧
    (max ≠ kUnbounded → count + t ≤ max)

theorem Scanned.here {count max : Nat}
    (hstop : Stuck m.codes test backward i ∨ max ≠ kUnbounded ∧ count = max)
    (hcount : max ≠ kUnbounded → count ≤ max) :
    m.Scanned test max backward count i (count, m.position i) :=
  ⟨0, by rw [reach_zero]; rfl, trivial, by rwa [reach_zero], hcount⟩

theorem Scanned.step {count max ch f : Nat} {answer : Nat × Nat}
    (hstep : stepOver m.codes backward i = some (ch, f)) (hch : test ch = true)
    (h : m.Scanned test max backward (count + 1) f answer) :
    m.Scanned test max backward count i answer := by
  obtain ⟨t, rfl, hrun, hstop, hle⟩ := h
  rw [reach_step hstep, Nat.add_right_comm] at hstop
  rw [Nat.add_right_comm] at hle
  refine ⟨t + 1, ?_, ⟨ch, f, hstep, hch, hrun⟩, hstop, hle⟩
  rw [reach_step hstep, Nat.add_right_comm]
  rfl

variable {atom : Node} (htest : ∀ ch, m.singleCharMatches atom ch = test ch)

include htest

/-- **The scan counts the characters that match**, up to the maximum. -/
theorem scan_position {fuel count max : Nat} (hi : i ≤ m.text.length)
    (hfuel : if backward then i ≤ fuel else m.text.length ≤ i + fuel)
    (hcount : max ≠ kUnbounded → count ≤ max) :
    m.Scanned test max backward count i (m.scan atom max backward fuel count (m.position i)) := by
  induction fuel generalizing i count with
  | zero =>
    refine Scanned.here (.inl fun ch f hstep => ?_) hcount
    cases backward with
    | false =>
      obtain rfl : m.text.length = i := le_antisymm hfuel hi
      rw [stepOver_forward, List.getElem?_eq_none codes_length.le] at hstep
      cases hstep
    | true =>
      obtain rfl : i = 0 := Nat.le_zero.mp hfuel
      cases hstep
  | succ fuel ih =>
    rw [scan]
    by_cases hmore : max = kUnbounded ∨ count < max
    · rw [if_pos hmore, consume_position hi]
      cases hstep : stepOver m.codes backward i with
      | none => exact Scanned.here (.inl fun ch f h => by rw [hstep] at h; cases h) hcount
      | some step =>
        obtain ⟨ch, f⟩ := step
        rw [Option.map_some]
        dsimp only
        rw [htest]
        cases hch : test ch with
        | false =>
          refine Scanned.here (.inl fun ch' f' h => ?_) hcount
          rw [hstep] at h
          obtain rfl : ch = ch' := congrArg Prod.fst (Option.some.inj h)
          exact hch
        | true =>
          have hf := reach_step hstep 0
          refine Scanned.step hstep hch (ih (stepOver_le hi hstep) ?_ hmore.resolve_left)
          -- one character less is left
          cases backward with
          | false =>
            obtain rfl : f = i + 1 := hf
            exact hfuel.trans_eq (Nat.add_right_comm i fuel 1)
          | true =>
            obtain rfl : f = i - 1 := hf
            exact Nat.sub_le_of_le_add hfuel
    · rw [if_neg hmore]
      have hbound : max ≠ kUnbounded := fun h => hmore (.inl h)
      refine Scanned.here (.inr ⟨hbound, ?_⟩) hcount
      exact le_antisymm (hcount hbound) (not_lt.mp fun h => hmore (.inr h))

theorem scan_start (max : Nat) (backward : Bool) (hi : i ≤ m.text.length) :
    ∃ t, m.scan atom max backward m.input.length 0 (m.position i) =
        (0 + t, m.position (reach backward i t)) ∧
      Repeats m.codes test backward i t ∧
      (Stuck m.codes test backward (reach backward i t) ∨ max ≠ kUnbounded ∧ t = max) ∧
      (max ≠ kUnbounded → t ≤ max) := by
  have hunits : m.text.length ≤ m.input.length := by
    have hunits : m.position 0 + m.text.length ≤ m.position (0 + m.text.length) :=
      len_le_units (Nat.zero_add m.text.length).le
    rw [Nat.zero_add, position_length] at hunits
    exact Nat.le_of_add_left_le hunits
  have hscan : m.Scanned test max backward 0 i
      (m.scan atom max backward m.input.length 0 (m.position i)) := by
    refine scan_position htest hi ?_ fun _ => Nat.zero_le _
    cases backward with
    | false => exact Nat.le_trans hunits (Nat.le_add_left ..)
    | true => exact Nat.le_trans hi hunits
  obtain ⟨t, hscan, hrun, hstop, hle⟩ := hscan
  rw [Nat.zero_add] at hstop hle
  exact ⟨t, hscan, hrun, hstop, hle⟩

end Scan

end Matcher

end Bronze.Regex
