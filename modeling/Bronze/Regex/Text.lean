import Mathlib

/-!
# The text of a match

Strings are lists of code units, and a position is an index of a unit. Under the `u` and `v` flags
the characters are code points, of one unit or two: `codePointAt` and `codePointBefore` decode one
in each direction. `characters` is the whole text decoded from the left, and `offset` the position
at which a character starts; the positions between characters are those inside a surrogate pair.

## Main results

* `codePointAt_offset`, `codePointBefore_offset`: both decodes read the characters
* `exists_offset`: a position that is inside no pair is where a character starts
-/

namespace Bronze.Regex

open List

structure CodePointStep where
  code : Nat
  width : Nat
  deriving DecidableEq

def isLeadSurrogate (unit : Nat) : Bool := 0xD800 ≤ unit && unit ≤ 0xDBFF

def isTrailSurrogate (unit : Nat) : Bool := 0xDC00 ≤ unit && unit ≤ 0xDFFF

def combineSurrogates (lead trail : Nat) : Nat :=
  0x10000 + (lead - 0xD800) * 2 ^ 10 + (trail - 0xDC00)

def unitAt (input : List UInt16) (index : Nat) : Nat := (input[index]?.map UInt16.toNat).getD 0

def codePointAt (input : List UInt16) (index : Nat) (unicode : Bool) : CodePointStep :=
  let first := unitAt input index
  if !unicode || !isLeadSurrogate first || index + 1 ≥ input.length then ⟨first, 1⟩
  else
    let second := unitAt input (index + 1)
    if !isTrailSurrogate second then ⟨first, 1⟩ else ⟨combineSurrogates first second, 2⟩

def codePointBefore (input : List UInt16) (index : Nat) (unicode : Bool) : CodePointStep :=
  let last := unitAt input (index - 1)
  if !unicode || !isTrailSurrogate last || index < 2 then ⟨last, 1⟩
  else
    let first := unitAt input (index - 2)
    if !isLeadSurrogate first then ⟨last, 1⟩ else ⟨combineSurrogates first last, 2⟩

def advanceStringIndex (input : List UInt16) (index : Nat) (unicode : Bool) : Nat :=
  if index ≥ input.length then index + 1 else index + (codePointAt input index unicode).width

/-- A position between the halves of a surrogate pair that is one character. -/
def insidePair (input : List UInt16) (unicode : Bool) (pos : Nat) : Bool :=
  unicode && 0 < pos && pos < input.length && isLeadSurrogate (unitAt input (pos - 1)) &&
    isTrailSurrogate (unitAt input pos)

/-! ## The characters of a text -/

def characters (unicode : Bool) : List UInt16 → List CodePointStep
  | [] => []
  | [u] => [⟨u.toNat, 1⟩]
  | u :: v :: rest =>
    if unicode && isLeadSurrogate u.toNat && isTrailSurrogate v.toNat then
      ⟨combineSurrogates u.toNat v.toNat, 2⟩ :: characters unicode rest
    else ⟨u.toNat, 1⟩ :: characters unicode (v :: rest)

/-- The position at which a character starts. -/
def offset : List CodePointStep → Nat → Nat
  | c :: chars, i + 1 => c.width + offset chars i
  | _, _ => 0

def Wide (chars : List CodePointStep) : Prop := ∀ c ∈ chars, 0 < c.width

section Offsets

variable {chars : List CodePointStep} {i j : Nat}

@[simp] theorem offset_zero : offset chars 0 = 0 := by
  cases chars <;> rfl

theorem offset_succ {c : CodePointStep} (hc : chars[i]? = some c) :
    offset chars (i + 1) = offset chars i + c.width := by
  induction chars generalizing i with
  | nil => cases hc
  | cons d chars ih =>
    cases i with
    | zero =>
      obtain rfl : d = c := Option.some.inj hc
      simp [offset]
    | succ i => rw [offset, ih hc, offset, Nat.add_assoc]

theorem offset_mono (h : i ≤ j) : offset chars i ≤ offset chars j := by
  induction chars generalizing i j with
  | nil => exact Nat.le_refl 0
  | cons d chars ih =>
    cases i with
    | zero => exact Nat.zero_le _
    | succ i =>
      cases j with
      | zero => exact absurd h (Nat.not_succ_le_zero i)
      | succ j => exact Nat.add_le_add_left (ih (Nat.le_of_succ_le_succ h)) d.width

theorem offset_lt (hw : Wide chars) (h : i < j) (hj : j ≤ chars.length) :
    offset chars i < offset chars j := by
  have hi : i < chars.length := Nat.lt_of_lt_of_le h hj
  have hc := getElem?_eq_getElem hi
  calc offset chars i
      < offset chars i + (chars[i]).width :=
        Nat.lt_add_of_pos_right (hw _ (getElem_mem hi))
    _ = offset chars (i + 1) := (offset_succ hc).symm
    _ ≤ offset chars j := offset_mono h

theorem offset_inj (hw : Wide chars) (hi : i ≤ chars.length) (hj : j ≤ chars.length)
    (h : offset chars i = offset chars j) : i = j := by
  rcases Nat.lt_trichotomy i j with hlt | rfl | hgt
  · exact absurd h (Nat.ne_of_lt (offset_lt hw hlt hj))
  · rfl
  · exact absurd h (Nat.ne_of_gt (offset_lt hw hgt hi))

theorem offset_lt_iff (hw : Wide chars) (hj : j ≤ chars.length) :
    offset chars i < offset chars j ↔ i < j := by
  refine ⟨fun h => ?_, fun h => offset_lt hw h hj⟩
  by_contra hle
  exact absurd h (Nat.not_lt.mpr (offset_mono (Nat.not_lt.mp hle)))

end Offsets

section Characters

variable {unicode : Bool} {input : List UInt16} {i : Nat} {c : CodePointStep}

theorem characters_wide (unicode : Bool) (input : List UInt16) :
    Wide (characters unicode input) := by
  induction input using characters.induct unicode with
  | case1 => nofun
  | case2 u => simp [characters, Wide]
  | case3 u v rest hpair ih =>
    rw [characters, if_pos hpair]
    exact forall_mem_cons.mpr ⟨Nat.two_pos, ih⟩
  | case4 u v rest hpair ih =>
    rw [characters, if_neg hpair]
    exact forall_mem_cons.mpr ⟨Nat.one_pos, ih⟩

theorem unitAt_cons_succ (u : UInt16) (i : Nat) : unitAt (u :: input) (i + 1) = unitAt input i := by
  simp [unitAt]

theorem codePointAt_cons_succ (u : UInt16) (i : Nat) :
    codePointAt (u :: input) (i + 1) unicode = codePointAt input i unicode := by
  simp [codePointAt, unitAt_cons_succ]

/-- **The decode at the start of a character reads the character.** -/
theorem codePointAt_offset (hc : (characters unicode input)[i]? = some c) :
    codePointAt input (offset (characters unicode input) i) unicode = c := by
  induction input using characters.induct unicode generalizing i with
  | case1 => simp [characters] at hc
  | case2 u =>
    obtain ⟨rfl, rfl⟩ : i = 0 ∧ ⟨u.toNat, 1⟩ = c := by
      cases i with
      | zero => exact ⟨rfl, by simpa [characters] using hc⟩
      | succ i => simp [characters] at hc
    simp [codePointAt, unitAt]
  | case3 u v rest hpair ih =>
    rw [characters, if_pos hpair] at hc ⊢
    simp only [Bool.and_eq_true] at hpair
    obtain ⟨⟨hunicode, hlead⟩, htrail⟩ := hpair
    cases i with
    | zero =>
      obtain rfl : _ = c := by simpa using hc
      simp [codePointAt, unitAt, hunicode, hlead, htrail]
    | succ i =>
      rw [offset, Nat.add_comm]
      exact (codePointAt_cons_succ u _).trans
        ((codePointAt_cons_succ v _).trans (ih (by simpa using hc)))
  | case4 u v rest hpair ih =>
    rw [characters, if_neg hpair] at hc ⊢
    cases i with
    | zero =>
      obtain rfl : _ = c := by simpa using hc
      simp only [codePointAt, unitAt]
      cases hunicode : unicode <;> cases hlead : isLeadSurrogate u.toNat <;>
        simp_all
    | succ i =>
      rw [offset, Nat.add_comm]
      exact (codePointAt_cons_succ u _).trans (ih (by simpa using hc))

theorem offset_length (unicode : Bool) (input : List UInt16) :
    offset (characters unicode input) (characters unicode input).length = input.length := by
  induction input using characters.induct unicode with
  | case1 => rfl
  | case2 u => rfl
  | case3 u v rest hpair ih =>
    rw [characters, if_pos hpair, length_cons, offset, ih]
    exact Nat.add_comm 2 _
  | case4 u v rest hpair ih =>
    rw [characters, if_neg hpair, length_cons, offset, ih]
    exact Nat.add_comm 1 _

theorem offset_le (unicode : Bool) (input : List UInt16)
    (hi : i ≤ (characters unicode input).length) :
    offset (characters unicode input) i ≤ input.length :=
  (offset_mono hi).trans_eq (offset_length unicode input)

theorem offset_lt_length_iff :
    offset (characters unicode input) i < input.length ↔ i < (characters unicode input).length := by
  rw [← offset_length unicode input]
  exact offset_lt_iff (characters_wide unicode input) le_rfl

/-- A character of two units is a pair of surrogates, and one of one unit is that unit. -/
theorem unit_of_character (hc : (characters unicode input)[i]? = some c) :
    (c = ⟨unitAt input (offset (characters unicode input) i), 1⟩ ∧
      insidePair input unicode (offset (characters unicode input) i + 1) = false) ∨
    (unicode = true ∧
      isLeadSurrogate (unitAt input (offset (characters unicode input) i)) = true ∧
      isTrailSurrogate (unitAt input (offset (characters unicode input) i + 1)) = true ∧
      c = ⟨combineSurrogates (unitAt input (offset (characters unicode input) i))
        (unitAt input (offset (characters unicode input) i + 1)), 2⟩) := by
  have hread := codePointAt_offset hc
  rw [codePointAt] at hread
  dsimp only at hread
  split at hread
  next hplain =>
    refine .inl ⟨hread.symm, ?_⟩
    rw [insidePair]
    simp only [Bool.or_eq_true, Bool.not_eq_true', decide_eq_true_eq] at hplain
    rcases hplain with (hunicode | hlead) | hlen
    · simp [hunicode]
    · simp [hlead]
    · simp [Nat.not_lt.mpr hlen]
  next hpair =>
    simp only [Bool.or_eq_true, Bool.not_eq_true', not_or, Bool.not_eq_false] at hpair
    split at hread
    next htrail =>
      refine .inl ⟨hread.symm, ?_⟩
      simp [insidePair, (Bool.not_eq_true' _).mp htrail]
    next htrail =>
      exact .inr ⟨hpair.1.1, hpair.1.2, by simpa using htrail, hread.symm⟩

theorem not_lead_of_trail {unit : Nat} (h : isTrailSurrogate unit = true) :
    isLeadSurrogate unit = false := by
  simp only [isTrailSurrogate, isLeadSurrogate, Bool.and_eq_true, decide_eq_true_eq,
    Bool.and_eq_false_iff, decide_eq_false_iff_not] at h ⊢
  omega

/-- **No character starts inside a pair.** -/
theorem not_insidePair_offset (hi : i ≤ (characters unicode input).length) :
    insidePair input unicode (offset (characters unicode input) i) = false := by
  cases i with
  | zero => simp [insidePair]
  | succ i =>
    -- the character before ends here
    have hc := getElem?_eq_getElem (Nat.lt_of_succ_le hi)
    rw [offset_succ hc]
    rcases unit_of_character hc with ⟨hone, hnot⟩ | ⟨-, -, htrail, htwo⟩
    · rw [hone]
      exact hnot
    · rw [htwo]
      simp [insidePair, not_lead_of_trail htrail]

/-- **The decode before the end of a character reads the character.** -/
theorem codePointBefore_offset (hc : (characters unicode input)[i]? = some c) :
    codePointBefore input (offset (characters unicode input) (i + 1)) unicode = c := by
  have hlt := (List.getElem?_eq_some_iff.mp hc).1
  rw [offset_succ hc]
  have hnot := not_insidePair_offset hlt.le
  have hlen := offset_lt_length_iff.mpr hlt
  rcases unit_of_character hc with ⟨hone, -⟩ | ⟨hunicode, hlead, htrail, htwo⟩
  · rw [hone, codePointBefore]
    generalize offset (characters unicode input) i = p at hnot hlen ⊢
    dsimp only
    rw [Nat.add_sub_cancel]
    split
    · rfl
    next hpair =>
      simp only [Bool.or_eq_true, Bool.not_eq_true', decide_eq_true_eq, not_or] at hpair
      obtain ⟨⟨hunicode, htrail⟩, hge⟩ := hpair
      -- a pair here would have the character start inside it
      have hfirst : isLeadSurrogate (unitAt input (p - 1)) = false := by
        have hpos : 0 < p := by omega
        simpa [insidePair, hunicode, htrail, hpos, hlen] using hnot
      rw [show p + 1 - 2 = p - 1 by omega, hfirst]
      rfl
  · rw [htwo, codePointBefore]
    generalize offset (characters unicode input) i = p at hlead htrail ⊢
    simp [hunicode, hlead, htrail]

/-- **A position that is inside no pair is where a character starts, or the end.** -/
theorem exists_offset {pos : Nat} (hpos : pos ≤ input.length)
    (hnot : insidePair input unicode pos = false) :
    ∃ i ≤ (characters unicode input).length, offset (characters unicode input) i = pos := by
  -- the last character that starts at the position or before it
  have hfind : ∀ n ≤ (characters unicode input).length,
      pos < offset (characters unicode input) n →
      ∃ i < n, offset (characters unicode input) i ≤ pos ∧
        pos < offset (characters unicode input) (i + 1) := by
    intro n
    induction n with
    | zero => intro _ h; rw [offset_zero] at h; exact absurd h (Nat.not_lt_zero pos)
    | succ n ih =>
      intro hn hlt
      rcases Nat.lt_or_ge pos (offset (characters unicode input) n) with hlt' | hge
      · obtain ⟨i, hi, hle, hlt''⟩ := ih (Nat.le_of_succ_le hn) hlt'
        exact ⟨i, hi.trans (Nat.lt_succ_self n), hle, hlt''⟩
      · exact ⟨n, Nat.lt_succ_self n, hge, hlt⟩
  rcases Nat.lt_or_eq_of_le (hpos.trans_eq (offset_length unicode input).symm) with hlt | heq
  · obtain ⟨i, hi, hle, hlt'⟩ := hfind _ le_rfl hlt
    refine ⟨i, hi.le, ?_⟩
    have hc := getElem?_eq_getElem hi
    rw [offset_succ hc] at hlt'
    rcases unit_of_character hc with ⟨hone, -⟩ | ⟨hunicode, hlead, htrail, htwo⟩
    · rw [hone] at hlt'
      dsimp only at hlt'
      omega
    · rw [htwo] at hlt'
      dsimp only at hlt'
      by_contra hne
      -- then it is between the two halves
      obtain rfl : pos = offset (characters unicode input) i + 1 := by omega
      have hlen : offset (characters unicode input) i + 1 < input.length := by
        rw [← offset_length unicode input]
        exact hlt
      subst hunicode
      simp [insidePair, hlead, htrail, hlen] at hnot
  · exact ⟨_, le_rfl, heq.symm⟩

end Characters

end Bronze.Regex
