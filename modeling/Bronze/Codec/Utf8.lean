import Bronze.Regex.Text

/-!
# The text of a string in UTF-8

`rtUtf8Chars` of `src/runtime/rt_convert.cpp` and `StringHeader::createFromUTF8` of
`src/runtime/string.cpp`. The bytes are those of UTF-8, with a lone surrogate encoded as itself, so
that any list of code units round-trips.

## Main results

* `createFromUTF8_rtUtf8Chars`: the units come back, so no two texts have the same bytes
* `createFromUTF8_flatMap`, `rtUtf8Chars_flatMap`: the bytes of a list of code points, and the units
-/

namespace Bronze.Utf8

open Regex
open List Nat Bool UInt16

def appendCodePoint (cp : Nat) : List Nat :=
  if cp ≤ 0x7F then [cp]
  else if cp ≤ 0x7FF then [0xC0 ||| (cp >>> 6), 0x80 ||| (cp &&& 0x3F)]
  else if cp ≤ 0xFFFF then
    [0xE0 ||| (cp >>> 12), 0x80 ||| ((cp >>> 6) &&& 0x3F), 0x80 ||| (cp &&& 0x3F)]
  else
    [0xF0 ||| (cp >>> 18), 0x80 ||| ((cp >>> 12) &&& 0x3F), 0x80 ||| ((cp >>> 6) &&& 0x3F),
      0x80 ||| (cp &&& 0x3F)]

/-- The code points the loop of `rtUtf8Chars` reads. -/
def codePoints : List UInt16 → List Nat
  | [] => []
  | [u] => [u.toNat]
  | u :: v :: rest =>
    if isLeadSurrogate u.toNat && isTrailSurrogate v.toNat then
      combineSurrogates u.toNat v.toNat :: codePoints rest
    else u.toNat :: codePoints (v :: rest)

def rtUtf8Chars (s : List UInt16) : List Nat := (codePoints s).flatMap appendCodePoint

/-- What `utf8Step` answers where a byte cannot be read. -/
def kReplacement : Nat := 0xFFFD

/-- The loop of `utf8Step` over the `need` continuation bytes: the code point, and the bytes it
takes. -/
def continuation : (need k cp lower upper : Nat) → List Nat → Nat × Nat
  | 0, k, cp, _, _, _ => (cp, k)
  | _ + 1, k, _, _, _, [] => (kReplacement, k)
  | need + 1, k, cp, lower, upper, b :: rest =>
    if b < lower || b > upper then (kReplacement, k)
    else continuation need (k + 1) ((cp <<< 6) ||| (b &&& 0x3F)) 0x80 0xBF rest

def utf8Step : List Nat → Nat × Nat
  | [] => (kReplacement, 1)
  | b :: rest =>
    if b < 0x80 then (b, 1)
    else if b ≥ 0xC2 && b ≤ 0xDF then continuation 1 1 (b &&& 0x1F) 0x80 0xBF rest
    else if b ≥ 0xE0 && b ≤ 0xEF then
      continuation 2 1 (b &&& 0x0F) (if b = 0xE0 then 0xA0 else 0x80) 0xBF rest
    else if b ≥ 0xF0 && b ≤ 0xF4 then
      continuation 3 1 (b &&& 0x07) (if b = 0xF0 then 0x90 else 0x80)
        (if b = 0xF4 then 0x8F else 0xBF) rest
    else (kReplacement, 1)

/-- The loop of `decodeUTF8`. Every step takes a byte, so the number of bytes is enough fuel. -/
def decodeFrom : Nat → List Nat → List Nat
  | 0, _ => []
  | _ + 1, [] => []
  | fuel + 1, b :: rest =>
    (utf8Step (b :: rest)).1 :: decodeFrom fuel ((b :: rest).drop (utf8Step (b :: rest)).2)

/-- The units `decodeUTF8` writes for a code point. -/
def unitsOf (cp : Nat) : List UInt16 :=
  if cp ≥ 0x10000 then
    [UInt16.ofNat (0xD800 + ((cp - 0x10000) >>> 10)),
      UInt16.ofNat (0xDC00 + ((cp - 0x10000) &&& 0x3FF))]
  else [UInt16.ofNat cp]

def createFromUTF8 (bytes : List Nat) : List UInt16 :=
  (decodeFrom bytes.length bytes).flatMap unitsOf

def kLast : Nat := 0x10FFFF

theorem low_bits (n : Nat) : n &&& 0x3F = n % 64 := and_two_pow_sub_one_eq_mod n 6

variable {b cp : Nat} {cps : List Nat} {v : UInt16}

theorem or_low (i a : Nat) (hb : b < 2 ^ i) : 2 ^ i * a ||| b = 2 ^ i * a + b :=
  (two_pow_add_eq_or_of_lt hb a).symm

theorem shift_or (hb : b < 64) : (cp <<< 6) ||| b = 64 * cp + b := by
  rw [Nat.shiftLeft_eq, Nat.mul_comm]
  exact or_low 6 cp hb

theorem trail_byte (n : Nat) : 0x80 ||| (n &&& 0x3F) = 0x80 + n % 64 := by
  rw [low_bits]
  exact or_low 7 1 (lt_trans (mod_lt n (by omega)) (by omega))

theorem appendCodePoint_eq (h : cp ≤ kLast) : appendCodePoint cp =
      if cp ≤ 0x7F then [cp]
      else if cp ≤ 0x7FF then [0xC0 + cp / 64, 0x80 + cp % 64]
      else if cp ≤ 0xFFFF then [0xE0 + cp / 4096, 0x80 + cp / 64 % 64, 0x80 + cp % 64]
      else [0xF0 + cp / 262144, 0x80 + cp / 4096 % 64, 0x80 + cp / 64 % 64, 0x80 + cp % 64] := by
  simp only [kLast] at h
  rw [appendCodePoint]
  simp only [trail_byte, shiftRight_eq_div_pow]
  split_ifs with h₁ h₂ h₃
  · rfl
  · exact congrArg (· :: _) (or_low 6 3 (by omega))
  · exact congrArg (· :: _) (or_low 5 7 (by omega))
  · exact congrArg (· :: _) (or_low 4 15 (by omega))

theorem continuation_succ {need k lower upper : Nat} (rest : List Nat) (hb : b < 64)
    (hlower : lower ≤ 0x80 + b) (hupper : 0x80 + b ≤ upper) :
    continuation (need + 1) k cp lower upper ((0x80 + b) :: rest) =
      continuation need (k + 1) (64 * cp + b) 0x80 0xBF rest := by
  have hlow : (0x80 + b) &&& 0x3F = b := by
    rw [low_bits]
    omega
  rw [continuation, if_neg (by simp; omega), hlow, shift_or hb]

theorem lead_bits (i : Nat) : b &&& (2 ^ i - 1) = b % 2 ^ i :=
  and_two_pow_sub_one_eq_mod b i

/-- **A step** reads one code point off its bytes. -/
theorem utf8Step_append (h : cp ≤ kLast) (rest : List Nat) :
    utf8Step (appendCodePoint cp ++ rest) = (cp, (appendCodePoint cp).length) := by
  rw [appendCodePoint_eq h]
  simp only [kLast] at h
  split_ifs with h₁ h₂ h₃
  · rw [singleton_append, utf8Step, if_pos (by omega)]
    rfl
  · simp only [cons_append, nil_append, utf8Step]
    have hlead : (0xC0 + cp / 64) &&& 0x1F = (0xC0 + cp / 64) % 32 := lead_bits 5
    rw [if_neg (by omega), if_pos (by simp; omega),
      continuation_succ rest (by omega) (by omega) (by omega), continuation]
    congr 1
    omega
  · simp only [cons_append, nil_append, utf8Step]
    have hlead : (0xE0 + cp / 4096) &&& 0x0F = (0xE0 + cp / 4096) % 16 := lead_bits 4
    rw [if_neg (by omega), if_neg (by simp; omega), if_pos (by simp; omega),
      continuation_succ _ (by omega) (by split_ifs <;> omega) (by omega),
      continuation_succ rest (by omega) (by omega) (by omega), continuation]
    congr 1
    omega
  · simp only [cons_append, nil_append, utf8Step]
    have hlead : (0xF0 + cp / 262144) &&& 0x07 = (0xF0 + cp / 262144) % 8 := lead_bits 3
    rw [if_neg (by omega), if_neg (by simp; omega), if_neg (by simp; omega),
      if_pos (by simp; omega),
      continuation_succ _ (by omega) (by split_ifs <;> omega) (by split_ifs <;> omega),
      continuation_succ _ (by omega) (by omega) (by omega),
      continuation_succ rest (by omega) (by omega) (by omega), continuation]
    congr 1
    omega

theorem appendCodePoint_ne_nil (cp : Nat) : appendCodePoint cp ≠ [] := by
  rw [appendCodePoint]
  split_ifs <;> nofun

theorem decodeFrom_flatMap (h : ∀ cp ∈ cps, cp ≤ kLast) {fuel : Nat}
    (hfuel : (cps.flatMap appendCodePoint).length ≤ fuel) :
    decodeFrom fuel (cps.flatMap appendCodePoint) = cps := by
  induction cps generalizing fuel with
  | nil => cases fuel <;> rfl
  | cons cp cps ih =>
    obtain ⟨hcp, hcps⟩ := forall_mem_cons.mp h
    have hstep := utf8Step_append hcp (cps.flatMap appendCodePoint)
    have hpos := length_pos_iff.mpr (appendCodePoint_ne_nil cp)
    rw [flatMap_cons, length_append] at hfuel
    rw [flatMap_cons]
    obtain ⟨fuel, rfl⟩ := Nat.exists_eq_add_of_lt (show 0 < fuel by omega)
    cases hbytes : appendCodePoint cp ++ cps.flatMap appendCodePoint with
    | nil => simp [appendCodePoint_ne_nil] at hbytes
    | cons b rest =>
      rw [decodeFrom, ← hbytes, hstep, drop_left, ih hcps (by omega)]

theorem combineSurrogates_eq (lead trail : Nat) :
    combineSurrogates lead trail = 0x10000 + (lead - 0xD800) * 1024 + (trail - 0xDC00) := by
  have hpow : (2 : Nat) ^ 10 = 1024 := by decide
  unfold combineSurrogates
  rw [hpow]

theorem combineSurrogates_le {u : UInt16} (hu : isLeadSurrogate u.toNat = true)
    (hv : isTrailSurrogate v.toNat = true) :
    0x10000 ≤ combineSurrogates u.toNat v.toNat ∧ combineSurrogates u.toNat v.toNat ≤ kLast := by
  simp only [isLeadSurrogate, isTrailSurrogate, and_eq_true, decide_eq_true_eq] at hu hv
  rw [combineSurrogates_eq, kLast]
  omega

theorem unitsOf_combineSurrogates {u : UInt16} (hu : isLeadSurrogate u.toNat = true)
    (hv : isTrailSurrogate v.toNat = true) :
    unitsOf (combineSurrogates u.toNat v.toNat) = [u, v] := by
  have hle := (combineSurrogates_le hu hv).1
  simp only [isLeadSurrogate, isTrailSurrogate, and_eq_true, decide_eq_true_eq] at hu hv
  rw [unitsOf, if_pos hle]
  have hmask : (combineSurrogates u.toNat v.toNat - 0x10000) &&& 0x3FF =
      (combineSurrogates u.toNat v.toNat - 0x10000) % 1024 := and_two_pow_sub_one_eq_mod _ 10
  have hlead : 0xD800 + ((combineSurrogates u.toNat v.toNat - 0x10000) >>> 10) = u.toNat := by
    rw [combineSurrogates_eq]
    omega
  have htrail : 0xDC00 + (combineSurrogates u.toNat v.toNat - 0x10000) % 1024 = v.toNat := by
    rw [combineSurrogates_eq]
    omega
  simp [hmask, hlead, htrail]

theorem unitsOf_unit (u : UInt16) : unitsOf u.toNat = [u] := by
  have hlt := u.toNat_lt
  rw [unitsOf, if_neg (by omega), UInt16.ofNat_toNat]

theorem codePoints_le (s : List UInt16) : ∀ cp ∈ codePoints s, cp ≤ kLast := by
  induction s using codePoints.induct with
  | case1 => exact nofun
  | case2 u =>
    intro cp hcp
    have hlt := u.toNat_lt
    rw [codePoints, mem_singleton] at hcp
    simp only [kLast]
    omega
  | case3 u v rest h ih =>
    rw [codePoints, if_pos h]
    rw [and_eq_true] at h
    exact forall_mem_cons.mpr ⟨(combineSurrogates_le h.1 h.2).2, ih⟩
  | case4 u v rest h ih =>
    have hlt := u.toNat_lt
    rw [codePoints, if_neg h]
    exact forall_mem_cons.mpr ⟨by simp only [kLast]; omega, ih⟩

theorem flatMap_unitsOf_codePoints (s : List UInt16) : (codePoints s).flatMap unitsOf = s := by
  induction s using codePoints.induct with
  | case1 => rfl
  | case2 u => rw [codePoints, flatMap_cons, unitsOf_unit]; rfl
  | case3 u v rest h ih =>
    rw [codePoints, if_pos h, flatMap_cons, ih]
    rw [and_eq_true] at h
    rw [unitsOf_combineSurrogates h.1 h.2]
    rfl
  | case4 u v rest h ih =>
    rw [codePoints, if_neg h, flatMap_cons, ih, unitsOf_unit]
    rfl

theorem createFromUTF8_flatMap (h : ∀ cp ∈ cps, cp ≤ kLast) :
    createFromUTF8 (cps.flatMap appendCodePoint) = cps.flatMap unitsOf := by
  rw [createFromUTF8, decodeFrom_flatMap h le_rfl]

/-- **The units of a text come back** from its bytes. -/
theorem createFromUTF8_rtUtf8Chars (s : List UInt16) : createFromUTF8 (rtUtf8Chars s) = s := by
  rw [rtUtf8Chars, createFromUTF8_flatMap (codePoints_le s), flatMap_unitsOf_codePoints]

theorem rtUtf8Chars_injective : Function.Injective rtUtf8Chars := by
  intro s t h
  rw [← createFromUTF8_rtUtf8Chars s, h, createFromUTF8_rtUtf8Chars]

/-- `createFromUTF8` of a `std::string_view`, whose size is cut to 32 bits. -/
def createFromUTF8View (sv : List Nat) : List UInt16 :=
  createFromUTF8 (sv.take (sv.length % 2 ^ 32))

/-- **A string comes back from its bytes**, lone surrogates and all, if 32 bits count them; no other
string has them. -/
theorem utf8_round_trip {s : List UInt16} (hs : (rtUtf8Chars s).length < 2 ^ 32) :
    createFromUTF8View (rtUtf8Chars s) = s ∧ ∀ t, rtUtf8Chars t = rtUtf8Chars s → t = s := by
  refine ⟨?_, fun t h => rtUtf8Chars_injective h⟩
  rw [createFromUTF8View, Nat.mod_eq_of_lt hs, take_length, createFromUTF8_rtUtf8Chars]

theorem utf8_round_trip_lone :
    createFromUTF8View (rtUtf8Chars [0xDC00, 0xD800]) = [0xDC00, 0xD800] :=
  (utf8_round_trip (by decide)).1

/-- No code point and the next are the halves of a surrogate pair. -/
def Separated : List Nat → Prop
  | [] => True
  | [_] => True
  | a :: b :: cps => ¬(isLeadSurrogate a = true ∧ isTrailSurrogate b = true) ∧ Separated (b :: cps)

theorem Separated.tail {a : Nat} (h : Separated (a :: cps)) : Separated cps := by
  cases cps with
  | nil => trivial
  | cons b cps => exact h.2

theorem not_isLeadSurrogate {a : Nat} (h : 0x10000 ≤ a) : isLeadSurrogate a = false := by
  simp only [isLeadSurrogate, and_eq_false_iff, decide_eq_false_iff_not]
  omega

theorem head_codePoints {rest : List UInt16} (h : codePoints (v :: rest) = b :: cps) :
    isTrailSurrogate b = true → b = v.toNat := by
  intro hb
  cases rest with
  | nil =>
    exact (cons.inj h).1.symm
  | cons w rest =>
    rw [codePoints] at h
    split_ifs at h with hpair
    · rw [and_eq_true] at hpair
      have hle := (combineSurrogates_le hpair.1 hpair.2).1
      rw [(cons.inj h).1] at hle
      simp only [isTrailSurrogate, and_eq_true, decide_eq_true_eq] at hb
      omega
    · exact (cons.inj h).1.symm

theorem separated_codePoints (s : List UInt16) : Separated (codePoints s) := by
  induction s using codePoints.induct with
  | case1 => trivial
  | case2 u => trivial
  | case3 u v rest h ih =>
    rw [codePoints, if_pos h]
    rw [and_eq_true] at h
    have hle := (combineSurrogates_le h.1 h.2).1
    cases hrest : codePoints rest with
    | nil => trivial
    | cons b cps =>
      refine ⟨fun hpair => ?_, by rw [← hrest]; exact ih⟩
      rw [not_isLeadSurrogate hle] at hpair
      exact absurd hpair.1 nofun
  | case4 u v rest h ih =>
    rw [codePoints, if_neg h]
    cases hrest : codePoints (v :: rest) with
    | nil => trivial
    | cons b cps =>
      refine ⟨fun hpair => h ?_, by rw [← hrest]; exact ih⟩
      rw [and_eq_true]
      rw [← head_codePoints hrest hpair.2]
      exact hpair

theorem toNat_unitsOf (h : cp < 0x10000) : unitsOf cp = [UInt16.ofNat cp] ∧
    (UInt16.ofNat cp).toNat = cp := by
  refine ⟨by rw [unitsOf, if_neg (by omega)], ?_⟩
  exact mod_eq_of_lt (by omega)

theorem unitsOf_pair (hge : 0x10000 ≤ cp) (hle : cp ≤ kLast) :
    ∃ u v, unitsOf cp = [u, v] ∧ isLeadSurrogate u.toNat = true ∧
      isTrailSurrogate v.toNat = true ∧ combineSurrogates u.toNat v.toNat = cp := by
  simp only [kLast] at hle
  have hmask : (cp - 0x10000) &&& 0x3FF = (cp - 0x10000) % 1024 :=
    and_two_pow_sub_one_eq_mod _ 10
  have hu : (UInt16.ofNat (0xD800 + ((cp - 0x10000) >>> 10))).toNat =
      0xD800 + (cp - 0x10000) / 1024 := by
    rw [toNat_ofNat', shiftRight_eq_div_pow]
    exact mod_eq_of_lt (by omega)
  have hv : (UInt16.ofNat (0xDC00 + ((cp - 0x10000) &&& 0x3FF))).toNat =
      0xDC00 + (cp - 0x10000) % 1024 := by
    rw [toNat_ofNat', hmask]
    exact mod_eq_of_lt (by omega)
  refine ⟨_, _, by rw [unitsOf, if_pos hge], ?_⟩
  rw [combineSurrogates_eq]
  simp only [isLeadSurrogate, isTrailSurrogate, and_eq_true, decide_eq_true_eq]
  omega

theorem codePoints_flatMap (hle : ∀ cp ∈ cps, cp ≤ kLast) (hsep : Separated cps) :
    codePoints (cps.flatMap unitsOf) = cps := by
  induction cps with
  | nil => rfl
  | cons a cps ih =>
    obtain ⟨ha, hcps⟩ := forall_mem_cons.mp hle
    have hrest := ih hcps hsep.tail
    rw [flatMap_cons]
    by_cases hpair : 0x10000 ≤ a
    · obtain ⟨u, v, huv, hu, hv, hcombine⟩ := unitsOf_pair hpair ha
      rw [huv, cons_append, cons_append, nil_append, codePoints,
        if_pos (by rw [hu, hv]; rfl), hcombine, hrest]
    · obtain ⟨hunit, hnat⟩ := toNat_unitsOf (not_le.mp hpair)
      rw [hunit, singleton_append]
      cases hunits : cps.flatMap unitsOf with
      | nil =>
        rw [hunits] at hrest
        rw [codePoints, hnat, ← hrest]
        rfl
      | cons v rest =>
        rw [hunits] at hrest
        rw [codePoints, if_neg, hnat, hrest]
        rw [hnat]
        intro hsurrogates
        rw [and_eq_true] at hsurrogates
        -- the next unit is the first of the next code point, which is then a trail surrogate
        cases cps with
        | nil => cases hunits
        | cons b cps =>
          refine hsep.1 ⟨hsurrogates.1, ?_⟩
          obtain ⟨hb, -⟩ := forall_mem_cons.mp hcps
          rw [flatMap_cons] at hunits
          by_cases hb' : 0x10000 ≤ b
          · obtain ⟨u, w, huw, hu, -, -⟩ := unitsOf_pair hb' hb
            rw [huw] at hunits
            rw [(cons.inj hunits).1] at hu
            have htrail := hsurrogates.2
            simp only [isLeadSurrogate, isTrailSurrogate, and_eq_true,
              decide_eq_true_eq] at hu htrail
            omega
          · obtain ⟨hbunit, hbnat⟩ := toNat_unitsOf (not_le.mp hb')
            rw [hbunit] at hunits
            rw [← hbnat, (cons.inj hunits).1]
            exact hsurrogates.2

theorem rtUtf8Chars_flatMap (hle : ∀ cp ∈ cps, cp ≤ kLast) (hsep : Separated cps) :
    rtUtf8Chars (cps.flatMap unitsOf) = cps.flatMap appendCodePoint := by
  rw [rtUtf8Chars, codePoints_flatMap hle hsep]

end Bronze.Utf8
