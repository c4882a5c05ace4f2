import Bronze.Json.Soundness

/-!
# The JSON parser accepts all of JSON

The other direction: on a text the grammar derives for a tree, nested no deeper than the bound, the
parser returns that tree. A scan has to stop where the derivation does, so a text is always
followed by what may follow it; the recursion goes by the fuel again. With the bound left open
this makes the grammar unambiguous, and with it at `kMaxDepth` the two directions meet.

## Main results

* `JSONText.unique`: a text stands for one tree
* `parse_iff`: `json::parse` accepts exactly JSON text nested at most 512 deep
-/

namespace Bronze.Json

open List Parser Outcome

/-- The text, if there is any left, does not go on with a unit that satisfies `q`. -/
def HeadNot (q : UInt16 → Prop) (r : Units) : Prop := ∀ c ∈ r.head?, ¬q c

/-- A number ends before this unit. -/
def GoesOn (c : UInt16) : Prop :=
  isDigit c = true ∨ c = unit '.' ∨ c = unit 'e' ∨ c = unit 'E'

section Scan

variable {p : Parser} {r : Units}

theorem HeadNot.headD {q : UInt16 → Prop} (h : HeadNot q r) (hzero : ¬q 0) : ¬q (r.headD 0) := by
  cases r with
  | nil => exact hzero
  | cons c r => exact h c rfl

theorem takeWhile_append_of_headNot {q : UInt16 → Bool} {s : Units} (hs : ∀ c ∈ s, q c = true)
    (hr : HeadNot (q · = true) r) : (s ++ r).takeWhile q = s := by
  rw [takeWhile_append_of_pos hs]
  cases r with
  | nil => simp
  | cons c r =>
    have : q c = false := by simpa using hr c rfl
    simp [this]

theorem skipWhitespace_complete {w : Units} (hrest : p.rest = w ++ r) (hw : Whitespace w)
    (hr : HeadNot (isWhitespace · = true) r) :
    skipWhitespace p = .value () (p.advance w.length) := by
  rw [skipWhitespace_apply, hrest, takeWhile_append_of_headNot hw hr]

theorem skipDigits_complete {s : Units} (hrest : p.rest = s ++ r) (hs : ∀ c ∈ s, isDigit c = true)
    (hr : HeadNot (isDigit · = true) r) : skipDigits p = .value () (p.advance s.length) := by
  rw [skipDigits_apply, hrest, takeWhile_append_of_headNot hs hr]

theorem matchWord_complete {word : Units} (hrest : p.rest = word ++ r) :
    matchWord word p = .value true (p.advance word.length) := by
  simp [matchWord_apply, hrest]

end Scan

section Strings

variable {p : Parser} {r : Units}

theorem hexDigit_complete {c : UInt16} {d : Nat} (h : HexDigit c d) : hexDigit c = some d := by
  unfold hexDigit
  cases h with
  | digit h =>
    rw [isDigit, Bool.and_eq_true, decide_eq_true_eq, decide_eq_true_eq] at h
    rw [if_pos h]
  | lower h =>
    have h₁ : ¬(unit '0' ≤ c ∧ c ≤ unit '9') := fun h' =>
      absurd (UInt16.le_trans h.1 h'.2) (by decide)
    simp [h₁, h]
  | upper h =>
    have h₁ : ¬(unit '0' ≤ c ∧ c ≤ unit '9') := fun h' =>
      absurd (UInt16.le_trans h.1 h'.2) (by decide)
    have h₂ : ¬(unit 'a' ≤ c ∧ c ≤ unit 'f') := fun h' =>
      absurd (UInt16.le_trans h'.1 h.2) (by decide)
    simp [h₁, h₂, h]

theorem hexDigits_step {n i value d : Nat} {c : UInt16} (hc : p.rest[i]? = some c)
    (hd : HexDigit c d) : hexDigits (n + 1) i value p = hexDigits n (i + 1) (value * 16 + d) p := by
  rw [hexDigits, unitAt_bind hc, hexDigit_complete hd]

theorem escaped_escape {e u : UInt16} (h : (e, u) ∈ escapes) (p : Parser) :
    escaped e p = .value u p := by
  simp only [escapes, mem_cons, Prod.mk.injEq, not_mem_nil, or_false] at h
  rcases h with ⟨rfl, rfl⟩ | ⟨rfl, rfl⟩ | ⟨rfl, rfl⟩ | ⟨rfl, rfl⟩ | ⟨rfl, rfl⟩ | ⟨rfl, rfl⟩ |
    ⟨rfl, rfl⟩ | ⟨rfl, rfl⟩ <;> rfl

theorem escaped_unicode {h₁ h₂ h₃ h₄ : UInt16} {d₁ d₂ d₃ d₄ : Nat} (e₁ : HexDigit h₁ d₁)
    (e₂ : HexDigit h₂ d₂) (e₃ : HexDigit h₃ d₃) (e₄ : HexDigit h₄ d₄)
    (hrest : p.rest = h₁ :: h₂ :: h₃ :: h₄ :: r) :
    escaped (unit 'u') p =
      .value (((d₁ * 16 + d₂) * 16 + d₃) * 16 + d₄).toUInt16 (p.advance 4) := by
  have hlen : ¬p.rest.length < 4 := by
    rw [hrest]
    simp
  have hdigits : hexDigits 4 0 0 p = .value (((d₁ * 16 + d₂) * 16 + d₃) * 16 + d₄) p := by
    rw [hexDigits_step (by rw [hrest]; rfl) e₁, hexDigits_step (by rw [hrest]; rfl) e₂,
      hexDigits_step (by rw [hrest]; rfl) e₃, hexDigits_step (by rw [hrest]; rfl) e₄, hexDigits]
    simp
  have hu : escaped (unit 'u') = (do
      let left ← remaining
      if left < 4 then fail "\\u needs four hexadecimal digits"
      else
        let value ← hexDigits 4 0 0
        advance 4
        return value.toUInt16) := rfl
  rw [hu, remaining_bind, if_neg hlen, bind_of_value hdigits, advance_bind, pure_apply]

theorem stringLoop_step {s : Units} {u : UInt16} (h : StringCharacter s u)
    (hrest : p.rest = s ++ r) (fuel : Nat) :
    stringLoop (fuel + 1) p =
      (stringLoop fuel >>= fun out => pure (u :: out)) (p.advance s.length) := by
  have hread : ∀ {c : UInt16} {t : Units}, p.rest = c :: t → p.rest[0]? = some c := by
    intro c t h
    rw [h]
    rfl
  have hend : ∀ {c : UInt16} {t : Units}, p.rest = c :: t → ¬p.rest.isEmpty = true := by
    intro c t h
    rw [h]
    simp
  cases h with
  | plain hctl hquote hback =>
    rw [stringLoop, atEnd_bind, if_neg (hend hrest), unitAt_bind (hread hrest), if_neg hquote,
      if_neg (UInt16.not_lt.mpr hctl), if_pos hback]
    rfl
  | @escape e _ h =>
    have hr : (p.advance 1).rest = e :: r := by simp [hrest]
    rw [stringLoop, atEnd_bind, if_neg (hend hrest), unitAt_bind (hread hrest), if_neg (by decide),
      if_neg (by decide), if_neg (by decide), advance_bind, atEnd_bind, hr, isEmpty_cons,
      if_neg Bool.false_ne_true, unitAt_bind (c := e) (by rw [hr]; rfl), advance_bind,
      bind_of_value (escaped_escape h _), advance_advance]
    rfl
  | @unicode h₁ h₂ h₃ h₄ _ _ _ _ e₁ e₂ e₃ e₄ =>
    have hr : (p.advance 1).rest = unit 'u' :: h₁ :: h₂ :: h₃ :: h₄ :: r := by simp [hrest]
    have hr' : ((p.advance 1).advance 1).rest = h₁ :: h₂ :: h₃ :: h₄ :: r := by simp [hrest]
    rw [stringLoop, atEnd_bind, if_neg (hend hrest), unitAt_bind (hread hrest), if_neg (by decide),
      if_neg (by decide), if_neg (by decide), advance_bind, atEnd_bind, hr, isEmpty_cons,
      if_neg Bool.false_ne_true, unitAt_bind (c := unit 'u') (by rw [hr]; rfl), advance_bind,
      bind_of_value (escaped_unicode e₁ e₂ e₃ e₄ hr'), advance_advance,
      advance_advance]
    rfl

theorem stringLoop_complete {t text : Units} (h : StringCharacters t text) {fuel : Nat}
    (hfuel : t.length < fuel) (hrest : p.rest = t ++ unit '"' :: r) :
    stringLoop fuel p = .value text (p.advance (t.length + 1)) := by
  induction h generalizing p fuel with
  | nil =>
    obtain ⟨fuel, rfl⟩ : ∃ n, fuel = n + 1 := ⟨fuel - 1, by simp at hfuel; omega⟩
    rw [nil_append] at hrest
    rw [stringLoop, atEnd_bind, hrest, isEmpty_cons, if_neg Bool.false_ne_true,
      unitAt_bind (c := unit '"') (by rw [hrest]; rfl)]
    rfl
  | @cons s t text u hs ht ih =>
    obtain ⟨fuel, rfl⟩ : ∃ n, fuel = n + 1 := ⟨fuel - 1, by omega⟩
    rw [append_assoc] at hrest
    have hpos : 0 < s.length := by cases hs <;> simp
    rw [length_append] at hfuel
    rw [stringLoop_step hs hrest, bind_of_value (ih (by omega) (advance_of_rest hrest)),
      pure_apply, advance_advance, length_append, Nat.add_assoc]

theorem parseString_complete {s text : Units} (h : JSONString s text) (hrest : p.rest = s ++ r) :
    parseString p = .value text (p.advance s.length) := by
  obtain @⟨t, _, ht⟩ := h
  have hr : (p.advance 1).rest = t ++ unit '"' :: r := by simp [hrest]
  rw [parseString, advance_bind, withFuel,
    stringLoop_complete ht (by rw [hr, length_append]; omega) hr]
  simp [Nat.add_comm]

end Strings

/-! ## Numbers -/

section Numbers

variable {p : Parser} {r : Units}

variable {s : Units} {c : UInt16}

theorem Digits.head (h : Digits s) : ∃ c t, s = c :: t ∧ isDigit c = true := by
  obtain ⟨hne, hall⟩ := h
  obtain ⟨c, t, rfl⟩ := exists_cons_of_ne_nil hne
  exact ⟨c, t, rfl, hall c mem_cons_self⟩

theorem demandDigit_complete {what : String} (hrest : p.rest = c :: r) (hc : isDigit c = true) :
    demandDigit what p = .value () p := by
  rw [demandDigit, atEnd_bind, peek_bind, hrest]
  simp [hc]

theorem digits_complete {what : String} (h : Digits s) (hrest : p.rest = s ++ r)
    (hr : HeadNot (isDigit · = true) r) :
    (demandDigit what >>= fun _ => skipDigits) p = .value () (p.advance s.length) := by
  obtain ⟨c, t, rfl, hc⟩ := h.head
  rw [bind_of_value (demandDigit_complete hrest hc)]
  exact skipDigits_complete hrest h.2 hr

theorem peek_of_rest (hrest : p.rest = c :: r) : p.rest.headD 0 = c := by
  rw [hrest, headD_cons]

theorem IntegerPart.head {i : Units} (h : IntegerPart i) :
    ∃ c t, i = c :: t ∧ isDigit c = true := by
  rcases h with rfl | ⟨h, -⟩
  · exact ⟨_, [], rfl, by decide⟩
  · exact h.head

theorem isDigit_ne {d : UInt16} (hc : isDigit c = true) (hd : isDigit d = false) : c ≠ d := by
  rintro rfl
  rw [hc] at hd
  cases hd

theorem numberSign_complete {sign i : Units} (hsign : sign = [] ∨ sign = [unit '-'])
    (hi : IntegerPart i) (hrest : p.rest = sign ++ (i ++ r)) :
    numberSign p = .value () (p.advance sign.length) := by
  rw [numberSign, peek_bind]
  rcases hsign with rfl | rfl
  · obtain ⟨c, t, rfl, hc⟩ := hi.head
    rw [peek_of_rest hrest, if_neg (isDigit_ne hc (by decide))]
    rfl
  · rw [peek_of_rest hrest]
    rfl

theorem numberInteger_complete {i : Units} (hi : IntegerPart i) (hrest : p.rest = i ++ r)
    (hr : HeadNot (isDigit · = true) r) : numberInteger p = .value () (p.advance i.length) := by
  obtain ⟨c, t, rfl, hc⟩ := hi.head
  rw [numberInteger, bind_of_value (demandDigit_complete hrest hc), peek_bind, peek_of_rest hrest]
  rcases hi with hzero | ⟨hdigits, hlead⟩
  · rw [cons.injEq] at hzero
    obtain ⟨rfl, rfl⟩ := hzero
    have hr' : (p.advance 1).rest = r := by simp [hrest]
    have hnot : ¬(!r.isEmpty && isDigit (r.headD 0)) = true := by
      intro h
      rw [Bool.and_eq_true] at h
      exact hr.headD (by decide) h.2
    rw [if_pos rfl, advance_bind, atEnd_bind, peek_bind, hr', if_neg hnot]
    rfl
  · rw [if_neg (by simpa using hlead)]
    exact skipDigits_complete hrest hdigits.2 hr

theorem numberFraction_complete {f : Units} (hf : FractionPart f) (hrest : p.rest = f ++ r)
    (hr : HeadNot (fun c => isDigit c = true ∨ c = unit '.') r) :
    numberFraction p = .value () (p.advance f.length) := by
  rw [numberFraction, peek_bind]
  rcases hf with rfl | ⟨t, ht, rfl⟩
  · rw [nil_append] at hrest
    rw [hrest, if_neg fun h => hr.headD (by decide) (.inr h)]
    rfl
  · have hr' : (p.advance 1).rest = t ++ r := by simp [hrest]
    rw [peek_of_rest hrest, if_pos rfl, advance_bind,
      digits_complete ht hr' (fun c hc h => hr c hc (.inl h)), advance_advance,
      length_cons, Nat.add_comm]

theorem exponentSign_complete {sign t : Units}
    (hsign : sign = [] ∨ sign = [unit '+'] ∨ sign = [unit '-']) (ht : Digits t)
    (hrest : p.rest = sign ++ (t ++ r)) : exponentSign p = .value () (p.advance sign.length) := by
  rw [exponentSign, peek_bind]
  rcases hsign with rfl | rfl | rfl
  · obtain ⟨c, t, rfl, hc⟩ := ht.head
    rw [peek_of_rest hrest, if_neg]
    · rfl
    · rintro (h | h)
      · exact isDigit_ne hc (by decide) h
      · exact isDigit_ne hc (by decide) h
  · rw [peek_of_rest hrest]
    rfl
  · rw [peek_of_rest hrest]
    rfl

theorem numberExponent_complete {e : Units} (he : ExponentPart e) (hrest : p.rest = e ++ r)
    (hr : HeadNot GoesOn r) : numberExponent p = .value () (p.advance e.length) := by
  rw [numberExponent, peek_bind]
  rcases he with rfl | ⟨c, sign, t, hc, hsign, ht, rfl⟩
  · rw [nil_append] at hrest
    rw [hrest, if_neg fun h => hr.headD (by unfold GoesOn; decide) (.inr (.inr h))]
    rfl
  · have hr₁ : (p.advance 1).rest = sign ++ (t ++ r) := by simp [hrest]
    have hr₂ : ((p.advance 1).advance sign.length).rest = t ++ r := advance_of_rest hr₁
    rw [peek_of_rest hrest, if_pos hc, advance_bind,
      bind_of_value (exponentSign_complete hsign ht hr₁),
      digits_complete ht hr₂ (fun c hc h => hr c hc (.inl h)), advance_advance,
      advance_advance, length_cons, length_append]
    congr 2
    omega

theorem headNot_append {q : UInt16 → Prop} (hs : HeadNot q s) (hr : HeadNot q r) :
    HeadNot q (s ++ r) := by
  cases s with
  | nil => exact hr
  | cons c s => exact hs

theorem ExponentPart.headNot {e : Units} (h : ExponentPart e) :
    HeadNot (fun c => isDigit c = true ∨ c = unit '.') e := by
  rcases h with rfl | ⟨c, sign, t, hc, -, -, rfl⟩
  · simp [HeadNot]
  · rintro _ ⟨rfl⟩
    rcases hc with rfl | rfl <;> decide

theorem FractionPart.headNot {f : Units} (h : FractionPart f) : HeadNot (isDigit · = true) f := by
  rcases h with rfl | ⟨t, -, rfl⟩
  · simp [HeadNot]
  · rintro _ ⟨rfl⟩
    decide

theorem parseNumber_complete (h : JSONNumber s) (hrest : p.rest = s ++ r) (hr : HeadNot GoesOn r) :
    parseNumber p = .value (.number s) (p.advance s.length) := by
  obtain ⟨sign, i, f, e, hsign, hi, hf, he, rfl⟩ := h
  have hends : HeadNot (fun c => isDigit c = true ∨ c = unit '.') (e ++ r) :=
    headNot_append he.headNot fun c hc h => hr c hc (h.imp_right .inl)
  have hends' : HeadNot (isDigit · = true) (f ++ (e ++ r)) :=
    headNot_append hf.headNot fun c hc h => hends c hc (.inl h)
  have h₀ : p.rest = sign ++ (i ++ (f ++ (e ++ r))) := by simp [hrest]
  have h₁ : (p.advance sign.length).rest = i ++ (f ++ (e ++ r)) := Parser.advance_of_rest h₀
  have h₂ := Parser.advance_of_rest h₁
  have h₃ := Parser.advance_of_rest h₂
  have hrun : (do numberSign; numberInteger; numberFraction; numberExponent) p =
      .value () (p.advance (sign ++ (i ++ (f ++ e))).length) := by
    rw [bind_of_value (numberSign_complete hsign hi h₀),
      bind_of_value (numberInteger_complete hi h₁ hends'),
      bind_of_value (numberFraction_complete hf h₂ hends), numberExponent_complete he h₃ hr]
    simp [Nat.add_assoc]
  have hspan : spanOf (do numberSign; numberInteger; numberFraction; numberExponent) p =
      .value (sign ++ (i ++ (f ++ e))) (p.advance (sign ++ (i ++ (f ++ e))).length) := by
    rw [spanOf, hrun]
    simp only [Parser.advance, Nat.add_sub_cancel_left, hrest, take_left]
  rw [parseNumber, bind_of_value hspan, pure_apply]

end Numbers

/-! ## Values -/

section Values

variable {p : Parser} {r : Units} {D : Nat}

/-- The units a value may start with. -/
def Starts (c : UInt16) : Prop :=
  c ∈ [unit '{', unit '[', unit '"', unit 't', unit 'f', unit 'n', unit '-'] ∨ isDigit c = true

theorem Starts.spec {c : UInt16} (h : Starts c) :
    isWhitespace c = false ∧ c ≠ unit ']' ∧ c ≠ unit '}' := by
  rcases h with h | h
  · simp only [mem_cons, not_mem_nil, or_false] at h
    rcases h with rfl | rfl | rfl | rfl | rfl | rfl | rfl <;> decide
  · refine ⟨?_, isDigit_ne h (by decide), isDigit_ne h (by decide)⟩
    simp only [isWhitespace, Bool.or_eq_false_iff, decide_eq_false_iff_not]
    exact ⟨⟨⟨isDigit_ne h (by decide), isDigit_ne h (by decide)⟩, isDigit_ne h (by decide)⟩,
      isDigit_ne h (by decide)⟩

variable {s : Units}

theorem JSONNumber.head (h : JSONNumber s) :
    ∃ c t, s = c :: t ∧ (c = unit '-' ∨ isDigit c = true) := by
  obtain ⟨sign, i, f, e, hsign, hi, -, -, rfl⟩ := h
  obtain ⟨c, t, rfl, hc⟩ := hi.head
  rcases hsign with rfl | rfl
  · exact ⟨c, _, rfl, .inr hc⟩
  · exact ⟨_, _, rfl, .inl rfl⟩

variable {v : Value}

theorem JSONValue.head (h : JSONValue s v) : ∃ c t, s = c :: t ∧ Starts c := by
  cases h with
  | null | true | false => exact ⟨_, _, rfl, .inl (by decide)⟩
  | string h =>
    obtain ⟨h⟩ := h
    exact ⟨_, _, rfl, .inl (by decide)⟩
  | number h =>
    obtain ⟨c, t, rfl, hc⟩ := h.head
    refine ⟨c, t, rfl, hc.imp_left ?_⟩
    rintro rfl
    decide
  | emptyArray | array | emptyObject | object => exact ⟨_, _, rfl, .inl (by decide)⟩

theorem headNot_ws_value (h : JSONValue s v) (r : Units) :
    HeadNot (isWhitespace · = true) (s ++ r) := by
  obtain ⟨c, t, rfl, hc⟩ := h.head
  rintro _ ⟨rfl⟩
  simp [hc.spec.1]

/-- After a value there is whitespace, a comma, a closing bracket or the end. -/
theorem headNot_goesOn {w : Units} (hw : Whitespace w)
    (hr : ∀ c ∈ r.head?, c = unit ',' ∨ c = unit ']' ∨ c = unit '}') :
    HeadNot GoesOn (w ++ r) := by
  refine headNot_append ?_ ?_
  · intro c hc
    have := hw c (mem_of_mem_head? hc)
    simp only [isWhitespace, Bool.or_eq_true, decide_eq_true_eq] at this
    rcases this with ((rfl | rfl) | rfl) | rfl <;> (unfold GoesOn; decide)
  · intro c hc
    rcases hr c hc with rfl | rfl | rfl <;> (unfold GoesOn; decide)

theorem headNot_ws_cons {c : UInt16} (h : isWhitespace c = false) :
    HeadNot (isWhitespace · = true) (c :: r) := by
  rintro _ ⟨rfl⟩
  simp [h]

/-- What the recursion returns on a derivation, with the fuel each function needs. -/
structure Complete (D fuel : Nat) : Prop where
  value : ∀ {p : Parser} {s r : Units} {v : Value}, JSONValue s v → p.rest = s ++ r →
    HeadNot GoesOn r → p.depth + v.nesting ≤ D → 3 * s.length + 1 ≤ fuel →
    parseValue D fuel p = .value v (p.advance s.length)
  array : ∀ {p : Parser} {s r : Units} {v : Value}, JSONValue (unit '[' :: s) v →
    p.rest = unit '[' :: (s ++ r) → p.depth + v.nesting ≤ D → 3 * (s.length + 1) ≤ fuel →
    parseArray D fuel p = .value v (p.advance (s.length + 1))
  elements : ∀ {p : Parser} {t r : Units} {vs : List Value}, Elements t vs →
    p.rest = t ++ unit ']' :: r → p.depth + nestingElements vs ≤ D → 3 * t.length + 2 ≤ fuel →
    arrayElements D fuel p = .value vs (p.advance (t.length + 1))
  object : ∀ {p : Parser} {s r : Units} {v : Value}, JSONValue (unit '{' :: s) v →
    p.rest = unit '{' :: (s ++ r) → p.depth + v.nesting ≤ D → 3 * (s.length + 1) ≤ fuel →
    parseObject D fuel p = .value v (p.advance (s.length + 1))
  members : ∀ {p : Parser} {t r : Units} {ms : List (Units × Value)}, Members t ms →
    p.rest = t ++ unit '}' :: r → p.depth + nestingMembers ms ≤ D → 3 * t.length + 2 ≤ fuel →
    objectMembers D fuel p = .value ms (p.advance (t.length + 1))

theorem value_complete {fuel : Nat} (ih : Complete D fuel) (h : JSONValue s v)
    (hrest : p.rest = s ++ r) (hr : HeadNot GoesOn r) (hdepth : p.depth + v.nesting ≤ D)
    (hfuel : 3 * s.length ≤ fuel) : parseValue D (fuel + 1) p = .value v (p.advance s.length) := by
  obtain ⟨c, t, rfl, hc⟩ := h.head
  rw [cons_append] at hrest
  rw [parseValue, atEnd_bind, hrest, isEmpty_cons, if_neg Bool.false_ne_true, peek_bind,
    peek_of_rest hrest]
  -- the production decides the first unit, and the first unit the branch
  generalize hs : c :: t = s at h
  cases h with
  | null | true | false =>
    obtain ⟨rfl, rfl⟩ := cons.inj hs
    simp +decide only [↓reduceIte]
    rw [bind_of_value (matchWord_complete hrest)]
    rfl
  | @string _ text h =>
    subst hs
    obtain ⟨u, hu⟩ : ∃ u, c :: t = unit '"' :: u := by
      obtain @⟨u, _, -⟩ := h
      exact ⟨_, rfl⟩
    obtain ⟨rfl, -⟩ := cons.inj hu
    rw [if_neg (by decide), if_neg (by decide), if_pos rfl,
      bind_of_value (parseString_complete h hrest), pure_apply]
  | number h =>
    subst hs
    obtain ⟨c', t', hs, hc'⟩ := h.head
    obtain ⟨rfl, rfl⟩ := cons.inj hs
    -- a number starts with no unit that another branch asks for
    have hne : ∀ {d : UInt16}, isDigit d = false → d ≠ unit '-' → c ≠ d := by
      intro d hd hminus
      rcases hc' with rfl | hc'
      · exact hminus.symm
      · exact isDigit_ne hc' hd
    rw [if_neg (hne (by decide) (by decide)), if_neg (hne (by decide) (by decide)),
      if_neg (hne (by decide) (by decide)), if_neg (hne (by decide) (by decide)),
      if_neg (hne (by decide) (by decide)), if_neg (hne (by decide) (by decide)), if_pos hc']
    exact parseNumber_complete h hrest hr
  | emptyArray hw =>
    obtain ⟨rfl, rfl⟩ := cons.inj hs
    exact ih.array (.emptyArray hw) hrest hdepth hfuel
  | array h =>
    obtain ⟨rfl, rfl⟩ := cons.inj hs
    exact ih.array (.array h) hrest hdepth hfuel
  | emptyObject hw =>
    obtain ⟨rfl, rfl⟩ := cons.inj hs
    exact ih.object (.emptyObject hw) hrest hdepth hfuel
  | object h =>
    obtain ⟨rfl, rfl⟩ := cons.inj hs
    exact ih.object (.object h) hrest hdepth hfuel

theorem nested_complete {α : Type} {x : Parse α} {a : α} {n : Nat} (hdepth : p.depth + 1 ≤ D)
    (h : x { p with depth := p.depth + 1 } =
      .value a (({ p with depth := p.depth + 1 } : Parser).advance n)) :
    nested D x p = .value a (p.advance n) := by
  simp only [nested, if_pos hdepth, h]
  rfl

theorem JSONValue.array_inv {s : Units} {v : Value} (h : JSONValue (unit '[' :: s) v) :
    (∃ w, Whitespace w ∧ s = w ++ [unit ']'] ∧ v = .array []) ∨
      ∃ t vs, Elements t vs ∧ s = t ++ [unit ']'] ∧ v = .array vs := by
  generalize hs : unit '[' :: s = s' at h
  cases h with
  | emptyArray hw => exact .inl ⟨_, hw, (cons.inj hs).2, rfl⟩
  | array h => exact .inr ⟨_, _, h, (cons.inj hs).2, rfl⟩
  | string h =>
    obtain ⟨h⟩ := h
    exact absurd (cons.inj hs).1 (by decide)
  | number h =>
    obtain ⟨c, t, rfl, hc⟩ := h.head
    obtain ⟨rfl, -⟩ := cons.inj hs
    exact absurd hc (by decide)
  | null | true | false | emptyObject | object => exact absurd (cons.inj hs).1 (by decide)

theorem JSONValue.object_inv {s : Units} {v : Value} (h : JSONValue (unit '{' :: s) v) :
    (∃ w, Whitespace w ∧ s = w ++ [unit '}'] ∧ v = .object []) ∨
      ∃ t ms, Members t ms ∧ s = t ++ [unit '}'] ∧ v = .object ms := by
  generalize hs : unit '{' :: s = s' at h
  cases h with
  | emptyObject hw => exact .inl ⟨_, hw, (cons.inj hs).2, rfl⟩
  | object h => exact .inr ⟨_, _, h, (cons.inj hs).2, rfl⟩
  | string h =>
    obtain ⟨h⟩ := h
    exact absurd (cons.inj hs).1 (by decide)
  | number h =>
    obtain ⟨c, t, rfl, hc⟩ := h.head
    obtain ⟨rfl, -⟩ := cons.inj hs
    exact absurd hc (by decide)
  | null | true | false | emptyArray | array => exact absurd (cons.inj hs).1 (by decide)

theorem whitespace_nil : Whitespace [] := by simp [Whitespace]

theorem Elements.split {t : Units} {vs : List Value} (h : Elements t vs) :
    ∃ w c u, Whitespace w ∧ t = w ++ c :: u ∧ Starts c ∧ Elements (c :: u) vs := by
  cases h with
  | @last w₁ s w₂ v hw₁ hv hw₂ =>
    have he := Elements.last whitespace_nil hv hw₂
    obtain ⟨c, u, rfl, hc⟩ := hv.head
    exact ⟨w₁, c, u ++ w₂, hw₁, rfl, hc, he⟩
  | @cons w₁ s w₂ t v vs hw₁ hv hw₂ ht =>
    have he := Elements.cons whitespace_nil hv hw₂ ht
    obtain ⟨c, u, rfl, hc⟩ := hv.head
    exact ⟨w₁, c, u ++ (w₂ ++ unit ',' :: t), hw₁, rfl, hc, he⟩

theorem Members.split {t : Units} {ms : List (Units × Value)} (h : Members t ms) :
    ∃ w u, Whitespace w ∧ t = w ++ unit '"' :: u ∧ Members (unit '"' :: u) ms := by
  cases h with
  | @last w₁ k w₂ w₃ s w₄ key v hw₁ hk hw₂ hw₃ hv hw₄ =>
    have hm := Members.last whitespace_nil hk hw₂ hw₃ hv hw₄
    obtain ⟨hk⟩ := hk
    exact ⟨w₁, _, hw₁, rfl, hm⟩
  | @cons w₁ k w₂ w₃ s w₄ t key v ms hw₁ hk hw₂ hw₃ hv hw₄ ht =>
    have hm := Members.cons whitespace_nil hk hw₂ hw₃ hv hw₄ ht
    obtain ⟨hk⟩ := hk
    exact ⟨w₁, _, hw₁, rfl, hm⟩

theorem array_complete {fuel : Nat} (ih : Complete D fuel) {s : Units} {v : Value}
    (h : JSONValue (unit '[' :: s) v) (hrest : p.rest = unit '[' :: (s ++ r))
    (hdepth : p.depth + v.nesting ≤ D) (hfuel : 3 * (s.length + 1) ≤ fuel + 1) :
    parseArray D (fuel + 1) p = .value v (p.advance (s.length + 1)) := by
  have hr₁ : (({ p with depth := p.depth + 1 } : Parser).advance 1).rest = s ++ r := by
    simp [hrest]
  rcases h.array_inv with ⟨w, hw, rfl, rfl⟩ | ⟨t, vs, ht, rfl, rfl⟩
  · rw [append_assoc] at hr₁
    have hr₂ := advance_of_rest hr₁
    refine nested_complete (by simpa [Value.nesting, nestingElements] using hdepth) ?_
    rw [advance_bind, bind_of_value (skipWhitespace_complete hr₁ hw (headNot_ws_cons (by decide))),
      peek_bind, peek_of_rest hr₂]
    simp [Nat.add_comm]
  · simp only [Value.nesting] at hdepth
    obtain ⟨w, c, u, hw, rfl, hc, hu⟩ := ht.split
    simp only [append_assoc] at hr₁
    simp only [length_append, length_cons] at hfuel
    have hr₂ := advance_of_rest hr₁
    refine nested_complete (by omega) ?_
    rw [advance_bind, bind_of_value (skipWhitespace_complete hr₁ hw (headNot_ws_cons hc.spec.1)),
      peek_bind, peek_of_rest hr₂, if_neg hc.spec.2.1,
      bind_of_value (ih.elements hu hr₂ (by simp only [advance_depth]; omega)
        (by simp only [length_cons]; omega)),
      pure_apply]
    simp only [advance_advance, length_append, length_cons, length_nil]
    congr 2
    omega

theorem object_complete {fuel : Nat} (ih : Complete D fuel) {s : Units} {v : Value}
    (h : JSONValue (unit '{' :: s) v) (hrest : p.rest = unit '{' :: (s ++ r))
    (hdepth : p.depth + v.nesting ≤ D) (hfuel : 3 * (s.length + 1) ≤ fuel + 1) :
    parseObject D (fuel + 1) p = .value v (p.advance (s.length + 1)) := by
  have hr₁ : (({ p with depth := p.depth + 1 } : Parser).advance 1).rest = s ++ r := by
    simp [hrest]
  rcases h.object_inv with ⟨w, hw, rfl, rfl⟩ | ⟨t, ms, ht, rfl, rfl⟩
  · rw [append_assoc] at hr₁
    have hr₂ := advance_of_rest hr₁
    refine nested_complete (by simpa [Value.nesting, nestingMembers] using hdepth) ?_
    rw [advance_bind, bind_of_value (skipWhitespace_complete hr₁ hw (headNot_ws_cons (by decide))),
      peek_bind, peek_of_rest hr₂]
    simp [Nat.add_comm]
  · simp only [Value.nesting] at hdepth
    obtain ⟨w, u, hw, rfl, hu⟩ := ht.split
    simp only [append_assoc] at hr₁
    simp only [length_append, length_cons] at hfuel
    have hr₂ := advance_of_rest hr₁
    refine nested_complete (by omega) ?_
    rw [advance_bind, bind_of_value (skipWhitespace_complete hr₁ hw (headNot_ws_cons (by decide))),
      peek_bind, peek_of_rest hr₂, if_neg (by decide),
      bind_of_value (ih.members hu hr₂ (by simp only [advance_depth]; omega)
        (by simp only [length_cons]; omega)),
      pure_apply]
    simp only [advance_advance, length_append, length_cons, length_nil]
    congr 2
    omega

theorem padded_complete {fuel : Nat} {w₁ w₂ : Units} {c : UInt16} (ih : Complete D fuel)
    (hw₁ : Whitespace w₁) (hv : JSONValue s v) (hw₂ : Whitespace w₂)
    (hc : c = unit ',' ∨ c = unit ']' ∨ c = unit '}')
    (hrest : p.rest = w₁ ++ (s ++ (w₂ ++ c :: r))) (hdepth : p.depth + v.nesting ≤ D)
    (hfuel : 3 * s.length + 1 ≤ fuel) {α : Type} (f : Value → Parse α) :
    (do skipWhitespace; let v ← parseValue D fuel; skipWhitespace; f v) p =
        f v (p.advance (w₁.length + s.length + w₂.length)) ∧
      (p.advance (w₁.length + s.length + w₂.length)).rest = c :: r := by
  have h₁ := advance_of_rest hrest
  have h₂ := advance_of_rest h₁
  have hws : isWhitespace c = false := by rcases hc with rfl | rfl | rfl <;> decide
  rw [bind_of_value (skipWhitespace_complete hrest hw₁ (headNot_ws_value hv _)),
    bind_of_value (ih.value hv h₁ (headNot_goesOn hw₂ (by simpa using hc)) hdepth hfuel),
    bind_of_value (skipWhitespace_complete h₂ hw₂ (headNot_ws_cons hws))]
  simp [hrest, Nat.add_assoc]

theorem elements_complete {fuel : Nat} (ih : Complete D fuel) {t : Units} {vs : List Value}
    (h : Elements t vs) (hrest : p.rest = t ++ unit ']' :: r)
    (hdepth : p.depth + nestingElements vs ≤ D) (hfuel : 3 * t.length + 2 ≤ fuel + 1) :
    arrayElements D (fuel + 1) p = .value vs (p.advance (t.length + 1)) := by
  rw [arrayElements]
  cases h with
  | @last w₁ s w₂ v hw₁ hv hw₂ =>
    simp only [length_append] at hfuel
    simp only [nestingElements] at hdepth
    obtain ⟨hrun, hnext⟩ := padded_complete ih hw₁ hv hw₂ (.inr (.inl rfl))
      (by simpa using hrest) (by omega) (by omega) _
    rw [hrun, peek_bind, peek_of_rest hnext, if_neg (by decide)]
    simp [Nat.add_assoc]
  | @cons w₁ s w₂ t v vs hw₁ hv hw₂ ht =>
    simp only [length_append, length_cons] at hfuel
    simp only [nestingElements] at hdepth
    obtain ⟨hrun, hnext⟩ := padded_complete ih hw₁ hv hw₂ (.inl rfl)
      (by simpa using hrest) (by omega) (by omega) _
    rw [hrun, peek_bind, peek_of_rest hnext, if_pos rfl, advance_bind,
      bind_of_value (ih.elements ht (advance_of_cons hnext)
        (by simp only [advance_depth]; omega) (by omega)),
      pure_apply]
    simp only [advance_advance, length_append, length_cons]
    congr 2
    omega

/-- A key and its colon, up to the value. -/
theorem key_complete {w₁ k w₂ key : Units} (hw₁ : Whitespace w₁) (hk : JSONString k key)
    (hw₂ : Whitespace w₂) (hrest : p.rest = w₁ ++ (k ++ (w₂ ++ unit ':' :: r))) {α : Type}
    (f : Units → Parse α) (g h : Parse α) :
    (do
      skipWhitespace
      let c ← peek
      if c ≠ unit '"' then g
      else
        let key ← parseString
        skipWhitespace
        let c ← peek
        if c ≠ unit ':' then h
        else
          advance 1
          f key) p = f key (p.advance (w₁.length + k.length + w₂.length + 1)) ∧
      (p.advance (w₁.length + k.length + w₂.length + 1)).rest = r := by
  have h₁ := advance_of_rest hrest
  have h₂ := advance_of_rest h₁
  have hquote : ∃ u, k ++ (w₂ ++ unit ':' :: r) = unit '"' :: u := by
    obtain ⟨hk⟩ := hk
    exact ⟨_, rfl⟩
  obtain ⟨u, hu⟩ := hquote
  rw [bind_of_value (skipWhitespace_complete hrest hw₁ (hu ▸ headNot_ws_cons (by decide))),
    peek_bind, peek_of_rest (h₁.trans hu), if_neg (by simp),
    bind_of_value (parseString_complete hk h₁),
    bind_of_value (skipWhitespace_complete h₂ hw₂ (headNot_ws_cons (by decide))), peek_bind,
    peek_of_rest (advance_of_rest h₂), if_neg (by simp), advance_bind]
  simp [hrest, Nat.add_assoc]

theorem members_complete {fuel : Nat} (ih : Complete D fuel) {t : Units}
    {ms : List (Units × Value)} (h : Members t ms) (hrest : p.rest = t ++ unit '}' :: r)
    (hdepth : p.depth + nestingMembers ms ≤ D) (hfuel : 3 * t.length + 2 ≤ fuel + 1) :
    objectMembers D (fuel + 1) p = .value ms (p.advance (t.length + 1)) := by
  rw [objectMembers]
  cases h with
  | @last w₁ k w₂ w₃ s w₄ key v hw₁ hk hw₂ hw₃ hv hw₄ =>
    simp only [length_append, length_cons] at hfuel
    simp only [nestingMembers] at hdepth
    obtain ⟨hrun, hr⟩ := key_complete hw₁ hk hw₂ (by simpa using hrest) _ _ _
    obtain ⟨hrun', hnext⟩ := padded_complete ih hw₃ hv hw₄ (.inr (.inr rfl)) hr
      (by simp only [advance_depth]; omega) (by omega) _
    rw [hrun, hrun', peek_bind, peek_of_rest hnext, if_neg (by decide), if_pos rfl, advance_bind,
      pure_apply]
    simp only [advance_advance, length_append, length_cons]
    congr 2
    omega
  | @cons w₁ k w₂ w₃ s w₄ t key v ms hw₁ hk hw₂ hw₃ hv hw₄ ht =>
    simp only [length_append, length_cons] at hfuel
    simp only [nestingMembers] at hdepth
    obtain ⟨hrun, hr⟩ := key_complete hw₁ hk hw₂ (by simpa using hrest) _ _ _
    obtain ⟨hrun', hnext⟩ := padded_complete ih hw₃ hv hw₄ (.inl rfl) hr
      (by simp only [advance_depth]; omega) (by omega) _
    rw [hrun, hrun', peek_bind, peek_of_rest hnext, if_pos rfl, advance_bind,
      bind_of_value (ih.members ht (advance_of_cons hnext)
        (by simp only [advance_depth]; omega) (by omega)),
      pure_apply]
    simp only [advance_advance, length_append, length_cons]
    congr 2
    omega

/-- **The recursion returns what is derived**, given the fuel. -/
theorem complete (D fuel : Nat) : Complete D fuel := by
  induction fuel with
  | zero =>
    constructor
    all_goals
      intros
      omega
  | succ fuel ih =>
    exact ⟨fun h hrest hr hdepth hfuel => value_complete ih h hrest hr hdepth (by omega),
      fun h hrest hdepth hfuel => array_complete ih h hrest hdepth hfuel,
      fun h hrest hdepth hfuel => elements_complete ih h hrest hdepth hfuel,
      fun h hrest hdepth hfuel => object_complete ih h hrest hdepth hfuel,
      fun h hrest hdepth hfuel => members_complete ih h hrest hdepth hfuel⟩

/-- **The parser accepts JSON** that nests within the bound. -/
theorem parseText_complete {v : Value} (h : JSONText p.rest v) (hdepth : p.depth + v.nesting ≤ D) :
    parseText D p = .value v (p.advance p.rest.length) := by
  obtain ⟨w₁, s, w₂, hw₁, hv, hw₂, hrest⟩ := h
  have h₁ := advance_of_rest hrest
  have h₂ := advance_of_rest h₁
  have h₃ : (((p.advance w₁.length).advance s.length).advance w₂.length).rest = [] := by
    rw [advance_rest, h₂, drop_length]
  have hgoes : HeadNot GoesOn w₂ := by
    simpa using headNot_goesOn hw₂ (r := []) (by simp)
  have hvalue : parseFueled D (p.advance w₁.length) =
      .value v ((p.advance w₁.length).advance s.length) :=
    (complete D _).value hv h₁ hgoes hdepth (by rw [fuelFor, h₁, length_append]; omega)
  rw [parseText, bind_of_value (skipWhitespace_complete hrest hw₁ (headNot_ws_value hv _)),
    bind_of_value hvalue,
    bind_of_value (skipWhitespace_complete (r := []) (by simpa using h₂) hw₂ (by simp [HeadNot]))]
  simp [hrest, Nat.add_assoc]

end Values

/-- **A JSON text stands for one tree.** -/
theorem JSONText.unique {text : Units} {v v' : Value} (h : JSONText text v)
    (h' : JSONText text v') : v = v' := by
  -- a bound that both trees keep
  let p : Parser := { rest := text, pos := 0, depth := 0, error := "" }
  have hv := parseText_complete (p := p) (D := max v.nesting v'.nesting) h (by simp [p])
  have hv' := parseText_complete (p := p) (D := max v.nesting v'.nesting) h' (by simp [p])
  rw [hv] at hv'
  exact (value.inj hv').1

/-- **`json::parse` accepts exactly JSON text.** The parser returns on every text, without a read
past its end; it returns a tree exactly when the text spells one that nests at most 512 deep, that
tree is the only one the text spells, and without a tree there is an error. -/
theorem parse_iff (text : Units) :
    ∃ value error, parse text = .ok (value, error) ∧
      (∀ v, value = some v ↔ JSONText text v ∧ v.nesting ≤ 512) ∧
      (∀ v, value = some v → ∀ v', JSONText text v' → v' = v) ∧
      (value = none ↔ error ≠ "") := by
  let p : Parser := { rest := text, pos := 0, depth := 0, error := "" }
  have hsound := parseText_sound (p := p) (D := kMaxDepth) rfl
  unfold Triple at hsound
  cases hrun : parseText kMaxDepth p with
  | fault f => simp [hrun] at hsound
  | null q =>
    -- a rejected text has no tree within the bound, or the parser would have returned it
    simp only [hrun] at hsound
    refine ⟨none, q.error, ?_, fun v => ⟨nofun, ?_⟩, nofun, by simp [hsound]⟩
    · simp only [parse, parseWithin]
      rw [show parseText kMaxDepth _ = null q from hrun]
      simp [hsound]
    · rintro ⟨hv, hnest⟩
      have := parseText_complete (p := p) (D := kMaxDepth) hv (by simpa [p, kMaxDepth] using hnest)
      rw [hrun] at this
      cases this
  | value v q =>
    simp only [hrun] at hsound
    have hq : q = p.advance text.length := by
      have := parseText_complete (p := p) (D := kMaxDepth) hsound.1 (by simpa [p] using hsound.2)
      rw [hrun] at this
      exact (value.inj this).2
    refine ⟨some v, "", ?_, fun v' => ⟨?_, ?_⟩, ?_, by simp⟩
    · simp only [parse, parseWithin]
      rw [show parseText kMaxDepth _ = value v q from hrun, hq]
      rfl
    · rintro ⟨rfl⟩
      exact hsound
    · rintro ⟨hv', -⟩
      rw [JSONText.unique hsound.1 hv']
    · rintro _ ⟨rfl⟩ v' hv'
      exact JSONText.unique hv' hsound.1

end Bronze.Json
