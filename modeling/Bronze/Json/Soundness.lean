import Bronze.Json.Parser

/-!
# What the JSON parser accepts is JSON

Every function of the parser, on a run with enough fuel, reads no unit past the end of the text,
sets an error when it returns the null pointer, and otherwise leaves behind the text it read: a
text the grammar derives for the tree it returned. The proof follows the functions; the recursion
goes by the fuel, three of which are there for each unit still to read.

## Main results

* `skipWhile_apply`: what a scanning loop passes over
-/

namespace Bronze.Json

open List Triple Parser

/-- The run from `p` to `p'` read a text that `G` relates to the value it returned. -/
def Reads {α : Type} (G : Units → α → Prop) (p : Parser) (a : α) (p' : Parser) : Prop :=
  ∃ s r, p.rest = s ++ r ∧ p' = p.advance s.length ∧ G s a

theorem Parser.advance_of_rest {p : Parser} {s r : Units} (h : p.rest = s ++ r) :
    (p.advance s.length).rest = r := by
  simp [h]

theorem Parser.advance_of_cons {p : Parser} {c : UInt16} {r : Units} (h : p.rest = c :: r) :
    (p.advance 1).rest = r := by
  simp [h]

theorem Reads.rest {α : Type} {G : Units → α → Prop} {p p' : Parser} {a : α}
    (h : Reads G p a p') : ∃ s, p.rest = s ++ p'.rest ∧ p' = p.advance s.length ∧ G s a := by
  obtain ⟨s, r, hrest, rfl, hG⟩ := h
  exact ⟨s, by rw [advance_of_rest hrest, hrest], rfl, hG⟩

section Scan

variable {p : Parser}

theorem skipWhile_apply (q : UInt16 → Bool) {fuel : Nat} (hfuel : p.rest.length < fuel) :
    skipWhile q fuel p = .value () (p.advance (p.rest.takeWhile q).length) := by
  induction fuel generalizing p with
  | zero => omega
  | succ fuel ih =>
    -- one unit of fuel for the unit passed over
    rw [skipWhile, atEnd_bind]
    cases hrest : p.rest with
    | nil => simp
    | cons c r =>
      have hread : p.rest[0]? = some c := by rw [hrest]; rfl
      simp only [isEmpty_cons, Bool.false_eq_true, if_false]
      rw [unitAt_bind hread]
      cases hq : q c with
      | false => simp [hq]
      | true =>
        rw [if_pos rfl, advance_bind, ih (by simp [hrest] at hfuel ⊢; omega)]
        simp [hrest, hq, Nat.add_comm]

theorem skipWhitespace_apply (p : Parser) :
    skipWhitespace p = .value () (p.advance (p.rest.takeWhile isWhitespace).length) :=
  skipWhile_apply isWhitespace (Nat.lt_succ_self _)

theorem skipDigits_apply (p : Parser) :
    skipDigits p = .value () (p.advance (p.rest.takeWhile isDigit).length) :=
  skipWhile_apply isDigit (Nat.lt_succ_self _)

theorem takeWhile_reads (q : UInt16 → Bool) (p : Parser) :
    Reads (fun s (_ : Unit) => ∀ c ∈ s, q c = true) p ()
      (p.advance (p.rest.takeWhile q).length) :=
  ⟨p.rest.takeWhile q, p.rest.dropWhile q, (takeWhile_append_dropWhile).symm, rfl,
    fun _ hc => mem_takeWhile_imp hc⟩

theorem skipWhitespace_sound (p : Parser) :
    Triple skipWhitespace p (Reads (fun w _ => Whitespace w) p) := by
  rw [Triple, skipWhitespace_apply]
  exact takeWhile_reads isWhitespace p

theorem matchUnits_apply {word : Units} {i : Nat} (hlen : i + word.length ≤ p.rest.length) :
    matchUnits word i p = .value (decide ((p.rest.drop i).take word.length = word)) p := by
  induction word generalizing i with
  | nil => simp [matchUnits]
  | cons w word ih =>
    simp only [length_cons] at hlen
    have hi : i < p.rest.length := by omega
    rw [matchUnits, unitAt_bind (getElem?_eq_getElem hi), drop_eq_getElem_cons hi,
      length_cons, take_succ_cons]
    by_cases hw : p.rest[i] = w
    · rw [if_neg (by simpa using hw), ih (by omega)]
      simp [hw]
    · rw [if_pos hw]
      simp [hw]

theorem matchWord_apply (word : Units) (p : Parser) :
    matchWord word p = if p.rest.take word.length = word then .value true (p.advance word.length)
      else .value false p := by
  rw [matchWord, remaining_bind]
  by_cases hlen : p.rest.length < word.length
  · rw [if_pos hlen, if_neg]
    · rfl
    · intro h
      have := congrArg length h
      rw [length_take] at this
      omega
  · rw [if_neg hlen, bind_of_value (matchUnits_apply (by omega))]
    by_cases hw : p.rest.take word.length = word
    · simp [hw]
    · simp [hw]

end Scan

/-! ## Strings -/

section Strings

variable {p : Parser}

theorem hexDigit_sound {c : UInt16} {d : Nat} (h : hexDigit c = some d) : HexDigit c d := by
  unfold hexDigit at h
  split_ifs at h with h₁ h₂ h₃
  · cases h
    exact .digit (by simpa [isDigit] using h₁)
  · cases h
    exact .lower h₂
  · cases h
    exact .upper h₃

theorem hexDigits_sound {n i value : Nat} {ds r : Units} (hrest : p.rest.drop i = ds ++ r)
    (hn : ds.length = n) :
    Triple (hexDigits n i value) p (fun v p' => p' = p ∧
      ∃ vs, Forall₂ HexDigit ds vs ∧ v = vs.foldl (fun v d => v * 16 + d) value) := by
  induction n generalizing i value ds with
  | zero =>
    obtain rfl := length_eq_zero_iff.mp hn
    exact ⟨rfl, [], .nil, rfl⟩
  | succ n ih =>
    obtain ⟨c, ds, rfl⟩ : ∃ c ds', ds = c :: ds' := exists_cons_of_length_eq_add_one hn
    have hread : p.rest[i]? = some c := by
      rw [← head?_drop, hrest]
      rfl
    refine Triple.unitAt_bind hread ?_
    cases hd : hexDigit c with
    | none => exact Triple.fail _
    | some d =>
      have hdrop : p.rest.drop (i + 1) = ds ++ r := by
        rw [← drop_drop, hrest]
        rfl
      refine (ih hdrop (by simpa using hn)).mono ?_
      rintro v p' ⟨rfl, vs, hvs, rfl⟩
      exact ⟨rfl, d :: vs, .cons (hexDigit_sound hd) hvs, rfl⟩

/-- The unit an escape stands for, and what is left of its spelling after the first unit. -/
theorem escaped_sound (e : UInt16) (p : Parser) :
    Triple (escaped e) p (Reads (fun s u => StringCharacter (unit '\\' :: e :: s) u) p) := by
  have simple : ∀ {u : UInt16}, (e, u) ∈ escapes →
      Reads (fun s u => StringCharacter (unit '\\' :: e :: s) u) p u p := by
    intro u hu
    exact ⟨[], p.rest, rfl, rfl, .escape hu⟩
  unfold escaped
  split_ifs with h₁ h₂ h₃ h₄ h₅ h₆ h₇ h₈ h₉
  · exact pure (simple (by simp [escapes, h₁]))
  · exact pure (simple (by simp [escapes, h₂]))
  · exact pure (simple (by simp [escapes, h₃]))
  · exact pure (simple (by simp [escapes, h₄]))
  · exact pure (simple (by simp [escapes, h₅]))
  · exact pure (simple (by simp [escapes, h₆]))
  · exact pure (simple (by simp [escapes, h₇]))
  · exact Triple.pure (simple (by simp [escapes, h₈]))
  · refine Triple.remaining_bind ?_
    by_cases hlen : p.rest.length < 4
    · rw [if_pos hlen]
      exact Triple.fail _
    match hrest : p.rest with
    | [] | [_] | [_, _] | [_, _, _] => simp [hrest] at hlen
    | a :: b :: c :: d :: r =>
      have hdrop : p.rest.drop 0 = [a, b, c, d] ++ r := hrest
      refine (hexDigits_sound (n := 4) hdrop rfl).bind ?_
      rintro v p' ⟨rfl, vs, hvs, rfl⟩
      refine Triple.advance_bind (Triple.pure ⟨[a, b, c, d], r, hrest, rfl, ?_⟩)
      obtain - | ⟨e₁, - | ⟨e₂, - | ⟨e₃, - | ⟨e₄, - | -⟩⟩⟩⟩ := hvs
      simpa [h₉] using StringCharacter.unicode e₁ e₂ e₃ e₄
  · exact Triple.fail _

/-- What `stringLoop` reads: the characters of the string and the closing quote. -/
def StringTail (s text : Units) : Prop := ∃ t, StringCharacters t text ∧ s = t ++ [unit '"']

theorem StringTail.cons {s t text : Units} {c : UInt16} (h : StringCharacter s c)
    (ht : StringTail t text) : StringTail (s ++ t) (c :: text) := by
  obtain ⟨u, hu, rfl⟩ := ht
  exact ⟨s ++ u, .cons h hu, (append_assoc ..).symm⟩

theorem stringLoop_sound {fuel : Nat} (hfuel : p.rest.length < fuel) :
    Triple (stringLoop fuel) p (Reads StringTail p) := by
  induction fuel generalizing p with
  | zero => omega
  | succ fuel ih =>
    refine Triple.atEnd_bind ?_
    cases hrest : p.rest with
    | nil => exact Triple.fail _
    | cons c r =>
      rw [hrest, length_cons] at hfuel
      have hread : p.rest[0]? = some c := by rw [hrest]; rfl
      refine Triple.unitAt_bind hread ?_
      -- one more character of the string, spelled `s`, before the rest of the loop
      have step : ∀ {s r' : Units} {u : UInt16}, p.rest = s ++ r' → s ≠ [] →
          StringCharacter s u →
          Triple (stringLoop fuel >>= fun out => pure (u :: out)) (p.advance s.length)
            (Reads StringTail p) := by
        intro s r' u hs hne hu
        have hr' : (p.advance s.length).rest = r' := advance_of_rest hs
        have hlen : r'.length < fuel := by
          have := length_pos_of_ne_nil hne
          rw [hrest] at hs
          have := congrArg length hs
          simp only [length_cons, length_append] at this
          omega
        refine (ih (by rwa [hr'])).bind ?_
        rintro out _ ⟨t, r'', ht, rfl, htail⟩
        rw [hr'] at ht
        refine pure ⟨s ++ t, r'', by simp [hs, ht], ?_, htail.cons hu⟩
        simp
      split_ifs with hquote hctl hback
      -- the closing quote ends the loop
      · refine Triple.advance_bind (Triple.pure ⟨[c], r, hrest, rfl, [], .nil, ?_⟩)
        rw [hquote]
        rfl
      · exact Triple.fail _
      · exact Triple.advance_bind (step (s := [c]) hrest (by simp)
          (.plain (UInt16.not_lt.mp hctl) hquote hback))
      -- an escape: the backslash, the unit after it and what `escaped` reads
      · rw [not_not] at hback
        subst hback
        refine Triple.advance_bind (Triple.atEnd_bind ?_)
        have hadv : (p.advance 1).rest = r := by simp [hrest]
        rw [hadv]
        cases hr : r with
        | nil => exact Triple.fail _
        | cons e r' =>
          rw [hr] at hadv
          refine Triple.unitAt_bind (c := e) (by rw [hadv]; rfl) (Triple.advance_bind ?_)
          refine (escaped_sound e _).bind ?_
          rintro u _ ⟨s, r'', hs, rfl, hu⟩
          rw [advance_rest, hadv] at hs
          have hall : p.rest = (unit '\\' :: e :: s) ++ r'' := by
            rw [hrest, hr]
            simpa using hs
          have := step hall (by simp) hu
          rw [advance_advance]
          simpa [Nat.add_comm] using this

theorem parseString_sound {r : Units} (hrest : p.rest = unit '"' :: r) :
    Triple parseString p (Reads JSONString p) := by
  refine Triple.advance_bind (Triple.withFuel ((stringLoop_sound (Nat.lt_succ_self _)).mono ?_))
  rintro text _ ⟨_, r', hr', rfl, t, ht, rfl⟩
  have hr : (p.advance 1).rest = r := by simp [hrest]
  rw [hr] at hr'
  refine ⟨unit '"' :: (t ++ [unit '"']), r', by rw [hrest, hr']; rfl, ?_, .quoted ht⟩
  rw [advance_advance, length_cons, Nat.add_comm]

end Strings

/-! ## Numbers -/

section Numbers

variable {p : Parser}

theorem Reads.bind {α β : Type} {G : Units → α → Prop} {H : α → Units → β → Prop} {x : Parse α}
    {f : α → Parse β} (hx : Triple x p (Reads G p))
    (hf : ∀ a p', Triple (f a) p' (Reads (H a) p')) :
    Triple (x >>= f) p
      (Reads (fun s b => ∃ s₁ s₂ a, s = s₁ ++ s₂ ∧ G s₁ a ∧ H a s₂ b) p) := by
  refine hx.bind ?_
  intro a p' hp
  obtain ⟨s₁, hrest, rfl, hG⟩ := hp.rest
  refine (hf a _).mono ?_
  rintro b _ ⟨s₂, r, hr, rfl, hH⟩
  refine ⟨s₁ ++ s₂, r, by rw [hrest, hr, append_assoc], ?_, s₁, s₂, a, rfl, hG, hH⟩
  simp

theorem reads_unit {c : UInt16} {r : Units} (hrest : p.rest = c :: r) :
    Reads (fun s (_ : Unit) => s = [c]) p () (p.advance 1) := ⟨[c], r, hrest, rfl, rfl⟩

/-- `peek` shows the unit to be read where it shows anything but the end. -/
theorem rest_of_peek {c : UInt16} (h : p.rest.headD 0 = c) (hc : c ≠ 0) : ∃ r, p.rest = c :: r := by
  cases hrest : p.rest with
  | nil =>
    rw [hrest] at h
    exact absurd h.symm hc
  | cons c' r =>
    rw [hrest] at h
    exact ⟨r, by rw [← h]; rfl⟩

theorem optional_sound {q : UInt16 → Prop} [DecidablePred q] (hq : ¬q 0) (p : Parser) :
    Triple (do let c ← peek; if q c then advance 1 else return ()) p
      (Reads (fun s _ => s = [] ∨ ∃ c, q c ∧ s = [c]) p) := by
  refine Triple.peek_bind ?_
  split_ifs with h
  · obtain ⟨r, hrest⟩ := rest_of_peek rfl (fun h0 => hq (h0 ▸ h))
    exact ⟨_, r, hrest, rfl, .inr ⟨_, h, rfl⟩⟩
  · exact ⟨[], p.rest, rfl, rfl, .inl rfl⟩

theorem demandDigit_sound (what : String) (p : Parser) :
    Triple (demandDigit what) p
      (fun _ p' => p' = p ∧ ∃ c r, p.rest = c :: r ∧ isDigit c = true) := by
  refine Triple.atEnd_bind (Triple.peek_bind ?_)
  cases hrest : p.rest with
  | nil => exact Triple.fail what
  | cons c r =>
    split_ifs with h
    · exact Triple.fail what
    · exact ⟨rfl, c, r, rfl, by simpa using h⟩

theorem digits_sound (what : String) (p : Parser) :
    Triple (demandDigit what >>= fun _ => skipDigits) p (Reads (fun s _ => Digits s) p) := by
  refine (demandDigit_sound what p).bind ?_
  rintro - p' ⟨rfl, c, r, hrest, hc⟩
  rw [Triple, skipDigits_apply]
  refine ⟨_, _, (takeWhile_append_dropWhile).symm, rfl, ?_, fun _ hm => mem_takeWhile_imp hm⟩
  simp [hrest, hc]

theorem numberSign_sound (p : Parser) :
    Triple numberSign p (Reads (fun s _ => s = [] ∨ s = [unit '-']) p) := by
  refine (optional_sound (q := (· = unit '-')) (by decide) p).mono ?_
  rintro a p' ⟨s, r, hrest, hp, hs⟩
  refine ⟨s, r, hrest, hp, hs.imp_right ?_⟩
  rintro ⟨c, rfl, rfl⟩
  rfl

theorem numberInteger_sound (p : Parser) :
    Triple numberInteger p (Reads (fun s _ => IntegerPart s) p) := by
  refine (demandDigit_sound _ p).bind ?_
  rintro - p' ⟨rfl, c, r, hrest, hc⟩
  refine Triple.peek_bind ?_
  rw [hrest, headD_cons]
  split_ifs with hzero
  · refine Triple.advance_bind (Triple.atEnd_bind (Triple.peek_bind ?_))
    split_ifs
    · exact Triple.fail _
    · exact Triple.pure ⟨[c], r, hrest, rfl, .inl (by rw [hzero])⟩
  · rw [Triple, skipDigits_apply]
    refine ⟨_, _, (takeWhile_append_dropWhile).symm, rfl, .inr ⟨⟨?_, ?_⟩, ?_⟩⟩
    · simp [hrest, hc]
    · exact fun _ hm => mem_takeWhile_imp hm
    · simpa [hrest, hc] using hzero

theorem numberFraction_sound (p : Parser) :
    Triple numberFraction p (Reads (fun s _ => FractionPart s) p) := by
  refine Triple.peek_bind ?_
  split_ifs with hdot
  · obtain ⟨r, hrest⟩ := rest_of_peek hdot (by decide)
    refine Triple.advance_bind ((digits_sound ..).mono ?_)
    rintro - _ ⟨t, r', ht, rfl, hdigits⟩
    have hr : (p.advance 1).rest = r := by simp [hrest]
    rw [hr] at ht
    refine ⟨unit '.' :: t, r', by rw [hrest, ht]; rfl, ?_, .inr ⟨t, hdigits, rfl⟩⟩
    rw [advance_advance, length_cons, Nat.add_comm]
  · exact ⟨[], p.rest, rfl, rfl, .inl rfl⟩

theorem exponentSign_sound (p : Parser) :
    Triple exponentSign p (Reads (fun s _ => s = [] ∨ s = [unit '+'] ∨ s = [unit '-']) p) := by
  refine (optional_sound (q := fun c => c = unit '+' ∨ c = unit '-') (by decide) p).mono ?_
  rintro a p' ⟨s, r, hrest, hp, hs⟩
  refine ⟨s, r, hrest, hp, hs.imp_right ?_⟩
  rintro ⟨c, rfl | rfl, rfl⟩
  · exact .inl rfl
  · exact .inr rfl

theorem numberExponent_sound (p : Parser) :
    Triple numberExponent p (Reads (fun s _ => ExponentPart s) p) := by
  refine Triple.peek_bind ?_
  split_ifs with he
  · obtain ⟨r, hrest⟩ := rest_of_peek rfl (fun h0 => by rw [h0] at he; revert he; decide)
    refine Triple.advance_bind ((Reads.bind (exponentSign_sound _)
      (fun _ p' => digits_sound "a digit was expected in the exponent" p')).mono ?_)
    rintro - _ ⟨_, r', ht, rfl, sign, t, -, rfl, hsign, hdigits⟩
    rw [advance_rest, hrest, drop_one, tail_cons] at ht
    refine ⟨p.rest.headD 0 :: (sign ++ t), r', ?_, ?_, .inr ⟨_, sign, t, he, hsign, hdigits, rfl⟩⟩
    · rw [ht] at hrest
      exact hrest
    · rw [advance_advance, length_cons, Nat.add_comm]
  · exact ⟨[], p.rest, rfl, rfl, .inl rfl⟩

theorem spanOf_sound {G : Units → Prop} {x : Parse Unit}
    (h : Triple x p (Reads (fun s _ => G s) p)) :
    Triple (spanOf x) p (Reads (fun s literal => literal = s ∧ G s) p) := by
  unfold Triple spanOf at *
  cases hx : x p with
  | fault => simp [hx] at h
  | null => simpa [hx] using h
  | value a p' =>
    simp only [hx] at h ⊢
    obtain ⟨s, r, hrest, rfl, hG⟩ := h
    refine ⟨s, r, hrest, rfl, ?_, hG⟩
    simp [Parser.advance, hrest]

theorem parseNumber_sound (p : Parser) :
    Triple parseNumber p
      (Reads (fun s v => v = .number s ∧ JSONNumber s) p) := by
  have hnumber : Triple (do numberSign; numberInteger; numberFraction; numberExponent) p
      (Reads (fun s _ => JSONNumber s) p) := by
    refine (Reads.bind (numberSign_sound p) fun _ p => Reads.bind (numberInteger_sound p)
      fun _ p => Reads.bind (numberFraction_sound p) fun _ p => numberExponent_sound p).mono ?_
    rintro a p' ⟨s, r, hrest, hp, sign, _, -, rfl, hsign, i, _, -, rfl, hi, f, e, -, rfl, hf, he⟩
    exact ⟨_, r, hrest, hp, sign, i, f, e, hsign, hi, hf, he, rfl⟩
  refine (spanOf_sound hnumber).bind ?_
  rintro _ p' ⟨s, r, hrest, hp, rfl, hs⟩
  exact pure ⟨_, r, hrest, hp, rfl, hs⟩

end Numbers

/-! ## Values -/

section Values

variable {p : Parser} {D : Nat} {α : Type}

theorem nested_sound {G : Units → α → Prop} {x : Parse α}
    (h : p.depth + 1 ≤ D → Triple x { p with depth := p.depth + 1 }
      (Reads G { p with depth := p.depth + 1 })) :
    Triple (nested D x) p (Reads (fun s a => p.depth + 1 ≤ D ∧ G s a) p) := by
  unfold Triple nested at *
  by_cases hdepth : p.depth + 1 ≤ D
  · rw [if_pos hdepth]
    specialize h hdepth
    cases hx : x { p with depth := p.depth + 1 } with
    | fault => simp [hx] at h
    | null => simpa [hx] using h
    | value a p' =>
      simp only [hx] at h ⊢
      obtain ⟨s, r, hrest, rfl, hG⟩ := h
      exact ⟨s, r, hrest, rfl, hdepth, hG⟩
  · rw [if_neg hdepth]
    exact fail_error _ _

theorem matchWord_sound {word : Units} {v : Value} (hword : JSONValue word v)
    (hdepth : p.depth + v.nesting ≤ D) :
    Triple (do if ← matchWord word then return v else unexpected) p
      (Reads (fun s v => JSONValue s v ∧ p.depth + v.nesting ≤ D) p) := by
  unfold Triple
  rw [bind_apply, matchWord_apply]
  by_cases hw : p.rest.take word.length = word
  · rw [if_pos hw]
    refine ⟨word, p.rest.drop word.length, ?_, rfl, hword, hdepth⟩
    conv_lhs => rw [← take_append_drop word.length p.rest, hw]
  · rw [if_neg hw]
    exact Triple.unexpected

/-- A step that reads `s`, and what follows it. -/
theorem Triple.reads_bind {α β : Type} {G : Units → β → Prop} {H : Units → α → Prop}
    {x : Parse α} {f : α → Parse β} (hx : Triple x p (Reads H p))
    (hf : ∀ a s q, p.rest = s ++ q.rest → q.depth = p.depth → H s a →
      Triple (f a) q (Reads (fun t b => G (s ++ t) b) q)) :
    Triple (x >>= f) p (Reads G p) := by
  refine hx.bind ?_
  intro a p' hp
  obtain ⟨s, hrest, rfl, hH⟩ := hp.rest
  refine (hf a s _ hrest rfl hH).mono ?_
  rintro b _ ⟨t, r, ht, rfl, hG⟩
  refine ⟨s ++ t, r, by rw [hrest, ht, append_assoc], ?_, hG⟩
  simp

/-- A step over the unit `peek` showed. -/
theorem Triple.reads_advance {G : Units → α → Prop} {f : Unit → Parse α} {c : UInt16}
    (hc : p.rest.headD 0 = c) (hzero : c ≠ 0) (hf : ∀ q, p.rest = c :: q.rest → q.depth = p.depth →
      Triple (f ()) q (Reads (fun t b => G (c :: t) b) q)) :
    Triple (advance 1 >>= f) p (Reads G p) := by
  obtain ⟨r, hrest⟩ := rest_of_peek hc hzero
  have hread : Triple (advance 1) p (Reads (fun s _ => s = [c]) p) := reads_unit hrest
  refine hread.reads_bind ?_
  rintro - _ q hq hdepth rfl
  exact hf q hq hdepth

theorem Triple.reads_pure {G : Units → α → Prop} {a : α} (h : G [] a) :
    Triple (Pure.pure a) p (Reads G p) := ⟨[], p.rest, rfl, rfl, h⟩

theorem Whitespace.append {w₁ w₂ : Units} (h₁ : Whitespace w₁) (h₂ : Whitespace w₂) :
    Whitespace (w₁ ++ w₂) := by
  intro c hc
  exact (mem_append.mp hc).elim (h₁ c) (h₂ c)

theorem Elements.whitespace {w s : Units} {vs : List Value} (hw : Whitespace w)
    (h : Elements s vs) : Elements (w ++ s) vs := by
  cases h with
  | last hw₁ hv hw₂ =>
    rw [← append_assoc]
    exact .last (hw.append hw₁) hv hw₂
  | cons hw₁ hv hw₂ ht =>
    rw [← append_assoc]
    exact .cons (hw.append hw₁) hv hw₂ ht

theorem Members.whitespace {w s : Units} {ms : List (Units × Value)} (hw : Whitespace w)
    (h : Members s ms) : Members (w ++ s) ms := by
  cases h with
  | last hw₁ hk hw₂ hw₃ hv hw₄ =>
    rw [← append_assoc]
    exact .last (hw.append hw₁) hk hw₂ hw₃ hv hw₄
  | cons hw₁ hk hw₂ hw₃ hv hw₄ ht =>
    rw [← append_assoc]
    exact .cons (hw.append hw₁) hk hw₂ hw₃ hv hw₄ ht

/-- What the functions of the recursion read, with the fuel each of them needs. -/
structure Sound (D fuel : Nat) : Prop where
  value : ∀ p : Parser, p.depth ≤ D → 3 * p.rest.length + 1 ≤ fuel →
    Triple (parseValue D fuel) p (Reads (fun s v => JSONValue s v ∧ p.depth + v.nesting ≤ D) p)
  array : ∀ (p : Parser) (r : Units), p.rest = unit '[' :: r → 3 * p.rest.length ≤ fuel →
    Triple (parseArray D fuel) p (Reads (fun s v => JSONValue s v ∧ p.depth + v.nesting ≤ D) p)
  elements : ∀ p : Parser, p.depth ≤ D → 3 * p.rest.length + 2 ≤ fuel →
    Triple (arrayElements D fuel) p (Reads (fun s vs => ∃ t, s = t ++ [unit ']'] ∧
      Elements t vs ∧ p.depth + nestingElements vs ≤ D) p)
  object : ∀ (p : Parser) (r : Units), p.rest = unit '{' :: r → 3 * p.rest.length ≤ fuel →
    Triple (parseObject D fuel) p (Reads (fun s v => JSONValue s v ∧ p.depth + v.nesting ≤ D) p)
  members : ∀ p : Parser, p.depth ≤ D → 3 * p.rest.length + 2 ≤ fuel →
    Triple (objectMembers D fuel) p (Reads (fun s ms => ∃ t, s = t ++ [unit '}'] ∧
      Members t ms ∧ p.depth + nestingMembers ms ≤ D) p)

variable {fuel : Nat}

theorem value_sound (ih : Sound D fuel) (hdepth : p.depth ≤ D) (hfuel : 3 * p.rest.length ≤ fuel) :
    Triple (parseValue D (fuel + 1)) p
      (Reads (fun s v => JSONValue s v ∧ p.depth + v.nesting ≤ D) p) := by
  refine Triple.atEnd_bind ?_
  cases hrest : p.rest with
  | nil => exact Triple.fail _
  | cons c r =>
    refine Triple.peek_bind ?_
    rw [hrest, headD_cons]
    split_ifs with hobject harray hstring htrue hfalse hnull hnumber
    · exact ih.object p r (by rw [hrest, hobject]) hfuel
    · exact ih.array p r (by rw [hrest, harray]) hfuel
    · refine (parseString_sound (r := r) (by rw [hrest, hstring])).bind ?_
      rintro text p' ⟨s, r', hs, hp, hstr⟩
      exact pure ⟨s, r', hs, hp, .string hstr, hdepth⟩
    · exact matchWord_sound .true hdepth
    · exact matchWord_sound .false hdepth
    · exact matchWord_sound .null hdepth
    · refine (parseNumber_sound p).mono ?_
      rintro v p' ⟨s, r', hs, hp, rfl, hnum⟩
      exact ⟨s, r', hs, hp, .number hnum, hdepth⟩
    · exact Triple.unexpected

theorem array_sound (ih : Sound D fuel) {r : Units} (hrest : p.rest = unit '[' :: r)
    (hfuel : 3 * p.rest.length ≤ fuel + 1) :
    Triple (parseArray D (fuel + 1)) p
      (Reads (fun s v => JSONValue s v ∧ p.depth + v.nesting ≤ D) p) := by
  refine (nested_sound (G := fun s v => JSONValue s v ∧ p.depth + v.nesting ≤ D)
    fun hdepth => ?_).mono fun v p' ⟨s, r, hs, hp, _, hv⟩ => ⟨s, r, hs, hp, hv⟩
  refine reads_advance (c := unit '[') (by simp [hrest]) (by decide)
    fun q₁ h₁ d₁ => ?_
  refine (skipWhitespace_sound q₁).reads_bind fun _ w q₂ h₂ d₂ hw => Triple.peek_bind ?_
  have hlen : p.rest.length = q₂.rest.length + w.length + 1 := by
    rw [show p.rest = _ from h₁, h₂]
    simp [Nat.add_comm]
  split_ifs with hclose
  · refine reads_advance hclose (by decide) fun q₃ _ _ => reads_pure ⟨?_, ?_⟩
    · exact .emptyArray hw
    · simpa [Value.nesting, nestingElements] using hdepth
  · refine (ih.elements q₂ (by rw [d₂, d₁]; exact hdepth) (by omega)).reads_bind ?_
    rintro vs _ q₃ h₃ d₃ ⟨t, rfl, ht, hnest⟩
    refine reads_pure ⟨?_, ?_⟩
    · simpa using JSONValue.array (ht.whitespace hw)
    · have hdeep : q₂.depth = p.depth + 1 := d₂.trans d₁
      simp only [Value.nesting]
      omega

theorem elements_sound (ih : Sound D fuel) (hdepth : p.depth ≤ D)
    (hfuel : 3 * p.rest.length + 2 ≤ fuel + 1) :
    Triple (arrayElements D (fuel + 1)) p (Reads (fun s vs => ∃ t, s = t ++ [unit ']'] ∧
      Elements t vs ∧ p.depth + nestingElements vs ≤ D) p) := by
  refine (skipWhitespace_sound p).reads_bind fun _ w₁ q₁ h₁ d₁ hw₁ => ?_
  have hlen₁ := congrArg length h₁
  rw [length_append] at hlen₁
  refine (ih.value q₁ (by rwa [d₁]) (by omega)).reads_bind fun v s q₂ h₂ d₂ ⟨hv, hnest⟩ => ?_
  refine (skipWhitespace_sound q₂).reads_bind fun _ w₂ q₃ h₃ d₃ hw₂ => Triple.peek_bind ?_
  split_ifs with hcomma hclose
  -- after a comma the loop demands another element, and has the fuel for it
  · refine reads_advance hcomma (by decide) fun q₄ h₄ d₄ => ?_
    have hlen : q₄.rest.length + 1 ≤ q₁.rest.length := by
      rw [h₂, h₃, h₄]
      simp
      omega
    refine (ih.elements q₄ (by rwa [d₄, d₃, d₂, d₁]) (by omega)).reads_bind ?_
    rintro vs _ q₅ h₅ d₅ ⟨t, rfl, ht, hnest'⟩
    refine reads_pure ⟨w₁ ++ (s ++ (w₂ ++ unit ',' :: t)), by simp, ?_, ?_⟩
    · exact .cons hw₁ hv hw₂ ht
    · rw [d₄] at hnest'
      simp only [nestingElements]
      omega
  · refine reads_advance hclose (by decide) fun q₄ _ _ => reads_pure
      ⟨w₁ ++ (s ++ w₂), by simp, .last hw₁ hv hw₂, ?_⟩
    rw [d₁] at hnest
    simpa [nestingElements] using hnest
  · exact Triple.fail _

theorem object_sound (ih : Sound D fuel) {r : Units} (hrest : p.rest = unit '{' :: r)
    (hfuel : 3 * p.rest.length ≤ fuel + 1) :
    Triple (parseObject D (fuel + 1)) p
      (Reads (fun s v => JSONValue s v ∧ p.depth + v.nesting ≤ D) p) := by
  refine (nested_sound (G := fun s v => JSONValue s v ∧ p.depth + v.nesting ≤ D)
    fun hdepth => ?_).mono fun v p' ⟨s, r, hs, hp, _, hv⟩ => ⟨s, r, hs, hp, hv⟩
  refine reads_advance (c := unit '{') (by simp [hrest]) (by decide)
    fun q₁ h₁ d₁ => ?_
  refine (skipWhitespace_sound q₁).reads_bind fun _ w q₂ h₂ d₂ hw => Triple.peek_bind ?_
  have hlen : p.rest.length = q₂.rest.length + w.length + 1 := by
    rw [show p.rest = _ from h₁, h₂]
    simp [Nat.add_comm]
  split_ifs with hclose
  · refine reads_advance hclose (by decide) fun q₃ _ _ => reads_pure ⟨?_, ?_⟩
    · exact .emptyObject hw
    · simpa [Value.nesting, nestingMembers] using hdepth
  · refine (ih.members q₂ (by rw [d₂, d₁]; exact hdepth) (by omega)).reads_bind ?_
    rintro ms _ q₃ h₃ d₃ ⟨t, rfl, ht, hnest⟩
    refine reads_pure ⟨?_, ?_⟩
    · simpa using JSONValue.object (ht.whitespace hw)
    · have hdeep : q₂.depth = p.depth + 1 := d₂.trans d₁
      simp only [Value.nesting]
      omega

theorem members_sound (ih : Sound D fuel) (hdepth : p.depth ≤ D)
    (hfuel : 3 * p.rest.length + 2 ≤ fuel + 1) :
    Triple (objectMembers D (fuel + 1)) p (Reads (fun s ms => ∃ t, s = t ++ [unit '}'] ∧
      Members t ms ∧ p.depth + nestingMembers ms ≤ D) p) := by
  refine (skipWhitespace_sound p).reads_bind fun _ w₁ q₁ h₁ d₁ hw₁ => Triple.peek_bind ?_
  by_cases hquote : q₁.rest.headD 0 = unit '"'
  swap
  · rw [if_pos hquote]
    exact Triple.fail _
  rw [if_neg (not_not.mpr hquote)]
  obtain ⟨r, hr⟩ := rest_of_peek hquote (by decide)
  refine (parseString_sound hr).reads_bind fun key k q₂ h₂ d₂ hk => ?_
  refine (skipWhitespace_sound q₂).reads_bind fun _ w₂ q₃ h₃ d₃ hw₂ => Triple.peek_bind ?_
  by_cases hcolon : q₃.rest.headD 0 = unit ':'
  swap
  · rw [if_pos hcolon]
    exact Triple.fail _
  rw [if_neg (not_not.mpr hcolon)]
  refine reads_advance hcolon (by decide) fun q₄ h₄ d₄ => ?_
  refine (skipWhitespace_sound q₄).reads_bind fun _ w₃ q₅ h₅ d₅ hw₃ => ?_
  have hlen : q₅.rest.length + 1 ≤ p.rest.length := by
    rw [h₁, h₂, h₃, h₄, h₅]
    simp
    omega
  refine (ih.value q₅ (by rwa [d₅, d₄, d₃, d₂, d₁]) (by omega)).reads_bind
    fun v s q₆ h₆ d₆ ⟨hv, hnest⟩ => ?_
  refine (skipWhitespace_sound q₆).reads_bind fun _ w₄ q₇ h₇ d₇ hw₄ => Triple.peek_bind ?_
  rw [d₅, d₄, d₃, d₂, d₁] at hnest
  split_ifs with hcomma hclose
  -- after a comma the loop demands another key
  · refine reads_advance hcomma (by decide) fun q₈ h₈ d₈ => ?_
    have hlen' : q₈.rest.length + 1 ≤ q₅.rest.length := by
      rw [h₆, h₇, h₈]
      simp
      omega
    refine (ih.members q₈ (by rwa [d₈, d₇, d₆, d₅, d₄, d₃, d₂, d₁]) (by omega)).reads_bind ?_
    rintro ms _ q₉ h₉ d₉ ⟨t, rfl, ht, hnest'⟩
    refine reads_pure
      ⟨w₁ ++ (k ++ (w₂ ++ unit ':' :: (w₃ ++ (s ++ (w₄ ++ unit ',' :: t))))), by simp, ?_, ?_⟩
    · exact .cons hw₁ hk hw₂ hw₃ hv hw₄ ht
    · rw [d₈] at hnest'
      simp only [nestingMembers]
      omega
  · refine reads_advance hclose (by decide) fun q₈ _ _ => reads_pure
      ⟨w₁ ++ (k ++ (w₂ ++ unit ':' :: (w₃ ++ (s ++ w₄)))), by simp,
        .last hw₁ hk hw₂ hw₃ hv hw₄, ?_⟩
    simpa [nestingMembers] using hnest
  · exact Triple.fail _

/-- **The recursion reads JSON**, whatever fuel it has to spare. -/
theorem sound (D fuel : Nat) : Sound D fuel := by
  induction fuel with
  | zero =>
    constructor
    · intro p _ h
      omega
    · intro p r hrest h
      rw [hrest, length_cons] at h
      omega
    · intro p _ h
      omega
    · intro p r hrest h
      rw [hrest, length_cons] at h
      omega
    · intro p _ h
      omega
  | succ fuel ih =>
    exact ⟨fun p hdepth hfuel => value_sound ih hdepth (by omega),
      fun p r hrest hfuel => array_sound ih hrest hfuel,
      fun p hdepth hfuel => elements_sound ih hdepth hfuel,
      fun p r hrest hfuel => object_sound ih hrest hfuel,
      fun p hdepth hfuel => members_sound ih hdepth hfuel⟩

/-- **What the parser accepts is JSON**, and the depth bound holds of the tree. -/
theorem parseText_sound {p : Parser} {D : Nat} (hdepth : p.depth = 0) :
    Triple (parseText D) p (fun v _ => JSONText p.rest v ∧ v.nesting ≤ D) := by
  refine mono (Q := Reads (fun s v => s = p.rest ∧ JSONText p.rest v ∧ v.nesting ≤ D) p)
    ?_ fun v p' ⟨s, r, _, _, _, h⟩ => h
  refine (skipWhitespace_sound p).reads_bind fun _ w₁ q₁ h₁ d₁ hw₁ => ?_
  have hvalue : Triple (parseFueled D) q₁
      (Reads (fun s v => JSONValue s v ∧ q₁.depth + v.nesting ≤ D) q₁) :=
    (sound D _).value q₁ (by omega) le_rfl
  refine hvalue.reads_bind fun v s q₂ h₂ d₂ ⟨hv, hnest⟩ => ?_
  refine (skipWhitespace_sound q₂).reads_bind fun _ w₂ q₃ h₃ d₃ hw₂ => Triple.atEnd_bind ?_
  split_ifs with hend
  · rw [List.isEmpty_iff] at hend
    have hall : p.rest = w₁ ++ (s ++ w₂) := by simp [h₁, h₂, h₃, hend]
    exact Triple.reads_pure ⟨by simp [hall], ⟨w₁, s, w₂, hw₁, hv, hw₂, hall⟩, by omega⟩
  · exact Triple.fail _

end Values

end Bronze.Json
