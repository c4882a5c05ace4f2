import Bronze.Fixpoint.Passes
import Bronze.Regex.Parser

/-!
# The scan for groups agrees with the parser

The scan of `prescanGroups` is flat: it knows escapes and brackets. Here it is with the
references it
passes too, and every reader of the parser leaves the flat scan where the reader ends, with the
groups the parser opened seen in between, in order.
-/

namespace Bronze.Regex

open Fixpoint (bind_eq_ok)

/-- What a flat scan sees. -/
inductive Sight where
  /-- A group that captures, by its name. -/
  | group (name : List UInt8)
  /-- The text behind a backslash that refers to a group. -/
  | reference (text : Units)

def Sight.name? : Sight → Option (List UInt8)
  | .group name => some name
  | .reference _ => none

def Sight.text? : Sight → Option Units
  | .group _ => none
  | .reference text => some text

/-- A unit behind a backslash that refers to a group, outside brackets. -/
def isReference (c : UInt16) : Bool := c == ch 'k' || isWithin '1' '9' c

/-- The scan of `prescanFrom`, with the references it passes. -/
def sights (unicodeSets : Bool) : Units → (escaped : Bool) → (classDepth : Nat) → List Sight
  | [], _, _ => []
  | c :: s, true, classDepth =>
    (if classDepth = 0 ∧ isReference c = true then [.reference (c :: s)] else []) ++
      sights unicodeSets s false classDepth
  | c :: s, false, classDepth =>
    if c = ch '\\' then sights unicodeSets s true classDepth
    else if classDepth ≠ 0 then
      let classDepth := if c = ch '[' ∧ unicodeSets = true then classDepth + 1 else classDepth
      sights unicodeSets s false (if c = ch ']' then classDepth - 1 else classDepth)
    else if c = ch '[' then sights unicodeSets s false 1
    else if c = ch '(' then (prescanGroup s).map .group ++ sights unicodeSets s false 0
    else sights unicodeSets s false 0

theorem filterMap_name_group (names : List (List UInt8)) :
    (names.map Sight.group).filterMap Sight.name? = names := by
  induction names with
  | nil => rfl
  | cons name names ih => exact congrArg (name :: ·) ih

/-- The names are what `prescanGroups` collects. -/
theorem prescanFrom_eq (unicodeSets : Bool) (s : Units) (escaped : Bool) (classDepth : Nat) :
    prescanFrom unicodeSets s escaped classDepth =
      (sights unicodeSets s escaped classDepth).filterMap Sight.name? := by
  induction s generalizing escaped classDepth with
  | nil => cases escaped <;> rfl
  | cons c s ih =>
    cases escaped with
    | true =>
      rw [prescanFrom, sights, ih]
      split <;> rfl
    | false =>
      rw [prescanFrom, sights]
      split
      · exact ih ..
      · split
        · exact ih ..
        · split
          · exact ih ..
          · split
            · rw [List.filterMap_append, filterMap_name_group, ih]
            · exact ih _ _

/-- A unit that is no bracket, no `(` and no backslash. -/
def plain (c : UInt16) : Bool := c != ch '\\' && c != ch '[' && c != ch ']' && c != ch '('

theorem plain_of {c : UInt16} (pred : UInt16 → Bool)
    (hpred : pred (ch '\\') = false ∧ pred (ch '[') = false ∧ pred (ch ']') = false ∧
      pred (ch '(') = false) (h : pred c = true) : plain c = true := by
  obtain ⟨h1, h2, h3, h4⟩ := hpred
  have hne : ∀ d, pred d = false → c ≠ d := by
    rintro d hd rfl
    rw [hd] at h
    cases h
  simp [plain, hne _ h1, hne _ h2, hne _ h3, hne _ h4]

variable {c : UInt16}

theorem plain_of_identifierPart : isIdentifierPart c = true → plain c = true :=
  plain_of isIdentifierPart (by decide)

theorem plain_of_propertyCharacter : isPropertyCharacter c = true → plain c = true :=
  plain_of isPropertyCharacter (by decide)

theorem plain_of_hexDigit : PatternParser.isHexDigit c = true → plain c = true :=
  plain_of PatternParser.isHexDigit (by decide)

theorem plain_of_decimalDigit : isDecimalDigit c = true → plain c = true :=
  plain_of isDecimalDigit (by decide)

theorem plain_of_letter : isLetter c = true → plain c = true :=
  plain_of isLetter (by decide)

section Scan

variable {v : Bool} {s s' s'' : Units} {c : UInt16}

theorem sights_plain (h : plain c = true) (s : Units) (d : Nat) :
    sights v (c :: s) false d = sights v s false d := by
  simp only [plain, Bool.and_eq_true, bne_iff_ne] at h
  obtain ⟨⟨⟨h1, h2⟩, h3⟩, h4⟩ := h
  rw [sights]
  simp only [h1, h2, if_false]
  split
  · rfl
  next hzero => rw [not_not.mp hzero]

theorem sights_escape (c : UInt16) (s : Units) (d : Nat) :
    sights v (ch '\\' :: c :: s) false d =
      (if d = 0 ∧ isReference c = true then [.reference (c :: s)] else []) ++
        sights v s false d := by
  simp [sights]

/-- From a depth on, a flat scan sees nothing between two places, and is as deep as before. -/
def Blind (v : Bool) (lo : Nat) (s s' : Units) : Prop :=
  ∀ d, lo ≤ d → sights v s false d = sights v s' false d

theorem Blind.refl (lo : Nat) (s : Units) : Blind v lo s s := fun _ _ => rfl

theorem Blind.trans {lo : Nat} (h : Blind v lo s s') (h' : Blind v lo s' s'') : Blind v lo s s'' :=
  fun d hd => (h d hd).trans (h' d hd)

variable {lo : Nat}

theorem blind_plain (h : plain c = true) (s : Units) : Blind v lo (c :: s) s :=
  fun d _ => sights_plain h s d

theorem blind_dropWhile {pred : UInt16 → Bool} (h : ∀ c, pred c = true → plain c = true)
    (s : Units) : Blind v lo s (s.dropWhile pred) := by
  induction s with
  | nil => exact Blind.refl lo []
  | cons c s ih =>
    rw [List.dropWhile_cons]
    split
    next hc => exact (blind_plain (h c hc) s).trans ih
    · exact Blind.refl lo _

theorem eat_eq_some {c : Char} {r : Units} : eat c s = some r ↔ s = ch c :: r := by
  cases s with
  | nil => simp [eat]
  | cons u s =>
    rw [eat]
    split
    next h => simp [h]
    next h => simp [h]

theorem blind_eat {c : Char} {r : Units} (hc : plain (ch c) = true) (h : eat c s = some r) :
    Blind v lo s r := by
  rw [eat_eq_some.mp h]
  exact blind_plain hc r

theorem blind_eat_getD {c : Char} (hc : plain (ch c) = true) (s : Units) :
    Blind v lo s ((eat c s).getD s) := by
  cases h : eat c s with
  | none => exact Blind.refl lo s
  | some r => exact blind_eat hc h

theorem cons_of_peek (h : peek s 0 = c) (hc : c ≠ 0) : s = c :: s.tail := by
  cases s with
  | nil => exact absurd h.symm hc
  | cons u s => exact congrArg (· :: s) h

/-- From a place in brackets the flat scan comes to one behind the bracket that closes them. -/
def Closes (v : Bool) (s s' : Units) : Prop :=
  ∀ d, sights v s false (d + 1) = sights v s' false d

theorem closes_bracket (s : Units) : Closes v (ch ']' :: s) s := by
  intro d
  rw [sights]
  simp [ch]

theorem Blind.closes (h : Blind v 1 s s') (h' : Closes v s' s'') : Closes v s s'' :=
  fun d => (h (d + 1) (Nat.le_add_left 1 d)).trans (h' d)

theorem Closes.nested (hv : v = true) (h : Closes v s s') : Blind v 1 (ch '[' :: s) s' := by
  intro d hd
  rw [sights, if_neg (by decide), if_pos (Nat.ne_of_gt hd)]
  dsimp only
  rw [if_neg (by decide), if_pos ⟨rfl, hv⟩]
  exact h d

/-! ## Escapes -/

namespace PatternParser

variable {p : PatternParser}

variable {lo fuel : Nat} {value : EscapeValue} {out : ClassSetValue}

theorem blind_readHexFrom {count value n : Nat} (h : readHexFrom count value s = some n) :
    Blind v lo s (s.drop count) := by
  induction count generalizing value s with
  | zero => exact Blind.refl lo s
  | succ count ih =>
    cases s with
    | nil => cases h
    | cons d s =>
      rw [readHexFrom] at h
      cases hd : hexDigitValue d with
      | none =>
        rw [hd] at h
        cases h
      | some digit =>
        rw [hd] at h
        have hplain : plain d = true := plain_of_hexDigit (by rw [isHexDigit, hd]; rfl)
        exact (blind_plain hplain s).trans (ih h)

theorem blind_readHex {count n : Nat} (h : readHex count s = some n) :
    Blind v lo s (s.drop count) :=
  blind_readHexFrom h

theorem blind_readUnicodeEscape (h : p.readUnicodeEscape s = .ok (value, s')) :
    Blind v lo s s' := by
  unfold readUnicodeEscape at h
  cases hbrace : eat '\x7b' s with
  | some s₁ =>
    rw [hbrace] at h
    dsimp only at h
    split at h
    · cases h
    · split at h
      next digit digits s₂ hdigits hclose =>
        split at h
        · cases h
        · cases h
          exact (blind_eat (by decide) hbrace).trans
            ((blind_dropWhile (fun _ => plain_of_hexDigit) s₁).trans (blind_eat (by decide) hclose))
      · cases h
  | none =>
    rw [hbrace] at h
    cases hunit : readHex 4 s with
    | none =>
      rw [hunit] at h
      cases h
    | some n =>
      rw [hunit] at h
      have hfirst : Blind v lo s (s.drop 4) := blind_readHex hunit
      dsimp only at h
      split at h
      next hpair =>
        -- the second half is one more escape, and no reference
        simp only [Bool.and_eq_true, beq_iff_eq] at hpair
        obtain ⟨⟨-, hslash⟩, hu⟩ := hpair
        cases htrail : readHex 4 ((s.drop 4).drop 2) with
        | none =>
          rw [htrail] at h
          cases h
          exact hfirst
        | some trail =>
          rw [htrail] at h
          dsimp only at h
          split at h
          · cases h
            have hcons := cons_of_peek hslash (by decide)
            have hcons' : (s.drop 4).tail = ch 'u' :: (s.drop 4).tail.tail := by
              refine cons_of_peek ?_ (by decide)
              rw [hcons] at hu
              exact hu
            have hsecond : Blind v lo (s.drop 4) ((s.drop 4).drop 2) := by
              intro d _
              rw [hcons, hcons', sights_escape, if_neg (by simp [isReference, ch, isWithin])]
              rfl
            have hrest : Blind v lo .. := blind_readHex htrail
            have hdrop : ((s.drop 4).drop 2).drop 4 = (s.drop 4).drop 6 := List.drop_drop
            rw [hdrop] at hrest
            exact hfirst.trans (hsecond.trans hrest)
          · cases h
            exact hfirst
      · cases h
        exact hfirst

theorem blind_propertyText (s : Units) : Blind v lo s (propertyText s).2 := by
  have hname : Blind v lo s _ := blind_dropWhile (fun _ => plain_of_propertyCharacter) s
  unfold propertyText
  cases heq : eat '=' (s.dropWhile isPropertyCharacter) with
  | none => exact hname
  | some s₁ =>
    exact hname.trans ((blind_eat (by decide) heq).trans
      (blind_dropWhile (fun _ => plain_of_propertyCharacter) s₁))

theorem blind_readPropertyEscape {negated : Bool}
    (h : p.readPropertyEscape negated s = .ok (value, s')) : Blind v lo s s' := by
  unfold readPropertyEscape at h
  split at h
  · cases h
  · cases hopen : eat '\x7b' s with
    | none =>
      rw [hopen] at h
      cases h
    | some s₁ =>
      rw [hopen] at h
      dsimp only at h
      cases hclose : eat '\x7d' (propertyText s₁).2 with
      | none =>
        rw [hclose] at h
        cases h
      | some s₂ =>
        rw [hclose] at h
        have hrest : s' = s₂ := by
          dsimp only at h
          split at h
          · cases h
          · split at h
            · cases h
            · cases h
              rfl
        rw [hrest]
        exact (blind_eat (by decide) hopen).trans
          ((blind_propertyText s₁).trans (blind_eat (by decide) hclose))

/-- **What is behind the letter of an escape** is passed by the flat scan. -/
theorem blind_readEscapeValue {inClass : Bool}
    (h : p.readEscapeValue inClass c s = .ok (value, s')) : Blind v lo s s' := by
  unfold readEscapeValue at h
  split at h
  · cases h
    exact Blind.refl lo s
  · cases h
    exact Blind.refl lo s
  · split at h
    · exact blind_readPropertyEscape h
    · split at h
      · cases h
      · split at h
        · split at h
          · cases h
          · cases h
            exact Blind.refl lo s
        · split at h
          · cases s with
            | nil => cases h
            | cons letter s₁ =>
              dsimp only at h
              split at h
              next hletter =>
                cases h
                exact blind_plain (plain_of_letter hletter) _
              · cases h
          · split at h
            · cases hhex : readHex 2 s with
              | none =>
                rw [hhex] at h
                cases h
              | some n =>
                rw [hhex] at h
                cases h
                exact blind_readHex hhex
            · split at h
              · exact blind_readUnicodeEscape h
              · rw [readIdentityEscape] at h
                split at h
                · cases h
                · split at h
                  · cases h
                    exact Blind.refl lo s
                  · split at h
                    · cases h
                    · cases h
                      exact Blind.refl lo s

theorem blind_readSourceCharacter (c : UInt16) (s : Units) :
    Blind v lo s (p.readSourceCharacter (c :: s)).2 := by
  unfold readSourceCharacter codePointAt
  dsimp only
  split
  · exact Blind.refl lo s
  · split
    · exact Blind.refl lo s
    next htrail =>
      cases s with
      | nil => exact Blind.refl lo []
      | cons d s =>
        refine blind_plain ?_ s
        have hunit : unitAt (c :: d :: s) (0 + 1) = d.toNat := rfl
        rw [hunit] at htrail
        refine plain_of (fun u => isTrailSurrogate u.toNat) (by decide) ?_
        simpa using htrail

/-- A `[` in brackets is a unit like any other without the `v` flag. -/
theorem sights_bracket (hv : v = false) (s : Units) : Blind v 1 (ch '[' :: s) s := by
  intro d hd
  rw [sights, if_pos (Nat.ne_of_gt hd), hv]
  simp [ch]

/-- A `(` in brackets is a unit like any other. -/
theorem sights_parenthesis (s : Units) : Blind v 1 (ch '(' :: s) s := by
  intro d hd
  rw [sights, if_pos (Nat.ne_of_gt hd)]
  simp [ch]

theorem blind_escape (c : UInt16) (s : Units) : Blind v 1 (ch '\\' :: c :: s) s := by
  intro d hd
  rw [sights_escape, if_neg (fun h => absurd h.1 (Nat.ne_of_gt hd)), List.nil_append]

theorem blind_readClassAtom (hv : v = false) {value : EscapeValue} (hend : peek s 0 ≠ ch ']')
    (h : p.readClassAtom s = .ok (value, s')) : Blind v 1 s s' := by
  unfold readClassAtom at h
  cases s with
  | nil => cases h
  | cons c s =>
    dsimp only at h
    split at h
    next hslash =>
      rw [hslash]
      cases s with
      | nil => cases h
      | cons d s => exact (blind_escape d s).trans (blind_readEscapeValue h)
    next hslash =>
      cases h
      refine Blind.trans ?_ (blind_readSourceCharacter c s)
      by_cases hopen : c = ch '['
      · rw [hopen]
        exact sights_bracket hv s
      · by_cases hparen : c = ch '('
        · rw [hparen]
          exact sights_parenthesis s
        · refine blind_plain ?_ s
          have hclose : c ≠ ch ']' := hend
          simp [plain, hslash, hopen, hparen, hclose]

theorem blind_readClassRange (hv : v = false) {ranges : RangeList}
    (h : p.readClassRange lo s = .ok (ranges, s')) : Blind v 1 s s' := by
  unfold readClassRange at h
  split at h
  next hdash =>
    obtain ⟨hdash, -, hend⟩ := hdash
    obtain ⟨⟨rhs, s₁⟩, hatom, h⟩ := bind_eq_ok.mp h
    have hcons := cons_of_peek hdash (by decide)
    have hnext : peek s.tail 0 ≠ ch ']' := by
      rw [hcons] at hend
      exact hend
    have hfirst : Blind v 1 s s.tail := by
      intro d hd
      rw [hcons]
      exact sights_plain (by decide) _ d
    have hsecond := blind_readClassAtom hv hnext hatom
    cases rhs with
    | set _ => cases h
    | character hi =>
      dsimp only at h
      split at h
      · cases h
      · obtain ⟨-, -, h⟩ := bind_eq_ok.mp h
        cases h
        exact hfirst.trans hsecond
  · obtain ⟨-, -, h⟩ := bind_eq_ok.mp h
    cases h
    exact Blind.refl 1 _

/-- **ClassRanges** are passed by the flat scan, in their bracket. -/
theorem blind_readClassRanges (hv : v = false) {ranges out : RangeList}
    (h : p.readClassRanges fuel ranges s = .ok (out, s')) : Blind v 1 s s' := by
  induction fuel generalizing ranges s with
  | zero =>
    cases h
    exact Blind.refl 1 _
  | succ fuel ih =>
    rw [readClassRanges] at h
    split at h
    · cases h
      exact Blind.refl 1 _
    next hend =>
      obtain ⟨⟨lhs, s₁⟩, hatom, h⟩ := bind_eq_ok.mp h
      have hfirst := blind_readClassAtom hv (fun hclose => hend (.inr hclose)) hatom
      cases lhs with
      | set set => exact hfirst.trans (ih h)
      | character lo =>
        obtain ⟨⟨member, s₂⟩, hrange, h⟩ := bind_eq_ok.mp h
        exact hfirst.trans ((blind_readClassRange hv hrange).trans (ih h))

/-! ## Class sets -/

theorem blind_readClassSetCharacter {code : Nat} (h : p.readClassSetCharacter s = .ok (code, s')) :
    Blind v lo s s' := by
  unfold readClassSetCharacter at h
  cases s with
  | nil => cases h
  | cons c s =>
    dsimp only at h
    split at h
    · cases h
    next hreserved =>
      split at h
      · cases h
      · cases h
        refine (blind_plain ?_ s).trans (blind_readSourceCharacter c s)
        rw [Bool.not_eq_true] at hreserved
        refine plain_of (fun u => !isClassSetSyntaxCharacter u) (by decide) ?_
        rw [hreserved]
        rfl

theorem blind_readCharacterOf {what : String} {code : Nat}
    (h : p.readCharacterOf what s = .ok (code, s')) : Blind v 1 s s' := by
  unfold readCharacterOf at h
  cases s with
  | nil => cases h
  | cons c s =>
    dsimp only at h
    split at h
    next hslash =>
      rw [hslash]
      cases s with
      | nil => cases h
      | cons d s =>
        obtain ⟨⟨value, s₁⟩, hescape, h⟩ := bind_eq_ok.mp h
        cases value with
        | set _ => cases h
        | character code =>
          cases h
          exact (blind_escape d s).trans (blind_readEscapeValue hescape)
    · exact blind_readClassSetCharacter h

theorem blind_readAlternativeOf {alternative out : List Nat}
    (h : p.readAlternativeOf fuel alternative s = .ok (out, s')) : Blind v 1 s s' := by
  induction fuel generalizing alternative s with
  | zero =>
    cases h
    exact Blind.refl 1 _
  | succ fuel ih =>
    rw [readAlternativeOf] at h
    split at h
    · cases h
      exact Blind.refl 1 _
    · obtain ⟨⟨code, s₁⟩, hcode, h⟩ := bind_eq_ok.mp h
      exact (blind_readCharacterOf hcode).trans (ih h)

theorem blind_readAlternatives {value : ClassSetValue}
    (h : p.readAlternatives fuel value s = .ok (out, s')) : Blind v 1 s s' := by
  induction fuel generalizing value s with
  | zero => cases h
  | succ fuel ih =>
    obtain ⟨⟨alternative, s₁⟩, hmember, h⟩ := bind_eq_ok.mp h
    have hfirst := blind_readAlternativeOf (v := v) hmember
    dsimp only at h
    split at h
    next hbar => exact hfirst.trans ((blind_eat (by decide) hbar).trans (ih h))
    next hclose =>
      cases h
      exact hfirst.trans (blind_eat (by decide) hclose)
    · cases h

theorem blind_readClassStringDisjunction (h : p.readClassStringDisjunction s = .ok (out, s')) :
    Blind v 1 s s' := by
  unfold readClassStringDisjunction at h
  split at h
  · cases h
  next hopen =>
    obtain ⟨⟨value, s₁⟩, hstrings, h⟩ := bind_eq_ok.mp h
    dsimp only at h
    split at h
    · cases h
    · cases h
      exact (blind_eat (by decide) hopen).trans (blind_readAlternatives hstrings)

variable {self : Nested}

/-- The reader one level deeper closes its bracket. -/
def ClosesAll (v : Bool) (self : Nested) : Prop :=
  ∀ s out s', self s = .ok (out, s') → Closes v s s'

theorem blind_readClassSetOperand (hv : v = true) (hself : ClosesAll v self)
    {out : ClassSetValue × Option Nat} (h : p.readClassSetOperand self s = .ok (out, s')) :
    Blind v 1 s s' := by
  unfold readClassSetOperand at h
  cases s with
  | nil => cases h
  | cons c s =>
    dsimp only at h
    split at h
    next hopen =>
      obtain ⟨⟨value, s₁⟩, hnested, h⟩ := bind_eq_ok.mp h
      cases h
      rw [hopen]
      exact (hself _ _ _ hnested).nested hv
    · split at h
      next hslash =>
        rw [hslash]
        cases s with
        | nil => cases h
        | cons d s =>
          refine (blind_escape d s).trans ?_
          dsimp only at h
          split at h
          · obtain ⟨⟨value, s₁⟩, hstrings, h⟩ := bind_eq_ok.mp h
            cases h
            exact blind_readClassStringDisjunction hstrings
          · obtain ⟨⟨value, s₁⟩, hescape, h⟩ := bind_eq_ok.mp h
            have hrest : Blind v 1 .. := blind_readEscapeValue hescape
            cases value with
            | set ranges =>
              cases h
              exact hrest
            | character code =>
              cases h
              exact hrest
      · obtain ⟨⟨code, s₁⟩, hcharacter, h⟩ := bind_eq_ok.mp h
        cases h
        exact blind_readClassSetCharacter hcharacter

theorem eatTwo_eq_some {c : Char} {r : Units} : eatTwo c s = some r ↔ s = ch c :: ch c :: r := by
  unfold eatTwo
  split
  next a b s =>
    split
    next h => simp [h.1, h.2]
    next h =>
      constructor
      · intro hr
        cases hr
      · intro hr
        cases hr
        exact absurd ⟨rfl, rfl⟩ h
  next hshort =>
    constructor
    · intro hr
      cases hr
    · intro hr
      exact absurd hr (hshort _ _ _)

theorem blind_readOperator (hv : v = true) (hself : ClosesAll v self) {operator : Char}
    (hoperator : plain (ch operator) = true)
    {combine : ClassSetValue → ClassSetValue → ClassSetValue} {acc : ClassSetValue}
    (h : p.readOperator self operator combine fuel acc s = .ok (out, s')) : Blind v 1 s s' := by
  induction fuel generalizing acc s with
  | zero =>
    cases h
    exact Blind.refl 1 _
  | succ fuel ih =>
    rw [readOperator] at h
    split at h
    · cases h
      exact Blind.refl 1 _
    next hoperators =>
      obtain ⟨⟨⟨rhs, code⟩, s₁⟩, hoperand, h⟩ := bind_eq_ok.mp h
      rw [eatTwo_eq_some.mp hoperators]
      exact ((blind_plain hoperator _).trans (blind_plain hoperator _)).trans
        ((blind_readClassSetOperand hv hself hoperand).trans (ih h))

variable {value pending : ClassSetValue} {code : Option Nat}

theorem blind_readUnionItem
    (h : p.readUnionItem value pending code s = .ok (out, s')) : Blind v 1 s s' := by
  unfold readUnionItem at h
  cases code with
  | none =>
    cases h
    exact Blind.refl 1 _
  | some lo =>
    dsimp only at h
    split at h
    next hdash =>
      obtain ⟨⟨hi, s₁⟩, hend, h⟩ := bind_eq_ok.mp h
      have hcons := cons_of_peek hdash.1 (by decide)
      have hfirst : Blind v 1 s s.tail := by
        intro d hd
        rw [hcons]
        exact sights_plain (by decide) _ d
      split at h
      · cases h
      · cases h
        exact hfirst.trans (blind_readCharacterOf hend)
    · cases h
      exact Blind.refl 1 _

theorem blind_readUnionFrom (hv : v = true) (hself : ClosesAll v self)
    (h : p.readUnionFrom self fuel value pending code s = .ok (out, s')) : Blind v 1 s s' := by
  induction fuel generalizing value pending code s with
  | zero =>
    obtain ⟨⟨value', s₁⟩, hitem, h⟩ := bind_eq_ok.mp h
    dsimp only at h
    split at h
    · cases h
      exact blind_readUnionItem hitem
    · cases h
      exact blind_readUnionItem hitem
  | succ fuel ih =>
    obtain ⟨⟨value', s₁⟩, hitem, h⟩ := bind_eq_ok.mp h
    dsimp only at h
    split at h
    · cases h
      exact blind_readUnionItem hitem
    · obtain ⟨⟨⟨pending', code'⟩, s₂⟩, hoperand, h⟩ := bind_eq_ok.mp h
      exact (blind_readUnionItem hitem).trans
        ((blind_readClassSetOperand hv hself hoperand).trans (ih h))

theorem blind_readClassSetExpression (hv : v = true) (hself : ClosesAll v self)
    (h : p.readClassSetExpression self s = .ok (out, s')) : Blind v 1 s s' := by
  unfold readClassSetExpression at h
  split at h
  · cases h
    exact Blind.refl 1 _
  · obtain ⟨⟨⟨first, code⟩, s₁⟩, hoperand, h⟩ := bind_eq_ok.mp h
    refine (blind_readClassSetOperand hv hself hoperand).trans ?_
    dsimp only at h
    split at h
    · obtain ⟨⟨acc, s₂⟩, hloop, h⟩ := bind_eq_ok.mp h
      split at h
      · cases h
      · cases h
        exact blind_readOperator hv hself (by decide) hloop
    · split at h
      · obtain ⟨⟨acc, s₂⟩, hloop, h⟩ := bind_eq_ok.mp h
        split at h
        · cases h
        · cases h
          exact blind_readOperator hv hself (by decide) hloop
      · rw [readClassSetUnion] at h
        obtain ⟨⟨acc, s₂⟩, hloop, h⟩ := bind_eq_ok.mp h
        cases h
        exact blind_readUnionFrom hv hself hloop

/-- **A class set closes its bracket**, on every level. -/
theorem closes_readNestedClass (hv : v = true) (levels : Nat) :
    ClosesAll v (p.readNestedClass levels) := by
  induction levels with
  | zero => exact fun s out s' h => by cases h
  | succ levels ih =>
    intro s out s' h
    obtain ⟨⟨set, s₁⟩, hcontents, h⟩ := bind_eq_ok.mp h
    dsimp only at h
    split at h
    · cases h
    next hclose =>
      split at h
      · cases h
      · cases h
        rw [eat_eq_some] at hclose
        have hinside := blind_readClassSetExpression hv ih hcontents
        rw [hclose] at hinside
        exact ((blind_eat_getD (by decide) s).trans hinside).closes (closes_bracket s')

/-- **A class closes its bracket**, in both grammars. -/
theorem closes_parseCharacterClass {levels : Nat} {out : CharacterClass}
    (h : p.parseCharacterClass levels s = .ok (out, s')) : Closes p.flags.unicodeSets s s' := by
  unfold parseCharacterClass at h
  split at h
  next hv =>
    obtain ⟨⟨set, s₁⟩, hset, h⟩ := bind_eq_ok.mp h
    cases h
    exact closes_readNestedClass hv levels _ _ _ hset
  next hv =>
    rw [Bool.not_eq_true] at hv
    obtain ⟨⟨ranges, s₁⟩, hranges, h⟩ := bind_eq_ok.mp h
    dsimp only at h
    split at h
    · cases h
    next hclose =>
      cases h
      rw [eat_eq_some] at hclose
      have hinside := blind_readClassRanges hv hranges
      rw [hclose] at hinside
      exact ((blind_eat_getD (by decide) s).trans hinside).closes (closes_bracket s')

end PatternParser

end Scan

end Bronze.Regex
