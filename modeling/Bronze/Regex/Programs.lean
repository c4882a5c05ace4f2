import Bronze.Regex.ProgramCache

/-!
# The programs of regular expressions

A RegExp holds the id of its compiled pattern, and the pattern is in a cache that may evict it:
`rtInitializeRegExp` and `programSharedOf` of `src/runtime/builtin_regexp_exec.cpp`, over any number
of RegExp objects. The compiler is a parameter, since the cache only hands its result on.

## Main results

* `parseFlags_text`: the flags of a RegExp are read back from their text
* `rtUtf8Chars_sourceOf`: the bytes that make the key are those of the escaped source
-/

namespace Bronze.Regex

open LinkedOrder Utf8
open List Function

/-- `struct Flags` of `src/regex/regex.h`. -/
structure RegExpFlags where
  hasIndices : Bool
  global : Bool
  ignoreCase : Bool
  multiline : Bool
  dotAll : Bool
  unicode : Bool
  unicodeSets : Bool
  sticky : Bool
  deriving DecidableEq

/-- A `Flags` that was just made. -/
def RegExpFlags.none : RegExpFlags :=
  { hasIndices := false, global := false, ignoreCase := false, multiline := false, dotAll := false,
    unicode := false, unicodeSets := false, sticky := false }

def letter (flag : Bool) (c : Char) : List Nat := if flag then [c.toNat] else []

def RegExpFlags.text (flags : RegExpFlags) : List Nat :=
  letter flags.hasIndices 'd' ++ letter flags.global 'g' ++ letter flags.ignoreCase 'i' ++
    letter flags.multiline 'm' ++ letter flags.dotAll 's' ++ letter flags.unicode 'u' ++
    letter flags.unicodeSets 'v' ++ letter flags.sticky 'y'

/-- What is wrong with a flags text. -/
inductive FlagsError where
  | unknown (c : Nat)
  | repeated (c : Nat)
  | unicodeTwice
  deriving DecidableEq

def utf8 (message : String) : List Nat := message.toList.flatMap fun c => appendCodePoint c.toNat

/-- The switch of `parseFlags`: the flag of a letter, and the flags with it set. -/
def RegExpFlags.slot (flags : RegExpFlags) (c : Nat) : Option (Bool × RegExpFlags) :=
  if c = 'd'.toNat then some (flags.hasIndices, { flags with hasIndices := true })
  else if c = 'g'.toNat then some (flags.global, { flags with global := true })
  else if c = 'i'.toNat then some (flags.ignoreCase, { flags with ignoreCase := true })
  else if c = 'm'.toNat then some (flags.multiline, { flags with multiline := true })
  else if c = 's'.toNat then some (flags.dotAll, { flags with dotAll := true })
  else if c = 'u'.toNat then some (flags.unicode, { flags with unicode := true })
  else if c = 'v'.toNat then some (flags.unicodeSets, { flags with unicodeSets := true })
  else if c = 'y'.toNat then some (flags.sticky, { flags with sticky := true })
  else .none

def parseLetters (flags : RegExpFlags) : List Nat → Except FlagsError RegExpFlags
  | [] => .ok flags
  | c :: text =>
    match flags.slot c with
    | .none => .error (.unknown c)
    | some (true, _) => .error (.repeated c)
    | some (false, flags) => parseLetters flags text

def parseFlags (text : List Nat) : Except FlagsError RegExpFlags :=
  match parseLetters .none text with
  | .error e => .error e
  | .ok flags => if flags.unicode && flags.unicodeSets then .error .unicodeTwice else .ok flags

theorem parseFlags_text {flags : RegExpFlags}
    (h : (flags.unicode && flags.unicodeSets) = false) : parseFlags flags.text = .ok flags := by
  have hall : ∀ d g i m s u v y, (u && v) = false →
      parseFlags (RegExpFlags.text ⟨d, g, i, m, s, u, v, y⟩) = .ok ⟨d, g, i, m, s, u, v, y⟩ := by
    decide
  exact hall _ _ _ _ _ _ _ _ h

/-- The loop of `escapeRegExpPattern`. -/
def escapeBytes : List Nat → List Nat
  | [] => []
  | 0x5C :: d :: rest => 0x5C :: d :: escapeBytes rest
  | 0x2F :: rest => 0x5C :: 0x2F :: escapeBytes rest
  | 0x0A :: rest => 0x5C :: 0x6E :: escapeBytes rest
  | 0x0D :: rest => 0x5C :: 0x72 :: escapeBytes rest
  -- U+2028 and U+2029 are the only line terminators of more than one byte
  | 0xE2 :: 0x80 :: 0xA8 :: rest =>
    0x5C :: 0x75 :: 0x32 :: 0x30 :: 0x32 :: 0x38 :: escapeBytes rest
  | 0xE2 :: 0x80 :: 0xA9 :: rest =>
    0x5C :: 0x75 :: 0x32 :: 0x30 :: 0x32 :: 0x39 :: escapeBytes rest
  | c :: rest => c :: escapeBytes rest

def escapeRegExpPattern (pattern : List Nat) : List Nat :=
  if pattern = [] then [0x28, 0x3F, 0x3A, 0x29] else escapeBytes pattern

/-- What `c_str` leaves of a text that is read up to its first NUL. -/
def cString (bytes : List Nat) : List Nat := bytes.takeWhile (· ≠ 0)

/-! ## Escaping, on code points -/

/-- A code point as `escapeRegExpPattern` leaves it. -/
def escapePoint (c : Nat) : List Nat :=
  if c = 0x2F then [0x5C, 0x2F]
  else if c = 0x0A then [0x5C, 0x6E]
  else if c = 0x0D then [0x5C, 0x72]
  else if c = 0x2028 then [0x5C, 0x75, 0x32, 0x30, 0x32, 0x38]
  else if c = 0x2029 then [0x5C, 0x75, 0x32, 0x30, 0x32, 0x39]
  else [c]

/-- A text as `escapeRegExpPattern` leaves it: what follows a backslash stays. -/
def escapePoints : List Nat → List Nat
  | [] => []
  | [c] => escapePoint c
  | c :: d :: cps =>
    if c = 0x5C then c :: d :: escapePoints cps else escapePoint c ++ escapePoints (d :: cps)

section Escaping

variable {b cp : Nat} {rest bs : List Nat}

theorem escapeBytes_plain (h : b ≠ 0x5C ∧ b ≠ 0x2F ∧ b ≠ 0x0A ∧ b ≠ 0x0D ∧ b ≠ 0xE2)
    (rest : List Nat) : escapeBytes (b :: rest) = b :: escapeBytes rest := by
  obtain ⟨h₁, h₂, h₃, h₄, h₅⟩ := h
  rw [escapeBytes]
  · exact fun _ _ heq _ => h₁ heq
  · exact h₂
  · exact h₃
  · exact h₄
  · exact fun _ heq _ => h₅ heq
  · exact fun _ heq _ => h₅ heq

theorem escapeBytes_lead {d e : Nat} (h : ¬(d = 0x80 ∧ (e = 0xA8 ∨ e = 0xA9))) (rest : List Nat) :
    escapeBytes (0xE2 :: d :: e :: rest) = 0xE2 :: escapeBytes (d :: e :: rest) := by
  rw [escapeBytes]
  · exact fun _ _ heq => absurd heq (by decide)
  · exact fun heq => absurd heq (by decide)
  · exact fun heq => absurd heq (by decide)
  · exact fun heq => absurd heq (by decide)
  · intro rest' _ heq
    obtain ⟨hd, htail⟩ := cons.inj heq
    exact h ⟨hd, Or.inl (cons.inj htail).1⟩
  · intro rest' _ heq
    obtain ⟨hd, htail⟩ := cons.inj heq
    exact h ⟨hd, Or.inr (cons.inj htail).1⟩

theorem escapeBytes_continuation (h : ∀ b ∈ bs, 0x80 ≤ b ∧ b ≤ 0xBF) (rest : List Nat) :
    escapeBytes (bs ++ rest) = bs ++ escapeBytes rest := by
  induction bs with
  | nil => rfl
  | cons b bs ih =>
    obtain ⟨hb, hbs⟩ := forall_mem_cons.mp h
    rw [cons_append, escapeBytes_plain (by omega), ih hbs]
    rfl

theorem appendCodePoint_cons (h : cp ≤ kLast) : ∃ b bs, appendCodePoint cp = b :: bs ∧
    ∀ c ∈ bs, 0x80 ≤ c ∧ c ≤ 0xBF := by
  rw [appendCodePoint_eq h]
  split_ifs
  · exact ⟨_, _, rfl, nofun⟩
  · exact ⟨_, _, rfl, by simp; omega⟩
  · exact ⟨_, _, rfl, by simp; omega⟩
  · exact ⟨_, _, rfl, by simp; omega⟩

/-- **A code point that is no backslash** is escaped as a code point. -/
theorem escapeBytes_append (h : cp ≤ kLast) (hne : cp ≠ 0x5C) (rest : List Nat) :
    escapeBytes (appendCodePoint cp ++ rest) =
      (escapePoint cp).flatMap appendCodePoint ++ escapeBytes rest := by
  have hcont : ∀ n, 0x80 ≤ 0x80 + n % 64 ∧ 0x80 + n % 64 ≤ 0xBF := fun n => by omega
  have hself : cp ≠ 0x2F → cp ≠ 0x0A → cp ≠ 0x0D → cp ≠ 0x2028 → cp ≠ 0x2029 →
      (escapePoint cp).flatMap appendCodePoint = appendCodePoint cp := by
    intro h₁ h₂ h₃ h₄ h₅
    simp [escapePoint, h₁, h₂, h₃, h₄, h₅]
  by_cases h₁ : cp = 0x2F
  · subst h₁
    rfl
  by_cases h₂ : cp = 0x0A
  · subst h₂
    rfl
  by_cases h₃ : cp = 0x0D
  · subst h₃
    rfl
  by_cases h₄ : cp = 0x2028
  · subst h₄
    rfl
  by_cases h₅ : cp = 0x2029
  · subst h₅
    rfl
  rw [hself h₁ h₂ h₃ h₄ h₅, appendCodePoint_eq h]
  split_ifs with h₆ h₇ h₈
  · exact escapeBytes_plain (by omega) rest
  · rw [cons_append, escapeBytes_plain (by omega)]
    have htail := escapeBytes_continuation (forall_mem_singleton.mpr (hcont cp)) rest
    exact congrArg ((0xC0 + cp / 64) :: ·) htail
  · by_cases hlead : 0xE0 + cp / 4096 = 0xE2
    · -- the other code points with this first byte
      have htail : escapeBytes ([0x80 + cp / 64 % 64, 0x80 + cp % 64] ++ rest) = _ :=
        escapeBytes_continuation (by simp; omega) rest
      rw [hlead]
      exact (escapeBytes_lead (by omega) rest).trans (congrArg (0xE2 :: ·) htail)
    · rw [cons_append, escapeBytes_plain (by omega)]
      have htail : escapeBytes ([0x80 + cp / 64 % 64, 0x80 + cp % 64] ++ rest) = _ :=
        escapeBytes_continuation (by simp; omega) rest
      exact congrArg ((0xE0 + cp / 4096) :: ·) htail
  · rw [cons_append, escapeBytes_plain (by omega)]
    have htail : escapeBytes
        ([0x80 + cp / 4096 % 64, 0x80 + cp / 64 % 64, 0x80 + cp % 64] ++ rest) = _ :=
      escapeBytes_continuation (by simp; omega) rest
    exact congrArg ((0xF0 + cp / 262144) :: ·) htail

theorem escapeBytes_backslash (h : cp ≤ kLast) (rest : List Nat) :
    escapeBytes (0x5C :: (appendCodePoint cp ++ rest)) =
      0x5C :: (appendCodePoint cp ++ escapeBytes rest) := by
  obtain ⟨b, bs, hbytes, hcont⟩ := appendCodePoint_cons h
  rw [hbytes]
  exact congrArg (fun t => 0x5C :: b :: t) (escapeBytes_continuation hcont rest)

variable {cps : List Nat}

/-- **Escaping the bytes** of a text is escaping its code points. -/
theorem escapeBytes_flatMap (h : ∀ cp ∈ cps, cp ≤ kLast) :
    escapeBytes (cps.flatMap appendCodePoint) = (escapePoints cps).flatMap appendCodePoint := by
  induction cps using escapePoints.induct with
  | case1 => rfl
  | case2 c =>
    have hc := h c (mem_singleton_self c)
    by_cases hback : c = 0x5C
    · subst hback
      rfl
    · exact (escapeBytes_append hc hback []).trans (append_nil _)
  | case3 d cps ih =>
    obtain ⟨-, hrest⟩ := forall_mem_cons.mp h
    obtain ⟨hd, hcps⟩ := forall_mem_cons.mp hrest
    rw [escapePoints, if_pos rfl, flatMap_cons, flatMap_cons, flatMap_cons, flatMap_cons, ← ih hcps]
    exact escapeBytes_backslash hd _
  | case4 c d cps hback ih =>
    obtain ⟨hc, hrest⟩ := forall_mem_cons.mp h
    simp [escapePoints, hback, ← ih hrest, escapeBytes_append hc hback]

theorem escapePoint_le {c : Nat} (h : cp ≤ kLast) (hc : c ∈ escapePoint cp) : c ≤ kLast := by
  rw [escapePoint] at hc
  simp only [kLast] at h ⊢
  split_ifs at hc <;> simp at hc <;> omega

theorem escapePoints_le (h : ∀ cp ∈ cps, cp ≤ kLast) : ∀ cp ∈ escapePoints cps, cp ≤ kLast := by
  induction cps using escapePoints.induct with
  | case1 => exact nofun
  | case2 c =>
    exact fun c' hc' => escapePoint_le (h c (mem_singleton_self c)) hc'
  | case3 d cps ih =>
    obtain ⟨hc, hrest⟩ := forall_mem_cons.mp h
    obtain ⟨hd, hcps⟩ := forall_mem_cons.mp hrest
    exact forall_mem_cons.mpr ⟨hc, forall_mem_cons.mpr ⟨hd, ih hcps⟩⟩
  | case4 c d cps hback ih =>
    obtain ⟨hc, hrest⟩ := forall_mem_cons.mp h
    rw [escapePoints, if_neg hback]
    intro c' hc'
    rcases mem_append.mp hc' with hc' | hc'
    · exact escapePoint_le hc hc'
    · exact ih hrest c' hc'

theorem head_escapePoints (d : Nat) (cps : List Nat) :
    ∃ b bs, escapePoints (d :: cps) = b :: bs ∧ (isTrailSurrogate b = true → b = d) := by
  have hpoint : ∀ c, ∃ b bs, escapePoint c = b :: bs ∧ (isTrailSurrogate b = true → b = c) := by
    intro c
    rw [escapePoint]
    split_ifs
    · exact ⟨_, _, rfl, nofun⟩
    · exact ⟨_, _, rfl, nofun⟩
    · exact ⟨_, _, rfl, nofun⟩
    · exact ⟨_, _, rfl, nofun⟩
    · exact ⟨_, _, rfl, nofun⟩
    · exact ⟨_, _, rfl, fun _ => rfl⟩
  obtain ⟨b, bs, hb, htrail⟩ := hpoint d
  cases cps with
  | nil => exact ⟨b, bs, hb, htrail⟩
  | cons e cps =>
    rw [escapePoints]
    split_ifs
    · exact ⟨_, _, rfl, fun _ => rfl⟩
    · exact ⟨b, bs ++ escapePoints (e :: cps), by simp [hb], htrail⟩

theorem separated_append {c : Nat} (h : Separated cps)
    (hhead : ∀ b bs, cps = b :: bs → ¬(isLeadSurrogate c = true ∧ isTrailSurrogate b = true)) :
    Separated (escapePoint c ++ cps) := by
  have hcons : ∀ (a : Nat) (l : List Nat), isLeadSurrogate a = false → Separated l →
      Separated (a :: l) := by
    intro a l ha hl
    cases l with
    | nil => trivial
    | cons b l => exact ⟨fun hpair => by rw [ha] at hpair; exact absurd hpair.1 nofun, hl⟩
  rw [escapePoint]
  split_ifs
  · exact hcons _ _ rfl (hcons _ _ rfl h)
  · exact hcons _ _ rfl (hcons _ _ rfl h)
  · exact hcons _ _ rfl (hcons _ _ rfl h)
  · exact hcons _ _ rfl (hcons _ _ rfl (hcons _ _ rfl (hcons _ _ rfl (hcons _ _ rfl
      (hcons _ _ rfl h)))))
  · exact hcons _ _ rfl (hcons _ _ rfl (hcons _ _ rfl (hcons _ _ rfl (hcons _ _ rfl
      (hcons _ _ rfl h)))))
  · cases cps with
    | nil => trivial
    | cons b bs => exact ⟨hhead b bs rfl, h⟩

theorem separated_escapePoints (h : Separated cps) : Separated (escapePoints cps) := by
  induction cps using escapePoints.induct with
  | case1 => trivial
  | case2 c =>
    rw [escapePoints, ← append_nil (escapePoint c)]
    exact separated_append trivial nofun
  | case3 d cps ih =>
    refine ⟨nofun, ?_⟩
    cases cps with
    | nil => trivial
    | cons e cps =>
      obtain ⟨b, bs, hb, htrail⟩ := head_escapePoints e cps
      have hrest := ih h.2.2
      rw [hb] at hrest ⊢
      refine ⟨fun hpair => h.2.1 ⟨hpair.1, ?_⟩, hrest⟩
      rw [← htrail hpair.2]
      exact hpair.2
  | case4 c d cps hback ih =>
    rw [escapePoints, if_neg hback]
    refine separated_append (ih h.2) fun b bs hb hpair => h.1 ⟨hpair.1, ?_⟩
    obtain ⟨b', bs', hb', htrail⟩ := head_escapePoints d cps
    rw [hb] at hb'
    obtain ⟨rfl, rfl⟩ := cons.inj hb'
    rw [← htrail hpair.2]
    exact hpair.2

/-- The escaped text of a pattern, as code units. -/
def sourceOf (text : List UInt16) : List UInt16 :=
  createFromUTF8 (escapeRegExpPattern (rtUtf8Chars text))

/-- **The escaped bytes are those of the escaped text**: the bytes of escaped code points. -/
theorem rtUtf8Chars_sourceOf (text : List UInt16) :
    rtUtf8Chars (sourceOf text) = escapeRegExpPattern (rtUtf8Chars text) := by
  rw [sourceOf, escapeRegExpPattern]
  split_ifs
  · decide
  · have hle := escapePoints_le (codePoints_le text)
    have hbytes : escapeBytes (rtUtf8Chars text) = _ := escapeBytes_flatMap (codePoints_le text)
    rw [hbytes, createFromUTF8_flatMap hle]
    exact rtUtf8Chars_flatMap hle (separated_escapePoints (separated_codePoints text))

theorem sourceOf_self {text : List UInt16}
    (h : escapeRegExpPattern (rtUtf8Chars text) = rtUtf8Chars text) : sourceOf text = text := by
  rw [sourceOf, h, createFromUTF8_rtUtf8Chars]

end Escaping

/-! ## Compilation -/

inductive SyntaxError where
  | flags (e : FlagsError)
  | pattern (sourceUtf8 flagsText error : List Nat)
  deriving DecidableEq

/-- The key of `programFor` and `programSharedOf`: the flags, a line feed and the source. -/
def keyOf (flagsText sourceUtf8 : List Nat) : Key := flagsText ++ 0x0A :: sourceUtf8

/-- The slots of a `RegExpHeader` that name its program. -/
structure RegExpHeader where
  source : List UInt16
  flagsText : List UInt16
  programIndex : Option Nat
  deriving DecidableEq

/-- The RegExp objects of a program, and the cache they share. -/
structure Programs (P : Type) where
  cache : RegExpCache P
  objects : Nat → RegExpHeader

/-- What a RegExp operation comes to. -/
inductive Reply (P : Type) where
  | initialized
  | thrown (e : SyntaxError)
  | uninitialised
  | program (p : P)
  | fatal (message : String)
  deriving DecidableEq

section Machine

variable {P : Type} (compile : List UInt16 → RegExpFlags → Except (List Nat) P)

def programFor (sourceUtf8 : List Nat) (source : List UInt16) (flagsText : List Nat)
    (cache : RegExpCache P) : Except SyntaxError (RegExpFlags × Nat) × RegExpCache P :=
  match parseFlags flagsText with
  | .error e => (.error (.flags e), cache)
  | .ok flags =>
    match cache.lookup (keyOf flags.text sourceUtf8) with
    | (some slot, cache) => (.ok (flags, cache.entryId slot), cache)
    | (none, cache) =>
      match compile source flags with
      | .error e => (.error (.pattern sourceUtf8 flagsText e), cache)
      | .ok pattern =>
        let (slot, cache) := cache.insert (keyOf flags.text sourceUtf8) pattern
        (.ok (flags, cache.entryId slot), cache)

/-- The source `rtInitializeRegExp` compiles: a text that was escaped is read up to its first
NUL. -/
def storedSource (text : List UInt16) : List UInt16 :=
  if escapeRegExpPattern (rtUtf8Chars text) = rtUtf8Chars text then text
  else createFromUTF8 (cString (escapeRegExpPattern (rtUtf8Chars text)))

def rtInitializeRegExp (r : Nat) (text : List UInt16) (flagsText : List Nat) (s : Programs P) :
    Reply P × Programs P :=
  match programFor compile (escapeRegExpPattern (rtUtf8Chars text)) (storedSource text) flagsText
    s.cache with
  | (.error e, cache) => (.thrown e, { s with cache })
  | (.ok (flags, index), cache) =>
    (.initialized,
      { cache
        objects := update s.objects r
          { source := storedSource text
            flagsText := createFromUTF8 flags.text
            programIndex := some index } })

/-- The slot of `programSharedOf` where the id of the RegExp is no longer valid. -/
def recover (header : RegExpHeader) (cache : RegExpCache P) :
    Except String Nat × RegExpCache P :=
  let flagsText := rtUtf8Chars header.flagsText
  let key := keyOf flagsText (rtUtf8Chars header.source)
  match cache.lookup key with
  | (some slot, cache) => (.ok slot, cache)
  | (none, cache) =>
    match parseFlags flagsText with
    | .error _ => (.error "internal: stored RegExp flags failed to re-parse", cache)
    | .ok flags =>
      match compile header.source flags with
      | .error _ => (.error "internal: stored RegExp pattern failed to re-compile", cache)
      | .ok pattern =>
        let (slot, cache) := cache.insert key pattern
        (.ok slot, cache)

/-- The pattern in a slot. A slot in use always has one. -/
def patternReply (cache : RegExpCache P) (slot : Nat) : Reply P :=
  match (cache.entries slot).pattern with
  | some p => .program p
  | none => .uninitialised

/-- `programSharedOf`, of a RegExp whose constructor has run. -/
def programSharedOf (r : Nat) (s : Programs P) : Reply P × Programs P :=
  match (s.objects r).programIndex with
  | none => (.uninitialised, s)
  | some id =>
    if s.cache.isValid (id % 2 ^ 16) id then
      (patternReply s.cache (id % 2 ^ 16), { s with cache := s.cache.touch (id % 2 ^ 16) })
    else
      match recover compile (s.objects r) s.cache with
      | (.error e, cache) => (.fatal e, { s with cache })
      | (.ok slot, cache) =>
        (patternReply cache slot,
          { cache
            objects := update s.objects r
              { s.objects r with programIndex := some (cache.entryId slot) } })

/-- What a program does with its RegExp objects. -/
inductive Action where
  | construct (r : Nat) (text : List UInt16) (flagsText : List Nat)
  | run (r : Nat)
  deriving DecidableEq

def Programs.exec (s : Programs P) : Action → Reply P × Programs P
  | .construct r text flagsText => rtInitializeRegExp compile r text flagsText s
  | .run r => programSharedOf compile r s

/-- No RegExp was initialised yet. -/
def Programs.initial : Programs P where
  cache := RegExpCache.empty
  objects _ := { source := [], flagsText := [], programIndex := none }

/-- The RegExps with the source and the flags of each, and the keys that were used, most recently
used first: the last 512 of them. -/
structure Plain where
  texts : Nat → Option (List UInt16 × RegExpFlags)
  recent : List Key

/-- The key of a source and its flags. -/
def ownKey (source : List UInt16) (flags : RegExpFlags) : Key :=
  keyOf flags.text (rtUtf8Chars source)

/-- A key was used. -/
def Plain.use (key : Key) (t : Plain) : Plain :=
  { t with recent := (toFront key t.recent).take kCapacity }

/-- What an action comes to where each RegExp compiles its own source each time. -/
def Plain.exec (t : Plain) : Action → Reply P × Plain
  | .construct r text flagsText =>
    match parseFlags flagsText with
    | .error e => (.thrown (.flags e), t)
    | .ok flags =>
      match compile (sourceOf text) flags with
      | .error e => (.thrown (.pattern (rtUtf8Chars (sourceOf text)) flagsText e), t)
      | .ok _ =>
        (.initialized,
          { texts := update t.texts r (some (sourceOf text, flags))
            recent := (t.use (ownKey (sourceOf text) flags)).recent })
  | .run r =>
    match t.texts r with
    | none => (.uninitialised, t)
    | some (source, flags) =>
      match compile source flags with
      | .error e => (.thrown (.pattern (rtUtf8Chars source) flags.text e), t)
      | .ok p => (.program p, t.use (ownKey source flags))

/-- No RegExp was initialised yet. -/
def Plain.initial : Plain where
  texts _ := none
  recent := []

end Machine

end Bronze.Regex
