import Bronze.Regex.Programs
import Bronze.Table.Run

/-!
# The cache of programs is transparent

The RegExps of `Programs` against those of `Plain`, which have no cache. Every operation asks for
the program of a key, and a key gives its source and flags away: so what the cache holds under a key
is what the source compiles to, as long as no source was cut at a NUL, and no id is made a second
time while a RegExp still holds it.

## Main results

* `Stocked.fetch`: a key that is asked for, found or compiled
* `exec_served`: a clean action is the action without a cache
* `programs_transparent`: so is a clean run
-/

namespace Bronze.Regex

open LinkedOrder Transition Utf8
open List Option Function Bool Programs RegExpCache

/-- Flags that `parseFlags` can answer. -/
def RegExpFlags.Valid (flags : RegExpFlags) : Prop := (flags.unicode && flags.unicodeSets) = false

theorem parseFlags_valid {text : List Nat} {flags : RegExpFlags} (h : parseFlags text = .ok flags) :
    flags.Valid := by
  rw [parseFlags] at h
  cases hletters : parseLetters .none text with
  | error e => simp [hletters] at h
  | ok flags' =>
    simp only [hletters] at h
    split_ifs at h with hboth
    obtain rfl := Except.ok.inj h
    exact (not_eq_true _).mp hboth

theorem text_injective {f g : RegExpFlags} (hf : f.Valid) (hg : g.Valid) (h : f.text = g.text) :
    f = g := by
  have hparse := parseFlags_text hf
  rw [h, parseFlags_text hg] at hparse
  exact (Except.ok.inj hparse).symm

theorem text_ne (flags : RegExpFlags) : ∀ c ∈ flags.text, c ≠ 0x0A := by
  have hall : ∀ d g i m s u v y : Bool,
      ∀ c ∈ RegExpFlags.text ⟨d, g, i, m, s, u, v, y⟩, c ≠ 0x0A := by
    decide
  exact hall _ _ _ _ _ _ _ _

theorem takeWhile_keyOf {f : List Nat} (hf : ∀ c ∈ f, c ≠ 0x0A) (x : List Nat) :
    (keyOf f x).takeWhile (· ≠ 0x0A) = f := by
  rw [keyOf, takeWhile_append_of_pos fun c hc => decide_eq_true (hf c hc)]
  simp

/-- **A key gives source and flags away.** -/
theorem ownKey_injective {f g : RegExpFlags} {s t : List UInt16} (hf : f.Valid) (hg : g.Valid)
    (h : ownKey s f = ownKey t g) : s = t ∧ f = g := by
  have hwhile := congrArg (takeWhile (· ≠ 0x0A)) h
  rw [ownKey, ownKey, takeWhile_keyOf (text_ne f), takeWhile_keyOf (text_ne g)] at hwhile
  rw [ownKey, hwhile] at h
  exact ⟨rtUtf8Chars_injective (cons.inj (append_cancel_left h)).2, text_injective hf hg hwhile⟩

theorem rtUtf8Chars_text (flags : RegExpFlags) :
    rtUtf8Chars (createFromUTF8 flags.text) = flags.text := by
  have hall : ∀ d g i m s u v y : Bool,
      rtUtf8Chars (createFromUTF8 (RegExpFlags.text ⟨d, g, i, m, s, u, v, y⟩)) =
        RegExpFlags.text ⟨d, g, i, m, s, u, v, y⟩ := by
    decide
  exact hall _ _ _ _ _ _ _ _

section Cache

variable {P : Type} {compile : List UInt16 → RegExpFlags → Except (List Nat) P}
  {cache : RegExpCache P} {order : List Nat} {source : List UInt16} {flags : RegExpFlags}
  {recent : List Key} {key : Key} {id : Nat} {p : P}

/-- The list is consistent and holds the keys that were used, and under a key is what its source
compiles to. -/
structure Stocked (compile : List UInt16 → RegExpFlags → Except (List Nat) P)
    (cache : RegExpCache P) (recent : List Key) : Prop where
  consistent : ∃ order, cache.Consistent order ∧ cache.keys order = recent
  compiled : ∀ slot < cache.size, ∃ source flags p, flags.Valid ∧
    compile source flags = .ok p ∧ (cache.entries slot).key = ownKey source flags ∧
    (cache.entries slot).pattern = some p

/-- An id that names no entry of another key. -/
def Trusted (cache : RegExpCache P) (key : Key) (id : Nat) : Prop :=
  ∀ slot < cache.size, (cache.entries slot).id = id → (cache.entries slot).key = key

/-- A key that is asked for: its slot, which is filled if there is none. -/
def fetch (key : Key) (pattern : P) (cache : RegExpCache P) : Nat × RegExpCache P :=
  match cache.lookup key with
  | (some slot, cache) => (slot, cache)
  | (none, cache) => cache.insert key pattern

/-- What is there after a key was asked for. -/
structure Fetched (compile : List UInt16 → RegExpFlags → Except (List Nat) P)
    (cache : RegExpCache P) (recent : List Key) (key : Key) (p : P) (slot : Nat)
    (cache' : RegExpCache P) : Prop where
  stocked : Stocked compile cache' ((toFront key recent).take kCapacity)
  slot_lt : slot < cache'.size
  pattern_eq : (cache'.entries slot).pattern = some p
  trusted : Trusted cache' key (cache'.entryId slot)
  kept : ∀ key' id, Trusted cache key' id →
    (cache.keyToSlot key = none → id = cache.nextId cache.victim → key' = key) →
    Trusted cache' key' id

variable (h : Stocked compile cache recent)

include h

variable (hflags : flags.Valid)

include hflags

theorem Stocked.pattern_eq {slot : Nat}
    (hslot : slot < cache.size) (hkey : (cache.entries slot).key = ownKey source flags) :
    ∃ p, compile source flags = .ok p ∧ (cache.entries slot).pattern = some p := by
  obtain ⟨source', flags', p, hvalid, hcompile, hkey', hpattern⟩ := h.compiled slot hslot
  obtain ⟨rfl, rfl⟩ := ownKey_injective hvalid hflags (hkey'.symm.trans hkey)
  exact ⟨p, hcompile, hpattern⟩

variable (hcompile : compile source flags = .ok p)

include hcompile

theorem Stocked.touch
    {slot : Nat} (hslot : slot < cache.size)
    (hkey : (cache.entries slot).key = ownKey source flags) :
    Fetched compile cache recent (ownKey source flags) p slot (cache.touch slot) where
  stocked := by
    obtain ⟨order, horder, rfl⟩ := h.consistent
    refine ⟨⟨toFront slot order, horder.touch hslot, ?_⟩, h.compiled⟩
    have hkeys := horder.keys_toFront hslot
    have hlength := (horder.touch hslot).length_eq
    have hle := horder.size_le
    rw [← hkey, ← hkeys, take_of_length_le]
    · rfl
    · rw [RegExpCache.keys, length_map, hlength]
      exact hle
  slot_lt := hslot
  pattern_eq := by
    obtain ⟨p', hcompile', hpattern⟩ := h.pattern_eq hflags hslot hkey
    rw [hcompile] at hcompile'
    obtain rfl := Except.ok.inj hcompile'
    exact hpattern
  trusted := by
    obtain ⟨order, horder, -⟩ := h.consistent
    intro slot' hslot' hid
    have hmod := horder.id_slot slot' hslot'
    have hid' : (cache.entries slot').id = (cache.entries slot).id := hid
    rw [hid', horder.id_slot slot hslot] at hmod
    subst hmod
    exact hkey
  kept _ _ htrusted _ := htrusted

theorem Stocked.insert (hnew : ∀ slot < cache.size, (cache.entries slot).key ≠ ownKey source flags)
    (hnone : cache.keyToSlot (ownKey source flags) = none) :
    Fetched compile cache recent (ownKey source flags) p (cache.insert (ownKey source flags) p).1
      (cache.insert (ownKey source flags) p).2 := by
  obtain ⟨order, horder, rfl⟩ := h.consistent
  obtain ⟨hc, hslot, hlt, hfilled, hkept⟩ := horder.insert p hnew
  rw [hslot]
  refine ⟨⟨⟨_, hc, horder.keys_insert p hnew⟩, fun slot hs => ?_⟩, hlt, by rw [hfilled], ?_, ?_⟩
  · by_cases heq : slot = cache.victim
    · subst heq
      exact ⟨source, flags, p, hflags, hcompile, by rw [hfilled], by rw [hfilled]⟩
    · obtain ⟨hs', hentry⟩ := hkept slot hs heq
      rw [hentry]
      exact h.compiled slot hs'
  · intro slot hs hid
    have hmod := hc.id_slot slot hs
    have hid' : (((cache.insert (ownKey source flags) p).2.entries slot)).id =
        ((cache.insert (ownKey source flags) p).2.entries cache.victim).id := hid
    rw [hid', hc.id_slot _ hlt] at hmod
    rw [← hmod, hfilled]
  · intro key' id htrusted hfresh slot hs hid
    by_cases heq : slot = cache.victim
    · subst heq
      rw [hfilled] at hid ⊢
      exact (hfresh hnone hid.symm).symm
    · obtain ⟨hs', hentry⟩ := hkept slot hs heq
      rw [hentry] at hid ⊢
      exact htrusted slot hs' hid

/-- **A key that is asked for** is found or filled with what its source compiles to. -/
theorem Stocked.fetch :
    Fetched compile cache recent (ownKey source flags) p (fetch (ownKey source flags) p cache).1
      (fetch (ownKey source flags) p cache).2 := by
  obtain ⟨order, horder, -⟩ := h.consistent
  rcases horder.lookup (ownKey source flags) with ⟨slot, hlookup, hslot, hkey⟩ | ⟨hlookup, hnew⟩
  · rw [Regex.fetch, hlookup]
    exact h.touch hflags hcompile hslot hkey
  · rw [Regex.fetch, hlookup]
    refine h.insert hflags hcompile hnew ?_
    cases hkey : cache.keyToSlot (ownKey source flags) with
    | none => rfl
    | some slot =>
      obtain ⟨hs, heq⟩ := (horder.index _ slot).mp hkey
      exact absurd heq (hnew slot hs)

end Cache

/-! ## RegExps and their programs -/

section Programs

variable {P : Type} {compile : List UInt16 → RegExpFlags → Except (List Nat) P}
  {cache cache' : RegExpCache P} {header : RegExpHeader} {source : List UInt16}
  {flags : RegExpFlags} {recent : List Key} {p : P} {s : Programs P} {t : Plain} {r slot : Nat}

/-- The RegExp has the source and the flags, and its id is not that of another program. -/
structure Own (compile : List UInt16 → RegExpFlags → Except (List Nat) P) (cache : RegExpCache P)
    (header : RegExpHeader) (source : List UInt16) (flags : RegExpFlags) : Prop where
  valid : flags.Valid
  compiles : ∃ p, compile source flags = .ok p
  source_eq : header.source = source
  flagsText_eq : header.flagsText = createFromUTF8 flags.text
  index : ∃ id, header.programIndex = some id ∧ Trusted cache (ownKey source flags) id

/-- **Cache and objects**, against the sources of the RegExps. -/
structure Served (compile : List UInt16 → RegExpFlags → Except (List Nat) P) (s : Programs P)
    (t : Plain) : Prop where
  stocked : Stocked compile s.cache t.recent
  absent : ∀ r, t.texts r = none → (s.objects r).programIndex = none
  own : ∀ r source flags, t.texts r = some (source, flags) →
    Own compile s.cache (s.objects r) source flags

/-- The key `programSharedOf` makes of a RegExp. -/
def RegExpHeader.key (header : RegExpHeader) : Key :=
  keyOf (rtUtf8Chars header.flagsText) (rtUtf8Chars header.source)

/-- If the key needs a new id, no RegExp of another key still holds that id. The generation has 33
bits, so it takes as many compilations before this can fail. -/
def Programs.KeepsApart (s : Programs P) (key : Key) : Prop :=
  s.cache.keyToSlot key = none → ∀ r, (s.objects r).programIndex =
    some (s.cache.nextId s.cache.victim) → (s.objects r).key = key

/-- **A clean action**: its source is not cut at a NUL, and a new id is held by no RegExp of another
key. -/
def Action.Clean (compile : List UInt16 → RegExpFlags → Except (List Nat) P) (s : Programs P) :
    Action → Prop
  | .construct _ text flagsText =>
    (escapeRegExpPattern (rtUtf8Chars text) = rtUtf8Chars text ∨
        0 ∉ escapeRegExpPattern (rtUtf8Chars text)) ∧
      ∀ flags p, parseFlags flagsText = .ok flags → compile (storedSource text) flags = .ok p →
        s.KeepsApart (keyOf flags.text (escapeRegExpPattern (rtUtf8Chars text)))
  | .run r => (s.objects r).programIndex.isSome → s.KeepsApart (s.objects r).key

theorem Own.key_eq (h : Own compile cache header source flags) :
    header.key = ownKey source flags := by
  rw [RegExpHeader.key, h.source_eq, h.flagsText_eq, rtUtf8Chars_text, ownKey]

theorem Own.kept (h : Own compile cache header source flags) {key : Key}
    (hfetch : Fetched compile cache recent key p slot cache')
    (hapart : cache.keyToSlot key = none → header.programIndex =
      some (cache.nextId cache.victim) → header.key = key) :
    Own compile cache' header source flags := by
  obtain ⟨id, hid, htrusted⟩ := h.index
  refine { h with index := ⟨id, hid, hfetch.kept _ _ htrusted fun hnone hnext => ?_⟩ }
  rw [← h.key_eq]
  exact hapart hnone (by rw [hid, hnext])

theorem storedSource_eq {text : List UInt16}
    (h : escapeRegExpPattern (rtUtf8Chars text) = rtUtf8Chars text ∨
      0 ∉ escapeRegExpPattern (rtUtf8Chars text)) : storedSource text = sourceOf text := by
  rw [storedSource]
  split_ifs with heq
  · exact (sourceOf_self heq).symm
  · have hnul := h.resolve_left heq
    have hall : ∀ b ∈ escapeRegExpPattern (rtUtf8Chars text), decide (b ≠ 0) = true :=
      fun b hb => decide_eq_true fun hzero => hnul (hzero ▸ hb)
    rw [cString, takeWhile_eq_self_iff.mpr hall, sourceOf]

theorem programFor_ok {flagsText : List Nat} (hflags : parseFlags flagsText = .ok flags)
    (hcompile : compile source flags = .ok p) :
    programFor compile (rtUtf8Chars source) source flagsText cache =
      (.ok (flags, (fetch (ownKey source flags) p cache).2.entryId
          (fetch (ownKey source flags) p cache).1),
        (fetch (ownKey source flags) p cache).2) := by
  rw [programFor, fetch, ownKey]
  cases hlookup : cache.lookup (keyOf flags.text (rtUtf8Chars source)) with
  | mk found cache' => cases found <;> simp [hflags, hlookup, hcompile]

theorem programFor_error {flagsText e : List Nat} (h : Stocked compile cache recent)
    (hflags : parseFlags flagsText = .ok flags) (hcompile : compile source flags = .error e) :
    programFor compile (rtUtf8Chars source) source flagsText cache =
      (.error (.pattern (rtUtf8Chars source) flagsText e), cache) := by
  obtain ⟨order, horder, -⟩ := h.consistent
  rw [programFor, hflags]
  rcases horder.lookup (keyOf flags.text (rtUtf8Chars source)) with
    ⟨slot, -, hslot, hkey⟩ | ⟨hlookup, -⟩
  · obtain ⟨p, hok, -⟩ := h.pattern_eq (parseFlags_valid hflags) hslot hkey
    rw [hcompile] at hok
    cases hok
  · simp [hlookup, hcompile]

theorem patternReply_eq (h : (cache.entries slot).pattern = some p) :
    patternReply cache slot = .program p := by
  rw [patternReply, h]

theorem Own.recover (h : Own compile cache header source flags)
    (hcompile : compile source flags = .ok p) :
    recover compile header cache =
      (.ok (fetch (ownKey source flags) p cache).1, (fetch (ownKey source flags) p cache).2) := by
  rw [Regex.recover, h.flagsText_eq, h.source_eq, rtUtf8Chars_text, fetch, ownKey]
  cases cache.lookup (keyOf flags.text (rtUtf8Chars source)) with
  | mk found cache' => cases found <;> simp [parseFlags_text h.valid, hcompile]

/-- **A RegExp gets a source** as it does without a cache. -/
theorem rtInitializeRegExp_served (h : Served compile s t) (text : List UInt16)
    (flagsText : List Nat) (hclean : (Action.construct r text flagsText).Clean compile s) :
    (rtInitializeRegExp compile r text flagsText s).1 =
        (t.exec compile (.construct r text flagsText)).1 ∧
      Served compile (rtInitializeRegExp compile r text flagsText s).2
        (t.exec compile (.construct r text flagsText)).2 := by
  obtain ⟨hnul, hapart⟩ := hclean
  rw [storedSource_eq hnul] at hapart
  rw [rtInitializeRegExp, storedSource_eq hnul, Plain.exec, ← rtUtf8Chars_sourceOf]
  rw [← rtUtf8Chars_sourceOf] at hapart
  cases hflags : parseFlags flagsText with
  | error e =>
    have hfor : programFor compile (rtUtf8Chars (sourceOf text)) (sourceOf text) flagsText s.cache =
        (.error (.flags e), s.cache) := by rw [programFor, hflags]
    rw [hfor]
    exact ⟨rfl, h⟩
  | ok flags =>
    cases hcompile : compile (sourceOf text) flags with
    | error e =>
      simp only [programFor_error h.stocked hflags hcompile, hcompile]
      exact ⟨trivial, h⟩
    | ok p =>
      have hvalid := parseFlags_valid hflags
      have hfetch := h.stocked.fetch hvalid hcompile
      have hapart' : s.KeepsApart (ownKey (sourceOf text) flags) := hapart flags p hflags hcompile
      simp only [programFor_ok hflags hcompile, hcompile]
      refine ⟨trivial, hfetch.stocked, fun r' hr' => ?_, fun r' source' flags' hr' => ?_⟩
      · dsimp only at hr' ⊢
        rw [update_apply] at hr' ⊢
        split_ifs at hr' ⊢
        exact h.absent r' hr'
      · dsimp only at hr' ⊢
        rw [update_apply] at hr' ⊢
        split_ifs at hr' ⊢
        · obtain ⟨rfl, rfl⟩ := Prod.mk.inj (some.inj hr')
          exact ⟨hvalid, ⟨p, hcompile⟩, rfl, rfl, _, rfl, hfetch.trusted⟩
        · exact (h.own r' source' flags' hr').kept hfetch fun hnone hid => hapart' hnone r' hid

/-- **A RegExp that is run** has the program of its own source. -/
theorem Own.program (h : Own compile s.cache (s.objects r) source flags)
    (hstocked : Stocked compile s.cache recent) (hcompile : compile source flags = .ok p) :
    (programSharedOf compile r s).1 = .program p := by
  obtain ⟨id, hid, htrusted⟩ := h.index
  simp only [programSharedOf, hid]
  split_ifs with hvalid
  · simp only [isValid, and_eq_true, decide_eq_true_eq] at hvalid
    obtain ⟨⟨hslot, hentry⟩, -⟩ := hvalid
    have hfetch := hstocked.touch h.valid hcompile hslot (htrusted _ hslot hentry)
    exact patternReply_eq hfetch.pattern_eq
  · have hfetch := hstocked.fetch h.valid hcompile
    rw [h.recover hcompile]
    exact patternReply_eq hfetch.pattern_eq

theorem programSharedOf_served (h : Served compile s t) (hclean : (Action.run r).Clean compile s) :
    (programSharedOf compile r s).1 = (t.exec compile (.run r)).1 ∧
      Served compile (programSharedOf compile r s).2 (t.exec compile (.run r)).2 := by
  rw [Plain.exec]
  cases htext : t.texts r with
  | none =>
    rw [programSharedOf, h.absent r htext]
    exact ⟨rfl, h⟩
  | some own =>
    obtain ⟨source, flags⟩ := own
    have hown := h.own r source flags htext
    obtain ⟨id, hid, htrusted⟩ := hown.index
    obtain ⟨p, hcompile⟩ := hown.compiles
    have hapart : s.KeepsApart (ownKey source flags) := by
      rw [← hown.key_eq]
      exact hclean (by rw [hid]; rfl)
    simp only [hcompile]
    refine ⟨hown.program h.stocked hcompile, ?_⟩
    simp only [programSharedOf, hid]
    split_ifs with hvalid
    · simp only [isValid, and_eq_true, decide_eq_true_eq] at hvalid
      obtain ⟨⟨hslot, hentry⟩, -⟩ := hvalid
      have hfetch := h.stocked.touch hown.valid hcompile hslot (htrusted _ hslot hentry)
      exact ⟨hfetch.stocked, h.absent, fun r' source' flags' hr' =>
        (h.own r' source' flags' hr').kept hfetch fun hnone hid => hapart hnone r' hid⟩
    · have hfetch := h.stocked.fetch hown.valid hcompile
      rw [hown.recover hcompile]
      refine ⟨hfetch.stocked, fun r' hr' => ?_, fun r' source' flags' hr' => ?_⟩
      · have hne : r' ≠ r := by
          rintro rfl
          have hr'' : t.texts r' = none := hr'
          rw [htext] at hr''
          cases hr''
        dsimp only
        rw [update_of_ne hne]
        exact h.absent r' hr'
      · have hr'' : t.texts r' = some (source', flags') := hr'
        dsimp only
        rw [update_apply]
        split_ifs with heq
        · -- the RegExp that was run holds the id of the entry that it found
          subst heq
          rw [htext] at hr''
          obtain ⟨rfl, rfl⟩ := Prod.mk.inj (some.inj hr'')
          exact { hown with index := ⟨_, rfl, hfetch.trusted⟩ }
        · exact (h.own r' source' flags' hr'').kept hfetch fun hnone hid => hapart hnone r' hid

/-- **A clean action** is the action without a cache. -/
theorem exec_served (h : Served compile s t) (a : Action) (hclean : a.Clean compile s) :
    (s.exec compile a).1 = (t.exec compile a).1 ∧
      Served compile (s.exec compile a).2 (t.exec compile a).2 := by
  cases a with
  | construct r text flagsText => exact rtInitializeRegExp_served h text flagsText hclean
  | run r => exact programSharedOf_served h hclean

theorem initial_served : Served compile initial Plain.initial where
  stocked := ⟨⟨[], empty_consistent, rfl⟩,
    fun _ hslot => absurd hslot (Nat.not_lt_zero _)⟩
  absent _ _ := rfl
  own _ _ _ h := nomatch h

/-- An action, and what it comes to. -/
def Programs.Step (compile : List UInt16 → RegExpFlags → Except (List Nat) P) (s : Programs P)
    (e : Action × Reply P) (s' : Programs P) : Prop :=
  s.exec compile e.1 = (e.2, s')

/-- A clean action, and what it comes to. -/
def Programs.CleanStep (compile : List UInt16 → RegExpFlags → Except (List Nat) P)
    (s : Programs P) (e : Action × Reply P) (s' : Programs P) : Prop :=
  s.Step compile e s' ∧ e.1.Clean compile s

/-- An action, and what it comes to without a cache. -/
def Plain.Step (compile : List UInt16 → RegExpFlags → Except (List Nat) P) (t : Plain)
    (e : Action × Reply P) (t' : Plain) : Prop :=
  t.exec compile e.1 = (e.2, t')

theorem run_served {es : List (Action × Reply P)}
    (h : Run (CleanStep compile) initial es s) :
    ∃ t, Run (Plain.Step compile) Plain.initial es t ∧ Served compile s t := by
  refine h.refines (Served compile) initial_served fun s₁ t₁ e s₂ hserved hstep => ?_
  obtain ⟨hexec, hclean⟩ := hstep
  obtain ⟨hreply, hserved'⟩ := exec_served hserved e.1 hclean
  rw [hexec] at hreply hserved'
  exact ⟨(t₁.exec compile e.1).2, Prod.ext hreply.symm rfl, hserved'⟩

/-- **The cache is transparent** in a clean run: each action comes to what it does where a RegExp
compiles its own source each time, each RegExp has the program of its own source and flags, and the
cache holds the keys that were used last, each once, the most recently used first. -/
theorem programs_transparent (compile : List UInt16 → RegExpFlags → Except (List Nat) P)
    {es : List (Action × Reply P)} {s : Programs P}
    (h : Run (CleanStep compile) initial es s) :
    ∃ t, Run (Plain.Step compile) Plain.initial es t ∧
      (∃ order, s.cache.Consistent order ∧ s.cache.keys order = t.recent) ∧
      ∀ r, (s.objects r).programIndex.isSome → ∃ flags p,
        parseFlags (rtUtf8Chars (s.objects r).flagsText) = .ok flags ∧
        compile (s.objects r).source flags = .ok p ∧
        (programSharedOf compile r s).1 = .program p := by
  obtain ⟨t, hrun, hserved⟩ := run_served h
  refine ⟨t, hrun, hserved.stocked.consistent, fun r hr => ?_⟩
  cases htext : t.texts r with
  | none =>
    rw [hserved.absent r htext] at hr
    cases hr
  | some own =>
    obtain ⟨source, flags⟩ := own
    have hown := hserved.own r source flags htext
    obtain ⟨p, hcompile⟩ := hown.compiles
    refine ⟨flags, p, ?_, ?_, hown.program hserved.stocked hcompile⟩
    · rw [hown.flagsText_eq, rtUtf8Chars_text]
      exact parseFlags_text hown.valid
    · rw [hown.source_eq]
      exact hcompile

end Programs

/-- A compiler that hands the source on. -/
def asSource (source : List UInt16) (_ : RegExpFlags) : Except (List Nat) (List UInt16) :=
  .ok source

/-- `new RegExp("/\0x")`, whose slash is escaped. -/
def slashAction : Action := .construct 0 [0x2F, 0, 0x78] []

/-- `new RegExp("\\/\0x")`, whose slash is escaped already. -/
def escapedAction : Action := .construct 1 [0x5C, 0x2F, 0, 0x78] []

/-- The RegExps after both. -/
def twoSources : Programs (List UInt16) :=
  ((Programs.initial.exec asSource slashAction).2.exec asSource escapedAction).2

/-- The second RegExp has the key of the first, and gets its program, which was cut at the NUL. -/
theorem program_of_another :
    Run (Step asSource) initial
        [(slashAction, .initialized), (escapedAction, .initialized)] twoSources ∧
      (twoSources.objects 1).source = [0x5C, 0x2F, 0, 0x78] ∧
      asSource (twoSources.objects 1).source .none = .ok [0x5C, 0x2F, 0, 0x78] ∧
      (programSharedOf asSource 1 twoSources).1 = .program [0x5C, 0x2F] := by
  have hrun : Run (Step asSource) initial
      ([] ++ [(slashAction, .initialized)] ++ [(escapedAction, .initialized)]) twoSources :=
    .snoc (.snoc .nil rfl) rfl
  exact ⟨hrun, rfl, rfl, rfl⟩

/-- `r = new RegExp("a"); t = new RegExp("b"); r.compile("b")`, and both are run. -/
def twoEntries : List (Action × Reply (List UInt16)) :=
  [(.construct 0 [0x61] [], .initialized), (.construct 1 [0x62] [], .initialized),
    (.construct 0 [0x62] [], .initialized), (.run 0, .program [0x62]), (.run 1, .program [0x62])]

/-- The RegExps after some actions. -/
def afterEntries (es : List (Action × Reply (List UInt16))) : Programs (List UInt16) :=
  es.foldl (fun s e => (s.exec asSource e.1).2) initial

theorem CleanStep.exec {s : Programs (List UInt16)} {a : Action} {reply : Reply (List UInt16)}
    (hreply : (s.exec asSource a).1 = reply) (hclean : a.Clean asSource s) :
    CleanStep asSource s (a, reply) (s.exec asSource a).2 :=
  ⟨Prod.ext hreply rfl, hclean⟩

/-- The first `n` actions are clean. -/
def CleanTo (n : Nat) : Prop :=
  Run (CleanStep asSource) initial (twoEntries.take n) (afterEntries (twoEntries.take n))

theorem twoEntries_clean : CleanTo 5 := by
  have hthere : ∀ {s : Programs (List UInt16)} {key}, s.cache.keyToSlot key ≠ none →
      s.KeepsApart key := fun h hnone => absurd hnone h
  have hone : CleanTo 1 :=
    Run.nil.snoc (CleanStep.exec rfl ⟨Or.inl rfl, fun _ _ _ _ _ _ => nofun⟩)
  -- the second id is not that of the first RegExp, and no other has one
  have htwo : CleanTo 2 := by
    refine hone.snoc (CleanStep.exec rfl ⟨Or.inl rfl, fun flags p _ _ _ r => ?_⟩)
    rcases r with - | r
    · exact nofun
    · exact nofun
  have hthree : CleanTo 3 :=
    htwo.snoc (CleanStep.exec rfl ⟨Or.inl rfl, fun flags p hflags _ => by
      obtain rfl := Except.ok.inj hflags
      exact hthere nofun⟩)
  have hfour : CleanTo 4 := hthree.snoc (CleanStep.exec rfl fun _ => hthere nofun)
  exact hfour.snoc (CleanStep.exec rfl fun _ => hthere nofun)

/-- A clean run with two entries in the cache: the one that both RegExps have in the end was used
last. -/
theorem programs_transparent_one :
    ∃ t, Run (Plain.Step asSource) Plain.initial twoEntries t ∧
      ∃ order, (afterEntries twoEntries).cache.Consistent order ∧
        (afterEntries twoEntries).cache.keys order = t.recent := by
  obtain ⟨t, ht, hcache, -⟩ := programs_transparent asSource twoEntries_clean
  exact ⟨t, ht, hcache⟩

end Bronze.Regex
