import Bronze.Json.Stringify
import Bronze.Json.Correctness

/-!
# What `JSON.stringify` writes

Whatever the runtime answers, a text that comes out is put together from a few pieces. A property
of texts that the pieces have, and that arrays and objects of such texts keep, is a property of
every output.

## Main results

* `quoteJsonString_json`, `elements_joinParts`, `members_joinParts`: the pieces in the grammar
* `rtJsonStringify_texts`: closed properties hold of the output
-/

namespace Bronze.Json

namespace Run

variable {W O α β : Type}

/-- Every answer satisfies `Q`; a throw and a fault are no answers. -/
def Returns (x : Run W O α) (Q : α → Prop) : Prop :=
  ∀ w a w', x w = .done a w' → Q a

theorem bind_apply (x : Run W O α) (f : α → Run W O β) (w : W) :
    (x >>= f) w = match x w with
      | .done a w' => f a w'
      | .threw t w' => .threw t w'
      | .fault => .fault := rfl

variable {x : Run W O α} {f : α → Run W O β} {Q : α → Prop} {R : β → Prop}

theorem bind_done {w w' : W} {b : β} (h : (x >>= f) w = .done b w') :
    ∃ a w₁, x w = .done a w₁ ∧ f a w₁ = .done b w' := by
  rw [bind_apply] at h
  cases hx : x w with
  | done a w₁ => exact ⟨a, w₁, rfl, by simpa [hx] using h⟩
  | threw t w₁ => simp [hx] at h
  | fault => simp [hx] at h

theorem Returns.bind (hx : x.Returns Q) (hf : ∀ a, Q a → (f a).Returns R) :
    (x >>= f).Returns R := by
  intro w b w' h
  obtain ⟨a, w₁, ha, hb⟩ := bind_done h
  exact hf a (hx w a w₁ ha) w₁ b w' hb

theorem Returns.then (hf : ∀ a, (f a).Returns R) : (x >>= f).Returns R :=
  Returns.bind (Q := fun _ => True) (fun _ _ _ _ => trivial) fun a _ => hf a

theorem Returns.pure {a : α} (h : Q a) : (Pure.pure a : Run W O α).Returns Q := by
  rintro w b w' ⟨⟩
  exact h

theorem Returns.typeError {message : String} : (typeError message : Run W O α).Returns Q :=
  nofun

theorem Returns.fault : (fault : Run W O α).Returns Q := nofun

theorem Returns.read_bind {f : W → α} {g : α → Run W O β} (h : ∀ w, (g (f w)).Returns R) :
    (read f >>= g).Returns R := by
  intro w b w' hb
  exact h w w b w' hb

theorem map_id (x : Run W O α) : id <$> x = x := by
  funext w
  change (x >>= Pure.pure) w = x w
  rw [bind_apply]
  cases x w <;> rfl

theorem bind_assoc {γ : Type} (x : Run W O α) (f : α → Run W O β) (g : β → Run W O γ) :
    x >>= f >>= g = x >>= fun a => f a >>= g := by
  funext w
  rw [bind_apply, bind_apply, bind_apply]
  cases x w <;> rfl

instance : LawfulMonad (Run W O) :=
  LawfulMonad.mk' _ map_id (fun _ _ => rfl) bind_assoc

theorem Returns.mapM {l : List α} {Q : β → Prop} (h : ∀ a, (f a).Returns Q) :
    (l.mapM f).Returns fun bs => ∀ b ∈ bs, Q b := by
  induction l with
  | nil =>
    exact Returns.pure (by simp)
  | cons a l ih =>
    rw [List.mapM_cons]
    refine (h a).bind fun b hb => ih.bind fun bs hbs => Returns.pure ?_
    simpa using ⟨hb, hbs⟩

end Run

section Strings

theorem hexDigit_hexUnit {d : Nat} (h : d < 16) : HexDigit (hexUnit d) d := by
  have hdigit : d < 10 → isDigit (hexUnit d) = true ∧
      (hexUnit d).toNat - (unit '0').toNat = d := by
    revert d
    decide
  have hlower : ¬d < 10 → (unit 'a' ≤ hexUnit d ∧ hexUnit d ≤ unit 'f') ∧
      (hexUnit d).toNat - (unit 'a').toNat + 10 = d := by
    revert d
    decide
  by_cases hd : d < 10
  · obtain ⟨hc, hvalue⟩ := hdigit hd
    have := HexDigit.digit hc
    rwa [hvalue] at this
  · obtain ⟨hc, hvalue⟩ := hlower hd
    have := HexDigit.lower hc
    rwa [hvalue] at this

theorem escapeUnit_json (c : UInt16) : StringCharacter (escapeUnit c) c := by
  have hdigits : (((c.toNat / 4096 % 16 * 16 + c.toNat / 256 % 16) * 16 + c.toNat / 16 % 16) * 16 +
      c.toNat % 16).toUInt16 = c := by
    have hc := c.toNat_lt
    rw [show ((c.toNat / 4096 % 16 * 16 + c.toNat / 256 % 16) * 16 + c.toNat / 16 % 16) * 16 +
      c.toNat % 16 = c.toNat by omega]
    exact UInt16.ofNat_toNat
  have h := StringCharacter.unicode
    (hexDigit_hexUnit (Nat.mod_lt (c.toNat / 4096) (by decide : 0 < 16)))
    (hexDigit_hexUnit (Nat.mod_lt (c.toNat / 256) (by decide : 0 < 16)))
    (hexDigit_hexUnit (Nat.mod_lt (c.toNat / 16) (by decide : 0 < 16)))
    (hexDigit_hexUnit (Nat.mod_lt c.toNat (by decide : 0 < 16)))
  rwa [hdigits] at h

theorem shortEscape_json {c : UInt16} {escape : Units} (h : shortEscape c = some escape) :
    StringCharacter escape c := by
  -- one of the seven units that have an escape
  unfold shortEscape at h
  split_ifs at h with h₁ h₂ h₃ h₄ h₅ h₆ h₇ <;> obtain rfl := Option.some.inj h <;> subst c
  · exact .escape (e := unit 'b') (by decide)
  · exact .escape (e := unit 't') (by decide)
  · exact .escape (e := unit 'n') (by decide)
  · exact .escape (e := unit 'f') (by decide)
  · exact .escape (e := unit 'r') (by decide)
  · exact .escape (e := unit '"') (by decide)
  · exact .escape (e := unit '\\') (by decide)

theorem shortEscape_none {c : UInt16} (h : shortEscape c = none) :
    c ≠ unit '"' ∧ c ≠ unit '\\' := by
  constructor <;> rintro rfl <;> exact absurd h (by decide)

theorem quoteUnit_json (c : UInt16) : StringCharacter (quoteUnits.quoteUnit c) c := by
  unfold quoteUnits.quoteUnit
  split
  · rename_i escape h
    exact shortEscape_json h
  · rename_i h
    split_ifs with hescaped
    · exact escapeUnit_json c
    · obtain ⟨hquote, hback⟩ := shortEscape_none h
      refine .plain ?_ hquote hback
      simp only [Bool.or_eq_true, decide_eq_true_eq, not_or] at hescaped
      exact UInt16.not_lt.mp hescaped.1

theorem plain_of_surrogate {c : UInt16} (h : 0xD800 ≤ c) : StringCharacter [c] c := by
  have hlt : ∀ d, d < 0xD800 → c ≠ d := by
    rintro d hd rfl
    exact absurd h (UInt16.not_le.mpr hd)
  exact .plain (UInt16.le_trans (by decide) h) (hlt _ (by decide)) (hlt _ (by decide))

theorem quoteUnits_json (s : Units) : StringCharacters (quoteUnits s) s := by
  induction s using quoteUnits.induct with
  | case1 => exact .nil
  | case2 c =>
    have h := StringCharacters.cons (quoteUnit_json c) .nil
    rwa [List.append_nil] at h
  | case3 c d rest hpair ih =>
    rw [quoteUnits, if_pos hpair]
    simp only [isHighSurrogate, isLowSurrogate, Bool.and_eq_true, decide_eq_true_eq] at hpair
    have hd := plain_of_surrogate (UInt16.le_trans (by decide) hpair.2.1)
    exact .cons (plain_of_surrogate hpair.1.1) (.cons hd ih)
  | case4 c d rest hpair ih =>
    rw [quoteUnits, if_neg hpair]
    exact .cons (quoteUnit_json c) ih

/-- **A quoted string is a JSON string**, of the units it was made from. -/
theorem quoteJsonString_json (s : Units) : JSONString (quoteJsonString s) s :=
  .quoted (quoteUnits_json s)

end Strings

section Join

variable {before between after : Units} (hbefore : Whitespace before)
  (hbetween : Whitespace between) (hafter : Whitespace after)
include hbefore hbetween hafter

theorem elements_joinParts {parts : List Units} {vs : List Value}
    (h : List.Forall₂ JSONText parts vs) (hne : parts ≠ []) :
    Elements (joinParts before between parts ++ after) vs := by
  induction h with
  | nil => exact absurd rfl hne
  | @cons part v parts vs hpart hparts ih =>
    obtain ⟨w₁, s, w₂, hw₁, hs, hw₂, rfl⟩ := hpart
    cases hparts with
    | nil =>
      have := Elements.last (hbefore.append hw₁) hs (hw₂.append hafter)
      simpa [joinParts] using this
    | cons hpart' hparts' =>
      have htail := ih (by simp)
      have := Elements.cons (hbefore.append hw₁) hs hw₂ (htail.whitespace hbetween)
      simpa [joinParts] using this

theorem members_joinParts {gap : Units} {entries : List (Units × Units)} {ms : List (Units × Value)}
    (h : List.Forall₂ (fun entry m => entry.1 = m.1 ∧ JSONText entry.2 m.2) entries ms)
    (hne : entries ≠ []) :
    Members (joinParts before between (entries.map fun e => memberText gap e.1 e.2) ++ after)
      ms := by
  have hspace : Whitespace (if gap = [] then [] else [unit ' ']) := by
    split_ifs
    · simp [Whitespace]
    · simp [Whitespace, isWhitespace]
  induction h with
  | nil => exact absurd rfl hne
  | @cons entry m entries ms hentry hentries ih =>
    obtain ⟨key, text⟩ := entry
    obtain ⟨key', v⟩ := m
    obtain ⟨rfl, w₁, s, w₂, hw₁, hs, hw₂, rfl⟩ := hentry
    have hkey := quoteJsonString_json key
    cases hentries with
    | nil =>
      have := Members.last hbefore hkey whitespace_nil (hspace.append hw₁) hs (hw₂.append hafter)
      simpa [joinParts, memberText] using this
    | cons hentry' hentries' =>
      have htail := ih (by simp)
      have := Members.cons hbefore hkey whitespace_nil (hspace.append hw₁) hs hw₂
        (htail.whitespace hbetween)
      simpa [joinParts, memberText] using this

end Join

theorem literal_json {s : Units} {v : Value} (h : JSONValue s v) : JSONText s v :=
  ⟨[], s, [], whitespace_nil, h, whitespace_nil, by simp⟩

section JoinPartial

variable {indent stepback : Units} (hindent : Whitespace indent) (hstepback : Whitespace stepback)
include hindent hstepback

/-- What `joinPartial` puts between the brackets, around and between the parts. -/
theorem joinPartial_eq (gap : Units) {parts : List Units} (hne : parts ≠ [])
    (opening closing : UInt16) :
    ∃ lead before between after, Whitespace lead ∧ Whitespace before ∧ Whitespace between ∧
      Whitespace after ∧ joinPartial parts indent stepback gap opening closing =
        opening :: (lead ++ (joinParts before between parts ++ after) ++ [closing]) := by
  have hline : Whitespace [unit '\n'] := by simp [Whitespace, isWhitespace]
  rw [joinPartial, if_neg hne]
  by_cases hgap : gap = []
  · rw [if_pos hgap]
    exact ⟨[], [], [], [], whitespace_nil, whitespace_nil, whitespace_nil, whitespace_nil, by simp⟩
  · rw [if_neg hgap]
    exact ⟨[unit '\n'], indent, [unit '\n'], unit '\n' :: stepback, hline, hindent, hline,
      hline.append hstepback, by simp⟩

theorem array_json (gap : Units) {parts : List Units} {vs : List Value}
    (h : List.Forall₂ JSONText parts vs) :
    JSONText (joinPartial parts indent stepback gap (unit '[') (unit ']')) (.array vs) := by
  refine literal_json ?_
  by_cases hne : parts = []
  · subst hne
    cases h
    exact .emptyArray whitespace_nil
  · obtain ⟨lead, before, between, after, hlead, hbefore, hbetween, hafter, heq⟩ :=
      joinPartial_eq hindent hstepback gap hne (unit '[') (unit ']')
    rw [heq]
    exact .array ((elements_joinParts hbefore hbetween hafter h hne).whitespace hlead)

theorem object_json (gap : Units) {entries : List (Units × Units)} {ms : List (Units × Value)}
    (h : List.Forall₂ (fun entry m => entry.1 = m.1 ∧ JSONText entry.2 m.2) entries ms) :
    JSONText (joinPartial (entries.map fun e => memberText gap e.1 e.2) indent stepback gap
      (unit '{') (unit '}')) (.object ms) := by
  refine literal_json ?_
  by_cases hne : entries = []
  · subst hne
    cases h
    exact .emptyObject whitespace_nil
  · have hparts : (entries.map fun e => memberText gap e.1 e.2) ≠ [] := by simpa using hne
    obtain ⟨lead, before, between, after, hlead, hbefore, hbetween, hafter, heq⟩ :=
      joinPartial_eq hindent hstepback gap hparts (unit '{') (unit '}')
    rw [heq]
    exact .object ((members_joinParts hbefore hbetween hafter h hne).whitespace hlead)

end JoinPartial

/-! ## Closed properties of texts -/

/-- A property `P` of texts that the pieces have and that is kept by arrays and objects, whose
indentation satisfies `I`. -/
structure Texts (P I : Units → Prop) (gap : Units) : Prop where
  indent : ∀ indent, I indent → I (indent ++ gap)
  null : P (units "null")
  bool : ∀ b : Bool, P (units (if b then "true" else "false"))
  string : ∀ s, P (quoteJsonString s)
  number : ∀ negative x, P (formatJsNumber (.finite negative x))
  array : ∀ indent parts, I indent → (∀ s ∈ parts, P s) →
    P (joinPartial parts (indent ++ gap) indent gap (unit '[') (unit ']'))
  object : ∀ indent (entries : List (Units × Units)), I indent → (∀ e ∈ entries, P e.2) →
    P (joinPartial (entries.map fun e => memberText gap e.1 e.2) (indent ++ gap) indent gap
      (unit '{') (unit '}'))

section Closed

open Run

variable {W O : Type} [DecidableEq O] {rt : Runtime W O} {state : State O} {P I : Units → Prop}
  {serialize : Serializer W O} {indent : Units} {stack : List O} {o : O}

/-- A serializer that writes texts with the property, wherever it is. -/
def Writes (P I : Units → Prop) (serialize : Serializer W O) : Prop :=
  ∀ indent stack key holder, I indent →
    (serialize indent stack key holder).Returns fun text => ∀ s ∈ text, P s

variable (hP : Texts P I state.gap) (hserialize : Writes P I serialize) (hindent : I indent)
include hP hserialize hindent

theorem serializeArray_texts (length : Nat) :
    (serializeArray state serialize indent stack o length).Returns
      fun text => ∀ s ∈ text, P s := by
  unfold serializeArray
  split_ifs
  · exact Returns.typeError
  · refine Returns.bind (Returns.mapM (Q := P) fun i => ?_) fun parts hparts => ?_
    · refine (hserialize _ _ _ _ (hP.indent _ hindent)).bind fun element helement => ?_
      refine Returns.pure ?_
      cases element with
      | none => exact hP.null
      | some text => exact helement text rfl
    · refine Returns.pure ?_
      rintro s ⟨⟩
      exact hP.array indent parts hindent hparts

omit [DecidableEq O] in
theorem serializeMembers_texts (keys : List Units) :
    (serializeMembers state serialize indent stack o keys).Returns
      fun text => ∀ s ∈ text, P s := by
  unfold serializeMembers
  -- a member is the text of a key and the text of its value
  have hmember : ∀ key, (do
      let serialized ← serialize (indent ++ state.gap) (o :: stack) key (.object o)
      return serialized.map (memberText state.gap key)).Returns
        fun member => ∀ part ∈ member, ∃ e : Units × Units,
          memberText state.gap e.1 e.2 = part ∧ P e.2 := by
    intro key
    refine (hserialize _ _ _ _ (hP.indent _ hindent)).bind fun text htext => Returns.pure ?_
    intro part hpart
    obtain ⟨s, hs, rfl⟩ := Option.map_eq_some_iff.mp hpart
    exact ⟨(key, s), rfl, htext s hs⟩
  refine (Returns.mapM hmember).bind fun members hmembers => Returns.pure ?_
  rintro s ⟨⟩
  have hparts : ∀ part ∈ members.filterMap id, ∃ e : Units × Units,
      memberText state.gap e.1 e.2 = part ∧ P e.2 := by
    intro part hpart
    obtain ⟨member, hmember, hid⟩ := List.mem_filterMap.mp hpart
    exact hmembers member hmember part hid
  obtain ⟨entries, hmap, hentries⟩ : ∃ entries : List (Units × Units),
      entries.map (fun e => memberText state.gap e.1 e.2) = members.filterMap id ∧
        ∀ e ∈ entries, P e.2 := by
    generalize members.filterMap id = parts at hparts
    induction parts with
    | nil => exact ⟨[], rfl, by simp⟩
    | cons part parts ih =>
      obtain ⟨e, rfl, he⟩ := hparts part (by simp)
      obtain ⟨entries, rfl, hentries⟩ := ih fun p hp => hparts p (by simp [hp])
      exact ⟨e :: entries, rfl, List.forall_mem_cons.mpr ⟨he, hentries⟩⟩
  rw [← hmap]
  exact hP.object indent entries hindent hentries

theorem serializeObject_texts :
    (serializeObject rt state serialize indent stack o).Returns
      fun text => ∀ s ∈ text, P s := by
  unfold serializeObject
  split_ifs
  · exact Returns.typeError
  · exact Returns.then fun keys => serializeMembers_texts hP hserialize hindent keys

theorem serializeProxy_texts (fuel : Nat) :
    (serializeProxy rt state serialize fuel indent stack o).Returns
      fun text => ∀ s ∈ text, P s := by
  refine Returns.then fun target => Returns.read_bind fun w => ?_
  split_ifs
  · exact Returns.then fun lengthValue => Returns.then fun n =>
      serializeArray_texts hP hserialize hindent _
  · exact serializeObject_texts hP hserialize hindent

variable (hraw : ∀ w o raw, rawJson rt w o = some raw → P raw)
include hraw

theorem serializeObjectValue_texts (fuel : Nat) :
    (serializeObjectValue rt state serialize fuel indent stack o).Returns
      fun text => ∀ s ∈ text, P s := by
  refine Returns.read_bind fun w => ?_
  have hobject : (serializeObject rt state serialize indent stack o).Returns
      fun text => ∀ s ∈ text, P s := serializeObject_texts hP hserialize hindent
  split
  · exact serializeArray_texts hP hserialize hindent _
  · refine Returns.read_bind fun w => ?_
    split
    · rename_i raw h
      refine Returns.pure ?_
      rintro s ⟨⟩
      exact hraw w o raw h
    · exact hobject
  all_goals first
    | exact hobject
    | exact serializeProxy_texts hP hserialize hindent fuel
    | exact Returns.fault

theorem serializeValue_texts (fuel : Nat) (value : JsValue O) :
    (serializeValue rt state serialize fuel indent stack value).Returns
      fun text => ∀ s ∈ text, P s := by
  cases value with
  | null => exact Returns.pure (by simpa using hP.null)
  | bool b => exact Returns.pure (by simpa using hP.bool b)
  | string s => exact Returns.pure (by simpa using hP.string s)
  | bigint n => exact Returns.typeError
  | number x =>
    cases x with
    | finite negative x => exact Returns.pure (by simpa using hP.number negative x)
    | nan => exact Returns.pure (by simpa using hP.null)
    | infinity negative => exact Returns.pure (by simpa using hP.null)
  | object o =>
    refine Returns.read_bind fun w => ?_
    split_ifs
    · exact Returns.pure (by simp)
    · exact serializeObjectValue_texts hP hserialize hindent hraw fuel
  | undefined => exact Returns.pure (by simp)
  | symbol id => exact Returns.pure (by simp)

omit hserialize hindent in
theorem serializeProperty_texts (fuel : Nat) : Writes P I (serializeProperty rt state fuel) := by
  induction fuel with
  | zero => exact fun _ _ _ _ _ => Returns.fault
  | succ fuel ih =>
    intro indent stack key holder hindent
    rw [serializeProperty]
    exact Returns.then fun _ => Returns.then fun _ => Returns.then fun _ =>
      Returns.then fun value =>
      serializeValue_texts hP ih hindent hraw fuel value

end Closed

section Stringify

variable {W O : Type} [DecidableEq O] {rt : Runtime W O} {P I : Units → Prop}

/-- **What the closed properties of texts are for**: the output has them, whatever the value, the
replacer and the runtime. -/
theorem rtJsonStringify_texts {fuel : Nat} {value replacer space : JsValue O} {w w' : W}
    {out : Units} (hP : Texts P I (gapOf rt w space)) (hI : I [])
    (hraw : ∀ w o raw, rawJson rt w o = some raw → P raw)
    (hrun : rtJsonStringify rt fuel value replacer space w = .done (.string out) w') : P out := by
  obtain ⟨_, _, ⟨⟩, hrun⟩ := Run.bind_done hrun
  obtain ⟨wrapper, w₁, -, hrun⟩ := Run.bind_done hrun
  obtain ⟨text, w₂, htext, hrun⟩ := Run.bind_done hrun
  have hgap : Texts P I (stateOf rt w replacer space).gap := hP
  have hout := serializeProperty_texts hgap hraw fuel [] [] [] wrapper hI w₁ text w₂ htext
  cases text with
  | none => cases hrun
  | some s =>
    obtain rfl : s = out := by
      cases hrun
      rfl
    exact hout s rfl

end Stringify

/-- The texts that spell a value. -/
def IsJson (s : Units) : Prop := ∃ v, JSONText s v

theorem isJson_texts {gap : Units} (hgap : Whitespace gap) : Texts IsJson Whitespace gap where
  indent indent hindent := hindent.append hgap
  null := ⟨_, literal_json .null⟩
  bool b := by
    cases b
    · exact ⟨_, literal_json .false⟩
    · exact ⟨_, literal_json .true⟩
  string s := ⟨_, literal_json (.string (quoteJsonString_json s))⟩
  number negative x := ⟨_, literal_json (.number (formatJsNumber_json negative x))⟩
  array indent parts hindent hparts := by
    obtain ⟨vs, hvs⟩ : ∃ vs, List.Forall₂ JSONText parts vs := by
      induction parts with
      | nil => exact ⟨[], .nil⟩
      | cons part parts ih =>
        obtain ⟨v, hv⟩ := hparts part (by simp)
        obtain ⟨vs, hvs⟩ := ih fun s hs => hparts s (by simp [hs])
        exact ⟨v :: vs, .cons hv hvs⟩
    exact ⟨_, array_json (hindent.append hgap) hindent gap hvs⟩
  object indent entries hindent hentries := by
    obtain ⟨ms, hms⟩ : ∃ ms : List (Units × Value),
        List.Forall₂ (fun entry m => entry.1 = m.1 ∧ JSONText entry.2 m.2) entries ms := by
      induction entries with
      | nil => exact ⟨[], .nil⟩
      | cons e entries ih =>
        obtain ⟨v, hv⟩ := hentries e (by simp)
        obtain ⟨ms, hms⟩ := ih fun s hs => hentries s (by simp [hs])
        exact ⟨(e.1, v) :: ms, .cons ⟨rfl, hv⟩ hms⟩
    exact ⟨_, object_json (hindent.append hgap) hindent gap hms⟩

/-- What `JSON.rawJSON` takes is JSON text, and is kept as it is. -/
theorem jsonRawJSON_json {text raw : Units} (h : jsonRawJSON text = .ok (.ok raw)) :
    raw = text ∧ IsJson raw := by
  obtain ⟨value, error, hparse, htree, -, -⟩ := parse_iff text
  rw [jsonRawJSON, hparse] at h
  cases value with
  | none => cases h
  | some v =>
    obtain rfl : text = raw := by
      cases h
      rfl
    exact ⟨rfl, v, ((htree v).mp rfl).1⟩

/-- Well-formed UTF-16: a surrogate only as one half of a pair. -/
inductive WellFormed : Units → Prop
  | nil : WellFormed []
  | unit {c : UInt16} {s : Units} (h : isHighSurrogate c = false ∧ isLowSurrogate c = false)
    (hs : WellFormed s) : WellFormed (c :: s)
  | pair {c d : UInt16} {s : Units} (hc : isHighSurrogate c = true)
    (hd : isLowSurrogate d = true) (hs : WellFormed s) : WellFormed (c :: d :: s)

namespace WellFormed

theorem append {s t : Units} (hs : WellFormed s) (ht : WellFormed t) : WellFormed (s ++ t) := by
  induction hs with
  | nil => exact ht
  | unit h _ ih => exact .unit h ih
  | pair hc hd _ ih => exact .pair hc hd ih

theorem of_lt {s : Units} (h : ∀ c ∈ s, c < 0xD800) : WellFormed s := by
  induction s with
  | nil => exact .nil
  | cons c s ih =>
    have hc := UInt16.not_le.mpr (h c (by simp))
    refine .unit ⟨by simp [isHighSurrogate, hc], ?_⟩ (ih fun d hd => h d (by simp [hd]))
    have hlow : ¬0xDC00 ≤ c := fun hle => hc (UInt16.le_trans (by decide) hle)
    simp [isLowSurrogate, hlow]

theorem ascii {s : Units} (h : s.all (fun c => c < 0xD800) = true) : WellFormed s :=
  of_lt (by simpa using h)

theorem hexUnit_lt {d : Nat} (h : d < 16) : hexUnit d < 0xD800 := by
  revert d
  decide

theorem escapeUnit (c : UInt16) : WellFormed (escapeUnit c) := by
  have hhex (n : Nat) : hexUnit (n % 16) < 0xD800 := hexUnit_lt (Nat.mod_lt n (by decide))
  refine of_lt ?_
  simp only [Json.escapeUnit, List.mem_cons, List.not_mem_nil, or_false, forall_eq_or_imp,
    forall_eq]
  exact ⟨by decide, by decide, hhex _, hhex _, hhex _, hhex _⟩

theorem shortEscape {c : UInt16} {escape : Units} (h : shortEscape c = some escape) :
    WellFormed escape := by
  unfold Json.shortEscape at h
  split_ifs at h <;> obtain rfl := Option.some.inj h <;> exact ascii (by decide)

theorem quoteUnit (c : UInt16) : WellFormed (quoteUnits.quoteUnit c) := by
  unfold quoteUnits.quoteUnit
  split
  · rename_i escape h
    exact shortEscape h
  · split_ifs with hescaped
    · exact escapeUnit c
    · refine .unit ?_ .nil
      -- a unit that is not escaped is no surrogate
      simp only [Bool.or_eq_true, Bool.and_eq_true, decide_eq_true_eq, not_or, not_and] at hescaped
      simp only [isHighSurrogate, isLowSurrogate, Bool.and_eq_false_iff, decide_eq_false_iff_not]
      by_cases hc : 0xD800 ≤ c
      · have hend := hescaped.2 hc
        refine ⟨.inr fun hle => hend (UInt16.le_trans hle (by decide)), .inr hend⟩
      · exact ⟨.inl hc, .inl fun hle => hc (UInt16.le_trans (by decide) hle)⟩

theorem quoteUnits (s : Units) : WellFormed (quoteUnits s) := by
  induction s using quoteUnits.induct with
  | case1 => exact .nil
  | case2 c => exact quoteUnit c
  | case3 c d rest hpair ih =>
    rw [Json.quoteUnits, if_pos hpair]
    simp only [Bool.and_eq_true] at hpair
    exact .pair hpair.1 hpair.2 ih
  | case4 c d rest hpair ih =>
    rw [Json.quoteUnits, if_neg hpair]
    exact (quoteUnit c).append ih

theorem quoteJsonString (s : Units) : WellFormed (quoteJsonString s) :=
  append (ascii (by decide) : WellFormed [Json.unit '"'])
    ((quoteUnits s).append (ascii (by decide)))

theorem number {s : Units} (h : JSONNumber s) : WellFormed s := by
  have hdigit : ∀ c, isDigit c = true → c < 0xD800 := by
    intro c hc
    simp only [isDigit, Bool.and_eq_true, decide_eq_true_eq] at hc
    exact UInt16.lt_of_le_of_lt hc.2 (by decide)
  have hdigits {t : Units} (ht : Digits t) : WellFormed t := of_lt fun c hc => hdigit c (ht.2 c hc)
  obtain ⟨sign, i, f, e, hsign, hi, hf, he, rfl⟩ := h
  refine append ?_ (append ?_ (append ?_ ?_))
  · rcases hsign with rfl | rfl <;> exact ascii (by decide)
  · rcases hi with rfl | ⟨hi, -⟩
    · exact ascii (by decide)
    · exact hdigits hi
  · rcases hf with rfl | ⟨t, ht, rfl⟩
    · exact .nil
    · exact append (ascii (by decide) : WellFormed [Json.unit '.']) (hdigits ht)
  · rcases he with rfl | ⟨e, sign, t, he, hsign, ht, rfl⟩
    · exact .nil
    · refine append (?_ : WellFormed [e]) (append ?_ (hdigits ht))
      · rcases he with rfl | rfl <;> exact ascii (by decide)
      · rcases hsign with rfl | rfl | rfl <;> exact ascii (by decide)

theorem joinParts {before between : Units} (hbefore : WellFormed before)
    (hbetween : WellFormed between) {parts : List Units} (h : ∀ s ∈ parts, WellFormed s) :
    WellFormed (joinParts before between parts) := by
  induction parts with
  | nil => exact .nil
  | cons part parts ih =>
    have hpart := h part (by simp)
    have htail := ih fun s hs => h s (by simp [hs])
    cases parts with
    | nil => exact hbefore.append hpart
    | cons part' parts =>
      exact hbefore.append (hpart.append (.unit (by decide) (hbetween.append htail)))

theorem joinPartial {indent stepback gap : Units} (hindent : WellFormed indent)
    (hstepback : WellFormed stepback) {opening closing : UInt16} (hopening : WellFormed [opening])
    (hclosing : WellFormed [closing]) {parts : List Units} (h : ∀ s ∈ parts, WellFormed s) :
    WellFormed (joinPartial parts indent stepback gap opening closing) := by
  have hline : WellFormed [Json.unit '\n'] := ascii (by decide)
  unfold Json.joinPartial
  split_ifs
  · exact hopening.append hclosing
  · exact hopening.append ((joinParts .nil .nil h).append hclosing)
  · exact hopening.append (hline.append ((joinParts hindent hline h).append
      (hline.append (hstepback.append hclosing))))

theorem memberText {gap key value : Units} (h : WellFormed value) :
    WellFormed (memberText gap key value) := by
  refine (quoteJsonString key).append (.unit (by decide) (append ?_ h))
  split_ifs <;> exact ascii (by decide)

end WellFormed

theorem wellFormed_texts {gap : Units} (hgap : WellFormed gap) :
    Texts WellFormed WellFormed gap where
  indent indent hindent := hindent.append hgap
  null := .ascii (by decide)
  bool b := by cases b <;> exact .ascii (by decide)
  string := .quoteJsonString
  number negative x := .number (formatJsNumber_json negative x)
  array indent parts hindent hparts :=
    .joinPartial (hindent.append hgap) hindent (.ascii (by decide)) (.ascii (by decide)) hparts
  object indent entries hindent hentries := by
    refine .joinPartial (hindent.append hgap) hindent (.ascii (by decide)) (.ascii (by decide)) ?_
    intro s hs
    obtain ⟨e, he, rfl⟩ := List.mem_map.mp hs
    exact .memberText (hentries e he)

end Bronze.Json
