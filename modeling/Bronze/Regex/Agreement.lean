import Bronze.Regex.FastRepeat
import Bronze.Regex.Prescan

/-!
# References and the groups they refer to

The scan before the parse and the parser read the same groups, whatever the source is, as long as it
parses. A reference is read against the groups of the scan, so the parser reads it as the standard
does, save for a number above the bound at which the loop over its digits stops, and for the empty
name, which the parser takes for that of a group without a name.
-/

namespace Bronze.Regex

open Fixpoint (bind_eq_ok)
open List Nat Option Blind Sight Except

/-- Between two places the parser opened the groups that are seen there, in order, numbered them,
and read every reference. -/
structure Saw (p : PatternParser) (between : List Sight) (groups : List Nat)
    (place place' : Place) :
    Prop where
  sights_eq : sights p.flags.unicodeSets place.rest false 0 =
    between ++ sights p.flags.unicodeSets place'.rest false 0
  names_eq : place'.names = place.names ++ between.filterMap Sight.name?
  counter_eq : place'.captureCounter =
    place.captureCounter + (between.filterMap Sight.name?).length
  groups_eq : groups =
    range' (place.captureCounter + 1) (between.filterMap Sight.name?).length
  references : ∀ text ∈ between.filterMap Sight.text?, ∃ r, p.parseAtomEscape text = .ok r

section Places

variable {p : PatternParser} {place mid place' : Place} {a b : List Sight} {ga gb : List Nat}
  {s : Units}

theorem saw_pass
    (h : sights p.flags.unicodeSets place.rest false 0 = sights p.flags.unicodeSets s false 0) :
    Saw p [] [] place { place with rest := s } where
  sights_eq := h
  names_eq := (append_nil _).symm
  counter_eq := rfl
  groups_eq := rfl
  references := fun _ h => absurd h not_mem_nil

theorem saw_blind (h : Blind p.flags.unicodeSets 0 place.rest s) :
    Saw p [] [] place { place with rest := s } :=
  saw_pass (h 0 le_rfl)

theorem Saw.append (h : Saw p a ga place mid) (h' : Saw p b gb mid place') :
    Saw p (a ++ b) (ga ++ gb) place place' where
  sights_eq := by simp [h.sights_eq, h'.sights_eq]
  names_eq := by simp [h'.names_eq, h.names_eq]
  counter_eq := by
    rw [h'.counter_eq, h.counter_eq, filterMap_append, length_append, Nat.add_assoc]
  groups_eq := by
    rw [h.groups_eq, h'.groups_eq, h.counter_eq, filterMap_append, length_append,
      Nat.add_right_comm, range'_append_1]
  references := by
    intro text htext
    rw [filterMap_append, mem_append] at htext
    exact htext.elim (h.references text) (h'.references text)

theorem Saw.blind (h : Saw p a ga place mid)
    (hs : Blind p.flags.unicodeSets 0 mid.rest s) : Saw p a ga place { mid with rest := s } := by
  have happend := h.append (saw_blind hs)
  rwa [append_nil, append_nil] at happend

theorem Saw.after_blind (h : Saw p a ga { place with rest := s } place')
    (hs : Blind p.flags.unicodeSets 0 place.rest s) : Saw p a ga place place' :=
  (saw_blind hs).append h

end Places

section Atoms

variable {v : Bool} {s s' : Units} {c : UInt16}

/-- Outside brackets a `]` is a unit like any other. -/
theorem sights_close (s : Units) : sights v (ch ']' :: s) false 0 = sights v s false 0 := by
  rw [sights, if_neg (by decide), if_neg (not_not.mpr rfl), if_neg (by decide), if_neg (by decide)]

theorem sights_group (s : Units) :
    sights v (ch '(' :: s) false 0 = (prescanGroup s).map group ++ sights v s false 0 := by
  rw [sights, if_neg (by decide), if_neg (not_not.mpr rfl), if_neg (by decide), if_pos rfl]

namespace PatternParser

variable {p : PatternParser} {node : Node}

theorem blind_readDecimal {lo : Nat} (value : Nat) (s : Units) :
    Blind v lo s (readDecimal value s).2 := by
  induction s generalizing value with
  | nil => exact refl lo []
  | cons c s ih =>
    rw [readDecimal]
    split
    next hdigit =>
      split
      · exact refl lo _
      · exact (blind_plain (plain_of_decimalDigit hdigit) s).trans (ih _)
    · exact refl lo _

theorem blind_parseNamedReference {lo : Nat} (h : p.parseNamedReference s = .ok (node, s')) :
    Blind v lo s s' ∧ node.groups = [] := by
  unfold parseNamedReference at h
  split at h
  · cases h
  next s₁ hopen =>
    dsimp only at h
    split at h
    · cases h
    next s₂ hclose =>
      split at h
      · cases h
        exact ⟨(blind_eat (by decide) hopen).trans
          ((blind_dropWhile (fun _ => plain_of_identifierPart) s₁).trans
            (blind_eat (by decide) hclose)), rfl⟩
      · cases h

theorem groups_charNode {code : Nat} (h : p.charNode code s = .ok node) : node.groups = [] := by
  obtain ⟨-, -, h⟩ := bind_eq_ok.mp h
  cases h
  rfl

/-- **An escape of an atom** is passed behind its letter, and opens no group. -/
theorem blind_parseAtomEscape (h : p.parseAtomEscape s = .ok (node, s')) :
    node.groups = [] ∧ ∃ c rest, s = c :: rest ∧ Blind v 0 rest s' := by
  unfold parseAtomEscape at h
  cases s with
  | nil => cases h
  | cons c s =>
    dsimp only at h
    suffices hsuffices : node.groups = [] ∧ Blind v 0 s s' from
      ⟨hsuffices.1, c, s, rfl, hsuffices.2⟩
    split at h
    · cases h
      exact ⟨rfl, refl 0 _⟩
    · split at h
      · cases h
        exact ⟨rfl, refl 0 _⟩
      · split at h
        · exact (blind_parseNamedReference h).symm
        · split at h
          next hdigit =>
            unfold parseDecimalEscape at h
            dsimp only at h
            split at h
            · cases h
            · cases h
              refine ⟨rfl, ?_⟩
              have hzero : ¬(0 * 10 + (c.toNat - 0x30) > 0xFFFFFF) := by
                have := c.toNat_lt
                omega
              have hdecimal : isDecimalDigit c = true := by
                rw [isWithin, Bool.and_eq_true, decide_eq_true_eq, decide_eq_true_eq] at hdigit
                rw [isDecimalDigit, isWithin, Bool.and_eq_true, decide_eq_true_eq,
                  decide_eq_true_eq]
                exact ⟨UInt16.le_trans (by decide) hdigit.1, hdigit.2⟩
              rw [readDecimal, if_pos hdecimal, if_neg hzero]
              exact blind_readDecimal _ s
          · obtain ⟨⟨value, s₁⟩, hescape, h⟩ := bind_eq_ok.mp h
            have hrest : Blind v 0 .. := blind_readEscapeValue hescape
            cases value with
            | set ranges =>
              cases h
              exact ⟨rfl, hrest⟩
            | character code =>
              obtain ⟨node', hchar, h⟩ := bind_eq_ok.mp h
              cases h
              exact ⟨groups_charNode hchar, hrest⟩

end PatternParser

end Atoms

/-! ## Groups -/

section Groups

variable {p : PatternParser} {place place' : Place} {s : Units}

theorem takeWhile_name {s r : Units} (h : eat '>' (s.dropWhile isIdentifierPart) = some r) :
    s.takeWhile (fun u => u != ch '>') = s.takeWhile isIdentifierPart := by
  have hsplit := takeWhile_append_dropWhile (p := isIdentifierPart) (l := s)
  have hname : ∀ u ∈ s.takeWhile isIdentifierPart, (u != ch '>') = true := by
    intro u hu
    have hpart := mem_takeWhile_imp hu
    rw [bne_iff_ne]
    rintro rfl
    exact absurd hpart (by decide)
  calc s.takeWhile (fun u => u != ch '>')
      = (s.takeWhile isIdentifierPart ++ ch '>' :: r).takeWhile (fun u => u != ch '>') := by
        rw [← eat_eq_some.mp h, hsplit]
    _ = s.takeWhile isIdentifierPart := by
        simp [takeWhile_append_of_pos hname]

theorem groups_group (n : Nat) (body : Node) :
    ((GroupKind.group (n + 1)).node body).groups = [n + 1] ++ body.groups := by
  rfl

theorem saw_open {name : List UInt8} {rest : Units} (hrest : place.rest = ch '(' :: s)
    (hgroup : prescanGroup s = [name]) (hblind : Blind p.flags.unicodeSets 0 s rest) :
    Saw p [.group name] [place.captureCounter + 1] place (Place.capture place name rest).2 where
  sights_eq := by
    rw [hrest, sights_group, hgroup, hblind 0 le_rfl]
    rfl
  names_eq := rfl
  counter_eq := rfl
  groups_eq := rfl
  references := fun text h => absurd h not_mem_nil

theorem saw_aside {rest : Units} (hrest : place.rest = ch '(' :: s) (hgroup : prescanGroup s = [])
    (hblind : Blind p.flags.unicodeSets 0 s rest) :
    Saw p [] [] place { place with rest := rest } where
  sights_eq := by
    rw [hrest, sights_group, hgroup, hblind 0 le_rfl]
    rfl
  names_eq := (append_nil _).symm
  counter_eq := rfl
  groups_eq := rfl
  references := fun text h => absurd h not_mem_nil

/-- The units before the body of a group open it or do not, for the scan as for the parser. -/
theorem saw_readOpening {kind : GroupKind} (hrest : place.rest = ch '(' :: s)
    (h : p.readOpening place s = .ok (kind, place')) :
    ∃ between groups, Saw p between groups place place' ∧
      ∀ body, (kind.node body).groups = groups ++ body.groups := by
  unfold PatternParser.readOpening at h
  split at h
  next hplain =>
    cases h
    have hpeek : peek s 0 ≠ ch '?' := by
      intro hquestion
      rw [cons_of_peek hquestion (by decide)] at hplain
      cases hplain
    refine ⟨_, _, saw_open hrest ?_ (refl 0 s), groups_group _⟩
    rw [prescanGroup, if_neg hpeek]
  next s₁ hquestion =>
    rw [eat_eq_some] at hquestion
    have hpass : Blind p.flags.unicodeSets 0 s s₁ := by
      rw [hquestion]
      exact blind_plain (by decide) s₁
    have hscan : prescanGroup s = (prescanName s).toList := by
      rw [prescanGroup, if_pos (by rw [hquestion]; rfl)]
    cases s₁ with
    | nil => cases h
    | cons c s' =>
      have hsecond : peek s 1 = c := by rw [hquestion]; rfl
      have hthird : peek s 2 = peek s' 0 := by rw [hquestion]; rfl
      -- a modifier that is no `<` opens no named group
      have haside : ∀ (hne : c ≠ ch '<') (hc : plain c = true),
          Saw p [] [] place { place with rest := s' } := by
        intro hne hc
        refine saw_aside hrest ?_ (hpass.trans (blind_plain hc s'))
        rw [hscan, prescanName, if_neg fun hname => hne (hsecond ▸ hname.1)]
        rfl
      dsimp only at h
      split at h
      next hc =>
        cases h
        exact ⟨_, _, haside (by rw [hc]; decide) (by rw [hc]; decide), fun body => rfl⟩
      · split at h
        next hc =>
          cases h
          exact ⟨_, _, haside (by rw [hc]; decide) (by rw [hc]; decide), fun body => rfl⟩
        · split at h
          next hc =>
            cases h
            exact ⟨_, _, haside (by rw [hc]; decide) (by rw [hc]; decide), fun body => rfl⟩
          · split at h
            next hc =>
              have hangle : Blind p.flags.unicodeSets 0 s s' := by
                refine hpass.trans (blind_plain ?_ s')
                rw [hc]
                decide
              split at h
              next hlook =>
                cases h
                refine ⟨_, _, saw_aside hrest ?_ (hangle.trans ?_), fun body => rfl⟩
                · rw [hscan, prescanName, if_neg]
                  · rfl
                  · rintro ⟨-, -, h₁, h₂⟩
                    rw [hthird] at h₁ h₂
                    exact hlook.elim h₁ h₂
                · -- the `=` or `!` of a lookbehind
                  rcases hlook with hlook | hlook
                  · rw [cons_of_peek hlook (by decide)]
                    exact blind_plain (by decide) _
                  · rw [cons_of_peek hlook (by decide)]
                    exact blind_plain (by decide) _
              next hlook =>
                split at h
                next hstart =>
                  split at h
                  · cases h
                  next s'' hclose =>
                    cases h
                    obtain ⟨h₁, h₂⟩ := not_or.mp hlook
                    refine ⟨_, _, saw_open hrest ?_ (hangle.trans
                      ((blind_dropWhile (fun _ => plain_of_identifierPart) s').trans
                        (blind_eat (by decide) hclose))), groups_group _⟩
                    have hlength : 2 < s.length := by
                      rw [hquestion]
                      cases s' with
                      | nil => exact absurd hstart (by decide)
                      | cons d s' => simp
                    have hdrop : s.drop 2 = s' := by rw [hquestion]; rfl
                    rw [hscan, prescanName,
                      if_pos ⟨hsecond.trans hc, hlength, hthird ▸ h₁, hthird ▸ h₂⟩, hdrop,
                      takeWhile_name hclose]
                    rfl
                · cases h
            · cases h

variable {self : Disjunctions} {node : Node}

/-- The parser one level deeper does what is seen. -/
def SawAll (p : PatternParser) (self : Disjunctions) : Prop :=
  ∀ place node place', self place = .ok (node, place') →
    ∃ between, Saw p between node.groups place place'

theorem saw_parseGroup (hself : SawAll p self) (hrest : place.rest = ch '(' :: s)
    (h : p.parseGroup self place s = .ok (node, place')) :
    ∃ between, Saw p between node.groups place place' := by
  obtain ⟨⟨kind, mid⟩, hopening, h⟩ := bind_eq_ok.mp h
  obtain ⟨⟨body, after⟩, hbody, h⟩ := bind_eq_ok.mp h
  dsimp only at h
  split at h
  · cases h
  next hclose =>
    cases h
    obtain ⟨between, groups, hfirst, hgroups⟩ := saw_readOpening hrest hopening
    obtain ⟨inside, hinside⟩ := hself _ _ _ hbody
    refine ⟨between ++ inside, ?_⟩
    rw [hgroups]
    exact (hfirst.append hinside).blind (blind_eat (by decide) hclose)

end Groups

/-! ## Terms and disjunctions -/

section Terms

variable {p : PatternParser} {place place' : Place} {self : Disjunctions} {node : Node}
  {levels : Nat}

theorem saw_unit {c : UInt16} {s : Units} (hrest : place.rest = c :: s) (hc : plain c = true) :
    Saw p [] [] place { place with rest := s } :=
  saw_blind (by rw [hrest]; exact blind_plain hc s)

theorem saw_parseAtomEscape {s s' : Units} (hrest : place.rest = ch '\\' :: s)
    (h : p.parseAtomEscape s = .ok (node, s')) :
    ∃ between, Saw p between node.groups place { place with rest := s' } := by
  obtain ⟨hgroups, c, rest, hs, hblind⟩ :=
    PatternParser.blind_parseAtomEscape (v := p.flags.unicodeSets) h
  have hsights := sights_escape (v := p.flags.unicodeSets) c rest 0
  rw [← hs, ← hrest, hblind 0 le_rfl] at hsights
  rw [hgroups]
  by_cases hreference : isReference c = true
  · rw [if_pos ⟨rfl, hreference⟩] at hsights
    refine ⟨[.reference s], hsights, (append_nil _).symm, rfl, rfl, ?_⟩
    intro text htext
    obtain rfl : text = s := mem_singleton.mp htext
    exact ⟨_, h⟩
  · rw [if_neg fun hboth => hreference hboth.2] at hsights
    exact ⟨[], hsights, (append_nil _).symm, rfl, rfl, fun _ h => absurd h not_mem_nil⟩

theorem saw_parseSourceCharacter {c : UInt16} {s s' : Units} (hrest : place.rest = c :: s)
    (hslash : c ≠ ch '\\') (hopen : c ≠ ch '[') (hgroup : c ≠ ch '(')
    (h : p.parseSourceCharacter (c :: s) = .ok (node, s')) :
    Saw p [] node.groups place { place with rest := s' } := by
  obtain ⟨node', hchar, h⟩ := bind_eq_ok.mp h
  cases h
  rw [PatternParser.groups_charNode hchar]
  refine saw_pass ?_
  rw [hrest]
  refine Eq.trans ?_ (PatternParser.blind_readSourceCharacter (p := p) c s 0 le_rfl)
  by_cases hclose : c = ch ']'
  · rw [hclose, sights_close]
  · exact sights_plain (by simp [plain, hslash, hopen, hgroup, hclose]) s 0

/-- **An atom** does what is seen. -/
theorem saw_parseAtom (hself : SawAll p self)
    (h : p.parseAtom self levels place = .ok (node, place')) :
    ∃ between, Saw p between node.groups place place' := by
  unfold PatternParser.parseAtom at h
  cases hrest : place.rest with
  | nil =>
    rw [hrest] at h
    cases h
  | cons c s =>
    rw [hrest] at h
    dsimp only at h
    by_cases hstart : c = ch '^'
    · rw [if_pos hstart] at h
      cases h
      exact ⟨_, saw_unit hrest (by rw [hstart]; decide)⟩
    rw [if_neg hstart] at h
    by_cases hfinish : c = ch '$'
    · rw [if_pos hfinish] at h
      cases h
      exact ⟨_, saw_unit hrest (by rw [hfinish]; decide)⟩
    rw [if_neg hfinish] at h
    by_cases hdot : c = ch '.'
    · rw [if_pos hdot] at h
      cases h
      exact ⟨_, saw_unit hrest (by rw [hdot]; decide)⟩
    rw [if_neg hdot] at h
    by_cases hgroup : c = ch '('
    · rw [if_pos hgroup] at h
      rw [hgroup] at hrest
      exact saw_parseGroup hself hrest h
    rw [if_neg hgroup] at h
    by_cases hopen : c = ch '['
    · rw [if_pos hopen] at h
      obtain ⟨⟨atom, s₁⟩, hatom, h⟩ := bind_eq_ok.mp h
      obtain ⟨⟨out, s₂⟩, hclass, hatom⟩ := bind_eq_ok.mp hatom
      cases hatom
      cases h
      refine ⟨[], saw_pass ?_⟩
      rw [hrest, hopen]
      exact PatternParser.closes_parseCharacterClass hclass 0
    rw [if_neg hopen] at h
    by_cases hslash : c = ch '\\'
    · rw [if_pos hslash] at h
      obtain ⟨⟨atom, s₁⟩, hatom, h⟩ := bind_eq_ok.mp h
      cases h
      rw [hslash] at hrest
      exact saw_parseAtomEscape hrest hatom
    rw [if_neg hslash] at h
    -- the units that begin no atom
    by_cases h₁ : c = ch '*' ∨ c = ch '+' ∨ c = ch '?'
    · rw [if_pos h₁] at h
      cases h
    rw [if_neg h₁] at h
    by_cases h₂ : c = ch ')'
    · rw [if_pos h₂] at h
      cases h
    rw [if_neg h₂] at h
    by_cases h₃ : c = ch ']' ∧ p.flags.unicodeMode = true
    · rw [if_pos h₃] at h
      cases h
    rw [if_neg h₃] at h
    by_cases h₄ : c = ch '\x7b' ∧ p.flags.unicodeMode = true
    · rw [if_pos h₄] at h
      cases h
    rw [if_neg h₄] at h
    by_cases h₅ : c = ch '\x7d' ∧ p.flags.unicodeMode = true
    · rw [if_pos h₅] at h
      cases h
    rw [if_neg h₅] at h
    obtain ⟨⟨atom, s₁⟩, hatom, h⟩ := bind_eq_ok.mp h
    cases h
    exact ⟨_, saw_parseSourceCharacter hrest hslash hopen hgroup hatom⟩

variable {s : Units}

variable {r : Units} {v : Bool}

theorem blind_readBoundedDigits {value : Nat}
    (h : PatternParser.readBoundedDigits s = some (value, r)) : Blind v 0 s r := by
  unfold PatternParser.readBoundedDigits at h
  split at h
  · cases h
  · cases h
    exact blind_dropWhile (fun _ => plain_of_decimalDigit) s

theorem blind_map_eat {α : Type} {a b : α} {c : Char} (hc : plain (ch c) = true)
    (h : (eat c s).map (fun s => (a, s)) = some (b, r)) : Blind v 0 s r := by
  obtain ⟨s₁, heat, h⟩ := map_eq_some_iff.mp h
  cases h
  exact blind_eat hc heat

theorem blind_readBounds {bounds : Nat × Nat} (h : PatternParser.readBounds s = some (bounds, r)) :
    Blind v 0 s r := by
  unfold PatternParser.readBounds at h
  split at h
  · cases h
  next lo s₁ hlo =>
    refine (blind_readBoundedDigits hlo).trans ?_
    split at h
    · exact blind_map_eat (by decide) h
    next s₂ hcomma =>
      refine (blind_eat (by decide) hcomma).trans ?_
      split at h
      next s₃ hbrace =>
        cases h
        exact blind_eat (by decide) hbrace
      · split at h
        · cases h
        next hi s₃ hhi => exact (blind_readBoundedDigits hhi).trans (blind_map_eat (by decide) h)

/-- **A quantifier** is passed by the flat scan. -/
theorem blind_readQuantifier {q : Nat × Nat × Bool}
    (h : PatternParser.readQuantifier s = some (q, r)) : Blind v 0 s r := by
  obtain ⟨⟨⟨min, max⟩, s₁⟩, hbounds, h⟩ := map_eq_some_iff.mp h
  cases h
  refine trans ?_ (blind_eat_getD (by decide) s₁)
  cases s with
  | nil => cases hbounds
  | cons c s =>
    dsimp only at hbounds
    split at hbounds
    next hc =>
      cases hbounds
      rw [hc]
      exact blind_plain (by decide) _
    · split at hbounds
      next hc =>
        cases hbounds
        rw [hc]
        exact blind_plain (by decide) _
      · split at hbounds
        next hc =>
          cases hbounds
          rw [hc]
          exact blind_plain (by decide) _
        · split at hbounds
          next hc =>
            rw [hc]
            exact (blind_plain (by decide) _).trans (blind_readBounds hbounds)
          · cases hbounds

theorem saw_parseTerm (hself : SawAll p self)
    (h : p.parseTerm self levels place = .ok (node, place')) :
    ∃ between, Saw p between node.groups place place' := by
  obtain ⟨⟨atom, mid⟩, hatom, h⟩ := bind_eq_ok.mp h
  obtain ⟨between, hsaw⟩ := saw_parseAtom hself hatom
  dsimp only at h
  cases hquantifier : PatternParser.readQuantifier mid.rest with
  | none =>
    rw [hquantifier] at h
    cases h
    exact ⟨between, hsaw⟩
  | some read =>
    obtain ⟨⟨min, max, greedy⟩, s⟩ := read
    rw [hquantifier] at h
    dsimp only at h
    by_cases hassertion : atom.isAssertion = true
    · rw [if_pos hassertion] at h
      cases h
    rw [if_neg hassertion] at h
    by_cases hbounds : min > max
    · rw [if_pos hbounds] at h
      cases h
    rw [if_neg hbounds] at h
    cases h
    exact ⟨between, hsaw.blind (blind_readQuantifier hquantifier)⟩

theorem termGroups_append (a b : List Node) :
    termGroups (a ++ b) = termGroups a ++ termGroups b := by
  induction a with
  | nil => rfl
  | cons term a ih => simp [termGroups, ih]

theorem alternativeGroups_append (a b : List (List Node)) :
    alternativeGroups (a ++ b) = alternativeGroups a ++ alternativeGroups b := by
  induction a with
  | nil => rfl
  | cons terms a ih =>
    simp [alternativeGroups, ih]

/-- **The terms of an alternative**, behind the ones that are there. -/
theorem saw_parseTerms (hself : SawAll p self) {fuel : Nat} {terms out : List Node}
    (h : p.parseTerms self levels fuel terms place = .ok (out, place')) :
    ∃ between groups, termGroups out = termGroups terms ++ groups ∧
      Saw p between groups place place' := by
  have hnone : Saw p [] [] place place := saw_blind (refl 0 place.rest)
  induction fuel generalizing terms place with
  | zero =>
    cases h
    exact ⟨[], [], (append_nil _).symm, hnone⟩
  | succ fuel ih =>
    rw [PatternParser.parseTerms] at h
    split at h
    · cases h
      exact ⟨[], [], (append_nil _).symm, hnone⟩
    · obtain ⟨⟨term, mid⟩, hterm, h⟩ := bind_eq_ok.mp h
      obtain ⟨first, hfirst⟩ := saw_parseTerm hself hterm
      obtain ⟨between, groups, hgroups, hrest⟩ := ih h (saw_blind (refl 0 mid.rest))
      refine ⟨first ++ between, term.groups ++ groups, ?_, hfirst.append hrest⟩
      simp [hgroups, termGroups_append, termGroups]

/-- **The alternatives of a disjunction**, behind the ones that are there. -/
theorem saw_parseAlternatives (hself : SawAll p self) {fuel : Nat}
    {alternatives out : List (List Node)}
    (h : p.parseAlternatives self levels fuel alternatives place = .ok (out, place')) :
    ∃ between groups, alternativeGroups out = alternativeGroups alternatives ++ groups ∧
      Saw p between groups place place' := by
  have hnone : Saw p [] [] place place := saw_blind (refl 0 place.rest)
  induction fuel generalizing alternatives place with
  | zero =>
    cases h
    exact ⟨[], [], (append_nil _).symm, hnone⟩
  | succ fuel ih =>
    rw [PatternParser.parseAlternatives] at h
    split at h
    · cases h
      exact ⟨[], [], (append_nil _).symm, hnone⟩
    next hbar =>
      obtain ⟨⟨next, mid⟩, halternative, h⟩ := bind_eq_ok.mp h
      obtain ⟨first, groups, hgroups, hfirst⟩ := saw_parseTerms hself halternative
      obtain ⟨between, groups', hgroups', hrest⟩ := ih h (saw_blind (refl 0 mid.rest))
      have hnext : groups = termGroups next := by rw [hgroups]; rfl
      refine ⟨first ++ between, groups ++ groups', ?_,
        (hfirst.after_blind (blind_eat (by decide) hbar)).append hrest⟩
      simp [hgroups', alternativeGroups_append, alternativeGroups, hnext]

/-- **A disjunction** does what is seen, on every level. -/
theorem saw_parseDisjunction (levels : Nat) : SawAll p (p.parseDisjunction levels) := by
  induction levels with
  | zero => exact fun place node place' h => by cases h
  | succ levels ih =>
    intro place node place' h
    obtain ⟨⟨first, mid⟩, hfirst, h⟩ := bind_eq_ok.mp h
    obtain ⟨between, groups, hgroups, hsaw⟩ := saw_parseTerms ih hfirst
    have hterms : termGroups first = groups := hgroups
    dsimp only at h
    split at h
    · cases h
      rw [Node.groups, hterms]
      exact ⟨between, hsaw⟩
    · obtain ⟨⟨alternatives, after⟩, halternatives, h⟩ := bind_eq_ok.mp h
      cases h
      obtain ⟨between', groups', hgroups', hsaw'⟩ := saw_parseAlternatives ih halternatives
      rw [Node.groups, hgroups', alternativeGroups, alternativeGroups, append_nil, hterms]
      exact ⟨between ++ between', hsaw.append hsaw'⟩

end Terms

/-! ## References -/

/-- The references of a source: the texts behind the backslashes that refer to a group. -/
def references (unicodeSets : Bool) (source : Units) : List Units :=
  (sights unicodeSets source false 0).filterMap Sight.text?

/-- The number of the digits at the front of a text, behind the digits of a value. -/
def numberFrom (value : Nat) (text : Units) : Nat :=
  (text.takeWhile isDecimalDigit).foldl (fun value d => value * 10 + (d.toNat - 0x30)) value

section Numbers

variable {p : PatternParser} {value : Nat} {text rest : Units} {node : Node}

theorem numberFrom_cons {c : UInt16} (hc : isDecimalDigit c = true) (s : Units) :
    numberFrom value (c :: s) = numberFrom (value * 10 + (c.toNat - 0x30)) s := by
  rw [numberFrom, takeWhile_cons, if_pos hc]
  rfl

theorem le_numberFrom (value : Nat) (text : Units) : value ≤ numberFrom value text := by
  induction text generalizing value with
  | nil => exact le_rfl
  | cons c s ih =>
    by_cases hc : isDecimalDigit c = true
    · rw [numberFrom_cons hc]
      exact le_trans (by omega) (ih _)
    · rw [numberFrom, takeWhile_cons, if_neg hc]
      exact le_rfl

/-- **The loop over the digits** reads the whole number up to its bound. -/
theorem readDecimal_eq (h : numberFrom value text ≤ 0xFFFFFF) :
    PatternParser.readDecimal value text =
      (numberFrom value text, text.dropWhile isDecimalDigit) := by
  induction text generalizing value with
  | nil => rfl
  | cons c s ih =>
    rw [PatternParser.readDecimal, dropWhile_cons]
    by_cases hc : isDecimalDigit c = true
    · rw [numberFrom_cons hc] at h
      have hstep := (le_numberFrom _ s).trans h
      simp [hc, not_lt.mpr hstep, ih h, numberFrom_cons hc]
    · rw [if_neg hc, if_neg hc, numberFrom, takeWhile_cons, if_neg hc]
      rfl

theorem readDecimal_ne (hvalue : value ≤ 0xFFFFFF) (h : 0xFFFFFF < numberFrom value text) :
    (PatternParser.readDecimal value text).2 ≠ text.dropWhile isDecimalDigit := by
  induction text generalizing value with
  | nil => exact absurd h (not_lt.mpr hvalue)
  | cons c s ih =>
    rw [PatternParser.readDecimal, dropWhile_cons]
    by_cases hc : isDecimalDigit c = true
    · rw [numberFrom_cons hc] at h
      rw [if_pos hc, if_pos hc]
      by_cases hstep : value * 10 + (c.toNat - 0x30) > 0xFFFFFF
      · rw [if_pos hstep]
        intro heq
        have hlength : (c :: s).length ≤ s.length := by
          rw [show c :: s = s.dropWhile isDecimalDigit from heq]
          exact length_dropWhile_le isDecimalDigit s
        rw [length_cons] at hlength
        omega
      · rw [if_neg hstep]
        exact ih (not_lt.mp hstep) h
    · rw [numberFrom, takeWhile_cons, if_neg hc] at h
      exact absurd h (not_lt.mpr hvalue)

theorem parseAtomEscape_decimal (h : isWithin '1' '9' (peek text 0) = true) :
    p.parseAtomEscape text = p.parseDecimalEscape text := by
  cases text with
  | nil => exact absurd h (by decide)
  | cons c s =>
    have hc : isWithin '1' '9' c = true := h
    have hne : ∀ d, isWithin '1' '9' d = false → c ≠ d := by
      rintro d hd rfl
      rw [hd] at hc
      cases hc
    rw [PatternParser.parseAtomEscape]
    rw [if_neg (hne _ (by decide)), if_neg (hne _ (by decide)), if_neg (hne _ (by decide)),
      if_pos hc]

theorem parseAtomEscape_named (h : peek text 0 = ch 'k') :
    p.parseAtomEscape text = p.parseNamedReference text.tail := by
  rw [cons_of_peek h (by decide)]
  rfl

theorem parseNamedReference_spec (h : p.parseNamedReference text = .ok (node, rest)) :
    ∃ name i, text = ch '<' :: (name ++ ch '>' :: rest) ∧ node = .backreference (i + 1) ∧
      p.groups.names[i]? = some (asciiOf name) ∧
        ∀ j < i, p.groups.names[j]? ≠ some (asciiOf name) := by
  unfold PatternParser.parseNamedReference at h
  split at h
  · cases h
  next s₁ hopen =>
    dsimp only at h
    split at h
    · cases h
    next s₂ hclose =>
      split at h
      next i hfind =>
        cases h
        obtain ⟨hlt, hname, hfirst⟩ := findIdx?_eq_some_iff_getElem.mp hfind
        refine ⟨s₁.takeWhile isIdentifierPart, i, ?_, rfl, ?_, fun j hj => ?_⟩
        · rw [← eat_eq_some.mp hclose, takeWhile_append_dropWhile, eat_eq_some.mp hopen]
        · rw [getElem?_eq_getElem hlt, beq_iff_eq.mp hname]
        · rw [getElem?_eq_getElem (hj.trans hlt)]
          intro heq
          exact hfirst j hj (beq_iff_eq.mpr (some.inj heq))
      · cases h

theorem parseAtomEscape_empty {behind : Units}
    (h : p.parseAtomEscape (ch 'k' :: ch '<' :: ch '>' :: behind) = .ok (node, rest)) :
    behind = rest := by
  rw [parseAtomEscape_named rfl, tail_cons, PatternParser.parseNamedReference] at h
  have hopen : eat '<' (ch '<' :: ch '>' :: behind) = some (ch '>' :: behind) := rfl
  have hclose : eat '>' ((ch '>' :: behind).dropWhile isIdentifierPart) = some behind := rfl
  simp only [hopen, hclose] at h
  split at h
  · cases h
    rfl
  · cases h

end Numbers

/-- The scan before the parse has the groups that the parser opens, numbers in opening order and
names, and every reference is read as one to such a group: a number whole, where there are as many
groups, and a name, which is not empty, as the first group of that name. -/
structure Agrees (p : PatternParser) (source : Units) (root : Node) (place : Place) : Prop where
  count : place.captureCounter = p.groups.count
  numbered : root.groups = range' 1 p.groups.count
  names : place.names = p.groups.names
  decimal : ∀ text ∈ references p.flags.unicodeSets source, isWithin '1' '9' (peek text 0) = true →
    numberFrom 0 text ≤ p.groups.count ∧
      p.parseAtomEscape text =
        .ok (.backreference (numberFrom 0 text), text.dropWhile isDecimalDigit)
  named : ∀ text ∈ references p.flags.unicodeSets source, peek text 0 = ch 'k' →
    ∃ name i rest, name ≠ [] ∧ text = ch 'k' :: ch '<' :: (name ++ ch '>' :: rest) ∧
      p.parseAtomEscape text = .ok (.backreference (i + 1), rest) ∧
      p.groups.names[i]? = some (asciiOf name) ∧
        ∀ j < i, p.groups.names[j]? ≠ some (asciiOf name)

/-- `\k<>` -/
def namesNothing : Units := [ch 'k', ch '<', ch '>']

section Results

variable {tables : CaseTables} {sources : List Nat}
  {properties : List UInt8 → List UInt8 → Except String RangeList} {flags : Flags} {source : Units}
  {root : Node} {place : Place}

theorem saw_parse {p : PatternParser} (h : p.parse source = .ok (root, place)) :
    Saw p (sights p.flags.unicodeSets source false 0) root.groups ⟨source, 0, []⟩ place := by
  obtain ⟨⟨root', place'⟩, hparse, h⟩ := bind_eq_ok.mp h
  dsimp only at h
  split at h
  · cases h
  next hrest =>
    cases h
    obtain ⟨between, hsaw⟩ := saw_parseDisjunction _ _ _ _ hparse
    have hall := hsaw.sights_eq
    rw [not_not.mp hrest, sights, append_nil] at hall
    rw [hall]
    exact hsaw

/-- A parser without flags, over tables that fold nothing. -/
def plainParser (source : Units) : PatternParser :=
  parserFor Matcher.plainTables [] (fun _ _ => .error "") ⟨false, false, false, false, false⟩ source

/-- The empty name is read as that of the first group. -/
example : (plainParser ("()\\k<>".toList.map ch)).parseAtomEscape namesNothing =
    .ok (.backreference 1, []) := rfl

end Results

/-! ## A number above the bound -/

section ManyGroups

/-- So many empty groups, and what is behind them. -/
def manyGroups (n : Nat) (s : Units) : Units :=
  (replicate n [ch '(', ch ')']).flatten ++ s

theorem manyGroups_succ (n : Nat) (s : Units) :
    manyGroups (n + 1) s = ch '(' :: ch ')' :: manyGroups n s := by
  rfl

theorem length_manyGroups (n : Nat) (s : Units) : (manyGroups n s).length = n + (n + s.length) := by
  induction n with
  | zero => simp [manyGroups]
  | succ n ih =>
    rw [manyGroups_succ, length_cons, length_cons]
    omega

theorem sights_manyGroups (n : Nat) (s : Units) :
    sights false (manyGroups n s) false 0 =
      replicate n (.group []) ++ sights false s false 0 := by
  induction n with
  | zero => rfl
  | succ n ih =>
    have hgroup : sights false (ch '(' :: ch ')' :: manyGroups n s) false 0 =
        [.group []] ++ sights false (manyGroups n s) false 0 := rfl
    rw [manyGroups_succ, hgroup, ih]
    rfl

variable {p : PatternParser}

theorem parseTerm_group (levels : Nat) {r : Units} (captures : Nat) (names : List (List UInt8))
    (hr : PatternParser.readQuantifier r = none) :
    p.parseTerm (p.parseDisjunction (levels + 1)) (levels + 1)
        ⟨ch '(' :: ch ')' :: r, captures, names⟩ =
      .ok (.group (captures + 1) (.sequence []), ⟨r, captures + 1, names ++ [[]]⟩) := by
  have hatom : p.parseAtom (p.parseDisjunction (levels + 1)) (levels + 1)
      ⟨ch '(' :: ch ')' :: r, captures, names⟩ =
        .ok (.group (captures + 1) (.sequence []), ⟨r, captures + 1, names ++ [[]]⟩) := rfl
  rw [PatternParser.parseTerm, hatom]
  simp [bind, Except.bind, hr]

theorem parseTerms_manyGroups (levels n : Nat) {s : Units}
    (hs : PatternParser.readQuantifier s = none) (fuel : Nat) (terms : List Node) (captures : Nat)
    (names : List (List UInt8)) :
    ∃ terms' place', place'.rest = s ∧
      p.parseTerms (p.parseDisjunction (levels + 1)) (levels + 1) (n + fuel) terms
          ⟨manyGroups n s, captures, names⟩ =
        p.parseTerms (p.parseDisjunction (levels + 1)) (levels + 1) fuel terms' place' := by
  induction n generalizing terms captures names with
  | zero => exact ⟨terms, ⟨s, captures, names⟩, rfl, by rw [Nat.zero_add]; rfl⟩
  | succ n ih =>
    have hquantifier : PatternParser.readQuantifier (manyGroups n s) = none := by
      cases n with
      | zero => exact hs
      | succ n =>
        rfl
    obtain ⟨terms', place', hrest, hloop⟩ :=
      ih (terms ++ [.group (captures + 1) (.sequence [])]) (captures + 1) (names ++ [[]])
    refine ⟨terms', place', hrest, ?_⟩
    rw [manyGroups_succ, Nat.succ_add, PatternParser.parseTerms,
      parseTerm_group levels captures names hquantifier]
    exact hloop

/-- A reference to the group 2^24. -/
def farReference : Units := "\\16777216".toList.map ch

/-- The parser of so many groups and the reference. -/
def farParser (n : Nat) : PatternParser := plainParser (manyGroups n farReference)

theorem farParser_count (n : Nat) : (farParser n).groups.count = n := by
  have hnone : (sights false farReference false 0).filterMap name? = [] := rfl
  have hnames : ((replicate n (group [])).filterMap name?).length = n := by
    induction n with
    | zero => rfl
    | succ n ih => exact congrArg succ ih
  change (prescanFrom false (manyGroups n farReference) false 0).length = n
  simp [prescanFrom_eq, sights_manyGroups, hnone, hnames]

variable {n : Nat}

theorem parseAtomEscape_far (hn : 16777216 ≤ n) :
    (farParser n).parseAtomEscape farReference.tail =
      .ok (.backreference 16777216, [ch '6']) := by
  have hread : PatternParser.readDecimal 0 farReference.tail = (16777216, [ch '6']) := by decide
  rw [parseAtomEscape_decimal (by decide), PatternParser.parseDecimalEscape, hread]
  dsimp only
  rw [farParser_count, if_neg (not_lt.mpr hn)]

theorem parseTerms_far (hn : 16777216 ≤ n) (self : Disjunctions) (levels fuel : Nat)
    (terms : List Node) (captures : Nat) (names : List (List UInt8)) :
    (farParser n).parseTerms self levels (fuel + 2) terms ⟨farReference, captures, names⟩ =
      (farParser n).parseTerms self levels fuel
        (terms ++ [.backreference 16777216] ++ [.char 0x36]) ⟨[], captures, names⟩ := by
  have hfirst : (farParser n).parseTerm self levels ⟨farReference, captures, names⟩ =
      .ok (.backreference 16777216, ⟨[ch '6'], captures, names⟩) := by
    have hatom : (farParser n).parseAtom self levels ⟨farReference, captures, names⟩ =
        PatternParser.withoutGroup ⟨farReference, captures, names⟩
          ((farParser n).parseAtomEscape farReference.tail) := rfl
    rw [PatternParser.parseTerm, hatom, parseAtomEscape_far hn]
    rfl
  have hsecond : (farParser n).parseTerm self levels ⟨[ch '6'], captures, names⟩ =
      .ok (.char 0x36, ⟨[], captures, names⟩) := rfl
  have hgoes : ¬(farReference = [] ∨ peek farReference 0 = ch '|' ∨
      peek farReference 0 = ch ')') := by
    decide
  have hgoesOn : ¬([ch '6'] = [] ∨ peek [ch '6'] 0 = ch '|' ∨ peek [ch '6'] 0 = ch ')') := by
    decide
  rw [PatternParser.parseTerms, if_neg hgoes, hfirst]
  simp only [bind, Except.bind]
  rw [PatternParser.parseTerms, if_neg hgoesOn, hsecond]
  simp [bind, Except.bind]

theorem parse_far (hn : 16777216 ≤ n) :
    ∃ root place, (farParser n).parse (manyGroups n farReference) = .ok (root, place) := by
  obtain ⟨terms, ⟨rest, captures, names⟩, hrest, hgroups⟩ :=
    parseTerms_manyGroups (p := farParser n) 254 n (s := farReference) rfl (n + 7 + 2) [] 0 []
  have hlength : (manyGroups n farReference).length = n + (n + 7 + 2) :=
    length_manyGroups n farReference
  obtain rfl : rest = farReference := hrest
  rw [parseTerms_far hn] at hgroups
  have hterms : (farParser n).parseAlternative ((farParser n).parseDisjunction 255) 255
      ⟨manyGroups n farReference, 0, []⟩ =
        .ok (terms ++ [.backreference 16777216] ++ [.char 0x36], ⟨[], captures, names⟩) := by
    simp [PatternParser.parseAlternative, hlength, hgroups, PatternParser.parseTerms]
  refine ⟨.sequence (terms ++ [.backreference 16777216] ++ [.char 0x36]), ⟨[], captures, names⟩, ?_⟩
  rw [PatternParser.parse, show PatternParser.kMaxDepth = 255 + 1 from rfl,
    PatternParser.parseDisjunction, hterms]
  rfl

end ManyGroups

end Bronze.Regex
