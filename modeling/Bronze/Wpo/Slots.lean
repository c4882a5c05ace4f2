import Bronze.Objects.Boxing
import Bronze.Objects.Operations
import Bronze.Wpo.Walk

/-!
# The slots of the analysis and the slots of the runtime

The analysis numbers the slots of the keys it tracks, the runtime places every property that is
added by `Shape::addPropertyKey`. An index is a property like any other to the runtime and no key
to the analysis, so that the keys added after it are a slot further on than the analysis says.
The one case in which they are not is an index that takes the last inline slot before an accessor,
which would have been moved to the overflow slots anyway.
-/

namespace Bronze.Wpo

open Objects Objects.Heap
open List Option Addition Bronze.Shape State

/-- One past the slots of a property that is placed when the first free slot is `next`. -/
def past (n next : Nat) (accessor : Bool) : Nat :=
  placeSlot next (slotWidth accessor) n + slotWidth accessor

/-- One past the slots of properties placed one after the other. -/
def endOf (n start : Nat) (accessors : List Bool) : Nat := accessors.foldl (past n) start

/-- A first free slot that properties of so many slots come to: they are all inline, or the slots
go on behind the split. -/
def At (n slot width : Nat) : Prop := slot ≤ n ∧ slot = width ∨ kOverflowSlot < slot ∧ n < width

section Numbering

variable {n next e₁ e₂ width : Nat}

theorem slotWidth_pos (accessor : Bool) : 0 < slotWidth accessor := by
  cases accessor <;> decide

theorem lt_past (n next : Nat) (accessor : Bool) : next < past n next accessor := by
  have hle := le_placeSlot next (slotWidth accessor) n
  have hpos := slotWidth_pos accessor
  unfold past
  omega

theorem At.past (hn : n ≤ kOverflowSlot) (h : At n next width) (accessor : Bool) :
    At n (past n next accessor) (width + slotWidth accessor) := by
  unfold At Wpo.past placeSlot at *
  split <;> omega

/-- **Where two numberings meet again**: a property is placed alike behind two first free slots
that differ when it is a pair for which the one leaves a single inline slot and the other none. -/
theorem placeSlot_eq_iff (accessor : Bool) (hn : n ≤ kOverflowSlot) (h : At n e₂ width)
    (hlt : e₁ < e₂) :
    placeSlot e₁ (slotWidth accessor) n = placeSlot e₂ (slotWidth accessor) n ↔
      accessor = true ∧ e₁ + 1 = n ∧ e₂ = n := by
  unfold At at h
  unfold placeSlot
  cases accessor with
  | false =>
    have hw : slotWidth false = 1 := rfl
    refine iff_of_false ?_ (by simp)
    split_ifs <;> omega
  | true =>
    have hw : slotWidth true = 2 := rfl
    constructor
    · intro heq
      refine ⟨rfl, ?_⟩
      split_ifs at heq <;> omega
    · rintro ⟨-, hlast, hfull⟩
      split_ifs <;> omega

end Numbering

section Analysis

theorem slotFrom_eq {key : KeyName} {accessor : Bool} (n : Nat) (pre post : List SeqEntry)
    (start : Nat) (hnew : ∀ e ∈ pre, e.key ≠ key) :
    slotFrom n key (pre ++ ⟨key, accessor⟩ :: post) start =
      some (placeSlot (endOf n start (pre.map SeqEntry.accessor)) (slotWidth accessor) n) := by
  induction pre generalizing start with
  | nil =>
    rw [nil_append, slotFrom]
    rw [if_pos rfl]
    rfl
  | cons e pre ih =>
    obtain ⟨hne, hnew⟩ := forall_mem_cons.mp hnew
    rw [cons_append, slotFrom, if_neg hne]
    exact ih _ hnew

/-- A key that keeps its slot when the sequence is cut keeps the slot it had. -/
theorem slotFrom_extend {key : KeyName} {n slot : Nat} {seq seq' : List SeqEntry}
    (hpre : seq <+: seq') (start : Nat) (h : slotFrom n key seq start = some slot) :
    slotFrom n key seq' start = some slot := by
  induction seq generalizing start seq' with
  | nil => cases h
  | cons e seq ih =>
    cases seq' with
    | nil => exact absurd (prefix_nil.mp hpre) (cons_ne_nil _ _)
    | cons e' seq' =>
      obtain ⟨rfl, hrest⟩ := cons_prefix_cons.mp hpre
      rw [slotFrom] at h ⊢
      by_cases hkey : e.key = key
      · rwa [if_pos hkey] at h ⊢
      · rw [if_neg hkey] at h ⊢
        exact ih hrest _ h

/-- What the `switch` makes of an addition under a new name. -/
theorem applied_addition {adds : List Addition} {s : State} (a : Addition)
    (hseq : s.seq = (trackedEntries adds).take (kMaxSeq + 1))
    (hexact : s.exact = true ↔ (trackedEntries adds).length ≤ kMaxSeq)
    (hnew : ∀ b ∈ adds, b.key ≠ a.key) :
    (s.applied (some a.use)).seq = (trackedEntries (adds ++ [a])).take (kMaxSeq + 1) ∧
      (s.applied (some a.use)).exact = s.exact ∧ (s.applied (some a.use)).exposed = s.exposed := by
  cases htracked : a.tracked with
  | false =>
    -- the `switch` leaves the state alone
    have hsame : s.applied (some a.use) = s := by
      rw [tracked, Bool.and_eq_false_iff, Bool.not_eq_false', Bool.not_eq_false']
        at htracked
      rw [use]
      cases hnumber : a.byNumber with
      | true => rfl
      | false =>
        rw [hnumber] at htracked
        have hindex := htracked.resolve_left Bool.false_ne_true
        change s.addKey a.key a.accessor = s
        rw [addKey, if_pos hindex]
    rw [hsame, trackedEntries_untracked htracked]
    exact ⟨hseq, rfl, rfl⟩
  | true =>
    obtain ⟨hnumber, hindex⟩ := (Bool.and_eq_true ..).mp htracked
    rw [Bool.not_eq_true'] at hnumber hindex
    have hnone : s.seq.find? (fun e => e.key = a.key) = none := by
      rw [find?_eq_none, hseq]
      intro e he hkey
      obtain ⟨b, hb, -, rfl⟩ := mem_trackedEntries.mp (mem_of_mem_take he)
      exact hnew b hb (of_decide_eq_true hkey)
    have happlied : s.applied (some a.use) =
        if s.exact then { s with seq := s.seq ++ [⟨a.key, a.accessor⟩] } else s := by
      rw [use, hnumber]
      change s.addKey a.key a.accessor = _
      rw [addKey, if_neg (by rw [hindex]; exact Bool.false_ne_true), hnone]
    rw [happlied, trackedEntries_tracked htracked, take_append]
    by_cases hs : s.exact = true
    · have hlen := hexact.mp hs
      have hall : s.seq = trackedEntries adds := by
        rw [hseq]
        exact take_of_length_le (hlen.trans (Nat.le_succ _))
      rw [if_pos hs, take_of_length_le (hlen.trans (Nat.le_succ _)),
        take_of_length_le (by simp; omega)]
      exact ⟨congrArg (· ++ [a.entry]) hall, rfl, rfl⟩
    · have hlen : kMaxSeq + 1 ≤ (trackedEntries adds).length :=
        Nat.lt_of_not_le fun hle => hs (hexact.mpr hle)
      rw [if_neg hs, Nat.sub_eq_zero_of_le hlen, take_zero, append_nil]
      exact ⟨hseq, rfl, rfl⟩

/-- **The sequence of additions under different names**: the keys that are tracked, up to the
first of them past `kMaxSeq`. -/
theorem track_spec (adds : List Addition) (hdistinct : (adds.map key).Nodup) :
    (track adds).seq = (trackedEntries adds).take (kMaxSeq + 1) ∧
      ((track adds).exact = true ↔ (trackedEntries adds).length ≤ kMaxSeq) := by
  induction adds using reverseRecOn with
  | nil => exact ⟨rfl, iff_of_true rfl (Nat.zero_le _)⟩
  | append_singleton adds a ih =>
    rw [map_append, nodup_append] at hdistinct
    obtain ⟨hold, -, hnew⟩ := hdistinct
    obtain ⟨hseq, hexact⟩ := ih hold
    have hstep : track (adds ++ [a]) = (track adds).transfer ⟨true, some a.use⟩ := by
      rw [track, foldl_append]
      rfl
    -- an addition is no call and no use that is not handled
    have hquiet : (track adds).runsCode (some a.use) = false := by
      rw [use]
      cases a.byNumber <;> rfl
    obtain ⟨hkeys, hsame, -⟩ := applied_addition a hseq hexact fun b hb heq =>
      hnew b.key (mem_map_of_mem hb) a.key (mem_singleton_self _) heq
    have hgrows : (trackedEntries adds).length ≤ (trackedEntries (adds ++ [a])).length := by
      rw [trackedEntries_append, length_append]
      exact Nat.le_add_right ..
    have hlen := congrArg length hkeys
    rw [length_take] at hlen
    rw [hstep, transfer]
    dsimp only
    rw [hquiet, Bool.and_false, if_neg Bool.false_ne_true]
    split
    next hlong =>
      refine ⟨hkeys, iff_of_false Bool.false_ne_true ?_⟩
      omega
    next hlong =>
      refine ⟨hkeys, ?_⟩
      rw [hsame, hexact]
      constructor <;> intro <;> omega

end Analysis

/-! ## An index in front of a key -/

/-- No index, and no property under a number, is added in front of a key that the analysis tracks:
but for one that takes the last inline slot before an accessor. -/
def Undisturbed (n : Nat) : Nat → Nat → List Addition → Prop
  | _, _, [] => True
  | width, named, a :: adds =>
    (a.tracked = false → named ≤ kMaxSeq → ∀ b, adds.find? Addition.tracked = some b →
      a.accessor = false ∧ width + 1 = n ∧ b.accessor = true) ∧
    Undisturbed n (width + slotWidth a.accessor) (if a.tracked then named + 1 else named) adds

/-- The keys that are tracked are placed alike from the two first free slots, the other additions
being placed from the second one only. -/
def Matching (n : Nat) : Nat → Nat → Nat → List Addition → Prop
  | _, _, _, [] => True
  | e₁, e₂, named, a :: adds =>
    if a.tracked then
      (named ≤ kMaxSeq → placeSlot e₁ (slotWidth a.accessor) n =
        placeSlot e₂ (slotWidth a.accessor) n) ∧
      Matching n (past n e₁ a.accessor) (past n e₂ a.accessor) (named + 1) adds
    else Matching n e₁ (past n e₂ a.accessor) named adds

section Matching

variable {n e e₁ e₂ width named : Nat} {adds : List Addition}

/-- The next key that is tracked is past the longest sequence, or there is none. -/
def Unpredicted (named : Nat) (adds : List Addition) : Prop :=
  kMaxSeq < named ∨ adds.find? Addition.tracked = none

theorem matching_of_unpredicted (h : Unpredicted named adds) (e₁ e₂ : Nat) :
    Matching n e₁ e₂ named adds := by
  induction adds generalizing e₁ e₂ named with
  | nil => trivial
  | cons a adds ih =>
    rw [Matching]
    split
    next htracked =>
      have hlong : kMaxSeq < named := h.resolve_right (by simp [htracked])
      exact ⟨fun hle => absurd hle (Nat.not_le.mpr hlong),
        ih (.inl (hlong.trans (Nat.lt_succ_self _))) _ _⟩
    next htracked =>
      refine ih (h.imp_right fun hnone => ?_) ..
      rwa [find?_cons_of_neg htracked] at hnone

theorem undisturbed_of_unpredicted (h : Unpredicted named adds) (width : Nat) :
    Undisturbed n width named adds := by
  induction adds generalizing width named with
  | nil => trivial
  | cons a adds ih =>
    rw [Undisturbed]
    split
    next htracked =>
      have hlong : kMaxSeq < named := h.resolve_right (by simp [htracked])
      exact ⟨fun hfalse => absurd (htracked.symm.trans hfalse) (by decide),
        ih (.inl (hlong.trans (Nat.lt_succ_self _))) _⟩
    next htracked =>
      have hrest : Unpredicted named adds := by
        refine h.imp_right fun hnone => ?_
        rwa [find?_cons_of_neg htracked] at hnone
      refine ⟨fun _ hle b hb => ?_, ih hrest _⟩
      rcases hrest with hlong | hnone
      · exact absurd hle (Nat.not_le.mpr hlong)
      · rw [hnone] at hb
        cases hb

/-- The first free slots meet again at the next addition, if this is a key that is tracked. -/
def Closes (n e₁ e₂ named : Nat) (adds : List Addition) : Prop :=
  named ≤ kMaxSeq → ∀ b, adds.find? Addition.tracked = some b →
    b.accessor = true ∧ e₁ + 1 = n ∧ e₂ = n ∧ adds.head? = some b

theorem exists_of_predicted (h : ¬Unpredicted named adds) :
    named ≤ kMaxSeq ∧ ∃ b, adds.find? tracked = some b := by
  rw [Unpredicted, not_or, Nat.not_lt, ← Ne, ne_none_iff_exists'] at h
  exact h

theorem find?_untracked {a : Addition} (ha : ¬a.tracked = true) :
    (a :: adds).find? tracked = adds.find? tracked :=
  find?_cons_of_neg ha

/-- One index is harmless behind slots that are level if the slots close behind it. -/
theorem closes_past_iff (hn : n ≤ kOverflowSlot) (hat : At n e width) {a : Addition}
    (ha : ¬a.tracked = true) (hrest : Undisturbed n (width + slotWidth a.accessor) named adds) :
    Closes n e (past n e a.accessor) named adds ↔
      (a.tracked = false → named ≤ kMaxSeq → ∀ b, adds.find? tracked = some b →
        a.accessor = false ∧ width + 1 = n ∧ b.accessor = true) := by
  unfold At at hat
  constructor
  · intro hcloses _ hle b hb
    obtain ⟨hpair, hlast, hfull, -⟩ := hcloses hle b hb
    refine ⟨?_, by omega, hpair⟩
    cases haccessor : a.accessor with
    | false => rfl
    | true =>
      -- a pair would not have fitted
      rw [haccessor, past, placeSlot, show slotWidth true = 2 from rfl] at hfull
      split_ifs at hfull <;> omega
  · intro h hle b hb
    obtain ⟨hdata, hlast, hpair⟩ := h (Bool.not_eq_true _ ▸ ha) hle b hb
    rw [hdata] at hrest ⊢
    refine ⟨hpair, by omega, ?_, ?_⟩
    · rw [past, placeSlot, show slotWidth false = 1 from rfl]
      split_ifs <;> omega
    · -- a second index would not have one inline slot left
      cases adds with
      | nil => cases hb
      | cons c adds =>
        by_cases hc : c.tracked = true
        · rwa [find?_cons_of_pos hc] at hb
        · rw [find?_untracked hc] at hb
          obtain ⟨-, htwo, -⟩ := hrest.1 (Bool.not_eq_true _ ▸ hc) hle b hb
          rw [show slotWidth false = 1 from rfl] at htwo
          omega

/-- **The keys are placed alike if no index disturbs them**: from first free slots that are level,
and from ones of which the second is ahead. -/
theorem matching_iff (hn : n ≤ kOverflowSlot) (adds : List Addition) :
    (∀ e width named, At n e width →
      (Matching n e e named adds ↔ Undisturbed n width named adds)) ∧
    (∀ e₁ e₂ width named, At n e₂ width → e₁ < e₂ →
      (Matching n e₁ e₂ named adds ↔
        Closes n e₁ e₂ named adds ∧ Undisturbed n width named adds)) := by
  induction adds with
  | nil =>
    exact ⟨fun _ _ _ _ => Iff.rfl, fun _ _ _ _ _ _ => by simp [Matching, Undisturbed, Closes]⟩
  | cons a adds ih =>
    obtain ⟨hlevel, hahead⟩ := ih
    refine ⟨fun e width named hat => ?_, fun e₁ e₂ width named hat hlt => ?_⟩
    · have hpast := hat.past hn a.accessor
      rw [Matching, Undisturbed]
      by_cases ha : a.tracked = true
      · simp [ha, hlevel _ _ _ hpast]
      · rw [if_neg ha, if_neg ha, hahead _ _ _ _ hpast (lt_past n e a.accessor)]
        exact and_congr_left fun hrest => closes_past_iff hn hat ha hrest
    · have hpast := hat.past hn a.accessor
      by_cases ha : a.tracked = true
      · by_cases hle : named ≤ kMaxSeq
        · have hplace := placeSlot_eq_iff a.accessor hn hat hlt
          have hcloses : Closes n e₁ e₂ named (a :: adds) ↔
              a.accessor = true ∧ e₁ + 1 = n ∧ e₂ = n := by
            rw [Closes, find?_cons_of_pos ha]
            simp [hle]
          rw [hcloses, ← hplace, Matching, Undisturbed, if_pos ha, if_pos ha,
            and_iff_right fun hfalse => absurd (ha.symm.trans hfalse) (by decide)]
          -- behind a property that is placed alike the slots are level again
          refine ⟨fun h => ⟨h.1 hle, ?_⟩, fun h => ⟨fun _ => h.1, ?_⟩⟩
          · have hrest := h.2
            rw [past, h.1 hle] at hrest
            exact (hlevel _ _ _ hpast).mp hrest
          · rw [past, h.1]
            exact (hlevel _ _ _ hpast).mpr h.2
        · have hun : Unpredicted named (a :: adds) := .inl (Nat.lt_of_not_le hle)
          exact iff_of_true (matching_of_unpredicted hun ..)
            ⟨fun h => absurd h hle, undisturbed_of_unpredicted hun _⟩
      · by_cases hun : Unpredicted named adds
        · have hun' : Unpredicted named (a :: adds) := by
            rwa [Unpredicted, find?_untracked ha]
          refine iff_of_true (matching_of_unpredicted hun' ..)
            ⟨fun hle b hb => ?_, undisturbed_of_unpredicted hun' _⟩
          rcases hun' with hlong | hnone
          · exact absurd hle (Nat.not_le.mpr hlong)
          · rw [hnone] at hb
            cases hb
        · obtain ⟨hle, b, hb⟩ := exists_of_predicted hun
          rw [Matching, if_neg ha, hahead _ _ _ _ hpast (hlt.trans (lt_past n e₂ a.accessor))]
          refine iff_of_false ?_ ?_
          · rintro ⟨hcloses, -⟩
            obtain ⟨-, hlast, hfull, -⟩ := hcloses hle b hb
            have := lt_past n e₂ a.accessor
            omega
          · rintro ⟨hcloses, -⟩
            obtain ⟨-, -, -, hhead⟩ := hcloses hle b ((find?_untracked ha).trans hb)
            obtain rfl := some.inj hhead
            exact ha (find?_some hb)

theorem matching_iff_forall (adds : List Addition) : ∀ e₁ e₂ named,
    Matching n e₁ e₂ named adds ↔ ∀ pre a post, adds = pre ++ a :: post → a.tracked = true →
      named + (trackedEntries pre).length ≤ kMaxSeq →
      placeSlot (endOf n e₁ ((trackedEntries pre).map SeqEntry.accessor)) (slotWidth a.accessor) n =
        placeSlot (endOf n e₂ (pre.map accessor)) (slotWidth a.accessor) n := by
  induction adds with
  | nil => exact fun _ _ _ => iff_of_true trivial fun pre a post h => by simp at h
  | cons a adds ih =>
    intro e₁ e₂ named
    rw [Matching]
    by_cases ha : a.tracked = true
    · have hentries : ∀ pre, trackedEntries (a :: pre) = a.entry :: trackedEntries pre :=
        fun pre => by rw [trackedEntries_cons, if_pos ha]
      rw [if_pos ha, ih]
      constructor
      · rintro ⟨hfirst, hrest⟩ pre b post heq hb hle
        cases pre with
        | nil =>
          obtain ⟨rfl, -⟩ := cons.inj heq
          exact hfirst hle
        | cons c pre =>
          obtain ⟨rfl, htail⟩ := cons.inj heq
          rw [hentries] at hle ⊢
          exact hrest pre b post htail hb (by rw [length_cons] at hle; omega)
      · intro h
        refine ⟨fun hle => h [] a adds rfl ha hle, fun pre b post heq hb hle => ?_⟩
        have hnext := h (a :: pre) b post (congrArg (a :: ·) heq) hb
        rw [hentries] at hnext
        exact hnext (by rw [length_cons]; omega)
    · have hentries : ∀ pre, trackedEntries (a :: pre) = trackedEntries pre :=
        fun pre => by rw [trackedEntries_cons, if_neg ha]
      rw [if_neg ha, ih]
      constructor
      · intro hrest pre b post heq hb hle
        cases pre with
        | nil =>
          obtain ⟨rfl, -⟩ := cons.inj heq
          exact absurd hb ha
        | cons c pre =>
          obtain ⟨rfl, htail⟩ := cons.inj heq
          rw [hentries] at hle ⊢
          exact hrest pre b post htail hb hle
      · intro h pre b post heq hb hle
        have hnext := h (a :: pre) b post (congrArg (a :: ·) heq) hb
        rw [hentries] at hnext
        exact hnext hle

end Matching

/-- The calls of `Shape::addPropertyKey` one after the other. -/
def replay : Heap → ShapeId → List Addition → Option (ShapeId × Heap)
  | h, this, [] => some (this, h)
  | h, this, a :: adds =>
    match h.addPropertyKey this (.string a.key) a.enumerable a.accessor a.writable a.configurable
      a.desired with
    | none => none
    | some (next, _, h) => replay h next adds

/-- The layout with a property added. -/
def laid (c : Bronze.Shape) (a : Addition) : Bronze.Shape :=
  c.addPropertyKey (.string a.key) a.enumerable a.accessor a.writable a.configurable

section Runtime

variable {rt : Runtime} {h h' : Heap} {this next : ShapeId} {c : Bronze.Shape}
  {adds pre post : List Addition}

theorem keys_laid (c : Bronze.Shape) (adds : List Addition) (key : PropertyKey) :
    key ∈ (adds.foldl laid c).keys ↔ key ∈ c.keys ∨ ∃ a ∈ adds, key = .string a.key := by
  induction adds generalizing c with
  | nil => simp
  | cons a adds ih =>
    rw [foldl_cons, ih, laid, Bronze.Shape.addPropertyKey, Bronze.Shape.keys]
    simp only [mem_cons, exists_eq_or_imp]
    tauto

theorem slotEnd_laid (c : Bronze.Shape) (adds : List Addition) :
    (adds.foldl laid c).slotEnd =
      endOf c.inlineSlots c.slotEnd (adds.map accessor) ∧
    (adds.foldl laid c).inlineSlots = c.inlineSlots := by
  induction adds generalizing c with
  | nil => exact ⟨rfl, rfl⟩
  | cons a adds ih =>
    obtain ⟨hend, hinline⟩ := ih (laid c a)
    rw [foldl_cons, hend, hinline]
    exact ⟨rfl, rfl⟩

theorem mem_entries_keys {e : DictEntry} {key : PropertyKey} (he : e ∈ c.entries)
    (hkey : e.key = some key) : key ∈ c.keys :=
  (mem_keys_entries c key).mp ⟨e, he, hkey⟩

theorem placeOf_laid (a : Addition) (hnew : .string a.key ∉ c.keys) (hlater : ∀ b ∈ post,
    b.key ≠ a.key) : placeOf (post.foldl laid (laid c a)).entries (.string a.key) =
      some (c.nextSlotIndex (slotWidth a.accessor), a.accessor) := by
  induction post using reverseRecOn with
  | nil =>
    exact own_addPropertyKey fun e he hkey => hnew (mem_entries_keys he hkey)
  | append_singleton post b ih =>
    have hold := ih fun b hb => hlater b (mem_append_left _ hb)
    rw [foldl_append, foldl_cons, foldl_nil]
    rw [placeOf] at hold ⊢
    rw [laid, Bronze.Shape.addPropertyKey, Bronze.Shape.entries, find?_append]
    obtain ⟨e, he, hplace⟩ := map_eq_some_iff.mp hold
    simp [he, hplace]

/-- **The runtime comes to the layout of the additions.** -/
theorem replay_spec (hw : WellFormed rt h) (hthis : this < h.nextShape)
    (htree : (h.shapes this).dict = none) (hdistinct : (adds.map key).Nodup)
    (hnew : ∀ a ∈ adds, .string a.key ∉ (h.chain this).keys)
    (hrun : replay h this adds = some (next, h')) :
    WellFormed rt h' ∧ next < h'.nextShape ∧ (h'.shapes next).dict = none ∧
      h'.chain next = adds.foldl laid (h.chain this) := by
  induction adds generalizing h this with
  | nil =>
    obtain ⟨rfl, rfl⟩ := Prod.mk.inj (some.inj hrun)
    exact ⟨hw, hthis, htree, rfl⟩
  | cons a adds ih =>
    obtain ⟨hfirst, hrest⟩ := nodup_cons.mp hdistinct
    obtain ⟨hnewa, hnew⟩ := forall_mem_cons.mp hnew
    rw [replay] at hrun
    split at hrun
    next => cases hrun
    next mid slot h₁ hadd =>
      obtain ⟨hadded, -⟩ := addPropertyKey_spec hw hthis hnewa hadd
      have hlaid : h₁.chain mid = laid (h.chain this) a := hadded.chain
      rw [foldl_cons, ← hlaid]
      refine ih hadded.moves.wf hadded.lt hadded.tree hrest (fun b hb => ?_) hrun
      rw [hlaid, laid, Bronze.Shape.addPropertyKey, Bronze.Shape.keys, mem_cons, not_or]
      refine ⟨fun heq => hfirst ?_, hnew b hb⟩
      rw [← PropertyKey.string.inj heq]
      exact mem_map_of_mem hb

end Runtime

/-! ## Agreement -/

/-- The slots that are predicted for the keys of a sequence are those of a shape: the number, the
place inline or in the overflow slots, and the width. -/
def SlotsAgree (o : ObjShape) (h : Heap) (s : ShapeId) : Prop :=
  (h.shapes s).inlineSlots = o.inlineSlots ∧
  ∀ e ∈ o.seq, ∃ slot info, o.slotOf e.key = some slot ∧
    h.lookupProperty s (.string e.key) = some (some info) ∧
    info.slot = slot ∧ info.accessor = e.accessor ∧
    (slot + slotWidth e.accessor ≤ o.inlineSlots ∨ kOverflowSlot ≤ slot)

/-- The join keeps exactly the longest common prefix, it is the meet of the states and therefore
monotone, a key that survives it has its slot on both sides, and along every path the sequence is
what the object begins with. -/
structure JoinExact : Prop where
  common : ∀ into from_ : State, into.valid = true → from_.valid = true →
    (into.join from_).1.seq = commonPrefix into.seq from_.seq
  meet : ∀ s into from_ : State, into.valid = true → from_.valid = true →
    (s.Le (into.join from_).1 ↔ s.Le into ∧ s.Le from_)
  monotone : ∀ into from_ into' from' : State, into.valid = true → from_.valid = true →
    into'.valid = true → from'.valid = true → into.Le into' → from_.Le from' →
    (into.join from_).1.Le (into'.join from').1
  survives : ∀ (into from_ : State) (n : Nat) (key : KeyName) (slot : Nat),
    into.valid = true → from_.valid = true →
    slotFrom n key (into.join from_).1.seq 0 = some slot →
    slotFrom n key into.seq 0 = some slot ∧ slotFrom n key from_.seq 0 = some slot
  path : ∀ (s : State) (o : Tracked), Follows s o → s.seq <+: trackedEntries o.adds

theorem joinExact : JoinExact where
  common _ _ := join_seq
  meet _ _ _ := le_join_iff
  monotone _ _ _ _ := join_mono
  survives into from_ n key slot hinto hfrom hslot := by
    rw [join_seq hinto hfrom] at hslot
    exact ⟨slotFrom_extend (commonPrefix_prefix_left _ _) 0 hslot,
      slotFrom_extend (commonPrefix_prefix_right _ _) 0 hslot⟩
  path _ _ h := h.covers.seq

section Agreement

variable {rt : Runtime} {h h' : Heap} {root next : ShapeId} {want : Nat} {adds : List Addition}

theorem clampInline_le (want : Nat) : clampInline want ≤ kOverflowSlot := by
  unfold clampInline
  split_ifs with hlow hhigh
  · decide
  · exact Nat.le_refl _
  · exact Nat.le_of_not_lt hhigh

/-- The keys of the sequence are the keys that are tracked, up to the first past `kMaxSeq`. -/
theorem mem_take_trackedEntries {e : SeqEntry} (adds : List Addition) (k : Nat) :
    e ∈ (trackedEntries adds).take k ↔ ∃ pre a post, adds = pre ++ a :: post ∧
      a.tracked = true ∧ (trackedEntries pre).length < k ∧ a.entry = e := by
  constructor
  · intro he
    induction adds generalizing k with
    | nil => simp [trackedEntries] at he
    | cons a adds ih =>
      rw [trackedEntries_cons] at he
      by_cases ha : a.tracked = true
      · rw [if_pos ha] at he
        cases k with
        | zero => simp at he
        | succ k =>
          rcases mem_cons.mp (take_succ_cons ▸ he) with rfl | he
          · exact ⟨[], a, adds, rfl, ha, Nat.succ_pos k, rfl⟩
          · obtain ⟨pre, b, post, rfl, hb, hlt, rfl⟩ := ih k he
            refine ⟨a :: pre, b, post, rfl, hb, ?_, rfl⟩
            rw [trackedEntries_cons, if_pos ha]
            exact Nat.succ_lt_succ hlt
      · rw [if_neg ha] at he
        obtain ⟨pre, b, post, rfl, hb, hlt, rfl⟩ := ih k he
        refine ⟨a :: pre, b, post, rfl, hb, ?_, rfl⟩
        rwa [trackedEntries_cons, if_neg ha]
  · rintro ⟨pre, a, post, rfl, ha, hlt, rfl⟩
    obtain ⟨k, rfl⟩ := Nat.exists_eq_add_of_lt hlt
    rw [trackedEntries_append, trackedEntries_cons, if_pos ha, Nat.add_assoc, take_append,
      Nat.add_sub_cancel_left]
    exact mem_append_right _ (mem_cons_self ..)

variable {pre post : List Addition} {a : Addition}

section

variable (hdistinct : ((pre ++ a :: post).map Addition.key).Nodup)

include hdistinct

theorem distinct_split : (∀ b ∈ pre, b.key ≠ a.key) ∧ ∀ b ∈ post, b.key ≠ a.key := by
  rw [map_append, nodup_append] at hdistinct
  obtain ⟨-, hback, hfront⟩ := hdistinct
  refine ⟨fun b hb => hfront _ (mem_map_of_mem hb) _ (mem_cons_self ..), ?_⟩
  intro b hb heq
  exact (nodup_cons.mp hback).1 (heq ▸ mem_map_of_mem hb)

theorem slotOf_split (ha : a.tracked = true) (hle : (trackedEntries pre).length ≤ kMaxSeq) :
    (analysed want (pre ++ a :: post)).slotOf a.key =
      some (placeSlot (endOf (clampInline want) 0 ((trackedEntries pre).map SeqEntry.accessor))
        (slotWidth a.accessor) (clampInline want)) := by
  obtain ⟨k, hk⟩ := Nat.exists_eq_add_of_le hle
  have hseq : (analysed want (pre ++ a :: post)).seq =
      trackedEntries pre ++ a.entry :: (trackedEntries post).take k := by
    have hall := (track_spec _ hdistinct).1
    rwa [trackedEntries_append, trackedEntries_cons, if_pos ha, hk, Nat.add_assoc,
      take_append, Nat.add_sub_cancel_left,
      take_of_length_le (Nat.le_add_right _ _)] at hall
  rw [ObjShape.slotOf, hseq]
  refine slotFrom_eq _ _ _ _ fun e he => ?_
  obtain ⟨b, hb, -, rfl⟩ := mem_trackedEntries.mp he
  exact (distinct_split hdistinct).1 b hb

theorem lookup_split {n : Nat}
    (hw : WellFormed rt h') (hnext : next < h'.nextShape) (htree : (h'.shapes next).dict = none)
    (hchain : h'.chain next = (pre ++ a :: post).foldl laid (.root n)) :
    ∃ info, h'.lookupProperty next (.string a.key) = some (some info) ∧
      info.slot = placeSlot (endOf n 0 (pre.map accessor)) (slotWidth a.accessor) n ∧
      info.accessor = a.accessor := by
  obtain ⟨hfront, hback⟩ := distinct_split hdistinct
  rw [foldl_append, foldl_cons] at hchain
  obtain ⟨hend, hinline⟩ := slotEnd_laid (.root n) pre
  have hplace := placeOf_laid (c := pre.foldl laid (.root n)) a (by
    rw [keys_laid]
    rintro (hmem | ⟨b, hb, heq⟩)
    · cases hmem
    · exact hfront b hb (PropertyKey.string.inj heq).symm) hback
  rw [← hchain, ← entries_tree htree, nextSlotIndex, hend, hinline] at hplace
  obtain ⟨e, he, heq⟩ := map_eq_some_iff.mp hplace
  obtain ⟨hslot, haccessor⟩ := Prod.mk.inj heq
  refine ⟨infoOf e, ?_, hslot, haccessor⟩
  rw [lookupProperty_tree htree ((hw.nodes next hnext).reached htree), he]
  rfl

end

theorem placeSlot_whole (next width n : Nat) :
    placeSlot next width n + width ≤ n ∨ kOverflowSlot ≤ placeSlot next width n := by
  unfold placeSlot
  split_ifs <;> omega

/-- **The static shape analysis agrees with the runtime layout if and only if no index is added in
front of a key it tracks**, but for one that takes the last inline slot before an accessor. -/
theorem slots_agree_iff (hw : WellFormed rt h) (hroot : RootOk h root)
    (hinline : (h.shapes root).inlineSlots = clampInlineSlots want)
    (hdistinct : (adds.map key).Nodup) (hrun : replay h root adds = some (next, h')) :
    SlotsAgree (analysed want adds) h' next ∧ JoinExact ↔
      Undisturbed (clampInline want) 0 0 adds := by
  have hempty : h.chain root = .root (clampInline want) :=
    (chain_root hroot.parent).trans (congrArg _ hinline)
  obtain ⟨hw', hnext, htree, hchain⟩ := replay_spec hw hroot.lt hroot.tree hdistinct (by
    rw [hempty]
    exact fun _ _ => not_mem_nil) hrun
  rw [hempty] at hchain
  have hcapacity : (h'.shapes next).inlineSlots = clampInline want := by
    rw [← inlineSlots_chain hw' hnext, hchain]
    exact (slotEnd_laid _ adds).2
  have hstart : At (clampInline want) 0 0 := .inl ⟨Nat.zero_le _, rfl⟩
  have hmem : ∀ e, e ∈ (analysed want adds).seq ↔ ∃ pre a post, adds = pre ++ a :: post ∧
      a.tracked = true ∧ (trackedEntries pre).length < kMaxSeq + 1 ∧ a.entry = e := fun e => by
    rw [← mem_take_trackedEntries, ← (track_spec adds hdistinct).1]
    rfl
  rw [and_iff_left joinExact, ← (matching_iff (clampInline_le want) adds).1 0 0 0 hstart,
    matching_iff_forall]
  constructor
  · rintro ⟨-, hagree⟩ pre a post rfl ha hle
    rw [Nat.zero_add] at hle
    obtain ⟨slot, info, hslot, hinfo, heq, -⟩ :=
      hagree a.entry ((hmem _).mpr ⟨pre, a, post, rfl, ha, Nat.lt_succ_of_le hle, rfl⟩)
    obtain ⟨info', hinfo', hslot', -⟩ := lookup_split hdistinct hw' hnext htree hchain
    obtain rfl := some.inj (some.inj (hinfo.symm.trans hinfo'))
    have hpredicted := some.inj ((slotOf_split hdistinct ha hle).symm.trans hslot)
    exact hpredicted.trans (heq.symm.trans hslot')
  · intro hmatch
    refine ⟨hcapacity, fun e he => ?_⟩
    obtain ⟨pre, a, post, rfl, ha, hlt, rfl⟩ := (hmem e).mp he
    have hle := Nat.le_of_lt_succ hlt
    obtain ⟨info, hinfo, hslot, haccessor⟩ := lookup_split hdistinct hw' hnext htree hchain
    refine ⟨_, info, slotOf_split hdistinct ha hle, hinfo, ?_, haccessor, placeSlot_whole ..⟩
    rw [hslot, hmatch pre a post rfl ha (by rwa [Nat.zero_add])]

/-- A property that is enumerable, writable and configurable. -/
def addition (key : KeyName) (accessor : Bool) : Addition where
  key
  byNumber := false
  accessor
  enumerable := true
  writable := true
  configurable := true
  desired := .boxed

/-- The arena with the root of an empty literal in it. -/
def literalRoot : Heap := (Heap.empty.createRoot ownHeap .undefined 0).2

theorem literalRoot_wf : WellFormed ownHeap literalRoot ∧ RootOk literalRoot 0 := by
  have hlive : ∀ p, Value.undefined = .object p → p < Heap.empty.nextCell := nofun
  have hspec : ∀ r, Heap.empty.createRoot ownHeap .undefined 0 = r →
      Moves ownHeap .empty r.2 ∧ RootOk r.2 r.1 :=
    fun _ hr => createRoot_spec 0 (empty_layouts ownHeap).wf hlive hr
  obtain ⟨hm, hroot⟩ := hspec _ rfl
  exact ⟨hm.wf, hroot⟩

/-- `a, b, c, 0` and an accessor `d`: the index takes the last inline slot. -/
def harmless : List Addition :=
  [addition [97] false, addition [98] false, addition [99] false, addition [48] false,
    addition [100] true]

theorem slots_agree_harmless : ∃ next h', replay literalRoot 0 harmless = some (next, h') ∧
    SlotsAgree (analysed 0 harmless) h' next ∧ JoinExact := by
  have hsome : (replay literalRoot 0 harmless).isSome = true := by decide +kernel
  obtain ⟨⟨next, h'⟩, hrun⟩ := isSome_iff_exists.mp hsome
  have hundisturbed : Undisturbed (clampInline 0) 0 0 harmless := by
    simp [Undisturbed, harmless, addition, tracked, isIndex, parseIndexKey, indexDigits,
      clampInline, slotWidth, kDefaultInlineSlots]
  exact ⟨next, h', hrun, (slots_agree_iff literalRoot_wf.1 literalRoot_wf.2 rfl (by decide)
    hrun).mpr hundisturbed⟩

/-- `0` and then `x`: the slot of `x` is 1, and the analysis says 0. -/
theorem index_shifts_slot : WellFormed ownHeap literalRoot ∧ RootOk literalRoot 0 ∧ ∃ next h',
    replay literalRoot 0 [addition [48] false, addition [120] false] = some (next, h') ∧
    ¬SlotsAgree (analysed 0 [addition [48] false, addition [120] false]) h' next := by
  have hslot : (replay literalRoot 0 [addition [48] false, addition [120] false]).map
      (fun r => (r.2.lookupProperty r.1 (.string [120])).map fun info =>
        info.map PropertyInfo.slot) = some (some (some 1)) := by decide +kernel
  obtain ⟨⟨next, h'⟩, hrun, hlookup⟩ := map_eq_some_iff.mp hslot
  refine ⟨literalRoot_wf.1, literalRoot_wf.2, next, h', hrun, ?_⟩
  rintro ⟨-, hagree⟩
  obtain ⟨slot, info, hpredicted, hinfo, heq, -⟩ := hagree ⟨[120], false⟩ (by decide)
  rw [hinfo] at hlookup
  have hzero : (analysed 0 [addition [48] false, addition [120] false]).slotOf [120] = some 0 := by
    decide
  obtain rfl := some.inj (hzero.symm.trans hpredicted)
  rw [map_some, map_some, heq] at hlookup
  cases hlookup

end Agreement

end Bronze.Wpo
