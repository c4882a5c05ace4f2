import Bronze.Wpo.Shape

/-!
# The walk of an initialization window

Along every path of the window the sequence of the analysis is what the object begins with, and
all of it as long as the sequence is exact, whatever merges and loops the path has gone through.

## Main results

* `Covers.transfer`, `Covers.join_left`, `Covers.join_right`: the steps
* `Follows.covers`: the path
-/

namespace Bronze.Wpo

open State List

/-! ## Along a path -/

/-- The sequence is a prefix of the keys of the object, and all of them as long as it is exact. -/
structure Covers (s : State) (o : Tracked) : Prop where
  valid : s.valid = true
  seq : s.seq <+: trackedEntries o.adds
  exact : s.exact = true → s.seq = trackedEntries o.adds
  exposed : o.reachable = true → s.exposed = true

section Paths

variable {s s' : State} {o o' : Tracked} {use : Use} {throws : Bool}

theorem trackedEntries_append (adds more : List Addition) :
    trackedEntries (adds ++ more) = trackedEntries adds ++ trackedEntries more := by
  rw [trackedEntries, filter_append, map_append]
  rfl

variable {a : Addition}

theorem trackedEntries_untracked (ha : a.tracked = false) (adds : List Addition) :
    trackedEntries (adds ++ [a]) = trackedEntries adds := by
  rw [trackedEntries_append, trackedEntries, trackedEntries, filter_cons_of_neg (by simp [ha])]
  exact append_nil _

theorem trackedEntries_tracked (ha : a.tracked = true) (adds : List Addition) :
    trackedEntries (adds ++ [a]) = trackedEntries adds ++ [a.entry] := by
  rw [trackedEntries_append]
  congr 1
  rw [trackedEntries, filter_cons_of_pos ha]
  rfl

theorem trackedEntries_cons (a : Addition) (adds : List Addition) :
    trackedEntries (a :: adds) =
      if a.tracked then a.entry :: trackedEntries adds else trackedEntries adds := by
  rw [trackedEntries, filter_cons]
  split <;> rfl

theorem mem_trackedEntries {e : SeqEntry} {adds : List Addition} :
    e ∈ trackedEntries adds ↔ ∃ a ∈ adds, a.tracked = true ∧ a.entry = e := by
  simp [trackedEntries, and_assoc]

/-- What follows the `switch` only casts doubt. -/
theorem transfer_settled (s : State) (i : Instruction) :
    (s.transfer i).valid = (s.applied i.use).valid ∧ (s.transfer i).seq = (s.applied i.use).seq ∧
      (s.transfer i).exposed = (s.applied i.use).exposed ∧
      ((s.transfer i).exact = true → (s.applied i.use).exact = true ∧
        (i.throws && s.runsCode i.use) = false) := by
  unfold transfer
  dsimp only
  split_ifs with hruns hlong hlong
  · exact ⟨rfl, rfl, rfl, fun h => absurd h Bool.false_ne_true⟩
  · exact ⟨rfl, rfl, rfl, fun h => absurd h Bool.false_ne_true⟩
  · exact ⟨rfl, rfl, rfl, fun h => absurd h Bool.false_ne_true⟩
  · exact ⟨rfl, rfl, rfl, fun h => ⟨h, Bool.not_eq_true _ ▸ hruns⟩⟩

theorem Covers.mono (h : Covers s o) (hle : s'.Le s) (hvalid : s'.valid = true) : Covers s' o where
  valid := hvalid
  seq := hle.seq.trans h.seq
  exact := by
    intro hexact
    obtain ⟨hs, hseq⟩ := hle.exact hexact
    exact hseq.trans (h.exact hs)
  exposed := hle.exposed ∘ h.exposed

theorem Covers.more (h : Covers s o) (hexact : s'.exact = false) (hvalid : s'.valid = s.valid)
    (hseq : s'.seq = s.seq) (more : List Addition) {reachable : Bool}
    (hexposed : reachable = true → s'.exposed = true) : Covers s' ⟨o.adds ++ more, reachable⟩ where
  valid := hvalid.trans h.valid
  seq := by
    rw [hseq, trackedEntries_append]
    exact h.seq.trans (prefix_append ..)
  exact := fun hs => absurd (hexact.symm.trans hs) Bool.false_ne_true
  exposed := hexposed

theorem addKey_exposed (s : State) (key : KeyName) (accessor : Bool) :
    (s.addKey key accessor).exposed = s.exposed ∧ (s.addKey key accessor).valid = s.valid := by
  unfold addKey
  split
  · exact ⟨rfl, rfl⟩
  · split
    · split <;> exact ⟨rfl, rfl⟩
    · split <;> exact ⟨rfl, rfl⟩

section

variable (h : Covers s o)

include h

theorem Covers.addKey_new (hnumber : a.byNumber = false) (hnew : ∀ b ∈ o.adds, b.key ≠ a.key) :
    Covers (s.addKey a.key a.accessor) { o with adds := o.adds ++ [a] } := by
  obtain ⟨hexposed, hvalid⟩ := addKey_exposed s a.key a.accessor
  have htracked : a.tracked = !isIndex a.key := by rw [Addition.tracked, hnumber]; rfl
  refine ⟨hvalid.trans h.valid, ?_, ?_, fun hr => hexposed.trans (h.exposed hr)⟩
  all_goals
    rw [addKey]
    cases hindex : isIndex a.key with
    | true =>
      rw [if_pos rfl, trackedEntries_untracked (htracked.trans (by rw [hindex]; rfl))]
      first | exact h.seq | exact h.exact
    | false =>
      -- the key is not in the sequence, which is a part of the object
      have hnone : s.seq.find? (fun e => e.key = a.key) = none := by
        rw [find?_eq_none]
        intro e he hkey
        obtain ⟨b, hb, -, rfl⟩ := mem_trackedEntries.mp (h.seq.subset he)
        exact hnew b hb (of_decide_eq_true hkey)
      rw [if_neg Bool.false_ne_true, hnone,
        trackedEntries_tracked (htracked.trans (by rw [hindex]; rfl))]
      cases hexact : s.exact with
      | true =>
        rw [if_pos rfl, ← h.exact hexact]
        first | exact prefix_refl _ | exact fun _ => rfl
      | false =>
        first
          | exact h.seq.trans (prefix_append ..)
          | exact fun hs => absurd (hexact.symm.trans hs) Bool.false_ne_true

theorem Covers.addKey_again {accessor : Bool} (hnumber : a.byNumber = false)
    (hmem : a ∈ o.adds) : Covers (s.addKey a.key accessor) o := by
  rw [addKey]
  cases hindex : isIndex a.key with
  | true =>
    exact h
  | false =>
    rw [if_neg Bool.false_ne_true]
    cases hfind : s.seq.find? fun e => e.key = a.key with
    | some e =>
      dsimp only
      split
      · exact ⟨h.valid, h.seq, fun hs => absurd hs Bool.false_ne_true, h.exposed⟩
      · exact h
    | none =>
      cases hexact : s.exact with
      | true =>
        -- an exact sequence has every key of the object
        have htracked : a.tracked = true := by rw [Addition.tracked, hnumber, hindex]; rfl
        have hentry : a.entry ∈ s.seq := by
          rw [h.exact hexact]
          exact mem_trackedEntries.mpr ⟨a, hmem, htracked, rfl⟩
        exact absurd (decide_eq_true rfl) (find?_eq_none.mp hfind _ hentry)
      | false => rwa [if_neg Bool.false_ne_true]

/-- **A step of the walk is sound.** -/
theorem Covers.transfer {i : Instruction} (hrun : Runs o i.use i.throws o') :
    Covers (s.transfer i) o' := by
  obtain ⟨hvalid, hseq, hexposed, hexact⟩ := transfer_settled s i
  obtain ⟨throws, use⟩ := i
  -- what the `switch` leaves is kept by what follows it
  have hsettle : Covers (s.applied use) o' → Covers (s.transfer ⟨throws, use⟩) o' := by
    intro hc
    refine ⟨hvalid.trans hc.valid, hseq ▸ hc.seq, fun hs => ?_, fun hr => ?_⟩
    · exact hseq.trans (hc.exact (hexact hs).1)
    · exact hexposed.trans (hc.exposed hr)
  cases hrun with
  | new a hnew hkey haccessor hnumber =>
    subst hkey haccessor
    exact hsettle (h.addKey_new hnumber hnew)
  | again a hmem hkey hnumber =>
    subst hkey
    exact hsettle (h.addKey_again hnumber hmem)
  | element a hnumber =>
    have huntracked : a.tracked = false := by rw [Addition.tracked, hnumber]; rfl
    have hentries := trackedEntries_untracked huntracked o.adds
    exact hsettle ⟨h.valid, hentries ▸ h.seq, hentries ▸ h.exact, h.exposed⟩
  | oldElement => exact hsettle h
  | read => exact hsettle h
  | unused => exact hsettle h
  | accessor more reachable =>
    apply hsettle
    refine h.more ?_ ?_ ?_ more fun _ => ?_ <;> rfl
  | other more reachable =>
    apply hsettle
    refine h.more ?_ ?_ ?_ more fun _ => ?_ <;> rfl
  | computed more =>
    apply hsettle
    refine h.more ?_ ?_ ?_ more h.exposed <;> rfl
  | kept => exact hsettle ⟨h.valid, h.seq, h.exact, fun _ => rfl⟩
  | keptCode more hreach =>
    have hdoubt : (s.transfer ⟨true, some .keeps⟩).exact = false := by
      refine Bool.eq_false_of_not_eq_true fun hs => ?_
      have hruns := (hexact hs).2
      rw [runsCode, Use.handled, if_pos rfl, Use.isCall, h.exposed hreach] at hruns
      · exact Bool.false_ne_true hruns.symm
      · nofun
    exact h.more hdoubt hvalid hseq more fun _ => hexposed
  | otherCode more hreach =>
    have hdoubt : (s.transfer ⟨true, none⟩).exact = false := by
      refine Bool.eq_false_of_not_eq_true fun hs => ?_
      have hruns := (hexact hs).2
      rw [runsCode, h.exposed hreach] at hruns
      exact Bool.false_ne_true hruns.symm
    exact h.more hdoubt hvalid hseq more fun hr => hexposed.trans (h.exposed hr)

theorem Covers.join_right (into : State) : Covers (into.join s).1 o := by
  cases hinto : into.valid with
  | false =>
    rw [join_into_invalid hinto h.valid]
    exact h
  | true =>
    refine h.mono ((le_join_iff hinto h.valid).mp (.refl _)).2 ?_
    rw [join_valid, hinto]
    rfl

theorem Covers.join_left (from_ : State) : Covers (s.join from_).1 o := by
  cases hfrom : from_.valid with
  | false =>
    rw [join_of_invalid hfrom]
    exact h
  | true =>
    refine h.mono ((le_join_iff h.valid hfrom).mp (.refl _)).1 ?_
    rw [join_valid, h.valid]
    rfl

end

/-- **Along every path the sequence is what the object begins with**, loops and merges
included. -/
theorem Follows.covers (h : Follows s o) : Covers s o := by
  induction h with
  | start => exact ⟨rfl, nil_prefix, fun _ => rfl, fun hr => absurd hr Bool.false_ne_true⟩
  | instruction i _ hrun ih => exact ih.transfer hrun
  | enters into _ ih => exact ih.join_right into
  | joined from_ _ ih => exact ih.join_left from_

end Paths

end Bronze.Wpo
