import Mathlib

/-!
# Searching a graph for one answer

A vertex gives an answer, forwards the search, or unites the answers of several vertices. The search
marks the vertices it has met, takes a marked vertex for one without answers, and stops as soon as
two answers differ.

## Main results

* `Search.ends`: the search ends
* `Search.found_iff`: the search finds an answer if it is the only one the vertex leads to
-/

namespace Bronze.Graph

open List Option

variable {V R : Type}

inductive Kind (V R : Type) where
  | answer (r : R)
  | forward (v : V)
  | union (vs : List V)

namespace Kind

/-- The vertices the search goes on to. -/
def next : Kind V R → List V
  | answer _ => []
  | forward v => [v]
  | union vs => vs

@[simp] theorem next_answer (r : R) : (answer r : Kind V R).next = [] := rfl

@[simp] theorem next_forward (v : V) : (forward v : Kind V R).next = [v] := rfl

@[simp] theorem next_union (vs : List V) : (union vs : Kind V R).next = vs := rfl

end Kind

inductive Outcome (R : Type) where
  | null
  | found (r : R)
  | ambiguous

/-- What an outcome says about the answers there are: one was found, or two that differ. -/
def Outcome.Sound (answers : R → Prop) : Outcome R → Prop
  | .null => True
  | .found r => answers r
  | .ambiguous => ∃ r r', r ≠ r' ∧ answers r ∧ answers r'

theorem Outcome.Sound.mono {answers answers' : R → Prop} {o : Outcome R} (h : o.Sound answers)
    (hle : ∀ r, answers r → answers' r) : o.Sound answers' := by
  cases o with
  | null => trivial
  | found r => exact hle r h
  | ambiguous =>
    obtain ⟨r, r', hne, hr, hr'⟩ := h
    exact ⟨r, r', hne, hle r hr, hle r' hr'⟩

/-- A vertex to search from, or the rest of a union with what was found before. -/
inductive Task (V R : Type) where
  | vertex (v : V)
  | union (vs : List V) (found : Option R)

namespace Task

def todo : Task V R → List V
  | .vertex v => [v]
  | .union vs _ => vs

def before : Task V R → Option R
  | .vertex _ => none
  | .union _ found => found

end Task

/-- `Search kind set task outcome set'`: a task, with the vertices that are marked before and after
it. -/
inductive Search (kind : V → Kind V R) : List V → Task V R → Outcome R → List V → Prop where
  | circular {set : List V} {v : V} (hv : v ∈ set) : Search kind set (.vertex v) .null set
  | answer {set : List V} {v : V} {r : R} (hv : v ∉ set) (hkind : kind v = .answer r) :
      Search kind set (.vertex v) (.found r) (v :: set)
  | forward {set set' : List V} {v w : V} {o : Outcome R} (hv : v ∉ set)
      (hkind : kind v = .forward w) (h : Search kind (v :: set) (.vertex w) o set') :
      Search kind set (.vertex v) o set'
  | union {set set' vs : List V} {v : V} {o : Outcome R} (hv : v ∉ set)
      (hkind : kind v = .union vs) (h : Search kind (v :: set) (.union vs none) o set') :
      Search kind set (.vertex v) o set'
  | empty {set : List V} : Search kind set (.union [] none) .null set
  | last {set : List V} {r : R} : Search kind set (.union [] (some r)) (.found r) set
  | ambiguous {set set' vs : List V} {v : V} {found : Option R}
      (h : Search kind set (.vertex v) .ambiguous set') :
      Search kind set (.union (v :: vs) found) .ambiguous set'
  | skip {set set₁ set' vs : List V} {v : V} {found : Option R} {o : Outcome R}
      (h : Search kind set (.vertex v) .null set₁)
      (htail : Search kind set₁ (.union vs found) o set') :
      Search kind set (.union (v :: vs) found) o set'
  | agree {set set₁ set' vs : List V} {v : V} {r : R} {found : Option R} {o : Outcome R}
      (h : Search kind set (.vertex v) (.found r) set₁) (hfound : found = none ∨ found = some r)
      (htail : Search kind set₁ (.union vs (some r)) o set') :
      Search kind set (.union (v :: vs) found) o set'
  | conflict {set set' vs : List V} {v : V} {r r' : R}
      (h : Search kind set (.vertex v) (.found r) set') (hne : r ≠ r') :
      Search kind set (.union (v :: vs) (some r')) .ambiguous set'

section Answers

variable (kind : V → Kind V R)

def Leads : V → V → Prop := Relation.ReflTransGen fun a b => b ∈ (kind a).next

/-- The vertex leads to one that gives the answer. -/
def Answers (v : V) (r : R) : Prop := ∃ w, Leads kind v w ∧ kind w = .answer r

def Task.Answers : Task V R → R → Prop
  | .vertex v, r => Graph.Answers kind v r
  | .union vs found, r => found = some r ∨ ∃ v ∈ vs, Graph.Answers kind v r

variable {kind}

theorem Leads.head {u v w : V} (h : v ∈ (kind u).next) (hw : Leads kind v w) : Leads kind u w :=
  Relation.ReflTransGen.head h hw

theorem Answers.self {v : V} {r : R} (h : kind v = .answer r) : Answers kind v r := ⟨v, .refl, h⟩

theorem Answers.head {u v : V} {r : R} (h : v ∈ (kind u).next) (hv : Answers kind v r) :
    Answers kind u r := by
  obtain ⟨w, hw, hr⟩ := hv
  exact ⟨w, hw.head h, hr⟩

theorem Answers.cases {v : V} {r : R} (h : Answers kind v r) :
    kind v = .answer r ∨ ∃ w ∈ (kind v).next, Answers kind w r := by
  obtain ⟨w, hw, hr⟩ := h
  rcases Relation.ReflTransGen.cases_head hw with rfl | ⟨u, hu, huw⟩
  · exact .inl hr
  · exact .inr ⟨u, hu, w, huw, hr⟩

end Answers

namespace Search

variable {kind : V → Kind V R} {set set' : List V} {task : Task V R} {o : Outcome R}

/-! ## What the search says -/

theorem sound (h : Search kind set task o set') : o.Sound (task.Answers kind) := by
  induction h with
  | circular hv => trivial
  | answer hv hkind => exact Answers.self hkind
  | forward hv hkind _ ih =>
    refine ih.mono fun r hr => Answers.head ?_ (show Answers kind _ r from hr)
    rw [hkind, Kind.next_forward, mem_singleton]
  | union hv hkind _ ih =>
    refine ih.mono fun r hr => ?_
    obtain hr | ⟨w, hw, hr⟩ := hr
    · cases hr
    · refine Answers.head ?_ hr
      rwa [hkind]
  | empty => trivial
  | last => exact .inl rfl
  | ambiguous _ ih => exact ih.mono fun r hr => .inr ⟨_, mem_cons_self .., hr⟩
  | skip _ _ _ ih =>
    exact ih.mono fun r hr => hr.imp id fun ⟨w, hw, hr⟩ => ⟨w, mem_cons_of_mem _ hw, hr⟩
  | agree _ hfound _ ihhead ih =>
    refine ih.mono fun r hr => ?_
    rcases hr with hr | ⟨w, hw, hr⟩
    · cases hr
      exact .inr ⟨_, mem_cons_self .., ihhead⟩
    · exact .inr ⟨w, mem_cons_of_mem _ hw, hr⟩
  | conflict _ hne ihhead => exact ⟨_, _, hne, .inr ⟨_, mem_cons_self .., ihhead⟩, .inl rfl⟩

theorem subset (h : Search kind set task o set') : ∀ x ∈ set, x ∈ set' := by
  induction h with
  | circular | empty | last => exact fun _ hx => hx
  | answer => exact fun _ hx => mem_cons_of_mem _ hx
  | forward _ _ _ ih | union _ _ _ ih => exact fun x hx => ih x (mem_cons_of_mem _ hx)
  | ambiguous _ ih | conflict _ _ ih => exact ih
  | skip _ _ ih ih' | agree _ _ _ ih ih' => exact fun x hx => ih' x (ih x hx)

/-- A search that is not ambiguous has met everything its task leads to, and no other answer. -/
structure Complete (kind : V → Kind V R) (set : List V) (task : Task V R) (o : Outcome R)
    (set' : List V) : Prop where
  todo : ∀ v ∈ task.todo, v ∈ set'
  closed : ∀ v ∈ set', v ∉ set → ∀ w ∈ (kind v).next, w ∈ set'
  answer : ∀ v ∈ set', v ∉ set → ∀ r, kind v = .answer r → o = .found r
  found : ∀ r, task.before = some r → o = .found r

namespace Complete

variable {set₁ : List V} {o₁ : Outcome R} {v : V} {vs : List V} {found found₁ : Option R}

theorem enter (h : Complete kind (v :: set) task o set') (hsub : ∀ w ∈ v :: set, w ∈ set')
    (hnext : ∀ w ∈ (kind v).next, w ∈ set') (hkind : ∀ r, kind v ≠ .answer r) :
    Complete kind set (.vertex v) o set' := by
  have hbelow : ∀ w, w ∉ set → w ≠ v → w ∉ v :: set := by
    intro w hnot hne hw
    rcases mem_cons.mp hw with heq | hw
    · exact hne heq
    · exact hnot hw
  refine ⟨?_, ?_, ?_, nofun⟩
  · intro w hw
    rw [mem_singleton.mp hw]
    exact hsub v (mem_cons_self ..)
  · intro w hw hnot
    by_cases heq : w = v
    · rw [heq]
      exact hnext
    · exact h.closed w hw (hbelow w hnot heq)
  · intro w hw hnot r hr
    by_cases heq : w = v
    · exact absurd (heq ▸ hr) (hkind r)
    · exact h.answer w hw (hbelow w hnot heq) r hr

theorem cons (head : Complete kind set (.vertex v) o₁ set₁)
    (tail : Complete kind set₁ (.union vs found₁) o set') (hsub : ∀ w ∈ set₁, w ∈ set')
    (hhead : ∀ r, o₁ = .found r → o = .found r) (hfound : ∀ r, found = some r → o = .found r) :
    Complete kind set (.union (v :: vs) found) o set' := by
  refine ⟨?_, ?_, ?_, hfound⟩
  · intro w hw
    rcases mem_cons.mp hw with rfl | hw
    · exact hsub w (head.todo w (mem_singleton_self w))
    · exact tail.todo w hw
  · intro w hw hnot x hx
    by_cases hin : w ∈ set₁
    · exact hsub x (head.closed w hin hnot x hx)
    · exact tail.closed w hw hin x hx
  · intro w hw hnot r hr
    by_cases hin : w ∈ set₁
    · exact hhead r (head.answer w hin hnot r hr)
    · exact tail.answer w hw hin r hr

end Complete

theorem complete (h : Search kind set task o set') (ho : o ≠ .ambiguous) :
    Complete kind set task o set' := by
  induction h with
  | circular hv =>
    refine ⟨?_, fun v hv hnot => absurd hv hnot, fun v hv hnot => absurd hv hnot, nofun⟩
    intro v hv'
    rwa [mem_singleton.mp hv']
  | @answer set v r hv hkind =>
    have honly : ∀ w ∈ v :: set, w ∉ set → w = v := fun w hw hnot =>
      (mem_cons.mp hw).resolve_right hnot
    refine ⟨fun w hw => ?_, fun w hw hnot => ?_, fun w hw hnot r' hr' => ?_, nofun⟩
    · rw [mem_singleton.mp hw]
      exact mem_cons_self ..
    · rw [honly w hw hnot, hkind]
      simp
    · rw [honly w hw hnot, hkind] at hr'
      rw [Kind.answer.inj hr']
  | forward hv hkind h ih =>
    refine (ih ho).enter h.subset (fun w hw => ?_) (by simp [hkind])
    rw [hkind] at hw
    exact (ih ho).todo w hw
  | union hv hkind h ih =>
    refine (ih ho).enter h.subset (fun w hw => ?_) (by simp [hkind])
    rw [hkind] at hw
    exact (ih ho).todo w hw
  | empty => exact ⟨nofun, fun v hv hnot => absurd hv hnot, fun v hv hnot => absurd hv hnot, nofun⟩
  | last =>
    refine ⟨nofun, fun v hv hnot => absurd hv hnot, fun v hv hnot => absurd hv hnot, ?_⟩
    intro r hr
    rw [some.inj hr]
  | ambiguous => exact absurd rfl ho
  | skip h htail ihhead ih => exact (ihhead nofun).cons (ih ho) htail.subset nofun (ih ho).found
  | agree h hfound htail ihhead ih =>
    have hlast := (ih ho).found _ rfl
    refine (ihhead nofun).cons (ih ho) htail.subset (fun r hr => hr ▸ hlast) fun r hr => ?_
    rcases hfound with rfl | rfl
    · cases hr
    · rw [← some.inj hr]
      exact hlast
  | conflict => exact absurd rfl ho

theorem mem_of_leads {v w : V} (h : Search kind [] (.vertex v) o set') (ho : o ≠ .ambiguous)
    (hw : Leads kind v w) : w ∈ set' := by
  have hcomplete := h.complete ho
  induction hw with
  | refl => exact hcomplete.todo v (mem_singleton_self v)
  | tail _ hnext ih => exact hcomplete.closed _ ih not_mem_nil _ hnext

theorem found_of_answers {v : V} {r : R} (h : Search kind [] (.vertex v) o set')
    (ho : o ≠ .ambiguous) (hr : Answers kind v r) : o = .found r := by
  obtain ⟨w, hw, hkind⟩ := hr
  exact (h.complete ho).answer w (h.mem_of_leads ho hw) not_mem_nil r hkind

section Ends

variable {vertices : Finset V}

/-- Searching the vertices of a union one after another, if each of them can be searched. -/
theorem exists_union (hvertex : ∀ set', (∀ x ∈ set, x ∈ set') → ∀ v ∈ vertices,
      ∃ o set'', Search kind set' (.vertex v) o set'')
    {vs : List V} (hvs : ∀ v ∈ vs, v ∈ vertices) (found : Option R) :
    ∃ o set', Search kind set (.union vs found) o set' := by
  induction vs generalizing set found with
  | nil =>
    cases found with
    | none => exact ⟨_, _, .empty⟩
    | some r => exact ⟨_, _, .last⟩
  | cons v vs ih =>
    obtain ⟨o, set₁, hv⟩ := hvertex set (fun _ hx => hx) v (hvs v (mem_cons_self ..))
    have htail : ∀ found, ∃ o set', Search kind set₁ (.union vs found) o set' :=
      ih (fun set' hle => hvertex set' fun x hx => hle x (hv.subset x hx))
        fun w hw => hvs w (mem_cons_of_mem v hw)
    cases o with
    | ambiguous => exact ⟨_, _, .ambiguous hv⟩
    | null =>
      obtain ⟨o, set', h⟩ := htail found
      exact ⟨o, set', .skip hv h⟩
    | found r =>
      by_cases hagree : found = none ∨ found = some r
      · obtain ⟨o, set', h⟩ := htail (some r)
        exact ⟨o, set', .agree hv hagree h⟩
      · cases found with
        | none => exact absurd (.inl rfl) hagree
        | some r' =>
          refine ⟨_, _, .conflict hv fun heq => hagree (.inr ?_)⟩
          rw [heq]

variable [DecidableEq V]

/-- The vertices that are not marked. -/
def unmarked (vertices : Finset V) (set : List V) : Finset V := vertices.filter (· ∉ set)

theorem unmarked_le (h : ∀ v ∈ set, v ∈ set') :
    (unmarked vertices set').card ≤ (unmarked vertices set).card := by
  apply Finset.card_le_card
  intro v hv
  obtain ⟨hin, hnot⟩ := Finset.mem_filter.mp hv
  exact Finset.mem_filter.mpr ⟨hin, fun hset => hnot (h v hset)⟩

theorem unmarked_lt {v : V} (hv : v ∈ vertices) (hnot : v ∉ set) :
    (unmarked vertices (v :: set)).card < (unmarked vertices set).card := by
  apply Finset.card_lt_card
  refine ⟨fun w hw => ?_, fun hle => ?_⟩
  · obtain ⟨hin, hmarked⟩ := Finset.mem_filter.mp hw
    exact Finset.mem_filter.mpr ⟨hin, fun hset => hmarked (mem_cons_of_mem v hset)⟩
  · have hmem := hle (Finset.mem_filter.mpr ⟨hv, hnot⟩)
    exact (Finset.mem_filter.mp hmem).2 (mem_cons_self ..)

variable (hclosed : ∀ v ∈ vertices, ∀ w ∈ (kind v).next, w ∈ vertices)

include hclosed

/-- **The search ends** in a graph with finitely many vertices. -/
theorem ends {v : V} (hv : v ∈ vertices) : ∃ o set', Search kind set (.vertex v) o set' := by
  -- by how many vertices are not marked yet
  induction hn : (unmarked vertices set).card using Nat.strong_induction_on generalizing set v with
  | _ n ih =>
    by_cases hset : v ∈ set
    · exact ⟨_, _, .circular hset⟩
    · have hlt := unmarked_lt hv hset
      have hbelow : ∀ set', (∀ x ∈ v :: set, x ∈ set') → ∀ w ∈ vertices,
          ∃ o set'', Search kind set' (.vertex w) o set'' := by
        intro set' hle w hw
        have hle : (unmarked vertices set').card ≤ _ := unmarked_le hle
        exact ih _ (by omega) hw rfl
      cases hkind : kind v with
      | answer r => exact ⟨_, _, .answer hset hkind⟩
      | forward w =>
        obtain ⟨o, set', h⟩ := hbelow (v :: set) (fun _ hx => hx) w
          (hclosed v hv w (by simp [hkind]))
        exact ⟨o, set', .forward hset hkind h⟩
      | union vs =>
        obtain ⟨o, set', h⟩ := exists_union hbelow
          (fun w hw => hclosed v hv w (by rwa [hkind])) none
        exact ⟨o, set', .union hset hkind h⟩

/-- **The search finds an answer** just if it is the only one the vertex leads to. -/
theorem found_iff {v : V} (hv : v ∈ vertices) {r : R} :
    (∃ set', Search kind [] (.vertex v) (.found r) set') ↔
      Answers kind v r ∧ ∀ r', Answers kind v r' → r' = r := by
  constructor
  · rintro ⟨set', h⟩
    refine ⟨h.sound, fun r' hr' => ?_⟩
    have hfound := h.found_of_answers nofun hr'
    exact (Outcome.found.inj hfound).symm
  · rintro ⟨hr, honly⟩
    obtain ⟨o, set', h⟩ := ends hclosed hv
    have ho : o ≠ .ambiguous := by
      rintro rfl
      obtain ⟨r₁, r₂, hne, h₁, h₂⟩ := h.sound
      exact hne ((honly r₁ h₁).trans (honly r₂ h₂).symm)
    exact ⟨set', h.found_of_answers ho hr ▸ h⟩

end Ends

end Search

end Bronze.Graph
