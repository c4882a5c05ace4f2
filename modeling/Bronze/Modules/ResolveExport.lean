import Bronze.Modules.Link
import Bronze.Graph.Search

/-!
# Resolving an export in the standard

A module has records of the exports it writes itself, and targets of its `export *`. `ResolveExport`
searches them: a local record is the answer, an indirect record goes to one other module, and a name
without a record comes from the star targets, if these agree on it.

## Main results

* `resolveExport_found_iff`: an export resolves if it leads to exactly one definition
-/

namespace Bronze.Modules

open Graph
open List

variable {Path : Type}

/-- The import bindings of a module, each with the module it is requested from. -/
def importedBindings (g : Loader Path) (id : Nat) : List (String × Nat × ImportSpecifier) :=
  (imports (g.body id)).flatMap fun d =>
    d.specifiers.map fun s => (s.local_, g.dep id d.specifier, s)

/-- The import binding of the linker. -/
def bindingEntry (b : String × Nat × ImportSpecifier) : String × ImportBinding :=
  (b.1, { module := b.2.1, exportName := b.2.2.imported, isNamespace := b.2.2.isNamespace })

inductive ExportRecord where
  | local_ (name : String)
  | indirect (module : Nat) (name : String)
  | namespace_ (module : Nat)

/-- What `export { .. }` exports: an import other than a namespace is passed on. -/
def exportRecord (g : Loader Path) (id : Nat) (spec : ExportSpecifier) : ExportRecord :=
  match (importedBindings g id).lookup spec.local_ with
  | none => .local_ spec.local_
  | some (target, s) => if s.isNamespace then .local_ spec.local_ else .indirect target s.imported

def declarationRecords (g : Loader Path) (id : Nat) (d : ExportNamesDecl) :
    List (String × ExportRecord) :=
  if d.isStar then
    if d.starAlias = "" then [] else [(d.starAlias, .namespace_ (g.dep id d.fromSpecifier))]
  else if d.hasFrom then
    d.specifiers.map fun s => (s.exported, .indirect (g.dep id d.fromSpecifier) s.local_)
  else d.specifiers.map fun s => (s.exported, exportRecord g id s)

/-- The exports that the source of a module names. -/
def exportRecords (g : Loader Path) (id : Nat) : List (String × ExportRecord) :=
  (exports (g.body id)).flatMap (declarationRecords g id)

def starTargets (g : Loader Path) (id : Nat) : List Nat :=
  (exports (g.body id)).filterMap fun d =>
    if d.isStar ∧ d.starAlias = "" then some (g.dep id d.fromSpecifier) else none

/-! ## The search -/

inductive BindingName where
  | name (local_ : String)
  | namespace_
  deriving DecidableEq

/-- A module, and a binding of it or its namespace object. -/
structure Resolution where
  module : Nat
  bindingName : BindingName
  deriving DecidableEq

abbrev Export := Nat × String

def exportKind (g : Loader Path) (e : Export) : Kind Export Resolution :=
  match (exportRecords g e.1).lookup e.2 with
  | some (.local_ name) => .answer ⟨e.1, .name name⟩
  | some (.namespace_ module) => .answer ⟨module, .namespace_⟩
  | some (.indirect module name) => .forward (module, name)
  | none =>
    -- no star gives `default`
    if e.2 = "default" then .union [] else .union ((starTargets g e.1).map fun t => (t, e.2))

/-- `ResolveExport` with an empty resolve set. -/
def ResolveExport (g : Loader Path) (e : Export) (o : Outcome Resolution) : Prop :=
  ∃ resolveSet, Search (exportKind g) [] (.vertex e) o resolveSet

section Finite

variable {g : Loader Path} {e e' : Export}

def Own (g : Loader Path) (e : Export) : Prop := e.2 ∈ (exportRecords g e.1).map (·.1)

instance : Decidable (Own g e) := inferInstanceAs (Decidable (_ ∈ _))

theorem own_iff : Own g e ↔ ∃ record, (exportRecords g e.1).lookup e.2 = some record := by
  rw [← Option.isSome_iff_exists, lookup_isSome_iff, Own, mem_map]
  constructor
  · rintro ⟨r, hr, heq⟩
    exact ⟨r, hr, beq_iff_eq.mpr heq.symm⟩
  · rintro ⟨r, hr, heq⟩
    exact ⟨r, hr, (beq_iff_eq.mp heq).symm⟩

theorem lookup_of_not_own (h : ¬Own g e) : (exportRecords g e.1).lookup e.2 = none := by
  rw [own_iff, not_exists] at h
  exact Option.eq_none_iff_forall_ne_some.mpr h

theorem next_of_not_own (h : ¬Own g e) :
    e' ∈ (exportKind g e).next ↔ e.2 ≠ "default" ∧ e'.2 = e.2 ∧ e'.1 ∈ starTargets g e.1 := by
  rw [exportKind, lookup_of_not_own h]
  split_ifs with hdefault
  · simp [hdefault]
  · rw [Kind.next_union, mem_map]
    constructor
    · rintro ⟨t, ht, rfl⟩
      exact ⟨hdefault, rfl, ht⟩
    · rintro ⟨-, hname, ht⟩
      exact ⟨e'.1, ht, Prod.ext rfl hname.symm⟩

theorem kind_of_next_of_own (h : Own g e) (hnext : e' ∈ (exportKind g e).next) :
    exportKind g e = .forward e' := by
  obtain ⟨record, hrecord⟩ := own_iff.mp h
  cases record <;> simp only [exportKind, hrecord, Kind.next_answer, Kind.next_forward,
    mem_singleton, not_mem_nil] at hnext ⊢
  rw [hnext]

theorem own_of_kind_answer {r : Resolution} (h : exportKind g e = .answer r) : Own g e := by
  by_contra hnot
  rw [exportKind, lookup_of_not_own hnot] at h
  split_ifs at h

theorem own_of_kind_forward (h : exportKind g e = .forward e') : Own g e := by
  by_contra hnot
  rw [exportKind, lookup_of_not_own hnot] at h
  split_ifs at h

theorem lookup_of_kind_forward (h : exportKind g e = .forward e') :
    (exportRecords g e.1).lookup e.2 = some (.indirect e'.1 e'.2) := by
  obtain ⟨record, hrecord⟩ := own_iff.mp (own_of_kind_forward h)
  rw [exportKind, hrecord] at h
  cases record <;> cases h
  exact hrecord

/-- The exports of the graph that a search from one export can meet. -/
def exportsFrom (g : Loader Path) (e : Export) : Finset Export :=
  let ids := Finset.range g.modules.length
  let modules := ids.biUnion fun id =>
    ((exportRecords g id).filterMap fun
      | (_, .indirect t _) => some t
      | _ => none).toFinset ∪ (starTargets g id).toFinset
  let names := ids.biUnion fun id =>
    ((exportRecords g id).filterMap fun
      | (_, .indirect _ n) => some n
      | _ => none).toFinset
  insert e.1 modules ×ˢ insert e.2 names

theorem body_of_length_le {id : Nat} (h : g.modules.length ≤ id) : g.body id = [] := by
  rw [Loader.body, getElem?_eq_none h]
  rfl

theorem exportsFrom_closed : ∀ a ∈ exportsFrom g e, ∀ b ∈ (exportKind g a).next,
    b ∈ exportsFrom g e := by
  intro a ha b hb
  have hin : a.1 < g.modules.length := by
    by_contra hle
    have hbody := body_of_length_le (Nat.not_lt.mp hle)
    have hrecords : exportRecords g a.1 = [] := by rw [exportRecords, hbody]; rfl
    have htargets : starTargets g a.1 = [] := by rw [starTargets, hbody]; rfl
    rw [exportKind, hrecords, htargets] at hb
    split_ifs at hb <;> exact absurd hb not_mem_nil
  simp only [exportsFrom, Finset.mem_product, Finset.mem_insert, Finset.mem_biUnion,
    Finset.mem_range, Finset.mem_union, mem_toFinset, mem_filterMap] at ha ⊢
  by_cases hown : Own g a
  · have hkind := kind_of_next_of_own hown hb
    obtain ⟨l, l', heq, -⟩ := lookup_eq_some_iff.mp (lookup_of_kind_forward hkind)
    have hmem : (a.2, ExportRecord.indirect b.1 b.2) ∈ exportRecords g a.1 := by
      rw [heq]
      exact mem_append_right l (mem_cons_self ..)
    exact ⟨.inr ⟨a.1, hin, .inl ⟨_, hmem, rfl⟩⟩, .inr ⟨a.1, hin, _, hmem, rfl⟩⟩
  · obtain ⟨-, hname, htarget⟩ := (next_of_not_own hown).mp hb
    exact ⟨.inr ⟨a.1, hin, .inr htarget⟩, hname ▸ ha.2⟩

theorem mem_exportsFrom (g : Loader Path) (e : Export) : e ∈ exportsFrom g e := by
  rw [exportsFrom, Finset.mem_product]
  exact ⟨Finset.mem_insert_self .., Finset.mem_insert_self ..⟩

/-- **An export resolves** if it leads to exactly one definition. -/
theorem resolveExport_found_iff {r : Resolution} : ResolveExport g e (.found r) ↔
    Answers (exportKind g) e r ∧ ∀ r', Answers (exportKind g) e r' → r' = r := by
  exact Search.found_iff exportsFrom_closed (mem_exportsFrom g e)

theorem answers_unique_of_not_ambiguous (h : ¬ResolveExport g e .ambiguous) {r r' : Resolution}
    (hr : Answers (exportKind g) e r) (hr' : Answers (exportKind g) e r') : r = r' := by
  obtain ⟨o, resolveSet, hsearch⟩ : ∃ o resolveSet,
      Search (exportKind g) [] (.vertex e) o resolveSet :=
    Search.ends exportsFrom_closed (mem_exportsFrom g e)
  have ho : o ≠ .ambiguous := by
    rintro rfl
    exact h ⟨resolveSet, hsearch⟩
  have hfound := hsearch.found_of_answers ho hr
  rw [hsearch.found_of_answers ho hr'] at hfound
  exact (Outcome.found.inj hfound).symm

end Finite

/-- `Precedes g a b`: the module `a` is evaluated before `b`. -/
def Precedes (g : Loader Path) (a b : Nat) : Prop :=
  ∃ before after, g.evaluationOrder = before ++ b :: after ∧ a ∈ before

variable {g : Loader Path} {a b : Nat}

section

variable (h : Precedes g a b)

include h

theorem Precedes.mem_of_order (hnodup : g.evaluationOrder.Nodup)
    {pre suf : List Nat} (horder : g.evaluationOrder = pre ++ b :: suf) : a ∈ pre := by
  obtain ⟨before, after, horder', ha⟩ := h
  rw [horder', nodup_middle, nodup_cons, mem_append, not_or] at hnodup
  rw [horder', append_cons_inj_of_notMem hnodup.1.1 hnodup.1.2] at horder
  exact horder.1 ▸ ha

theorem Precedes.mem_order : a ∈ g.evaluationOrder := by
  obtain ⟨before, after, horder, ha⟩ := h
  rw [horder]
  exact mem_append_left _ ha

theorem Precedes.trans {c : Nat} (h' : Precedes g b c)
    (hnodup : g.evaluationOrder.Nodup) : Precedes g a c := by
  obtain ⟨before, after, horder, hb⟩ := h'
  obtain ⟨l, l', rfl⟩ := append_of_mem hb
  have horder' : g.evaluationOrder = l ++ b :: (l' ++ c :: after) := by
    rw [horder, append_assoc]
    rfl
  exact ⟨l ++ b :: l', after, horder, mem_append_left _ (h.mem_of_order hnodup horder')⟩

theorem Precedes.idxOf_lt (hnodup : g.evaluationOrder.Nodup) :
    g.evaluationOrder.idxOf a < g.evaluationOrder.idxOf b := by
  obtain ⟨before, after, horder, ha⟩ := h
  rw [horder, nodup_middle, nodup_cons, mem_append, not_or] at hnodup
  rw [horder, idxOf_append_of_mem ha, idxOf_append_of_notMem hnodup.1.1, idxOf_cons_self]
  exact idxOf_lt_length_of_mem ha

end

/-- What a pass over the modules in evaluation order finds: a record of the module's own, or a name
that every star which gives it has from such a record or from a module evaluated before. -/
inductive Settled (g : Loader Path) : Export → Prop
  | own {e : Export} (h : Own g e) : Settled g e
  | stars {m : Nat} {n : String} (h : ¬Own g (m, n))
      (hbelow : ∀ t ∈ starTargets g m, (∃ r, Answers (exportKind g) (t, n) r) → Settled g (t, n))
      (hbefore : ∀ t ∈ starTargets g m, (∃ r, Answers (exportKind g) (t, n) r) →
        Own g (t, n) ∨ Precedes g t m) : Settled g (m, n)

/-- The exports that linking resolves: what an import names, and every named re-export. -/
inductive Requested (g : Loader Path) : Export → Prop
  | import_ {id target : Nat} {local_ : String} {s : ImportSpecifier}
      (h : (local_, target, s) ∈ importedBindings g id) (hname : s.isNamespace = false) :
      Requested g (target, s.imported)
  | reExport {e e' : Export} (h : exportKind g e = .forward e') : Requested g e

/-- Some requested export is null or ambiguous. -/
def Unresolved (g : Loader Path) : Prop := ∃ e, Requested g e ∧ ∀ r, ¬ResolveExport g e (.found r)

/-- What the order of the files promises: every file that was entered is in it, once. -/
structure Linkable (g : Loader Path) : Prop where
  nodup : g.evaluationOrder.Nodup
  complete : ∀ id < g.modules.length, id ∈ g.evaluationOrder

end Bronze.Modules
