import Bronze.Modules.ResolveExport

/-!
# The tables of the linker

Collecting gives every module the entries of its records. A step of the star expansion adds one
entry to one table or none, and a pass that adds none has compared every two stars that give a name.

## Main results

* `Run.inv`, `Run.grows`: what the star expansion keeps
* `expandAll_stable`: what a pass that changes nothing has compared
* `expandAll_ends`: the star expansion ends
-/

namespace Bronze.Modules

open Graph Fixpoint
open List Option Function Info Nat

variable {Path : Type}

/-! ## Collecting -/

section Collect

/-- The entry stands for the record. -/
def Represents (mi : ModuleInfo) (entry : ExportEntry) : ExportRecord → Prop
  | .local_ name => entry.indirect = false ∧ entry.localName = .source name
  | .indirect module name =>
    entry.indirect = true ∧ entry.targetModule = module ∧ entry.targetName = name
  | .namespace_ module => entry.indirect = false ∧ ∃ counter,
      entry.localName = .synthetic counter ∧
        mi.namespaceLocals.lookup (.synthetic counter) = some module

/-- The entries of the exports collected so far, and the counter of the synthetic names. -/
structure Collects (g : Loader Path) (id : Nat) (records : List (String × ExportRecord))
    (mi : ModuleInfo) (counter : Nat) : Prop where
  exports : List.Forall₂ (fun x r => x.1 = r.1 ∧ x.2.fromStar = false ∧ Represents mi x.2 r.2)
    mi.exports records
  nodup : (mi.exports.map (·.1)).Nodup
  imports : mi.imports = (importedBindings g id).map bindingEntry
  distinct : ((importedBindings g id).map (·.1)).Nodup
  undeclared : ∀ b ∈ importedBindings g id, b.1 ∉ mi.localNames
  fresh : ∀ ns ∈ mi.namespaceLocals, ∀ k, ns.1 = .synthetic k → k < counter

variable {mi mi' : ModuleInfo} {entry : ExportEntry} {id : Nat} {e : LinkError} {g : Loader Path}

theorem Represents.mono {record : ExportRecord} (h : Represents mi entry record)
    (hle : ∀ l t, mi.namespaceLocals.lookup l = some t → mi'.namespaceLocals.lookup l = some t) :
    Represents mi' entry record := by
  cases record with
  | local_ name => exact h
  | indirect module name => exact h
  | namespace_ module =>
    obtain ⟨hdirect, counter, hname, hlookup⟩ := h
    exact ⟨hdirect, counter, hname, hle _ _ hlookup⟩

variable {exported : String}

theorem addExport_ok :
    addExport id exported entry mi = .ok mi' ↔ exported ∉ mi.exports.map (·.1) ∧
      mi' = { mi with exports := mi.exports ++ [(exported, entry)] } := by
  have hlookup : (mi.exports.lookup exported).isSome ↔ exported ∈ mi.exports.map (·.1) := by
    rw [List.lookup_isSome_iff, List.mem_map]
    constructor
    · rintro ⟨x, hx, heq⟩
      exact ⟨x, hx, (beq_iff_eq.mp heq).symm⟩
    · rintro ⟨x, hx, heq⟩
      exact ⟨x, hx, beq_iff_eq.mpr heq.symm⟩
  rw [addExport, ← hlookup]
  split_ifs with hsome
  · simp [hsome]
  · simp [hsome, eq_comm]

theorem addExport_error (h : addExport id exported entry mi = .error e) : e.Early := by
  rw [addExport] at h
  split_ifs at h
  cases h
  trivial

namespace Collects

variable {g : Loader Path} {id counter : Nat} {records : List (String × ExportRecord)}
  {mi mi' : ModuleInfo} {record : ExportRecord}

theorem addExport (h : Collects g id records mi counter) {exported : String} {entry : ExportEntry}
    (hadd : addExport id exported entry mi = .ok mi') (hstar : entry.fromStar = false)
    (hentry : Represents mi entry record) :
    Collects g id (records ++ [(exported, record)]) mi' counter := by
  obtain ⟨hnot, rfl⟩ := addExport_ok.mp hadd
  refine ⟨?_, ?_, h.imports, h.distinct, h.undeclared, h.fresh⟩
  · exact rel_append h.exports (.cons ⟨rfl, hstar, hentry⟩ .nil)
  · rw [map_append]
    refine nodup_append.mpr ⟨h.nodup, nodup_singleton _, ?_⟩
    intro x hx y hy hxy
    rw [hxy, mem_singleton.mp hy] at hx
    exact hnot hx

variable {spec : ExportSpecifier}

section

variable (h : Collects g id records mi counter)

include h

theorem addReExport {target : Nat} (hadd : addReExport id target mi spec = .ok mi') :
    Collects g id (records ++ [(spec.exported, .indirect target spec.local_)]) mi' counter :=
  h.addExport hadd rfl ⟨rfl, rfl, rfl⟩

theorem lookup_imports (local_ : String) :
    mi.imports.lookup local_ = ((importedBindings g id).lookup local_).map fun b =>
      { module := b.1, exportName := b.2.imported, isNamespace := b.2.isNamespace } := by
  rw [h.imports]
  induction importedBindings g id with
  | nil => rfl
  | cons b bs ih =>
    rw [map_cons, lookup_cons, lookup_cons, ih]
    change (match local_ == b.1 with | true => _ | false => _) = _
    cases local_ == b.1 <;> rfl

theorem addLocalExport (hadd : addLocalExport id mi spec = .ok mi') :
    Collects g id (records ++ [(spec.exported, exportRecord g id spec)]) mi' counter := by
  rw [Modules.addLocalExport, h.lookup_imports] at hadd
  rw [exportRecord]
  cases hlookup : (importedBindings g id).lookup spec.local_ with
  | none =>
    simp only [hlookup, map_none] at hadd
    split_ifs at hadd with hlocal
    exact h.addExport hadd rfl ⟨rfl, rfl⟩
  | some b =>
    simp only [hlookup, map_some] at hadd
    dsimp only
    split_ifs at hadd ⊢ with hnamespace
    · exact h.addExport hadd rfl ⟨rfl, rfl⟩
    · exact h.addExport hadd rfl ⟨rfl, rfl, rfl⟩

theorem addNamespace (target : Nat) :
    Collects g id records
      { mi with namespaceLocals := mi.namespaceLocals ++ [(.synthetic counter, target)] }
      (counter + 1) := by
  constructor
  · refine h.exports.imp fun x r hx => ⟨hx.1, hx.2.1, hx.2.2.mono fun l t hlookup => ?_⟩
    rw [lookup_append, hlookup]
    rfl
  · exact h.nodup
  · exact h.imports
  · exact h.distinct
  · exact h.undeclared
  · intro ns hns k hk
    rcases mem_append.mp hns with hns | hns
    · exact lt_succ_of_lt (h.fresh ns hns k hk)
    · rw [mem_singleton.mp hns] at hk
      obtain rfl := LocalName.synthetic.inj hk
      exact lt_succ_self _

theorem lookup_fresh : mi.namespaceLocals.lookup (.synthetic counter) = none := by
  rw [lookup_eq_none_iff]
  intro ns hns
  rw [bne_iff_ne]
  intro heq
  exact lt_irrefl _ (h.fresh ns hns counter heq.symm)

theorem collectExport {d : ExportNamesDecl} {counter' : Nat}
    (hrun : collectExport g id (mi, counter) d = .ok (mi', counter')) :
    Collects g id (records ++ declarationRecords g id d) mi' counter' ∧ counter ≤ counter' := by
  rw [Modules.collectExport] at hrun
  rw [declarationRecords]
  split_ifs at hrun ⊢ with hstar halias hfrom
  · cases hrun
    rw [append_nil]
    exact ⟨h, le_refl _⟩
  · obtain ⟨mi₁, hadd, hrun⟩ := bind_eq_ok.mp hrun
    cases hrun
    refine ⟨(h.addNamespace _).addExport hadd rfl ⟨rfl, counter, rfl, ?_⟩, le_succ _⟩
    rw [lookup_append, h.lookup_fresh]
    simp
  · obtain ⟨mi₁, hadd, hrun⟩ := bind_eq_ok.mp hrun
    cases hrun
    refine ⟨?_, le_refl _⟩
    refine foldlM_ok (P := fun pre mi => Collects g id (records ++ pre.map fun s => (s.exported,
      .indirect (g.dep id d.fromSpecifier) s.local_)) mi counter) hadd ?_ ?_
    · rwa [map_nil, append_nil]
    · intro pre spec suf mi mi' _ hpre hstep
      rw [map_append, ← append_assoc]
      exact hpre.addReExport hstep
  · obtain ⟨mi₁, hadd, hrun⟩ := bind_eq_ok.mp hrun
    cases hrun
    refine ⟨?_, le_refl _⟩
    refine foldlM_ok (P := fun pre mi => Collects g id (records ++ pre.map fun s => (s.exported,
      exportRecord g id s)) mi counter) hadd ?_ ?_
    · rwa [map_nil, append_nil]
    · intro pre spec suf mi mi' _ hpre hstep
      rw [map_append, ← append_assoc]
      exact hpre.addLocalExport hstep

end

theorem collectExports (h : Collects g id [] mi counter) {counter' : Nat}
    (hrun : collectExports g id (mi, counter) = .ok (mi', counter')) :
    Collects g id (exportRecords g id) mi' counter' ∧ counter ≤ counter' := by
  let P (pre : List ExportNamesDecl) (st : ModuleInfo × Nat) : Prop :=
    Collects g id (pre.flatMap (declarationRecords g id)) st.1 st.2 ∧ counter ≤ st.2
  have hstep : ∀ pre d suf st st', Modules.exports (g.body id) = pre ++ d :: suf → P pre st →
      Modules.collectExport g id st d = .ok st' → P (pre ++ [d]) st' := by
    intro pre d suf st st' _ hpre hrun
    obtain ⟨hcollects, hle⟩ := hpre.1.collectExport hrun
    refine ⟨?_, le_trans hpre.2 hle⟩
    rwa [flatMap_append, flatMap_singleton]
  exact foldlM_ok (P := P) hrun ⟨h, le_refl _⟩ hstep

end Collects

/-- The import bindings collected so far, before any export. -/
structure CollectsImports (bindings : List (String × Nat × ImportSpecifier)) (mi : ModuleInfo) :
    Prop where
  exports : mi.exports = []
  imports : mi.imports = bindings.map bindingEntry
  distinct : (bindings.map (·.1)).Nodup
  undeclared : ∀ b ∈ bindings, b.1 ∉ mi.localNames
  named : ∀ ns ∈ mi.namespaceLocals, ∃ name, ns.1 = .source name

theorem CollectsImports.addImport {bindings : List (String × Nat × ImportSpecifier)}
    {mi mi' : ModuleInfo} (h : CollectsImports bindings mi) {id target : Nat}
    {spec : ImportSpecifier} (hadd : addImport id target mi spec = .ok mi') :
    CollectsImports (bindings ++ [(spec.local_, target, spec)]) mi' := by
  rw [Modules.addImport] at hadd
  by_cases hduplicate : (mi.imports.lookup spec.local_).isSome
  · rw [if_pos hduplicate] at hadd
    cases hadd
  · rw [if_neg hduplicate] at hadd
    by_cases hdeclared : spec.local_ ∈ mi.localNames
    · rw [if_pos hdeclared] at hadd
      cases hadd
    · rw [if_neg hdeclared] at hadd
      cases hadd
      refine ⟨h.exports, ?_, ?_, ?_, ?_⟩
      · rw [map_append, ← h.imports]
        rfl
      · have hnot : spec.local_ ∉ bindings.map (·.1) := by
          intro hmem
          apply hduplicate
          obtain ⟨b, hb, heq⟩ := mem_map.mp hmem
          rw [h.imports, lookup_isSome_iff]
          exact ⟨_, mem_map_of_mem hb, beq_iff_eq.mpr heq.symm⟩
        rw [map_append]
        refine nodup_append.mpr ⟨h.distinct, nodup_singleton _, ?_⟩
        intro x hx y hy hxy
        rw [hxy, mem_singleton.mp hy] at hx
        exact hnot hx
      · intro b hb
        rcases mem_append.mp hb with hb | hb
        · exact h.undeclared b hb
        · rw [mem_singleton.mp hb]
          exact hdeclared
      · intro ns hns
        rcases mem_append.mp hns with hns | hns
        · exact h.named ns hns
        · split_ifs at hns
          · exact ⟨spec.local_, by rw [mem_singleton.mp hns]⟩
          · exact absurd hns not_mem_nil

theorem collectImports_ok (h : CollectsImports [] mi) (hrun : collectImports g id mi = .ok mi') :
    CollectsImports (importedBindings g id) mi' := by
  refine foldlM_ok (P := fun pre mi => CollectsImports (pre.flatMap fun d =>
    d.specifiers.map fun s => (s.local_, g.dep id d.specifier, s)) mi) hrun h ?_
  intro pre d suf mi mi' _ hpre hstep
  rw [flatMap_append, flatMap_singleton]
  refine foldlM_ok (P := fun pre' mi => CollectsImports (pre.flatMap (fun d =>
    d.specifiers.map fun s => (s.local_, g.dep id d.specifier, s)) ++
      pre'.map fun s => (s.local_, g.dep id d.specifier, s)) mi) hstep ?_ ?_
  · rwa [map_nil, append_nil]
  · intro pre' s suf' mi mi' _ hpre' hadd
    rw [map_append, ← append_assoc]
    exact hpre'.addImport hadd

structure Collected (g : Loader Path) (done : List Nat) (tables : Tables) : Prop where
  collects : ∀ id ∈ done,
    Collects g id (exportRecords g id) (tables.info id) tables.syntheticCounter
  empty : ∀ id, id ∉ done → tables.info id = {}

theorem Collected.collect {done : List Nat} {tables tables' : Tables}
    (h : Collected g done tables) (hid : id ∉ done) (hrun : collect g tables id = .ok tables') :
    Collected g (done ++ [id]) tables' := by
  obtain ⟨mi, himports, hrun⟩ := bind_eq_ok.mp hrun
  obtain ⟨⟨mi', counter⟩, hexports, hrun⟩ := bind_eq_ok.mp hrun
  cases hrun
  have hstart : CollectsImports [] (collectLocals g id (tables.info id)) := by
    rw [h.empty id hid]
    exact ⟨rfl, rfl, nodup_nil, nofun, nofun⟩
  have hcollected := collectImports_ok hstart himports
  have hbefore : Collects g id [] mi tables.syntheticCounter := by
    refine ⟨?_, ?_, hcollected.imports, hcollected.distinct, hcollected.undeclared, ?_⟩
    · rw [hcollected.exports]
      exact .nil
    · rw [hcollected.exports]
      exact nodup_nil
    · intro ns hns k hk
      obtain ⟨name, hname⟩ := hcollected.named ns hns
      rw [hname] at hk
      cases hk
  obtain ⟨hafter, hle⟩ := hbefore.collectExports hexports
  constructor
  · intro id' hid'
    by_cases heq : id' = id
    · subst heq
      dsimp only
      rwa [update_self]
    · rcases mem_append.mp hid' with hid' | hid'
      · dsimp only
        rw [update_of_ne heq]
        exact { h.collects id' hid' with
          fresh := fun ns hns k hk =>
            lt_of_lt_of_le ((h.collects id' hid').fresh ns hns k hk) hle }
      · exact absurd (mem_singleton.mp hid') heq
  · intro id' hid'
    rw [mem_append, mem_singleton, not_or] at hid'
    dsimp only
    rw [update_of_ne hid'.2]
    exact h.empty id' hid'.1

theorem collected_of_link (hg : Linkable g) {tables : Tables}
    (h : g.evaluationOrder.foldlM (collect g) {} = .ok tables) :
    Collected g g.evaluationOrder tables := by
  refine foldlM_ok h ⟨nofun, fun _ _ => rfl⟩ ?_
  intro pre id suf st st' horder hpre hstep
  refine hpre.collect ?_ hstep
  intro hmem
  have hnodup := hg.nodup
  rw [horder, nodup_append] at hnodup
  exact hnodup.2.2 id hmem id (mem_cons_self ..) rfl

theorem foldlM_early {α σ : Type} {f : σ → α → Except LinkError σ}
    (hf : ∀ s a e, f s a = .error e → e.Early) {l : List α} {s : σ} (h : l.foldlM f s = .error e) :
    e.Early := by
  obtain ⟨_, a, _, s₁, -, -, herror⟩ :=
    foldlM_error (P := fun _ _ => True) h trivial fun _ _ _ _ _ _ _ _ => trivial
  exact hf s₁ a e herror

theorem collectImports_error (h : collectImports g id mi = .error e) : e.Early := by
  refine foldlM_early (fun mi imp e h => foldlM_early (fun mi spec e h => ?_) h) h
  rw [addImport] at h
  split_ifs at h <;> cases h <;> trivial

theorem addLocalExport_error {spec : ExportSpecifier} (h : addLocalExport id mi spec = .error e) :
    e.Early := by
  rw [addLocalExport] at h
  cases hlookup : mi.imports.lookup spec.local_ with
  | none =>
    simp only [hlookup] at h
    split_ifs at h
    · exact addExport_error h
    · cases h
      trivial
  | some imported =>
    simp only [hlookup] at h
    split_ifs at h <;> exact addExport_error h

theorem collectExports_error {st : ModuleInfo × Nat} (h : collectExports g id st = .error e) :
    e.Early := by
  refine foldlM_early (fun st d e h => ?_) h
  rw [collectExport] at h
  split_ifs at h with hstar halias hfrom
  · cases h
  · rcases bind_eq_error.mp h with h | ⟨mi, -, h⟩
    · exact addExport_error h
    · cases h
  · rcases bind_eq_error.mp h with h | ⟨mi, -, h⟩
    · exact foldlM_early (fun _ _ _ h => addExport_error h) h
    · cases h
  · rcases bind_eq_error.mp h with h | ⟨mi, -, h⟩
    · exact foldlM_early (fun _ _ _ h => addLocalExport_error h) h
    · cases h

theorem collect_error {st : Tables} (h : collect g st id = .error e) : e.Early := by
  rcases bind_eq_error.mp h with h | ⟨mi, -, h⟩
  · exact collectImports_error h
  · rcases bind_eq_error.mp h with h | ⟨st', -, h⟩
    · exact collectExports_error h
    · cases h

end Collect

/-! ## One step of the star expansion -/

section Expand

variable {g : Loader Path} {info info' : Info} {st st' : Info × Bool} {e : Export}
  {id target : Nat} {name : String}

def Info.Present (info : Info) (e : Export) : Prop := e.2 ∈ (info e.1).exports.map (·.1)

theorem Info.present_iff : info.Present e ↔ ∃ entry, info.entry e = some entry := by
  rw [← isSome_iff_exists, entry, List.lookup_isSome_iff, Present, List.mem_map]
  constructor
  · rintro ⟨x, hx, heq⟩
    exact ⟨x, hx, beq_iff_eq.mpr heq.symm⟩
  · rintro ⟨x, hx, heq⟩
    exact ⟨x, hx, (beq_iff_eq.mp heq).symm⟩

def starEntry (target : Nat) (name : String) : ExportEntry :=
  { indirect := true, targetModule := target, targetName := name, fromStar := true }

/-- The tables with one more name that a star gives. -/
def Info.addStar (info : Info) (id target : Nat) (name : String) : Info :=
  update info id
    { info id with exports := (info id).exports ++ [(name, starEntry target name)] }

theorem Info.exports_addStar (id' : Nat) : (info.addStar id target name id').exports =
    (info id').exports ++ if id' = id then [(name, starEntry target name)] else [] := by
  rw [addStar]
  split_ifs with heq
  · simp [heq]
  · simp [update_of_ne heq]

theorem Info.entry_addStar (h : info.entry (id, name) = none) (e : Export) :
    (info.addStar id target name).entry e =
      if e = (id, name) then some (starEntry target name) else info.entry e := by
  obtain ⟨m, n⟩ := e
  rw [entry, exports_addStar, lookup_append]
  change (info.entry (m, n)).or _ = _
  by_cases hid : m = id
  · subst hid
    rw [if_pos rfl]
    by_cases hname : n = name
    · subst hname
      rw [h]
      simp
    · rw [if_neg fun heq => hname (Prod.mk.inj heq).2, lookup_cons, beq_eq_false_iff_ne.mpr hname]
      simp
  · rw [if_neg hid, if_neg fun heq => hid (Prod.mk.inj heq).1]
    simp

/-- What a step does with one name of a target: it keeps an export of the module's own, finds that
two stars agree, or adds an entry. -/
inductive Expansion (info : Info) (id target : Nat) (name : String) (changed : Bool) :
    Info × Bool → Prop
  | default (hname : name = "default") : Expansion info id target name changed (info, changed)
  | own {entry : ExportEntry} (hentry : info.entry (id, name) = some entry)
      (hown : entry.fromStar = false) : Expansion info id target name changed (info, changed)
  | agreed {entry : ExportEntry} {d : Nat × LocalName} (hname : name ≠ "default")
      (hentry : info.entry (id, name) = some entry) (hstar : entry.fromStar = true)
      (hleft : resolveExport info entry.targetModule entry.targetName = .ok d)
      (hright : resolveExport info target name = .ok d) :
      Expansion info id target name changed (info, changed)
  | added (hname : name ≠ "default") (hentry : info.entry (id, name) = none) :
      Expansion info id target name changed (info.addStar id target name, true)

theorem Expansion.unchanged {changed : Bool} (h : Expansion info id target name changed st)
    (hst : st.2 = false) (hname : name ≠ "default") : ∃ entry, info.entry (id, name) = some entry ∧
      (entry.fromStar = false ∨ entry.fromStar = true ∧
        ∃ d, resolveExport info entry.targetModule entry.targetName = .ok d ∧
          resolveExport info target name = .ok d) := by
  cases h with
  | default hdefault => exact absurd hdefault hname
  | own hentry hown => exact ⟨_, hentry, .inl hown⟩
  | agreed _ hentry hstar hleft hright => exact ⟨_, hentry, .inr ⟨hstar, _, hleft, hright⟩⟩
  | added => cases hst

theorem expandName_spec {changed : Bool} :
    match expandName id target (info, changed) name with
    | .ok st' => Expansion info id target name changed st'
    | .error err => err = .ambiguousExport name id ∧ name ≠ "default" ∧
        ∃ entry, info.entry (id, name) = some entry ∧ entry.fromStar = true ∧
          ¬∃ d, resolveExport info entry.targetModule entry.targetName = .ok d ∧
            resolveExport info target name = .ok d := by
  rw [expandName]
  dsimp only
  by_cases hname : name = "default"
  · rw [if_pos hname]
    exact .default hname
  rw [if_neg hname]
  cases hentry : info.entry (id, name) with
  | none =>
    have hnot : name ∉ (info id).exports.map (·.1) := by
      intro hmem
      obtain ⟨entry, hsome⟩ := present_iff.mp (show info.Present (id, name) from hmem)
      rw [hentry] at hsome
      cases hsome
    rw [addExport_ok.mpr ⟨hnot, rfl⟩]
    exact .added hname hentry
  | some entry =>
    dsimp only
    by_cases hstar : entry.fromStar = true
    · rw [if_neg (not_not.mpr hstar)]
      split_ifs with hagree
      · obtain ⟨hsome, heq⟩ := hagree
        cases hleft : resolveExport info entry.targetModule entry.targetName with
        | error err =>
          rw [hleft] at hsome
          cases hsome
        | ok d =>
          rw [hleft] at heq
          cases hright : resolveExport info target name with
          | error err =>
            rw [hright] at heq
            cases heq
          | ok d' =>
            rw [hright] at heq
            obtain rfl : d = d' := some.inj heq
            exact .agreed hname hentry hstar hleft hright
      · refine ⟨rfl, hname, entry, rfl, hstar, ?_⟩
        rintro ⟨d, hleft, hright⟩
        rw [hleft, hright] at hagree
        exact hagree ⟨rfl, rfl⟩
    · rw [if_pos hstar]
      exact .own hentry (Bool.eq_false_iff.mpr hstar)

theorem expandName_ok (h : expandName id target st name = .ok st') :
    Expansion st.1 id target name st.2 st' := by
  have hspec := @expandName_spec st.1 id target name st.2
  rwa [h] at hspec

/-- One step: a name of the table of a star target. -/
def Step (g : Loader Path) (st st' : Info × Bool) : Prop :=
  ∃ id ∈ g.evaluationOrder, ∃ target ∈ starTargets g id, ∃ name,
    st.1.Present (target, name) ∧ expandName id target st name = .ok st'

def Run (g : Loader Path) : Info × Bool → Info × Bool → Prop := Relation.ReflTransGen (Step g)

theorem Step.cases (h : Step g st st') : st' = st ∨
    ∃ id ∈ g.evaluationOrder, ∃ target ∈ starTargets g id, ∃ name, st.1.Present (target, name) ∧
      name ≠ "default" ∧ st.1.entry (id, name) = none ∧
        st' = (st.1.addStar id target name, true) := by
  obtain ⟨id, hid, target, htarget, name, hpresent, hrun⟩ := h
  cases expandName_ok hrun with
  | default => exact .inl rfl
  | own => exact .inl rfl
  | agreed => exact .inl rfl
  | added hname hentry => exact .inr ⟨id, hid, target, htarget, name, hpresent, hname, hentry, rfl⟩

/-- Tables with the same imports, and every entry there was. -/
structure Grows (info info' : Info) : Prop where
  entry : ∀ e entry, info.entry e = some entry → info'.entry e = some entry
  imports : ∀ id, (info' id).imports = (info id).imports
  localNames : ∀ id, (info' id).localNames = (info id).localNames
  namespaceLocals : ∀ id, (info' id).namespaceLocals = (info id).namespaceLocals

theorem Grows.refl (info : Info) : Grows info info :=
  ⟨fun _ _ h => h, fun _ => rfl, fun _ => rfl, fun _ => rfl⟩

theorem Grows.trans {info₁ info₂ info₃ : Info} (h : Grows info₁ info₂) (h' : Grows info₂ info₃) :
    Grows info₁ info₃ where
  entry e entry hentry := h'.entry e entry (h.entry e entry hentry)
  imports id := (h'.imports id).trans (h.imports id)
  localNames id := (h'.localNames id).trans (h.localNames id)
  namespaceLocals id := (h'.namespaceLocals id).trans (h.namespaceLocals id)

theorem Grows.present (h : Grows info info') (he : info.Present e) : info'.Present e := by
  obtain ⟨entry, hentry⟩ := present_iff.mp he
  exact present_iff.mpr ⟨entry, h.entry e entry hentry⟩

theorem Grows.addStar (h : info.entry (id, name) = none) :
    Grows info (info.addStar id target name) := by
  have hfield : ∀ (id' : Nat), (info.addStar id target name id').imports = (info id').imports ∧
      (info.addStar id target name id').localNames = (info id').localNames ∧
      (info.addStar id target name id').namespaceLocals = (info id').namespaceLocals := by
    intro id'
    rw [Info.addStar]
    by_cases heq : id' = id
    · subst heq
      rw [update_self]
      exact ⟨rfl, rfl, rfl⟩
    · rw [update_of_ne heq]
      exact ⟨rfl, rfl, rfl⟩
  refine ⟨fun e entry hentry => ?_, fun id' => (hfield id').1, fun id' => (hfield id').2.1,
    fun id' => (hfield id').2.2⟩
  rw [entry_addStar h]
  split_ifs with heq
  · rw [heq, h] at hentry
    cases hentry
  · exact hentry

theorem Step.grows (h : Step g st st') : Grows st.1 st'.1 := by
  rcases h.cases with rfl | ⟨id, -, target, -, name, -, -, hentry, rfl⟩
  · exact .refl _
  · exact .addStar hentry

theorem Run.grows (h : Run g st st') : Grows st.1 st'.1 := by
  induction h with
  | refl => exact .refl _
  | tail _ hstep ih => exact ih.trans hstep.grows

/-- From the export the pointers of the stars lead to a record of a module's own. -/
inductive Lands (g : Loader Path) (info : Info) : Export → Export → Prop
  | own {e : Export} (h : Own g e) : Lands g info e e
  | star {e e' : Export} {entry : ExportEntry} (h : ¬Own g e) (hentry : info.entry e = some entry)
      (hlands : Lands g info (entry.targetModule, entry.targetName) e') : Lands g info e e'

theorem Lands.grows (h : Lands g info e e') (hgrows : Grows info info') : Lands g info' e e' := by
  induction h with
  | own h => exact .own h
  | star h hentry _ ih => exact .star h (hgrows.entry _ _ hentry) ih

/-- The tables at every step of the star expansion. -/
structure Inv (g : Loader Path) (info : Info) : Prop where
  own : ∀ e record, (exportRecords g e.1).lookup e.2 = some record →
    ∃ entry, info.entry e = some entry ∧ entry.fromStar = false ∧ Represents (info e.1) entry record
  star : ∀ e entry, ¬Own g e → info.entry e = some entry →
    entry = starEntry entry.targetModule e.2 ∧ entry.targetModule ∈ starTargets g e.1 ∧
      e.2 ≠ "default"
  lands : ∀ e, info.Present e → ∃ e', Lands g info e e'
  imports : ∀ id ∈ g.evaluationOrder, (info id).imports = (importedBindings g id).map bindingEntry

theorem Inv.present_of_own (h : Inv g info) (he : Own g e) : info.Present e := by
  obtain ⟨record, hrecord⟩ := own_iff.mp he
  obtain ⟨entry, hentry, -, -⟩ := h.own e record hrecord
  exact present_iff.mpr ⟨entry, hentry⟩

theorem Inv.step (h : Inv g st.1) (hstep : Step g st st') : Inv g st'.1 := by
  have hgrows := hstep.grows
  rcases hstep.cases with rfl | ⟨id, hid, target, htarget, name, hpresent, hname, hentry, rfl⟩
  · exact h
  have hnot : ¬Own g (id, name) := by
    intro hown
    obtain ⟨entry, hsome⟩ := present_iff.mp (h.present_of_own hown)
    rw [hentry] at hsome
    cases hsome
  refine ⟨?_, ?_, ?_, ?_⟩
  · intro e record hrecord
    obtain ⟨entry, hsome, hown, hrepresents⟩ := h.own e record hrecord
    refine ⟨entry, hgrows.entry e entry hsome, hown, hrepresents.mono fun l t hlookup => ?_⟩
    rwa [hgrows.namespaceLocals]
  · intro e entry hown hsome
    rw [entry_addStar hentry] at hsome
    split_ifs at hsome with heq
    · obtain rfl := some.inj hsome
      rw [heq]
      exact ⟨rfl, htarget, hname⟩
    · exact h.star e entry hown hsome
  · intro e hin
    obtain ⟨entry, hsome⟩ := present_iff.mp hin
    rw [entry_addStar hentry] at hsome
    split_ifs at hsome with heq
    · -- the new entry points to one that was there
      have hnew : (st.1.addStar id target name).entry e = some (starEntry target name) := by
        rw [entry_addStar hentry, if_pos heq]
      obtain ⟨e', hlands⟩ := h.lands (target, name) hpresent
      exact ⟨e', .star (heq ▸ hnot) hnew (hlands.grows hgrows)⟩
    · obtain ⟨e', hlands⟩ := h.lands e (present_iff.mpr ⟨entry, hsome⟩)
      exact ⟨e', hlands.grows hgrows⟩
  · intro id' hid'
    rw [hgrows.imports]
    exact h.imports id' hid'

theorem Inv.run (h : Inv g st.1) (hrun : Run g st st') : Inv g st'.1 := by
  induction hrun with
  | refl => exact h
  | tail _ hstep ih => exact ih.step hstep

theorem mem_starTargets {t : Nat} : t ∈ starTargets g id ↔ ∃ d ∈ exports (g.body id),
    (!d.isStar || d.starAlias ≠ "") = false ∧ g.dep id d.fromSpecifier = t := by
  rw [starTargets, mem_filterMap]
  apply exists_congr
  intro d
  apply and_congr_right
  intro _
  by_cases hstar : d.isStar = true ∧ d.starAlias = ""
  · rw [if_pos hstar]
    simp [hstar.1, hstar.2]
  · rw [if_neg hstar]
    constructor
    · intro h
      cases h
    · rintro ⟨h, -⟩
      simp only [Bool.or_eq_false_iff, Bool.not_eq_false', decide_eq_false_iff_not, not_not] at h
      exact absurd h hstar

theorem expandNames_step (hid : id ∈ g.evaluationOrder) (htarget : target ∈ starTargets g id)
    {pre suf : List String} {st₁ : Info × Bool}
    (hnames : (st.1 target).exports.map (·.1) = pre ++ name :: suf) (hrun : Run g st st₁)
    (h : expandName id target st₁ name = .ok st') : Step g st₁ st' := by
  refine ⟨id, hid, target, htarget, name, hrun.grows.present ?_, h⟩
  rw [Present, hnames]
  exact mem_append_right pre (mem_cons_self ..)

theorem expandName_present (h : expandName id target st name = .ok st') (hname : name ≠ "default") :
    st'.1.Present (id, name) := by
  rw [present_iff]
  cases expandName_ok h with
  | default hdefault => exact absurd hdefault hname
  | own hentry => exact ⟨_, hentry⟩
  | agreed _ hentry => exact ⟨_, hentry⟩
  | added _ hentry =>
    refine ⟨starEntry target name, ?_⟩
    simp [entry_addStar hentry]

section

variable (hid : id ∈ g.evaluationOrder)

include hid

theorem expandStar_ok {d : ExportNamesDecl}
    (hd : d ∈ exports (g.body id)) (h : expandStar g id st d = .ok st') : Run g st st' ∧
      ((!d.isStar || d.starAlias ≠ "") = false → ∀ n, n ≠ "default" →
        st.1.Present (g.dep id d.fromSpecifier, n) → st'.1.Present (id, n)) := by
  rw [expandStar] at h
  split_ifs at h with hstar
  · cases h
    refine ⟨.refl, fun hfalse => ?_⟩
    rw [hfalse] at hstar
    cases hstar
  · have htarget := mem_starTargets.mpr ⟨d, hd, Bool.eq_false_iff.mpr hstar, rfl⟩
    let P (pre : List String) (st₁ : Info × Bool) : Prop :=
      Run g st st₁ ∧ ∀ n ∈ pre, n ≠ "default" → st₁.1.Present (id, n)
    have hstep : ∀ pre n suf st₁ st₂,
        (st.1 (g.dep id d.fromSpecifier)).exports.map (·.1) = pre ++ n :: suf → P pre st₁ →
        expandName id (g.dep id d.fromSpecifier) st₁ n = .ok st₂ → P (pre ++ [n]) st₂ := by
      intro pre n suf st₁ st₂ hnames hpre hrun
      have hstep := expandNames_step hid htarget hnames hpre.1 hrun
      refine ⟨hpre.1.tail hstep, fun n' hn' hname => ?_⟩
      rcases mem_append.mp hn' with hn' | hn'
      · exact hstep.grows.present (hpre.2 n' hn' hname)
      · obtain rfl := mem_singleton.mp hn'
        exact expandName_present hrun hname
    obtain ⟨hrun, hpresent⟩ := foldlM_ok (P := P) h ⟨.refl, nofun⟩ hstep
    exact ⟨hrun, fun _ n hname hn => hpresent n hn hname⟩

theorem expandStarExports_ok
    (h : expandStarExports g st id = .ok st') : Run g st st' ∧ ∀ t ∈ starTargets g id, ∀ n,
      n ≠ "default" → st.1.Present (t, n) → st'.1.Present (id, n) := by
  let P (pre : List ExportNamesDecl) (st₁ : Info × Bool) : Prop :=
    Run g st st₁ ∧ ∀ d ∈ pre, (!d.isStar || d.starAlias ≠ "") = false → ∀ n, n ≠ "default" →
      st.1.Present (g.dep id d.fromSpecifier, n) → st₁.1.Present (id, n)
  have hstep : ∀ pre d suf st₁ st₂, exports (g.body id) = pre ++ d :: suf → P pre st₁ →
      expandStar g id st₁ d = .ok st₂ → P (pre ++ [d]) st₂ := by
    intro pre d suf st₁ st₂ hexports hpre hrun
    have hd : d ∈ exports (g.body id) := by
      rw [hexports]
      exact mem_append_right pre (mem_cons_self ..)
    obtain ⟨hrun, hnew⟩ := expandStar_ok hid hd hrun
    refine ⟨hpre.1.trans hrun, fun d' hd' hstar n hname hn => ?_⟩
    rcases mem_append.mp hd' with hd' | hd'
    · exact hrun.grows.present (hpre.2 d' hd' hstar n hname hn)
    · obtain rfl := mem_singleton.mp hd'
      exact hnew hstar n hname (hpre.1.grows.present hn)
  obtain ⟨hrun, hpresent⟩ := foldlM_ok (P := P) h ⟨.refl, nofun⟩ hstep
  refine ⟨hrun, fun t ht n hname hn => ?_⟩
  obtain ⟨d, hd, hstar, rfl⟩ := mem_starTargets.mp ht
  exact hpresent d hd hstar n hname hn

theorem expandStarExports_error {err : LinkError}
    (h : expandStarExports g st id = .error err) : ∃ st₁, Run g st st₁ ∧ ∃ t ∈ starTargets g id,
      ∃ n, st₁.1.Present (t, n) ∧ expandName id t st₁ n = .error err := by
  have hmem : ∀ {pre suf : List ExportNamesDecl} {d}, exports (g.body id) = pre ++ d :: suf →
      d ∈ exports (g.body id) := by
    intro pre suf d hexports
    rw [hexports]
    exact mem_append_right pre (mem_cons_self ..)
  obtain ⟨pre, d, suf, st₁, hexports, hrun, herror⟩ :=
    foldlM_error (P := fun _ st₁ => Run g st st₁) h .refl fun _ d _ _ _ hexports hpre hrun =>
      hpre.trans (expandStar_ok hid (hmem hexports) hrun).1
  rw [expandStar] at herror
  split_ifs at herror with hstar
  have htarget := mem_starTargets.mpr ⟨d, hmem hexports, Bool.eq_false_iff.mpr hstar, rfl⟩
  obtain ⟨pre', n, suf', st₂, hnames, hrun', herror⟩ :=
    foldlM_error (P := fun _ st₂ => Run g st₁ st₂) herror .refl fun _ n _ _ _ hnames hpre hrun =>
      hpre.tail (expandNames_step hid htarget hnames hpre hrun)
  refine ⟨st₂, hrun.trans hrun', _, htarget, n, hrun'.grows.present ?_, herror⟩
  rw [Present, hnames]
  exact mem_append_right pre' (mem_cons_self ..)

end

/-- The settled exports of the modules are in their tables. -/
def Found (g : Loader Path) (modules : List Nat) (info : Info) : Prop :=
  ∀ m ∈ modules, ∀ n, Settled g (m, n) → (∃ r, Answers (exportKind g) (m, n) r) →
    info.Present (m, n)

variable {modules : List Nat}

theorem Found.grows (h : Found g modules info) (hgrows : Grows info info') :
    Found g modules info' :=
  fun m hm n hsettled hr => hgrows.present (h m hm n hsettled hr)

theorem Answers.own_or_star {r : Resolution} (h : Answers (exportKind g) e r) :
    Own g e ∨ ¬Own g e ∧ e.2 ≠ "default" ∧
      ∃ t ∈ starTargets g e.1, Answers (exportKind g) (t, e.2) r := by
  by_cases hown : Own g e
  · exact .inl hown
  · rcases h.cases with hkind | ⟨e', hnext, hr⟩
    · exact absurd (own_of_kind_answer hkind) hown
    · obtain ⟨hname, heq, htarget⟩ := (next_of_not_own hown).mp hnext
      refine .inr ⟨hown, hname, e'.1, htarget, ?_⟩
      rwa [← heq]

/-- The steps of a module find its settled exports, after the modules before it. -/
theorem Found.module (h : Found g modules st.1) (hinv : Inv g st.1)
    (hid : id ∈ g.evaluationOrder) (hbefore : ∀ m, Precedes g m id → m ∈ modules)
    (hrun : expandStarExports g st id = .ok st') : Found g (modules ++ [id]) st'.1 := by
  obtain ⟨hsteps, hnew⟩ := expandStarExports_ok hid hrun
  intro m hm n hsettled hr
  rcases mem_append.mp hm with hm | hm
  · exact h.grows hsteps.grows m hm n hsettled hr
  obtain rfl := mem_singleton.mp hm
  obtain ⟨r, hr⟩ := hr
  rcases Answers.own_or_star hr with hown | ⟨hnot, hname, t, ht, hr⟩
  · exact hsteps.grows.present (hinv.present_of_own hown)
  · apply hnew t ht n hname
    cases hsettled with
    | own hown => exact absurd hown hnot
    | stars _ hbelow hprecedes =>
      rcases hprecedes t ht ⟨r, hr⟩ with hown | hprecedes
      · exact hinv.present_of_own hown
      · exact h t (hbefore t hprecedes) n (hbelow t ht ⟨r, hr⟩) ⟨r, hr⟩

section Pass

variable {changed : Bool}

variable (hg : Linkable g)

include hg

variable (hinv : Inv g info)

include hinv

theorem expandAll_step {pre suf : List Nat}
    {st₁ st₂ : Info × Bool} (horder : g.evaluationOrder = pre ++ id :: suf)
    (hpre : Run g (info, changed) st₁ ∧ Found g pre st₁.1)
    (hrun : expandStarExports g st₁ id = .ok st₂) :
    Run g (info, changed) st₂ ∧ Found g (pre ++ [id]) st₂.1 := by
  have hid : id ∈ g.evaluationOrder := by
    rw [horder]
    exact mem_append_right pre (mem_cons_self ..)
  refine ⟨hpre.1.trans (expandStarExports_ok hid hrun).1,
    hpre.2.module (hinv.run hpre.1) hid (fun m hm => ?_) hrun⟩
  exact hm.mem_of_order hg.nodup horder

/-- **A pass finds what is settled.** -/
theorem expandAll_ok
    (h : g.evaluationOrder.foldlM (expandStarExports g) (info, changed) = .ok st') :
    Run g (info, changed) st' ∧ Found g g.evaluationOrder st'.1 :=
  foldlM_ok (P := fun pre st => Run g (info, changed) st ∧ Found g pre st.1) h ⟨.refl, nofun⟩
    fun _ _ _ _ _ horder hpre hrun => expandAll_step hg hinv horder hpre hrun

/-- A pass fails at a name of a star target, with everything settled found of the modules before. -/
theorem expandAll_error {err : LinkError} (h : expandAll g info = .error err) :
    ∃ pre id suf st₁, g.evaluationOrder = pre ++ id :: suf ∧ Run g (info, false) st₁ ∧
      Found g pre st₁.1 ∧ ∃ t ∈ starTargets g id, ∃ n,
        st₁.1.Present (t, n) ∧ expandName id t st₁ n = .error err := by
  obtain ⟨pre, id, suf, st₁, horder, ⟨hrun, hfound⟩, herror⟩ :=
    foldlM_error (P := fun pre st => Run g (info, false) st ∧ Found g pre st.1) h ⟨.refl, nofun⟩
      fun _ _ _ _ _ horder hpre hrun => expandAll_step hg hinv horder hpre hrun
  have hid : id ∈ g.evaluationOrder := by
    rw [horder]
    exact mem_append_right pre (mem_cons_self ..)
  obtain ⟨st₂, hrun', ht⟩ := expandStarExports_error hid herror
  exact ⟨pre, id, suf, st₂, horder, hrun.trans hrun', hfound.grows hrun'.grows, ht⟩

end Pass

/-- **A pass that changes nothing has compared** every name of every star target. -/
theorem expandAll_stable (h : expandAll g info = .ok (info', false)) : info' = info ∧
    ∀ id ∈ g.evaluationOrder, ∀ t ∈ starTargets g id, ∀ n, info.Present (t, n) →
      Expansion info id t n false (info, false) := by
  -- no step that adds a name is silent
  have hname : ∀ id t (st : Info × Bool) n st', expandName id t st n = .ok st' →
      st'.2 = false → st' = st := by
    intro id t st n st' hrun hsilent
    cases expandName_ok hrun with
    | added => cases hsilent
    | default | own | agreed => rfl
  have hstar : ∀ id (st : Info × Bool) d st', expandStar g id st d = .ok st' →
      st'.2 = false → st' = st := by
    intro id st d st' hrun hsilent
    rw [expandStar] at hrun
    split_ifs at hrun
    · cases hrun
      rfl
    · exact (foldlM_stable hrun hsilent (hname id _)).1
  have hmodule : ∀ (st : Info × Bool) id st', expandStarExports g st id = .ok st' →
      st'.2 = false → st' = st :=
    fun st id st' hrun hsilent => (foldlM_stable hrun hsilent (hstar id)).1
  obtain ⟨heq, hmodules⟩ := foldlM_stable h rfl hmodule
  obtain rfl := (Prod.mk.inj heq).1
  refine ⟨rfl, fun id hid t ht n hn => ?_⟩
  obtain ⟨d, hd, hfrom, rfl⟩ := mem_starTargets.mp ht
  obtain ⟨-, hstars⟩ := foldlM_stable (hmodules id hid) rfl (hstar id)
  have hrun := hstars d hd
  rw [expandStar, if_neg (by rw [hfrom]; exact Bool.false_ne_true)] at hrun
  obtain ⟨-, hnames⟩ := foldlM_stable hrun rfl (hname id _)
  exact expandName_ok (hnames n hn)

end Expand

end Bronze.Modules
