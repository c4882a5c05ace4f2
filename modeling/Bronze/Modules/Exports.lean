import Bronze.Modules.Tables

/-!
# The star expansion and the chains of pointers

No step takes an entry away, and only names that some module writes are added, so the star expansion
ends. An import is bound to the definition that a chain of pointers ends at; every pointer goes
where the search of the standard may go.

## Main results

* `expandAll_ends`: the star expansion ends
* `resolveExport_ok`: the linker follows chains of at most 64 exports
* `Chain.leaf`, `Chain.path`: a chain is a path to an answer that meets no export twice
-/

namespace Bronze.Modules

open Graph Fixpoint
open List Nat Option Info

variable {Path : Type} {g : Loader Path} {info info' : Info} {e e' : Export}

section Ends

/-- Every table has each name once, and only names that some module writes. -/
def Bounded (names : List String) (info : Info) : Prop :=
  ∀ id, ((info id).exports.map (·.1)).Nodup ∧ ∀ n ∈ (info id).exports.map (·.1), n ∈ names

variable {names : List String} {st st' : Info × Bool}

theorem Bounded.step (h : Bounded names st.1) (hstep : Step g st st') : Bounded names st'.1 := by
  rcases hstep.cases with rfl | ⟨id, -, target, -, name, hpresent, -, hentry, rfl⟩
  · exact h
  intro id'
  have hnot : name ∉ (st.1 id).exports.map (·.1) := by
    intro hmem
    obtain ⟨entry, hsome⟩ := present_iff.mp (show st.1.Present (id, name) from hmem)
    rw [hentry] at hsome
    cases hsome
  rw [exports_addStar, map_append]
  split_ifs with heq
  · subst heq
    rw [map_singleton, ← concat_eq_append]
    refine ⟨(h id').1.concat hnot, fun n hn => ?_⟩
    rw [concat_eq_append] at hn
    rcases mem_append.mp hn with hn | hn
    · exact (h id').2 n hn
    · rw [mem_singleton.mp hn]
      exact (h target).2 name hpresent
  · rw [map_nil, append_nil]
    exact h id'

theorem Bounded.run (h : Bounded names st.1) (hrun : Run g st st') : Bounded names st'.1 := by
  induction hrun with
  | refl => exact h
  | tail _ hstep ih => exact ih.step hstep

/-- The number of the entries in all tables. -/
def entries (g : Loader Path) (info : Info) : Nat :=
  (g.evaluationOrder.map fun id => (info id).exports.length).sum

theorem entries_le (h : Bounded names info) :
    entries g info ≤ g.evaluationOrder.length * names.length := by
  have hle := sum_le_card_nsmul (g.evaluationOrder.map fun id => (info id).exports.length)
    names.length fun k hk => by
      obtain ⟨id, -, rfl⟩ := mem_map.mp hk
      rw [← length_map (·.1)]
      exact ((h id).1.subperm (h id).2).length_le
  rwa [length_map] at hle

theorem entries_addStar {id target : Nat} {name : String} (hid : id ∈ g.evaluationOrder) :
    entries g info < entries g (info.addStar id target name) := by
  have hlength : ∀ id', ((info.addStar id target name) id').exports.length =
      (info id').exports.length + if id' = id then 1 else 0 := by
    intro id'
    rw [exports_addStar, length_append]
    split_ifs <;> rfl
  apply sum_lt_sum
  · intro id' _
    rw [hlength]
    exact Nat.le_add_right ..
  · refine ⟨id, hid, ?_⟩
    rw [hlength, if_pos rfl]
    exact lt_succ_self _

theorem Run.entries (h : Run g st st') (hsilent : st.2 = false) :
    entries g st.1 ≤ entries g st'.1 ∧
      (st'.2 = true → entries g st.1 < entries g st'.1) := by
  induction h with
  | refl =>
    refine ⟨le_refl _, fun hchanged => ?_⟩
    rw [hsilent] at hchanged
    cases hchanged
  | @tail st₁ st₂ _ hstep ih =>
    rcases hstep.cases with rfl | ⟨id, hid, target, -, name, -, -, -, rfl⟩
    · exact ih
    · have hlt : Modules.entries g st.1 < Modules.entries g (st₁.1.addStar id target name) :=
        lt_of_le_of_lt ih.1 (entries_addStar hid)
      exact ⟨le_of_lt hlt, fun _ => hlt⟩

theorem lookup_of_forall₂ {α β : Type} {R : α → β → Prop} {l : List (String × α)}
    {l' : List (String × β)} (h : List.Forall₂ (fun x y => x.1 = y.1 ∧ R x.2 y.2) l l')
    {n : String} {b : β} (hb : l'.lookup n = some b) : ∃ a, l.lookup n = some a ∧ R a b := by
  induction h with
  | nil => cases hb
  | @cons x y l l' hxy _ ih =>
    rw [lookup_cons] at hb ⊢
    rw [hxy.1]
    cases heq : n == y.1 with
    | true =>
      rw [heq] at hb
      obtain rfl := some.inj hb
      exact ⟨x.2, rfl, hxy.2⟩
    | false =>
      rw [heq] at hb
      exact ih hb

theorem mem_order_of_own (hg : Linkable g) (h : Own g e) : e.1 ∈ g.evaluationOrder := by
  apply hg.complete
  by_contra hle
  rw [Own, exportRecords, body_of_length_le (not_lt.mp hle)] at h
  exact absurd h not_mem_nil

theorem mem_order_of_star (hg : Linkable g) {t id : Nat} (h : t ∈ starTargets g id) :
    id ∈ g.evaluationOrder := by
  apply hg.complete
  by_contra hle
  rw [starTargets, body_of_length_le (not_lt.mp hle)] at h
  exact absurd h not_mem_nil

variable {tables : Tables}

theorem Collected.inv (hg : Linkable g)
    (h : Collected g g.evaluationOrder tables) : Inv g tables.info := by
  have hpresent : ∀ e, tables.info.Present e → Own g e := by
    intro e he
    by_cases hid : e.1 ∈ g.evaluationOrder
    · have hnames : (tables.info e.1).exports.map (·.1) = (exportRecords g e.1).map (·.1) :=
        forall₂_eq_eq_eq ▸ forall₂_map_left_iff.mpr (forall₂_map_right_iff.mpr
          ((h.collects e.1 hid).exports.imp fun x r hx => hx.1))
      rwa [Present, hnames] at he
    · rw [Present, h.empty e.1 hid] at he
      exact absurd he not_mem_nil
  refine ⟨?_, ?_, ?_, ?_⟩
  · intro e record hrecord
    have hid := mem_order_of_own hg (own_iff.mpr ⟨record, hrecord⟩)
    exact lookup_of_forall₂ (R := fun entry record => entry.fromStar = false ∧
      Represents (tables.info e.1) entry record) (h.collects e.1 hid).exports hrecord
  · intro e entry hown hentry
    exact absurd (hpresent e (present_iff.mpr ⟨entry, hentry⟩)) hown
  · intro e he
    exact ⟨e, .own (hpresent e he)⟩
  · exact fun id hid => (h.collects id hid).imports

theorem Collected.bounded (h : Collected g g.evaluationOrder tables) :
    Bounded (g.evaluationOrder.flatMap fun id => (tables.info id).exports.map (·.1))
      tables.info := by
  intro id
  by_cases hid : id ∈ g.evaluationOrder
  · exact ⟨(h.collects id hid).nodup, fun n hn => mem_flatMap.mpr ⟨id, hid, hn⟩⟩
  · rw [h.empty id hid]
    exact ⟨nodup_nil, nofun⟩

/-- **The star expansion ends**: with tables that one more pass leaves as they are, or as a pass
fails. -/
theorem expandAll_ends (hg : Linkable g)
    (h : Collected g g.evaluationOrder tables) :
    ∃ info₀, Inv g info₀ ∧ Grows tables.info info₀ ∧
      match untilUnchanged .outOfFuel (expandAll g) (maxPasses g tables.info + 1) tables.info with
      | .ok info' => expandAll g info₀ = .ok (info', false)
      | .error err => expandAll g info₀ = .error err := by
  let names := g.evaluationOrder.flatMap fun id => (tables.info id).exports.map (·.1)
  have hnames : maxPasses g tables.info = g.evaluationOrder.length * names.length := by
    rw [maxPasses, length_flatMap]
    simp
  let P (info : Info) : Prop := Inv g info ∧ Grows tables.info info ∧ Bounded names info
  have hpass : ∀ info info' changed, P info → expandAll g info = .ok (info', changed) →
      P info' ∧ (changed = true → entries g info < entries g info') := by
    intro info info' changed hP hrun
    have hsteps := (expandAll_ok hg hP.1 hrun).1
    exact ⟨⟨hP.1.run hsteps, hP.2.1.trans hsteps.grows, hP.2.2.run hsteps⟩, (hsteps.entries rfl).2⟩
  have hfuel : g.evaluationOrder.length * names.length <
      entries g tables.info + (maxPasses g tables.info + 1) := by omega
  obtain ⟨info₀, hP, hrun⟩ := untilUnchanged_spec hpass (fun info hP => entries_le hP.2.2)
    ⟨h.inv hg, .refl _, h.bounded⟩ hfuel
  refine ⟨info₀, hP.1, hP.2.1, ?_⟩
  cases hend : untilUnchanged .outOfFuel (expandAll g) (maxPasses g tables.info + 1)
    tables.info with
  | ok info' =>
    rw [hend] at hrun
    exact hrun
  | error err =>
    rw [hend] at hrun
    exact hrun

end Ends

/-- `Chain info e d n`: following `n` exports from `e` ends at the definition `d`. -/
inductive Chain (info : Info) : Export → Nat × LocalName → Nat → Prop
  | last {e : Export} {entry : ExportEntry} (hentry : info.entry e = some entry)
      (hdirect : entry.indirect = false) : Chain info e (e.1, entry.localName) 1
  | hop {e : Export} {entry : ExportEntry} {d : Nat × LocalName} {n : Nat}
      (hentry : info.entry e = some entry) (hindirect : entry.indirect = true)
      (h : Chain info (entry.targetModule, entry.targetName) d n) : Chain info e d (n + 1)

section Chain

variable {d d' : Nat × LocalName} {n n' : Nat}

theorem Chain.unique (h : Chain info e d n) (h' : Chain info e d' n') : d = d' ∧ n = n' := by
  induction h generalizing d' n' with
  | last hentry hdirect =>
    cases h' with
    | last hentry' =>
      obtain rfl := some.inj (hentry.symm.trans hentry')
      exact ⟨rfl, rfl⟩
    | hop hentry' hindirect =>
      obtain rfl := some.inj (hentry.symm.trans hentry')
      rw [hdirect] at hindirect
      cases hindirect
  | hop hentry hindirect _ ih =>
    cases h' with
    | last hentry' hdirect =>
      obtain rfl := some.inj (hentry.symm.trans hentry')
      rw [hdirect] at hindirect
      cases hindirect
    | hop hentry' _ h' =>
      obtain rfl := some.inj (hentry.symm.trans hentry')
      obtain ⟨rfl, rfl⟩ := ih h'
      exact ⟨rfl, rfl⟩

/-- `resolveExport` follows a chain, if it is not longer than the hops it may take. -/
theorem resolveHops_ok {name : String} {hops : Nat} :
    resolveHops info name hops e = .ok d ↔ ∃ n ≤ hops, Chain info e d n := by
  induction hops generalizing e with
  | zero =>
    constructor
    · intro h
      cases h
    · rintro ⟨n, hn, h⟩
      cases h <;> omega
  | succ hops ih =>
    obtain ⟨m, want⟩ := e
    rw [resolveHops]
    cases hentry : info.entry (m, want) with
    | none =>
      constructor
      · intro h
        cases h
      · rintro ⟨n, -, h⟩
        cases h with
        | last hentry' | hop hentry' =>
          rw [hentry] at hentry'
          cases hentry'
    | some entry =>
      dsimp only
      by_cases hindirect : entry.indirect = true
      · rw [if_pos hindirect, ih]
        constructor
        · rintro ⟨n, hn, h⟩
          exact ⟨n + 1, succ_le_succ hn, .hop hentry hindirect h⟩
        · rintro ⟨n, hn, h⟩
          cases h with
          | last hentry' hdirect =>
            obtain rfl := some.inj (hentry.symm.trans hentry')
            rw [hdirect] at hindirect
            cases hindirect
          | hop hentry' _ h =>
            obtain rfl := some.inj (hentry.symm.trans hentry')
            exact ⟨_, le_of_succ_le_succ hn, h⟩
      · rw [if_neg hindirect]
        constructor
        · intro h
          obtain rfl := Except.ok.inj h
          exact ⟨1, by omega, .last hentry (Bool.eq_false_iff.mpr hindirect)⟩
        · rintro ⟨n, -, h⟩
          cases h with
          | last hentry' =>
            obtain rfl := some.inj (hentry.symm.trans hentry')
            rfl
          | hop hentry' hindirect' =>
            obtain rfl := some.inj (hentry.symm.trans hentry')
            exact absurd hindirect' hindirect

theorem resolveExport_ok {m : Nat} {name : String} :
    resolveExport info m name = .ok d ↔ ∃ n ≤ 64, Chain info (m, name) d n :=
  resolveHops_ok

/-- The definition is the binding, or holds the namespace object of its module. -/
def Binds (info : Info) (d : Nat × LocalName) (r : Resolution) : Prop :=
  match r.bindingName with
  | .name local_ => d = (r.module, .source local_)
  | .namespace_ => ∃ counter, d.2 = .synthetic counter ∧
      (info d.1).namespaceLocals.lookup d.2 = some r.module

theorem Binds.unique {r r' : Resolution} (h : Binds info d r) (h' : Binds info d r') : r = r' := by
  obtain ⟨m, b⟩ := r
  obtain ⟨m', b'⟩ := r'
  cases b with
  | name l =>
    cases b' with
    | name l' =>
      obtain ⟨rfl, hname⟩ := Prod.mk.inj (h.symm.trans h')
      rw [LocalName.source.inj hname]
    | namespace_ =>
      obtain ⟨counter, hname, -⟩ := h'
      rw [show d = (m, .source l) from h] at hname
      cases hname
  | namespace_ =>
    obtain ⟨counter, hname, hlookup⟩ := h
    cases b' with
    | name l' =>
      rw [show d = (m', .source l') from h'] at hname
      cases hname
    | namespace_ =>
      obtain ⟨-, -, hlookup'⟩ := h'
      obtain rfl := some.inj (hlookup.symm.trans hlookup')
      rfl

variable {entry : ExportEntry}

/-- An entry of the module's own represents its record. -/
theorem Inv.represents (h : Inv g info) (hentry : info.entry e = some entry) {record : ExportRecord}
    (hrecord : (exportRecords g e.1).lookup e.2 = some record) :
    Represents (info e.1) entry record := by
  obtain ⟨entry', hentry', -, hrepresents⟩ := h.own e record hrecord
  obtain rfl := some.inj (hentry.symm.trans hentry')
  exact hrepresents

theorem Inv.next (h : Inv g info) (hentry : info.entry e = some entry)
    (hindirect : entry.indirect = true) :
    (entry.targetModule, entry.targetName) ∈ (exportKind g e).next := by
  by_cases hown : Own g e
  · obtain ⟨record, hrecord⟩ := own_iff.mp hown
    have hrepresents := h.represents hentry hrecord
    rw [exportKind, hrecord]
    cases record with
    | local_ | namespace_ =>
      have hdirect := hrepresents.1
      rw [hindirect] at hdirect
      cases hdirect
    | indirect m n =>
      rw [hrepresents.2.1, hrepresents.2.2]
      exact mem_singleton_self _
  · obtain ⟨heq, htarget, hname⟩ := h.star e entry hown hentry
    rw [next_of_not_own hown]
    refine ⟨hname, ?_, htarget⟩
    rw [heq]
    rfl

theorem Inv.answer (h : Inv g info) (hentry : info.entry e = some entry)
    (hdirect : entry.indirect = false) :
    ∃ r, exportKind g e = .answer r ∧ Binds info (e.1, entry.localName) r := by
  by_cases hown : Own g e
  · obtain ⟨record, hrecord⟩ := own_iff.mp hown
    have hrepresents := h.represents hentry hrecord
    rw [exportKind, hrecord]
    cases record with
    | local_ name => exact ⟨_, rfl, congrArg _ hrepresents.2⟩
    | namespace_ module =>
      obtain ⟨-, counter, hname, hlookup⟩ := hrepresents
      exact ⟨_, rfl, counter, hname, hname ▸ hlookup⟩
    | indirect m n =>
      have hindirect := hrepresents.1
      rw [hdirect] at hindirect
      cases hindirect
  · obtain ⟨heq, -, -⟩ := h.star e entry hown hentry
    rw [heq] at hdirect
    cases hdirect

theorem Chain.leaf (hinv : Inv g info) (h : Chain info e d n) : ∃ w entry r,
    Leads (exportKind g) e w ∧ exportKind g w = .answer r ∧ info.entry w = some entry ∧
      d = (w.1, entry.localName) ∧ Binds info d r := by
  induction h with
  | last hentry hdirect =>
    obtain ⟨r, hkind, hbinds⟩ := hinv.answer hentry hdirect
    exact ⟨_, _, r, .refl, hkind, hentry, rfl, hbinds⟩
  | hop hentry hindirect _ ih =>
    obtain ⟨w, entry, r, hleads, hrest⟩ := ih
    exact ⟨w, entry, r, hleads.head (hinv.next hentry hindirect), hrest⟩

theorem Chain.answers (hinv : Inv g info) (h : Chain info e d n) :
    ∃ r, Answers (exportKind g) e r ∧ Binds info d r := by
  obtain ⟨w, entry, r, hleads, hkind, -, -, hbinds⟩ := h.leaf hinv
  exact ⟨r, ⟨w, hleads, hkind⟩, hbinds⟩

theorem Chain.path (hinv : Inv g info) (h : Chain info e d n) :
    ∃ path : List Export, path.length = n ∧ path.head? = some e ∧
      path.IsChain (fun a b => b ∈ (exportKind g a).next) ∧ path.Nodup ∧
        ∀ x ∈ path, ∃ k ≤ n, Chain info x d k := by
  induction h with
  | @last e entry hentry hdirect =>
    refine ⟨[e], rfl, rfl, .singleton e, nodup_singleton e, fun x hx => ?_⟩
    rw [mem_singleton.mp hx]
    exact ⟨1, le_refl _, .last hentry hdirect⟩
  | @hop e entry d n hentry hindirect h ih =>
    obtain ⟨path, hlength, hhead, hchain, hnodup, hmem⟩ := ih
    refine ⟨e :: path, congrArg succ hlength, rfl, ?_, nodup_cons.mpr ⟨?_, hnodup⟩, ?_⟩
    · refine isChain_cons.mpr ⟨fun x hx => ?_, hchain⟩
      rw [hhead] at hx
      rw [← some.inj hx]
      exact hinv.next hentry hindirect
    · -- the chain from a later export is shorter
      intro hx
      obtain ⟨k, hk, hchain'⟩ := hmem e hx
      have hlength := ((Chain.hop hentry hindirect h).unique hchain').2
      omega
    · intro x hx
      rcases mem_cons.mp hx with rfl | hx
      · exact ⟨n + 1, le_refl _, .hop hentry hindirect h⟩
      · obtain ⟨k, hk, hchain'⟩ := hmem x hx
        exact ⟨k, le_succ_of_le hk, hchain'⟩

end Chain

end Bronze.Modules
