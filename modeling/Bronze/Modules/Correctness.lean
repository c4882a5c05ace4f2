import Bronze.Modules.Exports

/-!
# Linking resolves exports as the standard does

When no table grows any more, every star of a module has been compared with the entry it would give,
so the definition that a chain of pointers ends at is the only one the export leads to. The linker
is stricter than the standard by design: it refuses a name that two stars give differently even if
nothing imports it, and a chain of more than 64 exports.

## Main results

* `load_linkable`: the order of a graph that was loaded
* `Expanded.binds`: an export leads to nothing but the definition of its chain
* `Clean.expandAll_ne_error`: the star expansion of a clean graph does not fail
* `link_resolves`: the linker ends, binds imports as the standard does, and refuses no clean graph
-/

namespace Bronze.Modules

open Graph Fixpoint
open List Option Relation.ReflTransGen Info Kind Loader

variable {Path : Type} {g : Loader Path} {info info' : Info} {e e' : Export}

variable {id : Nat} {local_ : String} {err : LinkError}

theorem load_linkable [DecidableEq Path] {disk : Disk Path} {entry : Path}
    (h : loadGraph disk entry = .ok (id, g)) : Linkable g := by
  obtain ⟨hwalks, -⟩ := load_walks (Inv.start disk) h
  obtain ⟨out, entries, hvisits, horder⟩ := hwalks.visits
  obtain rfl : g.order = out := horder
  -- an id of the order stands for its path
  have hpath : ∀ id ∈ g.evaluationOrder, ∃ path, g.paths[id]? = some path := by
    intro id hid
    have hlt := hwalks.inv.order id hid
    rw [← length_paths] at hlt
    exact ⟨_, getElem?_eq_getElem hlt⟩
  constructor
  · have hsome : g.evaluationOrder.map (g.paths[·]?) = g.order.map some := by
      rw [order]
      generalize g.evaluationOrder = ids at hpath ⊢
      induction ids with
      | nil => rfl
      | cons id ids ih =>
        obtain ⟨path, hid⟩ := hpath id (mem_cons_self ..)
        simp [hid, ih fun id hid => hpath id (mem_cons_of_mem _ hid)]
    refine Nodup.of_map (g.paths[·]?) ?_
    rw [hsome]
    exact hvisits.nodup.map (some_injective Path)
  · intro id hlt
    rw [← length_paths] at hlt
    have hmem : g.paths[id] ∈ g.order := by
      have hseen := (hvisits.mem_seen g.paths[id]).mp (mem_reverse.mpr (getElem_mem hlt))
      exact hseen.resolve_left not_mem_nil
    obtain ⟨id', hid', hget⟩ := List.mem_filterMap.mp hmem
    obtain ⟨hlt', hget⟩ := List.getElem?_eq_some_iff.mp hget
    rwa [← (hwalks.inv.nodup.getElem_inj_iff).mp hget]

structure Expanded (g : Loader Path) (info : Info) : Prop where
  inv : Inv g info
  stars : ∀ id t n, t ∈ starTargets g id → info.Present (t, n) →
    Expansion info id t n false (info, false)

namespace Expanded

variable {d : Nat × LocalName} {n : Nat} {r r' : Resolution}

variable (h : Expanded g info)

include h

theorem agreed {id t : Nat} {name : String} (hown : ¬Own g (id, name))
    (hname : name ≠ "default") (ht : t ∈ starTargets g id) (hpresent : info.Present (t, name)) :
    ∃ entry d, info.entry (id, name) = some entry ∧ entry.fromStar = true ∧
      resolveExport info entry.targetModule entry.targetName = .ok d ∧
        resolveExport info t name = .ok d := by
  obtain ⟨entry, hentry, hfrom | ⟨hstar, d, hleft, hright⟩⟩ :=
    (h.stars id t name ht hpresent).unchanged rfl hname
  · obtain ⟨heq, -, -⟩ := h.inv.star _ _ hown hentry
    rw [heq] at hfrom
    cases hfrom
  · exact ⟨entry, d, hentry, hstar, hleft, hright⟩

theorem present (hr : Answers (exportKind g) e r) : info.Present e := by
  obtain ⟨w, hw, hkind⟩ := hr
  induction hw using head_induction_on with
  | refl => exact h.inv.present_of_own (own_of_kind_answer hkind)
  | @head e e' hnext _ ih =>
    by_cases hown : Own g e
    · exact h.inv.present_of_own hown
    · obtain ⟨hname, heq, ht⟩ := (next_of_not_own hown).mp hnext
      have hpresent : info.Present (e'.1, e.2) := by rwa [← heq]
      obtain ⟨entry, -, hentry, -⟩ := h.agreed hown hname ht hpresent
      exact present_iff.mpr ⟨entry, hentry⟩

/-- **An export leads to nothing but the definition of its chain.** -/
theorem binds (hchain : Chain info e d n) (hn : n ≤ 64)
    (hr : Answers (exportKind g) e r) : Binds info d r := by
  obtain ⟨w, hw, hkind⟩ := hr
  induction hw using head_induction_on generalizing n with
  | refl =>
    cases hchain with
    | last hentry hdirect =>
      obtain ⟨r', hkind', hbinds⟩ := h.inv.answer hentry hdirect
      obtain rfl := answer.inj (hkind.symm.trans hkind')
      exact hbinds
    | hop hentry hindirect =>
      have hnext := h.inv.next hentry hindirect
      rw [hkind] at hnext
      exact absurd hnext not_mem_nil
  | @head e e' hnext hw ih =>
    cases hchain with
    | last hentry hdirect =>
      obtain ⟨r', hkind', -⟩ := h.inv.answer hentry hdirect
      rw [hkind'] at hnext
      exact absurd hnext not_mem_nil
    | @hop _ entry _ n hentry hindirect hchain =>
      by_cases hown : Own g e
      · -- the pointer of a record goes where the search goes
        have hkind' := kind_of_next_of_own hown hnext
        have hpointer := h.inv.next hentry hindirect
        rw [hkind', next_forward, mem_singleton] at hpointer
        rw [hpointer] at hchain
        exact ih hchain (by omega)
      · -- another star agrees with the one the pointer goes to
        obtain ⟨hname, heq, ht⟩ := (next_of_not_own hown).mp hnext
        have hpresent : info.Present (e'.1, e.2) := by
          rw [← heq]
          exact h.present ⟨w, hw, hkind⟩
        obtain ⟨entry', d', hentry', -, hleft, hright⟩ := h.agreed hown hname ht hpresent
        obtain rfl := some.inj (hentry.symm.trans hentry')
        obtain ⟨n₁, -, hchain₁⟩ := resolveExport_ok.mp hleft
        obtain ⟨n₂, hn₂, hchain₂⟩ := resolveExport_ok.mp hright
        obtain ⟨rfl, -⟩ := hchain.unique hchain₁
        rw [← heq] at hchain₂
        exact ih hchain₂ hn₂

theorem resolveExport_found (hresolve : resolveExport info e.1 e.2 = .ok d) :
    ∃ r, ResolveExport g e (.found r) ∧ Binds info d r := by
  obtain ⟨n, hn, hchain⟩ := resolveExport_ok.mp hresolve
  obtain ⟨r, hr, hbinds⟩ := hchain.answers h.inv
  refine ⟨r, resolveExport_found_iff.mpr ⟨hr, fun r' hr' => ?_⟩, hbinds⟩
  exact (h.binds hchain hn hr').unique hbinds

theorem answers_unique (hr : Answers (exportKind g) e r)
    (hr' : Answers (exportKind g) e r') : r = r' := by
  obtain ⟨w, hw, hkind⟩ := hr
  induction hw using head_induction_on with
  | refl =>
    rcases hr'.cases with hkind' | ⟨e', hnext, -⟩
    · exact answer.inj (hkind.symm.trans hkind')
    · rw [hkind] at hnext
      exact absurd hnext not_mem_nil
  | @head e e₁ hnext hw ih =>
    rcases hr'.cases with hkind' | ⟨e₂, hnext₂, hr₂⟩
    · rw [hkind'] at hnext
      exact absurd hnext not_mem_nil
    by_cases hown : Own g e
    · have heq := (kind_of_next_of_own hown hnext).symm.trans (kind_of_next_of_own hown hnext₂)
      rw [← forward.inj heq] at hr₂
      exact ih hr₂
    · -- both stars agree with the entry
      have hstar : ∀ {e' r}, e' ∈ (exportKind g e).next → Answers (exportKind g) e' r →
          ∃ entry d, info.entry e = some entry ∧
            resolveExport info entry.targetModule entry.targetName = .ok d ∧ Binds info d r := by
        intro e' r hnext hr
        obtain ⟨hname, heq, ht⟩ := (next_of_not_own hown).mp hnext
        have hpresent : info.Present (e'.1, e.2) := heq ▸ h.present hr
        obtain ⟨entry, d, hentry, -, hleft, hright⟩ := h.agreed hown hname ht hpresent
        obtain ⟨n, hn, hchain⟩ := resolveExport_ok.mp hright
        rw [← heq] at hchain
        exact ⟨entry, d, hentry, hleft, h.binds hchain hn hr⟩
      obtain ⟨entry₁, d₁, hentry₁, hleft₁, hbinds₁⟩ := hstar hnext ⟨w, hw, hkind⟩
      obtain ⟨entry₂, d₂, hentry₂, hleft₂, hbinds₂⟩ := hstar hnext₂ hr₂
      obtain rfl := some.inj (hentry₁.symm.trans hentry₂)
      obtain rfl := Except.ok.inj (hleft₁.symm.trans hleft₂)
      exact hbinds₁.unique hbinds₂

end Expanded

theorem expanded_of_stable (hg : Linkable g) (hinv : Inv g info)
    (h : expandAll g info = .ok (info', false)) : Expanded g info' := by
  obtain ⟨rfl, hstars⟩ := expandAll_stable h
  exact ⟨hinv, fun id t n ht hn => hstars id (mem_order_of_star hg ht) t ht n hn⟩

/-! ## Graphs that link -/

/-- The graphs that the standard links and the linker is not too strict for. -/
structure Clean (g : Loader Path) : Prop where
  /-- Every import and every named re-export resolves. -/
  resolved : ¬Unresolved g
  /-- No name is ambiguous, requested or not. -/
  unambiguous : ∀ e, ¬ResolveExport g e .ambiguous
  /-- No chain that meets an export once is longer than 64 exports. -/
  short : ∀ path : List Export, path.IsChain (fun a b => b ∈ (exportKind g a).next) →
    path.Nodup → path.length ≤ 64
  /-- What the stars of a module lead to is re-exported by name from a module's own exports, or
  from those it has by stars of modules evaluated before. -/
  settled : ∀ m n e e', ¬Own g (m, n) → Leads (exportKind g) (m, n) e →
    exportKind g e = .forward e' → Settled g e' ∧ (Own g e' ∨ Precedes g e'.1 m)
  /-- The stars of a module lead to one `export * as` at most for a name. -/
  single : ∀ e w w' t, ¬Own g e → Leads (exportKind g) e w → Leads (exportKind g) e w' →
    exportKind g w = .answer ⟨t, .namespace_⟩ → exportKind g w' = .answer ⟨t, .namespace_⟩ → w = w'

theorem Inv.chain_of_answer (h : Inv g info) {r : Resolution} (hkind : exportKind g e = .answer r) :
    ∃ d, Chain info e d 1 := by
  obtain ⟨entry, hentry⟩ := present_iff.mp (h.present_of_own (own_of_kind_answer hkind))
  cases hindirect : entry.indirect with
  | false => exact ⟨_, .last hentry hindirect⟩
  | true =>
    have hnext := h.next hentry hindirect
    rw [hkind] at hnext
    exact absurd hnext not_mem_nil

variable {d : Nat × LocalName}

theorem Inv.chain_of_forward (h : Inv g info) (hkind : exportKind g e = .forward e')
    {n : Nat} (hchain : Chain info e' d n) : Chain info e d (n + 1) := by
  obtain ⟨entry, hentry⟩ := present_iff.mp (h.present_of_own (own_of_kind_forward hkind))
  cases hindirect : entry.indirect with
  | false =>
    obtain ⟨r, hkind', -⟩ := h.answer hentry hindirect
    rw [hkind] at hkind'
    cases hkind'
  | true =>
    have hnext := h.next hentry hindirect
    rw [hkind, next_forward, mem_singleton] at hnext
    rw [← hnext] at hchain
    exact .hop hentry hindirect hchain

theorem Lands.leads (hinv : Inv g info) (h : Lands g info e e') : Leads (exportKind g) e e' := by
  induction h with
  | own => exact .refl
  | star hown hentry _ ih =>
    obtain ⟨heq, -, -⟩ := hinv.star _ _ hown hentry
    exact ih.head (hinv.next hentry (by rw [heq]; rfl))

theorem Lands.own_target (h : Lands g info e e') : Own g e' := by
  induction h with
  | own h => exact h
  | star _ _ _ ih => exact ih

theorem Lands.chain (hinv : Inv g info) (h : Lands g info e e') {n : Nat}
    (hchain : Chain info e' d n) : ∃ n, Chain info e d n := by
  induction h with
  | own => exact ⟨n, hchain⟩
  | star hown hentry _ ih =>
    obtain ⟨heq, -, -⟩ := hinv.star _ _ hown hentry
    obtain ⟨n, hchain⟩ := ih hchain
    exact ⟨n + 1, .hop hentry (by rw [heq]; rfl) hchain⟩

namespace Clean

variable (h : Clean g)

include h

theorem answers_of_forward (hkind : exportKind g e = .forward e') :
    ∃ r, Answers (exportKind g) e r := by
  by_contra hnot
  refine h.resolved ⟨e, .reExport hkind, fun r hfound => hnot ⟨r, ?_⟩⟩
  exact (resolveExport_found_iff.mp hfound).1

/-- **What the stars of a module lead to has a definition** as soon as it has an entry, if the
modules before are settled. -/
theorem chain_of_star (hg : Linkable g) (hinv : Inv g info) {modules : List Nat}
    (hfound : Found g modules info) {m : Nat} {n : String}
    (hbefore : ∀ a, Precedes g a m → a ∈ modules) (hown : ¬Own g (m, n))
    (hleads : Leads (exportKind g) (m, n) e) (hpresent : info.Present e) :
    ∃ d k, Chain info e d k := by
  -- by the place of the module in the order
  induction hi : g.evaluationOrder.idxOf m using Nat.strong_induction_on generalizing m n e with
  | _ i ih =>
    have hrecord : ∀ e r, Answers (exportKind g) e r → Own g e →
        Leads (exportKind g) (m, n) e → ∃ d k, Chain info e d k := by
      rintro e r ⟨w, hw, hkind⟩ hrecord hleads
      induction hw using head_induction_on with
      | refl =>
        obtain ⟨d, hchain⟩ := hinv.chain_of_answer hkind
        exact ⟨d, 1, hchain⟩
      | @head e e' hnext hw ihw =>
        have hforward := kind_of_next_of_own hrecord hnext
        have hleads' := tail hleads hnext
        have hbelow : ∃ d k, Chain info e' d k := by
          obtain ⟨hsettled, hplace⟩ := h.settled m n e e' hown hleads hforward
          by_cases hown' : Own g e'
          · exact ihw hown' hleads'
          · -- a module that comes before has found the name
            have hprecedes := hplace.resolve_left hown'
            have hin := hfound e'.1 (hbefore _ hprecedes) e'.2 hsettled ⟨r, w, hw, hkind⟩
            refine ih _ (hi ▸ hprecedes.idxOf_lt hg.nodup) (fun a ha => ?_) hown' .refl hin rfl
            exact hbefore a (ha.trans hprecedes hg.nodup)
        obtain ⟨d, k, hchain⟩ := hbelow
        exact ⟨d, k + 1, hinv.chain_of_forward hforward hchain⟩
    obtain ⟨e', hlands⟩ := hinv.lands e hpresent
    have hleads' := trans hleads (hlands.leads hinv)
    have hanswers : ∃ r, Answers (exportKind g) e' r := by
      obtain ⟨entry, hentry⟩ := present_iff.mp (hinv.present_of_own hlands.own_target)
      cases hindirect : entry.indirect with
      | false =>
        obtain ⟨r, hkind, -⟩ := hinv.answer hentry hindirect
        exact ⟨r, .self hkind⟩
      | true =>
        exact h.answers_of_forward (kind_of_next_of_own hlands.own_target
          (hinv.next hentry hindirect))
    obtain ⟨r, hr⟩ := hanswers
    obtain ⟨d, k, hchain⟩ := hrecord e' r hr hlands.own_target hleads'
    obtain ⟨k, hchain⟩ := hlands.chain hinv hchain
    exact ⟨d, k, hchain⟩

theorem chain_le (hinv : Inv g info) {d : Nat × LocalName} {n : Nat}
    (hchain : Chain info e d n) : n ≤ 64 := by
  obtain ⟨path, hlength, -, hpath, hnodup, -⟩ := hchain.path hinv
  rw [← hlength]
  exact h.short path hpath hnodup

theorem chain_unique (hinv : Inv g info) {a : Export} (hown : ¬Own g a)
    (he : Leads (exportKind g) a e) (he' : Leads (exportKind g) a e') {d d' : Nat × LocalName}
    {n n' : Nat} (hchain : Chain info e d n) (hchain' : Chain info e' d' n') : d = d' := by
  obtain ⟨w, entry, r, hw, hkind, hentry, hd, hbinds⟩ := hchain.leaf hinv
  obtain ⟨w', entry', r', hw', hkind', hentry', hd', hbinds'⟩ := hchain'.leaf hinv
  have hleads := trans he hw
  have hleads' := trans he' hw'
  obtain rfl := answers_unique_of_not_ambiguous (h.unambiguous a) ⟨w, hleads, hkind⟩
    ⟨w', hleads', hkind'⟩
  obtain ⟨t, b⟩ := r
  cases b with
  | name l =>
    have hname : d = (t, .source l) := hbinds
    have hname' : d' = (t, .source l) := hbinds'
    rw [hname, hname']
  | namespace_ =>
    obtain rfl := h.single a w w' t hown hleads hleads' hkind hkind'
    obtain rfl := some.inj (hentry.symm.trans hentry')
    rw [hd, hd']

/-- **The star expansion of a clean graph does not fail.** -/
theorem expandAll_ne_error (hg : Linkable g) (hinv : Inv g info) {err : LinkError} :
    expandAll g info ≠ .error err := by
  intro herror
  obtain ⟨pre, id, suf, st, horder, hrun, hfound, t, ht, n, hpresent, hname⟩ :=
    expandAll_error hg hinv herror
  have hinv := hinv.run hrun
  have hspec := @expandName_spec st.1 id t n st.2
  rw [show (st.1, st.2) = st from rfl, hname] at hspec
  obtain ⟨-, hdefault, entry, hentry, hstar, hdisagree⟩ := hspec
  have hown : ¬Own g (id, n) := by
    intro hown
    obtain ⟨record, hrecord⟩ := own_iff.mp hown
    obtain ⟨entry', hentry', hnot, -⟩ := hinv.own _ record hrecord
    obtain rfl := some.inj (hentry.symm.trans hentry')
    rw [hstar] at hnot
    cases hnot
  have hbefore : ∀ a, Precedes g a id → a ∈ pre := fun a ha => ha.mem_of_order hg.nodup horder
  -- both sides of the comparison have a definition
  have hside : ∀ {e}, e ∈ (exportKind g (id, n)).next → st.1.Present e →
      ∃ d, resolveExport st.1 e.1 e.2 = .ok d ∧ ∃ k, Chain st.1 e d k := by
    intro e hnext hpresent
    obtain ⟨d, k, hchain⟩ := h.chain_of_star hg hinv hfound hbefore hown (.single hnext) hpresent
    exact ⟨d, resolveExport_ok.mpr ⟨k, h.chain_le hinv hchain, hchain⟩, k, hchain⟩
  obtain ⟨heq, htarget, -⟩ := hinv.star _ _ hown hentry
  have hnext : (t, n) ∈ (exportKind g (id, n)).next :=
    (next_of_not_own hown).mpr ⟨hdefault, rfl, ht⟩
  have hpointer := hinv.next hentry (by rw [heq]; rfl)
  have hpointed : st.1.Present (entry.targetModule, entry.targetName) := by
    obtain ⟨e', hlands⟩ := hinv.lands _ (present_iff.mpr ⟨entry, hentry⟩)
    cases hlands with
    | own hown' => exact absurd hown' hown
    | star _ hentry' hlands =>
      obtain rfl := some.inj (hentry.symm.trans hentry')
      cases hlands with
      | own hown' => exact hinv.present_of_own hown'
      | star _ hentry'' => exact present_iff.mpr ⟨_, hentry''⟩
  obtain ⟨d, hleft, k, hchain⟩ := hside hpointer hpointed
  obtain ⟨d', hright, k', hchain'⟩ := hside hnext hpresent
  obtain rfl := h.chain_unique hinv hown (.single hpointer) (.single hnext) hchain hchain'
  exact hdisagree ⟨d, hleft, hright⟩

/-- **In tables that are done** every export that has an entry has a definition. -/
theorem resolves (hg : Linkable g) (hexpanded : Expanded g info)
    (hpresent : info.Present e) : ∃ d, resolveExport info e.1 e.2 = .ok d := by
  have hfound : Found g g.evaluationOrder info := fun _ _ _ _ ⟨_, hr⟩ => hexpanded.present hr
  have hstar : ∀ e, ¬Own g e → info.Present e → ∃ d k, Chain info e d k := fun e hown hpresent =>
    h.chain_of_star hg hexpanded.inv hfound (fun a ha => ha.mem_order) hown .refl hpresent
  have hanswers : ∀ e r, Answers (exportKind g) e r → ∃ d k, Chain info e d k := by
    rintro e r ⟨w, hw, hkind⟩
    induction hw using head_induction_on with
    | refl =>
      obtain ⟨d, hchain⟩ := hexpanded.inv.chain_of_answer hkind
      exact ⟨d, 1, hchain⟩
    | @head e e' hnext hw ih =>
      by_cases hown : Own g e
      · obtain ⟨d, k, hchain⟩ := ih
        exact ⟨d, k + 1, hexpanded.inv.chain_of_forward (kind_of_next_of_own hown hnext) hchain⟩
      · exact hstar e hown (hexpanded.present ⟨w, hw.head hnext, hkind⟩)
  have hchain : ∃ d k, Chain info e d k := by
    by_cases hown : Own g e
    · obtain ⟨entry, hentry⟩ := present_iff.mp hpresent
      cases hindirect : entry.indirect with
      | false => exact ⟨_, 1, .last hentry hindirect⟩
      | true =>
        have hnext := hexpanded.inv.next hentry hindirect
        obtain ⟨r, hr⟩ := h.answers_of_forward (kind_of_next_of_own hown hnext)
        exact hanswers e r hr
    · exact hstar e hown hpresent
  obtain ⟨d, k, hchain⟩ := hchain
  exact ⟨d, resolveExport_ok.mpr ⟨k, h.chain_le hexpanded.inv hchain, hchain⟩⟩

end Clean

theorem lookup_of_mem {α : Type} {l : List (String × α)} (hnodup : (l.map (·.1)).Nodup)
    {k : String} {v : α} (h : (k, v) ∈ l) : l.lookup k = some v := by
  induction l with
  | nil => exact absurd h not_mem_nil
  | cons x l ih =>
    rw [map_cons, nodup_cons] at hnodup
    rcases mem_cons.mp h with rfl | h
    · exact lookup_cons_self
    · have hne : k ≠ x.1 := by
        intro heq
        exact hnodup.1 (mem_map.mpr ⟨(k, v), h, heq⟩)
      rw [lookup_cons, beq_eq_false_iff_ne.mpr hne]
      exact ih hnodup.2 h

/-- What an import of the linked program is renamed to. -/
def Linked.rename (linked : Linked) (id : Nat) (local_ : String) : Option String :=
  (linked.renames.lookup id).bind (·.lookup local_)

variable {binding : ImportBinding}

theorem renameImport_ok {renamed : String × String}
    (h : renameImport info id (local_, binding) = .ok renamed) :
    renamed.1 = local_ ∧ (binding.isNamespace = false → ∃ d,
      resolveExport info binding.module binding.exportName = .ok d ∧
        renamed.2 = canonicalName d.1 d.2) := by
  rw [renameImport] at h
  split_ifs at h with hnamespace
  · cases h
    exact ⟨rfl, fun hname => absurd hnamespace (by rw [hname]; exact Bool.false_ne_true)⟩
  · obtain ⟨d, hd, h⟩ := bind_eq_ok.mp h
    cases h
    exact ⟨rfl, fun _ => ⟨d, hd, rfl⟩⟩

theorem renameImport_error
    (h : renameImport info id (local_, binding) = .error err) : binding.isNamespace = false ∧
      resolveExport info binding.module binding.exportName = .error err := by
  rw [renameImport] at h
  split_ifs at h with hnamespace
  · cases h
  · rcases bind_eq_error.mp h with h | ⟨d, -, h⟩
    · exact ⟨Bool.eq_false_iff.mpr hnamespace, h⟩
    · cases h

theorem mem_order_of_import (hg : Linkable g) {b : String × Nat × ImportSpecifier}
    (h : b ∈ importedBindings g id) : id ∈ g.evaluationOrder := by
  apply hg.complete
  by_contra hle
  rw [importedBindings, body_of_length_le (Nat.not_lt.mp hle)] at h
  exact absurd h not_mem_nil

theorem lookup_renames {order : List Nat} {renames : List (Nat × List (String × String))}
    (h : order.mapM (fun id => return (id, ← buildRenames info id)) = .ok renames)
    (hid : id ∈ order) : ∃ names, renames.lookup id = some names ∧
      buildRenames info id = .ok names := by
  have hall := mapM_ok h
  clear h
  induction hall with
  | nil => exact absurd hid not_mem_nil
  | @cons id' renamed order renames hrun _ ih =>
    obtain ⟨names, hnames, hrun⟩ := bind_eq_ok.mp hrun
    cases hrun
    by_cases heq : id = id'
    · subst heq
      exact ⟨names, lookup_cons_self, hnames⟩
    · obtain ⟨names', hlookup, hrun⟩ := ih ((mem_cons.mp hid).resolve_left heq)
      refine ⟨names', ?_, hrun⟩
      rwa [lookup_cons, beq_eq_false_iff_ne.mpr heq]

/-- **An import is renamed** to the definition that the linker resolves it to. -/
theorem lookup_buildRenames {tables : Tables} (hcollected : Collected g g.evaluationOrder tables)
    (hgrows : Grows tables.info info) {target : Nat} {s : ImportSpecifier}
    (hid : id ∈ g.evaluationOrder) (hb : (local_, target, s) ∈ importedBindings g id)
    (hname : s.isNamespace = false) {names : List (String × String)}
    (h : buildRenames info id = .ok names) : ∃ d, resolveExport info target s.imported = .ok d ∧
      names.lookup local_ = some (canonicalName d.1 d.2) := by
  have hcollects := hcollected.collects id hid
  obtain ⟨imported, himported, h⟩ := bind_eq_ok.mp h
  cases h
  have hlocal : local_ ∉ (info id).localNames := by
    rw [hgrows.localNames]
    exact hcollects.undeclared _ hb
  have hlocals : ((info id).localNames.map fun name =>
      (name, canonicalName id (.source name))).lookup local_ = none := by
    rw [lookup_eq_none_iff]
    intro x hx
    obtain ⟨name, hin, rfl⟩ := mem_map.mp hx
    rw [bne_iff_ne]
    rintro rfl
    exact hlocal hin
  have hforall := mapM_ok himported
  have hperm : (info id).importsByName.Perm ((importedBindings g id).map bindingEntry) := by
    rw [← hcollects.imports, ← hgrows.imports]
    exact List.mergeSort_perm ..
  let R (x : String) (y : ImportBinding) : Prop := y.isNamespace = false →
    ∃ d, resolveExport info y.module y.exportName = .ok d ∧ x = canonicalName d.1 d.2
  have hpairs : Forall₂ (fun x y => x.1 = y.1 ∧ R x.2 y.2) imported (info id).importsByName :=
    hforall.flip.imp fun x y hrun => renameImport_ok hrun
  have hdistinct : ((info id).importsByName.map (·.1)).Nodup := by
    rw [(hperm.map _).nodup_iff, List.map_map]
    exact hcollects.distinct
  obtain ⟨renamed, hrenamed, hresolve⟩ := lookup_of_forall₂ (R := R) hpairs
    (lookup_of_mem hdistinct (hperm.mem_iff.mpr (mem_map_of_mem hb)))
  obtain ⟨d, hd, rfl⟩ := hresolve hname
  refine ⟨d, hd, ?_⟩
  rw [lookup_append, hlocals, none_or, hrenamed]

theorem resolveHops_error {name : String} {hops : Nat}
    (h : resolveHops info name hops e = .error err) : err ≠ .outOfFuel := by
  induction hops generalizing e with
  | zero =>
    cases h
    simp
  | succ hops ih =>
    obtain ⟨m, want⟩ := e
    rw [resolveHops] at h
    cases hentry : info.entry (m, want) with
    | none =>
      simp only [hentry] at h
      cases h
      simp
    | some entry =>
      simp only [hentry] at h
      split_ifs at h
      exact ih h

/-- **A linked program** has tables that are done, and the renames of its imports. -/
theorem link_ok (hg : Linkable g) {linked : Linked} (h : link g = .ok linked) :
    Expanded g linked.info ∧ ∀ id local_ target s, (local_, target, s) ∈ importedBindings g id →
      s.isNamespace = false → ∃ d, resolveExport linked.info target s.imported = .ok d ∧
        linked.rename id local_ = some (canonicalName d.1 d.2) := by
  obtain ⟨tables, htables, h⟩ := bind_eq_ok.mp h
  obtain ⟨info, hinfo, h⟩ := bind_eq_ok.mp h
  obtain ⟨renames, hrenames, h⟩ := bind_eq_ok.mp h
  obtain ⟨namespaces, -, h⟩ := bind_eq_ok.mp h
  cases h
  have hcollected := collected_of_link hg htables
  obtain ⟨info₀, hinv, hgrows, hend⟩ := expandAll_ends hg hcollected
  rw [hinfo] at hend
  refine ⟨expanded_of_stable hg hinv hend, fun id local_ target s hb hname => ?_⟩
  obtain ⟨rfl, -⟩ := expandAll_stable hend
  have hid := mem_order_of_import hg hb
  obtain ⟨names, hlookup, hnames⟩ := lookup_renames hrenames hid
  obtain ⟨d, hd, hrenamed⟩ := lookup_buildRenames hcollected hgrows hid hb hname hnames
  refine ⟨d, hd, ?_⟩
  rw [Linked.rename, hlookup]
  exact hrenamed

/-- How linking fails: for an error of one file, in the star expansion, or at an export that a
requested binding or a namespace object is to resolve. -/
theorem link_error (hg : Linkable g) (h : link g = .error err) :
    err.Early ∨ (∃ info, Inv g info ∧ expandAll g info = .error err) ∨
      ∃ info e, Expanded g info ∧ resolveExport info e.1 e.2 = .error err ∧
        (Requested g e ∨ info.Present e) := by
  rcases bind_eq_error.mp h with h | ⟨tables, htables, h⟩
  · exact .inl (foldlM_early (fun _ _ _ h => collect_error h) h)
  have hcollected := collected_of_link hg htables
  obtain ⟨info₀, hinv, hgrows, hend⟩ := expandAll_ends hg hcollected
  rcases bind_eq_error.mp h with h | ⟨info, hinfo, h⟩
  · rw [h] at hend
    exact .inr (.inl ⟨info₀, hinv, hend⟩)
  rw [hinfo] at hend
  have hexpanded := expanded_of_stable hg hinv hend
  obtain ⟨rfl, -⟩ := expandAll_stable hend
  refine .inr (.inr ?_)
  rcases bind_eq_error.mp h with h | ⟨renames, hrenames, h⟩
  · -- an import
    obtain ⟨id, hid, h⟩ := mapM_error h
    rcases bind_eq_error.mp h with h | ⟨names, -, h⟩
    · rcases bind_eq_error.mp h with h | ⟨names, -, h⟩
      · obtain ⟨imported, himported, h⟩ := mapM_error h
        obtain ⟨hname, h⟩ := renameImport_error h
        rw [ModuleInfo.importsByName, List.mem_mergeSort, hexpanded.inv.imports id hid] at himported
        obtain ⟨b, hb, rfl⟩ := mem_map.mp himported
        exact ⟨info, (b.2.1, b.2.2.imported), hexpanded, h, .inl (.import_ hb hname)⟩
      · cases h
    · cases h
  rcases bind_eq_error.mp h with h | ⟨namespaces, -, h⟩
  · -- a member of a namespace object
    obtain ⟨_, ns, _, declared, -, -, h⟩ :=
      foldlM_error (P := fun _ _ => True) h trivial fun _ _ _ _ _ _ _ _ => trivial
    rw [ensureModuleNamespace] at h
    split_ifs at h
    · cases h
    rcases bind_eq_error.mp h with h | ⟨members, -, h⟩
    · obtain ⟨⟨name, entry⟩, hmem, h⟩ := mapM_error h
      rcases bind_eq_error.mp h with h | ⟨d, -, h⟩
      · exact ⟨info, (ns.2, name), hexpanded, h, .inr (mem_map_of_mem hmem)⟩
      · cases h
    · cases h
  · cases h

def declares (name : String) : Body :=
  [.statement [name], .exportNamesDecl { specifiers := [{ local_ := name, exported := name }] }]

def star (specifier : String) : ModuleItem :=
  .exportNamesDecl { hasFrom := true, fromSpecifier := specifier, isStar := true }

/-- The entry imports `x` from a module that has it from a third one. -/
def oneStar : Loader Nat where
  modules :=
    [{ path := 0
       body :=
         [.importDecl { specifier := "1", specifiers := [{ imported := "x", local_ := "y" }] }]
       deps := [("1", 1)] },
     { path := 1, body := [star "2"], deps := [("2", 2)] },
     { path := 2, body := declares "x" }]
  evaluationOrder := [2, 1, 0]

theorem oneStar_linkable : Linkable oneStar := ⟨by decide, by decide⟩

theorem oneStar_own (h : Own oneStar e) : e = (2, "x") := by
  obtain ⟨m, n⟩ := e
  match m with
  | 0 | 1 | _ + 3 => exact absurd h not_mem_nil
  | 2 =>
    obtain rfl : n = "x" := mem_singleton.mp h
    rfl

theorem oneStar_next (h : e' ∈ (exportKind oneStar e).next) :
    ¬Own oneStar e ∧ e.1 = 1 ∧ e' = (2, e.2) := by
  have hown : ¬Own oneStar e := by
    intro hown
    obtain rfl := oneStar_own hown
    exact absurd h not_mem_nil
  obtain ⟨-, hname, ht⟩ := (next_of_not_own hown).mp h
  obtain ⟨m, n⟩ := e
  match m with
  | 0 | 2 | _ + 3 => exact absurd ht not_mem_nil
  | 1 => exact ⟨hown, rfl, Prod.ext (mem_singleton.mp ht) hname⟩

theorem oneStar_answer {r : Resolution} (h : Answers (exportKind oneStar) e r) :
    r = ⟨2, .name "x"⟩ := by
  obtain ⟨w, -, hkind⟩ := h
  obtain rfl := oneStar_own (own_of_kind_answer hkind)
  exact (answer.inj hkind).symm

theorem oneStar_clean : Clean oneStar where
  resolved := by
    rintro ⟨e, hrequested, hnot⟩
    cases hrequested with
    | @import_ id target local_ s h =>
      match id with
      | 1 | 2 | _ + 3 => exact absurd h not_mem_nil
      | 0 =>
        cases mem_singleton.mp h
        have hanswers : Answers (exportKind oneStar) (2, "x") ⟨2, .name "x"⟩ := .self rfl
        exact hnot _ (resolveExport_found_iff.mpr
          ⟨hanswers.head (mem_singleton_self _), fun r hr => oneStar_answer hr⟩)
    | @reExport e e' h =>
      have hnext : e' ∈ (exportKind oneStar e).next := by
        rw [h]
        exact mem_singleton_self _
      exact absurd (own_of_kind_forward h) (oneStar_next hnext).1
  unambiguous := by
    rintro e ⟨resolveSet, h⟩
    obtain ⟨r, r', hne, hr, hr'⟩ := h.sound
    exact hne ((oneStar_answer hr).trans (oneStar_answer hr').symm)
  short := by
    intro path hpath _
    match path with
    | [] | [_] | [_, _] => simp
    | a :: b :: c :: _ =>
      -- no edge leaves the third module
      rw [isChain_cons_cons, isChain_cons_cons] at hpath
      obtain ⟨-, -, rfl⟩ := oneStar_next hpath.1
      have h := (oneStar_next hpath.2.1).2.1
      cases h
  settled := by
    intro m n e e' _ _ hkind
    have hnext : e' ∈ (exportKind oneStar e).next := by
      rw [hkind]
      exact mem_singleton_self _
    exact absurd (own_of_kind_forward hkind) (oneStar_next hnext).1
  single := by
    intro e w w' t _ _ _ hkind _
    obtain rfl := oneStar_own (own_of_kind_answer hkind)
    cases hkind

/-- Two modules declare `x`, and a third one takes the names of both. Nothing imports `x`. -/
def twoStars : Loader Nat where
  modules :=
    [{ path := 0, body := [.importDecl { specifier := "1" }], deps := [("1", 1)] },
     { path := 1, body := [star "2", star "3"], deps := [("3", 3), ("2", 2)] },
     { path := 2, body := declares "x" },
     { path := 3, body := declares "x" }]
  evaluationOrder := [2, 3, 1, 0]

end Bronze.Modules
