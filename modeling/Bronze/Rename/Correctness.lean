import Bronze.Rename.Agreement
import Bronze.Rename.Merged

/-!
# When the renaming captures nothing

The Renamer and the language open the same scopes but for five places, each a
region of the tree in which some names are bound for one of the two only. The
walk of `places` carries the names of each kind; the renamed body is right exactly
when no name of the map stands where the two disagree.

In the merged program a binding is known by its canonical name. Two bindings never
share one; but the entry file keeps its names, and these the source can spell.

## Main results

* `renameModuleScope_eq_iff`: the Renamer's body is the language's exactly when the file is
  undisturbed
* `Program.top_lookup`: a name of the merged scope is that of one binding
* `renameModuleScope_captureAvoiding`: the renamed body declares and denotes in the merged program
  what it does in its own scope exactly when nothing is captured, too
* `renameModuleScope_varHead`: a `var` head of the module scope is disturbed
-/

namespace Bronze.Rename

open Scoping Prod

/-- The names bound around a place: for both sides, and by each of the places where only one side
binds them. -/
structure Places where
  both : List (List String)
  /-- The head and the body of a loop over a `var`: the Renamer binds its names to the loop. -/
  varHead : List (List String)
  /-- Parameters: the Renamer binds there what the function's body declares. -/
  parameters : List (List String)
  /-- The pattern of a catch clause: the Renamer binds there what the catch body declares. -/
  catchPattern : List (List String)
  /-- The object of a loop over a `let` or `const`: the language has its names in a dead zone. -/
  loopObject : List (List String)
  /-- The heritage and members of a class expression: the language binds its own name. -/
  className : List (List String)

/-- The names of a `let` or `const` head stand in a dead zone around the object,
which the Renamer does not open. -/
def iterablePlaces (head : HeadKind) (names : List String) (p : Places) : Places :=
  match head with
  | .isConst => { p with loopObject := names :: p.loopObject }
  | .isLet => { p with loopObject := names :: p.loopObject }
  | .isVar => p
  | .assign => p

/-- The names of a `var` head are the enclosing function's or the module's, and
the Renamer binds them to the loop. -/
def headPlaces (head : HeadKind) (names : List String) (p : Places) : Places :=
  match head with
  | .isConst => { p with both := names :: p.both }
  | .isLet => { p with both := names :: p.both }
  | .isVar => { p with varHead := names :: p.varHead }
  | .assign => p

/-- The walk that carries them. -/
def places : Scoping Places where
  block lexical p := { p with both := lexical :: p.both }
  functionParams own params body p :=
    { p with both := params :: own.toList :: p.both, parameters := body :: p.parameters }
  functionBody own params body p := { p with both := body :: params :: own.toList :: p.both }
  iterable := iterablePlaces
  iterationHead := headPlaces
  catchParam params lexical p :=
    { p with both := params :: p.both, catchPattern := lexical :: p.catchPattern }
  catchBody params lexical p := { p with both := lexical :: params :: p.both }
  classExpr own p := { p with className := own.toList :: p.className }

/-- One of the three places where the Renamer alone binds the name. -/
def Places.RenamerBinds (p : Places) (name : String) : Prop :=
  Bound p.varHead name ∨ Bound p.parameters name ∨ Bound p.catchPattern name

/-- One of the two places where the language alone binds it. -/
def Places.LanguageBinds (p : Places) (name : String) : Prop :=
  Bound p.loopObject name ∨ Bound p.className name

/-- The shadowing stack and the environment at a place, by what they bind. -/
def Places.Describes (p : Places) (pair : Shadow × List (List String)) : Prop :=
  (∀ name, Bound pair.1 name ↔ Bound p.both name ∨ p.RenamerBinds name) ∧
    ∀ name, Bound pair.2 name ↔ Bound p.both name ∨ p.LanguageBinds name

theorem places_simulates : Simulates Places.Describes places (renamer.prod ecma) where
  block names h := by
    constructor <;> intro name
    · simp [places, renamer, Scoping.prod, h.1, Places.RenamerBinds, or_assoc]
    · simp [places, Scoping.prod, h.2, Places.LanguageBinds, or_assoc]
  functionParams own params body h := by
    constructor <;> intro name
    · simp only [places, renamer, Scoping.prod, functionScope, map, bound_cons, h.1,
        Places.RenamerBinds, List.mem_append]
      tauto
    · simp [places, Scoping.prod, h.2, Places.LanguageBinds, or_assoc]
  functionBody own params body h := by
    constructor <;> intro name
    · simp only [places, renamer, Scoping.prod, functionScope, map, bound_cons, h.1,
        Places.RenamerBinds, List.mem_append]
      tauto
    · simp [places, Scoping.prod, h.2, Places.LanguageBinds, or_assoc]
  iterable head names h := by
    constructor <;> intro name
    · cases head <;>
        simp [places, renamer, Scoping.prod, iterablePlaces, Places.RenamerBinds, h.1]
    · cases head <;>
        simp [places, ecma, Scoping.prod, iterablePlaces, headEnvironment, Places.LanguageBinds,
          h.2, or_left_comm, or_assoc]
  iterationHead head names h := by
    constructor <;> intro name
    · cases head <;>
        simp [places, renamer, Scoping.prod, headPlaces, headScope, Places.RenamerBinds, h.1,
          or_assoc, or_left_comm]
    · cases head <;>
        simp [places, ecma, Scoping.prod, headPlaces, headEnvironment, Places.LanguageBinds, h.2,
          or_assoc]
  catchParam params lexical h := by
    constructor <;> intro name
    · simp only [places, renamer, Scoping.prod, map, bound_cons, h.1, Places.RenamerBinds,
        List.mem_append]
      tauto
    · simp [places, Scoping.prod, h.2, Places.LanguageBinds, or_assoc]
  catchBody params lexical h := by
    constructor <;> intro name
    · simp only [places, renamer, Scoping.prod, map, bound_cons, h.1, Places.RenamerBinds,
        List.mem_append]
      tauto
    · simp [places, Scoping.prod, h.2, Places.LanguageBinds, or_assoc]
  classExpr own h := by
    constructor <;> intro name
    · simp [places, renamer, Scoping.prod, Places.RenamerBinds, h.1]
    · simp only [places, ecma, Scoping.prod, map, bound_cons, h.2, Places.LanguageBinds]
      tauto

/-- The name stands for a binding of the module scope that has another name in the merged
program. -/
def Moves (file : ModuleFile) (name : String) : Prop :=
  ∃ binding, file.binding? name = some binding ∧ binding.canonical ≠ name

/-- A name that moves stands where both sides bind it, or where neither or each
of the two binds it for a reason of its own. -/
def UndisturbedAt (file : ModuleFile) (occurrence : Places × String) : Prop :=
  Moves file occurrence.2 → ¬ Bound occurrence.1.both occurrence.2 →
    (occurrence.1.RenamerBinds occurrence.2 ↔ occurrence.1.LanguageBinds occurrence.2)

/-- At every identifier occurrence of the body. -/
def Undisturbed (file : ModuleFile) : Prop :=
  ∀ o ∈ stmtsOccurrences places ⟨[], [], [], [], [], []⟩ file.body, UndisturbedAt file o

/-- What the entry file, which keeps its names, can catch of a file, or lose to it. -/
structure Uncaptured (program : Program) (file : ModuleFile) : Prop where
  /-- No reference to a binding of the entry stands where a scope binds the name that the entry
  gives it. -/
  imports : ∀ o ∈ stmtsOccurrences ecma [] file.body, ¬ Bound o.1 o.2 →
    ∀ binding ∈ file.binding? o.2, binding.module = 0 → ¬ Bound o.1 binding.name
  /-- No reference to a global is spelled like a name that the entry declares. -/
  globals : ∀ o ∈ stmtsOccurrences ecma [] file.body, ¬ Bound o.1 o.2 →
    file.binding? o.2 = none → ∀ entry ∈ program.files, entry.id = 0 → o.2 ∉ entry.declared
  /-- No `var` of the module scope is declared where a scope binds its name, which a catch clause
  with a parameter of that name does. -/
  vars : ∀ o ∈ varsOccurrences [] file.body, Bound o.1 o.2 → file.id = 0

section Rewriting

variable {file : ModuleFile} {env : List (List String)}

theorem rewrite_eq_iff {p : Places} {shadow : Shadow} (h : p.Describes (shadow, env))
    (name : String) :
    rewrite (buildRenames file) shadow name = ecmaRewrite file env name ↔
      UndisturbedAt file (p, name) := by
  have hmoved : ((file.binding? name).map (·.canonical)).getD name ≠ name ↔ Moves file name := by
    cases hbinding : file.binding? name <;> simp [Moves, hbinding]
  have hshadow : shadowed shadow name = true ↔ Bound p.both name ∨ p.RenamerBinds name :=
    shadowed_iff.trans (h.1 name)
  have henv : Bound env name ↔ Bound p.both name ∨ p.LanguageBinds name := h.2 name
  simp only [rewrite, ecmaRewrite, buildRenames_lookup, UndisturbedAt]
  grind

/-- **The Renamer rewrites exactly the occurrences that resolve to the module
scope, if and only if the file is undisturbed.** -/
theorem renameModuleScope_eq_iff (file : ModuleFile) :
    renameModuleScope file = ecmaRename file ↔ Undisturbed file := by
  have hrelated := stmtsOccurrences_related places_simulates (s := ⟨[], [], [], [], [], []⟩)
    (t := ([], [])) (by simp [Places.Describes, Places.RenamerBinds, Places.LanguageBinds])
    file.body
  rw [renameModuleScope, ecmaRename, renameStmts_eq_iff]
  symm
  apply hrelated.forall_iff
  rintro p ⟨shadow, env⟩ name hdescribes
  exact (rewrite_eq_iff hdescribes name).symm

theorem ecmaRewrite_keeps (file : ModuleFile) : Keeps (ecmaRewrite file) :=
  fun _ _ hbound => if_pos hbound

theorem findIdx?_eq_none_iff_bound {name : String} :
    env.findIdx? (fun scope => scope.contains name) = none ↔ ¬ Bound env name := by
  simp [Bound]

end Rewriting

/-! ## The merged scope -/

section Resolutions

variable {program : Program} {file : ModuleFile} {binding : Binding} {env : List (List String)}
  {name : String}

theorem Program.mem_bindings : binding ∈ program.bindings ↔
    ∃ file ∈ program.files, file.id = binding.module ∧ binding.name ∈ file.declared := by
  simp only [Program.bindings, List.mem_flatMap, List.mem_map]
  constructor
  · rintro ⟨file, hfile, name, hname, rfl⟩
    exact ⟨file, hfile, rfl, hname⟩
  · rintro ⟨file, hfile, hid, hname⟩
    exact ⟨file, hfile, binding.name, hname, by rw [hid]⟩

theorem Program.bindings_identifier (h : binding ∈ program.bindings) :
    IsIdentifier binding.name := by
  obtain ⟨file, hfile, -, hname⟩ := Program.mem_bindings.mp h
  exact program.declared file hfile binding.name hname

/-- **No two bindings of a program have one canonical name.** -/
theorem Program.canonical_inj {binding' : Binding} (h : binding ∈ program.bindings)
    (h' : binding' ∈ program.bindings) (heq : binding.canonical = binding'.canonical) :
    binding = binding' := by
  obtain ⟨hmodule, hname⟩ := (canonicalName_inj (Program.bindings_identifier h)
    (Program.bindings_identifier h')).mp heq
  cases binding
  cases binding'
  exact congrArg₂ Binding.mk hmodule hname

/-- What a name of the module scope stands for is declared by its module. -/
theorem Program.binding_mem (hfile : file ∈ program.files)
    (h : file.binding? name = some binding) : binding ∈ program.bindings := by
  rw [ModuleFile.binding?] at h
  split at h
  next entry hentry =>
    obtain ⟨-, target, htarget, hid, hname⟩ :=
      program.imports file hfile entry (List.mem_of_find?_eq_some hentry)
    obtain rfl := Option.some.inj h
    exact Program.mem_bindings.mpr ⟨target, htarget, hid, hname⟩
  next =>
    split at h
    next hlocal =>
      obtain rfl := Option.some.inj h
      exact Program.mem_bindings.mpr ⟨file, hfile, rfl, List.mem_append_left _ hlocal⟩
    next => cases h

/-- **A name of the merged scope is that of the one binding it was made for.** -/
theorem Program.top_lookup : program.top.lookup name = some binding ↔
    binding ∈ program.bindings ∧ binding.canonical = name := by
  have hentries : ∀ bindings : List Binding, bindings ⊆ program.bindings →
      ((bindings.map fun binding => (binding.canonical, binding)).lookup name = some binding ↔
        binding ∈ bindings ∧ binding.canonical = name) := by
    intro bindings hsub
    induction bindings with
    | nil => simp
    | cons other bindings ih =>
      rw [List.cons_subset] at hsub
      rw [List.map_cons, List.lookup_cons]
      by_cases h : name = other.canonical
      · simp only [h, beq_self_eq_true, Option.some.injEq, List.mem_cons]
        constructor
        · rintro rfl
          exact ⟨.inl rfl, rfl⟩
        · rintro ⟨rfl | hmem, heq⟩
          · rfl
          · exact (Program.canonical_inj (hsub.2 hmem) hsub.1 heq).symm
      · rw [beq_false_of_ne h, ih hsub.2, List.mem_cons]
        constructor
        · exact fun hb => ⟨.inr hb.1, hb.2⟩
        · rintro ⟨rfl | hmem, heq⟩
          · exact absurd heq.symm h
          · exact ⟨hmem, heq⟩
  exact hentries _ fun _ h => h

/-- An identifier is the name of a binding in the merged scope if the entry declares it. -/
theorem Program.top_lookup_identifier (hname : IsIdentifier name) :
    program.top.lookup name = none ↔
      ∀ entry ∈ program.files, entry.id = 0 → name ∉ entry.declared := by
  rw [Option.eq_none_iff_forall_ne_some]
  constructor
  · intro h entry hentry hid hdeclared
    refine h ⟨0, name⟩ (Program.top_lookup.mpr ⟨?_, rfl⟩)
    exact Program.mem_bindings.mpr ⟨entry, hentry, hid, hdeclared⟩
  · intro h binding hlookup
    obtain ⟨hmem, heq⟩ := Program.top_lookup.mp hlookup
    obtain ⟨entry, hentry, hid, hdeclared⟩ := Program.mem_bindings.mp hmem
    by_cases hmodule : binding.module = 0
    · rw [Binding.canonical, canonicalName, if_pos hmodule] at heq
      exact h entry hentry (hid.trans hmodule) (heq ▸ hdeclared)
    · rw [← heq] at hname
      exact canonicalName_dot hmodule binding.name hname

theorem resolve_of_bound (file : ModuleFile) (top : List (String × Binding))
    (h : Bound env name) : ∃ depth,
    resolveMerged top (env, name) = .inner depth name ∧
      resolveSeparate file (env, name) = .inner depth name := by
  obtain ⟨depth, hdepth⟩ := Option.ne_none_iff_exists'.mp
    (mt findIdx?_eq_none_iff_bound.mp (not_not.mpr h))
  exact ⟨depth, by simp only [resolveMerged, hdepth], by simp only [resolveSeparate, hdepth]⟩

theorem resolveMerged_of_not_bound {top : List (String × Binding)} (h : ¬ Bound env name) :
    resolveMerged top (env, name) =
      match top.lookup name with
      | some binding => .moduleScope binding
      | none => .global name := by
  have hnone := findIdx?_eq_none_iff_bound.mpr h
  unfold resolveMerged
  cases top.lookup name <;> rw [hnone]

theorem resolveSeparate_of_not_bound (h : ¬ Bound env name) :
    resolveSeparate file (env, name) =
      match file.binding? name with
      | some binding => .moduleScope binding
      | none => .global name := by
  have hnone := findIdx?_eq_none_iff_bound.mpr h
  unfold resolveSeparate
  cases file.binding? name <;> rw [hnone]

/-- A scope of identifiers binds a canonical name if it is one of the entry's. -/
theorem bound_canonical_iff (henv : ∀ scope ∈ env, ∀ name ∈ scope, IsIdentifier name) :
    Bound env binding.canonical ↔ binding.module = 0 ∧ Bound env binding.name := by
  rw [Binding.canonical]
  by_cases hmodule : binding.module = 0
  · simp [canonicalName, hmodule]
  · refine iff_of_false ?_ fun h => hmodule h.1
    rintro ⟨scope, hscope, hname⟩
    exact canonicalName_dot hmodule binding.name (henv scope hscope _ hname)

/-- One occurrence: rewritten and looked up in the merged program, or looked up in
the module. -/
theorem resolveMerged_rewrite_iff (hfile : file ∈ program.files) (hname : IsIdentifier name)
    (henv : ∀ scope ∈ env, ∀ name ∈ scope, IsIdentifier name) :
    resolveMerged program.top (env, ecmaRewrite file env name) =
        resolveSeparate file (env, name) ↔
      (¬ Bound env name → ∀ binding ∈ file.binding? name, binding.module = 0 →
        ¬ Bound env binding.name) ∧
      (¬ Bound env name → file.binding? name = none → ∀ entry ∈ program.files, entry.id = 0 →
        name ∉ entry.declared) := by
  by_cases hbound : Bound env name
  · -- an inner name is kept, and its binding is the same
    obtain ⟨depth, hmerged, hseparate⟩ := resolve_of_bound file program.top hbound
    rw [ecmaRewrite, if_pos hbound, hmerged, hseparate]
    exact iff_of_true rfl ⟨fun h => absurd hbound h, fun h => absurd hbound h⟩
  · rw [resolveSeparate_of_not_bound hbound, ecmaRewrite, if_neg hbound]
    cases hbinding : file.binding? name with
    | none =>
      rw [Option.map_none, Option.getD_none, resolveMerged_of_not_bound hbound,
        ← Program.top_lookup_identifier hname]
      cases program.top.lookup name <;> simp [hbound]
    | some binding =>
      rw [Option.map_some, Option.getD_some]
      have hlookup : program.top.lookup binding.canonical = some binding :=
        Program.top_lookup.mpr ⟨Program.binding_mem hfile hbinding, rfl⟩
      have hscopes : Bound env binding.canonical ↔
          binding.module = 0 ∧ Bound env binding.name := bound_canonical_iff henv
      by_cases hcanonical : Bound env binding.canonical
      · -- a scope around it catches the name of the entry's binding
        obtain ⟨depth, hmerged, -⟩ := resolve_of_bound file program.top hcanonical
        obtain ⟨hmodule, hcaught⟩ := hscopes.mp hcanonical
        rw [hmerged]
        refine iff_of_false nofun fun h => ?_
        exact h.1 hbound binding rfl hmodule hcaught
      · rw [resolveMerged_of_not_bound hcanonical, hlookup]
        refine iff_of_true rfl ⟨fun _ other hother hmodule hcaught => ?_, fun _ h => nomatch h⟩
        obtain rfl := Option.some.inj hother
        exact hcanonical (hscopes.mpr ⟨hmodule, hcaught⟩)

end Resolutions

/-! ## A file of a program -/

section Files

variable {program : Program} {file : ModuleFile}

theorem resolvesAlike_iff (hfile : file ∈ program.files)
    (hrename : renameModuleScope file = ecmaRename file) :
    ResolvesAlike program file ↔
      ∀ o ∈ stmtsOccurrences ecma [] file.body,
        (¬ Bound o.1 o.2 → ∀ binding ∈ file.binding? o.2, binding.module = 0 →
          ¬ Bound o.1 binding.name) ∧
        (¬ Bound o.1 o.2 → file.binding? o.2 = none → ∀ entry ∈ program.files, entry.id = 0 →
          o.2 ∉ entry.declared) := by
  rw [ResolvesAlike, hrename, ecmaRename, stmtsOccurrences_rename (ecmaRewrite_keeps _),
    List.map_map, List.map_inj_left]
  refine forall₂_congr fun o ho => ?_
  obtain ⟨hname, henv⟩ := program.identifiers file hfile o ho
  exact resolveMerged_rewrite_iff hfile hname henv

/-- A name the body declares and no scope binds is given its canonical name. -/
theorem ecmaRewrite_local {env : List (List String)} {name : String}
    (hfile : file ∈ program.files) (hname : name ∈ collectLocals file) :
    ecmaRewrite file env name =
      if Bound env name then name else canonicalName file.id name := by
  have himports : file.imports.find? (·.localName = name) = none := by
    rw [List.find?_eq_none]
    intro entry hentry hlocal
    have hnot := (program.imports file hfile entry hentry).1
    exact hnot (by simpa [of_decide_eq_true hlocal] using hname)
  rw [ecmaRewrite, ModuleFile.binding?, himports]
  simp [hname, Binding.canonical]

theorem declaresCanonical_iff (hfile : file ∈ program.files)
    (hrename : renameModuleScope file = ecmaRename file) :
    DeclaresCanonical file ↔
      ∀ o ∈ varsOccurrences [] file.body, Bound o.1 o.2 → file.id = 0 := by
  have hvars : DeclaredAt (ecmaRewrite file) [] _ _ _ := varsOccurrences_declared file.body
  have hlexical : (getScopeDeclarations file.body).map (ecmaRewrite file []) =
      (getScopeDeclarations file.body).map (canonicalName file.id) := by
    refine List.map_congr_left fun name hname => ?_
    rw [ecmaRewrite_local hfile (List.mem_append_left _ hname), if_neg bound_nil]
  rw [DeclaresCanonical, collectLocals, collectLocals, hrename, ecmaRename,
    getScopeDeclarations_rename, hvars.renamed, List.map_append, hlexical,
    List.append_cancel_left_eq, ← hvars.names, List.map_map, List.map_inj_left]
  refine forall₂_congr fun o ho => ?_
  have hmem : o.2 ∈ getHoistedVarDeclarations file.body := by
    rw [← hvars.names]
    exact List.mem_map_of_mem ho
  have hidentifier : IsIdentifier o.2 := program.declared file hfile o.2
    (List.mem_append_left _ (List.mem_append_right _ hmem))
  rw [ecmaRewrite_local hfile (List.mem_append_right _ hmem), Function.comp_apply]
  by_cases hbound : Bound o.1 o.2
  · rw [if_pos hbound, forall_prop_of_true hbound]
    constructor
    · intro h
      by_contra hid
      exact canonicalName_dot hid o.2 (h ▸ hidentifier)
    · intro hid
      rw [canonicalName, if_pos hid]
  · simp [hbound]

end Files

/-- `let x; export { x };` as the entry. -/
def entryFile : ModuleFile where
  id := 0
  body := [.varDecl false "x" none none]
  imports := []
  namespaceLocals := []

/-- `import { x as y } from entry; var n = y; (function (p) { y; n; p; g; });` -/
def helperFile : ModuleFile where
  id := 1
  body := [.varDecl true "n" none (some (.ident "y")),
    .exprStmt (.functionExpr none false [.mk "p" none none]
      [.exprStmt (.ident "y"), .exprStmt (.ident "n"), .exprStmt (.ident "p"),
        .exprStmt (.ident "g")])]
  imports := [⟨"y", false, 0, "x"⟩]
  namespaceLocals := []

def helperProgram : Program where
  files := [entryFile, helperFile]
  ids := by decide
  imports := by decide
  declared := by decide
  identifiers := by decide

/-- `for (var x of []) {} x;` as the body of a module that is not the entry. -/
def varHeadFile : ModuleFile where
  id := 1
  body := [.iteration .ForOfStmt .isVar (some "x") none (.compound .ArrayLit []) [],
    .exprStmt (.ident "x")]
  imports := []
  namespaceLocals := []

end Bronze.Rename
