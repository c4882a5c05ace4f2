import Bronze.Rename.Renamer

/-!
# Name resolution of the language

The scopes ECMA-262 opens, innermost first, and what an identifier occurrence
resolves to in them: a binding of an enclosing scope, one of the module, or a
global. A class declaration binds its name in the enclosing scope and again
inside the class; both are the one name the declaration spells.

## Main results

* `mem_getHoistedVarDeclarations_iff`, `binding?_isSome_iff`: what the module scope has
* `buildRenames_lookup`: the map gives its names the canonical names of their bindings
-/

namespace Bronze.Rename

open List

/-- Some scope of the stack binds the name. -/
def Bound (env : List (List String)) (name : String) : Prop :=
  ∃ scope ∈ env, name ∈ scope

variable {name : String} {stmt : Stmt}

@[simp] theorem bound_nil : ¬ Bound [] name := by
  simp [Bound]

@[simp] theorem bound_cons {scope : List String} {env : List (List String)} :
    Bound (scope :: env) name ↔ name ∈ scope ∨ Bound env name := by
  simp [Bound]

theorem shadowed_iff {shadow : Shadow} : shadowed shadow name = true ↔ Bound shadow name := by
  simp [shadowed, Bound]

instance (env : List (List String)) (name : String) : Decidable (Bound env name) :=
  decidable_of_iff _ shadowed_iff

/-- The environment of the names of a `let` or `const` head (14.7.5.12); a `var`
head binds in the enclosing function, and an assignment nowhere. -/
def headEnvironment (head : HeadKind) (names : List String) (env : List (List String)) :
    List (List String) :=
  match head with
  | .isConst => names :: env
  | .isLet => names :: env
  | .isVar => env
  | .assign => env

/-- The environments of the language. Parameters see the function's own name and
each other, and not the body (10.2.11); the object of a `let` or `const` head is
evaluated in the dead zone of its names (14.7.5.12); the pattern of a catch clause
sees its own names (14.15.2); a named class expression binds its name for its
heritage and members (15.7.14). -/
def ecma : Scoping (List (List String)) where
  block lexical env := lexical :: env
  functionParams own params _ env := params :: own.toList :: env
  functionBody own params body env := body :: params :: own.toList :: env
  iterable head names env := headEnvironment head names env
  iterationHead head names env := headEnvironment head names env
  catchParam params _ env := params :: env
  catchBody params lexical env := lexical :: params :: env
  classExpr own env := own.toList :: env

/-! ## What a module declares -/

/-- The statements directly inside a statement, outside functions and classes. -/
def substatements : Stmt → List Stmt
  | .block stmts => stmts
  | .ifStmt _ thenBody elseBody => thenBody ++ elseBody
  | .whileStmt _ body => body
  | .doWhileStmt body _ => body
  | .forStmt init _ _ body => init ++ body
  | .iteration _ _ _ _ _ body => body
  | .switchStmt _ cases => cases.flatMap fun
    | .mk _ body => body
  | .labeled _ body => body.toList
  | .tryStmt body _ _ _ catchBody finallyBody => body ++ catchBody ++ finallyBody
  | _ => []

/-- VarDeclaredNames (8.2.6): a `var` declarator or `var` head declares its names
for every statement around it, up to the next function. -/
inductive VarDeclared (name : String) : Stmt → Prop where
  | declarator {single pattern init} : name ∈ declaredNames single pattern →
      VarDeclared name (.varDecl true single pattern init)
  | head {kind single pattern iterable body} : name ∈ loopHeadNames single pattern →
      VarDeclared name (.iteration kind .isVar single pattern iterable body)
  | within {stmt sub : Stmt} : sub ∈ substatements stmt → VarDeclared name sub →
      VarDeclared name stmt

/-- LexicallyDeclaredNames of a list (8.2.4): the `let`, `const`, function and
class declarations that stand in it. -/
inductive LexicallyDeclared (name : String) : Stmt → Prop where
  | declarator {single pattern init} : name ∈ declaredNames single pattern →
      LexicallyDeclared name (.varDecl false single pattern init)
  | functionDecl {params body} : LexicallyDeclared name (.functionDecl name params body)
  | classDecl {superClass methods} : LexicallyDeclared name (.classDecl name superClass methods)

/-- The names of a module's scope (16.2.1.7.3.1): its imports and what its body
declares. -/
def ModuleScope (file : ModuleFile) (name : String) : Prop :=
  (∃ binding ∈ file.imports, binding.localName = name) ∨
    ∃ stmt ∈ file.body, LexicallyDeclared name stmt ∨ VarDeclared name stmt

theorem mem_getHoistedVarDeclarations {stmts : List Stmt} :
    name ∈ getHoistedVarDeclarations stmts ↔ ∃ stmt ∈ stmts, name ∈ hoistedVarsIn stmt := by
  induction stmts with
  | nil => simp [getHoistedVarDeclarations]
  | cons stmt stmts ih => simp [getHoistedVarDeclarations, ih]

theorem mem_hoistedVarsInCases {cases : List SwitchCase} : name ∈ hoistedVarsInCases cases ↔
      ∃ stmt ∈ substatements (.switchStmt (.leaf .hole) cases), name ∈ hoistedVarsIn stmt := by
  induction cases with
  | nil => simp [hoistedVarsInCases, substatements]
  | cons clause cases ih =>
    obtain ⟨test, body⟩ := clause
    simp [hoistedVarsInCases, ih, mem_getHoistedVarDeclarations, substatements, or_and_right,
      exists_or]

theorem hoistedVarsIn_of_substatement {sub : Stmt} (hsub : sub ∈ substatements stmt)
    (hname : name ∈ hoistedVarsIn sub) : name ∈ hoistedVarsIn stmt := by
  cases stmt with
  | switchStmt discriminant cases =>
    exact mem_hoistedVarsInCases.mpr ⟨sub, hsub, hname⟩
  | labeled label body =>
    cases body with
    | none => simp [substatements] at hsub
    | some body =>
      simp only [substatements, Option.toList_some, mem_singleton] at hsub
      subst hsub
      exact hname
  | block | ifStmt | whileStmt | doWhileStmt | forStmt | iteration | tryStmt =>
    simp only [substatements] at hsub
    simp only [hoistedVarsIn, mem_append, mem_getHoistedVarDeclarations]
    grind
  | varDecl | returnStmt | exprStmt | throwStmt | classDecl | functionDecl | jump =>
    simp [substatements] at hsub

theorem hoistedVarsIn_of_varDeclared (h : VarDeclared name stmt) : name ∈ hoistedVarsIn stmt := by
  induction h with
  | declarator h => simpa [hoistedVarsIn] using h
  | head h => simp [hoistedVarsIn, h]
  | within hsub _ ih => exact hoistedVarsIn_of_substatement hsub ih

mutual

variable {name : String}

theorem varDeclared_of_hoistedVarsIn : ∀ {stmt : Stmt},
    name ∈ hoistedVarsIn stmt → VarDeclared name stmt
  | .varDecl isVar single pattern init, h => by
    cases isVar with
    | false => simp [hoistedVarsIn] at h
    | true => exact .declarator (by simpa [hoistedVarsIn] using h)
  | .block stmts, h => by
    obtain ⟨sub, hsub, hv⟩ := varDeclared_of_getHoisted h
    exact .within hsub hv
  | .ifStmt _ thenBody elseBody, h => by
    obtain h | h := mem_append.mp h
    all_goals
      obtain ⟨sub, hsub, hv⟩ := varDeclared_of_getHoisted h
      exact .within (by simp [substatements, hsub]) hv
  | .whileStmt _ body, h => by
    obtain ⟨sub, hsub, hv⟩ := varDeclared_of_getHoisted h
    exact .within hsub hv
  | .doWhileStmt body _, h => by
    obtain ⟨sub, hsub, hv⟩ := varDeclared_of_getHoisted h
    exact .within hsub hv
  | .forStmt init _ _ body, h => by
    obtain h | h := mem_append.mp h
    all_goals
      obtain ⟨sub, hsub, hv⟩ := varDeclared_of_getHoisted h
      exact .within (by simp [substatements, hsub]) hv
  | .iteration kind head single pattern iterable body, h => by
    simp only [hoistedVarsIn, mem_append] at h
    obtain h | h := h
    · by_cases hhead : head = .isVar
      · subst hhead
        exact .head (by simpa using h)
      · simp [hhead] at h
    · obtain ⟨sub, hsub, hv⟩ := varDeclared_of_getHoisted h
      exact .within hsub hv
  | .switchStmt _ cases, h => by
    obtain ⟨sub, hsub, hv⟩ := varDeclared_of_hoistedVarsInCases h
    exact .within hsub hv
  | .labeled _ none, h => by
    simp [hoistedVarsIn, hoistedVarsInLabeled] at h
  | .labeled _ (some body), h => by
    have hv : VarDeclared name body := varDeclared_of_hoistedVarsIn h
    exact .within (by simp [substatements]) hv
  | .tryStmt body _ _ _ catchBody finallyBody, h => by
    simp only [hoistedVarsIn, mem_append] at h
    obtain (h | h) | h := h
    all_goals
      obtain ⟨sub, hsub, hv⟩ := varDeclared_of_getHoisted h
      exact .within (by simp [substatements, hsub]) hv
  | .returnStmt _, h => by simp [hoistedVarsIn] at h
  | .exprStmt _, h => by simp [hoistedVarsIn] at h
  | .throwStmt _, h => by simp [hoistedVarsIn] at h
  | .classDecl _ _ _, h => by simp [hoistedVarsIn] at h
  | .functionDecl _ _ _, h => by simp [hoistedVarsIn] at h
  | .jump _, h => by simp [hoistedVarsIn] at h

theorem varDeclared_of_getHoisted : ∀ {stmts : List Stmt},
    name ∈ getHoistedVarDeclarations stmts → ∃ stmt ∈ stmts, VarDeclared name stmt
  | [], h => by simp [getHoistedVarDeclarations] at h
  | stmt :: stmts, h => by
    obtain h | h := mem_append.mp h
    · exact ⟨stmt, mem_cons_self, varDeclared_of_hoistedVarsIn h⟩
    · obtain ⟨sub, hsub, hv⟩ := varDeclared_of_getHoisted h
      exact ⟨sub, mem_cons_of_mem _ hsub, hv⟩

theorem varDeclared_of_hoistedVarsInCases : ∀ {cases : List SwitchCase},
    name ∈ hoistedVarsInCases cases →
      ∃ stmt ∈ substatements (.switchStmt (.leaf .hole) cases), VarDeclared name stmt
  | [], h => by simp [hoistedVarsInCases] at h
  | .mk test body :: cases, h => by
    obtain h | h := mem_append.mp h
    · obtain ⟨sub, hsub, hv⟩ := varDeclared_of_getHoisted h
      exact ⟨sub, by simp [substatements, hsub], hv⟩
    · obtain ⟨sub, hsub, hv⟩ := varDeclared_of_hoistedVarsInCases h
      exact ⟨sub, mem_append_right _ hsub, hv⟩

end

/-- **`getHoistedVarDeclarations` collects the VarDeclaredNames.** -/
theorem mem_getHoistedVarDeclarations_iff {stmts : List Stmt} :
    name ∈ getHoistedVarDeclarations stmts ↔ ∃ stmt ∈ stmts, VarDeclared name stmt := by
  constructor
  · exact varDeclared_of_getHoisted
  · rintro ⟨stmt, hmem, hv⟩
    exact mem_getHoistedVarDeclarations.mpr ⟨stmt, hmem, hoistedVarsIn_of_varDeclared hv⟩

theorem mem_scopeDeclaration_iff : name ∈ scopeDeclaration stmt ↔ LexicallyDeclared name stmt := by
  constructor
  · intro h
    cases stmt with
    | varDecl isVar single pattern init =>
      cases isVar with
      | true => simp [scopeDeclaration] at h
      | false => exact .declarator (by simpa [scopeDeclaration] using h)
    | functionDecl single params body =>
      obtain rfl := mem_singleton.mp h
      exact .functionDecl
    | classDecl single superClass methods =>
      obtain rfl := mem_singleton.mp h
      exact .classDecl
    | _ => simp [scopeDeclaration] at h
  · intro h
    cases h with
    | declarator h => simpa [scopeDeclaration] using h
    | functionDecl => simp [scopeDeclaration]
    | classDecl => simp [scopeDeclaration]

theorem mem_collectLocals_iff (file : ModuleFile) : name ∈ collectLocals file ↔
      ∃ stmt ∈ file.body, LexicallyDeclared name stmt ∨ VarDeclared name stmt := by
  simp only [collectLocals, getScopeDeclarations, mem_append, mem_flatMap,
    mem_scopeDeclaration_iff, mem_getHoistedVarDeclarations_iff]
  grind

/-! ## Bindings -/

/-- The binding an import stands for: an import of a namespace is a binding of the file's own. -/
def ImportBinding.binding (fileId : Nat) (entry : ImportBinding) : Binding :=
  if entry.isNamespace then ⟨fileId, entry.localName⟩ else ⟨entry.module, entry.definition⟩

/-- The binding a name of the module's scope stands for: that of an import (16.2.1.7.3.1), or one
of the module's own. -/
def ModuleFile.binding? (file : ModuleFile) (name : String) : Option Binding :=
  match file.imports.find? (·.localName = name) with
  | some entry => some (entry.binding file.id)
  | none => if name ∈ collectLocals file then some ⟨file.id, name⟩ else none

/-- **The names that stand for a binding are those of the module scope.** -/
theorem binding?_isSome_iff (file : ModuleFile) (name : String) :
    (file.binding? name).isSome ↔ ModuleScope file name := by
  rw [ModuleFile.binding?, ModuleScope, ← mem_collectLocals_iff]
  split
  next entry h =>
    have hlocal : entry.localName = name := by simpa using find?_some h
    exact iff_of_true rfl (.inl ⟨entry, mem_of_find?_eq_some h, hlocal⟩)
  next h =>
    have hnone : ¬∃ entry ∈ file.imports, entry.localName = name := by simpa using h
    simp [hnone]

/-- **The map gives each name of the module scope the canonical name of its binding.** -/
theorem buildRenames_lookup (file : ModuleFile) (name : String) :
    (buildRenames file).lookup name = (file.binding? name).map (·.canonical) := by
  have himports : ∀ entries : List ImportBinding,
      (entries.map fun entry => (entry.localName, entry.canonical file.id)).lookup name =
        (entries.find? (·.localName = name)).map
          fun entry => (entry.binding file.id).canonical := by
    intro entries
    induction entries with
    | nil => rfl
    | cons entry entries ih =>
      have hcanonical : entry.canonical file.id = (entry.binding file.id).canonical := by
        rw [ImportBinding.canonical, ImportBinding.binding, Binding.canonical]
        split <;> rfl
      rw [map_cons, lookup_cons, find?_cons, ih, hcanonical]
      by_cases h : name = entry.localName
      · simp [h]
      · simp [beq_false_of_ne h, Ne.symm h]
  have hlocals : ∀ names : List String,
      (names.map fun name => (name, canonicalName file.id name)).lookup name =
        if name ∈ names then some (canonicalName file.id name) else none := by
    intro names
    induction names with
    | nil => rfl
    | cons other names ih =>
      rw [map_cons, lookup_cons, ih]
      by_cases h : name = other
      · simp [h]
      · simp [beq_false_of_ne h, h]
  rw [buildRenames, lookup_append, himports, hlocals, ModuleFile.binding?]
  cases file.imports.find? (·.localName = name) with
  | some entry => rfl
  | none =>
    by_cases h : name ∈ collectLocals file <;> simp [h, Binding.canonical]

/-- An occurrence is rewritten when no enclosing scope binds it and it stands for a binding of the
module scope. -/
def ecmaRewrite (file : ModuleFile) (env : List (List String)) (name : String) : String :=
  if Bound env name then name else ((file.binding? name).map (·.canonical)).getD name

/-- The body with exactly the occurrences rewritten that resolve to the module
scope. -/
def ecmaRename (file : ModuleFile) : List Stmt :=
  renameStmts ecma (ecmaRewrite file) [] file.body

/-! ## Programs -/

/-- The files of a linked program. Each has its own id, what they spell are identifiers, and
what is imported is a binding that its module declares. -/
structure Program where
  files : List ModuleFile
  ids : (files.map (·.id)).Nodup
  /-- `collectImports` and `collectExports`: an import is no name the body declares, and a name
  that an export leads to is declared. -/
  imports : ∀ file ∈ files, ∀ entry ∈ file.imports, entry.localName ∉ collectLocals file ∧
    ∃ target ∈ files, target.id = (entry.binding file.id).module ∧
      (entry.binding file.id).name ∈ target.declared
  declared : ∀ file ∈ files, ∀ name ∈ file.declared, IsIdentifier name
  identifiers : ∀ file ∈ files, ∀ o ∈ stmtsOccurrences ecma [] file.body,
    IsIdentifier o.2 ∧ ∀ scope ∈ o.1, ∀ name ∈ scope, IsIdentifier name

/-- The bindings of the module scopes. -/
def Program.bindings (program : Program) : List Binding :=
  program.files.flatMap fun file => file.declared.map (Binding.mk file.id)

/-- The names of the merged program's one scope, with the binding each was made for. -/
def Program.top (program : Program) : List (String × Binding) :=
  program.bindings.map fun binding => (binding.canonical, binding)

/-- What an occurrence resolves to: the binding of an enclosing scope, counted
from inside, a binding of a module scope, or a global. -/
inductive Resolution where
  | inner (depth : Nat) (name : String)
  | moduleScope (binding : Binding)
  | global (name : String)
  deriving DecidableEq, Repr

/-- In the module's own scope. -/
def resolveSeparate (file : ModuleFile) (occurrence : List (List String) × String) : Resolution :=
  match occurrence.1.findIdx? (fun scope => scope.contains occurrence.2) with
  | some depth => .inner depth occurrence.2
  | none =>
    match file.binding? occurrence.2 with
    | some binding => .moduleScope binding
    | none => .global occurrence.2

/-- In the merged program, whose top level declares the names `top`. -/
def resolveMerged (top : List (String × Binding)) (occurrence : List (List String) × String) :
    Resolution :=
  match occurrence.1.findIdx? (fun scope => scope.contains occurrence.2) with
  | some depth => .inner depth occurrence.2
  | none =>
    match top.lookup occurrence.2 with
    | some binding => .moduleScope binding
    | none => .global occurrence.2

/-- Every identifier occurrence of the renamed body denotes in the merged program
what it denotes in the module's own scope. -/
def ResolvesAlike (program : Program) (file : ModuleFile) : Prop :=
  (stmtsOccurrences ecma [] (renameModuleScope file)).map (resolveMerged program.top) =
    (stmtsOccurrences ecma [] file.body).map (resolveSeparate file)

/-- The renamed body declares the bindings of the file at its top level, each under its canonical
name. -/
def DeclaresCanonical (file : ModuleFile) : Prop :=
  collectLocals { file with body := renameModuleScope file } =
    (collectLocals file).map (canonicalName file.id)

end Bronze.Rename
