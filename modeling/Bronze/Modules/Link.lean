import Bronze.Modules.Load
import Bronze.Fixpoint.Passes

/-!
# Linking a module graph

The linker gives every module a table of its exports. A name that is re-exported points to the
export of another module. `export *` copies the names of one table into another, until no table
grows; an import is then renamed to the definition its chain of pointers ends at. The files declare
no types and call no `import()` here.
-/

namespace Bronze.Modules

open Fixpoint

/-- A local name of a module: one the source spells, or the `*nsN*` of an `export * as`. -/
inductive LocalName where
  | source (name : String)
  | synthetic (counter : Nat)
  deriving DecidableEq

namespace LocalName

def toString : LocalName → String
  | source name => name
  | synthetic counter => "*ns" ++ ToString.toString counter ++ "*"

end LocalName

def canonicalName (moduleId : Nat) (name : LocalName) : String :=
  if moduleId = 0 then name.toString
  else "mod" ++ ToString.toString moduleId ++ "." ++ name.toString

structure ExportEntry where
  localName : LocalName := .source ""
  indirect : Bool := false
  targetModule : Nat := 0
  targetName : String := ""
  fromStar : Bool := false
  deriving DecidableEq

structure ImportBinding where
  module : Nat
  exportName : String
  isNamespace : Bool
  deriving DecidableEq

/-- `ModuleInfo`. The exports are in the order they were added in, `exportOrder`. -/
structure ModuleInfo where
  exports : List (String × ExportEntry) := []
  imports : List (String × ImportBinding) := []
  localNames : List String := []
  namespaceLocals : List (LocalName × Nat) := []

inductive LinkError where
  | duplicateExport (exported : String) (module : Nat)
  | duplicateImport (local_ : String) (module : Nat)
  | importedAndDeclared (local_ : String) (module : Nat)
  | namesNothing (local_ : String) (module : Nat)
  | ambiguousExport (name : String) (module : Nat)
  | noExport (module : Nat) (name : String)
  | tooDeep (name : String)
  | outOfFuel
  deriving DecidableEq

def LinkError.Early : LinkError → Prop
  | duplicateExport .. | duplicateImport .. | importedAndDeclared .. | namesNothing .. => True
  | ambiguousExport .. | noExport .. | tooDeep .. | outOfFuel => False

section Link

variable {Path : Type}

namespace Loader

def body (g : Loader Path) (id : Nat) : Body := (g.modules[id]?.map (·.body)).getD []

/-- `file.deps.at`: the loader followed every specifier. -/
def dep (g : Loader Path) (id : Nat) (specifier : String) : Nat :=
  ((g.deps id).lookup specifier).getD 0

end Loader

def collectLocals (g : Loader Path) (id : Nat) (mi : ModuleInfo) : ModuleInfo :=
  { mi with
    localNames := mi.localNames ++ (g.body id).flatMap fun
      | .statement declared => declared
      | _ => [] }

/-- One specifier of an import declaration, in `collectImports`. -/
def addImport (id target : Nat) (mi : ModuleInfo) (spec : ImportSpecifier) :
    Except LinkError ModuleInfo :=
  if (mi.imports.lookup spec.local_).isSome then .error (.duplicateImport spec.local_ id)
  else if spec.local_ ∈ mi.localNames then .error (.importedAndDeclared spec.local_ id)
  else
    let binding : ImportBinding :=
      { module := target, exportName := spec.imported, isNamespace := spec.isNamespace }
    .ok { mi with
      imports := mi.imports ++ [(spec.local_, binding)]
      namespaceLocals := mi.namespaceLocals ++
        if spec.isNamespace then [(.source spec.local_, target)] else [] }

def collectImports (g : Loader Path) (id : Nat) (mi : ModuleInfo) : Except LinkError ModuleInfo :=
  (imports (g.body id)).foldlM
    (fun mi imp => imp.specifiers.foldlM (addImport id (g.dep id imp.specifier)) mi) mi

def addExport (id : Nat) (exported : String) (entry : ExportEntry) (mi : ModuleInfo) :
    Except LinkError ModuleInfo :=
  if (mi.exports.lookup exported).isSome then .error (.duplicateExport exported id)
  else .ok { mi with exports := mi.exports ++ [(exported, entry)] }

/-- One specifier of `export { .. } from`, in `collectExports`. -/
def addReExport (id target : Nat) (mi : ModuleInfo) (spec : ExportSpecifier) :
    Except LinkError ModuleInfo :=
  addExport id spec.exported { indirect := true, targetModule := target, targetName := spec.local_ }
    mi

/-- One specifier of `export { .. }`, in `collectExports`. -/
def addLocalExport (id : Nat) (mi : ModuleInfo) (spec : ExportSpecifier) :
    Except LinkError ModuleInfo :=
  match mi.imports.lookup spec.local_ with
  | some imported =>
    -- a namespace is a const of this module, any other import stays the other module's binding
    if imported.isNamespace then addExport id spec.exported { localName := .source spec.local_ } mi
    else
      addExport id spec.exported
        { indirect := true, targetModule := imported.module, targetName := imported.exportName } mi
  | none =>
    if spec.local_ ∈ mi.localNames then
      addExport id spec.exported { localName := .source spec.local_ } mi
    else .error (.namesNothing spec.local_ id)

/-- One export declaration, in `collectExports`, with the counter of the synthetic names. -/
def collectExport (g : Loader Path) (id : Nat) (st : ModuleInfo × Nat) (exp : ExportNamesDecl) :
    Except LinkError (ModuleInfo × Nat) := do
  let (mi, counter) := st
  if exp.isStar then
    if exp.starAlias = "" then return (mi, counter)
    let local_ := LocalName.synthetic counter
    let target := g.dep id exp.fromSpecifier
    let mi' := { mi with namespaceLocals := mi.namespaceLocals ++ [(local_, target)] }
    return (← addExport id exp.starAlias { localName := local_ } mi', counter + 1)
  else if exp.hasFrom then
    return (← exp.specifiers.foldlM (addReExport id (g.dep id exp.fromSpecifier)) mi, counter)
  else
    return (← exp.specifiers.foldlM (addLocalExport id) mi, counter)

def collectExports (g : Loader Path) (id : Nat) (st : ModuleInfo × Nat) :
    Except LinkError (ModuleInfo × Nat) :=
  (exports (g.body id)).foldlM (collectExport g id) st

abbrev Info := Nat → ModuleInfo

/-- `info_`, with the counter of the synthetic names -/
structure Tables where
  info : Info := fun _ => {}
  syntheticCounter : Nat := 0

def collect (g : Loader Path) (st : Tables) (id : Nat) : Except LinkError Tables := do
  let mi ← collectImports g id (collectLocals g id (st.info id))
  let (mi, counter) ← collectExports g id (mi, st.syntheticCounter)
  return { info := Function.update st.info id mi, syntheticCounter := counter }

def Info.entry (info : Info) (export_ : Nat × String) : Option ExportEntry :=
  (info export_.1).exports.lookup export_.2

/-- The loop of `resolveExport`. -/
def resolveHops (info : Info) (name : String) :
    (hops : Nat) → Nat × String → Except LinkError (Nat × LocalName)
  | 0, _ => .error (.tooDeep name)
  | hops + 1, (current, want) =>
    match info.entry (current, want) with
    | none => .error (.noExport current want)
    | some entry =>
      if entry.indirect then resolveHops info name hops (entry.targetModule, entry.targetName)
      else .ok (current, entry.localName)

def resolveExport (info : Info) (moduleId : Nat) (name : String) :
    Except LinkError (Nat × LocalName) :=
  resolveHops info name 64 (moduleId, name)

/-- One name of the target of an `export *`, in `expandStarExports`. -/
def expandName (id target : Nat) (st : Info × Bool) (name : String) :
    Except LinkError (Info × Bool) := do
  let (info, changed) := st
  if name = "default" then return (info, changed)
  match info.entry (id, name) with
  | some existing =>
    -- an export of the module's own wins
    if ¬existing.fromStar then return (info, changed)
    let a := (resolveExport info existing.targetModule existing.targetName).toOption
    let b := (resolveExport info target name).toOption
    if a.isSome ∧ a = b then return (info, changed)
    throw (.ambiguousExport name id)
  | none =>
    let entry : ExportEntry :=
      { indirect := true, targetModule := target, targetName := name, fromStar := true }
    return (Function.update info id (← addExport id name entry (info id)), true)

/-- One `export *`, in `expandStarExports`. A module that takes the names of its own table adds none
to it, so the table of the target does not grow. -/
def expandStar (g : Loader Path) (id : Nat) (st : Info × Bool) (exp : ExportNamesDecl) :
    Except LinkError (Info × Bool) :=
  if !exp.isStar || exp.starAlias ≠ "" then .ok st
  else
    let target := g.dep id exp.fromSpecifier
    ((st.1 target).exports.map (·.1)).foldlM (expandName id target) st

def expandStarExports (g : Loader Path) (st : Info × Bool) (id : Nat) :
    Except LinkError (Info × Bool) :=
  (exports (g.body id)).foldlM (expandStar g id) st

def expandAll (g : Loader Path) (info : Info) : Except LinkError (Info × Bool) :=
  g.evaluationOrder.foldlM (expandStarExports g) (info, false)

def renameImport (info : Info) (id : Nat) (imported : String × ImportBinding) :
    Except LinkError (String × String) := do
  let (local_, binding) := imported
  if binding.isNamespace then return (local_, canonicalName id (.source local_))
  let (defModule, defLocal) ← resolveExport info binding.module binding.exportName
  return (local_, canonicalName defModule defLocal)

/-- The imports in the order of their local names, which is that of the `std::map` that holds
them. -/
def ModuleInfo.importsByName (mi : ModuleInfo) : List (String × ImportBinding) :=
  mi.imports.mergeSort fun a b => a.1 ≤ b.1

def buildRenames (info : Info) (id : Nat) : Except LinkError (List (String × String)) := do
  let locals := (info id).localNames.map fun name => (name, canonicalName id (.source name))
  return locals ++ (← (info id).importsByName.mapM (renameImport info id))

/-- `synthesizeNamespace`: the members of a namespace object and what they read. -/
def synthesizeNamespace (info : Info) (target : Nat) : Except LinkError (List (String × String)) :=
  (info target).exports.mapM fun (name, _) => do
    let (defModule, defLocal) ← resolveExport info target name
    return (name, canonicalName defModule defLocal)

def ensureModuleNamespace (info : Info) (declared : List (Nat × List (String × String)))
    (target : Nat) : Except LinkError (List (Nat × List (String × String))) := do
  if (declared.lookup target).isSome then return declared
  return declared ++ [(target, ← synthesizeNamespace info target)]

structure Linked where
  info : Info
  renames : List (Nat × List (String × String))
  namespaces : List (Nat × List (String × String))

/-- How many passes can add a name: each table holds names that some module writes. -/
def maxPasses (g : Loader Path) (info : Info) : Nat :=
  g.evaluationOrder.length * (g.evaluationOrder.map fun id => (info id).exports.length).sum

/-- `Linker::run`, up to the merge -/
def link (g : Loader Path) : Except LinkError Linked := do
  let tables ← g.evaluationOrder.foldlM (collect g) {}
  let info ← untilUnchanged .outOfFuel (expandAll g) (maxPasses g tables.info + 1) tables.info
  let renames ← g.evaluationOrder.mapM fun id => return (id, ← buildRenames info id)
  let namespaces ← (g.evaluationOrder.flatMap fun id => (info id).namespaceLocals).foldlM
    (fun declared ns => ensureModuleNamespace info declared ns.2) []
  return { info, renames, namespaces }

end Link

end Bronze.Modules
