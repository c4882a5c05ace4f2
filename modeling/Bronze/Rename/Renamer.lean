import Bronze.Rename.Scoping

/-!
# The Renamer

The rename map the linker builds for a module and the walk that applies it: a
stack of shadowing sets, pushed at each construct that opens a scope.

## Main results

* `canonicalName_inj`: no two bindings have one canonical name
-/

namespace Bronze.Rename

/-- `ImportBinding`, with the module and the local name that `resolveExport`
finds for it; a namespace import is bound to an object of the file itself. -/
structure ImportBinding where
  localName : String
  isNamespace : Bool
  module : Nat
  definition : String
  deriving DecidableEq, Repr

/-- `ModuleFile`: the id, the body, the imports that bind a value, and the names
of the namespace objects the linker declares for the file. -/
structure ModuleFile where
  id : Nat
  body : List Stmt
  imports : List ImportBinding
  namespaceLocals : List String

/-- `canonicalName`: the entry file keeps its names. -/
def canonicalName (moduleId : Nat) (localName : String) : String :=
  if moduleId = 0 then localName else "mod" ++ toString moduleId ++ "." ++ localName

/-- A binding of a module's scope: the module, and its name there. -/
structure Binding where
  module : Nat
  name : String
  deriving DecidableEq, Repr

/-- The name of the binding in the one flat namespace. -/
def Binding.canonical (binding : Binding) : String := canonicalName binding.module binding.name

/-- `collectLocals`: the names a module body declares. -/
def collectLocals (file : ModuleFile) : List String :=
  getScopeDeclarations file.body ++ getHoistedVarDeclarations file.body

/-- What a file declares: the names of its body, and those the linker invents for it. -/
def ModuleFile.declared (file : ModuleFile) : List String :=
  collectLocals file ++ file.namespaceLocals

/-- The canonical name `buildRenames` gives an import. -/
def ImportBinding.canonical (fileId : Nat) (binding : ImportBinding) : String :=
  if binding.isNamespace then canonicalName fileId binding.localName
  else canonicalName binding.module binding.definition

/-- `buildRenames`: the first entry of a name counts, since an import is written
over a local of the same name. -/
def buildRenames (file : ModuleFile) : List (String × String) :=
  file.imports.map (fun binding => (binding.localName, binding.canonical file.id)) ++
    (collectLocals file).map fun name => (name, canonicalName file.id name)

/-- `shadow_`, the innermost set first. -/
abbrev Shadow := List (List String)

def shadowed (shadow : Shadow) (name : String) : Bool :=
  shadow.any fun scope => scope.contains name

def rewrite (renames : List (String × String)) (shadow : Shadow) (name : String) : String :=
  if shadowed shadow name then name else (renames.lookup name).getD name

/-- The one set `Renamer::functionBody` pushes for parameters and body. -/
def functionScope (own : Option String) (params body : List String) : List String :=
  own.toList ++ params ++ body

/-- The set `Renamer::iterationHead` pushes: a head with any declaration keyword
declares its names. -/
def headScope (head : HeadKind) (names : List String) : List String :=
  if head = .isConst ∨ head = .isLet ∨ head = .isVar then names else []

/-- The scopes of the Renamer. The names it leaves alone because the head, the
parameter or the catch clause declares them stand in a scope that has them. -/
def renamer : Scoping Shadow where
  block lexical shadow := lexical :: shadow
  functionParams own params body shadow := functionScope own params body :: shadow
  functionBody own params body shadow := functionScope own params body :: shadow
  iterable _ _ shadow := shadow
  iterationHead head names shadow := headScope head names :: shadow
  catchParam params lexical shadow := (params ++ lexical) :: shadow
  catchBody params lexical shadow := (params ++ lexical) :: shadow
  classExpr _ shadow := shadow

/-- `renameModuleScope`: the module's own top level pushes no scope. -/
def renameModuleScope (file : ModuleFile) : List Stmt :=
  renameStmts renamer (rewrite (buildRenames file)) [] file.body

/-! ## Canonical names -/

/-- No `.` can stand in a name of the source, nor in one that the linker invents. -/
def IsIdentifier (name : String) : Prop := '.' ∉ name.toList

instance (name : String) : Decidable (IsIdentifier name) :=
  inferInstanceAs (Decidable (_ ∉ _))

variable {m m' : Nat} {name name' : String}

theorem canonicalName_toList (hm : m ≠ 0) (name : String) : (canonicalName m name).toList =
    (['m', 'o', 'd'] ++ (toString m).toList) ++ '.' :: name.toList := by
  rw [canonicalName, if_neg hm]
  simp

/-- The canonical name of a binding of another file than the entry is no identifier. -/
theorem canonicalName_dot (hm : m ≠ 0) (name : String) :
    ¬ IsIdentifier (canonicalName m name) := by
  simp [IsIdentifier, canonicalName_toList hm]

/-- What stands before the first `.` of a canonical name has none. -/
theorem canonicalName_stem (m : Nat) : '.' ∉ ['m', 'o', 'd'] ++ (toString m).toList := by
  intro h
  rcases List.mem_append.mp h with h | h
  · revert h
    decide
  · have hdigit : '.'.isDigit = true :=
      Nat.isDigit_of_mem_toDigits (b := 10) (n := m) (by decide) (by decide)
        (by simpa [Nat.repr] using h)
    revert hdigit
    decide

/-- **Two bindings with one canonical name are one.** -/
theorem canonicalName_inj (hname : IsIdentifier name) (hname' : IsIdentifier name') :
    canonicalName m name = canonicalName m' name' ↔ m = m' ∧ name = name' := by
  refine ⟨fun h => ?_, fun h => by rw [h.1, h.2]⟩
  by_cases hm : m = 0
  · by_cases hm' : m' = 0
    · exact ⟨hm.trans hm'.symm, by simpa [canonicalName, hm, hm'] using h⟩
    · -- a name of the entry has no `.`
      refine absurd ?_ (canonicalName_dot hm' name')
      rwa [← h, canonicalName, if_pos hm]
  · by_cases hm' : m' = 0
    · refine absurd ?_ (canonicalName_dot hm name)
      rwa [h, canonicalName, if_pos hm']
    · have hlist := congrArg String.toList h
      rw [canonicalName_toList hm, canonicalName_toList hm'] at hlist
      -- the first `.` is where the name begins, on both sides
      obtain ⟨hstem, -, hrest⟩ :=
        (List.append_cons_inj_of_notMem (canonicalName_stem m) hname).mp hlist
      refine ⟨Nat.repr_injective (String.toList_injective ?_), String.toList_injective hrest⟩
      exact List.append_cancel_left hstem

end Bronze.Rename
