import Bronze.Graph.DepthFirst

/-!
# Loading a module graph

The loader reads a file, enters it under its path, follows the specifiers of the file, and puts the
file into the evaluation order on the way out. It follows the import declarations first and the
`export ... from` declarations after them, while the standard follows both in the order of the
source. Files write no `import()` here.

## Main results

* `load_walks`: the loader is a depth-first walk
* `load_order`: where both orders of the requests agree on what is not loaded yet, the order is the
  standard's
-/

namespace Bronze.Modules

open Graph
open List Option Except Relation.ReflTransGen

structure ImportSpecifier where
  imported : String
  local_ : String
  isNamespace : Bool := false
  deriving DecidableEq

structure ImportDecl where
  specifier : String
  specifiers : List ImportSpecifier := []
  deriving DecidableEq

structure ExportSpecifier where
  local_ : String
  exported : String
  deriving DecidableEq

/-- `ExportNamesDecl`: `export { .. }`, `export { .. } from`, `export * from`, `export * as`. -/
structure ExportNamesDecl where
  specifiers : List ExportSpecifier := []
  hasFrom : Bool := false
  fromSpecifier : String := ""
  isStar : Bool := false
  starAlias : String := ""
  deriving DecidableEq

/-- A top-level item: a declaration of the module system, or a statement with the names it declares
in the module's scope, a `var` that is hoisted to it included. -/
inductive ModuleItem where
  | importDecl (d : ImportDecl)
  | exportNamesDecl (d : ExportNamesDecl)
  | statement (declared : List String)
  deriving DecidableEq

abbrev Body := List ModuleItem

def imports (body : Body) : List ImportDecl :=
  body.filterMap fun
    | .importDecl d => some d
    | _ => none

def exports (body : Body) : List ExportNamesDecl :=
  body.filterMap fun
    | .exportNamesDecl d => some d
    | _ => none

section Load

variable {Path : Type}

/-- Reading and parsing a file, and resolving a specifier from a file. -/
structure Disk (Path : Type) where
  read : Path → Option Body
  resolve : Path → String → Option Path

/-- `ModuleFile`: a file that was entered. Its id is its place. -/
structure ModuleFile (Path : Type) where
  path : Path
  body : Body
  deps : List (String × Nat) := []

structure Loader (Path : Type) where
  modules : List (ModuleFile Path) := []
  evaluationOrder : List Nat := []

inductive LoadError (Path : Type) where
  | cannotRead (path : Path)
  | unresolved (path : Path) (specifier : String)
  | tooManyFiles
  deriving DecidableEq

def kMaxModules : Nat := 4000

namespace Loader

def idOf [DecidableEq Path] (ld : Loader Path) (path : Path) : Option Nat :=
  ld.modules.findIdx? fun m => m.path = path

/-- The file, under its path before its dependencies are followed. -/
def register (ld : Loader Path) (path : Path) (body : Body) : Loader Path :=
  { ld with modules := ld.modules ++ [{ path, body }] }

def finish (ld : Loader Path) (id : Nat) : Loader Path :=
  { ld with evaluationOrder := ld.evaluationOrder ++ [id] }

def deps (ld : Loader Path) (id : Nat) : List (String × Nat) :=
  (ld.modules[id]?.map (·.deps)).getD []

def addDep (ld : Loader Path) (id : Nat) (specifier : String) (target : Nat) : Loader Path :=
  { ld with
    modules := ld.modules.modify id fun m => { m with deps := (specifier, target) :: m.deps } }

end Loader

/-- `loadDependencies`: imports first, then `export ... from`, each in source order. -/
def requests (body : Body) : List String :=
  (imports body).map (·.specifier) ++
    ((exports body).filter (·.hasFrom)).map (·.fromSpecifier)

/-- `follow`, with the loader to enter a file with. -/
def follow (disk : Disk Path)
    (load : Path → Loader Path → Except (LoadError Path) (Nat × Loader Path)) (path : Path)
    (id : Nat) (ld : Loader Path) (specifier : String) : Except (LoadError Path) (Loader Path) :=
  -- the same specifier twice is one edge
  if (ld.deps id).any (·.1 = specifier) then .ok ld
  else
    match disk.resolve path specifier with
    | none => .error (.unresolved path specifier)
    | some target =>
      match load target ld with
      | .error e => .error e
      | .ok (targetId, ld) => .ok (ld.addDep id specifier targetId)

/-- The specifiers of a file, followed one after another. -/
def followAll (disk : Disk Path)
    (load : Path → Loader Path → Except (LoadError Path) (Nat × Loader Path)) (path : Path)
    (id : Nat) : List String → Loader Path → Except (LoadError Path) (Loader Path)
  | [], ld => .ok ld
  | specifier :: rest, ld =>
    match follow disk load path id ld specifier with
    | .error e => .error e
    | .ok ld => followAll disk load path id rest ld

/-- `load` and `loadBuffer`, for at most `fuel` files inside one another. -/
def load [DecidableEq Path] (disk : Disk Path) : (fuel : Nat) → Path → Loader Path →
    Except (LoadError Path) (Nat × Loader Path)
  | 0, _, _ => .error .tooManyFiles
  | fuel + 1, path, ld =>
    match ld.idOf path with
    | some id => .ok (id, ld)
    | none =>
      match disk.read path with
      | none => .error (.cannotRead path)
      | some body =>
        if ld.modules.length + 1 > kMaxModules then .error .tooManyFiles
        else
          match followAll disk (load disk fuel) path ld.modules.length (requests body)
              (ld.register path body) with
          | .error e => .error e
          | .ok ld' => .ok (ld.modules.length, ld'.finish ld.modules.length)

/-- `loadGraph`: the files the loader can hold bound how deep it goes. -/
def loadGraph [DecidableEq Path] (disk : Disk Path) (entry : Path) :
    Except (LoadError Path) (Nat × Loader Path) :=
  load disk (kMaxModules + 1) entry {}

namespace Loader

/-- The paths of the files, in the order of their ids. -/
def paths (ld : Loader Path) : List Path := ld.modules.map (·.path)

/-- The evaluation order, as paths. -/
def order (ld : Loader Path) : List Path := ld.evaluationOrder.filterMap fun id => ld.paths[id]?

variable (ld : Loader Path)

@[simp] theorem length_paths : ld.paths.length = ld.modules.length :=
  length_map ..

variable (path : Path)

variable (body : Body)

@[simp] theorem paths_register : (ld.register path body).paths = ld.paths ++ [path] := by
  simp [paths, register]

theorem length_register : (ld.register path body).modules.length = ld.modules.length + 1 :=
  length_append

theorem getElem?_register : (ld.register path body).paths[ld.modules.length]? = some path := by
  rw [paths_register, ← length_paths, getElem?_concat_length]

@[simp] theorem paths_finish (id : Nat) : (ld.finish id).paths = ld.paths := rfl

@[simp] theorem paths_addDep (id : Nat) (specifier : String) (target : Nat) :
    (ld.addDep id specifier target).paths = ld.paths := by
  apply ext_getElem?
  intro i
  simp only [paths, addDep, getElem?_map, getElem?_modify]
  cases ld.modules[i]? with
  | none => rfl
  | some m => split_ifs <;> rfl

variable {ld : Loader Path} {path : Path} {id : Nat} {disk : Disk Path}

theorem idOf_eq_some [DecidableEq Path] (h : ld.idOf path = some id) :
    ld.paths[id]? = some path := by
  obtain ⟨hlt, hpath, -⟩ := findIdx?_eq_some_iff_getElem.mp h
  rw [paths, getElem?_map, getElem?_eq_getElem hlt]
  exact congrArg some (of_decide_eq_true hpath)

theorem idOf_eq_none [DecidableEq Path] (h : ld.idOf path = none) : path ∉ ld.paths := by
  intro hmem
  obtain ⟨m, hm, hpath⟩ := mem_map.mp hmem
  exact absurd hpath (of_decide_eq_false (findIdx?_eq_none_iff.mp h m hm))

/-- A dependency leads to a file that was entered, and only such files are in the order. -/
structure Inv (disk : Disk Path) (ld : Loader Path) : Prop where
  deps : ∀ m ∈ ld.modules, ∀ dep ∈ m.deps, ∃ target,
    disk.resolve m.path dep.1 = some target ∧ ld.paths[dep.2]? = some target
  order : ∀ id ∈ ld.evaluationOrder, id < ld.modules.length
  nodup : ld.paths.Nodup

theorem Inv.start (disk : Disk Path) : Inv disk ({} : Loader Path) :=
  ⟨by simp, by simp, nodup_nil⟩

theorem Inv.register (h : Inv disk ld) (hpath : path ∉ ld.paths) (body : Body) :
    Inv disk (ld.register path body) where
  deps m hm dep hdep := by
    rcases mem_append.mp hm with hm | hm
    · obtain ⟨target, hresolve, hid⟩ := h.deps m hm dep hdep
      refine ⟨target, hresolve, ?_⟩
      rw [paths_register]
      exact List.getElem?_append_left (List.getElem?_eq_some_iff.mp hid).1 ▸ hid
    · rw [List.mem_singleton.mp hm] at hdep
      exact absurd hdep not_mem_nil
  order id hid := by
    have hlt := h.order id hid
    rw [← length_paths, paths_register, length_append, length_paths]
    omega
  nodup := by
    rw [paths_register]
    refine nodup_append.mpr ⟨h.nodup, nodup_singleton path, ?_⟩
    intro x hx y hy hxy
    rw [mem_singleton.mp hy] at hxy
    exact hpath (hxy ▸ hx)

theorem Inv.order_register (h : Inv disk ld) (path : Path) (body : Body) :
    (ld.register path body).order = ld.order := by
  rw [Loader.order, paths_register]
  refine filterMap_congr fun id hid => ?_
  exact getElem?_append_left (by rw [length_paths]; exact h.order id hid)

theorem order_finish (hid : ld.paths[id]? = some path) :
    (ld.finish id).order = ld.order ++ [path] := by
  rw [Loader.order, paths_finish, finish, filterMap_append]
  congr 1
  rw [filterMap_cons_some hid, filterMap_nil]

theorem Inv.finish (h : Inv disk ld) (hid : id < ld.modules.length) : Inv disk (ld.finish id) where
  deps := h.deps
  order i hi := by
    rcases mem_append.mp hi with hi | hi
    · exact h.order i hi
    · rw [mem_singleton.mp hi]
      exact hid
  nodup := h.nodup

theorem Inv.addDep {disk : Disk Path} {ld : Loader Path} (h : Inv disk ld) {id target : Nat}
    {specifier : String} {path targetPath : Path} (hpath : ld.paths[id]? = some path)
    (hresolve : disk.resolve path specifier = some targetPath)
    (htarget : ld.paths[target]? = some targetPath) : Inv disk (ld.addDep id specifier target) where
  deps m hm dep hdep := by
    rw [paths_addDep]
    obtain ⟨i, hi⟩ := mem_iff_getElem?.mp hm
    rw [Loader.addDep, getElem?_modify] at hi
    cases hget : ld.modules[i]? with
    | none =>
      rw [hget] at hi
      cases hi
    | some m₀ =>
      rw [hget] at hi
      have hm₀ := mem_of_getElem? hget
      by_cases heq : id = i
      · subst heq
        -- the file that got the dependency
        obtain rfl : _ = m := by simpa using hi
        rw [paths, getElem?_map, hget] at hpath
        obtain rfl : m₀.path = path := by simpa using hpath
        rcases mem_cons.mp hdep with rfl | hdep
        · exact ⟨targetPath, hresolve, htarget⟩
        · exact h.deps m₀ hm₀ dep hdep
      · obtain rfl : m₀ = m := by simpa [heq] using hi
        exact h.deps m₀ hm₀ dep hdep
  order i hi := by
    rw [← length_paths, paths_addDep, length_paths]
    exact h.order i hi
  nodup := by
    rw [paths_addDep]
    exact h.nodup

end Loader

/-! ## The loader is a walk -/

/-- The files that a file leads to, in the order the loader follows them. -/
def followed (disk : Disk Path) (path : Path) : List Path :=
  match disk.read path with
  | none => []
  | some body => (requests body).filterMap (disk.resolve path)

/-- `Walks disk ld todo ld'`: loading what is to do, one after another, was a walk. -/
structure Walks (disk : Disk Path) (ld : Loader Path) (todo : List Path) (ld' : Loader Path) :
    Prop where
  inv : ld'.Inv disk
  more : ∃ added, ld'.paths = ld.paths ++ added
  limit : ld.modules.length ≤ kMaxModules → ld'.modules.length ≤ kMaxModules
  visits : ∃ out entries,
    Visits (followed disk) ld.paths.reverse todo ld'.paths.reverse out entries ∧
    ld'.order = ld.order ++ out

namespace Walks

variable {disk : Disk Path} {ld ld₁ ld' : Loader Path} {todo todo' : List Path}

theorem nil (h : ld.Inv disk) : Walks disk ld [] ld :=
  ⟨h, ⟨[], (append_nil _).symm⟩, id, ⟨[], [], .nil _, (append_nil _).symm⟩⟩

theorem known (h : ld.Inv disk) {path : Path} (hpath : path ∈ ld.paths) : Walks disk ld [path] ld :=
  ⟨h, ⟨[], (append_nil _).symm⟩, id,
    ⟨[], [], .skip (mem_reverse.mpr hpath) (.nil _), (append_nil _).symm⟩⟩

theorem append (h : Walks disk ld todo ld₁) (h' : Walks disk ld₁ todo' ld') :
    Walks disk ld (todo ++ todo') ld' := by
  obtain ⟨added, hadded⟩ := h.more
  obtain ⟨added', hadded'⟩ := h'.more
  obtain ⟨out, entries, hvisits, horder⟩ := h.visits
  obtain ⟨out', entries', hvisits', horder'⟩ := h'.visits
  refine ⟨h'.inv, ⟨added ++ added', ?_⟩, fun hle => h'.limit (h.limit hle),
    ⟨out ++ out', entries ++ entries', hvisits.append hvisits', ?_⟩⟩
  · simp [hadded', hadded]
  · simp [horder', horder]

variable (h : Walks disk ld todo ld')

include h

theorem getElem? {id : Nat} {path : Path}
    (hid : ld.paths[id]? = some path) : ld'.paths[id]? = some path := by
  obtain ⟨added, hadded⟩ := h.more
  rw [hadded, List.getElem?_append_left (List.getElem?_eq_some_iff.mp hid).1, hid]

theorem length_le : ld.modules.length ≤ ld'.modules.length := by
  obtain ⟨added, hadded⟩ := h.more
  have hlength := congrArg length hadded
  rw [Loader.length_paths, length_append, Loader.length_paths] at hlength
  omega

theorem addDep {id target : Nat} {specifier : String} {path targetPath : Path}
    (hpath : ld'.paths[id]? = some path) (hresolve : disk.resolve path specifier = some targetPath)
    (htarget : ld'.paths[target]? = some targetPath) :
    Walks disk ld todo (ld'.addDep id specifier target) := by
  have horder : (ld'.addDep id specifier target).order = ld'.order := by
    rw [Loader.order, Loader.paths_addDep]
    rfl
  refine ⟨h.inv.addDep hpath hresolve htarget, ?_, ?_, ?_⟩
  · rw [Loader.paths_addDep]
    exact h.more
  · rw [← Loader.length_paths (ld'.addDep id specifier target), Loader.paths_addDep,
      Loader.length_paths]
    exact h.limit
  · rw [Loader.paths_addDep, horder]
    exact h.visits

end Walks

section Followed

variable {disk : Disk Path}
  {enter : Path → Loader Path → Except (LoadError Path) (Nat × Loader Path)} {path : Path}
  {id : Nat} {ld ld' : Loader Path}

theorem follow_walks (henter : ∀ target ld id ld', ld.Inv disk → enter target ld = .ok (id, ld') →
      Walks disk ld [target] ld' ∧ ld'.paths[id]? = some target)
    {specifier : String} (hinv : ld.Inv disk) (hid : ld.paths[id]? = some path)
    (h : follow disk enter path id ld specifier = .ok ld') :
    Walks disk ld ([specifier].filterMap (disk.resolve path)) ld' := by
  rw [follow] at h
  split_ifs at h with hknown
  · -- a specifier that was followed before leads to a file that was entered
    obtain rfl := ok.inj h
    obtain ⟨dep, hdep, hspec⟩ := any_eq_true.mp hknown
    obtain rfl : dep.1 = specifier := of_decide_eq_true hspec
    rw [Loader.paths, getElem?_map] at hid
    obtain ⟨m, hm, rfl⟩ := map_eq_some_iff.mp hid
    rw [Loader.deps, hm] at hdep
    obtain ⟨target, hresolve, htarget⟩ := hinv.deps m (mem_of_getElem? hm) dep hdep
    rw [filterMap_cons_some hresolve]
    exact Walks.known hinv (mem_of_getElem? htarget)
  · cases hresolve : disk.resolve path specifier with
    | none =>
      rw [hresolve] at h
      cases h
    | some target =>
      rw [hresolve] at h
      rw [filterMap_cons_some hresolve]
      cases hrun : enter target ld with
      | error e =>
        simp only [hrun] at h
        cases h
      | ok r =>
        simp only [hrun] at h
        obtain rfl := ok.inj h
        obtain ⟨hwalks, htarget⟩ := henter target ld r.1 r.2 hinv hrun
        exact hwalks.addDep (hwalks.getElem? hid) hresolve htarget

theorem followAll_walks
    (henter : ∀ target ld id ld', ld.Inv disk → enter target ld = .ok (id, ld') →
      Walks disk ld [target] ld' ∧ ld'.paths[id]? = some target)
    {specifiers : List String} (hinv : ld.Inv disk) (hid : ld.paths[id]? = some path)
    (h : followAll disk enter path id specifiers ld = .ok ld') :
    Walks disk ld (specifiers.filterMap (disk.resolve path)) ld' := by
  induction specifiers generalizing ld with
  | nil =>
    obtain rfl := ok.inj h
    exact Walks.nil hinv
  | cons specifier rest ih =>
    rw [followAll] at h
    cases hrun : follow disk enter path id ld specifier with
    | error e =>
      rw [hrun] at h
      cases h
    | ok ld₁ =>
      rw [hrun] at h
      have hfirst := follow_walks henter hinv hid hrun
      have hrest := ih hfirst.inv (hfirst.getElem? hid) h
      have hall := hfirst.append hrest
      rwa [← filterMap_append] at hall

end Followed

variable {disk : Disk Path}

/-- **The loader is a depth-first walk** that follows imports before re-exports. -/
theorem load_walks [DecidableEq Path] {fuel : Nat} {path : Path} {ld ld' : Loader Path} {id : Nat}
    (hinv : ld.Inv disk) (h : load disk fuel path ld = .ok (id, ld')) :
    Walks disk ld [path] ld' ∧ ld'.paths[id]? = some path := by
  induction fuel generalizing path ld ld' id with
  | zero => cases h
  | succ fuel ih =>
    rw [load] at h
    cases hknown : ld.idOf path with
    | some known =>
      rw [hknown] at h
      obtain ⟨rfl, rfl⟩ := Prod.mk.inj (ok.inj h)
      have hid := Loader.idOf_eq_some hknown
      exact ⟨Walks.known hinv (mem_of_getElem? hid), hid⟩
    | none =>
      have hnot := Loader.idOf_eq_none hknown
      simp only [hknown] at h
      cases hread : disk.read path with
      | none =>
        rw [hread] at h
        cases h
      | some body =>
        simp only [hread] at h
        split_ifs at h with hlimit
        cases hrun : followAll disk (load disk fuel) path ld.modules.length (requests body)
            (ld.register path body) with
        | error e =>
          rw [hrun] at h
          cases h
        | ok ld₁ =>
          simp only [hrun] at h
          obtain ⟨rfl, rfl⟩ := Prod.mk.inj (ok.inj h)
          have hid := ld.getElem?_register path body
          have hbelow := followAll_walks (fun _ _ _ _ hinv hrun => ih hinv hrun)
            (hinv.register hnot body) hid hrun
          have hid₁ := hbelow.getElem? hid
          have hlt := (List.getElem?_eq_some_iff.mp hid₁).1
          obtain ⟨added, hadded⟩ := hbelow.more
          obtain ⟨out, entries, hvisits, horder⟩ := hbelow.visits
          have hfollowed : followed disk path = (requests body).filterMap (disk.resolve path) := by
            rw [followed, hread]
          rw [Loader.length_paths] at hlt
          refine ⟨⟨hbelow.inv.finish hlt, ⟨path :: added, ?_⟩, ?_, ?_⟩, hid₁⟩
          · rw [Loader.paths_finish, hadded, Loader.paths_register, append_assoc]
            rfl
          · intro _
            apply hbelow.limit
            rw [Loader.length_register]
            exact Nat.not_lt.mp hlimit
          · rw [Loader.paths_register, reverse_append] at hvisits
            refine ⟨out ++ [path], (ld.paths.reverse, path) :: (entries ++ []),
              .enter (mt mem_reverse.mp hnot) ?_ (.nil _), ?_⟩
            · rw [hfollowed]
              exact hvisits
            · simp [Loader.order_finish hid₁, horder, hinv.order_register]

def ModuleItem.request : ModuleItem → Option String
  | .importDecl d => some d.specifier
  | .exportNamesDecl d => if d.hasFrom then some d.fromSpecifier else none
  | .statement _ => none

/-- `[[RequestedModules]]`: the specifiers of a module in the order of its source, each once. -/
def requestedModules (body : Body) : List String := fresh [] (body.filterMap ModuleItem.request)

def requested (disk : Disk Path) (path : Path) : List Path :=
  match disk.read path with
  | none => []
  | some body => (requestedModules body).filterMap (disk.resolve path)

/-- The modules that evaluating the entry evaluates. -/
def Reachable (disk : Disk Path) : Path → Path → Prop :=
  Relation.ReflTransGen fun a b => b ∈ requested disk a

/-- `InnerModuleEvaluation` of the entry: a module is evaluated after the modules it requests, save
those that are being evaluated already. -/
def EvaluationOrder (disk : Disk Path) (entry : Path) (order : List Path) : Prop :=
  ∃ seen entries, Visits (requested disk) [] [entry] seen order entries

theorem mem_fresh {V : Type} [DecidableEq V] {seen l : List V} {x : V} :
    x ∈ fresh seen l ↔ x ∈ l ∧ x ∉ seen := by
  induction l generalizing seen with
  | nil => simp [fresh]
  | cons v vs ih =>
    rw [fresh]
    split_ifs with hv
    · rw [ih, mem_cons]
      constructor
      · exact fun h => ⟨.inr h.1, h.2⟩
      · rintro ⟨rfl | h, hnot⟩
        · exact absurd hv hnot
        · exact ⟨h, hnot⟩
    · rw [mem_cons, ih]
      by_cases hx : x = v
      · subst hx
        simp [hv]
      · simp [hx]

theorem mem_requests {body : Body} {specifier : String} :
    specifier ∈ requests body ↔ specifier ∈ requestedModules body := by
  have hrequest : specifier ∈ requestedModules body ↔
      ∃ item ∈ body, item.request = some specifier := by
    rw [requestedModules, mem_fresh]
    simp
  rw [hrequest, requests, mem_append, List.mem_map, List.mem_map]
  constructor
  · rintro (⟨d, hd, rfl⟩ | ⟨d, hd, rfl⟩)
    · obtain ⟨item, hitem, hsome⟩ := mem_filterMap.mp hd
      cases item <;> simp at hsome
      exact ⟨_, hitem, by rw [hsome]; rfl⟩
    · obtain ⟨hd, hfrom⟩ := mem_filter.mp hd
      obtain ⟨item, hitem, hsome⟩ := mem_filterMap.mp hd
      cases item <;> simp at hsome
      exact ⟨_, hitem, by rw [hsome]; exact if_pos hfrom⟩
  · rintro ⟨item, hitem, hsome⟩
    cases item with
    | importDecl d => exact .inl ⟨d, mem_filterMap.mpr ⟨_, hitem, rfl⟩, some.inj hsome⟩
    | exportNamesDecl d =>
      rw [ModuleItem.request] at hsome
      split_ifs at hsome with hfrom
      exact .inr ⟨d, mem_filter.mpr ⟨mem_filterMap.mpr ⟨_, hitem, rfl⟩, hfrom⟩, some.inj hsome⟩
    | statement declared => cases hsome

theorem mem_followed {a b : Path} : b ∈ followed disk a ↔ b ∈ requested disk a := by
  rw [followed, requested]
  cases disk.read a with
  | none => exact Iff.rfl
  | some body => simp [mem_requests]

theorem reachable_iff {entry path : Path} : Reachable disk entry path ↔
      Relation.ReflTransGen (fun a b => b ∈ followed disk a) entry path := by
  simp [Reachable, mem_followed]

/-! ## Why loading fails -/

/-- What an error says about the graph of the entry. -/
def Explains (disk : Disk Path) (entry : Path) : LoadError Path → Prop
  | .cannotRead path => Reachable disk entry path ∧ disk.read path = none
  | .unresolved path specifier => Reachable disk entry path ∧ disk.resolve path specifier = none ∧
      ∃ body, disk.read path = some body ∧ specifier ∈ requestedModules body
  | .tooManyFiles => ∃ paths : List Path, paths.Nodup ∧ kMaxModules < paths.length ∧
      ∀ path ∈ paths, Reachable disk entry path

section Explains

variable {disk : Disk Path} {entry path : Path} {ld ld' : Loader Path} {e : LoadError Path}

theorem Walks.reachable {todo : List Path} (h : Walks disk ld todo ld')
    (hld : ∀ p ∈ ld.paths, Reachable disk entry p) (htodo : ∀ p ∈ todo, Reachable disk entry p) :
    ∀ p ∈ ld'.paths, Reachable disk entry p := by
  obtain ⟨out, entries, hvisits, -⟩ := h.visits
  intro p hp
  rcases (hvisits.mem_seen p).mp (mem_reverse.mpr hp) with hp | hp
  · exact hld p (mem_reverse.mp hp)
  · obtain ⟨v, hv, hpath⟩ := hvisits.reachable p hp
    exact trans (htodo v hv) (reachable_iff.mpr hpath)

theorem followAll_explains {id : Nat} {body : Body}
    {enter : Path → Loader Path → Except (LoadError Path) (Nat × Loader Path)}
    {specifiers : List String} (hinv : ld.Inv disk) (hid : ld.paths[id]? = some path)
    (hread : disk.read path = some body) (hspecifiers : ∀ s ∈ specifiers, s ∈ requests body)
    (hlimit : ld.modules.length ≤ kMaxModules) (hld : ∀ p ∈ ld.paths, Reachable disk entry p)
    (henter : ∀ target ld id ld', ld.Inv disk → enter target ld = .ok (id, ld') →
      Walks disk ld [target] ld' ∧ ld'.paths[id]? = some target)
    (herror : ∀ target ld₁ e, ld₁.Inv disk → ld.modules.length ≤ ld₁.modules.length →
      ld₁.modules.length ≤ kMaxModules → (∀ p ∈ ld₁.paths, Reachable disk entry p) →
      Reachable disk entry target → enter target ld₁ = .error e → Explains disk entry e)
    (h : followAll disk enter path id specifiers ld = .error e) : Explains disk entry e := by
  induction specifiers generalizing ld with
  | nil => cases h
  | cons specifier rest ih =>
    have hpath := hld path (mem_of_getElem? hid)
    have hspecifier := hspecifiers specifier (mem_cons_self ..)
    have htarget : ∀ target, disk.resolve path specifier = some target →
        Reachable disk entry target := by
      intro target hresolve
      apply tail hpath
      rw [← mem_followed, followed, hread]
      exact mem_filterMap.mpr ⟨specifier, hspecifier, hresolve⟩
    rw [followAll] at h
    cases hrun : follow disk enter path id ld specifier with
    | error e' =>
      rw [hrun] at h
      obtain rfl := error.inj h
      rw [follow] at hrun
      split_ifs at hrun
      cases hresolve : disk.resolve path specifier with
      | none =>
        rw [hresolve] at hrun
        obtain rfl := error.inj hrun
        exact ⟨hpath, hresolve, body, hread, mem_requests.mp hspecifier⟩
      | some target =>
        simp only [hresolve] at hrun
        cases henters : enter target ld with
        | ok r =>
          simp only [henters] at hrun
          cases hrun
        | error e'' =>
          simp only [henters] at hrun
          obtain rfl := error.inj hrun
          exact herror target ld _ hinv (Nat.le_refl _) hlimit hld (htarget target hresolve) henters
    | ok ld₁ =>
      rw [hrun] at h
      have hwalks := follow_walks henter hinv hid hrun
      refine ih hwalks.inv (hwalks.getElem? hid)
        (fun s hs => hspecifiers s (mem_cons_of_mem _ hs)) (hwalks.limit hlimit)
        (hwalks.reachable hld ?_) (fun target ld₂ e hinv₂ hle₂ =>
          herror target ld₂ e hinv₂ (Nat.le_trans hwalks.length_le hle₂)) h
      intro p hp
      obtain ⟨s, hs, hresolve⟩ := mem_filterMap.mp hp
      rw [mem_singleton.mp hs] at hresolve
      exact htarget p hresolve

/-- **Loading fails only for a file or a specifier of the graph, or for its size.** -/
theorem load_explains [DecidableEq Path] {fuel : Nat} (hinv : ld.Inv disk)
    (hlimit : ld.modules.length ≤ kMaxModules) (hfuel : kMaxModules < ld.modules.length + fuel)
    (hld : ∀ p ∈ ld.paths, Reachable disk entry p) (hpath : Reachable disk entry path)
    (h : load disk fuel path ld = .error e) : Explains disk entry e := by
  induction fuel generalizing path ld e with
  | zero => omega
  | succ fuel ih =>
    rw [load] at h
    cases hknown : ld.idOf path with
    | some known =>
      rw [hknown] at h
      cases h
    | none =>
      have hnot := Loader.idOf_eq_none hknown
      -- the files that are loaded, with this one
      have hmore : ∀ p ∈ ld.paths ++ [path], Reachable disk entry p := by
        intro p hp
        rcases mem_append.mp hp with hp | hp
        · exact hld p hp
        · exact mem_singleton.mp hp ▸ hpath
      simp only [hknown] at h
      cases hread : disk.read path with
      | none =>
        simp only [hread] at h
        obtain rfl := error.inj h
        exact ⟨hpath, hread⟩
      | some body =>
        have hregister := hinv.register hnot body
        simp only [hread] at h
        split_ifs at h with hfull
        · obtain rfl := error.inj h
          refine ⟨ld.paths ++ [path], ?_, ?_, hmore⟩
          · have hnodup := hregister.nodup
            rwa [Loader.paths_register] at hnodup
          · rw [length_append, Loader.length_paths]
            exact hfull
        · cases hrun : followAll disk (load disk fuel) path ld.modules.length (requests body)
              (ld.register path body) with
          | ok ld₁ =>
            simp only [hrun] at h
            cases h
          | error e' =>
            simp only [hrun] at h
            obtain rfl := error.inj h
            have hlength := ld.length_register path body
            refine followAll_explains hregister (ld.getElem?_register path body) hread
              (fun _ hs => hs) (by omega) ?_ (fun _ _ _ _ hinv hrun => load_walks hinv hrun)
              (fun target ld₁ e hinv₁ hle₁ hlimit₁ hld₁ htarget henters =>
                ih hinv₁ hlimit₁ (by omega) hld₁ htarget henters) hrun
            rw [Loader.paths_register]
            exact hmore

end Explains

variable [DecidableEq Path]

/-- Whenever the walk of the loader enters a file, what the file requests and is not loaded yet
comes in the order of the source. -/
def SameOrders (disk : Disk Path) (entry : Path) : Prop :=
  ∀ seen out entries, Visits (followed disk) [] [entry] seen out entries → ∀ e ∈ entries,
    fresh (e.2 :: e.1) (followed disk e.2) = fresh (e.2 :: e.1) (requested disk e.2)

/-- **The loader evaluates in the order of the standard** if imports and re-exports that are not
loaded yet come in the order of the source. Whatever their order, it lists every reachable module
once, and it fails only for what the graph has. -/
theorem load_order (disk : Disk Path) (entry : Path) :
    match loadGraph disk entry with
    | .error e => Explains disk entry e
    | .ok (_, ld) => ld.order.Nodup ∧ (∀ path, path ∈ ld.order ↔ Reachable disk entry path) ∧
        (SameOrders disk entry → EvaluationOrder disk entry ld.order) := by
  cases h : loadGraph disk entry with
  | error e =>
    refine load_explains (Loader.Inv.start disk) (Nat.zero_le _) ?_ (by simp [Loader.paths]) .refl h
    rw [Nat.add_comm]
    exact Nat.lt_succ_self _
  | ok r =>
    obtain ⟨id, ld⟩ := r
    obtain ⟨hwalks, -⟩ := load_walks (Loader.Inv.start disk) h
    obtain ⟨out, entries, hvisits, horder⟩ := hwalks.visits
    obtain rfl : ld.order = out := horder
    refine ⟨hvisits.nodup, fun path => ?_, fun hsame => ⟨_, _, hvisits.congr (hsame _ _ _ hvisits)⟩⟩
    rw [hvisits.mem_iff_reachable, reachable_iff]

theorem sameOrders_of_eq {entry : Path} (h : ∀ path, followed disk path = requested disk path) :
    SameOrders disk entry := by
  intro seen out entries _ e _
  rw [h]

def importCycle : Disk Nat where
  read
    | 0 => some [.importDecl { specifier := "1" }, .importDecl { specifier := "0" }]
    | 1 => some [.importDecl { specifier := "0" }, .importDecl { specifier := "1" }]
    | _ => none
  resolve
    | _, "0" => some 0
    | _, "1" => some 1
    | _, _ => none

theorem importCycle_order : EvaluationOrder importCycle 0 [1, 0] := by
  have h : ∀ path, followed importCycle path = requested importCycle path := by
    intro path
    match path with
    | 0 => rfl
    | 1 => rfl
    | _ + 2 => rfl
  exact (load_order importCycle 0).2.2 (sameOrders_of_eq h)

def reExportFirst : Disk Nat where
  read
    | 0 => some [.exportNamesDecl { hasFrom := true, fromSpecifier := "1", isStar := true },
        .importDecl { specifier := "2" }]
    | 1 => some []
    | 2 => some []
    | _ => none
  resolve
    | _, "1" => some 1
    | _, "2" => some 2
    | _, _ => none

/-- The standard evaluates the re-exported file first, the loader evaluates it second. -/
theorem reExportFirst_order :
    (loadGraph reExportFirst 0).toOption.map (·.2.order) = some [2, 1, 0] ∧
      ¬EvaluationOrder reExportFirst 0 [2, 1, 0] := by
  constructor
  · rfl
  · rintro ⟨seen, entries, h⟩
    have hleaf : ∀ seen, Visits (requested reExportFirst) seen [] seen [] [] := fun _ => .nil _
    have htwo : Visits (requested reExportFirst) [1, 0] [2] [2, 1, 0] [2] [([1, 0], 2)] :=
      Visits.enter (by decide) (hleaf [2, 1, 0]) (hleaf [2, 1, 0])
    have hone : Visits (requested reExportFirst) [0] [1, 2] [2, 1, 0] [1, 2]
        [([0], 1), ([1, 0], 2)] :=
      Visits.enter (by decide) (hleaf [1, 0]) htwo
    have hstandard : Visits (requested reExportFirst) [] [0] [2, 1, 0] [1, 2, 0]
        [([], 0), ([0], 1), ([1, 0], 2)] :=
      Visits.enter not_mem_nil hone (hleaf [2, 1, 0])
    obtain ⟨-, horder, -⟩ := hstandard.unique h
    cases horder

end Load

end Bronze.Modules
