import Bronze.Rename.Ecma

/-!
# Occurrences of a renamed body

A rewriting that leaves alone what an enclosing scope binds changes no scope: the
renamed body has the occurrences of the original in the environments of the
original, each under its new name.

## Main definitions

* `varOccurrences`: where the `var`s of a statement are declared

## Main results

* `varsOccurrences_declared`: the `var`s of the renamed body
* `stmtsOccurrences_rename`: the occurrences of the renamed body
-/

namespace Bronze.Rename

open List

section Environments

variable {env : List (List String)} {name : String} {names : List String}

@[simp] theorem bound_block :
    Bound (ecma.block names env) name ↔ name ∈ names ∨ Bound env name := by
  simp [ecma]

variable {params body : List String} {own : Option String}

@[simp] theorem bound_functionParams :
    Bound (ecma.functionParams own params body env) name ↔
      name ∈ params ∨ name ∈ own.toList ∨ Bound env name := by
  simp [ecma]

@[simp] theorem bound_functionBody :
    Bound (ecma.functionBody own params body env) name ↔
      name ∈ body ∨ name ∈ params ∨ name ∈ own.toList ∨ Bound env name := by
  simp [ecma]

variable {params lexical : List String}

@[simp] theorem bound_catchParam :
    Bound (ecma.catchParam params lexical env) name ↔ name ∈ params ∨ Bound env name := by
  simp [ecma]

@[simp] theorem bound_catchBody :
    Bound (ecma.catchBody params lexical env) name ↔
      name ∈ lexical ∨ name ∈ params ∨ Bound env name := by
  simp [ecma]

theorem bound_iterationHead {head : HeadKind} {names : List String} (h : Bound env name) :
    Bound (ecma.iterationHead head names env) name := by
  cases head <;> simp [ecma, headEnvironment, h]

end Environments

/-! ## Names of the renamed tree -/

section Names

variable {σ : Type} (A : Scoping σ) (f : σ → String → String) (s : σ)

mutual

theorem patternBoundNames_rename : ∀ p : BindingPattern,
    patternBoundNames (renamePattern A f s p) = (patternBoundNames p).map (f s)
  | .mk elements => elementsBoundNames_rename elements

theorem elementsBoundNames_rename : ∀ es : List PatternElement,
    elementsBoundNames (renameElements A f s es) = (elementsBoundNames es).map (f s)
  | [] => rfl
  | e :: es => by
    simp [renameElements, elementsBoundNames, elementBoundNames_rename e,
      elementsBoundNames_rename es]

theorem elementBoundNames_rename : ∀ e : PatternElement,
    elementBoundNames (renameElement A f s e) = (elementBoundNames e).map (f s)
  | .mk none none _ _ _ => rfl
  | .mk (some _) none _ _ _ => rfl
  | .mk _ (some pattern) _ _ _ => patternBoundNames_rename pattern

end

theorem loopHeadNames_rename (name : Option String) (pattern : Option BindingPattern) :
    loopHeadNames (name.map (f s)) (renamePattern? A f s pattern) =
      (loopHeadNames name pattern).map (f s) := by
  cases pattern with
  | none => cases name <;> rfl
  | some pattern => exact patternBoundNames_rename A f s pattern

theorem scopeDeclaration_rename (stmt : Stmt) :
    scopeDeclaration (renameStmt A f s stmt) = (scopeDeclaration stmt).map (f s) := by
  cases stmt with
  | varDecl isVar name pattern init =>
    cases isVar with
    | true => cases pattern <;> rfl
    | false =>
      cases pattern with
      | none => rfl
      | some pattern => exact patternBoundNames_rename A f s pattern
  | _ => rfl

theorem getScopeDeclarations_rename (stmts : List Stmt) :
    getScopeDeclarations (renameStmts A f s stmts) = (getScopeDeclarations stmts).map (f s) := by
  induction stmts with
  | nil => rfl
  | cons stmt stmts ih =>
    rw [getScopeDeclarations] at ih
    simp [renameStmts, getScopeDeclarations, scopeDeclaration_rename, ih]

theorem casesScopeDeclarations_rename (cases : List SwitchCase) :
    casesScopeDeclarations (renameCases A f s cases) =
      (casesScopeDeclarations cases).map (f s) := by
  induction cases with
  | nil => rfl
  | cons clause cases ih =>
    obtain ⟨test, body⟩ := clause
    rw [casesScopeDeclarations] at ih
    simp [renameCases, casesScopeDeclarations, getScopeDeclarations_rename, ih]

end Names

/-! ## `var` declarations -/

mutual

/-- Where the `var`s of a statement are declared that belong to the function around it, each with
the scopes it stands in. -/
def varOccurrences (env : List (List String)) : Stmt → List (List (List String) × String)
  | .varDecl isVar name pattern _ =>
    if isVar then (declaredNames name pattern).map (env, ·) else []
  | .block stmts => varsOccurrences (ecma.block (getScopeDeclarations stmts) env) stmts
  | .ifStmt _ thenBody elseBody =>
    varsOccurrences (ecma.block (getScopeDeclarations thenBody) env) thenBody ++
      varsOccurrences (ecma.block (getScopeDeclarations elseBody) env) elseBody
  | .whileStmt _ body => varsOccurrences (ecma.block (getScopeDeclarations body) env) body
  | .doWhileStmt body _ => varsOccurrences (ecma.block (getScopeDeclarations body) env) body
  | .forStmt init _ _ body =>
    let header := ecma.block (getScopeDeclarations init) env
    varsOccurrences header init ++
      varsOccurrences (ecma.block (getScopeDeclarations body) header) body
  | .iteration _ head name pattern _ body =>
    let inside := ecma.iterationHead head (loopHeadNames name pattern) env
    (if head = .isVar then (loopHeadNames name pattern).map (inside, ·) else []) ++
      varsOccurrences (ecma.block (getScopeDeclarations body) inside) body
  | .switchStmt _ cases =>
    casesVarOccurrences (ecma.block (casesScopeDeclarations cases) env) cases
  | .labeled _ body => var?Occurrences env body
  | .tryStmt body hasCatchParam catchName catchPattern catchBody finallyBody =>
    varsOccurrences (ecma.block (getScopeDeclarations body) env) body ++
      varsOccurrences (ecma.catchBody (catchNames hasCatchParam catchName catchPattern)
        (getScopeDeclarations catchBody) env) catchBody ++
      varsOccurrences (ecma.block (getScopeDeclarations finallyBody) env) finallyBody
  | .returnStmt _ => []
  | .exprStmt _ => []
  | .throwStmt _ => []
  | .classDecl _ _ _ => []
  | .functionDecl _ _ _ => []
  | .jump _ => []

/-- Those of a statement list. -/
def varsOccurrences (env : List (List String)) : List Stmt → List (List (List String) × String)
  | [] => []
  | stmt :: stmts => varOccurrences env stmt ++ varsOccurrences env stmts

/-- Those of the clauses of a switch. -/
def casesVarOccurrences (env : List (List String)) :
    List SwitchCase → List (List (List String) × String)
  | [] => []
  | .mk _ body :: cases => varsOccurrences env body ++ casesVarOccurrences env cases

/-- Those of a statement under a label. -/
def var?Occurrences (env : List (List String)) :
    Option Stmt → List (List (List String) × String)
  | none => []
  | some stmt => varOccurrences env stmt

end

/-- Where some `var`s are declared, their names, and their names in the renamed tree. -/
structure DeclaredAt (f : List (List String) → String → String) (env : List (List String))
    (vars : List (List (List String) × String)) (names renamed : List String) : Prop where
  names : vars.map (·.2) = names
  renamed : renamed = vars.map fun o => f o.1 o.2
  grown : ∀ o ∈ vars, ∀ name, Bound env name → Bound o.1 name

namespace DeclaredAt

variable {f : List (List String) → String → String} {env inner : List (List String)}
  {vars vars' : List (List (List String) × String)} {names names' renamed renamed' : List String}

theorem nil : DeclaredAt f env [] [] [] :=
  ⟨rfl, rfl, nofun⟩

theorem here (hgrow : ∀ name, Bound env name → Bound inner name) (names : List String) :
    DeclaredAt f env (names.map (inner, ·)) names (names.map (f inner)) where
  names := by simp [Function.comp_def]
  renamed := by simp [Function.comp_def]
  grown := by
    intro o ho
    obtain ⟨name, -, rfl⟩ := mem_map.mp ho
    exact hgrow

theorem append (h : DeclaredAt f env vars names renamed)
    (h' : DeclaredAt f env vars' names' renamed') :
    DeclaredAt f env (vars ++ vars') (names ++ names') (renamed ++ renamed') where
  names := by rw [map_append, h.names, h'.names]
  renamed := by rw [map_append, h.renamed, h'.renamed]
  grown := fun o ho => (mem_append.mp ho).elim (h.grown o) (h'.grown o)

theorem within (h : DeclaredAt f inner vars names renamed)
    (hgrow : ∀ name, Bound env name → Bound inner name) : DeclaredAt f env vars names renamed :=
  ⟨h.names, h.renamed, fun o ho name hname => h.grown o ho name (hgrow name hname)⟩

theorem block {lexical : List String}
    (h : DeclaredAt f (ecma.block lexical env) vars names renamed) :
    DeclaredAt f env vars names renamed :=
  h.within fun _ hname => bound_block.mpr (.inr hname)

end DeclaredAt

section Declared

variable {f : List (List String) → String → String}

mutual

theorem varOccurrences_declared {env : List (List String)} : ∀ stmt : Stmt,
    DeclaredAt f env (varOccurrences env stmt) (hoistedVarsIn stmt)
      (hoistedVarsIn (renameStmt ecma f env stmt))
  | .varDecl false _ none _ => .nil
  | .varDecl false _ (some _) _ => .nil
  | .varDecl true name none init => .here (fun _ h => h) [name]
  | .varDecl true name (some pattern) init => by
    have hnames := patternBoundNames_rename ecma f env pattern
    simp only [varOccurrences, renameStmt, hoistedVarsIn, declaredNames, hnames]
    exact .here (fun _ h => h) _
  | .block stmts => (varsOccurrences_declared stmts).block
  | .ifStmt _ thenBody elseBody =>
    (varsOccurrences_declared thenBody).block.append (varsOccurrences_declared elseBody).block
  | .whileStmt _ body => (varsOccurrences_declared body).block
  | .doWhileStmt body _ => (varsOccurrences_declared body).block
  | .forStmt init _ _ body =>
    ((varsOccurrences_declared init).append (varsOccurrences_declared body).block).block
  | .iteration _ head name pattern iterable body => by
    have hbody : DeclaredAt f (ecma.block (getScopeDeclarations body)
        (ecma.iterationHead head (loopHeadNames name pattern) env)) _ _ _ :=
      varsOccurrences_declared body
    refine .append ?_ (hbody.block.within fun _ h => bound_iterationHead h)
    rw [loopHeadNames_rename]
    split
    · exact .here (fun _ h => bound_iterationHead h) _
    · exact .nil
  | .switchStmt _ cases => (casesVarOccurrences_declared cases).block
  | .labeled _ none => .nil
  | .labeled _ (some body) => varOccurrences_declared body
  | .tryStmt body hasCatchParam catchName catchPattern catchBody finallyBody =>
    ((varsOccurrences_declared body).block.append
      ((varsOccurrences_declared catchBody).within fun _ h => bound_catchBody.mpr
        (.inr (.inr h)))).append (varsOccurrences_declared finallyBody).block
  | .returnStmt _ => .nil
  | .exprStmt _ => .nil
  | .throwStmt _ => .nil
  | .classDecl _ _ _ => .nil
  | .functionDecl _ _ _ => .nil
  | .jump _ => .nil

/-- **The `var`s of the renamed body**, each declared where that of the original is. -/
theorem varsOccurrences_declared {env : List (List String)} : ∀ stmts : List Stmt,
    DeclaredAt f env (varsOccurrences env stmts) (getHoistedVarDeclarations stmts)
      (getHoistedVarDeclarations (renameStmts ecma f env stmts))
  | [] => .nil
  | stmt :: stmts => (varOccurrences_declared stmt).append (varsOccurrences_declared stmts)

theorem casesVarOccurrences_declared {env : List (List String)} : ∀ cases : List SwitchCase,
    DeclaredAt f env (casesVarOccurrences env cases) (hoistedVarsInCases cases)
      (hoistedVarsInCases (renameCases ecma f env cases))
  | [] => .nil
  | .mk _ body :: cases =>
    (varsOccurrences_declared body).append (casesVarOccurrences_declared cases)

end

end Declared

/-! ## Scopes of the renamed tree -/

/-- A rewriting that leaves alone what the environment binds. -/
def Keeps (f : List (List String) → String → String) : Prop :=
  ∀ env name, Bound env name → f env name = name

section Renamed

variable {f : List (List String) → String → String} {env : List (List String)}

theorem Keeps.map_eq (hf : Keeps f) {names : List String} (h : ∀ name ∈ names, Bound env name) :
    names.map (f env) = names :=
  (map_congr_left fun name hname => hf env name (h name hname)).trans (map_id names)

theorem Keeps.declaredNames_rename (hf : Keeps f) {name : String} (pattern : Option BindingPattern)
    (h : ∀ bound ∈ declaredNames name pattern, Bound env bound) :
    declaredNames name (renamePattern? ecma f env pattern) = declaredNames name pattern := by
  cases pattern with
  | none => rfl
  | some pattern => exact (patternBoundNames_rename ecma f env pattern).trans (hf.map_eq h)

theorem Keeps.paramNames_rename (hf : Keeps f) (params : List Param)
    (h : ∀ name ∈ paramNames params, Bound env name) :
    paramNames (renameParams ecma f env params) = paramNames params := by
  induction params with
  | nil => rfl
  | cons param params ih =>
    obtain ⟨name, pattern, defaultValue⟩ := param
    simp only [paramNames, flatMap_cons, mem_append, or_imp, forall_and] at h ih
    simp [renameParams, paramNames, hf.declaredNames_rename pattern h.1, ih h.2]

theorem Keeps.scopeDeclarations_rename (hf : Keeps f) (stmts : List Stmt)
    (h : ∀ name ∈ getScopeDeclarations stmts, Bound env name) :
    getScopeDeclarations (renameStmts ecma f env stmts) = getScopeDeclarations stmts :=
  (getScopeDeclarations_rename ecma f env stmts).trans (hf.map_eq h)

/-- The names of a head, for the environments that depend on them: those of a
`var` or assigned head do not count. -/
theorem Keeps.iterationHead_rename (hf : Keeps f) (env : List (List String)) (head : HeadKind)
    (name : Option String) (pattern : Option BindingPattern) :
    let inside := ecma.iterationHead head (loopHeadNames name pattern) env
    let renamed := loopHeadNames (name.map (f inside)) (renamePattern? ecma f inside pattern)
    ecma.iterationHead head renamed env = inside ∧
      ecma.iterable head renamed env = ecma.iterable head (loopHeadNames name pattern) env := by
  intro inside renamed
  have hdeclares : head = .isConst ∨ head = .isLet → renamed = loopHeadNames name pattern := by
    intro hhead
    refine (loopHeadNames_rename ecma f inside name pattern).trans (hf.map_eq ?_)
    intro bound hmem
    obtain rfl | rfl := hhead <;> simp [inside, ecma, headEnvironment, hmem]
  cases head with
  | assign => exact ⟨rfl, rfl⟩
  | isVar => exact ⟨rfl, rfl⟩
  | isConst => exact ⟨by rw [hdeclares (.inl rfl)], by rw [hdeclares (.inl rfl)]⟩
  | isLet => exact ⟨by rw [hdeclares (.inr rfl)], by rw [hdeclares (.inr rfl)]⟩

theorem Keeps.hoistedVars_rename (hf : Keeps f) (stmts : List Stmt)
    (h : ∀ name ∈ getHoistedVarDeclarations stmts, Bound env name) :
    getHoistedVarDeclarations (renameStmts ecma f env stmts) =
      getHoistedVarDeclarations stmts := by
  have hvars : DeclaredAt f env _ _ _ := varsOccurrences_declared stmts
  rw [hvars.renamed, ← hvars.names]
  refine map_congr_left fun o ho => hf o.1 o.2 (hvars.grown o ho o.2 (h o.2 ?_))
  rw [← hvars.names]
  exact mem_map_of_mem ho

theorem Keeps.bodyNames_rename (hf : Keeps f) (own : Option String) (params : List String)
    (body : List Stmt) :
    bodyNames (renameStmts ecma f (ecma.functionBody own params (bodyNames body) env) body) =
      bodyNames body := by
  have hbound : ∀ name ∈ bodyNames body,
      Bound (ecma.functionBody own params (bodyNames body) env) name := by
    intro name hname
    exact bound_functionBody.mpr (.inl hname)
  rw [bodyNames, hf.scopeDeclarations_rename body fun name hname =>
      hbound name (mem_append_left _ hname),
    hf.hoistedVars_rename body fun name hname => hbound name (mem_append_right _ hname),
    bodyNames]

theorem Keeps.blockNames_rename (hf : Keeps f) (stmts : List Stmt) : getScopeDeclarations
        (renameStmts ecma f (ecma.block (getScopeDeclarations stmts) env) stmts) =
      getScopeDeclarations stmts :=
  hf.scopeDeclarations_rename stmts fun _ hname => bound_block.mpr (.inl hname)

theorem Keeps.casesNames_rename (hf : Keeps f) (cases : List SwitchCase) : casesScopeDeclarations
        (renameCases ecma f (ecma.block (casesScopeDeclarations cases) env) cases) =
      casesScopeDeclarations cases :=
  (casesScopeDeclarations_rename ecma f _ cases).trans
    (hf.map_eq fun _ hname => bound_block.mpr (.inl hname))

theorem Keeps.functionParamNames_rename (hf : Keeps f) (own : Option String) (params : List Param)
    (body : List String) :
    paramNames (renameParams ecma f
        (ecma.functionParams own (paramNames params) body env) params) = paramNames params :=
  hf.paramNames_rename params fun _ hname => bound_functionParams.mpr (.inl hname)

/-! ## Occurrences -/

mutual

theorem exprOccurrences_rename (hf : Keeps f) {env : List (List String)} : ∀ e : Expr,
    exprOccurrences ecma env (renameExpr ecma f env e) =
      (exprOccurrences ecma env e).map fun o => (o.1, f o.1 o.2)
  | .ident name => rfl
  | .leaf kind => rfl
  | .compound _ parts => exprsOccurrences_rename hf parts
  | .destructuringAssign pattern value => by
    simp [renameExpr, exprOccurrences, patternOccurrences_rename hf pattern,
      exprOccurrences_rename hf value]
  | .functionExpr name isArrow params body => by
    simp [renameExpr, exprOccurrences, hf.functionParamNames_rename, hf.bodyNames_rename,
      paramsOccurrences_rename hf params, stmtsOccurrences_rename hf body]
  | .classExpr name superClass methods => by
    simp [renameExpr, exprOccurrences, expr?Occurrences_rename hf superClass,
      methodsOccurrences_rename hf methods]

theorem exprsOccurrences_rename (hf : Keeps f) {env : List (List String)} : ∀ es : List Expr,
    exprsOccurrences ecma env (renameExprs ecma f env es) =
      (exprsOccurrences ecma env es).map fun o => (o.1, f o.1 o.2)
  | [] => rfl
  | e :: es => by
    simp [renameExprs, exprsOccurrences, exprOccurrences_rename hf e, exprsOccurrences_rename hf es]

theorem expr?Occurrences_rename (hf : Keeps f) {env : List (List String)} : ∀ e : Option Expr,
    expr?Occurrences ecma env (renameExpr? ecma f env e) =
      (expr?Occurrences ecma env e).map fun o => (o.1, f o.1 o.2)
  | none => rfl
  | some e => exprOccurrences_rename hf e

theorem patternOccurrences_rename (hf : Keeps f) {env : List (List String)} : ∀ p : BindingPattern,
    patternOccurrences ecma env (renamePattern ecma f env p) =
      (patternOccurrences ecma env p).map fun o => (o.1, f o.1 o.2)
  | .mk elements => elementsOccurrences_rename hf elements

theorem elementsOccurrences_rename (hf : Keeps f) {env : List (List String)} :
    ∀ es : List PatternElement,
    elementsOccurrences ecma env (renameElements ecma f env es) =
      (elementsOccurrences ecma env es).map fun o => (o.1, f o.1 o.2)
  | [] => rfl
  | e :: es => by
    simp [renameElements, elementsOccurrences, elementOccurrences_rename hf e,
      elementsOccurrences_rename hf es]

theorem elementOccurrences_rename (hf : Keeps f) {env : List (List String)} : ∀ e : PatternElement,
    elementOccurrences ecma env (renameElement ecma f env e) =
      (elementOccurrences ecma env e).map fun o => (o.1, f o.1 o.2)
  | .mk name pattern target keyExpr defaultValue => by
    cases name <;>
      simp [renameElement, elementOccurrences, pattern?Occurrences_rename hf pattern,
        expr?Occurrences_rename hf target, expr?Occurrences_rename hf keyExpr,
        expr?Occurrences_rename hf defaultValue]

theorem pattern?Occurrences_rename (hf : Keeps f) {env : List (List String)} :
    ∀ p : Option BindingPattern,
    pattern?Occurrences ecma env (renamePattern? ecma f env p) =
      (pattern?Occurrences ecma env p).map fun o => (o.1, f o.1 o.2)
  | none => rfl
  | some p => patternOccurrences_rename hf p

theorem paramsOccurrences_rename (hf : Keeps f) {env : List (List String)} : ∀ ps : List Param,
    paramsOccurrences ecma env (renameParams ecma f env ps) =
      (paramsOccurrences ecma env ps).map fun o => (o.1, f o.1 o.2)
  | [] => rfl
  | .mk _ pattern defaultValue :: ps => by
    simp [renameParams, paramsOccurrences, pattern?Occurrences_rename hf pattern,
      expr?Occurrences_rename hf defaultValue, paramsOccurrences_rename hf ps]

theorem methodsOccurrences_rename (hf : Keeps f) {env : List (List String)} :
    ∀ ms : List ClassMethod,
    methodsOccurrences ecma env (renameMethods ecma f env ms) =
      (methodsOccurrences ecma env ms).map fun o => (o.1, f o.1 o.2)
  | [] => rfl
  | .mk keyExpr init params body :: ms => by
    simp only [renameMethods, methodsOccurrences, hf.functionParamNames_rename,
      hf.bodyNames_rename, expr?Occurrences_rename hf keyExpr, expr?Occurrences_rename hf init,
      paramsOccurrences_rename hf params, stmtsOccurrences_rename hf body,
      methodsOccurrences_rename hf ms, map_append]

theorem stmtOccurrences_rename (hf : Keeps f) {env : List (List String)} : ∀ st : Stmt,
    stmtOccurrences ecma env (renameStmt ecma f env st) =
      (stmtOccurrences ecma env st).map fun o => (o.1, f o.1 o.2)
  | .block stmts => by
    simp [renameStmt, stmtOccurrences, hf.blockNames_rename, stmtsOccurrences_rename hf stmts]
  | .varDecl _ name none init => by
    simp [renameStmt, stmtOccurrences, expr?Occurrences_rename hf init]
  | .varDecl _ _ (some pattern) init => by
    simp [renameStmt, stmtOccurrences, patternOccurrences_rename hf pattern,
      expr?Occurrences_rename hf init]
  | .returnStmt value => expr?Occurrences_rename hf value
  | .exprStmt expr => exprOccurrences_rename hf expr
  | .ifStmt condition thenBody elseBody => by
    simp [renameStmt, stmtOccurrences, hf.blockNames_rename, exprOccurrences_rename hf condition,
      stmtsOccurrences_rename hf thenBody, stmtsOccurrences_rename hf elseBody]
  | .whileStmt condition body => by
    simp [renameStmt, stmtOccurrences, hf.blockNames_rename, exprOccurrences_rename hf condition,
      stmtsOccurrences_rename hf body]
  | .doWhileStmt body condition => by
    simp [renameStmt, stmtOccurrences, hf.blockNames_rename, exprOccurrences_rename hf condition,
      stmtsOccurrences_rename hf body]
  | .forStmt init condition update body => by
    simp only [renameStmt, stmtOccurrences, hf.blockNames_rename,
      stmtsOccurrences_rename hf init, expr?Occurrences_rename hf condition,
      expr?Occurrences_rename hf update, stmtsOccurrences_rename hf body, map_append]
  | .iteration _ head name pattern iterable body => by
    obtain ⟨hinside, hiterable⟩ := hf.iterationHead_rename env head name pattern
    simp only [renameStmt, stmtOccurrences, hinside, hiterable, hf.blockNames_rename,
      pattern?Occurrences_rename hf pattern, exprOccurrences_rename hf iterable,
      stmtsOccurrences_rename hf body, map_append]
    cases name <;> simp
  | .switchStmt discriminant cases => by
    simp [renameStmt, stmtOccurrences, exprOccurrences_rename hf discriminant, hf.casesNames_rename,
      casesOccurrences_rename hf cases]
  | .labeled _ body => stmt?Occurrences_rename hf body
  | .tryStmt body hasCatchParam catchName catchPattern catchBody finallyBody => by
    have hparams : catchNames hasCatchParam catchName (renamePattern? ecma f
        (ecma.catchParam (catchNames hasCatchParam catchName catchPattern)
          (getScopeDeclarations catchBody) env) catchPattern) =
        catchNames hasCatchParam catchName catchPattern := by
      cases hasCatchParam with
      | false => rfl
      | true => exact hf.declaredNames_rename catchPattern fun _ hname =>
          bound_catchParam.mpr (.inl hname)
    have hlexical : getScopeDeclarations (renameStmts ecma f (ecma.catchBody
        (catchNames hasCatchParam catchName catchPattern) (getScopeDeclarations catchBody) env)
        catchBody) = getScopeDeclarations catchBody :=
      hf.scopeDeclarations_rename catchBody fun _ hname => bound_catchBody.mpr (.inl hname)
    simp only [renameStmt, stmtOccurrences, hf.blockNames_rename, hparams, hlexical,
      stmtsOccurrences_rename hf body, pattern?Occurrences_rename hf catchPattern,
      stmtsOccurrences_rename hf catchBody, stmtsOccurrences_rename hf finallyBody, map_append]
  | .throwStmt value => exprOccurrences_rename hf value
  | .classDecl name superClass methods => by
    simp [renameStmt, stmtOccurrences, expr?Occurrences_rename hf superClass,
      methodsOccurrences_rename hf methods]
  | .functionDecl name params body => by
    simp [renameStmt, stmtOccurrences, hf.functionParamNames_rename, hf.bodyNames_rename,
      paramsOccurrences_rename hf params, stmtsOccurrences_rename hf body]
  | .jump _ => rfl

/-- **The renamed body has the occurrences of the original in the same
environments, each under its new name.** -/
theorem stmtsOccurrences_rename (hf : Keeps f) {env : List (List String)} : ∀ sts : List Stmt,
    stmtsOccurrences ecma env (renameStmts ecma f env sts) =
      (stmtsOccurrences ecma env sts).map fun o => (o.1, f o.1 o.2)
  | [] => rfl
  | st :: sts => by
    simp [renameStmts, stmtsOccurrences, stmtOccurrences_rename hf st,
      stmtsOccurrences_rename hf sts]

theorem stmt?Occurrences_rename (hf : Keeps f) {env : List (List String)} : ∀ st : Option Stmt,
    stmt?Occurrences ecma env (renameStmt? ecma f env st) =
      (stmt?Occurrences ecma env st).map fun o => (o.1, f o.1 o.2)
  | none => rfl
  | some st => stmtOccurrences_rename hf st

theorem casesOccurrences_rename (hf : Keeps f) {env : List (List String)} : ∀ cs : List SwitchCase,
    casesOccurrences ecma env (renameCases ecma f env cs) =
      (casesOccurrences ecma env cs).map fun o => (o.1, f o.1 o.2)
  | [] => rfl
  | .mk test body :: cs => by
    simp [renameCases, casesOccurrences, expr?Occurrences_rename hf test,
      stmtsOccurrences_rename hf body, casesOccurrences_rename hf cs]

end

end Renamed

end Bronze.Rename
