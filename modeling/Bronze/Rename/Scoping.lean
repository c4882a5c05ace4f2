import Bronze.Rename.Ast

/-!
# Walks that carry a scope

A walk over the tree carries a context and changes it at each construct that
opens a scope. `Scoping` says how, construct by construct; the walk of the
Renamer and the name resolution of the language are two scopings over one tree,
and where they part is where two of their fields differ.
-/

namespace Bronze.Rename

/-- What the constructs that open a scope do to the context of a walk. -/
structure Scoping (σ : Type) where
  /-- A statement list that is a scope; also the declarations of a `for` header
  and of the one block of a `switch`. -/
  block (lexical : List String) : σ → σ
  /-- Where the defaults and patterns of the parameters stand; `own` is the name
  of a function expression, `body` what the function's body declares. -/
  functionParams (own : Option String) (params body : List String) : σ → σ
  /-- Where the body of that function stands. -/
  functionBody (own : Option String) (params body : List String) : σ → σ
  /-- Where the object or iterable of a `for-in` or `for-of` stands. -/
  iterable (head : HeadKind) (names : List String) : σ → σ
  /-- Where its head and body stand. -/
  iterationHead (head : HeadKind) (names : List String) : σ → σ
  /-- Where the pattern of a catch clause stands. -/
  catchParam (params lexical : List String) : σ → σ
  /-- Where the body of that clause stands. -/
  catchBody (params lexical : List String) : σ → σ
  /-- Where the heritage and the members of a class expression stand. -/
  classExpr (own : Option String) : σ → σ

variable {σ τ : Type}

/-- What a function's body declares: its own lexical declarations and every
`var` hoisted to it. -/
def bodyNames (body : List Stmt) : List String :=
  getScopeDeclarations body ++ getHoistedVarDeclarations body

/-- The name a function expression binds for itself: none for an arrow. -/
def ownName (name : Option String) (isArrow : Bool) : Option String :=
  if isArrow then none else name

def catchNames (hasCatchParam : Bool) (name : String) (pattern : Option BindingPattern) :
    List String :=
  if hasCatchParam then declaredNames name pattern else []

mutual

def renameExpr (A : Scoping σ) (f : σ → String → String) (s : σ) : Expr → Expr
  | .ident name => .ident (f s name)
  | .leaf kind => .leaf kind
  | .compound kind parts => .compound kind (renameExprs A f s parts)
  | .destructuringAssign pattern value =>
    .destructuringAssign (renamePattern A f s pattern) (renameExpr A f s value)
  | .functionExpr name isArrow params body =>
    .functionExpr name isArrow
      (renameParams A f (A.functionParams (ownName name isArrow) (paramNames params)
        (bodyNames body) s) params)
      (renameStmts A f (A.functionBody (ownName name isArrow) (paramNames params)
        (bodyNames body) s) body)
  | .classExpr name superClass methods =>
    .classExpr name (renameExpr? A f (A.classExpr name s) superClass)
      (renameMethods A f (A.classExpr name s) methods)

/-- `Renamer::slot` on each part. -/
def renameExprs (A : Scoping σ) (f : σ → String → String) (s : σ) : List Expr → List Expr
  | [] => []
  | expr :: exprs => renameExpr A f s expr :: renameExprs A f s exprs

/-- `Renamer::slot` where there may be no expression. -/
def renameExpr? (A : Scoping σ) (f : σ → String → String) (s : σ) :
    Option Expr → Option Expr
  | none => none
  | some expr => some (renameExpr A f s expr)

def renamePattern (A : Scoping σ) (f : σ → String → String) (s : σ) :
    BindingPattern → BindingPattern
  | .mk elements => .mk (renameElements A f s elements)

/-- The loop of `Renamer::pattern`. -/
def renameElements (A : Scoping σ) (f : σ → String → String) (s : σ) :
    List PatternElement → List PatternElement
  | [] => []
  | element :: elements => renameElement A f s element :: renameElements A f s elements

def renameElement (A : Scoping σ) (f : σ → String → String) (s : σ) :
    PatternElement → PatternElement
  | .mk name pattern target keyExpr defaultValue =>
    .mk (name.map (f s)) (renamePattern? A f s pattern)
      (renameExpr? A f s target) (renameExpr? A f s keyExpr) (renameExpr? A f s defaultValue)

/-- `Renamer::pattern` where there may be no pattern. -/
def renamePattern? (A : Scoping σ) (f : σ → String → String) (s : σ) :
    Option BindingPattern → Option BindingPattern
  | none => none
  | some pattern => some (renamePattern A f s pattern)

/-- The loop over the parameters in `Renamer::functionBody`. -/
def renameParams (A : Scoping σ) (f : σ → String → String) (s : σ) : List Param → List Param
  | [] => []
  | .mk name pattern defaultValue :: params =>
    .mk name (renamePattern? A f s pattern) (renameExpr? A f s defaultValue) ::
      renameParams A f s params

/-- The loop over the members of a class. -/
def renameMethods (A : Scoping σ) (f : σ → String → String) (s : σ) :
    List ClassMethod → List ClassMethod
  | [] => []
  | .mk keyExpr init params body :: methods =>
    .mk (renameExpr? A f s keyExpr) (renameExpr? A f s init)
      (renameParams A f (A.functionParams none (paramNames params) (bodyNames body) s) params)
      (renameStmts A f (A.functionBody none (paramNames params) (bodyNames body) s) body) ::
      renameMethods A f s methods

def renameStmt (A : Scoping σ) (f : σ → String → String) (s : σ) : Stmt → Stmt
  | .block stmts => .block (renameStmts A f (A.block (getScopeDeclarations stmts) s) stmts)
  | .varDecl isVar name none init =>
    .varDecl isVar (f s name) none (renameExpr? A f s init)
  | .varDecl isVar name (some pattern) init =>
    .varDecl isVar name (some (renamePattern A f s pattern)) (renameExpr? A f s init)
  | .returnStmt value => .returnStmt (renameExpr? A f s value)
  | .exprStmt expr => .exprStmt (renameExpr A f s expr)
  | .ifStmt condition thenBody elseBody =>
    .ifStmt (renameExpr A f s condition)
      (renameStmts A f (A.block (getScopeDeclarations thenBody) s) thenBody)
      (renameStmts A f (A.block (getScopeDeclarations elseBody) s) elseBody)
  | .whileStmt condition body =>
    .whileStmt (renameExpr A f s condition)
      (renameStmts A f (A.block (getScopeDeclarations body) s) body)
  | .doWhileStmt body condition =>
    .doWhileStmt (renameStmts A f (A.block (getScopeDeclarations body) s) body)
      (renameExpr A f s condition)
  | .forStmt init condition update body =>
    let header := A.block (getScopeDeclarations init) s
    .forStmt (renameStmts A f header init) (renameExpr? A f header condition)
      (renameExpr? A f header update)
      (renameStmts A f (A.block (getScopeDeclarations body) header) body)
  | .iteration kind head name pattern iterable body =>
    let names := loopHeadNames name pattern
    let inside := A.iterationHead head names s
    .iteration kind head (name.map (f inside))
      (renamePattern? A f inside pattern) (renameExpr A f (A.iterable head names s) iterable)
      (renameStmts A f (A.block (getScopeDeclarations body) inside) body)
  | .switchStmt discriminant cases =>
    .switchStmt (renameExpr A f s discriminant)
      (renameCases A f (A.block (casesScopeDeclarations cases) s) cases)
  | .labeled label body => .labeled label (renameStmt? A f s body)
  | .tryStmt body hasCatchParam catchName catchPattern catchBody finallyBody =>
    let params := catchNames hasCatchParam catchName catchPattern
    let lexical := getScopeDeclarations catchBody
    .tryStmt (renameStmts A f (A.block (getScopeDeclarations body) s) body) hasCatchParam
      catchName (renamePattern? A f (A.catchParam params lexical s) catchPattern)
      (renameStmts A f (A.catchBody params lexical s) catchBody)
      (renameStmts A f (A.block (getScopeDeclarations finallyBody) s) finallyBody)
  | .throwStmt value => .throwStmt (renameExpr A f s value)
  | .classDecl name superClass methods =>
    .classDecl (f s name) (renameExpr? A f s superClass) (renameMethods A f s methods)
  | .functionDecl name params body =>
    .functionDecl (f s name)
      (renameParams A f (A.functionParams none (paramNames params) (bodyNames body) s) params)
      (renameStmts A f (A.functionBody none (paramNames params) (bodyNames body) s) body)
  | .jump kind => .jump kind

def renameStmts (A : Scoping σ) (f : σ → String → String) (s : σ) : List Stmt → List Stmt
  | [] => []
  | stmt :: stmts => renameStmt A f s stmt :: renameStmts A f s stmts

/-- `Renamer::stmt` under a label. -/
def renameStmt? (A : Scoping σ) (f : σ → String → String) (s : σ) : Option Stmt → Option Stmt
  | none => none
  | some stmt => some (renameStmt A f s stmt)

/-- The loop over the clauses of a switch. -/
def renameCases (A : Scoping σ) (f : σ → String → String) (s : σ) :
    List SwitchCase → List SwitchCase
  | [] => []
  | .mk test body :: cases =>
    .mk (renameExpr? A f s test) (renameStmts A f s body) :: renameCases A f s cases

end

mutual

/-- The identifier occurrences of an expression, each with its context. -/
def exprOccurrences (A : Scoping σ) (s : σ) : Expr → List (σ × String)
  | .ident name => [(s, name)]
  | .leaf _ => []
  | .compound _ parts => exprsOccurrences A s parts
  | .destructuringAssign pattern value =>
    patternOccurrences A s pattern ++ exprOccurrences A s value
  | .functionExpr name isArrow params body =>
    paramsOccurrences A (A.functionParams (ownName name isArrow) (paramNames params)
        (bodyNames body) s) params ++
      stmtsOccurrences A (A.functionBody (ownName name isArrow) (paramNames params)
        (bodyNames body) s) body
  | .classExpr name superClass methods =>
    expr?Occurrences A (A.classExpr name s) superClass ++
      methodsOccurrences A (A.classExpr name s) methods

/-- Those of a list of expressions. -/
def exprsOccurrences (A : Scoping σ) (s : σ) : List Expr → List (σ × String)
  | [] => []
  | expr :: exprs => exprOccurrences A s expr ++ exprsOccurrences A s exprs

/-- Those of an expression that may be absent. -/
def expr?Occurrences (A : Scoping σ) (s : σ) : Option Expr → List (σ × String)
  | none => []
  | some expr => exprOccurrences A s expr

def patternOccurrences (A : Scoping σ) (s : σ) : BindingPattern → List (σ × String)
  | .mk elements => elementsOccurrences A s elements

/-- Those of the elements of a pattern. -/
def elementsOccurrences (A : Scoping σ) (s : σ) : List PatternElement → List (σ × String)
  | [] => []
  | element :: elements => elementOccurrences A s element ++ elementsOccurrences A s elements

def elementOccurrences (A : Scoping σ) (s : σ) : PatternElement → List (σ × String)
  | .mk name pattern target keyExpr defaultValue =>
    name.toList.map (s, ·) ++ (pattern?Occurrences A s pattern ++
      (expr?Occurrences A s target ++ (expr?Occurrences A s keyExpr ++
        expr?Occurrences A s defaultValue)))

/-- Those of a pattern that may be absent. -/
def pattern?Occurrences (A : Scoping σ) (s : σ) : Option BindingPattern → List (σ × String)
  | none => []
  | some pattern => patternOccurrences A s pattern

/-- Those of the patterns and defaults of parameters. -/
def paramsOccurrences (A : Scoping σ) (s : σ) : List Param → List (σ × String)
  | [] => []
  | .mk _ pattern defaultValue :: params =>
    pattern?Occurrences A s pattern ++ (expr?Occurrences A s defaultValue ++
      paramsOccurrences A s params)

/-- Those of the members of a class. -/
def methodsOccurrences (A : Scoping σ) (s : σ) : List ClassMethod → List (σ × String)
  | [] => []
  | .mk keyExpr init params body :: methods =>
    expr?Occurrences A s keyExpr ++ (expr?Occurrences A s init ++
      (paramsOccurrences A (A.functionParams none (paramNames params) (bodyNames body) s) params ++
        (stmtsOccurrences A (A.functionBody none (paramNames params) (bodyNames body) s) body ++
          methodsOccurrences A s methods)))

def stmtOccurrences (A : Scoping σ) (s : σ) : Stmt → List (σ × String)
  | .block stmts => stmtsOccurrences A (A.block (getScopeDeclarations stmts) s) stmts
  | .varDecl _ name none init => (s, name) :: expr?Occurrences A s init
  | .varDecl _ _ (some pattern) init =>
    patternOccurrences A s pattern ++ expr?Occurrences A s init
  | .returnStmt value => expr?Occurrences A s value
  | .exprStmt expr => exprOccurrences A s expr
  | .ifStmt condition thenBody elseBody =>
    exprOccurrences A s condition ++
      (stmtsOccurrences A (A.block (getScopeDeclarations thenBody) s) thenBody ++
        stmtsOccurrences A (A.block (getScopeDeclarations elseBody) s) elseBody)
  | .whileStmt condition body =>
    exprOccurrences A s condition ++
      stmtsOccurrences A (A.block (getScopeDeclarations body) s) body
  | .doWhileStmt body condition =>
    stmtsOccurrences A (A.block (getScopeDeclarations body) s) body ++
      exprOccurrences A s condition
  | .forStmt init condition update body =>
    let header := A.block (getScopeDeclarations init) s
    stmtsOccurrences A header init ++ (expr?Occurrences A header condition ++
      (expr?Occurrences A header update ++
        stmtsOccurrences A (A.block (getScopeDeclarations body) header) body))
  | .iteration _ head name pattern iterable body =>
    let names := loopHeadNames name pattern
    let inside := A.iterationHead head names s
    name.toList.map (inside, ·) ++ (pattern?Occurrences A inside pattern ++
      (exprOccurrences A (A.iterable head names s) iterable ++
        stmtsOccurrences A (A.block (getScopeDeclarations body) inside) body))
  | .switchStmt discriminant cases =>
    exprOccurrences A s discriminant ++
      casesOccurrences A (A.block (casesScopeDeclarations cases) s) cases
  | .labeled _ body => stmt?Occurrences A s body
  | .tryStmt body hasCatchParam catchName catchPattern catchBody finallyBody =>
    let params := catchNames hasCatchParam catchName catchPattern
    let lexical := getScopeDeclarations catchBody
    stmtsOccurrences A (A.block (getScopeDeclarations body) s) body ++
      (pattern?Occurrences A (A.catchParam params lexical s) catchPattern ++
        (stmtsOccurrences A (A.catchBody params lexical s) catchBody ++
          stmtsOccurrences A (A.block (getScopeDeclarations finallyBody) s) finallyBody))
  | .throwStmt value => exprOccurrences A s value
  | .classDecl name superClass methods =>
    (s, name) :: (expr?Occurrences A s superClass ++ methodsOccurrences A s methods)
  | .functionDecl name params body =>
    (s, name) ::
      (paramsOccurrences A (A.functionParams none (paramNames params) (bodyNames body) s) params ++
        stmtsOccurrences A (A.functionBody none (paramNames params) (bodyNames body) s) body)
  | .jump _ => []

/-- Those of a statement list. -/
def stmtsOccurrences (A : Scoping σ) (s : σ) : List Stmt → List (σ × String)
  | [] => []
  | stmt :: stmts => stmtOccurrences A s stmt ++ stmtsOccurrences A s stmts

/-- Those of a statement under a label. -/
def stmt?Occurrences (A : Scoping σ) (s : σ) : Option Stmt → List (σ × String)
  | none => []
  | some stmt => stmtOccurrences A s stmt

/-- Those of the clauses of a switch. -/
def casesOccurrences (A : Scoping σ) (s : σ) : List SwitchCase → List (σ × String)
  | [] => []
  | .mk test body :: cases =>
    expr?Occurrences A s test ++ (stmtsOccurrences A s body ++ casesOccurrences A s cases)

end

end Bronze.Rename
