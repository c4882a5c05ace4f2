import Mathlib

/-!
# The tree the module linker renames

The part of the program tree that names something: expressions, binding
patterns, statements, parameters, class members and switch clauses. Nodes that
open no scope and name nothing of their own are one constructor with the list
of their parts, in the order the walk of the source visits them. A name that may
be absent, which the source spells as an empty string, is an option.
-/

namespace Bronze.Rename

/-- The expressions below which nothing is named. -/
inductive LeafKind where
  | NumberLit | BigIntLit | StringLit | BoolLit | NullLit | UndefinedLit | ThisExpr | RegExpLit
  | NewTargetExpr | ImportMetaExpr
  /-- The hole of an `ArrayLit`. -/
  | hole
  deriving DecidableEq, Repr

/-- The expressions that open no scope. `SuperCall` and `SuperMember` have the
clone of the heritage (`baseExpr`, or `baseName` as a name) for their first part;
an `ObjectLit` has the computed key and the value of each property. -/
inductive CompoundKind where
  | TemplateLit | TaggedTemplate | Unary | Binary | Ternary | MemberAccess | IndexAccess | Call
  | NewExpr | SuperCall | SuperMember | SpreadElement | YieldExpr | DynamicImportExpr | ObjectLit
  | ArrayLit
  deriving DecidableEq, Repr

/-- What stands before the name or the pattern of a `for-in` or `for-of` head:
the flags `isConst`, `isLet` and `isVar`, or none of them. -/
inductive HeadKind where
  | assign | isConst | isLet | isVar
  deriving DecidableEq, Repr

/-- The two statements with such a head. -/
inductive IterationKind where
  | ForInStmt | ForOfStmt
  deriving DecidableEq, Repr

/-- The statements that name no binding which survives the merge. -/
inductive JumpKind where
  | BreakStmt | ContinueStmt | DebuggerStmt | ImportDecl | ExportNamesDecl
  deriving DecidableEq, Repr

mutual

inductive Expr where
  | ident (name : String)
  | leaf (kind : LeafKind)
  | compound (kind : CompoundKind) (parts : List Expr)
  | destructuringAssign (pattern : BindingPattern) (value : Expr)
  | functionExpr (name : Option String) (isArrow : Bool) (params : List Param) (body : List Stmt)
  | classExpr (name : Option String) (superClass : Option Expr) (methods : List ClassMethod)

/-- `BindingPattern`: what stands where a binding name would. -/
inductive BindingPattern where
  | mk (elements : List PatternElement)

/-- `PatternElement`: exactly one of the name, the pattern and the target is
meaningful. -/
inductive PatternElement where
  | mk (name : Option String) (pattern : Option BindingPattern)
      (target keyExpr defaultValue : Option Expr)

/-- `Param`: a name, or a pattern in its place. -/
inductive Param where
  | mk (name : String) (pattern : Option BindingPattern) (defaultValue : Option Expr)

/-- `ClassMethod`: the computed key, the initializer of a field, and the
parameters and the body of the function. -/
inductive ClassMethod where
  | mk (keyExpr init : Option Expr) (params : List Param) (body : List Stmt)

inductive Stmt where
  | block (stmts : List Stmt)
  | varDecl (isVar : Bool) (name : String) (pattern : Option BindingPattern)
      (init : Option Expr)
  | returnStmt (value : Option Expr)
  | exprStmt (expr : Expr)
  | ifStmt (condition : Expr) (thenBody elseBody : List Stmt)
  | whileStmt (condition : Expr) (body : List Stmt)
  | doWhileStmt (body : List Stmt) (condition : Expr)
  | forStmt (init : List Stmt) (condition update : Option Expr) (body : List Stmt)
  | iteration (kind : IterationKind) (head : HeadKind) (name : Option String)
      (pattern : Option BindingPattern) (iterable : Expr) (body : List Stmt)
  | switchStmt (discriminant : Expr) (cases : List SwitchCase)
  | labeled (label : String) (body : Option Stmt)
  | tryStmt (body : List Stmt) (hasCatchParam : Bool) (catchName : String)
      (catchPattern : Option BindingPattern) (catchBody finallyBody : List Stmt)
  | throwStmt (value : Expr)
  | classDecl (name : String) (superClass : Option Expr) (methods : List ClassMethod)
  | functionDecl (name : String) (params : List Param) (body : List Stmt)
  | jump (kind : JumpKind)

/-- `SwitchCase`: no test in the `default` clause. -/
inductive SwitchCase where
  | mk (test : Option Expr) (body : List Stmt)

end

mutual

/-- `patternBoundNames`: every name a pattern binds, in source order. -/
def patternBoundNames : BindingPattern → List String
  | .mk elements => elementsBoundNames elements

/-- The loop of `collectPatternNames`. -/
def elementsBoundNames : List PatternElement → List String
  | [] => []
  | element :: elements => elementBoundNames element ++ elementsBoundNames elements

/-- One turn of that loop: a nested pattern before a name. -/
def elementBoundNames : PatternElement → List String
  | .mk name none _ _ _ => name.toList
  | .mk _ (some pattern) _ _ _ => patternBoundNames pattern

end

/-- `appendDeclaredNames`: the names of a declarator, a parameter or a catch
clause, whose pattern stands in place of the name. -/
def declaredNames (name : String) : Option BindingPattern → List String
  | none => [name]
  | some pattern => patternBoundNames pattern

/-- `appendLoopHeadNames`: the same for a loop head, where a name may be absent. -/
def loopHeadNames (name : Option String) : Option BindingPattern → List String
  | none => name.toList
  | some pattern => patternBoundNames pattern

/-- The names of a parameter list. -/
def paramNames (params : List Param) : List String :=
  params.flatMap fun
    | .mk name pattern _ => declaredNames name pattern

/-- The names `getScopeDeclarations` takes from one statement: a `var` is not
among them. -/
def scopeDeclaration : Stmt → List String
  | .varDecl isVar name pattern _ => if isVar then [] else declaredNames name pattern
  | .functionDecl name _ _ => [name]
  | .classDecl name _ _ => [name]
  | _ => []

/-- `getScopeDeclarations`: the names that belong to the list that spells them. -/
def getScopeDeclarations (stmts : List Stmt) : List String :=
  stmts.flatMap scopeDeclaration

mutual

/-- `collectHoistedVarsIn`: the `var`s of a statement, which belong to the
enclosing function however deeply they are written. -/
def hoistedVarsIn : Stmt → List String
  | .varDecl isVar name pattern _ => if isVar then declaredNames name pattern else []
  | .block stmts => getHoistedVarDeclarations stmts
  | .ifStmt _ thenBody elseBody =>
    getHoistedVarDeclarations thenBody ++ getHoistedVarDeclarations elseBody
  | .whileStmt _ body => getHoistedVarDeclarations body
  | .doWhileStmt body _ => getHoistedVarDeclarations body
  | .forStmt init _ _ body =>
    getHoistedVarDeclarations init ++ getHoistedVarDeclarations body
  | .iteration _ head name pattern _ body =>
    (if head = .isVar then loopHeadNames name pattern else []) ++ getHoistedVarDeclarations body
  | .switchStmt _ cases => hoistedVarsInCases cases
  | .labeled _ body => hoistedVarsInLabeled body
  | .tryStmt body _ _ _ catchBody finallyBody =>
    getHoistedVarDeclarations body ++ getHoistedVarDeclarations catchBody ++
      getHoistedVarDeclarations finallyBody
  | .returnStmt _ => []
  | .exprStmt _ => []
  | .throwStmt _ => []
  -- a nested function's `var`s are its own
  | .classDecl _ _ _ => []
  | .functionDecl _ _ _ => []
  | .jump _ => []

/-- `getHoistedVarDeclarations` (and its worker `collectHoistedVars`). -/
def getHoistedVarDeclarations : List Stmt → List String
  | [] => []
  | stmt :: stmts => hoistedVarsIn stmt ++ getHoistedVarDeclarations stmts

/-- The clauses of a switch: none of them is a scope of its own. -/
def hoistedVarsInCases : List SwitchCase → List String
  | [] => []
  | .mk _ body :: cases => getHoistedVarDeclarations body ++ hoistedVarsInCases cases

def hoistedVarsInLabeled : Option Stmt → List String
  | none => []
  | some body => hoistedVarsIn body

end

/-- The names the clauses of a switch declare in its one block. -/
def casesScopeDeclarations (cases : List SwitchCase) : List String :=
  cases.flatMap fun
    | .mk _ body => getScopeDeclarations body

end Bronze.Rename
