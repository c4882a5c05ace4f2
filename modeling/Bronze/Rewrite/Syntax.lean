import Bronze.BigNum.Double

/-!
# The program a rewrite reads

The parsed program as one walk over it sees it. A statement declares and assigns names, evaluates
expressions, and has *scopes* below it: the statement lists it contains, and the functions and
classes that its expressions build. A path is the chain of the scopes around a place, and every
place of a program has one.

## Main results

* `isAt_varDecl`: a recorded declaration is the statement at the recorded path
* `not_mem_declaredNames`: what is declared once is not declared again in its list
-/

namespace Bronze.Rewrite

open BigNum (Double)
open List Nat Option

inductive UnaryOp where
  | not | negate | posate | preInc | preDec | postInc | postDec | bitNot | typeOf | void | delete
deriving DecidableEq

inductive BinaryOp where
  | add | sub | mul | div | mod | less | greater | lessEqual | greaterEqual
  | eq | strictEq | ne | strictNe | assign | plusAssign | minusAssign
  | starAssign | slashAssign | percentAssign | logicalAnd | logicalOr | nullishCoalescing
  | bitAnd | bitOr | bitXor | shl | shr | uShr | exp | in_ | instanceOf | comma
  | ampAssign | pipeAssign | caretAssign | shlAssign | shrAssign | uShrAssign | expAssign
  | logicalAndAssign | logicalOrAssign | nullishAssign
deriving DecidableEq

def BinaryOp.isAssignOp : BinaryOp → Bool
  | .assign | .plusAssign | .minusAssign | .starAssign | .slashAssign | .percentAssign
  | .ampAssign | .pipeAssign | .caretAssign | .shlAssign | .shrAssign | .uShrAssign | .expAssign
  | .logicalAndAssign | .logicalOrAssign | .nullishAssign => true
  | _ => false

def UnaryOp.isStep : UnaryOp → Bool
  | .preInc | .preDec | .postInc | .postDec => true
  | _ => false

/-- Neither negative nor NaN. -/
def isUnsigned : Double → Bool
  | .finite false _ => true
  | .infinite false => true
  | _ => false

/-- `NumberLit`. The grammar of numeric literals has no sign. -/
structure NumberLit where
  value : Double
  unsigned : isUnsigned value = true

/-- An expression. A function or a class that it builds is a `closure`, whose body is a scope of
the statement. -/
inductive Expr where
  | numberLit (literal : NumberLit)
  | ident (name : String)
  | unary (op : UnaryOp) (operand : Expr)
  | binary (op : BinaryOp) (lhs rhs : Expr)
  | ternary (condition thenExpr elseExpr : Expr)
  | member (object : Expr) (property : String) (optional isPrivate : Bool)
  | index (object key : Expr)
  | call (callee : Expr) (args : List Expr) (optional : Bool)
  | spread (argument : Expr)
  /-- `super[key]` -/
  | superMember (key : Expr)
  /-- `DestructuringAssign`: the names and the members that the pattern assigns, and what else it
  evaluates. -/
  | destructuring (names : List String) (targets exprs : List Expr)
  | closure
  /-- Every other form: it evaluates its parts and assigns nothing. -/
  | other (parts : List Expr)

mutual

/-- What a walk gathers below an expression, which is not asked into the key of a super member
unless `superKeys` is set. -/
def Expr.gather (own : Expr → List String) (superKeys : Bool) : Expr → List String
  | .numberLit n => own (.numberLit n)
  | .ident n => own (.ident n)
  | .unary op e => own (.unary op e) ++ e.gather own superKeys
  | .binary op l r => own (.binary op l r) ++ (l.gather own superKeys ++ r.gather own superKeys)
  | .ternary c t e => own (.ternary c t e) ++
      (c.gather own superKeys ++ (t.gather own superKeys ++ e.gather own superKeys))
  | .member o p q r => own (.member o p q r) ++ o.gather own superKeys
  | .index o k => own (.index o k) ++ (o.gather own superKeys ++ k.gather own superKeys)
  | .call f args o => own (.call f args o) ++
      (f.gather own superKeys ++ gatherAll own superKeys args)
  | .spread e => own (.spread e) ++ e.gather own superKeys
  | .superMember k => own (.superMember k) ++ (if superKeys then k.gather own superKeys else [])
  | .destructuring ns ts es => own (.destructuring ns ts es) ++
      (gatherAll own superKeys ts ++ gatherAll own superKeys es)
  | .closure => own .closure
  | .other es => own (.other es) ++ gatherAll own superKeys es

/-- The same below several expressions. -/
def gatherAll (own : Expr → List String) (superKeys : Bool) : List Expr → List String
  | [] => []
  | e :: es => e.gather own superKeys ++ gatherAll own superKeys es

end

def Expr.identName : Expr → List String
  | .ident n => [n]
  | _ => []

/-- The names that an expression itself assigns. -/
def Expr.assignsHere : Expr → List String
  | .unary op e => if op.isStep then e.identName else []
  | .binary op l _ => if op.isAssignOp then l.identName else []
  | .destructuring ns _ _ => ns
  | _ => []

/-- `notePropertyWrite` -/
def Expr.writtenObject : Expr → List String
  | .member o _ _ _ => o.identName
  | .index o _ => o.identName
  | _ => []

/-- The names that an expression itself writes or deletes a property of. -/
def Expr.writesHere : Expr → List String
  | .unary op e => if op = .delete || op.isStep then e.writtenObject else []
  | .binary op l _ => if op.isAssignOp then l.writtenObject else []
  | .destructuring _ ts _ => ts.flatMap Expr.writtenObject
  | _ => []

/-- The names below an expression that it assigns, in the key of a super member too. -/
def Expr.assigns (e : Expr) : List String := e.gather Expr.assignsHere true

/-! ## Statements and scopes -/

mutual

inductive Stmt where
  /-- `VarDecl` of one name -/
  | varDecl (isVar : Bool) (name : String) (init : Option Expr) (scopes : List Scope)
  /-- Every other statement: the names it declares, those it assigns itself (an assigning head of a
  loop, the parameter of a `catch`, the name of a class), the expressions and the scopes. -/
  | other (declares assigns : List String) (exprs : List Expr) (scopes : List Scope)

inductive Scope where
  /-- A statement list, or one that belongs to a `case`. -/
  | list (switchCase : Bool) (stmts : List Stmt)
  /-- A function or a class: its name and its parameters, those of them that count as assigned, the
  expressions that are evaluated at its boundary (defaults, computed keys, a heritage), and the
  lists and functions in it. -/
  | function (declares assigns : List String) (exprs : List Expr) (scopes : List Scope)

end

inductive FrameKind where
  | list | switchCase | function
deriving DecidableEq

/-- `Frame`: one of the scopes of the place around it, with the statement's index. -/
structure Frame where
  list : ℕ
  index : ℕ
  kind : FrameKind
deriving DecidableEq

abbrev Path := List Frame

def listKind (switchCase : Bool) : FrameKind := if switchCase then .switchCase else .list

/-- A place of a program: at a statement, or at the boundary of a function. -/
inductive Site where
  | stmt (s : Stmt)
  | function (declares assigns : List String) (exprs : List Expr) (scopes : List Scope)

/-- The place in a scope that a frame leads to. -/
def Scope.enter (f : Frame) : Scope → Option Site
  | .list switchCase stmts =>
    if f.kind = listKind switchCase then stmts[f.index]?.map .stmt else none
  | .function ds as es ss =>
    if f.kind = .function ∧ f.index = 0 then some (.function ds as es ss) else none

namespace Site

def scopes : Site → List Scope
  | .stmt (.varDecl _ _ _ ss) => ss
  | .stmt (.other _ _ _ ss) => ss
  | .function _ _ _ ss => ss

/-- The expressions evaluated at a place. -/
def exprs : Site → List Expr
  | .stmt (.varDecl _ _ init _) => init.toList
  | .stmt (.other _ _ es _) => es
  | .function _ _ es _ => es

/-- The names that a place declares itself. -/
def declares : Site → List String
  | .stmt (.varDecl _ n _ _) => [n]
  | .stmt (.other ds _ _ _) => ds
  | .function ds _ _ _ => ds

/-- The names that a place assigns itself, other than in an expression. -/
def heads : Site → List String
  | .stmt (.varDecl _ _ _ _) => []
  | .stmt (.other _ assigns _ _) => assigns
  | .function _ assigns _ _ => assigns

/-- The place that a frame leads to. -/
def step (site : Site) (f : Frame) : Option Site := site.scopes[f.list]?.bind (Scope.enter f)

/-- The place that a path leads to. -/
def at_ (site : Site) (p : Path) : Option Site := p.foldlM step site

end Site

mutual

/-- What a walk gathers below a statement. -/
def Stmt.gather (own : Site → List String) : Stmt → List String
  | .varDecl v n i ss => own (.stmt (.varDecl v n i ss)) ++ Scope.gatherAll own ss
  | .other ds as es ss => own (.stmt (.other ds as es ss)) ++ Scope.gatherAll own ss

/-- The same below a statement list. -/
def Stmt.gatherAll (own : Site → List String) : List Stmt → List String
  | [] => []
  | s :: ss => s.gather own ++ Stmt.gatherAll own ss

def Scope.gather (own : Site → List String) : Scope → List String
  | .list _ stmts => Stmt.gatherAll own stmts
  | .function ds as es ss => own (.function ds as es ss) ++ Scope.gatherAll own ss

/-- The same below several. -/
def Scope.gatherAll (own : Site → List String) : List Scope → List String
  | [] => []
  | s :: ss => s.gather own ++ Scope.gatherAll own ss

end

/-- What a walk gathers at a place and below. -/
def Site.gather (own : Site → List String) (site : Site) : List String :=
  own site ++ Scope.gatherAll own site.scopes

/-- The names declared at a place and below. -/
def Site.declaredNames (site : Site) : List String := site.gather Site.declares

structure VarDeclAt where
  isVar : Bool
  name : String
  init : Option Expr
  path : Path

mutual

/-- The declarations of one name in a statement at a path. -/
def Stmt.varDecls (p : Path) : Stmt → List VarDeclAt
  | .varDecl v n i ss => ⟨v, n, i, p⟩ :: Scope.varDeclsAll p 0 ss
  | .other _ _ _ ss => Scope.varDeclsAll p 0 ss

/-- Those of a statement list, from an index on. -/
def Stmt.varDeclsAll (p : Path) (list : ℕ) (kind : FrameKind) (i : ℕ) :
    List Stmt → List VarDeclAt
  | [] => []
  | s :: ss => s.varDecls (p ++ [⟨list, i, kind⟩]) ++ Stmt.varDeclsAll p list kind (i + 1) ss

def Scope.varDecls (p : Path) (list : ℕ) : Scope → List VarDeclAt
  | .list switchCase stmts => Stmt.varDeclsAll p list (listKind switchCase) 0 stmts
  | .function _ _ _ ss => Scope.varDeclsAll (p ++ [⟨list, 0, .function⟩]) 0 ss

/-- Those of the scopes below a place. -/
def Scope.varDeclsAll (p : Path) (list : ℕ) : List Scope → List VarDeclAt
  | [] => []
  | s :: ss => s.varDecls p list ++ Scope.varDeclsAll p (list + 1) ss

end

/-- `ParsedJs`: the statements of a module. -/
structure Program where
  body : List Stmt

namespace Program

variable (program : Program)

/-- The place that contains the whole program. -/
def root : Site := .function [] [] [] [.list false program.body]

def declarationCount (name : String) : ℕ := program.root.declaredNames.count name

/-- `varDecls`: the first declaration of a name. -/
def varDecl (name : String) : Option VarDeclAt :=
  (Scope.varDeclsAll [] 0 program.root.scopes).find? (·.name == name)

/-- The names that the program assigns other than by declaring them, as one walk sees them. -/
def assignments (superKeys : Bool) : List String :=
  program.root.gather fun site => site.heads ++ gatherAll Expr.assignsHere superKeys site.exprs

/-- `getDeeplyReboundNames`. It does not visit the key of a super member. -/
def rebound : List String := program.assignments false

/-- The names that the program assigns. -/
def assigned : List String := program.assignments true

def propertyWritten : List String :=
  program.root.gather fun site => gatherAll Expr.writesHere true site.exprs

def hasEval : Bool :=
  (program.root.gather fun site => gatherAll Expr.identName true site.exprs).contains "eval"

def isGlobal (name : String) : Bool :=
  !program.hasEval && program.declarationCount name == 0 && !program.rebound.contains name &&
    !program.propertyWritten.contains name

/-- Whether an argument is spread. -/
def isSpread : Expr → Bool
  | .spread _ => true
  | _ => false

def isMathCall (method : String) : Expr → Bool
  | .call (.member (.ident base) property optional isPrivate) args optionalCall =>
    !optionalCall && !optional && !isPrivate && property == method && base == "Math" &&
      program.isGlobal "Math" && !args.any isSpread
  | _ => false

/-- Whether a use at one path is later in the list of a declaration at another, with no function
between them. -/
def reaches (declaration use : Path) : Bool :=
  match declaration.getLast? with
  | none => false
  | some last =>
    let k := declaration.length - 1
    last.kind == .list && k < use.length && use.take k == declaration.take k &&
      (match use[k]? with
      | some f => f.list == last.list && f.kind == last.kind && last.index < f.index
      | none => false) &&
      (use.drop (k + 1)).all (·.kind != .function)

/-- `constInit`: the initialiser of the binding that the use of a name at a path refers to, and
where it is. -/
def constInit (use : Path) (name : String) : Option (Expr × Path) :=
  if program.hasEval || program.declarationCount name != 1 || program.rebound.contains name then
    none
  else
    match program.varDecl name with
    | some ⟨false, _, some init, path⟩ => if reaches path use then some (init, path) else none
    | _ => none

end Program

section Gather

variable (own : Site → List String) {site site' : Site} {f : Frame} (n : String)

theorem Stmt.gatherAll_eq (stmts : List Stmt) :
    Stmt.gatherAll own stmts = stmts.flatMap (Stmt.gather own) := by
  induction stmts with
  | nil => rfl
  | cons s ss ih => simp [Stmt.gatherAll, ih]

theorem Scope.gatherAll_eq (scopes : List Scope) :
    Scope.gatherAll own scopes = scopes.flatMap (Scope.gather own) := by
  induction scopes with
  | nil => rfl
  | cons s ss ih => simp [Scope.gatherAll, ih]

theorem Site.gather_stmt (s : Stmt) : (Site.stmt s).gather own = s.gather own := by
  cases s <;> rw [Site.gather] <;> rfl

theorem Site.gather_function (ds as : List String) (es : List Expr) (ss : List Scope) :
    (Site.function ds as es ss).gather own = (Scope.function ds as es ss).gather own := by
  rw [Site.gather, Scope.gather, Site.scopes]

/-- What a place has is what it has itself and what the scopes below it have. -/
theorem Site.count_gather (site : Site) : (site.gather own).count n =
    (own site).count n + (site.scopes.flatMap (Scope.gather own)).count n := by
  simp [Site.gather, Scope.gatherAll_eq]

theorem count_le_flatMap {α : Type} (g : α → List String) {l : List α} {i : ℕ} {a : α}
    (h : l[i]? = some a) : (g a).count n ≤ (l.flatMap g).count n := by
  induction l generalizing i with
  | nil => cases h
  | cons b l ih =>
    rw [flatMap_cons, count_append]
    cases i with
    | zero =>
      obtain rfl : b = a := by simpa using h
      omega
    | succ i =>
      have := ih (i := i) (by simpa using h)
      omega

theorem count_add_le_flatMap {α : Type} (g : α → List String) {l : List α} {i j : ℕ} {a b : α}
    (hij : i < j) (ha : l[i]? = some a) (hb : l[j]? = some b) :
    (g a).count n + (g b).count n ≤ (l.flatMap g).count n := by
  induction l generalizing i j with
  | nil => cases ha
  | cons c l ih =>
    rw [flatMap_cons, count_append]
    obtain ⟨j, rfl⟩ : ∃ k, j = k + 1 := ⟨j - 1, by omega⟩
    have hb' : l[j]? = some b := by simpa using hb
    cases i with
    | zero =>
      obtain rfl : c = a := by simpa using ha
      have := count_le_flatMap n g hb'
      omega
    | succ i =>
      have := ih (i := i) (j := j) (by omega) (by simpa using ha) hb'
      omega

theorem Scope.count_enter {scope : Scope} (h : scope.enter f = some site') :
    (site'.gather own).count n ≤ (scope.gather own).count n := by
  cases scope with
  | list switchCase stmts =>
    rw [Scope.enter] at h
    split at h
    next =>
      obtain ⟨s, hs, rfl⟩ := map_eq_some_iff.mp h
      rw [Site.gather_stmt, Scope.gather, Stmt.gatherAll_eq]
      exact count_le_flatMap n _ hs
    next => cases h
  | function ds as es ss =>
    rw [Scope.enter] at h
    split at h
    next =>
      obtain rfl := some.inj h
      rw [Site.gather_function]
    next => cases h

theorem Site.count_step (h : site.step f = some site') :
    (site'.gather own).count n ≤ (site.gather own).count n := by
  obtain ⟨scope, hscope, henter⟩ := bind_eq_some_iff.mp h
  have hle := Scope.count_enter own n henter
  have hin := count_le_flatMap n (Scope.gather own) hscope
  have hwhole := Site.count_gather own n site
  omega

theorem Site.at_append {p q : Path} :
    site.at_ (p ++ q) = (site.at_ p).bind fun site' => site'.at_ q := foldlM_append

theorem Site.at_cons {p : Path} : site.at_ (f :: p) = (site.step f).bind fun s => s.at_ p := rfl

/-- **What a place has is in the places around it.** -/
theorem Site.count_at {p : Path} (h : site.at_ p = some site') :
    (site'.gather own).count n ≤ (site.gather own).count n := by
  induction p generalizing site with
  | nil =>
    obtain rfl : site = site' := some.inj h
    exact le_rfl
  | cons f p ih =>
    obtain ⟨next, hstep, hrest⟩ := bind_eq_some_iff.mp h
    exact (ih hrest).trans (Site.count_step own n hstep)

/-- **Two statements of one list** have no more than the place around it. -/
theorem Site.count_siblings {g : Frame} {s t : Site} (hlist : f.list = g.list)
    (hkind : f.kind = g.kind) (hnot : f.kind ≠ .function) (hlt : f.index < g.index)
    (hs : site.step f = some s) (ht : site.step g = some t) :
    (s.gather own).count n + (t.gather own).count n ≤ (site.gather own).count n := by
  obtain ⟨scope, hscope, hs⟩ := bind_eq_some_iff.mp hs
  obtain ⟨scope', hscope', ht⟩ := bind_eq_some_iff.mp ht
  obtain rfl : scope = scope' := by
    rw [hlist] at hscope
    exact some.inj (hscope.symm.trans hscope')
  have hin := count_le_flatMap n (Scope.gather own) hscope
  have hwhole := Site.count_gather own n site
  cases scope with
  | list switchCase stmts =>
    rw [Scope.enter] at hs ht
    split at hs
    next hk =>
      rw [if_pos (hkind ▸ hk)] at ht
      obtain ⟨a, ha, rfl⟩ := map_eq_some_iff.mp hs
      obtain ⟨b, hb, rfl⟩ := map_eq_some_iff.mp ht
      have hboth := count_add_le_flatMap n (Stmt.gather own) hlt ha hb
      rw [Scope.gather, Stmt.gatherAll_eq] at hin
      rw [Site.gather_stmt, Site.gather_stmt]
      omega
    next => cases hs
  | function ds as es ss =>
    rw [Scope.enter] at hs
    split at hs
    next hk => exact absurd hk.1 hnot
    next => cases hs

end Gather

/-- A recorded declaration is the statement at a path below a place. -/
def VarDeclAt.IsAt (d : VarDeclAt) (site : Site) (q : Path) : Prop :=
  ∃ ss, site.at_ q = some (.stmt (.varDecl d.isVar d.name d.init ss))

/-- A step into a scope comes before the path below it. -/
theorem VarDeclAt.IsAt.cons {d : VarDeclAt} {site site' : Site} {f : Frame} {q : Path}
    (hat : d.IsAt site' q) (hstep : ∃ j, f.list = 0 + j ∧ ∃ scope, site.scopes[j]? = some scope ∧
      scope.enter f = some site') : d.IsAt site (f :: q) := by
  obtain ⟨j, hlist, scope, hscope, henter⟩ := hstep
  obtain ⟨ss, hat⟩ := hat
  refine ⟨ss, ?_⟩
  rw [Site.at_cons, Site.step, hlist, zero_add, hscope]
  simpa [henter] using hat

mutual

variable {d : VarDeclAt}

theorem Stmt.mem_varDecls : ∀ {s : Stmt} {p : Path}, d ∈ s.varDecls p →
    ∃ q, d.path = p ++ q ∧ d.IsAt (.stmt s) q
  | .varDecl v n i ss, p, h => by
    rw [Stmt.varDecls] at h
    rcases mem_cons.mp h with rfl | h
    · exact ⟨[], (append_nil p).symm, ss, rfl⟩
    · obtain ⟨f, q, site, hpath, hstep, hat⟩ := Scope.mem_varDeclsAll h
      exact ⟨f :: q, hpath, hat.cons hstep⟩
  | .other _ _ _ ss, p, h => by
    rw [Stmt.varDecls] at h
    obtain ⟨f, q, site, hpath, hstep, hat⟩ := Scope.mem_varDeclsAll h
    exact ⟨f :: q, hpath, hat.cons hstep⟩

theorem Stmt.mem_varDeclsAll {p : Path} {list : ℕ} {kind : FrameKind} :
    ∀ {stmts : List Stmt} {i : ℕ}, d ∈ Stmt.varDeclsAll p list kind i stmts →
    ∃ j s q, stmts[j]? = some s ∧ d.path = p ++ ⟨list, i + j, kind⟩ :: q ∧ d.IsAt (.stmt s) q
  | [], i, h => by cases h
  | s :: ss, i, h => by
    rw [Stmt.varDeclsAll] at h
    rcases mem_append.mp h with h | h
    · obtain ⟨q, hpath, hat⟩ := Stmt.mem_varDecls h
      exact ⟨0, s, q, rfl, by rw [hpath]; simp, hat⟩
    · obtain ⟨j, t, q, hj, hpath, hat⟩ := Stmt.mem_varDeclsAll h
      exact ⟨j + 1, t, q, hj, by rw [hpath]; congr 3; omega, hat⟩

theorem Scope.mem_varDecls {p : Path} {l : ℕ} :
    ∀ {scope : Scope}, d ∈ scope.varDecls p l →
    ∃ f q site, f.list = l ∧ d.path = p ++ f :: q ∧ scope.enter f = some site ∧ d.IsAt site q
  | .list switchCase stmts, h => by
    rw [Scope.varDecls] at h
    obtain ⟨j, s, q, hj, hpath, hat⟩ := Stmt.mem_varDeclsAll h
    refine ⟨_, q, .stmt s, rfl, hpath, ?_, hat⟩
    rw [Scope.enter, if_pos rfl, zero_add, hj]
    rfl
  | .function ds as es ss, h => by
    rw [Scope.varDecls] at h
    obtain ⟨f, q, site, hpath, hstep, hat⟩ := Scope.mem_varDeclsAll h
    refine ⟨⟨l, 0, .function⟩, f :: q, .function ds as es ss, rfl, ?_, ?_, hat.cons hstep⟩
    · rw [hpath, append_assoc]
      rfl
    · simp [Scope.enter]

theorem Scope.mem_varDeclsAll {p : Path} :
    ∀ {scopes : List Scope} {l : ℕ}, d ∈ Scope.varDeclsAll p l scopes →
    ∃ f q site, d.path = p ++ f :: q ∧
      (∃ j, f.list = l + j ∧ ∃ scope, scopes[j]? = some scope ∧ scope.enter f = some site) ∧
      d.IsAt site q
  | [], l, h => by cases h
  | s :: ss, l, h => by
    rw [Scope.varDeclsAll] at h
    rcases mem_append.mp h with h | h
    · obtain ⟨f, q, site, hlist, hpath, henter, hat⟩ := Scope.mem_varDecls h
      exact ⟨f, q, site, hpath, ⟨0, hlist, s, rfl, henter⟩, hat⟩
    · obtain ⟨f, q, site, hpath, ⟨j, hlist, scope, hj, henter⟩, hat⟩ := Scope.mem_varDeclsAll h
      exact ⟨f, q, site, hpath, ⟨j + 1, by omega, scope, hj, henter⟩, hat⟩

end

namespace Program

variable {program : Program} {n : String}

/-- **A recorded declaration** is the statement at the recorded path. -/
theorem isAt_varDecl {d : VarDeclAt} (h : program.varDecl n = some d) :
    d.name = n ∧ d.IsAt program.root d.path := by
  have hname : d.name = n := by simpa using find?_some h
  obtain ⟨f, q, site, hpath, hstep, hat⟩ := Scope.mem_varDeclsAll (mem_of_find?_eq_some h)
  rw [hpath]
  exact ⟨hname, hat.cons hstep⟩

theorem exists_of_reaches {declaration use : Path} (h : reaches declaration use = true) :
    ∃ pre f g post, declaration = pre ++ [f] ∧ use = pre ++ g :: post ∧ f.kind = .list ∧
      g.list = f.list ∧ g.kind = f.kind ∧ f.index < g.index ∧ ∀ b ∈ post, b.kind ≠ .function := by
  unfold reaches at h
  split at h
  next => cases h
  next last hlast =>
    obtain ⟨pre, rfl⟩ := getLast?_eq_some_iff.mp hlast
    have hlength : (pre ++ [last]).length - 1 = pre.length := by simp
    rw [hlength] at h
    simp only [Bool.and_eq_true, beq_iff_eq, List.all_eq_true, bne_iff_ne] at h
    obtain ⟨⟨⟨⟨hkind, -⟩, htake⟩, hframe⟩, hpost⟩ := h
    split at hframe
    next g hg =>
      simp only [Bool.and_eq_true, beq_iff_eq, decide_eq_true_eq] at hframe
      obtain ⟨hk, hg⟩ := List.getElem?_eq_some_iff.mp hg
      refine ⟨pre, last, g, use.drop (pre.length + 1), rfl, ?_, hkind, hframe.1.1, hframe.1.2,
        hframe.2, hpost⟩
      have hpre : use.take pre.length = pre := htake.trans take_left
      calc use = use.take pre.length ++ use.drop pre.length := (take_append_drop ..).symm
        _ = pre ++ g :: use.drop (pre.length + 1) := by
          simp [hpre, ← hg]
    next => cases hframe

/-- **A name that is declared once** is not declared again in its list. -/
theorem not_mem_declaredNames {v : Bool} {init : Option Expr} {ss : List Scope} {pre : Path}
    {f g : Frame} {site : Site} (hcount : program.declarationCount n = 1)
    (hdecl : program.root.at_ (pre ++ [f]) = some (.stmt (.varDecl v n init ss)))
    (huse : program.root.at_ (pre ++ [g]) = some site) (hlist : g.list = f.list)
    (hkind : g.kind = f.kind) (hnot : f.kind ≠ .function) (hlt : f.index < g.index) :
    n ∉ site.declaredNames := by
  rw [Site.at_append] at hdecl huse
  obtain ⟨around, haround, hdecl⟩ := bind_eq_some_iff.mp hdecl
  obtain ⟨around', haround', huse⟩ := bind_eq_some_iff.mp huse
  obtain rfl : around = around' := some.inj (haround.symm.trans haround')
  have hdecl : around.step f = some (.stmt (.varDecl v n init ss)) := by
    simpa [Site.at_] using hdecl
  have huse : around.step g = some site := by simpa [Site.at_] using huse
  have hboth := Site.count_siblings Site.declares n hlist.symm hkind.symm hnot hlt hdecl huse
  have hwhole := Site.count_at Site.declares n haround
  have hself : 1 ≤ ((Site.stmt (.varDecl v n init ss)).gather Site.declares).count n := by
    rw [Site.count_gather, Site.declares, count_singleton_self]
    omega
  unfold declarationCount Site.declaredNames at hcount
  rw [Site.declaredNames, ← count_eq_zero]
  omega

end Program

end Bronze.Rewrite
