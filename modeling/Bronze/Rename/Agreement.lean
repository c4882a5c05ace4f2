import Bronze.Rename.Scoping

/-!
# Two walks side by side

## Main results

* `renameStmts_eq_iff`: two renamings of a body are equal exactly when they rewrite every
  occurrence alike
* `stmtsOccurrences_related`: related walks meet the same occurrences, in related contexts
-/

namespace Bronze.Rename

open Scoping

variable {σ τ : Type}

/-! ## Agreement -/

/-- The walk that carries the contexts of two. -/
def Scoping.prod (A : Scoping σ) (B : Scoping τ) : Scoping (σ × τ) where
  block names := Prod.map (A.block names) (B.block names)
  functionParams own params body :=
    Prod.map (A.functionParams own params body) (B.functionParams own params body)
  functionBody own params body :=
    Prod.map (A.functionBody own params body) (B.functionBody own params body)
  iterable head names := Prod.map (A.iterable head names) (B.iterable head names)
  iterationHead head names :=
    Prod.map (A.iterationHead head names) (B.iterationHead head names)
  catchParam params lexical :=
    Prod.map (A.catchParam params lexical) (B.catchParam params lexical)
  catchBody params lexical :=
    Prod.map (A.catchBody params lexical) (B.catchBody params lexical)
  classExpr own := Prod.map (A.classExpr own) (B.classExpr own)

/-- Two functions of a context rewrite every one of the occurrences alike. -/
def AgreeOn (f : σ → String → String) (g : τ → String → String)
    (occurrences : List ((σ × τ) × String)) : Prop :=
  ∀ o ∈ occurrences, f o.1.1 o.2 = g o.1.2 o.2

section Agree

variable {f : σ → String → String} {g : τ → String → String}

@[simp] theorem agreeOn_nil : AgreeOn f g [] := by
  simp [AgreeOn]

@[simp] theorem agreeOn_cons {s : σ} {t : τ} {name : String}
    {occurrences : List ((σ × τ) × String)} :
    AgreeOn f g (((s, t), name) :: occurrences) ↔
      f s name = g t name ∧ AgreeOn f g occurrences := by
  simp [AgreeOn]

@[simp] theorem agreeOn_append {l l' : List ((σ × τ) × String)} :
    AgreeOn f g (l ++ l') ↔ AgreeOn f g l ∧ AgreeOn f g l' := by
  simp [AgreeOn, or_imp, forall_and]

end Agree

section Renamings

variable (A : Scoping σ) (B : Scoping τ) (f : σ → String → String) (g : τ → String → String)

mutual

theorem renameExpr_eq_iff (s : σ) (t : τ) : ∀ e : Expr,
    renameExpr A f s e = renameExpr B g t e ↔
      AgreeOn f g (exprOccurrences (A.prod B) (s, t) e)
  | .ident name => by
    simp [renameExpr, exprOccurrences]
  | .leaf kind => by
    simp [renameExpr, exprOccurrences]
  | .compound kind parts => by
    simp [renameExpr, exprOccurrences, renameExprs_eq_iff s t parts]
  | .destructuringAssign pattern value => by
    simp [renameExpr, exprOccurrences, renamePattern_eq_iff s t pattern,
      renameExpr_eq_iff s t value]
  | .functionExpr name isArrow params body => by
    simp [renameExpr, exprOccurrences, renameParams_eq_iff _ _ params,
      renameStmts_eq_iff _ _ body, prod]
  | .classExpr name superClass methods => by
    simp [renameExpr, exprOccurrences, renameExpr?_eq_iff _ _ superClass,
      renameMethods_eq_iff _ _ methods, prod]

theorem renameExprs_eq_iff (s : σ) (t : τ) : ∀ es : List Expr,
    renameExprs A f s es = renameExprs B g t es ↔
      AgreeOn f g (exprsOccurrences (A.prod B) (s, t) es)
  | [] => by
    simp [renameExprs, exprsOccurrences]
  | e :: es => by
    simp [renameExprs, exprsOccurrences, renameExpr_eq_iff s t e, renameExprs_eq_iff s t es]

theorem renameExpr?_eq_iff (s : σ) (t : τ) : ∀ e : Option Expr,
    renameExpr? A f s e = renameExpr? B g t e ↔
      AgreeOn f g (expr?Occurrences (A.prod B) (s, t) e)
  | none => by
    simp [renameExpr?, expr?Occurrences]
  | some e => by
    simp [renameExpr?, expr?Occurrences, renameExpr_eq_iff s t e]

theorem renamePattern_eq_iff (s : σ) (t : τ) : ∀ p : BindingPattern,
    renamePattern A f s p = renamePattern B g t p ↔
      AgreeOn f g (patternOccurrences (A.prod B) (s, t) p)
  | .mk elements => by
    simp [renamePattern, patternOccurrences, renameElements_eq_iff s t elements]

theorem renameElements_eq_iff (s : σ) (t : τ) : ∀ es : List PatternElement,
    renameElements A f s es = renameElements B g t es ↔
      AgreeOn f g (elementsOccurrences (A.prod B) (s, t) es)
  | [] => by
    simp [renameElements, elementsOccurrences]
  | e :: es => by
    simp [renameElements, elementsOccurrences, renameElement_eq_iff s t e,
      renameElements_eq_iff s t es]

theorem renameElement_eq_iff (s : σ) (t : τ) : ∀ e : PatternElement,
    renameElement A f s e = renameElement B g t e ↔
      AgreeOn f g (elementOccurrences (A.prod B) (s, t) e)
  | .mk name pattern target keyExpr defaultValue => by
    cases name <;>
      simp [renameElement, elementOccurrences, renamePattern?_eq_iff s t pattern,
        renameExpr?_eq_iff s t target, renameExpr?_eq_iff s t keyExpr,
        renameExpr?_eq_iff s t defaultValue]

theorem renamePattern?_eq_iff (s : σ) (t : τ) : ∀ p : Option BindingPattern,
    renamePattern? A f s p = renamePattern? B g t p ↔
      AgreeOn f g (pattern?Occurrences (A.prod B) (s, t) p)
  | none => by
    simp [renamePattern?, pattern?Occurrences]
  | some p => by
    simp [renamePattern?, pattern?Occurrences, renamePattern_eq_iff s t p]

theorem renameParams_eq_iff (s : σ) (t : τ) : ∀ ps : List Param,
    renameParams A f s ps = renameParams B g t ps ↔
      AgreeOn f g (paramsOccurrences (A.prod B) (s, t) ps)
  | [] => by
    simp [renameParams, paramsOccurrences]
  | .mk name pattern defaultValue :: ps => by
    simp [renameParams, paramsOccurrences, renamePattern?_eq_iff s t pattern,
      renameExpr?_eq_iff s t defaultValue, renameParams_eq_iff s t ps, and_assoc]

theorem renameMethods_eq_iff (s : σ) (t : τ) : ∀ ms : List ClassMethod,
    renameMethods A f s ms = renameMethods B g t ms ↔
      AgreeOn f g (methodsOccurrences (A.prod B) (s, t) ms)
  | [] => by
    simp [renameMethods, methodsOccurrences]
  | .mk keyExpr init params body :: ms => by
    simp [renameMethods, methodsOccurrences, renameExpr?_eq_iff s t keyExpr,
      renameExpr?_eq_iff s t init, renameParams_eq_iff _ _ params, renameStmts_eq_iff _ _ body,
      renameMethods_eq_iff s t ms, prod, and_assoc]

theorem renameStmt_eq_iff (s : σ) (t : τ) : ∀ st : Stmt,
    renameStmt A f s st = renameStmt B g t st ↔
      AgreeOn f g (stmtOccurrences (A.prod B) (s, t) st)
  | .block stmts => by
    simp [renameStmt, stmtOccurrences, renameStmts_eq_iff _ _ stmts, prod]
  | .varDecl isVar name none init => by
    simp [renameStmt, stmtOccurrences, renameExpr?_eq_iff s t init]
  | .varDecl isVar name (some pattern) init => by
    simp [renameStmt, stmtOccurrences, renamePattern_eq_iff s t pattern,
      renameExpr?_eq_iff s t init]
  | .returnStmt value => by
    simp [renameStmt, stmtOccurrences, renameExpr?_eq_iff s t value]
  | .exprStmt expr => by
    simp [renameStmt, stmtOccurrences, renameExpr_eq_iff s t expr]
  | .ifStmt condition thenBody elseBody => by
    simp [renameStmt, stmtOccurrences, renameExpr_eq_iff s t condition,
      renameStmts_eq_iff _ _ thenBody, renameStmts_eq_iff _ _ elseBody, prod]
  | .whileStmt condition body => by
    simp [renameStmt, stmtOccurrences, renameExpr_eq_iff s t condition,
      renameStmts_eq_iff _ _ body, prod]
  | .doWhileStmt body condition => by
    simp [renameStmt, stmtOccurrences, renameExpr_eq_iff s t condition,
      renameStmts_eq_iff _ _ body, prod]
  | .forStmt init condition update body => by
    simp [renameStmt, stmtOccurrences, renameStmts_eq_iff _ _ init,
      renameExpr?_eq_iff _ _ condition, renameExpr?_eq_iff _ _ update,
      renameStmts_eq_iff _ _ body, prod]
  | .iteration kind head name pattern iterable body => by
    cases name <;>
      simp [renameStmt, stmtOccurrences, renamePattern?_eq_iff _ _ pattern,
        renameExpr_eq_iff _ _ iterable, renameStmts_eq_iff _ _ body, prod]
  | .switchStmt discriminant cases => by
    simp [renameStmt, stmtOccurrences, renameExpr_eq_iff s t discriminant,
      renameCases_eq_iff _ _ cases, prod]
  | .labeled label body => by
    simp [renameStmt, stmtOccurrences, renameStmt?_eq_iff s t body]
  | .tryStmt body hasCatchParam catchName catchPattern catchBody finallyBody => by
    simp [renameStmt, stmtOccurrences, renameStmts_eq_iff _ _ body,
      renamePattern?_eq_iff _ _ catchPattern, renameStmts_eq_iff _ _ catchBody,
      renameStmts_eq_iff _ _ finallyBody, prod]
  | .throwStmt value => by
    simp [renameStmt, stmtOccurrences, renameExpr_eq_iff s t value]
  | .classDecl name superClass methods => by
    simp [renameStmt, stmtOccurrences, renameExpr?_eq_iff s t superClass,
      renameMethods_eq_iff s t methods]
  | .functionDecl name params body => by
    simp [renameStmt, stmtOccurrences, renameParams_eq_iff _ _ params,
      renameStmts_eq_iff _ _ body, prod]
  | .jump kind => by
    simp [renameStmt, stmtOccurrences]

/-- **Two renamings of one body are equal exactly when they rewrite every
identifier occurrence alike.** -/
theorem renameStmts_eq_iff (s : σ) (t : τ) : ∀ sts : List Stmt,
    renameStmts A f s sts = renameStmts B g t sts ↔
      AgreeOn f g (stmtsOccurrences (A.prod B) (s, t) sts)
  | [] => by
    simp [renameStmts, stmtsOccurrences]
  | st :: sts => by
    simp [renameStmts, stmtsOccurrences, renameStmt_eq_iff s t st, renameStmts_eq_iff s t sts]

theorem renameStmt?_eq_iff (s : σ) (t : τ) : ∀ st : Option Stmt,
    renameStmt? A f s st = renameStmt? B g t st ↔
      AgreeOn f g (stmt?Occurrences (A.prod B) (s, t) st)
  | none => by
    simp [renameStmt?, stmt?Occurrences]
  | some st => by
    simp [renameStmt?, stmt?Occurrences, renameStmt_eq_iff s t st]

theorem renameCases_eq_iff (s : σ) (t : τ) : ∀ cs : List SwitchCase,
    renameCases A f s cs = renameCases B g t cs ↔
      AgreeOn f g (casesOccurrences (A.prod B) (s, t) cs)
  | [] => by
    simp [renameCases, casesOccurrences]
  | .mk test body :: cs => by
    simp [renameCases, casesOccurrences, renameExpr?_eq_iff s t test,
      renameStmts_eq_iff s t body, renameCases_eq_iff s t cs, and_assoc]

end

end Renamings

/-! ## Related contexts -/

/-- A relation between the contexts of two walks that every construct preserves. -/
structure Simulates (R : σ → τ → Prop) (A : Scoping σ) (B : Scoping τ) : Prop where
  block : ∀ {s t} (names), R s t → R (A.block names s) (B.block names t)
  functionParams : ∀ {s t} (own params body), R s t →
    R (A.functionParams own params body s) (B.functionParams own params body t)
  functionBody : ∀ {s t} (own params body), R s t →
    R (A.functionBody own params body s) (B.functionBody own params body t)
  iterable : ∀ {s t} (head names), R s t → R (A.iterable head names s) (B.iterable head names t)
  iterationHead : ∀ {s t} (head names), R s t →
    R (A.iterationHead head names s) (B.iterationHead head names t)
  catchParam : ∀ {s t} (params lexical), R s t →
    R (A.catchParam params lexical s) (B.catchParam params lexical t)
  catchBody : ∀ {s t} (params lexical), R s t →
    R (A.catchBody params lexical s) (B.catchBody params lexical t)
  classExpr : ∀ {s t} (own), R s t → R (A.classExpr own s) (B.classExpr own t)

/-- The same occurrences, in related contexts. -/
def RelatedOccurrences (R : σ → τ → Prop) : List (σ × String) → List (τ × String) → Prop :=
  List.Forall₂ fun a b => R a.1 b.1 ∧ a.2 = b.2

section Related

variable {R : σ → τ → Prop}

theorem RelatedOccurrences.single {s : σ} {t : τ} (h : R s t) (name : String) :
    RelatedOccurrences R [(s, name)] [(t, name)] :=
  .cons ⟨h, rfl⟩ .nil

theorem RelatedOccurrences.named {s : σ} {t : τ} (h : R s t) (name : Option String) :
    RelatedOccurrences R (name.toList.map (s, ·)) (name.toList.map (t, ·)) := by
  cases name with
  | none => exact .nil
  | some name => exact .single h name

theorem RelatedOccurrences.append {l₁ l₂ : List (σ × String)} {m₁ m₂ : List (τ × String)}
    (h₁ : RelatedOccurrences R l₁ m₁) (h₂ : RelatedOccurrences R l₂ m₂) :
    RelatedOccurrences R (l₁ ++ l₂) (m₁ ++ m₂) :=
  List.rel_append h₁ h₂

theorem RelatedOccurrences.forall_iff {l : List (σ × String)} {m : List (τ × String)}
    (h : RelatedOccurrences R l m) {P : σ × String → Prop} {Q : τ × String → Prop}
    (hPQ : ∀ s t name, R s t → (P (s, name) ↔ Q (t, name))) : (∀ o ∈ l, P o) ↔ ∀ o ∈ m, Q o := by
  induction h with
  | nil => simp
  | @cons a b l m hab _ ih =>
    obtain ⟨s, name⟩ := a
    obtain ⟨t, name'⟩ := b
    obtain ⟨hst, rfl⟩ := hab
    simp only [List.forall_mem_cons, hPQ s t name hst, ih]

variable {A : Scoping σ} {B : Scoping τ}

mutual

theorem exprOccurrences_related (sim : Simulates R A B) {s : σ} {t : τ} (h : R s t) :
    ∀ e : Expr, RelatedOccurrences R (exprOccurrences A s e) (exprOccurrences B t e)
  | .ident name => .single h name
  | .leaf _ => .nil
  | .compound _ parts => exprsOccurrences_related sim h parts
  | .destructuringAssign pattern value =>
    (patternOccurrences_related sim h pattern).append (exprOccurrences_related sim h value)
  | .functionExpr _ _ params body =>
    (paramsOccurrences_related sim (sim.functionParams _ _ _ h) params).append
      (stmtsOccurrences_related sim (sim.functionBody _ _ _ h) body)
  | .classExpr name superClass methods =>
    (expr?Occurrences_related sim (sim.classExpr name h) superClass).append
      (methodsOccurrences_related sim (sim.classExpr name h) methods)

theorem exprsOccurrences_related (sim : Simulates R A B) {s : σ} {t : τ} (h : R s t) :
    ∀ es : List Expr, RelatedOccurrences R (exprsOccurrences A s es) (exprsOccurrences B t es)
  | [] => .nil
  | e :: es => (exprOccurrences_related sim h e).append (exprsOccurrences_related sim h es)

theorem expr?Occurrences_related (sim : Simulates R A B) {s : σ} {t : τ} (h : R s t) :
    ∀ e : Option Expr, RelatedOccurrences R (expr?Occurrences A s e) (expr?Occurrences B t e)
  | none => .nil
  | some e => exprOccurrences_related sim h e

theorem patternOccurrences_related (sim : Simulates R A B) {s : σ} {t : τ} (h : R s t) :
    ∀ p : BindingPattern, RelatedOccurrences R (patternOccurrences A s p) (patternOccurrences B t p)
  | .mk elements => elementsOccurrences_related sim h elements

theorem elementsOccurrences_related (sim : Simulates R A B) {s : σ} {t : τ} (h : R s t) :
    ∀ es : List PatternElement,
    RelatedOccurrences R (elementsOccurrences A s es) (elementsOccurrences B t es)
  | [] => .nil
  | e :: es => (elementOccurrences_related sim h e).append (elementsOccurrences_related sim h es)

theorem elementOccurrences_related (sim : Simulates R A B) {s : σ} {t : τ} (h : R s t) :
    ∀ e : PatternElement, RelatedOccurrences R (elementOccurrences A s e) (elementOccurrences B t e)
  | .mk name pattern target keyExpr defaultValue =>
    (RelatedOccurrences.named h name).append <|
      (pattern?Occurrences_related sim h pattern).append <|
        (expr?Occurrences_related sim h target).append <|
          (expr?Occurrences_related sim h keyExpr).append
            (expr?Occurrences_related sim h defaultValue)

theorem pattern?Occurrences_related (sim : Simulates R A B) {s : σ} {t : τ} (h : R s t) :
    ∀ p : Option BindingPattern,
    RelatedOccurrences R (pattern?Occurrences A s p) (pattern?Occurrences B t p)
  | none => .nil
  | some p => patternOccurrences_related sim h p

theorem paramsOccurrences_related (sim : Simulates R A B) {s : σ} {t : τ} (h : R s t) :
    ∀ ps : List Param, RelatedOccurrences R (paramsOccurrences A s ps) (paramsOccurrences B t ps)
  | [] => .nil
  | .mk _ pattern defaultValue :: ps =>
    (pattern?Occurrences_related sim h pattern).append <|
      (expr?Occurrences_related sim h defaultValue).append (paramsOccurrences_related sim h ps)

theorem methodsOccurrences_related (sim : Simulates R A B) {s : σ} {t : τ} (h : R s t) :
    ∀ ms : List ClassMethod,
    RelatedOccurrences R (methodsOccurrences A s ms) (methodsOccurrences B t ms)
  | [] => .nil
  | .mk keyExpr init params body :: ms =>
    (expr?Occurrences_related sim h keyExpr).append <|
      (expr?Occurrences_related sim h init).append <|
        (paramsOccurrences_related sim (sim.functionParams _ _ _ h) params).append <|
          (stmtsOccurrences_related sim (sim.functionBody _ _ _ h) body).append
            (methodsOccurrences_related sim h ms)

theorem stmtOccurrences_related (sim : Simulates R A B) {s : σ} {t : τ} (h : R s t) :
    ∀ st : Stmt, RelatedOccurrences R (stmtOccurrences A s st) (stmtOccurrences B t st)
  | .block stmts => stmtsOccurrences_related sim (sim.block _ h) stmts
  | .varDecl _ name none init =>
    (RelatedOccurrences.single h name).append (expr?Occurrences_related sim h init)
  | .varDecl _ _ (some pattern) init =>
    (patternOccurrences_related sim h pattern).append (expr?Occurrences_related sim h init)
  | .returnStmt value => expr?Occurrences_related sim h value
  | .exprStmt expr => exprOccurrences_related sim h expr
  | .ifStmt condition thenBody elseBody =>
    (exprOccurrences_related sim h condition).append <|
      (stmtsOccurrences_related sim (sim.block _ h) thenBody).append
        (stmtsOccurrences_related sim (sim.block _ h) elseBody)
  | .whileStmt condition body =>
    (exprOccurrences_related sim h condition).append
      (stmtsOccurrences_related sim (sim.block _ h) body)
  | .doWhileStmt body condition =>
    (stmtsOccurrences_related sim (sim.block _ h) body).append
      (exprOccurrences_related sim h condition)
  | .forStmt init condition update body =>
    let header := sim.block (getScopeDeclarations init) h
    (stmtsOccurrences_related sim header init).append <|
      (expr?Occurrences_related sim header condition).append <|
        (expr?Occurrences_related sim header update).append
          (stmtsOccurrences_related sim (sim.block _ header) body)
  | .iteration _ head name pattern iterable body =>
    let inside := sim.iterationHead head (loopHeadNames name pattern) h
    (RelatedOccurrences.named inside name).append <|
      (pattern?Occurrences_related sim inside pattern).append <|
        (exprOccurrences_related sim (sim.iterable _ _ h) iterable).append
          (stmtsOccurrences_related sim (sim.block _ inside) body)
  | .switchStmt discriminant cases =>
    (exprOccurrences_related sim h discriminant).append
      (casesOccurrences_related sim (sim.block _ h) cases)
  | .labeled _ body => stmt?Occurrences_related sim h body
  | .tryStmt body _ _ catchPattern catchBody finallyBody =>
    (stmtsOccurrences_related sim (sim.block _ h) body).append <|
      (pattern?Occurrences_related sim (sim.catchParam _ _ h) catchPattern).append <|
        (stmtsOccurrences_related sim (sim.catchBody _ _ h) catchBody).append
          (stmtsOccurrences_related sim (sim.block _ h) finallyBody)
  | .throwStmt value => exprOccurrences_related sim h value
  | .classDecl name superClass methods =>
    (RelatedOccurrences.single h name).append <|
      (expr?Occurrences_related sim h superClass).append (methodsOccurrences_related sim h methods)
  | .functionDecl name params body =>
    (RelatedOccurrences.single h name).append <|
      (paramsOccurrences_related sim (sim.functionParams _ _ _ h) params).append
        (stmtsOccurrences_related sim (sim.functionBody _ _ _ h) body)
  | .jump _ => .nil

/-- **Related walks meet the same identifier occurrences of a body, in related
contexts.** -/
theorem stmtsOccurrences_related (sim : Simulates R A B) {s : σ} {t : τ} (h : R s t) :
    ∀ sts : List Stmt, RelatedOccurrences R (stmtsOccurrences A s sts) (stmtsOccurrences B t sts)
  | [] => .nil
  | st :: sts => (stmtOccurrences_related sim h st).append (stmtsOccurrences_related sim h sts)

theorem stmt?Occurrences_related (sim : Simulates R A B) {s : σ} {t : τ} (h : R s t) :
    ∀ st : Option Stmt, RelatedOccurrences R (stmt?Occurrences A s st) (stmt?Occurrences B t st)
  | none => .nil
  | some st => stmtOccurrences_related sim h st

theorem casesOccurrences_related (sim : Simulates R A B) {s : σ} {t : τ} (h : R s t) :
    ∀ cs : List SwitchCase, RelatedOccurrences R (casesOccurrences A s cs) (casesOccurrences B t cs)
  | [] => .nil
  | .mk test body :: cs =>
    (expr?Occurrences_related sim h test).append <|
      (stmtsOccurrences_related sim h body).append (casesOccurrences_related sim h cs)

end

end Related

end Bronze.Rename
