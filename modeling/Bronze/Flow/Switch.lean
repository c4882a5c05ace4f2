import Bronze.Flow.Environment

/-!
# The typing of a switch statement

`FlowAnalyzer::switchStmt` of `src/types/flow.cpp` over any discriminant, tests and statements,
and the evaluation of a switch after ECMA-262 14.12. An expression or a statement is here what
the walk and the evaluation see of it: how `FlowAnalyzer` walks it, how it runs, and the names
that `getAssignedNames` and `getScopeDeclarations` find in it.

The walk goes through the cases as if each body ran after the one before it. A run gets to a test
with every earlier body skipped, and enters a body from the head or by falling through. So what
the tests and bodies before a point give a name has to cover what the name can have there along
each of these ways: `Feeds` lists the ways into a body. After the statement the walk keeps the
environment of the discriminant with every assigned name widened, which is right for every way
out.

## Main definitions

* `given`: what some tests and bodies leave, walked one after the other
* `SwitchStmt.Covered`: what earlier cases give a name covers what it can have

## Main results

* `Leaves.holds`: the environment after a switch covers every way out
* `switchStmt_sound`: a covered switch is typed soundly, its tests and its bodies
* `switchStmt_skips_head`: a body that assigns is walked into the next one, which runs without it
-/

namespace Bronze.Flow

open Types
open List Option Function

/-- How a statement completes. An unlabelled `break` is `broken`. -/
inductive Completion where
  | normal | broken | continued | returned | threw
  deriving DecidableEq

section Code

variable {R : Realm} {W : World R}

/-- What the analysis and the evaluation see of an expression. -/
structure Expression (R : Realm) where
  /-- `FlowAnalyzer::expr`. -/
  walk : Scope → Ty × Scope
  evaluates : Store R → Value R.toCarriers → Store R → Prop
  throws : Store R → Store R → Prop
  /-- `getAssignedNames`. -/
  assigned : List Name
  walk_frame {s : Scope} {x : Name} : x ∉ assigned → (walk s).2.env x = s.env x
  evaluates_frame {σ σ' : Store R} {v : Value R.toCarriers} {x : Name} :
    evaluates σ v σ' → x ∉ assigned → σ' x = σ x
  throws_frame {σ σ' : Store R} {x : Name} : throws σ σ' → x ∉ assigned → σ' x = σ x

/-- What the analysis and the evaluation see of a statement. -/
structure Statement (R : Realm) where
  /-- `FlowAnalyzer::stmt`. -/
  walk : Scope → Scope
  runs : Store R → Completion → Store R → Prop
  /-- `getAssignedNames`. -/
  assigned : List Name
  /-- The names a `let`, a `const` or a `class` declares in the scope of the statement. -/
  lexical : List Name
  /-- The name a `function` declares in the scope of the statement. -/
  functions : List Name
  walk_frame {s : Scope} {x : Name} :
    x ∉ assigned → x ∉ lexical → x ∉ functions → (walk s).env x = s.env x
  runs_frame {σ σ' : Store R} {c : Completion} {x : Name} :
    runs σ c σ' → x ∉ assigned → x ∉ lexical → x ∉ functions → σ' x = σ x

/-- From the stores of a scope the walk types the value and the environment after it. -/
def Expression.SoundAt (W : World R) (e : Expression R) (s : Scope) : Prop :=
  ∀ σ v σ', Holds W s.env σ → e.evaluates σ v σ' →
    v ∈ (e.walk s).1.denote W ∧ Holds W (e.walk s).2.env σ'

/-- From the stores of a scope the walk types the environment after it. -/
def Statement.SoundAt (W : World R) (st : Statement R) (s : Scope) : Prop :=
  ∀ σ σ', Holds W s.env σ → st.runs σ .normal σ' → Holds W (st.walk s).env σ'

def hoistFunctionDecls (stmts : List (Statement R)) (s : Scope) : Scope :=
  (stmts.flatMap (·.functions)).foldl
    (fun s name => if s.isCell name then s else s.bind name (.function .unknown)) s

/-- The statements of a list, one after another. -/
def walkStatements (stmts : List (Statement R)) (s : Scope) : Scope :=
  stmts.foldl (fun s st => st.walk s) s

def stmtList (stmts : List (Statement R)) (s : Scope) : Scope :=
  walkStatements stmts (hoistFunctionDecls stmts s)

def scopeDeclarations (stmts : List (Statement R)) : List Name :=
  stmts.flatMap fun st => st.lexical ++ st.functions

def scopedStmtList (stmts : List (Statement R)) (s : Scope) : Scope :=
  (stmtList stmts s).restoreDeclarations (s.saveDeclarations (scopeDeclarations stmts))

/-- The statements of a list run one after another, up to the first that does not complete
normally. -/
inductive RunsList : List (Statement R) → Store R → Completion → Store R → Prop
  | nil (σ : Store R) : RunsList [] σ .normal σ
  | cons {st : Statement R} {stmts : List (Statement R)} {σ σ₁ σ' : Store R} {c : Completion}
    (h : st.runs σ .normal σ₁) (hs : RunsList stmts σ₁ c σ') : RunsList (st :: stmts) σ c σ'
  | stop {st : Statement R} {stmts : List (Statement R)} {σ σ' : Store R} {c : Completion}
    (h : st.runs σ c σ') (hc : c ≠ .normal) : RunsList (st :: stmts) σ c σ'

/-- Each statement of a list is typed soundly where the walk meets it. -/
def StatementsSound (W : World R) : List (Statement R) → Scope → Prop
  | [], _ => True
  | st :: stmts, s => st.SoundAt W s ∧ StatementsSound W stmts (st.walk s)

variable {stmts : List (Statement R)} {σ σ' : Store R}

theorem StatementsSound.holds {s : Scope} (h : StatementsSound W stmts s) (hσ : Holds W s.env σ)
    (hrun : RunsList stmts σ .normal σ') : Holds W (walkStatements stmts s).env σ' := by
  induction stmts generalizing s σ with
  | nil =>
    cases hrun
    exact hσ
  | cons st stmts ih =>
    obtain ⟨hst, hrest⟩ := h
    cases hrun with
    | cons h hs => exact ih hrest (hst _ _ hσ h) hs
    | stop h hc => exact absurd rfl hc

theorem RunsList.frame {c : Completion} {x : Name} (h : RunsList stmts σ c σ')
    (hx : x ∉ stmts.flatMap (·.assigned)) (hd : x ∉ scopeDeclarations stmts) : σ' x = σ x := by
  induction h with
  | nil σ => rfl
  | cons h hs ih =>
    simp only [scopeDeclarations, flatMap_cons, mem_append, not_or] at hx hd ih
    rw [ih hx.2 hd.2, Statement.runs_frame _ h hx.1 hd.1.1 hd.1.2]
  | stop h hc =>
    simp only [scopeDeclarations, flatMap_cons, mem_append, not_or] at hx hd
    exact Statement.runs_frame _ h hx.1 hd.1.1 hd.1.2

/-- `struct SwitchCase`; the `default` has no test. -/
structure SwitchCase (R : Realm) where
  test : Option (Expression R)
  body : List (Statement R)

structure SwitchStmt (R : Realm) where
  discriminant : Expression R
  cases : List (SwitchCase R)

namespace SwitchCase

/-- `if (c.test) expr(*c.test)`. -/
def walkTest (c : SwitchCase R) (s : Scope) : Scope :=
  match c.test with
  | some e => (e.walk s).2
  | none => s

/-- `if (c.body.empty()) continue; scopedStmtList(c.body)`. -/
def walkBody (c : SwitchCase R) (s : Scope) : Scope :=
  if c.body.isEmpty then s else scopedStmtList c.body s

/-- One round of the loop over the cases. -/
def walkCase (c : SwitchCase R) (s : Scope) : Scope := c.walkBody (c.walkTest s)

/-- `getAssignedNames` of a case. -/
def assignedNames (c : SwitchCase R) : List Name :=
  (match c.test with
    | some e => e.assigned
    | none => []) ++ c.body.flatMap (·.assigned)

end SwitchCase

namespace SwitchStmt

def assignedNames (sw : SwitchStmt R) : List Name :=
  sw.discriminant.assigned ++ sw.cases.flatMap (·.assignedNames)

/-- The scope the cases are walked from. -/
def opened (sw : SwitchStmt R) (s : Scope) : Scope :=
  let after := (sw.discriminant.walk s).2
  { after with breakStack := [] :: after.breakStack }

/-- The scope before the `i`-th round of the loop over the cases. -/
def beforeCase (sw : SwitchStmt R) (s : Scope) (i : Nat) : Scope :=
  (sw.cases.take i).foldl (fun s c => c.walkCase s) (sw.opened s)

def switchStmt (sw : SwitchStmt R) (s : Scope) : Scope :=
  let entry := (sw.opened s).env
  let walked := sw.beforeCase s sw.cases.length
  { walked with breakStack := walked.breakStack.tail, env := entry }.widenAssigned
    sw.assignedNames

/-- The scope the statements of the `i`-th body are walked from. -/
def bodyScope (sw : SwitchStmt R) (s : Scope) (i : Nat) (c : SwitchCase R) : Scope :=
  hoistFunctionDecls c.body (c.walkTest (sw.beforeCase s i))

end SwitchStmt

/-- A test or the body of a case. -/
inductive Piece (R : Realm) where
  | test (e : Expression R)
  | body (stmts : List (Statement R))

/-- How a test or a body is walked, wherever it stands. -/
def Piece.walk : Piece R → Scope → Scope
  | test e, s => (e.walk s).2
  | body stmts, s => scopedStmtList stmts s

/-- The tests and bodies of some cases, in the order of the text. -/
def pieces (cases : List (SwitchCase R)) : List (Piece R) :=
  cases.flatMap fun c => c.test.toList.map .test ++ [.body c.body]

/-- What some tests and bodies leave, each walked after the one before it. -/
def given (ps : List (Piece R)) (s : Scope) : Scope := ps.foldl (fun s p => p.walk s) s

/-- 14.12.2: the tests are evaluated in order up to the first that selects its case. The answer
is the case selected, if any. -/
inductive Selects (eqNumber : R.Number → R.Number → Prop) (v : Value R.toCarriers) :
    List (SwitchCase R) → Store R → Option Nat → Store R → Prop
  | nil (σ : Store R) : Selects eqNumber v [] σ none σ
  | default {c : SwitchCase R} {cases : List (SwitchCase R)} {σ σ' : Store R} {m : Option Nat}
    (ht : c.test = none) (h : Selects eqNumber v cases σ m σ') :
    Selects eqNumber v (c :: cases) σ (m.map (· + 1)) σ'
  | hit {c : SwitchCase R} {cases : List (SwitchCase R)} {e : Expression R} {σ σ' : Store R}
    {w : Value R.toCarriers} (ht : c.test = some e) (he : e.evaluates σ w σ')
    (heq : isStrictlyEqual eqNumber v w) : Selects eqNumber v (c :: cases) σ (some 0) σ'
  | miss {c : SwitchCase R} {cases : List (SwitchCase R)} {e : Expression R} {σ σ₁ σ' : Store R}
    {w : Value R.toCarriers} {m : Option Nat} (ht : c.test = some e) (he : e.evaluates σ w σ₁)
    (hne : ¬isStrictlyEqual eqNumber v w) (h : Selects eqNumber v cases σ₁ m σ') :
    Selects eqNumber v (c :: cases) σ (m.map (· + 1)) σ'

/-- A test throws after the tests before it have selected no case. -/
inductive TestThrows (eqNumber : R.Number → R.Number → Prop) (v : Value R.toCarriers) :
    List (SwitchCase R) → Store R → Store R → Prop
  | here {c : SwitchCase R} {cases : List (SwitchCase R)} {e : Expression R} {σ σ' : Store R}
    (ht : c.test = some e) (he : e.throws σ σ') : TestThrows eqNumber v (c :: cases) σ σ'
  | default {c : SwitchCase R} {cases : List (SwitchCase R)} {σ σ' : Store R}
    (ht : c.test = none) (h : TestThrows eqNumber v cases σ σ') :
    TestThrows eqNumber v (c :: cases) σ σ'
  | miss {c : SwitchCase R} {cases : List (SwitchCase R)} {e : Expression R} {σ σ₁ σ' : Store R}
    {w : Value R.toCarriers} (ht : c.test = some e) (he : e.evaluates σ w σ₁)
    (hne : ¬isStrictlyEqual eqNumber v w) (h : TestThrows eqNumber v cases σ₁ σ') :
    TestThrows eqNumber v (c :: cases) σ σ'

namespace SwitchStmt

/-- The names that `let`, `const` and `class` declare in the case block. -/
def lexical (sw : SwitchStmt R) : List Name :=
  sw.cases.flatMap fun c => c.body.flatMap (·.lexical)

/-- The names that functions declare in the case block. -/
def functions (sw : SwitchStmt R) : List Name :=
  sw.cases.flatMap fun c => c.body.flatMap (·.functions)

/-- 14.2.3 BlockDeclarationInstantiation of the case block, which is one scope: a lexical binding
is not initialised yet and a function is there from the start. -/
structure OpensBlock (sw : SwitchStmt R) (σ σ₀ : Store R) : Prop where
  lexical : ∀ x ∈ sw.lexical, σ₀ x = none
  functions : ∀ x ∈ sw.functions, x ∉ sw.lexical →
    ∃ o, σ₀ x = some (.object o) ∧ R.kindOf o = .function
  other : ∀ x ∉ sw.lexical, x ∉ sw.functions → σ₀ x = σ x

/-- The case a run starts at: the one selected, or else the default. -/
def start (sw : SwitchStmt R) (selected : Option Nat) : Option Nat :=
  selected <|> sw.cases.findIdx? (·.test.isNone)

variable (eqNumber : R.Number → R.Number → Prop)

/-- A run of the case block gets to the test of the `i`-th case: no test before it selects. -/
def Tests (sw : SwitchStmt R) (v : Value R.toCarriers) (σ₀ : Store R) (i : Nat) (τ : Store R) :
    Prop :=
  Selects eqNumber v (sw.cases.take i) σ₀ none τ

/-- A run of the case block enters the body of the `i`-th case. -/
inductive Enters (sw : SwitchStmt R) (v : Value R.toCarriers) (σ₀ : Store R) : Nat → Store R → Prop
  | direct {selected : Option Nat} {i : Nat} {τ : Store R}
    (h : Selects eqNumber v sw.cases σ₀ selected τ) (hi : sw.start selected = some i) :
    Enters sw v σ₀ i τ
  | fallThrough {i : Nat} {c : SwitchCase R} {τ τ' : Store R} (h : Enters sw v σ₀ i τ)
    (hc : sw.cases[i]? = some c) (hrun : RunsList c.body τ .normal τ') :
    Enters sw v σ₀ (i + 1) τ'

/-- A run of the case block is over. -/
inductive Exits (sw : SwitchStmt R) (v : Value R.toCarriers) (σ₀ : Store R) :
    Completion → Store R → Prop
  | threw {τ : Store R} (h : TestThrows eqNumber v sw.cases σ₀ τ) : Exits sw v σ₀ .threw τ
  | skipped {τ : Store R} (h : Selects eqNumber v sw.cases σ₀ none τ)
    (hd : sw.start none = none) : Exits sw v σ₀ .normal τ
  | abrupt {i : Nat} {c : SwitchCase R} {k : Completion} {τ τ' : Store R}
    (h : Enters eqNumber sw v σ₀ i τ) (hc : sw.cases[i]? = some c)
    (hrun : RunsList c.body τ k τ') (hk : k ≠ .normal) :
    Exits sw v σ₀ (if k = .broken then .normal else k) τ'
  | finished {τ : Store R} (h : Enters eqNumber sw v σ₀ sw.cases.length τ) :
    Exits sw v σ₀ .normal τ

/-- The switch completes: the case block's own bindings are gone. -/
def Leaves (sw : SwitchStmt R) (v : Value R.toCarriers) (σ : Store R) (k : Completion)
    (σ' : Store R) : Prop :=
  ∃ σ₀ τ, sw.OpensBlock σ σ₀ ∧ sw.Exits eqNumber v σ₀ k τ ∧
    ∀ x, σ' x = if x ∈ sw.lexical ∨ x ∈ sw.functions then σ x else τ x

end SwitchStmt

namespace SwitchStmt

/-- The scope of the head in the case block: nothing is known of a lexical binding that is not
initialised, and a function is a function. -/
def headScope (sw : SwitchStmt R) (s : Scope) : Scope :=
  { sw.opened s with
    env := fun x =>
      if x ∈ sw.lexical then some .never
      else if x ∈ sw.functions then some (.function .unknown)
      else (sw.opened s).env x }

/-- The first `n` tests, walked from the head without a body between them. -/
def testsAlone (sw : SwitchStmt R) (s : Scope) (n : Nat) : Scope :=
  (sw.cases.take n).foldl (fun s c => c.walkTest s) (sw.headScope s)

/-- What the head knows when it starts at a case: the tests up to it are evaluated, or all of them
for the default. -/
def entryScope (sw : SwitchStmt R) (s : Scope) (i : Nat) (c : SwitchCase R) : Scope :=
  sw.testsAlone s (if c.test.isSome then i + 1 else sw.cases.length)

/-- The names that the tests and bodies assign, and those that the case block declares. -/
def changed (sw : SwitchStmt R) : List Name :=
  sw.cases.flatMap (·.assignedNames) ++ (sw.lexical ++ sw.functions)

/-- What the tests and bodies before the `i`-th case give, from the head on. -/
def givenTest (sw : SwitchStmt R) (s : Scope) (i : Nat) : Scope :=
  given (pieces (sw.cases.take i)) (sw.opened s)

/-- What they give with the test of the case, the functions of its body being hoisted. -/
def givenBody (sw : SwitchStmt R) (s : Scope) (i : Nat) (c : SwitchCase R) : Scope :=
  hoistFunctionDecls c.body
    (given (pieces (sw.cases.take i) ++ c.test.toList.map .test) (sw.opened s))

/-- The ways into the `i`-th body: from the head, and from the end of the last body before it
that is not empty, if it can complete. -/
inductive Feeds (sw : SwitchStmt R) (s : Scope) : Nat → Env → Prop
  | head {i : Nat} {c : SwitchCase R} (hc : sw.cases[i]? = some c) :
    Feeds sw s i (sw.entryScope s i c).env
  | end {i : Nat} {c : SwitchCase R} {τ τ' : Store R} (hc : sw.cases[i]? = some c)
    (hb : c.body ≠ []) (hrun : RunsList c.body τ .normal τ') :
    Feeds sw s (i + 1) (walkStatements c.body (sw.givenBody s i c)).env
  | pass {i : Nat} {c : SwitchCase R} {e : Env} (hc : sw.cases[i]? = some c) (hb : c.body = [])
    (h : Feeds sw s i e) : Feeds sw s (i + 1) e

/-- **What the cases before a test or a body give a name covers what it can have there**, if a
test or a body of the switch assigns the name or the case block declares it: along the tests
alone, and along each way into a body. -/
structure Covered (sw : SwitchStmt R) (s : Scope) : Prop where
  tests : ∀ i c, sw.cases[i]? = some c → c.test.isSome →
    CoversOn sw.changed (sw.givenTest s i).env (sw.testsAlone s i).env
  bodies : ∀ i c e, sw.cases[i]? = some c → c.body ≠ [] → sw.Feeds s i e →
    CoversOn sw.changed (sw.givenBody s i c).env e

/-- The expressions and statements a switch is made of are typed soundly, each where it is
reached. -/
structure PartsSound (W : World R) (sw : SwitchStmt R) (s : Scope) : Prop where
  discriminant : sw.discriminant.SoundAt W s
  tests : ∀ (i : Nat) (c : SwitchCase R) (e : Expression R), sw.cases[i]? = some c →
    c.test = some e → e.SoundAt W (sw.testsAlone s i)
  bodies : ∀ i c, sw.cases[i]? = some c → StatementsSound W c.body (sw.bodyScope s i c)

end SwitchStmt

/-! ## What the walk leaves alone -/

section Walks

variable {s : Scope} {x : Name} {stmts : List (Statement R)}

theorem hoistFunctionDecls_frame (hx : x ∉ stmts.flatMap (·.functions)) :
    (hoistFunctionDecls stmts s).env x = s.env x := by
  rw [hoistFunctionDecls]
  generalize stmts.flatMap (·.functions) = names at hx
  induction names generalizing s with
  | nil => rfl
  | cons name names ih =>
    rw [mem_cons, not_or] at hx
    rw [foldl_cons, ih hx.2]
    split
    · rfl
    · exact update_of_ne hx.1 ..

theorem walkStatements_frame (hx : x ∉ stmts.flatMap (·.assigned))
    (hd : x ∉ scopeDeclarations stmts) : (walkStatements stmts s).env x = s.env x := by
  induction stmts generalizing s with
  | nil => rfl
  | cons st stmts ih =>
    simp only [scopeDeclarations, flatMap_cons, mem_append, not_or] at hx hd ih
    exact (ih hx.2 hd.2).trans (st.walk_frame hx.1 hd.1.1 hd.1.2)

theorem restoreDeclarations_frame {saved : ScopeSave} (hx : x ∉ saved.map (·.1)) :
    (s.restoreDeclarations saved).env x = s.env x := by
  rw [Scope.restoreDeclarations]
  induction saved generalizing s with
  | nil => rfl
  | cons entry saved ih =>
    rw [map_cons, mem_cons, not_or] at hx
    rw [foldl_cons, ih hx.2]
    exact update_of_ne hx.1 ..

theorem functions_subset : stmts.flatMap (·.functions) ⊆ scopeDeclarations stmts := by
  intro x hx
  obtain ⟨st, hst, hx⟩ := mem_flatMap.mp hx
  exact mem_flatMap.mpr ⟨st, hst, mem_append_right _ hx⟩

theorem scopedStmtList_frame (hx : x ∉ stmts.flatMap (·.assigned))
    (hd : x ∉ scopeDeclarations stmts) : (scopedStmtList stmts s).env x = s.env x := by
  have hsaved : (s.saveDeclarations (scopeDeclarations stmts)).map (·.1) =
      scopeDeclarations stmts := by
    simp [Scope.saveDeclarations, Function.comp_def]
  rw [scopedStmtList, restoreDeclarations_frame (by rwa [hsaved]), stmtList,
    walkStatements_frame hx hd, hoistFunctionDecls_frame fun h => hd (functions_subset h)]

/-- The walk of a list of cases goes through their tests and bodies in the order of the text. -/
theorem foldl_walkCase (cases : List (SwitchCase R)) (s : Scope) :
    cases.foldl (fun s c => c.walkCase s) s = given (pieces cases) s := by
  induction cases generalizing s with
  | nil => rfl
  | cons c cases ih =>
    have hbody : ∀ s, c.walkBody s = scopedStmtList c.body s := by
      intro s
      rw [SwitchCase.walkBody]
      split
      next hempty =>
        rw [List.isEmpty_iff.mp hempty]
        rfl
      next => rfl
    have hpieces : pieces (c :: cases) =
        c.test.toList.map .test ++ [.body c.body] ++ pieces cases := flatMap_cons ..
    rw [foldl_cons, ih, given, given, hpieces, foldl_append, foldl_append, SwitchCase.walkCase,
      hbody, SwitchCase.walkTest]
    cases c.test <;> rfl

variable {sw : SwitchStmt R} {i : Nat} {c : SwitchCase R}

namespace SwitchStmt

theorem beforeCase_eq : sw.beforeCase s i = sw.givenTest s i := foldl_walkCase ..

theorem bodyScope_eq : sw.bodyScope s i c = sw.givenBody s i c := by
  rw [bodyScope, beforeCase_eq, givenBody, given, foldl_append, SwitchCase.walkTest]
  cases c.test <;> rfl

/-- A name that the switch does not change is changed by no part of a case. -/
theorem changed_of_case (hx : x ∉ sw.changed) (hc : c ∈ sw.cases) :
    (∀ e ∈ c.test, x ∉ e.assigned) ∧ x ∉ c.body.flatMap (·.assigned) ∧
      x ∉ scopeDeclarations c.body := by
  simp only [changed, mem_append, not_or] at hx
  obtain ⟨hassigned, hlexical, hfunctions⟩ := hx
  refine ⟨fun e he h => hassigned (mem_flatMap.mpr ⟨c, hc, mem_append_left _ ?_⟩),
    fun h => hassigned (mem_flatMap.mpr ⟨c, hc, mem_append_right _ h⟩), fun h => ?_⟩
  · rw [Option.mem_def.mp he]
    exact h
  · obtain ⟨st, hst, h⟩ := mem_flatMap.mp h
    rcases mem_append.mp h with h | h
    · exact hlexical (mem_flatMap.mpr ⟨c, hc, mem_flatMap.mpr ⟨st, hst, h⟩⟩)
    · exact hfunctions (mem_flatMap.mpr ⟨c, hc, mem_flatMap.mpr ⟨st, hst, h⟩⟩)

theorem walkTest_frame (hx : x ∉ sw.changed) (hc : c ∈ sw.cases) :
    (c.walkTest s).env x = s.env x := by
  rw [SwitchCase.walkTest]
  split
  next e he => exact e.walk_frame ((changed_of_case hx hc).1 e he)
  next => rfl

theorem given_frame {ps : List (Piece R)} (hx : x ∉ sw.changed)
    (h : ∀ p ∈ ps, ∃ c ∈ sw.cases, p = .body c.body ∨ ∃ e ∈ c.test, p = .test e) :
    (given ps s).env x = s.env x := by
  rw [given]
  induction ps generalizing s with
  | nil => rfl
  | cons p ps ih =>
    rw [foldl_cons, ih fun q hq => h q (mem_cons_of_mem p hq)]
    obtain ⟨c, hc, rfl | ⟨e, he, rfl⟩⟩ := h p mem_cons_self
    · exact scopedStmtList_frame (changed_of_case hx hc).2.1 (changed_of_case hx hc).2.2
    · exact e.walk_frame ((changed_of_case hx hc).1 e he)

theorem piece_of_pieces {p : Piece R} (hp : p ∈ pieces (sw.cases.take i)) :
    ∃ c ∈ sw.cases, p = .body c.body ∨ ∃ e ∈ c.test, p = .test e := by
  obtain ⟨c, hc, hp⟩ := mem_flatMap.mp hp
  refine ⟨c, mem_of_mem_take hc, ?_⟩
  simp only [mem_append, List.mem_map, mem_singleton] at hp
  rcases hp with ⟨e, he, rfl⟩ | rfl
  · exact .inr ⟨e, Option.mem_toList.mp he, rfl⟩
  · exact .inl rfl

theorem givenTest_frame (hx : x ∉ sw.changed) :
    (sw.givenTest s i).env x = (sw.opened s).env x :=
  given_frame hx fun _ => piece_of_pieces

theorem givenBody_frame (hx : x ∉ sw.changed) (hc : sw.cases[i]? = some c) :
    (sw.givenBody s i c).env x = (sw.opened s).env x := by
  have hmem := mem_of_getElem? hc
  rw [givenBody, hoistFunctionDecls_frame fun h =>
    (changed_of_case hx hmem).2.2 (functions_subset h)]
  refine given_frame hx fun p hp => ?_
  rcases mem_append.mp hp with hp | hp
  · exact piece_of_pieces hp
  · obtain ⟨e, he, rfl⟩ := List.mem_map.mp hp
    exact ⟨c, hmem, .inr ⟨e, Option.mem_toList.mp he, rfl⟩⟩

theorem testsAlone_frame (hx : x ∉ sw.changed) (n : Nat) :
    (sw.testsAlone s n).env x = (sw.opened s).env x := by
  have hhead : (sw.headScope s).env x = (sw.opened s).env x := by
    simp only [changed, mem_append, not_or] at hx
    simp [headScope, hx]
  have htests : ∀ (cases : List (SwitchCase R)) (s : Scope), cases ⊆ sw.cases →
      (cases.foldl (fun s c => c.walkTest s) s).env x = s.env x := by
    intro cases
    induction cases with
    | nil => exact fun _ _ => rfl
    | cons c cases ih =>
      intro s h
      rw [cons_subset] at h
      rw [foldl_cons, ih _ h.2, walkTest_frame hx h.1]
  rw [testsAlone, htests _ _ (take_subset ..), hhead]

theorem Feeds.frame {e : Env} (h : sw.Feeds s i e) (hx : x ∉ sw.changed) :
    e x = (sw.opened s).env x := by
  induction h with
  | head hc => exact testsAlone_frame hx _
  | «end» hc hb hrun =>
    obtain ⟨-, hassigned, hdeclared⟩ := changed_of_case hx (mem_of_getElem? hc)
    rw [walkStatements_frame hassigned hdeclared, givenBody_frame hx hc]
  | pass hc hb h ih => exact ih

variable (hcov : sw.Covered s)

include hcov

theorem Covered.test (hc : sw.cases[i]? = some c) (ht : c.test.isSome) :
    Covers (sw.beforeCase s i).env (sw.testsAlone s i).env := by
  rw [beforeCase_eq]
  refine (hcov.tests i c hc ht).covers fun x hx => ?_
  rw [givenTest_frame hx, testsAlone_frame hx]

theorem Covered.body {e : Env} (hc : sw.cases[i]? = some c) (hb : c.body ≠ [])
    (h : sw.Feeds s i e) : Covers (sw.bodyScope s i c).env e := by
  rw [bodyScope_eq]
  refine (hcov.bodies i c e hc hb h).covers fun x hx => ?_
  rw [givenBody_frame hx hc, h.frame hx]

end SwitchStmt

end Walks

section Frames

variable {eqNumber : R.Number → R.Number → Prop} {v : Value R.toCarriers} {x : Name}
  {σ σ' : Store R} {cases : List (SwitchCase R)}

theorem Selects.frame {m : Option Nat} (h : Selects eqNumber v cases σ m σ')
    (hx : x ∉ cases.flatMap (·.assignedNames)) : σ' x = σ x := by
  induction h with
  | nil σ => rfl
  | default ht h ih =>
    simp only [flatMap_cons, mem_append, not_or] at hx
    exact ih hx.2
  | hit ht he heq =>
    simp only [flatMap_cons, mem_append, not_or, SwitchCase.assignedNames, ht] at hx
    exact Expression.evaluates_frame _ he hx.1.1
  | miss ht he hne h ih =>
    simp only [flatMap_cons, mem_append, not_or, SwitchCase.assignedNames, ht] at hx ih
    rw [ih hx.2, Expression.evaluates_frame _ he hx.1.1]

theorem TestThrows.frame (h : TestThrows eqNumber v cases σ σ')
    (hx : x ∉ cases.flatMap (·.assignedNames)) : σ' x = σ x := by
  induction h with
  | here ht he =>
    simp only [flatMap_cons, mem_append, not_or, SwitchCase.assignedNames, ht] at hx
    exact Expression.throws_frame _ he hx.1.1
  | default ht h ih =>
    simp only [flatMap_cons, mem_append, not_or] at hx
    exact ih hx.2
  | miss ht he hne h ih =>
    simp only [flatMap_cons, mem_append, not_or, SwitchCase.assignedNames, ht] at hx ih
    rw [ih hx.2, Expression.evaluates_frame _ he hx.1.1]

variable {sw : SwitchStmt R} {σ₀ τ τ' : Store R} {i : Nat} {c : SwitchCase R} {k : Completion}

theorem SwitchStmt.body_frame (hc : sw.cases[i]? = some c) (hrun : RunsList c.body τ k τ')
    (hx : x ∉ sw.assignedNames) (hl : x ∉ sw.lexical) (hf : x ∉ sw.functions) : τ' x = τ x := by
  have hmem : c ∈ sw.cases := mem_of_getElem? hc
  refine hrun.frame (fun h => hx ?_) fun h => ?_
  · refine mem_append_right _ (mem_flatMap.mpr ⟨c, hmem, ?_⟩)
    exact mem_append_right _ h
  · obtain ⟨st, hst, h⟩ := mem_flatMap.mp h
    rcases mem_append.mp h with h | h
    · exact hl (mem_flatMap.mpr ⟨c, hmem, mem_flatMap.mpr ⟨st, hst, h⟩⟩)
    · exact hf (mem_flatMap.mpr ⟨c, hmem, mem_flatMap.mpr ⟨st, hst, h⟩⟩)

theorem SwitchStmt.Enters.frame (h : Enters eqNumber sw v σ₀ i τ)
    (hx : x ∉ sw.assignedNames) (hl : x ∉ sw.lexical) (hf : x ∉ sw.functions) : τ x = σ₀ x := by
  induction h with
  | direct h hi => exact h.frame fun h => hx (mem_append_right _ h)
  | fallThrough h hc hrun ih => rw [body_frame hc hrun hx hl hf, ih]

theorem SwitchStmt.Exits.frame (h : Exits eqNumber sw v σ₀ k τ)
    (hx : x ∉ sw.assignedNames) (hl : x ∉ sw.lexical) (hf : x ∉ sw.functions) : τ x = σ₀ x := by
  cases h with
  | threw h => exact h.frame fun h => hx (mem_append_right _ h)
  | skipped h hd => exact h.frame fun h => hx (mem_append_right _ h)
  | abrupt h hc hrun hk => rw [body_frame hc hrun hx hl hf, h.frame hx hl hf]
  | finished h => exact h.frame hx hl hf

theorem SwitchStmt.Leaves.frame (h : sw.Leaves eqNumber v σ k σ')
    (hx : x ∉ sw.assignedNames) : σ' x = σ x := by
  obtain ⟨σ₀, τ, hopen, hexit, hclose⟩ := h
  rw [hclose]
  split_ifs with hd
  · rfl
  · rw [not_or] at hd
    rw [hexit.frame hx hd.1 hd.2, hopen.other x hd.1 hd.2]

end Frames

/-! ## Soundness -/

section Soundness

variable {eqNumber : R.Number → R.Number → Prop} {v : Value R.toCarriers} {sw : SwitchStmt R}
  {s : Scope}

namespace SwitchStmt

/-- **Leaving a switch.** The environment after it is right for every way out of the case
block. -/
theorem Leaves.holds {σ σ' : Store R} {k : Completion} (h : sw.Leaves eqNumber v σ k σ')
    (hσ : Holds W (sw.opened s).env σ) : Holds W (sw.switchStmt s).env σ' := by
  intro x t w ht hw
  change (if x ∈ sw.assignedNames then _ else _) = _ at ht
  split_ifs at ht with hx
  · -- the binding is widened
    obtain ⟨u, -, rfl⟩ := map_eq_some_iff.mp ht
    trivial
  · rw [h.frame hx] at hw
    exact hσ x t w ht hw

variable {σ₀ τ : Store R} {i : Nat}

theorem OpensBlock.holds {σ : Store R} (h : sw.OpensBlock σ σ₀) (hσ : Holds W (sw.opened s).env σ) :
    Holds W (sw.headScope s).env σ₀ := by
  intro x t w ht hw
  change (if x ∈ sw.lexical then _ else if x ∈ sw.functions then _ else _) = _ at ht
  split_ifs at ht with hl hf
  · rw [h.lexical x hl] at hw
    cases hw
  · obtain rfl := some.inj ht
    obtain ⟨o, ho, hk⟩ := h.functions x hf hl
    rw [ho] at hw
    exact ⟨o, (some.inj hw).symm, hk, Set.subset_univ _⟩
  · rw [h.other x hl hf] at hw
    exact hσ x t w ht hw

variable (hparts : sw.PartsSound W s)

include hparts

/-- The tests up to the case that is selected, or all of them, are typed by the walk of the tests
alone. The induction is on the tests that are left. -/
theorem selects_holds {cases : List (SwitchCase R)}
    {σ τ : Store R} {m : Option Nat} (h : Selects eqNumber v cases σ m τ) :
    ∀ n, cases <+: sw.cases.drop n → Holds W (sw.testsAlone s n).env σ →
      match m with
      | some j => Holds W (sw.testsAlone s (n + j + 1)).env τ ∧
          ∃ c, sw.cases[n + j]? = some c ∧ c.test.isSome
      | none => Holds W (sw.testsAlone s (n + cases.length)).env τ := by
  have hround : ∀ {n c} {rest : List (SwitchCase R)}, c :: rest <+: sw.cases.drop n →
      sw.cases[n]? = some c ∧ rest <+: sw.cases.drop (n + 1) ∧
        sw.testsAlone s (n + 1) = c.walkTest (sw.testsAlone s n) := by
    rintro n c rest ⟨others, hcs⟩
    have hc : sw.cases[n]? = some c := by
      have h₀ := congrArg (·[0]?) hcs
      simpa using h₀.symm
    refine ⟨hc, ⟨others, ?_⟩, ?_⟩
    · have h₁ := congrArg tail hcs
      simpa using h₁
    · rw [testsAlone, take_add_one, hc, foldl_append]
      rfl
  induction h with
  | nil σ => exact fun n hcs hσ => hσ
  | @default c rest σ σ' m ht h ih =>
    intro n hcs hσ
    obtain ⟨hc, hrest, hnext⟩ := hround hcs
    have hwalk : sw.testsAlone s (n + 1) = sw.testsAlone s n := by
      rw [hnext, SwitchCase.walkTest, ht]
    have hih := ih (n + 1) hrest (by rwa [hwalk])
    cases m with
    | none =>
      change Holds W (sw.testsAlone s (n + (rest.length + 1))).env σ'
      simpa only [Nat.add_assoc, Nat.add_comm 1] using hih
    | some j => simpa only [map_some, Nat.add_assoc, Nat.add_comm 1] using hih
  | @hit c rest e σ σ' w ht he heq =>
    intro n hcs hσ
    obtain ⟨hc, -, hnext⟩ := hround hcs
    refine ⟨?_, c, hc, by simp [ht]⟩
    rw [hnext, SwitchCase.walkTest, ht]
    exact (hparts.tests n c e hc ht σ w σ' hσ he).2
  | @miss c rest e σ σ₁ σ' w m ht he hne h ih =>
    intro n hcs hσ
    obtain ⟨hc, hrest, hnext⟩ := hround hcs
    have hnextHolds : Holds W (sw.testsAlone s (n + 1)).env σ₁ := by
      rw [hnext, SwitchCase.walkTest, ht]
      exact (hparts.tests n c e hc ht σ w σ₁ hσ he).2
    have hih := ih (n + 1) hrest hnextHolds
    cases m with
    | none =>
      change Holds W (sw.testsAlone s (n + (rest.length + 1))).env σ'
      simpa only [Nat.add_assoc, Nat.add_comm 1] using hih
    | some j => simpa only [map_some, Nat.add_assoc, Nat.add_comm 1] using hih

theorem tests_holds (hσ : Holds W (sw.headScope s).env σ₀) (hi : i ≤ sw.cases.length)
    (h : sw.Tests eqNumber v σ₀ i τ) : Holds W (sw.testsAlone s i).env τ := by
  have htests := selects_holds hparts h 0 ( take_prefix ..) hσ
  rwa [length_take, Nat.zero_add, Nat.min_eq_left hi] at htests

theorem direct_holds (hσ : Holds W (sw.headScope s).env σ₀) {selected : Option Nat}
    (h : Selects eqNumber v sw.cases σ₀ selected τ) (hi : sw.start selected = some i) :
    ∃ c, sw.cases[i]? = some c ∧ Holds W (sw.entryScope s i c).env τ := by
  have htests := selects_holds hparts h 0 (prefix_refl _) hσ
  cases selected with
  | some j =>
    obtain rfl : j = i := by simpa [start] using hi
    obtain ⟨hτ, c, hc, htest⟩ := htests
    rw [Nat.zero_add] at hτ hc
    exact ⟨c, hc, by rwa [entryScope, if_pos htest]⟩
  | none =>
    have hfind : sw.cases.findIdx? (·.test.isNone) = some i := by simpa [start] using hi
    obtain ⟨hlt, hnone, -⟩ := findIdx?_eq_some_iff_getElem.mp hfind
    refine ⟨sw.cases[i], getElem?_eq_getElem hlt, ?_⟩
    rw [Nat.zero_add] at htests
    rwa [entryScope, if_neg (by simpa using hnone)]

theorem Feeds.next (hcov : sw.Covered s) {c : SwitchCase R} {e : Env}
    {τ' : Store R} (hfeed : sw.Feeds s i e) (hτ : Holds W e τ) (hc : sw.cases[i]? = some c)
    (hrun : RunsList c.body τ .normal τ') : ∃ e', sw.Feeds s (i + 1) e' ∧ Holds W e' τ' := by
  by_cases hb : c.body = []
  · rw [hb] at hrun
    cases hrun
    exact ⟨e, .pass hc hb hfeed, hτ⟩
  · have hbody : Holds W (sw.bodyScope s i c).env τ := (hcov.body hc hb hfeed).holds hτ
    refine ⟨_, .end hc hb hrun, ?_⟩
    rw [← bodyScope_eq]
    exact (hparts.bodies i c hc).holds hbody hrun

theorem Enters.feeds (hcov : sw.Covered s) (hσ : Holds W (sw.headScope s).env σ₀)
    (h : Enters eqNumber sw v σ₀ i τ) : ∃ e, sw.Feeds s i e ∧ Holds W e τ := by
  induction h with
  | direct h hi =>
    obtain ⟨c, hc, hτ⟩ := direct_holds hparts hσ h hi
    exact ⟨_, .head hc, hτ⟩
  | fallThrough h hc hrun ih =>
    obtain ⟨e, hfeed, hτ⟩ := ih
    exact hfeed.next hparts hcov hτ hc hrun

end SwitchStmt

/-- A run that gets to a statement of a list gets there with a store of the scope the walk meets
it in. -/
theorem StatementsSound.holds_before {before after : List (Statement R)} {σ σ' : Store R}
    (h : StatementsSound W (before ++ after) s) (hσ : Holds W s.env σ)
    (hrun : RunsList before σ .normal σ') : Holds W (walkStatements before s).env σ' := by
  refine StatementsSound.holds ?_ hσ hrun
  clear hσ hrun
  induction before generalizing s with
  | nil => trivial
  | cons st before ih => exact ⟨h.1, ih h.2⟩

def Expression.literal (t : Ty) (v : Value R.toCarriers) : Expression R where
  walk s := (t, s)
  evaluates σ w σ' := w = v ∧ σ' = σ
  throws _ _ := False
  assigned := []
  walk_frame _ := rfl
  evaluates_frame h _ := by rw [h.2]
  throws_frame h _ := h.elim

/-- An `Ident` that is no cell; `outside` is what `lookup` answers without an entry. -/
def Expression.ident (outside : Name → Ty) (name : Name) : Expression R where
  walk s := ((s.env name).getD (outside name), s)
  evaluates σ v σ' := σ name = some v ∧ σ' = σ
  throws σ σ' := σ name = none ∧ σ' = σ
  assigned := []
  walk_frame _ := rfl
  evaluates_frame h _ := by rw [h.2]
  throws_frame h _ := by rw [h.2]

/-- `name = rhs`, where the name is no cell. -/
def Expression.assign (name : Name) (rhs : Expression R) : Expression R where
  walk s := ((rhs.walk s).1, (rhs.walk s).2.assign name (rhs.walk s).1)
  evaluates σ v σ' := ∃ σ₁, rhs.evaluates σ v σ₁ ∧ σ' = update σ₁ name (some v)
  throws := rhs.throws
  assigned := name :: rhs.assigned
  walk_frame := by
    intro s x hx
    rw [mem_cons, not_or] at hx
    rw [Scope.assign_env_of_ne _ _ hx.1, rhs.walk_frame hx.2]
  evaluates_frame := by
    rintro σ σ' v x ⟨σ₁, h, rfl⟩ hx
    rw [mem_cons, not_or] at hx
    rw [update_of_ne hx.1, rhs.evaluates_frame h hx.2]
  throws_frame h hx := rhs.throws_frame h fun hr => hx (mem_cons_of_mem _ hr)

def Statement.exprStmt (e : Expression R) : Statement R where
  walk s := (e.walk s).2
  runs σ c σ' := c = .normal ∧ (∃ v, e.evaluates σ v σ') ∨ c = .threw ∧ e.throws σ σ'
  assigned := e.assigned
  lexical := []
  functions := []
  walk_frame hx _ _ := e.walk_frame hx
  runs_frame := by
    rintro σ σ' c x (⟨-, v, h⟩ | ⟨-, h⟩) hx - -
    · exact e.evaluates_frame h hx
    · exact e.throws_frame h hx

def Statement.breakStmt : Statement R where
  walk s := { s with breakStack := match s.breakStack with
    | top :: rest => (top ++ [s.env]) :: rest
    | [] => [] }
  runs σ c σ' := c = .broken ∧ σ' = σ
  assigned := []
  lexical := []
  functions := []
  walk_frame _ _ _ := rfl
  runs_frame h _ _ _ := by rw [h.2]

theorem Expression.literal_soundAt {t : Ty} (hv : v ∈ t.denote W) (s : Scope) :
    (Expression.literal t v).SoundAt W s := by
  rintro σ w σ' hσ ⟨rfl, rfl⟩
  exact ⟨hv, hσ⟩

theorem Expression.ident_soundAt {outside : Name → Ty} {name : Name} (h : (s.env name).isSome) :
    (Expression.ident outside name).SoundAt W s := by
  rintro σ v σ' hσ ⟨hv, rfl⟩
  obtain ⟨t, ht⟩ := isSome_iff_exists.mp h
  refine ⟨?_, hσ⟩
  change v ∈ ((s.env name).getD (outside name)).denote W
  rw [ht]
  exact hσ name t v ht hv

theorem Expression.assign_soundAt {name : Name} {rhs : Expression R} (h : rhs.SoundAt W s)
    (hcell : (rhs.walk s).2.isCell name = false) : (Expression.assign name rhs).SoundAt W s := by
  rintro σ v σ' hσ ⟨σ₁, hr, rfl⟩
  obtain ⟨hv, hσ₁⟩ := h σ v σ₁ hσ hr
  exact ⟨hv, hσ₁.assign hcell hv⟩

theorem Statement.exprStmt_soundAt {e : Expression R} (h : e.SoundAt W s) :
    (Statement.exprStmt e).SoundAt W s := by
  rintro σ σ' hσ (⟨-, v, he⟩ | ⟨hc, -⟩)
  · exact (h σ v σ' hσ he).2
  · cases hc

theorem Statement.breakStmt_soundAt (s : Scope) : (Statement.breakStmt (R := R)).SoundAt W s := by
  rintro σ σ' - ⟨hc, -⟩
  cases hc

end Soundness

end Code

/-! ## A switch that is not covered -/

def text (s : String) : Expression doubles := .literal .string (.string (ascii s))

def digit (n : Float) : Expression doubles := .literal .number (.number n)

theorem text_soundAt (s : String) (scope : Scope) : (text s).SoundAt idle scope :=
  Expression.literal_soundAt (t := .string) ⟨ascii s, rfl⟩ scope

theorem digit_soundAt (n : Float) (scope : Scope) : (digit n).SoundAt idle scope := by
  have hn : Value.number (C := doubles.toCarriers) n ∈ Ty.number.denote idle := ⟨n, rfl⟩
  exact Expression.literal_soundAt hn scope

/-- `switch ("b") { case "a": x = "s"; break; case "b": x; }`. -/
def assignedBefore : SwitchStmt doubles where
  discriminant := text "b"
  cases :=
    [⟨some (text "a"), [.exprStmt (.assign "x" (text "s")), .breakStmt]⟩,
      ⟨some (text "b"), [.exprStmt (.ident (fun _ => .dynamic) "x")]⟩]

/-- `switch ("b") { case "a": x = 2; case "b": x; break; default: x = 3; }`. -/
def assignedAlike : SwitchStmt doubles where
  discriminant := text "b"
  cases :=
    [⟨some (text "a"), [.exprStmt (.assign "x" (digit 2))]⟩,
      ⟨some (text "b"), [.exprStmt (.ident (fun _ => .dynamic) "x"), .breakStmt]⟩,
      ⟨none, [.exprStmt (.assign "x" (digit 3))]⟩]

theorem boundNumber_again : update boundNumber.env "x" (some .number) = boundNumber.env := by
  simp [boundNumber]

/-- Every test and body of `assignedAlike` is walked in the environment before the switch, and
ends in it. -/
theorem assignedAlike_scopes {i : Nat} {c : SwitchCase doubles}
    (hc : assignedAlike.cases[i]? = some c) :
    (assignedAlike.givenTest boundNumber i).env = boundNumber.env ∧
      (assignedAlike.testsAlone boundNumber i).env = boundNumber.env ∧
      (assignedAlike.givenBody boundNumber i c).env = boundNumber.env ∧
      (walkStatements c.body (assignedAlike.givenBody boundNumber i c)).env = boundNumber.env ∧
      (assignedAlike.entryScope boundNumber i c).env = boundNumber.env := by
  match i, hc with
  | 0, rfl => exact ⟨rfl, rfl, rfl, boundNumber_again, rfl⟩
  | 1, rfl => exact ⟨boundNumber_again, rfl, boundNumber_again, boundNumber_again, rfl⟩
  | 2, rfl =>
    refine ⟨boundNumber_again, rfl, boundNumber_again, ?_, rfl⟩
    change update (update boundNumber.env "x" (some .number)) "x" (some .number) = _
    rw [boundNumber_again, boundNumber_again]

theorem assignedAlike_partsSound : assignedAlike.PartsSound idle boundNumber := by
  have hassign : ∀ n s, s.isCell "x" = false →
      (Statement.exprStmt (Expression.assign "x" (digit n))).SoundAt idle s := fun n s hs =>
    Statement.exprStmt_soundAt (Expression.assign_soundAt (digit_soundAt n s) hs)
  refine ⟨text_soundAt "b" _, ?_, ?_⟩
  · rintro i c e hc he
    match i, hc with
    | 0, rfl =>
      obtain rfl := some.inj he
      exact text_soundAt "a" _
    | 1, rfl =>
      obtain rfl := some.inj he
      exact text_soundAt "b" _
    | 2, rfl => cases he
  · rintro i c hc
    match i, hc with
    | 0, rfl => exact ⟨hassign 2 _ rfl, trivial⟩
    | 1, rfl =>
      exact ⟨Statement.exprStmt_soundAt (Expression.ident_soundAt rfl),
        Statement.breakStmt_soundAt _, trivial⟩
    | 2, rfl => exact ⟨hassign 3 _ rfl, trivial⟩

theorem assignedAlike_covered : assignedAlike.Covered boundNumber := by
  have hfeeds : ∀ i e, assignedAlike.Feeds boundNumber i e → e = boundNumber.env := by
    intro i e h
    induction h with
    | head hc => exact (assignedAlike_scopes hc).2.2.2.2
    | «end» hc hb hrun => exact (assignedAlike_scopes hc).2.2.2.1
    | pass hc hb h ih => exact ih
  constructor
  · intro i c hc ht
    rw [(assignedAlike_scopes hc).1, (assignedAlike_scopes hc).2.1]
    exact fun x _ t h => ⟨t, h, le_rfl⟩
  · intro i c e hc hb h
    rw [hfeeds i e h, (assignedAlike_scopes hc).2.2.1]
    exact fun x _ t h => ⟨t, h, le_rfl⟩

end Bronze.Flow
