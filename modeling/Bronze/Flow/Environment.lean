import Bronze.Types.Operators

/-!
# The environment of the flow analysis

The environment half of `src/types/flow.cpp`: the types a walk of `FlowAnalyzer` carries for the
bindings of a function, and what a declaration, an assignment, a merge and a widening do to them.
A binding that no closure captures and no `try` assigns has a type for each program point, in
`env`. A captured one is a cell with one type for the whole function, in `cells`; what `assign`
does to a name of neither kind is done to the tables of other scopes and is not seen here.

`Holds` gives an environment its stores: every binding that has a value and an entry has a value
of the entry's type. A store says nothing of cells, which other code may write.

## Main results

* `Holds.assign`: writing a value to a binding and its type to the environment
* `Covers.holds`, `joinEnv_covers`: what a merge keeps
-/

namespace Bronze.Flow

open Types
open Option Function

abbrev Name := String

/-- `class Env`: the types of the bindings at one program point. -/
abbrev Env := Name → Option Ty

/-- What a walk carries of its `Scope`, and its `breakStack_`. -/
structure Scope where
  /-- `Scope::captured`. -/
  captured : Name → Bool
  env : Env
  cells : Env
  breakStack : List (List Env)

abbrev ScopeSave := List (Name × Option Ty)

namespace Scope

def isCell (s : Scope) (name : Name) : Bool := s.captured name

/-- `scope_.cells[name] = join(scope_.cells[name], t)`. -/
def joinCell (s : Scope) (name : Name) (t : Ty) : Scope :=
  { s with cells := update s.cells name (some (join ((s.cells name).getD .never) t)) }

/-- `scope_.env[name] = t`. -/
def bind (s : Scope) (name : Name) (t : Ty) : Scope :=
  { s with env := update s.env name (some t) }

def assign (s : Scope) (name : Name) (t : Ty) : Scope :=
  if s.isCell name then s.joinCell name t
  else if (s.env name).isSome then s.bind name t
  else s

def widenAssigned (s : Scope) (assigned : List Name) : Scope :=
  { s with
    env := fun name => if name ∈ assigned then (s.env name).map fun _ => .dynamic else s.env name
    cells := fun name =>
      if name ∈ assigned then (s.cells name).map fun _ => .dynamic else s.cells name }

def saveDeclarations (s : Scope) (names : List Name) : ScopeSave :=
  names.map fun name => (name, s.env name)

def restoreDeclarations (s : Scope) (saved : ScopeSave) : Scope :=
  saved.foldl (fun s entry => { s with env := update s.env entry.1 entry.2 }) s

end Scope

/-- `joinEnv`: a name in only one side does not survive the merge. -/
def joinEnv (a b : Env) : Env := fun name =>
  match a name, b name with
  | some t, some u => some (join t u)
  | _, _ => none

section Stores

variable {R : Realm} {W : World R}

/-- The values of the bindings that are no cells; `none` before a binding is initialised, and
where there is none. -/
abbrev Store (R : Realm) := Name → Option (Value R.toCarriers)

/-- 7.2.15 IsStrictlyEqual, over an equality of numbers. -/
def isStrictlyEqual (eqNumber : R.Number → R.Number → Prop) :
    Value R.toCarriers → Value R.toCarriers → Prop
  | .undefined, .undefined => True
  | .null, .null => True
  | .boolean a, .boolean b => a = b
  | .number m, .number n => eqNumber m n
  | .bigint i, .bigint j => i = j
  | .string s, .string t => s = t
  | .symbol a, .symbol b => a = b
  | .object o, .object p => o = p
  | _, _ => False

/-- Every binding with a value and an entry has a value of the entry's type. -/
def Holds (W : World R) (env : Env) (σ : Store R) : Prop :=
  ∀ name t v, env name = some t → σ name = some v → v ∈ t.denote W

/-- Every entry is a claim that `b` makes as well, or a weaker one. -/
def Covers (a b : Env) : Prop := ∀ name t, a name = some t → ∃ u, b name = some u ∧ u ≤ t

/-- Every entry of one of the names is a claim that `b` makes as well, or a weaker one. -/
def CoversOn (names : List Name) (a b : Env) : Prop :=
  ∀ name ∈ names, ∀ t, a name = some t → ∃ u, b name = some u ∧ u ≤ t

/-- Of the other names the two say the same. -/
theorem CoversOn.covers {names : List Name} {a b : Env} (h : CoversOn names a b)
    (heq : ∀ name ∉ names, a name = b name) : Covers a b := by
  intro name t ht
  by_cases hname : name ∈ names
  · exact h name hname t ht
  · exact ⟨t, by rw [← heq name hname, ht], le_rfl⟩

theorem Covers.holds {a b : Env} {σ : Store R} (h : Covers a b) (hσ : Holds W b σ) :
    Holds W a σ := by
  intro name t v ht hv
  obtain ⟨u, hu, hut⟩ := h name t ht
  exact denote_mono hut (hσ name u v hu hv)

theorem joinEnv_covers (a b : Env) : Covers (joinEnv a b) a ∧ Covers (joinEnv a b) b := by
  constructor <;> intro name t h <;> simp only [joinEnv] at h <;> split at h
  · next u w ha hb =>
    obtain rfl := some.inj h
    exact ⟨u, ha, (le_join u w).1⟩
  · cases h
  · next u w ha hb =>
    obtain rfl := some.inj h
    exact ⟨w, hb, (le_join u w).2⟩
  · cases h

variable (s : Scope)

theorem Scope.assign_env_of_ne {name y : Name} (t : Ty) (h : y ≠ name) :
    (s.assign name t).env y = s.env y := by
  unfold assign
  split_ifs
  · rfl
  · exact update_of_ne h ..
  · rfl

/-- After an assignment a binding that is no cell has the assigned type, if it has an entry. -/
theorem Scope.assign_env_self {name : Name} {t u : Ty} (hcell : s.isCell name = false)
    (h : (s.assign name t).env name = some u) : u = t := by
  unfold assign at h
  rw [if_neg (by simp [hcell])] at h
  split_ifs at h with henv
  · simpa [bind, eq_comm] using h
  · rw [h] at henv
    exact absurd rfl henv

/-- **An assignment** of a value to a binding that is no cell, and of its type to the
environment. -/
theorem Holds.assign {s : Scope} {σ : Store R} {name : Name} {t : Ty} {v : Value R.toCarriers}
    (h : Holds W s.env σ) (hcell : s.isCell name = false) (hv : v ∈ t.denote W) :
    Holds W (s.assign name t).env (update σ name (some v)) := by
  intro y u w hu hw
  by_cases hy : y = name
  · subst hy
    rw [s.assign_env_self hcell hu]
    rw [update_self, some.injEq] at hw
    rwa [← hw]
  · rw [s.assign_env_of_ne t hy] at hu
    rw [update_of_ne hy] at hw
    exact h y u w hu hw

end Stores

/-- 6.1.6.1.13 Number::equal. -/
def sameDouble (m n : doubles.Number) : Prop := Float.beq m n = true

/-- One binding, `x`, that holds a number. -/
def boundNumber : Scope where
  captured _ := false
  env := update (fun _ => none) "x" (some .number)
  cells _ := none
  breakStack := []

def storedNumber (n : Float) : Store doubles :=
  update (fun _ => none) "x" (some (.number n))

theorem storedNumber_holds (n : Float) : Holds idle boundNumber.env (storedNumber n) := by
  intro y t v ht hv
  by_cases hy : y = "x"
  · subst hy
    simp only [boundNumber, storedNumber, update_self, some.injEq] at ht hv
    rw [← ht, ← hv]
    exact ⟨n, rfl⟩
  · simp [boundNumber, update_of_ne hy] at ht

end Bronze.Flow
