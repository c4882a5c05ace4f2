import Bronze.Rewrite.Range

/-!
# Executions of a program

What the language lets a program do, as far as ranges depend on it. The environment is that of the
place which runs: code that is called on the way may assign every name that the program assigns
anywhere, and may initialise names that are still unset, but a binding that is set and never
assigned keeps its value. A statement list is run in order, from its start, and may be left and
entered again at any time; a function starts from an environment of which nothing is known.

## Main results

* `constInit_spec`: a name that is resolved is set, to what its initialiser gave
* `rangeOf_sound`: a value is in the range, unless the key of a super member assigns a name or
  `Math.imul` is replaced
-/

namespace Bronze.Rewrite

open BigNum (Double)
open Ieee (ofInt Whole53)
open List Option Program Site Ieee

/-- A value: a number, or any other that is no BigInt. -/
inductive Value where
  | number (d : Double)
  | other (tag : ℕ)

/-- `ToNumber`: what a value that is no number is converted to is not known. -/
def ToNumber : Value → Double → Prop
  | .number d, a => a = d
  | .other _, _ => True

/-- What a unary operator gives. -/
def unaryResult (op : UnaryOp) (w v : Value) : Prop :=
  match op with
  | .posate => ∃ a, ToNumber w a ∧ v = .number a
  | .negate => ∃ a, ToNumber w a ∧ v = .number (Ieee.neg a)
  | .bitNot => ∃ a, ToNumber w a ∧ v = .number (Ieee.bitNot a)
  | _ => True

/-- An operator of two numbers. -/
def Numeric (f : Double → Double → Double) (x y v : Value) : Prop :=
  ∃ a b, ToNumber x a ∧ ToNumber y b ∧ v = .number (f a b)

/-- What a binary operator gives. A sum may be that of two strings. -/
def binaryResult (op : BinaryOp) (x y v : Value) : Prop :=
  match op with
  | .add => ∀ a b, x = .number a → y = .number b → v = .number (Ieee.add a b)
  | .sub => Numeric Ieee.sub x y v
  | .mul => Numeric Ieee.mul x y v
  | .bitAnd => Numeric Ieee.bitAnd x y v
  | .bitOr => Numeric Ieee.bitOr x y v
  | .bitXor => Numeric Ieee.bitXor x y v
  | .shl => Numeric Ieee.shl x y v
  | .shr => Numeric Ieee.shr x y v
  | .uShr => Numeric Ieee.uShr x y v
  | _ => True

/-- The operators that evaluate both operands as values and nothing else. -/
def BinaryOp.isStrict : BinaryOp → Bool
  | .add | .sub | .mul | .bitAnd | .bitOr | .bitXor | .shl | .shr | .uShr => true
  | _ => false

def UnaryOp.isStrict : UnaryOp → Bool
  | .posate | .negate | .bitNot => true
  | _ => false

/-- What `Math.imul` itself may give. -/
def intrinsicImul (args : List Value) (v : Value) : Prop :=
  ∃ x y, args = [x, y] ∧ Numeric Ieee.imul x y v

/-- The bindings that a place sees; one that is not set yet has no value. -/
abbrev Env := String → Option Value

/-- Bindings that are set keep their values, other than those of some names. -/
def Keeps (names : List String) (ρ ρ' : Env) : Prop :=
  ∀ n ∉ names, ∀ v, ρ n = some v → ρ' n = some v

theorem Keeps.refl (names : List String) (ρ : Env) : Keeps names ρ ρ := fun _ _ _ h => h

theorem Keeps.trans {names : List String} {ρ ρ' ρ'' : Env} (h : Keeps names ρ ρ')
    (h' : Keeps names ρ' ρ'') : Keeps names ρ ρ'' :=
  fun n hn v hv => h' n hn v (h n hn v hv)

/-- Whether an expression has a rule of its own. -/
def Program.isModelled (program : Program) : Expr → Bool
  | .numberLit _ | .ident _ | .ternary _ _ _ => true
  | .unary op _ => op.isStrict
  | .binary op _ _ => op.isStrict
  | .call callee args optional =>
    program.isMathCall "imul" (.call callee args optional) && args.length == 2
  | _ => false

section Evaluates

variable (program : Program) (imul : List Value → Value → Prop)

/-- The evaluation of an expression that completes normally. `imul` is what a call of the property
`imul` of the global `Math` may give. -/
inductive Evaluates : Env → Expr → Env → Value → Prop where
  | numberLit (ρ : Env) (k : NumberLit) : Evaluates ρ (.numberLit k) ρ (.number k.value)
  | ident {ρ : Env} {n : String} {v : Value} (h : ρ n = some v) : Evaluates ρ (.ident n) ρ v
  | thenExpr {ρ ρ₁ ρ₂ : Env} {c t e : Expr} {w v : Value} (hc : Evaluates ρ c ρ₁ w)
      (ht : Evaluates ρ₁ t ρ₂ v) : Evaluates ρ (.ternary c t e) ρ₂ v
  | elseExpr {ρ ρ₁ ρ₂ : Env} {c t e : Expr} {w v : Value} (hc : Evaluates ρ c ρ₁ w)
      (he : Evaluates ρ₁ e ρ₂ v) : Evaluates ρ (.ternary c t e) ρ₂ v
  | unary {ρ ρ₁ ρ₂ : Env} {op : UnaryOp} {e : Expr} {w v : Value} (hop : op.isStrict = true)
      (he : Evaluates ρ e ρ₁ w) (hconvert : Keeps program.assigned ρ₁ ρ₂)
      (hv : unaryResult op w v) : Evaluates ρ (.unary op e) ρ₂ v
  | binary {ρ ρ₁ ρ₂ ρ₃ : Env} {op : BinaryOp} {l r : Expr} {x y v : Value}
      (hop : op.isStrict = true) (hl : Evaluates ρ l ρ₁ x) (hr : Evaluates ρ₁ r ρ₂ y)
      (hconvert : Keeps program.assigned ρ₂ ρ₃) (hv : binaryResult op x y v) :
      Evaluates ρ (.binary op l r) ρ₃ v
  | imulCall {ρ ρ₁ ρ₂ ρ₃ : Env} {callee a b : Expr} {optional : Bool} {x y v : Value}
      (hcall : program.isMathCall "imul" (.call callee [a, b] optional) = true)
      (ha : Evaluates ρ a ρ₁ x) (hb : Evaluates ρ₁ b ρ₂ y)
      (hconvert : Keeps program.assigned ρ₂ ρ₃) (hv : imul [x, y] v) :
      Evaluates ρ (.call callee [a, b] optional) ρ₃ v
  /-- Any other expression gives any value, and may run any code. -/
  | any {ρ ρ' : Env} {e : Expr} (v : Value) (hother : program.isModelled e = false)
      (hkeeps : Keeps program.assigned ρ ρ') : Evaluates ρ e ρ' v

variable {program imul}

/-- **An evaluation keeps** what is set and never assigned. -/
theorem Evaluates.keeps {ρ ρ' : Env} {e : Expr} {v : Value}
    (h : Evaluates program imul ρ e ρ' v) : Keeps program.assigned ρ ρ' := by
  induction h with
  | numberLit ρ k => exact Keeps.refl _ _
  | ident h => exact Keeps.refl _ _
  | thenExpr _ _ ihc iht => exact ihc.trans iht
  | elseExpr _ _ ihc ihe => exact ihc.trans ihe
  | unary _ _ hconvert _ ih => exact ih.trans hconvert
  | binary _ _ _ hconvert _ ihl ihr => exact (ihl.trans ihr).trans hconvert
  | imulCall _ _ _ hconvert _ iha ihb => exact (iha.trans ihb).trans hconvert
  | any _ _ hkeeps => exact hkeeps

end Evaluates

section Reaches

variable (program : Program) (imul : List Value → Value → Prop)

/-- The names declared at a path and below. -/
def Program.declaredAt (p : Path) : List String :=
  match program.root.at_ p with
  | some site => site.declaredNames
  | none => []

def Env.set (ρ : Env) (n : String) (v : Value) : Env := fun m => if m = n then some v else ρ m

/-- A statement completes normally. -/
inductive Completes : Stmt → Env → Env → Prop where
  | init {ρ ρ₁ : Env} {isVar : Bool} {n : String} {e : Expr} {ss : List Scope} {v : Value}
      (h : Evaluates program imul ρ e ρ₁ v) :
      Completes (.varDecl isVar n (some e) ss) ρ (ρ₁.set n v)
  | noInit {ρ ρ' : Env} {isVar : Bool} {n : String} {ss : List Scope} (h : Keeps [n] ρ ρ') :
      Completes (.varDecl isVar n none ss) ρ ρ'
  | other {ρ : Env} {ds as : List String} {es : List Expr} {ss : List Scope} :
      Completes (.other ds as es ss) ρ ρ

/-- **An execution comes to a path** in an environment. -/
inductive Reaches : Path → Env → Prop where
  | start (ρ : Env) : Reaches [] ρ
  /-- What runs at a place and below it. -/
  | during {p : Path} {ρ ρ' : Env} (h : Reaches p ρ)
      (hkeeps : Keeps (program.assigned ++ program.declaredAt p) ρ ρ') : Reaches p ρ'
  /-- A statement list is entered at its first statement. -/
  | enter {p : Path} {f : Frame} {ρ : Env} (h : Reaches p ρ) (hindex : f.index = 0)
      (hkind : f.kind ≠ .function) : Reaches (p ++ [f]) ρ
  /-- A function is called. -/
  | call {p : Path} {f : Frame} (ρ : Env) (hkind : f.kind = .function) : Reaches (p ++ [f]) ρ
  /-- The next statement of a list. -/
  | next {p : Path} {f : Frame} {s : Stmt} {ρ ρ' : Env} (h : Reaches (p ++ [f]) ρ)
      (hsite : program.root.at_ (p ++ [f]) = some (.stmt s))
      (hcompletes : Completes program imul s ρ ρ') :
      Reaches (p ++ [⟨f.list, f.index + 1, f.kind⟩]) ρ'

end Reaches

section ConstInit

variable {program : Program} {imul : List Value → Value → Prop} {n : String} {ss : List Scope}
  {isVar : Bool}

/-- A place below a statement that declares a name once has it no more, and does not see it. -/
theorem not_mem_declaredAt {init : Option Expr} {pre post : Path}
    {f g : Frame} (hcount : program.declarationCount n = 1)
    (hdecl : program.root.at_ (pre ++ [f]) = some (.stmt (.varDecl isVar n init ss)))
    (hlist : g.list = f.list) (hkind : g.kind = f.kind) (hnot : f.kind ≠ .function)
    (hlt : f.index < g.index) : n ∉ program.declaredAt (pre ++ g :: post) := by
  unfold declaredAt
  split
  next site hsite =>
    rw [append_cons, at_append] at hsite
    obtain ⟨around, haround, hbelow⟩ := bind_eq_some_iff.mp hsite
    have hnone := not_mem_declaredNames hcount hdecl haround hlist hkind hnot hlt
    have hle := count_at declares n hbelow
    unfold declaredNames at hnone ⊢
    rw [← count_eq_zero] at hnone ⊢
    omega
  next => exact not_mem_nil

theorem Completes.keeps {s : Stmt} {ρ ρ' : Env} {v : Value} (h : Completes program imul s ρ ρ')
    (hassigned : n ∉ program.assigned) (hdeclared : n ∉ (stmt s).declaredNames)
    (hn : ρ n = some v) : ρ' n = some v := by
  have hself : n ∉ (stmt s).declares := fun hmem =>
    hdeclared (mem_append_left _ hmem)
  cases h with
  | init heval =>
    rw [declares, mem_singleton] at hself
    rw [Env.set, if_neg hself]
    exact heval.keeps n hassigned v hn
  | noInit hkeeps => exact hkeeps n hself v hn
  | other => exact hn

/-- **A use that is later in the list of a declaration** sees it set, to what its initialiser
gave. -/
theorem Reaches.resolved {pre : Path} {f : Frame} {init : Expr}
    (hcount : program.declarationCount n = 1) (hassigned : n ∉ program.assigned)
    (hdecl : program.root.at_ (pre ++ [f]) = some (.stmt (.varDecl isVar n (some init) ss)))
    (hkind : f.kind = .list) {use : Path} {ρ : Env} (h : Reaches program imul use ρ) :
    ∀ g post, use = pre ++ g :: post → g.list = f.list → g.kind = f.kind → f.index < g.index →
      (∀ b ∈ post, b.kind ≠ .function) →
      ∃ ρ₀ ρ₁ v, Reaches program imul (pre ++ [f]) ρ₀ ∧ Evaluates program imul ρ₀ init ρ₁ v ∧
        ρ n = some v := by
  have hnot : f.kind ≠ .function := by
    rw [hkind]
    exact nofun
  induction h with
  | start ρ =>
    intro g post huse
    exact absurd (congrArg length huse) (by simp)
  | during h hkeeps ih =>
    intro g post huse hlist hk hlt hpost
    obtain ⟨ρ₀, ρ₁, v, hreach, heval, hn⟩ := ih g post huse hlist hk hlt hpost
    refine ⟨ρ₀, ρ₁, v, hreach, heval, hkeeps n ?_ v hn⟩
    rw [mem_append, not_or, huse]
    exact ⟨hassigned, not_mem_declaredAt hcount hdecl hlist hk hnot hlt⟩
  | @enter p b ρ h hindex hb ih =>
    intro g post huse hlist hk hlt hpost
    rcases eq_nil_or_concat post with rfl | ⟨post', last, rfl⟩
    · -- the first statement of a list is not later than another
      obtain ⟨-, hlast⟩ := append_inj' huse rfl
      obtain rfl := (cons.inj hlast).1
      omega
    · rw [concat_eq_append, ← cons_append, ← append_assoc] at huse
      obtain ⟨hp, -⟩ := append_inj' huse rfl
      exact ih g post' hp hlist hk hlt fun c hc => hpost c (by simp [hc])
  | @call p b ρ hb =>
    intro g post huse hlist hk hlt hpost
    rcases eq_nil_or_concat post with rfl | ⟨post', last, rfl⟩
    · obtain ⟨-, hlast⟩ := append_inj' huse rfl
      obtain rfl := (cons.inj hlast).1
      exact absurd (hk.symm.trans hb) hnot
    · rw [concat_eq_append, ← cons_append, ← append_assoc] at huse
      obtain ⟨-, hlast⟩ := append_inj' huse rfl
      obtain rfl := (cons.inj hlast).1
      exact absurd hb (hpost b (by simp))
  | @next p b s ρ ρ' h hsite hcompletes ih =>
    intro g post huse hlist hk hlt hpost
    have hdeclaredAt : program.declaredAt (p ++ [b]) = (stmt s).declaredNames := by
      rw [declaredAt, hsite]
    rcases eq_nil_or_concat post with rfl | ⟨post', last, rfl⟩
    · obtain ⟨rfl, hlast⟩ := append_inj' huse rfl
      obtain rfl := (cons.inj hlast).1
      rcases (Nat.lt_succ_iff.mp hlt).eq_or_lt with heq | hless
      · -- the declaration itself has just run
        have hb : b = f := by
          obtain ⟨bl, bi, bk⟩ := b
          obtain ⟨fl, fi, fk⟩ := f
          dsimp only at hlist hk heq
          rw [hlist, hk, heq]
        subst hb
        obtain rfl := stmt.inj (some.inj (hsite.symm.trans hdecl))
        cases hcompletes with
        | init heval => exact ⟨ρ, _, _, h, heval, if_pos rfl⟩
      · obtain ⟨ρ₀, ρ₁, v, hreach, heval, hn⟩ := ih b [] rfl hlist hk hless nofun
        have hnone : n ∉ (stmt s).declaredNames :=
          hdeclaredAt ▸ not_mem_declaredAt hcount hdecl hlist hk hnot hless
        exact ⟨ρ₀, ρ₁, v, hreach, heval, hcompletes.keeps hassigned hnone hn⟩
    · rw [concat_eq_append, ← cons_append, ← append_assoc] at huse
      obtain ⟨rfl, hlast⟩ := append_inj' huse rfl
      obtain rfl := (cons.inj hlast).1
      obtain ⟨ρ₀, ρ₁, v, hreach, heval, hn⟩ := ih g (post' ++ [b]) (by simp) hlist hk hlt (by
        intro c hc
        rcases mem_append.mp hc with hc | hc
        · exact hpost c (by simp [hc])
        · obtain rfl := mem_singleton.mp hc
          exact hpost ⟨c.list, c.index + 1, c.kind⟩ (by simp))
      have hnone : n ∉ (stmt s).declaredNames := by
        rw [← hdeclaredAt, append_assoc]
        exact not_mem_declaredAt hcount hdecl hlist hk hnot hlt
      exact ⟨ρ₀, ρ₁, v, hreach, heval, hcompletes.keeps hassigned hnone hn⟩

/-- **A name that is resolved is set**, to what its initialiser gave at its own place. -/
theorem constInit_spec (hassigned : ∀ m ∈ program.assigned, m ∈ program.rebound) {use q : Path}
    {init : Expr} {ρ : Env} (h : program.constInit use n = some (init, q))
    (hreach : Reaches program imul use ρ) :
    ∃ ρ₀ ρ₁ v, Reaches program imul q ρ₀ ∧ Evaluates program imul ρ₀ init ρ₁ v ∧
      ρ n = some v := by
  unfold constInit at h
  split at h
  next => cases h
  next hfacts =>
    simp only [Bool.or_eq_true, not_or, Bool.not_eq_true, bne_eq_false_iff_eq,
      contains_eq_mem, decide_eq_false_iff_not] at hfacts
    obtain ⟨⟨-, hcount⟩, hrebound⟩ := hfacts
    split at h
    next name init' path hdecl =>
      split at h
      next hlater =>
        obtain ⟨rfl, rfl⟩ := Prod.mk.inj (some.inj h)
        obtain ⟨rfl, ss, hat⟩ := isAt_varDecl hdecl
        obtain ⟨pre, f, g, post, hpath, rfl, hkind, hlist, hk, hlt, hpost⟩ :=
          exists_of_reaches hlater
        subst hpath
        exact hreach.resolved hcount (fun hmem => hrebound (hassigned _ hmem)) hat hkind g post rfl
          hlist hk hlt hpost
      next => cases h
    next => cases h

end ConstInit

/-! ## Ranges -/

section Sound

variable {program : Program} {imul : List Value → Value → Prop} {r : IntRange}

/-- A value is a whole number in a range. -/
def IntRange.Holds (r : IntRange) (v : Value) : Prop := ∃ d, v = .number d ∧ r.Contains d

variable {x y : Option IntRange} {w v : Value} {op : BinaryOp}

theorem contains_of_holds {a : Double} (hx : ∀ l ∈ x, l.Holds w) (ha : ToNumber w a) :
    ∀ l ∈ x, l.Contains a := by
  intro l hl
  obtain ⟨d, rfl, hd⟩ := hx l hl
  obtain rfl : a = d := ha
  exact hd

theorem unaryRange_holds {op : UnaryOp} (hx : ∀ l ∈ x, l.Holds w) (hv : unaryResult op w v)
    (h : unaryRange op x = some r) : r.Holds v := by
  unfold unaryRange at h
  split at h
  next =>
    obtain ⟨a, ha, rfl⟩ := hv
    exact ⟨a, rfl, contains_of_holds hx ha r h⟩
  next =>
    obtain ⟨a, ha, rfl⟩ := hv
    exact ⟨_, rfl, negateRange_contains (contains_of_holds hx ha) h⟩
  next =>
    obtain ⟨a, ha, rfl⟩ := hv
    obtain rfl := some.inj h
    exact ⟨_, rfl, bitNotRange_contains (contains_of_holds hx ha)⟩
  next => cases h

theorem ternaryRange_holds (hx : ∀ l ∈ x, l.Whole) (hy : ∀ l ∈ y, l.Whole)
    (hv : (∀ l ∈ x, l.Holds v) ∨ ∀ l ∈ y, l.Holds v) (h : ternaryRange x y = some r) :
    r.Holds v := by
  have hboth : ∃ l l', x = some l ∧ y = some l' := by
    unfold ternaryRange at h
    split at h
    next l l' => exact ⟨l, l', rfl, rfl⟩
    next => cases h
  obtain ⟨l, l', rfl, rfl⟩ := hboth
  rcases hv with hv | hv
  · obtain ⟨d, rfl, hd⟩ := hv l rfl
    refine ⟨d, rfl, ternaryRange_contains hx hy (.inl fun m hm => ?_) h⟩
    obtain rfl := some.inj hm
    exact hd
  · obtain ⟨d, rfl, hd⟩ := hv l' rfl
    refine ⟨d, rfl, ternaryRange_contains hx hy (.inr fun m hm => ?_) h⟩
    obtain rfl := some.inj hm
    exact hd

theorem int32_holds {f : Double → Double → Double} {x y : Value}
    (hf : ∀ a b, ∃ w, f a b = signed32 w) (h : Numeric f x y v) : int32.Holds v := by
  obtain ⟨a, b, -, -, rfl⟩ := h
  obtain ⟨w, hw⟩ := hf a b
  exact ⟨_, rfl, hw ▸ int32_contains w⟩

theorem arithmeticRange_holds {u : Value} (hop : op = .add ∨ op = .sub ∨ op = .mul)
    (hx : ∀ l ∈ x, l.Holds u) (hy : ∀ l ∈ y, l.Holds w) (hv : binaryResult op u w v)
    (h : arithmeticRange op x y = some r) : r.Holds v := by
  have hnumbers : ∃ a b, u = .number a ∧ w = .number b := by
    unfold arithmeticRange at h
    split at h
    next l l' =>
      obtain ⟨a, ha, -⟩ := hx l rfl
      obtain ⟨b, hb, -⟩ := hy l' rfl
      exact ⟨a, b, ha, hb⟩
    next => cases h
  obtain ⟨a, b, rfl, rfl⟩ := hnumbers
  have hcontains := arithmeticRange_contains (contains_of_holds hx rfl) (contains_of_holds hy rfl) h
  refine ⟨_, ?_, hcontains⟩
  rcases hop with rfl | rfl | rfl
  · exact hv a b rfl rfl
  · obtain ⟨c, d, hc, hd, rfl⟩ := hv
    obtain rfl : c = a := hc
    obtain rfl : d = b := hd
    rfl
  · obtain ⟨c, d, hc, hd, rfl⟩ := hv
    obtain rfl : c = a := hc
    obtain rfl : d = b := hd
    rfl

theorem binaryRange_holds {rhs : Expr} {u : Value} (hx : ∀ l ∈ x, l.Holds u)
    (hy : ∀ l ∈ y, l.Holds w)
    (hrhs : ∀ literal, rhs = .numberLit literal → w = .number literal.value)
    (hv : binaryResult op u w v) (h : binaryRange op rhs x y = some r) : r.Holds v := by
  -- a shift by a literal moves by its value
  have hplaces : ∀ b, ToNumber w b → ∀ literal, rhs = .numberLit literal → b = literal.value := by
    intro b hb literal hliteral
    rw [hrhs literal hliteral] at hb
    exact hb
  unfold binaryRange at h
  split at h
  case h_1 =>
    obtain ⟨a, b, ha, hb, rfl⟩ := hv
    obtain rfl := some.inj h
    exact ⟨_, rfl, bitAndRange_contains (contains_of_holds hx ha) (contains_of_holds hy hb)⟩
  case h_5 =>
    obtain ⟨a, b, ha, hb, rfl⟩ := hv
    obtain rfl := some.inj h
    exact ⟨_, rfl, shrRange_contains (contains_of_holds hx ha) (hplaces b hb)⟩
  case h_6 =>
    obtain ⟨a, b, ha, hb, rfl⟩ := hv
    obtain rfl := some.inj h
    exact ⟨_, rfl, uShrRange_contains (contains_of_holds hx ha) (hplaces b hb)⟩
  case h_2 | h_3 | h_4 =>
    obtain rfl := some.inj h
    exact int32_holds (fun a b => ⟨_, rfl⟩) hv
  case h_7 => exact arithmeticRange_holds (.inl rfl) hx hy hv h
  case h_8 => exact arithmeticRange_holds (.inr (.inl rfl)) hx hy hv h
  case h_9 => exact arithmeticRange_holds (.inr (.inr rfl)) hx hy hv h
  case h_10 => cases h

theorem Reaches.after {p : Path} {ρ ρ' : Env} (h : Reaches program imul p ρ)
    (hkeeps : Keeps program.assigned ρ ρ') : Reaches program imul p ρ' :=
  h.during fun n hn => hkeeps n fun hmem => hn (mem_append_left _ hmem)

theorem isStrict_of_unaryRange {op : UnaryOp} (h : unaryRange op x = some r) :
    op.isStrict = true := by
  cases op <;> first | rfl | cases h

theorem isStrict_of_binaryRange {rhs : Expr} (h : binaryRange op rhs x y = some r) :
    op.isStrict = true := by
  cases op <;> first | rfl | cases h

/-- **The value is in the range**, by induction on the depth: an identifier has the range of its
initialiser at the place of its declaration. -/
theorem rangeAt_sound (hassigned : ∀ m ∈ program.assigned, m ∈ program.rebound)
    (himul : ∀ args v, imul args v → intrinsicImul args v) {depth : ℕ} {p : Path} {e : Expr}
    {ρ ρ' : Env} (h : program.rangeAt depth p e = some r) (hreach : Reaches program imul p ρ)
    (heval : Evaluates program imul ρ e ρ' v) : r.Holds v := by
  induction depth generalizing p e r ρ ρ' v with
  | zero => cases h
  | succ depth ih =>
    cases heval with
    | numberLit _ k => exact ⟨_, rfl, literalRange_contains h⟩
    | @ident _ n v hn =>
      unfold rangeAt at h
      dsimp only at h
      split at h
      next init q hinit =>
        obtain ⟨ρ₀, ρ₁, w, hreach', heval', hset⟩ := constInit_spec hassigned hinit hreach
        obtain rfl := some.inj (hn.symm.trans hset)
        exact ih h hreach' heval'
      next => cases h
    | thenExpr hc ht =>
      exact ternaryRange_holds (fun l hl => rangeAt_whole hl) (fun l hl => rangeAt_whole hl)
        (.inl fun l hl => ih hl (hreach.after hc.keeps) ht) h
    | elseExpr hc he =>
      exact ternaryRange_holds (fun l hl => rangeAt_whole hl) (fun l hl => rangeAt_whole hl)
        (.inr fun l hl => ih hl (hreach.after hc.keeps) he) h
    | unary hop he hconvert hv =>
      exact unaryRange_holds (fun l hl => ih hl hreach he) hv h
    | binary hop hl hr hconvert hv =>
      refine binaryRange_holds (fun l hx => ih hx hreach hl)
        (fun l hy => ih hy (hreach.after hl.keeps) hr) ?_ hv h
      rintro literal rfl
      cases hr with
      | numberLit => rfl
      | any _ hother => cases hother
    | imulCall hcall ha hb hconvert hv =>
      unfold rangeAt at h
      dsimp only at h
      rw [hcall] at h
      obtain rfl := some.inj h
      obtain ⟨x, y, -, hnumeric⟩ := himul _ _ hv
      exact int32_holds (fun a b => ⟨_, rfl⟩) hnumeric
    | any _ hother hkeeps =>
      unfold rangeAt at h
      split at h
      case h_1 | h_2 | h_3 => cases hother
      case h_4 callee args optional =>
        have hcall : (program.isMathCall "imul" (.call callee args optional) &&
            args.length == 2) = false := hother
        rw [hcall] at h
        cases h
      case h_5 => cases (isStrict_of_unaryRange h).symm.trans hother
      case h_6 => cases (isStrict_of_binaryRange h).symm.trans hother
      case h_7 => cases h

/-- **`rangeOf` is sound** in every execution of a program in which each name that is assigned in
the key of a super member is assigned elsewhere too, and `Math.imul` is the intrinsic function: the
value is a whole number between the ends, which is neither NaN nor a negative zero, and a name that
is resolved is set. -/
theorem rangeOf_sound (hassigned : ∀ m ∈ program.assigned, m ∈ program.rebound)
    (himul : ∀ args v, imul args v → intrinsicImul args v) {p : Path} {ρ : Env}
    (hreach : Reaches program imul p ρ) :
    (∀ e r ρ' v, program.rangeOf p e = some r → Evaluates program imul ρ e ρ' v →
      ∃ n, v = .number (ofInt n) ∧ Whole53 n ∧ le r.lo (ofInt n) = true ∧
        le (ofInt n) r.hi = true) ∧
    ∀ n init q, program.constInit p n = some (init, q) → (ρ n).isSome := by
  constructor
  · intro e r ρ' v hr heval
    obtain ⟨d, rfl, lo, hi, n, hlo, hhi, rfl, rfl, hlow, hhigh⟩ :=
      rangeAt_sound hassigned himul hr hreach heval
    have hn := whole53_between hlo hhi hlow hhigh
    exact ⟨n, rfl, hn, (le_ofInt_iff hlo hn).mpr hlow, (le_ofInt_iff hn hhi).mpr hhigh⟩
  · intro n init q hinit
    obtain ⟨ρ₀, ρ₁, v, -, -, hset⟩ := constInit_spec hassigned hinit hreach
    rw [hset]
    rfl

end Sound

section SuperKey

def NumberLit.ofNat (n : ℕ) (h : n ≤ 2 ^ 53) : NumberLit where
  value := ofInt n
  unsigned := by
    have hwhole : Whole53 n := whole53_small (by omega) (by omega)
    have hsign : decide ((n : ℤ) < 0) = false := decide_eq_false (by omega)
    rw [Ieee.ofInt_eq hwhole, hsign]
    rfl

/-- `let x = 1; class C extends B { m() { super[x = 5]; } } new C().m(); x;` -/
def superKeyProgram : Program where
  body :=
    [.varDecl false "x" (some (.numberLit (.ofNat 1 (by norm_num)))) [],
      .other ["C"] ["C"] [.ident "B"]
        [.function [] [] [] [.function [] [] [] [.list false
          [.other [] [] [.superMember
            (.binary .assign (.ident "x") (.numberLit (.ofNat 5 (by norm_num))))] []]]]],
      .other [] [] [.call (.member (.other [.ident "C"]) "m" false false) [] false] [],
      .other [] [] [.ident "x"] []]

theorem superKeyProgram_constInit :
    superKeyProgram.constInit [⟨0, 3, .list⟩] "x" =
      some (.numberLit (.ofNat 1 (by norm_num)), [⟨0, 0, .list⟩]) := rfl

/-- The environment after the call of the method. -/
def afterCall : Env := fun n => if n = "x" then some (.number (ofInt 5)) else none

theorem superKeyProgram_reaches :
    Reaches superKeyProgram intrinsicImul [⟨0, 3, .list⟩] afterCall := by
  have hstart : Reaches superKeyProgram intrinsicImul ([] ++ [⟨0, 0, .list⟩]) fun _ => none :=
    (Reaches.start _).enter rfl nofun
  have hinit : Completes superKeyProgram intrinsicImul
      (.varDecl false "x" (some (.numberLit (.ofNat 1 (by norm_num)))) []) (fun _ => none) _ :=
    .init (.numberLit ..)
  have hdecl := hstart.next rfl hinit
  have hclass := hdecl.next rfl .other
  -- the call assigns `x`
  have hcall : Reaches superKeyProgram intrinsicImul ([] ++ [⟨0, 2, .list⟩]) afterCall := by
    refine hclass.after fun n hn v hv => ?_
    have hname : n ≠ "x" := by
      rintro rfl
      exact hn (by decide +kernel)
    rw [Env.set, if_neg hname] at hv
    cases hv
  exact hcall.next rfl .other

theorem literalRange_ofNat {n : ℕ} (h : n ≤ 2 ^ 53) :
    literalRange (.ofNat n h) = some ⟨ofInt n, ofInt n⟩ :=
  literalRange_ofInt (whole53_small (by omega) (by omega)) rfl

/-- **The assignment is not seen**: the range is that of the initialiser, and the value is not in
it. -/
theorem superKey_out_of_range :
    superKeyProgram.rangeOf [⟨0, 3, .list⟩] (.ident "x") = some ⟨ofInt 1, ofInt 1⟩ ∧
      Reaches superKeyProgram intrinsicImul [⟨0, 3, .list⟩] afterCall ∧
      Evaluates superKeyProgram intrinsicImul afterCall (.ident "x") afterCall
        (.number (ofInt 5)) ∧
      ¬le (ofInt 5) (ofInt 1) = true := by
  refine ⟨?_, superKeyProgram_reaches, .ident (if_pos rfl), ?_⟩
  · rw [Program.rangeOf, Program.rangeAt, superKeyProgram_constInit]
    exact literalRange_ofNat _
  · rw [le_ofInt_iff (whole53_small (by omega) (by omega))
      (whole53_small (by omega) (by omega))]
    omega

end SuperKey

section Constant

/-- `let x = 5; let y = 1; y = 2; x & y;` -/
def maskProgram : Program where
  body := [.varDecl false "x" (some (.numberLit (.ofNat 5 (by norm_num)))) [],
    .varDecl false "y" (some (.numberLit (.ofNat 1 (by norm_num)))) [],
    .other [] [] [.binary .assign (.ident "y") (.numberLit (.ofNat 2 (by norm_num)))] [],
    .other [] [] [.binary .bitAnd (.ident "x") (.ident "y")] []]

/-- The environment after the assignment. -/
def afterAssign : Env := fun n =>
  if n = "x" then some (.number (ofInt 5)) else if n = "y" then some (.number (ofInt 2)) else none

theorem maskProgram_reaches : Reaches maskProgram intrinsicImul [⟨0, 3, .list⟩] afterAssign := by
  have hdeclares : ∀ n (k : NumberLit) (ρ : Env), Completes maskProgram intrinsicImul
      (.varDecl false n (some (.numberLit k)) []) ρ (ρ.set n (.number k.value)) :=
    fun _ k ρ => .init (.numberLit ρ k)
  have hstart : Reaches maskProgram intrinsicImul ([] ++ [⟨0, 0, .list⟩]) fun _ => none :=
    (Reaches.start _).enter rfl nofun
  have hx := hstart.next rfl (hdeclares "x" (.ofNat 5 (by norm_num)) _)
  have hy := hx.next rfl (hdeclares "y" (.ofNat 1 (by norm_num)) _)
  -- the statement assigns `y`
  have hassign : Reaches maskProgram intrinsicImul ([] ++ [⟨0, 2, .list⟩]) afterAssign := by
    refine hy.after fun n hn v hv => ?_
    have hname : n ≠ "y" := by
      rintro rfl
      exact hn (by decide +kernel)
    rw [Env.set, if_neg hname, Env.set] at hv
    unfold afterAssign
    split_ifs at hv ⊢ with hx
    exact hv
  exact hassign.next rfl .other

/-- The one operand is a constant, and of the other, which is assigned, nothing is known. -/
theorem maskProgram_range :
    maskProgram.rangeOf [⟨0, 3, .list⟩] (.binary .bitAnd (.ident "x") (.ident "y")) =
      some ⟨ofInt 0, ofInt 5⟩ := by
  have hx : maskProgram.rangeAt 32 [⟨0, 3, .list⟩] (.ident "x") = some ⟨ofInt 5, ofInt 5⟩ :=
    literalRange_ofNat (by norm_num : 5 ≤ 2 ^ 53)
  have hy : maskProgram.rangeAt 32 [⟨0, 3, .list⟩] (.ident "y") = none := rfl
  have hfive : Whole53 5 := whole53_small (by omega) (by omega)
  have hword : IntRange.isInt32 ⟨ofInt 5, ofInt 5⟩ = true := by
    rw [isInt32_iff hfive hfive]
    omega
  have hsign : le (ofInt 0) (ofInt 5) = true := by
    rw [le_ofInt_iff (whole53_small (by omega) (by omega)) hfive]
    omega
  rw [Program.rangeOf, Program.rangeAt, binaryRange, hx, hy]
  simp [bitAndRange, boundOf, hword, hsign]

theorem rangeOf_sound_constant :
    ∃ n, Value.number (Ieee.bitAnd (ofInt 5) (ofInt 2)) = .number (ofInt n) ∧ Whole53 n ∧
      le (ofInt 0) (ofInt n) = true ∧ le (ofInt n) (ofInt 5) = true := by
  have hassigned : ∀ m ∈ maskProgram.assigned, m ∈ maskProgram.rebound := by
    decide +kernel
  exact (rangeOf_sound hassigned (fun _ _ h => h) maskProgram_reaches).1 _ _ _ _ maskProgram_range
    (.binary rfl (.ident rfl) (.ident rfl) (fun _ _ _ h => h) ⟨_, _, rfl, rfl, rfl⟩)

end Constant

end Bronze.Rewrite
