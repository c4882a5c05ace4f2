import Mathlib

/-!
# Magnitudes: little-endian vectors of 32-bit limbs

The loops of `src/runtime/bignum.cpp` that work on magnitudes alone. A `uint64_t` intermediate
is checked: a loop whose exact value leaves the 64-bit range, or that indexes past the vector it
writes, ends in a `Fault` instead of a value. The C++ has no such check; the theorems that no
run faults are what makes the checked loops and the unchecked ones the same.

## Main results

* `compareMagnitude_eq`: comparison is comparison of the values
* `addMagnitude_spec`, `subMagnitude_spec`, `mulMagnitude_spec`: no fault, and the value of the
  result
-/

namespace Bronze.BigNum

open List Nat

/-- What the unchecked C++ would do silently: wrap a 64-bit intermediate, or touch memory past
the end of a vector. -/
inductive Fault where
  | overflow
  | outOfBounds
  deriving DecidableEq, Repr

/-- A `uint64_t` intermediate, at its exact value. -/
def u64 (n : Nat) : Except Fault Nat :=
  if n < 2 ^ 64 then .ok n else .error .overflow

/-- An `int64_t` intermediate, at its exact value. -/
def i64 (n : Int) : Except Fault Int :=
  if -2 ^ 63 ≤ n ∧ n < 2 ^ 63 then .ok n else .error .overflow

theorem u64_ok {n : Nat} (h : n < 2 ^ 64) : u64 n = .ok n := if_pos h

theorem i64_ok {n : Int} (h₁ : -2 ^ 63 ≤ n) (h₂ : n < 2 ^ 63) : i64 n = .ok n := if_pos ⟨h₁, h₂⟩

/-- `std::vector<uint32_t>`, least significant limb first. -/
abbrev Magnitude := List UInt32

def kBase : Nat := 2 ^ 32

/-- The number a magnitude denotes. -/
def value (m : Magnitude) : Nat := ofDigits kBase (m.map UInt32.toNat)

/-- `i < m.size() ? m[i] : 0`. -/
def limb (m : Magnitude) (i : Nat) : Nat := (m.getD i 0).toNat

/-- `static_cast<uint32_t>(n)`. -/
def low (n : Nat) : UInt32 := UInt32.ofNat n

section Value

variable {m : Magnitude}

theorem limb_lt (m : Magnitude) (i : Nat) : limb m i < 2 ^ 32 := UInt32.toNat_lt_size _

@[simp] theorem low_toNat (n : Nat) : (low n).toNat = n % 2 ^ 32 := UInt32.toNat_ofNat'

@[simp] theorem value_nil : value [] = 0 := rfl

@[simp] theorem value_cons (x : UInt32) (m : Magnitude) :
    value (x :: m) = x.toNat + kBase * value m := by
  simp [value, ofDigits_cons]

theorem value_append (m n : Magnitude) : value (m ++ n) = value m + kBase ^ m.length * value n := by
  simp [value, ofDigits_append]

theorem value_lt (m : Magnitude) : value m < kBase ^ m.length := by
  have h := ofDigits_lt_base_pow_length (b := kBase) (l := m.map UInt32.toNat)
    (by decide) (fun d hd => by
      obtain ⟨x, -, rfl⟩ := mem_map.mp hd
      exact UInt32.toNat_lt_size x)
  simpa [value] using h

@[simp] theorem limb_nil (i : Nat) : limb [] i = 0 := by simp [limb]

variable {i : Nat}

theorem limb_of_le (h : m.length ≤ i) : limb m i = 0 := by
  simp [limb, getElem?_eq_none h]

theorem limb_eq_getElem (h : i < m.length) : limb m i = m[i].toNat := by
  simp [limb, h]

theorem value_take_succ (m : Magnitude) (i : Nat) :
    value (m.take (i + 1)) = value (m.take i) + kBase ^ i * limb m i := by
  rcases lt_or_ge i m.length with h | h
  · rw [take_succ_eq_append_getElem h, value_append, limb_eq_getElem h]
    simp [min_eq_left h.le]
  · rw [take_of_length_le h, take_of_length_le (by omega), limb_of_le h]
    simp

theorem value_set {k : Nat} (h : k < m.length) (x : UInt32) :
    value (m.set k x) + kBase ^ k * limb m k = value m + kBase ^ k * x.toNat := by
  induction m generalizing k with
  | nil => simp at h
  | cons y m ih =>
    cases k with
    | zero => simp [limb]; omega
    | succ k =>
      have hk := ih (k := k) (by simpa using h)
      have hl : limb (y :: m) (k + 1) = limb m k := by simp [limb]
      simp only [value_cons]
      calc y.toNat + kBase * value (m.set k x) + kBase ^ k * kBase * limb m k
          = y.toNat + kBase * (value (m.set k x) + kBase ^ k * limb m k) := by ring
        _ = y.toNat + kBase * (value m + kBase ^ k * x.toNat) := by rw [hk]
        _ = _ := by ring

theorem limb_set_of_ne {k : Nat} (h : k ≠ i) (x : UInt32) : limb (m.set k x) i = limb m i := by
  simp [limb, h]

@[simp] theorem value_replicate_zero (n : Nat) : value (replicate n 0) = 0 := by
  induction n with
  | zero => rfl
  | succ n ih => simp [replicate_succ, ih]

theorem low_add_shift (n : Nat) : (low n).toNat + kBase * (n >>> 32) = n := by
  rw [shiftRight_eq_div_pow]
  exact mod_add_div n (2 ^ 32)

end Value

/-- `while (!mag.empty() && mag.back() == 0) mag.pop_back();` -/
def popZeros (m : Magnitude) : Magnitude := (m.reverse.dropWhile (· == 0)).reverse

/-- No zero limb on top. -/
def Trimmed (m : Magnitude) : Prop := ∀ x ∈ m.getLast?, x ≠ 0

theorem popZeros_concat_zero (m : Magnitude) : popZeros (m ++ [0]) = popZeros m := by
  simp [popZeros]

variable {m b : Magnitude}

theorem popZeros_of_trimmed (h : Trimmed m) : popZeros m = m := by
  rcases eq_nil_or_concat m with rfl | ⟨l, x, rfl⟩
  · rfl
  · have hx : x ≠ 0 := h x (by simp)
    simp [popZeros, hx]

theorem trimmed_popZeros (m : Magnitude) : Trimmed (popZeros m) := by
  induction m using reverseRecOn with
  | nil => intro x hx; simp [popZeros] at hx
  | append_singleton l x ih =>
    by_cases hx : x = 0
    · subst hx
      rwa [popZeros_concat_zero]
    · have ht : Trimmed (l ++ [x]) := by
        intro y hy
        simp at hy
        exact hy ▸ hx
      rwa [popZeros_of_trimmed ht]

@[simp] theorem value_popZeros (m : Magnitude) : value (popZeros m) = value m := by
  induction m using reverseRecOn with
  | nil => rfl
  | append_singleton l x ih =>
    by_cases hx : x = 0
    · subst hx
      rw [popZeros_concat_zero, ih, value_append]
      simp
    · rw [popZeros_of_trimmed]
      intro y hy
      simp at hy
      exact hy ▸ hx

theorem Trimmed.pow_le_value (h : Trimmed m) (hne : m ≠ []) : kBase ^ (m.length - 1) ≤ value m := by
  rcases eq_nil_or_concat m with rfl | ⟨l, x, rfl⟩
  · exact absurd rfl hne
  · have hx : x ≠ 0 := h x (by simp)
    have hx : 1 ≤ x.toNat := by
      rw [one_le_iff_ne_zero]
      intro h0
      exact hx (UInt32.toNat_inj.mp h0)
    rw [concat_eq_append, value_append]
    have := Nat.le_mul_of_pos_right (kBase ^ l.length) hx
    simp
    omega

theorem Trimmed.value_eq_zero (h : Trimmed m) : value m = 0 ↔ m = [] := by
  refine ⟨fun hv => ?_, fun hm => by simp [hm]⟩
  by_contra hne
  have hpos : 0 < kBase ^ (m.length - 1) := Nat.pow_pos (by decide)
  have := h.pow_le_value hne
  omega

/-- The limb loop of `compareMagnitude`, over the indices below `i`, from the top down. -/
def compareLoop (a b : Magnitude) : Nat → Int
  | 0 => 0
  | i + 1 => if limb a i ≠ limb b i then (if limb a i < limb b i then -1 else 1)
    else compareLoop a b i

def compareMagnitude (a b : Magnitude) : Int :=
  if a.length ≠ b.length then (if a.length < b.length then -1 else 1)
  else compareLoop a b a.length

/-- The sign of `x - y`, as the three-way comparisons report it. -/
def order (x y : Int) : Int := (x - y).sign

theorem order_of_lt {x y : Int} (h : x < y) : order x y = -1 :=
  Int.sign_eq_neg_one_of_neg (by omega)

theorem order_of_gt {x y : Int} (h : y < x) : order x y = 1 :=
  Int.sign_eq_one_of_pos (by omega)

@[simp] theorem order_self (x : Int) : order x x = 0 := by simp [order]

theorem compareLoop_eq (a b : Magnitude) (i : Nat) :
    compareLoop a b i = order (value (a.take i)) (value (b.take i)) := by
  induction i with
  | zero => simp [compareLoop]
  | succ i ih =>
    have ha := value_take_succ a i
    have hb := value_take_succ b i
    have hla := value_lt (a.take i)
    have hlb := value_lt (b.take i)
    have hpa : kBase ^ (a.take i).length ≤ kBase ^ i :=
      Nat.pow_le_pow_right (by decide) (length_take_le i a)
    have hpb : kBase ^ (b.take i).length ≤ kBase ^ i :=
      Nat.pow_le_pow_right (by decide) (length_take_le i b)
    simp only [compareLoop]
    rcases lt_trichotomy (limb a i) (limb b i) with h | h | h
    · have hm := mul_le_mul_left (kBase ^ i) h
      rw [mul_succ] at hm
      rw [if_pos h.ne, if_pos h, order_of_lt (by omega)]
    · rw [if_neg (by simpa using h), ih, ha, hb, h]
      simp only [order]
      congr 1
      push_cast
      ring
    · have hm := mul_le_mul_left (kBase ^ i) h
      rw [mul_succ] at hm
      rw [if_pos h.ne', if_neg (by omega), order_of_gt (by omega)]

/-- **Comparing magnitudes compares their values**, when both are trimmed. -/
theorem compareMagnitude_eq {a : Magnitude} (ha : Trimmed a) (hb : Trimmed b) :
    compareMagnitude a b = order (value a) (value b) := by
  have longer : ∀ {x y : Magnitude}, Trimmed y → x.length < y.length → value x < value y := by
    intro x y hy hlt
    have hne : y ≠ [] := by rintro rfl; simp at hlt
    calc value x < kBase ^ x.length := value_lt x
      _ ≤ kBase ^ (y.length - 1) := Nat.pow_le_pow_right (by decide) (by omega)
      _ ≤ value y := hy.pow_le_value hne
  unfold compareMagnitude
  rcases lt_trichotomy a.length b.length with h | h | h
  · rw [if_pos h.ne, if_pos h, order_of_lt (by exact_mod_cast longer hb h)]
  · rw [if_neg (by simpa using h), compareLoop_eq, take_of_length_le le_rfl, take_of_length_le h.ge]
  · rw [if_pos h.ne', if_neg (by omega), order_of_gt (by exact_mod_cast longer ha h)]

/-- The loop of `addMagnitude` from index `i`, with `n` limbs to go. -/
def addLoop (a b : Magnitude) : Nat → Nat → Nat → Except Fault Magnitude
  | 0, _, carry => .ok (if carry ≠ 0 then [low carry] else [])
  | n + 1, i, carry => do
    let sum ← u64 (limb a i + limb b i + carry)
    let rest ← addLoop a b n (i + 1) (sum >>> 32)
    return low sum :: rest

def addMagnitude (a b : Magnitude) : Except Fault Magnitude :=
  addLoop a b (max a.length b.length) 0 0

theorem shift_sum_le {x y c : Nat} (hx : x < 2 ^ 32) (hy : y < 2 ^ 32) (hc : c ≤ 1) :
    (x + y + c) >>> 32 ≤ 1 := by
  omega

/-- From index `i` on, the loop of `addMagnitude` adds what is left of both operands and the
carry, and pushes no zero limb on top of a nonzero one. -/
theorem addLoop_spec (a b : Magnitude) :
    ∀ n i carry, carry ≤ 1 → ∃ out, addLoop a b n i carry = .ok out ∧
      kBase ^ i * value out + value (a.take i) + value (b.take i) =
        value (a.take (i + n)) + value (b.take (i + n)) + kBase ^ i * carry := by
  intro n
  induction n with
  | zero =>
    intro i carry hc
    refine ⟨_, rfl, ?_⟩
    rcases le_one_iff_eq_zero_or_eq_one.mp hc with rfl | rfl
    · simp
    · simp [low]
      omega
  | succ n ih =>
    intro i carry hc
    have hx := limb_lt a i
    have hy := limb_lt b i
    obtain ⟨rest, hrest, hval⟩ := ih (i + 1) _ (shift_sum_le hx hy hc)
    refine ⟨low (limb a i + limb b i + carry) :: rest, ?_, ?_⟩
    · simp [addLoop, u64_ok (show limb a i + limb b i + carry < 2 ^ 64 by omega), bind, Except.bind,
        hrest, pure, Except.pure]
    · have hsplit := low_add_shift (limb a i + limb b i + carry)
      have hsplit := congrArg (kBase ^ i * ·) hsplit
      rw [value_take_succ, value_take_succ, show i + 1 + n = i + (n + 1) by omega, pow_succ] at hval
      rw [value_cons]
      simp only [mul_add, ← mul_assoc] at hsplit hval ⊢
      omega

/-- **Addition of magnitudes** never overflows its 64-bit sum. -/
theorem addMagnitude_spec (a b : Magnitude) :
    ∃ out, addMagnitude a b = .ok out ∧ value out = value a + value b := by
  obtain ⟨out, hout, hval⟩ := addLoop_spec a b (max a.length b.length) 0 0 (by omega)
  refine ⟨out, hout, ?_⟩
  rw [zero_add, take_of_length_le (le_max_left ..), take_of_length_le (le_max_right ..)] at hval
  simpa using hval

/-- The loop of `subMagnitude` from index `i`, with `n` limbs to go. -/
def subLoop (a b : Magnitude) : Nat → Nat → Int → Except Fault Magnitude
  | 0, _, _ => .ok []
  | n + 1, i, borrow => do
    let diff ← i64 (limb a i - limb b i - borrow)
    let diff' ← i64 (if diff < 0 then diff + kBase else diff)
    let rest ← subLoop a b n (i + 1) (if diff < 0 then 1 else 0)
    return low diff'.toNat :: rest

/-- `BigNum::subMagnitude`; the caller has `|a| ≥ |b|`. -/
def subMagnitude (a b : Magnitude) : Except Fault Magnitude := do
  let out ← subLoop a b a.length 0 0
  return popZeros out

/-- From index `i` on, the loop subtracts what is left of `b` and the borrow, up to the borrow
out of the last limb. -/
theorem subLoop_spec (a b : Magnitude) :
    ∀ (n i : Nat) (borrow : Int), borrow = 0 ∨ borrow = 1 →
      ∃ out, ∃ last, (last = 0 ∨ last = 1) ∧ subLoop a b n i borrow = .ok out ∧
        out.length = n ∧
        (kBase : Int) ^ i * value out + value (a.take i) + value (b.take (i + n)) +
            (kBase : Int) ^ i * borrow =
          value (a.take (i + n)) + value (b.take i) + (kBase : Int) ^ (i + n) * last := by
  intro n
  induction n with
  | zero =>
    intro i borrow hb
    refine ⟨[], borrow, hb, rfl, rfl, ?_⟩
    simp
  | succ n ih =>
    intro i borrow hb
    have hx := limb_lt a i
    have hy := limb_lt b i
    set d : Int := limb a i - limb b i - borrow with hd
    have hbase : (kBase : Int) = 2 ^ 32 := rfl
    obtain ⟨rest, last, hlast, hrest, hlen, hval⟩ := ih (i + 1) (if d < 0 then 1 else 0)
      (by split_ifs <;> simp)
    refine ⟨low (if d < 0 then d + kBase else d).toNat :: rest, last, hlast, ?_, by simp [hlen], ?_⟩
    · have hadj : i64 (if d < 0 then d + kBase else d) = .ok (if d < 0 then d + kBase else d) := by
        apply i64_ok <;> split_ifs <;> omega
      simp [subLoop, ← hd, i64_ok (show -2 ^ 63 ≤ d by omega) (show d < 2 ^ 63 by omega), bind,
        Except.bind, hadj, hrest, pure, Except.pure]
    · -- the adjusted difference is a limb, so the cast loses nothing
      have hcast : ((low (if d < 0 then d + kBase else d).toNat).toNat : Int) =
          d + kBase * (if d < 0 then 1 else 0) := by
        rw [low_toNat]
        split_ifs <;> omega
      rw [show i + 1 + n = i + (n + 1) by omega, value_take_succ, value_take_succ] at hval
      rw [value_cons]
      push_cast at hval ⊢
      rw [hcast]
      linear_combination hval + (kBase : Int) ^ i * hd

/-- **Subtraction of magnitudes**: the result is trimmed and no intermediate overflows. -/
theorem subMagnitude_spec {a : Magnitude} (h : value b ≤ value a) (hlen : b.length ≤ a.length) :
    ∃ out, subMagnitude a b = .ok out ∧ Trimmed out ∧ value out + value b = value a := by
  obtain ⟨out, last, hlast, hout, houtlen, hval⟩ := subLoop_spec a b a.length 0 0 (.inl rfl)
  refine ⟨popZeros out, ?_, trimmed_popZeros out, ?_⟩
  · simp [subMagnitude, hout, bind, Except.bind, pure, Except.pure]
  · simp only [take_zero, pow_zero, take_of_length_le le_rfl, take_of_length_le hlen,
      zero_add] at hval
    have hlt := value_lt out
    rw [houtlen] at hlt
    rw [value_popZeros]
    rcases hlast with rfl | rfl
    · omega
    · have : ((kBase ^ a.length : Nat) : Int) = (kBase : Int) ^ a.length := by push_cast; rfl
      omega

/-! ## Multiplication -/

def readLimb (out : Magnitude) (k : Nat) : Except Fault Nat :=
  if k < out.length then .ok (limb out k) else .error .outOfBounds

/-- The `while (carry)` loop that carries a finished row into the limbs above it. -/
def carryLoop (out : Magnitude) (k carry : Nat) : Except Fault Magnitude :=
  if carry = 0 then .ok out
  else if k < out.length then
    match u64 (limb out k + carry) with
    | .ok cur => carryLoop (out.set k (low cur)) (k + 1) (cur >>> 32)
    | .error e => .error e
  else .error .outOfBounds
termination_by out.length - k

/-- The loop over `j`: row `i` of the schoolbook product, with `n` limbs of `b` to go. -/
def rowLoop (b : Magnitude) (ai i : Nat) : Nat → Nat → Magnitude → Nat → Except Fault Magnitude
  | 0, j, out, carry => carryLoop out (i + j) carry
  | n + 1, j, out, carry => do
    let old ← readLimb out (i + j)
    let cur ← u64 (old + ai * limb b j + carry)
    rowLoop b ai i n (j + 1) (out.set (i + j) (low cur)) (cur >>> 32)

/-- The loop over `i`, with `n` limbs of `a` to go. -/
def mulLoop (a b : Magnitude) : Nat → Nat → Magnitude → Except Fault Magnitude
  | 0, _, out => .ok out
  | n + 1, i, out =>
    if limb a i = 0 then mulLoop a b n (i + 1) out
    else do
      let out' ← rowLoop b (limb a i) i b.length 0 out 0
      mulLoop a b n (i + 1) out'

def mulMagnitude (a b : Magnitude) : Except Fault Magnitude :=
  if a.isEmpty || b.isEmpty then .ok []
  else do
    let out ← mulLoop a b a.length 0 (replicate (a.length + b.length) 0)
    return popZeros out

theorem shift_carry_lt {n : Nat} (h : n < 2 ^ 64) : n >>> 32 < 2 ^ 32 := by
  omega

theorem step_lt {old ai bj carry : Nat} (ho : old < 2 ^ 32) (ha : ai < 2 ^ 32) (hb : bj < 2 ^ 32)
    (hc : carry < 2 ^ 32) : old + ai * bj + carry < 2 ^ 64 := by
  have : ai * bj ≤ (2 ^ 32 - 1) * (2 ^ 32 - 1) := Nat.mul_le_mul (by omega) (by omega)
  omega

/-- One store of `low cur` with its carry keeps the value of the row so far. -/
theorem value_store {out : Magnitude} {k : Nat} (hk : k < out.length) (cur : Nat) :
    value (out.set k (low cur)) + kBase ^ (k + 1) * (cur >>> 32) + kBase ^ k * limb out k =
      value out + kBase ^ k * cur := by
  have hset := value_set hk (low cur)
  have hsplit := congrArg (kBase ^ k * ·) (low_add_shift cur)
  simp only [mul_add, ← mul_assoc] at hsplit
  rw [pow_succ]
  omega

theorem carryLoop_spec (out : Magnitude) (k : Nat) {carry : Nat} (hc : carry < 2 ^ 32)
    (hfit : value out + kBase ^ k * carry < kBase ^ out.length) :
    ∃ out', carryLoop out k carry = .ok out' ∧ out'.length = out.length ∧
      value out' = value out + kBase ^ k * carry := by
  induction hn : out.length - k generalizing out k carry with
  | zero =>
    have hzero : carry = 0 := by
      by_contra hne
      have h₁ : kBase ^ out.length ≤ kBase ^ k := Nat.pow_le_pow_right (by decide) (by omega)
      have h₂ := Nat.le_mul_of_pos_right (kBase ^ k) (Nat.pos_of_ne_zero hne)
      omega
    subst hzero
    exact ⟨out, by simp [carryLoop], rfl, by simp⟩
  | succ n ih =>
    by_cases hzero : carry = 0
    · subst hzero
      exact ⟨out, by simp [carryLoop], rfl, by simp⟩
    have hk : k < out.length := by omega
    have hl := limb_lt out k
    have hstore := value_store hk (limb out k + carry)
    rw [mul_add] at hstore
    obtain ⟨out', hrun, hlen, hval⟩ := ih (out.set k (low (limb out k + carry))) (k + 1)
      (shift_carry_lt (n := limb out k + carry) (by omega)) (by rw [length_set]; omega)
      (by rw [length_set]; omega)
    refine ⟨out', ?_, by simp [hlen], by omega⟩
    rw [carryLoop, if_neg hzero, if_pos hk, u64_ok (show limb out k + carry < 2 ^ 64 by omega)]
    exact hrun

/-- A row adds `ai * b` at weight `i`, in bounds and without overflow. -/
theorem rowLoop_spec {ai i : Nat} (ha : ai < 2 ^ 32) :
    ∀ (n j : Nat) (out : Magnitude) (carry : Nat), carry < 2 ^ 32 → j + n = b.length →
      i + b.length ≤ out.length →
      value out + kBase ^ (i + j) * carry + kBase ^ i * (ai * value b) <
        kBase ^ out.length + kBase ^ i * (ai * value (b.take j)) →
      ∃ out', rowLoop b ai i n j out carry = .ok out' ∧ out'.length = out.length ∧
        value out' + kBase ^ i * (ai * value (b.take j)) =
          value out + kBase ^ (i + j) * carry + kBase ^ i * (ai * value b) := by
  intro n
  induction n with
  | zero =>
    intro j out carry hc hj hlen hfit
    rw [take_of_length_le (by omega)] at hfit ⊢
    obtain ⟨out', hrun, hlen', hval⟩ := carryLoop_spec out (i + j) hc (by omega)
    exact ⟨out', hrun, hlen', by omega⟩
  | succ n ih =>
    intro j out carry hc hj hlen hfit
    have hk : i + j < out.length := by omega
    have hl := limb_lt out (i + j)
    have hb := limb_lt b j
    have hcur := step_lt hl ha hb hc
    have hstore := value_store hk (limb out (i + j) + ai * limb b j + carry)
    have htake : kBase ^ i * (ai * value (b.take (j + 1))) =
        kBase ^ i * (ai * value (b.take j)) + kBase ^ (i + j) * (ai * limb b j) := by
      rw [value_take_succ]
      ring
    rw [mul_add, mul_add] at hstore
    obtain ⟨out', hrun, hlen', hval⟩ := ih (j + 1)
      (out.set (i + j) (low (limb out (i + j) + ai * limb b j + carry)))
      ((limb out (i + j) + ai * limb b j + carry) >>> 32) (shift_carry_lt hcur) (by omega)
      (by rw [length_set]; omega)
      (by rw [length_set, show i + (j + 1) = i + j + 1 from rfl]; omega)
    rw [show i + (j + 1) = i + j + 1 from rfl] at hval
    refine ⟨out', ?_, by simp [hlen'], by omega⟩
    simp [rowLoop, readLimb, if_pos hk, bind, Except.bind, u64_ok hcur, hrun]

theorem mulLoop_spec (a b : Magnitude) :
    ∀ (n i : Nat) (out : Magnitude), i + n = a.length → out.length = a.length + b.length →
      value out = value (a.take i) * value b →
      ∃ out', mulLoop a b n i out = .ok out' ∧ value out' = value a * value b := by
  intro n
  induction n with
  | zero =>
    intro i out hi hlen hval
    rw [take_of_length_le (by omega)] at hval
    exact ⟨out, rfl, hval⟩
  | succ n ih =>
    intro i out hi hlen hval
    have hrow : value (a.take (i + 1)) * value b =
        value out + kBase ^ i * (limb a i * value b) := by
      rw [value_take_succ, hval]
      ring
    by_cases hzero : limb a i = 0
    · rw [hzero, zero_mul] at hrow
      obtain ⟨out', hrun, hval'⟩ := ih (i + 1) out (by omega) hlen hrow.symm
      exact ⟨out', by rw [mulLoop, if_pos hzero, hrun], hval'⟩
    · have hfit : value (a.take (i + 1)) * value b < kBase ^ (a.length + b.length) := by
        rw [pow_add]
        refine mul_lt_mul'' ?_ (value_lt b)
        exact (value_lt _).trans_le
          (Nat.pow_le_pow_right (by decide) ((length_take_le _ _).trans (by omega)))
      obtain ⟨out', hrun, hlen', hval'⟩ := rowLoop_spec (b := b) (i := i) (limb_lt a i) b.length 0
        out 0 (by decide) (by omega) (by omega) (by
          rw [hlen]; simp only [mul_zero]; omega)
      simp only [take_zero, value_nil] at hval'
      obtain ⟨out'', hrun', hval''⟩ := ih (i + 1) out' (by omega) (by omega) (by omega)
      refine ⟨out'', ?_, hval''⟩
      simp [mulLoop, if_neg hzero, hrun, bind, Except.bind, hrun']

/-- **Multiplication of magnitudes**: every access is inside the `a.size() + b.size()` limbs, no
intermediate overflows, and the result is the trimmed product. -/
theorem mulMagnitude_spec (a b : Magnitude) :
    ∃ out, mulMagnitude a b = .ok out ∧ Trimmed out ∧ value out = value a * value b := by
  by_cases h : (a.isEmpty || b.isEmpty) = true
  · refine ⟨[], by rw [mulMagnitude, if_pos h], fun x hx => by simp at hx, ?_⟩
    rcases Bool.or_eq_true _ _ ▸ h with h | h <;> simp [isEmpty_iff.mp h]
  · obtain ⟨out, hrun, hval⟩ := mulLoop_spec a b a.length 0 (replicate (a.length + b.length) 0)
      (by omega) (by simp) (by simp)
    refine ⟨popZeros out, ?_, trimmed_popZeros out, by rw [value_popZeros, hval]⟩
    simp [mulMagnitude, h, hrun, bind, Except.bind, pure, Except.pure]

end Bronze.BigNum
