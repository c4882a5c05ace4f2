import Bronze.BigNum.Text

/-!
# The integers of the exact decimals

`BigUInt` of `src/runtime/exact_decimal.cpp`: the integers that the digits of a double are worked
out with. Its limbs are laid out as those of a `BigNum`, and where its loops are the same as theirs
they are shared; a factor, a bit or a power of ten at a time is its own. Its length in bits is cast
to 32 bits, the only step that can lose something.

## Main results

* `mulPow10_spec`, `shiftLeft_spec`: the operations are exact
* `bitLength_eq`: the length in bits, below `2 ^ 32`
* `toDecimal_spec`: the decimal digits, without leading zeros
-/

namespace Bronze.Decimal

open BigNum List

def ofUInt64 (v : UInt64) : Magnitude := popZeros [v.toUInt32, (v >>> 32).toUInt32]

def mulSmall (m : Magnitude) (factor : Nat) : Except Fault Magnitude :=
  if m = [] ∨ factor = 0 then .ok (if factor = 0 then [] else m)
  else mulAddLoop factor m 0

def kPow10 : List Nat :=
  [1, 10, 100, 1000, 10000, 100000, 1000000, 10000000, 100000000, 1000000000]

/-- `mulPow10`, nine digits at a time. -/
def mulPow10 (m : Magnitude) (exponent : Nat) : Except Fault Magnitude :=
  if 9 ≤ exponent then do
    let m ← mulSmall m (kPow10.getD 9 0)
    mulPow10 m (exponent - 9)
  else if 0 < exponent then mulSmall m (kPow10.getD exponent 0)
  else .ok m
termination_by exponent

def shiftLeft (m : Magnitude) (bits : Nat) : Except Fault Magnitude :=
  if m = [] ∨ bits = 0 then .ok m else shiftLeftBits m bits

def countlZero (v : UInt32) : Nat := 32 - v.toNat.size

/-- `bitLength`, in a `uint32_t`. -/
def bitLength (m : Magnitude) : Nat :=
  match m.getLast? with
  | none => 0
  | some top => ((m.length - 1) * 32 + (32 - countlZero top)) % 2 ^ 32

def testBit (m : Magnitude) (bit : Nat) : Bool :=
  if m.length ≤ bit / 32 then false else (limb m (bit / 32) >>> (bit % 32)) &&& 1 != 0

def setBit (m : Magnitude) (bit : Nat) : Magnitude :=
  let m := if m.length ≤ bit / 32 then resize m (bit / 32 + 1) else m
  m.set (bit / 32) (low (limb m (bit / 32) ||| 1 <<< (bit % 32)))

def addOne : Magnitude → Magnitude
  | [] => [1]
  | x :: m => if x + 1 ≠ 0 then (x + 1) :: m else 0 :: addOne m

/-- The digits of a chunk of `toDecimal`, with `n` of the nine to go. -/
def chunkDigits (mostSignificant : Bool) : Nat → Nat → List Char
  | 0, _ => []
  | n + 1, chunk =>
    if !mostSignificant || chunk != 0 then
      Char.ofNat ('0'.toNat + chunk % 10) :: chunkDigits mostSignificant n (chunk / 10)
    else []

/-- The loop of `toDecimal`: what it pushes while there is work. -/
def toDecimalLoop (work : Magnitude) : List Char :=
  if work = [] then []
  else
    let rest := (divModSmall work 1000000000).1
    let chunk := (divModSmall work 1000000000).2
    chunkDigits rest.isEmpty 9 chunk ++ toDecimalLoop rest
termination_by value work + work.length
decreasing_by
  rename_i hwork
  exact divModSmall_shorter work (by decide) hwork

def toDecimal (m : Magnitude) : List Char :=
  if m = [] then ['0'] else (toDecimalLoop m).reverse

section Trimmed

variable {m : Magnitude}

theorem trimmed_nil : Trimmed [] := nofun

theorem trimmed_cons {x : UInt32} : Trimmed (x :: m) ↔ (m = [] → x ≠ 0) ∧ Trimmed m := by
  cases m with
  | nil => simp [Trimmed]
  | cons y m => simp [Trimmed]

theorem trimmed_of_pow_le (h : kBase ^ (m.length - 1) ≤ value m) : Trimmed m := by
  rcases eq_nil_or_concat m with rfl | ⟨l, x, rfl⟩
  · exact trimmed_nil
  · intro y hy hzero
    rw [concat_eq_append] at h hy
    rw [getLast?_concat, Option.mem_some_iff] at hy
    rw [hy, hzero, value_append, length_append, length_singleton, Nat.add_sub_cancel] at h
    have hlt := value_lt l
    have hnone : value [(0 : UInt32)] = 0 := rfl
    rw [hnone, Nat.mul_zero] at h
    omega

end Trimmed

theorem trimmed_pushCarry (carry : Nat) (h : carry < 2 ^ 32) : Trimmed (pushCarry carry) := by
  rw [pushCarry]
  split
  · exact trimmed_nil
  · next hne =>
    have hdone : carry >>> 32 = 0 := by
      rw [Nat.shiftRight_eq_div_pow]
      exact Nat.div_eq_of_lt h
    rw [hdone, pushCarry, if_pos rfl]
    intro x hx hzero
    rw [getLast?_singleton, Option.mem_some_iff] at hx
    have hlow := low_toNat carry
    rw [hx, hzero, Nat.mod_eq_of_lt h] at hlow
    exact hne hlow.symm

theorem pushCarry_eq_nil {carry : Nat} : pushCarry carry = [] ↔ carry = 0 := by
  rw [pushCarry]
  split <;> simp [*]

theorem mulAddLoop_trimmed {factor : Nat} (hpos : 0 < factor) (hfactor : factor < 2 ^ 32) :
    ∀ (m : Magnitude) (carry : Nat) (out : Magnitude), Trimmed m → carry < 2 ^ 32 →
      mulAddLoop factor m carry = .ok out →
      Trimmed out ∧ (out = [] → m = [] ∧ carry = 0) := by
  intro m
  induction m with
  | nil =>
    intro carry out _ hcarry hrun
    cases hrun
    exact ⟨trimmed_pushCarry carry hcarry, fun h => ⟨rfl, pushCarry_eq_nil.mp h⟩⟩
  | cons x m ih =>
    intro carry out hm hcarry hrun
    obtain ⟨htop, hm⟩ := trimmed_cons.mp hm
    have hproduct : x.toNat * factor + carry < 2 ^ 64 := by
      have := @step_lt 0 _ _ _ (by decide) x.toNat_lt hfactor hcarry
      omega
    rw [mulAddLoop, u64_ok hproduct] at hrun
    obtain ⟨rest, hrest, -⟩ := mulAddLoop_spec hfactor m _ (shift_carry_lt hproduct)
    dsimp only [bind, Except.bind] at hrun
    rw [hrest] at hrun
    cases hrun
    obtain ⟨htrimmed, hnil⟩ := ih _ rest hm (shift_carry_lt hproduct) hrest
    refine ⟨trimmed_cons.mpr ⟨fun hempty hzero => ?_, htrimmed⟩,
      fun h => absurd h (List.cons_ne_nil _ _)⟩
    -- nothing is carried out of the limb on top, so it holds the product
    obtain ⟨hlast, hcarried⟩ := hnil hempty
    have hx : x.toNat ≠ 0 := fun h => htop hlast (UInt32.toNat_inj.mp h)
    have hsplit := low_add_shift (x.toNat * factor + carry)
    have hge : 0 < x.toNat * factor := Nat.mul_pos (Nat.pos_of_ne_zero hx) hpos
    rw [hcarried, hzero] at hsplit
    change 0 = _ at hsplit
    omega

/-- **A factor of one limb.** -/
theorem mulSmall_spec {m : Magnitude} (hm : Trimmed m) {factor : Nat} (hpos : 0 < factor)
    (hfactor : factor < 2 ^ 32) :
    ∃ out, mulSmall m factor = .ok out ∧ Trimmed out ∧ value out = value m * factor := by
  unfold mulSmall
  by_cases hnil : m = []
  · refine ⟨m, ?_, hm, ?_⟩
    · rw [if_pos (.inl hnil), if_neg hpos.ne']
    · simp [hnil]
  · rw [if_neg (not_or.mpr ⟨hnil, hpos.ne'⟩)]
    obtain ⟨out, hrun, hvalue⟩ := mulAddLoop_spec hfactor m 0 (by decide)
    exact ⟨out, hrun, (mulAddLoop_trimmed hpos hfactor m 0 out hm (by decide) hrun).1, hvalue⟩

theorem kPow10_eq : ∀ n < 10, kPow10.getD n 0 = 10 ^ n := by decide

/-- **A power of ten.** -/
theorem mulPow10_spec (exponent : Nat) : ∀ {m : Magnitude}, Trimmed m →
    ∃ out, mulPow10 m exponent = .ok out ∧ Trimmed out ∧
      value out = value m * 10 ^ exponent := by
  induction exponent using Nat.strong_induction_on with
  | _ exponent ih =>
    intro m hm
    rw [mulPow10]
    split
    · next hnine =>
      rw [kPow10_eq 9 (by decide)]
      obtain ⟨m', hrun, hm', hvalue⟩ := mulSmall_spec hm (show 0 < 10 ^ 9 by decide) (by decide)
      obtain ⟨out, hrest, hout, hvalue'⟩ := ih (exponent - 9) (by omega) hm'
      refine ⟨out, ?_, hout, ?_⟩
      · rw [hrun]
        exact hrest
      · have hpow : 10 ^ exponent = 10 ^ 9 * 10 ^ (exponent - 9) := by
          rw [← pow_add, Nat.add_sub_cancel' hnine]
        rw [hvalue', hvalue, hpow, Nat.mul_assoc]
    · next hfew =>
      split
      · rw [kPow10_eq exponent (by omega)]
        have hlt : 10 ^ exponent < 2 ^ 32 :=
          (Nat.pow_le_pow_right (by decide) (show exponent ≤ 9 by omega)).trans_lt (by decide)
        exact mulSmall_spec hm (Nat.pow_pos (by decide)) hlt
      · next hnone =>
        obtain rfl : exponent = 0 := by omega
        exact ⟨m, rfl, hm, by simp⟩

/-- **A power of two.** -/
theorem shiftLeft_spec {m : Magnitude} (hm : Trimmed m) (bits : Nat) :
    ∃ out, shiftLeft m bits = .ok out ∧ Trimmed out ∧ value out = value m * 2 ^ bits := by
  unfold shiftLeft
  by_cases hnone : m = [] ∨ bits = 0
  · refine ⟨m, if_pos hnone, hm, ?_⟩
    rcases hnone with rfl | rfl
    · simp
    · simp
  · rw [if_neg hnone]
    exact shiftLeftBits_spec m bits

/-! ## Bits -/

section Bits

variable {m : Magnitude}

/-- **The length in bits**, as far as 32 bits hold it. -/
theorem bitLength_eq (hm : Trimmed m) : bitLength m = (value m).size % 2 ^ 32 := by
  have hcanonical : BigNum.Canonical { mag := m } := ⟨hm, fun _ => rfl⟩
  have hlength := BigNum.bitLength_eq hcanonical
  have hcut : (value m).size % 2 ^ 32 = (value m).size % 2 ^ 64 % 2 ^ 32 := by omega
  rw [hcut, ← hlength]
  unfold bitLength BigNum.bitLength
  cases m.getLast? with
  | none => rfl
  | some top =>
    have hsize : top.toNat.size ≤ 32 := Nat.size_le.mpr top.toNat_lt
    dsimp only
    rw [limbBits_eq_size, countlZero]
    omega

theorem testBit_limb (m : Magnitude) (bit : Nat) :
    (limb m (bit / 32)).testBit (bit % 32) = (value m).testBit bit := by
  have hpow : kBase ^ (bit / 32) = 2 ^ (32 * (bit / 32)) := by rw [kBase, ← pow_mul]
  have hbit : 32 * (bit / 32) + bit % 32 = bit := Nat.div_add_mod bit 32
  rw [limb_eq_div, hpow, kBase, Nat.testBit_mod_two_pow, Nat.testBit_div_two_pow,
    Nat.add_comm, hbit]
  simp [Nat.mod_lt]

/-- **Reading a bit.** -/
theorem testBit_eq (m : Magnitude) (bit : Nat) : testBit m bit = (value m).testBit bit := by
  rw [← testBit_limb]
  unfold testBit
  split
  · next h => simp [limb_of_le h]
  · simp [Nat.testBit]

theorem or_eq_add {x r : Nat} (h : x.testBit r = false) : x ||| 1 <<< r = x + 2 ^ r := by
  have hbit : x / 2 ^ r % 2 = 0 := by
    rw [Nat.testBit_eq_decide_div_mod_eq, decide_eq_false_iff_not] at h
    omega
  have hlow : x % 2 ^ (r + 1) = x % 2 ^ r := by
    rw [Nat.mod_pow_succ, hbit, Nat.mul_zero, Nat.add_zero]
  have hlt : x % 2 ^ r < 2 ^ r := Nat.mod_lt _ (by positivity)
  have hsum : x % 2 ^ r + 2 ^ r < 2 ^ (r + 1) := by rw [pow_succ]; omega
  have hsplit : 2 ^ (r + 1) * (x / 2 ^ (r + 1)) + x % 2 ^ r = x := by
    rw [← hlow]
    exact Nat.div_add_mod x _
  -- the bits above, the bit itself and the bits below do not meet
  calc x ||| 1 <<< r
      = 2 ^ (r + 1) * (x / 2 ^ (r + 1)) + x % 2 ^ r ||| 2 ^ r := by
        simp [hsplit, Nat.shiftLeft_eq]
    _ = 2 ^ (r + 1) * (x / 2 ^ (r + 1)) ||| (x % 2 ^ r ||| 2 ^ r) := by
        rw [Nat.two_pow_add_eq_or_of_lt (by omega), Nat.or_assoc]
    _ = 2 ^ (r + 1) * (x / 2 ^ (r + 1)) + (x % 2 ^ r + 2 ^ r) := by
        rw [Nat.or_two_pow_eq_add_of_lt hlt, ← Nat.two_pow_add_eq_or_of_lt hsum]
    _ = x + 2 ^ r := by rw [← Nat.add_assoc, hsplit]

/-- The limbs that `setBit` writes to. -/
theorem exists_grown (m : Magnitude) (k : Nat) :
    ∃ m', (if m.length ≤ k then resize m (k + 1) else m) = m' ∧ k < m'.length ∧
      value m' = value m ∧ m'.length = max m.length (k + 1) := by
  by_cases hle : m.length ≤ k
  · refine ⟨m ++ replicate (k + 1 - m.length) 0, ?_, ?_, ?_, ?_⟩
    · rw [if_pos hle, resize, take_of_length_le (by omega)]
    · rw [length_append, length_replicate]
      omega
    · simp [value_append]
    · rw [length_append, length_replicate]
      omega
  · exact ⟨m, if_neg hle, by omega, rfl, by omega⟩

/-- **Setting a bit** that is clear adds its weight. -/
theorem setBit_spec (hm : Trimmed m) {bit : Nat} (h : (value m).testBit bit = false) :
    Trimmed (setBit m bit) ∧ value (setBit m bit) = value m + 2 ^ bit := by
  obtain ⟨m', hgrown, hlt, hvalue, hlen⟩ := exists_grown m (bit / 32)
  have hclear : (limb m' (bit / 32)).testBit (bit % 32) = false := by
    rw [testBit_limb, hvalue, h]
  have hbit : bit % 32 < 32 := Nat.mod_lt _ (by decide)
  have hset : (low (limb m' (bit / 32) ||| 1 <<< (bit % 32))).toNat =
      limb m' (bit / 32) + 2 ^ (bit % 32) := by
    have hpow : 1 <<< (bit % 32) < 2 ^ 32 := by
      rw [Nat.shiftLeft_eq, Nat.one_mul]
      exact Nat.pow_lt_pow_right (by decide) hbit
    rw [low_toNat, Nat.mod_eq_of_lt (Nat.or_lt_two_pow (limb_lt _ _) hpow), or_eq_add hclear]
  have hweight : kBase ^ (bit / 32) * 2 ^ (bit % 32) = 2 ^ bit := by
    rw [kBase, ← pow_mul, ← pow_add, Nat.div_add_mod]
  have hsum : value (setBit m bit) = value m + 2 ^ bit := by
    have hstored := value_set hlt (low (limb m' (bit / 32) ||| 1 <<< (bit % 32)))
    rw [hset, Nat.mul_add] at hstored
    unfold setBit
    rw [hgrown]
    dsimp only
    omega
  refine ⟨trimmed_of_pow_le ?_, hsum⟩
  have hlength : (setBit m bit).length = max m.length (bit / 32 + 1) := by
    unfold setBit
    rw [hgrown]
    simp [hlen]
  rw [hlength, hsum]
  by_cases hle : m.length ≤ bit / 32
  · -- the bit is in a limb of its own, on top
    calc kBase ^ (max m.length (bit / 32 + 1) - 1)
        = kBase ^ (bit / 32) := by rw [max_eq_right (by omega), Nat.add_sub_cancel]
      _ ≤ kBase ^ (bit / 32) * 2 ^ (bit % 32) := Nat.le_mul_of_pos_right _ (by positivity)
      _ ≤ value m + 2 ^ bit := by rw [hweight]; omega
  · have hne : m ≠ [] := by
      rintro rfl
      exact hle (Nat.zero_le _)
    calc kBase ^ (max m.length (bit / 32 + 1) - 1)
        = kBase ^ (m.length - 1) := by rw [max_eq_left (by omega)]
      _ ≤ value m := hm.pow_le_value hne
      _ ≤ value m + 2 ^ bit := Nat.le_add_right _ _

/-- **Adding one.** -/
theorem addOne_spec : ∀ {m : Magnitude}, Trimmed m →
    Trimmed (addOne m) ∧ addOne m ≠ [] ∧ value (addOne m) = value m + 1 := by
  intro m
  induction m with
  | nil =>
    intro _
    have hone : (1 : UInt32) ≠ 0 := by decide
    exact ⟨trimmed_cons.mpr ⟨fun _ => hone, trimmed_nil⟩, List.cons_ne_nil _ _, rfl⟩
  | cons x m ih =>
    intro hm
    obtain ⟨htop, hm⟩ := trimmed_cons.mp hm
    have hx : x.toNat < 2 ^ 32 := x.toNat_lt
    have hnext : (x + 1).toNat = (x.toNat + 1) % 2 ^ 32 := UInt32.toNat_add x 1
    rw [addOne]
    by_cases hwrap : x + 1 = 0
    · obtain ⟨htrimmed, hne, hvalue⟩ := ih hm
      rw [if_neg (not_not.mpr hwrap)]
      refine ⟨trimmed_cons.mpr ⟨fun h => absurd h hne, htrimmed⟩, List.cons_ne_nil _ _, ?_⟩
      rw [hwrap] at hnext
      change 0 = _ at hnext
      have hzero : (0 : UInt32).toNat = 0 := rfl
      rw [value_cons, value_cons, kBase]
      omega
    · rw [if_pos hwrap]
      refine ⟨trimmed_cons.mpr ⟨fun _ => hwrap, hm⟩, List.cons_ne_nil _ _, ?_⟩
      have hne : (x + 1).toNat ≠ 0 := fun h => hwrap (UInt32.toNat_inj.mp h)
      rw [value_cons, value_cons]
      omega

end Bits

theorem ofUInt64_spec (v : UInt64) : Trimmed (ofUInt64 v) ∧ value (ofUInt64 v) = v.toNat := by
  refine ⟨trimmed_popZeros _, ?_⟩
  have hshift : (v >>> 32).toNat = v.toNat / 2 ^ 32 := by
    simp [Nat.shiftRight_eq_div_pow]
  have hv : v.toNat < 2 ^ 64 := v.toNat_lt
  unfold ofUInt64
  rw [value_popZeros, value_cons, value_cons, value_nil, UInt64.toNat_toUInt32,
    UInt64.toNat_toUInt32, kBase]
  omega

theorem decimal_digit : ∀ d < 10, Char.ofNat ('0'.toNat + d) = kDigits.getD d '0' := by decide

/-- The two ways to write a chunk are one, where there is something to write. -/
theorem chunkDigits_eq (mostSignificant : Bool) : ∀ n chunk,
    (mostSignificant = true → 0 < chunk) →
      chunkDigits mostSignificant n chunk = chunkLoop 10 mostSignificant n chunk := by
  intro n
  induction n with
  | zero => exact fun _ _ => rfl
  | succ n ih =>
    intro chunk hpos
    have hmore : (!mostSignificant || chunk != 0) = true := by
      cases mostSignificant with
      | false => rfl
      | true => simpa using (hpos rfl).ne'
    rw [chunkDigits, if_pos hmore, chunkLoop, decimal_digit _ (Nat.mod_lt _ (by decide))]
    congr 1
    by_cases hlast : mostSignificant = true ∧ chunk / 10 = 0
    · obtain ⟨htop, hzero⟩ := hlast
      rw [htop, hzero]
      cases n with
      | zero => rfl
      | succ n => rfl
    · rw [ih _ fun htop => Nat.pos_of_ne_zero fun hzero => hlast ⟨htop, hzero⟩, if_neg]
      simpa using hlast

theorem toDecimalLoop_eq {work : Magnitude} (hwork : Trimmed work) :
    toDecimalLoop work = toStringLoop 10 1000000000 9 work := by
  induction hn : value work using Nat.strong_induction_on generalizing work with
  | _ n ih =>
    subst hn
    rw [toDecimalLoop, toStringLoop]
    by_cases hnil : work = []
    · simp [hnil]
    · have hpos : 0 < value work :=
        Nat.pos_of_ne_zero fun hzero => hnil (hwork.value_eq_zero.mp hzero)
      obtain ⟨htrimmed, hquotient, hrem⟩ := @divModSmall_spec 1000000000 (by decide) work
      rw [if_neg hnil, if_neg (by simpa using hnil)]
      dsimp only
      rw [ih _ (by rw [hquotient]; exact Nat.div_lt_self hpos (by decide)) htrimmed rfl,
        chunkDigits_eq]
      intro hempty
      -- the chunk on top is all there is
      rw [List.isEmpty_iff] at hempty
      rw [hempty, value_nil] at hquotient
      omega

/-- **The decimal digits**, without leading zeros. -/
theorem toDecimal_spec {m : Magnitude} (hm : Trimmed m) :
    IsNumeral 10 (toDecimal m) ∧ positional 10 (toDecimal m) = value m ∧
      (toDecimal m = ['0'] ∨ (toDecimal m).head? ≠ some '0') := by
  have hcanonical : Canonical { mag := m } := ⟨hm, fun _ => rfl⟩
  have hchunk : radixChunk 10 = (1000000000, 9) := by
    unfold radixChunk
    simp [radixChunkLoop]
  have hrange : ¬ ((10 : Int) < 2 ∨ 36 < (10 : Int)) := by decide
  have hradix : (10 : Int).toNat = 10 := rfl
  have hsame : BigNum.toString { mag := m } 10 = toDecimal m := by
    unfold BigNum.toString toDecimal
    dsimp only
    rw [if_neg hrange, hradix, hchunk]
    by_cases hnil : m = []
    · rw [hnil]
      rfl
    · rw [if_neg (by simpa using hnil), if_neg hnil, toDecimalLoop_eq hm]
      rfl
  obtain ⟨ds, htext, hnumeral, hvalue, hlead⟩ :=
    toString_spec (r := 10) (by decide) (by decide) hcanonical
  rw [hsame] at htext
  change toDecimal m = ds at htext
  rw [htext]
  exact ⟨hnumeral, hvalue, hlead⟩

end Bronze.Decimal
