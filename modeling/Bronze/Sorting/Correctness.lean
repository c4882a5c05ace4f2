import Bronze.Sorting.ArraySort
import Bronze.Sorting.BottomUp

/-!
# The merge engine sorts

The loops between the two buffers do what a bottom-up merge sort does to lists, whatever the
comparisons answer and do. Up to `2 ^ 31` elements the counters of 32 bits do not wrap, and the
loops end.

## Main results

* `mergeLoop_sound`, `passLoop_sound`, `widthLoop_sound`: the loops of the source
-/

namespace Bronze.Sorting

open List Nat

section Sound

variable {ε σ α γ : Type} {Q : σ → Prop} {E : ε → Prop}

/-- From a state in `Q`, a result in `R` or an error in `E`, and a state in `Q`. -/
def Sound (Q : σ → Prop) (E : ε → Prop) (m : EStateM ε σ α) (R : α → Prop) : Prop :=
  ∀ s, Q s → match m s with
    | .ok a s' => R a ∧ Q s'
    | .error e s' => E e ∧ Q s'

theorem Sound.pure {R : α → Prop} {a : α} (h : R a) : Sound Q E (pure a) R :=
  fun _ hs => ⟨h, hs⟩

variable {m : EStateM ε σ α}

theorem Sound.bind {R : α → Prop} {R' : γ → Prop} {f : α → EStateM ε σ γ}
    (hm : Sound Q E m R) (hf : ∀ a, R a → Sound Q E (f a) R') : Sound Q E (m >>= f) R' := by
  intro s hs
  have hrun := hm s hs
  change match EStateM.bind m f s with
    | .ok a s' => R' a ∧ Q s'
    | .error e s' => E e ∧ Q s'
  unfold EStateM.bind
  cases hresult : m s with
  | ok a s' =>
    rw [hresult] at hrun
    exact hf a hrun.1 s' hrun.2
  | error e s' =>
    rw [hresult] at hrun
    exact hrun

theorem Sound.weaken {R R' : α → Prop} (hm : Sound Q E m R)
    (h : ∀ a, R a → R' a) : Sound Q E m R' := by
  intro s hs
  have hrun := hm s hs
  cases hresult : m s with
  | ok a s' =>
    rw [hresult] at hrun
    exact ⟨h a hrun.1, hrun.2⟩
  | error e s' =>
    rw [hresult] at hrun
    exact hrun

end Sound

section Slices

variable {β : Type} {src dst : Buffer β}

/-- The slots from `a` up to `b`. -/
def slice (buffer : Buffer β) (a b : Nat) : Buffer β := (buffer.take b).drop a

variable {a b : Nat}

theorem slice_eq_nil (h : b ≤ a) : slice src a b = [] :=
  drop_eq_nil_of_le ((length_take_le ..).trans h)

theorem slot_eq {i : Nat} (h : i < src.length) : slot src i = src[i] := by
  rw [slot, getD_eq_getElem?_getD, getElem?_eq_getElem h, Option.getD_some]

theorem slot_mem {i : Nat} (h : i < src.length) : slot src i ∈ src := by
  rw [slot_eq h]
  exact getElem_mem h

theorem slice_cons (hlt : a < b) (hlen : b ≤ src.length) :
    slice src a b = slot src a :: slice src (a + 1) b := by
  have ha : a < (src.take b).length := by
    rw [length_take]
    omega
  rw [slice, drop_eq_getElem_cons ha, getElem_take, ← slot_eq (by omega)]
  rfl

theorem length_slice (hlen : b ≤ src.length) : (slice src a b).length = b - a := by
  rw [slice, length_drop, length_take]
  omega

theorem take_set_succ {k : Nat} (h : k < dst.length) (x : Value β) :
    (dst.set k x).take (k + 1) = dst.take k ++ [x] := by
  rw [take_succ_eq_append_getElem (by rwa [length_set]), getElem_set_self, take_set_of_le le_rfl]

theorem drop_set_below {k t : Nat} (h : k < t) (x : Value β) :
    (dst.set k x).drop t = dst.drop t := drop_set_of_lt h

theorem copyLoop_eq : ∀ (n i k : Nat) (dst : Buffer β), i + n ≤ src.length →
    k + n ≤ dst.length →
    copyLoop src n i k dst = dst.take k ++ slice src i (i + n) ++ dst.drop (k + n) := by
  intro n
  induction n with
  | zero =>
    intro i k dst _ _
    simp [copyLoop, slice_eq_nil le_rfl]
  | succ n ih =>
    intro i k dst hi hk
    rw [copyLoop, ih _ _ _ (by omega) (by rw [length_set]; omega),
      take_set_succ (by omega), drop_set_below (by omega), slice_cons (by omega) hi,
      append_assoc (dst.take k), singleton_append]
    have hstop : i + 1 + n = i + (n + 1) := by omega
    have hend : k + 1 + n = k + (n + 1) := by omega
    rw [hstop, hend]

end Slices

/-! ## The loops of the source -/

section Loops

variable {ω β : Type} {Q : ω → Prop} {E : Value β → Prop} {S : Value β → Prop}
  {answers : Value β → Value β → Int → Prop} {compare : Value β → Value β → Run ω β Int}
  {src : Buffer β}

/-- What `mergeRuns` writes between what is done and what is left. -/
def MergedInto (answers : Value β → Value β → Int → Prop) (src : Buffer β) (mid hi i j k : Nat)
    (dst dst' : Buffer β) : Prop :=
  ∃ out, Merged answers (slice src i mid) (slice src j hi) out ∧
    dst' = dst.take k ++ out ++ dst.drop (k + (mid - i) + (hi - j))

variable {mid hi : Nat} {dst : Buffer β}

theorem mergedInto_copy {i j k : Nat} (hmid : mid ≤ src.length) (hhi : hi ≤ src.length)
    (hi₀ : i ≤ mid) (hj₀ : j ≤ hi) (hroom : k + ((mid - i) + (hi - j)) ≤ dst.length)
    (hdone : ¬ (i < mid ∧ j < hi)) : MergedInto answers src mid hi i j k dst
      (copyLoop src (hi - j) j (k + (mid - i)) (copyLoop src (mid - i) i k dst)) := by
  have hleft : i + (mid - i) = mid := by omega
  have hright : j + (hi - j) = hi := by omega
  have hlen : (dst.take k ++ slice src i mid).length = k + (mid - i) := by
    rw [length_append, length_take, length_slice hmid]
    omega
  refine ⟨slice src i mid ++ slice src j hi, ?_, ?_⟩
  · rcases lt_or_ge i mid with hlt | hge
    · rw [slice_eq_nil (show hi ≤ j by omega), append_nil]
      exact .rightDone _
    · rw [slice_eq_nil hge]
      exact .leftDone _
  · rw [copyLoop_eq (mid - i) i k dst (by omega) (by omega), hleft,
      copyLoop_eq _ _ _ _ (by omega) (by rw [length_append, length_drop]; omega), hright,
      take_left' hlen, ← drop_drop, drop_left' hlen, drop_drop]
    simp [append_assoc]

theorem MergedInto.cons {i j i' j' k : Nat} {dst' : Buffer β} {x : Value β}
    (h : MergedInto answers src mid hi i' j' (k + 1) (dst.set k x) dst') (hk : k < dst.length)
    (hcount : (mid - i) + (hi - j) = (mid - i') + (hi - j') + 1)
    (hmerged : ∀ out, Merged answers (slice src i' mid) (slice src j' hi) out →
      Merged answers (slice src i mid) (slice src j hi) (x :: out)) :
    MergedInto answers src mid hi i j k dst dst' := by
  obtain ⟨out, hout, hdst⟩ := h
  refine ⟨x :: out, hmerged out hout, ?_⟩
  have hend : k + 1 + (mid - i') + (hi - j') = k + (mid - i) + (hi - j) := by omega
  rw [hdst, take_set_succ hk, drop_set_below (by omega), hend,
    append_assoc (dst.take k) [x], singleton_append]

section

variable (hcompare : ∀ x y, S x → S y → Sound Q E (compare x y) (answers x y))

include hcompare

/-- **The merge of two runs**, from any counters. -/
theorem mergeLoop_sound (hsrc : ∀ x ∈ src, S x) (hmid : mid ≤ src.length) (hhi : hi ≤ src.length) :
    ∀ (n i j k : Nat) (dst : Buffer β), (mid - i) + (hi - j) = n → i ≤ mid → j ≤ hi →
      k + n ≤ dst.length →
      Sound Q E (mergeLoop compare src mid hi i j k dst)
        (MergedInto answers src mid hi i j k dst) := by
  intro n
  induction n with
  | zero =>
    intro i j k dst hn hi₀ hj₀ hroom
    have hdone : ¬ (i < mid ∧ j < hi) := by omega
    rw [mergeLoop, if_neg hdone]
    exact .pure (mergedInto_copy hmid hhi hi₀ hj₀ (by omega) hdone)
  | succ n ih =>
    intro i j k dst hn hi₀ hj₀ hroom
    rw [mergeLoop]
    by_cases hmore : i < mid ∧ j < hi
    · obtain ⟨hi₁, hj₁⟩ := hmore
      have hset : ∀ x : Value β, k + 1 + n ≤ (dst.set k x).length := by
        intro x
        rw [length_set]
        omega
      rw [if_pos ⟨hi₁, hj₁⟩]
      refine (hcompare _ _ (hsrc _ (slot_mem (by omega))) (hsrc _ (slot_mem (by omega)))).bind
        fun answer hanswer => ?_
      -- on a tie the element of the left run goes first
      by_cases hle : answer ≤ 0
      · rw [if_pos hle]
        refine (ih (i + 1) j (k + 1) _ (by omega) hi₁ hj₀ (hset _)).weaken fun dst' h => ?_
        refine h.cons (by omega) (by omega) fun out hout => ?_
        rw [slice_cons hi₁ hmid, slice_cons hj₁ hhi]
        rw [slice_cons hj₁ hhi] at hout
        exact .takeLeft hanswer hle hout
      · rw [if_neg hle]
        refine (ih i (j + 1) (k + 1) _ (by omega) hi₀ hj₁ (hset _)).weaken fun dst' h => ?_
        refine h.cons (by omega) (by omega) fun out hout => ?_
        rw [slice_cons hi₁ hmid, slice_cons hj₁ hhi]
        rw [slice_cons hi₁ hmid] at hout
        exact .takeRight hanswer (Int.not_le.mp hle) hout
    · rw [if_neg hmore]
      exact .pure (mergedInto_copy hmid hhi hi₀ hj₀ (by omega) hmore)

/-- **`mergeRuns`**: the slots from `lo` to `hi` hold a merge of the two runs. -/
theorem mergeRuns_sound (hsrc : ∀ x ∈ src, S x) {lo : Nat} (hlo : lo ≤ mid) (hmid : mid ≤ hi)
    (hhi : hi ≤ src.length) (hlen : src.length = dst.length) :
    Sound Q E (mergeRuns compare src dst lo mid hi) fun dst' => ∃ run,
      Merged answers (slice src lo mid) (slice src mid hi) run ∧
        dst' = dst.take lo ++ run ++ dst.drop hi := by
  refine (mergeLoop_sound hcompare hsrc (by omega) hhi _ lo mid lo dst rfl hlo hmid
    (by omega)).weaken fun dst' h => ?_
  obtain ⟨run, hrun, hdst⟩ := h
  have hend : lo + (mid - lo) + (hi - mid) = hi := by omega
  rw [hend] at hdst
  exact ⟨run, hrun, hdst⟩

end

variable {itemCount width : UInt32}

/-- The runs that start at `lo`, the last ones short. -/
theorem slice_runs (src : Buffer β) (lo w : Nat) :
    slice src lo (min (lo + w) src.length) = (src.drop lo).take w ∧
      slice src (min (lo + w) src.length) (min (lo + 2 * w) src.length) =
        ((src.drop lo).drop w).take w := by
  have htake : ∀ b, src.take (min b src.length) = src.take b := by
    intro b
    rcases le_total b src.length with h | h
    · simp
    · simp
  constructor
  · rw [slice, htake, drop_take]
    congr 1
    omega
  · rw [slice, htake]
    rcases le_total (lo + w) src.length with h | h
    · rw [min_eq_left h, drop_take, drop_drop]
      congr 1
      omega
    · rw [min_eq_right h, drop_drop, drop_eq_nil_of_le h, take_nil]
      exact drop_eq_nil_of_le (length_take_le' ..)

/-- The counters of the loops, as long as they do not wrap. -/
structure Counts (itemCount width : UInt32) (n w : Nat) : Prop where
  itemCount_eq : itemCount.toNat = n
  width_eq : width.toNat = w
  pos : 0 < w
  fits : n + 2 * w ≤ 2 ^ 32

theorem Counts.bound (h : Counts itemCount width n w) {lo : UInt32} (hlo : lo.toNat < n) :
    (if lo + width < itemCount then lo + width else itemCount).toNat = min (lo.toNat + w) n ∧
      (if lo + 2 * width < itemCount then lo + 2 * width else itemCount).toNat =
        min (lo.toNat + 2 * w) n ∧ (lo + 2 * width).toNat = lo.toNat + 2 * w := by
  obtain ⟨hn, hw, hpos, hfits⟩ := h
  have hone : (lo + width).toNat = lo.toNat + w := by
    rw [UInt32.toNat_add, hw]
    exact mod_eq_of_lt (by omega)
  have htwo : (lo + 2 * width).toNat = lo.toNat + 2 * w := by
    have hdouble : (2 * width).toNat = 2 * w := by
      rw [UInt32.toNat_mul, hw]
      exact mod_eq_of_lt (show 2 * w < 2 ^ 32 by omega)
    rw [UInt32.toNat_add, hdouble]
    exact mod_eq_of_lt (by omega)
  refine ⟨?_, ?_, htwo⟩
  · split
    · next hlt =>
      rw [UInt32.lt_iff_toNat_lt, hone, hn] at hlt
      rw [hone, min_eq_left hlt.le]
    · next hge =>
      rw [UInt32.lt_iff_toNat_lt] at hge
      rw [hn, min_eq_right (by omega)]
  · split
    · next hlt =>
      rw [UInt32.lt_iff_toNat_lt, htwo, hn] at hlt
      rw [htwo, min_eq_left hlt.le]
    · next hge =>
      rw [UInt32.lt_iff_toNat_lt] at hge
      rw [hn, min_eq_right (by omega)]

section

variable (hcompare : ∀ x y, S x → S y → Sound Q E (compare x y) (answers x y))

include hcompare

/-- **A pass**, from any `lo`. -/
theorem passLoop_sound
    (hsrc : ∀ x ∈ src, S x) {w : Nat} (hcounts : Counts itemCount width src.length w) :
    ∀ (fuel : Nat) (lo : UInt32) (dst : Buffer β), src.length - lo.toNat < fuel →
      src.length = dst.length →
      Sound Q E (passLoop compare itemCount width src fuel lo dst) fun result => ∃ out,
        Passed answers w (src.drop lo.toNat) out ∧ result = some (dst.take lo.toNat ++ out) := by
  intro fuel
  induction fuel with
  | zero =>
    intro lo dst hfuel _
    omega
  | succ fuel ih =>
    intro lo dst hfuel hlen
    rw [passLoop]
    by_cases hlt : lo < itemCount
    · rw [if_pos hlt]
      rw [UInt32.lt_iff_toNat_lt, hcounts.itemCount_eq] at hlt
      obtain ⟨hmid, hhi, hnext⟩ := hcounts.bound hlt
      have hpos := hcounts.pos
      dsimp only
      rw [hmid, hhi]
      refine (mergeRuns_sound hcompare hsrc (by omega) (by omega) (by omega) hlen).bind
        fun dst₁ hdst₁ => ?_
      obtain ⟨run, hrun, hdst₁⟩ := hdst₁
      obtain ⟨hleft, hright⟩ := slice_runs src lo.toNat w
      rw [hleft, hright] at hrun
      have hrunLen : run.length = min (lo.toNat + 2 * w) src.length - lo.toNat := by
        rw [hrun.length_eq, length_runs, length_drop]
        omega
      have hlen₁ : src.length = dst₁.length := by
        rw [hdst₁, length_append, length_append, length_take, length_drop]
        omega
      refine (ih (lo + 2 * width) dst₁ (by rw [hnext]; omega) hlen₁).weaken fun result h => ?_
      obtain ⟨out, hout, hresult⟩ := h
      rw [hnext] at hout hresult
      refine ⟨run ++ out, ?_, ?_⟩
      · refine .step ?_ hrun ?_
        · rw [Ne, drop_eq_nil_iff]
          omega
        · rw [drop_drop]
          exact hout
      · rw [hresult, hdst₁, ← append_assoc]
        congr 2
        -- what is done ends where the next runs start, or at the end
        have hdone : (dst.take lo.toNat ++ run).length =
            min (lo.toNat + 2 * w) src.length := by
          rw [length_append, length_take]
          omega
        rcases le_total (lo.toNat + 2 * w) src.length with hle | hge
        · exact take_left' (by omega)
        · rw [drop_eq_nil_of_le (by omega), append_nil, take_of_length_le (by omega)]
    · rw [if_neg hlt]
      rw [UInt32.lt_iff_toNat_lt, hcounts.itemCount_eq] at hlt
      refine .pure ⟨[], ?_, ?_⟩
      · rw [drop_eq_nil_of_le (by omega)]
        exact .done
      · rw [append_nil, take_of_length_le (by omega)]

/-- **All passes**: the width doubles, and the buffers change places. -/
theorem widthLoop_sound
    {n passFuel : Nat} (hitems : itemCount.toNat = n) (hn : n ≤ 2 ^ 31) (hpass : n < passFuel) :
    ∀ (fuel p : Nat) (width : UInt32) (src dst : Buffer β), width.toNat = 2 ^ p →
      n - 2 ^ p < fuel → src.length = n → dst.length = n → (∀ x ∈ src, S x) →
      Sound Q E (widthLoop compare itemCount passFuel fuel width src dst) fun result => ∃ out,
        BottomUp answers (2 ^ p) src out ∧ result = some out := by
  intro fuel
  induction fuel with
  | zero =>
    intro p width src dst _ hfuel
    omega
  | succ fuel ih =>
    intro p width src dst hwidth hfuel hsrcLen hdstLen hsrc
    rw [widthLoop]
    by_cases hlt : width < itemCount
    · rw [if_pos hlt]
      rw [UInt32.lt_iff_toNat_lt, hwidth, hitems] at hlt
      -- a power of two below `2 ^ 31` is at most `2 ^ 30`
      have hp : p ≤ 30 := by
        have := (Nat.pow_lt_pow_iff_right (by decide : 1 < 2)).mp (hlt.trans_le hn)
        omega
      have hsmall : 2 ^ p ≤ 2 ^ 30 := Nat.pow_le_pow_right (by decide) hp
      have hpos : 0 < 2 ^ p := Nat.pow_pos (by decide)
      have hcounts : Counts itemCount width src.length (2 ^ p) :=
        ⟨hitems.trans hsrcLen.symm, hwidth, hpos, by omega⟩
      have hdouble : (width * 2).toNat = 2 ^ (p + 1) := by
        have htwo : (2 : UInt32).toNat = 2 := rfl
        rw [UInt32.toNat_mul, hwidth, htwo]
        exact Nat.mod_eq_of_lt (by omega)
      have hstart : (0 : UInt32).toNat = 0 := rfl
      refine (passLoop_sound hcompare hsrc hcounts passFuel 0 dst (by rw [hstart]; omega)
        (hsrcLen.trans hdstLen.symm)).bind fun result hresult => ?_
      obtain ⟨out, hout, rfl⟩ := hresult
      have houtLen : out.length = n := hout.perm.length_eq.trans hsrcLen
      refine (ih (p + 1) (width * 2) out src hdouble (by rw [pow_succ]; omega) houtLen hsrcLen
        fun x hx => hsrc x (hout.perm.subset hx)).weaken fun result' h => ?_
      obtain ⟨final, hfinal, hresult'⟩ := h
      rw [pow_succ'] at hfinal
      exact ⟨final, .pass (by omega) hout hfinal, hresult'⟩
    · rw [if_neg hlt]
      rw [UInt32.lt_iff_toNat_lt] at hlt
      exact .pure ⟨src, .done (by omega), rfl⟩

end

/-- **The merge engine is a bottom-up merge sort** of up to `2 ^ 31` elements, and ends. -/
theorem mergeSort_sound {items : Buffer β}
    (hcompare : ∀ x y, x ∈ items → y ∈ items → Sound Q E (compare x y) (answers x y))
    (hlen : items.length ≤ 2 ^ 31) {fuel : Nat} (hfuel : items.length < fuel) :
    Sound Q E (mergeSort compare fuel items) fun result => ∃ out,
      BottomUp answers 1 items out ∧ result = some out := by
  have hcount : (UInt32.ofNat items.length).toNat = items.length := by
    exact mod_eq_of_lt (by omega)
  exact widthLoop_sound hcompare hcount hlen hfuel fuel 0 1 items _ rfl (by omega) rfl
    length_replicate fun _ hx => hx

end Loops

section Comparison

variable {ω β : Type} (rt : Runtime ω β) (comparefn : Value β)

/-- The state that code leaves, with a result or an error. -/
def stateOf {ε σ α : Type} : EStateM.Result ε σ α → σ
  | .ok _ s => s
  | .error _ s => s

/-- The states that comparisons of `items` lead to. -/
inductive Called (items : Buffer β) (w : ω) : ω → Prop where
  | start : Called items w w
  | step {w' : ω} {x y : Value β} (hx : x ∈ items) (hy : y ∈ items) (h : Called items w w') :
      Called items w (stateOf (compareElements rt comparefn x y w'))

/-- From the states in `Q`, elements of `items` compare as `c` says. -/
def Answers (Q : ω → Prop) (items : Buffer β) (c : Value β → Value β → Int) : Prop :=
  ∀ x ∈ items, ∀ y ∈ items,
    Sound Q (fun _ => False) (compareElements rt comparefn x y) fun answer => answer = c x y

/-- What an answer says of `undefined`. -/
def UndefinedLoses (x y : Value β) (answer : Int) : Prop :=
  (x.isUndefined = true → y.isUndefined = false → 0 < answer) ∧
    (x.isUndefined = false → y.isUndefined = true → answer ≤ 0)

/-- A comparison with no `undefined` has its answer from the comparator or from the strings; with
one, it calls nothing. -/
theorem compareElements_loses (x y : Value β) (w : ω) :
    match compareElements rt comparefn x y w with
    | .ok answer _ => UndefinedLoses x y answer
    | .error _ _ => True := by
  cases hx : x.isUndefined with
  | true =>
    cases hy : y.isUndefined with
    | true =>
      have hrun : compareElements rt comparefn x y w = .ok 0 w := by
        rw [compareElements, hx, hy]
        rfl
      rw [hrun]
      exact ⟨fun _ h => absurd (hy.symm.trans h) (by decide),
        fun h _ => absurd (hx.symm.trans h) (by decide)⟩
    | false =>
      have hrun : compareElements rt comparefn x y w = .ok 1 w := by
        rw [compareElements, hx, hy]
        rfl
      rw [hrun]
      exact ⟨fun _ _ => Int.one_pos, fun h _ => absurd (hx.symm.trans h) (by decide)⟩
  | false =>
    cases hy : y.isUndefined with
    | true =>
      have hrun : compareElements rt comparefn x y w = .ok (-1) w := by
        rw [compareElements, hx, hy]
        rfl
      rw [hrun]
      exact ⟨fun h _ => absurd (hx.symm.trans h) (by decide), fun _ _ => by decide⟩
    | false =>
      cases compareElements rt comparefn x y w with
      | error v w' => trivial
      | ok answer w' =>
        exact ⟨fun h _ => absurd (hx.symm.trans h) (by decide),
          fun _ h => absurd (hy.symm.trans h) (by decide)⟩

theorem compareElements_sound (items : Buffer β) (w : ω) {x y : Value β} (hx : x ∈ items)
    (hy : y ∈ items) :
    Sound (Called rt comparefn items w) (fun _ => True) (compareElements rt comparefn x y)
      (UndefinedLoses x y) := by
  intro w' hw'
  have hnext := Called.step hx hy hw'
  have hloses := compareElements_loses rt comparefn x y w'
  cases hrun : compareElements rt comparefn x y w' with
  | ok answer w'' =>
    rw [hrun] at hnext hloses
    exact ⟨hloses, hnext⟩
  | error v w'' =>
    rw [hrun] at hnext
    exact ⟨trivial, hnext⟩

end Comparison

/-! ## The whole call -/

section Call

variable {ω β : Type} {rt : Runtime ω β} {comparefn : Value β} {ε σ α γ : Type}

theorem bind_ok {m : EStateM ε σ α} {f : α → EStateM ε σ γ} {s s' : σ} {a : α}
    (h : m s = .ok a s') : (m >>= f) s = f a s' := by
  change EStateM.bind m f s = _
  rw [EStateM.bind, h]

theorem bind_error {m : EStateM ε σ α} {f : α → EStateM ε σ γ} {s s' : σ}
    {e : ε} (h : m s = .error e s') : (m >>= f) s = .error e s' := by
  change EStateM.bind m f s = _
  rw [EStateM.bind, h]

/-- **The call comes to its merge**: the comparator is accepted, the receiver is the object `self`
with the state `w₀`, and its elements are read as `items`, with the state `w`. -/
structure Reads (rt : Runtime ω β) (before : ω) (thisValue comparefn : Value β) (w₀ : ω)
    (self : Value β) (items : Buffer β) (w : ω) : Prop where
  accepted : (!comparefn.isUndefined && !rt.isCallable comparefn before) = false
  toObject : rt.toObject thisValue before = .ok self w₀
  isObject : self.isUndefined = false
  read : ∃ len w₁, lengthOf rt self w₀ = .ok len w₁ ∧ readItems rt self len w₁ = .ok items w

variable {before w₀ w w' : ω} {thisValue self v : Value β} {items : Buffer β} {fuel : Nat}

section

variable (h : Reads rt before thisValue comparefn w₀ self items w)

include h

/-- A throw out of the merge is one out of the call, with nothing done in between. -/
theorem sortWith_error
    (hthrow : mergeSort (compareElements rt comparefn) fuel items w = .error v w') :
    sortWith rt fuel thisValue comparefn before = .error v w' := by
  obtain ⟨haccepted, hobject, hdefined, len, w₁, hlen, hread⟩ := h
  unfold sortWith
  rw [bind_ok (show (get : Run ω β ω) before = .ok before before from rfl), haccepted,
    if_neg (by decide), bind_ok hobject, hdefined, if_neg (by decide), sortObject, bind_ok hlen,
    bind_ok hread, bind_error hthrow]

theorem Reads.array
    (harray : rt.isArray self = true) (hchain : rt.chainHoldsIndex self w₀ = false) :
    w = w₀ ∧ items = (rt.elements self w₀).filterMap id := by
  obtain ⟨-, -, -, len, w₁, hlen, hread⟩ := h
  have hlength : lengthOf rt self w₀ = .ok (rt.elements self w₀).length w₀ := by
    rw [lengthOf, if_pos harray]
    rfl
  rw [hlength] at hlen
  cases hlen
  have hown : readItems rt self (rt.elements self w₀).length w₀ =
      .ok ((rt.elements self w₀).filterMap id) w₀ := by
    unfold readItems
    rw [bind_ok (show (get : Run ω β ω) w₀ = .ok w₀ w₀ from rfl), harray, hchain]
    rfl
  rw [hown] at hread
  cases hread
  exact ⟨rfl, rfl⟩

end

theorem Called.keeps {τ : Type} {seen : ω → τ} (hkeeps : ∀ x ∈ items, ∀ y ∈ items, ∀ s,
      seen (stateOf (compareElements rt comparefn x y s)) = seen s)
    (h : Called rt comparefn items w w') : seen w' = seen w := by
  induction h with
  | start => rfl
  | step hx hy _ ih => exact (hkeeps _ hx _ hy _).trans ih

/-- **`Array.prototype.sort` is a stable sort**, of up to `2 ^ 31` elements and for every
comparator.
Where no comparison throws, the merge ends with a permutation that has every `undefined` at the
end. Where the comparisons answer as a total preorder does, it ends with the stable sort. Where one
throws, the call throws the same, in a state that the comparisons alone have led to since the
elements were read, so with everything as it was that the comparisons leave as it is; and of an
array the elements are read with nothing run. -/
theorem sort_correct (rt : Runtime ω β) (comparefn : Value β) (items : Buffer β)
    (hlen : items.length ≤ 2 ^ 31) {fuel : Nat} (hfuel : items.length < fuel) (w : ω) :
    (∀ result w', mergeSort (compareElements rt comparefn) fuel items w = .ok result w' →
      ∃ out, result = some out ∧ out.Perm items ∧
        Segregated (fun x => x.isUndefined = true) out) ∧
    (∀ (Q : ω → Prop) (c : Value β → Value β → Int), Q w → Answers rt comparefn Q items c →
      IsConsistent c (· ∈ items) →
      ∃ out w', mergeSort (compareElements rt comparefn) fuel items w = .ok (some out) w' ∧
        StableSort c (· ∈ items) out items) ∧
    (∀ before thisValue w₀ self v w', Reads rt before thisValue comparefn w₀ self items w →
      mergeSort (compareElements rt comparefn) fuel items w = .error v w' →
      sortWith rt fuel thisValue comparefn before = .error v w' ∧
        Called rt comparefn items w w' ∧
        (rt.isArray self = true → rt.chainHoldsIndex self w₀ = false → w = w₀) ∧
        ((∀ x ∈ items, ∀ y ∈ items, ∀ s,
          rt.elements self (stateOf (compareElements rt comparefn x y s)) = rt.elements self s) →
          rt.elements self w' = rt.elements self w)) := by
  have hsound := mergeSort_sound
    (fun x y hx hy => compareElements_sound rt comparefn items w hx hy) hlen hfuel w .start
  refine ⟨fun result w' hrun => ?_, fun Q c hw hanswers hc => ?_,
    fun before thisValue w₀ self v w' hreads hthrow => ?_⟩
  · rw [hrun] at hsound
    obtain ⟨⟨out, hout, hresult⟩, -⟩ := hsound
    exact ⟨out, hresult, hout.perm,
      hout.segregated (fun x y answer h hx hy => h.1 hx (by simpa using hy))
        fun x y answer h hx hy => h.2 (by simpa using hx) hy⟩
  · have hstable := mergeSort_sound (fun x y hx hy => hanswers x hx y hy) hlen hfuel w hw
    cases hrun : mergeSort (compareElements rt comparefn) fuel items w with
    | ok result w' =>
      rw [hrun] at hstable
      obtain ⟨⟨out, hout, rfl⟩, -⟩ := hstable
      exact ⟨out, w', rfl, hout.stableSort hc fun _ hx => hx⟩
    | error v w' =>
      rw [hrun] at hstable
      exact hstable.1.elim
  · rw [hthrow] at hsound
    exact ⟨sortWith_error hreads hthrow, hsound.2,
      fun harray hchain => (hreads.array harray hchain).1, hsound.2.keeps⟩

end Call

/-- Five elements, of which two pairs compare equal and one is `undefined`. -/
def tensItems : Buffer Nat := [.other 21, .other 13, .undefined, .other 22, .other 11]

/-- A program whose objects are numbers, and whose state counts the calls. Its comparator 0 compares
their tens: a number that is negative, positive or, where the tens are equal, none at all. Its
comparator 1 throws its first argument. The object 100 is an array of the five elements, with a
hole. -/
def tens : Runtime Nat Nat where
  isCallable _ _ := true
  typeError _ := pure .undefined
  toObject v := pure v
  isArray _ := true
  call
    | .other 0, .other a, .other b => fun calls => .ok (.number
        (if a / 10 < b / 10 then .infinite true
          else if b / 10 < a / 10 then .infinite false else .nan)) (calls + 1)
    | _, x, _ => fun calls => .error x (calls + 1)
  toNumber _ := pure .nan
  toStringValue _ := pure []
  elements
    | .other 100, _ => none :: tensItems.map some
    | _, _ => []
  chainHoldsIndex _ _ := false
  arrayLikeLength _ := pure 0
  arrayLikeHasElement _ _ := pure false
  arrayLikeGetElement _ _ := pure .undefined
  elementWriteRefusal _ _ _ := .none
  indexSet _ _ _ := pure ()
  setElem _ _ _ := pure ()
  elementsConfigurable _ _ := true
  deleteElem _ _ := pure ()
  arrayLikeSetElement _ _ _ := pure ()
  arrayLikeDeleteElement _ _ := pure ()

/-- What its comparisons answer. -/
def tensOrder : Value Nat → Value Nat → Int
  | .other a, .other b => if a / 10 < b / 10 then -1 else if b / 10 < a / 10 then 1 else 0
  | .undefined, .undefined => 0
  | .undefined, _ => 1
  | _, .undefined => -1
  | _, _ => 0

theorem mem_tensItems {x : Value Nat} : x ∈ tensItems ↔
    x = .other 21 ∨ x = .other 13 ∨ x = .undefined ∨ x = .other 22 ∨ x = .other 11 := by
  simp [tensItems]

theorem tensOrder_answers : Answers tens (.other 0) (fun _ => True) tensItems tensOrder := by
  intro x hx y hy s _
  rcases mem_tensItems.mp hx with rfl | rfl | rfl | rfl | rfl <;>
    rcases mem_tensItems.mp hy with rfl | rfl | rfl | rfl | rfl <;> exact ⟨rfl, trivial⟩

theorem tensOrder_consistent : IsConsistent tensOrder (· ∈ tensItems) where
  flip := by
    intro x y hx hy
    rcases mem_tensItems.mp hx with rfl | rfl | rfl | rfl | rfl <;>
      rcases mem_tensItems.mp hy with rfl | rfl | rfl | rfl | rfl <;> decide
  trans := by
    intro x y z hx hy hz
    rcases mem_tensItems.mp hx with rfl | rfl | rfl | rfl | rfl <;>
      rcases mem_tensItems.mp hy with rfl | rfl | rfl | rfl | rfl <;>
      rcases mem_tensItems.mp hz with rfl | rfl | rfl | rfl | rfl <;> decide

/-- The array is read with nothing run. -/
theorem tens_reads : Reads tens 0 (.other 100) (.other 1) 0 (.other 100) tensItems 0 where
  accepted := rfl
  toObject := rfl
  isObject := rfl
  read := ⟨6, 0, rfl, rfl⟩

theorem tens_throws :
    mergeSort (compareElements tens (.other 1)) 6 tensItems 0 = .error (.other 21) 1 := by
  have hfirst : mergeRuns (compareElements tens (.other 1)) tensItems
      (List.replicate 5 .undefined) 0 1 2 0 = .error (.other 21) 1 := by
    rw [mergeRuns, mergeLoop]
    rfl
  rw [mergeSort, widthLoop, if_pos (by decide), passLoop, if_pos (by decide)]
  exact bind_error (bind_error hfirst)

/-- Comparator 0 gives a stable order. Comparator 1 throws the element 21 at its first call, and so
does the sort, with that one call made. -/
theorem sort_correct_tens :
    (∃ out w', mergeSort (compareElements tens (.other 0)) 6 tensItems 0 = .ok (some out) w' ∧
      StableSort tensOrder (· ∈ tensItems) out tensItems) ∧
    sortWith tens 6 (.other 100) (.other 1) 0 = .error (.other 21) 1 ∧
      Called tens (.other 1) tensItems 0 1 := by
  refine ⟨(sort_correct tens (.other 0) tensItems (by decide) (by decide) 0).2.1 (fun _ => True)
    tensOrder trivial tensOrder_answers tensOrder_consistent, ?_⟩
  obtain ⟨hthrow, hcalled, -⟩ :=
    (sort_correct tens (.other 1) tensItems (by decide) (by decide : _ < 6) 0).2.2 0 (.other 100) 0
      (.other 100) (.other 21) 1 tens_reads tens_throws
  exact ⟨hthrow, hcalled⟩

end Bronze.Sorting
