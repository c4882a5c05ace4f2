import Mathlib

/-!
# Open addressing with linear probing

A block of buckets whose length is a power of two. A bucket holds `0` when it is empty, and
otherwise a slot of some entry table, plus one. A slot is looked for from its home bucket on, one
bucket after another, until the search hits or comes to an empty bucket; it is placed in the first
empty bucket from its home on. Buckets are never emptied one at a time: a slot whose entry died
stays where it is, and the search goes past it.

Both loops take fuel. `Indexed` is the invariant under which they stop before it runs out, and
under which a search finds what was placed.

## Main results

* `Indexed.search_spec`: a search from the home of a live slot that hits comes back with a hit
* `Indexed.place_spec`: placing a fresh slot keeps the invariant
* `Indexed.mono`: slots may die
-/

namespace Bronze.LinearProbing

open List Nat Option

abbrev Buckets := List Nat

/-- The slot a search from bucket `b` comes to, and `none` for an empty bucket. The outer `none`
is a search that did not stop. -/
def search (t : Buckets) (mask : Nat) (hit : Nat → Bool) : Nat → Nat → Option (Option Nat)
  | 0, _ => none
  | fuel + 1, b =>
    if t.getD b 0 = 0 then some none
    else if hit (t.getD b 0 - 1) then some (some (t.getD b 0 - 1))
    else search t mask hit fuel ((b + 1) &&& mask)

/-- The block after `slot` was placed from bucket `b` on. -/
def place (t : Buckets) (mask slot : Nat) : Nat → Nat → Option Buckets
  | 0, _ => none
  | fuel + 1, b =>
    if t.getD b 0 = 0 then some (t.set b (slot + 1))
    else place t mask slot fuel ((b + 1) &&& mask)

/-- The block after the slots from `slot` on were placed, each of them that has a home. -/
def placeAll : List (Option Nat) → Nat → Buckets → Option Buckets
  | [], _, t => some t
  | none :: homes, slot, t => placeAll homes (slot + 1) t
  | some b :: homes, slot, t =>
    match place t (t.length - 1) slot t.length (b &&& (t.length - 1)) with
    | none => none
    | some t => placeAll homes (slot + 1) t

/-- The bucket `i` of the block, read as a ring. -/
def ring (t : Buckets) (i : Nat) : Nat := t.getD (i % t.length) 0

/-- Slot `s` is found from bucket `b` on before any empty bucket. -/
def Reaches (t : Buckets) (b s : Nat) : Prop :=
  ∃ d < t.length, ring t (b + d) = s + 1 ∧ ∀ e < d, ring t (b + e) ≠ 0

/-- The block indexes the `live` slots, each from its `home`: slots below `slots`, in `used`
buckets at most. -/
structure Indexed (t : Buckets) (home : Nat → Nat) (live : Nat → Prop) (slots used : Nat) :
    Prop where
  pow : ∃ k, t.length = 2 ^ k
  bounded : ∀ x ∈ t, x ≤ slots
  filled : t.countP (· ≠ 0) ≤ used
  reach : ∀ s, live s → Reaches t (home s) s

/-- `while (n < limit) n *= 2`, from which a block gets its length. -/
def doubleUntil (limit : Nat) : Nat → Nat → Nat
  | 0, n => n
  | fuel + 1, n => if n < limit then doubleUntil limit fuel (n * 2) else n

theorem doubleUntil_spec (limit : Nat) (fuel n : Nat) (hn : 0 < n) (hfuel : limit ≤ n + fuel) :
    limit ≤ doubleUntil limit fuel n ∧ ∃ k, doubleUntil limit fuel n = n * 2 ^ k := by
  induction fuel generalizing n with
  | zero => exact ⟨hfuel, 0, by simp [doubleUntil]⟩
  | succ fuel ih =>
    rw [doubleUntil]
    split_ifs with h
    · obtain ⟨hle, k, hk⟩ := ih (n * 2) (by omega) (by omega)
      exact ⟨hle, k + 1, by rw [hk, pow_succ, mul_assoc, mul_comm 2]⟩
    · exact ⟨by omega, 0, by simp⟩

section Ring

variable {t : Buckets} {mask b : Nat}

theorem and_mask (hpow : ∃ k, t.length = 2 ^ k) (x : Nat) :
    x &&& (t.length - 1) = x % t.length := by
  obtain ⟨k, hk⟩ := hpow
  simp [hk]

theorem ring_of_lt (h : b < t.length) : t.getD b 0 = ring t b := by
  rw [ring, mod_eq_of_lt h]

theorem ring_congr {i j : Nat} (h : i % t.length = j % t.length) : ring t i = ring t j := by
  rw [ring, ring, h]

/-- The bucket after `b`, as the mask computes it. -/
theorem ring_next (hpow : ∃ k, t.length = 2 ^ k) (d : Nat) :
    ring t (((b + 1) &&& (t.length - 1)) + d) = ring t (b + (d + 1)) := by
  apply ring_congr
  rw [and_mask hpow, mod_add_mod]
  congr 1
  omega

theorem length_pos (hpow : ∃ k, t.length = 2 ^ k) : 0 < t.length := by
  obtain ⟨k, hk⟩ := hpow
  rw [hk]
  exact Nat.two_pow_pos k

/-- A block with fewer slots in it than buckets has an empty bucket ahead of any bucket. -/
theorem exists_empty (hlt : t.countP (· ≠ 0) < t.length) (b : Nat) :
    ∃ d < t.length, ring t (b + d) = 0 := by
  have hzero : ∃ x ∈ t, x = 0 := by
    by_contra h
    have hall : t.countP (· ≠ 0) = t.length := by
      rw [countP_eq_length]
      intro x hx
      simpa using fun h0 => h ⟨x, hx, h0⟩
    omega
  obtain ⟨x, hx, rfl⟩ := hzero
  obtain ⟨i, hi, hti⟩ := getElem_of_mem hx
  -- the bucket `i` is `d` buckets ahead of `b` on the ring
  refine ⟨(i + (t.length - b % t.length)) % t.length, mod_lt _ (by omega), ?_⟩
  have hb : b % t.length < t.length := mod_lt _ (by omega)
  have hsum : (b + (i + (t.length - b % t.length)) % t.length) % t.length = i := by
    rw [add_mod_mod, ← mod_add_mod,
      show b % t.length + (i + (t.length - b % t.length)) = i + t.length by omega,
      add_mod_right, mod_eq_of_lt hi]
  rw [ring, hsum, getD_eq_getElem _ _ hi, hti]

theorem getD_set_self {i x : Nat} (h : i < t.length) : (t.set i x).getD i 0 = x := by
  simp [h]

theorem getD_set_of_ne {i j x : Nat} (h : i ≠ j) : (t.set i x).getD j 0 = t.getD j 0 := by
  simp [getElem?_set_ne h]

end Ring

section Loops

variable {t : Buckets}

theorem search_eq (hit : Nat → Bool) (hpow : ∃ k, t.length = 2 ^ k) {fuel : Nat} :
    ∀ {b d : Nat}, d < fuel → b < t.length → ring t (b + d) = 0 →
      ∃ r, search t (t.length - 1) hit fuel b = some r ∧
        (∀ s, r = some s → hit s = true ∧ ∃ e, ring t (b + e) = s + 1) ∧
        (r = none → ∃ e, ring t (b + e) = 0 ∧
          ∀ f < e, ring t (b + f) ≠ 0 ∧ hit (ring t (b + f) - 1) = false) := by
  induction fuel with
  | zero => omega
  | succ fuel ih =>
    intro b d hd hb hzero
    have hhere : t.getD b 0 = ring t (b + 0) := ring_of_lt hb
    rw [search, hhere]
    by_cases hempty : ring t (b + 0) = 0
    · rw [if_pos hempty]
      exact ⟨none, rfl, nofun, fun _ => ⟨0, hempty, nofun⟩⟩
    rw [if_neg hempty]
    cases hhit : hit (ring t (b + 0) - 1) with
    | true =>
      refine ⟨some _, rfl, ?_, nofun⟩
      rintro s ⟨rfl⟩
      exact ⟨hhit, 0, by omega⟩
    | false =>
      obtain ⟨d, rfl⟩ : ∃ d', d = d' + 1 :=
        exists_eq_succ_of_ne_zero (by rintro rfl; exact hempty hzero)
      have hnext : (b + 1) &&& (t.length - 1) < t.length := by
        rw [and_mask hpow]
        exact mod_lt _ (length_pos hpow)
      obtain ⟨r, hrun, hsome, hnone⟩ := ih (d := d) (by omega) hnext (by rwa [ring_next hpow])
      refine ⟨r, hrun, ?_, ?_⟩
      · intro s hs
        obtain ⟨hs, e, he⟩ := hsome s hs
        exact ⟨hs, e + 1, by rwa [ring_next hpow] at he⟩
      · intro hr
        obtain ⟨e, he, hbefore⟩ := hnone hr
        refine ⟨e + 1, by rwa [ring_next hpow] at he, ?_⟩
        intro f hf
        cases f with
        | zero => exact ⟨hempty, hhit⟩
        | succ f =>
          have := hbefore f (by omega)
          rwa [ring_next hpow] at this

theorem place_length {mask slot fuel b : Nat} {t t' : Buckets}
    (h : place t mask slot fuel b = some t') : t'.length = t.length := by
  induction fuel generalizing b with
  | zero => cases h
  | succ fuel ih =>
    unfold place at h
    split_ifs at h
    · obtain rfl := Option.some.inj h
      exact List.length_set
    · exact ih h

theorem place_eq (slot : Nat) (hpow : ∃ k, t.length = 2 ^ k) {fuel : Nat} :
    ∀ {b d : Nat}, d < fuel → b < t.length → ring t (b + d) = 0 →
      ∃ e ≤ d, ring t (b + e) = 0 ∧ (∀ f < e, ring t (b + f) ≠ 0) ∧
        place t (t.length - 1) slot fuel b = some (t.set ((b + e) % t.length) (slot + 1)) := by
  induction fuel with
  | zero => omega
  | succ fuel ih =>
    intro b d hd hb hzero
    have hhere : t.getD b 0 = ring t (b + 0) := ring_of_lt hb
    rw [place, hhere]
    by_cases hempty : ring t (b + 0) = 0
    · refine ⟨0, zero_le d, hempty, nofun, ?_⟩
      rw [if_pos hempty]
      simp [mod_eq_of_lt hb]
    rw [if_neg hempty]
    obtain ⟨d, rfl⟩ : ∃ d', d = d' + 1 :=
      exists_eq_succ_of_ne_zero (by rintro rfl; exact hempty hzero)
    have hnext : (b + 1) &&& (t.length - 1) < t.length := by
      rw [and_mask hpow]
      exact mod_lt _ (length_pos hpow)
    obtain ⟨e, he, hz, hbefore, hrun⟩ := ih (d := d) (by omega) hnext (by rwa [ring_next hpow])
    refine ⟨e + 1, by omega, by rwa [ring_next hpow] at hz, ?_, ?_⟩
    · intro f hf
      cases f with
      | zero => exact hempty
      | succ f =>
        have := hbefore f (by omega)
        rwa [ring_next hpow] at this
    · rw [hrun, and_mask hpow, mod_add_mod]
      congr 3
      omega

end Loops

namespace Indexed

variable {t : Buckets} {home : Nat → Nat} {live : Nat → Prop} {slots used : Nat}

theorem empty {n : Nat} (hpow : ∃ k, n = 2 ^ k) (home : Nat → Nat) :
    Indexed (replicate n 0) home (fun _ => False) 0 0 where
  pow := by simpa using hpow
  bounded x hx := by simp [(mem_replicate.mp hx).2]
  filled := by simp
  reach _ h := h.elim

section

variable (h : Indexed t home live slots used)

include h

theorem mono {live' : Nat → Prop} {home' : Nat → Nat} {slots' used' : Nat}
    (hlive : ∀ s, live' s → live s ∧ home' s = home s)
    (hslots : slots ≤ slots') (hused : used ≤ used') : Indexed t home' live' slots' used' where
  pow := h.pow
  bounded x hx := (h.bounded x hx).trans hslots
  filled := h.filled.trans hused
  reach s hs := (hlive s hs).2 ▸ h.reach s (hlive s hs).1

theorem ring_le (i : Nat) : ring t i ≤ slots := by
  have hi : i % t.length < t.length := mod_lt _ (length_pos h.pow)
  rw [ring, getD_eq_getElem _ _ hi]
  exact h.bounded _ (getElem_mem hi)

theorem lt_slots {s : Nat} (hs : live s) : s < slots := by
  obtain ⟨d, -, hd, -⟩ := h.reach s hs
  have := h.ring_le (home s + d)
  omega

/-- **A search stops, and finds what is there**: it comes back with a slot that hits, and it comes
back empty only when no live slot with that home hits. -/
theorem search_spec (hroom : used < t.length) (hit : Nat → Bool) (b : Nat) :
    ∃ r, search t (t.length - 1) hit t.length (b &&& (t.length - 1)) = some r ∧
      (∀ s, r = some s → hit s = true ∧ s < slots) ∧
      (r = none → ∀ s, live s → home s = b → hit s = false) := by
  have hstart : b &&& (t.length - 1) = b % t.length := and_mask h.pow b
  have hring : ∀ d, ring t (b % t.length + d) = ring t (b + d) := fun d =>
    ring_congr (mod_add_mod ..)
  obtain ⟨d, hd, hzero⟩ := exists_empty (h.filled.trans_lt hroom) b
  obtain ⟨r, hrun, hsome, hnone⟩ := search_eq hit h.pow hd
    (mod_lt b (length_pos h.pow)) ((hring d).trans hzero)
  refine ⟨r, by rw [hstart, hrun], ?_, ?_⟩
  · intro s hs
    obtain ⟨hhit, e, he⟩ := hsome s hs
    have := h.ring_le (b % t.length + e)
    exact ⟨hhit, by omega⟩
  · rintro hr s hs rfl
    obtain ⟨e, he, hbefore⟩ := hnone hr
    obtain ⟨d', -, hd', hpath⟩ := h.reach s hs
    rw [hring] at he
    -- the slot lies before the empty bucket the search stopped at
    have hlt : d' < e := by
      rcases lt_trichotomy d' e with hlt | rfl | hgt
      · exact hlt
      · omega
      · exact absurd he (hpath e hgt)
    have hmiss := (hbefore d' hlt).2
    rwa [hring, hd'] at hmiss

/-- **Placing a fresh slot** stops, keeps every live slot within reach and brings the new one
within reach of its home. -/
theorem place_spec (hroom : used < t.length)
    {slot b : Nat} (hslot : slots ≤ slot) (home' : Nat → Nat) (live' : Nat → Prop)
    (hlive : ∀ s, live' s → (live s ∧ home' s = home s) ∨ (s = slot ∧ home' s = b)) :
    ∃ t', place t (t.length - 1) slot t.length (b &&& (t.length - 1)) = some t' ∧
      t'.length = t.length ∧ Indexed t' home' live' (slot + 1) (used + 1) := by
  have hstart : b &&& (t.length - 1) = b % t.length := and_mask h.pow b
  have hring : ∀ d, ring t (b % t.length + d) = ring t (b + d) := fun d =>
    ring_congr (mod_add_mod ..)
  have hpos := length_pos h.pow
  obtain ⟨d, hd, hzero⟩ := exists_empty (h.filled.trans_lt hroom) b
  obtain ⟨e, hed, hz, hbefore, hrun⟩ := place_eq slot h.pow hd (mod_lt b hpos)
    ((hring d).trans hzero)
  rw [mod_add_mod] at hrun
  rw [hring] at hz
  have hi : (b + e) % t.length < t.length := mod_lt _ hpos
  have hlen : (t.set ((b + e) % t.length) (slot + 1)).length = t.length := length_set
  -- a bucket that was not empty is as it was
  have hkeep : ∀ i, ring t i ≠ 0 → ring (t.set ((b + e) % t.length) (slot + 1)) i = ring t i := by
    intro i hne
    have : (b + e) % t.length ≠ i % t.length := by
      intro heq
      rw [ring_congr heq.symm] at hne
      exact hne hz
    rw [ring, hlen, getD_set_of_ne this, ring]
  refine ⟨_, by rw [hstart, hrun], hlen, ?_, ?_, ?_, ?_⟩
  · rw [hlen]
    exact h.pow
  · intro x hx
    rcases mem_or_eq_of_mem_set hx with hx | rfl
    · exact (h.bounded x hx).trans (by omega)
    · exact le_rfl
  · have hcount := countP_set (p := (· ≠ 0)) (l := t) (a := slot + 1) hi
    have := h.filled
    rw [hcount]
    split_ifs <;> omega
  · intro s hs
    rcases hlive s hs with ⟨hold, hhome⟩ | ⟨rfl, hhome⟩
    · obtain ⟨d', hd', hsd, hpath⟩ := h.reach s hold
      rw [hhome]
      refine ⟨d', by rwa [hlen], ?_, ?_⟩
      · rw [hkeep _ (by omega), hsd]
      · intro f hf
        rw [hkeep _ (hpath f hf)]
        exact hpath f hf
    · rw [hhome]
      refine ⟨e, by rw [hlen]; omega, ?_, ?_⟩
      · rw [ring, hlen, getD_set_self hi]
      · intro f hf
        have := hbefore f hf
        rw [hring] at this
        rwa [hkeep _ this]

end

/-- **Placing the slots of a list** indexes those of them that have a home. -/
theorem placeAll_spec {homes : List (Option Nat)} {done : Nat} (h : Indexed t home live done used)
    (hroom : used + homes.countP isSome < t.length) (home' : Nat → Nat) (live' : Nat → Prop)
    (hlive : ∀ s, live' s → (live s ∧ home' s = home s) ∨
      ∃ i, s = done + i ∧ homes[i]? = some (some (home' s))) :
    ∃ t', placeAll homes done t = some t' ∧ t'.length = t.length ∧
      Indexed t' home' live' (done + homes.length) (used + homes.countP isSome) := by
  induction homes generalizing t done used live home with
  | nil =>
    refine ⟨t, rfl, rfl, h.mono (fun s hs => ?_) le_rfl le_rfl⟩
    rcases hlive s hs with hold | ⟨i, -, hi⟩
    · exact hold
    · simp at hi
  | cons b homes ih =>
    cases b with
    | none =>
      have hkeep : Indexed t home live (done + 1) used :=
        h.mono (fun s hs => ⟨hs, rfl⟩) (le_succ done) le_rfl
      obtain ⟨t', hrun, hlen, ht'⟩ := ih hkeep (by simpa using hroom) (fun s hs => by
        rcases hlive s hs with hold | ⟨i, rfl, hi⟩
        · exact .inl hold
        · cases i with
          | zero => simp at hi
          | succ i => exact .inr ⟨i, by omega, by simpa using hi⟩)
      refine ⟨t', hrun, hlen, ht'.mono (fun s hs => ⟨hs, rfl⟩) ?_ ?_⟩
      · rw [length_cons]
        omega
      · simp
    | some b =>
      have hcount : (some b :: homes).countP isSome = homes.countP isSome + 1 := by simp
      -- the slot that is placed lies past those that were
      obtain ⟨t', hrun, hlen, ht'⟩ := h.place_spec (b := b) (by omega) le_rfl
        (fun s => if s = done then b else home s) (fun s => live s ∨ s = done) (by
          rintro s (hs | rfl)
          · exact .inl ⟨hs, if_neg (h.lt_slots hs).ne⟩
          · exact .inr ⟨rfl, if_pos rfl⟩)
      obtain ⟨t'', hrun', hlen', ht''⟩ := ih ht' (by omega) (fun s hs => by
        rcases hlive s hs with ⟨hold, hhome⟩ | ⟨i, rfl, hi⟩
        · exact .inl ⟨.inl hold, by rw [hhome, if_neg (h.lt_slots hold).ne]⟩
        · cases i with
          | zero =>
            rw [getElem?_cons_zero, some.injEq, some.injEq] at hi
            exact .inl ⟨.inr rfl, by rw [← hi]; exact (if_pos rfl).symm⟩
          | succ i => exact .inr ⟨i, by omega, by simpa using hi⟩)
      refine ⟨t'', ?_, hlen'.trans hlen, ht''.mono (fun s hs => ⟨hs, rfl⟩) ?_ ?_⟩
      · rw [placeAll, hrun]
        exact hrun'
      · rw [length_cons]
        omega
      · omega

end Indexed

end Bronze.LinearProbing
