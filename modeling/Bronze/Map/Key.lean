import Bronze.BigNum.Arithmetic

/-!
# Keys, their hash and the heap they live in

The values a `Map` takes for keys, SameValueZero on them and the hash of `src/runtime/map.cpp`. An
object and a symbol are compared and hashed by their address, and a collection moves young
objects: `Heap` gives each live object its address, and `Heap.Collects` is what the collector
promises about two heaps it runs between. The collector itself is a parameter.

A string and a BigInt are their contents, since nothing here looks at their address. A double is
its bits.

## Main results

* `sameValueZero_iff`: on live keys SameValueZero is equality of canonical keys
* `hashKey_congr`: keys with one canonical key have one hash
* `hashKey_keeps`: a hash survives collections that could not move the key
-/

namespace Bronze.Collections

open Option

/-- The identity of a heap object, which no collection changes. -/
abbrev ObjectId := Nat

/-- The heap as a hash table sees it. -/
structure Heap where
  live : ObjectId → Prop
  address : ObjectId → BitVec 48
  /-- `Heap::is_movable`. -/
  isMovable : ObjectId → Bool
  /-- `Heap::relocation_epoch`. -/
  relocationEpoch : Nat
  /-- Allocations so far. -/
  allocations : Nat
  /-- Two live objects have two addresses. -/
  address_inj : ∀ {o o'}, live o → live o' → address o = address o' → o = o'

/-- What a collection keeps: the objects it is given as roots, the address of an old object, and
every address while the relocation epoch stands. -/
structure Heap.Collects (roots : List ObjectId) (h h' : Heap) : Prop where
  live : ∀ o ∈ roots, h.live o → h'.live o
  old : ∀ o, h.live o → h'.live o → h.isMovable o = false →
    h'.isMovable o = false ∧ h'.address o = h.address o
  epoch_le : h.relocationEpoch ≤ h'.relocationEpoch
  moved : h'.relocationEpoch = h.relocationEpoch → ∀ o, h.live o → h'.live o →
    h'.address o = h.address o

/-- A collector: the heap after an allocation, which may have collected first. -/
structure Collector where
  run : List ObjectId → Heap → Heap
  collects : ∀ roots h, Heap.Collects roots h (run roots h)

theorem Heap.Collects.refl (roots : List ObjectId) (h : Heap) : Heap.Collects roots h h where
  live _ _ ho := ho
  old _ _ _ ho := ⟨ho, rfl⟩
  epoch_le := le_rfl
  moved _ _ _ _ := rfl

/-- What leaves an operation early. -/
inductive Exit where
  /-- `std::bad_alloc`: a block of so many bytes does not fit a header's size field. -/
  | badAlloc (total : Nat)
  /-- A probe that does not stop. -/
  | diverges
  deriving DecidableEq, Repr

/-- `sizeof(HeapObjectHeader)`. -/
def kHeaderSize : Nat := 8

/-- `Heap::allocate`, for `bytes` bytes of payload. -/
def allocate (gc : Collector) (roots : List ObjectId) (bytes : Nat) (h : Heap) :
    Except Exit Heap :=
  let total := (kHeaderSize + bytes + 7) / 8 * 8
  if total > 0xFFFFFFFF then .error (.badAlloc total)
  else .ok (gc.run roots { h with allocations := h.allocations + 1 })

theorem allocate_spec {gc : Collector} {roots : List ObjectId} {bytes : Nat} {h h' : Heap}
    (hrun : allocate gc roots bytes h = .ok h') :
    Heap.Collects roots h h' ∧ bytes ≤ 0xFFFFFFFF := by
  unfold allocate kHeaderSize at hrun
  dsimp only at hrun
  split_ifs at hrun with hsize
  cases hrun
  have hc := gc.collects roots { h with allocations := h.allocations + 1 }
  exact ⟨⟨hc.live, hc.old, hc.epoch_le, hc.moved⟩, by omega⟩

/-- A value a program can use for a key. -/
inductive Value where
  | number (bits : UInt64)
  | string (chars : List UInt16)
  | bigint (n : {n : BigNum // n.Canonical})
  | object (o : ObjectId)
  | symbol (o : ObjectId)
  | bool (b : Bool)
  | null
  | undefined
  deriving DecidableEq

/-- The heap object a key is hashed by the address of. -/
def Value.identity : Value → Option ObjectId
  | .object o | .symbol o => some o
  | _ => none

/-- The key is no object the heap has let go of. -/
def Value.Live (h : Heap) (v : Value) : Prop := ∀ o ∈ v.identity, h.live o

def keyMayMove (h : Heap) (key : Value) : Bool := key.identity.any h.isMovable

/-- `std::isnan` of the double with these bits. -/
def isNaN (bits : UInt64) : Bool := bits &&& 0x7FFFFFFFFFFFFFFF > 0x7FF0000000000000

/-- The double with these bits is a zero. -/
def isZero (bits : UInt64) : Bool := bits &&& 0x7FFFFFFFFFFFFFFF = 0

def doubleEq (x y : UInt64) : Bool :=
  !isNaN x && !isNaN y && (x = y || isZero x && isZero y)

/-- `Value::tag` and `Value::payload` of a value that is no number, no string and no BigInt. -/
def tagAndPayload (h : Heap) : Value → Option (Nat × BitVec 48)
  | .object o => some (0xFFF1, h.address o)
  | .symbol o => some (0xFFF8, h.address o)
  | .bool b => some (0xFFF4, if b then 1 else 0)
  | .null => some (0xFFF5, 0)
  | .undefined => some (0xFFF6, 0)
  | _ => none

/-- `Value::rawBits` of such a value: the tag, and the payload below it. -/
def rawBits (h : Heap) (v : Value) : Option Nat :=
  (tagAndPayload h v).map fun p => p.1 * 2 ^ 48 + p.2.toNat

/-- `sameValueZero`. Values of two kinds differ in their tag bits. -/
def sameValueZero (h : Heap) : Value → Value → Bool
  | .number x, .number y => if isNaN x && isNaN y then true else doubleEq x y
  | .string s, .string t => s = t
  | .bigint m, .bigint n => BigNum.compare m n = 0
  | a, b =>
    match rawBits h a, rawBits h b with
    | some x, some y => x = y
    | _, _ => false

def mix64 (x : UInt64) : UInt32 :=
  let x := x ^^^ (x >>> 30)
  let x := x * 0xBF58476D1CE4E5B9
  let x := x ^^^ (x >>> 27)
  let x := x * 0x94D049BB133111EB
  let x := x ^^^ (x >>> 31)
  x.toUInt32

def stringHash (chars : List UInt16) : UInt32 :=
  let step (h : UInt32) (u : UInt16) : UInt32 :=
    let h := (h ^^^ (u &&& 0xFF).toUInt32) * 0x01000193
    (h ^^^ (u >>> 8).toUInt32) * 0x01000193
  chars.foldl step 0x811c9dc5 &&& 0xFFFFFFFC

def kCanonicalNaNBits : UInt64 := 0x7FF8000000000000

def hashKey (h : Heap) : Value → UInt32
  | .number d =>
    let d := if isZero d then 0 else d
    if isNaN d then mix64 kCanonicalNaNBits else mix64 d
  | .string s => mix64 (stringHash s).toUInt64
  | .bigint n =>
    let acc : UInt64 := n.1.negative.toUInt64
    mix64 (n.1.mag.foldl (fun acc limb => (mix64 (acc ^^^ limb.toUInt64)).toUInt64) acc)
  | v => mix64 (UInt64.ofNat ((rawBits h v).getD 0))

/-! ## SameValueZero is equality of canonical keys -/

/-- One double for the two zeroes, and one for every NaN. -/
def canonicalBits (d : UInt64) : UInt64 :=
  if isZero d then 0 else if isNaN d then kCanonicalNaNBits else d

/-- The key that stands for every key it is SameValueZero-equal to. -/
def Value.canonical : Value → Value
  | .number d => .number (canonicalBits d)
  | v => v

theorem not_isNaN_of_isZero {d : UInt64} (h : isZero d = true) : isNaN d = false := by
  simp only [isZero, isNaN, decide_eq_true_eq] at h ⊢
  rw [h]
  decide

theorem canonicalBits_eq_zero {d : UInt64} : canonicalBits d = 0 ↔ isZero d = true := by
  unfold canonicalBits
  split_ifs with h₁ h₂
  · simp [h₁]
  · simp [h₁, kCanonicalNaNBits]
  · constructor
    · rintro rfl
      exact absurd (by decide) h₁
    · intro h
      exact absurd h h₁

theorem canonicalBits_isNaN (d : UInt64) : isNaN (canonicalBits d) = isNaN d := by
  unfold canonicalBits
  split_ifs with h₁ h₂
  · rw [not_isNaN_of_isZero h₁]
    decide
  · rw [h₂]
    decide
  · rfl

theorem sameNumber_iff (x y : UInt64) :
    (if isNaN x && isNaN y then true else doubleEq x y) = true ↔
      canonicalBits x = canonicalBits y := by
  cases hx : isNaN x with
  | true =>
    have hzx : isZero x = false := by
      by_contra h
      rw [Bool.not_eq_false] at h
      rw [not_isNaN_of_isZero h] at hx
      cases hx
    cases hy : isNaN y with
    | true =>
      have hzy : isZero y = false := by
        by_contra h
        rw [Bool.not_eq_false] at h
        rw [not_isNaN_of_isZero h] at hy
        cases hy
      simp [canonicalBits, hx, hy, hzx, hzy]
    | false =>
      simp only [Bool.and_false, Bool.false_eq_true, if_false, doubleEq, hx, Bool.not_true,
        Bool.false_and, false_iff]
      intro h
      have := canonicalBits_isNaN y
      rw [← h, canonicalBits_isNaN, hx, hy] at this
      cases this
  | false =>
    cases hy : isNaN y with
    | true =>
      simp only [Bool.false_eq_true, if_false, doubleEq, hy, Bool.not_true, Bool.and_false,
        Bool.false_and, false_iff]
      intro h
      have := canonicalBits_isNaN y
      rw [← h, canonicalBits_isNaN, hx, hy] at this
      cases this
    | false =>
      simp only [Bool.and_self, Bool.false_eq_true, if_false, doubleEq, hx, hy, Bool.not_false,
        Bool.true_and, Bool.or_eq_true, decide_eq_true_eq, Bool.and_eq_true]
      constructor
      · rintro (rfl | ⟨hzx, hzy⟩)
        · rfl
        · rw [canonicalBits_eq_zero.mpr hzx, canonicalBits_eq_zero.mpr hzy]
      · intro h
        by_cases hzx : isZero x = true
        · exact .inr ⟨hzx, canonicalBits_eq_zero.mp (h ▸ canonicalBits_eq_zero.mpr hzx)⟩
        · by_cases hzy : isZero y = true
          · exact .inr ⟨canonicalBits_eq_zero.mp (h.trans (canonicalBits_eq_zero.mpr hzy)), hzy⟩
          · simp only [canonicalBits, hzx, hzy, hx, hy] at h
            exact .inl h

theorem sameBigInt_iff (m n : {n : BigNum // n.Canonical}) : BigNum.compare m n = 0 ↔ m = n := by
  rw [BigNum.compare_eq m.2 n.2, Int.sign_eq_zero_iff_zero, sub_eq_zero,
    BigNum.toInt_inj m.2 n.2, Subtype.ext_iff]

section Identity

variable {h : Heap} {a b : Value}

theorem tagAndPayload_of_rawBits {x : Nat} (hx : rawBits h a = some x)
    (hy : rawBits h b = some x) : ∃ p, tagAndPayload h a = some p ∧ tagAndPayload h b = some p := by
  obtain ⟨⟨t, p⟩, hp, hxp⟩ := map_eq_some_iff.mp hx
  obtain ⟨⟨u, q⟩, hq, hxq⟩ := map_eq_some_iff.mp hy
  have ht : t = u := by
    omega
  have hpq : p = q := BitVec.eq_of_toNat_eq (by dsimp only at hxp hxq; omega)
  subst ht hpq
  exact ⟨_, hp, hq⟩

theorem tagAndPayload_inj (ha : a.Live h) (hb : b.Live h) {p : Nat × BitVec 48}
    (hp : tagAndPayload h a = some p) (hq : tagAndPayload h b = some p) : a = b := by
  have heq := hp.trans hq.symm
  cases a with
  | object o =>
    cases b with
    | object o' =>
      simp only [tagAndPayload, some.injEq, Prod.mk.injEq, true_and] at heq
      rw [h.address_inj (ha o rfl) (hb o' rfl) heq]
    | _ => simp [tagAndPayload] at heq
  | symbol o =>
    cases b with
    | symbol o' =>
      simp only [tagAndPayload, some.injEq, Prod.mk.injEq, true_and] at heq
      rw [h.address_inj (ha o rfl) (hb o' rfl) heq]
    | _ => simp [tagAndPayload] at heq
  | bool c =>
    cases b with
    | bool d => cases c <;> cases d <;> simp [tagAndPayload] at heq ⊢
    | _ => simp [tagAndPayload] at heq
  | null => cases b <;> simp [tagAndPayload] at heq ⊢
  | undefined => cases b <;> simp [tagAndPayload] at heq ⊢
  | number | string | bigint => cases hp

theorem sameIdentity_iff (ha : a.Live h) (hb : b.Live h) (hsome : (tagAndPayload h a).isSome) :
    (match rawBits h a, rawBits h b with
      | some x, some y => decide (x = y)
      | _, _ => false) = true ↔ a = b := by
  obtain ⟨p, hp⟩ := isSome_iff_exists.mp hsome
  have hx : rawBits h a = some (p.1 * 2 ^ 48 + p.2.toNat) := by rw [rawBits, hp]; rfl
  rw [hx]
  constructor
  · intro heq
    cases hy : rawBits h b with
    | none => simp [hy] at heq
    | some y =>
      rw [hy, decide_eq_true_eq] at heq
      obtain ⟨q, hq, hq'⟩ := tagAndPayload_of_rawBits hx (heq ▸ hy)
      exact tagAndPayload_inj ha hb hq hq'
  · rintro rfl
    simp [hx]

/-- **SameValueZero is equality of canonical keys**, on keys the heap has not let go of. -/
theorem sameValueZero_iff (ha : a.Live h) (hb : b.Live h) :
    sameValueZero h a b = true ↔ a.canonical = b.canonical := by
  cases a with
  | number x =>
    cases b with
    | number y =>
      rw [sameValueZero, sameNumber_iff]
      simp [Value.canonical]
    | _ => simp [sameValueZero, rawBits, tagAndPayload, Value.canonical]
  | string s =>
    cases b with
    | string t => simp [sameValueZero, Value.canonical]
    | _ => simp [sameValueZero, rawBits, tagAndPayload, Value.canonical]
  | bigint m =>
    cases b with
    | bigint n => simp [sameValueZero, Value.canonical, sameBigInt_iff]
    | _ => simp [sameValueZero, rawBits, tagAndPayload, Value.canonical]
  | object | symbol | bool | null | undefined =>
    have hc : b.canonical = b ∨ ∃ d, b = .number d := by cases b <;> simp [Value.canonical]
    rcases hc with hc | ⟨d, rfl⟩
    · rw [hc, Value.canonical]
      · exact sameIdentity_iff ha hb rfl
      · simp
    · simp [sameValueZero, rawBits, tagAndPayload, Value.canonical]

theorem hashKey_canonical (h : Heap) (a : Value) : hashKey h a.canonical = hashKey h a := by
  cases a with
  | number d =>
    have hz : isZero kCanonicalNaNBits = false := by decide
    have hn : isNaN kCanonicalNaNBits = true := by decide
    simp only [Value.canonical, hashKey, canonicalBits]
    by_cases h₁ : isZero d = true
    · simp [h₁]
    · by_cases h₂ : isNaN d = true
      · simp [h₁, h₂, hz]
      · simp [h₁, h₂]
  | _ => rfl

theorem hashKey_congr (hab : a.canonical = b.canonical) : hashKey h a = hashKey h b := by
  rw [← hashKey_canonical, hab, hashKey_canonical]

end Identity

/-- What a stretch of a run keeps of the objects in `roots`, over any number of collections. -/
structure Heap.Keeps (roots : List ObjectId) (h h' : Heap) : Prop where
  live : ∀ o ∈ roots, h.live o → h'.live o
  old : ∀ o ∈ roots, h.live o → h.isMovable o = false →
    h'.isMovable o = false ∧ h'.address o = h.address o
  epoch_le : h.relocationEpoch ≤ h'.relocationEpoch
  moved : h'.relocationEpoch = h.relocationEpoch → ∀ o ∈ roots, h.live o →
    h'.address o = h.address o

namespace Heap.Keeps

variable {roots roots' : List ObjectId} {h h' h'' : Heap}

theorem refl (roots : List ObjectId) (h : Heap) : Keeps roots h h where
  live _ _ ho := ho
  old _ _ _ ho := ⟨ho, rfl⟩
  epoch_le := le_rfl
  moved _ _ _ _ := rfl

theorem mono (hk : Keeps roots h h') (hsub : roots' ⊆ roots) : Keeps roots' h h' where
  live o ho := hk.live o (hsub ho)
  old o ho := hk.old o (hsub ho)
  epoch_le := hk.epoch_le
  moved he o ho := hk.moved he o (hsub ho)

theorem trans (hk : Keeps roots h h') (hk' : Keeps roots h' h'') : Keeps roots h h'' where
  live o ho hlive := hk'.live o ho (hk.live o ho hlive)
  old o ho hlive hold := by
    obtain ⟨hold', haddr⟩ := hk.old o ho hlive hold
    obtain ⟨hold'', haddr'⟩ := hk'.old o ho (hk.live o ho hlive) hold'
    exact ⟨hold'', haddr'.trans haddr⟩
  epoch_le := hk.epoch_le.trans hk'.epoch_le
  moved he o ho hlive := by
    -- the epoch only advances, so it stood still in each of the two stretches
    have hle := hk.epoch_le
    have hle' := hk'.epoch_le
    rw [hk'.moved (by omega) o ho (hk.live o ho hlive), hk.moved (by omega) o ho hlive]

theorem of_collects (hc : Heap.Collects roots h h') (hsub : roots' ⊆ roots) :
    Keeps roots' h h' where
  live o ho := hc.live o (hsub ho)
  old o ho hlive := hc.old o hlive (hc.live o (hsub ho) hlive)
  epoch_le := hc.epoch_le
  moved he o ho hlive := hc.moved he o hlive (hc.live o (hsub ho) hlive)

end Heap.Keeps

section Keep

variable {roots : List ObjectId} {h h' : Heap} {v : Value}

theorem hashKey_of_address (haddr : ∀ o ∈ v.identity, h'.address o = h.address o) :
    hashKey h' v = hashKey h v := by
  have hraw : tagAndPayload h' v = tagAndPayload h v := by
    cases v with
    | object o | symbol o => simp [tagAndPayload, haddr o rfl]
    | _ => rfl
  cases v with
  | number | string | bigint => rfl
  | object | symbol | bool | null | undefined => simp [hashKey, rawBits, hraw]

theorem isMovable_of_keyMayMove {o : ObjectId} (ho : o ∈ v.identity)
    (hold : keyMayMove h v = false) : h.isMovable o = false := by
  rw [keyMayMove, mem_def.mp ho] at hold
  exact hold

variable (hk : Heap.Keeps roots h h')

include hk

theorem hashKey_keeps (hroot : ∀ o ∈ v.identity, o ∈ roots)
    (hv : v.Live h) (hstays : h'.relocationEpoch = h.relocationEpoch ∨ keyMayMove h v = false) :
    hashKey h' v = hashKey h v := by
  apply hashKey_of_address
  intro o ho
  rcases hstays with hepoch | hold
  · exact hk.moved hepoch o (hroot o ho) (hv o ho)
  · exact (hk.old o (hroot o ho) (hv o ho) (isMovable_of_keyMayMove ho hold)).2

theorem keyMayMove_keeps (hroot : ∀ o ∈ v.identity, o ∈ roots)
    (hv : v.Live h) (hold : keyMayMove h v = false) : keyMayMove h' v = false := by
  cases hid : v.identity with
  | none => simp [keyMayMove, hid]
  | some o =>
    have hmov := isMovable_of_keyMayMove hid hold
    rw [keyMayMove, hid]
    exact (hk.old o (hroot o hid) (hv o hid) hmov).1

theorem Value.Live.keeps (hv : v.Live h) (hroot : ∀ o ∈ v.identity, o ∈ roots) : v.Live h' :=
  fun o ho => hk.live o (hroot o ho) (hv o ho)

end Keep

end Bronze.Collections
