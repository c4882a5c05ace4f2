import Bronze.Wpo.Value

/-!
# The values as a join semilattice

Up to `operator==` the values are a join semilattice, and `join` and `addObj` lose nothing of what
their operands stand for. So does `addPrims`, unless it adds strings by kind to a value that is one
key: the key stays, and the value is said not to have changed.

## Main results

* `join_grows`, `addObj_grows`, `addPrims_grows_iff`: the steps
* `build_exact_iff`: the values are a semilattice with a sound meaning as long as no strings are
  added by kind to one key
-/

namespace Bronze.Wpo

/-- An operation lets a value keep what it stood for, takes in the operand, and tells whether it
has changed. -/
structure Grows (before after : AVal) (changed : Bool) (operand : Concrete → Prop) : Prop where
  keeps : ∀ c, before.Describes c → after.Describes c
  takes : ∀ c, operand c → after.Describes c
  tells : changed = true ↔ ¬after.Same before

/-- Two values and a third are joined as in a semilattice. -/
structure Laws (a b c : AVal) : Prop where
  idempotent : (a.join a).1.Same a
  commutative : (a.join b).1.Same (b.join a).1
  associative : ((a.join b).1.join c).1.Same (a.join (b.join c).1).1

namespace AVal

variable {v w : AVal}

theorem join_topObj (v w : AVal) : (v.join w).1.topObj = (v.topObj || w.topObj) := rfl

theorem joinKey_of_not (hv : ¬Has v.prims kStr) (hw : Has w.prims kStr) :
    v.joinKey w = (w.strKey, true) := by
  simp [joinKey, hw, hv]

theorem joinKey_of_not_right (hw : ¬Has w.prims kStr) : v.joinKey w = (v.strKey, false) := by
  rw [joinKey, if_neg hw]

theorem joinKey_of_has (hv : Has v.prims kStr) (hw : Has w.prims kStr) :
    (v.joinKey w).1 = (if v.strKey = w.strKey then v.strKey else kAnyStr) ∧
      ((v.joinKey w).2 = true ↔ (v.joinKey w).1 ≠ v.strKey) := by
  rw [joinKey, if_pos hw, if_neg (not_not.mpr hv)]
  by_cases heq : v.strKey = w.strKey
  · rw [if_neg fun h => h.1 heq, if_pos heq]
    simp
  · by_cases hany : v.strKey = kAnyStr
    · rw [if_neg fun h => h.2 hany]
      simp [hany]
    · rw [if_pos ⟨heq, hany⟩, if_neg heq]
      exact ⟨rfl, iff_of_true rfl (Ne.symm hany)⟩

theorem join_strKey_of_not (hv : ¬Has v.prims kStr) (hw : Has w.prims kStr) :
    (v.join w).1.strKey = w.strKey := congrArg Prod.fst (joinKey_of_not hv hw)

theorem join_strKey_of_not_right (hw : ¬Has w.prims kStr) : (v.join w).1.strKey = v.strKey :=
  congrArg Prod.fst (joinKey_of_not_right hw)

theorem join_strKey (hv : Has v.prims kStr) (hw : Has w.prims kStr) :
    (v.join w).1.strKey = if v.strKey = w.strKey then v.strKey else kAnyStr :=
  (joinKey_of_has hv hw).1

variable {c : Concrete} {k : UInt16}

theorem join_describes_left (h : v.Describes c) : (v.join w).1.Describes c := by
  cases c with
  | string key enumerated =>
    obtain ⟨hstr, hkey, hother⟩ := h
    refine ⟨has_or.mpr (.inl hstr), ?_, hother.imp_right fun h => has_or.mpr (.inl h)⟩
    by_cases hw : Has w.prims kStr
    · rw [join_strKey hstr hw]
      split_ifs
      · exact hkey
      · exact .inl rfl
    · rw [join_strKey_of_not_right hw]
      exact hkey
  | tracked id escaped =>
    refine h.imp (fun hid => ?_) fun ⟨hescaped, htop⟩ => ⟨hescaped, ?_⟩
    · exact SortedSet.mem_unionInto.mpr (.inl hid)
    · simp [join_topObj, htop]
  | untracked =>
    change v.topObj = true at h
    change (v.topObj || w.topObj) = true
    simp [h]
  | undefined | null | boolean | number | symbol | bigint => exact has_or.mpr (.inl h)

theorem join_describes_right (h : w.Describes c) : (v.join w).1.Describes c := by
  cases c with
  | string key enumerated =>
    obtain ⟨hstr, hkey, hother⟩ := h
    refine ⟨has_or.mpr (.inr hstr), ?_, hother.imp_right fun h => has_or.mpr (.inr h)⟩
    by_cases hv : Has v.prims kStr
    · rw [join_strKey hv hstr]
      split_ifs with heq
      · rw [heq]
        exact hkey
      · exact .inl rfl
    · rw [join_strKey_of_not hv hstr]
      exact hkey
  | tracked id escaped =>
    refine h.imp (fun hid => ?_) fun ⟨hescaped, htop⟩ => ⟨hescaped, ?_⟩
    · exact SortedSet.mem_unionInto.mpr (.inr hid)
    · simp [join_topObj, htop]
  | untracked =>
    change w.topObj = true at h
    change (v.topObj || w.topObj) = true
    simp [h]
  | undefined | null | boolean | number | symbol | bigint => exact has_or.mpr (.inr h)

/-! ## The laws -/

theorem or_eq_left_of_has {a b : UInt16} (h : a ||| b = a) (hb : Has b k) : Has a k := by
  rw [← h]
  exact has_or.mpr (.inr hb)

/-- The key tells of a change of it, unless the kind is new and the mask tells. -/
theorem joinKey_tells (hsame : v.prims ||| w.prims = v.prims) :
    (v.joinKey w).2 = true ↔
      ¬(Has (v.prims ||| w.prims) kStr → (v.joinKey w).1 = v.strKey) := by
  by_cases hw : Has w.prims kStr
  · have hv : Has v.prims kStr := or_eq_left_of_has hsame hw
    rw [(joinKey_of_has hv hw).2, hsame]
    exact not_congr ⟨fun h _ => h, fun h => h hv⟩
  · rw [joinKey_of_not_right hw]
    simp

theorem join_tells : (v.join w).2 = true ↔ ¬(v.join w).1.Same v := by
  have hobjs : (v.objs.unionInto w.objs).2 = true ↔ (v.objs.unionInto w.objs).1 ≠ v.objs :=
    SortedSet.unionInto_grew
  have htop : (w.topObj && !v.topObj) = true ↔ (v.topObj || w.topObj) ≠ v.topObj := by
    cases v.topObj <;> cases w.topObj <;> simp
  have hvia : (w.viaEscape && !v.viaEscape) = true ↔
      (v.viaEscape || w.viaEscape) ≠ v.viaEscape := by
    cases v.viaEscape <;> cases w.viaEscape <;> simp
  have hchanged : (v.join w).2 = true ↔ (v.joinKey w).2 = true ∨
      (v.prims ||| w.prims) ≠ v.prims ∨ (v.topObj || w.topObj) ≠ v.topObj ∨
        (v.viaEscape || w.viaEscape) ≠ v.viaEscape ∨ (v.objs.unionInto w.objs).1 ≠ v.objs := by
    rw [← hobjs, ← htop, ← hvia, ← bne_iff_ne (a := v.prims ||| w.prims)]
    simp [join, or_assoc]
  by_cases hsame : v.prims ||| w.prims = v.prims
  · rw [hchanged, joinKey_tells hsame]
    constructor
    · rintro (hkey | hprims | htop | hvia | hobjs) h
      · exact hkey h.2.2.2.2
      · exact hprims h.1
      · exact htop h.2.1
      · exact hvia h.2.2.1
      · exact hobjs h.2.2.2.1
    · intro h
      by_contra hnone
      simp only [not_or, not_not] at hnone
      obtain ⟨hkey, hprims, htop, hvia, hobjs⟩ := hnone
      exact h ⟨hprims, htop, hvia, hobjs, hkey⟩
  · exact iff_of_true (hchanged.mpr (.inr (.inl hsame))) fun h => hsame h.1

theorem unionInto_comm (s t : ObjSet) : (s.unionInto t).1 = (t.unionInto s).1 := by
  refine SortedSet.ext fun a => ?_
  rw [SortedSet.mem_unionInto, SortedSet.mem_unionInto, or_comm]

theorem unionInto_assoc (s t u : ObjSet) :
    ((s.unionInto t).1.unionInto u).1 = (s.unionInto (t.unionInto u).1).1 := by
  refine SortedSet.ext fun a => ?_
  simp [SortedSet.mem_unionInto, or_assoc]

theorem unionInto_self (s : ObjSet) : (s.unionInto s).1 = s := by
  refine SortedSet.ext fun a => ?_
  simp [SortedSet.mem_unionInto]

theorem join_idempotent (v : AVal) : (v.join v).1.Same v := by
  refine ⟨UInt16.or_self, Bool.or_self _, Bool.or_self _, unionInto_self _, fun hstr => ?_⟩
  have hv : Has v.prims kStr := (has_or.mp hstr).elim id id
  simp [join_strKey hv hv]

theorem join_commutative (v w : AVal) : (v.join w).1.Same (w.join v).1 := by
  refine ⟨UInt16.or_comm .., Bool.or_comm .., Bool.or_comm .., unionInto_comm .., fun hstr => ?_⟩
  by_cases hv : Has v.prims kStr <;> by_cases hw : Has w.prims kStr
  · rw [join_strKey hv hw, join_strKey hw hv]
    by_cases heq : v.strKey = w.strKey
    · rw [if_pos heq, if_pos heq.symm, heq]
    · simp [heq, Ne.symm heq]
  · rw [join_strKey_of_not_right hw, join_strKey_of_not hw hv]
  · rw [join_strKey_of_not hv hw, join_strKey_of_not_right hv]
  · exact absurd (has_or.mp hstr) (not_or.mpr ⟨hv, hw⟩)

theorem oneKey_assoc (x y z : UInt32) :
    (if (if x = y then x else kAnyStr) = z then (if x = y then x else kAnyStr) else kAnyStr) =
      if x = (if y = z then y else kAnyStr) then x else kAnyStr := by
  by_cases hxy : x = y <;> by_cases hyz : y = z
  · simp [hxy, hyz]
  · rw [if_pos hxy, if_neg (hxy ▸ hyz)]
    split_ifs with hany
    · exact hany.symm
    · rfl
  · rw [if_neg hxy]
    split_ifs <;> rfl
  · rw [if_neg hxy]
    split_ifs with hz hx hx
    · exact hx.symm
    · rfl
    · exact hx.symm
    · rfl

theorem join_associative (a b c : AVal) : ((a.join b).1.join c).1.Same (a.join (b.join c).1).1 := by
  refine ⟨UInt16.or_assoc .., Bool.or_assoc .., Bool.or_assoc .., unionInto_assoc ..,
    fun hstr => ?_⟩
  by_cases ha : Has a.prims kStr <;> by_cases hb : Has b.prims kStr <;>
    by_cases hc : Has c.prims kStr
  · rw [join_strKey (has_or.mpr (.inl ha)) hc, join_strKey ha hb,
      join_strKey ha (has_or.mpr (.inl hb)), join_strKey hb hc]
    exact oneKey_assoc ..
  · rw [join_strKey_of_not_right hc, join_strKey ha hb, join_strKey ha (has_or.mpr (.inl hb)),
      join_strKey_of_not_right hc]
  · rw [join_strKey (has_or.mpr (.inl ha)) hc, join_strKey_of_not_right hb,
      join_strKey ha (has_or.mpr (.inr hc)), join_strKey_of_not hb hc]
  · rw [join_strKey_of_not_right hc, join_strKey_of_not_right hb,
      join_strKey_of_not_right fun h => (has_or.mp h).elim hb hc]
  · rw [join_strKey (has_or.mpr (.inr hb)) hc, join_strKey_of_not ha hb,
      join_strKey_of_not ha (has_or.mpr (.inl hb)), join_strKey hb hc]
  · rw [join_strKey_of_not_right hc, join_strKey_of_not ha hb,
      join_strKey_of_not ha (has_or.mpr (.inl hb)), join_strKey_of_not_right hc]
  · rw [join_strKey_of_not (fun h => (has_or.mp h).elim ha hb) hc,
      join_strKey_of_not ha (has_or.mpr (.inr hc)), join_strKey_of_not hb hc]
  · exact absurd ((has_or.mp hstr).imp_left has_or.mp) (by tauto)

theorem laws (a b c : AVal) : Laws a b c where
  idempotent := join_idempotent a
  commutative := join_commutative a b
  associative := join_associative a b c

theorem join_grows (v w : AVal) : Grows v (v.join w).1 (v.join w).2 w.Describes where
  keeps := fun _ => join_describes_left
  takes := fun _ => join_describes_right
  tells := join_tells

theorem addObj_grows (v : AVal) (id : ObjId) :
    Grows v (v.addObj id).1 (v.addObj id).2 (fun c => ∃ escaped, c = .tracked id escaped) where
  keeps := by
    intro c h
    cases c with
    | tracked id' escaped => exact h.imp_left fun h => SortedSet.mem_insertInto.mpr (.inl h)
    | string | untracked | undefined | null | boolean | number | symbol | bigint => exact h
  takes := by
    rintro c ⟨escaped, rfl⟩
    exact .inl (SortedSet.mem_insertInto.mpr (.inr rfl))
  tells := by
    have hgrew : (v.addObj id).2 = true ↔ (v.objs.insertInto id).1 ≠ v.objs :=
      SortedSet.insertInto_grew
    rw [hgrew]
    exact not_congr ⟨fun h => ⟨rfl, rfl, rfl, h, fun _ => rfl⟩, fun h => h.2.2.2.1⟩

/-- The mask `addPrims` adds: strings by kind may be any strings. -/
def widened (bits : UInt16) : UInt16 := if Has bits kStr then bits ||| kStrOther else bits

variable {bits : UInt16}

theorem has_widened (h : Has bits k) : Has (widened bits) k := by
  unfold widened
  split_ifs
  · exact has_or.mpr (.inl h)
  · exact h

theorem has_widened_kStr : Has (widened bits) kStr ↔ Has bits kStr := by
  refine ⟨fun h => ?_, has_widened⟩
  by_contra hnot
  rw [widened, if_neg hnot] at h
  exact hnot h

theorem has_widened_kStrOther (h : Has bits kStr) : Has (widened bits) kStrOther := by
  rw [widened, if_pos h]
  exact has_or.mpr (.inr (by decide))

theorem addPrims_eq : v.addPrims bits =
    ({ v with prims := v.prims ||| widened bits,
              strKey := if Has bits kStr ∧ ¬Has v.prims kStr then kAnyStr else v.strKey },
      decide (v.prims ||| widened bits ≠ v.prims)) := by
  have hunfold : v.addPrims bits =
      let w :=
        if Has (widened bits) kStr ∧ ¬Has v.prims kStr then { v with strKey := kAnyStr } else v
      if w.prims ||| widened bits = w.prims then (w, false)
      else ({ w with prims := w.prims ||| widened bits }, true) := rfl
  rw [hunfold]
  simp only [has_widened_kStr]
  by_cases hnew : Has bits kStr ∧ ¬Has v.prims kStr
  · simp only [if_pos hnew]
    split_ifs with hsame <;> simp [hsame]
  · simp only [if_neg hnew]
    split_ifs with hsame <;> simp [hsame]

theorem addPrims_tells : (v.addPrims bits).2 = true ↔ ¬(v.addPrims bits).1.Same v := by
  rw [addPrims_eq]
  rw [decide_eq_true_iff]
  refine not_congr ⟨fun hsame => ⟨hsame, rfl, rfl, rfl, fun hstr => if_neg fun hnew => ?_⟩,
    fun h => h.1⟩
  -- a mask that has strings had them
  exact hnew.2 (or_eq_left_of_has hsame (has_widened hnew.1))

theorem addPrims_keeps (h : v.Describes c) : (v.addPrims bits).1.Describes c := by
  rw [addPrims_eq]
  cases c with
  | string key enumerated =>
    obtain ⟨hstr, hkey, hother⟩ := h
    refine ⟨has_or.mpr (.inl hstr), ?_, hother.imp_right fun h => has_or.mpr (.inl h)⟩
    rw [if_neg fun hnew => hnew.2 hstr]
    exact hkey
  | tracked | untracked => exact h
  | undefined | null | boolean | number | symbol | bigint => exact has_or.mpr (.inl h)

/-- Primitives are added by kind as they should be, unless strings are added to one key. -/
theorem addPrims_grows_iff (v : AVal) (bits : UInt16) :
    Grows v (v.addPrims bits).1 (v.addPrims bits).2 (OfKinds bits) ↔
      ¬(Has bits kStr ∧ Has v.prims kStr ∧ v.strKey ≠ kAnyStr) := by
  constructor
  · rintro h ⟨hbits, hv, hkey⟩
    -- a string that is in no pool is not described
    have hnone := h.takes (.string none true) hbits
    rw [addPrims_eq] at hnone
    obtain ⟨-, hany | hone, -⟩ := hnone
    · dsimp only at hany
      rw [if_neg fun hnew => hnew.2 hv] at hany
      exact hkey hany
    · cases hone
  · intro hapart
    refine ⟨fun _ => addPrims_keeps, fun c hc => ?_, addPrims_tells⟩
    rw [addPrims_eq]
    cases c with
    | string key enumerated =>
      refine ⟨has_or.mpr (.inr (has_widened hc)), .inl ?_,
        .inr (has_or.mpr (.inr (has_widened_kStrOther hc)))⟩
      by_cases hv : Has v.prims kStr
      · rw [if_neg fun hnew => hnew.2 hv]
        by_contra hkey
        exact hapart ⟨hc, hv, hkey⟩
      · rw [if_pos ⟨hc, hv⟩]
    | tracked | untracked => exact absurd hc id
    | undefined | null | boolean | number | symbol | bigint =>
      exact has_or.mpr (.inr (has_widened hc))

theorem has_kAllPrims (h : k = kUndef ∨ k = kNull ∨ k = kFalse ∨ k = kTrue ∨ k = kI32 ∨
    k = kF64 ∨ k = kStr ∨ k = kSym ∨ k = kBigInt ∨ k = kStrOther) : Has kAllPrims k := by
  rcases h with rfl | rfl | rfl | rfl | rfl | rfl | rfl | rfl | rfl | rfl <;> decide

/-- The top value stands for every value that the program cannot tell from an untracked one. -/
theorem top_describes (hc : ∀ id, c ≠ .tracked id false) : top.Describes c := by
  cases c with
  | string key enumerated => exact ⟨by decide, .inl rfl, .inr (by decide)⟩
  | tracked id escaped =>
    cases escaped with
    | false => exact absurd rfl (hc id)
    | true => exact .inr ⟨rfl, rfl⟩
  | untracked => rfl
  | boolean b => cases b <;> exact has_kAllPrims (by simp)
  | number isInt32 => cases isInt32 <;> exact has_kAllPrims (by simp)
  | undefined | null | symbol | bigint => exact has_kAllPrims (by simp)

theorem prim_describes (h : OfKinds bits c) : (prim bits).Describes c := by
  refine ((addPrims_grows_iff {} bits).mpr fun hstr => ?_).takes c h
  exact absurd hstr.2.1 (not_has_zero kStr)

end AVal

/-- The constructors and the operations, in any order. -/
inductive Build where
  | empty
  | top
  | prim (bits : UInt16)
  | str (key : UInt32)
  | enumKeys
  | obj (id : ObjId)
  | join (v other : Build)
  | addPrims (v : Build) (bits : UInt16)
  | addObj (v : Build) (id : ObjId)

namespace Build

def value : Build → AVal
  | empty => {}
  | top => .top
  | prim bits => .prim bits
  | str key => .str key
  | enumKeys => .enumKeys
  | obj id => .obj id
  | join v other => (v.value.join other.value).1
  | addPrims v bits => (v.value.addPrims bits).1
  | addObj v id => (v.value.addObj id).1

def Means : Build → Concrete → Prop
  | empty, _ => False
  | top, c => ∀ id, c ≠ .tracked id false
  | prim bits, c => OfKinds bits c
  | str key, c => ∃ enumerated, c = .string (some key) enumerated
  | enumKeys, c => ∃ key, c = .string key true
  | obj id, c => ∃ escaped, c = .tracked id escaped
  | join v other, c => v.Means c ∨ other.Means c
  | addPrims v bits, c => v.Means c ∨ OfKinds bits c
  | addObj v id, c => v.Means c ∨ ∃ escaped, c = .tracked id escaped

/-- Every operation made the value grow as it should. -/
def StepsGrow : Build → Prop
  | join v other => v.StepsGrow ∧ other.StepsGrow ∧
      Grows v.value (v.value.join other.value).1 (v.value.join other.value).2 other.value.Describes
  | addPrims v bits => v.StepsGrow ∧
      Grows v.value (v.value.addPrims bits).1 (v.value.addPrims bits).2 (OfKinds bits)
  | addObj v id => v.StepsGrow ∧ Grows v.value (v.value.addObj id).1 (v.value.addObj id).2
      fun c => ∃ escaped, c = .tracked id escaped
  | _ => True

/-- The steps are right, the value stands for all that was put in, and its joins with any others
are those of a semilattice. -/
structure Exact (e : Build) : Prop where
  steps : e.StepsGrow
  sound : ∀ c, e.Means c → e.value.Describes c
  laws : ∀ a b : Build, Laws e.value a.value b.value

/-- No strings are added by kind to a value that is one key. -/
def KindsApart : Build → Prop
  | join v other => v.KindsApart ∧ other.KindsApart
  | addPrims v bits => v.KindsApart ∧
      ¬(Has bits kStr ∧ Has v.value.prims kStr ∧ v.value.strKey ≠ kAnyStr)
  | addObj v _ => v.KindsApart
  | _ => True

theorem stepsGrow_iff (e : Build) : e.StepsGrow ↔ e.KindsApart := by
  induction e with
  | join v other ihv ihother =>
    rw [StepsGrow, KindsApart, ihv, ihother, and_iff_left (AVal.join_grows v.value other.value)]
  | addPrims v bits ih => rw [StepsGrow, KindsApart, ih, AVal.addPrims_grows_iff]
  | addObj v id ih =>
    rw [StepsGrow, KindsApart, ih, and_iff_left (AVal.addObj_grows v.value id)]
  | empty | top | prim | str | enumKeys | obj => exact Iff.rfl

theorem StepsGrow.sound {e : Build} (h : e.StepsGrow) {c : Concrete} (hc : e.Means c) :
    e.value.Describes c := by
  induction e with
  | empty => exact absurd hc id
  | top => exact AVal.top_describes hc
  | prim bits => exact AVal.prim_describes hc
  | str key =>
    obtain ⟨enumerated, rfl⟩ := hc
    have hkinds : Has (kStr ||| kStrOther) kStr ∧ Has (kStr ||| kStrOther) kStrOther := by decide
    exact ⟨hkinds.1, .inr rfl, .inr hkinds.2⟩
  | enumKeys =>
    obtain ⟨key, rfl⟩ := hc
    exact ⟨by decide, .inl rfl, .inl rfl⟩
  | obj id =>
    obtain ⟨escaped, rfl⟩ := hc
    exact .inl (SortedSet.mem_singleton.mpr rfl)
  | join v other ihv ihother =>
    obtain ⟨hv, hother, hgrows⟩ := h
    rcases hc with hc | hc
    · exact hgrows.keeps c (ihv hv hc)
    · exact hgrows.takes c (ihother hother hc)
  | addPrims v bits ih =>
    obtain ⟨hv, hgrows⟩ := h
    rcases hc with hc | hc
    · exact hgrows.keeps c (ih hv hc)
    · exact hgrows.takes c hc
  | addObj v id ih =>
    obtain ⟨hv, hgrows⟩ := h
    rcases hc with hc | hc
    · exact hgrows.keeps c (ih hv hc)
    · exact hgrows.takes c hc

/-- **The values are a join semilattice with a sound meaning**, for every sequence of operations
that adds no strings by kind to a value that is one key. -/
theorem build_exact_iff (e : Build) : e.Exact ↔ e.KindsApart := by
  constructor
  · exact fun h => e.stepsGrow_iff.mp h.steps
  · intro h
    have hsteps := e.stepsGrow_iff.mpr h
    exact ⟨hsteps, fun _ => hsteps.sound, fun a b => AVal.laws e.value a.value b.value⟩

/-- One key, and strings by kind: the value still claims to be that key, and does not tell of a
change. -/
theorem not_exact_str_addPrims : ¬∀ e : Build, e.Exact := by
  intro h
  have hstr : (addPrims (.str 5) kStr).Means (.string none false) :=
    .inr (by decide : Has kStr kStr)
  obtain ⟨-, hany | hone, -⟩ := (h _).sound _ hstr
  · exact absurd hany (by decide)
  · cases hone

end Build

end Bronze.Wpo
