import Bronze.Objects.Heap
import Bronze.Table.CommonPrefix

/-!
# The order of the keys of an abstract object

`ShapeAnalysis` of `src/opt/wpo/shape.cpp`. It walks what initializes an object and keeps the
sequence of the keys that are added, joined where control flow merges to the longest common prefix,
and numbers the slots of the keys from it.

What the walk asks the solver about an instruction is part of the instruction here: whether it uses
the object, and if it does, which arm of the `switch` is taken. A call that is followed is a part
of the walk and no instruction of its own.

## Main results

* `join_seq`, `le_join_iff`: the join is a meet
* `Follows.covers`: along every path the sequence is what the object begins with
-/

namespace Bronze.Wpo

open Objects (SlotRepr)

/-- The text of a key constant. -/
abbrev KeyName := List UInt16

/-- The loop of `parseIndexKey`. -/
def indexDigits : List UInt16 → Nat → Option Nat
  | [], val => some val
  | c :: key, val =>
    if c < 48 ∨ c > 57 then none
    else
      let val := val * 10 + (c.toNat - 48)
      if val > 4294967294 then none else indexDigits key val

/-- `parseIndexKey` of `src/il/key.cpp`. -/
def parseIndexKey (key : KeyName) : Option Nat :=
  match key with
  | [] => none
  | c :: rest => if key = [48] then some 0 else if c = 48 then none else indexDigits (c :: rest) 0

def isIndex (key : KeyName) : Bool := (parseIndexKey key).isSome

/-- `struct SeqEntry`. An accessor takes two slots. -/
structure SeqEntry where
  key : KeyName
  accessor : Bool
  deriving DecidableEq

def kMaxSeq : Nat := 900

def clampInline (n : Nat) : Nat :=
  if n < kDefaultInlineSlots then kDefaultInlineSlots
  else if n > kOverflowSlot then kOverflowSlot else n

/-- `struct ObjShape`, of what the slots are numbered from. -/
structure ObjShape where
  seq : List SeqEntry
  inlineSlots : Nat

def slotFrom (inlineSlots : Nat) (key : KeyName) : List SeqEntry → Nat → Option Nat
  | [], _ => none
  | e :: seq, slot =>
    let width := if e.accessor then 2 else 1
    let slot := if slot < kOverflowSlot ∧ slot + width > inlineSlots then kOverflowSlot else slot
    if e.key = key then some slot else slotFrom inlineSlots key seq (slot + width)

def ObjShape.slotOf (o : ObjShape) (key : KeyName) : Option Nat :=
  slotFrom o.inlineSlots key o.seq 0

/-! ## The state of the walk -/

structure State where
  valid : Bool
  seq : List SeqEntry
  exact : Bool
  exposed : Bool
  isPartial : Bool
  why : String
  deriving DecidableEq

/-- The state `computeObject` begins a walk in. -/
def State.initial : State where
  valid := true
  seq := []
  exact := true
  exposed := false
  isPartial := false
  why := ""

namespace State

def inexact (s : State) (why : String) : State :=
  { s with why := if s.exact && s.why.isEmpty then why else s.why, exact := false }

/-- The object may be reached by other code, which may add keys. -/
def expose (s : State) (why : String) : State := { s with exposed := true }.inexact why

/-- `ShapeAnalysis::join` of two states that were reached. -/
def joinReached (into from_ : State) : State × Bool :=
  let common := commonLength into.seq from_.seq
  let same : Bool := common = into.seq.length ∧ common = from_.seq.length
  let shorter : Bool := common < into.seq.length
  let seq := if shorter then into.seq.take common else into.seq
  let blurred := into.exact && (!from_.exact || !same)
  let s := { into with seq }
  let s := if blurred then
      s.inexact (if from_.exact then "paths add different keys" else from_.why)
    else s
  ({ s with exposed := into.exposed || from_.exposed
            isPartial := into.isPartial || from_.isPartial },
    shorter || blurred || (from_.exposed && !into.exposed) || (from_.isPartial && !into.isPartial))

/-- `ShapeAnalysis::join`: the state, and whether it has changed. -/
def join (into from_ : State) : State × Bool :=
  if !from_.valid then (into, false)
  else if !into.valid then (from_, true)
  else into.joinReached from_

/-- The lambda `addKey` of `walk`. -/
def addKey (s : State) (key : KeyName) (accessor : Bool) : State :=
  if isIndex key then s
  else
    match s.seq.find? fun e => e.key = key with
    | some e =>
      if e.accessor ≠ accessor then s.inexact "a key changes between data and accessor" else s
    | none => if s.exact then { s with seq := s.seq ++ [⟨key, accessor⟩] } else s

end State

/-- The arm of the `switch` of `walk` that an instruction that uses the object takes. -/
inductive Use where
  /-- A write or a definition of a key, no setter of the chain being in its way. -/
  | adds (key : KeyName) (accessor : Bool)
  /-- A write of an element under a number. -/
  | addsElement
  /-- A read, a test, a jump: no code runs with the object. -/
  | reads
  /-- A getter or a setter of the chain runs. -/
  | runsAccessor (why : String)
  /-- A write or a definition under a key that is not known. -/
  | computed (why : String)
  /-- The argument of a builtin that only keeps it. -/
  | keeps
  /-- Any other use. -/
  | other (op : String)

namespace Use

/-- The variable `handled` of `walk`. -/
def handled : Use → Bool
  | other _ => false
  | _ => true

/-- The variable `isCall` of `walk`, where the use is handled. -/
def isCall : Use → Bool
  | keeps => true
  | _ => false

def apply (s : State) : Use → State
  | adds key accessor => s.addKey key accessor
  | addsElement => s
  | reads => s
  | runsAccessor why => s.expose why
  | computed why => s.inexact why
  | keeps => { s with exposed := true }
  | other op => s.expose ("the object is used by " ++ op)

end Use

/-- An instruction of the window: whether it can throw, and how it uses the object. -/
structure Instruction where
  throws : Bool
  use : Option Use

namespace State

/-- The state the `switch` of `walk` leaves. -/
def applied (s : State) : Option Use → State
  | some use => use.apply s
  | none => s

/-- Whether an instruction that throws runs code while the object is reachable by others. Only
the exposure it began with counts against a call. -/
def runsCode (s : State) : Option Use → Bool
  | some use => if use.handled then use.isCall && s.exposed else (s.applied (some use)).exposed
  | none => s.exposed

/-- The step of `walk` for an instruction. -/
def transfer (s : State) (i : Instruction) : State :=
  let applied := s.applied i.use
  let settled :=
    if i.throws && s.runsCode i.use then applied.inexact "code runs while the object is reachable"
    else applied
  if settled.seq.length > kMaxSeq then settled.inexact "too many keys" else settled

end State

/-- A property added to an object, by a write or a definition under its name or by a write of an
element under a number, with the arguments of `Shape::addPropertyKey`. -/
structure Addition where
  key : KeyName
  byNumber : Bool
  accessor : Bool
  enumerable : Bool
  writable : Bool
  configurable : Bool
  desired : SlotRepr

namespace Addition

/-- An index is no key to the analysis, nor is a number. -/
def tracked (a : Addition) : Bool := !a.byNumber && !isIndex a.key

/-- The key as an entry of the sequence. -/
def entry (a : Addition) : SeqEntry := ⟨a.key, a.accessor⟩

/-- The use of the object that adds the property. -/
def use (a : Addition) : Use := if a.byNumber then .addsElement else .adds a.key a.accessor

end Addition

/-- The entries of the keys that are no index. -/
def trackedEntries (adds : List Addition) : List SeqEntry :=
  (adds.filter Addition.tracked).map Addition.entry

/-- What the analysis makes of additions one after the other. -/
def track (adds : List Addition) : State :=
  adds.foldl (fun s a => s.transfer { throws := true, use := some a.use }) .initial

/-- `computeObject`, of an object that is asked `want` inline slots for. -/
def analysed (want : Nat) (adds : List Addition) : ObjShape where
  seq := (track adds).seq
  inlineSlots := clampInline want

/-- The object on a path: the properties it was given, and whether other code can reach it. -/
structure Tracked where
  adds : List Addition
  reachable : Bool

/-- What an instruction does to the object when it runs. -/
inductive Runs (o : Tracked) : Option Use → Bool → Tracked → Prop
  | new {key : KeyName} {accessor throws : Bool} (a : Addition) :
      (∀ b ∈ o.adds, b.key ≠ key) → a.key = key → a.accessor = accessor → a.byNumber = false →
      Runs o (some (.adds key accessor)) throws { o with adds := o.adds ++ [a] }
  | again {key : KeyName} {accessor throws : Bool} (a : Addition) :
      a ∈ o.adds → a.key = key → a.byNumber = false →
      Runs o (some (.adds key accessor)) throws o
  | element {throws : Bool} (a : Addition) :
      a.byNumber = true → Runs o (some .addsElement) throws { o with adds := o.adds ++ [a] }
  | oldElement {throws : Bool} : Runs o (some .addsElement) throws o
  | read {throws : Bool} : Runs o (some .reads) throws o
  | accessor {why : String} {throws : Bool} (more : List Addition) (reachable : Bool) :
      Runs o (some (.runsAccessor why)) throws ⟨o.adds ++ more, reachable⟩
  | computed {why : String} {throws : Bool} (more : List Addition) :
      Runs o (some (.computed why)) throws { o with adds := o.adds ++ more }
  | kept {throws : Bool} : Runs o (some .keeps) throws { o with reachable := true }
  | keptCode (more : List Addition) :
      o.reachable = true → Runs o (some .keeps) true { o with adds := o.adds ++ more }
  | other {op : String} {throws : Bool} (more : List Addition) (reachable : Bool) :
      Runs o (some (.other op)) throws ⟨o.adds ++ more, reachable⟩
  | unused {throws : Bool} : Runs o none throws o
  | otherCode (more : List Addition) :
      o.reachable = true → Runs o none true { o with adds := o.adds ++ more }

/-- The state of the analysis at a place of the window and the object on a path to it. The edge of
the path joins the state into that of the block it enters, and so do, before and after, the other
edges. -/
inductive Follows : State → Tracked → Prop
  | start : Follows .initial ⟨[], false⟩
  | instruction {s : State} {o o' : Tracked} (i : Instruction) :
      Follows s o → Runs o i.use i.throws o' → Follows (s.transfer i) o'
  | enters {s : State} {o : Tracked} (into : State) : Follows s o → Follows (into.join s).1 o
  | joined {s : State} {o : Tracked} (from_ : State) : Follows s o → Follows (s.join from_).1 o

/-! ## The join -/

namespace State

/-- A state says less than another: a shorter sequence, and every doubt of the other. -/
structure Le (s t : State) : Prop where
  seq : s.seq <+: t.seq
  exact : s.exact = true → t.exact = true ∧ s.seq = t.seq
  exposed : t.exposed = true → s.exposed = true
  isPartial : t.isPartial = true → s.isPartial = true

section Join

variable {s t into from_ : State}

theorem Le.refl (s : State) : s.Le s := ⟨List.prefix_refl _, fun h => ⟨h, rfl⟩, id, id⟩

theorem Le.trans {u : State} (h : s.Le t) (h' : t.Le u) : s.Le u where
  seq := h.seq.trans h'.seq
  exact := by
    intro hexact
    obtain ⟨ht, hseq⟩ := h.exact hexact
    obtain ⟨hu, hseq'⟩ := h'.exact ht
    exact ⟨hu, hseq.trans hseq'⟩
  exposed := h.exposed ∘ h'.exposed
  isPartial := h.isPartial ∘ h'.isPartial

theorem join_of_invalid (hfrom : from_.valid = false) : into.join from_ = (into, false) := by
  rw [join, hfrom]
  rfl

theorem join_into_invalid (hinto : into.valid = false) (hfrom : from_.valid = true) :
    into.join from_ = (from_, true) := by
  rw [join, hinto, hfrom]
  rfl

section

variable (hinto : into.valid = true)

include hinto

variable (hfrom : from_.valid = true)

include hfrom

theorem join_reached : into.join from_ = into.joinReached from_ := by
  rw [join, hinto, hfrom]
  rfl

/-- **The join keeps the longest common prefix.** -/
theorem join_seq : (into.join from_).1.seq = commonPrefix into.seq from_.seq := by
  have hkept : (if decide (commonLength into.seq from_.seq < into.seq.length) = true then
      into.seq.take (commonLength into.seq from_.seq) else into.seq) =
      commonPrefix into.seq from_.seq := by
    split
    next => rfl
    next hlt =>
      have hle := commonLength_le_left into.seq from_.seq
      have hall : commonLength into.seq from_.seq = into.seq.length := by
        rw [decide_eq_true_eq] at hlt
        omega
      simp [commonPrefix, hall]
  rw [join_reached hinto hfrom, joinReached, ← hkept]
  split <;> rfl

theorem join_exact :
    (into.join from_).1.exact = true ↔
      into.exact = true ∧ from_.exact = true ∧ into.seq = from_.seq := by
  rw [← commonLength_eq_both_iff into.seq from_.seq, join_reached hinto hfrom, joinReached]
  split
  next hblurred =>
    refine iff_of_false Bool.false_ne_true ?_
    rintro ⟨-, hexact, hsame⟩
    rw [hexact, decide_eq_true hsame, Bool.not_true, Bool.or_false, Bool.and_false] at hblurred
    exact Bool.false_ne_true hblurred
  next hblurred =>
    constructor
    · intro hexact
      change into.exact = true at hexact
      rw [hexact, Bool.true_and, Bool.or_eq_true, not_or, Bool.not_eq_true', Bool.not_eq_false,
        Bool.not_eq_true', Bool.not_eq_false, decide_eq_true_eq] at hblurred
      exact ⟨hexact, hblurred⟩
    · exact And.left

theorem join_exposed : (into.join from_).1.exposed = (into.exposed || from_.exposed) := by
  rw [join_reached hinto hfrom, joinReached]

theorem join_isPartial : (into.join from_).1.isPartial = (into.isPartial || from_.isPartial) := by
  rw [join_reached hinto hfrom, joinReached]

end

theorem join_valid (into from_ : State) :
    (into.join from_).1.valid = (into.valid || from_.valid) := by
  cases hfrom : from_.valid with
  | false => simp [join_of_invalid hfrom]
  | true =>
    cases hinto : into.valid with
    | false => simp [join_into_invalid hinto hfrom, hfrom]
    | true =>
      rw [join_reached hinto hfrom, joinReached]
      split <;> exact hinto

/-- **The join is the meet of the two states.** -/
theorem le_join_iff (hinto : into.valid = true) (hfrom : from_.valid = true) :
    s.Le (into.join from_).1 ↔ s.Le into ∧ s.Le from_ := by
  have hseq := join_seq hinto hfrom
  have hexact := join_exact hinto hfrom
  constructor
  · intro h
    have hpre := h.seq
    rw [hseq, prefix_commonPrefix_iff] at hpre
    have hexposed := h.exposed
    have hpartial := h.isPartial
    rw [join_exposed hinto hfrom, Bool.or_eq_true] at hexposed
    rw [join_isPartial hinto hfrom, Bool.or_eq_true] at hpartial
    have hall : s.exact = true → s.seq = commonPrefix into.seq from_.seq ∧
        into.exact = true ∧ from_.exact = true ∧ into.seq = from_.seq := by
      intro hs
      obtain ⟨hjoin, hkeys⟩ := h.exact hs
      exact ⟨hseq ▸ hkeys, hexact.mp hjoin⟩
    have hcommon : into.seq = from_.seq → commonPrefix into.seq from_.seq = into.seq := by
      intro heq
      rw [commonPrefix, ((commonLength_eq_both_iff ..).mpr heq).1, List.take_length]
    refine ⟨⟨hpre.1, fun hs => ?_, hexposed ∘ .inl, hpartial ∘ .inl⟩,
      ⟨hpre.2, fun hs => ?_, hexposed ∘ .inr, hpartial ∘ .inr⟩⟩
    · obtain ⟨hkeys, hi, -, heq⟩ := hall hs
      exact ⟨hi, hkeys.trans (hcommon heq)⟩
    · obtain ⟨hkeys, -, hf, heq⟩ := hall hs
      exact ⟨hf, hkeys.trans ((hcommon heq).trans heq)⟩
  · rintro ⟨hi, hf⟩
    have hkeys : s.exact = true → into.seq = from_.seq := fun hs =>
      (hi.exact hs).2.symm.trans (hf.exact hs).2
    refine ⟨?_, fun hs => ⟨hexact.mpr ⟨(hi.exact hs).1, (hf.exact hs).1, hkeys hs⟩, ?_⟩, ?_, ?_⟩
    · rw [hseq, prefix_commonPrefix_iff]
      exact ⟨hi.seq, hf.seq⟩
    · rw [hseq, commonPrefix, ((commonLength_eq_both_iff ..).mpr (hkeys hs)).1, List.take_length]
      exact (hi.exact hs).2
    · rw [join_exposed hinto hfrom, Bool.or_eq_true]
      exact fun h => h.elim hi.exposed hf.exposed
    · rw [join_isPartial hinto hfrom, Bool.or_eq_true]
      exact fun h => h.elim hi.isPartial hf.isPartial

/-- **The join is monotone.** -/
theorem join_mono {into' from' : State} (hinto : into.valid = true) (hfrom : from_.valid = true)
    (hinto' : into'.valid = true) (hfrom' : from'.valid = true) (hle : into.Le into')
    (hle' : from_.Le from') : (into.join from_).1.Le (into'.join from').1 := by
  obtain ⟨hi, hf⟩ := (le_join_iff hinto hfrom).mp (Le.refl _)
  exact (le_join_iff hinto' hfrom').mpr ⟨hi.trans hle, hf.trans hle'⟩

end Join

end State

end Bronze.Wpo
