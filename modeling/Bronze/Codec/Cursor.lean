import Bronze.Codec.Wire

/-!
# A reader that goes on after a failure

A cursor into bytes that are in memory: a position, whether all went well so far, and the first
failure. A failure moves the position to the end and is kept, and the reader goes on: whatever it
reads from then on is a zero, and a loop runs to the end of its count. The cursor keeps a trace of
what it did to memory and to its containers.

`Tracks` says that such a reader does what a `Reader` does, which stops at the first failure, and
that nothing it does to memory is out of bounds. It composes along the steps of a reader.

## Main results

* `Tracks.run`: what follows for a whole run
-/

namespace Bronze.Codec

open List Nat Reader Pure Except

/-- What a reader does, apart from the values it makes. -/
inductive Event where
  /-- A byte is loaded. -/
  | load (pos : Nat)
  /-- A container gets room for `n` elements, with so many bytes left. -/
  | resize (n left : Nat)
  /-- A byte is taken as a value of an enumeration. -/
  | enum (value last : Nat)
  /-- A test failed. -/
  | failure (what : String)

/-- What does no harm to memory. -/
def Event.Safe (size : Nat) : Event → Prop
  | .load pos => pos < size
  | .resize n left => n ≤ left
  | _ => True

/-- What only a reader does whose input is well formed. -/
def Event.InRange : Event → Prop
  | .enum value last => value ≤ last
  | .failure _ => False
  | _ => True

structure Cursor where
  bytes : Bytes
  pos : Nat
  ok : Bool
  err : String
  trace : List Event

/-- A reader that goes on after a failure. -/
abbrev CursorM := StateM Cursor

namespace Cursor

/-- A cursor at the first byte. -/
def start (bytes : Bytes) : Cursor := { bytes, pos := 0, ok := true, err := "", trace := [] }

def left (c : Cursor) : Bytes := c.bytes.drop c.pos

/-! ## Steps -/

def record (e : Event) : CursorM Unit := modify fun c => { c with trace := c.trace ++ [e] }

/-- The first failure is kept, and nothing is left to read. -/
def fail (what : String) : CursorM Unit := do
  record (.failure what)
  modify fun c =>
    { c with
      err := if c.ok then what else c.err
      ok := false
      pos := c.bytes.length }

/-- The byte at the position, which moves on. -/
def load : CursorM UInt8 := do
  let c ← get
  record (.load c.pos)
  modify fun c => { c with pos := c.pos + 1 }
  pure (c.bytes.getD c.pos 0)

/-- What one reader reads `n` times. -/
def times {α : Type} (r : CursorM α) : (n : Nat) → CursorM { l : List α // l.length = n }
  | 0 => pure ⟨[], rfl⟩
  | n + 1 => do
    let a ← r
    let l ← times r n
    pure ⟨a :: l.1, congrArg (· + 1) l.2⟩

/-- `n` bytes, copied. -/
def take (n : Nat) : CursorM { l : Bytes // l.length = n } := times load n

/-- A test of what was read. -/
def reject (bad : Bool) (what : String) : CursorM Unit := if bad then fail what else pure ()

def byte (what : String) : CursorM UInt8 := do
  let c ← get
  if c.pos ≥ c.bytes.length then
    fail what
    pure 0
  else load

def u8 : CursorM UInt8 := byte "truncated"

def varLoop : Nat → UInt64 → UInt64 → CursorM UInt64
  | 0, _, _ => do
    fail "overlong varint"
    pure 0
  | fuel + 1, shift, v => do
    let c ← get
    if c.pos ≥ c.bytes.length then
      fail "truncated varint"
      pure 0
    else
      let b ← load
      let v := v ||| ((b &&& 0x7F).toUInt64 <<< shift)
      if b &&& 0x80 = 0 then pure v else varLoop fuel (shift + 7) v

def var : CursorM UInt64 := varLoop 10 0 0

def u32 : CursorM UInt32 := do
  let v ← var
  if v > 0xFFFFFFFF then
    fail "u32 out of range"
    pure 0
  else pure v.toUInt32

def i32 : CursorM Int32 := do
  let z ← var
  let v := (z >>> 1).toInt64 ^^^ -(z &&& 1).toInt64
  if v.toInt < -2 ^ 31 ∨ v.toInt > 2 ^ 31 - 1 then
    fail "i32 out of range"
    pure 0
  else pure v.toInt32

/-- The number whose bytes these are, lowest first. -/
def littleEndian : UInt64 → UInt64 → Bytes → UInt64
  | _, v, [] => v
  | shift, v, b :: bs => littleEndian (shift + 8) (v ||| (b.toUInt64 <<< shift)) bs

def f64 : CursorM UInt64 := do
  let c ← get
  if c.bytes.length - c.pos < 8 then
    fail "truncated f64"
    pure 0
  else
    let bs ← take 8
    pure (littleEndian 0 0 bs.1)

/-- A number of elements of one byte at least, bounded by what is left. -/
def count (what : String) : CursorM UInt64 := do
  let n ← var
  let c ← get
  if n.toNat > c.bytes.length - c.pos then
    fail what
    pure 0
  else pure n

/-- A container gets as many elements as a count says. -/
def resize (n : Nat) : CursorM Unit := do
  let c ← get
  record (.resize n (c.bytes.length - c.pos))

/-- A count, and a container of that size. -/
def sized (what : String) : CursorM UInt64 := do
  let n ← count what
  resize n.toNat
  pure n

variable {α : Type}

/-- What one reader reads `n` times, as long as all goes well; the rest is as it was made. -/
def timesOk (default : α) (r : CursorM α) : (n : Nat) → CursorM { l : List α // l.length = n }
  | 0 => pure ⟨[], rfl⟩
  | n + 1 => do
    let c ← get
    if c.ok then
      let a ← r
      let l ← timesOk default r n
      pure ⟨a :: l.1, congrArg (· + 1) l.2⟩
    else pure ⟨replicate (n + 1) default, length_replicate⟩

/-- A container whose elements are read in any case. -/
def vec (r : CursorM α) : CursorM (Vec α) := do
  let n ← sized "count runs past the end"
  let l ← times r n.toNat
  pure ⟨l.1, length_lt l⟩

/-- A container whose elements are read until one fails. -/
def vecOk (default : α) (r : CursorM α) : CursorM (Vec α) := do
  let n ← sized "count runs past the end"
  let l ← timesOk default r n.toNat
  pure ⟨l.1, length_lt l⟩

def copy (n : UInt64) : CursorM (Vec UInt8) := do
  let l ← take n.toNat
  pure ⟨l.1, length_lt l⟩

/-- A string is copied once its length is known to be there. -/
def str : CursorM (Vec UInt8) := sized "string runs past the end" >>= copy

/-- A field that is read if it is present, and has its default otherwise. -/
def field (present : Bool) (default : α) (r : CursorM α) : CursorM α :=
  if present then r else pure default

/-- A byte that stands for one of the values up to `last`. -/
def enum (ofNat : Nat → α) (last : Nat) (what : String) : CursorM α := do
  let b ← u8
  reject (b.toNat > last) what
  record (.enum b.toNat last)
  pure (ofNat b.toNat)

instance : Wire CursorM where
  u8 := u8
  var := var
  u32 := u32
  i32 := i32
  f64 := f64
  str := str
  reject := reject
  enum := enum
  field := field
  vec := vec
  vecOk := vecOk

/-- The position is in the bytes, a failure leaves nothing to read, and memory is unharmed. -/
structure Wf (c : Cursor) : Prop where
  pos_le : c.pos ≤ c.bytes.length
  stuck : c.ok = false → c.pos = c.bytes.length
  safe : ∀ e ∈ c.trace, e.Safe c.bytes.length

/-- Nothing out of range was read so far. -/
def InRange (c : Cursor) : Prop := ∀ e ∈ c.trace, e.InRange

variable {c : Cursor} {e : Event} {what : String}

theorem start_wf (bytes : Bytes) : (start bytes).Wf := ⟨zero_le _, nofun, nofun⟩

theorem start_inRange (bytes : Bytes) : (start bytes).InRange := nofun

theorem length_left (c : Cursor) : c.left.length = c.bytes.length - c.pos := length_drop

theorem Wf.left_eq_nil (h : c.Wf) (hok : c.ok = false) : c.left = [] := by
  simp [left, h.stuck hok]

theorem Wf.record (h : c.Wf) (he : e.Safe c.bytes.length) : ((Cursor.record e) c).2.Wf where
  pos_le := h.pos_le
  stuck := h.stuck
  safe := by
    intro e' he'
    rcases mem_append.mp he' with he' | he'
    · exact h.safe e' he'
    · rw [mem_singleton.mp he']
      exact he

theorem InRange.record (h : c.InRange) (he : e.InRange) : ((Cursor.record e) c).2.InRange := by
  intro e' he'
  rcases mem_append.mp he' with he' | he'
  · exact h e' he'
  · rw [mem_singleton.mp he']
    exact he

/-- **A failure** leaves nothing to read. -/
theorem Wf.fail (h : c.Wf) (what : String) : ((Cursor.fail what) c).2.Wf where
  pos_le := le_rfl
  stuck _ := rfl
  safe := (h.record (e := .failure what) trivial).safe

theorem fail_err (hok : c.ok = true) : ((Cursor.fail what) c).2.err = what := by
  change (if c.ok then what else c.err) = what
  rw [hok]
  rfl

theorem fail_err_of_failed (hok : c.ok = false) : ((Cursor.fail what) c).2.err = c.err := by
  change (if c.ok then what else c.err) = c.err
  rw [hok]
  rfl

end Cursor

/-! ## What a cursor makes of a reader -/

/-- **The cursor reads what the reader reads**, and fails where it fails, with its text. It leaves
memory alone, keeps a failure it has, and finds nothing out of range where it does not fail. What
the reader reads off some bytes it reads off any that begin with them. -/
structure Tracks {α : Type} (r : CursorM α) (f : Reader α) : Prop where
  wf : ∀ c : Cursor, c.Wf → (r c).2.Wf
  bytes_eq : ∀ c : Cursor, (r c).2.bytes = c.bytes
  stuck : ∀ c : Cursor, c.Wf → c.ok = false → (r c).2.ok = false ∧ (r c).2.err = c.err
  reads : ∀ c : Cursor, c.Wf → c.ok = true → ∀ a rest, f c.left = .ok (a, rest) →
    (r c).1 = a ∧ (r c).2.ok = true ∧ (r c).2.left = rest ∧ (c.InRange → (r c).2.InRange)
  fails : ∀ c : Cursor, c.Wf → c.ok = true → ∀ what, f c.left = .error what →
    (r c).2.ok = false ∧ (r c).2.err = what
  extends_ : ∀ s a rest, f s = .ok (a, rest) → ∀ t, f (s ++ t) = .ok (a, rest ++ t)

section Rules

variable {α β : Type} {r : CursorM α} {f : Reader α} {g : α → CursorM β} {h : α → Reader β}

variable {s : Bytes} {c : Cursor}

theorem reader_bind_ok {rest : Bytes} {b : β} (hrun : (f >>= h) s = .ok (b, rest)) :
    ∃ a mid, f s = .ok (a, mid) ∧ h a mid = .ok (b, rest) := by
  change bind (f s) _ = _ at hrun
  cases hf : f s with
  | error what =>
    rw [hf] at hrun
    cases hrun
  | ok am =>
    rw [hf] at hrun
    exact ⟨am.1, am.2, rfl, hrun⟩

theorem reader_bind_error {what : String} (hrun : (f >>= h) s = .error what) :
    f s = .error what ∨ ∃ a mid, f s = .ok (a, mid) ∧ h a mid = .error what := by
  change bind (f s) _ = _ at hrun
  cases hf : f s with
  | error what' =>
    rw [hf] at hrun
    exact Or.inl (by cases hrun; rfl)
  | ok am =>
    rw [hf] at hrun
    exact Or.inr ⟨am.1, am.2, rfl, hrun⟩

theorem reader_bind_of_ok {mid : Bytes} {a : α} (hf : f s = .ok (a, mid)) :
    (f >>= h) s = h a mid := by
  change bind (f s) _ = _
  rw [hf]
  rfl

/-- **One step of a reader.** -/
theorem Tracks.bind (hr : Tracks r f) (hg : ∀ a, Tracks (g a) (h a)) :
    Tracks (r >>= g) (f >>= h) where
  wf c hc := (hg _).wf _ (hr.wf c hc)
  bytes_eq c := ((hg _).bytes_eq _).trans (hr.bytes_eq c)
  stuck c hc hok := by
    obtain ⟨hok', herr⟩ := hr.stuck c hc hok
    obtain ⟨hok'', herr'⟩ := (hg (r c).1).stuck _ (hr.wf c hc) hok'
    exact ⟨hok'', herr'.trans herr⟩
  reads c hc hok b rest hrun := by
    obtain ⟨a, mid, hf, hh⟩ := reader_bind_ok hrun
    obtain ⟨ha, hok', hleft, hrange⟩ := hr.reads c hc hok a mid hf
    rw [← hleft, ← ha] at hh
    obtain ⟨hb, hok'', hleft', hrange'⟩ := (hg _).reads _ (hr.wf c hc) hok' b rest hh
    exact ⟨hb, hok'', hleft', fun hin => hrange' (hrange hin)⟩
  fails c hc hok what hrun := by
    rcases reader_bind_error hrun with hf | ⟨a, mid, hf, hh⟩
    · -- the steps that follow keep the failure
      obtain ⟨hok', herr⟩ := hr.fails c hc hok what hf
      obtain ⟨hok'', herr'⟩ := (hg (r c).1).stuck _ (hr.wf c hc) hok'
      exact ⟨hok'', herr'.trans herr⟩
    · obtain ⟨ha, hok', hleft, -⟩ := hr.reads c hc hok a mid hf
      rw [← hleft, ← ha] at hh
      exact (hg _).fails _ (hr.wf c hc) hok' what hh
  extends_ s b rest hrun t := by
    obtain ⟨a, mid, hf, hh⟩ := reader_bind_ok hrun
    rw [reader_bind_of_ok (hr.extends_ s a mid hf t)]
    exact (hg a).extends_ mid b rest hh t

/-- **What a run without a failure read.** -/
theorem Tracks.run (hr : Tracks r f) (hc : c.Wf) (hok : (r c).2.ok = true) :
    c.ok = true ∧ f c.left = .ok ((r c).1, (r c).2.left) ∧ (c.InRange → (r c).2.InRange) := by
  cases hbefore : c.ok with
  | false =>
    rw [(hr.stuck c hc hbefore).1] at hok
    cases hok
  | true =>
    cases hf : f c.left with
    | error what =>
      rw [(hr.fails c hc hbefore what hf).1] at hok
      cases hok
    | ok am =>
      obtain ⟨ha, -, hleft, hrange⟩ := hr.reads c hc hbefore am.1 am.2 hf
      exact ⟨rfl, by rw [ha, hleft], hrange⟩

theorem Tracks.pure (a : α) : Tracks (pure a) (pure a) where
  wf _ hc := hc
  bytes_eq _ := rfl
  stuck _ _ hok := ⟨hok, rfl⟩
  reads _ _ hok _ _ hrun := by
    cases hrun
    exact ⟨rfl, hok, rfl, id⟩
  fails _ _ _ _ hrun := nomatch hrun
  extends_ _ _ _ hrun _ := by
    cases hrun
    rfl

theorem Tracks.fail (what : String) (a : α) :
    Tracks (Cursor.fail what >>= fun _ => Pure.pure a) (fail what) where
  wf c hc := hc.fail what
  bytes_eq _ := rfl
  stuck _ _ hok := ⟨rfl, Cursor.fail_err_of_failed hok⟩
  reads _ _ _ _ _ hrun := nomatch hrun
  fails _ _ hok _ hrun := by
    cases hrun
    exact ⟨rfl, Cursor.fail_err hok⟩
  extends_ _ _ _ hrun := nomatch hrun

/-- **A test of what was read.** -/
theorem Tracks.reject (bad : Bool) (what : String) :
    Tracks (Cursor.reject bad what) (reject bad what) := by
  cases bad with
  | false => exact Tracks.pure ()
  | true => exact Tracks.fail what ()

theorem Tracks.field {present : Bool} {default : α} (hr : Tracks r f) :
    Tracks (Cursor.field present default r) (field present default f) := by
  cases present with
  | true => exact hr
  | false => exact Tracks.pure default

theorem Tracks.ite {p : Prop} [Decidable p] {r' : CursorM α} {f' : Reader α} (hr : p → Tracks r f)
    (hr' : ¬p → Tracks r' f') : Tracks (if p then r else r') (if p then f else f') := by
  by_cases hp : p
  · rw [if_pos hp, if_pos hp]
    exact hr hp
  · rw [if_neg hp, if_neg hp]
    exact hr' hp

theorem Cursor.left_cons (hlt : c.pos < c.bytes.length) :
    c.left = c.bytes.getD c.pos 0 :: c.bytes.drop (c.pos + 1) := by
  rw [Cursor.left, drop_eq_getElem_cons hlt, getD_eq_getElem?_getD,
    getElem?_eq_getElem hlt, Option.getD_some]

theorem Cursor.Wf.load {c : Cursor} (hc : c.Wf) (hlt : c.pos < c.bytes.length)
    (hok : c.ok = true) : ((Cursor.load) c).2.Wf where
  pos_le := hlt
  stuck hfail := by
    have hfail' : c.ok = false := hfail
    rw [hok] at hfail'
    cases hfail'
  safe := (hc.record (e := .load c.pos) hlt).safe

theorem Cursor.Wf.ok_of_lt (hc : c.Wf) (hlt : c.pos < c.bytes.length) : c.ok = true := by
  cases hok : c.ok with
  | true => rfl
  | false => exact absurd (hc.stuck hok) hlt.ne

/-- **A byte is loaded where there is one**, and what follows goes on with it. -/
theorem tracks_load {α : Type} (what : String) (zero : α) {g : UInt8 → CursorM α}
    {h : UInt8 → Reader α} (hg : ∀ b, Tracks (g b) (h b)) :
    Tracks (do
      let c ← get
      if c.pos ≥ c.bytes.length then
        Cursor.fail what
        pure zero
      else
        let b ← Cursor.load
        g b) (byte what >>= h) := by
  have hend : ∀ c : Cursor, c.pos ≥ c.bytes.length → (byte what >>= h) c.left =
      .error what := by
    intro c hge
    rw [Cursor.left, drop_of_length_le hge]
    rfl
  have hnext : ∀ c : Cursor, ¬c.pos ≥ c.bytes.length → (byte what >>= h) c.left =
      h (c.bytes.getD c.pos 0) (c.bytes.drop (c.pos + 1)) := by
    intro c hlt
    rw [Cursor.left_cons (not_le.mp hlt)]
    rfl
  have hrun : ∀ c : Cursor, (do
      let c ← get
      if c.pos ≥ c.bytes.length then
        Cursor.fail what
        pure zero
      else
        let b ← Cursor.load
        g b : CursorM α) c =
      if c.pos ≥ c.bytes.length then (zero, (Cursor.fail what c).2)
      else g (c.bytes.getD c.pos 0) (Cursor.load c).2 := by
    intro c
    change (if c.pos ≥ c.bytes.length then _ else _ : CursorM α) c = _
    split_ifs <;> rfl
  constructor
  · intro c hc
    rw [hrun]
    split_ifs with hge
    · exact hc.fail what
    · exact (hg _).wf _ (hc.load (not_le.mp hge) (hc.ok_of_lt (not_le.mp hge)))
  · intro c
    rw [hrun]
    split_ifs
    · rfl
    · exact (hg _).bytes_eq _
  · intro c hc hok
    rw [hrun, if_pos (hc.stuck hok).ge]
    exact ⟨rfl, Cursor.fail_err_of_failed hok⟩
  · intro c hc hok a rest hread
    rw [hrun]
    split_ifs with hge
    · rw [hend c hge] at hread
      cases hread
    · rw [hnext c hge] at hread
      obtain ⟨ha, hok', hleft, hrange⟩ :=
        (hg _).reads _ (hc.load (not_le.mp hge) hok) hok a rest hread
      exact ⟨ha, hok', hleft, fun hin => hrange (hin.record (e := .load c.pos) trivial)⟩
  · intro c hc hok what' hread
    rw [hrun]
    split_ifs with hge
    · rw [hend c hge] at hread
      cases hread
      exact ⟨rfl, Cursor.fail_err hok⟩
    · rw [hnext c hge] at hread
      exact (hg _).fails _ (hc.load (not_le.mp hge) hok) hok what' hread
  · intro s a rest hread t
    cases s with
    | nil => cases hread
    | cons b s => exact (hg b).extends_ s a rest hread t

theorem tracks_byte (what : String) : Tracks (Cursor.byte what) (byte what) := by
  have h := tracks_load what 0 Tracks.pure
  simp only [bind_pure] at h
  exact h

theorem tracks_u8 : Tracks Cursor.u8 u8 := tracks_byte "truncated"

theorem tracks_varLoop (fuel : Nat) (shift v : UInt64) :
    Tracks (Cursor.varLoop fuel shift v) (varLoop fuel shift v) := by
  induction fuel generalizing shift v with
  | zero => exact Tracks.fail "overlong varint" 0
  | succ fuel ih =>
    exact tracks_load _ _ fun b => Tracks.ite (fun _ => Tracks.pure _) fun _ => ih _ _

theorem tracks_var : Tracks Cursor.var var := tracks_varLoop 10 0 0

theorem Tracks.refuse {bad : Prop} [Decidable bad] (what : String) (zero a : α) :
    Tracks (if bad then Cursor.fail what >>= fun _ => Pure.pure zero else Pure.pure a)
      (Reader.reject bad what >>= fun _ => Pure.pure a) := by
  by_cases hbad : bad
  · rw [if_pos hbad, decide_eq_true hbad]
    exact Tracks.fail what zero
  · rw [if_neg hbad, decide_eq_false hbad]
    exact Tracks.pure a

theorem tracks_u32 : Tracks Cursor.u32 u32 := tracks_var.bind fun _ => Tracks.refuse _ _ _

theorem tracks_i32 : Tracks Cursor.i32 i32 := tracks_var.bind fun _ => Tracks.refuse _ _ _

/-- What `take` copies, and where it leaves the cursor. -/
theorem Cursor.take_spec {n : Nat} (hc : c.Wf) (hok : c.ok = true)
    (hn : n ≤ c.bytes.length - c.pos) :
    (Cursor.take n c).1.1 = c.left.take n ∧ (Cursor.take n c).2.Wf ∧
      (Cursor.take n c).2.ok = true ∧ (Cursor.take n c).2.left = c.left.drop n ∧
      (c.InRange → (Cursor.take n c).2.InRange) := by
  induction n generalizing c with
  | zero => exact ⟨rfl, hc, hok, rfl, id⟩
  | succ n ih =>
    have hlt : c.pos < c.bytes.length := by omega
    have hn' : n ≤ c.bytes.length - (c.pos + 1) := by omega
    obtain ⟨hbytes, hwf, hok', hleft, hrange⟩ := ih (hc.load hlt hok) hok hn'
    rw [Cursor.left_cons hlt]
    refine ⟨congrArg (c.bytes.getD c.pos 0 :: ·) hbytes, hwf, hok', hleft, fun hin => ?_⟩
    exact hrange (hin.record (e := .load c.pos) trivial)

theorem bytesLoop_eq (what : String) (n : Nat) (shift v : UInt64) (s : Bytes) :
    bytesLoop what n shift v s =
      if s.length < n then .error what
      else .ok (Cursor.littleEndian shift v (s.take n), s.drop n) := by
  induction n generalizing shift v s with
  | zero => rfl
  | succ n ih =>
    cases s with
    | nil => rfl
    | cons b s =>
      change bytesLoop what n _ _ s = _
      rw [ih, length_cons]
      by_cases hlt : s.length < n
      · simp [hlt]
      · rw [if_neg hlt, if_neg (by omega)]
        rfl

theorem tracks_f64 : Tracks Cursor.f64 f64 := by
  have hread : ∀ s, f64 s = if s.length < 8 then .error "truncated f64"
      else .ok (Cursor.littleEndian 0 0 (s.take 8), s.drop 8) := bytesLoop_eq _ 8 0 0
  have hrun : ∀ c, Cursor.f64 c = if c.left.length < 8 then
      (0, (Cursor.fail "truncated f64" c).2) else
        (Cursor.littleEndian 0 0 (Cursor.take 8 c).1.1, (Cursor.take 8 c).2) := by
    intro c
    rw [Cursor.length_left]
    change (if c.bytes.length - c.pos < 8 then _ else _ : CursorM UInt64) c = _
    split_ifs <;> rfl
  constructor
  · intro c hc
    rw [hrun]
    split_ifs with hlt
    · exact hc.fail _
    · rw [Cursor.length_left] at hlt
      exact (Cursor.take_spec hc (hc.ok_of_lt (by omega)) (not_lt.mp hlt)).2.1
  · intro c
    rw [hrun]
    split_ifs <;> rfl
  · intro c hc hok
    rw [hrun, if_pos (by rw [hc.left_eq_nil hok]; decide)]
    exact ⟨rfl, Cursor.fail_err_of_failed hok⟩
  · intro c hc hok a rest hread'
    rw [hread] at hread'
    rw [hrun]
    split_ifs at hread' ⊢ with hlt
    rw [Cursor.length_left] at hlt
    obtain ⟨hbytes, -, hok', hleft, hrange⟩ := Cursor.take_spec hc hok (not_lt.mp hlt)
    cases hread'
    exact ⟨by rw [hbytes], hok', hleft, hrange⟩
  · intro c hc hok what hread'
    rw [hread] at hread'
    rw [hrun]
    split_ifs at hread' ⊢ with hlt
    cases hread'
    exact ⟨rfl, Cursor.fail_err hok⟩
  · intro s a rest hread' t
    rw [hread] at hread' ⊢
    split_ifs at hread' with hlt
    cases hread'
    rw [if_neg (by rw [length_append]; omega), take_append_of_le_length (by omega),
      drop_append_of_le_length (by omega)]

/-! ## Containers -/

/-- What `sized` makes of a count that was read. -/
def Cursor.room (what : String) (n : UInt64) : CursorM UInt64 := fun c =>
  if n.toNat > c.left.length then (0, (Cursor.resize 0 (Cursor.fail what c).2).2)
  else (n, (Cursor.resize n.toNat c).2)

theorem Cursor.sized_eq (what : String) : Cursor.sized what = Cursor.var >>= Cursor.room what := by
  funext c
  have hcount : Cursor.count what c =
      if (Cursor.var c).1.toNat > (Cursor.var c).2.left.length then
        (0, (Cursor.fail what (Cursor.var c).2).2)
      else Cursor.var c := by
    rw [Cursor.length_left]
    change (if (Cursor.var c).1.toNat > (Cursor.var c).2.bytes.length - (Cursor.var c).2.pos then _
      else _ : CursorM UInt64) _ = _
    split_ifs <;> rfl
  change ((Cursor.count what c).1,
    (Cursor.resize (Cursor.count what c).1.toNat (Cursor.count what c).2).2) = _
  rw [hcount]
  change _ = Cursor.room what (Cursor.var c).1 (Cursor.var c).2
  rw [Cursor.room]
  split_ifs <;> rfl

theorem Cursor.Wf.resize {c : Cursor} {n : Nat} (hc : c.Wf) (hn : n ≤ c.left.length) :
    (Cursor.resize n c).2.Wf :=
  hc.record (e := .resize n (c.bytes.length - c.pos)) (by rwa [Cursor.length_left] at hn)

/-- **A count** is bounded by what is left, and a container of that size is made. -/
theorem tracks_sized (what : String) : Tracks (Cursor.sized what) (count what) := by
  rw [Cursor.sized_eq]
  refine tracks_var.bind fun n => ?_
  have hread : ∀ s, (do
      let left ← get
      reject (n.toNat > left.length) what
      pure n : Reader UInt64) s =
        if n.toNat > s.length then .error what else .ok (n, s) := by
    intro s
    change (reject (n.toNat > s.length) what >>= fun _ => pure n : Reader UInt64) s = _
    split_ifs with hgt
    · rw [decide_eq_true hgt]
      rfl
    · rw [decide_eq_false hgt]
      rfl
  constructor
  · intro c hc
    rw [Cursor.room]
    split_ifs with hgt
    · exact (hc.fail what).resize (zero_le _)
    · exact hc.resize (not_lt.mp hgt)
  · intro c
    rw [Cursor.room]
    split_ifs <;> rfl
  · intro c hc hok
    rw [Cursor.room]
    split_ifs
    · exact ⟨rfl, Cursor.fail_err_of_failed hok⟩
    · exact ⟨hok, rfl⟩
  · intro c hc hok a rest hrun
    rw [hread] at hrun
    rw [Cursor.room]
    split_ifs at hrun ⊢ with hgt
    cases hrun
    exact ⟨rfl, hok, rfl, fun hin => hin.record (e := .resize ..) trivial⟩
  · intro c hc hok what' hrun
    rw [hread] at hrun
    rw [Cursor.room]
    split_ifs at hrun ⊢ with hgt
    cases hrun
    exact ⟨rfl, Cursor.fail_err hok⟩
  · intro s a rest hrun t
    rw [hread] at hrun ⊢
    split_ifs at hrun with hgt
    cases hrun
    rw [if_neg (by rw [length_append]; omega)]

theorem Tracks.times (hr : Tracks r f) (n : Nat) :
    Tracks (Cursor.times r n) (times f n) := by
  induction n with
  | zero => exact Tracks.pure _
  | succ n ih => exact hr.bind fun _ => ih.bind fun _ => Tracks.pure _

theorem Tracks.timesOk (default : α) (hr : Tracks r f) (n : Nat) :
    Tracks (Cursor.timesOk default r n) (Reader.times f n) := by
  induction n with
  | zero => exact Tracks.pure _
  | succ n ih =>
    -- on a cursor that did not fail it is the loop that goes on
    have hstep := hr.bind fun a => ih.bind fun l => Tracks.pure
      (⟨a :: l.1, congrArg (· + 1) l.2⟩ : { l : List α // l.length = n + 1 })
    have hrun : ∀ c, c.ok = true → Cursor.timesOk default r (n + 1) c =
        (do
          let a ← r
          let l ← Cursor.timesOk default r n
          Pure.pure ⟨a :: l.1, congrArg (· + 1) l.2⟩ :
          CursorM { l : List α // l.length = n + 1 }) c := by
      intro c hok
      change (if c.ok = true then _ else _ : CursorM { l : List α // l.length = n + 1 }) c = _
      rw [if_pos hok]
    have hfailed : ∀ c, c.ok = false → Cursor.timesOk default r (n + 1) c =
        (⟨replicate (n + 1) default, length_replicate⟩, c) := by
      intro c hok
      change (if c.ok = true then _ else _ : CursorM { l : List α // l.length = n + 1 }) c = _
      rw [if_neg (by rw [hok]; decide)]
      rfl
    constructor
    · intro c hc
      cases hok : c.ok with
      | true =>
        rw [hrun c hok]
        exact hstep.wf c hc
      | false =>
        rw [hfailed c hok]
        exact hc
    · intro c
      cases hok : c.ok with
      | true =>
        rw [hrun c hok]
        exact hstep.bytes_eq c
      | false => rw [hfailed c hok]
    · intro c _ hok
      rw [hfailed c hok]
      exact ⟨hok, rfl⟩
    · intro c hc hok a rest hread
      rw [hrun c hok]
      exact hstep.reads c hc hok a rest hread
    · intro c hc hok what hread
      rw [hrun c hok]
      exact hstep.fails c hc hok what hread
    · exact hstep.extends_

theorem Tracks.vec (hr : Tracks r f) : Tracks (Cursor.vec r) (vec f) :=
  (tracks_sized _).bind fun n => (hr.times n.toNat).bind fun _ => Tracks.pure _

theorem Tracks.vecOk (default : α) (hr : Tracks r f) :
    Tracks (Cursor.vecOk default r) (Reader.vec f) :=
  (tracks_sized _).bind fun n => (hr.timesOk default n.toNat).bind fun _ => Tracks.pure _

theorem times_u8_eq (n : Nat) (s : Bytes) (hn : n ≤ s.length) :
    ∃ l, times u8 n s = .ok (l, s.drop n) ∧ l.1 = s.take n := by
  induction n generalizing s with
  | zero => exact ⟨_, rfl, rfl⟩
  | succ n ih =>
    cases s with
    | nil => cases hn
    | cons b s =>
      obtain ⟨l, hl, htake⟩ := ih s (le_of_succ_le_succ hn)
      refine ⟨⟨b :: l.1, congrArg (· + 1) l.2⟩, ?_, congrArg (b :: ·) htake⟩
      change bind (times u8 n s) _ = _
      rw [hl]
      rfl

theorem Cursor.copy_spec {n : UInt64} (hc : c.Wf) (hok : c.ok = true)
    (hn : n.toNat ≤ c.left.length) :
    (Cursor.copy n c).1.1 = c.left.take n.toNat ∧ (Cursor.copy n c).2.Wf ∧
      (Cursor.copy n c).2.ok = true ∧ (Cursor.copy n c).2.left = c.left.drop n.toNat ∧
      (c.InRange → (Cursor.copy n c).2.InRange) :=
  Cursor.take_spec hc hok (by rwa [Cursor.length_left] at hn)

theorem Cursor.take_bytes_eq (n : Nat) (c : Cursor) : (Cursor.take n c).2.bytes = c.bytes := by
  induction n generalizing c with
  | zero => rfl
  | succ n ih => exact ih _

theorem counted_eq (n : UInt64) (s : Bytes) :
    (∃ l, (do
      let left ← get
      reject (n.toNat > left.length) "string runs past the end"
      let l ← times u8 n.toNat
      pure ⟨l.1, length_lt l⟩ : Reader (Vec UInt8)) s =
        (if n.toNat > s.length then .error "string runs past the end"
          else .ok (l, s.drop n.toNat)) ∧
      (n.toNat ≤ s.length → l.1 = s.take n.toNat)) := by
  by_cases hgt : n.toNat > s.length
  · refine ⟨∅, ?_, fun hle => absurd hgt (not_lt.mpr hle)⟩
    rw [if_pos hgt]
    change (reject (n.toNat > s.length) _ >>= fun _ => _ : Reader (Vec UInt8)) s = _
    rw [decide_eq_true hgt]
    rfl
  · obtain ⟨l, hl, htake⟩ := times_u8_eq n.toNat s (not_lt.mp hgt)
    refine ⟨⟨l.1, length_lt l⟩, ?_, fun _ => htake⟩
    rw [if_neg hgt]
    change (reject (n.toNat > s.length) _ >>= fun _ => _ : Reader (Vec UInt8)) s = _
    rw [decide_eq_false hgt]
    change bind (times u8 n.toNat s) _ = _
    rw [hl]
    rfl

/-- **A string** is copied once its length is known to be there. -/
theorem tracks_str : Tracks Cursor.str str := by
  have hstr : Cursor.str = Cursor.var >>= fun n =>
      Cursor.room "string runs past the end" n >>= Cursor.copy := by
    rw [Cursor.str, Cursor.sized_eq, bind_assoc]
  have hreader : str = var >>= fun n => (do
      let left ← get
      reject (n.toNat > left.length) "string runs past the end"
      let l ← times u8 n.toNat
      pure ⟨l.1, length_lt l⟩ : Reader (Vec UInt8)) := by
    rw [Reader.str, Reader.counted, Reader.count]
    simp
  rw [hstr, hreader]
  refine tracks_var.bind fun n => ?_
  have hrun : ∀ c, (Cursor.room "string runs past the end" n >>= Cursor.copy) c =
      if n.toNat > c.left.length then
        Cursor.copy 0 (Cursor.resize 0 (Cursor.fail "string runs past the end" c).2).2
      else Cursor.copy n (Cursor.resize n.toNat c).2 := by
    intro c
    have hroom := Cursor.room.eq_1 "string runs past the end" n c
    change Cursor.copy (Cursor.room _ n c).1 (Cursor.room _ n c).2 = _
    rw [hroom]
    split_ifs <;> rfl
  constructor
  · intro c hc
    rw [hrun]
    split_ifs with hgt
    · exact (hc.fail _).resize (zero_le _)
    · have hwf := hc.resize (not_lt.mp hgt)
      cases hok : c.ok with
      | true => exact (Cursor.copy_spec hwf hok (not_lt.mp hgt)).2.1
      | false =>
        have hzero : n.toNat = 0 := by
          rw [hc.left_eq_nil hok] at hgt
          exact le_zero.mp (not_lt.mp hgt)
        obtain rfl : n = 0 := UInt64.toNat_inj.mp hzero
        exact hwf
  · intro c
    rw [hrun]
    split_ifs
    · rfl
    · exact Cursor.take_bytes_eq ..
  · intro c hc hok
    rw [hrun]
    split_ifs with hgt
    · exact ⟨rfl, Cursor.fail_err_of_failed hok⟩
    · have hzero : n.toNat = 0 := by
        rw [hc.left_eq_nil hok] at hgt
        exact le_zero.mp (not_lt.mp hgt)
      obtain rfl : n = 0 := UInt64.toNat_inj.mp hzero
      exact ⟨hok, rfl⟩
  · intro c hc hok a rest hread
    obtain ⟨l, hl, htake⟩ := counted_eq n c.left
    rw [hl] at hread
    rw [hrun]
    split_ifs at hread ⊢ with hgt
    cases hread
    obtain ⟨hcopy, -, hok', hleft, hrange⟩ :=
      Cursor.copy_spec (hc.resize (not_lt.mp hgt)) hok (not_lt.mp hgt)
    refine ⟨Subtype.ext (hcopy.trans (htake (not_lt.mp hgt)).symm), hok', hleft, fun hin => ?_⟩
    exact hrange (hin.record (e := .resize ..) trivial)
  · intro c hc hok what hread
    obtain ⟨l, hl, -⟩ := counted_eq n c.left
    rw [hl] at hread
    rw [hrun]
    split_ifs at hread ⊢ with hgt
    cases hread
    exact ⟨rfl, Cursor.fail_err hok⟩
  · intro s a rest hread t
    obtain ⟨l, hl, htake⟩ := counted_eq n s
    obtain ⟨l', hl', htake'⟩ := counted_eq n (s ++ t)
    rw [hl] at hread
    rw [hl']
    split_ifs at hread with hgt
    have hle := not_lt.mp hgt
    have hlong : n.toNat ≤ (s ++ t).length := by rw [length_append]; omega
    cases hread
    have heq : l' = a := by
      refine Subtype.ext ?_
      rw [htake hle, htake' hlong, take_append_of_le_length hle]
    rw [if_neg (not_lt.mpr hlong), heq, drop_append_of_le_length hle]

/-- **A value of an enumeration** is taken from a byte in any case, and from one that has none only
where the reader fails. -/
theorem Tracks.enum (ofNat : Nat → α) (last : Nat) (what : String) :
    Tracks (Cursor.enum ofNat last what) (Reader.enum ofNat last what) := by
  refine tracks_u8.bind fun b => ?_
  by_cases hgt : b.toNat > last
  · rw [decide_eq_true hgt]
    have hfail := Tracks.fail what (ofNat b.toNat)
    exact
      { wf := fun c hc => (hfail.wf c hc).record (e := .enum b.toNat last) trivial
        bytes_eq := fun _ => rfl
        stuck := fun c hc hok => hfail.stuck c hc hok
        reads := fun _ _ _ _ _ hread => nomatch hread
        fails := fun c hc hok what hread => hfail.fails c hc hok what hread
        extends_ := fun _ _ _ hread => nomatch hread }
  · rw [decide_eq_false hgt]
    exact
      { wf := fun c hc => hc.record (e := .enum b.toNat last) trivial
        bytes_eq := fun _ => rfl
        stuck := fun _ _ hok => ⟨hok, rfl⟩
        reads := fun c _ hok a rest hread => by
          cases hread
          exact ⟨rfl, hok, rfl, fun hin => hin.record (e := .enum b.toNat last) (not_lt.mp hgt)⟩
        fails := fun _ _ _ _ hread => nomatch hread
        extends_ := fun _ _ _ hread _ => by
          cases hread
          rfl }

end Rules

/-- A reader as it goes on and as it stops, of which the first does what the second does. -/
structure Tracked (α : Type) where
  cursor : CursorM α
  reader : Reader α
  tracks : Tracks cursor reader

namespace Tracked

instance : Monad Tracked where
  pure a := ⟨Pure.pure a, Pure.pure a, .pure a⟩
  bind x f := ⟨x.cursor >>= fun a => (f a).cursor, x.reader >>= fun a => (f a).reader,
    x.tracks.bind fun a => (f a).tracks⟩

/-- **What is made of the steps of a reader** does the same with either of them. -/
instance : Wire Tracked where
  u8 := ⟨Wire.u8, Wire.u8, tracks_u8⟩
  var := ⟨Wire.var, Wire.var, tracks_var⟩
  u32 := ⟨Wire.u32, Wire.u32, tracks_u32⟩
  i32 := ⟨Wire.i32, Wire.i32, tracks_i32⟩
  f64 := ⟨Wire.f64, Wire.f64, tracks_f64⟩
  str := ⟨Wire.str, Wire.str, tracks_str⟩
  reject bad what := ⟨Wire.reject bad what, Wire.reject bad what, .reject bad what⟩
  enum ofNat last what := ⟨Wire.enum ofNat last what, Wire.enum ofNat last what, .enum ..⟩
  field present default x :=
    ⟨Wire.field present default x.cursor, Wire.field present default x.reader, x.tracks.field⟩
  vec x := ⟨Wire.vec x.cursor, Wire.vec x.reader, x.tracks.vec⟩
  vecOk default x := ⟨Wire.vecOk default x.cursor, Wire.vecOk default x.reader, x.tracks.vecOk _⟩

end Tracked

end Bronze.Codec
