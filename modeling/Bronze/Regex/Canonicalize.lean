import Bronze.Regex.Pattern

/-!
# Characters up to case

Without the `u` and `v` flags `canonicalize` of `src/regex/chars.cpp` maps a unit to uppercase, by
one function for each block it has data for, and the parser refuses a literal of the blocks it has
none for. The standard's Canonicalize, section 22.2.2.7.3, is over the full uppercase mapping, which
is a parameter.
-/

namespace Bronze.Regex

def foldLatin1 (unit : Nat) : Nat :=
  if 0x61 ≤ unit ∧ unit ≤ 0x7A then unit - 32
  else if unit = 0x00DF then unit
  else if unit = 0x00B5 then 0x039C
  else if unit = 0x00FF then 0x0178
  else if 0x00E0 ≤ unit ∧ unit ≤ 0x00FE ∧ unit ≠ 0x00F7 then unit - 32
  else unit

def foldLatinExtendedA (unit : Nat) : Nat :=
  if unit = 0x0130 ∨ unit = 0x0131 ∨ unit = 0x0138 ∨ unit = 0x0149 ∨ unit = 0x0178 ∨
      unit = 0x017F then
    unit
  else if unit ≤ 0x0137 then if unit % 2 = 1 then unit - 1 else unit
  else if unit ≤ 0x0148 then if unit % 2 = 1 then unit else unit - 1
  else if unit ≤ 0x0177 then if unit % 2 = 1 then unit - 1 else unit
  else if unit % 2 = 1 then unit
  else unit - 1

/-- The letters of `foldGreek` that follow no rule. -/
def greekExceptions : Nat → Option Nat
  | 0x03AC => some 0x0386
  | 0x03AD => some 0x0388
  | 0x03AE => some 0x0389
  | 0x03AF => some 0x038A
  | 0x03CC => some 0x038C
  | 0x03CD => some 0x038E
  | 0x03CE => some 0x038F
  | 0x0371 => some 0x0370
  | 0x0373 => some 0x0372
  | 0x0377 => some 0x0376
  | 0x037B => some 0x03FD
  | 0x037C => some 0x03FE
  | 0x037D => some 0x03FF
  | 0x03D0 => some 0x0392
  | 0x03D1 => some 0x0398
  | 0x03D5 => some 0x03A6
  | 0x03D6 => some 0x03A0
  | 0x03D7 => some 0x03CF
  | 0x03F0 => some 0x039A
  | 0x03F1 => some 0x03A1
  | 0x03F2 => some 0x03F9
  | 0x03F3 => some 0x037F
  | 0x03F5 => some 0x0395
  | 0x03F8 => some 0x03F7
  | 0x03FB => some 0x03FA
  | _ => none

def foldGreek (unit : Nat) : Nat :=
  if 0x03B1 ≤ unit ∧ unit ≤ 0x03C1 then unit - 32
  else if unit = 0x03C2 then 0x03A3
  else if 0x03C3 ≤ unit ∧ unit ≤ 0x03CB then unit - 32
  else
    match greekExceptions unit with
    | some upper => upper
    | none => if 0x03D8 ≤ unit ∧ unit ≤ 0x03EF ∧ unit % 2 ≠ 0 then unit - 1 else unit

def foldCyrillic (unit : Nat) : Nat :=
  if 0x0430 ≤ unit ∧ unit ≤ 0x044F then unit - 32
  else if 0x0450 ≤ unit ∧ unit ≤ 0x045F then unit - 80
  else if unit = 0x04CF then 0x04C0
  else if 0x0460 ≤ unit ∧ unit ≤ 0x0481 ∧ unit % 2 ≠ 0 then unit - 1
  else if 0x048A ≤ unit ∧ unit ≤ 0x04BF ∧ unit % 2 ≠ 0 then unit - 1
  else if 0x04C1 ≤ unit ∧ unit ≤ 0x04CE ∧ unit % 2 = 0 then unit - 1
  else if 0x04D0 ≤ unit ∧ unit ≤ 0x052F ∧ unit % 2 ≠ 0 then unit - 1
  else unit

/-- The part of `canonicalize` for the `i` flag without `u` and `v`. -/
def unitUppercase (code : Nat) : Nat :=
  let unit := code % 0x10000
  if unit < 0x0100 then foldLatin1 unit
  else if unit < 0x0180 then foldLatinExtendedA unit
  else if 0x0370 ≤ unit ∧ unit ≤ 0x03FF then foldGreek unit
  else if 0x0400 ≤ unit ∧ unit ≤ 0x052F then foldCyrillic unit
  -- the Armenian letters
  else if 0x0561 ≤ unit ∧ unit ≤ 0x0586 then unit - 48
  else unit

def kUnknownCasedBlocks : RangeList :=
  [⟨0x0180, 0x02FF⟩, ⟨0x0300, 0x036F⟩, ⟨0x037A, 0x037A⟩, ⟨0x0557, 0x0560⟩, ⟨0x0587, 0x058F⟩,
    ⟨0x10A0, 0x10FF⟩, ⟨0x13A0, 0x13FF⟩, ⟨0x1C80, 0x1CBF⟩, ⟨0x1E00, 0x1FFF⟩, ⟨0x2100, 0x218F⟩,
    ⟨0x24B6, 0x24E9⟩, ⟨0x2C00, 0x2D2F⟩, ⟨0xA640, 0xA7FF⟩, ⟨0xAB53, 0xABBF⟩, ⟨0xFB00, 0xFB17⟩,
    ⟨0xFF21, 0xFF5A⟩]

/-- The loop of `firstUnknownCasedUnitInRange`: the lowest unit of a range that a block holds. -/
def firstUnknownCased (lo hi : Nat) : RangeList → Option Nat
  | [] => none
  | r :: blocks =>
    if r.lo > hi then none
    else if r.hi < lo then firstUnknownCased lo hi blocks
    else some (if lo > r.lo then lo else r.lo)

def firstUnknownCasedUnitInRange (lo hi : Nat) : Option Nat :=
  if lo > hi then none else firstUnknownCased lo hi kUnknownCasedBlocks

def isUnknownCasedUnit (unit : Nat) : Bool := (firstUnknownCasedUnitInRange unit unit).isSome

/-- The test of `charNode`, which refuses a literal. -/
def refusesLiteral (flags : Flags) (code : Nat) : Bool :=
  flags.ignoreCase && !flags.unicodeMode && isUnknownCasedUnit code

/-- Canonicalize without the `u` and `v` flags. The full uppercase mapping answers the units of a
character. -/
def Semantics.uppercase (toUppercase : Nat → List Nat) (ch : Nat) : Nat :=
  match toUppercase ch with
  -- an uppercase that is ASCII is kept for ASCII only
  | [cu] => if 128 ≤ ch ∧ cu < 128 then ch else cu
  | _ => ch

def Semantics.canonicalize (toUppercase : Nat → List Nat) (simpleCaseFold : Nat → Nat)
    (flags : Flags) (ch : Nat) : Nat :=
  if flags.unicodeMode && flags.ignoreCase then simpleCaseFold ch
  else if !flags.ignoreCase then ch
  else uppercase toUppercase ch

/-- What the full uppercase mapping takes together, the table of the blocks does, or the simple
folding. -/
def Semantics.Covered (toUppercase : Nat → List Nat) (simpleCaseFold : Nat → Nat) : Prop :=
  ∀ a b, uppercase toUppercase a = uppercase toUppercase b →
    unitUppercase a = unitUppercase b ∨ simpleCaseFold a = simpleCaseFold b

end Bronze.Regex
