/-
# `Hinting.Bits` — argument bits and their spelling in letters

The argument bits of an instruction are a value together with the number of bits
it stands for.  The generic dialect writes them as binary digits (`Bits.digits`).

The VTT dialect writes letters instead, by the meaning the bits have for the
operation.  Operations with the same meaning form a **family**, and a family
spells the value (`Family.spell?`).  Six families know one flag, which is set when
the value is not zero.  The distance **color** has three values out of four, so a
family with a color leaves some values without a spelling.
-/
import Hinting.Operation
import Hinting.Numeral

namespace Hinting

/-- A value of argument bits, and the number of the bits. -/
structure Bits where
  value : Nat
  width : Nat
  deriving DecidableEq

namespace Bits

/-- The binary digits, as many as there are bits. -/
def digits (bits : Bits) : Text := Numeral.binary bits.width bits.value

/-- The bit at an index, counted from the lowest. -/
def isSet (bits : Bits) (index : Nat) : Bool := bits.value.testBit index

end Bits

/-- The meanings that argument bits can have. -/
inductive Family where
  /-- The axis, `Y` or `X`. -/
  | axis
  /-- Parallel (`r`) or perpendicular (`R`) to the line. -/
  | lineRelation
  /-- Without rounding (`r`) or with rounding (`R`). -/
  | rounding
  /-- Reference point 2 or reference point 1. -/
  | referencePoint
  /-- Leave (`m`) or set (`M`) reference point 0. -/
  | autoset
  /-- The outline as fitted to the grid (`N`) or as designed (`O`). -/
  | outline
  /-- The distance type: gray, black or white. -/
  | color
  /-- Autoset, minimum distance, rounding, and a color in the two lowest bits. -/
  | relativeMove
  deriving DecidableEq

namespace Family

/-- The family of an operation; an operation without argument bits for a meaning has none. -/
def of? : Operation → Option Family
  | .SVTCA | .SPVTCA | .SFVTCA | .IUP => some .axis
  | .SPVTL | .SFVTL | .SDPVTL => some .lineRelation
  | .MDAP | .MIAP => some .rounding
  | .SHP | .SHC | .SHZ => some .referencePoint
  | .MSIRP => some .autoset
  | .GC | .MD => some .outline
  | .ROUND | .NROUND => some .color
  | .MDRP | .MIRP => some .relativeMove
  | _ => none

def spellColor? : Nat → Option Text
  | 0 => some ['G', 'r']
  | 1 => some ['B', 'l']
  | 2 => some ['W', 'h']
  | _ => none

/-- One of two letters, by whether any bit is set. -/
def spellFlag (clear set : Char) (bits : Bits) : Text :=
  if bits.value = 0 then [clear] else [set]

/-- The letters for the bits, unless they hold a color that does not exist. -/
def spell? (family : Family) (bits : Bits) : Option Text :=
  match family with
  | .axis => some (spellFlag 'Y' 'X' bits)
  | .lineRelation => some (spellFlag 'r' 'R' bits)
  | .rounding => some (spellFlag 'r' 'R' bits)
  | .referencePoint => some (spellFlag '2' '1' bits)
  | .autoset => some (spellFlag 'm' 'M' bits)
  | .outline => some (spellFlag 'N' 'O' bits)
  | .color => spellColor? bits.value
  | .relativeMove => (spellColor? (bits.value % 4)).map fun color =>
      (if bits.isSet 4 then 'M' else 'm') :: (if bits.isSet 3 then '>' else '<')
        :: (if bits.isSet 2 then 'R' else 'r') :: color

end Family

/-- The letters for an operation's bits, if the operation has a family that spells them. -/
def Operation.spellBits? (op : Operation) (bits : Bits) : Option Text :=
  (Family.of? op).bind fun family => family.spell? bits

theorem Family.spellColor?_eq_none_iff {n : Nat} : spellColor? n = none ↔ 3 ≤ n := by
  match n with
  | 0 | 1 | 2 => simp [spellColor?]
  | n + 3 => simp [spellColor?]

/-- Only a color can lack a spelling: the whole value of a color family, or the two lowest
bits of a relative move. -/
theorem Family.spell?_eq_none_iff {family : Family} {bits : Bits} :
    family.spell? bits = none ↔
      family = .color ∧ 3 ≤ bits.value ∨ family = .relativeMove ∧ bits.value % 4 = 3 := by
  cases family <;> simp [spell?, spellColor?_eq_none_iff]
  omega

end Hinting
