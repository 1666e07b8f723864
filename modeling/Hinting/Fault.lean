/-
# `Hinting.Fault` — what makes a program unwritable

Two things can go wrong with a program: an opcode that belongs to no operation,
and bits that the VTT dialect has no letters for.  A fault tells which of the two
happened, at which offset, and what had been written before it.
-/
import Hinting.Instruction

namespace Hinting

namespace Fault

inductive Kind where
  /-- The opcode belongs to no operation. -/
  | unknownOpcode (opcode : UInt8)
  /-- The bits have no spelling for the operation. -/
  | illegalBits (operation : Operation) (bits : Bits)
  deriving DecidableEq

end Fault

/-- The reason why a program cannot be written, and where it lies. -/
structure Fault where
  kind : Fault.Kind
  /-- The offset of the instruction at fault. -/
  offset : Nat
  /-- What was written before the fault. -/
  partialOutput : Text
  deriving DecidableEq

namespace Fault

def unknownOpcode (opcode : UInt8) (offset : Nat) : Fault :=
  ⟨.unknownOpcode opcode, offset, []⟩

def illegalBits (operation : Operation) (bits : Bits) (offset : Nat) : Fault :=
  ⟨.illegalBits operation bits, offset, []⟩

/-- The fault with a text written before it, less the white space at its end. -/
def withPartialOutput (fault : Fault) (text : Text) : Fault :=
  { fault with partialOutput := Text.trimEnd text }

/-- An offset as reports write it. -/
def offsetText (offset : Nat) : Text := "0x".toList ++ Numeral.hex 4 offset

def message (fault : Fault) : Text :=
  (match fault.kind with
    | .unknownOpcode opcode => "Illegal opcode 0x".toList ++ Numeral.hex 2 opcode.toNat
    | .illegalBits operation bits =>
      "Illegal bitfield combination ".toList ++ bits.digits ++ " for ".toList
        ++ operation.mnemonic)
    ++ " at offset ".toList ++ offsetText fault.offset ++ ['.']

end Fault

end Hinting
