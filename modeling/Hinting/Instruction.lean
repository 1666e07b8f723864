/-
# `Hinting.Instruction` — a command in its place

An instruction is what a program holds at one offset: the parts of a command
together with the offset, the number of bytes, and the depth at which the
instruction is written.  `Command.placed` puts a command in its place; an
instruction may hold any other combination of values too, and everything that is
written about it is defined for all of them.

The one-line form (`Instruction.text`) is the mnemonic with the bits in brackets,
followed by the values.
-/
import Hinting.Command

namespace Hinting

/-- An operation with its arguments and bits, at an offset. -/
structure Instruction where
  /-- The offset of the opcode. -/
  offset : Nat
  /-- The number of bytes, operands included. -/
  length : Nat
  opcode : UInt8
  operation : Operation
  /-- The values of a push, in the order of the program. -/
  arguments : List Int
  /-- The argument bits of an operation that has some and is no push. -/
  bits : Option Bits
  /-- The number of blocks around the instruction. -/
  indent : Nat
  deriving DecidableEq

/-- The instruction that a command is at an offset and a depth. -/
def Command.placed (c : Command) (offset indent : Nat) : Instruction where
  offset := offset
  length := c.size
  opcode := c.opcode
  operation := c.operation
  arguments := c.arguments
  bits := c.bits
  indent := indent

namespace Instruction

def mnemonic (i : Instruction) : Text := i.operation.mnemonic

def description (i : Instruction) : Text := i.operation.description

def isPush (i : Instruction) : Bool := i.operation.isPush

/-- The first offset after the instruction. -/
def finish (i : Instruction) : Nat := i.offset + i.length

def bracketed (i : Instruction) (inside : Text) : Text :=
  i.mnemonic ++ '[' :: (inside ++ [']'])

/-- The bits in digits, or a space where there are none. -/
def bitsText (i : Instruction) : Text :=
  match i.bits with
  | none => [' ']
  | some bits => bits.digits

/-- The arguments in decimal with a separator between them. -/
def argumentsText (i : Instruction) (separator : Text) : Text :=
  separator.intercalate (i.arguments.map Numeral.signed)

def text (i : Instruction) : Text :=
  i.bracketed i.bitsText ++ i.arguments.flatMap fun v => ' ' :: Numeral.signed v

end Instruction

end Hinting
