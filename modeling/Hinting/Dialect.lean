/-
# `Hinting.Dialect` — the two spellings of an instruction

An instruction is written in one of two dialects, each as a list of lines.

* The generic dialect, **TTX**, writes bits as digits and puts the values of a
  push on a line of their own.
* **VTT** writes bits as letters, a push as a directive, and a relative jump
  between two guards that switch the directive on and off.  It cannot write an
  instruction whose bits have no spelling, and hands those bits back (`vttLines`).

Every line is indented by the depth of the instruction, the guards apart.
-/
import Hinting.Instruction

namespace Hinting

inductive Dialect where
  | ttx | vtt
  deriving DecidableEq

namespace Dialect

def name : Dialect → Text
  | .ttx => "ttx".toList
  | .vtt => "vtt".toList

/-- The dialect with a name, which may be given in letters of either case.  The generic
dialect has two names. -/
def ofName? (name : Text) : Option Dialect :=
  let name := name.map Char.toLower
  if name = "ttx".toList ∨ name = "generic".toList then some .ttx
  else if name = "vtt".toList then some .vtt
  else none

end Dialect

namespace Instruction

/-- A line at the depth of the instruction. -/
def indented (i : Instruction) (line : Text) : Text := Text.indentation i.indent ++ line

/-- The mnemonic with the bits in brackets, followed by the descriptive name in a comment. -/
def described (i : Instruction) (bits : Text) : Text :=
  i.bracketed bits ++ "\t/* ".toList ++ i.description ++ " */".toList

/-! ## The generic dialect -/

/-- How many values a push pushes, in words. -/
def countText (count : Nat) : Text :=
  Numeral.decimal count ++ (if count = 1 then " value pushed" else " values pushed").toList

/-- The mnemonic of a push, followed by the number of its values in a comment. -/
def counted (i : Instruction) : Text :=
  i.bracketed [' '] ++ "\t/* ".toList ++ countText i.arguments.length ++ " */".toList

def ttxLines (i : Instruction) : List Text :=
  if i.isPush then
    i.indented i.counted
      :: (if i.arguments.isEmpty then [] else [i.indented (i.argumentsText [' '])])
  else [i.indented (i.described i.bitsText)]

/-! ## VTT -/

/-- The line after which pushes stand in the program. -/
def pushOff : Text := "#PUSHOFF".toList

/-- The line after which pushes are left to the assembler. -/
def pushOn : Text := "#PUSHON".toList

def pushDirective (i : Instruction) : Text :=
  if i.arguments.isEmpty then "#PUSH".toList
  else "#PUSH, ".toList ++ i.argumentsText [',', ' ']

/-- A jump takes its operands from the stack, and a star stands for each. -/
def jumpDirective (i : Instruction) : Text :=
  i.mnemonic ++ (if i.operation.isConditionalJump then ", *, *" else ", *").toList

/-- The bits in letters, and nothing where there are no bits.  Bits without a spelling are
handed back. -/
def letters (i : Instruction) : Except Bits Text :=
  match i.bits with
  | none => .ok []
  | some bits =>
    match i.operation.spellBits? bits with
    | some letters => .ok letters
    | none => .error bits

/-- The lines of an instruction in VTT, or the bits that have no spelling. -/
def vttLines (i : Instruction) : Except Bits (List Text) :=
  if i.isPush then .ok [i.indented i.pushDirective]
  else if i.operation.isVttJump then .ok [pushOn, i.indented i.jumpDirective, pushOff]
  else i.letters.map fun letters => [i.indented (i.described letters)]

end Instruction

/-- The lines of an instruction in a dialect, or the bits that the dialect cannot write. -/
def Dialect.linesOf : Dialect → Instruction → Except Bits (List Text)
  | .ttx, i => .ok i.ttxLines
  | .vtt, i => i.vttLines

end Hinting
