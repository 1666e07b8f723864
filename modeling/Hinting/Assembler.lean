/-
# `Hinting.Assembler` — from generic assembly to a program

A source text is read line by line.  Lines of white space alone are skipped, but
they count.  Every other line is the header line of a command, or the values line
of the push right before it.  A push takes the next line if that is a values line,
and pushes nothing otherwise; what stands in its brackets is of no matter.

The first line that makes no command ends the assembly, with the reason
(`AssemblyError`).
-/
import Hinting.Command
import Hinting.Source

namespace Hinting

/-! ## Errors -/

namespace AssemblyError

/-- Why a line makes no command. -/
inductive Cause where
  /-- The line is no header line. -/
  | notHeader (source : Text)
  /-- No operation has the name. -/
  | unknownName (name : Text)
  /-- The brackets hold too few or too many digits. -/
  | bitCount (operation : Operation) (digits : Text)
  /-- The brackets hold a space between digits. -/
  | invalidDigit
  /-- The operation cannot push so many values. -/
  | valueCount (operation : Operation) (count : Nat)
  /-- The value does not fit into an operand. -/
  | outOfRange (operation : Operation) (value : Int)
  deriving DecidableEq

end AssemblyError

/-- The reason why a text is no program, and the number of the line at fault. -/
structure AssemblyError where
  line : Nat
  cause : AssemblyError.Cause
  deriving DecidableEq

namespace AssemblyError

/-- The report on a cause, less the number of the line. -/
def Cause.text : Cause → Text
  | notHeader source => "cannot parse `".toList ++ source ++ "`.".toList
  | unknownName name => name ++ " is not an operation.".toList
  | bitCount op digits =>
    op.mnemonic ++ " takes ".toList ++ Numeral.decimal op.argBits
      ++ " bits but was given `".toList ++ digits ++ "`.".toList
  | invalidDigit => "invalid digit found in string".toList
  | valueCount op count =>
    op.mnemonic ++ " cannot push ".toList ++ Numeral.decimal count ++ " values.".toList
  | outOfRange op value =>
    Numeral.signed value ++ " is out of range for ".toList ++ op.mnemonic ++ ['.']

/-- The report on an error.  It names the line, except where a digit is invalid. -/
def message (e : AssemblyError) : Text :=
  match e.cause with
  | .invalidDigit => e.cause.text
  | cause => "Error on line ".toList ++ Numeral.decimal e.line ++ ": ".toList ++ cause.text

end AssemblyError

/-! ## Lines -/

/-- A line of a source text that is not all white space. -/
structure SourceLine where
  /-- The number of the line, from one on. -/
  number : Nat
  text : Text

/-- The lines of a source text that count. -/
def sourceLines (t : Text) : List SourceLine :=
  (((Text.lines t).zipIdx 1).map fun (text, number) => ⟨number, text⟩).filter fun line =>
    !line.text.all Text.isWhite

namespace SourceLine

def error (line : SourceLine) (cause : AssemblyError.Cause) : AssemblyError :=
  ⟨line.number, cause⟩

/-- The operation that a header line names, and what stands in its brackets. -/
def header (line : SourceLine) : Except AssemblyError (Operation × Text) :=
  match Header.ofLine? line.text with
  | none => .error (line.error (.notHeader line.text))
  | some header =>
    match Operation.ofMnemonic? header.name with
    | none => .error (line.error (.unknownName header.name))
    | some op => .ok (op, header.inside)

def plain (line : SourceLine) (op : Operation) (inside : Text) : Except AssemblyError Command :=
  let digits := Text.trim inside
  if digits.length = op.argBits then
    match Numeral.binary? digits with
    | some value => .ok (.plain op value)
    | none => .error (line.error .invalidDigit)
  else .error (line.error (.bitCount op digits))

def push (line : SourceLine) (op : Operation) (w : PushWidth) (values : List Int) :
    Except AssemblyError Command :=
  if op.admitsCount values.length then
    match values.find? fun v => !w.holds v with
    | none => .ok (.push op values)
    | some v => .error (line.error (.outOfRange op v))
  else .error (line.error (.valueCount op values.length))

end SourceLine

/-! ## Assembling -/

def commands : List SourceLine → Except AssemblyError (List Command)
  | [] => .ok []
  | line :: rest => do
    let (op, inside) ← line.header
    match op.pushWidth? with
    | none =>
      let command ← line.plain op inside
      return command :: (← commands rest)
    | some w =>
      match rest with
      | [] => return [← line.push op w []]
      | next :: rest =>
        match Values.ofLine? next.text with
        | some values =>
          let command ← line.push op w values
          return command :: (← commands rest)
        | none =>
          let command ← line.push op w []
          return command :: (← commands (next :: rest))

/-- The program that a source text describes. -/
def assemble (t : Text) : Except AssemblyError Bytes :=
  (commands (sourceLines t)).map fun cs => cs.flatMap Command.encode

end Hinting
