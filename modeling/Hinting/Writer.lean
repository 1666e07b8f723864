/-
# `Hinting.Writer` — the text of a program, instruction by instruction

A writer collects the lines of one instruction after another and joins them with
a line ending of choice.  It takes any instructions.  An instruction that the
dialect cannot write is a fault, which carries the text so far.  The writer is
there all the same, and the next one may be written with it (`attempt`).

Whatever a dialect pushes, line by line, adds up to the lines that it has for the
instruction (`attempt_eq`).

In VTT the finished text stands between two guards, unless there is none.
-/
import Hinting.Dialect
import Hinting.Fault

namespace Hinting

/-- How a program is written out. -/
structure Options where
  dialect : Dialect := .ttx
  /-- What stands between two lines. -/
  lineEnding : Text := ['\n']
  deriving DecidableEq

structure Writer where
  options : Options
  /-- The lines written so far. -/
  lines : Array Text

namespace Writer

def start (options : Options) : Writer := ⟨options, #[]⟩

/-- The text written so far, without a frame and without white space at its end. -/
def text (w : Writer) : Text :=
  Text.trimEnd (w.options.lineEnding.intercalate w.lines.toList)

def pushLine (w : Writer) (indent : Nat) (line : Text) : Writer :=
  { w with lines := w.lines.push (Text.indentation indent ++ line) }

def writeTtx (w : Writer) (i : Instruction) : Writer :=
  if i.isPush then
    let w := w.pushLine i.indent i.counted
    if i.arguments.isEmpty then w else w.pushLine i.indent (i.argumentsText [' '])
  else w.pushLine i.indent (i.described i.bitsText)

def writeVtt (w : Writer) (i : Instruction) : Option Fault × Writer :=
  if i.isPush then (none, w.pushLine i.indent i.pushDirective)
  else if i.operation.isVttJump then
    let w := w.pushLine 0 Instruction.pushOn
    let w := w.pushLine i.indent i.jumpDirective
    (none, w.pushLine 0 Instruction.pushOff)
  else
    match i.letters with
    | .ok letters => (none, w.pushLine i.indent (i.described letters))
    | .error bits =>
      (some ((Fault.illegalBits i.operation bits i.offset).withPartialOutput w.text), w)

/-- Offers an instruction to the writer: the fault, if it cannot be written, and the writer
that is left in either case. -/
def attempt (w : Writer) (i : Instruction) : Option Fault × Writer :=
  match w.options.dialect with
  | .ttx => (none, w.writeTtx i)
  | .vtt => w.writeVtt i

/-- Writes one instruction.  After a fault the writer is given up. -/
def write (w : Writer) (i : Instruction) : Except Fault Writer :=
  match w.attempt i with
  | (none, w) => .ok w
  | (some fault, _) => .error fault

/-- The text between the guards of VTT. -/
def framed (lineEnding text : Text) : Text :=
  Instruction.pushOff ++ lineEnding ++ text ++ lineEnding ++ Instruction.pushOn

def finish (w : Writer) : Text :=
  match w.options.dialect with
  | .ttx => w.text
  | .vtt => if w.text.isEmpty then [] else framed w.options.lineEnding w.text

/-! ## What a write comes to -/

/-- The lines pushed are those that the instruction has in the dialect, and where it has none
no line has been pushed. -/
theorem attempt_eq (w : Writer) (i : Instruction) :
    w.attempt i = match w.options.dialect.linesOf i with
      | .ok lines => (none, { w with lines := w.lines ++ lines })
      | .error bits =>
        (some ((Fault.illegalBits i.operation bits i.offset).withPartialOutput w.text), w) := by
  rw [attempt]
  cases w.options.dialect with
  | ttx =>
      rw [writeTtx, Dialect.linesOf, Instruction.ttxLines]
      cases i.isPush with
      | false => rfl
      | true => cases i.arguments.isEmpty <;> rfl
  | vtt =>
      rw [writeVtt, Dialect.linesOf, Instruction.vttLines]
      cases i.isPush with
      | true => rfl
      | false =>
          cases i.operation.isVttJump with
          | true => rfl
          | false => cases i.letters <;> rfl

theorem write_eq (w : Writer) (i : Instruction) :
    w.write i = match w.options.dialect.linesOf i with
      | .ok lines => .ok { w with lines := w.lines ++ lines }
      | .error bits =>
        .error ((Fault.illegalBits i.operation bits i.offset).withPartialOutput w.text) := by
  rw [write, attempt_eq]
  cases w.options.dialect.linesOf i <;> rfl

theorem write_of_linesOf {w : Writer} {i : Instruction} {ls : List Text}
    (h : w.options.dialect.linesOf i = .ok ls) :
    w.write i = .ok { w with lines := w.lines ++ ls } := by
  rw [write_eq, h]

end Writer

end Hinting
