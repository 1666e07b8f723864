/-
# `Hinting.Disassembly` — from a program to its text

A disassembly walks through a program and writes each instruction as soon as it
is decoded: a writer is a client of the walk.  It stops at the first instruction
that the dialect cannot write, and events stop with it: what comes later in the
program is neither reported nor warned about.

The fault of the walk itself carries the text written before it, like the fault
of an instruction that cannot be written.
-/
import Hinting.Client
import Hinting.Writer

namespace Hinting

namespace Writer

def client : Client Writer where
  take := write
  blame w fault := fault.withPartialOutput w.text

/-- Writes the instructions of a walk that is finished. -/
def writeAll (w : Writer) (ending : Ending) (is : List Instruction) :
    Logged (Except Fault Writer) :=
  client.takeAll ending w is

theorem writeAll_nil (w : Writer) (ending : Ending) :
    w.writeAll ending [] = match ending.fault? with
      | some fault => ⟨.error (fault.withPartialOutput w.text), ending.events⟩
      | none => ⟨.ok w, ending.events⟩ := rfl

theorem writeAll_of_ok {w w' : Writer} {i : Instruction} (h : w.write i = .ok w')
    (ending : Ending) (is : List Instruction) :
    w.writeAll ending (i :: is) = (w'.writeAll ending is).after [.decoded i] :=
  client.takeAll_of_ok h is

theorem writeAll_of_error {w : Writer} {i : Instruction} {fault : Fault}
    (h : w.write i = .error fault) (ending : Ending) (is : List Instruction) :
    w.writeAll ending (i :: is) = ⟨.error fault, [.decoded i]⟩ :=
  client.takeAll_of_error h is

end Writer

/-- Decodes a program and writes it with a new writer. -/
def writeProgram (options : Options) (program : Bytes) : Logged (Except Fault Writer) :=
  Writer.client.follow (.start options) (.start program)

theorem writeProgram_eq (options : Options) (p : Bytes) :
    writeProgram options p =
      (Writer.start options).writeAll (decoding p).ending (decoding p).instructions :=
  Writer.client.follow_eq _ _

/-- The text of a program, with the events of the run. -/
def disassembleLogged (options : Options) (program : Bytes) : Logged (Except Fault Text) :=
  let written :=
    (writeProgram options program).after [.disassembling program.length options.dialect]
  match written.value with
  | .error fault => written.map fun _ => .error fault
  | .ok w => (written.map fun _ => .ok w.finish).snoc (.disassembled (Text.lines w.finish).length)

def disassemble (options : Options) (program : Bytes) : Except Fault Text :=
  (disassembleLogged options program).value

def ttxAssembly (program : Bytes) : Except Fault Text :=
  disassemble { dialect := .ttx } program

def vttAssembly (program : Bytes) : Except Fault Text :=
  disassemble { dialect := .vtt } program

/-- The program in the generic dialect between two empty lines. -/
def programText (program : Bytes) : Except Fault Text :=
  (ttxAssembly program).map fun text => '\n' :: (text ++ ['\n'])

end Hinting
