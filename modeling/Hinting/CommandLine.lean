/-
# `Hinting.CommandLine` — what the program prints

A command line that asks for help, for the version, or for nothing that makes
sense is answered at once.  Any other asks for the output of one file, and the
answer depends on its contents alone: the output and a line feed, or the report on
a fault with what was written before it.

Two things come from outside.  The contents of a file are what a reader makes of its
name, or else the reason why there are none; and the events of the run are printed by
a printer.

The exit code is 0 for an output, 1 for a file without one, and 2 for a usage error.
-/
import Hinting.CommandLine.Invocation
import Hinting.CommandLine.Report
import Hinting.Listing

namespace Hinting.CommandLine

/-- What a run of the program leaves behind. -/
structure Response where
  exitCode : Nat
  stdout : Text
  stderr : Text
  deriving DecidableEq

/-- What was written before a fault, on lines of its own. -/
def partialLines (fault : Fault) : Text :=
  if fault.partialOutput.isEmpty then [] else fault.partialOutput ++ ['\n']

/-- What is printed about a program, with the events of the run. -/
def Output.ofProgram (output : Output) (program : Bytes) : Logged (Except Fault Text) :=
  match output with
  | .listing => (listingLogged program).map fun result => result.map Listing.text
  | .assembly options => disassembleLogged options program

/-- The answer to a command line that asks for no output of a file. -/
def Exit.respond : Exit → Response
  | help => ⟨0, helpText, []⟩
  | version => ⟨0, versionText, []⟩
  | usage e => ⟨2, [], e.report⟩

namespace Invocation

def respond (printer : Printer) (i : Invocation) (contents : Bytes) : Response :=
  let run := i.output.ofProgram contents
  let entries := run.events.map Event.entry
  match run.value with
  | .ok text => ⟨0, text ++ ['\n'], printer.printFrom 0 entries⟩
  | .error fault =>
    ⟨1, [], printer.printFrom 0 (entries ++ [.failure fault.message]) ++ partialLines fault⟩

/-- The answer for a file that cannot be read. -/
def respondUnreadable (printer : Printer) (i : Invocation) (reason : Text) : Response :=
  let message := "Could not read ".toList ++ i.file ++ ": ".toList ++ reason
  ⟨1, [], printer.printFrom 0 [.failure message]⟩

end Invocation

def run (read : Text → Except Text Bytes) (printer : Printer) (arguments : List Text) :
    Response :=
  match Invocation.ofArguments arguments with
  | .error exit => exit.respond
  | .ok invocation =>
    match read invocation.file with
    | .ok contents => invocation.respond printer contents
    | .error reason => invocation.respondUnreadable printer reason

end Hinting.CommandLine
