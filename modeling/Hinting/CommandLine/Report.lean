/-
# `Hinting.CommandLine.Report` — what is printed about a run

Whatever happens in a run is handed to a printer, one entry after the other.  Which levels
are shown and what a line looks like is up to the printer.  A line may tell the time, so
the printer is given the number of the entry in the run.

The one thing to be relied on is which levels are shown (`Printer.HidesDetails`).
-/
import Hinting.Log
import Hinting.Terminal
import Hinting.CommandLine.Usage

namespace Hinting

namespace CommandLine

structure Printer where
  shows : Level → Bool
  /-- The line on the entry with a number, without its line feed. -/
  line : Nat → Entry → Text

namespace Printer

/-- Just what matters at least as much as information does is shown. -/
def HidesDetails (printer : Printer) : Prop := ∀ level, printer.shows level = !level.isDetail

def print (printer : Printer) (number : Nat) (e : Entry) : Text :=
  if printer.shows e.level then printer.line number e ++ ['\n'] else []

/-- Prints entries in turn, the first of which has a number. -/
def printFrom (printer : Printer) : Nat → List Entry → Text
  | _, [] => []
  | number, e :: es => printer.print number e ++ printer.printFrom (number + 1) es

/-- A printer of lines such as ` WARN ttdisasm::bytecode::binary: …`, each behind a stamp.  An
entry with fields is a detail, so that none are shown. -/
def stamped (stamp : Nat → Text) : Printer where
  shows level := !level.isDetail
  line number e :=
    let padding := List.replicate (5 - e.level.name.length) ' '
    stamp number ++ padding ++ e.level.name ++ ' ' :: (e.target ++ ": ".toList)
      ++ Terminal.escape e.message

theorem hidesDetails_stamped (stamp : Nat → Text) : (stamped stamp).HidesDetails :=
  fun _ => rfl

end Printer

end CommandLine

/-- The report on an error of the program. -/
def Entry.failure (message : Text) : Entry := ⟨.error, CommandLine.programName, message, []⟩

end Hinting
