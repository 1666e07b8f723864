/-
# `Hinting.Main` — the program

Reads the file that the arguments name, and prints the answer.  All of the answer is
computed by `Hinting.CommandLine`.
-/
import Hinting.CommandLine

namespace Hinting.CommandLine

/-- Prints a response and hands on its exit code. -/
def deliver (r : Response) : IO UInt32 := do
  (← IO.getStdout).putStr (String.ofList r.stdout)
  (← IO.getStderr).putStr (String.ofList r.stderr)
  return UInt32.ofNat r.exitCode

/-- The contents of a file, or the reason why it cannot be read. -/
def readContents (file : Text) : IO (Except Text Bytes) := do
  try
    let contents ← IO.FS.readBinFile (String.ofList file)
    return .ok contents.data.toList
  catch e => return .error (toString e).toList

/-- Answers a command line, reading the file that it names if it names one. -/
def answer (arguments : List String) : IO UInt32 := do
  let arguments := arguments.map String.toList
  let contents ← match Invocation.ofArguments arguments with
    | .ok invocation => readContents invocation.file
    | .error _ => pure (.ok [])
  deliver (run (fun _ => contents) (.stamped fun _ => []) arguments)

end Hinting.CommandLine

def main (arguments : List String) : IO UInt32 := Hinting.CommandLine.answer arguments
