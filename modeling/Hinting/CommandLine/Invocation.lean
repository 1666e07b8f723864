/-
# `Hinting.CommandLine.Invocation` — reading the arguments

Arguments are read from left to right.  An option or a file name is first
*pending* and is *settled* when the next option is read, when a file name follows,
or at the end; only then is it looked at whether it has a value, whether it was
given before, and whether its value is good.  So of two mistakes the one that is
settled first is reported, except that an argument that nothing asks for is
reported as soon as it is met.

A pending option without a value takes the next argument, unless that looks like an
option.  After `--` nothing looks like an option.

When everything is settled, arguments that exclude each other are reported before a
missing file.
-/
import Hinting.CommandLine.Usage
import Hinting.Writer

namespace Hinting.CommandLine

/-- What is printed about the program. -/
inductive Output where
  | listing
  | assembly (options : Options)
  deriving DecidableEq

/-- A command line that asks for the output of one file. -/
structure Invocation where
  file : Text
  output : Output
  deriving DecidableEq

/-- Why a command line asks for no output of a file. -/
inductive Exit where
  | help
  | version
  | usage (e : UsageError)
  deriving DecidableEq

/-- An argument that is not settled yet. -/
inductive Pending where
  /-- The dialect, with its value if that was read. -/
  | dialect (value : Option Text)
  | file (name : Text)

/-- What has been read so far. -/
structure Reading where
  /-- The options that are settled, in the order of settling. -/
  settled : List Argument := []
  pending : Option Pending := none
  dialect : Dialect := .ttx
  file : Option Text := none
  /-- Whether a file name was read, settled or not. -/
  fileRead : Bool := false

namespace Reading

/-- An option is settled for the first time. -/
def enrol (r : Reading) (a : Argument) : Except Exit Reading :=
  if a ∈ r.settled then .error (.usage (.repeated a))
  else .ok { r with settled := r.settled ++ [a] }

def settleDialect (r : Reading) (value : Text) : Except Exit Reading := do
  let r ← r.enrol .dialect
  match Dialect.ofName? value with
  | some dialect => return { r with dialect := dialect }
  | none => .error (.usage (.invalidDialect value))

def settle (r : Reading) : Except Exit Reading :=
  let r' := { r with pending := none }
  match r.pending with
  | none => .ok r'
  | some (.dialect none) => .error (.usage (.missingValue .dialect))
  | some (.dialect (some value)) => r'.settleDialect value
  | some (.file name) =>
    if name.isEmpty then .error (.usage (.missingValue .file))
    else .ok { r' with file := some name }

def readFlag (r : Reading) (a : Argument) : Except Exit Reading := do
  let r ← r.settle
  match a with
  | .help => .error .help
  | .version => .error .version
  | a => r.enrol a

/-- Reads the dialect option, with its value if that is attached. -/
def readDialect (r : Reading) (attached : Option Text) : Except Exit Reading := do
  let r ← r.settle
  match attached with
  | some value => r.settleDialect value
  | none => return { r with pending := some (.dialect none) }

/-- Reads an option by its long name; a value may be attached after an equals sign. -/
def readLong (r : Reading) (option : Text) : Except Exit Reading :=
  let name := option.takeWhile (· ≠ '=')
  let attached := (option.dropWhile (· ≠ '=')).tail?
  match Argument.ofLong? name, attached with
  | none, _ => .error (.usage (.unexpected ("--".toList ++ name)))
  | some .dialect, attached => r.readDialect attached
  | some a, some value => .error (.usage (.unneededValue a value))
  | some a, none => r.readFlag a

/-- The value attached to a short option, if there is one. -/
def attachedToShort : Text → Option Text
  | [] => none
  | '=' :: value => some value
  | value => some value

/-- Reads options by their short names, one after the other. -/
def readShort (r : Reading) : Text → Except Exit Reading
  | [] => .ok r
  | c :: cs =>
    match Argument.ofShort? c with
    | none => .error (.usage (.unexpected ['-', c]))
    | some .dialect => r.readDialect (attachedToShort cs)
    | some a => do
      let r ← r.readFlag a
      r.readShort cs

def readFile (r : Reading) (name : Text) : Except Exit Reading :=
  if r.fileRead then .error (.usage (.unexpected name))
  else do
    let r ← r.settle
    return { r with pending := some (.file name), fileRead := true }

/-- Reads an argument that is no option: the value that an option waits for, or a file name. -/
def readPlain (r : Reading) (argument : Text) : Except Exit Reading :=
  match r.pending with
  | some (.dialect none) => .ok { r with pending := some (.dialect (some argument)) }
  | _ => r.readFile argument

def readAll (r : Reading) : List Text → Except Exit Reading
  | [] => .ok r
  | argument :: rest =>
    match argument with
    | ['-', '-'] => rest.foldlM readFile r
    | '-' :: '-' :: option => do
      let r ← r.readLong option
      r.readAll rest
    | '-' :: c :: cs => do
      let r ← r.readShort (c :: cs)
      r.readAll rest
    | argument => do
      let r ← r.readPlain argument
      r.readAll rest

/-- The first of the settled options that excludes others, together with those. -/
def conflict? (r : Reading) : Option UsageError :=
  r.settled.findSome? fun a =>
    match r.settled.filter a.conflictsWith with
    | [] => none
    | others => some (.conflict a others)

/-- What the settled options ask to be printed. -/
def output (r : Reading) : Output :=
  if .listing ∈ r.settled then .listing
  else
    .assembly
      { dialect := r.dialect
        lineEnding := if .crlf ∈ r.settled then ['\r', '\n'] else ['\n'] }

/-- What the command line asks for, after the last argument. -/
def finish (r : Reading) : Except Exit Invocation := do
  let r ← r.settle
  match r.conflict?, r.file with
  | some e, _ => .error (.usage e)
  | none, none => .error (.usage .missingFile)
  | none, some file => return ⟨file, r.output⟩

end Reading

/-- Reads a command line, less the name of the program. -/
def Invocation.ofArguments (arguments : List Text) : Except Exit Invocation := do
  let r ← Reading.readAll {} arguments
  r.finish

end Hinting.CommandLine
