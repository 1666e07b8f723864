/-
# `Hinting.CommandLine.Usage` — arguments, and the errors in them

The command line knows three options that shape the output, two that ask for
information only, and one file.  A usage error is reported in one line that names
the arguments it is about, followed by a reminder of the usage.  What was given on
the command line is repeated without anything that would steer a terminal.
-/
import Hinting.Operation
import Hinting.Terminal

namespace Hinting.CommandLine

def programName : Text := "ttdisasm".toList

/-- What can be given on the command line. -/
inductive Argument where
  | dialect | crlf | listing | help | version | file
  deriving DecidableEq

namespace Argument

def text : Argument → Text
  | dialect => "--dialect <DIALECT>".toList
  | crlf => "--crlf".toList
  | listing => "--listing".toList
  | help => "--help".toList
  | version => "--version".toList
  | file => "<FILE>".toList

def ofLong? (name : Text) : Option Argument :=
  if name = "dialect".toList then some dialect
  else if name = "crlf".toList then some crlf
  else if name = "listing".toList then some listing
  else if name = "help".toList then some help
  else if name = "version".toList then some version
  else none

def ofShort? : Char → Option Argument
  | 'd' => some dialect
  | 'l' => some listing
  | 'h' => some help
  | 'V' => some version
  | _ => none

/-- Whether two arguments exclude each other: a listing has neither a dialect nor line endings
to choose. -/
def conflictsWith : Argument → Argument → Bool
  | listing, dialect | listing, crlf | dialect, listing | crlf, listing => true
  | _, _ => false

end Argument

/-- What is wrong with a command line. -/
inductive UsageError where
  | missingFile
  /-- An argument that nothing asks for. -/
  | unexpected (given : Text)
  | invalidDialect (value : Text)
  /-- An argument together with others that it excludes. -/
  | conflict (argument : Argument) (others : List Argument)
  | repeated (argument : Argument)
  | missingValue (argument : Argument)
  /-- A value for an argument that takes none. -/
  | unneededValue (argument : Argument) (value : Text)
  deriving DecidableEq

namespace UsageError

def quoted (t : Text) : Text := '\'' :: (t ++ ['\''])

/-- Something that was given on the command line, in quotes. -/
def quotedGiven (t : Text) : Text := quoted (Terminal.strip t)

/-- The first line of the report on a usage error. -/
def message : UsageError → Text
  | missingFile => "error: the following required arguments were not provided:".toList
  | unexpected given =>
    "error: unexpected argument ".toList ++ quotedGiven given ++ " found".toList
  | invalidDialect value =>
    "error: invalid value ".toList ++ quotedGiven value ++ " for ".toList
      ++ quoted Argument.dialect.text ++ ": ".toList ++ Operation.unknownNameMessage
  | conflict argument others =>
    "error: the argument ".toList ++ quoted argument.text ++ " cannot be used with".toList
      ++ (match others with
        | [other] => ' ' :: quoted other.text
        | _ => [':'])
  | repeated argument =>
    "error: the argument ".toList ++ quoted argument.text
      ++ " cannot be used multiple times".toList
  | missingValue argument =>
    "error: a value is required for ".toList ++ quoted argument.text
      ++ " but none was supplied".toList
  | unneededValue argument value =>
    "error: unexpected value ".toList ++ quotedGiven value ++ " for ".toList
      ++ quoted argument.text ++ " found; no more were expected".toList

/-- The arguments that the report lists below its first line. -/
def listed : UsageError → List Argument
  | missingFile => [.file]
  | conflict _ (other :: others@(_ :: _)) => other :: others
  | _ => []

def report (e : UsageError) : Text :=
  e.message ++ ['\n'] ++ (e.listed.flatMap fun a => "  ".toList ++ a.text ++ ['\n'])
    ++ "\nUsage: ttdisasm [OPTIONS] <FILE>\n\nFor more information, try '--help'.\n".toList

end UsageError

/-- What `--help` prints. -/
def helpText : Text :=
  ("Disassembles a raw TrueType instruction stream\n\n" ++
   "Usage: ttdisasm [OPTIONS] <FILE>\n\n" ++
   "Arguments:\n" ++
   "  <FILE>  The instruction stream to disassemble\n\n" ++
   "Options:\n" ++
   "  -d, --dialect <DIALECT>  Dialect to write: ttx (alias generic) or vtt [default: ttx]\n" ++
   "      --crlf               Join lines with carriage return and line feed\n" ++
   "  -l, --listing            Print a table of offsets, raw bytes and generic assembly instead\n" ++
   "  -h, --help               Print help\n" ++
   "  -V, --version            Print version\n").toList

def versionText : Text := programName ++ " 0.1.0\n".toList

end Hinting.CommandLine
