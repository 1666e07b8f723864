/-
# `Hinting.Terminal` — given text that must not steer a terminal

A terminal acts on control characters and on control sequences, which an escape
character begins.  Text that was given to the program and is printed back could
hold either, so it is disarmed first, in one of two ways.

* `strip` takes both out.  It reads the sequences as a terminal does: an escape
  sequence, a control sequence, an operating system command, a device control
  string, or one of the strings that are ignored.  Tabs, line feeds, form feeds
  and carriage returns lay a text out and are kept where a terminal would act on
  them, even inside a sequence.
* `escape` keeps every character and writes those that begin or end something for
  a terminal by their code points.
-/
import Hinting.Numeral

namespace Hinting.Terminal

/-! ## Classes of characters -/

/-- The control characters that lay a text out. -/
def isLayout (c : Char) : Bool := c == '\t' || c == '\n' || c == '\x0c' || c == '\r'

/-- Whether a terminal shows a character, outside of any sequence. -/
def isShown (c : Char) : Bool := (' ' ≤ c && c != '\x7f') || isLayout c

/-- The code points from `low` to `high`. -/
def isBetween (low high : Char) (c : Char) : Bool := low ≤ c && c ≤ high

/-- Whether the terminator of a string, the byte `9c`, occurs in a character as it is encoded. -/
def endsString (c : Char) : Bool := (String.utf8EncodeChar c).contains 0x9c

/-! ## Sequences -/

/-- How far a sequence has been read. -/
inductive State where
  /-- No sequence has begun. -/
  | ground
  /-- After the escape character. -/
  | escape
  /-- In an escape sequence that takes one more character. -/
  | intermediate
  /-- In a control sequence, before its last character. -/
  | control
  /-- In an operating system command, which a bell ends. -/
  | command
  /-- Before the parameters of a device control string. -/
  | device
  /-- In the parameters of a device control string. -/
  | deviceParameter
  /-- After the parameters of a device control string. -/
  | deviceIntermediate
  /-- In a string that only its terminator ends. -/
  | string
  deriving DecidableEq

namespace State

def afterEscape (c : Char) : State :=
  if isBetween ' ' '/' c then intermediate
  else if c = '[' then control
  else if c = ']' then command
  else if c = 'P' then device
  else if c = 'X' ∨ c = '^' ∨ c = '_' then string
  else if isBetween '0' '~' c then ground
  else escape

/-- The state after one more character.  Three control characters count in every state: the
escape character begins a sequence, and `18` and `1a` break one off. -/
def next (s : State) (c : Char) : State :=
  if c = '\x1b' then escape
  else if c = '\x18' ∨ c = '\x1a' then ground
  else
    match s with
    | ground => ground
    | escape => afterEscape c
    | intermediate => if isBetween '0' '~' c then ground else intermediate
    | control => if isBetween '@' '~' c then ground else control
    | command => if c = '\x07' then ground else command
    | device =>
      if isBetween ' ' '/' c then deviceIntermediate
      else if isBetween '0' '?' c then deviceParameter
      else if isBetween '@' '~' c then string
      else device
    | deviceParameter =>
      if isBetween ' ' '/' c then deviceIntermediate
      else if isBetween '<' '~' c then string
      else deviceParameter
    | deviceIntermediate => if isBetween '0' '~' c then string else deviceIntermediate
    | string => if endsString c then ground else string

/-- Whether a terminal acts on a control character at once, though a sequence has begun. -/
def letsThrough : State → Bool
  | ground | escape | intermediate | control => true
  | _ => false

end State

/-! ## Taking sequences out -/

/-- A sequence that has begun, and whether a layout character has set it aside.  While it is
set aside text is shown, until a control character takes the sequence up again. -/
structure Reader where
  state : State := .ground
  setAside : Bool := false
  deriving DecidableEq

namespace Reader

def isOpen (r : Reader) : Bool := r.state = .ground || r.setAside

/-- Whether a character is shown. -/
def keeps (r : Reader) (c : Char) : Bool :=
  isShown c && (r.isOpen || (isLayout c && r.state.letsThrough))

/-- The reader after a character.  A character beyond ASCII that is shown ends the sequence
that was set aside. -/
def next (r : Reader) (c : Char) : Reader :=
  if r.keeps c then
    if '\x7f' < c then {} else { r with setAside := true }
  else ⟨r.state.next c, false⟩

end Reader

/-- The characters that a reader keeps. -/
def stripFrom (r : Reader) : Text → Text
  | [] => []
  | c :: rest => if r.keeps c then c :: stripFrom (r.next c) rest else stripFrom (r.next c) rest

/-- The text without control characters and sequences. -/
def strip (t : Text) : Text := stripFrom {} t

/-! ## Writing characters by their code points -/

/-- A character as it is, unless it begins or ends something for a terminal. -/
def escapeChar (c : Char) : Text :=
  if c = '\x1b' ∨ c = '\x07' ∨ c = '\x08' ∨ c = '\x0c' ∨ c = '\x7f' then
    '\\' :: 'x' :: Numeral.hex 2 c.toNat
  else if 0x80 ≤ c.toNat ∧ c.toNat ≤ 0x9f then
    '\\' :: 'u' :: '{' :: (Numeral.hex 2 c.toNat ++ ['}'])
  else [c]

/-- The text with such characters written by their code points. -/
def escape (t : Text) : Text := t.flatMap escapeChar

end Hinting.Terminal
