/-
# `Hinting.Source` — the two kinds of lines in generic assembly

A **header line** names an operation:

    blanks  name  [ digits and spaces ]  comment  blanks

where the name is made of ASCII letters and digits.  The comment may be missing, and blanks
may stand before it; it is closed by the first `*/` after it opens.  Neither the name nor the
digits are looked up here.

A **values line** holds one or more decimal integers with blanks between them, and may have
blanks at either end.  Each integer has to fit into 32 bits with a sign; a line with a larger
one is no values line.
-/
import Hinting.Numeral
import Hinting.Parser

namespace Hinting

namespace Parser

/-- Any blanks. -/
def blanks : Parser Text := takeWhile Text.isBlank

def gap : Parser Text := takeWhile1 Text.isBlank

end Parser

open Hinting.Parser

/-! ## Header lines -/

/-- What a header line says: a name, and what stands in the brackets after it. -/
structure Header where
  name : Text
  inside : Text
  deriving DecidableEq

namespace Header

/-- Whether a character may stand in the brackets. -/
def isInside (c : Char) : Bool := c == '0' || c == '1' || c == ' '

def comment : Parser Text := delimited (tag ['/', '*']) (takeUntil ['*', '/']) (tag ['*', '/'])

/-- What may stand behind the brackets. -/
def trailer : Parser Text := preceded (optional (preceded blanks comment)) blanks

def parser : Parser Header := do
  let name ← preceded blanks (takeWhile1 Char.isAlphanum)
  let inside ← delimited (tag ['[']) (takeWhile isInside) (tag [']'])
  let _ ← trailer
  return ⟨name, inside⟩

def ofLine? (line : Text) : Option Header := parser.all line

end Header

/-! ## Values lines -/

namespace Values

/-- Whether a value fits into 32 bits with a sign. -/
def fits (v : Int) : Bool := -2147483648 ≤ v && v ≤ 2147483647

/-- The value that a word writes. -/
def ofWord? (word : Text) : Option Int := (Numeral.signed? word).filter fits

def integer : Parser Int :=
  let digits := do
    let _ ← optional (tag ['-'])
    takeWhile1 Char.isDigit
  (recognize digits).filterMap ofWord?

def parser : Parser (List Int) :=
  delimited blanks (separatedList1 gap (consumes_takeWhile1 _) integer) blanks

def ofLine? (line : Text) : Option (List Int) := parser.all line

end Values

end Hinting
