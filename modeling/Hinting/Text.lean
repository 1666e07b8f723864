/-
# `Hinting.Text` — characters, trimming and lines

A text is a list of characters.  Two classes of separators are in use and they
are kept apart:

* **white space** (`isWhite`), the twenty-five characters of the Unicode
  property White_Space.  The end of an assembly text and the blank lines of a
  source text go by this class.
* **blanks** (`isBlank`), the space and the tab.  Only these may stand between
  the parts of one source line.

A line ends at a line feed; a carriage return right before that line feed
belongs to the line's end (`lines`).  A carriage return anywhere else is an
ordinary character.
-/

namespace Hinting

abbrev Text := List Char

namespace Text

/-! ## White space -/

/-- The ranges of White_Space, each by its first and its last code point. -/
def whiteRanges : List (Nat × Nat) :=
  [(0x09, 0x0d), (0x20, 0x20), (0x85, 0x85), (0xa0, 0xa0), (0x1680, 0x1680),
   (0x2000, 0x200a), (0x2028, 0x2029), (0x202f, 0x202f), (0x205f, 0x205f), (0x3000, 0x3000)]

example : whiteRanges.foldl (fun n r => n + (r.2 + 1 - r.1)) 0 = 25 := by decide

/-- Whether a character has the property White_Space. -/
def isWhite (c : Char) : Bool :=
  whiteRanges.any fun r => r.1 ≤ c.toNat && c.toNat ≤ r.2

/-- The text without the white space at its end. -/
def trimEnd (t : Text) : Text :=
  (t.reverse.dropWhile isWhite).reverse

def trim (t : Text) : Text :=
  trimEnd (t.dropWhile isWhite)

theorem trimEnd_append_singleton (t : Text) {c : Char} (h : isWhite c = false) :
    trimEnd (t ++ [c]) = t ++ [c] := by
  simp [trimEnd, h]

/-- What stands before a part that trims to something is kept whole. -/
theorem trimEnd_append_of_ne_nil (t : Text) {u : Text} (h : trimEnd u ≠ []) :
    trimEnd (t ++ u) = t ++ trimEnd u := by
  have hd : u.reverse.dropWhile isWhite ≠ [] := fun e => h (by simp [trimEnd, e])
  simp only [trimEnd, List.reverse_append, List.dropWhile_append]
  simp [hd]

theorem trimEnd_trimEnd (t : Text) : trimEnd (trimEnd t) = trimEnd t := by
  have again : ∀ l : Text, (l.dropWhile isWhite).dropWhile isWhite = l.dropWhile isWhite := by
    intro l
    induction l with
    | nil => rfl
    | cons c l ih => by_cases h : isWhite c <;> simp [h, ih]
  simp [trimEnd, again]

/-! ## Lines -/

/-- The line without the carriage return that its line feed takes along. -/
def dropReturn (line : Text) : Text :=
  if line.getLast? = some '\r' then line.dropLast else line

/-- The lines held by the pieces between line feeds: every piece but the last was
ended by a line feed, and the last is a line only if something stands in it. -/
def linesOfPieces : List Text → List Text
  | [] => []
  | [last] => if last.isEmpty then [] else [last]
  | piece :: next :: rest => dropReturn piece :: linesOfPieces (next :: rest)

def lines (t : Text) : List Text :=
  linesOfPieces (t.splitOn '\n')

theorem lines_append_cons (t u : Text) :
    lines (t ++ '\n' :: u) = (t.splitOn '\n').map dropReturn ++ lines u := by
  have pieces : ∀ ps : List Text, linesOfPieces (ps ++ u.splitOn '\n') =
      ps.map dropReturn ++ lines u := by
    intro ps
    obtain ⟨q, qs, hq⟩ := List.exists_cons_of_ne_nil (List.splitOn_ne_nil '\n' u)
    induction ps with
    | nil => rfl
    | cons p ps ih =>
      cases ps with
      | nil => simp [lines, hq, linesOfPieces]
      | cons p' ps => simpa [linesOfPieces] using ih
  rw [lines, List.splitOn_append_cons_self, pieces]

/-! ## Blanks -/

/-- Whether a character is a space or a tab. -/
def isBlank (c : Char) : Bool := c == ' ' || c == '\t'

theorem isWhite_of_isBlank {c : Char} (h : isBlank c = true) : isWhite c = true := by
  simp only [isBlank, Bool.or_eq_true, beq_iff_eq] at h
  rcases h with rfl | rfl <;> decide

/-! ## Indentation -/

/-- Two spaces for each level.  The level is taken to be so small that the line fits into
memory; two spaces for each of 2 ^ 62 levels, or more, are beyond any. -/
def indentation (level : Nat) : Text := List.replicate (2 * level) ' '

end Text

end Hinting
