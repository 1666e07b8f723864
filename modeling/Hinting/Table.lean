/-
# `Hinting.Table` — tables in plain text

A table is a row of columns and any number of rows of cells.  It is printed with
a title row, a rule under it, the rows, and a rule at the bottom:

     Offset │ Bytes │ Instruction
    ────────┼───────┼─────────────
     0x0000 │ 2b    │ CALL[ ]
    ────────┴───────┴─────────────

A column is as wide as its widest cell, the title included.  Each cell has one
space on either side of it, and each line has one more at either end.
-/
import Hinting.Text

namespace Hinting

/-- The side of its column at which a cell stands. -/
inductive Align where
  | left | right
  deriving DecidableEq

/-- The cell filled up with spaces to a width. -/
def Align.fill : Align → Nat → Text → Text
  | .left, width, cell => cell.rightpad width ' '
  | .right, width, cell => cell.leftpad width ' '

structure Column where
  title : Text
  align : Align

structure Table where
  columns : List Column
  rows : List (List Text)

namespace Table

def titles (t : Table) : List Text := t.columns.map Column.title

def widths (t : Table) : List Nat :=
  t.rows.foldl (fun widths row => List.zipWith max widths (row.map List.length))
    (t.titles.map List.length)

def layout (t : Table) : List (Align × Nat) := (t.columns.map Column.align).zip t.widths

def rowLine (layout : List (Align × Nat)) (row : List Text) : Text :=
  let cells := List.zipWith (fun column cell => ' ' :: (column.1.fill column.2 cell ++ [' ']))
    layout row
  ' ' :: (['│'].intercalate cells ++ [' '])

/-- A rule with a mark where two columns meet. -/
def rule (layout : List (Align × Nat)) (crossing : Char) : Text :=
  let strokes := layout.map fun column => List.replicate (column.2 + 2) '─'
  ' ' :: ([crossing].intercalate strokes ++ [' '])

def lines (t : Table) : List Text :=
  let layout := t.layout
  rowLine layout t.titles :: rule layout '┼'
    :: (t.rows.map (rowLine layout) ++ [rule layout '┴'])

/-- The printed table, each line ended by a line feed. -/
def text (t : Table) : Text := t.lines.flatMap fun line => line ++ ['\n']

end Table

end Hinting
