/-
# `Hinting.Proofs.Tables` — a printed table is a rectangle, and can be read

Whatever its cells are, all lines of a printed table are as long as its rules, and
the bars of a row stand where the rules cross (`Legible.length_of_mem_lines`,
`Legible.standsAt_rows`, `standsAt_rule`).  From a line the cells are found again, by
taking away the border, then the bars, then the padding (`Legible.readRow_of_mem`):

    ␣␣0x0000␣│␣2b␣␣␣␣│␣CALL[ ]␣␣        the line
    ␣0x0000␣   ␣2b␣␣␣␣   ␣CALL[ ]␣      its parts
    0x0000   2b   CALL[ ]               the cells

What this needs of the cells is little (`Align.Readable`): no bar, no line feed, and no
space on the side on which a cell is filled up.

A column is as wide as its widest cell, so its width is found only after all rows have
been seen.  That each row fits is proved by induction on the rows, with the widths so
far for the invariant (`fits_foldl`); after that, rows and rules are lists of parts
whose lengths are those of the columns, and all else goes by the lengths.
-/
import Mathlib
import Hinting.Proofs.Lines
import Hinting.Table

namespace Hinting

/-! ## Marks in a line -/

namespace Text

/-- The character stands at these places of the text and nowhere else. -/
def StandsAt (c : Char) (t : Text) (places : List Nat) : Prop :=
  ∀ k, t[k]? = some c ↔ k ∈ places

theorem standsAt_of_not_mem {c : Char} {t : Text} (h : c ∉ t) : StandsAt c t [] := fun _ =>
  iff_of_false (fun found => h (List.mem_of_getElem? found)) List.not_mem_nil

theorem StandsAt.after {c : Char} {x u : Text} {places : List Nat} (hu : StandsAt c u places)
    (hx : c ∉ x) :
    StandsAt c (x ++ c :: u) (x.length :: places.map (· + (x.length + 1))) := by
  intro k
  rw [List.mem_cons, List.mem_map]
  rcases Nat.lt_trichotomy k x.length with before | rfl | later
  · rw [List.getElem?_append_left before]
    refine iff_of_false (fun found => hx (List.mem_of_getElem? found)) ?_
    rintro (rfl | ⟨j, _, rfl⟩) <;> omega
  · simp
  · obtain ⟨j, rfl⟩ : ∃ j, k = j + (x.length + 1) := ⟨k - (x.length + 1), by omega⟩
    have shifted : (x ++ c :: u)[j + (x.length + 1)]? = u[j]? := by
      rw [List.getElem?_append_right (by omega),
        show j + (x.length + 1) - x.length = j + 1 by omega, List.getElem?_cons_succ]
    rw [shifted, hu j]
    constructor
    · exact fun hj => .inr ⟨j, hj, rfl⟩
    · rintro (_ | ⟨j', hj, same⟩)
      · omega
      · rwa [← Nat.add_right_cancel same]

theorem not_mem_intercalate {c : Char} {separator : Text} (hs : c ∉ separator) :
    ∀ {parts : List Text}, (∀ part ∈ parts, c ∉ part) → c ∉ separator.intercalate parts := by
  intro parts
  induction parts with
  | nil => intro _; exact List.not_mem_nil
  | cons part parts ih =>
      intro clean
      obtain ⟨hpart, hparts⟩ := List.forall_mem_cons.mp clean
      cases parts with
      | nil => simpa using hpart
      | cons part' parts =>
          rw [List.intercalate_cons_cons]
          simp only [List.mem_append, not_or]
          exact ⟨⟨hpart, hs⟩, ih hparts⟩

end Text

namespace Table
open Text

/-- The places between parts of these lengths, the first of which starts at a place. -/
def crossings (start : Nat) : List Nat → List Nat
  | n :: m :: ns => (start + n) :: (crossings 0 (m :: ns)).map (· + (start + n + 1))
  | _ => []

/-- A mark between parts stands between them and nowhere else. -/
theorem standsAt_intercalate {c : Char} {after : Text} (hafter : c ∉ after) :
    ∀ {parts : List Text}, (∀ part ∈ parts, c ∉ part) → ∀ before : Text, c ∉ before →
      StandsAt c (before ++ ([c].intercalate parts ++ after))
        (crossings before.length (parts.map List.length)) := by
  intro parts
  induction parts with
  | nil =>
      intro _ before hbefore
      exact standsAt_of_not_mem (by simp [hbefore, hafter])
  | cons part parts ih =>
      intro clean before hbefore
      obtain ⟨hpart, hparts⟩ := List.forall_mem_cons.mp clean
      have front : c ∉ before ++ part := by simp [hbefore, hpart]
      cases parts with
      | nil =>
          rw [List.intercalate_singleton]
          exact standsAt_of_not_mem (by simp [hbefore, hpart, hafter])
      | cons part' parts =>
          have rest := (ih hparts [] List.not_mem_nil).after front
          rw [List.intercalate_cons_cons]
          simpa [crossings] using rest

/-! ## Lines with a border -/

/-- Parts with a mark between them, and a space at either end. -/
def bordered (mark : Char) (parts : List Text) : Text := ' ' :: ([mark].intercalate parts ++ [' '])

theorem standsAt_bordered {mark : Char} (solid : mark ≠ ' ') {parts : List Text}
    (clean : ∀ part ∈ parts, mark ∉ part) :
    StandsAt mark (bordered mark parts) (crossings 1 (parts.map List.length)) :=
  standsAt_intercalate (by simpa using solid) clean [' '] (by simpa using solid)

theorem length_intercalate_mark (mark : Char) (parts : List Text) :
    ([mark].intercalate parts).length = (parts.map List.length).sum + (parts.length - 1) := by
  induction parts with
  | nil => rfl
  | cons part parts ih =>
      cases parts with
      | nil => simp
      | cons part' parts =>
          rw [List.intercalate_cons_cons, List.length_append, ih]
          simp
          omega

theorem length_bordered {mark mark' : Char} {parts parts' : List Text}
    (same : parts.map List.length = parts'.map List.length) :
    (bordered mark parts).length = (bordered mark' parts').length := by
  have count := congrArg List.length same
  rw [List.length_map, List.length_map] at count
  simp [bordered, length_intercalate_mark, same, count]

theorem not_mem_bordered {c mark : Char} {parts : List Text} (space : c ≠ ' ') (other : c ≠ mark)
    (clean : ∀ part ∈ parts, c ∉ part) : c ∉ bordered mark parts := by
  have inside := not_mem_intercalate (by simpa using other : c ∉ [mark]) clean
  simp [bordered, space, inside]

def inner (t : Text) : Text := t.tail.dropLast

@[simp] theorem inner_cons_concat (c d : Char) (t : Text) : inner (c :: (t ++ [d])) = t :=
  List.dropLast_concat

theorem inner_bordered (mark : Char) (parts : List Text) :
    inner (bordered mark parts) = [mark].intercalate parts :=
  inner_cons_concat _ _ _

end Table

/-! ## Cells -/

namespace Align

/-- The cell has no space on the side on which it is filled up. -/
def Flush : Align → Text → Prop
  | .left, cell => cell.getLast? ≠ some ' '
  | .right, cell => cell.head? ≠ some ' '

/-- The text less the spaces that fill it up. -/
def strip : Align → Text → Text
  | .left, t => t.rdropWhile (· == ' ')
  | .right, t => t.dropWhile (· == ' ')

theorem length_fill {a : Align} {width : Nat} {cell : Text} (fits : cell.length ≤ width) :
    (a.fill width cell).length = width := by
  cases a with
  | left => rw [fill, List.length_rightpad]; omega
  | right => rw [fill, List.length_leftpad]; omega

theorem not_mem_fill {a : Align} {width : Nat} {cell : Text} {c : Char} (space : c ≠ ' ')
    (clean : c ∉ cell) : c ∉ a.fill width cell := by
  cases a with
  | left => simp [fill, List.rightpad, space, clean]
  | right => simp [fill, List.leftpad, space, clean]

theorem dropWhile_space_of_head?_ne {t : Text} (h : t.head? ≠ some ' ') :
    t.dropWhile (· == ' ') = t := by
  cases t with
  | nil => rfl
  | cons c t => exact List.dropWhile_cons_of_neg (by simpa using h)

theorem strip_fill {a : Align} {width : Nat} {cell : Text} (h : a.Flush cell) :
    a.strip (a.fill width cell) = cell := by
  have spaces : ∀ k, ∀ c ∈ List.replicate k ' ', (c == ' ') = true := by
    intro k c hc
    rw [List.eq_of_mem_replicate hc]
    rfl
  cases a with
  | left =>
      have last : cell.reverse.head? ≠ some ' ' := by rwa [List.head?_reverse]
      rw [fill, strip, List.rightpad, List.rdropWhile, List.reverse_append,
        List.reverse_replicate, List.dropWhile_append_of_pos (spaces _),
        dropWhile_space_of_head?_ne last, List.reverse_reverse]
  | right =>
      rw [fill, strip, List.leftpad, List.dropWhile_append_of_pos (spaces _),
        dropWhile_space_of_head?_ne h]

/-- A cell that can be found in a line. -/
structure Readable (a : Align) (cell : Text) : Prop where
  barless : '│' ∉ cell
  feedless : '\n' ∉ cell
  flush : a.Flush cell

end Align

namespace Table
open Text

/-! ## Widths -/

/-- The cells are no wider than their columns. -/
def Fits (row : List Text) (widths : List Nat) : Prop :=
  List.Forall₂ (fun cell width => cell.length ≤ width) row widths

theorem Fits.mono {row : List Text} {ws : List Nat} (h : Fits row ws) :
    ∀ {ws' : List Nat}, List.Forall₂ (· ≤ ·) ws ws' → Fits row ws' := by
  induction h with
  | nil => intro ws' wider; cases wider; exact .nil
  | cons fits _ ih =>
      intro ws' wider
      cases wider with
      | cons le wider => exact .cons (Nat.le_trans fits le) (ih wider)

/-- Columns that grow to hold a row hold it, and what they held before. -/
theorem le_zipWith_max : ∀ {ws : List Nat} {row : List Text}, row.length = ws.length →
    List.Forall₂ (· ≤ ·) ws (List.zipWith max ws (row.map List.length)) ∧
      Fits row (List.zipWith max ws (row.map List.length)) := by
  intro ws
  induction ws with
  | nil =>
      intro row count
      rw [List.length_eq_zero_iff.mp count]
      exact ⟨.nil, .nil⟩
  | cons w ws ih =>
      intro row count
      cases row with
      | nil => cases count
      | cons cell row =>
          obtain ⟨wider, fits⟩ := ih (Nat.succ.inj count)
          exact ⟨.cons (Nat.le_max_left _ _) wider, .cons (Nat.le_max_right _ _) fits⟩

theorem fits_foldl : ∀ {rows : List (List Text)} {start : List Nat},
    (∀ row ∈ rows, row.length = start.length) → ∀ {row : List Text},
      row ∈ rows ∨ Fits row start →
        Fits row (rows.foldl (fun ws row => List.zipWith max ws (row.map List.length)) start) := by
  intro rows
  induction rows with
  | nil =>
      intro start _ row h
      exact h.resolve_left List.not_mem_nil
  | cons first rows ih =>
      intro start count row h
      obtain ⟨here, later⟩ := List.forall_mem_cons.mp count
      obtain ⟨wider, fits⟩ := le_zipWith_max here
      refine ih (fun row hrow => (later row hrow).trans wider.length_eq) ?_
      rcases h with listed | before
      · rcases List.mem_cons.mp listed with rfl | listed
        · exact .inr fits
        · exact .inl listed
      · exact .inr (before.mono wider)

variable {t : Table}

theorem fits_widths (count : ∀ row ∈ t.rows, row.length = t.columns.length) {row : List Text}
    (h : row ∈ t.titles :: t.rows) : Fits row t.widths := by
  refine fits_foldl (fun row hrow => by simpa [titles] using count row hrow) ?_
  rcases List.mem_cons.mp h with rfl | listed
  · exact .inr (List.forall₂_map_right_iff.mpr (List.forall₂_same.mpr fun _ _ => Nat.le_refl _))
  · exact .inl listed

/-! ## Rows and rules -/

/-- A cell that fits in its column and can be found there. -/
structure Fitted (column : Align × Nat) (cell : Text) : Prop where
  readable : column.1.Readable cell
  fits : cell.length ≤ column.2

def rowParts (layout : List (Align × Nat)) (row : List Text) : List Text :=
  List.zipWith (fun column cell => ' ' :: (column.1.fill column.2 cell ++ [' '])) layout row

def ruleParts (layout : List (Align × Nat)) : List Text :=
  layout.map fun column => List.replicate (column.2 + 2) '─'

/-- The places where the rules cross the bars. -/
def barPlaces (layout : List (Align × Nat)) : List Nat :=
  crossings 1 (layout.map fun column => column.2 + 2)

theorem rowLine_eq (layout : List (Align × Nat)) (row : List Text) :
    rowLine layout row = bordered '│' (rowParts layout row) := rfl

theorem rule_eq (layout : List (Align × Nat)) (crossing : Char) :
    rule layout crossing = bordered crossing (ruleParts layout) := rfl

/-- Taking the cells of a line. -/
def readRow (aligns : List Align) (line : Text) : List Text :=
  List.zipWith (fun a part => a.strip (inner part)) aligns ((inner line).splitOn '│')

section
variable {layout : List (Align × Nat)} {row : List Text}

theorem lengths_ruleParts (layout : List (Align × Nat)) :
    (ruleParts layout).map List.length = layout.map fun column => column.2 + 2 := by
  simp [ruleParts]

theorem lengths_rowParts (h : List.Forall₂ Fitted layout row) :
    (rowParts layout row).map List.length = layout.map fun column => column.2 + 2 := by
  induction h with
  | nil => rfl
  | cons fitted _ ih =>
      rw [List.map_cons, ← ih]
      simp [rowParts, Align.length_fill fitted.fits]

theorem not_mem_rowParts {c : Char} (space : c ≠ ' ') : ∀ {row : List Text},
    (∀ cell ∈ row, c ∉ cell) → ∀ {layout : List (Align × Nat)},
      ∀ part ∈ rowParts layout row, c ∉ part := by
  intro row
  induction row with
  | nil =>
      intro _ layout part hpart
      rw [rowParts, List.zipWith_nil_right] at hpart
      cases hpart
  | cons cell row ih =>
      intro clean layout part hpart
      obtain ⟨hcell, hrow⟩ := List.forall_mem_cons.mp clean
      cases layout with
      | nil => cases hpart
      | cons column layout =>
          rcases List.mem_cons.mp hpart with rfl | later
          · simp [space, Align.not_mem_fill space hcell]
          · exact ih hrow part later

theorem not_mem_ruleParts {c : Char} (stroke : c ≠ '─') :
    ∀ part ∈ ruleParts layout, c ∉ part := by
  intro part hpart
  obtain ⟨column, _, rfl⟩ := List.mem_map.mp hpart
  exact fun hc => stroke (List.eq_of_mem_replicate hc)

theorem exists_fitted_of_mem (h : List.Forall₂ Fitted layout row) :
    ∀ cell ∈ row, ∃ column, Fitted column cell := by
  induction h with
  | nil => intro cell hcell; cases hcell
  | cons fitted _ ih => exact List.forall_mem_cons.mpr ⟨⟨_, fitted⟩, ih⟩

theorem barless_rowParts (h : List.Forall₂ Fitted layout row) :
    ∀ part ∈ rowParts layout row, '│' ∉ part :=
  not_mem_rowParts (by decide) fun cell hcell =>
    (exists_fitted_of_mem h cell hcell).elim fun _ fitted => fitted.readable.barless

theorem feedless_rowParts (h : List.Forall₂ Fitted layout row) :
    ∀ part ∈ rowParts layout row, '\n' ∉ part :=
  not_mem_rowParts (by decide) fun cell hcell =>
    (exists_fitted_of_mem h cell hcell).elim fun _ fitted => fitted.readable.feedless

theorem length_rowLine (h : List.Forall₂ Fitted layout row) (crossing : Char) :
    (rowLine layout row).length = (rule layout crossing).length := by
  rw [rowLine_eq, rule_eq]
  exact length_bordered ((lengths_rowParts h).trans (lengths_ruleParts layout).symm)

theorem length_rule (layout : List (Align × Nat)) (crossing crossing' : Char) :
    (rule layout crossing).length = (rule layout crossing').length :=
  length_bordered rfl

theorem standsAt_rowLine (h : List.Forall₂ Fitted layout row) :
    StandsAt '│' (rowLine layout row) (barPlaces layout) := by
  rw [rowLine_eq, barPlaces, ← lengths_rowParts h]
  exact standsAt_bordered (by decide) (barless_rowParts h)

theorem standsAt_rule {crossing : Char} (space : crossing ≠ ' ') (stroke : crossing ≠ '─') :
    StandsAt crossing (rule layout crossing) (barPlaces layout) := by
  rw [rule_eq, barPlaces, ← lengths_ruleParts layout]
  exact standsAt_bordered space (not_mem_ruleParts stroke)

theorem rowParts_ne_nil (h : List.Forall₂ Fitted layout row) (some_cell : row ≠ []) :
    rowParts layout row ≠ [] := by
  cases h with
  | nil => exact absurd rfl some_cell
  | cons => exact List.cons_ne_nil _ _

theorem readRow_rowLine (h : List.Forall₂ Fitted layout row) (some_cell : row ≠ []) :
    readRow (layout.map Prod.fst) (rowLine layout row) = row := by
  rw [readRow, rowLine_eq, inner_bordered,
    List.splitOn_intercalate '│' (barless_rowParts h) (rowParts_ne_nil h some_cell)]
  clear some_cell
  induction h with
  | nil => rfl
  | @cons column cell _ _ fitted _ ih =>
      have found : column.1.strip (inner (' ' :: (column.1.fill column.2 cell ++ [' ']))) = cell := by
        rw [inner_cons_concat, Align.strip_fill fitted.readable.flush]
      exact List.cons_eq_cons.mpr ⟨found, ih⟩

end

/-! ## Tables -/

/-- A table with some column whose cells can all be found. -/
structure Legible (t : Table) : Prop where
  some_column : t.columns ≠ []
  readable : ∀ row ∈ t.titles :: t.rows,
    List.Forall₂ Align.Readable (t.columns.map Column.align) row

theorem forall₂_fitted {aligns : List Align} {row : List Text}
    (readable : List.Forall₂ Align.Readable aligns row) :
    ∀ {ws : List Nat}, Fits row ws → List.Forall₂ Fitted (aligns.zip ws) row := by
  induction readable with
  | nil => intro ws fits; cases fits; exact .nil
  | cons cell _ ih =>
      intro ws fits
      cases fits with
      | cons width fits => exact .cons ⟨cell, width⟩ (ih fits)

theorem Legible.fits (h : t.Legible) {row : List Text} (hrow : row ∈ t.titles :: t.rows) :
    Fits row t.widths := by
  refine fits_widths (fun row listed => ?_) hrow
  rw [← (h.readable row (List.mem_cons_of_mem _ listed)).length_eq, List.length_map]

theorem Legible.fitted (h : t.Legible) {row : List Text} (hrow : row ∈ t.titles :: t.rows) :
    List.Forall₂ Fitted t.layout row :=
  forall₂_fitted (h.readable row hrow) (h.fits hrow)

theorem Legible.aligns_layout (h : t.Legible) :
    t.layout.map Prod.fst = t.columns.map Column.align := by
  refine List.map_fst_zip (Nat.le_of_eq ?_)
  rw [← (h.fits List.mem_cons_self).length_eq, titles, List.length_map, List.length_map]

/-- **In all rows the bars stand at the same places.** -/
theorem Legible.standsAt_rows (h : t.Legible) :
    ∀ line ∈ (t.titles :: t.rows).map (rowLine t.layout),
      StandsAt '│' line (barPlaces t.layout) := by
  intro line hl
  obtain ⟨row, hrow, rfl⟩ := List.mem_map.mp hl
  exact standsAt_rowLine (h.fitted hrow)

/-- **The cells of each row are found in its line.** -/
theorem Legible.readRow_of_mem (h : t.Legible) {row : List Text} (hrow : row ∈ t.titles :: t.rows) :
    readRow (t.columns.map Column.align) (rowLine t.layout row) = row := by
  have fitted := h.fitted hrow
  rw [← h.aligns_layout]
  refine readRow_rowLine fitted fun none => h.some_column ?_
  have count := (h.readable row hrow).length_eq
  rw [none, List.length_map] at count
  exact List.length_eq_zero_iff.mp count

theorem mem_lines {line : Text} : line ∈ t.lines ↔
    (∃ row ∈ t.titles :: t.rows, line = rowLine t.layout row) ∨
      line = rule t.layout '┼' ∨ line = rule t.layout '┴' := by
  simp only [lines, List.mem_cons, List.mem_append, List.mem_map, List.not_mem_nil, or_false,
    exists_eq_or_imp]
  grind

/-- **All lines are of one length.** -/
theorem Legible.length_of_mem_lines (h : t.Legible) {line : Text} (hl : line ∈ t.lines) :
    line.length = (rule t.layout '┼').length := by
  rcases mem_lines.mp hl with ⟨row, hrow, rfl⟩ | rfl | rfl
  · exact length_rowLine (h.fitted hrow) _
  · rfl
  · exact length_rule _ _ _

theorem Legible.feedless_of_mem_lines (h : t.Legible) {line : Text} (hl : line ∈ t.lines) :
    '\n' ∉ line := by
  rcases mem_lines.mp hl with ⟨row, hrow, rfl⟩ | rfl | rfl
  · exact not_mem_bordered (by decide) (by decide) (feedless_rowParts (h.fitted hrow))
  · exact not_mem_bordered (by decide) (by decide) (not_mem_ruleParts (by decide))
  · exact not_mem_bordered (by decide) (by decide) (not_mem_ruleParts (by decide))

theorem getLast?_bordered (mark : Char) (parts : List Text) :
    (bordered mark parts).getLast? = some ' ' := by
  rw [bordered, ← List.cons_append, List.getLast?_concat]

theorem getLast?_of_mem_lines {line : Text} (hl : line ∈ t.lines) :
    line.getLast? ≠ some '\r' := by
  have last : line.getLast? = some ' ' := by
    rcases mem_lines.mp hl with ⟨row, _, rfl⟩ | rfl | rfl <;> exact getLast?_bordered _ _
  rw [last]
  decide

end Table

theorem Text.lines_flatMap_feed : ∀ {ls : List Text},
    (∀ l ∈ ls, '\n' ∉ l ∧ l.getLast? ≠ some '\r') →
      lines (ls.flatMap fun line => line ++ ['\n']) = ls := by
  intro ls
  induction ls with
  | nil => intro _; rfl
  | cons l ls ih =>
      intro h
      obtain ⟨⟨feedless, last⟩, hls⟩ := List.forall_mem_cons.mp h
      rw [List.flatMap_cons, List.append_assoc, List.singleton_append, lines_feed feedless,
        dropReturn_of_ne last, ih hls]

theorem Table.Legible.lines_text {t : Table} (h : t.Legible) : Text.lines t.text = t.lines :=
  Text.lines_flatMap_feed fun _ hl => ⟨h.feedless_of_mem_lines hl, getLast?_of_mem_lines hl⟩

end Hinting
