/-
# `Hinting.Proofs.Listings` — what the lines of a listing tell

A listing is printed as a title, a rule, a row for each instruction and a rule:

      Offset │ Bytes    │ Instruction
     ────────┼──────────┼────────────────
      0x0000 │ 58       │ IF[ ]
      0x0001 │ b1 03 04 │   PUSHB[ ] 3 4
     ────────┴──────────┴────────────────

The cells of a row are found again whatever the program is
(`Listing.legible_table`), so that a line tells of its instruction all that the row was
made of (`Listing.Shows`): numerals are read by digits, and the bytes by the words of
their cell.  Rows tile the program from its start, which is an induction on the commands
in their places; so where no byte is left out, the bytes of all rows are the program.
-/
import Hinting.Proofs.Bounds
import Hinting.Proofs.Hexadecimal
import Hinting.Proofs.OneLine
import Hinting.Proofs.RoundTrip
import Hinting.Proofs.Tables

namespace Hinting

/-! ## Instructions on one line -/

namespace Instruction

theorem solid_text (i : Instruction) : Text.Solid i.text := by
  have bracketed : Text.Solid (i.bracketed i.bitsText) := by
    have name : '\n' ∉ i.mnemonic := by
      intro feed
      cases Operation.isAlphanum_of_mem_mnemonic _ feed
    have inside := feedless_of_isInside (isInside_bitsText i)
    refine ⟨by simp [Instruction.bracketed, name, inside],
      i.mnemonic ++ '[' :: i.bitsText, ']', ?_, by decide⟩
    rw [Instruction.bracketed, List.append_assoc, List.cons_append]
  by_cases none : i.arguments = []
  · rw [text, none, List.flatMap_nil, List.append_nil]
    exact bracketed
  · rw [text_of_arguments none]
    exact ((solid_intercalate_signed (by decide) none).prepend (a := [' ']) (by decide)).prepend
      bracketed.1

theorem barless_text (i : Instruction) : '│' ∉ i.text := by
  have name : '│' ∉ i.mnemonic := by
    intro bar
    cases Operation.isAlphanum_of_mem_mnemonic _ bar
  have inside : '│' ∉ i.bitsText := by
    intro bar
    cases isInside_bitsText i _ bar
  have values : ∀ v, '│' ∉ Numeral.signed v := by
    intro v bar
    rcases Numeral.mem_signed bar with minus | digit
    · cases minus
    · cases digit
  simp [text, bracketed, name, inside, values]

end Instruction

/-! ## The cells of a listing -/

theorem Numeral.solid_hex (width n : Nat) : Text.Solid (hex width n) := by
  have digits : ∀ c ∈ hex width n, Text.isWhite c = false := fun c hc =>
    isWhite_of_mem_hexDigits (mem_hexDigits_of_mem_hex hc)
  refine ⟨fun feed => ?_, _, _, (List.dropLast_concat_getLast (hex_ne_nil width n)).symm,
    digits _ (List.getLast_mem _)⟩
  cases digits _ feed

theorem Numeral.barless_hex (width n : Nat) : '│' ∉ hex width n := by
  intro bar
  have digit := mem_hexDigits_of_mem_hex bar
  revert digit
  decide

theorem Text.Solid.readable {cell : Text} (h : Solid cell) (barless : '│' ∉ cell) :
    Align.left.Readable cell := by
  obtain ⟨feedless, t, c, rfl, solid⟩ := h
  refine ⟨barless, feedless, ?_⟩
  rw [Align.Flush, List.getLast?_concat]
  intro space
  obtain rfl := Option.some.inj space
  cases solid

namespace Listing

theorem readable_offsetText (offset : Nat) :
    Align.right.Readable (Fault.offsetText offset) := by
  have digits := Numeral.solid_hex 4 offset
  have bars := Numeral.barless_hex 4 offset
  have zero : "0x".toList = ['0', 'x'] := rfl
  refine ⟨?_, ?_, ?_⟩
  · simp [Fault.offsetText, zero, bars]
  · simp [Fault.offsetText, zero, digits.1]
  · simp [Fault.offsetText, zero, Align.Flush]

def wordsOf (bytes : Bytes) : List Text :=
  (bytes.take maxListedBytes).map fun b => Numeral.hex 2 b.toNat

theorem bytesText_eq (bytes : Bytes) : bytesText bytes = [' '].intercalate (wordsOf bytes) ++
    if maxListedBytes < bytes.length then " ..".toList else [] := rfl

theorem readable_bytesText (bytes : Bytes) : Align.left.Readable (bytesText bytes) := by
  have solid : ∀ w ∈ wordsOf bytes, Text.Solid w := by
    intro w hw
    obtain ⟨b, _, rfl⟩ := List.mem_map.mp hw
    exact Numeral.solid_hex 2 b.toNat
  have barless : '│' ∉ [' '].intercalate (wordsOf bytes) := by
    refine Text.not_mem_intercalate (by decide) fun w hw => ?_
    obtain ⟨b, _, rfl⟩ := List.mem_map.mp hw
    exact Numeral.barless_hex 2 b.toNat
  have feedless : '\n' ∉ [' '].intercalate (wordsOf bytes) :=
    Text.not_mem_intercalate (by decide) fun w hw => (solid w hw).1
  rw [bytesText_eq]
  split
  · have dots : Text.Solid " ..".toList := ⟨by decide, [' ', '.'], '.', rfl, by decide⟩
    refine (dots.prepend feedless).readable ?_
    rw [List.mem_append]
    exact fun bar => bar.elim barless (by decide)
  · rw [List.append_nil]
    by_cases none : wordsOf bytes = []
    · rw [none]
      exact ⟨List.not_mem_nil, List.not_mem_nil, fun last => by cases last⟩
    · exact (Text.solid_intercalate (by decide) none solid).readable barless

theorem readable_indented (i : Instruction) : Align.left.Readable (i.indented i.text) := by
  have blanks := Instruction.allBlank_indentation i.indent
  refine (i.solid_text.prepend blanks.feedless).readable ?_
  rw [List.mem_append]
  exact fun bar => bar.elim (blanks.not_mem rfl) i.barless_text

/-- **The cells of a listing can be found,** whatever the instructions are. -/
theorem legible_table (l : Listing) : l.table.Legible where
  some_column := List.cons_ne_nil _ _
  readable := by
    intro row hrow
    rcases List.mem_cons.mp hrow with rfl | listed
    · have titles : ∀ {a : Align} {title : Text}, ⟨title, a⟩ ∈ columns → a.Readable title := by
        intro a title h
        simp only [columns, List.mem_cons, Column.mk.injEq, List.not_mem_nil, or_false] at h
        rcases h with ⟨rfl, rfl⟩ | ⟨rfl, rfl⟩ | ⟨rfl, rfl⟩
        all_goals refine ⟨by decide, by decide, ?_⟩
        · exact (by decide : "Offset".toList.head? ≠ some ' ')
        · exact (by decide : "Bytes".toList.getLast? ≠ some ' ')
        · exact (by decide : "Instruction".toList.getLast? ≠ some ' ')
      exact List.forall₂_map_left_iff.mpr (List.forall₂_map_right_iff.mpr
        (List.forall₂_same.mpr fun _ => titles))
    · obtain ⟨i, _, rfl⟩ := List.mem_map.mp listed
      exact .cons (readable_offsetText i.offset) (.cons (readable_bytesText (l.bytesOf i))
        (.cons (readable_indented i) .nil))

/-! ## Reading a line -/

/-- The cells of a line of the listing. -/
def cellsOf (line : Text) : List Text := Table.readRow (columns.map Column.align) line

/-- The bytes that a line spells out. -/
def bytesIn (line : Text) : Bytes := (Text.words ((cellsOf line).getD 1 [])).filterMap Numeral.byte?

/-- `Shows p i line`: the cells of the line are the offset of the instruction in at least four
hexadecimal digits, its first bytes in the program `p`, at most eight, with two dots if there are
more, and the instruction on one line, indented. -/
def Shows (p : Bytes) (i : Instruction) (line : Text) : Prop :=
  ∃ digits words,
    cellsOf line =
      ["0x".toList ++ digits,
       [' '].intercalate words ++ (if 8 < i.length then " ..".toList else []),
       i.indented i.text] ∧
    4 ≤ digits.length ∧ Numeral.hex? digits = some i.offset ∧
    words.length = min i.length 8 ∧
    words.map Numeral.byte? = ((p.drop i.offset).take (min i.length 8)).map some

theorem map_byte?_wordsOf (bytes : Bytes) :
    (wordsOf bytes).map Numeral.byte? = (bytes.take 8).map some := by
  rw [wordsOf, List.map_map]
  exact List.map_congr_left fun b _ => Numeral.byte?_hex b

theorem words_bytesText (bytes : Bytes) : Text.words (bytesText bytes) =
    wordsOf bytes ++ if maxListedBytes < bytes.length then ["..".toList] else [] := by
  have written : Text.words ([' '].intercalate (wordsOf bytes)) = wordsOf bytes := by
    refine Text.words_intercalate fun w hw => ?_
    obtain ⟨b, _, rfl⟩ := List.mem_map.mp hw
    refine ⟨Numeral.hex_ne_nil 2 b.toNat, fun c hc => ?_⟩
    have solid := Numeral.isWhite_of_mem_hexDigits (Numeral.mem_hexDigits_of_mem_hex hc)
    exact Bool.eq_false_iff.mpr fun blank => by cases solid.symm.trans (Text.isWhite_of_isBlank blank)
  rw [bytesText_eq]
  split
  · exact (Text.words_append_cons (c := ' ') rfl _ "..".toList).trans
      (congrArg₂ (· ++ ·) written (by decide))
  · rw [List.append_nil, List.append_nil, written]

theorem filterMap_words_bytesText (bytes : Bytes) :
    (Text.words (bytesText bytes)).filterMap Numeral.byte? = bytes.take 8 := by
  have found : (wordsOf bytes).filterMap Numeral.byte? = bytes.take 8 := by
    rw [wordsOf, List.filterMap_map]
    exact (List.filterMap_congr fun b _ => Numeral.byte?_hex b).trans List.filterMap_some
  rw [words_bytesText, List.filterMap_append, found]
  split
  · exact List.append_nil _
  · exact List.append_nil _

variable {l : Listing} {i : Instruction}

theorem cellsOf_rowLine (h : i ∈ l.instructions) :
    cellsOf (Table.rowLine l.table.layout (l.row i)) = l.row i :=
  l.legible_table.readRow_of_mem (List.mem_cons_of_mem _ (List.mem_map_of_mem h))

theorem bytesIn_rowLine (h : i ∈ l.instructions) :
    bytesIn (Table.rowLine l.table.layout (l.row i)) = (l.bytesOf i).take 8 := by
  rw [bytesIn, cellsOf_rowLine h]
  exact filterMap_words_bytesText _

theorem shows_rowLine (h : i ∈ l.instructions) (fits : i.offset + i.length ≤ l.program.length) :
    Shows l.program i (Table.rowLine l.table.layout (l.row i)) := by
  have length : (l.bytesOf i).length = i.length := by
    rw [bytesOf, List.length_take, List.length_drop]
    omega
  have first : (l.bytesOf i).take 8 = (l.program.drop i.offset).take (min i.length 8) := by
    rw [bytesOf, List.take_take, Nat.min_comm]
  refine ⟨Numeral.hex 4 i.offset, wordsOf (l.bytesOf i), ?_, Numeral.le_length_padded 16 4 _,
    Numeral.hex?_hex 4 _, ?_, ?_⟩
  · rw [cellsOf_rowLine h, row, bytesText_eq, length]
    rfl
  · rw [wordsOf, List.length_map, List.length_take, length, Nat.min_comm]
    rfl
  · rw [map_byte?_wordsOf, first]

theorem map_text_of_shows {p : Bytes} {is : List Instruction} {rows : List Text}
    (h : List.Forall₂ (Shows p) is rows) :
    rows.map (fun line => (cellsOf line).getD 2 []) = is.map fun i => i.indented i.text := by
  induction h with
  | nil => rfl
  | cons shows _ ih =>
      obtain ⟨_, _, cells, _⟩ := shows
      rw [List.map_cons, List.map_cons, ih, cells]
      rfl

theorem exists_barPlaces (l : Listing) :
    ∃ x y, x < y ∧ Table.barPlaces l.table.layout = [x, y] := by
  have count : l.table.layout.length = 3 := (l.legible_table.fitted List.mem_cons_self).length_eq
  obtain ⟨offset, bytes, text, layout⟩ := List.length_eq_three.mp count
  rw [layout]
  exact ⟨1 + (offset.2 + 2), 0 + (bytes.2 + 2) + (1 + (offset.2 + 2) + 1), by omega, rfl⟩

end Listing

/-! ## The rows of a program -/

theorem Stream.pairwise_offset_place : ∀ (cs : List Command) (o d : Nat),
    (place o d cs).Pairwise fun i j => i.offset < j.offset := by
  intro cs
  induction cs with
  | nil => intro o d; exact .nil
  | cons c cs ih =>
      intro o d
      refine List.pairwise_cons.mpr ⟨fun j hj => ?_, ih _ _⟩
      have behind := (bounds_of_mem_place hj).1
      have some_byte := c.size_pos
      change o < j.offset
      omega

theorem Stream.Split.tail_eq_nil {p r : Bytes} {cs : List Command} (h : Stream.Split p cs r)
    (faultless : (decoding p).ending.fault? = none)
    (whole : ∀ push, (decoding p).ending ≠ .cutOff push) : r = [] := by
  rw [h.decoding_eq] at faultless whole
  cases ending : tailEnding (bytes cs).length r with
  | complete => exact eq_nil_of_complete h.tail ending
  | unassigned b offset => rw [ending] at faultless; cases faultless
  | cutOff push => exact absurd ending (whole push)

/-- **Rows tile the program** where they show all of its bytes. -/
theorem Listing.flatMap_bytesIn_rows {p : Bytes} {l : Listing} (h : listing p = .ok l)
    (whole : ∀ push, (decoding p).ending ≠ .cutOff push)
    (short : ∀ i ∈ l.instructions, i.length ≤ 8) :
    (l.instructions.map fun i => Table.rowLine l.table.layout (l.row i)).flatMap bytesIn = p := by
  obtain ⟨rfl, decoded⟩ := decode_of_listing h
  obtain ⟨faultless, placed⟩ := decode_eq_ok_iff.mp decoded
  obtain ⟨cs, r, split⟩ := Stream.exists_split l.program
  obtain rfl := split.tail_eq_nil faultless whole
  have shown : ∀ i ∈ l.instructions,
      bytesIn (Table.rowLine l.table.layout (l.row i)) = l.bytesOf i := by
    intro i hi
    rw [bytesIn_rowLine hi, bytesOf, List.take_take, Nat.min_eq_right (short i hi)]
  have tiles := Stream.flatMap_slice_place l.program [] cs [] 0 split.eq
  rw [split.decoding_eq] at placed
  calc (l.instructions.map fun i => Table.rowLine l.table.layout (l.row i)).flatMap bytesIn
      = l.instructions.flatMap l.bytesOf := by rw [List.flatMap_map, List.flatMap_congr shown]
    _ = Stream.bytes cs := by rw [← placed]; exact tiles
    _ = l.program := by rw [split.eq, List.append_nil]

/-- **A listing is a table that can be read.**  Where a program has a listing, it is printed as
a title, a rule, a row for each decoded instruction and a rule, all of one length.  Two places
are the same in all of them: there the title and the rows have their bars, and the rules have
their crossings.  Each row shows its instruction.  The offsets increase; and if the end cuts off
no push and no instruction has more than eight bytes, the bytes of all rows are the program. -/
theorem listing_is_table {p : Bytes} {l : Listing} (h : listing p = .ok l) :
    decode p = .ok l.instructions ∧
    (∃ title rows columns x y,
      Text.lines l.text =
        title :: Table.rule columns '┼' :: (rows ++ [Table.rule columns '┴']) ∧
      rows.length = l.instructions.length ∧
      (∀ line ∈ Text.lines l.text, line.length = title.length) ∧
      x < y ∧
      (∀ line ∈ title :: rows, Text.StandsAt '│' line [x, y]) ∧
      Text.StandsAt '┼' (Table.rule columns '┼') [x, y] ∧
      Text.StandsAt '┴' (Table.rule columns '┴') [x, y] ∧
      Listing.cellsOf title = ["Offset".toList, "Bytes".toList, "Instruction".toList] ∧
      List.Forall₂ (Listing.Shows p) l.instructions rows ∧
      ((∀ push, (decoding p).ending ≠ .cutOff push) → (∀ i ∈ l.instructions, i.length ≤ 8) →
        rows.flatMap Listing.bytesIn = p)) ∧
    l.instructions.Pairwise fun i j => i.offset < j.offset := by
  obtain ⟨whole, decoded⟩ := decode_of_listing h
  obtain ⟨_, bounds⟩ := bounds_of_listing h
  have legible := l.legible_table
  have rows : l.table.rows.map (Table.rowLine l.table.layout)
      = l.instructions.map fun i => Table.rowLine l.table.layout (l.row i) := List.map_map
  have lines := legible.lines_text
  have bars := legible.standsAt_rows
  rw [Table.lines, rows] at lines
  rw [List.map_cons, rows] at bars
  obtain ⟨x, y, apart, places⟩ := l.exists_barPlaces
  rw [places] at bars
  refine ⟨decoded, ⟨_, _, l.table.layout, x, y, lines, List.length_map _, ?_, apart, bars, ?_, ?_,
    legible.readRow_of_mem List.mem_cons_self, ?_, Listing.flatMap_bytesIn_rows h⟩, ?_⟩
  · intro line hl
    have printed : line ∈ l.table.lines := legible.lines_text ▸ hl
    exact (legible.length_of_mem_lines printed).trans
      (legible.length_of_mem_lines List.mem_cons_self).symm
  · exact places ▸ Table.standsAt_rule (by decide) (by decide)
  · exact places ▸ Table.standsAt_rule (by decide) (by decide)
  · refine List.forall₂_map_right_iff.mpr (List.forall₂_same.mpr fun i hi => ?_)
    subst whole
    exact Listing.shows_rowLine hi (bounds i hi).2
  · obtain ⟨cs, r, split⟩ := Stream.exists_split p
    obtain ⟨_, placed⟩ := decode_eq_ok_iff.mp decoded
    rw [← placed, split.decoding_eq]
    exact Stream.pairwise_offset_place cs 0 0

/-- `IF`, a push of two bytes, a move with bits, and `EIF`. -/
theorem listing_is_table_nested :
    ∃ l, listing [0x58, 0xb1, 0x03, 0x04, 0xc6, 0x59] = .ok l ∧
      ∃ title rows columns,
        Text.lines l.text
          = title :: Table.rule columns '┼' :: (rows ++ [Table.rule columns '┴']) ∧
        rows.map (fun line => (Listing.cellsOf line).getD 2 [])
          = ["IF[ ]".toList, "  PUSHB[ ] 3 4".toList, "  MDRP[00110]".toList, "EIF[ ]".toList] ∧
        rows.flatMap Listing.bytesIn = [0x58, 0xb1, 0x03, 0x04, 0xc6, 0x59] := by
  have decoded : decode [0x58, 0xb1, 0x03, 0x04, 0xc6, 0x59]
      = .ok (Stream.place 0 0 [.plain .IF 0, .push .PUSHB [3, 4], .plain .MDRP 6, .plain .EIF 0]) :=
    by cbv
  have listed := listing_of_decode decoded
  have whole : (decoding [0x58, 0xb1, 0x03, 0x04, 0xc6, 0x59]).ending = .complete := by cbv
  obtain ⟨_, ⟨title, rows, columns, _, _, lines, _, _, _, _, _, _, _, shown, tiles⟩, _⟩ :=
    listing_is_table listed
  refine ⟨_, listed, title, rows, columns, lines, ?_, tiles ?_ (by decide)⟩
  · exact (Listing.map_text_of_shows shown).trans (by cbv)
  · intro push cut
    cases whole.symm.trans cut

end Hinting
