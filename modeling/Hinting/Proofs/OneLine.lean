/-
# `Hinting.Proofs.OneLine` — three renderers, one story

An instruction is shown in three places, each with a renderer of its own:

    generic dialect      ␣␣PUSHB[ ]⇥/* 2 values pushed */
                         ␣␣7 -9
    one line             PUSHB[ ] 7 -9
    cell of the listing  ␣␣PUSHB[ ] 7 -9

What there is to show is set out once (`Showing`), and each place is an arrangement of it.
The renderers do not agree on every instruction.  The generic dialect writes no bits for a
push and no values for anything else, while the one-line form writes whatever it finds; so
they agree exactly where there is nothing of that kind to find (`ttxLines_eq_iff`,
`text_eq_iff`), and a walk makes no other instructions (`proper_of_mem_decoding`).
-/
import Mathlib
import Hinting.Proofs.EntryPoints

namespace Hinting

/-! ## What there is to show -/

/-- What there is to show of an instruction. -/
structure Showing where
  /-- The number of blocks around the instruction. -/
  indent : Nat
  /-- The name and the brackets after it. -/
  head : Text
  comment : Text
  /-- The values, where there are some to show. -/
  values? : Option Text

namespace Showing

def lines (s : Showing) : List Text :=
  (Text.indentation s.indent ++ s.head ++ "\t/* ".toList ++ s.comment ++ " */".toList)
    :: (s.values?.map fun values => Text.indentation s.indent ++ values).toList

def line (s : Showing) : Text :=
  match s.values? with
  | none => s.head
  | some values => s.head ++ ' ' :: values

def cell (s : Showing) : Text := Text.indentation s.indent ++ s.line

end Showing

/-- The cells of a table under a title. -/
def Table.cellsUnder (t : Table) (title : Text) : List Text :=
  t.rows.filterMap fun row => row[t.titles.idxOf title]?

namespace Instruction
variable {i : Instruction}

/-- What there is to show of an instruction.  Values are shown for a push that has some. -/
def showing (i : Instruction) : Showing where
  indent := i.indent
  head := i.mnemonic ++ '[' :: (i.bitsText ++ [']'])
  comment := if i.isPush then countText i.arguments.length else i.description
  values? :=
    if i.isPush ∧ i.arguments ≠ [] then some ([' '].intercalate (i.arguments.map Numeral.signed))
    else none

/-- The instruction has no bits if it is a push, and no values otherwise. -/
structure Proper (i : Instruction) : Prop where
  bits : i.isPush = true → i.bits = none
  arguments : i.isPush = false → i.arguments = []

/-! ## Where the renderers agree -/

theorem bitsText_eq_space_iff : i.bitsText = [' '] ↔ i.bits = none := by
  rw [bitsText]
  cases i.bits with
  | none => exact iff_of_true rfl rfl
  | some bits =>
      refine iff_of_false (fun blank => ?_) (fun none => by cases none)
      -- A space is no binary digit.
      have digits : bits.digits.all Numeral.isBinaryDigit = true :=
        Numeral.all_isBinaryDigit_binary bits.width bits.value
      rw [show bits.digits = [' '] from blank] at digits
      cases digits

theorem headerLine_inj {inside inside' comment : Text} :
    i.headerLine inside comment = i.headerLine inside' comment ↔ inside = inside' := by
  simp [headerLine, indented, bracketed]

theorem lines_showing (i : Instruction) : i.showing.lines =
    i.headerLine i.bitsText (if i.isPush then countText i.arguments.length else i.description) ::
      if i.isPush ∧ i.arguments ≠ [] then [i.indented (i.argumentsText [' '])] else [] := by
  have header : Text.indentation i.showing.indent ++ i.showing.head ++ "\t/* ".toList
      ++ i.showing.comment ++ " */".toList = i.headerLine i.bitsText i.showing.comment := by
    simp [headerLine, indented, bracketed, showing]
  rw [Showing.lines, header]
  by_cases valued : i.isPush ∧ i.arguments ≠ []
  · rw [if_pos valued, showing, if_pos valued]
    rfl
  · rw [if_neg valued, showing, if_neg valued]
    rfl

theorem ttxLines_eq_iff : i.ttxLines = i.showing.lines ↔ (i.isPush = true → i.bits = none) := by
  rw [ttxLines_eq, lines_showing]
  cases push : i.isPush with
  | false => simp
  | true =>
      have values : (if i.arguments.isEmpty then [] else [i.indented (i.argumentsText [' '])])
          = if i.arguments ≠ [] then [i.indented (i.argumentsText [' '])] else [] := by
        cases i.arguments <;> rfl
      simp only [if_true, true_and, values, List.cons.injEq, and_true, headerLine_inj,
        forall_const]
      rw [eq_comm, bitsText_eq_space_iff]

theorem flatMap_cons_space {ts : List Text} (some_text : ts ≠ []) :
    ts.flatMap (' ' :: ·) = ' ' :: [' '].intercalate ts := by
  induction ts with
  | nil => exact absurd rfl some_text
  | cons t ts ih =>
      cases ts with
      | nil => simp
      | cons u us =>
          rw [List.flatMap_cons, ih (List.cons_ne_nil u us), List.intercalate_cons_cons]
          simp

theorem text_of_arguments (some_argument : i.arguments ≠ []) : i.text =
    i.bracketed i.bitsText ++ ' ' :: [' '].intercalate (i.arguments.map Numeral.signed) := by
  rw [← flatMap_cons_space (by simpa using some_argument), List.flatMap_map]
  rfl

theorem text_eq_iff : i.text = i.showing.line ↔ (i.isPush = false → i.arguments = []) := by
  by_cases none : i.arguments = []
  · refine iff_of_true ?_ fun _ => none
    simp [text, Showing.line, showing, bracketed, none]
  · rw [text_of_arguments none, Showing.line, showing]
    cases i.isPush with
    | true => simp [none, bracketed]
    | false => simp [none, bracketed]

end Instruction

/-! ## What a walk makes -/

theorem Command.proper_placed {c : Command} (h : c.IsEncodable) (offset indent : Nat) :
    (c.placed offset indent).Proper := by
  cases c with
  | plain op value =>
      refine ⟨fun isPush => ?_, fun _ => rfl⟩
      cases isPush.symm.trans (Operation.isPush_eq_false h.1)
  | push op values =>
      obtain ⟨w, kind, _⟩ := h
      refine ⟨fun _ => rfl, fun plain => ?_⟩
      cases plain.symm.trans (Operation.isPush_of_pushWidth? kind)

theorem proper_of_mem_decoding {p : Bytes} {i : Instruction}
    (h : i ∈ (decoding p).instructions) : i.Proper := by
  obtain ⟨cs, r, split⟩ := Stream.exists_split p
  rw [split.decoding_eq] at h
  obtain ⟨c, hc, ⟨offset, indent, rfl⟩, _⟩ := Stream.exists_of_mem_place h
  exact Command.proper_placed (split.encodable c hc) offset indent

theorem decode_eq_ok_iff {p : Bytes} {is : List Instruction} :
    decode p = .ok is ↔ (decoding p).ending.fault? = none ∧ (decoding p).instructions = is := by
  rw [Stream.decode_of_decoding rfl]
  cases (decoding p).ending.fault? with
  | none => simp
  | some f => simp

theorem listing_of_decode {p : Bytes} {is : List Instruction} (h : decode p = .ok is) :
    listing p = .ok ⟨p, is⟩ := by
  obtain ⟨faultless, rfl⟩ := decode_eq_ok_iff.mp h
  rw [listing_eq, Writer.writeMany_ttx rfl, Except.bind, Writer.conclude, faultless]
  rfl

theorem decode_of_listing {p : Bytes} {l : Listing} (h : listing p = .ok l) :
    l.program = p ∧ decode p = .ok l.instructions := by
  cases decoded : decode p with
  | ok is =>
      obtain rfl := Except.ok.inj ((listing_of_decode decoded).symm.trans h)
      exact ⟨rfl, rfl⟩
  | error f =>
      have same := sameFault_listing p
      rw [decoded, h] at same
      cases same

theorem ttxAssembly_of_decode {p : Bytes} {is : List Instruction} (h : decode p = .ok is) :
    ttxAssembly p = .ok (['\n'].intercalate (is.flatMap Instruction.ttxLines)) := by
  obtain ⟨cs, r, split⟩ := Stream.exists_split p
  obtain ⟨faultless, rfl⟩ := decode_eq_ok_iff.mp h
  rw [split.decoding_eq] at faultless ⊢
  exact split.disassemble_ttx faultless

theorem Listing.cellsUnder_instruction (l : Listing) :
    l.table.cellsUnder "Instruction".toList = l.instructions.map fun i => i.indented i.text := by
  have title : l.table.titles.idxOf "Instruction".toList = 2 := by
    change (Listing.columns.map Column.title).idxOf _ = 2
    decide
  rw [Table.cellsUnder, title, Listing.table, List.filterMap_map]
  exact List.filterMap_eq_map_iff_forall_eq_some.mpr fun _ _ => rfl

/-- **The generic dialect, the one-line form and the listing show the same.**  For each
instruction of a program that decodes, the generic dialect writes its header line and, where
it is a push with values, a line of these; the one-line form is the two without the comment;
and the cell of the listing is that form, indented.  So the text of the program and the column
of the listing show the same instructions, in the same order. -/
theorem renderers_agree {p : Bytes} {is : List Instruction} (h : decode p = .ok is) :
    (∀ i ∈ is,
      (∀ w : Writer, w.options.dialect = .ttx →
        w.write i = .ok { w with lines := w.lines ++ i.showing.lines }) ∧
      i.text = i.showing.line) ∧
    ttxAssembly p = .ok (['\n'].intercalate (is.flatMap fun i => i.showing.lines)) ∧
    ∃ l, listing p = .ok l ∧
      l.table.cellsUnder "Instruction".toList = is.map fun i => i.showing.cell := by
  have proper : ∀ i ∈ is, i.Proper := by
    obtain ⟨_, rfl⟩ := decode_eq_ok_iff.mp h
    exact fun i => proper_of_mem_decoding
  have lines : ∀ i ∈ is, i.ttxLines = i.showing.lines := fun i hi =>
    Instruction.ttxLines_eq_iff.mpr (proper i hi).bits
  have line : ∀ i ∈ is, i.text = i.showing.line := fun i hi =>
    Instruction.text_eq_iff.mpr (proper i hi).arguments
  refine ⟨fun i hi => ⟨fun w ttx => ?_, line i hi⟩, ?_, _, listing_of_decode h, ?_⟩
  · rw [Writer.write_eq, ttx, Dialect.linesOf, ← lines i hi]
  · rw [ttxAssembly_of_decode h, List.flatMap_congr lines]
  · rw [Listing.cellsUnder_instruction]
    refine List.map_congr_left fun i hi => ?_
    rw [line i hi]
    rfl

/-- `IF`, a push of two words, a move with bits, a push of nothing, and `EIF`. -/
theorem renderers_agree_nested :
    ((Command.push .PUSHW [7, -9]).placed 1 1).text = "PUSHW[ ] 7 -9".toList ∧
    ttxAssembly [0x58, 0xb9, 0x00, 0x07, 0xff, 0xf7, 0xc6, 0x40, 0x00, 0x59]
        = .ok (['\n'].intercalate ["IF[ ]\t/* If */".toList,
            "  PUSHW[ ]\t/* 2 values pushed */".toList, "  7 -9".toList,
            "  MDRP[00110]\t/* MoveDirectRelPt */".toList,
            "  NPUSHB[ ]\t/* 0 values pushed */".toList, "EIF[ ]\t/* EndIf */".toList]) ∧
      ∃ l, listing [0x58, 0xb9, 0x00, 0x07, 0xff, 0xf7, 0xc6, 0x40, 0x00, 0x59] = .ok l ∧
        l.table.cellsUnder "Instruction".toList
          = ["IF[ ]".toList, "  PUSHW[ ] 7 -9".toList, "  MDRP[00110]".toList,
            "  NPUSHB[ ]".toList, "EIF[ ]".toList] := by
  have decoded : decode [0x58, 0xb9, 0x00, 0x07, 0xff, 0xf7, 0xc6, 0x40, 0x00, 0x59]
      = .ok (Stream.place 0 0 [.plain .IF 0, .push .PUSHW [7, -9], .plain .MDRP 6,
          .push .NPUSHB [], .plain .EIF 0]) := by cbv
  obtain ⟨each, assembly, l, listed, cells⟩ := renderers_agree decoded
  have push : (Command.push .PUSHW [7, -9]).placed 1 1 ∈ Stream.place 0 0 [.plain .IF 0,
      .push .PUSHW [7, -9], .plain .MDRP 6, .push .NPUSHB [], .plain .EIF 0] :=
    .tail _ (.head _)
  refine ⟨(each _ push).2.trans ?_, assembly.trans ?_, l, listed, cells.trans ?_⟩
  · cbv
  · cbv
  · cbv

end Hinting
