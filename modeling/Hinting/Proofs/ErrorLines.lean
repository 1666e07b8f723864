/-
# `Hinting.Proofs.ErrorLines` — the line that an error is reported at

An error of the assembler is found at one line, the header line at which it stops.  The lines
above it have been taken as commands, and of the lines below it no more has been looked at
than the next one that counts:

    before     taken, and a program in themselves
    source     the line that the error is about
    …          lines of white space
    next       looked at for values
    …          not looked at

What is to be known of a failing run is where it stops (`Stops`).  It is nothing but that:
the assembler fails exactly where it stops at a line (`assemble_eq_error_iff`).  So the text
above the line assembles (`Stops.assemble_above`), and a text with the same lines down to
`next` stops there too, with the same error (`Stops.of_lines`).
-/
import Mathlib
import Hinting.Proofs.NumberedLines

namespace Hinting

/-! ## Where a run stops -/

/-- `Stops t e before source after`: assembling the text `t` comes through the lines `before` and
stops at the line `source`, with the error `e`. -/
structure Stops (t : Text) (e : AssemblyError) (before : List Text) (source : Text)
    (after : List Text) : Prop where
  lines : Text.lines t = before ++ source :: after
  filled : source.all Text.isWhite = false
  line : e.line = 1 + before.length
  comes : ∃ cs, Comes (numbered 1 before ++ [⟨e.line, source⟩]) cs [⟨e.line, source⟩]
  fails : SourceLine.command ⟨e.line, source⟩ (numbered (e.line + 1) after) = .error e

theorem assemble_eq_error_iff_commands {t : Text} {e : AssemblyError} :
    assemble t = .error e ↔ commands (sourceLines t) = .error e := by
  rw [assemble]
  cases commands (sourceLines t) with
  | ok cs => exact iff_of_false (fun h => by cases h) (fun h => by cases h)
  | error e' => simp [Except.map]

theorem assemble_eq_error_iff {t : Text} {e : AssemblyError} :
    assemble t = .error e ↔ ∃ before source after, Stops t e before source after := by
  rw [assemble_eq_error_iff_commands, commands_eq_error_iff, sourceLines_eq]
  constructor
  · rintro ⟨cs, line, rest, comes, fails⟩
    obtain ⟨front, split, exchanged⟩ := comes.exchange
    obtain ⟨before, after, lines, filled, number, rfl, rfl⟩ := exists_of_numbered split
    obtain ⟨cause, _, rfl⟩ := SourceLine.command_eq_error_iff.mp fails
    exact ⟨before, line.text, after, lines, filled, number,
      ⟨cs, exchanged [line] (valuesStay_cons line [] _)⟩, fails⟩
  · rintro ⟨before, source, after, h⟩
    obtain ⟨cs, comes⟩ := h.comes
    obtain ⟨front, split, exchanged⟩ := comes.exchange
    obtain rfl := List.append_cancel_right split
    refine ⟨cs, _, _, ?_, h.fails⟩
    rw [h.lines, numbered_append_cons h.filled, ← h.line]
    exact exchanged _ (valuesStay_cons _ _ [])

namespace Stops
variable {t : Text} {e : AssemblyError} {before after : List Text} {source : Text}

theorem assemble_above (h : Stops t e before source after) {p : Text}
    (above : Text.lines p = before) : ∃ q, assemble p = .ok q := by
  obtain ⟨cs, comes⟩ := h.comes
  obtain ⟨front, split, exchanged⟩ := comes.exchange
  obtain rfl := List.append_cancel_right split
  have made := commands_eq_ok_iff_comes.mpr (exchanged [] (valuesStay_nil _))
  rw [List.append_nil, ← above, ← sourceLines_eq] at made
  exact ⟨Stream.bytes cs, by rw [assemble, made]; rfl⟩

/-- A text with the same lines down to the line at fault, and the same values ahead of it, stops
there too. -/
theorem of_lines (h : Stops t e before source after) {t' : Text} {after' : List Text}
    (lines' : Text.lines t' = before ++ source :: after')
    (same : (valuesAhead (numbered (e.line + 1) after')).1
      = (valuesAhead (numbered (e.line + 1) after)).1) :
    Stops t' e before source after' :=
  ⟨lines', h.filled, h.line, h.comes, SourceLine.command_of_error h.fails same⟩

end Stops

/-! ## What is looked at -/

theorem fst_valuesAhead_cons (next : SourceLine) (later later' : List SourceLine) :
    (valuesAhead (next :: later)).1 = (valuesAhead (next :: later')).1 := by
  rw [valuesAhead, valuesAhead]
  cases Values.ofLine? next.text <;> rfl

theorem fst_valuesAhead_numbered {l : Text} {ls : List Text} (member : l ∈ ls)
    (filled : l.all Text.isWhite = false) (n : Nat) (after after' : List Text) :
    (valuesAhead (numbered n (ls ++ after))).1 = (valuesAhead (numbered n (ls ++ after'))).1 := by
  have some_line : numbered n ls ≠ [] := by
    intro none
    have texts := map_text_numbered n ls
    rw [none, List.map_nil, eq_comm, List.filter_eq_nil_iff] at texts
    exact texts l member (by simp [filled])
  obtain ⟨next, later, eq⟩ := List.exists_cons_of_ne_nil some_line
  rw [numbered_append, numbered_append, eq]
  exact fst_valuesAhead_cons next _ _

namespace Text

theorem exists_prefix_of_lines {before after : List Text} {l : Text} : ∀ {t : Text},
    lines t = before ++ l :: after → ∃ p, p <+: t ∧ lines p = before := by
  induction before with
  | nil => intro t _; exact ⟨[], List.nil_prefix, rfl⟩
  | cons b before ih =>
      intro t eq
      by_cases feed : '\n' ∈ t
      · obtain ⟨x, u, rfl, first⟩ := List.eq_append_cons_of_mem feed
        rw [lines_feed first, List.cons_append] at eq
        obtain ⟨rfl, later⟩ := List.cons.inj eq
        obtain ⟨p, start, top⟩ := ih later
        exact ⟨x ++ '\n' :: p, (List.prefix_append_right_inj x).mpr
          ((List.prefix_cons_inj '\n').mpr start), by rw [lines_feed first, top]⟩
      · -- A text without a line feed has one line at most.
        rw [lines_feedless feed] at eq
        have length := congrArg List.length eq
        split at length <;> simp at length

/-- The line of a text with the number `n`, from one on, is not all white space. -/
def Counts (t : Text) (n : Nat) : Prop :=
  ∃ l, (lines t)[n - 1]? = some l ∧ l.all isWhite = false

end Text

/-- A line that counts and comes below another stands among the lines below that one, and texts
with the same lines down to it have the same lines in between. -/
theorem exists_of_counts {t : Text} {before after : List Text} {source : Text} {M : Nat}
    (lines : Text.lines t = before ++ source :: after) (later : 1 + before.length < M)
    (counts : Text.Counts t M) : ∃ between rest l, after = between ++ rest ∧ l ∈ between ∧
      l.all Text.isWhite = false ∧ ∀ t', (Text.lines t').take M = (Text.lines t).take M →
        ∃ rest', Text.lines t' = before ++ source :: (between ++ rest') := by
  obtain ⟨j, rfl⟩ := Nat.exists_eq_add_of_lt later
  obtain ⟨l, here, filled⟩ := counts
  have place : 1 + before.length + j + 1 - 1 = before.length + (j + 1) := by omega
  have depth : 1 + before.length + j + 1 = before.length + (j + 1 + 1) := by omega
  rw [place, lines, List.getElem?_append_right (Nat.le_add_right _ _), Nat.add_sub_cancel_left,
    List.getElem?_cons_succ] at here
  refine ⟨after.take (j + 1), after.drop (j + 1), l, (List.take_append_drop _ _).symm, ?_, filled,
    fun t' same => ⟨(Text.lines t').drop (before.length + (j + 1 + 1)), ?_⟩⟩
  · refine List.mem_of_getElem? (i := j) ?_
    rw [List.getElem?_take_of_lt (Nat.lt_succ_self j), here]
  · have top : (Text.lines t).take (before.length + (j + 1 + 1))
        = before ++ source :: after.take (j + 1) := by
      rw [lines, List.take_length_add_append, List.take_succ_cons]
    calc Text.lines t'
        = (Text.lines t').take (before.length + (j + 1 + 1))
            ++ (Text.lines t').drop (before.length + (j + 1 + 1)) :=
          (List.take_append_drop _ _).symm
      _ = before ++ source :: (after.take (j + 1)
            ++ (Text.lines t').drop (before.length + (j + 1 + 1))) := by
          rw [← depth, same, depth, top, List.append_assoc, List.cons_append]

/-- **An error is reported at the first line at fault.**  If the message names a line, it is a
line of the text and not all white space; the text above it assembles; and where another line
that counts comes below it, every text with the same lines down to that one fails with the
same error, whatever comes after. -/
theorem assemble_error_line {t : Text} {e : AssemblyError} {N : Nat} {report : Text}
    (failed : assemble t = .error e) (named : AssemblyError.NamesLine e.message N report) :
    1 ≤ N ∧ N ≤ (Text.lines t).length ∧ Text.Counts t N ∧
      (∃ p, p <+: t ∧ Text.lines p = (Text.lines t).take (N - 1)) ∧
      (∀ p, Text.lines p = (Text.lines t).take (N - 1) → ∃ q, assemble p = .ok q) ∧
      ∀ M, N < M → Text.Counts t M →
        ∀ t', (Text.lines t').take M = (Text.lines t).take M → assemble t' = .error e := by
  obtain ⟨_, rfl, _⟩ := AssemblyError.namesLine_message_iff.mp named
  obtain ⟨before, source, after, stops⟩ := assemble_eq_error_iff.mp failed
  have above : (Text.lines t).take (e.line - 1) = before := by
    rw [stops.line, Nat.add_sub_cancel_left, stops.lines, List.take_left]
  refine ⟨?_, ?_, ⟨source, ?_, stops.filled⟩, ?_, ?_, ?_⟩
  · rw [stops.line]
    exact Nat.le_add_right _ _
  · rw [stops.line, stops.lines, List.length_append, List.length_cons]
    omega
  · rw [stops.line, stops.lines, Nat.add_sub_cancel_left,
      List.getElem?_append_right (Nat.le_refl _), Nat.sub_self]
    rfl
  · rw [above]
    exact Text.exists_prefix_of_lines stops.lines
  · rw [above]
    exact fun p => stops.assemble_above
  · intro M later counts t' same
    obtain ⟨between, rest, l, rfl, member, filled, agree⟩ :=
      exists_of_counts stops.lines (stops.line ▸ later) counts
    obtain ⟨rest', lines'⟩ := agree t' same
    exact assemble_eq_error_iff.mpr ⟨before, source, _, stops.of_lines lines'
      (fst_valuesAhead_numbered member filled _ _ _)⟩

/-- A push of a value that is no byte, between a push of nothing and a line of blanks. -/
theorem assemble_error_line_operand :
    assemble "NPUSHB[ ]\n\nPUSHB[ ]\n \n256 1".toList = .error ⟨3, .outOfRange .PUSHB 256⟩ ∧
      (∃ q, assemble "NPUSHB[ ]\n\n".toList = .ok q) ∧
      ∀ rest, assemble ("NPUSHB[ ]\n\nPUSHB[ ]\n \n256 1".toList ++ '\n' :: rest)
        = .error ⟨3, .outOfRange .PUSHB 256⟩ := by
  have failed : assemble "NPUSHB[ ]\n\nPUSHB[ ]\n \n256 1".toList
      = .error ⟨3, .outOfRange .PUSHB 256⟩ := by cbv
  have pieces : ("NPUSHB[ ]\n\nPUSHB[ ]\n \n256 1".toList.splitOn '\n').map Text.dropReturn
      = Text.lines "NPUSHB[ ]\n\nPUSHB[ ]\n \n256 1".toList := by cbv
  have five : (Text.lines "NPUSHB[ ]\n\nPUSHB[ ]\n \n256 1".toList).length = 5 := by cbv
  have top : Text.lines "NPUSHB[ ]\n\n".toList
      = (Text.lines "NPUSHB[ ]\n\nPUSHB[ ]\n \n256 1".toList).take (3 - 1) := by cbv
  have last : (Text.lines "NPUSHB[ ]\n\nPUSHB[ ]\n \n256 1".toList)[5 - 1]?
      = some "256 1".toList := by cbv
  have named : AssemblyError.NamesLine (AssemblyError.message ⟨3, .outOfRange .PUSHB 256⟩) 3
      (AssemblyError.Cause.outOfRange .PUSHB 256).text :=
    AssemblyError.namesLine_message_iff.mpr ⟨(fun other => by cases other), rfl, rfl⟩
  obtain ⟨_, _, _, _, above, below⟩ := assemble_error_line failed named
  refine ⟨failed, above _ top, fun rest => ?_⟩
  refine below 5 (by decide) ⟨_, last, by cbv⟩ _ ?_
  rw [Text.lines_append_cons, pieces, List.take_left' five, List.take_of_length_le (by omega)]

end Hinting
