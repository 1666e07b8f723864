/-
# `Hinting.Proofs.NamedLines` — which errors name their line

A message of the assembler begins with the number of the line that it is about, blank lines
counted, with one exception:

    MDRP[01]       Error on line 1: MDRP takes 5 bits but was given `01`.
    MDRP[0 1 0]    invalid digit found in string

The digits in brackets are counted first and read after that.  A space between two of them
counts as a digit, so the number can be right where the digits are not; the reader of binary
numerals is then the first to notice, and it knows of no lines.  A line of this kind
(`Header.IsGapped`) is the only one that goes without its number.

Where the assembler stops is known (`Stops`), and so is what it stops with (`Refused`).  What
is left to see is that the one cause without a number comes from these lines and from no
others (`Stops.cause_eq_invalidDigit_iff`).
-/
import Mathlib
import Hinting.Proofs.ErrorLines

namespace Hinting

theorem Text.mem_of_mem_trim {t : Text} {c : Char} (h : c ∈ trim t) : c ∈ t := by
  have inner : c ∈ (t.dropWhile isWhite).reverse.dropWhile isWhite := List.mem_reverse.mp h
  have later : c ∈ t.dropWhile isWhite :=
    List.mem_reverse.mp ((List.dropWhile_sublist _).mem inner)
  exact (List.dropWhile_sublist _).mem later

theorem Numeral.binary?_eq_none_iff {ds : Text} :
    binary? ds = none ↔ ∃ c ∈ ds, isBinaryDigit c = false := by
  have unread : binary? ds = none ↔ ds.all isBinaryDigit = false := by
    unfold binary?
    split
    · rename_i digits
      simp [digits]
    · rename_i other
      simp [Bool.eq_false_iff.mpr other]
  rw [unread, List.all_eq_false]
  simp only [Bool.not_eq_true]

namespace Header

/-- The line is a header line of an operation that is no push, and between its brackets, less
the blanks at either end, stand as many characters as the operation has bits, and among them a
space. -/
def IsGapped (line : Text) : Prop :=
  ∃ (op : Operation) (inside : Text), Spells ⟨op.mnemonic, inside⟩ line ∧ op.pushWidth? = none ∧
    (Text.trim inside).length = op.argBits ∧ ' ' ∈ Text.trim inside

/-- Of what may stand in brackets only a space is no digit. -/
theorem Spells.binary?_eq_none_iff {h : Header} {line : Text} (spells : h.Spells line) :
    Numeral.binary? (Text.trim h.inside) = none ↔ ' ' ∈ Text.trim h.inside := by
  rw [Numeral.binary?_eq_none_iff]
  constructor
  · rintro ⟨c, hc, noDigit⟩
    have may := spells.inside c (Text.mem_of_mem_trim hc)
    have space : c = ' ' := by
      simp only [isInside, Bool.or_eq_true, beq_iff_eq] at may
      rcases may with (rfl | rfl) | space
      · cases noDigit
      · cases noDigit
      · exact space
    exact space ▸ hc
  · intro space
    exact ⟨' ', space, rfl⟩

end Header

/-- An error has the cause that goes without a number exactly at the lines with a space between
the digits. -/
theorem Stops.cause_eq_invalidDigit_iff {t : Text} {e : AssemblyError}
    {before after : List Text} {source : Text} (h : Stops t e before source after) :
    e.cause = .invalidDigit ↔ Header.IsGapped source := by
  constructor
  · intro digit
    obtain ⟨cause, refused, same⟩ := SourceLine.command_eq_error_iff.mp h.fails
    obtain rfl : cause = .invalidDigit := (congrArg AssemblyError.cause same).symm.trans digit
    cases refused with
    | @invalidDigit op inside read kind width unread =>
        have spells := Header.ofLine?_eq_some_iff.mp read
        exact ⟨op, inside, spells, kind, width, spells.binary?_eq_none_iff.mp unread⟩
  · rintro ⟨op, inside, spells, kind, width, space⟩
    have refused : Refused source (valuesAhead (numbered (e.line + 1) after)).1 .invalidDigit :=
      .invalidDigit (Header.ofLine?_eq_some_iff.mpr spells) kind width
        (spells.binary?_eq_none_iff.mpr space)
    have fails : SourceLine.command ⟨e.line, source⟩ (numbered (e.line + 1) after)
        = .error ⟨e.line, .invalidDigit⟩ :=
      SourceLine.command_eq_error_iff.mpr ⟨_, refused, rfl⟩
    exact congrArg AssemblyError.cause (Except.error.inj (h.fails.symm.trans fails))

/-- **A message names the line at which assembling stopped, or the line has a space between its
digits.**  The number is that of the line among all lines of the text, from one on, and no
message names another.  Of a line with a space between its digits the message says nothing. -/
theorem assemble_error_names_line {t : Text} {e : AssemblyError} (failed : assemble t = .error e) :
    ∃ before source after, Stops t e before source after ∧
      (∀ N, (∃ report, AssemblyError.NamesLine e.message N report) ↔
        N = before.length + 1 ∧ ¬ Header.IsGapped source) ∧
      (Header.IsGapped source → e.message = "invalid digit found in string".toList) := by
  obtain ⟨before, source, after, stops⟩ := assemble_eq_error_iff.mp failed
  have digit := stops.cause_eq_invalidDigit_iff
  have line : before.length + 1 = e.line := by rw [stops.line, Nat.add_comm]
  refine ⟨before, source, after, stops, fun N => ?_, fun gapped => ?_⟩
  · constructor
    · rintro ⟨report, named⟩
      obtain ⟨other, rfl, _⟩ := AssemblyError.namesLine_message_iff.mp named
      exact ⟨line.symm, fun gapped => other (digit.mpr gapped)⟩
    · rintro ⟨rfl, closed⟩
      have other : e.cause ≠ .invalidDigit := fun same => closed (digit.mp same)
      exact ⟨e.cause.text, AssemblyError.namesLine_message_iff.mpr ⟨other, line, rfl⟩⟩
  · rw [AssemblyError.message, digit.mpr gapped]
    rfl

/-- A push of a value that is no byte, below a blank line and an operation with five bits. -/
theorem error_names_line_operand :
    assemble " \nMDRP[00110]\nPUSHB[ ]\n\n256".toList = .error ⟨3, .outOfRange .PUSHB 256⟩ ∧
      ∃ before source after,
        Stops " \nMDRP[00110]\nPUSHB[ ]\n\n256".toList ⟨3, .outOfRange .PUSHB 256⟩
          before source after ∧ before.length + 1 = 3 ∧
        ∃ report, AssemblyError.NamesLine
          "Error on line 3: 256 is out of range for PUSHB.".toList 3 report := by
  have failed : assemble " \nMDRP[00110]\nPUSHB[ ]\n\n256".toList
      = .error ⟨3, .outOfRange .PUSHB 256⟩ := by cbv
  have written : AssemblyError.message ⟨3, .outOfRange .PUSHB 256⟩
      = "Error on line 3: 256 is out of range for PUSHB.".toList := by decide +kernel
  obtain ⟨before, source, after, stops, named, _⟩ := assemble_error_names_line failed
  have line : before.length + 1 = 3 := by
    have number : 3 = 1 + before.length := stops.line
    omega
  have closed : ¬ Header.IsGapped source :=
    fun gapped => by cases stops.cause_eq_invalidDigit_iff.mpr gapped
  rw [written] at named
  exact ⟨failed, before, source, after, stops, line, (named 3).mpr ⟨line.symm, closed⟩⟩

/-- A relative move with a space on either side of the digit in the middle. -/
theorem spaced_digits_name_no_line :
    assemble "MDRP[0 1 0]".toList = .error ⟨1, .invalidDigit⟩ ∧
      ∀ N report, ¬ AssemblyError.NamesLine (AssemblyError.message ⟨1, .invalidDigit⟩) N report := by
  refine ⟨by cbv, fun N report named => ?_⟩
  exact (AssemblyError.namesLine_message_iff.mp named).1 rfl

end Hinting
