/-
# `Hinting.Proofs.Attempts` — writing on after faults

A disassembly stops at the first instruction that cannot be written.  A writer need not:
it may be offered one instruction after another, whatever became of those before
(`Writer.attemptMany`), and they need not come from a program.

    offered    i₁    i₂    i₃    i₄
    written    i₁    ─     i₃    i₄                  (`Writer.written`)
    text       the lines of i₁, i₃ and i₄, joined

A fault leaves no trace.  To offer instructions is to write just those of them that can be
written (`Writer.writeMany_written`), and so the runs that go on after faults are no more
than the runs without any.  Their lines end in no white space, so the text is those lines
joined, nothing trimmed off, and each instruction that is written adds to it
(`Writer.attempts_lose_nothing`).
-/
import Mathlib
import Hinting.Proofs.Concatenation

namespace Hinting

theorem Operation.isVttJump_iff {op : Operation} :
    op.isVttJump = true ↔ op = .JMPR ∨ op = .JROF := by
  cases op <;> simp [isVttJump]

theorem Options.frame_eq (options : Options) (body : Text) :
    options.frame body = if options.dialect = .ttx ∨ body = [] then body
      else Writer.framed options.lineEnding body := by
  rw [frame]
  cases options.dialect with
  | ttx => rfl
  | vtt => cases body <;> rfl

namespace Writer

/-! ## Offering instructions in turn -/

/-- The writer after some instructions were offered to it in turn. -/
def attemptMany (w : Writer) : List Instruction → Writer
  | [] => w
  | i :: is => (w.attempt i).2.attemptMany is

/-- Those of the instructions offered in turn that were written. -/
def written (w : Writer) : List Instruction → List Instruction
  | [] => []
  | i :: is =>
    match w.attempt i with
    | (none, w') => i :: w'.written is
    | (some _, w') => w'.written is

theorem attempt_of_ok {w w' : Writer} {i : Instruction} (h : w.write i = .ok w') :
    w.attempt i = (none, w') := by
  obtain ⟨ls, lines, rfl⟩ := eq_of_write h
  rw [attempt_eq, lines]

theorem attempt_of_error {w : Writer} {i : Instruction} {f : Fault} (h : w.write i = .error f) :
    w.attempt i = (some f, w) := by
  obtain ⟨bits, failed, rfl⟩ := write_eq_error_iff.mp h
  rw [attempt_eq, failed]
  simp only [Fault.illegalBits, Fault.withPartialOutput, trimEnd_text]

theorem writeMany_written : ∀ {is : List Instruction} {w : Writer},
    w.writeMany (w.written is) = .ok (w.attemptMany is) := by
  intro is
  induction is with
  | nil => intro w; rfl
  | cons i is ih =>
      intro w
      cases h : w.write i with
      | ok w' =>
          rw [written, attemptMany, attempt_of_ok h, writeMany, h]
          exact ih
      | error f =>
          rw [written, attemptMany, attempt_of_error h]
          exact ih

/-! ## One attempt -/

/-- An attempt fails only for bits that VTT has no letters for, where it writes letters at
all: not for a push and not for a jump that it spells with stars. -/
theorem exists_fault_attempt_iff {w : Writer} {i : Instruction} :
    (∃ f, (w.attempt i).1 = some f) ↔ w.options.dialect = .vtt ∧ i.isPush = false ∧
      i.operation.isVttJump = false ∧ ∃ bits, i.bits = some bits ∧
        i.operation.spellBits? bits = none := by
  constructor
  · rintro ⟨f, failed⟩
    cases h : w.write i with
    | ok w' => rw [attempt_of_ok h] at failed; cases failed
    | error f' =>
        obtain ⟨bits, unwritten, rfl⟩ := write_eq_error_iff.mp h
        cases hd : w.options.dialect with
        | ttx => rw [hd] at unwritten; cases unwritten
        | vtt =>
            rw [hd] at unwritten
            obtain ⟨plain, straight, hasBits, unspelled⟩ :=
              Instruction.vttLines_eq_error_iff.mp unwritten
            exact ⟨rfl, plain, straight, bits, hasBits, unspelled⟩
  · rintro ⟨vtt, plain, straight, bits, hasBits, unspelled⟩
    have unwritten : w.options.dialect.linesOf i = .error bits := by
      rw [vtt]
      exact Instruction.vttLines_eq_error_iff.mpr ⟨plain, straight, hasBits, unspelled⟩
    have h := write_eq_error_iff.mpr ⟨bits, unwritten, rfl⟩
    exact ⟨_, congrArg Prod.fst (attempt_of_error h)⟩

theorem attempt_of_fault {w : Writer} {i : Instruction} {f : Fault}
    (failed : (w.attempt i).1 = some f) : (w.attempt i).2 = w ∧ ∃ bits, i.bits = some bits ∧
      f = ⟨.illegalBits i.operation bits, i.offset, w.text⟩ := by
  cases h : w.write i with
  | ok w' => rw [attempt_of_ok h] at failed; cases failed
  | error f' =>
      rw [attempt_of_error h] at failed
      obtain rfl := Option.some.inj failed
      obtain ⟨bits, _, hasBits, carried⟩ := eq_of_write_error h
      exact ⟨congrArg Prod.snd (attempt_of_error h), bits, hasBits, carried⟩

theorem text_attempt_of_none {w : Writer} {i : Instruction} (solid : w.IsSolid)
    (done : (w.attempt i).1 = none) :
    ∃ more, more ≠ [] ∧ (w.attempt i).2.text = w.text ++ more := by
  cases h : w.write i with
  | error f => rw [attempt_of_error h] at done; cases done
  | ok w' =>
      obtain ⟨ls, rendered, rfl⟩ := eq_of_write h
      have new : ∀ l ∈ ls, Text.Solid l := Dialect.solid_linesOf rendered
      have some_text : w.options.lineEnding.intercalate ls ≠ [] := fun none =>
        Dialect.linesOf_ne_nil rendered (Text.eq_nil_of_intercalate new none)
      have text : (w.attempt i).2.text = Text.joined w.options.lineEnding w.text
          (w.options.lineEnding.intercalate ls) := by
        rw [attempt_of_ok h, (solid.write h).text_eq, solid.text_eq, Array.toList_appendList]
        exact Text.intercalate_append_eq_joined solid new
      rw [text, Text.joined, if_neg some_text]
      split
      · rename_i none
        exact ⟨_, some_text, by rw [none, List.nil_append]⟩
      · exact ⟨_, List.append_ne_nil_of_right_ne_nil _ some_text, List.append_assoc _ _ _⟩

/-! ## Any number of attempts -/

theorem text_attemptMany_eq_nil_iff {options : Options} {is : List Instruction} :
    ((start options).attemptMany is).text = [] ↔ (start options).written is = [] := by
  have run := @writeMany_written is (start options)
  have solid := (isSolid_start options).writeMany run
  obtain ⟨lss, rendered, result⟩ := writeMany_eq_ok_iff.mp run
  constructor
  · intro none
    rw [solid.text_eq] at none
    -- An instruction has some line, and lines that end in no white space join to some text.
    have lines : lss.flatten = [] := by
      have no_line := Text.eq_nil_of_intercalate solid none
      rw [result] at no_line
      simpa [start] using no_line
    cases done : (start options).written is with
    | nil => rfl
    | cons j js =>
        rw [done] at rendered
        cases rendered with
        | cons first _ =>
            exact absurd (List.append_eq_nil_iff.mp lines).1 (Dialect.linesOf_ne_nil first)
  · intro none
    rw [none] at run
    rw [← Except.ok.inj run]
    rfl

/-- **A fault leaves the writer untouched, and the text loses nothing.**  Whatever was offered
to a writer, its text is the lines of the instructions that were written, joined; in VTT the
finished text is that between the guards, unless nothing was written.  The next instruction
fails only for bits without letters.  If it fails, the fault tells the instruction and the text
so far, and the writer is as before; if not, it adds to the text. -/
theorem attempts_lose_nothing (options : Options) (is : List Instruction) (i : Instruction) :
    let w := (start options).attemptMany is
    let done := (start options).written is
    (∃ lss, options.dialect.Renders done lss ∧
        w.text = options.lineEnding.intercalate lss.flatten) ∧
      w.finish = (if options.dialect = .ttx ∨ done = [] then w.text
        else "#PUSHOFF".toList ++ options.lineEnding ++ w.text ++ options.lineEnding
          ++ "#PUSHON".toList) ∧
      ((∃ f, (w.attempt i).1 = some f) ↔ options.dialect = .vtt ∧ i.isPush = false ∧
        ¬ (i.operation = .JMPR ∨ i.operation = .JROF) ∧ ∃ bits, i.bits = some bits ∧
          i.operation.spellBits? bits = none) ∧
      (∀ f, (w.attempt i).1 = some f → (w.attempt i).2 = w ∧ ∃ bits, i.bits = some bits ∧
        f = ⟨.illegalBits i.operation bits, i.offset, w.text⟩) ∧
      ((w.attempt i).1 = none → ∃ more, more ≠ [] ∧ (w.attempt i).2.text = w.text ++ more) := by
  intro w done
  have run : (start options).writeMany done = .ok w := writeMany_written
  have kept : w.options = options := options_of_writeMany run
  have solid : w.IsSolid := (isSolid_start options).writeMany run
  refine ⟨?_, ?_, ?_, fun f => attempt_of_fault, text_attempt_of_none solid⟩
  · obtain ⟨lss, rendered, result⟩ := writeMany_eq_ok_iff.mp run
    refine ⟨lss, rendered, ?_⟩
    rw [solid.text_eq, kept, result]
    simp [start]
  · have nothing : w.text = [] ↔ done = [] := text_attemptMany_eq_nil_iff
    rw [finish_eq, kept, Options.frame_eq]
    simp only [nothing]
    rfl
  · rw [exists_fault_attempt_iff, kept, ← Operation.isVttJump_iff, Bool.not_eq_true]

end Writer

end Hinting
