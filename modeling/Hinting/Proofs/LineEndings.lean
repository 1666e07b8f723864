/-
# `Hinting.Proofs.LineEndings` — one line ending for another

The line ending stands between the lines of a text and nowhere else.  No line holds a line
feed, and none ends in white space, so that a line ending is never taken for a part of a
line or trimmed off with one.  Whatever the line ending `E`, be it empty, white space, or
something that might stand in a line, the text is the one with line feeds in which every
line feed is replaced by `E` (`Text.replaceFeeds`):

    l₁ ⏎ l₂ ⏎ … ⏎ lₙ        ↦        l₁ E l₂ E … E lₙ

Two writers that differ in the line ending alone are followed in step (`Writer.withEnding`):
through one write, through a run, and through the ending of the walk.  Each is the same
success with the other line ending, or the same fault with its text replaced
(`Writer.endedWith`).
-/
import Hinting.Proofs.WrittenLines

namespace Hinting

/-! ## Replacing line feeds -/

namespace Text

/-- The text with `E` in place of every line feed. -/
def replaceFeeds (E t : Text) : Text := t.flatMap fun c => if c = '\n' then E else [c]

@[simp] theorem replaceFeeds_nil (E : Text) : replaceFeeds E [] = [] := rfl

@[simp] theorem replaceFeeds_append (E t u : Text) :
    replaceFeeds E (t ++ u) = replaceFeeds E t ++ replaceFeeds E u :=
  List.flatMap_append

@[simp] theorem replaceFeeds_feed (E : Text) : replaceFeeds E ['\n'] = E := by
  simp [replaceFeeds]

theorem replaceFeeds_of_feedless (E : Text) {l : Text} (h : '\n' ∉ l) : replaceFeeds E l = l := by
  induction l with
  | nil => rfl
  | cons c l ih =>
      have plain : c ≠ '\n' := (List.ne_of_not_mem_cons h).symm
      rw [replaceFeeds, List.flatMap_cons, if_neg plain]
      exact congrArg (c :: ·) (ih (List.not_mem_of_not_mem_cons h))

theorem replaceFeeds_intercalate (E : Text) : ∀ {ls : List Text}, (∀ l ∈ ls, '\n' ∉ l) →
    replaceFeeds E (['\n'].intercalate ls) = E.intercalate ls := by
  intro ls
  induction ls with
  | nil => intro _; rfl
  | cons l ls ih =>
      intro feedless
      obtain ⟨hl, hls⟩ := List.forall_mem_cons.mp feedless
      cases ls with
      | nil =>
          rw [List.intercalate_singleton, List.intercalate_singleton]
          exact replaceFeeds_of_feedless E hl
      | cons l' ls =>
          rw [List.intercalate_cons_cons, List.intercalate_cons_cons, replaceFeeds_append,
            replaceFeeds_append, replaceFeeds_feed, replaceFeeds_of_feedless E hl, ih hls]

theorem replaceFeeds_eq_nil_iff {E : Text} {ls : List Text} (solid : ∀ l ∈ ls, Solid l) :
    replaceFeeds E (['\n'].intercalate ls) = [] ↔ ['\n'].intercalate ls = [] := by
  constructor
  · intro none
    rw [replaceFeeds_intercalate E fun l hl => (solid l hl).1] at none
    rw [eq_nil_of_intercalate solid none]
    rfl
  · intro none
    rw [none, replaceFeeds_nil]

end Text

/-- The fault with `E` in place of every line feed in the text before it. -/
def Fault.withEnding (E : Text) (f : Fault) : Fault :=
  { f with partialOutput := Text.replaceFeeds E f.partialOutput }

/-! ## Writers in step -/

namespace Writer

/-- The writer with `E` between the lines. -/
def withEnding (E : Text) (w : Writer) : Writer :=
  { w with options := { w.options with lineEnding := E } }

/-- What becomes of a run if `E` is written for line feeds. -/
def endedWith (E : Text) : Except Fault Writer → Except Fault Writer
  | .ok w => .ok (w.withEnding E)
  | .error f => .error (f.withEnding E)

section
variable {w : Writer} (solid : w.IsSolid) (feeds : w.options.lineEnding = ['\n']) (E : Text)
include solid feeds

theorem text_withEnding : (w.withEnding E).text = Text.replaceFeeds E w.text := by
  have solid' : (w.withEnding E).IsSolid := solid
  rw [solid'.text_eq, solid.text_eq, feeds]
  exact (Text.replaceFeeds_intercalate E fun l hl => (solid l hl).1).symm

theorem write_withEnding (i : Instruction) :
    (w.withEnding E).write i = endedWith E (w.write i) := by
  cases h : w.write i with
  | ok w' =>
      obtain ⟨ls, rendered, rfl⟩ := eq_of_write h
      have rendered' : (w.withEnding E).options.dialect.linesOf i = .ok ls := rendered
      rw [write_of_linesOf rendered']
      rfl
  | error f =>
      obtain ⟨bits, failed, rfl⟩ := write_eq_error_iff.mp h
      refine write_eq_error_iff.mpr ⟨bits, failed, ?_⟩
      rw [text_withEnding solid feeds]
      rfl

theorem conclude_withEnding (ending : Ending) :
    (w.withEnding E).conclude ending = endedWith E (w.conclude ending) := by
  rw [conclude, conclude]
  cases ending.fault? with
  | none => rfl
  | some f =>
      simp only [Fault.withPartialOutput, trimEnd_text, endedWith]
      rw [text_withEnding solid feeds]
      rfl

/-- **The finished text.**  In VTT there are guards around it in both cases or in neither. -/
theorem finish_withEnding : (w.withEnding E).finish = Text.replaceFeeds E w.finish := by
  have text := text_withEnding solid feeds E
  cases dialect : w.options.dialect with
  | ttx =>
      have dialect' : (w.withEnding E).options.dialect = .ttx := dialect
      rw [finish, finish, dialect, dialect']
      exact text
  | vtt =>
      have dialect' : (w.withEnding E).options.dialect = .vtt := dialect
      have nothing : Text.replaceFeeds E w.text = [] ↔ w.text = [] := by
        rw [solid.text_eq, feeds]
        exact Text.replaceFeeds_eq_nil_iff solid
      rw [finish, finish, dialect, dialect', text]
      simp only [List.isEmpty_iff, nothing]
      split
      · rfl
      · have on := Text.replaceFeeds_of_feedless E Instruction.solid_pushOn.1
        have off := Text.replaceFeeds_of_feedless E Instruction.solid_pushOff.1
        rw [feeds, framed, framed, Text.replaceFeeds_append, Text.replaceFeeds_append,
          Text.replaceFeeds_append, Text.replaceFeeds_append, on, off, Text.replaceFeeds_feed]
        rfl

end

/-- **A run**: by induction on the instructions. -/
theorem writeMany_withEnding (E : Text) : ∀ {is : List Instruction} {w : Writer}, w.IsSolid →
    w.options.lineEnding = ['\n'] →
      (w.withEnding E).writeMany is = endedWith E (w.writeMany is) := by
  intro is
  induction is with
  | nil => intro w _ _; rfl
  | cons i is ih =>
      intro w solid feeds
      rw [writeMany, writeMany, write_withEnding solid feeds]
      cases h : w.write i with
      | error f => rfl
      | ok w' =>
          have feeds' : w'.options.lineEnding = ['\n'] := by
            obtain ⟨ls, _, rfl⟩ := eq_of_write h
            exact feeds
          exact ih (solid.write h) feeds'

end Writer

/-! ## Programs -/

/-- **Line endings are pure substitution.**  With any line ending a program has the text that it
has with line feeds, but for the line ending in place of every line feed, guards of VTT included.
It has the same fault, but for the line ending in place of every line feed of the text before it. -/
theorem disassemble_lineEnding (d : Dialect) (E : Text) (p : Bytes) :
    disassemble ⟨d, E⟩ p = match disassemble ⟨d, ['\n']⟩ p with
      | .ok t => .ok (Text.replaceFeeds E t)
      | .error f => .error ⟨f.kind, f.offset, Text.replaceFeeds E f.partialOutput⟩ := by
  have solid := Writer.isSolid_start ⟨d, ['\n']⟩
  have run : (Writer.start ⟨d, E⟩).writeMany (decoding p).instructions
      = Writer.endedWith E ((Writer.start ⟨d, ['\n']⟩).writeMany (decoding p).instructions) :=
    Writer.writeMany_withEnding E solid rfl
  rw [disassemble_eq, disassemble_eq, run]
  cases written : (Writer.start ⟨d, ['\n']⟩).writeMany (decoding p).instructions with
  | error f => rfl
  | ok w =>
      have solid' : w.IsSolid := solid.writeMany written
      have feeds : w.options.lineEnding = ['\n'] := by rw [Writer.options_of_writeMany written]; rfl
      simp only [Writer.endedWith, Except.bind, Writer.conclude_withEnding solid' feeds]
      cases concluded : w.conclude (decoding p).ending with
      | error f => rfl
      | ok w' =>
          obtain rfl := Writer.eq_of_conclude concluded
          exact congrArg Except.ok (Writer.finish_withEnding solid' feeds E)

end Hinting
