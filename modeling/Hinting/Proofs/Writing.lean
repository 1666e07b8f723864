/-
# `Hinting.Proofs.Writing` — writing instructions in turn

A disassembly writes the instructions of a walk one after the other, and then adds
what the ending of the walk calls for.  The events apart, that is two steps
(`disassemble_eq`): `Writer.writeMany`, which stops at the first instruction that
cannot be written, and `Writer.conclude`, which is a fault where the ending is one.

The first step is a fold over the instructions, so it splits where their list does
(`writeMany_append`), and where it fails there is an instruction at fault with
everything before it written (`eq_append_cons_of_writeMany`).
-/
import Hinting.Disassembly
import Hinting.Proofs.Stream

namespace Hinting

/-! ## What VTT writes, and what it cannot -/

namespace Instruction

/-- The three forms that an instruction has in VTT. -/
inductive VttForm (i : Instruction) : List Text → Prop
  | push : i.isPush = true → VttForm i [i.indented i.pushDirective]
  | jump : i.isPush = false → i.operation.isVttJump = true →
      VttForm i [pushOn, i.indented i.jumpDirective, pushOff]
  | plain {letters : Text} : i.isPush = false → i.operation.isVttJump = false →
      i.letters = .ok letters → VttForm i [i.indented (i.described letters)]

theorem vttLines_eq_ok_iff {i : Instruction} {ls : List Text} :
    i.vttLines = .ok ls ↔ i.VttForm ls := by
  constructor
  · intro h
    rw [vttLines] at h
    split at h
    · rename_i isPush
      cases h
      exact .push isPush
    · rename_i plain
      split at h
      · rename_i jump
        cases h
        exact .jump (Bool.eq_false_iff.mpr plain) jump
      · rename_i straight
        cases hl : i.letters with
        | error bits => rw [hl] at h; cases h
        | ok letters =>
            rw [hl] at h
            cases h
            exact .plain (Bool.eq_false_iff.mpr plain) (Bool.eq_false_iff.mpr straight) hl
  · rintro (isPush | ⟨plain, jump⟩ | ⟨plain, straight, spelled⟩)
    · simp [vttLines, isPush]
    · simp [vttLines, plain, jump]
    · simp [vttLines, plain, straight, spelled, Except.map]

theorem letters_eq_error_iff {i : Instruction} {bits : Bits} :
    i.letters = .error bits ↔ i.bits = some bits ∧ i.operation.spellBits? bits = none := by
  unfold letters
  cases i.bits with
  | none => simp
  | some own =>
      cases spelled : i.operation.spellBits? own with
      | some letters =>
          simp only [spelled, reduceCtorEq, Option.some.injEq, false_iff, not_and]
          rintro rfl
          simp [spelled]
      | none =>
          simp only [spelled, Except.error.injEq, Option.some.injEq, iff_self_and]
          rintro rfl
          exact spelled

/-- VTT cannot write bits without a spelling, unless it writes no bits: a push and a jump
have none of theirs written. -/
theorem vttLines_eq_error_iff {i : Instruction} {bits : Bits} :
    i.vttLines = .error bits ↔ i.isPush = false ∧ i.operation.isVttJump = false ∧
      i.bits = some bits ∧ i.operation.spellBits? bits = none := by
  rw [← letters_eq_error_iff, vttLines]
  cases i.isPush with
  | true => simp
  | false =>
      cases i.operation.isVttJump with
      | true => simp
      | false => cases i.letters <;> simp [Except.map]

end Instruction

namespace Writer

/-! ## Runs of a writer -/

/-- Writes instructions in turn, up to the first that cannot be written. -/
def writeMany (w : Writer) : List Instruction → Except Fault Writer
  | [] => .ok w
  | i :: is =>
    match w.write i with
    | .ok w => w.writeMany is
    | .error fault => .error fault

theorem writeMany_cons_eq_ok {w w' : Writer} {i : Instruction} {is : List Instruction} :
    w.writeMany (i :: is) = .ok w' ↔
      ∃ w₁, w.write i = .ok w₁ ∧ w₁.writeMany is = .ok w' := by
  rw [writeMany]
  cases hw : w.write i with
  | ok w₁ =>
      constructor
      · intro h; exact ⟨w₁, rfl, h⟩
      · rintro ⟨w₂, first, rest⟩
        obtain rfl := Except.ok.inj first
        exact rest
  | error fault =>
      constructor
      · intro h; cases h
      · rintro ⟨w₁, first, _⟩; cases first

theorem writeMany_append {is : List Instruction} : ∀ {w w' : Writer},
    w.writeMany is = .ok w' → ∀ js : List Instruction,
      w.writeMany (is ++ js) = w'.writeMany js := by
  induction is with
  | nil => intro w w' h js; obtain rfl := Except.ok.inj h; rfl
  | cons i is ih =>
      intro w w' h js
      obtain ⟨w₁, first, rest⟩ := writeMany_cons_eq_ok.mp h
      rw [List.cons_append, writeMany, first]
      exact ih rest js

theorem writeMany_cons_of_error {w : Writer} {i : Instruction} {fault : Fault}
    (h : w.write i = .error fault) (is : List Instruction) :
    w.writeMany (i :: is) = .error fault := by
  rw [writeMany, h]

theorem eq_append_cons_of_writeMany {fault : Fault} : ∀ {is : List Instruction} {w : Writer},
    w.writeMany is = .error fault →
      ∃ before i after w', is = before ++ i :: after ∧ w.writeMany before = .ok w' ∧
        w'.write i = .error fault := by
  intro is
  induction is with
  | nil => intro w h; cases h
  | cons i is ih =>
      intro w h
      rw [writeMany] at h
      cases hw : w.write i with
      | error fault' =>
          rw [hw] at h
          obtain rfl := Except.error.inj h
          exact ⟨[], i, is, w, rfl, rfl, hw⟩
      | ok w₁ =>
          rw [hw] at h
          obtain ⟨before, j, after, w', rfl, written, failed⟩ := ih h
          exact ⟨i :: before, j, after, w', rfl, by rw [writeMany, hw]; exact written, failed⟩

/-! ## One write -/

theorem lines_append (lines : Array Text) (ls ls' : List Text) :
    lines ++ ls ++ ls' = lines ++ (ls ++ ls') :=
  Array.toList_inj.mp (by simp)

theorem eq_of_write {w w' : Writer} {i : Instruction} (h : w.write i = .ok w') :
    ∃ ls, w.options.dialect.linesOf i = .ok ls ∧ w' = { w with lines := w.lines ++ ls } := by
  rw [write_eq] at h
  split at h
  · rename_i ls hl
    exact ⟨ls, hl, (Except.ok.inj h).symm⟩
  · cases h

theorem options_of_writeMany {is : List Instruction} : ∀ {w w' : Writer},
    w.writeMany is = .ok w' → w'.options = w.options := by
  induction is with
  | nil => intro w w' h; obtain rfl := Except.ok.inj h; rfl
  | cons i is ih =>
      intro w w' h
      obtain ⟨w₁, first, rest⟩ := writeMany_cons_eq_ok.mp h
      obtain ⟨ls, _, rfl⟩ := eq_of_write first
      have kept := ih rest
      exact kept

theorem trimEnd_text (w : Writer) : Text.trimEnd w.text = w.text := Text.trimEnd_trimEnd _

theorem write_eq_error_iff {w : Writer} {i : Instruction} {fault : Fault} :
    w.write i = .error fault ↔ ∃ bits, w.options.dialect.linesOf i = .error bits ∧
      fault = ⟨.illegalBits i.operation bits, i.offset, w.text⟩ := by
  rw [write_eq]
  cases w.options.dialect.linesOf i with
  | ok ls => simp
  | error bits => simp [Fault.illegalBits, Fault.withPartialOutput, trimEnd_text, eq_comm]

theorem eq_of_write_error {w : Writer} {i : Instruction} {fault : Fault}
    (h : w.write i = .error fault) :
    ∃ bits, i.isPush = false ∧ i.bits = some bits ∧
      fault = ⟨.illegalBits i.operation bits, i.offset, w.text⟩ := by
  obtain ⟨bits, failed, rfl⟩ := write_eq_error_iff.mp h
  cases hd : w.options.dialect with
  | ttx => rw [hd] at failed; cases failed
  | vtt =>
      rw [hd] at failed
      obtain ⟨plain, _, hasBits, _⟩ := Instruction.vttLines_eq_error_iff.mp failed
      exact ⟨bits, plain, hasBits, rfl⟩

/-! ## The ending of a walk -/

/-- What the ending of a walk makes of the writer. -/
def conclude (w : Writer) (ending : Ending) : Except Fault Writer :=
  match ending.fault? with
  | none => .ok w
  | some fault => .error (fault.withPartialOutput w.text)

theorem eq_of_conclude {w w' : Writer} {ending : Ending} (h : w.conclude ending = .ok w') :
    w' = w := by
  rw [conclude] at h
  split at h
  · exact (Except.ok.inj h).symm
  · cases h

theorem value_writeAll (ending : Ending) : ∀ (is : List Instruction) (w : Writer),
    (w.writeAll ending is).value = (w.writeMany is).bind fun w => w.conclude ending := by
  intro is
  induction is with
  | nil =>
      intro w
      rw [writeAll_nil, writeMany]
      show _ = w.conclude ending
      rw [conclude]
      cases ending.fault? <;> rfl
  | cons i is ih =>
      intro w
      rw [writeMany]
      cases written : w.write i with
      | error fault => rw [writeAll_of_error written]; rfl
      | ok w₁ => rw [writeAll_of_ok written]; exact ih w₁

end Writer

/-- A disassembly, apart from its events. -/
theorem disassemble_eq (options : Options) (p : Bytes) :
    disassemble options p =
      (((Writer.start options).writeMany (decoding p).instructions).bind fun w =>
        w.conclude (decoding p).ending).map Writer.finish := by
  rw [← Writer.value_writeAll]
  simp only [disassemble, disassembleLogged, Logged.after, writeProgram_eq]
  cases ((Writer.start options).writeAll (decoding p).ending (decoding p).instructions).value <;>
    rfl

/-! ## Disassembling commands -/

section
variable {options : Options} {p r : Bytes} {cs : List Command} {w : Writer} {fault : Fault}

theorem Stream.Split.disassemble_eq (h : Stream.Split p cs r) :
    disassemble options p =
      (((Writer.start options).writeMany (Stream.place 0 0 cs)).bind fun w =>
        w.conclude (Stream.tailEnding (Stream.bytes cs).length r)).map Writer.finish := by
  rw [Hinting.disassemble_eq, h.decoding_eq]

/-- What is left of a program decides, once its commands are written. -/
theorem Stream.Split.disassemble_of_ok (h : Stream.Split p cs r)
    (hw : (Writer.start options).writeMany (Stream.place 0 0 cs) = .ok w) :
    disassemble options p =
      (w.conclude (Stream.tailEnding (Stream.bytes cs).length r)).map Writer.finish := by
  rw [h.disassemble_eq, hw]
  rfl

theorem Stream.Split.disassemble_of_error (h : Stream.Split p cs r)
    (hw : (Writer.start options).writeMany (Stream.place 0 0 cs) = .error fault) :
    disassemble options p = .error fault := by
  rw [h.disassemble_eq, hw]
  rfl

theorem Stream.Split.disassemble_eq_ok_iff {t : Text} (h : Stream.Split p cs r) :
    disassemble options p = .ok t ↔
      ∃ w, (Writer.start options).writeMany (Stream.place 0 0 cs) = .ok w ∧
        (Stream.tailEnding (Stream.bytes cs).length r).fault? = none ∧ w.finish = t := by
  constructor
  · intro written
    cases hw : (Writer.start options).writeMany (Stream.place 0 0 cs) with
    | error fault =>
        rw [h.disassemble_of_error hw] at written
        cases written
    | ok w =>
        rw [h.disassemble_of_ok hw, Writer.conclude] at written
        cases hf : (Stream.tailEnding (Stream.bytes cs).length r).fault? with
        | some fault => rw [hf] at written; cases written
        | none =>
            rw [hf] at written
            exact ⟨w, rfl, rfl, Except.ok.inj written⟩
  · rintro ⟨w, hw, faultless, rfl⟩
    rw [h.disassemble_of_ok hw, Writer.conclude, faultless]
    rfl

theorem disassemble_bytes (hcs : ∀ c ∈ cs, c.IsEncodable)
    (hw : (Writer.start options).writeMany (Stream.place 0 0 cs) = .ok w) :
    disassemble options (Stream.bytes cs) = .ok w.finish :=
  (Stream.Split.of_encodable hcs).disassemble_of_ok hw

end

end Hinting
