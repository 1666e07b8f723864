/-
# `Hinting.Proofs.FaultPrefix` — a fault tells where the good part ends

A disassembly fails at one of two places: at an instruction that the dialect cannot
write, or at an opcode that no operation owns (`FaultAt`).  Either way the program up
to there is commands, all of them written (`FailsAfter`), and one byte more decides the
fault.  So the good part disassembles by itself, to what the fault carries, and
what follows the deciding byte is never looked at (`disassemble_good_prefix`).
-/
import Mathlib
import Hinting.Proofs.Writing

namespace Hinting

/-- `FailsAfter options cs w b fault`: with the options, the commands `cs` are written,
which leaves the writer `w`, and whatever starts with the byte `b` after them is the fault. -/
structure FailsAfter (options : Options) (cs : List Command) (w : Writer) (b : UInt8)
    (fault : Fault) : Prop where
  encodable : ∀ c ∈ cs, c.IsEncodable
  written : (Writer.start options).writeMany (Stream.place 0 0 cs) = .ok w
  offset : fault.offset = (Stream.bytes cs).length
  partialOutput : fault.partialOutput = w.text
  fails : ∀ s, disassemble options (Stream.bytes cs ++ b :: s) = .error fault

theorem failsAfter_of_unassigned {options : Options} {cs : List Command} {w : Writer}
    {b : UInt8} (hcs : ∀ c ∈ cs, c.IsEncodable)
    (hw : (Writer.start options).writeMany (Stream.place 0 0 cs) = .ok w)
    (free : Operation.ofOpcode? b = none) :
    FailsAfter options cs w b
      ((Fault.unknownOpcode b (Stream.bytes cs).length).withPartialOutput w.text) where
  encodable := hcs
  written := hw
  offset := rfl
  partialOutput := w.trimEnd_text
  fails := by
    intro s
    have split : Stream.Split (Stream.bytes cs ++ b :: s) cs (b :: s) :=
      ⟨hcs, Stream.isTail_unassigned free s, rfl⟩
    rw [split.disassemble_of_ok hw, Stream.tailEnding_unassigned free]
    rfl

/-- An instruction that cannot be written is a fault at its opcode, which is all of it: only
bits can fail to be written, and a push has none. -/
theorem failsAfter_of_write {options : Options} {cs : List Command} {c : Command} {w : Writer}
    {fault : Fault} (hcs : ∀ c ∈ cs, c.IsEncodable) (hc : c.IsEncodable)
    (hw : (Writer.start options).writeMany (Stream.place 0 0 cs) = .ok w)
    (failed : w.write (c.placed (Stream.bytes cs).length (c.indentAt (Stream.depth 0 cs)))
      = .error fault) :
    ∃ b, c.encode = [b] ∧ FailsAfter options cs w b fault := by
  obtain ⟨bits, _, hasBits, rfl⟩ := Writer.eq_of_write_error failed
  cases c with
  | push op values => cases hasBits
  | plain op value =>
      refine ⟨op.opcode value, rfl, hcs, hw, rfl, rfl, ?_⟩
      intro s
      obtain ⟨cs', r, split⟩ := Stream.exists_split s
      have whole := (split.cons hc).prepend hcs
      refine whole.disassemble_of_error ?_
      rw [Stream.place_append, Writer.writeMany_append hw, Stream.place, Nat.zero_add]
      exact Writer.writeMany_cons_of_error failed _

/-- `FaultAt cs w r fault`: once the commands `cs` are written and the writer is `w`, the bytes
`r` that follow are at fault. -/
inductive FaultAt (cs : List Command) (w : Writer) : Bytes → Fault → Prop
  | unassigned {b : UInt8} (s : Bytes) : Operation.ofOpcode? b = none →
      FaultAt cs w (b :: s)
        ((Fault.unknownOpcode b (Stream.bytes cs).length).withPartialOutput w.text)
  | unwritable {c : Command} {fault : Fault} (s : Bytes) : c.IsEncodable →
      w.write (c.placed (Stream.bytes cs).length (c.indentAt (Stream.depth 0 cs)))
        = .error fault →
      FaultAt cs w (c.encode ++ s) fault

theorem exists_faultAt {options : Options} {p : Bytes} {fault : Fault}
    (h : disassemble options p = .error fault) :
    ∃ cs w r, p = Stream.bytes cs ++ r ∧ (∀ c ∈ cs, c.IsEncodable) ∧
      (Writer.start options).writeMany (Stream.place 0 0 cs) = .ok w ∧ FaultAt cs w r fault := by
  obtain ⟨cs, r, split⟩ := Stream.exists_split p
  cases hw : (Writer.start options).writeMany (Stream.place 0 0 cs) with
  | ok w =>
      rw [split.disassemble_of_ok hw, Writer.conclude] at h
      cases hf : (Stream.tailEnding (Stream.bytes cs).length r).fault? with
      | none => rw [hf] at h; cases h
      | some found =>
          rw [hf] at h
          obtain rfl := Except.error.inj h
          obtain ⟨b, s, rfl, free, rfl⟩ := Stream.tailEnding_fault?_eq_some hf
          exact ⟨cs, w, b :: s, split.eq, split.encodable, hw, .unassigned s free⟩
  | error found =>
      rw [split.disassemble_of_error hw] at h
      obtain rfl := Except.error.inj h
      obtain ⟨before, i, after, w, listed, written, failed⟩ :=
        Writer.eq_append_cons_of_writeMany hw
      obtain ⟨cs₁, c, cs₂, rfl, rfl, rfl⟩ := Stream.eq_append_cons_of_place listed
      have good : ∀ c ∈ cs₁, c.IsEncodable := fun c hc =>
        split.encodable c (List.mem_append_left _ hc)
      have faulty : c.IsEncodable :=
        split.encodable c (List.mem_append_right _ List.mem_cons_self)
      rw [Nat.zero_add] at failed
      refine ⟨cs₁, w, c.encode ++ (Stream.bytes cs₂ ++ r), ?_, good, written,
        .unwritable _ faulty failed⟩
      rw [split.eq, Stream.bytes_append, Stream.bytes_cons]
      simp

/-- Every fault comes after commands that were written, and a byte that decides it. -/
theorem exists_failsAfter {options : Options} {p : Bytes} {fault : Fault}
    (h : disassemble options p = .error fault) :
    ∃ cs w b s, p = Stream.bytes cs ++ b :: s ∧ FailsAfter options cs w b fault := by
  obtain ⟨cs, w, r, rfl, good, written, failing⟩ := exists_faultAt h
  cases failing with
  | @unassigned b s free =>
      exact ⟨cs, w, b, s, rfl, failsAfter_of_unassigned good written free⟩
  | @unwritable c _ s faulty failed =>
      obtain ⟨b, single, after⟩ := failsAfter_of_write good faulty written failed
      refine ⟨cs, w, b, s, ?_, after⟩
      rw [single]
      rfl

theorem FailsAfter.instructions_before {options : Options} {cs : List Command} {w : Writer}
    {b : UInt8} {fault : Fault} (h : FailsAfter options cs w b fault) (s : Bytes) :
    (decoding (Stream.bytes cs ++ b :: s)).instructions.filter
      (fun i => decide (i.offset < fault.offset)) = Stream.place 0 0 cs := by
  obtain ⟨cs', r, split⟩ := Stream.exists_split (b :: s)
  rw [(split.prepend h.encodable).decoding_eq, Stream.place_append, List.filter_append, h.offset]
  have before : (Stream.place 0 0 cs).filter
      (fun i => decide (i.offset < (Stream.bytes cs).length)) = Stream.place 0 0 cs := by
    refine List.filter_eq_self.mpr fun i hi => decide_eq_true ?_
    obtain ⟨_, some_byte, fits⟩ := Stream.bounds_of_mem_place hi
    rw [Instruction.finish] at fits
    omega
  have behind : (Stream.place (0 + (Stream.bytes cs).length) (Stream.depth 0 cs) cs').filter
      (fun i => decide (i.offset < (Stream.bytes cs).length)) = [] := by
    refine List.filter_eq_nil_iff.mpr fun i hi => ?_
    have start := (Stream.bounds_of_mem_place hi).1
    rw [decide_eq_true_eq]
    omega
  rw [before, behind, List.append_nil]

/-- **A fault carries the good part and depends on nothing after it.**  It lies within the
program.  The part before its offset disassembles to what the fault carries, in VTT between
the guards unless that is empty.  And every program that agrees up to and including the
byte at the offset has the very same fault. -/
theorem disassemble_good_prefix {options : Options} {p : Bytes} {fault : Fault}
    (h : disassemble options p = .error fault) :
    fault.offset < p.length ∧
      disassemble options (p.take fault.offset) = .ok (match options.dialect with
        | .ttx => fault.partialOutput
        | .vtt =>
          if fault.partialOutput = [] then []
          else "#PUSHOFF".toList ++ options.lineEnding ++ fault.partialOutput
            ++ options.lineEnding ++ "#PUSHON".toList) ∧
      ∀ s, disassemble options (p.take (fault.offset + 1) ++ s) = .error fault := by
  obtain ⟨cs, w, b, s, rfl, failing⟩ := exists_failsAfter h
  rw [failing.offset, failing.partialOutput]
  refine ⟨by simp, ?_, ?_⟩
  · have kept : w.options = options := Writer.options_of_writeMany failing.written
    rw [List.take_left, disassemble_bytes failing.encodable failing.written, Writer.finish, kept]
    cases options.dialect with
    | ttx => rfl
    | vtt =>
        cases w.text with
        | nil => rfl
        | cons c t => rfl
  · intro s'
    have cut : (Stream.bytes cs ++ b :: s).take ((Stream.bytes cs).length + 1)
        = Stream.bytes cs ++ [b] := by
      rw [List.take_length_add_append]
      rfl
    rw [cut, List.append_assoc]
    exact failing.fails s'

/-- `CALL`, `IF`, and a relative move with a color that does not exist. -/
theorem good_prefix_of_illegal_move :
    disassemble ⟨.vtt, ['\r', '\n']⟩ [0x2b, 0x58, 0xe3, 0x90]
        = .error ⟨.illegalBits .MIRP ⟨3, 5⟩, 2,
            "CALL[]\t/* CallFunction */\r\nIF[]\t/* If */".toList⟩ ∧
      disassemble ⟨.vtt, ['\r', '\n']⟩ [0x2b, 0x58]
        = .ok ("#PUSHOFF".toList ++ ['\r', '\n']
            ++ "CALL[]\t/* CallFunction */\r\nIF[]\t/* If */".toList
            ++ ['\r', '\n'] ++ "#PUSHON".toList) ∧
      ∀ s, disassemble ⟨.vtt, ['\r', '\n']⟩ ([0x2b, 0x58, 0xe3] ++ s)
        = .error ⟨.illegalBits .MIRP ⟨3, 5⟩, 2,
            "CALL[]\t/* CallFunction */\r\nIF[]\t/* If */".toList⟩ := by
  have h : disassemble ⟨.vtt, ['\r', '\n']⟩ [0x2b, 0x58, 0xe3, 0x90]
      = .error ⟨.illegalBits .MIRP ⟨3, 5⟩, 2,
          "CALL[]\t/* CallFunction */\r\nIF[]\t/* If */".toList⟩ := by cbv
  obtain ⟨_, good, same⟩ := disassemble_good_prefix h
  have written : "CALL[]\t/* CallFunction */\r\nIF[]\t/* If */".toList ≠ [] := by decide
  exact ⟨h, good.trans (congrArg Except.ok (if_neg written)), same⟩

end Hinting
