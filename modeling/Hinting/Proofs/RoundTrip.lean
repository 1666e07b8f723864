/-
# `Hinting.Proofs.RoundTrip` — from a program to its text and back

The text of a program in the generic dialect assembles to the program again, less a
push that the end cuts off, of which the text says nothing
(`assemble_of_disassemble`).  The lines may be joined by any line ending that is made
of blanks and line ends and has a line feed in it.

    commands  ──ttxLines──▸  lines  ──joined──▸  text
        ▴                                         │
        └───items───  padded lines  ◂──split──────┘

Every arrow is a lemma about commands in a row: `items_ttxLines` with
`Items.padded` for the way back to commands, `Text.sourceTexts_intercalate` for the
joining and splitting.
-/
import Mathlib
import Hinting.Proofs.Format
import Hinting.Proofs.Rendering

namespace Hinting

theorem assemble_ttxLines {E : Text} (spaces : Text.Spaces E) (feed : '\n' ∈ E)
    {cs : List Command} (hcs : ∀ c ∈ cs, c.IsEncodable) :
    assemble (E.intercalate ((Stream.place 0 0 cs).flatMap Instruction.ttxLines))
      = .ok (Stream.bytes cs) := by
  have padded := Text.sourceTexts_intercalate spaces feed
    (Instruction.solid_flatMap_ttxLines (Stream.place 0 0 cs)) Text.allBlank_nil
  rw [List.nil_append] at padded
  exact assemble_eq_ok_iff.mpr ⟨cs, (items_ttxLines hcs 0 0).padded padded, rfl⟩

theorem Stream.flatMap_slice_place (p r : Bytes) : ∀ (cs before : List Command) (d : Nat),
    p = Stream.bytes before ++ Stream.bytes cs ++ r →
      (Stream.place (Stream.bytes before).length d cs).flatMap
        (fun i => (p.drop i.offset).take i.length) = Stream.bytes cs := by
  intro cs
  induction cs with
  | nil => intro before d _; rfl
  | cons c cs ih =>
      intro before d eq
      have moved : p = Stream.bytes (before ++ [c]) ++ Stream.bytes cs ++ r := by simp [eq]
      have next : (Stream.bytes before).length + c.size
          = (Stream.bytes (before ++ [c])).length := by
        simp [Command.length_encode]
      have slice : (p.drop (Stream.bytes before).length).take c.size = c.encode := by
        rw [eq, List.append_assoc, List.drop_left, Stream.bytes_cons, List.append_assoc,
          ← Command.length_encode, List.take_left]
      rw [Stream.place, List.flatMap_cons, next, ih _ _ moved]
      exact congrArg (· ++ Stream.bytes cs) slice

theorem Stream.Split.cutsOff_of_faultless {p r : Bytes} {cs : List Command}
    (h : Stream.Split p cs r)
    (faultless : (Stream.tailEnding (Stream.bytes cs).length r).fault? = none) :
    r = [] ∨ ∃ op, Format.CutsOff op r := by
  rcases Format.isTail_iff.mp h.tail with none | cut | ⟨b, s, rfl, free⟩
  · exact .inl none
  · exact .inr cut
  · rw [Stream.tailEnding_unassigned (Format.unassigned_iff.mp free)] at faultless
    cases faultless

theorem Stream.Split.faultless_of_disassemble {E : Text} {p r : Bytes} {cs : List Command}
    {t : Text} (h : Stream.Split p cs r) (written : disassemble ⟨.ttx, E⟩ p = .ok t) :
    (Stream.tailEnding (Stream.bytes cs).length r).fault? = none := by
  obtain ⟨_, _, faultless, _⟩ := h.disassemble_eq_ok_iff.mp written
  exact faultless

/-- **Assembling undoes disassembling.**  Where a program has a text in the generic dialect,
the text assembles to the bytes of the decoded instructions.  They are all of the program
but a push that its end cuts off; and they have the same text. -/
theorem assemble_of_disassemble {p : Bytes} {E t : Text} (spaces : Text.Spaces E)
    (feed : '\n' ∈ E) (written : disassemble ⟨.ttx, E⟩ p = .ok t) :
    ∃ is q r, decode p = .ok is ∧
      q = is.flatMap (fun i => (p.drop i.offset).take i.length) ∧
      p = q ++ r ∧ (r = [] ∨ ∃ op, Format.CutsOff op r) ∧
      assemble t = .ok q ∧
      ((∀ push, (decoding p).ending ≠ .cutOff push) → assemble t = .ok p) ∧
      disassemble ⟨.ttx, E⟩ q = .ok t := by
  obtain ⟨cs, r, split⟩ := Stream.exists_split p
  have faultless := split.faultless_of_disassemble written
  rw [split.disassemble_ttx faultless] at written
  obtain rfl := Except.ok.inj written
  have assembled := assemble_ttxLines spaces feed split.encodable
  have slices := Stream.flatMap_slice_place p r cs [] 0 split.eq
  refine ⟨_, Stream.bytes cs, r, split.decode_eq faultless, slices.symm, split.eq,
    split.cutsOff_of_faultless faultless, assembled, ?_, ?_⟩
  · intro whole
    rcases split.cutsOff_of_faultless faultless with rfl | ⟨op, cut⟩
    · rw [split.eq, List.append_nil]
      exact assembled
    · rw [split.decoding_eq, Stream.tailEnding, cut.fetch] at whole
      exact absurd rfl (whole _)
  · exact (Stream.Split.of_encodable split.encodable).disassemble_ttx rfl

/-- `IF`, a push of one byte, a move with bits, and a push of a word that has no low byte. -/
theorem assemble_of_disassemble_cut_push :
    disassemble ⟨.ttx, [' ', '\r', '\n', '\t']⟩ [0x58, 0x40, 0x01, 0x07, 0xc6, 0xb8, 0xff]
        = .ok ([' ', '\r', '\n', '\t'].intercalate
            ["IF[ ]\t/* If */".toList, "  NPUSHB[ ]\t/* 1 value pushed */".toList, "  7".toList,
              "  MDRP[00110]\t/* MoveDirectRelPt */".toList]) ∧
      assemble ([' ', '\r', '\n', '\t'].intercalate
            ["IF[ ]\t/* If */".toList, "  NPUSHB[ ]\t/* 1 value pushed */".toList, "  7".toList,
              "  MDRP[00110]\t/* MoveDirectRelPt */".toList])
        = .ok [0x58, 0x40, 0x01, 0x07, 0xc6] := by
  have spaces : Text.Spaces [' ', '\r', '\n', '\t'] :=
    .blank rfl (.returnFeed (.blank rfl .nil))
  have written : disassemble ⟨.ttx, [' ', '\r', '\n', '\t']⟩
        [0x58, 0x40, 0x01, 0x07, 0xc6, 0xb8, 0xff]
      = .ok ([' ', '\r', '\n', '\t'].intercalate
          ["IF[ ]\t/* If */".toList, "  NPUSHB[ ]\t/* 1 value pushed */".toList, "  7".toList,
            "  MDRP[00110]\t/* MoveDirectRelPt */".toList]) := by cbv
  have decoded : decode [0x58, 0x40, 0x01, 0x07, 0xc6, 0xb8, 0xff]
      = .ok (Stream.place 0 0 [.plain .IF 0, .push .NPUSHB [7], .plain .MDRP 6]) := by cbv
  obtain ⟨is, q, r, found, rfl, _, _, assembled, _⟩ :=
    assemble_of_disassemble spaces (by decide) written
  obtain rfl := Except.ok.inj (found.symm.trans decoded)
  exact ⟨written, assembled⟩

end Hinting
