/-
# `Hinting.Proofs.Messages` — what a message tells about its fault

A message holds the reason for a fault and the offset, and no more than that:

    Illegal opcode 0x28 at offset 0x0003.
    Illegal bitfield combination 00011 for MIRP at offset 0x0002.

Both are found in it again.  The offset is what stands behind the last space, however many
digits it has, and the reason is what stands in front of it (`Text.eq_of_append_cons_last`);
the name of the operation is behind the last space of the reason.

Numerals have zeros in front, and these tell nothing: bits are found only up to the number of
them, which the message does not state.  So the way back from the message needs that bits are
as many as the operation has (`Fault.Kind.HasOwnWidth`), and a disassembly has no other ones
(`FaultAt.hasOwnWidth`).
-/
import Mathlib
import Hinting.Proofs.FaultPrefix
import Hinting.Proofs.Hexadecimal
import Hinting.Proofs.VttText

namespace Hinting

/-! ## The parts of a message -/

theorem Text.eq_of_append_cons_last {c : Char} {t t' u u' : Text} (hu : c ∉ u) (hu' : c ∉ u')
    (h : t ++ c :: u = t' ++ c :: u') : t = t' ∧ u = u' := by
  have mirrored : u.reverse ++ c :: t.reverse = u'.reverse ++ c :: t'.reverse := by
    simpa using congrArg List.reverse h
  obtain ⟨behind, front⟩ := eq_of_append_cons (fun hc => hu (List.mem_reverse.mp hc))
    (fun hc => hu' (List.mem_reverse.mp hc)) mirrored
  exact ⟨List.reverse_injective front, List.reverse_injective behind⟩

theorem Text.append_eq_append_cons {c : Char} {word front : Text} (h : word = front ++ [c])
    (t u : Text) : t ++ word ++ u = t ++ front ++ c :: u := by
  rw [h]
  simp only [List.append_assoc, List.singleton_append]

namespace Numeral

theorem eq_of_hex {width width' n n' : Nat} (h : hex width n = hex width' n') : n = n' :=
  Text.eq_of_read (hex?_hex width n) (hex?_hex width' n') h

theorem eq_of_binary {width width' n n' : Nat} (h : binary width n = binary width' n') :
    n = n' :=
  Text.eq_of_read (binary?_binary width n) (binary?_binary width' n') h

theorem space_notMem_hex (width n : Nat) : ' ' ∉ hex width n := by
  intro space
  cases isWhite_of_mem_hexDigits (mem_hexDigits_of_mem_hex space)

end Numeral

theorem Operation.space_notMem_mnemonic (op : Operation) : ' ' ∉ op.mnemonic := by
  intro space
  cases isAlphanum_of_mem_mnemonic _ space

namespace Fault

theorem space_notMem_offsetText (offset : Nat) : ' ' ∉ offsetText offset ++ ['.'] := by
  intro space
  rcases List.mem_append.mp space with inside | dot
  · rcases List.mem_append.mp inside with sign | digit
    · revert sign
      decide
    · exact Numeral.space_notMem_hex _ _ digit
  · cases List.mem_singleton.mp dot

theorem eq_of_offsetText {o o' : Nat} (h : offsetText o = offsetText o') : o = o' :=
  Numeral.eq_of_hex (List.append_cancel_left h)

/-! ## Reasons -/

namespace Kind

/-- What a message says about a reason. -/
def phrase : Kind → Text
  | .unknownOpcode opcode => "Illegal opcode 0x".toList ++ Numeral.hex 2 opcode.toNat
  | .illegalBits operation bits =>
    "Illegal bitfield combination ".toList ++ bits.digits ++ " for ".toList ++ operation.mnemonic

/-- The bits that have no spelling are as many as the operation has. -/
def HasOwnWidth : Kind → Prop
  | .unknownOpcode _ => True
  | .illegalBits operation bits => bits.width = operation.argBits

/-- The two phrases part at the first letter of their second words. -/
theorem phrase_unknownOpcode_ne (opcode : UInt8) (operation : Operation) (bits : Bits) :
    phrase (.unknownOpcode opcode) ≠ phrase (.illegalBits operation bits) := by
  intro same
  have o : (phrase (.unknownOpcode opcode))[8]? = some 'o' := rfl
  have b : (phrase (.illegalBits operation bits))[8]? = some 'b' := rfl
  rw [same, b] at o
  cases o

/-- The name is behind the last space, and the digits are between two known texts. -/
theorem eq_of_phrase_illegalBits {operation operation' : Operation} {bits bits' : Bits}
    (h : phrase (.illegalBits operation bits) = phrase (.illegalBits operation' bits')) :
    operation = operation' ∧ bits.value = bits'.value := by
  have word : " for ".toList = " for".toList ++ [' '] := rfl
  have parts : ∀ (op : Operation) (bits : Bits), phrase (.illegalBits op bits)
      = "Illegal bitfield combination ".toList ++ bits.digits ++ " for".toList
        ++ ' ' :: op.mnemonic :=
    fun op bits => Text.append_eq_append_cons word _ _
  rw [parts, parts] at h
  obtain ⟨front, name⟩ := Text.eq_of_append_cons_last operation.space_notMem_mnemonic
    operation'.space_notMem_mnemonic h
  have digits : bits.digits = bits'.digits :=
    List.append_cancel_left (List.append_cancel_right front)
  exact ⟨Operation.eq_of_mnemonic name, Numeral.eq_of_binary digits⟩

theorem eq_of_phrase {k k' : Kind} (own : k.HasOwnWidth) (own' : k'.HasOwnWidth)
    (h : k.phrase = k'.phrase) : k = k' := by
  cases k with
  | unknownOpcode opcode =>
      cases k' with
      | unknownOpcode opcode' =>
          have number := Numeral.eq_of_hex (List.append_cancel_left h)
          rw [UInt8.toNat_inj.mp number]
      | illegalBits operation' bits' => exact absurd h (phrase_unknownOpcode_ne _ _ _)
  | illegalBits operation bits =>
      cases k' with
      | unknownOpcode opcode' => exact absurd h.symm (phrase_unknownOpcode_ne _ _ _)
      | illegalBits operation' bits' =>
          obtain ⟨rfl, value⟩ := eq_of_phrase_illegalBits h
          have width : bits.width = bits'.width := Eq.trans own own'.symm
          cases bits
          cases bits'
          cases value
          cases width
          rfl

end Kind

/-! ## Messages -/

theorem message_eq (fault : Fault) : fault.message
    = fault.kind.phrase ++ " at offset".toList ++ ' ' :: (offsetText fault.offset ++ ['.']) := by
  have words : " at offset ".toList = " at offset".toList ++ [' '] := rfl
  obtain ⟨kind, offset, written⟩ := fault
  cases kind with
  | unknownOpcode opcode =>
      rw [message, List.append_assoc]
      exact Text.append_eq_append_cons words _ _
  | illegalBits operation bits =>
      rw [message, List.append_assoc]
      exact Text.append_eq_append_cons words _ _

theorem message_eq_iff {e f : Fault} (own : e.kind.HasOwnWidth) (own' : f.kind.HasOwnWidth) :
    e.message = f.message ↔ e.kind = f.kind ∧ e.offset = f.offset := by
  rw [message_eq, message_eq]
  constructor
  · intro h
    obtain ⟨front, offset⟩ := Text.eq_of_append_cons_last (space_notMem_offsetText _)
      (space_notMem_offsetText _) h
    exact ⟨Kind.eq_of_phrase own own' (List.append_cancel_right front),
      eq_of_offsetText (List.append_cancel_right offset)⟩
  · rintro ⟨kind, offset⟩
    rw [kind, offset]

/-- A zero in front tells nothing: of one bit and of no bits at all the message is the same. -/
example : (illegalBits .MIRP ⟨1, 0⟩ 2).message = (illegalBits .MIRP ⟨1, 1⟩ 2).message := rfl

end Fault

/-! ## The faults of programs -/

/-- Bits that cannot be written are bits of an instruction of the program, and these are as
many as its operation has. -/
theorem FaultAt.hasOwnWidth {cs : List Command} {w : Writer} {r : Bytes} {fault : Fault}
    (h : FaultAt cs w r fault) : fault.kind.HasOwnWidth := by
  cases h with
  | unassigned s free => trivial
  | @unwritable c fault s encodable failed =>
      obtain ⟨bits, notPush, hasBits, rfl⟩ := Writer.eq_of_write_error failed
      obtain ⟨value, _, own⟩ := Command.hasOwnBits_placed encodable _ _ notPush
      rw [own] at hasBits
      split at hasBits
      · cases hasBits
      · exact (congrArg Bits.width (Option.some.inj hasBits)).symm

/-- **A message identifies the fault.**  Whatever the two programs are, and in whichever dialects
and with whichever line endings they are written: two failing disassemblies say the same
exactly if they fail for the same reason at the same offset. -/
theorem disassemble_message_eq_iff {options options' : Options} {p q : Bytes} {e f : Fault}
    (hp : disassemble options p = .error e) (hq : disassemble options' q = .error f) :
    e.message = f.message ↔ e.kind = f.kind ∧ e.offset = f.offset := by
  obtain ⟨_, _, _, _, _, _, failing⟩ := exists_faultAt hp
  obtain ⟨_, _, _, _, _, _, failing'⟩ := exists_faultAt hq
  exact Fault.message_eq_iff failing.hasOwnWidth failing'.hasOwnWidth

/-- `CALL` or `IF` in front of the same relative move, with line endings of one kind and the
other: what is written differs, and the message does not. -/
theorem message_of_illegal_move_eq :
    let e : Fault := ⟨.illegalBits .MIRP ⟨3, 5⟩, 1, "CALL[]\t/* CallFunction */".toList⟩
    let f : Fault := ⟨.illegalBits .MIRP ⟨3, 5⟩, 1, "IF[]\t/* If */".toList⟩
    disassemble ⟨.vtt, ['\n']⟩ [0x2b, 0xe3] = .error e ∧
      disassemble ⟨.vtt, ['\r', '\n']⟩ [0x58, 0xe3, 0x90] = .error f ∧
      e.message = f.message := by
  intro e f
  have hp : disassemble ⟨.vtt, ['\n']⟩ [0x2b, 0xe3] = .error e := by cbv
  have hq : disassemble ⟨.vtt, ['\r', '\n']⟩ [0x58, 0xe3, 0x90] = .error f := by cbv
  exact ⟨hp, hq, (disassemble_message_eq_iff hp hq).mpr ⟨rfl, rfl⟩⟩

end Hinting
