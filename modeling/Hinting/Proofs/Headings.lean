/-
# `Hinting.Proofs.Headings` — what the header lines of a source text announce

A source text is read here without the assembler: its **headings** are the header
lines, each with the values of the line after it (`headings`).  A heading announces
an instruction by the name of the operation, the digits in the brackets, and the
values (`Announces`).

Where the assembler takes the text, the program holds the announced instructions, one
for each heading, and nothing besides (`decode_of_assemble`).  No operand can be
taken for an opcode on the way: the bytes are commands that the format has room for,
and so they divide into these commands only.
-/
import Mathlib
import Hinting.Proofs.RoundTrip

namespace Hinting

/-! ## Headings -/

/-- The header lines among lines, each with the values of the line after it, if that is a
values line. -/
def headings : List Text → List (Header × List Int)
  | [] => []
  | line :: rest =>
    match Header.ofLine? line with
    | none => headings rest
    | some header => (header, (rest.head?.bind Values.ofLine?).getD []) :: headings rest

/-- The instruction is what the heading says.  Brackets count for an operation with argument
bits that is no push, and values for a push. -/
structure Announces (heading : Header × List Int) (i : Instruction) : Prop where
  operation : Operation.ofMnemonic? heading.1.name = some i.operation
  bits : i.operation.isPush = false → 0 < i.operation.argBits → ∃ bits, i.bits = some bits ∧
    bits.width = i.operation.argBits ∧ bits.digits = Text.trim heading.1.inside
  bare : i.operation.isPush = true ∨ i.operation.argBits = 0 → i.bits = none
  arguments : i.arguments = if i.operation.isPush then heading.2 else []

theorem announces_plain {op : Operation} {inside : Text} {value : Nat} {vs : List Int}
    (kind : op.pushWidth? = none) (width : (Text.trim inside).length = op.argBits)
    (read : Numeral.binary? (Text.trim inside) = some value) (offset indent : Nat) :
    Announces (⟨op.mnemonic, inside⟩, vs) ((Command.plain op value).placed offset indent) where
  operation := op.ofMnemonic?_mnemonic
  bits := by
    intro _ (some_bit : 0 < op.argBits)
    have digits := (Numeral.binary_of_binary? read).2
    rw [width] at digits
    refine ⟨⟨value, op.argBits⟩, if_neg (Nat.ne_of_gt some_bit), rfl, digits ?_⟩
    exact List.length_pos_iff.mp (width ▸ some_bit)
  bare := by
    rintro (isPush | none)
    · cases (Operation.isPush_eq_false kind).symm.trans isPush
    · exact if_pos none
  arguments := by
    have plain : op.isPush = false := Operation.isPush_eq_false kind
    exact (if_neg (Bool.eq_false_iff.mp plain)).symm

theorem announces_push {op : Operation} {inside : Text} {w : PushWidth} {vs : List Int}
    (kind : op.pushWidth? = some w) (offset indent : Nat) :
    Announces (⟨op.mnemonic, inside⟩, vs) ((Command.push op vs).placed offset indent) where
  operation := op.ofMnemonic?_mnemonic
  bits := by
    intro plain _
    cases plain.symm.trans (Operation.isPush_of_pushWidth? kind)
  bare := fun _ => rfl
  arguments := (if_pos (Operation.isPush_of_pushWidth? kind)).symm

/-! ## Headings and items -/

theorem headings_cons {line : Text} {header : Header} (h : Header.ofLine? line = some header)
    (rest : List Text) :
    headings (line :: rest)
      = (header, (rest.head?.bind Values.ofLine?).getD []) :: headings rest := by
  rw [headings, h]

theorem headings_cons_values {line : Text} {vs : List Int} (h : Values.ofLine? line = some vs)
    (rest : List Text) : headings (line :: rest) = headings rest := by
  rw [headings, Values.header_eq_none_of_ofLine? h]

theorem Items.announces {ls : List Text} {cs : List Command} (h : Items ls cs) :
    ∀ o d : Nat, List.Forall₂ Announces (headings ls) (Stream.place o d cs) := by
  induction h with
  | nil => intro o d; exact .nil
  | @cons ls rest c cs item items ih =>
      intro o d
      cases item with
      | plain header kind width read =>
          rw [List.singleton_append, headings_cons header]
          exact .cons (announces_plain kind width read _ _) (ih _ _)
      | push header kind follows admitted held =>
          cases follows with
          | nothing =>
              have none : (rest.head?.bind Values.ofLine?).getD [] = [] := by
                cases rest with
                | nil => rfl
                | cons line rest => simp [items.ofLine?_head]
              rw [List.singleton_append, headings_cons header, none]
              exact .cons (announces_push kind _ _) (ih _ _)
          | values read =>
              rw [List.cons_append, List.singleton_append, headings_cons header,
                headings_cons_values read, List.head?_cons, Option.bind_some, read,
                Option.getD_some]
              exact .cons (announces_push kind _ _) (ih _ _)

/-! ## The assembled program -/

theorem Stream.foldl_length_place : ∀ (n o d : Nat) (cs : List Command),
    (Stream.place o d cs).foldl (fun n i => n + i.length) n = n + (Stream.bytes cs).length := by
  intro n o d cs
  induction cs generalizing n o d with
  | nil => rfl
  | cons c cs ih =>
      rw [Stream.place, List.foldl_cons, ih, Stream.bytes_cons, List.length_append,
        Command.length_encode, Nat.add_assoc]
      rfl

/-- **An assembled program is what its text announces.**  It decodes to its very end, and the
instructions are one for each header line of the text, in order, each with the operation
that the line names, the digits between its brackets, and the values of the line after
it.  The program has a text in the generic dialect, which assembles to the program. -/
theorem decode_of_assemble {t : Text} {q : Bytes} (h : assemble t = .ok q) :
    ∃ is, decode q = .ok is ∧ (decoding q).ending = .complete ∧
      is.foldl (fun n i => n + i.length) 0 = q.length ∧
      List.Forall₂ Announces (headings (Text.sourceTexts t)) is ∧
      ∃ t', ttxAssembly q = .ok t' ∧ assemble t' = .ok q := by
  obtain ⟨cs, items, rfl⟩ := assemble_eq_ok_iff.mp h
  have split := Stream.Split.of_encodable items.encodable
  refine ⟨Stream.place 0 0 cs, split.decode_eq rfl, by rw [split.decoding_eq]; rfl,
    ?_, items.announces 0 0, _, split.disassemble_ttx rfl, ?_⟩
  · rw [Stream.foldl_length_place, Nat.zero_add]
  · exact assemble_ttxLines (.feed .nil) (by decide) items.encodable

/-- Comments, blank lines, zeros in front, and bits on a push. -/
theorem decode_of_assemble_pushes :
    assemble "\tNPUSHB[1]/* two */\n\n 007  -0 \nMDRP[ 00110 ]\nNPUSHW[]\nCALL[]".toList
        = .ok [0x40, 0x02, 0x07, 0x00, 0xc6, 0x41, 0x00, 0x2b] ∧
      ∃ is, decode [0x40, 0x02, 0x07, 0x00, 0xc6, 0x41, 0x00, 0x2b] = .ok is ∧
        List.Forall₂ Announces
          [(⟨"NPUSHB".toList, ['1']⟩, [7, 0]), (⟨"MDRP".toList, " 00110 ".toList⟩, []),
            (⟨"NPUSHW".toList, []⟩, []), (⟨"CALL".toList, []⟩, [])] is := by
  have h : assemble "\tNPUSHB[1]/* two */\n\n 007  -0 \nMDRP[ 00110 ]\nNPUSHW[]\nCALL[]".toList
      = .ok [0x40, 0x02, 0x07, 0x00, 0xc6, 0x41, 0x00, 0x2b] := by cbv
  have read : headings (Text.sourceTexts
        "\tNPUSHB[1]/* two */\n\n 007  -0 \nMDRP[ 00110 ]\nNPUSHW[]\nCALL[]".toList)
      = [(⟨"NPUSHB".toList, ['1']⟩, [7, 0]), (⟨"MDRP".toList, " 00110 ".toList⟩, []),
        (⟨"NPUSHW".toList, []⟩, []), (⟨"CALL".toList, []⟩, [])] := by cbv
  obtain ⟨is, decoded, _, _, announced, _⟩ := decode_of_assemble h
  exact ⟨h, is, decoded, read ▸ announced⟩

end Hinting
