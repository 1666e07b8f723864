/-
# `Hinting.Proofs.EntryPoints` — four ways through a program, and where each of them fails

Decoding, the generic dialect, the listing and VTT all walk through a program, and each stops at
an opcode that no operation owns.  The first three stop nowhere else.  VTT also stops at the
first instruction whose color does not exist (`Instruction.lacksColor`), which is always before
that opcode:

    instructions of the walk    i₁ … iₖ₋₁  iₖ  … iₙ  (unassigned opcode)
    decode, ttx, listing                               fault, if there is one
    vtt                                    fault, if iₖ is the first without a color

So there is one comparison for the first three (`SameFault`), and VTT joins them where no
instruction lacks a color (`Stream.Split.vttAssembly_of_find?`).
-/
import Hinting.Listing
import Hinting.Proofs.Letters
import Hinting.Proofs.Rendering

namespace Hinting

/-! ## Results with the same fault -/

/-- Two results have a value each, or faults of one kind at one offset. -/
inductive SameFault {α β : Type} : Except Fault α → Except Fault β → Prop
  | ok (a : α) (b : β) : SameFault (.ok a) (.ok b)
  | error {f g : Fault} : f.kind = g.kind → f.offset = g.offset → SameFault (.error f) (.error g)

namespace SameFault
variable {α β γ : Type} {x : Except Fault α} {y : Except Fault β}

theorem map (h : SameFault x y) (f : β → γ) : SameFault x (y.map f) := by
  cases h with
  | ok a b => exact .ok a (f b)
  | error kind offset => exact .error kind offset

theorem exists_error_iff (h : SameFault x y) :
    (∃ f, x = .error f) ↔ ∃ f, y = .error f := by
  cases h with
  | ok a b => simp
  | error kind offset => simp

end SameFault

/-! ## Colors that do not exist -/

namespace Instruction

/-- Whether the bits of the instruction name a color and there is no such color: a rounding has
nothing but a color in its bits, and a relative move has it in the two lowest. -/
def lacksColor (i : Instruction) : Bool :=
  match i.bits with
  | none => false
  | some bits =>
    (i.operation = .ROUND ∨ i.operation = .NROUND) ∧ bits.value = 3 ∨
      (i.operation = .MDRP ∨ i.operation = .MIRP) ∧ bits.value % 4 = 3

theorem lacksColor_iff {i : Instruction} {bits : Bits} (h : i.bits = some bits) :
    i.lacksColor = true ↔ (i.operation = .ROUND ∨ i.operation = .NROUND) ∧ bits.value = 3 ∨
      (i.operation = .MDRP ∨ i.operation = .MIRP) ∧ bits.value % 4 = 3 := by
  rw [lacksColor, h, decide_eq_true_eq]

theorem exists_bits_of_lacksColor {i : Instruction} (h : i.lacksColor = true) :
    ∃ bits, i.bits = some bits := by
  cases hasBits : i.bits with
  | none => rw [lacksColor, hasBits] at h; cases h
  | some bits => exact ⟨bits, rfl⟩

/-- Three is the only number without a color that a rounding has room for. -/
theorem spellBits?_eq_none_iff_lacksColor {i : Instruction} (plain : i.operation.pushWidth? = none)
    (own : i.HasOwnBits) {bits : Bits} (hasBits : i.bits = some bits) :
    i.operation.spellBits? bits = none ↔ i.lacksColor = true := by
  have some_bit : i.operation.argBits ≠ 0 := by
    intro none
    rw [own.bits_eq_none none] at hasBits
    cases hasBits
  obtain ⟨value, bound, written⟩ := own
  rw [hasBits, if_neg some_bit] at written
  obtain rfl := Option.some.inj written
  rw [Operation.spellBits?_eq_none_iff plain some_bit, lacksColor_iff hasBits]
  -- A rounding has two bits, so a number from three on is three.
  refine or_congr_left (and_congr_right fun color => ?_)
  rw [Family.argBits_of_of? (Operation.of?_eq_color_iff.mpr color)] at bound
  simp only [Family.width] at bound ⊢
  omega

theorem vttLines_eq_error_iff_lacksColor {i : Instruction}
    (own : i.isPush = false → i.HasOwnBits) {bits : Bits} :
    i.vttLines = .error bits ↔ i.lacksColor = true ∧ i.bits = some bits := by
  rw [vttLines_eq_error_iff]
  constructor
  · rintro ⟨notPush, _, hasBits, unspelled⟩
    have plain : i.operation.pushWidth? = none :=
      Option.not_isSome_iff_eq_none.mp (Bool.eq_false_iff.mp notPush)
    exact ⟨(spellBits?_eq_none_iff_lacksColor plain (own notPush) hasBits).mp unspelled, hasBits⟩
  · rintro ⟨lacks, hasBits⟩
    have plain : i.operation.pushWidth? = none ∧ i.operation.isVttJump = false := by
      rcases (lacksColor_iff hasBits).mp lacks with ⟨color | color, _⟩ | ⟨move | move, _⟩
      · rw [color]; decide
      · rw [color]; decide
      · rw [move]; decide
      · rw [move]; decide
    have notPush : i.isPush = false := Operation.isPush_eq_false plain.1
    exact ⟨notPush, plain.2, hasBits,
      (spellBits?_eq_none_iff_lacksColor plain.1 (own notPush) hasBits).mpr lacks⟩

end Instruction

/-! ## Instructions in their places -/

namespace Stream

theorem exists_of_mem_place {cs : List Command} {o d : Nat} {i : Instruction}
    (h : i ∈ place o d cs) :
    ∃ c ∈ cs, (∃ offset indent, i = c.placed offset indent) ∧ i.offset < o + (bytes cs).length := by
  obtain ⟨is, js, listed⟩ := List.append_of_mem h
  obtain ⟨before, c, after, rfl, _, rfl⟩ := eq_append_cons_of_place listed
  refine ⟨c, by simp, ⟨_, _, rfl⟩, ?_⟩
  have some_byte := c.size_pos
  rw [bytes_append, bytes_cons, List.length_append, List.length_append, c.length_encode]
  change o + (bytes before).length < _
  omega

end Stream

/-! ## The ending of the walk -/

theorem Stream.Split.sameFault {p r : Bytes} {cs : List Command} (h : Stream.Split p cs r)
    (w : Writer) :
    SameFault (decode p) (w.conclude (Stream.tailEnding (Stream.bytes cs).length r)) := by
  rw [h.decode_eq_match, Writer.conclude]
  cases (Stream.tailEnding (Stream.bytes cs).length r).fault? with
  | none => exact .ok _ _
  | some f => exact .error rfl rfl

theorem Stream.Split.eq_of_decode_error {p r : Bytes} {cs : List Command} {f : Fault}
    (h : Stream.Split p cs r) (failed : decode p = .error f) :
    ∃ b, f = .unknownOpcode b (Stream.bytes cs).length := by
  rw [h.decode_eq_match] at failed
  cases hf : (Stream.tailEnding (Stream.bytes cs).length r).fault? with
  | none => rw [hf] at failed; cases failed
  | some f' =>
      rw [hf] at failed
      obtain rfl := Except.error.inj failed
      obtain ⟨b, _, _, _, rfl⟩ := Stream.tailEnding_fault?_eq_some hf
      exact ⟨b, rfl⟩

/-! ## The generic dialect and the listing -/

theorem listing_eq (p : Bytes) :
    listing p = (((Writer.start {}).writeMany (decoding p).instructions).bind fun w =>
      w.conclude (decoding p).ending).map fun _ => ⟨p, (decoding p).instructions⟩ := by
  rw [← Writer.value_writeAll, ← writeProgram_eq]
  exact congrArg Logged.value (listingLogged_eq p)

theorem sameFault_writeMany_ttx (p : Bytes) :
    SameFault (decode p) (((Writer.start {}).writeMany (decoding p).instructions).bind fun w =>
      w.conclude (decoding p).ending) := by
  obtain ⟨cs, r, split⟩ := Stream.exists_split p
  rw [split.decoding_eq, Writer.writeMany_ttx rfl]
  exact split.sameFault _

theorem sameFault_ttxAssembly (p : Bytes) : SameFault (decode p) (ttxAssembly p) := by
  rw [ttxAssembly, disassemble_eq]
  exact (sameFault_writeMany_ttx p).map _

theorem sameFault_listing (p : Bytes) : SameFault (decode p) (listing p) := by
  rw [listing_eq]
  exact (sameFault_writeMany_ttx p).map _

theorem listing_eq_error_iff {p : Bytes} {f : Fault} :
    listing p = .error f ↔ ttxAssembly p = .error f := by
  rw [listing_eq, ttxAssembly, disassemble_eq]
  generalize ((Writer.start {}).writeMany (decoding p).instructions).bind _ = run
  cases run with
  | ok w => exact iff_of_false (fun h => by cases h) (fun h => by cases h)
  | error g => simp only [Except.map, Except.error.injEq]

/-! ## VTT -/

namespace Writer
variable {w : Writer} {i : Instruction}

theorem write_of_lacksColor (vtt : w.options.dialect = .vtt)
    (own : i.isPush = false → i.HasOwnBits) (lacks : i.lacksColor = true) :
    ∃ bits, i.bits = some bits ∧
      w.write i = .error ⟨.illegalBits i.operation bits, i.offset, w.text⟩ := by
  obtain ⟨bits, hasBits⟩ := Instruction.exists_bits_of_lacksColor lacks
  have failed := (Instruction.vttLines_eq_error_iff_lacksColor own).mpr ⟨lacks, hasBits⟩
  exact ⟨bits, hasBits, write_eq_error_iff.mpr ⟨bits, by rw [vtt]; exact failed, rfl⟩⟩

theorem write_of_not_lacksColor (vtt : w.options.dialect = .vtt)
    (own : i.isPush = false → i.HasOwnBits) (has : i.lacksColor = false) :
    ∃ w', w.write i = .ok w' := by
  cases written : w.write i with
  | ok w' => exact ⟨w', rfl⟩
  | error f =>
      obtain ⟨bits, failed, _⟩ := write_eq_error_iff.mp written
      rw [vtt] at failed
      have lacks := ((Instruction.vttLines_eq_error_iff_lacksColor own).mp failed).1
      cases has.symm.trans lacks

theorem writeMany_of_find? : ∀ {is : List Instruction} {w : Writer},
    w.options.dialect = .vtt → (∀ i ∈ is, i.isPush = false → i.HasOwnBits) →
      match is.find? Instruction.lacksColor with
      | some i => ∃ bits text, i.bits = some bits ∧
          w.writeMany is = .error ⟨.illegalBits i.operation bits, i.offset, text⟩
      | none => ∃ w', w.writeMany is = .ok w' := by
  intro is
  induction is with
  | nil => intro w _ _; exact ⟨w, rfl⟩
  | cons i is ih =>
      intro w vtt own
      obtain ⟨own₁, own⟩ := List.forall_mem_cons.mp own
      cases color : i.lacksColor with
      | true =>
          obtain ⟨bits, hasBits, failed⟩ := write_of_lacksColor vtt own₁ color
          rw [List.find?_cons_of_pos color]
          exact ⟨bits, w.text, hasBits, writeMany_cons_of_error failed is⟩
      | false =>
          obtain ⟨w₁, written⟩ := write_of_not_lacksColor vtt own₁ color
          obtain ⟨ls, _, rfl⟩ := eq_of_write written
          rw [List.find?_cons_of_neg (by simp [color]), writeMany, written]
          exact ih vtt own

end Writer

/-- VTT stops at the first instruction without a color.  Where there is none it stops where the
walk does. -/
theorem Stream.Split.vttAssembly_of_find? {p r : Bytes} {cs : List Command}
    (h : Stream.Split p cs r) :
    match (Stream.place 0 0 cs).find? Instruction.lacksColor with
    | some i => ∃ bits text, i.bits = some bits ∧
        vttAssembly p = .error ⟨.illegalBits i.operation bits, i.offset, text⟩
    | none => SameFault (decode p) (vttAssembly p) := by
  have own : ∀ i ∈ Stream.place 0 0 cs, i.isPush = false → i.HasOwnBits := by
    intro i hi
    obtain ⟨c, hc, ⟨offset, indent, rfl⟩, _⟩ := Stream.exists_of_mem_place hi
    exact Command.hasOwnBits_placed (h.encodable c hc) offset indent
  have run := @Writer.writeMany_of_find? _ (.start ⟨.vtt, ['\n']⟩) rfl own
  cases found : (Stream.place 0 0 cs).find? Instruction.lacksColor with
  | none =>
      rw [found] at run
      obtain ⟨w, written⟩ := run
      change SameFault (decode p) (vttAssembly p)
      rw [vttAssembly, h.disassemble_of_ok written]
      exact (h.sameFault w).map _
  | some i =>
      rw [found] at run
      obtain ⟨bits, text, hasBits, failed⟩ := run
      exact ⟨bits, text, hasBits, h.disassemble_of_error failed⟩

/-! ## All of them -/

/-- **The ways through a program agree on where they fail.**  Decoding, the generic dialect and
the listing all succeed, or all fail with one kind at one offset, which is an opcode that no
operation owns; the decoding carries no text then, and the other two carry the same.  VTT fails
if they do or if an instruction lacks a color, and it reports the first such instruction; that
stands before the opcode. -/
theorem faults_agree (p : Bytes) :
    SameFault (decode p) (ttxAssembly p) ∧ SameFault (decode p) (listing p) ∧
      (∀ f, decode p = .error f → f.partialOutput = [] ∧ ∃ b, f.kind = .unknownOpcode b) ∧
      (∀ f, listing p = .error f ↔ ttxAssembly p = .error f) ∧
      ((∃ f, vttAssembly p = .error f) ↔
        (∃ f, decode p = .error f) ∨ ∃ i ∈ (decoding p).instructions, i.lacksColor = true) ∧
      match (decoding p).instructions.find? Instruction.lacksColor with
      | some i => (∃ bits text, i.bits = some bits ∧
            vttAssembly p = .error ⟨.illegalBits i.operation bits, i.offset, text⟩) ∧
          ∀ f, decode p = .error f → i.offset < f.offset
      | none => SameFault (decode p) (vttAssembly p) := by
  obtain ⟨cs, r, split⟩ := Stream.exists_split p
  refine ⟨sameFault_ttxAssembly p, sameFault_listing p, ?_, fun f => listing_eq_error_iff, ?_⟩
  · intro f failed
    obtain ⟨b, rfl⟩ := split.eq_of_decode_error failed
    exact ⟨rfl, b, rfl⟩
  · have vtt := split.vttAssembly_of_find?
    rw [split.decoding_eq]
    cases found : (Stream.place 0 0 cs).find? Instruction.lacksColor with
    | none =>
        rw [found] at vtt
        have all : ¬ ∃ i ∈ Stream.place 0 0 cs, i.lacksColor = true := by
          rintro ⟨i, hi, lacks⟩
          exact List.find?_eq_none.mp found i hi lacks
        exact ⟨vtt.exists_error_iff.symm.trans (or_iff_left all).symm, vtt⟩
    | some i =>
        rw [found] at vtt
        obtain ⟨bits, text, hasBits, failed⟩ := vtt
        have member := List.mem_of_find?_eq_some found
        refine ⟨iff_of_true ⟨_, failed⟩ (.inr ⟨i, member, List.find?_some found⟩),
          ⟨bits, text, hasBits, failed⟩, ?_⟩
        intro f fault
        obtain ⟨b, rfl⟩ := split.eq_of_decode_error fault
        obtain ⟨_, _, _, before⟩ := Stream.exists_of_mem_place member
        rw [Nat.zero_add] at before
        exact before

end Hinting
