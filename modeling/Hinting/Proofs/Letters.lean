/-
# `Hinting.Proofs.Letters` — which bits have letters, and that letters tell bits apart

The operations of a family have the same number of argument bits, the **width** of the
family (`Family.argBits_of_of?`).  Among the values of its width, a family spells no two
alike (`Family.eq_of_spell?`): six families have one bit and a letter for each of its
values, a color has a name for each value that it can have, and a relative move is put
together from three such bits and a color.

So the letters of an operation tell its bits (`Operation.eq_of_spellBits?`).  Only the
color that does not exist has none (`Operation.spellBits?_eq_none_iff`).
-/
import Hinting.Instruction

namespace Hinting

namespace Family

/-- The number of argument bits that the operations of the family have. -/
def width : Family → Nat
  | .axis | .lineRelation | .rounding | .referencePoint | .autoset | .outline => 1
  | .color => 2
  | .relativeMove => 5

theorem argBits_of_of? {op : Operation} {family : Family} (h : of? op = some family) :
    op.argBits = family.width := by
  cases op <;> cases h <;> rfl

/-! ## Letters tell values apart -/

theorem eq_of_spellFlag {clear set : Char} (apart : clear ≠ set) {v v' w : Nat} (hv : v < 2)
    (hv' : v' < 2) (h : spellFlag clear set ⟨v, w⟩ = spellFlag clear set ⟨v', w⟩) : v = v' := by
  unfold spellFlag at h
  split at h <;> rename_i hv₀ <;> split at h <;> rename_i hv₀'
  · exact hv₀.trans hv₀'.symm
  · exact absurd (List.singleton_inj.mp h) apart
  · exact absurd (List.singleton_inj.mp h).symm apart
  · simp only at hv₀ hv₀'
    omega

theorem eq_of_spellColor? {n n' : Nat} {t : Text} (h : spellColor? n = some t)
    (h' : spellColor? n' = some t) : n = n' := by
  match n, n' with
  | 0, 0 | 1, 1 | 2, 2 => rfl
  | 0, 1 | 0, 2 | 1, 0 | 1, 2 | 2, 0 | 2, 1 => cases h; cases h'
  | n + 3, _ => cases h
  | 0, n' + 3 | 1, n' + 3 | 2, n' + 3 => cases h'

theorem eq_of_letter {set clear : Char} (apart : set ≠ clear) {b b' : Bool}
    (h : (if b then set else clear) = if b' then set else clear) : b = b' := by
  cases b <;> cases b'
  · rfl
  · exact absurd h.symm apart
  · exact absurd h apart
  · rfl

theorem eq_of_spell? {family : Family} {v v' : Nat} {t : Text} (hv : v < 2 ^ family.width)
    (hv' : v' < 2 ^ family.width) (h : family.spell? ⟨v, family.width⟩ = some t)
    (h' : family.spell? ⟨v', family.width⟩ = some t) : v = v' := by
  have same := h.trans h'.symm
  cases family with
  | axis | lineRelation | rounding | referencePoint | autoset | outline =>
      exact eq_of_spellFlag (by decide) hv hv' (Option.some.inj same)
  | color => exact eq_of_spellColor? h h'
  | relativeMove =>
      obtain ⟨color, hc, rfl⟩ := Option.map_eq_some_iff.mp h
      obtain ⟨color', hc', letters⟩ := Option.map_eq_some_iff.mp h'
      obtain ⟨bit₄, letters⟩ := List.cons.inj letters
      obtain ⟨bit₃, letters⟩ := List.cons.inj letters
      obtain ⟨bit₂, rfl⟩ := List.cons.inj letters
      have low := eq_of_spellColor? hc hc'
      have high₄ := eq_of_letter (by decide) bit₄
      have high₃ := eq_of_letter (by decide) bit₃
      have high₂ := eq_of_letter (by decide) bit₂
      simp only [Bits.isSet, Nat.testBit_eq_decide_div_mod_eq, decide_eq_decide]
        at high₄ high₃ high₂
      simp only [width] at hv hv' low
      omega

end Family

namespace Operation

theorem spellBits?_eq_some_iff {op : Operation} {bits : Bits} {t : Text} :
    op.spellBits? bits = some t ↔
      ∃ family, Family.of? op = some family ∧ family.spell? bits = some t :=
  Option.bind_eq_some_iff

theorem eq_of_spellBits? {op : Operation} {v v' : Nat} {t : Text} (hv : v < 2 ^ op.argBits)
    (hv' : v' < 2 ^ op.argBits) (h : op.spellBits? ⟨v, op.argBits⟩ = some t)
    (h' : op.spellBits? ⟨v', op.argBits⟩ = some t) : v = v' := by
  obtain ⟨family, found, spelled⟩ := spellBits?_eq_some_iff.mp h
  obtain ⟨family', found', spelled'⟩ := spellBits?_eq_some_iff.mp h'
  obtain rfl := Option.some.inj (found.symm.trans found')
  have width := Family.argBits_of_of? found
  rw [width] at hv hv' spelled spelled'
  exact Family.eq_of_spell? hv hv' spelled spelled'

/-! ## Bits without letters -/

theorem argBits_of_isVttJump {op : Operation} (h : op.isVttJump = true) :
    op.argBits = 0 := by
  revert h
  cases op <;> decide

theorem exists_family {op : Operation} (plain : op.pushWidth? = none) (some_bit : op.argBits ≠ 0) :
    ∃ family, Family.of? op = some family := by
  revert plain some_bit
  cases op <;> simp [Family.of?, pushWidth?, argBits]

theorem of?_eq_color_iff {op : Operation} :
    Family.of? op = some .color ↔ op = .ROUND ∨ op = .NROUND := by
  cases op <;> simp [Family.of?]

theorem of?_eq_relativeMove_iff {op : Operation} :
    Family.of? op = some .relativeMove ↔ op = .MDRP ∨ op = .MIRP := by
  cases op <;> simp [Family.of?]

/-- Of the operations with bits, those of a color have none for the one that does not exist. -/
theorem spellBits?_eq_none_iff {op : Operation} {bits : Bits} (plain : op.pushWidth? = none)
    (some_bit : op.argBits ≠ 0) :
    op.spellBits? bits = none ↔ (op = .ROUND ∨ op = .NROUND) ∧ 3 ≤ bits.value ∨
      (op = .MDRP ∨ op = .MIRP) ∧ bits.value % 4 = 3 := by
  obtain ⟨family, found⟩ := exists_family plain some_bit
  have named : op.spellBits? bits = family.spell? bits := by rw [spellBits?, found]; rfl
  rw [named, Family.spell?_eq_none_iff, ← of?_eq_color_iff, ← of?_eq_relativeMove_iff, found,
    Option.some.injEq, Option.some.injEq]

end Operation

/-! ## The bits of instructions -/

namespace Instruction

/-- The bits of the instruction are those that some opcode of its operation has. -/
def HasOwnBits (i : Instruction) : Prop :=
  ∃ value, value < 2 ^ i.operation.argBits ∧
    i.bits = if i.operation.argBits = 0 then none else some ⟨value, i.operation.argBits⟩

theorem HasOwnBits.bits_eq_none {i : Instruction} (h : i.HasOwnBits)
    (none : i.operation.argBits = 0) : i.bits = .none := by
  obtain ⟨value, _, bits⟩ := h
  rw [bits, if_pos none]

end Instruction

theorem Command.hasOwnBits_placed {c : Command} (h : c.IsEncodable) (offset indent : Nat) :
    (c.placed offset indent).isPush = false → (c.placed offset indent).HasOwnBits := by
  intro notPush
  cases c with
  | plain op value => exact ⟨value, h.2, rfl⟩
  | push op values =>
      obtain ⟨w, isPush, _⟩ := h
      cases (Operation.isPush_of_pushWidth? isPush).symm.trans notPush

end Hinting
