/-
# `Hinting.Reading` — reading the arguments of an operation with a cursor

Behind the opcode of a push stand its operands, and before them their number where
the opcode does not tell it.  They are read with a cursor, one after the other.
Where the bytes run out nothing is returned, but what came before stays read.

The bytes that are left know nothing of cursors, and `Command.fetch` tells what
stands in front of them.  Both come to the same: the arguments of the command that
is fetched are read, and the cursor stands behind it (`readArguments_of_command`);
where a push is cut off, nothing is read (`readArguments_of_cutOff`).
-/
import Hinting.Command
import Hinting.Cursor

namespace Hinting.Cursor

/-- Reads one operand. -/
def readOperand (w : PushWidth) (c : Cursor) : Option Int × Cursor :=
  match w with
  | .byte => (c.readByte.1.map fun b => (b.toNat : Int), c.readByte.2)
  | .word => c.readWord

/-- Reads a number of operands. -/
def readOperands (w : PushWidth) : Nat → Cursor → Option (List Int) × Cursor
  | 0, c => (some [], c)
  | count + 1, c =>
    match c.readOperand w with
    | (none, c) => (none, c)
    | (some v, c) =>
      let (vs, c) := readOperands w count c
      (vs.map (v :: ·), c)

/-- Reads the number of operands, unless the opcode tells it. -/
def readCount (op : Operation) (opcode : UInt8) (c : Cursor) : Option Nat × Cursor :=
  if op.hasInlineCount then (some (op.argument opcode + 1), c)
  else (c.readByte.1.map UInt8.toNat, c.readByte.2)

/-- Reads the arguments of an operation behind its opcode. -/
def readArguments (op : Operation) (opcode : UInt8) (c : Cursor) : Option (List Int) × Cursor :=
  match op.pushWidth? with
  | none => (some [], c)
  | some w =>
    match c.readCount op opcode with
    | (none, c) => (none, c)
    | (some count, c) => c.readOperands w count

/-! ## Staying within the bytes -/

section
variable {bs : Bytes} {c : Cursor}

theorem Within.readOperand (h : c.Within bs) (w : PushWidth) : (c.readOperand w).2.Within bs := by
  cases w with
  | byte => exact h.readByte
  | word => exact h.readWord

theorem Within.readOperands {w : PushWidth} : ∀ {count : Nat} {c : Cursor}, c.Within bs →
    (c.readOperands w count).2.Within bs := by
  intro count
  induction count with
  | zero => intro c h; exact h
  | succ count ih =>
      intro c h
      have first := h.readOperand w
      rw [Cursor.readOperands]
      split
      · rename_i c' read
        rw [read] at first
        exact first
      · rename_i v c' read
        rw [read] at first
        exact ih first

theorem Within.readCount (h : c.Within bs) (op : Operation) (opcode : UInt8) :
    (c.readCount op opcode).2.Within bs := by
  rw [Cursor.readCount]
  split
  · exact h
  · exact h.readByte

theorem Within.readArguments (h : c.Within bs) (op : Operation) (opcode : UInt8) :
    (c.readArguments op opcode).2.Within bs := by
  rw [Cursor.readArguments]
  split
  · exact h
  · have first := h.readCount op opcode
    split
    · rename_i c' read
      rw [read] at first
      exact first
    · rename_i count c' read
      rw [read] at first
      exact first.readOperands

end

/-! ## Reading, by the bytes that are left -/

theorem ahead_ahead (c : Cursor) (m n : Nat) : (c.ahead m).ahead n = c.ahead (m + n) := by
  simp only [ahead, Nat.add_assoc]

section
variable {c : Cursor} {w : PushWidth} {rest : Bytes}

theorem readOperand_of_some {v : Int} (h : w.read? c.rest = some (v, rest)) :
    c.readOperand w = (some v, c.ahead w.size) ∧ (c.ahead w.size).rest = rest := by
  obtain ⟨left, _⟩ := PushWidth.eq_encode_append_of_read? h
  constructor
  · cases w with
    | byte =>
        rw [left] at h
        have value := congrArg Prod.fst (Option.some.inj h)
        simp only [readOperand, readByte_of_cons left]
        exact congrArg (fun v => (some v, c.ahead 1)) value
    | word =>
        rw [left] at h
        have value := congrArg Prod.fst (Option.some.inj h)
        simp only [readOperand, readWord_of_cons left]
        exact congrArg (fun v => (some v, c.ahead 2)) value
  · rw [rest_ahead, left, ← w.length_encode v, List.drop_left]

theorem readOperand_of_none (h : w.read? c.rest = none) : (c.readOperand w).1 = none := by
  cases w with
  | byte =>
      cases left : c.rest with
      | nil => rw [readOperand, readByte_of_nil left]; rfl
      | cons b rest => rw [left] at h; cases h
  | word =>
      obtain few | ⟨high, low, rest, left⟩ := c.short_or_cons
      · rw [readOperand, readWord_of_short few]
      · rw [left] at h; cases h

theorem readOperands_of_some : ∀ {count : Nat} {c : Cursor} {vs : List Int},
    w.readMany? count c.rest = some (vs, rest) →
      c.readOperands w count = (some vs, c.ahead (w.size * count)) := by
  intro count
  induction count with
  | zero =>
      intro c vs h
      cases h
      rfl
  | succ count ih =>
      intro c vs h
      simp only [PushWidth.readMany?, Option.bind_eq_bind, Option.bind_eq_some_iff, Option.pure_def,
        Option.some.injEq, Prod.mk.injEq] at h
      obtain ⟨⟨v, q⟩, first, ⟨vs, r⟩, later, rfl, rfl⟩ := h
      obtain ⟨read, left⟩ := readOperand_of_some first
      rw [← left] at later
      simp only [readOperands, read, ih later, ahead_ahead, Option.map_some, Nat.mul_succ,
        Nat.add_comm]

theorem readOperands_of_none : ∀ {count : Nat} {c : Cursor},
    w.readMany? count c.rest = none → (c.readOperands w count).1 = none := by
  intro count
  induction count with
  | zero => intro c h; cases h
  | succ count ih =>
      intro c h
      rw [readOperands]
      cases first : w.read? c.rest with
      | none =>
          have stop := readOperand_of_none first
          split
          · rfl
          · rename_i v c' read
            rw [read] at stop
            cases stop
      | some found =>
          obtain ⟨v, q⟩ := found
          obtain ⟨read, left⟩ := readOperand_of_some first
          simp only [PushWidth.readMany?, first, Option.bind_eq_bind, Option.bind_some] at h
          have later : w.readMany? count (c.ahead w.size).rest = none := by
            rw [left]
            cases more : w.readMany? count q with
            | none => rfl
            | some found => rw [more] at h; cases h
          simp only [read, ih later, Option.map_none]

end

/-! ## Reading and fetching -/

section
variable {c : Cursor} {op : Operation} {opcode : UInt8} {rest : Bytes}

theorem readCount_of_some {count : Nat}
    (h : Command.readCount? op opcode c.rest = some (count, rest)) :
    c.readCount op opcode = (some count, c.ahead (if op.hasInlineCount then 0 else 1)) ∧
      (c.ahead (if op.hasInlineCount then 0 else 1)).rest = rest := by
  cases inline : op.hasInlineCount with
  | true =>
      simp only [Command.readCount?, inline, if_true, Option.some.injEq, Prod.mk.injEq] at h
      obtain ⟨rfl, rfl⟩ := h
      simp only [readCount, inline, if_true]
      exact ⟨rfl, rfl⟩
  | false =>
      simp only [Command.readCount?, inline, Bool.false_eq_true, if_false] at h
      cases left : c.rest with
      | nil => rw [left] at h; cases h
      | cons b p =>
          rw [left] at h
          cases h
          simp only [readCount, inline, readByte_of_cons left]
          exact ⟨rfl, rest_ahead_one left⟩

theorem readCount_of_none (h : Command.readCount? op opcode c.rest = none) :
    (c.readCount op opcode).1 = none := by
  cases inline : op.hasInlineCount with
  | true => simp [Command.readCount?, inline] at h
  | false =>
      simp only [Command.readCount?, inline, Bool.false_eq_true, if_false] at h
      cases left : c.rest with
      | nil => simp [readCount, inline, readByte_of_nil left]
      | cons b p => rw [left] at h; cases h

/-- The arguments of the command that is fetched are read, and the cursor stands behind it. -/
theorem readArguments_of_command {cmd : Command}
    (h : Command.fetch (opcode :: c.rest) = .command cmd rest) :
    Operation.ofOpcode? opcode = some cmd.operation ∧
      c.readArguments cmd.operation opcode = (some cmd.arguments, c.ahead (cmd.size - 1)) := by
  rw [Command.fetch] at h
  split at h
  · cases h
  · rename_i op lookup
    split at h
    · rename_i plain
      cases h
      refine ⟨lookup, ?_⟩
      rw [readArguments, Command.operation, plain]
      rfl
    · rename_i w isPush
      split at h
      · cases h
      · rename_i values tail read
        cases h
        simp only [Command.readValues?, Option.bind_eq_bind, Option.bind_eq_some_iff] at read
        obtain ⟨⟨count, q⟩, counted, operands⟩ := read
        obtain ⟨first, left⟩ := readCount_of_some counted
        obtain ⟨_, rfl, _⟩ := PushWidth.eq_encodeMany_append_of_readMany? operands
        rw [← left] at operands
        -- The opcode is read already, which leaves the count, if it has a byte, and the operands.
        have size : (Command.push op values).size - 1
            = (if op.hasInlineCount then 0 else 1) + w.size * values.length := by
          simp only [Command.size, isPush]
          omega
        refine ⟨lookup, ?_⟩
        rw [readArguments, Command.operation, isPush, size, ← ahead_ahead]
        simp only [first, readOperands_of_some operands]
        rfl

theorem readArguments_of_cutOff (h : Command.fetch (opcode :: c.rest) = .cutOff op) :
    Operation.ofOpcode? opcode = some op ∧ op.isPush = true ∧
      (c.readArguments op opcode).1 = none := by
  rw [Command.fetch] at h
  split at h
  · cases h
  · rename_i op' lookup
    split at h
    · cases h
    · rename_i w isPush
      split at h
      · rename_i unread
        cases h
        refine ⟨lookup, Operation.isPush_of_pushWidth? isPush, ?_⟩
        rw [readArguments, isPush]
        cases counted : Command.readCount? op opcode c.rest with
        | none =>
            have stop := readCount_of_none counted
            simp only
            split
            · rfl
            · rename_i count c' read
              rw [read] at stop
              cases stop
        | some found =>
            obtain ⟨count, q⟩ := found
            obtain ⟨first, left⟩ := readCount_of_some counted
            simp only [Command.readValues?, counted, Option.bind_eq_bind,
              Option.bind_some] at unread
            rw [← left] at unread
            simp only [first, readOperands_of_none unread]
      · cases h

end

end Hinting.Cursor
