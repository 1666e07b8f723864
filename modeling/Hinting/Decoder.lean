/-
# `Hinting.Decoder` — walking through a program

A decoder reads a program with a cursor and counts the open blocks.  A step
reports what it meets, and either yields an instruction or ends the walk; a walk
that has ended stays ended.

There are three ways to end (`Ending`): the program is complete, a push is cut
off by the end of the program, or an opcode belongs to no operation.  Only the
last is a fault.

A closer counts before the instruction is placed and an opener after it, so that
both stand at the depth of the blocks around them.  A closer without a block to
close changes nothing.

What is fetched from the bytes that are left settles the step (`step_of_command`
and the three lemmas before it).  Nothing else is used of the cursor.
-/
import Hinting.Log
import Hinting.Reading

namespace Hinting

/-! ## Depth -/

namespace Operation

/-- The depth at which an operation is written, with `depth` open blocks before it. -/
def indentAt (op : Operation) (depth : Nat) : Nat :=
  if op.closesBlock then depth - 1 else depth

/-- The number of open blocks after an operation that is written at a depth. -/
def depthAfter (op : Operation) (indent : Nat) : Nat :=
  if op.opensBlock then indent + 1 else indent

theorem blockless_of_isPush {op : Operation} (h : op.isPush = true) :
    op.closesBlock = false ∧ op.opensBlock = false := by
  revert h
  cases op <;> decide

theorem depth_of_isPush {op : Operation} (h : op.isPush = true) (depth : Nat) :
    op.indentAt depth = depth ∧ op.depthAfter depth = depth := by
  obtain ⟨closes, opens⟩ := blockless_of_isPush h
  rw [indentAt, depthAfter, closes, opens]
  exact ⟨rfl, rfl⟩

/-- The argument bits in an opcode of an operation that has some and is no push. -/
def bitsIn (op : Operation) (opcode : UInt8) : Option Bits :=
  match op.pushWidth? with
  | some _ => none
  | none => if op.argBits = 0 then none else some ⟨op.argument opcode, op.argBits⟩

end Operation

namespace Command

/-- The depth at which a command is written, with `depth` open blocks before it. -/
def indentAt (c : Command) (depth : Nat) : Nat := c.operation.indentAt depth

/-- The number of open blocks after a command. -/
def depthAfter (c : Command) (depth : Nat) : Nat := c.operation.depthAfter (c.indentAt depth)

theorem bits_eq {c : Command} (h : c.IsEncodable) : c.bits = c.operation.bitsIn c.opcode := by
  cases c with
  | plain op value =>
      obtain ⟨plain, bound⟩ := h
      simp only [bits, operation, opcode, Operation.bitsIn, plain,
        (Operation.ofOpcode?_opcode bound).2]
  | push op values =>
      obtain ⟨w, isPush, _⟩ := h
      simp only [bits, operation, Operation.bitsIn, isPush]

end Command

/-! ## Steps -/

/-- How a walk ends. -/
inductive Ending where
  | complete
  | cutOff (push : CutOff)
  | unassigned (opcode : UInt8) (offset : Nat)
  deriving DecidableEq

namespace Ending

/-- The fault that an ending is, with nothing written before it. -/
def fault? : Ending → Option Fault
  | unassigned opcode offset => some (.unknownOpcode opcode offset)
  | complete | cutOff _ => none

/-- The warning about a push that is cut off. -/
def events : Ending → List Event
  | cutOff push => [.missingOperands push]
  | complete | unassigned _ _ => []

end Ending

structure Decoder where
  cursor : Cursor
  /-- The number of open blocks. -/
  depth : Nat
  ended : Bool

namespace Decoder

def start (program : Bytes) : Decoder := ⟨.start program, 0, false⟩

def position (d : Decoder) : Nat := d.cursor.position

/-- The bytes still to be read. -/
def rest (d : Decoder) : Bytes := d.cursor.rest

@[simp] theorem position_start (p : Bytes) : (start p).position = 0 := rfl

/-- What a step yields. -/
inductive Step where
  | instruction (instruction : Instruction)
  | ended (ending : Ending)

/-- The instruction or the fault that a step yields, if it yields either. -/
def Step.item? : Step → Option (Except Fault Instruction)
  | .instruction i => some (.ok i)
  | .ended e => e.fault?.map .error

def step (d : Decoder) : Logged (Step × Decoder) :=
  if d.ended then ⟨(.ended .complete, d), []⟩
  else
    match d.cursor.readByte with
    | (none, c) => ⟨(.ended .complete, ⟨c, d.depth, true⟩), []⟩
    | (some opcode, c) =>
      match Operation.ofOpcode? opcode with
      | none => ⟨(.ended (.unassigned opcode d.position), ⟨c, d.depth, true⟩), []⟩
      | some op =>
        let indent := op.indentAt d.depth
        match c.readArguments op opcode with
        | (none, c) =>
          let push : CutOff := ⟨op, d.position, c.size⟩
          -- What is left of the program is given up, with the operands that were there.
          ⟨(.ended (.cutOff push), ⟨c.seekBy c.remaining, indent, true⟩), [.missingOperands push]⟩
        | (some arguments, c) =>
          let i : Instruction :=
            { offset := d.position
              length := c.position - d.position
              opcode := opcode
              operation := op
              arguments := arguments
              bits := op.bitsIn opcode
              indent := indent }
          ⟨(.instruction i, ⟨c, op.depthAfter indent, false⟩), [.decoded i]⟩

/-- What a step yields, and the decoder after it. -/
def next (d : Decoder) : Step × Decoder := d.step.value

/-! ## Steps, by what is fetched -/

/-- The decoder behind a command. -/
def past (d : Decoder) (c : Command) : Decoder :=
  ⟨d.cursor.ahead c.size, c.depthAfter d.depth, false⟩

def spent (d : Decoder) : Decoder := ⟨⟨d.cursor.bytes, d.cursor.size⟩, d.depth, true⟩

theorem rest_past {d : Decoder} {c : Command} {p : Bytes} (h : d.rest = c.encode ++ p) :
    (d.past c).rest = p := by
  show (d.cursor.ahead c.size).rest = p
  rw [rest] at h
  rw [Cursor.rest_ahead, h, ← c.length_encode, List.drop_left]

theorem rest_spent (d : Decoder) : d.spent.rest = [] := List.drop_length

section
variable {d : Decoder} (going : d.ended = false)
include going

theorem step_of_nothing (h : Command.fetch d.rest = .nothing) :
    d.step = ⟨(.ended .complete, { d with ended := true }), []⟩ := by
  have left : d.cursor.rest = [] := Command.eq_nil_of_fetch h
  simp only [step, going, Cursor.readByte_of_nil left, Bool.false_eq_true, if_false]

theorem step_of_unassigned {b : UInt8} (h : Command.fetch d.rest = .unassigned b) :
    d.step = ⟨(.ended (.unassigned b d.position), ⟨d.cursor.ahead 1, d.depth, true⟩), []⟩ := by
  obtain ⟨p, left, free⟩ := Command.eq_cons_of_fetch h
  simp only [step, going, Cursor.readByte_of_cons left, free, Bool.false_eq_true, if_false]

/-- A push is no closer, and its arguments are not read further than the program goes. -/
theorem step_of_cutOff {op : Operation} (h : Command.fetch d.rest = .cutOff op) :
    d.step = ⟨(.ended (.cutOff ⟨op, d.position, d.cursor.size⟩), d.spent),
      [.missingOperands ⟨op, d.position, d.cursor.size⟩]⟩ := by
  cases left : d.cursor.rest with
  | nil => rw [rest, left] at h; cases h
  | cons b p =>
      have behind := Cursor.rest_ahead_one left
      rw [rest, left, ← behind] at h
      obtain ⟨lookup, push, unread⟩ := Cursor.readArguments_of_cutOff h
      -- However many operands were read, the cursor is still in the program, and the rest of it
      -- is skipped.
      have within : (d.cursor.ahead 1).Within d.cursor.bytes := by
        have first := Cursor.Within.readByte ⟨rfl, Cursor.inBounds_of_cons left⟩
        rwa [Cursor.readByte_of_cons left] at first
      have stopped := within.readArguments op b
      simp only [step, going, Cursor.readByte_of_cons left, lookup, Bool.false_eq_true, if_false]
      split
      · rename_i c read
        rw [read] at stopped
        rw [stopped.seekBy_remaining, Cursor.size, stopped.bytes,
          (Operation.depth_of_isPush push d.depth).1]
        rfl
      · rename_i arguments c read
        rw [read] at unread
        cases unread

theorem step_of_command {c : Command} {p : Bytes} (h : Command.fetch d.rest = .command c p) :
    d.step = ⟨(.instruction (c.placed d.position (c.indentAt d.depth)), d.past c),
      [.decoded (c.placed d.position (c.indentAt d.depth))]⟩ := by
  obtain ⟨encoded, encodable⟩ := Command.eq_encode_append_of_fetch h
  have left : d.cursor.rest = c.opcode :: (c.countBytes ++ c.operandBytes ++ p) := encoded
  have behind := Cursor.rest_ahead_one left
  rw [rest, left, ← behind] at h
  obtain ⟨lookup, read⟩ := Cursor.readArguments_of_command h
  have size : 1 + (c.size - 1) = c.size := Nat.add_sub_cancel' c.size_pos
  have length : (d.cursor.ahead c.size).position - d.position = c.size :=
    Nat.add_sub_cancel_left _ _
  rw [Cursor.ahead_ahead, size] at read
  simp only [step, going, Cursor.readByte_of_cons left, lookup, read, length,
    ← Command.bits_eq encodable, Bool.false_eq_true, if_false]
  rfl

end

theorem step_of_ended {d : Decoder} (h : d.ended = true) :
    d.step = ⟨(.ended .complete, d), []⟩ := by
  simp only [step, h, if_true]

theorem next_of_ended {d : Decoder} (h : d.ended = true) : d.next = (.ended .complete, d) :=
  congrArg Logged.value (step_of_ended h)

/-- The event of a step is what the step yields. -/
theorem step_yields (d : Decoder) :
    (∃ i d', d.step = ⟨(.instruction i, d'), [.decoded i]⟩) ∨
      ∃ e d', d.step = ⟨(.ended e, d'), e.events⟩ := by
  rw [step]
  split
  · exact .inr ⟨_, _, rfl⟩
  · split
    · exact .inr ⟨_, _, rfl⟩
    · split
      · exact .inr ⟨_, _, rfl⟩
      · simp only
        split
        · exact .inr ⟨_, _, rfl⟩
        · exact .inl ⟨_, _, rfl⟩

theorem length_rest_lt_of_next {d d' : Decoder} {i : Instruction}
    (h : d.next = (.instruction i, d')) : d'.rest.length < d.rest.length := by
  cases going : d.ended with
  | true =>
      rw [next_of_ended going] at h
      cases h
  | false =>
      rw [next] at h
      cases fetched : Command.fetch d.rest with
      | nothing => rw [step_of_nothing going fetched] at h; cases h
      | unassigned b => rw [step_of_unassigned going fetched] at h; cases h
      | cutOff op => rw [step_of_cutOff going fetched] at h; cases h
      | command c p =>
          rw [step_of_command going fetched] at h
          cases h
          rw [rest_past (Command.eq_encode_append_of_fetch fetched).1]
          exact Command.length_lt_of_fetch fetched

/-- Takes up to `count` steps and tells how many instructions they yielded. -/
def skip : Nat → Decoder → Nat × Decoder
  | 0, d => (0, d)
  | count + 1, d =>
    match d.next with
    | (.instruction _, d) =>
      let (skipped, d) := skip count d
      (skipped + 1, d)
    | (.ended _, d) => (0, d)

end Decoder

/-! ## Whole walks -/

/-- The instructions of a walk, and how it ended. -/
structure Decoding where
  instructions : List Instruction
  ending : Ending

namespace Decoding

/-- The decoding with one more instruction in front. -/
def cons (i : Instruction) (d : Decoding) : Decoding :=
  { d with instructions := i :: d.instructions }

/-- Everything that the walk yielded, with the fault last. -/
def items (d : Decoding) : List (Except Fault Instruction) :=
  d.instructions.map .ok ++ (d.ending.fault?.map .error).toList

end Decoding

namespace Decoder

/-- Walks on to the end. -/
def run (d : Decoder) : Decoding :=
  match _taken : d.next with
  | (.instruction i, d') => (run d').cons i
  | (.ended e, _) => ⟨[], e⟩
termination_by d.rest.length
decreasing_by exact length_rest_lt_of_next ‹_›

theorem run_of_instruction {d d' : Decoder} {i : Instruction}
    (h : d.next = (.instruction i, d')) : d.run = d'.run.cons i := by
  rw [run]
  split
  · rename_i i' d'' h'
    rw [h] at h'
    cases h'
    rfl
  · rename_i h'
    rw [h] at h'
    cases h'

theorem run_of_ended {d d' : Decoder} {e : Ending} (h : d.next = (.ended e, d')) :
    d.run = ⟨[], e⟩ := by
  rw [run]
  split
  · rename_i h'
    rw [h] at h'
    cases h'
  · rename_i h'
    rw [h] at h'
    cases h'
    rfl

end Decoder

def decoding (program : Bytes) : Decoding := (Decoder.start program).run

end Hinting
