/-
# `Hinting.Proofs.Openers` — the depth as a number of openers

The depth of an instruction is laid down here without a counter, and in two ways.

A **scan** goes through the instructions and keeps the openers it has met (`Opener`).  A
closer cancels the nearest one that is not cancelled yet, and none if there is none; then
an opener joins them.  The depth is the number of openers that are left.

A **walk** has a step down for each closer and a step up for each opener.  It may go below
the height where it starts, which the depth never does: the depth is the height above the
lowest point so far (`level`).

    operations   IF  EIF  EIF  IF   ELSE   EIF
    steps        +1  -1   -1   +1   -1 +1  -1
    heights    0  1   0   -1   0   -1  0   -1
    lowest     0  0   0   -1  -1   -1 -1   -1
    depth      0  1   0    0   1    0  1    0

Both agree with the counter because each of their steps does to the number what the
counter does: a closer takes one away unless there is nothing to take (`left_cancel`,
`level_closing`), and an opener adds one.  The height may be anything, so what carries the
second argument is that the lowest point is passed on from step to step
(`lowest_append_singleton`).
-/
import Mathlib
import Hinting.Proofs.Blocks
import Hinting.Proofs.Sessions

namespace Hinting

/-! ## The scan -/

/-- An instruction that opens a block, and whether it has been cancelled since. -/
structure Opener where
  instruction : Instruction
  cancelled : Bool

namespace Opener

/-- Cancels the first opener in the row that is not cancelled yet, if there is one. -/
def cancel : List Opener → List Opener
  | [] => []
  | o :: os => if o.cancelled then o :: cancel os else { o with cancelled := true } :: os

def afterClosing (i : Instruction) (os : List Opener) : List Opener :=
  if i.operation.closesBlock then cancel os else os

def afterOpening (i : Instruction) (os : List Opener) : List Opener :=
  if i.operation.opensBlock then ⟨i, false⟩ :: os else os

/-- The openers met in instructions, the nearest first. -/
def met (is : List Instruction) : List Opener :=
  is.foldl (fun os i => afterOpening i (afterClosing i os)) []

/-- How many openers are not cancelled. -/
def left (os : List Opener) : Nat := os.countP fun o => !o.cancelled

theorem left_cons (o : Opener) (os : List Opener) :
    left (o :: os) = left os + if o.cancelled then 0 else 1 := by
  rw [left, List.countP_cons]
  cases o.cancelled <;> rfl

theorem left_cancel (os : List Opener) : left (cancel os) = left os - 1 := by
  induction os with
  | nil => rfl
  | cons o os ih =>
      simp only [cancel]
      split
      · rename_i before
        rw [left_cons, left_cons, if_pos before, Nat.add_zero, Nat.add_zero]
        exact ih
      · rename_i fresh
        rw [left_cons, left_cons, if_neg fresh]
        rfl

theorem left_afterClosing (i : Instruction) (os : List Opener) :
    left (afterClosing i os) = i.operation.indentAt (left os) := by
  rw [afterClosing, Operation.indentAt]
  split
  · exact left_cancel os
  · rfl

theorem left_afterOpening (i : Instruction) (os : List Opener) :
    left (afterOpening i os) = i.operation.depthAfter (left os) := by
  rw [afterOpening, Operation.depthAfter]
  split
  · exact left_cons _ os
  · rfl

theorem left_met (is : List Instruction) :
    left (met is) = Nesting.depth 0 (is.map Instruction.operation) := by
  have onward : ∀ os : List Opener,
      left (is.foldl (fun os i => afterOpening i (afterClosing i os)) os)
        = Nesting.depth (left os) (is.map Instruction.operation) := by
    induction is with
    | nil => intro os; rfl
    | cons i is ih =>
        intro os
        rw [List.foldl_cons, ih, left_afterOpening, left_afterClosing]
        rfl
  exact onward []

end Opener

/-! ## The walk -/

def Operation.closingStep (op : Operation) : List Int := if op.closesBlock then [-1] else []

def Operation.openingStep (op : Operation) : List Int := if op.opensBlock then [1] else []

namespace Nesting

/-- The steps of operations in turn. -/
def walk (ops : List Operation) : List Int :=
  ops.flatMap fun op => op.closingStep ++ op.openingStep

/-- The lowest height on the way, or zero if all are above it. -/
def lowest (steps : List Int) : Int := steps.partialSums.foldl min 0

/-- The height where the steps lead, above the lowest. -/
def level (steps : List Int) : Int := steps.sum - lowest steps

theorem lowest_append_singleton (steps : List Int) (s : Int) :
    lowest (steps ++ [s]) = min (lowest steps) (steps.sum + s) := by
  have last : [s].partialSums = [0, s] := by simp [List.partialSums_cons]
  rw [lowest, List.partialSums_append, List.foldl_append, last]
  rfl

theorem lowest_le_sum (steps : List Int) : lowest steps ≤ steps.sum := by
  induction steps using List.reverseRecOn with
  | nil => exact le_refl 0
  | append_singleton steps s _ =>
      rw [lowest_append_singleton, List.sum_append, List.sum_singleton]
      exact min_le_right _ _

theorem level_append_singleton (steps : List Int) (s : Int) :
    level (steps ++ [s]) = max 0 (level steps + s) := by
  have above := lowest_le_sum steps
  simp only [level, lowest_append_singleton, List.sum_append, List.sum_singleton]
  omega

section
variable {steps : List Int} {d : Nat} (h : (d : Int) = level steps) (op : Operation)
include h

theorem level_closing : (op.indentAt d : Int) = level (steps ++ op.closingStep) := by
  rw [Operation.indentAt, Operation.closingStep]
  split
  · rw [level_append_singleton, ← h]
    omega
  · rw [List.append_nil]
    exact h

theorem level_opening : (op.depthAfter d : Int) = level (steps ++ op.openingStep) := by
  rw [Operation.depthAfter, Operation.openingStep]
  split
  · rw [level_append_singleton, ← h]
    omega
  · rw [List.append_nil]
    exact h

end

/-- The walk stands as high above its lowest point as the counter says. -/
theorem level_walk (ops : List Operation) : (depth 0 ops : Int) = level (walk ops) := by
  have onward : ∀ (steps : List Int) (d : Nat), (d : Int) = level steps →
      (depth d ops : Int) = level (steps ++ walk ops) := by
    induction ops with
    | nil =>
        intro steps d h
        rw [walk, List.flatMap_nil, List.append_nil]
        exact h
    | cons op ops ih =>
        intro steps d h
        have one := level_opening (level_closing h op) op
        have rest := ih _ _ one
        rw [walk, List.flatMap_cons, ← List.append_assoc, ← List.append_assoc]
        exact rest
  exact onward [] 0 rfl

end Nesting

/-! ## Programs -/

open Nesting

/-- The depth after a number of steps is that of the commands they have passed, also where the
walk has ended before. -/
theorem Stream.depth_afterAll {r : Bytes} (hr : IsTail r) : ∀ (count : Nat) {cs : List Command},
    (∀ c ∈ cs, c.IsEncodable) → ∀ d : Decoder, d.ended = false → d.rest = bytes cs ++ r →
      (d.afterAll (.replicate count .next)).depth = depth d.depth (cs.take count) := by
  intro count
  induction count with
  | zero => intro cs _ d _ _; rfl
  | succ count ih =>
      intro cs hcs d going left
      rw [List.replicate_succ, Decoder.afterAll, Decoder.after]
      cases cs with
      | nil =>
          obtain rfl : d.rest = r := left
          obtain ⟨d', step, kept⟩ := next_of_isTail going hr
          rw [step, Decoder.afterAll_of_ended (Decoder.ended_of_next step)]
          exact kept
      | cons c cs =>
          obtain ⟨hc, hcs⟩ := List.forall_mem_cons.mp hcs
          rw [bytes_cons, List.append_assoc] at left
          rw [next_of_encode going hc left, List.take_succ_cons]
          exact ih hcs (d.past c) rfl (Decoder.rest_past left)

/-- **The indentation is the number of openers left.**  An instruction of a program stands at
the number of openers before it that are left after its own closing step, and the depth of
a decoder after any number of steps is the number of openers left in what it has yielded.
Both are the height of the walk above its lowest point. -/
theorem indent_eq_left (p : Bytes) :
    (∀ before i after, (decoding p).instructions = before ++ i :: after →
      i.indent = Opener.left (Opener.afterClosing i (Opener.met before)) ∧
      (i.indent : Int)
        = level (walk (before.map Instruction.operation) ++ i.operation.closingStep)) ∧
    ∀ count,
      ((Decoder.start p).afterAll (.replicate count .next)).depth
        = Opener.left (Opener.met ((decoding p).instructions.take count)) ∧
      (((Decoder.start p).afterAll (.replicate count .next)).depth : Int)
        = level (walk (((decoding p).instructions.take count).map Instruction.operation)) := by
  obtain ⟨cs, r, split⟩ := Stream.exists_split p
  have indented : Indented 0 (decoding p).instructions := by
    rw [split.decoding_eq]
    exact Stream.indented_place 0 0 cs
  constructor
  · intro before i after listed
    rw [listed] at indented
    obtain ⟨_, here⟩ := indented_append.mp indented
    obtain ⟨indent, _⟩ := indented_cons.mp here
    constructor
    · rw [Opener.left_afterClosing, Opener.left_met]
      exact indent
    · rw [indent]
      exact level_closing (level_walk _) i.operation
  · intro count
    have counted : ((Decoder.start p).afterAll (.replicate count .next)).depth
        = Nesting.depth 0 (((decoding p).instructions.take count).map Instruction.operation) := by
      have passed := Stream.depth_afterAll split.tail count split.encodable (.start p) rfl split.eq
      rw [split.decoding_eq, List.map_take, Stream.map_operation_place, ← List.map_take,
        ← Stream.depth_eq]
      exact passed
    constructor
    · rw [Opener.left_met]
      exact counted
    · rw [counted]
      exact level_walk _

/-- The operations of the table above.  The `ELSE` cancels the second `IF`, for the first one is
cancelled already, and stands without an opener around it; then it is one itself. -/
theorem indent_eq_left_surplus :
    (decoding [0x58, 0x59, 0x59, 0x58, 0x1b, 0x59]).instructions
        = Stream.place 0 0 [.plain .IF 0, .plain .EIF 0, .plain .EIF 0, .plain .IF 0]
          ++ (Command.plain .ELSE 0).placed 4 0 :: [(Command.plain .EIF 0).placed 5 0] ∧
      Opener.left (Opener.afterClosing ((Command.plain .ELSE 0).placed 4 0) (Opener.met
        (Stream.place 0 0 [.plain .IF 0, .plain .EIF 0, .plain .EIF 0, .plain .IF 0]))) = 0 ∧
      ((Decoder.start [0x58, 0x59, 0x59, 0x58, 0x1b, 0x59]).afterAll
        (.replicate 5 .next)).depth = 1 := by
  have decoded : (decoding [0x58, 0x59, 0x59, 0x58, 0x1b, 0x59]).instructions
      = Stream.place 0 0 [.plain .IF 0, .plain .EIF 0, .plain .EIF 0, .plain .IF 0]
        ++ (Command.plain .ELSE 0).placed 4 0 :: [(Command.plain .EIF 0).placed 5 0] := by cbv
  obtain ⟨indents, depths⟩ := indent_eq_left [0x58, 0x59, 0x59, 0x58, 0x1b, 0x59]
  refine ⟨decoded, (indents _ _ _ decoded).1.symm, (depths 5).1.trans ?_⟩
  rw [decoded]
  decide

end Hinting
