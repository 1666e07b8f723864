/-
# `Hinting.Client` — taking the instructions of a walk one by one

A client takes one instruction after another into a state of its own.  It may refuse
one, and then the walk stops there.  A fault of the walk is handed to the client too,
which may add to it before it is reported.

`Client.follow` takes each instruction as soon as it is decoded, so that the events are
those of the steps made and no others.  What comes of it can be told from the finished
walk all the same (`Client.follow_eq`), and later proofs go by the list of instructions
(`Client.takeAll`).

Decoding a program is the client that keeps everything.
-/
import Hinting.Decoder

namespace Hinting

structure Client (σ : Type) where
  take : σ → Instruction → Except Fault σ
  /-- What is reported of a fault of the walk. -/
  blame : σ → Fault → Fault

namespace Client
variable {σ : Type} (client : Client σ)

/-- Walks on until the walk ends or an instruction is refused. -/
def follow (s : σ) (d : Decoder) : Logged (Except Fault σ) :=
  match _taken : d.step with
  | ⟨(.instruction i, d'), events⟩ =>
    match client.take s i with
    | .error fault => ⟨.error fault, events⟩
    | .ok s => (follow s d').after events
  | ⟨(.ended e, _), events⟩ =>
    match e.fault? with
    | some fault => ⟨.error (client.blame s fault), events⟩
    | none => ⟨.ok s, events⟩
termination_by d.rest.length
decreasing_by exact Decoder.length_rest_lt_of_next (congrArg Logged.value ‹_›)

/-- Takes the instructions of a walk that is finished. -/
def takeAll (ending : Ending) (s : σ) : List Instruction → Logged (Except Fault σ)
  | [] =>
    match ending.fault? with
    | some fault => ⟨.error (client.blame s fault), ending.events⟩
    | none => ⟨.ok s, ending.events⟩
  | i :: rest =>
    match client.take s i with
    | .error fault => ⟨.error fault, [.decoded i]⟩
    | .ok s => (takeAll ending s rest).after [.decoded i]

section
variable {ending : Ending} {s : σ} {i : Instruction}

theorem takeAll_of_ok {s' : σ} (h : client.take s i = .ok s') (is : List Instruction) :
    client.takeAll ending s (i :: is) = (client.takeAll ending s' is).after [.decoded i] := by
  rw [takeAll, h]

theorem takeAll_of_error {fault : Fault} (h : client.take s i = .error fault)
    (is : List Instruction) :
    client.takeAll ending s (i :: is) = ⟨.error fault, [.decoded i]⟩ := by
  rw [takeAll, h]

end

section
variable {d d' : Decoder} {events : List Event}

theorem follow_of_instruction {i : Instruction} (h : d.step = ⟨(.instruction i, d'), events⟩)
    (s : σ) : client.follow s d =
      match client.take s i with
      | .error fault => ⟨.error fault, events⟩
      | .ok s => (client.follow s d').after events := by
  rw [follow]
  split
  · rename_i taken
    obtain ⟨⟨rfl, rfl⟩, rfl⟩ := by simpa only [Logged.mk.injEq, Prod.mk.injEq,
      Decoder.Step.instruction.injEq] using h.symm.trans taken
    rfl
  · rename_i taken
    cases h.symm.trans taken

theorem follow_of_ended {e : Ending} (h : d.step = ⟨(.ended e, d'), events⟩) (s : σ) :
    client.follow s d =
      match e.fault? with
      | some fault => ⟨.error (client.blame s fault), events⟩
      | none => ⟨.ok s, events⟩ := by
  rw [follow]
  split
  · rename_i taken
    cases h.symm.trans taken
  · rename_i taken
    obtain ⟨⟨rfl, rfl⟩, rfl⟩ := by simpa only [Logged.mk.injEq, Prod.mk.injEq,
      Decoder.Step.ended.injEq] using h.symm.trans taken
    rfl

end

/-- **To take in step is to take from the finished walk.**  By induction on the bytes that
are left: each step reports what it yields, and nothing else is reported. -/
theorem follow_eq (s : σ) (d : Decoder) :
    client.follow s d = client.takeAll d.run.ending s d.run.instructions := by
  induction hn : d.rest.length using Nat.strongRecOn generalizing s d with
  | ind n ih =>
      rcases d.step_yields with ⟨i, d', step⟩ | ⟨e, d', step⟩
      · have next : d.next = (.instruction i, d') := congrArg Logged.value step
        rw [follow_of_instruction client step, Decoder.run_of_instruction next]
        show _ = client.takeAll d'.run.ending s (i :: d'.run.instructions)
        cases taken : client.take s i with
        | error fault => rw [takeAll_of_error client taken]
        | ok s' =>
            -- The client goes on with what it has, so both `s` and `d` are new.
            have rest := ih _ (hn ▸ Decoder.length_rest_lt_of_next next) s' d' rfl
            rw [takeAll_of_ok client taken, ← rest]
      · have next : d.next = (.ended e, d') := congrArg Logged.value step
        rw [follow_of_ended client step, Decoder.run_of_ended next]
        rfl

/-! ## Keeping everything -/

/-- The client that keeps every instruction. -/
def keep : Client (Array Instruction) where
  take kept i := .ok (kept.push i)
  blame _ fault := fault

theorem takeAll_keep (ending : Ending) : ∀ (is : List Instruction) (kept : Array Instruction),
    (keep.takeAll ending kept is).map (·.map Array.toList) =
      ⟨match ending.fault? with
        | some fault => .error fault
        | none => .ok (kept.toList ++ is),
      is.map .decoded ++ ending.events⟩ := by
  intro is
  induction is with
  | nil =>
      intro kept
      rw [takeAll, List.append_nil]
      cases ending.fault? <;> rfl
  | cons i is ih =>
      intro kept
      have rest := ih (kept.push i)
      rw [Array.toList_push, List.append_assoc] at rest
      exact congrArg (Logged.after [.decoded i]) rest

end Client

/-! ## Decoding a program -/

/-- The instructions of a program, with the events of the run. -/
def decodeLogged (program : Bytes) : Logged (Except Fault (List Instruction)) :=
  (Client.keep.follow #[] (.start program)).map (·.map Array.toList)

def decode (program : Bytes) : Except Fault (List Instruction) := (decodeLogged program).value

theorem decodeLogged_eq (p : Bytes) :
    decodeLogged p =
      ⟨match (decoding p).ending.fault? with
        | some fault => .error fault
        | none => .ok (decoding p).instructions,
      (decoding p).instructions.map .decoded ++ (decoding p).ending.events⟩ := by
  rw [decodeLogged, Client.follow_eq]
  exact Client.takeAll_keep _ _ #[]

end Hinting
