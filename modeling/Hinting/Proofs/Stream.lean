/-
# `Hinting.Proofs.Stream` — a program is commands, one after the other, and a tail

Every byte string is the bytes of commands that the format has room for, followed
by a **tail** that no command starts (`exists_split`), and it is so in one way only
(`Split.unique`).  The walk through it yields those commands in their places and
ends as the tail makes it end (`Split.decoding_eq`):

    byte string    encode c₁ … encode cₙ            r
    instructions   c₁, …, cₙ  (`place`)
    ending                                          `tailEnding`

The depth that the walk leaves is the depth that the commands leave
(`Split.depth_last`).

This is the only place where the walk itself is unfolded.  Whatever is said of a
decoding elsewhere is said of a list of commands, and two programs are compared by
comparing their lists.
-/
import Hinting.Client

namespace Hinting

/-! ## What a walk leaves behind -/

namespace Decoder

/-- The decoder that a walk leaves behind. -/
def last (d : Decoder) : Decoder :=
  match _step : d.next with
  | (.instruction _, d') => last d'
  | (.ended _, d') => d'
termination_by d.rest.length
decreasing_by exact length_rest_lt_of_next ‹_›

theorem last_of_instruction {d d' : Decoder} {i : Instruction}
    (h : d.next = (.instruction i, d')) : d.last = d'.last := by
  rw [last]
  split
  · rename_i h'
    rw [h] at h'
    cases h'
    rfl
  · rename_i h'
    rw [h] at h'
    cases h'

theorem last_of_ended {d d' : Decoder} {e : Ending} (h : d.next = (.ended e, d')) :
    d.last = d' := by
  rw [last]
  split
  · rename_i h'
    rw [h] at h'
    cases h'
  · rename_i h'
    rw [h] at h'
    cases h'
    rfl

end Decoder

/-! ## Commands in their places -/

namespace Stream

def bytes (cs : List Command) : Bytes := cs.flatMap Command.encode

def depth (start : Nat) (cs : List Command) : Nat :=
  cs.foldl (fun depth c => c.depthAfter depth) start

/-- The instructions that commands are, from an offset and a depth on. -/
def place (offset depth : Nat) : List Command → List Instruction
  | [] => []
  | c :: cs =>
    c.placed offset (c.indentAt depth) :: place (offset + c.size) (c.depthAfter depth) cs

@[simp] theorem bytes_nil : bytes [] = [] := rfl

@[simp] theorem bytes_cons (c : Command) (cs : List Command) :
    bytes (c :: cs) = c.encode ++ bytes cs := rfl

@[simp] theorem bytes_append (cs cs' : List Command) :
    bytes (cs ++ cs') = bytes cs ++ bytes cs' :=
  List.flatMap_append

theorem flatten_map_encode (cs : List Command) : (cs.map Command.encode).flatten = bytes cs := by
  rw [bytes, List.flatMap_def]

@[simp] theorem place_nil (o d : Nat) : place o d [] = [] := rfl

@[simp] theorem length_place : ∀ (o d : Nat) (cs : List Command),
    (place o d cs).length = cs.length := by
  intro o d cs
  induction cs generalizing o d with
  | nil => rfl
  | cons c cs ih => simp [place, ih]

theorem place_append : ∀ (o d : Nat) (cs cs' : List Command),
    place o d (cs ++ cs')
      = place o d cs ++ place (o + (bytes cs).length) (depth d cs) cs' := by
  intro o d cs cs'
  induction cs generalizing o d with
  | nil => rfl
  | cons c cs ih =>
      have offset : o + c.size + (bytes cs).length = o + (bytes (c :: cs)).length := by
        simp [Command.length_encode, Nat.add_assoc]
      simp only [List.cons_append, place, ih, offset]
      rfl

theorem getElem?_place : ∀ (o d : Nat) (cs : List Command) (k : Nat),
    (place o d cs)[k]? = cs[k]?.map fun c =>
      c.placed (o + (bytes (cs.take k)).length) (c.indentAt (depth d (cs.take k))) := by
  intro o d cs
  induction cs generalizing o d with
  | nil => intro k; rfl
  | cons c cs ih =>
      intro k
      cases k with
      | zero => rfl
      | succ k =>
          simp [place, ih, Command.length_encode, Nat.add_assoc]
          rfl

theorem eq_append_cons_of_place {o d : Nat} {cs : List Command} {is js : List Instruction}
    {i : Instruction} (h : place o d cs = is ++ i :: js) :
    ∃ before c after, cs = before ++ c :: after ∧ place o d before = is ∧
      i = c.placed (o + (bytes before).length) (c.indentAt (depth d before)) := by
  induction is generalizing o d cs with
  | nil =>
      cases cs with
      | nil => cases h
      | cons c cs => exact ⟨[], c, cs, rfl, rfl, (List.cons.inj h).1.symm⟩
  | cons j is ih =>
      cases cs with
      | nil => cases h
      | cons c cs =>
          obtain ⟨rfl, rest⟩ := List.cons.inj h
          obtain ⟨before, c', after, rfl, rfl, rfl⟩ := ih rest
          refine ⟨c :: before, c', after, rfl, rfl, ?_⟩
          simp [Command.length_encode, Nat.add_assoc]
          rfl

theorem bounds_of_mem_place {o d : Nat} {cs : List Command} {i : Instruction}
    (h : i ∈ place o d cs) :
    o ≤ i.offset ∧ 0 < i.length ∧ i.finish ≤ o + (bytes cs).length := by
  obtain ⟨is, js, listed⟩ := List.append_of_mem h
  obtain ⟨before, c, after, rfl, _, rfl⟩ := eq_append_cons_of_place listed
  refine ⟨Nat.le_add_right _ _, c.size_pos, ?_⟩
  rw [bytes_append, bytes_cons, List.length_append, List.length_append, c.length_encode]
  change o + (bytes before).length + c.size ≤ _
  omega

/-! ## Tails -/

/-- No command starts the byte string. -/
def IsTail (r : Bytes) : Prop := ∀ c rest, Command.fetch r ≠ .command c rest

/-- How a walk ends that has nothing left but a tail, which starts at an offset. -/
def tailEnding (offset : Nat) (r : Bytes) : Ending :=
  match Command.fetch r with
  | .nothing | .command _ _ => .complete
  | .unassigned opcode => .unassigned opcode offset
  | .cutOff op => .cutOff ⟨op, offset, offset + r.length⟩

theorem isTail_nil : IsTail [] := by
  intro c rest h
  cases h

theorem fetch_unassigned {b : UInt8} (h : Operation.ofOpcode? b = none) (r : Bytes) :
    Command.fetch (b :: r) = .unassigned b := by
  simp [Command.fetch, h]

theorem isTail_unassigned {b : UInt8} (h : Operation.ofOpcode? b = none) (r : Bytes) :
    IsTail (b :: r) := by
  intro c rest hf
  rw [fetch_unassigned h] at hf
  cases hf

theorem tailEnding_unassigned {b : UInt8} (h : Operation.ofOpcode? b = none) (offset : Nat)
    (r : Bytes) : tailEnding offset (b :: r) = .unassigned b offset := by
  simp [tailEnding, fetch_unassigned h]

theorem eq_nil_of_complete {offset : Nat} {r : Bytes} (h : IsTail r)
    (complete : tailEnding offset r = .complete) : r = [] := by
  unfold tailEnding at complete
  split at complete
  · rename_i none
    exact Command.eq_nil_of_fetch none
  · rename_i found
    exact absurd found (h _ _)
  · cases complete
  · cases complete

theorem tailEnding_fault?_eq_some {offset : Nat} {r : Bytes} {fault : Fault}
    (h : (tailEnding offset r).fault? = some fault) :
    ∃ b rest, r = b :: rest ∧ Operation.ofOpcode? b = none ∧
      fault = .unknownOpcode b offset := by
  unfold tailEnding at h
  split at h
  · cases h
  · cases h
  · rename_i b hf
    obtain ⟨rest, eq, free⟩ := Command.eq_cons_of_fetch hf
    exact ⟨b, rest, eq, free, (Option.some.inj h).symm⟩
  · cases h

/-! ## Splitting a byte string -/

/-- `p` is the bytes of the commands `cs`, followed by the tail `r`. -/
structure Split (p : Bytes) (cs : List Command) (r : Bytes) : Prop where
  encodable : ∀ c ∈ cs, c.IsEncodable
  tail : IsTail r
  eq : p = bytes cs ++ r

theorem Split.of_tail {r : Bytes} (h : IsTail r) : Split r [] r :=
  ⟨fun _ hc => absurd hc List.not_mem_nil, h, rfl⟩

theorem Split.cons {p : Bytes} {c : Command} {cs : List Command} {r : Bytes}
    (hc : c.IsEncodable) (h : Split p cs r) : Split (c.encode ++ p) (c :: cs) r :=
  ⟨List.forall_mem_cons.mpr ⟨hc, h.encodable⟩, h.tail, by rw [h.eq, bytes_cons, List.append_assoc]⟩

theorem Split.prepend {p : Bytes} {cs cs' : List Command} {r : Bytes}
    (hcs : ∀ c ∈ cs, c.IsEncodable) (h : Split p cs' r) :
    Split (bytes cs ++ p) (cs ++ cs') r := by
  refine ⟨?_, h.tail, by rw [h.eq, bytes_append, List.append_assoc]⟩
  intro c hc
  exact (List.mem_append.mp hc).elim (hcs c) (h.encodable c)

theorem Split.of_encodable {cs : List Command} (h : ∀ c ∈ cs, c.IsEncodable) :
    Split (bytes cs) cs [] :=
  ⟨h, isTail_nil, (List.append_nil _).symm⟩

/-- Every byte string is commands and a tail.  By induction on its length: a fetched
command leaves fewer bytes. -/
theorem exists_split (p : Bytes) : ∃ cs r, Split p cs r := by
  induction hn : p.length using Nat.strongRecOn generalizing p with
  | ind n ih =>
      by_cases started : ∃ c rest, Command.fetch p = .command c rest
      · obtain ⟨c, rest, hf⟩ := started
        obtain ⟨rfl, hc⟩ := Command.eq_encode_append_of_fetch hf
        obtain ⟨cs, r, h⟩ := ih rest.length (hn ▸ Command.length_lt_of_fetch hf) rest rfl
        exact ⟨c :: cs, r, .cons hc h⟩
      · exact ⟨[], p, .of_tail fun c rest hf => started ⟨c, rest, hf⟩⟩

/-- It is so in one way only: at each point the next command is the one fetched there. -/
theorem Split.unique {p : Bytes} {cs cs' : List Command} {r r' : Bytes}
    (h : Split p cs r) (h' : Split p cs' r') : cs = cs' ∧ r = r' := by
  induction cs generalizing p cs' with
  | nil =>
      cases cs' with
      | nil => exact ⟨rfl, by simpa using h.eq.symm.trans h'.eq⟩
      | cons c' cs' =>
          have e : r = c'.encode ++ (bytes cs' ++ r') := by
            simpa using h.eq.symm.trans h'.eq
          have hc' := h'.encodable c' List.mem_cons_self
          exact absurd (e ▸ Command.fetch_encode_append hc' _) (h.tail _ _)
  | cons c cs ih =>
      have hc := h.encodable c List.mem_cons_self
      have fetched : Command.fetch p = .command c (bytes cs ++ r) := by
        rw [h.eq, bytes_cons, List.append_assoc]
        exact Command.fetch_encode_append hc _
      cases cs' with
      | nil =>
          have e : p = r' := by simpa using h'.eq
          exact absurd (e ▸ fetched) (h'.tail _ _)
      | cons c' cs' =>
          have hc' := h'.encodable c' List.mem_cons_self
          have fetched' : Command.fetch p = .command c' (bytes cs' ++ r') := by
            rw [h'.eq, bytes_cons, List.append_assoc]
            exact Command.fetch_encode_append hc' _
          obtain ⟨rfl, e⟩ := Command.Fetched.command.inj (fetched.symm.trans fetched')
          obtain ⟨rfl, rfl⟩ := ih
            ⟨fun c hc => h.encodable c (List.mem_cons_of_mem _ hc), h.tail, rfl⟩
            ⟨fun c hc => h'.encodable c (List.mem_cons_of_mem _ hc), h'.tail, e⟩
          exact ⟨rfl, rfl⟩

/-! ## The walk -/

section
variable {d : Decoder} (going : d.ended = false)
include going

theorem next_of_isTail (h : IsTail d.rest) :
    ∃ d', d.next = (.ended (tailEnding d.position d.rest), d') ∧ d'.depth = d.depth := by
  rw [Decoder.next, tailEnding]
  cases fetched : Command.fetch d.rest with
  | nothing =>
      rw [Decoder.step_of_nothing going fetched]
      exact ⟨_, rfl, rfl⟩
  | unassigned b =>
      rw [Decoder.step_of_unassigned going fetched]
      exact ⟨_, rfl, rfl⟩
  | cutOff op =>
      have whole : d.position + d.rest.length = d.cursor.size := by
        obtain ⟨b, p, left⟩ := Command.exists_cons_of_cutOff fetched
        exact Cursor.position_add_length_rest (Cursor.inBounds_of_cons left)
      rw [Decoder.step_of_cutOff going fetched, whole]
      exact ⟨d.spent, rfl, rfl⟩
  | command c p => exact absurd fetched (h c p)

theorem next_of_encode {c : Command} (h : c.IsEncodable) {p : Bytes}
    (left : d.rest = c.encode ++ p) :
    d.next = (.instruction (c.placed d.position (c.indentAt d.depth)), d.past c) := by
  have fetched : Command.fetch d.rest = .command c p :=
    left ▸ Command.fetch_encode_append h p
  rw [Decoder.next, Decoder.step_of_command going fetched]

end

/-- The walk over commands, by induction on them: behind each the same holds of the rest. -/
theorem run_of_bytes {cs : List Command} (h : ∀ c ∈ cs, c.IsEncodable) {r : Bytes}
    (hr : IsTail r) {d : Decoder} (going : d.ended = false) (left : d.rest = bytes cs ++ r) :
    d.run = ⟨place d.position d.depth cs, tailEnding (d.position + (bytes cs).length) r⟩ := by
  induction cs generalizing d with
  | nil =>
      obtain rfl : d.rest = r := left
      obtain ⟨d', step, _⟩ := next_of_isTail going hr
      exact Decoder.run_of_ended step
  | cons c cs ih =>
      obtain ⟨hc, hcs⟩ := List.forall_mem_cons.mp h
      rw [bytes_cons, List.append_assoc] at left
      have later := ih hcs (d := d.past c) rfl (Decoder.rest_past left)
      rw [Decoder.run_of_instruction (next_of_encode going hc left), later, bytes_cons,
        List.length_append, c.length_encode, ← Nat.add_assoc]
      rfl

theorem depth_last_of_bytes {cs : List Command} (h : ∀ c ∈ cs, c.IsEncodable) {r : Bytes}
    (hr : IsTail r) {d : Decoder} (going : d.ended = false) (left : d.rest = bytes cs ++ r) :
    d.last.depth = depth d.depth cs := by
  induction cs generalizing d with
  | nil =>
      obtain rfl : d.rest = r := left
      obtain ⟨d', step, kept⟩ := next_of_isTail going hr
      exact (congrArg Decoder.depth (Decoder.last_of_ended step)).trans kept
  | cons c cs ih =>
      obtain ⟨hc, hcs⟩ := List.forall_mem_cons.mp h
      rw [bytes_cons, List.append_assoc] at left
      rw [Decoder.last_of_instruction (next_of_encode going hc left)]
      exact ih hcs rfl (Decoder.rest_past left)

theorem Split.depth_last {p : Bytes} {cs : List Command} {r : Bytes} (h : Split p cs r) :
    (Decoder.start p).last.depth = depth 0 cs :=
  depth_last_of_bytes h.encodable h.tail rfl h.eq

/-- The decoding of a byte string, read off its commands and its tail. -/
theorem Split.decoding_eq {p : Bytes} {cs : List Command} {r : Bytes} (h : Split p cs r) :
    decoding p = ⟨place 0 0 cs, tailEnding (bytes cs).length r⟩ := by
  have walk := run_of_bytes (d := .start p) h.encodable h.tail rfl h.eq
  rw [Decoder.position_start, Nat.zero_add] at walk
  exact walk

theorem decode_of_decoding {p : Bytes} {d : Decoding} (h : decoding p = d) :
    decode p = match d.ending.fault? with
      | some fault => .error fault
      | none => .ok d.instructions := by
  subst h
  exact congrArg Logged.value (decodeLogged_eq p)

theorem Split.decode_eq_match {p : Bytes} {cs : List Command} {r : Bytes} (h : Split p cs r) :
    decode p = match (tailEnding (bytes cs).length r).fault? with
      | some fault => .error fault
      | none => .ok (place 0 0 cs) :=
  decode_of_decoding h.decoding_eq

theorem Split.decode_eq {p : Bytes} {cs : List Command} {r : Bytes} (h : Split p cs r)
    (faultless : (tailEnding (bytes cs).length r).fault? = none) :
    decode p = .ok (place 0 0 cs) := by
  rw [h.decode_eq_match, faultless]

end Stream

end Hinting
