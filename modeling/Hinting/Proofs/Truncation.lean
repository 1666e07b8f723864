/-
# `Hinting.Proofs.Truncation` — a program cut short

Cutting a program short takes away the instructions that no longer fit, and a fault that it no
longer reaches, and nothing else (`decode_take`).  A cut falls between two commands, or within
one, or within the tail:

    commands   encode c₁ … encode cₖ │ …                  the commands before it
               encode c₁ … encode cₖ  enc│ode …            the same, and a tail
               encode c₁ … encode cₙ  r│                   all of them, and a tail

In each case what is left after the commands is a tail again: a command that can be fetched is
fetched from everything longer too (`Command.fetch_append`).  And a tail is at fault by its first
byte alone (`Stream.fault?_tailEnding`), which a part of a command does not share.
-/
import Hinting.Proofs.Stream

namespace Hinting

/-! ## Parts of tails and of commands -/

theorem Command.fetch_append {p rest : Bytes} {c : Command} (h : fetch p = .command c rest)
    (s : Bytes) : fetch (p ++ s) = .command c (rest ++ s) := by
  obtain ⟨rfl, hc⟩ := eq_encode_append_of_fetch h
  rw [List.append_assoc]
  exact fetch_encode_append hc _

theorem Command.fetch_encode {c : Command} (h : c.IsEncodable) :
    fetch c.encode = .command c [] := by
  have fetched := fetch_encode_append h []
  rw [List.append_nil] at fetched
  exact fetched

namespace Stream

theorem IsTail.take {r : Bytes} (h : IsTail r) (k : Nat) : IsTail (r.take k) := by
  intro c rest fetched
  have whole := Command.fetch_append fetched (r.drop k)
  rw [List.take_append_drop] at whole
  exact h _ _ whole

/-- A command cut short is a tail: nothing else can be fetched from it than itself. -/
theorem isTail_take_encode {c : Command} (h : c.IsEncodable) {k : Nat} (short : k < c.size) :
    IsTail (c.encode.take k) := by
  intro c' rest fetched
  have whole := Command.fetch_append fetched (c.encode.drop k)
  rw [List.take_append_drop, Command.fetch_encode h] at whole
  have left : rest ++ c.encode.drop k = [] := (Command.Fetched.command.inj whole).2.symm
  have long : c.encode.length ≤ k := List.drop_eq_nil_iff.mp (List.append_eq_nil_iff.mp left).2
  rw [c.length_encode] at long
  exact absurd short (Nat.not_lt_of_le long)

theorem fault?_tailEnding (offset : Nat) (r : Bytes) :
    (tailEnding offset r).fault? = r.head?.bind fun b =>
      if Operation.ofOpcode? b = none then some (.unknownOpcode b offset) else none := by
  cases r with
  | nil => rfl
  | cons b r =>
      cases owner : Operation.ofOpcode? b with
      | none => simp [tailEnding_unassigned owner, Ending.fault?, owner]
      | some op =>
          cases hf : (tailEnding offset (b :: r)).fault? with
          | none => simp [owner]
          | some fault =>
              obtain ⟨b', rest, same, free, _⟩ := tailEnding_fault?_eq_some hf
              obtain ⟨rfl, rfl⟩ := List.cons.inj same
              cases owner.symm.trans free

theorem fault?_tailEnding_take (offset : Nat) (r : Bytes) (k : Nat) :
    (tailEnding offset (r.take k)).fault? =
      if 0 < k then (tailEnding offset r).fault? else none := by
  rw [fault?_tailEnding, fault?_tailEnding, List.head?_take]
  rcases Nat.eq_zero_or_pos k with rfl | some_byte
  · rfl
  · rw [if_neg (Nat.ne_of_gt some_byte), if_pos some_byte]

theorem fault?_tailEnding_encode {c : Command} (h : c.IsEncodable) (offset : Nat) :
    (tailEnding offset c.encode).fault? = none := by
  rw [tailEnding, Command.fetch_encode h]
  rfl

/-! ## The cut -/

theorem take_encode_append {c : Command} {k : Nat} (fits : c.size ≤ k) (s : Bytes) :
    (c.encode ++ s).take k = c.encode ++ s.take (k - c.size) := by
  have whole : c.encode.take k = c.encode :=
    List.take_of_length_le (c.length_encode.symm ▸ fits)
  rw [List.take_append, whole, c.length_encode]

theorem take_encode_append_of_short {c : Command} {k : Nat} (short : k < c.size) (s : Bytes) :
    (c.encode ++ s).take k = c.encode.take k :=
  List.take_append_of_le_length (by rw [c.length_encode]; exact Nat.le_of_lt short)

theorem le_finish_of_mem_place {cs : List Command} : ∀ {c : Command} {o d : Nat} {i : Instruction},
    i ∈ place o d (c :: cs) → o + c.size ≤ i.finish := by
  induction cs with
  | nil =>
      intro c o d i hi
      obtain rfl := List.mem_singleton.mp hi
      exact Nat.le_refl _
  | cons c' cs ih =>
      intro c o d i hi
      rcases List.mem_cons.mp hi with rfl | later
      · exact Nat.le_refl _
      · exact Nat.le_trans (Nat.le_add_right _ _) (ih later)

/-- A row of commands and a tail, cut short.  By induction on the commands: the cut either lies
behind the first one, or leaves a tail of it and nothing of the others. -/
theorem exists_split_take {cs : List Command} (hcs : ∀ c ∈ cs, c.IsEncodable) {r : Bytes}
    (hr : IsTail r) : ∀ o d k : Nat, ∃ cs' r', Split ((bytes cs ++ r).take k) cs' r' ∧
      place o d cs' = (place o d cs).filter (fun i => i.finish ≤ o + k) ∧
      (tailEnding (o + (bytes cs').length) r').fault? =
        if (bytes cs).length < k then (tailEnding (o + (bytes cs).length) r).fault? else none := by
  induction cs with
  | nil =>
      intro o d k
      exact ⟨[], r.take k, .of_tail (hr.take k), rfl, fault?_tailEnding_take _ r k⟩
  | cons c cs ih =>
      intro o d k
      obtain ⟨hc, hcs⟩ := List.forall_mem_cons.mp hcs
      rw [bytes_cons, List.append_assoc, List.length_append, c.length_encode]
      by_cases fits : c.size ≤ k
      · obtain ⟨cs', r', split, kept, fault⟩ := ih hcs (o + c.size) (c.depthAfter d) (k - c.size)
        rw [take_encode_append fits]
        refine ⟨c :: cs', r', split.cons hc, ?_, ?_⟩
        · have first : (c.placed o (c.indentAt d)).finish ≤ o + k := Nat.add_le_add_left fits o
          have edge : o + c.size + (k - c.size) = o + k := by omega
          rw [place, place, kept, edge, List.filter_cons_of_pos]
          exact decide_eq_true first
        · have reached : (bytes cs).length < k - c.size ↔ c.size + (bytes cs).length < k := by omega
          rw [bytes_cons, List.length_append, c.length_encode, ← Nat.add_assoc, fault]
          simp only [reached, Nat.add_assoc]
      · have short : k < c.size := Nat.lt_of_not_le fits
        rw [take_encode_append_of_short short]
        refine ⟨[], c.encode.take k, .of_tail (isTail_take_encode hc short), ?_, ?_⟩
        · refine (List.filter_eq_nil_iff.mpr fun i hi => ?_).symm
          have behind := le_finish_of_mem_place hi
          rw [decide_eq_true_eq]
          omega
        -- The part that is left starts with the opcode of the command, which is assigned.
        · rw [fault?_tailEnding_take, fault?_tailEnding_encode hc, ite_self, if_neg (by omega)]

end Stream

/-- **A program cut short** decodes to the instructions that end within it.  A fault is kept if
the cut leaves its byte, and is gone otherwise. -/
theorem decode_take (p : Bytes) (k : Nat) :
    decode (p.take k) = match decode p with
      | .ok is => .ok (is.filter fun i => i.finish ≤ k)
      | .error f =>
        if f.offset < k then .error f
        else .ok ((decoding p).instructions.filter fun i => i.finish ≤ k) := by
  obtain ⟨cs, r, split⟩ := Stream.exists_split p
  obtain ⟨cs', r', cut, kept, fault⟩ :=
    Stream.exists_split_take split.encodable split.tail 0 0 k
  rw [← split.eq] at cut
  rw [Nat.zero_add] at kept
  rw [Nat.zero_add, Nat.zero_add] at fault
  rw [cut.decode_eq_match, split.decode_eq_match, split.decoding_eq, kept, fault]
  cases hf : (Stream.tailEnding (Stream.bytes cs).length r).fault? with
  | none => rw [ite_self]
  | some f =>
      obtain ⟨b, rest, _, _, rfl⟩ := Stream.tailEnding_fault?_eq_some hf
      by_cases reached : (Stream.bytes cs).length < k
      · rw [if_pos reached]
        exact (if_pos reached).symm
      · rw [if_neg reached]
        exact (if_neg reached).symm

end Hinting
