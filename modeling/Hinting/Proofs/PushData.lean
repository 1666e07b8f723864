/-
# `Hinting.Proofs.PushData` — push data is never read as anything else

A byte among the operands of a push may hold any value, also that of an opcode which opens
a block or belongs to no operation.  Replacing it changes one value of that push and nothing
else of the decoding (`decoding_set_operand`):

    program        …  PUSHW[…]  h₀ l₀  h₁ l₁  …        …  PUSHW[…]  h₀ l₀  v l₁  …
    instructions   …  push [a₀, a₁]  …                 …  push [a₀, b]  …

Where an instruction ends is said by its opcode and its count byte alone, and neither is an
operand.  So the changed bytes are again the bytes of commands, the same but for one value
(`Stream.Split.set_operand`), and a push that the end cuts off is cut off again
(`Format.CutsOff.set_operand`).  The two runs are never followed step by step: each is read
off its commands.
-/
import Hinting.Proofs.Format

namespace Hinting

/-! ## Where operands lie -/

/-- The number of bytes of a push before its operands: the opcode, and the count if it has a
byte of its own. -/
def Operation.headSize (op : Operation) : Nat := if op.hasInlineCount then 1 else 2

/-- The offset of the first operand byte of a push. -/
def Instruction.operandsFrom (i : Instruction) : Nat := i.offset + i.operation.headSize

/-- The offset where the operands of a push that is cut off start. -/
def CutOff.operandsFrom (push : CutOff) : Nat := push.offset + push.operation.headSize

/-- Byte `k` of a row of operands belongs to the one at an index. -/
def PushWidth.Covers (w : PushWidth) (index k : Nat) : Prop :=
  w.size * index ≤ k ∧ k < w.size * (index + 1)

/-! ## One byte of a command -/

namespace PushWidth

variable {w : PushWidth}

theorem exists_encode_set {u : Int} {k : Nat} (hk : k < w.size) (v : UInt8) :
    ∃ a, w.holds a = true ∧ (w.encode u).set k v = w.encode a := by
  cases w with
  | byte =>
      obtain rfl : k = 0 := Nat.lt_one_iff.mp hk
      have := v.toNat_lt
      refine ⟨v.toNat, ?_, by simp [encode]⟩
      simp only [holds, Bool.and_eq_true, decide_eq_true_eq]
      omega
  | word =>
      have held : ∀ h l, holds .word (Word.ofBytes h l) = true := by
        intro h l
        simpa [holds] using Word.ofBytes_range h l
      rcases (show k = 0 ∨ k = 1 by simp only [size] at hk; omega) with rfl | rfl
      · exact ⟨Word.ofBytes v (Word.low u), held _ _, by simp [encode]⟩
      · exact ⟨Word.ofBytes (Word.high u) v, held _ _, by simp [encode]⟩

/-- A byte in a row of operands belongs to one of them, and only that one changes. -/
theorem exists_encodeMany_set (v : UInt8) : ∀ {vs : List Int} {k : Nat},
    k < w.size * vs.length → ∃ n a, n < vs.length ∧ w.Covers n k ∧ w.holds a = true ∧
      (w.encodeMany vs).set k v = w.encodeMany (vs.set n a) := by
  intro vs
  induction vs with
  | nil => intro k hk; exact absurd hk (Nat.not_lt_zero k)
  | cons u us ih =>
      intro k hk
      have width : (w.encode u).length = w.size := length_encode w u
      rw [List.length_cons, Nat.mul_succ] at hk
      by_cases first : k < w.size
      · obtain ⟨a, held, same⟩ := exists_encode_set (u := u) first v
        refine ⟨0, a, Nat.succ_pos _, ⟨Nat.zero_le k, by simpa using first⟩, held, ?_⟩
        rw [encodeMany, List.flatMap_cons, List.set_append_left _ _ (by omega), same]
        rfl
      · obtain ⟨n, a, inside, covers, held, same⟩ := ih (k := k - w.size) (by omega)
        refine ⟨n + 1, a, Nat.succ_lt_succ inside, ?_, held, ?_⟩
        · simp only [Covers, Nat.mul_succ] at covers ⊢
          omega
        · rw [encodeMany, List.flatMap_cons, List.set_append_right _ _ (by omega), width]
          exact congrArg (w.encode u ++ ·) same

end PushWidth

theorem Command.exists_encode_set {op : Operation} {w : PushWidth} {vs : List Int} {k : Nat}
    (h : (push op vs).IsEncodable) (kind : op.pushWidth? = some w)
    (hk : k < w.size * vs.length) (v : UInt8) :
    ∃ n a, n < vs.length ∧ w.Covers n k ∧ (push op (vs.set n a)).IsEncodable ∧
      (push op vs).encode.set (op.headSize + k) v = (push op (vs.set n a)).encode := by
  obtain ⟨w', kind', admitted, held⟩ := h
  obtain rfl := Option.some.inj (kind.symm.trans kind')
  obtain ⟨n, a, inside, covers, held_a, same⟩ := PushWidth.exists_encodeMany_set v hk
  refine ⟨n, a, inside, covers, ⟨w, kind, ?_, ?_⟩, ?_⟩
  · rw [List.length_set]
    exact admitted
  · intro b hb
    rcases List.mem_or_eq_of_mem_set hb with old | rfl
    · exact held b old
    · exact held_a
  · have operands : ∀ us, (push op us).operandBytes = w.encodeMany us := by
      intro us
      rw [operandBytes, kind]
    rw [encode, encode, operands, operands, ← same, opcode, opcode, countBytes, countBytes,
      List.length_set, Operation.headSize]
    cases op.hasInlineCount with
    | true => simp [Nat.add_comm 1 k]
    | false => simp [Nat.add_comm 2 k]

theorem Command.size_push {op : Operation} {w : PushWidth} (kind : op.pushWidth? = some w)
    (vs : List Int) : (push op vs).size = op.headSize + w.size * vs.length := by
  rw [size, kind, Operation.headSize]
  cases op.hasInlineCount <;> rfl

theorem Command.placed_push {op : Operation} {vs vs' : List Int} (h : vs'.length = vs.length)
    (offset indent : Nat) : (push op vs').placed offset indent
      = { (push op vs).placed offset indent with arguments := vs' } := by
  simp [placed, size, opcode, operation, arguments, bits, h]

/-! ## One byte of a program -/

namespace Stream

section
variable {before after : List Command} {op : Operation} {vs vs' : List Int}
  (h : vs'.length = vs.length)
include h

theorem length_bytes_push :
    (bytes (before ++ .push op vs' :: after)).length
      = (bytes (before ++ .push op vs :: after)).length := by
  simp [Command.length_encode, Command.size, h]

/-- What stands around a push does not depend on its values. -/
theorem place_push {o d : Nat} {i : Instruction} {is : List Instruction}
    (listed : place o d (before ++ .push op vs :: after) = place o d before ++ i :: is) :
    place o d (before ++ .push op vs' :: after)
      = place o d before ++ { i with arguments := vs' } :: is := by
  rw [place_append] at listed ⊢
  obtain ⟨rfl, rfl⟩ := List.cons.inj (List.append_cancel_left listed)
  have size : (Command.push op vs').size = (Command.push op vs).size := by
    simp only [Command.size, h]
  rw [place, Command.placed_push h, size]
  rfl

end

end Stream

theorem Stream.Split.set_operand {p r : Bytes} {before after : List Command} {op : Operation}
    {vs : List Int} {w : PushWidth} {k : Nat} (h : Split p (before ++ .push op vs :: after) r)
    (kind : op.pushWidth? = some w) (hk : k < w.size * vs.length) (v : UInt8) :
    ∃ n a, n < vs.length ∧ w.Covers n k ∧
      Split (p.set ((bytes before).length + (op.headSize + k)) v)
        (before ++ .push op (vs.set n a) :: after) r := by
  have here := h.encodable (.push op vs) (by simp)
  obtain ⟨n, a, inside, covers, encodable, same⟩ := Command.exists_encode_set here kind hk v
  have within : op.headSize + k < (Command.push op vs).encode.length := by
    rw [Command.length_encode, Command.size_push kind]
    omega
  refine ⟨n, a, inside, covers, ?_, h.tail, ?_⟩
  · intro c hc
    rcases List.mem_append.mp hc with old | rest
    · exact h.encodable c (List.mem_append_left _ old)
    · rcases List.mem_cons.mp rest with rfl | old
      · exact encodable
      · exact h.encodable c (List.mem_append_right _ (List.mem_cons_of_mem _ old))
  · rw [h.eq, bytes_append, bytes_append, bytes_cons, bytes_cons, ← same, List.append_assoc,
      List.append_assoc, List.append_assoc, List.append_assoc,
      List.set_append_right _ _ (Nat.le_add_right _ _), Nat.add_sub_cancel_left,
      List.set_append_left _ _ within]

theorem Format.CutsOff.set_operand {op : Operation} {r : Bytes} (h : CutsOff op r) {k : Nat}
    (hk : op.headSize ≤ k) (v : UInt8) : CutsOff op (r.set k v) := by
  cases h with
  | inline one eight opcode short =>
      simp only [Operation.headSize, PushWidth.hasInlineCount_inlinePush, if_true] at hk
      obtain ⟨k, rfl⟩ := Nat.exists_eq_add_of_le' hk
      exact .inline one eight opcode (by rwa [List.length_set])
  | uncounted opcode =>
      simp only [Operation.headSize, PushWidth.hasInlineCount_countedPush] at hk
      rw [List.set_eq_of_length_le (Nat.le_of_lt hk)]
      exact .uncounted opcode
  | counted opcode short =>
      simp only [Operation.headSize, PushWidth.hasInlineCount_countedPush] at hk
      obtain ⟨k, rfl⟩ := Nat.exists_eq_add_of_le' hk
      exact .counted opcode (by rwa [List.length_set])

theorem Stream.Split.set_cutOff {p r : Bytes} {cs : List Command} (h : Split p cs r)
    {push : CutOff} (ending : tailEnding (bytes cs).length r = .cutOff push) {k : Nat}
    (hk : push.operandsFrom ≤ k) (v : UInt8) :
    ∃ r', Split (p.set k v) cs r' ∧ tailEnding (bytes cs).length r' = .cutOff push := by
  obtain ⟨cut, offset, programEnd⟩ := Format.cutsOff_of_tailEnding ending
  have behind : (bytes cs).length + push.operation.headSize ≤ k := offset ▸ hk
  have again := cut.set_operand (k := k - (bytes cs).length) (by omega) v
  refine ⟨r.set (k - (bytes cs).length) v, ⟨h.encodable, ?_, ?_⟩, ?_⟩
  · exact Format.isTail_iff.mpr (.inr (.inl ⟨_, again⟩))
  · rw [h.eq, List.set_append_right _ _ (by omega)]
  · rw [tailEnding, again.fetch, List.length_set]
    cases push
    subst offset programEnd
    rfl

/-- **Push data is never interpreted.**  A byte of the program is replaced.  If it lies in the
operands of a push, it belongs to one value of the push; the program decodes to the same
instructions but for that value, and ends as before.  If it lies in the operands of a push
that is cut off, the decoding is the same. -/
theorem decoding_set_operand (p : Bytes) (k : Nat) (v : UInt8) :
    (∀ before i after w, (decoding p).instructions = before ++ i :: after →
      i.operation.pushWidth? = some w → i.operandsFrom ≤ k → k < i.finish →
      ∃ n a, n < i.arguments.length ∧ w.Covers n (k - i.operandsFrom) ∧
        decoding (p.set k v)
          = ⟨before ++ { i with arguments := i.arguments.set n a } :: after,
              (decoding p).ending⟩) ∧
    ∀ push, (decoding p).ending = .cutOff push → push.operandsFrom ≤ k →
      decoding (p.set k v) = decoding p := by
  obtain ⟨cs, r, split⟩ := Stream.exists_split p
  rw [split.decoding_eq]
  constructor
  · intro before i after w listed kind from_le lt_finish
    obtain ⟨front, c, back, rfl, rfl, placed⟩ := Stream.eq_append_cons_of_place listed
    rw [Nat.zero_add] at placed
    have encodable := split.encodable c (by simp)
    cases c with
    | plain op value =>
        rw [placed] at kind
        cases encodable.1.symm.trans kind
    | push op vs =>
        have push : op.pushWidth? = some w := by rwa [placed] at kind
        have start : i.operandsFrom = (Stream.bytes front).length + op.headSize := by
          rw [placed]
          rfl
        have stop : i.finish
            = (Stream.bytes front).length + (op.headSize + w.size * vs.length) := by
          rw [placed, ← Command.size_push push]
          rfl
        have values : i.arguments = vs := by rw [placed]; rfl
        rw [start] at from_le
        obtain ⟨j, rfl⟩ := Nat.exists_eq_add_of_le from_le
        obtain ⟨n, a, inside, covers, split'⟩ := split.set_operand push (k := j) (by omega) v
        have length : (vs.set n a).length = vs.length := List.length_set
        rw [start, values, Nat.add_sub_cancel_left]
        refine ⟨n, a, inside, covers, ?_⟩
        rw [Nat.add_assoc, split'.decoding_eq, Stream.place_push length listed,
          Stream.length_bytes_push length]
  · intro push ending behind
    obtain ⟨r', split', ending'⟩ := split.set_cutOff ending behind v
    rw [split'.decoding_eq, ending', ← ending]

/-- The low byte of a word becomes the opcode of `IF`, and `CALL` after it stays where it is. -/
theorem set_operand_opener : ∃ n a, n < 1 ∧ PushWidth.word.Covers n 1 ∧
    decoding [0xb8, 0x00, 0x58, 0x2b]
      = ⟨[{ (Command.push .PUSHW [7]).placed 0 0 with arguments := [7].set n a },
          (Command.plain .CALL 0).placed 3 0], .complete⟩ := by
  have decoded : decoding [0xb8, 0x00, 0x07, 0x2b]
      = ⟨[] ++ (Command.push .PUSHW [7]).placed 0 0 :: [(Command.plain .CALL 0).placed 3 0],
          .complete⟩ := by cbv
  have changed := (decoding_set_operand [0xb8, 0x00, 0x07, 0x2b] 2 0x58).1 [] _ _ .word
    (congrArg Decoding.instructions decoded) rfl (by decide) (by decide)
  rw [decoded] at changed
  exact changed

end Hinting
