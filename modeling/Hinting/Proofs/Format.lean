/-
# `Hinting.Proofs.Format` — the format of instructions, byte by byte

The instruction format is laid down here in terms of bytes alone: which byte
strings are one whole instruction (`Encodes`), which are a push with too few
operand bytes (`CutsOff`), and how a program divides into the first and ends in
the second, in nothing, or in a byte that no operation owns (`Divides`).

    plain          opcode
    PUSHB, PUSHW   code + k - 1   k operands          k from 1 to 8
    NPUSHB, NPUSHW code   count   count operands

The decoder is measured against it.  Every program divides in exactly one way, and
the walk yields what the parts say (`decoding_reads_division`).  The two halves of
the comparison are `encodes_iff`, the commands that the format has room for, and
`fetch_eq_cutOff_iff`, the pushes that the end cuts off.
-/
import Hinting.Proofs.Stream

namespace Hinting

/-! ## Operands -/

namespace PushWidth

/-- The push whose opcode tells the number of operands. -/
def inlinePush : PushWidth → Operation
  | .byte => .PUSHB
  | .word => .PUSHW

/-- The push that tells the number of operands in a byte of its own. -/
def countedPush : PushWidth → Operation
  | .byte => .NPUSHB
  | .word => .NPUSHW

/-- The signed words in a byte string, the high byte of each first. -/
def wordValues : Bytes → List Int
  | high :: low :: bs => Word.ofBytes high low :: wordValues bs
  | _ => []

def values : PushWidth → Bytes → List Int
  | .byte, bs => bs.map fun b => (b.toNat : Int)
  | .word, bs => wordValues bs

@[simp] theorem pushWidth?_inlinePush (w : PushWidth) : w.inlinePush.pushWidth? = some w := by
  cases w <;> rfl

@[simp] theorem pushWidth?_countedPush (w : PushWidth) : w.countedPush.pushWidth? = some w := by
  cases w <;> rfl

@[simp] theorem hasInlineCount_inlinePush (w : PushWidth) :
    w.inlinePush.hasInlineCount = true := by
  cases w <;> rfl

@[simp] theorem hasInlineCount_countedPush (w : PushWidth) :
    w.countedPush.hasInlineCount = false := by
  cases w <;> rfl

@[simp] theorem argBits_inlinePush (w : PushWidth) : w.inlinePush.argBits = 3 := by
  cases w <;> rfl

@[simp] theorem argBits_countedPush (w : PushWidth) : w.countedPush.argBits = 0 := by
  cases w <;> rfl

theorem eq_push_of_pushWidth? {op : Operation} {w : PushWidth} (h : op.pushWidth? = some w) :
    op = if op.hasInlineCount then w.inlinePush else w.countedPush := by
  revert h
  cases w <;> cases op <;> decide

theorem readMany?_append {w : PushWidth} : ∀ {count : Nat} {operands : Bytes},
    operands.length = w.size * count → ∀ rest : Bytes,
      w.readMany? count (operands ++ rest) = some (w.values operands, rest) := by
  intro count
  induction count with
  | zero =>
      intro operands h rest
      obtain rfl := List.length_eq_zero_iff.mp h
      cases w <;> rfl
  | succ count ih =>
      intro operands h rest
      cases w with
      | byte =>
          cases operands with
          | nil => simp [size] at h
          | cons b bs =>
              have length : bs.length = size .byte * count := by simp [size] at h ⊢; omega
              simp [readMany?, read?, ih length rest, values]
      | word =>
          rcases operands with _ | ⟨high, _ | ⟨low, bs⟩⟩
          · simp [size] at h
          · simp [size] at h
            omega
          · have length : bs.length = size .word * count := by simp [size] at h ⊢; omega
            simp [readMany?, read?, ih length rest, values, wordValues]

theorem readMany?_eq_none {w : PushWidth} : ∀ {count : Nat} {p : Bytes},
    p.length < w.size * count → w.readMany? count p = none := by
  intro count
  induction count with
  | zero => intro p h; exact absurd h (by simp)
  | succ count ih =>
      intro p h
      cases w with
      | byte =>
          cases p with
          | nil => rfl
          | cons b bs =>
              have short : bs.length < size .byte * count := by simp [size] at h ⊢; omega
              simp [readMany?, read?, ih short]
      | word =>
          rcases p with _ | ⟨high, _ | ⟨low, bs⟩⟩
          · rfl
          · rfl
          · have short : bs.length < size .word * count := by simp [size] at h ⊢; omega
            simp [readMany?, read?, ih short]

theorem readMany?_eq_none_iff {w : PushWidth} {count : Nat} {p : Bytes} :
    w.readMany? count p = none ↔ p.length < w.size * count := by
  refine ⟨fun h => Nat.lt_of_not_le fun enough => ?_, readMany?_eq_none⟩
  have whole : (p.take (w.size * count)).length = w.size * count :=
    List.length_take_of_le enough
  have read := readMany?_append whole (p.drop (w.size * count))
  rw [List.take_append_drop, h] at read
  cases read

end PushWidth

namespace Format

/-! ## The format -/

/-- `Encodes op operands e`: the byte string `e` is one whole instruction with the
operation `op`, and `operands` are its operand bytes. -/
inductive Encodes : Operation → Bytes → Bytes → Prop
  | plain {op : Operation} {b : UInt8} :
      op.owns b = true → op.pushWidth? = none → Encodes op [] [b]
  | inline {w : PushWidth} {b : UInt8} {k : Nat} {operands : Bytes} :
      1 ≤ k → k ≤ 8 → b.toNat = w.inlinePush.code + k - 1 → operands.length = w.size * k →
      Encodes w.inlinePush operands (b :: operands)
  | counted {w : PushWidth} {b count : UInt8} {operands : Bytes} :
      b.toNat = w.countedPush.code → operands.length = w.size * count.toNat →
      Encodes w.countedPush operands (b :: count :: operands)

/-- `CutsOff op r`: the byte string `r` is the opcode of the push `op` and fewer bytes
after it than the push calls for. -/
inductive CutsOff : Operation → Bytes → Prop
  | inline {w : PushWidth} {b : UInt8} {k : Nat} {operands : Bytes} :
      1 ≤ k → k ≤ 8 → b.toNat = w.inlinePush.code + k - 1 → operands.length < w.size * k →
      CutsOff w.inlinePush (b :: operands)
  | uncounted {w : PushWidth} {b : UInt8} :
      b.toNat = w.countedPush.code → CutsOff w.countedPush [b]
  | counted {w : PushWidth} {b count : UInt8} {operands : Bytes} :
      b.toNat = w.countedPush.code → operands.length < w.size * count.toNat →
      CutsOff w.countedPush (b :: count :: operands)

def Unassigned (b : UInt8) : Prop := ∀ op : Operation, op.owns b = false

/-- `Divides p es r`: the program `p` is the instructions `es`, one after the other, and
what is left is nothing, a push cut off, or something that an unassigned opcode starts. -/
structure Divides (p : Bytes) (es : List Bytes) (r : Bytes) : Prop where
  parts : ∀ e ∈ es, ∃ op operands, Encodes op operands e
  rest : r = [] ∨ (∃ op, CutsOff op r) ∨ ∃ b s, r = b :: s ∧ Unassigned b
  eq : p = es.flatten ++ r

/-- The instruction `i` is what the bytes `e` say at an offset. -/
structure Reads (e : Bytes) (offset : Nat) (i : Instruction) : Prop where
  offset : i.offset = offset
  length : i.length = e.length
  opcode : e.head? = some i.opcode
  operation : i.operation.owns i.opcode = true
  arguments : ∃ operands, Encodes i.operation operands e ∧
    i.arguments = (match i.operation.pushWidth? with
      | none => []
      | some w => w.values operands)
  bits : i.bits =
    if i.operation.isPush = false ∧ 0 < i.operation.argBits then
      some ⟨i.opcode.toNat - i.operation.code, i.operation.argBits⟩
    else none

/-! ## Opcodes of pushes -/

theorem ofOpcode?_inlinePush {w : PushWidth} {b : UInt8} {k : Nat} (one : 1 ≤ k) (eight : k ≤ 8)
    (h : b.toNat = w.inlinePush.code + k - 1) :
    Operation.ofOpcode? b = some w.inlinePush ∧ w.inlinePush.argument b + 1 = k := by
  refine ⟨Operation.ofOpcode?_eq_some_iff.mpr (Operation.owns_iff.mpr ?_), ?_⟩
  · rw [PushWidth.argBits_inlinePush]
    omega
  · rw [Operation.argument]
    omega

theorem ofOpcode?_countedPush {w : PushWidth} {b : UInt8} (h : b.toNat = w.countedPush.code) :
    Operation.ofOpcode? b = some w.countedPush := by
  refine Operation.ofOpcode?_eq_some_iff.mpr (Operation.owns_iff.mpr ?_)
  rw [PushWidth.argBits_countedPush]
  omega

theorem unassigned_iff {b : UInt8} : Unassigned b ↔ Operation.ofOpcode? b = none := by
  constructor
  · intro h
    cases found : Operation.ofOpcode? b with
    | none => rfl
    | some op => exact absurd (Operation.owns_of_ofOpcode? found) (by simp [h op])
  · intro h op
    rw [Bool.eq_false_iff]
    intro owned
    rw [Operation.ofOpcode?_eq_some_iff.mpr owned] at h
    cases h

/-! ## Whole instructions -/

theorem Encodes.fetch_append {op : Operation} {operands e : Bytes} (h : Encodes op operands e)
    (rest : Bytes) :
    ∃ c, Command.fetch (e ++ rest) = .command c rest ∧ c.operation = op ∧
      c.arguments = (match op.pushWidth? with
        | none => []
        | some w => w.values operands) := by
  cases h with
  | @plain _ b owned plain =>
      refine ⟨.plain op (op.argument b), ?_, rfl, by simp [plain, Command.arguments]⟩
      simp [Command.fetch, Operation.ofOpcode?_eq_some_iff.mpr owned, plain]
  | @inline w b k _ one eight opcode length =>
      obtain ⟨found, count⟩ := ofOpcode?_inlinePush one eight opcode
      refine ⟨.push w.inlinePush (w.values operands), ?_, rfl, by simp [Command.arguments]⟩
      simp [Command.fetch, found, Command.readValues?, Command.readCount?, count,
        PushWidth.readMany?_append length]
  | @counted w b count _ opcode length =>
      have found := ofOpcode?_countedPush opcode
      refine ⟨.push w.countedPush (w.values operands), ?_, rfl, by simp [Command.arguments]⟩
      simp [Command.fetch, found, Command.readValues?, Command.readCount?,
        PushWidth.readMany?_append length]

theorem encodes_command {c : Command} (h : c.IsEncodable) :
    Encodes c.operation c.operandBytes c.encode := by
  cases c with
  | plain op value =>
      obtain ⟨plain, bound⟩ := h
      have owned := Operation.owns_of_ofOpcode? (Operation.ofOpcode?_opcode bound).1
      exact .plain owned plain
  | push op values =>
      obtain ⟨w, isPush, admitted, held⟩ := h
      have width := Command.argBits_of_pushWidth? isPush
      have push := PushWidth.eq_push_of_pushWidth? isPush
      have operands : (Command.push op values).operandBytes = w.encodeMany values := by
        simp [Command.operandBytes, isPush]
      cases inline : op.hasInlineCount with
      | true =>
          simp only [inline, if_true] at push width
          simp only [Operation.admitsCount, inline, if_true, Bool.and_eq_true,
            decide_eq_true_eq] at admitted
          have bound : values.length - 1 < 2 ^ op.argBits := by rw [width]; omega
          have opcode := Operation.toNat_opcode bound
          subst push
          rw [operands]
          simp only [Command.encode, Command.countBytes, operands, inline, if_true,
            List.nil_append, Command.opcode, Command.operation]
          exact .inline admitted.1 admitted.2 (by omega) (PushWidth.length_encodeMany w values)
      | false =>
          simp only [inline, Bool.false_eq_true, if_false] at push width
          simp only [Operation.admitsCount, inline, Bool.false_eq_true, if_false,
            decide_eq_true_eq] at admitted
          have bound : 0 < 2 ^ op.argBits := by rw [width]; decide
          have opcode := Operation.toNat_opcode bound
          have count : (UInt8.ofNat values.length).toNat = values.length := by
            rw [UInt8.toNat_ofNat']
            exact Nat.mod_eq_of_lt (by omega)
          subst push
          rw [operands]
          simp only [Command.encode, Command.countBytes, operands, inline, Bool.false_eq_true,
            if_false, List.cons_append, List.nil_append, Command.opcode, Command.operation]
          exact .counted opcode (by rw [count]; exact PushWidth.length_encodeMany w values)

/-- The byte strings that the format lays down are those that commands are written as. -/
theorem encodes_iff {e : Bytes} :
    (∃ op operands, Encodes op operands e) ↔ ∃ c : Command, c.IsEncodable ∧ c.encode = e := by
  constructor
  · rintro ⟨op, operands, h⟩
    obtain ⟨c, hf, _⟩ := h.fetch_append []
    obtain ⟨eq, hc⟩ := Command.eq_encode_append_of_fetch hf
    exact ⟨c, hc, (List.append_cancel_right eq).symm⟩
  · rintro ⟨c, hc, rfl⟩
    exact ⟨c.operation, c.operandBytes, encodes_command hc⟩

/-! ## What is left -/

theorem CutsOff.fetch {op : Operation} {r : Bytes} (h : CutsOff op r) :
    Command.fetch r = .cutOff op := by
  cases h with
  | inline one eight opcode short =>
      obtain ⟨found, count⟩ := ofOpcode?_inlinePush one eight opcode
      simp [Command.fetch, found, Command.readValues?, Command.readCount?, count,
        PushWidth.readMany?_eq_none short]
  | uncounted opcode =>
      have found := ofOpcode?_countedPush opcode
      simp [Command.fetch, found, Command.readValues?, Command.readCount?]
  | counted opcode short =>
      have found := ofOpcode?_countedPush opcode
      simp [Command.fetch, found, Command.readValues?, Command.readCount?,
        PushWidth.readMany?_eq_none short]

theorem cutsOff_of_readValues? {op : Operation} {w : PushWidth} {b : UInt8} {p : Bytes}
    (found : Operation.ofOpcode? b = some op) (isPush : op.pushWidth? = some w)
    (h : Command.readValues? op w b p = none) : CutsOff op (b :: p) := by
  obtain ⟨low, high⟩ := Operation.owns_iff.mp (Operation.owns_of_ofOpcode? found)
  have push := PushWidth.eq_push_of_pushWidth? isPush
  cases inline : op.hasInlineCount with
  | true =>
      obtain rfl : op = w.inlinePush := by simpa [inline] using push
      rw [PushWidth.argBits_inlinePush] at high
      simp only [Command.readValues?, Command.readCount?, inline, if_true, Option.bind_eq_bind,
        Option.bind_some, PushWidth.readMany?_eq_none_iff, Operation.argument] at h
      have opcode : b.toNat = w.inlinePush.code + (b.toNat - w.inlinePush.code + 1) - 1 := by omega
      exact .inline (by omega) (by omega) opcode h
  | false =>
      obtain rfl : op = w.countedPush := by simpa [inline] using push
      rw [PushWidth.argBits_countedPush] at high
      have opcode : b.toNat = w.countedPush.code := by omega
      cases p with
      | nil => exact .uncounted opcode
      | cons count p =>
          simp only [Command.readValues?, Command.readCount?, inline, Bool.false_eq_true,
            if_false, Option.bind_eq_bind, Option.bind_some,
            PushWidth.readMany?_eq_none_iff] at h
          exact .counted opcode h

theorem fetch_eq_cutOff_iff {op : Operation} {r : Bytes} :
    Command.fetch r = .cutOff op ↔ CutsOff op r := by
  refine ⟨fun h => ?_, CutsOff.fetch⟩
  cases r with
  | nil => cases h
  | cons b p =>
      simp only [Command.fetch] at h
      split at h
      · cases h
      · rename_i op' found
        split at h
        · cases h
        · rename_i w isPush
          split at h
          · rename_i short
            obtain rfl := Command.Fetched.cutOff.inj h
            exact cutsOff_of_readValues? found isPush short
          · cases h

theorem cutsOff_of_tailEnding {o : Nat} {r : Bytes} {push : CutOff}
    (h : Stream.tailEnding o r = .cutOff push) :
    CutsOff push.operation r ∧ push.offset = o ∧ push.programEnd = o + r.length := by
  rw [Stream.tailEnding] at h
  split at h
  · cases h
  · cases h
  · cases h
  · rename_i op fetched
    obtain rfl := Ending.cutOff.inj h
    exact ⟨fetch_eq_cutOff_iff.mp fetched, rfl, rfl⟩

/-- The tails of a program are what the format allows to be left of it. -/
theorem isTail_iff {r : Bytes} : Stream.IsTail r ↔
    r = [] ∨ (∃ op, CutsOff op r) ∨ ∃ b s, r = b :: s ∧ Unassigned b := by
  constructor
  · intro h
    cases hf : Command.fetch r with
    | nothing => exact .inl (Command.eq_nil_of_fetch hf)
    | unassigned b =>
        obtain ⟨s, eq, free⟩ := Command.eq_cons_of_fetch hf
        exact .inr (.inr ⟨b, s, eq, unassigned_iff.mpr free⟩)
    | cutOff op => exact .inr (.inl ⟨op, fetch_eq_cutOff_iff.mp hf⟩)
    | command c rest => exact absurd hf (h c rest)
  · rintro (rfl | ⟨op, h⟩ | ⟨b, s, rfl, h⟩)
    · exact Stream.isTail_nil
    · intro c rest hf
      rw [h.fetch] at hf
      cases hf
    · exact Stream.isTail_unassigned (unassigned_iff.mp h) s

/-! ## Divisions -/

theorem divides_iff {p : Bytes} {es : List Bytes} {r : Bytes} :
    Divides p es r ↔ ∃ cs, es = cs.map Command.encode ∧ Stream.Split p cs r := by
  constructor
  · rintro ⟨parts, rest, rfl⟩
    have listed : ∃ cs : List Command, (∀ c ∈ cs, c.IsEncodable) ∧ es = cs.map Command.encode := by
      clear rest
      induction es with
      | nil => exact ⟨[], by simp, rfl⟩
      | cons e es ih =>
          obtain ⟨whole, others⟩ := List.forall_mem_cons.mp parts
          obtain ⟨c, hc, rfl⟩ := encodes_iff.mp whole
          obtain ⟨cs, hcs, rfl⟩ := ih others
          exact ⟨c :: cs, List.forall_mem_cons.mpr ⟨hc, hcs⟩, rfl⟩
    obtain ⟨cs, hcs, rfl⟩ := listed
    exact ⟨cs, rfl, hcs, isTail_iff.mpr rest, by rw [Stream.flatten_map_encode]⟩
  · rintro ⟨cs, rfl, h⟩
    refine ⟨?_, isTail_iff.mp h.tail, by rw [h.eq, Stream.flatten_map_encode]⟩
    intro e he
    obtain ⟨c, hc, rfl⟩ := List.mem_map.mp he
    exact encodes_iff.mpr ⟨c, h.encodable c hc, rfl⟩

/-! ## The decoder reads a program by its division -/

theorem Encodes.owns {op : Operation} {operands e : Bytes} (h : Encodes op operands e) :
    ∃ b s, e = b :: s ∧ op.owns b = true := by
  cases h with
  | @plain _ b owned _ => exact ⟨b, [], rfl, owned⟩
  | @inline w b _ _ one eight opcode _ =>
      exact ⟨b, operands, rfl,
        Operation.owns_of_ofOpcode? (ofOpcode?_inlinePush one eight opcode).1⟩
  | @counted w b count _ opcode _ =>
      exact ⟨b, count :: operands, rfl, Operation.owns_of_ofOpcode? (ofOpcode?_countedPush opcode)⟩

theorem reads_placed {c : Command} (h : c.IsEncodable) (offset indent : Nat) :
    Reads c.encode offset (c.placed offset indent) where
  offset := rfl
  length := (Command.length_encode c).symm
  opcode := rfl
  operation := by
    obtain ⟨b, s, eq, owned⟩ := (encodes_command h).owns
    obtain ⟨rfl, _⟩ := List.cons.inj eq
    exact owned
  arguments := by
    obtain ⟨c', fetched, _, arguments⟩ := (encodes_command h).fetch_append []
    rw [Command.fetch_encode_append h] at fetched
    obtain ⟨rfl, _⟩ := Command.Fetched.command.inj fetched
    exact ⟨c.operandBytes, encodes_command h, arguments⟩
  bits := by
    cases c with
    | plain op value =>
        obtain ⟨plain, bound⟩ := h
        have opcode := Operation.toNat_opcode bound
        by_cases none : op.argBits = 0
        · simp [Command.placed, Command.operation, Command.bits, none]
        · have some : 0 < op.argBits := Nat.pos_of_ne_zero none
          simp [Command.placed, Command.operation, Command.bits, Command.opcode, none, some,
            Operation.isPush, plain, opcode]
    | push op values =>
        obtain ⟨w, isPush, _⟩ := h
        simp [Command.placed, Command.operation, Command.bits, Operation.isPush, isPush]

theorem items_of_split {p r : Bytes} {cs : List Command} (h : Stream.Split p cs r) :
    (decoding p).items = (decoding p).instructions.map .ok
      ++ ((Stream.tailEnding (Stream.bytes cs).length r).fault?.map .error).toList := by
  rw [Decoding.items, h.decoding_eq]

/-- **The decoder recognises the format.**  A program divides in exactly one way into
instructions and what is left.  The walk yields one instruction for each part, in order,
with the offset where the part starts and all that the part says; and then it ends, with
a fault if what is left starts with an unassigned opcode and without one otherwise. -/
theorem decoding_reads_division (p : Bytes) :
    ∃ es r, Divides p es r ∧ (∀ es' r', Divides p es' r' → es' = es ∧ r' = r) ∧
      (decoding p).instructions.length = es.length ∧
      (∀ k (hk : k < es.length), ∃ i, (decoding p).instructions[k]? = some i ∧
        Reads es[k] (es.take k).flatten.length i) ∧
      (r = [] ∨ (∃ op, CutsOff op r) →
        (decoding p).items = (decoding p).instructions.map .ok) ∧
      (∀ b s, r = b :: s → Unassigned b →
        (decoding p).items = (decoding p).instructions.map .ok
          ++ [.error (.unknownOpcode b es.flatten.length)]) := by
  obtain ⟨cs, r, h⟩ := Stream.exists_split p
  have flat : ∀ cs : List Command, (cs.map Command.encode).flatten = Stream.bytes cs :=
    fun cs => by rw [Stream.bytes, List.flatMap_def]
  refine ⟨cs.map Command.encode, r, divides_iff.mpr ⟨cs, rfl, h⟩, ?_, ?_, ?_, ?_, ?_⟩
  · intro es' r' hd
    obtain ⟨cs', rfl, h'⟩ := divides_iff.mp hd
    obtain ⟨rfl, rfl⟩ := h.unique h'
    exact ⟨rfl, rfl⟩
  · rw [h.decoding_eq, Stream.length_place, List.length_map]
  · intro k hk
    rw [List.length_map] at hk
    have encodable := h.encodable cs[k] (List.getElem_mem hk)
    rw [h.decoding_eq, Stream.getElem?_place, List.getElem?_eq_getElem hk, Nat.zero_add,
      List.getElem_map, ← List.map_take, flat]
    exact ⟨_, rfl, reads_placed encodable _ _⟩
  · intro hr
    rw [items_of_split h]
    have faultless : (Stream.tailEnding (Stream.bytes cs).length r).fault? = none := by
      rcases hr with rfl | ⟨op, cut⟩
      · rfl
      · rw [Stream.tailEnding, cut.fetch]
        rfl
    simp [faultless]
  · rintro b s rfl free
    rw [items_of_split h, Stream.tailEnding_unassigned (unassigned_iff.mp free), flat]
    rfl

end Format

end Hinting
