/-
# `Hinting.Proofs.Bounds` — nothing overflows, and nothing is read out of bounds

The program computes with bytes and positions in five places, and each of these could go
out of range:

    decoder     opcode - first opcode of the operation         below 0, or too many bits
    cursor      length - position                              below 0
    listing     the bytes from an offset on                    behind the end
    assembler   first opcode + value, first opcode + count - 1 above 255, or another operation
    assembler   the number that the digits in brackets spell   above 255

None does.  What keeps them in range lies elsewhere: an opcode is looked up before it is
taken apart, every move of a cursor keeps it in bounds, the instructions of a program tile it,
and the assembler looks at counts and at numbers of digits before it adds.
-/
import Mathlib
import Hinting.Cursor
import Hinting.Proofs.Assembling
import Hinting.Proofs.EntryPoints
import Hinting.Proofs.Sessions

namespace Hinting

/-! ## Cursors -/

namespace Cursor

/-- What a client can do with a cursor. -/
inductive Move where
  | peek
  | readByte
  | readWord
  /-- Reads byte by byte, up to a number of bytes. -/
  | take (count : Nat)
  | seekBy (distance : Int)
  | rewind

def after (c : Cursor) : Move → Cursor
  | .peek => c
  | .readByte => c.readByte.2
  | .readWord => c.readWord.2
  | .take count => (Cursor.take count c).2
  | .seekBy distance => c.seekBy distance
  | .rewind => c.rewind

def afterAll (c : Cursor) : List Move → Cursor
  | [] => c
  | m :: ms => (c.after m).afterAll ms

section
variable {bs : Bytes} {c : Cursor}

theorem Within.take : ∀ {count : Nat} {c : Cursor}, c.Within bs →
    (Cursor.take count c).2.Within bs := by
  intro count
  induction count with
  | zero => intro c h; exact h
  | succ count ih =>
      intro c h
      have first := h.readByte
      rw [Cursor.take]
      split
      · rename_i c' read
        rw [read] at first
        exact first
      · rename_i b c' read
        rw [read] at first
        exact ih first

theorem Within.after (h : c.Within bs) (m : Move) : (c.after m).Within bs := by
  cases m with
  | peek => exact h
  | readByte => exact h.readByte
  | readWord => exact h.readWord
  | take count => exact h.take
  | seekBy distance => exact ⟨h.bytes, inBounds_seekBy c distance⟩
  | rewind => exact ⟨h.bytes, inBounds_rewind c⟩

theorem Within.afterAll : ∀ {ms : List Move} {c : Cursor}, c.Within bs →
    (c.afterAll ms).Within bs := by
  intro ms
  induction ms with
  | nil => intro c h; exact h
  | cons m ms ih => intro c h; exact ih (h.after m)

end

end Cursor

/-! ## Decoders and listings -/

theorem Operation.range_of_ofOpcode? {op : Operation} {b : UInt8} (h : ofOpcode? b = some op) :
    op.code ≤ b.toNat ∧ b.toNat - op.code < 2 ^ op.argBits := by
  obtain ⟨low, high⟩ := owns_iff.mp (owns_of_ofOpcode? h)
  omega

theorem Decoder.whole_afterAll (p : Bytes) (rs : List Request) :
    ((start p).afterAll rs).position + ((start p).afterAll rs).rest.length = p.length :=
  (sound_start p).afterAll.whole

theorem bounds_of_listing {p : Bytes} {l : Listing} (h : listing p = .ok l) :
    l.program = p ∧ ∀ i ∈ l.instructions, 1 ≤ i.length ∧ i.offset + i.length ≤ p.length := by
  rw [listing_eq] at h
  generalize Except.bind _ _ = run at h
  cases run with
  | error f => cases h
  | ok w =>
      obtain rfl := Except.ok.inj h
      refine ⟨rfl, fun i hi => ?_⟩
      obtain ⟨cs, r, split⟩ := Stream.exists_split p
      rw [split.decoding_eq] at hi
      obtain ⟨_, some_byte, fits⟩ := Stream.bounds_of_mem_place hi
      rw [Instruction.finish, Nat.zero_add] at fits
      refine ⟨some_byte, ?_⟩
      rw [split.eq, List.length_append]
      omega

/-! ## The assembler -/

/-- `Adds line rest op n`: with the lines `rest` after it, the line makes the assembler add `n`
to the first opcode of the operation. -/
inductive Adds (line : SourceLine) (rest : List SourceLine) : Operation → Nat → Prop
  /-- The value in the brackets, which has as many digits as the operation has bits. -/
  | value {op : Operation} {inside : Text} {value : Nat} :
      line.header = .ok (op, inside) → op.pushWidth? = none →
      (Text.trim inside).length = op.argBits →
      Numeral.binary? (Text.trim inside) = some value → Adds line rest op value
  /-- The number of values less one, where the operation can push so many. -/
  | count {op : Operation} {inside : Text} {w : PushWidth} {n : Nat} :
      line.header = .ok (op, inside) → op.pushWidth? = some w → op.hasInlineCount = true →
      op.admitsCount (valuesAhead rest).1.length = true →
      n = (valuesAhead rest).1.length - 1 → Adds line rest op n

theorem Adds.lt {line : SourceLine} {rest : List SourceLine} {op : Operation} {n : Nat}
    (h : Adds line rest op n) : n < 2 ^ op.argBits := by
  cases h with
  | value _ _ width read => exact width ▸ (Numeral.binary_of_binary? read).1
  | count _ kind inline admitted less =>
      have width := Command.argBits_of_pushWidth? kind
      simp only [Operation.admitsCount, inline, if_true, Bool.and_eq_true,
        decide_eq_true_eq] at admitted width
      rw [width]
      omega

/-- What is added to an opcode of an operation gives an opcode of that operation. -/
theorem Operation.sum_in_range {op : Operation} {n : Nat} (h : n < 2 ^ op.argBits) :
    op.code + n ≤ 255 ∧ ofOpcode? (UInt8.ofNat (op.code + n)) = some op := by
  have room := op.code_add_lt
  exact ⟨by omega, (ofOpcode?_opcode h).1⟩

theorem exists_adds_of_command {line : SourceLine} {rest rest' : List SourceLine} {c : Command}
    (h : line.command rest = .ok (c, rest'))
    (sum : c.operation.isPush = true → c.operation.hasInlineCount = true) :
    ∃ n, Adds line rest c.operation n ∧ c.opcode = UInt8.ofNat (c.operation.code + n) := by
  obtain ⟨op, inside, header, ⟨plain, made, _⟩ | ⟨w, push, made, _⟩⟩ := SourceLine.of_command h
  · obtain ⟨value, width, read, rfl⟩ := SourceLine.plain_eq_ok_iff.mp made
    exact ⟨value, .value header plain width read, rfl⟩
  · obtain ⟨admitted, _, rfl⟩ := SourceLine.push_eq_ok_iff.mp made
    have inline : op.hasInlineCount = true := sum (Operation.isPush_of_pushWidth? push)
    refine ⟨_, .count header push inline admitted rfl, ?_⟩
    rw [Command.opcode, inline]
    rfl

/-- No more digits spell a small number than there are bits in an opcode. -/
theorem Numeral.le_of_binary?_take {op : Operation} {digits : Text}
    (width : digits.length = op.argBits) {k v : Nat}
    (read : binary? (digits.take k) = some v) : v ≤ 255 := by
  have some_bits := op.argBits_le
  have few : (digits.take k).length ≤ Operation.maxArgBits := by
    rw [List.length_take]
    omega
  calc v ≤ 2 ^ (digits.take k).length := Nat.le_of_lt (binary_of_binary? read).1
    _ ≤ 2 ^ Operation.maxArgBits := Nat.pow_le_pow_right (by decide) few
    _ ≤ 255 := by decide

/-- **Nothing goes out of range.**  At all times a decoder is in its program, and the opcode that
it comes to next, if it belongs to an operation, lies in the range of that operation.  A cursor
is in its byte string, whatever moves are made.  The rows of a listing are bytes of the program,
at least one.  And on its way through a text the assembler adds to the first opcode of an
operation only what gives an opcode of that operation, and reads only digits that spell a byte. -/
theorem computations_in_range (p : Bytes) (t : Text) :
    (∀ rs, let d := (Decoder.start p).afterAll rs
      d.position ≤ p.length ∧ d.position + d.rest.length = p.length ∧
      ∀ b rest op, d.rest = b :: rest → Operation.ofOpcode? b = some op →
        op.code ≤ b.toNat ∧ b.toNat - op.code < 2 ^ op.argBits) ∧
    (∀ ms, let c := (Cursor.start p).afterAll ms
      c.bytes = p ∧ c.position ≤ c.size ∧ c.position + c.remaining = c.size) ∧
    (∀ l, listing p = .ok l → l.program = p ∧
      ∀ i ∈ l.instructions, 1 ≤ i.length ∧ i.offset + i.length ≤ p.length) ∧
    (∀ cs line rest, Comes (sourceLines t) cs (line :: rest) →
      (∀ op n, Adds line rest op n →
        op.code + n ≤ 255 ∧ Operation.ofOpcode? (UInt8.ofNat (op.code + n)) = some op) ∧
      (∀ c rest', line.command rest = .ok (c, rest') →
        (c.operation.isPush = true → c.operation.hasInlineCount = true) →
          ∃ n, Adds line rest c.operation n ∧ c.opcode = UInt8.ofNat (c.operation.code + n)) ∧
      (∀ op inside, line.header = .ok (op, inside) → (Text.trim inside).length = op.argBits →
        ∀ k v, Numeral.binary? ((Text.trim inside).take k) = some v → v ≤ 255)) := by
  refine ⟨?_, ?_, fun l => bounds_of_listing, ?_⟩
  · intro rs d
    have whole := Decoder.whole_afterAll p rs
    exact ⟨whole ▸ Nat.le_add_right _ _, whole, fun b rest op _ => Operation.range_of_ofOpcode?⟩
  · intro ms c
    have within : c.Within p := (Cursor.within_start p).afterAll
    exact ⟨within.bytes, within.inBounds, Cursor.position_add_remaining within.inBounds⟩
  · intro cs line rest _
    refine ⟨fun op n added => Operation.sum_in_range added.lt, ?_, ?_⟩
    · exact fun c rest' => exists_adds_of_command
    · exact fun op inside _ width k v => Numeral.le_of_binary?_take width

end Hinting
