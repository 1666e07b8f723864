/-
# `Hinting.Command` — one encoded instruction, apart from its place

A program is a sequence of commands, one after the other.  A command is an
operation with its argument bits, or a push with its values:

    operation                 opcode
    PUSHB, PUSHW              opcode (it tells the count)  operand … operand
    NPUSHB, NPUSHW            opcode  count  operand … operand

`Command.encode` writes this format and `Command.fetch` takes one command off the
front of a byte string.  Nothing else can be fetched than what is written:
`fetch_encode_append` and `eq_encode_append_of_fetch` are the two directions.
-/
import Hinting.Opcode
import Hinting.Operand
import Hinting.Bits

namespace Hinting

/-- An instruction without its place in a program. -/
inductive Command where
  /-- An operation without operands, and the value of its argument bits. -/
  | plain (operation : Operation) (value : Nat)
  /-- A push and its values. -/
  | push (operation : Operation) (values : List Int)
  deriving DecidableEq

namespace Command

/-! ## The parts of a command -/

def operation : Command → Operation
  | plain op _ => op
  | push op _ => op

def arguments : Command → List Int
  | plain _ _ => []
  | push _ values => values

/-- The argument bits, if the command has any.  The bits of a push are its count. -/
def bits : Command → Option Bits
  | plain op value => if op.argBits = 0 then none else some ⟨value, op.argBits⟩
  | push _ _ => none

/-! ## The format -/

def opcode : Command → UInt8
  | plain op value => op.opcode value
  | push op values => op.opcode (if op.hasInlineCount then values.length - 1 else 0)

/-- The byte that tells the count of a push, if its opcode does not. -/
def countBytes : Command → Bytes
  | plain _ _ => []
  | push op values => if op.hasInlineCount then [] else [UInt8.ofNat values.length]

def operandBytes : Command → Bytes
  | plain _ _ => []
  | push op values =>
    match op.pushWidth? with
    | none => []
    | some w => w.encodeMany values

def encode (c : Command) : Bytes := c.opcode :: (c.countBytes ++ c.operandBytes)

def size : Command → Nat
  | plain _ _ => 1
  | push op values =>
    1 + (if op.hasInlineCount then 0 else 1)
      + (match op.pushWidth? with
        | none => 0
        | some w => w.size * values.length)

/-- Whether the format has room for a command. -/
def IsEncodable : Command → Prop
  | plain op value => op.pushWidth? = none ∧ value < 2 ^ op.argBits
  | push op values =>
    ∃ w, op.pushWidth? = some w ∧ op.admitsCount values.length = true ∧
      ∀ v ∈ values, w.holds v = true

/-! ## Fetching -/

/-- What stands at the front of a byte string. -/
inductive Fetched where
  /-- No byte is left. -/
  | nothing
  /-- An opcode that belongs to no operation. -/
  | unassigned (opcode : UInt8)
  /-- A push whose operands are cut off by the end. -/
  | cutOff (operation : Operation)
  /-- A command, and the bytes after it. -/
  | command (command : Command) (rest : Bytes)

/-- The count of a push with a given opcode, and the bytes after it. -/
def readCount? (op : Operation) (opcode : UInt8) (p : Bytes) : Option (Nat × Bytes) :=
  if op.hasInlineCount then some (op.argument opcode + 1, p)
  else
    match p with
    | [] => none
    | count :: p => some (count.toNat, p)

/-- The values of a push with a given opcode, and the bytes after them. -/
def readValues? (op : Operation) (w : PushWidth) (opcode : UInt8) (p : Bytes) :
    Option (List Int × Bytes) := do
  let (count, p) ← readCount? op opcode p
  w.readMany? count p

def fetch : Bytes → Fetched
  | [] => .nothing
  | b :: p =>
    match Operation.ofOpcode? b with
    | none => .unassigned b
    | some op =>
      match op.pushWidth? with
      | none => .command (.plain op (op.argument b)) p
      | some w =>
        match readValues? op w b p with
        | none => .cutOff op
        | some (values, rest) => .command (.push op values) rest

/-! ## Fetching and the format -/

theorem length_encode (c : Command) : c.encode.length = c.size := by
  cases c with
  | plain op value => rfl
  | push op values =>
    simp only [encode, countBytes, operandBytes, size, List.length_cons, List.length_append]
    cases op.hasInlineCount <;> cases op.pushWidth? <;>
      simp [PushWidth.length_encodeMany] <;> omega

theorem size_pos (c : Command) : 0 < c.size := by
  rw [← length_encode]
  simp [encode]

theorem argBits_of_pushWidth? {op : Operation} {w : PushWidth} (h : op.pushWidth? = some w) :
    op.argBits = if op.hasInlineCount then 3 else 0 :=
  Operation.argBits_of_isPush (Operation.isPush_of_pushWidth? h)

/-- A command that the format has room for is fetched from what it is written as. -/
theorem fetch_encode_append {c : Command} (h : c.IsEncodable) (rest : Bytes) :
    fetch (c.encode ++ rest) = .command c rest := by
  cases c with
  | plain op value =>
    obtain ⟨plain, bound⟩ := h
    obtain ⟨lookup, argument⟩ := Operation.ofOpcode?_opcode bound
    simp [encode, fetch, opcode, countBytes, operandBytes, lookup, plain, argument]
  | push op values =>
    obtain ⟨w, isPush, count, held⟩ := h
    have width := argBits_of_pushWidth? isPush
    cases inline : op.hasInlineCount with
    | true =>
      simp only [Operation.admitsCount, inline, if_true, Bool.and_eq_true,
        decide_eq_true_eq] at count width
      have bound : values.length - 1 < 2 ^ op.argBits := by rw [width]; omega
      obtain ⟨lookup, argument⟩ := Operation.ofOpcode?_opcode bound
      have back : values.length - 1 + 1 = values.length := by omega
      simp [encode, fetch, opcode, countBytes, operandBytes, readValues?, readCount?, inline,
        lookup, isPush, argument, back, PushWidth.readMany?_encodeMany_append held]
    | false =>
      simp only [Operation.admitsCount, inline, Bool.false_eq_true, if_false,
        decide_eq_true_eq] at count width
      have bound : 0 < 2 ^ op.argBits := by rw [width]; omega
      obtain ⟨lookup, _⟩ := Operation.ofOpcode?_opcode bound
      have byte : values.length % 256 = values.length := Nat.mod_eq_of_lt (by omega)
      simp [encode, fetch, opcode, countBytes, operandBytes, readValues?, readCount?, inline,
        lookup, isPush, byte, PushWidth.readMany?_encodeMany_append held]

/-- What is fetched is what the format writes for the command. -/
theorem eq_encode_append_of_fetch {p rest : Bytes} {c : Command}
    (h : fetch p = .command c rest) : p = c.encode ++ rest ∧ c.IsEncodable := by
  unfold fetch at h
  split at h
  · cases h
  · rename_i b p
    split at h
    · cases h
    · rename_i op lookup
      obtain ⟨compose, bound⟩ := Operation.opcode_argument lookup
      split at h
      · rename_i plain
        cases h
        simp [encode, opcode, countBytes, operandBytes, compose, IsEncodable, plain, bound]
      · rename_i w isPush
        have width := argBits_of_pushWidth? isPush
        split at h
        · cases h
        · rename_i values tail read
          cases h
          simp only [readValues?, Option.bind_eq_bind, Option.bind_eq_some_iff] at read
          obtain ⟨⟨count, q⟩, hc, hv⟩ := read
          obtain ⟨rfl, rfl, held⟩ := PushWidth.eq_encodeMany_append_of_readMany? hv
          cases inline : op.hasInlineCount with
          | true =>
            simp only [inline, if_true] at width
            simp only [readCount?, inline, if_true, Option.some.injEq, Prod.mk.injEq] at hc
            obtain ⟨length, rfl⟩ := hc
            rw [width] at bound
            refine ⟨?_, w, isPush, ?_, held⟩
            · simp [encode, opcode, countBytes, operandBytes, inline, isPush, ← length, compose]
            · simp [Operation.admitsCount, inline, ← length]
              omega
          | false =>
            simp only [inline, Bool.false_eq_true, if_false] at width
            simp only [readCount?, inline, Bool.false_eq_true, if_false] at hc
            split at hc
            · cases hc
            · rename_i count p
              simp only [Option.some.injEq, Prod.mk.injEq] at hc
              obtain ⟨length, rfl⟩ := hc
              have := count.toNat_lt
              have zero : op.argument b = 0 := by rw [width] at bound; omega
              rw [zero] at compose
              refine ⟨?_, w, isPush, ?_, held⟩
              · simp [encode, opcode, countBytes, operandBytes, inline, isPush, ← length, compose]
              · simp [Operation.admitsCount, inline]
                omega

theorem eq_nil_of_fetch {r : Bytes} (h : fetch r = .nothing) : r = [] := by
  cases r with
  | nil => rfl
  | cons b r =>
      simp only [fetch] at h
      split at h
      · cases h
      · split at h
        · cases h
        · split at h <;> cases h

theorem eq_cons_of_fetch {r : Bytes} {b : UInt8} (h : fetch r = .unassigned b) :
    ∃ rest, r = b :: rest ∧ Operation.ofOpcode? b = none := by
  cases r with
  | nil => cases h
  | cons b' r =>
      simp only [fetch] at h
      split at h
      · rename_i free
        obtain rfl := Fetched.unassigned.inj h
        exact ⟨r, rfl, free⟩
      · split at h
        · cases h
        · split at h <;> cases h

theorem exists_cons_of_cutOff {r : Bytes} {op : Operation} (h : fetch r = .cutOff op) :
    ∃ b rest, r = b :: rest := by
  cases r with
  | nil => cases h
  | cons b r => exact ⟨b, r, rfl⟩

theorem length_lt_of_fetch {p rest : Bytes} {c : Command} (h : fetch p = .command c rest) :
    rest.length < p.length := by
  rw [(eq_encode_append_of_fetch h).1]
  simp [encode]
  omega

end Command

end Hinting
