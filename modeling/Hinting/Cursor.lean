/-
# `Hinting.Cursor` — reading a byte string in steps

A cursor is a byte string and a position in it.  A read returns what stands at
the position and advances past it; where too few bytes are left it returns
nothing and stays.  A seek is clamped to the bounds.  No step changes the bytes,
and none leaves the bounds (`InBounds` and the lemmas after it).
-/
import Hinting.Operand

namespace Hinting

structure Cursor where
  bytes : Bytes
  position : Nat

namespace Cursor

def start (bytes : Bytes) : Cursor := ⟨bytes, 0⟩

def size (c : Cursor) : Nat := c.bytes.length

def isEmpty (c : Cursor) : Bool := c.bytes.isEmpty

/-- The bytes that are left. -/
def rest (c : Cursor) : Bytes := c.bytes.drop c.position

/-- The number of bytes that are left. -/
def remaining (c : Cursor) : Nat := c.size - c.position

/-! ## Reading -/

def peek? (c : Cursor) : Option UInt8 := c.bytes[c.position]?

def readByte (c : Cursor) : Option UInt8 × Cursor :=
  match c.peek? with
  | none => (none, c)
  | some b => (some b, { c with position := c.position + 1 })

/-- The signed word at the position, and the cursor past both of its bytes. -/
def readWord (c : Cursor) : Option Int × Cursor :=
  match c.peek?, c.bytes[c.position + 1]? with
  | some high, some low => (some (Word.ofBytes high low), { c with position := c.position + 2 })
  | _, _ => (none, c)

/-- Up to `count` bytes from the position on, and the cursor past them. -/
def take : Nat → Cursor → Bytes × Cursor
  | 0, c => ([], c)
  | count + 1, c =>
    match c.readByte with
    | (none, c) => ([], c)
    | (some b, c) =>
      let (bs, c) := take count c
      (b :: bs, c)

/-! ## Moving -/

/-- Moves by a signed distance, as far as the bounds allow. -/
def seekBy (c : Cursor) (distance : Int) : Cursor :=
  { c with position := min (c.position + distance).toNat c.size }

def rewind (c : Cursor) : Cursor := { c with position := 0 }

/-! ## Bounds -/

/-- The position lies in the byte string or at its end. -/
def InBounds (c : Cursor) : Prop := c.position ≤ c.size

theorem inBounds_start (bytes : Bytes) : (start bytes).InBounds := Nat.zero_le _

theorem inBounds_readByte {c : Cursor} (h : c.InBounds) : c.readByte.2.InBounds := by
  unfold readByte
  split
  · exact h
  · rename_i b hb
    obtain ⟨lt, _⟩ := List.getElem?_eq_some_iff.1 hb
    exact lt

theorem inBounds_readWord {c : Cursor} (h : c.InBounds) : c.readWord.2.InBounds := by
  unfold readWord
  split
  · rename_i high low _ hlow
    obtain ⟨lt, _⟩ := List.getElem?_eq_some_iff.1 hlow
    exact lt
  · exact h

theorem inBounds_seekBy (c : Cursor) (distance : Int) : (c.seekBy distance).InBounds :=
  Nat.min_le_right _ _

theorem inBounds_rewind (c : Cursor) : c.rewind.InBounds := Nat.zero_le _

theorem bytes_readByte (c : Cursor) : c.readByte.2.bytes = c.bytes := by
  unfold readByte; split <;> rfl

theorem bytes_readWord (c : Cursor) : c.readWord.2.bytes = c.bytes := by
  unfold readWord; split <;> rfl

theorem position_add_remaining {c : Cursor} (h : c.InBounds) :
    c.position + c.remaining = c.size := by
  simp only [InBounds, remaining] at *
  omega

/-- `c.Within bs`: the cursor reads the byte string `bs`, and has not left it. -/
structure Within (c : Cursor) (bs : Bytes) : Prop where
  bytes : c.bytes = bs
  inBounds : c.InBounds

theorem within_start (bs : Bytes) : (start bs).Within bs := ⟨rfl, inBounds_start bs⟩

theorem Within.readByte {bs : Bytes} {c : Cursor} (h : c.Within bs) : c.readByte.2.Within bs :=
  ⟨(bytes_readByte c).trans h.bytes, inBounds_readByte h.inBounds⟩

theorem Within.readWord {bs : Bytes} {c : Cursor} (h : c.Within bs) : c.readWord.2.Within bs :=
  ⟨(bytes_readWord c).trans h.bytes, inBounds_readWord h.inBounds⟩

/-- To seek by all that is left is to seek to the end. -/
theorem Within.seekBy_remaining {bs : Bytes} {c : Cursor} (h : c.Within bs) :
    c.seekBy c.remaining = ⟨bs, bs.length⟩ := by
  have whole : (c.position + (c.remaining : Int)).toNat = c.size := by
    have sum := position_add_remaining h.inBounds
    omega
  rw [seekBy, whole, Nat.min_self, size, h.bytes]

/-! ## Moves, by the bytes that are left -/

/-- The cursor that stands further on by a number of bytes. -/
def ahead (c : Cursor) (n : Nat) : Cursor := { c with position := c.position + n }

theorem rest_ahead (c : Cursor) (n : Nat) : (c.ahead n).rest = c.rest.drop n := by
  rw [rest, rest, List.drop_drop]
  rfl

theorem length_rest (c : Cursor) : c.rest.length = c.remaining := List.length_drop

theorem position_add_length_rest {c : Cursor} (h : c.InBounds) :
    c.position + c.rest.length = c.size := by
  rw [length_rest, position_add_remaining h]

theorem peek?_eq (c : Cursor) : c.peek? = c.rest.head? := by
  rw [rest, List.head?_drop]
  rfl

section
variable {c : Cursor} {rest : Bytes}

theorem inBounds_of_cons {b : UInt8} (h : c.rest = b :: rest) : c.InBounds := by
  have some_left : 0 < c.rest.length := by rw [h]; exact Nat.succ_pos _
  rw [length_rest, remaining] at some_left
  exact Nat.le_of_lt (Nat.lt_of_sub_pos some_left)

theorem rest_ahead_one {b : UInt8} (h : c.rest = b :: rest) : (c.ahead 1).rest = rest := by
  rw [rest_ahead, h]
  rfl

theorem readByte_of_cons {b : UInt8} (h : c.rest = b :: rest) :
    c.readByte = (some b, c.ahead 1) := by
  rw [readByte, peek?_eq, h]
  rfl

theorem readByte_of_nil (h : c.rest = []) : c.readByte = (none, c) := by
  rw [readByte, peek?_eq, h]
  rfl

theorem getElem?_next (c : Cursor) : c.bytes[c.position + 1]? = c.rest.tail.head? := by
  rw [Cursor.rest, List.tail_drop, List.head?_drop]

theorem readWord_of_cons {high low : UInt8} (h : c.rest = high :: low :: rest) :
    c.readWord = (some (Word.ofBytes high low), c.ahead 2) := by
  rw [readWord, peek?_eq, getElem?_next, h]
  rfl

theorem readWord_of_short (few : c.rest.length < 2) : c.readWord = (none, c) := by
  rw [readWord, peek?_eq, getElem?_next]
  rcases left : c.rest with _ | ⟨b, _ | ⟨b', rest⟩⟩
  · rfl
  · rfl
  · rw [left, List.length_cons, List.length_cons] at few
    omega

theorem short_or_cons (c : Cursor) :
    c.rest.length < 2 ∨ ∃ high low rest, c.rest = high :: low :: rest := by
  rcases c.rest with _ | ⟨high, _ | ⟨low, rest⟩⟩
  · exact .inl Nat.zero_lt_two
  · exact .inl Nat.one_lt_two
  · exact .inr ⟨high, low, rest, rfl⟩

end

end Cursor

end Hinting
