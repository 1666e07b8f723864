/-
# `Hinting.Operand` — the values that follow a push

An operand is an unsigned byte or a signed word of two bytes, the high byte
first.  `PushWidth.encode` writes one, `PushWidth.read?` takes one off the front
of a byte string, and each undoes the other on the values that the width holds
(`read?_encode_append`, `eq_encode_append_of_read?`).
-/
import Hinting.Operation

namespace Hinting

abbrev Bytes := List UInt8

/-! ## Words -/

namespace Word

/-- The signed word with a high and a low byte. -/
def ofBytes (high low : UInt8) : Int :=
  let n := high.toNat * 256 + low.toNat
  if n < 32768 then n else (n : Int) - 65536

/-- The bits of a word as an unsigned number. -/
def unsigned (v : Int) : Nat := (v % 65536).toNat

def high (v : Int) : UInt8 := UInt8.ofNat (unsigned v / 256)

def low (v : Int) : UInt8 := UInt8.ofNat (unsigned v % 256)

theorem ofBytes_range (h l : UInt8) : -32768 ≤ ofBytes h l ∧ ofBytes h l ≤ 32767 := by
  have := h.toNat_lt
  have := l.toNat_lt
  simp only [ofBytes]
  split <;> omega

theorem ofBytes_high_low {v : Int} (h : -32768 ≤ v ∧ v ≤ 32767) :
    ofBytes (high v) (low v) = v := by
  have bound : unsigned v < 65536 := by simp only [unsigned]; omega
  have toNat_high : (high v).toNat = unsigned v / 256 := by
    rw [high, UInt8.toNat_ofNat']
    exact Nat.mod_eq_of_lt (by omega)
  have toNat_low : (low v).toNat = unsigned v % 256 := by
    rw [low, UInt8.toNat_ofNat']
    exact Nat.mod_eq_of_lt (by omega)
  simp only [ofBytes, toNat_high, toNat_low]
  split <;> simp only [unsigned] at * <;> omega

theorem unsigned_ofBytes (h l : UInt8) : unsigned (ofBytes h l) = h.toNat * 256 + l.toNat := by
  have := h.toNat_lt
  have := l.toNat_lt
  simp only [unsigned, ofBytes]
  split <;> omega

@[simp] theorem high_ofBytes (h l : UInt8) : high (ofBytes h l) = h := by
  have := l.toNat_lt
  rw [high, unsigned_ofBytes, show (h.toNat * 256 + l.toNat) / 256 = h.toNat by omega]
  exact UInt8.ofNat_toNat

@[simp] theorem low_ofBytes (h l : UInt8) : low (ofBytes h l) = l := by
  have := l.toNat_lt
  rw [low, unsigned_ofBytes, show (h.toNat * 256 + l.toNat) % 256 = l.toNat by omega]
  exact UInt8.ofNat_toNat

end Word

namespace PushWidth

/-! ## One operand -/

def size : PushWidth → Nat
  | .byte => 1
  | .word => 2

def holds : PushWidth → Int → Bool
  | .byte, v => 0 ≤ v && v ≤ 255
  | .word, v => -32768 ≤ v && v ≤ 32767

def encode : PushWidth → Int → Bytes
  | .byte, v => [UInt8.ofNat v.toNat]
  | .word, v => [Word.high v, Word.low v]

/-- The operand at the front of a byte string, and the bytes after it. -/
def read? : PushWidth → Bytes → Option (Int × Bytes)
  | .byte, b :: rest => some (b.toNat, rest)
  | .word, high :: low :: rest => some (Word.ofBytes high low, rest)
  | _, _ => none

theorem length_encode (w : PushWidth) (v : Int) : (w.encode v).length = w.size := by
  cases w <;> rfl

theorem read?_encode_append {w : PushWidth} {v : Int} (h : w.holds v = true) (rest : Bytes) :
    w.read? (w.encode v ++ rest) = some (v, rest) := by
  cases w with
  | byte =>
    simp only [holds, Bool.and_eq_true, decide_eq_true_eq] at h
    have e : v.toNat % 256 = v.toNat := Nat.mod_eq_of_lt (by omega)
    simp only [encode, read?, List.cons_append, List.nil_append, UInt8.toNat_ofNat', e]
    congr 2
    omega
  | word =>
    simp only [holds, Bool.and_eq_true, decide_eq_true_eq] at h
    simp [encode, read?, Word.ofBytes_high_low h]

theorem eq_encode_append_of_read? {w : PushWidth} {p rest : Bytes} {v : Int}
    (h : w.read? p = some (v, rest)) : p = w.encode v ++ rest ∧ w.holds v = true := by
  match w, p with
  | .byte, b :: p =>
    obtain ⟨rfl, rfl⟩ : (b.toNat : Int) = v ∧ p = rest := by simpa [read?] using h
    have := b.toNat_lt
    simp [encode, holds]
    omega
  | .word, high :: low :: p =>
    obtain ⟨rfl, rfl⟩ : Word.ofBytes high low = v ∧ p = rest := by simpa [read?] using h
    have := Word.ofBytes_range high low
    simp [encode, holds, this]

/-! ## A list of operands -/

/-- A number of operands at the front of a byte string, and the bytes after them. -/
def readMany? (w : PushWidth) : Nat → Bytes → Option (List Int × Bytes)
  | 0, p => some ([], p)
  | count + 1, p => do
    let (v, p) ← w.read? p
    let (vs, p) ← w.readMany? count p
    return (v :: vs, p)

def encodeMany (w : PushWidth) (values : List Int) : Bytes := values.flatMap w.encode

theorem length_encodeMany (w : PushWidth) (values : List Int) :
    (w.encodeMany values).length = w.size * values.length := by
  induction values with
  | nil => rfl
  | cons v vs ih =>
    simp only [encodeMany, List.flatMap_cons, List.length_append, length_encode,
      List.length_cons] at *
    rw [ih, Nat.mul_succ, Nat.add_comm]

theorem readMany?_encodeMany_append {w : PushWidth} {values : List Int}
    (h : ∀ v ∈ values, w.holds v = true) (rest : Bytes) :
    w.readMany? values.length (w.encodeMany values ++ rest) = some (values, rest) := by
  induction values with
  | nil => rfl
  | cons v vs ih =>
    rw [List.forall_mem_cons] at h
    simp only [encodeMany, List.flatMap_cons, List.append_assoc, List.length_cons, readMany?,
      read?_encode_append h.1] at *
    simp [ih h.2]

theorem eq_encodeMany_append_of_readMany? {w : PushWidth} {count : Nat} {p rest : Bytes}
    {values : List Int} (h : w.readMany? count p = some (values, rest)) :
    p = w.encodeMany values ++ rest ∧ values.length = count ∧
      ∀ v ∈ values, w.holds v = true := by
  induction count generalizing p values with
  | zero =>
    obtain ⟨rfl, rfl⟩ : [] = values ∧ p = rest := by simpa [readMany?] using h
    simp [encodeMany]
  | succ count ih =>
    simp only [readMany?, Option.bind_eq_bind, Option.bind_eq_some_iff, Option.pure_def,
      Option.some.injEq, Prod.mk.injEq] at h
    obtain ⟨⟨v, q⟩, hv, ⟨vs, r⟩, hvs, rfl, rfl⟩ := h
    obtain ⟨rfl, holds_v⟩ := eq_encode_append_of_read? hv
    obtain ⟨rfl, rfl, holds_vs⟩ := ih hvs
    simp [encodeMany, holds_v]
    exact holds_vs

end PushWidth

end Hinting
