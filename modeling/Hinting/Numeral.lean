/-
# `Hinting.Numeral` — writing and reading numbers

Numbers are written in three ways: in hexadecimal and binary with zeros in front
up to a least number of digits, and in decimal with a minus sign where it is
needed.  A least number of digits is no greatest one: a longer numeral is written
in full.  The readers accept what the decimal and binary writers produce and, in
addition, any number of zeros in front.
-/
import Hinting.Text

namespace Hinting.Numeral

/-! ## Writing -/

/-- The digits of `n`, with zeros in front up to `width` of them. -/
def padded (base width n : Nat) : Text :=
  (Nat.toDigits base n).leftpad width '0'

/-- Lower case hexadecimal, at least `width` digits. -/
def hex (width n : Nat) : Text := padded 16 width n

def binary (width n : Nat) : Text := padded 2 width n

def decimal (n : Nat) : Text := Nat.toDigits 10 n

/-- Decimal with a minus sign in front of a negative number. -/
def signed : Int → Text
  | .ofNat n => decimal n
  | .negSucc n => '-' :: decimal (n + 1)

/-! ## Reading -/

/-- The number written by one or more decimal digits. -/
def decimal? (digits : Text) : Option Nat :=
  if digits ≠ [] ∧ digits.all Char.isDigit then some (Nat.ofDigitChars 10 digits 0) else none

/-- The number written by decimal digits with or without a minus sign in front. -/
def signed? : Text → Option Int
  | '-' :: digits => (decimal? digits).map fun n => -(n : Int)
  | digits => (decimal? digits).map Int.ofNat

/-- Whether a character is a binary digit. -/
def isBinaryDigit (c : Char) : Bool := c == '0' || c == '1'

/-- The number written by binary digits; no digit at all writes zero. -/
def binary? (digits : Text) : Option Nat :=
  if digits.all isBinaryDigit then some (Nat.ofDigitChars 2 digits 0) else none

/-! ## Reading back what was written -/

@[simp] theorem decimal?_decimal (n : Nat) : decimal? (decimal n) = some n := by
  have digits : (decimal n).all Char.isDigit = true :=
    List.all_eq_true.2 fun _ hc => Nat.isDigit_of_mem_toDigits (by decide) (by decide) hc
  have some_digit : decimal n ≠ [] := List.length_pos_iff.1 Nat.length_toDigits_pos
  rw [decimal?, if_pos ⟨some_digit, digits⟩, decimal,
    Nat.ofDigitChars_toDigits (by decide) (by decide)]

theorem head?_decimal_ne (n : Nat) : (decimal n).head? ≠ some '-' := by
  intro h
  have : ('-' : Char).isDigit = true :=
    Nat.isDigit_of_mem_toDigits (b := 10) (n := n) (by decide) (by decide) (List.mem_of_head? h)
  exact absurd this (by decide)

@[simp] theorem signed?_signed (v : Int) : signed? (signed v) = some v := by
  cases v with
  | ofNat n =>
    have h := head?_decimal_ne n
    have read := decimal?_decimal n
    simp only [signed]
    match hd : decimal n with
    | [] => rw [hd] at read; simp [decimal?] at read
    | c :: cs =>
      rw [hd] at h read
      have hc : c ≠ '-' := by simpa using h
      rw [signed?]
      · simp [read]
      · simpa using hc
  | negSucc n => simp [signed, signed?, Int.negSucc_eq]

theorem le_length_padded (base width n : Nat) : width ≤ (padded base width n).length := by
  simp only [padded, List.length_leftpad]
  omega

end Hinting.Numeral
