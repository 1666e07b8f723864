/-
# `Hinting.Proofs.Hexadecimal` — hexadecimal numerals, read back

A hexadecimal numeral has a least number of digits and no greatest one, so the number
has to be found whatever the width is (`hex?_hex`):

    hex 4 65535 = ffff        hex 4 65536 = 10000        hex 4 0 = 0000

The reader takes one digit after the other, and the writer finds the last one first;
the induction is on the number, by the sixteenth part of it.  Two digits are enough
for a byte (`byte?_hex`).
-/
import Hinting.Proofs.Numerals

namespace Hinting.Numeral

/-! ## Digits -/

def hexDigits : Text := (List.range 16).map Nat.digitChar

/-- The value of a digit. -/
def hexDigit? (c : Char) : Option Nat := hexDigits.idxOf? c

theorem hexDigit?_digitChar : ∀ d < 16, hexDigit? d.digitChar = some d := by decide

theorem digitChar_mem_hexDigits {d : Nat} (h : d < 16) : d.digitChar ∈ hexDigits :=
  List.mem_map_of_mem (List.mem_range.mpr h)

theorem mem_hexDigits_of_mem_hex {width n : Nat} {c : Char} (h : c ∈ hex width n) :
    c ∈ hexDigits := by
  rcases mem_padded h with rfl | digit
  · decide
  · obtain ⟨d, hd, rfl⟩ := exists_digit_of_mem_toDigits (by omega) n digit
    exact digitChar_mem_hexDigits hd

theorem isWhite_of_mem_hexDigits {c : Char} (h : c ∈ hexDigits) : Text.isWhite c = false := by
  have solid : hexDigits.all (fun c => !Text.isWhite c) = true := rfl
  exact Bool.not_inj (List.all_eq_true.mp solid c h)

theorem hex_ne_nil (width n : Nat) : hex width n ≠ [] := by
  rw [hex, padded, List.leftpad]
  exact List.append_ne_nil_of_right_ne_nil _ Nat.toDigits_ne_nil

/-! ## Reading numbers -/

/-- The number that digits spell after a number that is known already. -/
def hexFrom? (n : Nat) (digits : Text) : Option Nat :=
  digits.foldlM (fun n c => (hexDigit? c).map (16 * n + ·)) n

/-- The number written by one or more hexadecimal digits. -/
def hex? (digits : Text) : Option Nat :=
  if digits = [] then none else hexFrom? 0 digits

theorem hexFrom?_append (n : Nat) (ds ds' : Text) :
    hexFrom? n (ds ++ ds') = (hexFrom? n ds).bind (hexFrom? · ds') :=
  List.foldlM_append

theorem hexFrom?_digitChar (n : Nat) {d : Nat} (h : d < 16) :
    hexFrom? n [d.digitChar] = some (16 * n + d) := by
  simp [hexFrom?, hexDigit?_digitChar d h]

theorem hexFrom?_replicate_zero : ∀ k : Nat, hexFrom? 0 (List.replicate k '0') = some 0 := by
  intro k
  induction k with
  | zero => rfl
  | succ k ih => rwa [List.replicate_succ, ← List.singleton_append, hexFrom?_append,
      show '0' = Nat.digitChar 0 from rfl, hexFrom?_digitChar 0 (by decide)]

theorem hexFrom?_toDigits (n : Nat) : hexFrom? 0 (Nat.toDigits 16 n) = some n := by
  induction n using Nat.strongRecOn with
  | ind n ih =>
      rw [Nat.toDigits_eq_if (by decide)]
      split
      · rename_i single
        rw [hexFrom?_digitChar 0 single, Nat.mul_zero, Nat.zero_add]
      · rename_i more
        rw [hexFrom?_append, ih (n / 16) (Nat.div_lt_self (by omega) (by decide)),
          Option.bind_some, hexFrom?_digitChar _ (Nat.mod_lt n (by decide)), Nat.div_add_mod]

/-- **A number is found in its digits,** however many they are. -/
theorem hex?_hex (width n : Nat) : hex? (hex width n) = some n := by
  rw [hex?, if_neg (hex_ne_nil width n), hex, padded, List.leftpad, hexFrom?_append,
    hexFrom?_replicate_zero, Option.bind_some, hexFrom?_toDigits]

/-! ## Reading bytes -/

def byte? (digits : Text) : Option UInt8 :=
  if digits.length = 2 then (hex? digits).map UInt8.ofNat else none

theorem byte?_hex (b : UInt8) : byte? (hex 2 b.toNat) = some b := by
  have two : (hex 2 b.toNat).length = 2 := length_padded (by decide) (by decide) b.toNat_lt
  rw [byte?, if_pos two, hex?_hex, Option.map_some, UInt8.ofNat_toNat]

end Hinting.Numeral
