/-
# `Hinting.Proofs.Numerals` — binary numerals of a fixed width, and integers

With a width `w` above zero, the numbers below `2 ^ w` and the texts of `w` binary
digits are one and the same: `length_binary` and `binary?_binary` lead from the
number to the text and back, `binary_of_binary?` from the text to the number and
back.  Behind the second stands that digits are read one to one
(`eq_of_ofDigitChars`), by induction from the last digit on, which is where the
value is divided.

An integer is written in digits and minus signs alone (`mem_signed`), and read from
digits with or without a minus sign in front (`signed?_eq_some_iff`).
-/
import Hinting.Bits

namespace Hinting.Numeral

/-! ## Writing in binary -/

theorem exists_digit_of_mem_toDigits {b : Nat} (hb : 1 < b) : ∀ (n : Nat) {c : Char},
    c ∈ Nat.toDigits b n → ∃ d, d < b ∧ c = d.digitChar := by
  intro n
  induction n using Nat.strongRecOn with
  | ind n ih =>
      intro c hc
      rw [Nat.toDigits_eq_if hb] at hc
      split at hc
      · rename_i single
        exact ⟨n, single, List.mem_singleton.mp hc⟩
      · rename_i more
        rcases List.mem_append.mp hc with front | last
        · exact ih (n / b) (Nat.div_lt_self (by omega) hb) front
        · exact ⟨n % b, Nat.mod_lt n (by omega), List.mem_singleton.mp last⟩

theorem mem_padded {base width n : Nat} {c : Char} (h : c ∈ padded base width n) :
    c = '0' ∨ c ∈ Nat.toDigits base n := by
  rcases List.mem_append.mp h with zero | digit
  · exact .inl (List.eq_of_mem_replicate zero)
  · exact .inr digit

theorem all_isBinaryDigit_binary (width n : Nat) : (binary width n).all isBinaryDigit = true := by
  refine List.all_eq_true.mpr fun c hc => ?_
  rcases mem_padded hc with rfl | digit
  · rfl
  · obtain ⟨d, hd, rfl⟩ := exists_digit_of_mem_toDigits (by omega) n digit
    obtain rfl | rfl : d = 0 ∨ d = 1 := by omega
    · rfl
    · rfl

theorem length_padded {base width n : Nat} (hb : 1 < base) (some_digit : 0 < width)
    (h : n < base ^ width) : (padded base width n).length = width := by
  have short := (Nat.length_toDigits_le_iff hb some_digit).mpr h
  rw [padded, List.length_leftpad]
  omega

theorem length_binary {width n : Nat} (some_digit : 0 < width) (h : n < 2 ^ width) :
    (binary width n).length = width :=
  length_padded (by omega) some_digit h

theorem binary?_binary (width n : Nat) : binary? (binary width n) = some n := by
  rw [binary?, if_pos (all_isBinaryDigit_binary width n), binary, padded, List.leftpad,
    Nat.ofDigitChars_append, Nat.ofDigitChars_replicate_zero, Nat.mul_zero,
    Nat.ofDigitChars_toDigits (by omega) (by omega)]

/-! ## Reading binary digits -/

theorem eq_append_singleton_of_length {ds : Text} {n : Nat} (h : ds.length = n + 1) :
    ∃ front c, ds = front ++ [c] := by
  have some_digit : ds ≠ [] := List.length_pos_iff.mp (by omega)
  exact ⟨ds.dropLast, ds.getLast some_digit, (List.dropLast_concat_getLast some_digit).symm⟩

theorem ofDigitChars_append_singleton {c : Char} (h : isBinaryDigit c = true) (ds : Text) :
    ∃ d, d < 2 ∧ c = d.digitChar ∧
      Nat.ofDigitChars 2 (ds ++ [c]) 0 = 2 * Nat.ofDigitChars 2 ds 0 + d := by
  simp only [isBinaryDigit, Bool.or_eq_true, beq_iff_eq] at h
  rcases h with rfl | rfl
  · exact ⟨0, by omega, rfl, by rw [Nat.ofDigitChars_append]; rfl⟩
  · exact ⟨1, by omega, rfl, by rw [Nat.ofDigitChars_append]; rfl⟩

theorem eq_of_ofDigitChars : ∀ (n : Nat) {ds ds' : Text}, ds.length = n → ds'.length = n →
    ds.all isBinaryDigit = true → ds'.all isBinaryDigit = true →
      Nat.ofDigitChars 2 ds 0 = Nat.ofDigitChars 2 ds' 0 → ds = ds' := by
  intro n
  induction n with
  | zero =>
      intro ds ds' length length' _ _ _
      rw [List.length_eq_zero_iff.mp length, List.length_eq_zero_iff.mp length']
  | succ n ih =>
      intro ds ds' length length' digits digits' value
      obtain ⟨front, c, rfl⟩ := eq_append_singleton_of_length length
      obtain ⟨front', c', rfl⟩ := eq_append_singleton_of_length length'
      simp only [List.all_append, List.all_cons, List.all_nil, Bool.and_true,
        Bool.and_eq_true] at digits digits'
      obtain ⟨d, hd, rfl, split⟩ := ofDigitChars_append_singleton digits.2 front
      obtain ⟨d', hd', rfl, split'⟩ := ofDigitChars_append_singleton digits'.2 front'
      rw [split, split'] at value
      obtain rfl : d = d' := by omega
      rw [ih (by simpa using length) (by simpa using length') digits.1 digits'.1 (by omega)]

theorem ofDigitChars_lt : ∀ (n : Nat) {ds : Text}, ds.length = n →
    ds.all isBinaryDigit = true → Nat.ofDigitChars 2 ds 0 < 2 ^ n := by
  intro n
  induction n with
  | zero =>
      intro ds length _
      rw [List.length_eq_zero_iff.mp length]
      exact Nat.one_pos
  | succ n ih =>
      intro ds length digits
      obtain ⟨front, c, rfl⟩ := eq_append_singleton_of_length length
      simp only [List.all_append, List.all_cons, List.all_nil, Bool.and_true,
        Bool.and_eq_true] at digits
      obtain ⟨d, hd, _, split⟩ := ofDigitChars_append_singleton digits.2 front
      have bound := ih (by simpa using length) digits.1
      rw [split, Nat.pow_succ]
      omega

theorem binary?_eq_some_iff {ds : Text} {n : Nat} : binary? ds = some n ↔
    ds.all isBinaryDigit = true ∧ n = Nat.ofDigitChars 2 ds 0 := by
  rw [binary?]
  split
  · rename_i digits
    simp [digits, eq_comm]
  · rename_i other
    simp [other]

theorem binary_of_binary? {ds : Text} {n : Nat} (h : binary? ds = some n) :
    n < 2 ^ ds.length ∧ (ds ≠ [] → binary ds.length n = ds) := by
  obtain ⟨digits, rfl⟩ := binary?_eq_some_iff.mp h
  have bound := ofDigitChars_lt ds.length rfl digits
  refine ⟨bound, fun some_digit => ?_⟩
  have length := length_binary (List.length_pos_iff.mpr some_digit) bound
  obtain ⟨digits', value⟩ :=
    binary?_eq_some_iff.mp (binary?_binary ds.length (Nat.ofDigitChars 2 ds 0))
  exact eq_of_ofDigitChars ds.length length rfl digits' digits value.symm

/-! ## Integers -/

theorem mem_signed {v : Int} {c : Char} (h : c ∈ signed v) : c = '-' ∨ c.isDigit = true := by
  cases v with
  | ofNat n => exact .inr (Nat.isDigit_of_mem_toDigits (by omega) (by omega) h)
  | negSucc n =>
      rcases List.mem_cons.mp h with sign | digit
      · exact .inl sign
      · exact .inr (Nat.isDigit_of_mem_toDigits (by omega) (by omega) digit)

theorem signed_ne_nil (v : Int) : signed v ≠ [] := by
  cases v with
  | ofNat n => exact Nat.toDigits_ne_nil
  | negSucc n => exact List.cons_ne_nil _ _

/-! ## Reading integers -/

/-- `Writes v w`: the text `w` is the integer `v`, in decimal digits with or without a minus
sign in front. -/
inductive Writes : Int → Text → Prop
  | plain {ds : Text} : ds ≠ [] → (∀ c ∈ ds, c.isDigit = true) →
      Writes (Nat.ofDigitChars 10 ds 0) ds
  | minus {ds : Text} : ds ≠ [] → (∀ c ∈ ds, c.isDigit = true) →
      Writes (-(Nat.ofDigitChars 10 ds 0 : Int)) ('-' :: ds)

theorem decimal?_eq_some_iff {ds : Text} {n : Nat} : decimal? ds = some n ↔
    ds ≠ [] ∧ (∀ c ∈ ds, c.isDigit = true) ∧ n = Nat.ofDigitChars 10 ds 0 := by
  rw [decimal?]
  split
  · rename_i digits
    constructor
    · intro h
      exact ⟨digits.1, List.all_eq_true.mp digits.2, (Option.some.inj h).symm⟩
    · rintro ⟨_, _, rfl⟩
      rfl
  · rename_i other
    constructor
    · intro h
      cases h
    · rintro ⟨some_digit, digits, _⟩
      exact absurd ⟨some_digit, List.all_eq_true.mpr digits⟩ other

theorem signed?_eq_some_iff {w : Text} {v : Int} : signed? w = some v ↔ Writes v w := by
  constructor
  · intro read
    unfold signed? at read
    split at read
    · rename_i ds
      obtain ⟨n, lifted, rfl⟩ := Option.map_eq_some_iff.mp read
      obtain ⟨m, found, same⟩ := Option.bind_eq_some_iff.mp lifted
      obtain rfl := Option.some.inj same
      obtain ⟨some_digit, digits, rfl⟩ := decimal?_eq_some_iff.mp found
      exact .minus some_digit digits
    · obtain ⟨n, found, rfl⟩ := Option.map_eq_some_iff.mp read
      obtain ⟨some_digit, digits, rfl⟩ := decimal?_eq_some_iff.mp found
      exact .plain some_digit digits
  · intro h
    cases h with
    | @plain ds some_digit digits =>
        have unsigned : ∀ rest, w = '-' :: rest → False := by
          rintro rest rfl
          cases digits _ List.mem_cons_self
        rw [signed?.eq_2 _ unsigned, decimal?_eq_some_iff.mpr ⟨some_digit, digits, rfl⟩]
        rfl
    | @minus ds some_digit digits =>
        rw [signed?, decimal?_eq_some_iff.mpr ⟨some_digit, digits, rfl⟩]
        rfl

end Hinting.Numeral
