/-
# `Hinting.Proofs.ValuesLine` — the grammar of values lines

The reader of values lines (`Values.ofLine?`) is measured against the form of the line, like
the reader of header lines in `Hinting.Proofs.HeaderLine`:

    line = lead ++ integer ++ gap ++ integer ++ … ++ integer ++ trail

with blanks for the lead and the trail and at least one blank for a gap
(`Values.Spells`).  An integer is decimal digits, with or without a minus sign in front
(`Numeral.Writes`), and has to fit into 32 bits with a sign (`Values.Spelling`).

The parser gives the last blanks back, for no integer follows them, and the trail takes them
(`further_of_allBlank`).  Up to there the form and what is read are the same by induction on
the integers, one for each separator.

A line of the form is its words, each read as an integer (`Values.ofLine?_eq`).  So blanks
at the ends of a line change nothing, and values joined by spaces are read back.

Every character of a values line is a blank, a digit or a minus sign.  A header line
has a bracket in it, and no line is both.  With that both readers of source lines are known by
the form of the lines they take (`lines_read_by_form`).
-/
import Hinting.Instruction
import Hinting.Proofs.HeaderLine
import Hinting.Proofs.Numerals

namespace Hinting

open Hinting.Parser

/-! ## Integers -/

theorem Numeral.Writes.isWord {v : Int} {w : Text} (h : Writes v w) : Text.IsWord w := by
  have digit : ∀ {ds : Text}, (∀ c ∈ ds, c.isDigit = true) →
      ∀ c ∈ ds, Text.isBlank c = false := by
    intro ds digits c hc
    exact Header.isBlank_of_isAlphanum (by simp [Char.isAlphanum, digits c hc])
  cases h with
  | plain some_digit digits => exact ⟨some_digit, digit digits⟩
  | minus some_digit digits =>
      exact ⟨List.cons_ne_nil _ _, List.forall_mem_cons.mpr ⟨rfl, digit digits⟩⟩

namespace Values

open Text

theorem fits_iff {v : Int} : fits v = true ↔ -2147483648 ≤ v ∧ v ≤ 2147483647 := by
  rw [fits, Bool.and_eq_true, decide_eq_true_eq, decide_eq_true_eq]

theorem ofWord?_eq_some_iff {w : Text} {v : Int} : ofWord? w = some v ↔
    Numeral.Writes v w ∧ -2147483648 ≤ v ∧ v ≤ 2147483647 := by
  rw [ofWord?, Option.filter_eq_some_iff, Numeral.signed?_eq_some_iff, fits_iff]

theorem reads_integer {w r : Text} {v : Int} : integer.Reads w v r ↔
    (Numeral.Writes v w ∧ -2147483648 ≤ v ∧ v ≤ 2147483647) ∧ Stops Char.isDigit r := by
  rw [integer, reads_filterMap]
  constructor
  · rintro ⟨_, read, value⟩
    obtain ⟨rfl, ds, digits⟩ := reads_recognize.mp read
    obtain ⟨_, _, _, rfl, _, digits⟩ := reads_bind.mp digits
    exact ⟨ofWord?_eq_some_iff.mp value, (reads_takeWhile1.mp digits).2.2.2⟩
  · rintro ⟨written, stop⟩
    refine ⟨w, reads_recognize.mpr ⟨rfl, ?_⟩, ofWord?_eq_some_iff.mpr written⟩
    cases written.1 with
    | @plain ds some_digit digits =>
        have unsigned : (tag ['-']).run (w ++ r) = none := by
          obtain ⟨c, rest, rfl⟩ := List.exists_cons_of_ne_nil some_digit
          refine if_neg fun sign => ?_
          obtain ⟨rfl, _⟩ := List.cons_prefix_cons.mp sign
          cases digits _ List.mem_cons_self
        exact ⟨w, reads_bind.mpr ⟨[], none, w, rfl,
          reads_optional.mpr (.inr ⟨rfl, rfl, unsigned⟩),
          reads_takeWhile1.mpr ⟨rfl, some_digit, digits, stop⟩⟩⟩
    | @minus ds some_digit digits =>
        exact ⟨ds, reads_bind.mpr ⟨['-'], some ['-'], ds, rfl,
          reads_optional.mpr (.inl ⟨['-'], rfl, reads_tag.mpr ⟨rfl, rfl⟩⟩),
          reads_takeWhile1.mpr ⟨rfl, some_digit, digits, stop⟩⟩⟩

/-! ## The form of a values line -/

/-- `Spelling vs t`: the text `t` is the integers `vs` with blanks between them and, if any,
after the last.  Each of them has 32 bits with a sign. -/
inductive Spelling : List Int → Text → Prop
  | last {v : Int} {w trail : Text} :
      Numeral.Writes v w → -2147483648 ≤ v → v ≤ 2147483647 → AllBlank trail →
      Spelling [v] (w ++ trail)
  | cons {v : Int} {vs : List Int} {w gap rest : Text} :
      Numeral.Writes v w → -2147483648 ≤ v → v ≤ 2147483647 → gap ≠ [] → AllBlank gap →
      Spelling vs rest → Spelling (v :: vs) (w ++ (gap ++ rest))

/-- The line has the form of a values line with the values `vs`. -/
def Spells (vs : List Int) (line : Text) : Prop :=
  ∃ lead spelling, AllBlank lead ∧ Spelling vs spelling ∧ line = lead ++ spelling

theorem Spelling.head {vs : List Int} {t : Text} (h : Spelling vs t) :
    ∃ c r, t = c :: r ∧ isBlank c = false := by
  have first : ∀ {v : Int} {w : Text}, Numeral.Writes v w → ∀ rest : Text,
      ∃ c r, w ++ rest = c :: r ∧ isBlank c = false := by
    intro v w written rest
    obtain ⟨some_char, solid⟩ := written.isWord
    obtain ⟨c, w, rfl⟩ := List.exists_cons_of_ne_nil some_char
    exact ⟨c, w ++ rest, rfl, solid c List.mem_cons_self⟩
  cases h with
  | last written => exact first written _
  | cons written => exact first written _

/-- Blanks at the end are given back. -/
theorem further_of_allBlank {t : Text} (h : AllBlank t) :
    further gap (consumes_takeWhile1 _) integer t = ([], t) := by
  cases read : gap.run t with
  | none => exact further_of_none read
  | some parts =>
      obtain ⟨s, rest⟩ := parts
      refine further_of_alone read ?_
      obtain ⟨w, rfl, front⟩ := exists_reads read
      have stop := (reads_takeWhile1.mp front).2.2.2
      cases rest with
      | nil => rfl
      | cons c rest => cases (h c (by simp)).symm.trans (stop c rest rfl)

theorem isDigit_of_isBlank {c : Char} (h : isBlank c = true) : c.isDigit = false := by
  rw [Bool.eq_false_iff]
  intro digit
  cases h.symm.trans (Header.isBlank_of_isAlphanum (by simp [Char.isAlphanum, digit]))

theorem spelling_of_separated {vs : List Int} {w trail : Text} (blank : AllBlank trail)
    (h : Separated gap (consumes_takeWhile1 _) integer vs w trail) :
    Spelling vs (w ++ trail) := by
  induction h with
  | last first _ =>
      obtain ⟨⟨written, low, high⟩, _⟩ := reads_integer.mp first
      exact .last written low high blank
  | cons first between _ ih =>
      obtain ⟨⟨written, low, high⟩, _⟩ := reads_integer.mp first
      obtain ⟨_, some_blank, blanks, _⟩ := reads_takeWhile1.mp between
      rw [List.append_assoc, List.append_assoc]
      exact .cons written low high some_blank blanks (ih blank)

theorem exists_separated {vs : List Int} {t : Text} (h : Spelling vs t) :
    ∃ w trail, t = w ++ trail ∧ AllBlank trail ∧
      Separated gap (consumes_takeWhile1 _) integer vs w trail := by
  induction h with
  | @last v w trail written low high blank =>
      have stop := blank.stops fun _ => isDigit_of_isBlank
      exact ⟨w, trail, rfl, blank,
        .last (reads_integer.mpr ⟨⟨written, low, high⟩, stop⟩) (further_of_allBlank blank)⟩
  | @cons v vs w gap' rest written low high some_blank blanks spelled ih =>
      obtain ⟨later, trail, rfl, blank, separated⟩ := ih
      have stop : Stops Char.isDigit (gap' ++ (later ++ trail)) := by
        obtain ⟨c, g, rfl⟩ := List.exists_cons_of_ne_nil some_blank
        exact stops_cons (isDigit_of_isBlank (blanks c List.mem_cons_self))
      have solid : Stops isBlank (later ++ trail) := by
        obtain ⟨c, r, eq, solid⟩ := spelled.head
        rw [eq]
        exact stops_cons solid
      refine ⟨w ++ (gap' ++ later), trail, by simp, blank, ?_⟩
      exact .cons (reads_integer.mpr ⟨⟨written, low, high⟩, stop⟩)
        (reads_takeWhile1.mpr ⟨rfl, some_blank, blanks, solid⟩) separated

/-- The reader takes the lines of the form, and gives their values in order. -/
theorem ofLine?_eq_some_iff {line : Text} {vs : List Int} :
    ofLine? line = some vs ↔ Spells vs line := by
  rw [ofLine?, all_eq_some_iff, parser, reads_delimited]
  constructor
  · rintro ⟨lead, _, w, trail, _, rfl, front, list, back⟩
    obtain ⟨_, blank, _⟩ := reads_blanks.mp back
    have separated := reads_separatedList1.mp list
    rw [List.append_nil] at separated
    exact ⟨lead, w ++ trail, (reads_blanks.mp front).2.1,
      spelling_of_separated blank separated, rfl⟩
  · rintro ⟨lead, spelling, leading, spelled, rfl⟩
    have solid : Stops isBlank spelling := by
      obtain ⟨c, r, eq, solid⟩ := spelled.head
      rw [eq]
      exact stops_cons solid
    obtain ⟨w, trail, rfl, blank, separated⟩ := exists_separated spelled
    refine ⟨lead, lead, w, trail, trail, rfl, ?_, ?_, reads_blanks.mpr ⟨rfl, blank, stops_nil _⟩⟩
    · rw [List.append_nil]
      exact reads_blanks.mpr ⟨rfl, leading, solid⟩
    · rw [List.append_nil]
      exact reads_separatedList1.mpr separated

/-! ## Values lines and their words -/

theorem mapM_cons_eq_some_iff {w : Text} {ws : List Text} {vs : List Int} :
    (w :: ws).mapM ofWord? = some vs ↔
      ∃ v vs', vs = v :: vs' ∧ ofWord? w = some v ∧ ws.mapM ofWord? = some vs' := by
  rw [List.mapM_cons, Option.bind_eq_bind, Option.bind_eq_some_iff]
  constructor
  · rintro ⟨v, first, rest⟩
    obtain ⟨vs', later, eq⟩ := Option.bind_eq_some_iff.mp rest
    exact ⟨v, vs', (Option.some.inj eq).symm, first, later⟩
  · rintro ⟨v, vs', rfl, first, later⟩
    exact ⟨v, first, Option.bind_eq_some_iff.mpr ⟨vs', later, rfl⟩⟩

theorem Spelling.words {vs : List Int} {t : Text} (h : Spelling vs t) :
    Text.words t ≠ [] ∧ (Text.words t).mapM ofWord? = some vs := by
  induction h with
  | @last v w trail written low high blank =>
      rw [words_append blank, written.isWord.words_eq, mapM_cons_eq_some_iff]
      exact ⟨List.cons_ne_nil _ _, v, [], rfl, ofWord?_eq_some_iff.mpr ⟨written, low, high⟩, rfl⟩
  | @cons v vs w gap rest written low high some_blank blank _ ih =>
      have stop : gap ++ rest = [] ∨ ∃ c r, gap ++ rest = c :: r ∧ isBlank c = true := by
        obtain ⟨c, gap, rfl⟩ := List.exists_cons_of_ne_nil some_blank
        exact .inr ⟨c, gap ++ rest, rfl, blank c List.mem_cons_self⟩
      rw [words_append_of_isWord written.isWord stop, words_prepend blank, mapM_cons_eq_some_iff]
      exact ⟨List.cons_ne_nil _ _, v, vs, rfl, ofWord?_eq_some_iff.mpr ⟨written, low, high⟩, ih.2⟩

/-- A text whose words are integers is a spelling of them, less the blanks before it. -/
theorem exists_spelling {ws : List Text} : ∀ {t : Text} {vs : List Int}, words t = ws →
    ws ≠ [] → ws.mapM ofWord? = some vs → Spells vs t := by
  induction ws with
  | nil => intro t vs _ none _; exact absurd rfl none
  | cons w ws ih =>
      intro t vs split _ read
      obtain ⟨v, vs, rfl, value, later⟩ := mapM_cons_eq_some_iff.mp read
      obtain ⟨written, low, high⟩ := ofWord?_eq_some_iff.mp value
      obtain ⟨lead, rest, blank, rfl, others, stop⟩ := exists_of_words split
      refine ⟨lead, w ++ rest, blank, ?_, rfl⟩
      by_cases single : ws = []
      · subst single
        obtain rfl := Option.some.inj later
        exact .last written low high (allBlank_of_words_eq_nil others)
      · obtain ⟨gap, spelling, blanks, spelled, rfl⟩ := ih others single later
        refine .cons written low high ?_ blanks spelled
        -- With no blank after it, the word would go on into the next one.
        rintro rfl
        obtain ⟨c, r, rfl, solid⟩ := spelled.head
        rcases stop with none | ⟨d, r', eq, blank⟩
        · cases none
        · obtain ⟨rfl, _⟩ := List.cons.inj eq
          cases solid.symm.trans blank

theorem ofLine?_eq (line : Text) :
    ofLine? line = if words line = [] then none else (words line).mapM ofWord? := by
  refine Option.ext fun vs => ?_
  rw [ofLine?_eq_some_iff]
  constructor
  · rintro ⟨lead, spelling, blank, spelled, rfl⟩
    rw [words_prepend blank, if_neg spelled.words.1]
    exact spelled.words.2
  · intro read
    split at read
    · cases read
    · rename_i some_word
      exact exists_spelling rfl some_word read

theorem ofLine?_padded {line line' : Text} (h : Padded line line') :
    ofLine? line' = ofLine? line := by
  rw [ofLine?_eq, ofLine?_eq, words_padded h]

theorem isWord_signed (v : Int) : IsWord (Numeral.signed v) := by
  refine ⟨Numeral.signed_ne_nil v, fun c hc => ?_⟩
  rcases Numeral.mem_signed hc with rfl | digit
  · rfl
  · exact Header.isBlank_of_isAlphanum (by simp [Char.isAlphanum, digit])

theorem ofWord?_signed {v : Int} (h : fits v = true) : ofWord? (Numeral.signed v) = some v := by
  simp [ofWord?, h]

theorem ofLine?_intercalate {vs : List Int} (some_value : vs ≠ [])
    (h : ∀ v ∈ vs, fits v = true) :
    ofLine? ([' '].intercalate (vs.map Numeral.signed)) = some vs := by
  have written : words ([' '].intercalate (vs.map Numeral.signed)) = vs.map Numeral.signed := by
    refine words_intercalate fun w hw => ?_
    obtain ⟨v, _, rfl⟩ := List.mem_map.mp hw
    exact isWord_signed v
  rw [ofLine?_eq, written, if_neg (by simpa using some_value), List.mapM_map]
  clear written some_value
  induction vs with
  | nil => rfl
  | cons v vs ih =>
      obtain ⟨hv, hvs⟩ := List.forall_mem_cons.mp h
      rw [List.mapM_cons, ih hvs, Function.comp_apply, ofWord?_signed hv]
      rfl

/-! ## Values lines and header lines -/

theorem mem_of_ofWord? {w : Text} {v : Int} (h : ofWord? w = some v) {c : Char} (hc : c ∈ w) :
    c = '-' ∨ c.isDigit = true := by
  obtain ⟨read, _⟩ := Option.filter_eq_some_iff.mp h
  cases Numeral.signed?_eq_some_iff.mp read with
  | plain _ digits => exact .inr (digits c hc)
  | minus _ digits =>
      rcases List.mem_cons.mp hc with sign | digit
      · exact .inl sign
      · exact .inr (digits c digit)

theorem exists_of_mapM {ws : List Text} : ∀ {vs : List Int}, ws.mapM ofWord? = some vs →
    ∀ w ∈ ws, ∃ v, ofWord? w = some v := by
  induction ws with
  | nil => intro vs _ w hw; cases hw
  | cons w ws ih =>
      intro vs read
      obtain ⟨v, vs, rfl, first, later⟩ := mapM_cons_eq_some_iff.mp read
      exact List.forall_mem_cons.mpr ⟨⟨v, first⟩, ih later⟩

theorem mem_of_ofLine? {line : Text} {vs : List Int} (h : ofLine? line = some vs) {c : Char}
    (hc : c ∈ line) : isBlank c = true ∨ c = '-' ∨ c.isDigit = true := by
  cases blank : isBlank c with
  | true => exact .inl rfl
  | false =>
      obtain ⟨w, hw, inside⟩ := exists_word_of_mem blank hc
      rw [ofLine?_eq] at h
      split at h
      · cases h
      · obtain ⟨v, read⟩ := exists_of_mapM h w hw
        exact .inr (mem_of_ofWord? read inside)

theorem ofLine?_eq_none_of_spells {header : Header} {line : Text} (h : header.Spells line) :
    ofLine? line = none := by
  cases read : ofLine? line with
  | none => rfl
  | some vs =>
      have bracket := mem_of_ofLine? read h.bracket_mem
      exact absurd bracket (by decide)

theorem header_eq_none_of_ofLine? {line : Text} {vs : List Int} (h : ofLine? line = some vs) :
    Header.ofLine? line = none := by
  cases read : Header.ofLine? line with
  | none => rfl
  | some header =>
      have none := ofLine?_eq_none_of_spells (Header.ofLine?_eq_some_iff.mp read)
      cases h.symm.trans none

end Values

theorem PushWidth.fits_of_holds {w : PushWidth} {v : Int} (h : w.holds v = true) :
    Values.fits v = true := by
  cases w <;>
    simp only [PushWidth.holds, Values.fits, Bool.and_eq_true, decide_eq_true_eq] at h ⊢ <;>
    omega

/-! ## Both kinds of lines -/

theorem Instruction.ofLine?_argumentsText {i : Instruction} (some_argument : i.arguments ≠ [])
    (bits : ∀ v ∈ i.arguments, -2147483648 ≤ v ∧ v ≤ 2147483647) :
    Values.ofLine? (i.argumentsText [' ']) = some i.arguments :=
  Values.ofLine?_intercalate some_argument fun v hv => Values.fits_iff.mpr (bits v hv)

/-- **A line is read by its form.**  The reader of header lines takes the lines of that form and
says the name and what stands in the brackets; the reader of values lines takes the lines of the
other and gives the values in order.  No line has both forms.  And arguments of 32 bits, written
with a space between them, are a values line, unless there are none. -/
theorem lines_read_by_form (line : Text) :
    (∀ header, Header.ofLine? line = some header ↔ header.Spells line) ∧
      (∀ vs, Values.ofLine? line = some vs ↔ Values.Spells vs line) ∧
      (∀ header vs, ¬ (Header.ofLine? line = some header ∧ Values.ofLine? line = some vs)) ∧
      ∀ i : Instruction, i.arguments ≠ [] →
        (∀ v ∈ i.arguments, -2147483648 ≤ v ∧ v ≤ 2147483647) →
          Values.ofLine? (i.argumentsText [' ']) = some i.arguments := by
  refine ⟨fun header => Header.ofLine?_eq_some_iff, fun vs => Values.ofLine?_eq_some_iff, ?_,
    fun i => i.ofLine?_argumentsText⟩
  rintro header vs ⟨named, valued⟩
  have none : Values.ofLine? line = none :=
    Values.ofLine?_eq_none_of_spells (Header.ofLine?_eq_some_iff.mp named)
  cases none.symm.trans valued

end Hinting
