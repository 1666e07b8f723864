/-
# `Hinting.Proofs.Rendering` — the lines of the generic dialect

What the generic dialect writes for an instruction is read back: the lines of a
command in its place are an item, and the item is that command (`item_ttxLines`).
Offset and depth leave no trace but the indentation, so it holds in any place.

Whatever the instruction, decoded or not, its lines hold no line feed and end in no
white space (`solid_ttxLines`).  The generic dialect can write all of them
(`Writer.writeMany_ttx`), so a program that decodes has its lines for a text
(`Stream.Split.disassemble_ttx`).
-/
import Hinting.Proofs.Items
import Hinting.Proofs.Writing

namespace Hinting

/-! ## Names and descriptions -/

namespace Operation

-- Each string is turned into its characters by `String.toList_ofList`.  Evaluating the
-- conversion instead would decode every string byte by byte.
theorem mnemonic_ne_nil (op : Operation) : op.mnemonic ≠ [] := by
  have filled : op.mnemonic.isEmpty = false := by
    cases op <;> exact (congrArg List.isEmpty String.toList_ofList).trans rfl
  intro none
  rw [none] at filled
  cases filled

theorem isAlphanum_of_mem_mnemonic {op : Operation} :
    ∀ c ∈ op.mnemonic, c.isAlphanum = true := by
  refine List.all_eq_true.mp ?_
  cases op <;> exact (congrArg (List.all · Char.isAlphanum) String.toList_ofList).trans rfl

/-- Descriptions are letters and digits, so they close no comment. -/
theorem isAlphanum_of_mem_description {op : Operation} :
    ∀ c ∈ op.description, c.isAlphanum = true := by
  refine List.all_eq_true.mp ?_
  cases op <;> exact (congrArg (List.all · Char.isAlphanum) String.toList_ofList).trans rfl

end Operation

namespace Instruction

theorem allBlank_indentation (level : Nat) : Text.AllBlank (Text.indentation level) := by
  intro c hc
  rw [List.eq_of_mem_replicate hc]
  rfl

/-- A text that may stand in a comment on one line. -/
def Quotable (t : Text) : Prop := '/' ∉ t ∧ '\n' ∉ t

theorem quotable_of_isAlphanum {t : Text} (h : ∀ c ∈ t, c.isAlphanum = true) : Quotable t := by
  constructor
  · intro slash
    cases h _ slash
  · intro feed
    cases h _ feed

theorem quotable_countText (count : Nat) : Quotable (countText count) := by
  have digits : Quotable (Numeral.decimal count) :=
    quotable_of_isAlphanum fun c hc => by
      simp [Char.isAlphanum, Nat.isDigit_of_mem_toDigits (by omega) (by omega) hc]
  have words : ∀ b : Prop, [Decidable b] →
      Quotable (if b then " value pushed" else " values pushed").toList := by
    intro b _
    split <;> exact ⟨by decide, by decide⟩
  constructor
  · exact fun slash => (List.mem_append.mp slash).elim digits.1 (words (count = 1)).1
  · exact fun feed => (List.mem_append.mp feed).elim digits.2 (words (count = 1)).2

/-! ## Header lines -/

/-- The header line of an instruction, with a text in the brackets and one in the comment. -/
def headerLine (i : Instruction) (inside comment : Text) : Text :=
  i.indented (i.bracketed inside ++ "\t/* ".toList ++ comment ++ " */".toList)

theorem headerLine_eq (i : Instruction) (inside comment : Text) :
    i.headerLine inside comment = Text.indentation i.indent ++ (i.mnemonic ++ '[' :: (inside ++
      ']' :: (['\t'] ++ '/' :: '*' :: ((' ' :: (comment ++ [' '])) ++ '*' :: '/' :: [])))) := by
  have opened : "\t/* ".toList = ['\t', '/', '*', ' '] := rfl
  have closed : " */".toList = [' ', '*', '/'] := rfl
  simp [headerLine, indented, bracketed, opened, closed]

theorem ofLine?_headerLine (i : Instruction) {inside comment : Text}
    (digits : ∀ c ∈ inside, Header.isInside c = true) (quotable : Quotable comment) :
    Header.ofLine? (i.headerLine inside comment) = some ⟨i.mnemonic, inside⟩ := by
  have comment_open : Header.Unclosed (' ' :: (comment ++ [' '])) :=
    Header.unclosed_of_not_mem (by simp [quotable.1])
  have tab : Text.AllBlank ['\t'] := fun c hc => by rw [List.mem_singleton.mp hc]; rfl
  have trailer := Header.Trailer.comment tab comment_open Text.allBlank_nil
  rw [headerLine_eq, Header.ofLine?_eq_some_iff]
  exact ⟨i.operation.mnemonic_ne_nil, Operation.isAlphanum_of_mem_mnemonic, digits,
    _, _, allBlank_indentation i.indent, trailer, rfl⟩

theorem solid_headerLine (i : Instruction) {inside comment : Text} (feedless : '\n' ∉ inside)
    (quotable : Quotable comment) : Text.Solid (i.headerLine inside comment) := by
  have name : '\n' ∉ i.mnemonic := by
    intro feed
    cases Operation.isAlphanum_of_mem_mnemonic _ feed
  have front : '\n' ∉ i.bracketed inside ++ "\t/* ".toList ++ comment := by
    have opened : "\t/* ".toList = ['\t', '/', '*', ' '] := rfl
    simp [bracketed, opened, name, feedless, quotable.2]
  have closed : Text.Solid " */".toList := ⟨by decide, [' ', '*'], '/', rfl, by decide⟩
  exact (closed.prepend front).prepend (allBlank_indentation i.indent).feedless

theorem feedless_of_isInside {inside : Text} (h : ∀ c ∈ inside, Header.isInside c = true) :
    '\n' ∉ inside := by
  intro feed
  cases h _ feed

theorem isInside_space : ∀ c ∈ [' '], Header.isInside c = true := by
  intro c hc
  rw [List.mem_singleton.mp hc]
  rfl

theorem isInside_bitsText (i : Instruction) : ∀ c ∈ i.bitsText, Header.isInside c = true := by
  rw [bitsText]
  split
  · exact isInside_space
  · rename_i bits _
    intro c hc
    have digit := List.all_eq_true.mp (Numeral.all_isBinaryDigit_binary bits.width bits.value) c hc
    rw [Header.isInside, Bool.or_eq_true]
    exact .inl digit

/-! ## Values lines -/

theorem isWhite_of_isDigit {c : Char} (h : c.isDigit = true) : Text.isWhite c = false := by
  simp only [Char.isDigit, Bool.and_eq_true, decide_eq_true_eq, UInt32.le_iff_toNat_le,
    ge_iff_le] at h
  have range : 48 ≤ c.toNat ∧ c.toNat ≤ 57 := h
  simp [Text.isWhite, Text.whiteRanges]
  omega

theorem solid_signed (v : Int) : Text.Solid (Numeral.signed v) := by
  have decimal : ∀ n, Text.Solid (Numeral.decimal n) := by
    intro n
    have digit : ∀ c ∈ Numeral.decimal n, c.isDigit = true := fun c hc =>
      Nat.isDigit_of_mem_toDigits (by omega) (by omega) hc
    have some_digit : Numeral.decimal n ≠ [] := Nat.toDigits_ne_nil
    have feedless : '\n' ∉ Numeral.decimal n := by
      intro feed
      cases digit _ feed
    refine ⟨feedless, _, _, (List.dropLast_concat_getLast some_digit).symm, ?_⟩
    exact isWhite_of_isDigit (digit _ (List.getLast_mem some_digit))
  cases v with
  | ofNat n => exact decimal n
  | negSucc n => exact (decimal (n + 1)).prepend (a := ['-']) (by decide)

theorem solid_intercalate_signed {separator : Text} (feedless : '\n' ∉ separator) {vs : List Int}
    (some_value : vs ≠ []) : Text.Solid (separator.intercalate (vs.map Numeral.signed)) := by
  refine Text.solid_intercalate feedless (by simpa using some_value) fun l hl => ?_
  obtain ⟨v, _, rfl⟩ := List.mem_map.mp hl
  exact solid_signed v

/-! ## The lines of an instruction -/

theorem ttxLines_eq (i : Instruction) : i.ttxLines =
    if i.isPush then i.headerLine [' '] (countText i.arguments.length) ::
      if i.arguments.isEmpty then [] else [i.indented (i.argumentsText [' '])]
    else [i.headerLine i.bitsText i.description] := rfl

theorem solid_ttxLines (i : Instruction) : ∀ l ∈ i.ttxLines, Text.Solid l := by
  intro l hl
  rw [ttxLines_eq] at hl
  split at hl
  · rcases List.mem_cons.mp hl with rfl | values
    · exact solid_headerLine i (by decide) (quotable_countText _)
    · split at values
      · cases values
      · rename_i some_value
        rw [List.mem_singleton.mp values]
        refine Text.Solid.prepend ?_ (allBlank_indentation i.indent).feedless
        exact solid_intercalate_signed (by decide) (by simpa using some_value)
  · rw [List.mem_singleton.mp hl]
    exact solid_headerLine i (feedless_of_isInside (isInside_bitsText i))
      (quotable_of_isAlphanum Operation.isAlphanum_of_mem_description)

theorem solid_flatMap_ttxLines (is : List Instruction) :
    ∀ l ∈ is.flatMap ttxLines, Text.Solid l := by
  intro l hl
  obtain ⟨i, _, hi⟩ := List.mem_flatMap.mp hl
  exact i.solid_ttxLines l hi

end Instruction

/-! ## Reading the lines back -/

theorem Text.trim_eq_self {t : Text} (h : ∀ c ∈ t, isWhite c = false) : trim t = t := by
  have front : t.dropWhile isWhite = t := by
    cases t with
    | nil => rfl
    | cons c t => simp [h c List.mem_cons_self]
  rw [trim, front]
  rcases List.eq_nil_or_concat t with rfl | ⟨l, c, rfl⟩
  · rfl
  · rw [List.concat_eq_append] at h ⊢
    exact trimEnd_append_singleton l (h c (by simp))

theorem Command.trim_bitsText {op : Operation} {value : Nat} (h : value < 2 ^ op.argBits)
    (offset indent : Nat) :
    let digits := Text.trim ((Command.plain op value).placed offset indent).bitsText
    digits.length = op.argBits ∧ Numeral.binary? digits = some value := by
  by_cases none : op.argBits = 0
  · have bare : ((Command.plain op value).placed offset indent).bitsText = [' '] := by
      simp [Instruction.bitsText, Command.placed, Command.bits, none]
    have zero : value = 0 := by rw [none] at h; omega
    rw [bare, zero, none]
    exact ⟨rfl, rfl⟩
  · have digits : ((Command.plain op value).placed offset indent).bitsText
        = Numeral.binary op.argBits value := by
      simp [Instruction.bitsText, Command.placed, Command.bits, none, Bits.digits]
    have solid : ∀ c ∈ Numeral.binary op.argBits value, Text.isWhite c = false := by
      intro c hc
      have digit := List.all_eq_true.mp (Numeral.all_isBinaryDigit_binary _ _) c hc
      simp only [Numeral.isBinaryDigit, Bool.or_eq_true, beq_iff_eq] at digit
      rcases digit with rfl | rfl <;> decide
    rw [digits, Text.trim_eq_self solid]
    exact ⟨Numeral.length_binary (Nat.pos_of_ne_zero none) h, Numeral.binary?_binary _ _⟩

theorem item_ttxLines {c : Command} (h : c.IsEncodable) (offset indent : Nat) :
    Item (c.placed offset indent).ttxLines c := by
  rw [Instruction.ttxLines_eq]
  cases c with
  | plain op value =>
      obtain ⟨kind, bound⟩ := h
      have plain : ((Command.plain op value).placed offset indent).isPush = false :=
        Operation.isPush_eq_false kind
      rw [if_neg (Bool.eq_false_iff.mp plain)]
      have quotable := Instruction.quotable_of_isAlphanum
        (@Operation.isAlphanum_of_mem_description op)
      have digits := ((Command.plain op value).placed offset indent).isInside_bitsText
      have header := Instruction.ofLine?_headerLine ((Command.plain op value).placed offset indent)
        digits quotable
      obtain ⟨width, read⟩ := Command.trim_bitsText bound offset indent
      exact .plain header kind width read
  | push op vs =>
      obtain ⟨w, kind, admitted, held⟩ := h
      have push : ((Command.push op vs).placed offset indent).isPush = true :=
        Operation.isPush_of_pushWidth? kind
      rw [if_pos push]
      have header := Instruction.ofLine?_headerLine ((Command.push op vs).placed offset indent)
        Instruction.isInside_space (Instruction.quotable_countText vs.length)
      refine .push header kind ?_ admitted held
      cases vs with
      | nil => exact .nothing
      | cons v vs =>
          have fits : ∀ v' ∈ v :: vs, Values.fits v' = true := fun v' hv =>
            PushWidth.fits_of_holds (held v' hv)
          have read := Values.ofLine?_intercalate (List.cons_ne_nil v vs) fits
          have pad : Text.Padded ([' '].intercalate ((v :: vs).map Numeral.signed))
              (((Command.push op (v :: vs)).placed offset indent).indented
                (((Command.push op (v :: vs)).placed offset indent).argumentsText [' '])) :=
            ⟨_, [], Instruction.allBlank_indentation _, Text.allBlank_nil,
              (List.append_nil _).symm⟩
          exact .values ((Values.ofLine?_padded pad).trans read)

theorem items_ttxLines {cs : List Command} (h : ∀ c ∈ cs, c.IsEncodable) : ∀ (o d : Nat),
    Items ((Stream.place o d cs).flatMap Instruction.ttxLines) cs := by
  induction cs with
  | nil => intro o d; exact .nil
  | cons c cs ih =>
      intro o d
      obtain ⟨hc, hcs⟩ := List.forall_mem_cons.mp h
      exact .cons (item_ttxLines hc o (c.indentAt d)) (ih hcs _ _)

/-! ## Writing -/

theorem Writer.writeMany_ttx : ∀ {is : List Instruction} {w : Writer}, w.options.dialect = .ttx →
    w.writeMany is = .ok { w with lines := w.lines ++ is.flatMap Instruction.ttxLines } := by
  intro is
  induction is with
  | nil => intro w _; simp [writeMany]
  | cons i is ih =>
      intro w h
      have first : w.write i = .ok { w with lines := w.lines ++ i.ttxLines } :=
        write_of_linesOf (by rw [h, Dialect.linesOf])
      rw [writeMany, first]
      have rest := @ih { w with lines := w.lines ++ i.ttxLines } h
      rw [List.flatMap_cons, ← lines_append]
      exact rest

/-- The text of a program in the generic dialect, lines and all. -/
theorem Stream.Split.disassemble_ttx {E : Text} {p r : Bytes} {cs : List Command}
    (h : Stream.Split p cs r)
    (faultless : (Stream.tailEnding (Stream.bytes cs).length r).fault? = none) :
    disassemble ⟨.ttx, E⟩ p
      = .ok (E.intercalate ((Stream.place 0 0 cs).flatMap Instruction.ttxLines)) := by
  have written := @Writer.writeMany_ttx (Stream.place 0 0 cs) (.start ⟨.ttx, E⟩) rfl
  have solid := Instruction.solid_flatMap_ttxLines (Stream.place 0 0 cs)
  rw [h.disassemble_of_ok written, Writer.conclude, faultless, ← Text.trimEnd_intercalate solid]
  simp [Except.map, Writer.finish, Writer.text, Writer.start]

end Hinting
