/-
# `Hinting.Proofs.WrittenLines` — the lines a writer has written

In either dialect an instruction is written in lines that hold no line feed and end in
no white space (`Dialect.solid_linesOf`).  A writer that starts with nothing comes to
hold such lines only (`Writer.IsSolid`), whatever it writes.  So nothing is trimmed off
its text (`Writer.IsSolid.text_eq`).

What a writer adds for instructions is their lines, one block for each
(`Dialect.Renders`), and it does so for instructions that all have lines
(`Writer.writeMany_eq_ok_iff`).
-/
import Hinting.Proofs.Rendering

namespace Hinting

/-! ## The lines of VTT -/

theorem Family.feedless_of_spell? {family : Family} {bits : Bits} {letters : Text}
    (h : family.spell? bits = some letters) : '\n' ∉ letters := by
  have flag : ∀ clear set : Char, '\n' ≠ clear → '\n' ≠ set → '\n' ∉ spellFlag clear set bits := by
    intro clear set hc hs
    rw [spellFlag]
    split
    · simpa using hc
    · simpa using hs
  have color : ∀ {n : Nat} {t : Text}, spellColor? n = some t → '\n' ∉ t := by
    intro n t ht
    match n, ht with
    | 0, ht | 1, ht | 2, ht => cases ht; decide
  cases family with
  | axis | lineRelation | rounding | referencePoint | autoset | outline =>
      cases h
      exact flag _ _ (by decide) (by decide)
  | color => exact color h
  | relativeMove =>
      obtain ⟨t, ht, rfl⟩ := Option.map_eq_some_iff.mp h
      have letter : ∀ (b : Bool) (set clear : Char), '\n' ≠ set → '\n' ≠ clear →
          '\n' ≠ if b then set else clear := by
        intro b set clear hs hc
        cases b with
        | true => exact hs
        | false => exact hc
      rw [List.mem_cons, List.mem_cons, List.mem_cons]
      rintro (feed | feed | feed | feed)
      · exact letter _ _ _ (by decide) (by decide) feed
      · exact letter _ _ _ (by decide) (by decide) feed
      · exact letter _ _ _ (by decide) (by decide) feed
      · exact color ht feed

namespace Instruction

theorem feedless_of_letters {i : Instruction} {letters : Text} (h : i.letters = .ok letters) :
    '\n' ∉ letters := by
  rw [Instruction.letters] at h
  split at h
  · cases h
    decide
  · split at h
    · rename_i spelled
      obtain ⟨family, _, spelled⟩ := Option.bind_eq_some_iff.mp spelled
      cases h
      exact Family.feedless_of_spell? spelled
    · cases h

theorem solid_pushDirective (i : Instruction) : Text.Solid i.pushDirective := by
  rw [pushDirective]
  split
  · exact ⟨by decide, "#PUS".toList, 'H', rfl, by decide⟩
  · rename_i some_value
    have values : Text.Solid (i.argumentsText [',', ' ']) :=
      solid_intercalate_signed (by decide) (by simpa using some_value)
    exact values.prepend (by decide)

theorem solid_jumpDirective (i : Instruction) : Text.Solid i.jumpDirective := by
  have name : '\n' ∉ i.mnemonic := by
    intro feed
    cases Operation.isAlphanum_of_mem_mnemonic _ feed
  have stars : Text.Solid (if i.operation.isConditionalJump then ", *, *" else ", *").toList := by
    split
    · exact ⟨by decide, ", *, ".toList, '*', rfl, by decide⟩
    · exact ⟨by decide, ", ".toList, '*', rfl, by decide⟩
  exact stars.prepend name

theorem solid_pushOn : Text.Solid pushOn := ⟨by decide, "#PUSHO".toList, 'N', rfl, by decide⟩

theorem solid_pushOff : Text.Solid pushOff := ⟨by decide, "#PUSHOF".toList, 'F', rfl, by decide⟩

theorem solid_indented (i : Instruction) {line : Text} (h : Text.Solid line) :
    Text.Solid (i.indented line) :=
  h.prepend (allBlank_indentation i.indent).feedless

theorem VttForm.ne_nil {i : Instruction} {ls : List Text} (h : i.VttForm ls) : ls ≠ [] := by
  cases h <;> exact List.cons_ne_nil _ _

theorem VttForm.solid {i : Instruction} {ls : List Text} (h : i.VttForm ls) :
    ∀ l ∈ ls, Text.Solid l := by
  cases h with
  | push => simpa using i.solid_indented i.solid_pushDirective
  | jump =>
      simpa using ⟨solid_pushOn, i.solid_indented i.solid_jumpDirective, solid_pushOff⟩
  | @plain letters _ _ spelled =>
      have described : Text.Solid (i.headerLine letters i.description) :=
        solid_headerLine i (feedless_of_letters spelled)
          (quotable_of_isAlphanum Operation.isAlphanum_of_mem_description)
      exact List.forall_mem_singleton.mpr described

end Instruction

/-! ## The lines of either dialect -/

theorem Dialect.solid_linesOf {d : Dialect} {i : Instruction} {ls : List Text}
    (h : d.linesOf i = .ok ls) : ∀ l ∈ ls, Text.Solid l := by
  cases d with
  | ttx =>
      cases h
      exact i.solid_ttxLines
  | vtt => exact (Instruction.vttLines_eq_ok_iff.mp h).solid

theorem Dialect.linesOf_ne_nil {d : Dialect} {i : Instruction} {ls : List Text}
    (h : d.linesOf i = .ok ls) : ls ≠ [] := by
  cases d with
  | ttx =>
      cases h
      rw [Instruction.ttxLines_eq]
      split <;> exact List.cons_ne_nil _ _
  | vtt => exact (Instruction.vttLines_eq_ok_iff.mp h).ne_nil

/-- The instructions have lines in the dialect, and these are the lines of each. -/
def Dialect.Renders (d : Dialect) : List Instruction → List (List Text) → Prop :=
  List.Forall₂ fun i ls => d.linesOf i = .ok ls

/-! ## Frames -/

/-- A body of text as a dialect finishes it: in VTT between guards, unless it is empty. -/
def Options.frame (options : Options) (body : Text) : Text :=
  match options.dialect with
  | .ttx => body
  | .vtt => if body.isEmpty then [] else Writer.framed options.lineEnding body

theorem Options.frame_injective {options : Options} {t u : Text}
    (h : options.frame t = options.frame u) : t = u := by
  unfold frame at h
  split at h
  · exact h
  · cases t with
    | nil =>
        cases u with
        | nil => rfl
        | cons d u => cases h
    | cons c t =>
        cases u with
        | nil => cases h
        | cons d u =>
            have inner := List.append_cancel_right (List.append_cancel_right h)
            exact List.append_cancel_left inner

theorem Writer.framed_intercalate (E : Text) {ls : List Text} (some_line : ls ≠ []) :
    framed E (E.intercalate ls)
      = E.intercalate (Instruction.pushOff :: (ls ++ [Instruction.pushOn])) := by
  have last : E.intercalate (ls ++ [Instruction.pushOn])
      = E.intercalate ls ++ E ++ E.intercalate [Instruction.pushOn] :=
    Text.intercalate_append some_line (List.cons_ne_nil _ _)
  rw [List.intercalate_cons_of_ne_nil (List.append_ne_nil_of_left_ne_nil some_line _), last,
    List.intercalate_singleton, framed]
  simp only [List.append_assoc]

theorem Writer.finish_eq (w : Writer) : w.finish = w.options.frame w.text := rfl

namespace Writer

/-! ## Writers with solid lines -/

/-- All that the writer has written are lines that end in no white space. -/
def IsSolid (w : Writer) : Prop := ∀ l ∈ w.lines.toList, Text.Solid l

theorem isSolid_start (options : Options) : (start options).IsSolid := by
  intro l hl
  cases hl

theorem IsSolid.write {w w' : Writer} {i : Instruction} (h : w.IsSolid)
    (written : w.write i = .ok w') : w'.IsSolid := by
  obtain ⟨ls, rendered, rfl⟩ := eq_of_write written
  intro l hl
  rcases List.mem_append.mp (Array.toList_appendList ▸ hl) with before | new
  · exact h l before
  · exact Dialect.solid_linesOf rendered l new

theorem IsSolid.writeMany : ∀ {is : List Instruction} {w w' : Writer}, w.IsSolid →
    w.writeMany is = .ok w' → w'.IsSolid := by
  intro is
  induction is with
  | nil =>
      intro w w' h written
      obtain rfl := Except.ok.inj written
      exact h
  | cons i is ih =>
      intro w w' h written
      obtain ⟨w₁, first, rest⟩ := writeMany_cons_eq_ok.mp written
      exact ih (h.write first) rest

theorem IsSolid.text_eq {w : Writer} (h : w.IsSolid) :
    w.text = w.options.lineEnding.intercalate w.lines.toList :=
  Text.trimEnd_intercalate h

/-! ## The lines of a run -/

theorem writeMany_eq_ok_iff : ∀ {is : List Instruction} {w w' : Writer},
    w.writeMany is = .ok w' ↔ ∃ lss, w.options.dialect.Renders is lss ∧
      w' = { w with lines := w.lines ++ lss.flatten } := by
  intro is
  induction is with
  | nil =>
      intro w w'
      constructor
      · intro written
        obtain rfl := Except.ok.inj written
        exact ⟨[], .nil, by simp⟩
      · rintro ⟨lss, rendered, rfl⟩
        cases rendered
        simp [writeMany]
  | cons i is ih =>
      intro w w'
      rw [writeMany_cons_eq_ok]
      constructor
      · rintro ⟨w₁, first, rest⟩
        obtain ⟨ls, rendered, rfl⟩ := eq_of_write first
        obtain ⟨lss, later, rfl⟩ := ih.mp rest
        refine ⟨ls :: lss, .cons rendered later, ?_⟩
        rw [List.flatten_cons, ← lines_append]
      · rintro ⟨lss, rendered, rfl⟩
        cases rendered with
        | @cons _ ls _ lss first later =>
            refine ⟨{ w with lines := w.lines ++ ls }, write_of_linesOf first,
              ih.mpr ⟨lss, later, ?_⟩⟩
            rw [List.flatten_cons, ← lines_append]

/-- A writer that has written instructions holds their lines, and joins them. -/
theorem exists_renders_of_writeMany {options : Options} {is : List Instruction} {w : Writer}
    (written : (start options).writeMany is = .ok w) :
    ∃ lss, options.dialect.Renders is lss ∧ (∀ l ∈ lss.flatten, Text.Solid l) ∧
      w.text = options.lineEnding.intercalate lss.flatten := by
  have solid := (isSolid_start options).writeMany written
  have text := solid.text_eq
  obtain ⟨lss, rendered, rfl⟩ := writeMany_eq_ok_iff.mp written
  have lines : ((#[] : Array Text) ++ lss.flatten).toList = lss.flatten := by simp
  rw [IsSolid] at solid
  simp only [start, lines] at solid text
  exact ⟨lss, rendered, solid, text⟩

end Writer

theorem Dialect.Renders.eq_nil {d : Dialect} {is : List Instruction} {lss : List (List Text)}
    (h : d.Renders is lss) (none : lss.flatten = []) : is = [] := by
  cases h with
  | nil => rfl
  | cons first _ =>
      rw [List.flatten_cons] at none
      exact absurd (List.append_eq_nil_iff.mp none).1 (Dialect.linesOf_ne_nil first)

end Hinting
