/-
# `Hinting.Proofs.Words` — blanks, and the words between them

The words of a text are its longest stretches without a blank.  They follow one law: a
blank between two texts parts their words (`Text.words_append_cons`).  So blanks at the
ends change nothing (`Text.words_padded`), and words joined by spaces are found again
(`Text.words_intercalate`).

The other way round, a text is taken apart at its first word (`Text.exists_of_words`).
-/
import Hinting.Proofs.Lines

namespace Hinting.Text

/-- The text without the blanks at its start. -/
def dropBlanks (t : Text) : Text := t.dropWhile isBlank

/-- The longest stretches of a text that hold no blank. -/
def words (t : Text) : List Text :=
  (t.splitOnP isBlank).filter fun w => !w.isEmpty

/-! ## Scanning up to a character -/

section
variable {p : Char → Bool} {a r : Text} {c : Char}

theorem takeWhile_append_cons (ha : ∀ x ∈ a, p x = true) (hc : p c = false) :
    (a ++ c :: r).takeWhile p = a := by
  rw [List.takeWhile_append_of_pos ha, List.takeWhile_cons_of_neg (by simp [hc]),
    List.append_nil]

theorem dropWhile_append_cons (ha : ∀ x ∈ a, p x = true) (hc : p c = false) :
    (a ++ c :: r).dropWhile p = c :: r := by
  rw [List.dropWhile_append_of_pos ha, List.dropWhile_cons_of_neg (by simp [hc])]

end

theorem allBlank_takeWhile (t : Text) : AllBlank (t.takeWhile isBlank) :=
  List.all_eq_true.mp List.all_takeWhile

theorem eq_append_dropBlanks (t : Text) : ∃ a, AllBlank a ∧ t = a ++ dropBlanks t :=
  ⟨t.takeWhile isBlank, allBlank_takeWhile t, List.takeWhile_append_dropWhile.symm⟩

theorem dropBlanks_append {a : Text} (h : AllBlank a) (t : Text) :
    dropBlanks (a ++ t) = dropBlanks t :=
  List.dropWhile_append_of_pos h

/-! ## Words -/

theorem words_append_cons {c : Char} (hc : isBlank c = true) (t u : Text) :
    words (t ++ c :: u) = words t ++ words u := by
  rw [words, List.splitOnP_append_cons _ _ hc, List.filter_append]
  rfl

theorem AllBlank.words_eq : ∀ {t : Text}, AllBlank t → words t = [] := by
  intro t
  induction t with
  | nil => intro _; rfl
  | cons c t ih =>
      intro h
      obtain ⟨hc, ht⟩ := List.forall_mem_cons.mp h
      exact (words_append_cons hc [] t).trans (ih ht)

theorem words_prepend : ∀ {a : Text}, AllBlank a → ∀ t : Text, words (a ++ t) = words t := by
  intro a
  induction a with
  | nil => intro _ t; rfl
  | cons c a ih =>
      intro h t
      obtain ⟨hc, ha⟩ := List.forall_mem_cons.mp h
      exact (words_append_cons hc [] (a ++ t)).trans (ih ha t)

theorem words_append {b : Text} (h : AllBlank b) (t : Text) : words (t ++ b) = words t := by
  cases b with
  | nil => rw [List.append_nil]
  | cons c b =>
      obtain ⟨hc, hb⟩ := List.forall_mem_cons.mp h
      rw [words_append_cons hc, AllBlank.words_eq hb, List.append_nil]

theorem words_padded {l l' : Text} (h : Padded l l') : words l' = words l := by
  obtain ⟨before, after, hb, ha, rfl⟩ := h
  rw [words_append ha, words_prepend hb]

/-- A text that has no blank and is not empty is a word. -/
def IsWord (w : Text) : Prop := w ≠ [] ∧ ∀ c ∈ w, isBlank c = false

theorem IsWord.words_eq {w : Text} (h : IsWord w) : words w = [w] := by
  rw [words, List.splitOnP_eq_singleton h.2]
  simp [h.1]

theorem words_intercalate : ∀ {ws : List Text}, (∀ w ∈ ws, IsWord w) →
    words ([' '].intercalate ws) = ws := by
  intro ws
  induction ws with
  | nil => intro _; rfl
  | cons w ws ih =>
      intro h
      obtain ⟨hw, hws⟩ := List.forall_mem_cons.mp h
      cases ws with
      | nil => rw [List.intercalate_singleton, hw.words_eq]
      | cons w' ws =>
          rw [List.intercalate_cons_cons, List.append_assoc]
          refine (words_append_cons rfl w ([' '].intercalate (w' :: ws))).trans ?_
          rw [hw.words_eq, ih hws]
          rfl

theorem exists_word_of_mem {c : Char} (hc : isBlank c = false) : ∀ {t : Text}, c ∈ t →
    ∃ w ∈ words t, c ∈ w := by
  have piece : ∀ t : Text, c ∈ t → ∃ w ∈ t.splitOnP isBlank, c ∈ w := by
    intro t
    induction t with
    | nil => intro h; cases h
    | cons d t ih =>
        intro h
        rw [List.splitOnP_cons_eq_if_modifyHead]
        obtain ⟨w, ws, split⟩ := List.exists_cons_of_ne_nil (List.splitOnP_ne_nil isBlank t)
        rw [split] at ih ⊢
        rcases List.mem_cons.mp h with rfl | later
        · rw [hc]
          exact ⟨c :: w, List.mem_cons_self, List.mem_cons_self⟩
        · obtain ⟨v, hv, inside⟩ := ih later
          split
          · exact ⟨v, List.mem_cons_of_mem _ hv, inside⟩
          · rcases List.mem_cons.mp hv with rfl | hv
            · exact ⟨d :: v, List.mem_cons_self, List.mem_cons_of_mem _ inside⟩
            · exact ⟨v, List.mem_cons_of_mem _ hv, inside⟩
  intro t h
  obtain ⟨w, hw, inside⟩ := piece t h
  refine ⟨w, List.mem_filter.mpr ⟨hw, ?_⟩, inside⟩
  cases w with
  | nil => cases inside
  | cons d w => rfl

theorem allBlank_of_words_eq_nil {t : Text} (h : words t = []) : AllBlank t := by
  intro c hc
  rw [← Bool.not_eq_false]
  intro solid
  obtain ⟨w, hw, _⟩ := exists_word_of_mem solid hc
  rw [h] at hw
  cases hw

/-- A word at the front of a text is its first word if it ends there. -/
theorem words_append_of_isWord {w rest : Text} (hw : IsWord w)
    (stop : rest = [] ∨ ∃ c r, rest = c :: r ∧ isBlank c = true) :
    words (w ++ rest) = w :: words rest := by
  rcases stop with rfl | ⟨c, r, rfl, blank⟩
  · rw [List.append_nil, hw.words_eq]
    rfl
  · have after : words (c :: r) = words r := words_append_cons blank [] r
    rw [words_append_cons blank, hw.words_eq, after]
    rfl

theorem exists_of_words {t w : Text} {ws : List Text} (h : words t = w :: ws) :
    ∃ lead rest, AllBlank lead ∧ t = lead ++ (w ++ rest) ∧ words rest = ws ∧
      (rest = [] ∨ ∃ c r, rest = c :: r ∧ isBlank c = true) := by
  obtain ⟨lead, blank, eq⟩ := eq_append_dropBlanks t
  have parts := List.takeWhile_append_dropWhile (p := fun c => !isBlank c) (l := dropBlanks t)
  generalize front : (dropBlanks t).takeWhile (fun c => !isBlank c) = first at parts
  generalize back : (dropBlanks t).dropWhile (fun c => !isBlank c) = rest at parts
  have solid : ∀ c ∈ first, isBlank c = false := by
    intro c hc
    rw [← front] at hc
    simpa using List.all_eq_true.mp List.all_takeWhile c hc
  have stop : rest = [] ∨ ∃ c r, rest = c :: r ∧ isBlank c = true := by
    cases rest with
    | nil => exact .inl rfl
    | cons c r =>
        have ended := List.head?_dropWhile_not (fun c => !isBlank c) (dropBlanks t)
        rw [back] at ended
        exact .inr ⟨c, r, rfl, by simpa using ended⟩
  rw [eq, words_prepend blank] at h
  have some_char : first ≠ [] := by
    rintro rfl
    rw [List.nil_append] at parts
    rcases stop with rfl | ⟨c, r, rfl, again⟩
    · rw [← parts] at h
      cases h
    · have begun := List.head?_dropWhile_not isBlank t
      rw [show t.dropWhile isBlank = c :: r from parts.symm] at begun
      exact absurd again (by simpa using begun)
  rw [← parts, words_append_of_isWord ⟨some_char, solid⟩ stop] at h
  obtain ⟨rfl, later⟩ := List.cons.inj h
  exact ⟨lead, rest, blank, by rw [parts, ← eq], later, stop⟩

end Hinting.Text
