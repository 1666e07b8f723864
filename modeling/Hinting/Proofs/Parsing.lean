/-
# `Hinting.Proofs.Parsing` — what parsers read

A parser is known by the texts that it takes off, what it makes of them, and what may stand
behind (`Parser.Reads`).  What is behind matters, for a parser that takes as much as there
is of something stops only where that ends (`Stops`).

There is one lemma for each way to make a parser, and each says in both directions what is
read.  So a form of lines that is written out as an equation is compared with its parser part
by part.  Where the parser succeeds, the text it took is found again because what it leaves
is an end of the whole (`Parser.exists_reads`).
-/
import Hinting.Parser

namespace Hinting

namespace Parser
variable {α β γ : Type}

/-- With the text `rest` behind it, `w` is taken off and read as `v`. -/
def Reads (p : Parser α) (w : Text) (v : α) (rest : Text) : Prop :=
  p.run (w ++ rest) = some (v, rest)

/-- No character of a class stands in front. -/
def Stops (p : Char → Bool) (t : Text) : Prop := ∀ c r, t = c :: r → p c = false

theorem stops_nil (p : Char → Bool) : Stops p [] := by
  intro c r h
  cases h

theorem stops_cons {p : Char → Bool} {c : Char} {t : Text} (h : p c = false) :
    Stops p (c :: t) := by
  rintro d r eq
  cases eq
  exact h

theorem exists_reads {p : Parser α} {t rest : Text} {v : α} (h : p.run t = some (v, rest)) :
    ∃ w, t = w ++ rest ∧ p.Reads w v rest := by
  obtain ⟨w, rfl⟩ := p.suffix h
  exact ⟨w, rfl, h⟩

theorem all_eq_some_iff {p : Parser α} {t : Text} {v : α} :
    p.all t = some v ↔ p.Reads t v [] := by
  rw [all, Reads, List.append_nil]
  constructor
  · intro h
    split at h
    · rename_i run
      cases h
      exact run
    · cases h
  · intro h
    rw [h]

/-! ## Characters -/

section
variable {p : Char → Bool} {w v r : Text}

theorem takeWhile_append (hw : ∀ c ∈ w, p c = true) (hr : Stops p r) :
    (w ++ r).takeWhile p = w ∧ (w ++ r).dropWhile p = r := by
  rw [List.takeWhile_append_of_pos hw, List.dropWhile_append_of_pos hw]
  cases r with
  | nil => exact ⟨List.append_nil _, rfl⟩
  | cons c r =>
      have stop : ¬ p c = true := by
        rw [hr c r rfl]
        exact Bool.false_ne_true
      rw [List.takeWhile_cons_of_neg stop, List.dropWhile_cons_of_neg stop, List.append_nil]
      exact ⟨rfl, rfl⟩

theorem stops_dropWhile (t : Text) : Stops p (t.dropWhile p) := by
  intro c r eq
  have front := List.head?_dropWhile_not p t
  rw [eq] at front
  simpa using front

theorem reads_takeWhile : (takeWhile p).Reads w v r ↔
    v = w ∧ (∀ c ∈ w, p c = true) ∧ Stops p r := by
  constructor
  · intro h
    obtain ⟨front, back⟩ := Prod.mk.inj (Option.some.inj h)
    have whole := List.takeWhile_append_dropWhile (p := p) (l := w ++ r)
    rw [back] at whole
    have taken := List.append_cancel_right whole
    rw [taken] at front
    refine ⟨front.symm, ?_, back ▸ stops_dropWhile _⟩
    exact taken ▸ List.all_eq_true.mp List.all_takeWhile
  · rintro ⟨rfl, hw, hr⟩
    obtain ⟨front, back⟩ := takeWhile_append hw hr
    simp only [Reads, takeWhile, front, back]

theorem reads_takeWhile1 : (takeWhile1 p).Reads w v r ↔
    v = w ∧ w ≠ [] ∧ (∀ c ∈ w, p c = true) ∧ Stops p r := by
  simp only [Reads, takeWhile1]
  constructor
  · intro h
    split at h
    · cases h
    · rename_i some_char
      obtain ⟨rfl, hw, hr⟩ := reads_takeWhile.mp h
      rw [(takeWhile_append hw hr).1] at some_char
      exact ⟨rfl, some_char, hw, hr⟩
  · rintro ⟨rfl, some_char, hw, hr⟩
    obtain ⟨front, back⟩ := takeWhile_append hw hr
    simp only [front, back, if_neg some_char]

theorem reads_tag {s : Text} : (tag s).Reads w v r ↔ w = s ∧ v = s := by
  simp only [Reads, tag]
  constructor
  · intro h
    split at h
    · rename_i starts
      obtain ⟨t, eq⟩ := starts
      obtain ⟨rfl, back⟩ := Prod.mk.inj (Option.some.inj h)
      rw [← eq, List.drop_left] at back
      rw [back] at eq
      exact ⟨(List.append_cancel_right eq).symm, rfl⟩
    · cases h
  · rintro ⟨rfl, rfl⟩
    rw [if_pos (List.prefix_append _ _), List.drop_left]

end

/-! ## Parsers put together -/

section
variable {p : Parser α} {w r : Text}

theorem reads_pure {a v : α} : (pure a : Parser α).Reads w v r ↔ w = [] ∧ v = a := by
  constructor
  · intro h
    obtain ⟨rfl, eq⟩ := Prod.mk.inj (Option.some.inj h)
    exact ⟨List.append_left_eq_self.mp eq, rfl⟩
  · rintro ⟨rfl, rfl⟩
    rfl

theorem reads_bind {q : α → Parser β} {v : β} : (p >>= q).Reads w v r ↔
    ∃ w₁ a w₂, w = w₁ ++ w₂ ∧ p.Reads w₁ a (w₂ ++ r) ∧ (q a).Reads w₂ v r := by
  constructor
  · intro h
    obtain ⟨⟨a, middle⟩, first, later⟩ := Option.bind_eq_some_iff.mp h
    obtain ⟨w₂, rfl, second⟩ := exists_reads later
    obtain ⟨w₁, eq, first⟩ := exists_reads first
    rw [← List.append_assoc] at eq
    exact ⟨w₁, a, w₂, List.append_cancel_right eq, first, second⟩
  · rintro ⟨w₁, a, w₂, rfl, first, second⟩
    rw [Reads, List.append_assoc]
    exact Option.bind_eq_some_iff.mpr ⟨(a, w₂ ++ r), first, second⟩

theorem reads_preceded {q : Parser β} {v : β} : (preceded p q).Reads w v r ↔
    ∃ w₁ a w₂, w = w₁ ++ w₂ ∧ p.Reads w₁ a (w₂ ++ r) ∧ q.Reads w₂ v r :=
  reads_bind

theorem reads_delimited {q : Parser β} {s : Parser γ} {v : β} :
    (delimited p q s).Reads w v r ↔ ∃ w₁ a w₂ w₃ c, w = w₁ ++ (w₂ ++ w₃) ∧
      p.Reads w₁ a (w₂ ++ w₃ ++ r) ∧ q.Reads w₂ v (w₃ ++ r) ∧ s.Reads w₃ c r := by
  rw [delimited, reads_bind]
  constructor
  · rintro ⟨w₁, a, w', rfl, first, rest⟩
    obtain ⟨w₂, b, w', rfl, second, rest⟩ := reads_bind.mp rest
    obtain ⟨w₃, c, w', rfl, third, rest⟩ := reads_bind.mp rest
    obtain ⟨rfl, rfl⟩ := reads_pure.mp rest
    rw [List.append_nil] at first second ⊢
    exact ⟨w₁, a, w₂, w₃, c, rfl, first, second, third⟩
  · rintro ⟨w₁, a, w₂, w₃, c, rfl, first, second, third⟩
    refine ⟨w₁, a, w₂ ++ w₃, rfl, first, reads_bind.mpr ⟨w₂, v, w₃, rfl, second, ?_⟩⟩
    exact reads_bind.mpr ⟨w₃, c, [], (List.append_nil _).symm, third, reads_pure.mpr ⟨rfl, rfl⟩⟩

theorem reads_optional {v : Option α} : (optional p).Reads w v r ↔
    (∃ a, v = some a ∧ p.Reads w a r) ∨ v = none ∧ w = [] ∧ p.run r = none := by
  simp only [Reads, optional]
  constructor
  · intro h
    split at h
    · rename_i a rest read
      cases h
      exact .inl ⟨a, rfl, read⟩
    · rename_i none
      obtain ⟨rfl, eq⟩ := Prod.mk.inj (Option.some.inj h)
      obtain rfl := List.append_left_eq_self.mp eq
      exact .inr ⟨rfl, rfl, none⟩
  · rintro (⟨a, rfl, read⟩ | ⟨rfl, rfl, none⟩)
    · rw [read]
    · rw [List.nil_append, none]

theorem reads_recognize {v : Text} : (recognize p).Reads w v r ↔ v = w ∧ ∃ a, p.Reads w a r := by
  simp only [Reads, recognize, Option.map_eq_some_iff]
  have front : (w ++ r).take ((w ++ r).length - r.length) = w := by
    rw [List.length_append, Nat.add_sub_cancel, List.take_left]
  constructor
  · rintro ⟨⟨a, rest⟩, read, eq⟩
    obtain ⟨text, rfl⟩ := Prod.mk.inj eq
    exact ⟨text.symm.trans front, a, read⟩
  · rintro ⟨rfl, a, read⟩
    exact ⟨(a, r), read, Prod.ext front rfl⟩

theorem reads_filterMap {f : α → Option β} {v : β} : (p.filterMap f).Reads w v r ↔
    ∃ a, p.Reads w a r ∧ f a = some v := by
  simp only [Reads, filterMap, Option.bind_eq_some_iff]
  constructor
  · rintro ⟨⟨a, rest⟩, read, eq⟩
    obtain ⟨v', value, eq⟩ := Option.map_eq_some_iff.mp eq
    obtain ⟨rfl, rfl⟩ := Prod.mk.inj eq
    exact ⟨a, read, value⟩
  · rintro ⟨a, read, value⟩
    exact ⟨(a, r), read, Option.map_eq_some_iff.mpr ⟨v, value, rfl⟩⟩

end

/-! ## Lists -/

section
variable {separator : Parser β} {consumes : separator.Consumes} {item : Parser α}

theorem run_separatedList1 {t rest : Text} {vs : List α} :
    (separatedList1 separator consumes item).run t = some (vs, rest) ↔ ∃ v others behind,
      vs = v :: others ∧ item.run t = some (v, behind) ∧
        further separator consumes item behind = (others, rest) := by
  simp only [separatedList1, Option.map_eq_some_iff]
  constructor
  · rintro ⟨⟨v, behind⟩, first, eq⟩
    obtain ⟨list, rfl⟩ := Prod.mk.inj eq
    exact ⟨v, _, behind, list.symm, first, rfl⟩
  · rintro ⟨v, others, behind, rfl, first, follow⟩
    exact ⟨(v, behind), first, by rw [follow]⟩

/-- What follows is nothing, and is left as it is; or it is a list behind a separator. -/
theorem further_cases {t rest : Text} {vs : List α}
    (h : further separator consumes item t = (vs, rest)) :
    vs = [] ∧ rest = t ∨ ∃ s behind, separator.run t = some (s, behind) ∧
      (separatedList1 separator consumes item).run behind = some (vs, rest) := by
  cases read : separator.run t with
  | none =>
      rw [further_of_none read] at h
      cases h
      exact .inl ⟨rfl, rfl⟩
  | some found =>
      obtain ⟨s, behind⟩ := found
      cases next : item.run behind with
      | none =>
          rw [further_of_alone read next] at h
          cases h
          exact .inl ⟨rfl, rfl⟩
      | some found =>
          rw [further_of_item read next] at h
          cases h
          exact .inr ⟨s, behind, rfl, run_separatedList1.mpr ⟨_, _, _, rfl, next, rfl⟩⟩

variable (separator consumes item) in
/-- `Separated vs w rest`: the text `w` is the items `vs` with separators between them, and no
further item follows in `rest`. -/
inductive Separated : List α → Text → Text → Prop
  | last {v : α} {w rest : Text} : item.Reads w v rest →
      further separator consumes item rest = ([], rest) → Separated [v] w rest
  | cons {v : α} {vs : List α} {s : β} {w gap later rest : Text} :
      item.Reads w v (gap ++ (later ++ rest)) → separator.Reads gap s (later ++ rest) →
      Separated vs later rest → Separated (v :: vs) (w ++ (gap ++ later)) rest

theorem reads_separatedList1 {vs : List α} {w rest : Text} :
    (separatedList1 separator consumes item).Reads w vs rest ↔
      Separated separator consumes item vs w rest := by
  constructor
  · intro h
    induction vs generalizing w with
    | nil =>
        obtain ⟨v, others, behind, eq, _⟩ := run_separatedList1.mp h
        cases eq
    | cons v vs ih =>
        obtain ⟨v, others, behind, eq, first, follow⟩ := run_separatedList1.mp h
        cases eq
        rcases further_cases follow with ⟨rfl, rfl⟩ | ⟨s, list, between, later⟩
        · exact .last first follow
        · -- Three parts of the text are found from the back, each as what is left behind the last.
          obtain ⟨w₃, rfl, later⟩ := exists_reads later
          obtain ⟨w₂, rfl, between⟩ := exists_reads between
          obtain ⟨w₁, whole, own⟩ := exists_reads first
          rw [← List.append_assoc, ← List.append_assoc] at whole
          obtain rfl := List.append_cancel_right whole
          rw [List.append_assoc]
          exact .cons own between (ih later)
  · intro h
    induction h with
    | last first follow => exact run_separatedList1.mpr ⟨_, [], _, rfl, first, follow⟩
    | cons first between _ ih =>
        obtain ⟨v₂, others, behind, rfl, second, follow⟩ := run_separatedList1.mp ih
        rw [Reads, List.append_assoc, List.append_assoc]
        refine run_separatedList1.mpr ⟨_, v₂ :: others, _, rfl, first, ?_⟩
        rw [further_of_item between second, follow]

end

end Parser

end Hinting
