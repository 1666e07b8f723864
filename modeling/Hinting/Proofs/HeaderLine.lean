/-
# `Hinting.Proofs.HeaderLine` — the grammar of header lines

The reader of header lines (`Header.ofLine?`) is measured against the form of the
line, written out as an equation:

    line = lead ++ name ++ '[' :: inside ++ ']' :: trailer

with blanks for a lead, and blanks or a comment between blanks for a trailer
(`Header.Spells`).  A comment has to end at the first place where it can
(`Unclosed`).  Part by part this is what the parser reads, so it takes exactly the
lines of this form (`Header.ofLine?_eq_some_iff`), and what is done to a line is done
to an equation: padding it with blanks lengthens the lead and the trailer
(`Header.Spells.padded`).
-/
import Hinting.Proofs.Parsing
import Hinting.Proofs.Words

namespace Hinting

open Hinting.Parser

/-! ## Blanks -/

theorem Text.AllBlank.stops {t : Text} (h : AllBlank t) {p : Char → Bool}
    (apart : ∀ c, isBlank c = true → p c = false) : Stops p t := by
  rintro c r rfl
  exact apart c (h c List.mem_cons_self)

theorem Parser.reads_blanks {w v r : Text} :
    blanks.Reads w v r ↔ v = w ∧ Text.AllBlank w ∧ Stops Text.isBlank r :=
  reads_takeWhile

namespace Header

open Text

/-! ## Comments -/

/-- The text holds no end of a comment, and does not hold one half of the end that follows. -/
def Unclosed (body : Text) : Prop := ¬ ['*', '/'] <:+: body ++ ['*']

theorem unclosed_nil : Unclosed [] := by
  rintro ⟨s, t, eq⟩
  have length := congrArg List.length eq
  simp at length
  omega

theorem unclosed_cons {c : Char} {body : Text} :
    Unclosed (c :: body) ↔ ¬ (c = '*' ∧ ['/'] <+: body ++ ['*']) ∧ Unclosed body := by
  rw [Unclosed, List.cons_append, List.infix_cons_iff, List.cons_prefix_cons, not_or,
    eq_comm (a := '*')]
  rfl

theorem unclosed_of_not_mem {body : Text} (h : '/' ∉ body) : Unclosed body := by
  intro closed
  have slash : '/' ∈ body ++ ['*'] := closed.subset (by simp)
  rcases List.mem_append.mp slash with inner | last
  · exact h inner
  · exact absurd (List.mem_singleton.mp last) (by decide)

theorem splitBefore?_append {rest : Text} : ∀ {body : Text}, Unclosed body →
    splitBefore? ['*', '/'] (body ++ '*' :: '/' :: rest) = some (body, '*' :: '/' :: rest) := by
  intro body
  induction body with
  | nil => intro _; exact if_pos ⟨rest, rfl⟩
  | cons c body ih =>
      intro h
      obtain ⟨apart, later⟩ := unclosed_cons.mp h
      have early : ¬ ['*', '/'] <+: c :: (body ++ '*' :: '/' :: rest) := by
        rw [List.cons_prefix_cons]
        rintro ⟨star, slash⟩
        refine apart ⟨star.symm, ?_⟩
        cases body with
        | nil => exact absurd (List.cons_prefix_cons.mp slash).1 (by decide)
        | cons d body =>
            obtain ⟨rfl, _⟩ := List.cons_prefix_cons.mp slash
            exact ⟨body ++ ['*'], rfl⟩
      rw [List.cons_append, splitBefore?, if_neg early, ih later]
      rfl

theorem unclosed_of_splitBefore? : ∀ {t body rest : Text},
    splitBefore? ['*', '/'] t = some (body, rest) → Unclosed body := by
  intro t
  induction t with
  | nil =>
      intro body rest h
      cases h
  | cons c t ih =>
      intro body rest h
      rw [splitBefore?] at h
      split at h
      · cases h
        exact unclosed_nil
      · rename_i early
        obtain ⟨⟨body, rest⟩, later, eq⟩ := Option.map_eq_some_iff.mp h
        cases eq
        refine unclosed_cons.mpr ⟨?_, ih later⟩
        rintro ⟨rfl, slash⟩
        cases body with
        | nil => exact absurd (List.cons_prefix_cons.mp slash).1 (by decide)
        | cons d body =>
            obtain ⟨rfl, _⟩ := List.cons_prefix_cons.mp slash
            rw [eq_append_of_splitBefore? later] at early
            exact early ⟨body ++ rest, rfl⟩

/-- A comment ends at the first end there is. -/
theorem reads_comment {w body r : Text} :
    comment.Reads w body r ↔ Unclosed body ∧ w = '/' :: '*' :: (body ++ ['*', '/']) := by
  rw [comment, reads_delimited]
  constructor
  · rintro ⟨w₁, _, w₂, w₃, _, rfl, opened, inner, closed⟩
    obtain ⟨rfl, _⟩ := reads_tag.mp opened
    obtain ⟨rfl, _⟩ := reads_tag.mp closed
    obtain rfl := List.append_cancel_right (eq_append_of_splitBefore? inner)
    exact ⟨unclosed_of_splitBefore? inner, rfl⟩
  · rintro ⟨unclosed, rfl⟩
    exact ⟨['/', '*'], _, body, ['*', '/'], _, rfl, reads_tag.mpr ⟨rfl, rfl⟩,
      splitBefore?_append unclosed, reads_tag.mpr ⟨rfl, rfl⟩⟩

/-! ## Trailers -/

/-- Blanks, or a comment between blanks. -/
inductive Trailer : Text → Prop
  | blank {t : Text} : AllBlank t → Trailer t
  | comment {before body after : Text} :
      AllBlank before → Unclosed body → AllBlank after →
      Trailer (before ++ '/' :: '*' :: (body ++ '*' :: '/' :: after))

theorem run_comment_of_allBlank {t : Text} (h : AllBlank t) :
    (preceded blanks comment).run t = none := by
  cases found : (preceded blanks comment).run t with
  | none => rfl
  | some parts =>
      obtain ⟨body, rest⟩ := parts
      obtain ⟨w, rfl, read⟩ := exists_reads found
      obtain ⟨before, _, w, rfl, _, text⟩ := reads_preceded.mp read
      obtain ⟨_, rfl⟩ := reads_comment.mp text
      exact absurd (by simp) (h.not_mem (c := '/') rfl)

theorem reads_trailer_iff {t : Text} : (∃ v, trailer.Reads t v []) ↔ Trailer t := by
  constructor
  · rintro ⟨v, h⟩
    obtain ⟨w₁, _, w₂, rfl, front, back⟩ := reads_preceded.mp h
    obtain ⟨_, blank, _⟩ := reads_blanks.mp back
    rcases reads_optional.mp front with ⟨body, _, found⟩ | ⟨_, rfl, _⟩
    · obtain ⟨before, _, w, rfl, lead, text⟩ := reads_preceded.mp found
      obtain ⟨unclosed, rfl⟩ := reads_comment.mp text
      simpa using Trailer.comment (reads_blanks.mp lead).2.1 unclosed blank
    · exact .blank blank
  · intro h
    cases h with
    | blank h =>
        refine ⟨t, reads_preceded.mpr ⟨[], none, t, rfl, ?_, ?_⟩⟩
        · rw [List.append_nil]
          exact reads_optional.mpr (.inr ⟨rfl, rfl, run_comment_of_allBlank h⟩)
        · exact reads_blanks.mpr ⟨rfl, h, stops_nil _⟩
    | @comment before body after hb hbody ha =>
        have text : (preceded blanks comment).Reads
            (before ++ '/' :: '*' :: (body ++ ['*', '/'])) body (after ++ []) :=
          reads_preceded.mpr ⟨before, before, _, rfl,
            reads_blanks.mpr ⟨rfl, hb, stops_cons rfl⟩, reads_comment.mpr ⟨hbody, rfl⟩⟩
        refine ⟨after, reads_preceded.mpr ⟨_, some body, after, ?_,
          reads_optional.mpr (.inl ⟨body, rfl, text⟩),
          reads_blanks.mpr ⟨rfl, ha, stops_nil _⟩⟩⟩
        simp

theorem Trailer.append {t u : Text} (h : Trailer t) (hu : AllBlank u) : Trailer (t ++ u) := by
  cases h with
  | blank ht => exact .blank (ht.append hu)
  | comment hb hbody ha =>
      have longer := Trailer.comment hb hbody (ha.append hu)
      simpa using longer

/-! ## Header lines -/

/-- The line has the form of a header line that says `h`. -/
structure Spells (h : Header) (line : Text) : Prop where
  named : h.name ≠ []
  name : ∀ c ∈ h.name, c.isAlphanum = true
  inside : ∀ c ∈ h.inside, isInside c = true
  eq : ∃ lead trailer, AllBlank lead ∧ Trailer trailer ∧
    line = lead ++ (h.name ++ '[' :: (h.inside ++ ']' :: trailer))

theorem isBlank_of_isAlphanum {c : Char} (h : c.isAlphanum = true) : isBlank c = false := by
  rw [Bool.eq_false_iff]
  intro blank
  simp only [isBlank, Bool.or_eq_true, beq_iff_eq] at blank
  rcases blank with rfl | rfl <;> cases h

theorem dropBlanks_of_name {lead name : Text} {c : Char} {r : Text} (hl : AllBlank lead)
    (named : name ≠ []) (hn : ∀ c ∈ name, c.isAlphanum = true) :
    dropBlanks (lead ++ (name ++ c :: r)) = name ++ c :: r := by
  cases name with
  | nil => exact absurd rfl named
  | cons d name =>
      exact dropWhile_append_cons hl (isBlank_of_isAlphanum (hn d List.mem_cons_self))

/-- The reader takes the lines of the form, and says what they say. -/
theorem ofLine?_eq_some_iff {line : Text} {h : Header} :
    ofLine? line = some h ↔ h.Spells line := by
  rw [ofLine?, all_eq_some_iff, parser]
  constructor
  · intro read
    obtain ⟨w₁, _, w, rfl, front, read⟩ := reads_bind.mp read
    obtain ⟨w₂, _, w, rfl, middle, read⟩ := reads_bind.mp read
    obtain ⟨w₃, _, w, rfl, back, read⟩ := reads_bind.mp read
    obtain ⟨rfl, rfl⟩ := reads_pure.mp read
    obtain ⟨lead, _, name, rfl, blank, front⟩ := reads_preceded.mp front
    obtain ⟨rfl, named, alphanumeric, _⟩ := reads_takeWhile1.mp front
    obtain ⟨w₄, _, inside, w₅, _, rfl, opened, within, closed⟩ := reads_delimited.mp middle
    obtain ⟨rfl, _⟩ := reads_tag.mp opened
    obtain ⟨rfl, digits, _⟩ := reads_takeWhile.mp within
    obtain ⟨rfl, _⟩ := reads_tag.mp closed
    refine ⟨named, alphanumeric, digits, lead, w₃, (reads_blanks.mp blank).2.1,
      reads_trailer_iff.mp ⟨_, back⟩, ?_⟩
    simp
  · rintro ⟨named, name, inside, lead, trail, blank, ht, rfl⟩
    obtain ⟨v, back⟩ := reads_trailer_iff.mpr ht
    obtain ⟨c, rest, first⟩ := List.exists_cons_of_ne_nil named
    have solid : isBlank c = false := isBlank_of_isAlphanum (name c (first ▸ List.mem_cons_self))
    refine reads_bind.mpr ⟨lead ++ h.name, h.name, '[' :: (h.inside ++ ']' :: trail), by simp,
      reads_preceded.mpr ⟨lead, lead, h.name, rfl, ?_, ?_⟩, reads_bind.mpr
      ⟨'[' :: (h.inside ++ [']']), h.inside, trail, by simp, ?_, reads_bind.mpr
      ⟨trail, v, [], (List.append_nil _).symm, back, reads_pure.mpr ⟨rfl, rfl⟩⟩⟩⟩
    · rw [first]
      exact reads_blanks.mpr ⟨rfl, blank, stops_cons solid⟩
    · exact reads_takeWhile1.mpr ⟨rfl, named, name, stops_cons rfl⟩
    · exact reads_delimited.mpr ⟨['['], _, h.inside, [']'], _, rfl, reads_tag.mpr ⟨rfl, rfl⟩,
        reads_takeWhile.mpr ⟨rfl, inside, stops_cons rfl⟩, reads_tag.mpr ⟨rfl, rfl⟩⟩

theorem Spells.padded {h : Header} {line line' : Text} (hs : h.Spells line)
    (hp : Padded line line') : h.Spells line' := by
  obtain ⟨named, name, inside, lead, trailer, hl, ht, rfl⟩ := hs
  obtain ⟨before, after, hb, ha, rfl⟩ := hp
  refine ⟨named, name, inside, before ++ lead, trailer ++ after, hb.append hl, ht.append ha, ?_⟩
  simp

theorem ofLine?_padded {line line' : Text} {h : Header} (read : ofLine? line = some h)
    (hp : Padded line line') : ofLine? line' = some h :=
  ofLine?_eq_some_iff.mpr ((ofLine?_eq_some_iff.mp read).padded hp)

theorem Spells.bracket_mem {h : Header} {line : Text} (hs : h.Spells line) : '[' ∈ line := by
  obtain ⟨_, _, _, lead, trailer, _, _, rfl⟩ := hs
  simp

end Header

end Hinting
