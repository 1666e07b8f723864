/-
# `Hinting.Proofs.Lines` — lines joined and split again

A source text is read by the lines that are not all white space (`sourceTexts`).
Here they are recovered from lines that were joined (`sourceTexts_intercalate`).
What joins them need not be a single line feed: it may be any text that is made of
blanks and line ends (`Spaces`) and has a line feed somewhere.  Such a joint ends
one line at its first line feed and starts the next one after its last, and all it
leaves behind is blanks at the ends of the two (`Padded`):

    line₁ ␣ ⏎ ⇥ ⏎ ␣ line₂        ↦        line₁ ␣,  ␣ line₂

The induction is on the joint, one lemma for each of its halves:
`sourceTexts_after_feed` while no line has begun, `sourceTexts_in_line` while one
stands open.

The lines that count carry the numbers that they have among all lines (`numbered`).
-/
import Mathlib.Data.List.Forall2
import Hinting.Assembler

namespace Hinting

namespace Text

/-! ## Joints and lines -/

/-- Blanks and line ends, in any order and number. -/
inductive Spaces : Text → Prop
  | nil : Spaces []
  | blank {c : Char} {t : Text} : isBlank c = true → Spaces t → Spaces (c :: t)
  | feed {t : Text} : Spaces t → Spaces ('\n' :: t)
  | returnFeed {t : Text} : Spaces t → Spaces ('\r' :: '\n' :: t)

def AllBlank (t : Text) : Prop := ∀ c ∈ t, isBlank c = true

/-- `l'` is `l` with blanks at either end. -/
def Padded (l l' : Text) : Prop :=
  ∃ before after, AllBlank before ∧ AllBlank after ∧ l' = before ++ l ++ after

/-- The text is one line, not all white space, and no carriage return of it can be taken
for a part of the line's end. -/
structure Stands (l : Text) : Prop where
  feedless : '\n' ∉ l
  filled : l.all isWhite = false
  last : l.getLast? ≠ some '\r'

/-- The text is one line and ends in no white space. -/
def Solid (l : Text) : Prop := '\n' ∉ l ∧ ∃ t c, l = t ++ [c] ∧ isWhite c = false

/-- The lines of a text that are not all white space. -/
def sourceTexts (t : Text) : List Text := (lines t).filter fun l => !l.all isWhite

theorem allBlank_nil : AllBlank [] := by
  intro c hc
  cases hc

theorem AllBlank.concat {t : Text} {c : Char} (h : AllBlank t) (hc : isBlank c = true) :
    AllBlank (t ++ [c]) := by
  intro d hd
  rcases List.mem_append.mp hd with front | last
  · exact h d front
  · rw [List.mem_singleton.mp last]
    exact hc

theorem AllBlank.append {t u : Text} (ht : AllBlank t) (hu : AllBlank u) :
    AllBlank (t ++ u) := by
  intro d hd
  exact (List.mem_append.mp hd).elim (ht d) (hu d)

theorem AllBlank.all_isWhite {t : Text} (h : AllBlank t) : t.all isWhite = true :=
  List.all_eq_true.mpr fun c hc => isWhite_of_isBlank (h c hc)

theorem AllBlank.not_mem {t : Text} (h : AllBlank t) {c : Char} (hc : isBlank c = false) :
    c ∉ t := by
  intro mem
  cases hc.symm.trans (h c mem)

theorem AllBlank.feedless {t : Text} (h : AllBlank t) : '\n' ∉ t := h.not_mem rfl

theorem AllBlank.getLast?_ne {t : Text} (h : AllBlank t) : t.getLast? ≠ some '\r' := by
  intro last
  exact h.not_mem rfl (List.mem_of_getLast? last)

theorem Solid.stands {l : Text} (h : Solid l) : Stands l := by
  obtain ⟨feedless, t, c, rfl, solid⟩ := h
  refine ⟨feedless, by simp [solid], ?_⟩
  rw [List.getLast?_concat]
  intro hr
  obtain rfl := Option.some.inj hr
  cases solid

theorem Solid.prepend {l : Text} (h : Solid l) {a : Text} (ha : '\n' ∉ a) : Solid (a ++ l) := by
  obtain ⟨feedless, t, c, rfl, hc⟩ := h
  refine ⟨fun hf => (List.mem_append.mp hf).elim ha feedless, a ++ t, c, ?_, hc⟩
  rw [List.append_assoc]

theorem Stands.concat {l : Text} (h : Stands l) {c : Char} (hc : isBlank c = true) :
    Stands (l ++ [c]) := by
  refine ⟨?_, by simp [h.filled], ?_⟩
  · rw [List.mem_append, List.mem_singleton]
    rintro (front | rfl)
    · exact h.feedless front
    · cases hc
  · rw [List.getLast?_concat]
    intro hr
    obtain rfl := Option.some.inj hr
    cases hc

theorem Stands.prepend {l a : Text} (h : Stands l) (ha : AllBlank a) : Stands (a ++ l) := by
  refine ⟨?_, by simp [h.filled], ?_⟩
  · rw [List.mem_append]
    exact fun hf => hf.elim ha.feedless h.feedless
  · rw [List.getLast?_append]
    intro hr
    cases hl : l.getLast? with
    | some c => rw [hl] at hr; exact h.last (hl.trans hr)
    | none => rw [hl] at hr; exact ha.getLast?_ne hr

/-! ## The lines that count -/

theorem dropReturn_of_ne {l : Text} (h : l.getLast? ≠ some '\r') : dropReturn l = l :=
  if_neg h

theorem dropReturn_concat (l : Text) : dropReturn (l ++ ['\r']) = l := by
  simp [dropReturn]

theorem lines_feed {x : Text} (h : '\n' ∉ x) (u : Text) :
    lines (x ++ '\n' :: u) = dropReturn x :: lines u := by
  rw [lines_append_cons, List.splitOn_eq_singleton h]
  rfl

theorem sourceTexts_feed {x : Text} (h : '\n' ∉ x) (u : Text) :
    sourceTexts (x ++ '\n' :: u)
      = [dropReturn x].filter (fun l => !l.all isWhite) ++ sourceTexts u := by
  rw [sourceTexts, lines_feed h, ← List.singleton_append, List.filter_append]
  rfl

theorem sourceTexts_feed_blank {x : Text} (h : AllBlank x) (u : Text) :
    sourceTexts (x ++ '\n' :: u) = sourceTexts u := by
  rw [sourceTexts_feed h.feedless, dropReturn_of_ne h.getLast?_ne]
  simp [h.all_isWhite]

theorem sourceTexts_feed_stands {x : Text} (h : Stands x) (u : Text) :
    sourceTexts (x ++ '\n' :: u) = x :: sourceTexts u := by
  rw [sourceTexts_feed h.feedless, dropReturn_of_ne h.last]
  simp [h.filled]

theorem sourceTexts_returnFeed {x : Text} (h : '\n' ∉ x) (u : Text) :
    sourceTexts (x ++ '\r' :: '\n' :: u)
      = [x].filter (fun l => !l.all isWhite) ++ sourceTexts u := by
  have feedless : '\n' ∉ x ++ ['\r'] := by simp [h]
  have feed := sourceTexts_feed feedless u
  rw [dropReturn_concat, List.append_assoc] at feed
  exact feed

theorem lines_feedless {x : Text} (h : '\n' ∉ x) : lines x = if x.isEmpty then [] else [x] := by
  rw [lines, List.splitOn_eq_singleton h]
  rfl

theorem sourceTexts_blank {x : Text} (h : AllBlank x) : sourceTexts x = [] := by
  rw [sourceTexts, lines_feedless h.feedless]
  split
  · rfl
  · simp [h.all_isWhite]

theorem sourceTexts_stands {x : Text} (h : Stands x) : sourceTexts x = [x] := by
  have some_char : x.isEmpty = false := by
    cases x with
    | nil => exact absurd h.filled (by simp)
    | cons c x => rfl
  simp [sourceTexts, lines_feedless h.feedless, some_char, h.filled]

/-! ## Joining -/

/-- A joint after a line feed leaves blanks in front of the next line. -/
theorem sourceTexts_after_feed {E : Text} (hE : Spaces E) : ∀ {x : Text}, AllBlank x →
    ∃ a, AllBlank a ∧ ∀ u, sourceTexts (x ++ (E ++ u)) = sourceTexts (a ++ u) := by
  induction hE with
  | nil => intro x hx; exact ⟨x, hx, fun _ => rfl⟩
  | @blank c E hc _ ih =>
      intro x hx
      obtain ⟨a, ha, same⟩ := ih (hx.concat hc)
      refine ⟨a, ha, fun u => ?_⟩
      rw [← same u]
      simp
  | @feed E _ ih =>
      intro x hx
      obtain ⟨a, ha, same⟩ := ih allBlank_nil
      exact ⟨a, ha, fun u => (sourceTexts_feed_blank hx (E ++ u)).trans (same u)⟩
  | @returnFeed E _ ih =>
      intro x hx
      obtain ⟨a, ha, same⟩ := ih allBlank_nil
      refine ⟨a, ha, fun u => (sourceTexts_returnFeed hx.feedless (E ++ u)).trans ?_⟩
      simpa [hx.all_isWhite] using same u

/-- A joint in a line ends it, and leaves blanks after it and in front of the next. -/
theorem sourceTexts_in_line {E : Text} (hE : Spaces E) : '\n' ∈ E → ∀ {x : Text}, Stands x →
    ∃ b a, AllBlank b ∧ AllBlank a ∧
      ∀ u, sourceTexts (x ++ (E ++ u)) = (x ++ b) :: sourceTexts (a ++ u) := by
  induction hE with
  | nil => intro feed; cases feed
  | @blank c E hc _ ih =>
      intro feed x hx
      have later : '\n' ∈ E := by
        refine (List.mem_cons.mp feed).resolve_left ?_
        rintro rfl
        cases hc
      obtain ⟨b, a, hb, ha, same⟩ := ih later (hx.concat hc)
      refine ⟨c :: b, a, List.forall_mem_cons.mpr ⟨hc, hb⟩, ha, fun u => ?_⟩
      have joined := same u
      simp only [List.append_assoc, List.cons_append, List.nil_append] at joined ⊢
      exact joined
  | @feed E hE _ =>
      intro _ x hx
      obtain ⟨a, ha, same⟩ := sourceTexts_after_feed hE allBlank_nil
      refine ⟨[], a, allBlank_nil, ha, fun u => ?_⟩
      rw [List.append_nil, ← same u]
      exact sourceTexts_feed_stands hx (E ++ u)
  | @returnFeed E hE _ =>
      intro _ x hx
      obtain ⟨a, ha, same⟩ := sourceTexts_after_feed hE allBlank_nil
      refine ⟨[], a, allBlank_nil, ha, fun u => ?_⟩
      rw [List.append_nil, ← same u]
      refine (sourceTexts_returnFeed hx.feedless (E ++ u)).trans ?_
      simp [hx.filled]

/-- Joined lines are found again, but for blanks at their ends. -/
theorem sourceTexts_intercalate {E : Text} (hE : Spaces E) (feed : '\n' ∈ E) :
    ∀ {ls : List Text}, (∀ l ∈ ls, Solid l) → ∀ {a : Text}, AllBlank a →
      List.Forall₂ Padded ls (sourceTexts (a ++ E.intercalate ls)) := by
  intro ls
  induction ls with
  | nil =>
      intro _ a ha
      rw [List.intercalate_nil, List.append_nil, sourceTexts_blank ha]
      exact .nil
  | cons l ls ih =>
      intro solid a ha
      obtain ⟨hl, hls⟩ := List.forall_mem_cons.mp solid
      have stands := hl.stands.prepend ha
      cases ls with
      | nil =>
          rw [List.intercalate_singleton, sourceTexts_stands stands]
          exact .cons ⟨a, [], ha, allBlank_nil, (List.append_nil _).symm⟩ .nil
      | cons l' ls =>
          obtain ⟨b, a', hb, ha', joined⟩ := sourceTexts_in_line hE feed stands
          rw [List.intercalate_cons_cons, List.append_assoc, ← List.append_assoc a, joined]
          exact .cons ⟨a, b, ha, hb, rfl⟩ (ih hls ha')

theorem intercalate_append {E : Text} : ∀ {ls ls' : List Text}, ls ≠ [] → ls' ≠ [] →
    E.intercalate (ls ++ ls') = E.intercalate ls ++ E ++ E.intercalate ls' := by
  intro ls ls'
  induction ls with
  | nil => intro some_line _; exact absurd rfl some_line
  | cons l ls ih =>
      intro _ some_line'
      cases ls with
      | nil => rw [List.singleton_append, List.intercalate_cons_of_ne_nil some_line',
          List.intercalate_singleton]
      | cons l' ls =>
          rw [List.cons_append, List.cons_append, List.intercalate_cons_cons, ← List.cons_append,
            ih (List.cons_ne_nil _ _) some_line', List.intercalate_cons_cons]
          simp only [List.append_assoc]

theorem solid_intercalate {E : Text} (feedless : '\n' ∉ E) : ∀ {ls : List Text}, ls ≠ [] →
    (∀ l ∈ ls, Solid l) → Solid (E.intercalate ls) := by
  intro ls
  induction ls with
  | nil => intro none; exact absurd rfl none
  | cons l ls ih =>
      intro _ solid
      obtain ⟨hl, hls⟩ := List.forall_mem_cons.mp solid
      cases ls with
      | nil =>
          rw [List.intercalate_singleton]
          exact hl
      | cons l' ls =>
          rw [List.intercalate_cons_cons]
          refine (ih (List.cons_ne_nil l' ls) hls).prepend ?_
          simp [hl.1, feedless]

theorem eq_nil_of_intercalate {E : Text} {ls : List Text} (solid : ∀ l ∈ ls, Solid l)
    (h : E.intercalate ls = []) : ls = [] := by
  cases ls with
  | nil => rfl
  | cons l ls =>
      obtain ⟨⟨_, t, c, rfl, _⟩, _⟩ := List.forall_mem_cons.mp solid
      cases ls with
      | nil => simp at h
      | cons l' ls => simp [List.intercalate_cons_cons] at h

theorem trimEnd_intercalate {E : Text} : ∀ {ls : List Text}, (∀ l ∈ ls, Solid l) →
    trimEnd (E.intercalate ls) = E.intercalate ls := by
  intro ls
  induction ls with
  | nil => intro _; rfl
  | cons l ls ih =>
      intro solid
      obtain ⟨⟨_, t, c, rfl, hc⟩, hls⟩ := List.forall_mem_cons.mp solid
      cases ls with
      | nil =>
          rw [List.intercalate_singleton]
          exact trimEnd_append_singleton t hc
      | cons l' ls =>
          have some_line : trimEnd (E.intercalate (l' :: ls)) ≠ [] := by
            rw [ih hls]
            intro nothing
            cases eq_nil_of_intercalate hls nothing
          rw [List.intercalate_cons_cons, trimEnd_append_of_ne_nil _ some_line, ih hls]

end Text

/-! ## Numbers -/

/-- The lines among `ls` that count, where the first of `ls` has the number `n`. -/
def numbered (n : Nat) (ls : List Text) : List SourceLine :=
  ((ls.zipIdx n).map fun (text, number) => ⟨number, text⟩).filter fun line =>
    !line.text.all Text.isWhite

theorem sourceLines_eq (t : Text) : sourceLines t = numbered 1 (Text.lines t) := rfl

@[simp] theorem numbered_nil (n : Nat) : numbered n [] = [] := rfl

theorem numbered_cons_white {l : Text} (h : l.all Text.isWhite = true) (n : Nat)
    (ls : List Text) : numbered n (l :: ls) = numbered (n + 1) ls := by
  simp [numbered, h]

theorem numbered_cons_filled {l : Text} (h : l.all Text.isWhite = false) (n : Nat)
    (ls : List Text) : numbered n (l :: ls) = ⟨n, l⟩ :: numbered (n + 1) ls := by
  simp [numbered, h]

theorem map_text_numbered (n : Nat) (ls : List Text) :
    (numbered n ls).map SourceLine.text = ls.filter fun l => !l.all Text.isWhite := by
  induction ls generalizing n with
  | nil => rfl
  | cons l ls ih =>
      cases white : l.all Text.isWhite with
      | true => rw [numbered_cons_white white, ih, List.filter_cons_of_neg (by simp [white])]
      | false =>
          rw [numbered_cons_filled white, List.map_cons, ih,
            List.filter_cons_of_pos (by simp [white])]

theorem map_text_sourceLines (t : Text) :
    (sourceLines t).map SourceLine.text = Text.sourceTexts t :=
  map_text_numbered 1 (Text.lines t)

end Hinting
