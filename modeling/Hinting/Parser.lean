/-
# `Hinting.Parser` — reading a text from its front

A parser takes something off the front of a text and says what it has read, or it fails.
What it leaves is an end of the text, and carries the proof of that (`Parser.suffix`).

Two of the ways to put parsers together take something back.  An optional part that fails
half way has read nothing (`optional`), and a separator with no item behind it is not part of a
list (`separatedList1`).  For a list to end, its separator must take something
(`Parser.Consumes`).
-/
import Hinting.Text

namespace Hinting

structure Parser (α : Type) where
  /-- What is read, and what is left. -/
  run : Text → Option (α × Text)
  suffix : ∀ {t rest : Text} {v : α}, run t = some (v, rest) → rest <:+ t

namespace Parser
variable {α β : Type}

/-- What is read where nothing may be left. -/
def all (p : Parser α) (t : Text) : Option α :=
  match p.run t with
  | some (v, []) => some v
  | _ => none

/-- Whatever the parser reads takes at least one character. -/
def Consumes (p : Parser α) : Prop :=
  ∀ (t rest : Text) (v : α), p.run t = some (v, rest) → rest.length < t.length

/-! ## Characters -/

def takeWhile (p : Char → Bool) : Parser Text where
  run t := some (t.takeWhile p, t.dropWhile p)
  suffix h := by
    cases h
    exact List.dropWhile_suffix p

/-- As many characters of a class as there are, but at least one. -/
def takeWhile1 (p : Char → Bool) : Parser Text where
  run t := if t.takeWhile p = [] then none else some (t.takeWhile p, t.dropWhile p)
  suffix h := by
    split at h
    · cases h
    · cases h
      exact List.dropWhile_suffix p

theorem consumes_takeWhile1 (p : Char → Bool) : (takeWhile1 p).Consumes := by
  intro t rest v h
  simp only [takeWhile1] at h
  split at h
  · cases h
  · rename_i some_char
    cases h
    have whole := congrArg List.length (List.takeWhile_append_dropWhile (p := p) (l := t))
    rw [List.length_append] at whole
    have := List.length_pos_iff.mpr some_char
    omega

def tag (s : Text) : Parser Text where
  run t := if s <+: t then some (s, t.drop s.length) else none
  suffix h := by
    split at h
    · cases h
      exact List.drop_suffix _ _
    · cases h

/-- The text up to the first place where `s` starts, and the text from there on. -/
def splitBefore? (s : Text) : Text → Option (Text × Text)
  | [] => if s <+: [] then some ([], []) else none
  | c :: t =>
    if s <+: c :: t then some ([], c :: t)
    else (splitBefore? s t).map fun (before, rest) => (c :: before, rest)

theorem eq_append_of_splitBefore? {s : Text} : ∀ {t before rest : Text},
    splitBefore? s t = some (before, rest) → t = before ++ rest := by
  intro t
  induction t with
  | nil =>
      intro before rest h
      rw [splitBefore?] at h
      split at h <;> cases h
      rfl
  | cons c t ih =>
      intro before rest h
      rw [splitBefore?] at h
      split at h
      · cases h
        rfl
      · obtain ⟨⟨before', rest'⟩, later, eq⟩ := Option.map_eq_some_iff.mp h
        cases eq
        exact congrArg (c :: ·) (ih later)

/-- Everything up to the first place where `s` starts. -/
def takeUntil (s : Text) : Parser Text where
  run := splitBefore? s
  suffix h := ⟨_, (eq_append_of_splitBefore? h).symm⟩

/-! ## Putting parsers together -/

/-- One parser and then another, which may depend on what the first has read. -/
def bind (p : Parser α) (q : α → Parser β) : Parser β where
  run t := (p.run t).bind fun (v, rest) => (q v).run rest
  suffix h := by
    obtain ⟨⟨v, middle⟩, first, later⟩ := Option.bind_eq_some_iff.mp h
    exact ((q v).suffix later).trans (p.suffix first)

instance : Monad Parser where
  pure v := ⟨fun t => some (v, t), fun h => by cases h; exact List.suffix_rfl⟩
  bind := bind

/-- The first part, then what is wanted. -/
def preceded (p : Parser α) (q : Parser β) : Parser β := do
  let _ ← p
  q

/-- What is wanted, between two other parts. -/
def delimited {γ : Type} (p : Parser α) (q : Parser β) (r : Parser γ) : Parser β := do
  let _ ← p
  let v ← q
  let _ ← r
  return v

def optional (p : Parser α) : Parser (Option α) where
  run t :=
    match p.run t with
    | some (v, rest) => some (some v, rest)
    | none => some (none, t)
  suffix h := by
    split at h
    · rename_i read
      cases h
      exact p.suffix read
    · cases h
      exact List.suffix_rfl

/-- The text that a parser takes, in place of what it makes of it. -/
def recognize (p : Parser α) : Parser Text where
  run t := (p.run t).map fun (_, rest) => (t.take (t.length - rest.length), rest)
  suffix h := by
    obtain ⟨⟨v, rest⟩, read, eq⟩ := Option.map_eq_some_iff.mp h
    cases eq
    exact p.suffix read

/-- What a function makes of what is read, if it makes something of it. -/
def filterMap (p : Parser α) (f : α → Option β) : Parser β where
  run t := (p.run t).bind fun (v, rest) => (f v).map fun v => (v, rest)
  suffix h := by
    obtain ⟨⟨v, rest⟩, read, later⟩ := Option.bind_eq_some_iff.mp h
    obtain ⟨v', _, eq⟩ := Option.map_eq_some_iff.mp later
    cases eq
    exact p.suffix read

/-! ## Lists -/

/-- The items that follow in a text, with a separator before each. -/
def further (separator : Parser β) (consumes : separator.Consumes) (item : Parser α) (t : Text) :
    List α × Text :=
  match _read : separator.run t with
  | none => ([], t)
  | some (_, behind) =>
    match _found : item.run behind with
    | none => ([], t)
    | some (v, rest) =>
      let (vs, rest) := further separator consumes item rest
      (v :: vs, rest)
termination_by t.length
decreasing_by exact Nat.lt_of_le_of_lt (item.suffix ‹_›).length_le (consumes _ _ _ ‹_›)

section
variable {separator : Parser β} {consumes : separator.Consumes} {item : Parser α}

theorem further_of_none {t : Text} (h : separator.run t = none) :
    further separator consumes item t = ([], t) := by
  rw [further]
  split
  · rfl
  · rename_i read
    cases h.symm.trans read

/-- A separator with no item behind it is given back. -/
theorem further_of_alone {t behind : Text} {s : β} (h : separator.run t = some (s, behind))
    (none : item.run behind = none) : further separator consumes item t = ([], t) := by
  rw [further]
  split
  · rfl
  · rename_i read
    cases h.symm.trans read
    split
    · rfl
    · rename_i found
      cases none.symm.trans found

theorem further_of_item {t behind rest : Text} {s : β} {v : α}
    (h : separator.run t = some (s, behind)) (found : item.run behind = some (v, rest)) :
    further separator consumes item t =
      (v :: (further separator consumes item rest).1,
        (further separator consumes item rest).2) := by
  rw [further]
  split
  · rename_i read
    cases h.symm.trans read
  · rename_i read
    cases h.symm.trans read
    split
    · rename_i none
      cases none.symm.trans found
    · rename_i found'
      cases found.symm.trans found'
      rfl

/-- By induction on the text: each item is read behind the separator before it. -/
theorem further_suffix (t : Text) : (further separator consumes item t).2 <:+ t := by
  induction hn : t.length using Nat.strongRecOn generalizing t with
  | ind n ih =>
      cases read : separator.run t with
      | none =>
          simp only [further_of_none read, List.suffix_rfl]
      | some found =>
          obtain ⟨s, behind⟩ := found
          cases found : item.run behind with
          | none =>
              simp only [further_of_alone read found, List.suffix_rfl]
          | some next =>
              obtain ⟨v, rest⟩ := next
              have shorter : rest.length < n :=
                hn ▸ Nat.lt_of_le_of_lt (item.suffix found).length_le (consumes _ _ _ read)
              rw [further_of_item read found]
              exact (ih _ shorter rest rfl).trans
                ((item.suffix found).trans (separator.suffix read))

end

/-- One or more items with a separator between them. -/
def separatedList1 (separator : Parser β) (consumes : separator.Consumes) (item : Parser α) :
    Parser (List α) where
  run t := (item.run t).map fun (v, rest) =>
    let (vs, rest) := further separator consumes item rest
    (v :: vs, rest)
  suffix h := by
    obtain ⟨⟨v, rest⟩, first, eq⟩ := Option.map_eq_some_iff.mp h
    cases eq
    exact (further_suffix rest).trans (item.suffix first)

end Parser

end Hinting
