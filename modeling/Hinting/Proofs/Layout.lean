/-
# `Hinting.Proofs.Layout` — what may be changed in a source text

The layout of a source text is for its readers.  Lines of white space may come and go, blanks
may be put in front of a line and after it, and the comment of a header line may be anything
that stays a comment, or nothing (`Relaid`):

    ␣PUSHB[ ]⇥                   PUSHB[ ]
    ␣␣                 ↦
    7                            ⇥7␣
    IF[ ] /* a */                IF[ ] /* b **/

However many such changes are made, a text that assembles has the same program after them
(`assemble_relaid`).  None of them reaches the lines that count, but to put others in their
place that are read alike (`Relaid.readsAs`).  For comments this rests on how a header line is
read: before the comment no slash can stand, so that the comment opens at the first `/*`, and
it is closed at the first `*/` (`Header.Spells.of_comment`).

A carriage return before every line feed is no change at all (`Text.lines_replaceFeeds`).
-/
import Mathlib
import Hinting.Proofs.LineEndings

namespace Hinting

/-! ## Changes of layout -/

namespace Text

/-- The comment of a line stands between the first `/*` and the first `*/` after it; `front` is
what stands before it, and `back` what stands after it. -/
structure Comment (line front body back : Text) : Prop where
  eq : line = front ++ '/' :: '*' :: (body ++ '*' :: '/' :: back)
  opens : ¬ ['/', '*'] <:+: front
  closes : ¬ ['*', '/'] <:+: body

/-- One change of a line: blanks at its ends are added or removed, or the comment of a header
line is removed or replaced by another. -/
inductive Retouched : Text → Text → Prop
  | addBlanks {l l' : Text} : Padded l l' → Retouched l l'
  | removeBlanks {l l' : Text} : Padded l' l → Retouched l l'
  | removeComment {l front body back : Text} {h : Header} :
      h.Spells l → Comment l front body back → Retouched l (front ++ back)
  | replaceComment {l l' front body body' back : Text} {h : Header} :
      h.Spells l → Comment l front body back → '\n' ∉ body' →
      Comment l' front body' back → Retouched l l'

/-- One change of the lines of a text: a line of white space comes or goes, or a line is
changed. -/
inductive Relaid : List Text → List Text → Prop
  | insert {before after : List Text} {l : Text} :
      '\n' ∉ l → l.all isWhite = true → Relaid (before ++ after) (before ++ l :: after)
  | delete {before after : List Text} {l : Text} :
      '\n' ∉ l → l.all isWhite = true → Relaid (before ++ l :: after) (before ++ after)
  | line {before after : List Text} {l l' : Text} :
      Retouched l l' → Relaid (before ++ l :: after) (before ++ l' :: after)

end Text

/-! ## Blanks -/

namespace Text

theorem exists_of_append_eq {w a z b : Text} {c : Char} (hc : isBlank c = false)
    (hb : AllBlank b) (eq : w ++ c :: a = z ++ b) : ∃ z', z = w ++ c :: z' ∧ a = z' ++ b := by
  obtain ⟨r, rfl, rest⟩ | ⟨r, rfl, rfl⟩ := List.append_eq_append_iff.mp eq
  · cases r with
    | nil =>
        rw [List.nil_append] at rest
        have blank := hb c (by simp [← rest])
        cases hc.symm.trans blank
    | cons d r =>
        obtain ⟨rfl, rfl⟩ := List.cons.inj rest
        exact ⟨r, rfl, rfl⟩
  · have blank := hb c (by simp)
    cases hc.symm.trans blank

end Text

namespace Header

open Text

theorem Trailer.of_append {t u : Text} (h : Trailer (t ++ u)) (hu : AllBlank u) : Trailer t := by
  generalize eq : t ++ u = whole at h
  cases h with
  | blank blank =>
      subst eq
      exact .blank fun c hc => blank c (List.mem_append_left u hc)
  | @comment before body after hb hbody ha =>
      have slash : (before ++ '/' :: '*' :: (body ++ ['*'])) ++ '/' :: after = t ++ u := by
        simpa using eq.symm
      obtain ⟨z, rfl, rfl⟩ := exists_of_append_eq rfl hu slash
      have blank : AllBlank z := fun c hc => ha c (List.mem_append_left u hc)
      simpa using Trailer.comment hb hbody blank

theorem Spells.of_padded {h : Header} {line line' : Text} (hs : h.Spells line')
    (hp : Padded line line') : h.Spells line := by
  obtain ⟨before, after, hb, ha, rfl⟩ := hp
  obtain ⟨named, name, inside, lead, trailer, hl, ht, eq⟩ := hs
  obtain ⟨lead', hl', rest⟩ := eq_append_dropBlanks (line ++ after)
  have solid : dropBlanks (line ++ after) = h.name ++ '[' :: (h.inside ++ ']' :: trailer) := by
    rw [← dropBlanks_append hb, ← List.append_assoc, eq, dropBlanks_of_name hl named name]
  have bracket : (lead' ++ (h.name ++ '[' :: h.inside)) ++ ']' :: trailer = line ++ after := by
    rw [rest, solid]
    simp
  obtain ⟨trailer', rfl, rfl⟩ := exists_of_append_eq rfl ha bracket
  exact ⟨named, name, inside, lead', trailer', hl', ht.of_append ha, by simp⟩

/-! ## Comments -/

theorem unclosed_iff {body : Text} : Unclosed body ↔ ¬ ['*', '/'] <:+: body := by
  rw [Unclosed, not_iff_not, List.infix_concat_iff, List.suffix_concat_iff]
  constructor
  · rintro ((none | ⟨t, eq, _⟩) | inner)
    · cases none
    · have last := congrArg List.getLast? eq
      rw [List.getLast?_concat] at last
      cases last
    · exact inner
  · exact .inr

/-- A text opens its comment at the first slash, if the star comes right after it. -/
theorem eq_of_append_slash {front front' x x' : Text} (noSlash : '/' ∉ front)
    (opens : ¬ ['/', '*'] <:+: front')
    (eq : front ++ '/' :: '*' :: x = front' ++ '/' :: '*' :: x') : front = front' ∧ x = x' := by
  obtain ⟨z, rfl, rest⟩ | ⟨z, rfl, rest⟩ := List.append_eq_append_iff.mp eq
  · cases z with
    | nil => simpa using rest
    | cons c z =>
        obtain ⟨rfl, later⟩ := List.cons.inj rest
        cases z with
        | nil => simp at later
        | cons d z =>
            obtain ⟨rfl, _⟩ := List.cons.inj later
            exact absurd ⟨front, z, by simp⟩ opens
  · cases z with
    | nil => simpa [eq_comm] using rest
    | cons c z =>
        obtain ⟨rfl, _⟩ := List.cons.inj rest
        exact absurd (by simp) noSlash

theorem Spells.of_comment {h : Header} {line front body back : Text} (hs : h.Spells line)
    (hc : Comment line front body back) : AllBlank back ∧ ∃ lead before, AllBlank lead ∧
      AllBlank before ∧ front = lead ++ (h.name ++ '[' :: (h.inside ++ ']' :: before)) := by
  obtain ⟨named, name, inside, lead, trailer, hl, ht, rfl⟩ := hs
  have plain : ∀ before, AllBlank before →
      '/' ∉ lead ++ (h.name ++ '[' :: (h.inside ++ ']' :: before)) := by
    intro before hb
    have inName : '/' ∉ h.name := fun slash => by cases name _ slash
    have inBrackets : '/' ∉ h.inside := fun slash => by cases inside _ slash
    simp [hl.not_mem (c := '/') rfl, hb.not_mem (c := '/') rfl, inName, inBrackets]
  cases ht with
  | blank blank =>
      refine absurd ?_ (plain trailer blank)
      rw [hc.eq]
      simp
  | @comment before body' after hb hbody ha =>
      have eq := hc.eq
      have split : (lead ++ (h.name ++ '[' :: (h.inside ++ ']' :: before)))
          ++ '/' :: '*' :: (body' ++ '*' :: '/' :: after)
          = front ++ '/' :: '*' :: (body ++ '*' :: '/' :: back) := by simpa using eq
      obtain ⟨rfl, same⟩ := eq_of_append_slash (plain before hb) hc.opens split
      have closed := congrArg (Parser.splitBefore? ['*', '/']) same
      rw [splitBefore?_append hbody, splitBefore?_append (unclosed_iff.mpr hc.closes)] at closed
      cases closed
      exact ⟨ha, lead, before, hl, hb, rfl⟩

theorem Spells.removeComment {h : Header} {line front body back : Text} (hs : h.Spells line)
    (hc : Comment line front body back) : h.Spells (front ++ back) := by
  obtain ⟨hback, lead, before, hl, hb, rfl⟩ := hs.of_comment hc
  exact ⟨hs.named, hs.name, hs.inside, lead, before ++ back, hl, .blank (hb.append hback),
    by simp⟩

theorem Spells.replaceComment {h : Header} {line line' front body body' back : Text}
    (hs : h.Spells line) (hc : Comment line front body back)
    (hc' : Comment line' front body' back) : h.Spells line' := by
  obtain ⟨hback, lead, before, hl, hb, rfl⟩ := hs.of_comment hc
  exact ⟨hs.named, hs.name, hs.inside, lead, _, hl,
    .comment hb (unclosed_iff.mpr hc'.closes) hback, by simp [hc'.eq]⟩

end Header

/-! ## Lines that are read alike -/

namespace Text

theorem readsAs_of_spells {h : Header} {l l' : Text} (hs : h.Spells l) (hs' : h.Spells l') :
    ReadsAs l l' where
  header := by
    intro header read
    obtain rfl := Option.some.inj ((Header.ofLine?_eq_some_iff.mpr hs).symm.trans read)
    exact Header.ofLine?_eq_some_iff.mpr hs'
  values := by
    intro vs read
    cases (Values.ofLine?_eq_none_of_spells hs).symm.trans read

theorem filled_of_spells {h : Header} {l : Text} (hs : h.Spells l) : l.all isWhite = false :=
  List.all_eq_false.mpr ⟨'[', hs.bracket_mem, by decide⟩

theorem Padded.all_isWhite {l l' : Text} (h : Padded l l') : l'.all isWhite = l.all isWhite := by
  obtain ⟨before, after, hb, ha, rfl⟩ := h
  simp [hb.all_isWhite, ha.all_isWhite]

theorem Retouched.all_isWhite {l l' : Text} (h : Retouched l l') :
    l'.all isWhite = l.all isWhite := by
  cases h with
  | addBlanks padded => exact padded.all_isWhite
  | removeBlanks padded => exact padded.all_isWhite.symm
  | removeComment hs hc =>
      rw [filled_of_spells hs, filled_of_spells (hs.removeComment hc)]
  | replaceComment hs hc _ hc' =>
      rw [filled_of_spells hs, filled_of_spells (hs.replaceComment hc hc')]

theorem Retouched.readsAs {l l' : Text} (h : Retouched l l') : ReadsAs l l' := by
  cases h with
  | addBlanks padded => exact padded.readsAs
  | removeBlanks padded =>
      refine ⟨fun header read => ?_, fun vs => (Values.ofLine?_padded padded).symm.trans⟩
      exact Header.ofLine?_eq_some_iff.mpr
        ((Header.ofLine?_eq_some_iff.mp read).of_padded padded)
  | removeComment hs hc => exact readsAs_of_spells hs (hs.removeComment hc)
  | replaceComment hs hc _ hc' => exact readsAs_of_spells hs (hs.replaceComment hc hc')

/-- **One change leaves the lines that count, but for others that are read alike.** -/
theorem Relaid.readsAs {ls ls' : List Text} (h : Relaid ls ls') :
    List.Forall₂ ReadsAs (ls.filter fun l => !l.all isWhite)
      (ls'.filter fun l => !l.all isWhite) := by
  have same : ∀ ls : List Text, List.Forall₂ ReadsAs ls ls :=
    fun ls => List.forall₂_same.mpr fun l _ => readsAs_refl l
  cases h with
  | @insert before after l _ white =>
      rw [List.filter_append, List.filter_append, List.filter_cons_of_neg (by simp [white])]
      exact same _
  | @delete before after l _ white =>
      rw [List.filter_append, List.filter_append, List.filter_cons_of_neg (by simp [white])]
      exact same _
  | @line before after l l' changed =>
      rw [List.filter_append, List.filter_append]
      refine List.rel_append (same _) ?_
      rw [List.filter_cons, List.filter_cons, changed.all_isWhite]
      split
      · exact .cons changed.readsAs (same _)
      · exact same _

/-! ## Line endings -/

theorem lines_replaceFeeds (t : Text) :
    '\r' ∉ t → lines (replaceFeeds ['\r', '\n'] t) = lines t := by
  induction hn : t.length using Nat.strongRecOn generalizing t with
  | ind n ih =>
      intro returnless
      by_cases feed : '\n' ∈ t
      · obtain ⟨x, u, rfl, first⟩ := List.eq_append_cons_of_mem feed
        have shorter : u.length < n := by
          rw [← hn, List.length_append, List.length_cons]
          omega
        simp only [List.mem_append, List.mem_cons, not_or] at returnless
        have returnFeed : '\n' ∉ x ++ ['\r'] := by simp [first]
        have last : x.getLast? ≠ some '\r' :=
          fun last => returnless.1 (List.mem_of_getLast? last)
        calc lines (replaceFeeds ['\r', '\n'] (x ++ '\n' :: u))
            = lines ((x ++ ['\r']) ++ '\n' :: replaceFeeds ['\r', '\n'] u) := by
              have split : x ++ '\n' :: u = x ++ (['\n'] ++ u) := rfl
              rw [split, replaceFeeds_append, replaceFeeds_append, replaceFeeds_feed,
                replaceFeeds_of_feedless _ first, List.append_assoc]
              rfl
          _ = x :: lines u := by
              rw [lines_feed returnFeed, dropReturn_concat, ih _ shorter u rfl returnless.2.2]
          _ = lines (x ++ '\n' :: u) := by rw [lines_feed first, dropReturn_of_ne last]
      · rw [replaceFeeds_of_feedless _ feed]

end Text

/-! ## The assembler -/

theorem items_of_relaid {ls ls' : List Text} {cs : List Command}
    (changes : Relation.ReflTransGen Text.Relaid ls ls')
    (items : Items (ls.filter fun l => !l.all Text.isWhite) cs) :
    Items (ls'.filter fun l => !l.all Text.isWhite) cs := by
  induction changes with
  | refl => exact items
  | tail _ change ih => exact ih.readsAs change.readsAs

/-- **Layout and comments are of no matter.**  A text whose lines come from those of a text that
assembles, by any number of changes of layout, has the same program.  And a carriage return
before every line feed of a text that has none changes nothing, neither a program nor an
error. -/
theorem assemble_relaid (t : Text) :
    (∀ q t', assemble t = .ok q →
      Relation.ReflTransGen Text.Relaid (Text.lines t) (Text.lines t') → assemble t' = .ok q) ∧
    ('\r' ∉ t → assemble (Text.replaceFeeds ['\r', '\n'] t) = assemble t) := by
  constructor
  · intro q t' assembled changes
    obtain ⟨cs, items, rfl⟩ := assemble_eq_ok_iff.mp assembled
    exact assemble_eq_ok_iff.mpr ⟨cs, items_of_relaid changes items, rfl⟩
  · intro returnless
    rw [assemble, assemble, sourceLines, sourceLines, Text.lines_replaceFeeds t returnless]

/-- A push and its value, and `IF` with a comment: a no-break space on a line between the two,
blanks around the value, and a comment that ends in two stars. -/
theorem assemble_relaid_push :
    assemble "PUSHB[ ]\n7\nIF[ ] /* a */".toList = .ok [0xb0, 0x07, 0x58] ∧
      assemble "PUSHB[ ]\n\u00a0\n\t7 \nIF[ ] /* **/".toList = .ok [0xb0, 0x07, 0x58] ∧
      assemble (Text.replaceFeeds ['\r', '\n'] "PUSHB[ ]\n7\nIF[ ] /* a */".toList)
        = .ok [0xb0, 0x07, 0x58] := by
  have assembled : assemble "PUSHB[ ]\n7\nIF[ ] /* a */".toList = .ok [0xb0, 0x07, 0x58] := by
    cbv
  have first : Text.lines "PUSHB[ ]\n7\nIF[ ] /* a */".toList
      = ["PUSHB[ ]".toList] ++ ["7".toList, "IF[ ] /* a */".toList] := by cbv
  have last : Text.lines "PUSHB[ ]\n\u00a0\n\t7 \nIF[ ] /* **/".toList
      = ["PUSHB[ ]".toList, ['\u00a0'], "\t7 ".toList] ++ ["IF[ ] /* **/".toList] := by cbv
  have blank : ∀ c, Text.isBlank c = true → Text.AllBlank [c] :=
    fun c hc => List.forall_mem_singleton.mpr hc
  have inserted : Text.Relaid (["PUSHB[ ]".toList] ++ ["7".toList, "IF[ ] /* a */".toList])
      (["PUSHB[ ]".toList] ++ ['\u00a0'] :: ["7".toList, "IF[ ] /* a */".toList]) :=
    .insert (by decide) (by decide)
  have padded : Text.Relaid
      (["PUSHB[ ]".toList, ['\u00a0']] ++ "7".toList :: ["IF[ ] /* a */".toList])
      (["PUSHB[ ]".toList, ['\u00a0']] ++ "\t7 ".toList :: ["IF[ ] /* a */".toList]) :=
    .line (.addBlanks ⟨['\t'], [' '], blank _ rfl, blank _ rfl, by cbv⟩)
  have header : Header.Spells ⟨"IF".toList, [' ']⟩ "IF[ ] /* a */".toList :=
    Header.ofLine?_eq_some_iff.mp (by cbv)
  have commented : Text.Relaid
      (["PUSHB[ ]".toList, ['\u00a0'], "\t7 ".toList] ++ "IF[ ] /* a */".toList :: [])
      (["PUSHB[ ]".toList, ['\u00a0'], "\t7 ".toList] ++ "IF[ ] /* **/".toList :: []) :=
    .line (.replaceComment header
      (⟨by cbv, by decide, by decide⟩ : Text.Comment _ "IF[ ] ".toList " a ".toList [])
      (by decide) (⟨by cbv, by decide, by decide⟩ : Text.Comment _ _ " *".toList _))
  obtain ⟨changed, returned⟩ := assemble_relaid "PUSHB[ ]\n7\nIF[ ] /* a */".toList
  refine ⟨assembled, changed _ _ assembled ?_, (returned (by decide)).trans assembled⟩
  rw [first, last]
  exact ((Relation.ReflTransGen.single inserted).tail padded).tail commented

end Hinting
