/-
# `Hinting.Proofs.SourceConcatenation` — one source text below the other

A text that assembles may be put above any other, with a line feed between them: what the
two make is what each makes, one after the other (`assemble_append_feed`).

    t₁  ⏎  t₂        ↦        bytes of t₁ ++ bytes of t₂
                              error of t₂, moved down by the lines of t₁

Two things could go wrong at the seam.  The line feed could take a carriage return at the
end of `t₁` along and so turn the last line of it into another; but no line that counts
ends in one (`Items.getLast?_ne`).  And a push at the end of `t₁` looks into `t₂` for its
values; but it finds none if `t₂` starts with no values line, as it does if it assembles.
-/
import Mathlib
import Hinting.Proofs.NumberedLines
import Hinting.Proofs.ValuesLine

namespace Hinting

/-! ## The ends of lines -/

namespace Text

theorem getLast?_append_cons_ne {a b : Text} {c d : Char} (h : d ∉ c :: b) :
    (a ++ c :: b).getLast? ≠ some d := by
  intro last
  rw [List.getLast?_append_of_ne_nil _ (List.cons_ne_nil c b)] at last
  exact h (List.mem_of_getLast? last)

end Text

/-- A header line ends in a bracket, in a slash, or in a blank. -/
theorem Header.Spells.getLast?_ne {h : Header} {line : Text} (hs : h.Spells line) :
    line.getLast? ≠ some '\r' := by
  have returnless : ∀ {c : Char} {b : Text}, c ≠ '\r' → Text.AllBlank b → '\r' ∉ c :: b := by
    intro c b other blank mem
    rcases List.mem_cons.mp mem with rfl | later
    · exact other rfl
    · exact blank.not_mem rfl later
  obtain ⟨_, _, _, lead, trailer, _, ends, rfl⟩ := hs
  cases ends with
  | blank blank =>
      rw [← List.append_assoc, ← List.cons_append, ← List.append_assoc]
      exact Text.getLast?_append_cons_ne (returnless (by decide) blank)
  | @comment before body after _ _ blank =>
      have slash := returnless (c := '/') (by decide) blank
      have ends := Text.getLast?_append_cons_ne (a := lead ++ h.name ++ '[' :: h.inside ++
        ']' :: before ++ '/' :: '*' :: body ++ ['*']) slash
      simpa using ends

theorem Values.getLast?_ne {line : Text} {vs : List Int} (h : ofLine? line = some vs) :
    line.getLast? ≠ some '\r' := by
  intro last
  exact absurd (mem_of_ofLine? h (List.mem_of_getLast? last)) (by decide)

theorem Item.getLast?_ne {ls : List Text} {c : Command} (h : Item ls c) :
    ∀ l ∈ ls, l.getLast? ≠ some '\r' := by
  have header : ∀ {l : Text} {found : Header}, Header.ofLine? l = some found →
      l.getLast? ≠ some '\r' :=
    fun read => (Header.ofLine?_eq_some_iff.mp read).getLast?_ne
  cases h with
  | plain read => exact List.forall_mem_singleton.mpr (header read)
  | push read _ follows =>
      cases follows with
      | nothing => exact List.forall_mem_singleton.mpr (header read)
      | values values =>
          exact List.forall_mem_cons.mpr
            ⟨header read, List.forall_mem_singleton.mpr (Values.getLast?_ne values)⟩

theorem Items.getLast?_ne {ls : List Text} {cs : List Command} (h : Items ls cs) :
    ∀ l ∈ ls, l.getLast? ≠ some '\r' := by
  induction h with
  | nil => intro l hl; cases hl
  | cons item _ ih => exact fun l hl => (List.mem_append.mp hl).elim (item.getLast?_ne l) (ih l)

/-! ## The seam -/

namespace Text

theorem all_isWhite_dropReturn {l : Text} (h : l.all isWhite = true) :
    (dropReturn l).all isWhite = true := by
  rw [dropReturn]
  split
  · exact List.all_eq_true.mpr fun c hc => List.all_eq_true.mp h c (List.dropLast_subset l hc)
  · exact h

/-- A line feed after the last piece makes no other lines that count of the pieces, if no line
that counts ends in a carriage return. -/
theorem filter_map_dropReturn {ps : List Text}
    (h : ∀ l ∈ (linesOfPieces ps).filter fun l => !l.all isWhite, l.getLast? ≠ some '\r') :
    ((ps.map dropReturn).filter fun l => !l.all isWhite)
      = (linesOfPieces ps).filter fun l => !l.all isWhite := by
  induction ps with
  | nil => rfl
  | cons p ps ih =>
      cases ps with
      | nil =>
          rw [linesOfPieces] at h ⊢
          cases p with
          | nil => rfl
          | cons c p =>
              simp only [List.isEmpty_cons, Bool.false_eq_true, if_false] at h ⊢
              cases white : (c :: p).all isWhite with
              | true => simp [white, all_isWhite_dropReturn white]
              | false =>
                  have last := h (c :: p) (by simp [white])
                  rw [List.map_singleton, dropReturn_of_ne last]
      | cons q ps =>
          rw [linesOfPieces] at h ⊢
          rw [List.map_cons, List.filter_cons, List.filter_cons, ih]
          intro l hl
          refine h l ?_
          rw [List.filter_cons]
          split
          · exact List.mem_cons_of_mem _ hl
          · exact hl

theorem length_splitOn (t : Text) : (t.splitOn '\n').length = t.count '\n' + 1 := by
  induction t with
  | nil => rfl
  | cons c t ih =>
      rw [List.splitOn_cons_eq_if_modifyHead, List.count_cons]
      split
      · rw [List.length_cons, ih]
      · rw [List.length_modifyHead, ih]

end Text

theorem sourceLines_append_feed (t u : Text) :
    sourceLines (t ++ '\n' :: u) = numbered 1 ((t.splitOn '\n').map Text.dropReturn)
      ++ (sourceLines u).map (SourceLine.movedDown (1 + t.count '\n')) := by
  rw [sourceLines_eq, Text.lines_append_cons, numbered_append, List.length_map,
    Text.length_splitOn, Nat.add_comm (t.count '\n'), numbered_add]
  rfl

theorem commands_of_assemble {t : Text} {q : Bytes} (h : assemble t = .ok q) :
    ∃ cs, q = Stream.bytes cs ∧
      commands (numbered 1 ((t.splitOn '\n').map Text.dropReturn)) = .ok cs := by
  obtain ⟨cs, items, rfl⟩ := assemble_eq_ok_iff.mp h
  refine ⟨cs, rfl, commands_eq_ok_iff.mpr ?_⟩
  rw [map_text_numbered, Text.filter_map_dropReturn]
  · exact items
  · exact items.getLast?_ne

theorem assemble_append_feed_eq {t u : Text} {q : Bytes} (h : assemble t = .ok q)
    (none : ∀ l rest, Text.sourceTexts u = l :: rest → Values.ofLine? l = none) :
    assemble (t ++ '\n' :: u) = ((assemble u).map (q ++ ·)).mapError
      (AssemblyError.movedDown (1 + t.count '\n')) := by
  obtain ⟨cs, rfl, above⟩ := commands_of_assemble h
  have none' : ∀ next later,
      (sourceLines u).map (SourceLine.movedDown (1 + t.count '\n')) = next :: later →
        Values.ofLine? next.text = Option.none := by
    intro next later eq
    obtain ⟨line, lines, split, rfl, _⟩ := List.map_eq_cons_iff.mp eq
    refine none line.text (lines.map SourceLine.text) ?_
    rw [← map_text_sourceLines, split, List.map_cons]
  rw [assemble, sourceLines_append_feed, commands_append above none', commands_movedDown, assemble]
  cases commands (sourceLines u) with
  | error e => rfl
  | ok cs' =>
      change Except.ok (Stream.bytes (cs ++ cs')) = Except.ok (Stream.bytes cs ++ Stream.bytes cs')
      rw [Stream.bytes_append]

namespace AssemblyError

/-- `Renumbered k m m'`: the message `m'` is `m`, with the number of the line in it raised by `k`
if there is one. -/
inductive Renumbered (k : Nat) : Text → Text → Prop
  | line {n : Nat} {report m m' : Text} :
      NamesLine m n report → NamesLine m' (n + k) report → Renumbered k m m'
  | bare {m : Text} : (∀ n report, ¬ NamesLine m n report) → Renumbered k m m

theorem renumbered_movedDown (k : Nat) (e : AssemblyError) :
    Renumbered k e.message (e.movedDown k).message := by
  by_cases digit : e.cause = .invalidDigit
  · have same : (e.movedDown k).message = e.message := by
      rw [message, message, movedDown, digit]
    rw [same]
    exact .bare fun n report named => (namesLine_message_iff.mp named).1 digit
  · exact .line (namesLine_message_iff.mpr ⟨digit, rfl, rfl⟩)
      (namesLine_message_iff.mpr ⟨digit, rfl, rfl⟩)

end AssemblyError

/-- **Source texts are assembled one below the other.**  Below a text that assembles, another
that does gives its bytes after those of the first; and one that fails, and starts with no
values line, fails with the same message, in which the number of the line is raised by the
lines of the first. -/
theorem assemble_append_feed {t₁ : Text} {a₁ : Bytes} (h : assemble t₁ = .ok a₁) (t₂ : Text) :
    (∀ a₂, assemble t₂ = .ok a₂ → assemble (t₁ ++ '\n' :: t₂) = .ok (a₁ ++ a₂)) ∧
    ∀ e, assemble t₂ = .error e →
      (∀ l, (Text.sourceTexts t₂).head? = some l → ¬ ∃ vs, Values.Spells vs l) →
        ∃ e', assemble (t₁ ++ '\n' :: t₂) = .error e' ∧
          e' = ⟨e.line + (1 + t₁.count '\n'), e.cause⟩ ∧
          AssemblyError.Renumbered (1 + t₁.count '\n') e.message e'.message := by
  constructor
  · intro a₂ assembled
    obtain ⟨cs, items, _⟩ := assemble_eq_ok_iff.mp assembled
    have none : ∀ l rest, Text.sourceTexts t₂ = l :: rest → Values.ofLine? l = Option.none :=
      fun l rest eq => (eq ▸ items).ofLine?_head
    rw [assemble_append_feed_eq h none, assembled]
    rfl
  · intro e failed noValues
    have none : ∀ l rest, Text.sourceTexts t₂ = l :: rest → Values.ofLine? l = Option.none := by
      intro l rest eq
      cases read : Values.ofLine? l with
      | none => rfl
      | some vs =>
          exact absurd ⟨vs, Values.ofLine?_eq_some_iff.mp read⟩ (noValues l (by rw [eq]; rfl))
    refine ⟨e.movedDown (1 + t₁.count '\n'), ?_, rfl, AssemblyError.renumbered_movedDown _ e⟩
    rw [assemble_append_feed_eq h none, failed]
    rfl

/-- A push of nothing and a lone carriage return, above a push with a value, and above an empty
line and a move with too few digits. -/
theorem assemble_append_feed_push :
    assemble ("NPUSHB[ ]\n\r".toList ++ '\n' :: "PUSHB[ ]\n7".toList)
        = .ok ([0x40, 0x00] ++ [0xb0, 0x07]) ∧
      assemble ("NPUSHB[ ]\n\r".toList ++ '\n' :: "\nMDRP[01]".toList)
        = .error ⟨4, .bitCount .MDRP "01".toList⟩ := by
  have above : assemble "NPUSHB[ ]\n\r".toList = .ok [0x40, 0x00] := by cbv
  have feeds : "NPUSHB[ ]\n\r".toList.count '\n' = 1 := by cbv
  have push : assemble "PUSHB[ ]\n7".toList = .ok [0xb0, 0x07] := by cbv
  have move : assemble "\nMDRP[01]".toList = .error ⟨2, .bitCount .MDRP "01".toList⟩ := by cbv
  have first : (Text.sourceTexts "\nMDRP[01]".toList).head? = some "MDRP[01]".toList := by cbv
  have header : Values.ofLine? "MDRP[01]".toList = none := by cbv
  have noValues : ∀ l, (Text.sourceTexts "\nMDRP[01]".toList).head? = some l →
      ¬ ∃ vs, Values.Spells vs l := by
    rintro l starts ⟨vs, spelled⟩
    rw [first] at starts
    rw [← Option.some.inj starts, ← Values.ofLine?_eq_some_iff, header] at spelled
    cases spelled
  have joined := (assemble_append_feed above "PUSHB[ ]\n7".toList).1 _ push
  obtain ⟨e, failed, same, _⟩ :=
    (assemble_append_feed above "\nMDRP[01]".toList).2 _ move noValues
  rw [feeds] at same
  exact ⟨joined, failed.trans (congrArg Except.error same)⟩

end Hinting
