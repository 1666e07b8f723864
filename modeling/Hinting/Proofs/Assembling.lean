/-
# `Hinting.Proofs.Assembling` — the assembler, one command at a time

The assembler takes one command after the other off the front of the lines, until none are
left or the line in front makes no command:

    lines₀  ──c₁──▸  lines₁  ──c₂──▸  lines₂  ──▸  …

One step is `SourceLine.command`, and the whole is these steps in turn (`commands_cons`).
`Comes ls cs ls'` says that the assembler comes to the lines `ls'` on its way through `ls`,
with the commands `cs` made, whatever becomes of the lines after.  Every run is such a way,
to the end of the lines (`commands_eq_ok_iff_comes`) or to the line that makes no command
(`commands_eq_error_iff`).
-/
import Hinting.Proofs.Items

namespace Hinting

/-! ## One command -/

/-- The values that a push finds in the lines after it, and the lines that it leaves. -/
def valuesAhead : List SourceLine → List Int × List SourceLine
  | [] => ([], [])
  | next :: rest =>
    match Values.ofLine? next.text with
    | some values => (values, rest)
    | none => ([], next :: rest)

/-- The command of a line with others after it, and the lines that it leaves. -/
def SourceLine.command (line : SourceLine) (rest : List SourceLine) :
    Except AssemblyError (Command × List SourceLine) := do
  let (op, inside) ← line.header
  match op.pushWidth? with
  | none => return (← line.plain op inside, rest)
  | some w => return (← line.push op w (valuesAhead rest).1, (valuesAhead rest).2)

theorem commands_cons (line : SourceLine) (rest : List SourceLine) :
    commands (line :: rest) = do
      let (c, rest) ← line.command rest
      return c :: (← commands rest) := by
  rw [commands, SourceLine.command]
  cases line.header with
  | error e => rfl
  | ok header =>
      obtain ⟨op, inside⟩ := header
      cases kind : op.pushWidth? with
      | none =>
          simp only [kind, bind, Except.bind]
          cases line.plain op inside <;> rfl
      | some w =>
          simp only [kind, bind, Except.bind]
          cases rest with
          | nil =>
              simp only [valuesAhead]
              cases line.push op w [] <;> rfl
          | cons next rest =>
              cases found : Values.ofLine? next.text with
              | none =>
                  simp only [valuesAhead, found]
                  cases line.push op w [] <;> rfl
              | some values =>
                  simp only [valuesAhead, found]
                  cases line.push op w values <;> rfl

theorem SourceLine.of_command {line : SourceLine} {rest rest' : List SourceLine} {c : Command}
    (h : line.command rest = .ok (c, rest')) : ∃ op inside, line.header = .ok (op, inside) ∧
      (op.pushWidth? = none ∧ line.plain op inside = .ok c ∧ rest' = rest ∨
        ∃ w, op.pushWidth? = some w ∧ line.push op w (valuesAhead rest).1 = .ok c ∧
          rest' = (valuesAhead rest).2) := by
  rw [command, Except.bind_eq_ok_iff] at h
  obtain ⟨⟨op, inside⟩, header, h⟩ := h
  refine ⟨op, inside, header, ?_⟩
  cases kind : op.pushWidth? with
  | none =>
      simp only [kind] at h
      obtain ⟨c', plain, same⟩ := Except.bind_eq_ok_iff.mp h
      obtain ⟨rfl, rfl⟩ := Prod.mk.inj (Except.ok.inj same)
      exact .inl ⟨rfl, plain, rfl⟩
  | some w =>
      simp only [kind] at h
      obtain ⟨c', push, same⟩ := Except.bind_eq_ok_iff.mp h
      obtain ⟨rfl, rfl⟩ := Prod.mk.inj (Except.ok.inj same)
      exact .inr ⟨w, rfl, push, rfl⟩

theorem length_valuesAhead (ls : List SourceLine) : (valuesAhead ls).2.length ≤ ls.length := by
  cases ls with
  | nil => exact Nat.le_refl _
  | cons next rest =>
      rw [valuesAhead]
      split
      · exact Nat.le_succ _
      · exact Nat.le_refl _

theorem SourceLine.length_of_command {line : SourceLine} {rest rest' : List SourceLine}
    {c : Command} (h : line.command rest = .ok (c, rest')) : rest'.length ≤ rest.length := by
  obtain ⟨_, _, _, ⟨_, _, rfl⟩ | ⟨_, _, _, rfl⟩⟩ := of_command h
  · exact Nat.le_refl _
  · exact length_valuesAhead rest

/-! ## The way through the lines -/

/-- `Comes ls cs ls'`: assembling the lines `ls`, the assembler makes the commands `cs` and comes
to the lines `ls'`. -/
inductive Comes : List SourceLine → List Command → List SourceLine → Prop
  | start (ls : List SourceLine) : Comes ls [] ls
  | command {line : SourceLine} {rest rest' ls : List SourceLine} {c : Command}
      {cs : List Command} :
      line.command rest = .ok (c, rest') → Comes rest' cs ls → Comes (line :: rest) (c :: cs) ls

/-- What the assembler has made is kept, and what it has still to do is the same. -/
theorem Comes.commands_eq {ls ls' : List SourceLine} {cs : List Command} (h : Comes ls cs ls') :
    commands ls = (commands ls').map (cs ++ ·) := by
  induction h with
  | start ls => cases commands ls <;> rfl
  | @command line rest rest' ls c cs step _ ih =>
      rw [commands_cons, step]
      change (do return c :: (← commands rest')) = _
      rw [ih]
      cases commands ls <;> rfl

/-- The assembler comes to the end of the lines, or to one that makes no command. -/
theorem exists_comes (ls : List SourceLine) : ∃ cs, Comes ls cs [] ∨
    ∃ line rest e, Comes ls cs (line :: rest) ∧ line.command rest = .error e := by
  induction hn : ls.length using Nat.strongRecOn generalizing ls with
  | ind n ih =>
      cases ls with
      | nil => exact ⟨[], .inl (.start [])⟩
      | cons line rest =>
          cases step : line.command rest with
          | error e => exact ⟨[], .inr ⟨line, rest, e, .start _, step⟩⟩
          | ok made =>
              obtain ⟨c, rest'⟩ := made
              have shorter : rest'.length < n := by
                have left := SourceLine.length_of_command step
                rw [← hn, List.length_cons]
                omega
              obtain ⟨cs, done | ⟨line', rest'', e, comes, failed⟩⟩ := ih _ shorter rest' rfl
              · exact ⟨c :: cs, .inl (.command step done)⟩
              · exact ⟨c :: cs, .inr ⟨line', rest'', e, .command step comes, failed⟩⟩

theorem commands_eq_error_iff {ls : List SourceLine} {e : AssemblyError} :
    commands ls = .error e ↔
      ∃ cs line rest, Comes ls cs (line :: rest) ∧ line.command rest = .error e := by
  have stop : ∀ {cs line rest e}, Comes ls cs (line :: rest) → line.command rest = .error e →
      commands ls = .error e := by
    intro cs line rest e comes failed
    rw [comes.commands_eq, commands_cons, failed]
    rfl
  constructor
  · intro h
    obtain ⟨cs, done | ⟨line, rest, e', comes, failed⟩⟩ := exists_comes ls
    · rw [done.commands_eq] at h
      cases h
    · obtain rfl := Except.error.inj ((stop comes failed).symm.trans h)
      exact ⟨cs, line, rest, comes, failed⟩
  · rintro ⟨cs, line, rest, comes, failed⟩
    exact stop comes failed

theorem commands_eq_ok_iff_comes {ls : List SourceLine} {cs : List Command} :
    commands ls = .ok cs ↔ Comes ls cs [] := by
  constructor
  · intro h
    obtain ⟨cs', done | ⟨line, rest, e, comes, failed⟩⟩ := exists_comes ls
    · have made := done.commands_eq
      rw [h, commands] at made
      obtain rfl := Except.ok.inj made
      simpa using done
    · rw [commands_eq_error_iff.mpr ⟨cs', line, rest, comes, failed⟩] at h
      cases h
  · intro h
    rw [h.commands_eq, commands]
    simp [Except.map]

end Hinting
