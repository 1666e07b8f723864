/-
# `Hinting.Proofs.NumberedLines` — how far the assembler looks

The lines of a source text carry their numbers, and the assembler takes one command after
the other off their front.  What it does with a line depends on little:

    …  lineₙ₋₁  │  lineₙ   lineₘ  │  …
       taken    │  header  values │  not looked at

It looks at the line in front and, behind the header line of a push, at the line after it,
to see whether that is a values line.  So the lines after what it has come through may be
exchanged for others, as long as no values line steps up to a push that has found none
(`Comes.exchange`), and an error at a line stays the same where the values ahead of it do
(`SourceLine.command_of_error`).

The numbers take no part in it.  Lines that are moved down give the same commands, or the
same error further down (`commands_movedDown`).  They come back in the messages alone, and
only an invalid digit is reported without one (`AssemblyError.namesLine_message_iff`).
-/
import Hinting.Proofs.Assembling

namespace Hinting

/-! ## Numbers -/

theorem numbered_append (n : Nat) (ls ls' : List Text) :
    numbered n (ls ++ ls') = numbered n ls ++ numbered (n + ls.length) ls' := by
  simp [numbered, List.zipIdx_append]

theorem numbered_append_cons {l : Text} (h : l.all Text.isWhite = false) (n : Nat)
    (before after : List Text) : numbered n (before ++ l :: after) = numbered n before ++
      ⟨n + before.length, l⟩ :: numbered (n + before.length + 1) after := by
  rw [numbered_append, numbered_cons_filled h]

/-- A line that counts stands among the lines, with as many before it as its number says. -/
theorem exists_of_numbered {n : Nat} {ls : List Text} {front rest : List SourceLine}
    {line : SourceLine} (h : numbered n ls = front ++ line :: rest) :
    ∃ before after, ls = before ++ line.text :: after ∧ line.text.all Text.isWhite = false ∧
      line.number = n + before.length ∧ numbered n before = front ∧
      numbered (line.number + 1) after = rest := by
  induction ls generalizing n front with
  | nil => simp at h
  | cons l ls ih =>
      cases white : l.all Text.isWhite with
      | true =>
          rw [numbered_cons_white white] at h
          obtain ⟨before, after, rfl, filled, number, front, rest⟩ := ih h
          refine ⟨l :: before, after, rfl, filled, ?_, ?_, rest⟩
          · rw [number, List.length_cons]
            omega
          · rw [numbered_cons_white white, front]
      | false =>
          rw [numbered_cons_filled white] at h
          cases front with
          | nil =>
              obtain ⟨rfl, rest⟩ := List.cons.inj h
              exact ⟨[], ls, rfl, white, rfl, rfl, rest⟩
          | cons first front =>
              obtain ⟨rfl, later⟩ := List.cons.inj h
              obtain ⟨before, after, rfl, filled, number, front, rest⟩ := ih later
              refine ⟨l :: before, after, rfl, filled, ?_, ?_, rest⟩
              · rw [number, List.length_cons]
                omega
              · rw [numbered_cons_filled white, front]

/-! ## The lines ahead -/

/-- If a values line stands in front of the lines `ls`, it stands in front of `ls'` too. -/
def ValuesStay (ls ls' : List SourceLine) : Prop :=
  ∀ next later vs, ls = next :: later → Values.ofLine? next.text = some vs →
    ∃ later', ls' = next :: later'

theorem valuesStay_nil (ls : List SourceLine) : ValuesStay [] ls := by
  intro next later vs eq
  cases eq

theorem valuesStay_cons (line : SourceLine) (rest rest' : List SourceLine) :
    ValuesStay (line :: rest) (line :: rest') := by
  intro next later vs eq _
  obtain ⟨rfl, _⟩ := List.cons.inj eq
  exact ⟨rest', rfl⟩

theorem valuesStay_of_none {ls : List SourceLine}
    (h : ∀ next later, ls = next :: later → Values.ofLine? next.text = none)
    (ls' : List SourceLine) : ValuesStay ls ls' := by
  intro next later vs eq read
  cases (h next later eq).symm.trans read

theorem ValuesStay.prepend {ls ls' : List SourceLine} (h : ValuesStay ls ls')
    (front : List SourceLine) : ValuesStay (front ++ ls) (front ++ ls') := by
  cases front with
  | nil => exact h
  | cons line front => exact valuesStay_cons line _ _

theorem valuesAhead_of_none {ls : List SourceLine}
    (h : ∀ next later, ls = next :: later → Values.ofLine? next.text = none) :
    valuesAhead ls = ([], ls) := by
  cases ls with
  | nil => rfl
  | cons next later => rw [valuesAhead, h next later rfl]

theorem valuesAhead_eq (ls : List SourceLine) :
    (∃ next later vs, ls = next :: later ∧ Values.ofLine? next.text = some vs ∧
      valuesAhead ls = (vs, later)) ∨
    (∀ next later, ls = next :: later → Values.ofLine? next.text = none) ∧
      valuesAhead ls = ([], ls) := by
  cases ls with
  | nil => exact .inr ⟨by simp, rfl⟩
  | cons next later =>
      cases read : Values.ofLine? next.text with
      | some vs => exact .inl ⟨next, later, vs, rfl, read, by rw [valuesAhead, read]⟩
      | none =>
          have none : ∀ next' later', next :: later = next' :: later' →
              Values.ofLine? next'.text = Option.none := by
            intro next' later' eq
            obtain ⟨rfl, _⟩ := List.cons.inj eq
            exact read
          exact .inr ⟨none, valuesAhead_of_none none⟩

theorem exists_follow_of_valuesAhead (rest : List SourceLine) :
    ∃ follow, rest = follow ++ (valuesAhead rest).2 ∧
      ∀ ls, ValuesStay ls (valuesAhead rest).2 →
        valuesAhead (follow ++ ls) = ((valuesAhead rest).1, ls) := by
  obtain ⟨next, later, vs, rfl, read, ahead⟩ | ⟨none, ahead⟩ := valuesAhead_eq rest
  · rw [ahead]
    refine ⟨[next], rfl, fun ls _ => ?_⟩
    rw [List.singleton_append, valuesAhead, read]
  · rw [ahead]
    refine ⟨[], rfl, fun ls stay => valuesAhead_of_none fun next later eq => ?_⟩
    cases read : Values.ofLine? next.text with
    | none => rfl
    | some vs =>
        obtain ⟨later', rfl⟩ := stay next later vs eq read
        cases (none next later' rfl).symm.trans read

/-! ## Exchanging what comes after -/

theorem SourceLine.exists_follow_of_command {line : SourceLine} {rest rest' : List SourceLine}
    {c : Command} (h : line.command rest = .ok (c, rest')) :
    ∃ follow, rest = follow ++ rest' ∧
      ∀ ls, ValuesStay ls rest' → line.command (follow ++ ls) = .ok (c, ls) := by
  obtain ⟨op, inside, header, ⟨kind, made, rfl⟩ | ⟨w, kind, made, rfl⟩⟩ := of_command h
  · refine ⟨[], rfl, fun ls _ => ?_⟩
    rw [List.nil_append, command, header]
    simp only [bind, Except.bind, kind, made, pure, Except.pure]
  · obtain ⟨follow, split, ahead⟩ := exists_follow_of_valuesAhead rest
    refine ⟨follow, split, fun ls stay => ?_⟩
    rw [command, header, ahead ls stay]
    simp only [bind, Except.bind, kind, made, pure, Except.pure]

/-- **The lines after what the assembler has come through may be exchanged.** -/
theorem Comes.exchange {ls ls' : List SourceLine} {cs : List Command} (h : Comes ls cs ls') :
    ∃ front, ls = front ++ ls' ∧ ∀ ls'', ValuesStay ls'' ls' → Comes (front ++ ls'') cs ls'' := by
  induction h with
  | start ls => exact ⟨[], rfl, fun ls'' _ => .start ls''⟩
  | @command line rest rest' ls c cs step _ ih =>
      obtain ⟨front, rfl, comes⟩ := ih
      obtain ⟨follow, rfl, taken⟩ := SourceLine.exists_follow_of_command step
      refine ⟨line :: (follow ++ front), by simp, fun ls'' stay => ?_⟩
      rw [List.cons_append, List.append_assoc]
      exact .command (taken _ (stay.prepend front)) (comes ls'' stay)

theorem commands_append {ls ls' : List SourceLine} {cs : List Command} (h : commands ls = .ok cs)
    (none : ∀ next later, ls' = next :: later → Values.ofLine? next.text = none) :
    commands (ls ++ ls') = (commands ls').map (cs ++ ·) := by
  obtain ⟨front, eq, comes⟩ := (commands_eq_ok_iff_comes.mp h).exchange
  obtain rfl : ls = front := by simpa using eq
  exact (comes ls' (valuesStay_of_none none [])).commands_eq

/-! ## Errors -/

/-- `Refused text vs cause`: a line with a text, and the values `vs` ahead of it, makes no
command, for this cause. -/
inductive Refused (text : Text) (vs : List Int) : AssemblyError.Cause → Prop
  | notHeader : Header.ofLine? text = none → Refused text vs (.notHeader text)
  | unknownName {name inside : Text} :
      Header.ofLine? text = some ⟨name, inside⟩ → Operation.ofMnemonic? name = none →
      Refused text vs (.unknownName name)
  | bitCount {op : Operation} {inside : Text} :
      Header.ofLine? text = some ⟨op.mnemonic, inside⟩ → op.pushWidth? = none →
      (Text.trim inside).length ≠ op.argBits → Refused text vs (.bitCount op (Text.trim inside))
  | invalidDigit {op : Operation} {inside : Text} :
      Header.ofLine? text = some ⟨op.mnemonic, inside⟩ → op.pushWidth? = none →
      (Text.trim inside).length = op.argBits → Numeral.binary? (Text.trim inside) = none →
      Refused text vs .invalidDigit
  | valueCount {op : Operation} {inside : Text} {w : PushWidth} :
      Header.ofLine? text = some ⟨op.mnemonic, inside⟩ → op.pushWidth? = some w →
      op.admitsCount vs.length = false → Refused text vs (.valueCount op vs.length)
  | outOfRange {op : Operation} {inside : Text} {w : PushWidth} {v : Int} :
      Header.ofLine? text = some ⟨op.mnemonic, inside⟩ → op.pushWidth? = some w →
      op.admitsCount vs.length = true → (vs.find? fun v => !w.holds v) = some v →
      Refused text vs (.outOfRange op v)

namespace SourceLine

theorem refused_of_header {line : SourceLine} {e : AssemblyError} (vs : List Int)
    (h : line.header = .error e) : ∃ cause, Refused line.text vs cause ∧ e = line.error cause := by
  rw [header] at h
  split at h
  · rename_i unread
    exact ⟨_, .notHeader unread, (Except.error.inj h).symm⟩
  · rename_i found read
    split at h
    · rename_i unknown
      exact ⟨_, .unknownName read unknown, (Except.error.inj h).symm⟩
    · cases h

theorem refused_of_plain {line : SourceLine} {op : Operation} {inside : Text} {e : AssemblyError}
    (vs : List Int) (header : Header.ofLine? line.text = some ⟨op.mnemonic, inside⟩)
    (kind : op.pushWidth? = none) (h : line.plain op inside = .error e) :
    ∃ cause, Refused line.text vs cause ∧ e = line.error cause := by
  simp only [plain] at h
  split at h
  · rename_i width
    split at h
    · cases h
    · rename_i unread
      exact ⟨_, .invalidDigit header kind width unread, (Except.error.inj h).symm⟩
  · rename_i width
    exact ⟨_, .bitCount header kind width, (Except.error.inj h).symm⟩

theorem refused_of_push {line : SourceLine} {op : Operation} {inside : Text} {w : PushWidth}
    {vs : List Int} {e : AssemblyError}
    (header : Header.ofLine? line.text = some ⟨op.mnemonic, inside⟩)
    (kind : op.pushWidth? = some w) (h : line.push op w vs = .error e) :
    ∃ cause, Refused line.text vs cause ∧ e = line.error cause := by
  rw [push] at h
  split at h
  · rename_i admitted
    split at h
    · cases h
    · rename_i v found
      exact ⟨_, .outOfRange header kind admitted found, (Except.error.inj h).symm⟩
  · rename_i many
    exact ⟨_, .valueCount header kind (Bool.not_eq_true _ ▸ many), (Except.error.inj h).symm⟩

theorem command_eq_error_iff {line : SourceLine} {rest : List SourceLine} {e : AssemblyError} :
    line.command rest = .error e ↔
      ∃ cause, Refused line.text (valuesAhead rest).1 cause ∧ e = line.error cause := by
  constructor
  · intro h
    rw [command] at h
    cases header : line.header with
    | error e' =>
        rw [header] at h
        obtain rfl := Except.error.inj h
        exact refused_of_header _ header
    | ok found =>
        obtain ⟨op, inside⟩ := found
        rw [header] at h
        have read := header_eq_ok_iff.mp header
        cases kind : op.pushWidth? with
        | none =>
            simp only [bind, Except.bind, kind] at h
            cases made : line.plain op inside with
            | ok c => rw [made] at h; cases h
            | error e' =>
                rw [made] at h
                obtain rfl := Except.error.inj h
                exact refused_of_plain _ read kind made
        | some w =>
            simp only [bind, Except.bind, kind] at h
            cases made : line.push op w (valuesAhead rest).1 with
            | ok c => rw [made] at h; cases h
            | error e' =>
                rw [made] at h
                obtain rfl := Except.error.inj h
                exact refused_of_push read kind made
  · rintro ⟨cause, refused, rfl⟩
    cases refused with
    | notHeader unread => simp [command, header, unread, bind, Except.bind]
    | unknownName read unknown => simp [command, header, read, unknown, bind, Except.bind]
    | bitCount read kind width =>
        rw [command, header_eq_ok_iff.mpr read]
        simp [bind, Except.bind, kind, plain, width]
    | invalidDigit read kind width unread =>
        rw [command, header_eq_ok_iff.mpr read]
        simp [bind, Except.bind, kind, plain, width, unread]
    | valueCount read kind many =>
        rw [command, header_eq_ok_iff.mpr read]
        simp [bind, Except.bind, kind, push, many]
    | outOfRange read kind admitted found =>
        rw [command, header_eq_ok_iff.mpr read]
        simp [bind, Except.bind, kind, push, admitted, found]

/-- A line that makes no command makes none with other lines after it, if the values ahead
are the same. -/
theorem command_of_error {line : SourceLine} {rest rest' : List SourceLine} {e : AssemblyError}
    (h : line.command rest = .error e) (same : (valuesAhead rest').1 = (valuesAhead rest).1) :
    line.command rest' = .error e := by
  rw [command_eq_error_iff] at h ⊢
  rw [same]
  exact h

end SourceLine

/-! ## Moving lines down -/

def SourceLine.movedDown (k : Nat) (line : SourceLine) : SourceLine :=
  ⟨line.number + k, line.text⟩

def AssemblyError.movedDown (k : Nat) (e : AssemblyError) : AssemblyError :=
  ⟨e.line + k, e.cause⟩

theorem numbered_add (n k : Nat) (ls : List Text) :
    numbered (n + k) ls = (numbered n ls).map (SourceLine.movedDown k) := by
  induction ls generalizing n with
  | nil => rfl
  | cons l ls ih =>
      have next : n + k + 1 = n + 1 + k := by omega
      cases white : l.all Text.isWhite with
      | true => rw [numbered_cons_white white, numbered_cons_white white, next, ih]
      | false =>
          rw [numbered_cons_filled white, numbered_cons_filled white, next, ih]
          rfl

theorem valuesAhead_movedDown (k : Nat) (ls : List SourceLine) :
    valuesAhead (ls.map (SourceLine.movedDown k))
      = ((valuesAhead ls).1, (valuesAhead ls).2.map (SourceLine.movedDown k)) := by
  obtain ⟨next, later, vs, rfl, read, ahead⟩ | ⟨none, ahead⟩ := valuesAhead_eq ls
  · have read' : Values.ofLine? (next.movedDown k).text = some vs := read
    rw [ahead, List.map_cons, valuesAhead, read']
  · rw [ahead]
    refine valuesAhead_of_none fun next' later' eq => ?_
    obtain ⟨next, later, rfl, rfl, _⟩ := List.map_eq_cons_iff.mp eq
    exact none next later rfl

theorem SourceLine.command_movedDown {line : SourceLine} {rest rest' : List SourceLine}
    {c : Command} (k : Nat) (h : line.command rest = .ok (c, rest')) :
    (line.movedDown k).command (rest.map (movedDown k)) = .ok (c, rest'.map (movedDown k)) := by
  obtain ⟨op, inside, header, kinds⟩ := of_command h
  have read := header_eq_ok_iff.mp header
  have header' : (line.movedDown k).header = .ok (op, inside) := header_eq_ok_iff.mpr read
  rw [command, header', valuesAhead_movedDown]
  obtain ⟨kind, made, rfl⟩ | ⟨w, kind, made, rfl⟩ := kinds
  · have plain := plain_eq_ok_iff.mp made
    have made' : (line.movedDown k).plain op inside = .ok c := plain_eq_ok_iff.mpr plain
    simp only [bind, Except.bind, kind, made', pure, Except.pure]
  · have push := push_eq_ok_iff.mp made
    have made' : (line.movedDown k).push op w (valuesAhead rest).1 = .ok c :=
      push_eq_ok_iff.mpr push
    simp only [bind, Except.bind, kind, made', pure, Except.pure]

theorem Comes.movedDown {ls ls' : List SourceLine} {cs : List Command} (k : Nat)
    (h : Comes ls cs ls') :
    Comes (ls.map (SourceLine.movedDown k)) cs (ls'.map (SourceLine.movedDown k)) := by
  induction h with
  | start ls => exact .start _
  | command step _ ih => exact .command (SourceLine.command_movedDown k step) ih

/-- **Lines that are moved down make the same commands, or fail further down.** -/
theorem commands_movedDown (k : Nat) (ls : List SourceLine) :
    commands (ls.map (SourceLine.movedDown k))
      = (commands ls).mapError (AssemblyError.movedDown k) := by
  cases assembled : commands ls with
  | ok cs => exact commands_eq_ok_iff_comes.mpr ((commands_eq_ok_iff_comes.mp assembled).movedDown k)
  | error e =>
      obtain ⟨cs, line, rest, comes, failed⟩ := commands_eq_error_iff.mp assembled
      obtain ⟨cause, refused, rfl⟩ := SourceLine.command_eq_error_iff.mp failed
      refine commands_eq_error_iff.mpr ⟨cs, _, _, comes.movedDown k, ?_⟩
      refine SourceLine.command_eq_error_iff.mpr ⟨cause, ?_, rfl⟩
      rw [valuesAhead_movedDown]
      exact refused

/-! ## What a message says of a line -/

namespace AssemblyError

/-- `NamesLine message n report`: the message names the line `n`, and `report` is the rest. -/
def NamesLine (message : Text) (n : Nat) (report : Text) : Prop :=
  message = "Error on line ".toList ++ Numeral.decimal n ++ ": ".toList ++ report

theorem NamesLine.unique {message report report' : Text} {n n' : Nat}
    (h : NamesLine message n report) (h' : NamesLine message n' report') :
    n = n' ∧ report = report' := by
  have digits : ∀ n : Nat, ∀ c ∈ Numeral.decimal n, c.isDigit = true :=
    fun n c hc => Nat.isDigit_of_mem_toDigits (by omega) (by omega) hc
  have colon : ": ".toList = [':', ' '] := rfl
  have same := h.symm.trans h'
  simp only [List.append_assoc, colon, List.cons_append, List.nil_append] at same
  have after := List.append_cancel_left same
  have numerals := congrArg (List.takeWhile Char.isDigit) after
  rw [Text.takeWhile_append_cons (digits n) rfl, Text.takeWhile_append_cons (digits n') rfl]
    at numerals
  obtain rfl := Option.some.inj <|
    calc some n = Numeral.decimal? (Numeral.decimal n) := (Numeral.decimal?_decimal n).symm
      _ = Numeral.decimal? (Numeral.decimal n') := by rw [numerals]
      _ = some n' := Numeral.decimal?_decimal n'
  obtain ⟨_, rest⟩ := List.cons.inj (List.append_cancel_left after)
  exact ⟨rfl, (List.cons.inj rest).2⟩

/-- A message names the line of its error, and only an invalid digit goes without. -/
theorem namesLine_message_iff {e : AssemblyError} {n : Nat} {report : Text} :
    NamesLine e.message n report ↔
      e.cause ≠ .invalidDigit ∧ n = e.line ∧ report = e.cause.text := by
  obtain ⟨line, cause⟩ := e
  by_cases digit : cause = .invalidDigit
  · subst digit
    refine iff_of_false (fun named => ?_) fun h => h.1 rfl
    have first := congrArg List.head? named
    cases first
  · have named : NamesLine (AssemblyError.message ⟨line, cause⟩) line cause.text := by
      cases cause with
      | invalidDigit => exact absurd rfl digit
      | _ => rfl
    constructor
    · intro h
      obtain ⟨rfl, rfl⟩ := h.unique named
      exact ⟨digit, rfl, rfl⟩
    · rintro ⟨_, rfl, rfl⟩
      exact named

end AssemblyError

end Hinting
