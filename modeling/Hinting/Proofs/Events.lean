/-
# `Hinting.Proofs.Events` — what a run reports, and in which order

A run reports each instruction when it is decoded, and after the last one a push that the
end of the program cuts off.  Decoding and the listing report the whole walk.  A disassembly
reports in step with its writer and goes no further than the writer does:

    decode, listing     decoded i₁ … decoded iₙ  warning
    disassemble         disassembling  decoded i₁ … decoded iₙ  warning  disassembled
    … iₖ is rejected    disassembling  decoded i₁ … decoded iₖ

So a warning is reported only where nothing was rejected (`Writer.events_writeAll`, by
induction on the instructions).  The last event counts the lines of the finished text.
They are counted twice, as the lines that the instructions have (`length_of_renders`) and as
the line feeds that join them (`Text.length_lines_intercalate`).
-/
import Mathlib
import Hinting.Listing
import Hinting.Proofs.Format
import Hinting.Proofs.PushModes

namespace Hinting

/-! ## Reports -/

namespace Entry

def decoded (i : Instruction) : Entry where
  level := .trace
  target := "ttdisasm::bytecode::binary".toList
  message := "decoded".toList
  fields := [("offset".toList, .number i.offset), ("opcode".toList, .number i.opcode.toNat),
    ("mnemonic".toList, .text i.operation.mnemonic), ("indent".toList, .number i.indent)]

/-- The warning about a push at an offset, in a program of some length. -/
def missingOperands (op : Operation) (offset length : Nat) : Entry where
  level := .warning
  target := "ttdisasm::bytecode::binary".toList
  message := op.mnemonic ++ " at offset ".toList ++ ("0x".toList ++ Numeral.hex 4 offset)
    ++ " is missing operands; the stream ends at ".toList ++ ("0x".toList ++ Numeral.hex 4 length)
  fields := []

def disassembling (length : Nat) (d : Dialect) : Entry where
  level := .debug
  target := "ttdisasm::bytecode::assembly".toList
  message := "disassembling".toList
  fields := [("bytes".toList, .number length), ("dialect".toList, .text d.name)]

def disassembled (lines : Nat) : Entry where
  level := .debug
  target := "ttdisasm::bytecode::assembly".toList
  message := "disassembled".toList
  fields := [("lines".toList, .number lines)]

end Entry

/-! ## Programs that end in a push cut off -/

namespace Format

/-- `EndsCutOff p op offset`: what is left of the program `p` after its instructions is the
push `op` with too few operand bytes, and it starts at the offset. -/
def EndsCutOff (p : Bytes) (op : Operation) (offset : Nat) : Prop :=
  ∃ es r, Divides p es r ∧ CutsOff op r ∧ offset = es.flatten.length

theorem ending_eq_cutOff_iff {p : Bytes} {push : CutOff} :
    (decoding p).ending = .cutOff push ↔
      EndsCutOff p push.operation push.offset ∧ push.programEnd = p.length := by
  obtain ⟨cs, r, split⟩ := Stream.exists_split p
  have whole : p.length = (Stream.bytes cs).length + r.length := by
    rw [split.eq, List.length_append]
  rw [split.decoding_eq]
  constructor
  · intro ending
    obtain ⟨cut, offset, programEnd⟩ := cutsOff_of_tailEnding ending
    refine ⟨⟨_, r, divides_iff.mpr ⟨cs, rfl, split⟩, cut, ?_⟩, programEnd.trans whole.symm⟩
    rw [offset, Stream.flatten_map_encode]
  · rintro ⟨⟨es, r', divides, cut, offset⟩, programEnd⟩
    obtain ⟨cs', rfl, split'⟩ := divides_iff.mp divides
    obtain ⟨rfl, rfl⟩ := split.unique split'
    rw [Stream.tailEnding, cut.fetch, ← whole, ← programEnd, ← Stream.flatten_map_encode,
      ← offset]

end Format

/-- `Warned p warning`: of the end of the program `p` a push cut off is reported, and nothing
if there is none. -/
structure Warned (p : Bytes) (warning : List Entry) : Prop where
  cutOff : ∀ op offset, Format.EndsCutOff p op offset →
    warning = [.missingOperands op offset p.length]
  whole : (∀ op offset, ¬Format.EndsCutOff p op offset) → warning = []

theorem warned_decoding (p : Bytes) : Warned p ((decoding p).ending.events.map Event.entry) where
  cutOff := by
    intro op offset cut
    have ending : (decoding p).ending = .cutOff ⟨op, offset, p.length⟩ :=
      Format.ending_eq_cutOff_iff.mpr ⟨cut, rfl⟩
    rw [ending]
    rfl
  whole := by
    intro none
    cases ending : (decoding p).ending with
    | complete => rfl
    | unassigned b offset => rfl
    | cutOff push => exact absurd (Format.ending_eq_cutOff_iff.mp ending).1 (none _ _)

/-! ## The events of a writer -/

namespace Writer

/-- Whether the writer cannot write an instruction. -/
def rejects (w : Writer) (i : Instruction) : Bool :=
  match w.write i with
  | .ok _ => false
  | .error _ => true

/-- The instructions up to and including the first that the writer rejects. -/
def reached (w : Writer) (is : List Instruction) : List Instruction :=
  is.takeWhile (fun i => !w.rejects i) ++ (is.find? w.rejects).toList

theorem rejects_eq_of_write {w w' : Writer} {i : Instruction} (h : w.write i = .ok w') :
    w'.rejects = w.rejects := by
  obtain ⟨ls, _, rfl⟩ := eq_of_write h
  funext j
  simp only [rejects, write_eq]
  cases w.options.dialect.linesOf j <;> rfl

/-- The events of a run: the instructions reached, and what the ending adds if these are all
and none is rejected. -/
theorem events_writeAll (ending : Ending) : ∀ (is : List Instruction) (w : Writer),
    (w.writeAll ending is).events =
      (w.reached is).map .decoded ++ if is.any w.rejects then [] else ending.events := by
  intro is
  induction is with
  | nil =>
      intro w
      rw [writeAll_nil]
      split <;> rfl
  | cons i is ih =>
      intro w
      cases written : w.write i with
      | error fault =>
          have rejected : w.rejects i = true := by rw [rejects, written]
          rw [writeAll_of_error written]
          simp [reached, rejected]
      | ok w' =>
          have taken : w.rejects i = false := by rw [rejects, written]
          have later := ih w'
          rw [reached, rejects_eq_of_write written] at later
          rw [writeAll_of_ok written]
          simp [reached, taken, Logged.after, later]

theorem reached_ttx {w : Writer} (generic : w.options.dialect = .ttx) (is : List Instruction) :
    w.reached is = is ∧ is.any w.rejects = false := by
  have none : ∀ i, w.rejects i = false := by
    intro i
    rw [rejects, write_eq, generic]
    rfl
  constructor
  · have found : is.find? w.rejects = Option.none := List.find?_eq_none.mpr (by simp [none])
    have taken : is.takeWhile (fun i => !w.rejects i) = is :=
      List.takeWhile_eq_self_iff.mpr (by simp [none])
    rw [reached, found, taken]
    exact List.append_nil is
  · simp [none]

end Writer

/-! ## Counting lines -/

namespace Text

theorem length_lines_concat {c : Char} (last : c ≠ '\n') : ∀ t : Text,
    (lines (t ++ [c])).length = t.count '\n' + 1 := by
  intro t
  induction hn : t.length using Nat.strongRecOn generalizing t with
  | ind n ih =>
      by_cases feed : '\n' ∈ t
      · obtain ⟨line, rest, rfl, first⟩ := List.eq_append_cons_of_mem feed
        have shorter : rest.length < n := by
          rw [← hn, List.length_append, List.length_cons]
          omega
        rw [List.append_assoc, List.cons_append, lines_feed first, List.length_cons,
          ih _ shorter rest rfl, List.count_append, List.count_cons_self,
          List.count_eq_zero.mpr first]
        omega
      · have none : '\n' ∉ t ++ [c] := by simp [feed, Ne.symm last]
        rw [lines_feedless none, List.count_eq_zero.mpr feed]
        simp

theorem count_intercalate {E : Text} : ∀ {ls : List Text}, (∀ l ∈ ls, '\n' ∉ l) →
    (E.intercalate ls).count '\n' = (ls.length - 1) * E.count '\n' := by
  intro ls
  induction ls with
  | nil => intro _; simp
  | cons l ls ih =>
      intro feedless
      obtain ⟨first, rest⟩ := List.forall_mem_cons.mp feedless
      cases ls with
      | nil => simp [List.count_eq_zero.mpr first]
      | cons l' ls =>
          rw [List.intercalate_cons_cons, List.count_append, List.count_append, ih rest,
            List.count_eq_zero.mpr first]
          simp only [List.length_cons, Nat.add_sub_cancel, Nat.zero_add]
          rw [Nat.add_mul, Nat.one_mul, Nat.add_comm]

theorem exists_concat_eq_intercalate {E : Text} {ls : List Text} (solid : ∀ l ∈ ls, Solid l)
    (some_line : ls ≠ []) : ∃ t c, E.intercalate ls = t ++ [c] ∧ c ≠ '\n' := by
  obtain ⟨front, last, rfl⟩ := (List.eq_nil_or_concat ls).resolve_left some_line
  rw [List.concat_eq_append] at solid ⊢
  obtain ⟨feedless, t, c, rfl, _⟩ := solid last (by simp)
  have mark : c ≠ '\n' := by
    rintro rfl
    exact feedless (by simp)
  by_cases alone : front = []
  · rw [alone, List.nil_append, List.intercalate_singleton]
    exact ⟨t, c, rfl, mark⟩
  · rw [intercalate_append alone (List.cons_ne_nil _ _), List.intercalate_singleton,
      ← List.append_assoc]
    exact ⟨_, c, rfl, mark⟩

theorem length_lines_intercalate {E : Text} {ls : List Text} (solid : ∀ l ∈ ls, Solid l)
    (some_line : ls ≠ []) :
    (lines (E.intercalate ls)).length = 1 + (ls.length - 1) * E.count '\n' := by
  obtain ⟨t, c, whole, mark⟩ := exists_concat_eq_intercalate (E := E) solid some_line
  rw [← count_intercalate fun l hl => (solid l hl).1, whole, length_lines_concat mark,
    List.count_append, List.count_singleton, if_neg (by simpa using mark)]
  omega

end Text

/-- The number of lines in which a dialect writes instructions that are some: in the generic
dialect one for each and one more for each push with values, in VTT one for each, two guards
more for each jump, and two for all. -/
def Dialect.lineCount : Dialect → List Instruction → Nat
  | .ttx, is => is.length + is.countP fun i => i.isPush && !i.arguments.isEmpty
  | .vtt, is => is.length + 2 * PushMode.jumps is + 2

/-- The number of lines of the text, as its line feeds tell. -/
def Options.lineCount (options : Options) (is : List Instruction) : Nat :=
  if is = [] then 0
  else 1 + (options.dialect.lineCount is - 1) * options.lineEnding.count '\n'

namespace Dialect

theorem length_of_renders_ttx {is : List Instruction} {lss : List (List Text)}
    (h : Renders .ttx is lss) : lss.flatten.length = lineCount .ttx is := by
  induction h with
  | nil => rfl
  | @cons i ls is lss first _ ih =>
      obtain rfl := Except.ok.inj first
      rw [List.flatten_cons, List.length_append, ih, Instruction.ttxLines_eq, lineCount, lineCount,
        List.countP_cons, List.length_cons]
      cases i.isPush with
      | false => simp; omega
      | true => cases i.arguments <;> simp <;> omega

theorem length_of_renders_vtt {is : List Instruction} {lss : List (List Text)}
    (h : Renders .vtt is lss) : lss.flatten.length + 2 = lineCount .vtt is := by
  have blocks := PushMode.blocks_of_renders h
  clear h
  induction blocks with
  | nil => rfl
  | @cons i ls is lss block _ ih =>
      have own : ls.length = 1 + 2 * PushMode.jumps [i] := by
        rw [PushMode.jumps_singleton]
        cases block with
        | straight kind straight => simp [← kind, straight]
        | jump kind jump => simp [← kind, jump]
      rw [lineCount] at ih ⊢
      rw [List.flatten_cons, List.length_append, PushMode.jumps_cons, List.length_cons]
      omega

end Dialect

/-! ## Runs -/

theorem Writer.length_lines_finish {options : Options} {is : List Instruction} {w : Writer}
    (written : (start options).writeMany is = .ok w) :
    (Text.lines w.finish).length = options.lineCount is := by
  have kept : w.options = options := options_of_writeMany written
  obtain ⟨lss, rendered, solid, text⟩ := exists_renders_of_writeMany written
  rw [finish_eq, kept, Options.lineCount]
  by_cases none : is = []
  · subst none
    cases rendered
    rw [text, if_pos rfl, Options.frame_eq, if_pos (.inr rfl)]
    rfl
  · have some_line : lss.flatten ≠ [] := fun nothing => none (rendered.eq_nil nothing)
    have filled : w.text ≠ [] := by
      rw [text]
      exact fun nothing => some_line (Text.eq_nil_of_intercalate solid nothing)
    rw [if_neg none]
    cases generic : options.dialect with
    | ttx =>
        rw [generic] at rendered
        rw [Options.frame_eq, if_pos (.inl generic), text,
          Text.length_lines_intercalate solid some_line, Dialect.length_of_renders_ttx rendered]
    | vtt =>
        rw [generic] at rendered
        have framed : ∀ l ∈ Instruction.pushOff :: (lss.flatten ++ [Instruction.pushOn]),
            Text.Solid l := by
          simpa [Instruction.solid_pushOff, Instruction.solid_pushOn, or_imp, forall_and]
            using solid
        rw [Options.frame_eq, if_neg (by simp [generic, filled]), text,
          framed_intercalate _ some_line,
          Text.length_lines_intercalate framed (List.cons_ne_nil _ _),
          ← Dialect.length_of_renders_vtt rendered]
        simp

theorem exists_of_writeProgram {options : Options} {p : Bytes} {w : Writer}
    (h : (writeProgram options p).value = .ok w) :
    (Writer.start options).writeMany (decoding p).instructions = .ok w := by
  rw [writeProgram_eq, Writer.value_writeAll] at h
  obtain ⟨w', written, concluded⟩ := Except.bind_eq_ok_iff.mp h
  rw [Writer.eq_of_conclude concluded]
  exact written

theorem events_disassembleLogged (options : Options) (p : Bytes) :
    (disassembleLogged options p).events =
      .disassembling p.length options.dialect ::
        ((Writer.start options).reached (decoding p).instructions).map .decoded
      ++ (if (decoding p).instructions.any (Writer.start options).rejects then []
        else (decoding p).ending.events)
      ++ (match disassemble options p with
        | .ok _ => [.disassembled (options.lineCount (decoding p).instructions)]
        | .error _ => []) := by
  have events := Writer.events_writeAll (decoding p).ending (decoding p).instructions
    (.start options)
  rw [disassemble, disassembleLogged]
  simp only [Logged.after, Logged.map, Logged.snoc]
  cases value : (writeProgram options p).value with
  | error fault =>
      simp [writeProgram_eq, events]
  | ok w =>
      have count := Writer.length_lines_finish (exists_of_writeProgram value)
      simp [writeProgram_eq, events, count]

/-- **Every run reports what it does.**  Decoding and the listing report each instruction of the
walk and then the push that is cut off, if there is one, be the program at fault or not.  A
disassembly reports what it is about to do; the instructions that its writer comes to, the first
that it rejects being the last of them; the push that is cut off, unless there was such a
rejection; and in case of success the number of lines written. -/
theorem runs_report (p : Bytes) : ∃ warning, Warned p warning ∧
    (decodeLogged p).events.map Event.entry
      = (decoding p).instructions.map Entry.decoded ++ warning ∧
    (listingLogged p).events.map Event.entry
      = (decoding p).instructions.map Entry.decoded ++ warning ∧
    ∀ options : Options, (disassembleLogged options p).events.map Event.entry
      = Entry.disassembling p.length options.dialect ::
          ((Writer.start options).reached (decoding p).instructions).map Entry.decoded
        ++ (if (decoding p).instructions.any (Writer.start options).rejects then [] else warning)
        ++ (match disassemble options p with
          | .ok _ => [Entry.disassembled (options.lineCount (decoding p).instructions)]
          | .error _ => []) := by
  refine ⟨_, warned_decoding p, ?_, ?_, ?_⟩
  · rw [decodeLogged_eq, List.map_append, List.map_map]
    rfl
  · have generic : (Writer.start {}).options.dialect = .ttx := rfl
    obtain ⟨all, none⟩ := Writer.reached_ttx generic (decoding p).instructions
    rw [listingLogged_eq, Logged.map, writeProgram_eq, Writer.events_writeAll, all, none,
      List.map_append, List.map_map]
    rfl
  · intro options
    have ending : ∀ b : Bool, (if b then [] else (decoding p).ending.events).map Event.entry
        = if b then [] else (decoding p).ending.events.map Event.entry := by
      intro b
      cases b <;> rfl
    have completion : ∀ result : Except Fault Text, ∀ lines : Nat,
        (match result with
          | .ok _ => [Event.disassembled lines]
          | .error _ => []).map Event.entry
        = match result with
          | .ok _ => [Entry.disassembled lines]
          | .error _ => [] := by
      intro result lines
      cases result <;> rfl
    rw [events_disassembleLogged, List.map_append, List.map_append, ending, completion,
      List.map_cons, List.map_map]
    rfl

/-- A relative move with a color that does not exist, and behind it a push cut off. -/
example : (disassembleLogged ⟨.vtt, ['\n']⟩ [0xe3, 0xb1, 0x07]).events
    = [.disassembling 3 .vtt, .decoded ((Command.plain .MIRP 3).placed 0 0)] ∧
    (disassembleLogged ⟨.ttx, ['\n']⟩ [0xe3, 0xb1, 0x07]).events
      = [.disassembling 3 .ttx, .decoded ((Command.plain .MIRP 3).placed 0 0),
        .missingOperands ⟨.PUSHB, 1, 3⟩, .disassembled 1] := by
  constructor
  · cbv
  · cbv

end Hinting
