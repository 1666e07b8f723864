/-
# `Hinting.Proofs.PushModes` — a text in VTT switches the pushes off and on

Two guards stand in a text in VTT, `#PUSHOFF` and `#PUSHON`, and each line is read in the
mode that the latest of them has set.  A text is **bracketed** (`PushMode.Bracketed`) if the
guards alternate, every line stands in the mode that its kind calls for, and a jump has its
two guards to itself:

    #PUSHOFF                      front: the mode is off
      #PUSH, 1, 2                 off
      ADD[]  /* Add */            off
    #PUSHON
      JMPR, *                     on
    #PUSHOFF
      ⋮                           off
    #PUSHON

The guards of a jump are written with it and those around the text at the very end, so
what is carried along is the mode that the lines so far have left.  By induction on the
instructions, each of them finds it off and leaves it off (`allStand_flatten`).
-/
import Mathlib
import Hinting.Proofs.Attempts
import Hinting.Proofs.FaultPrefix
import Hinting.Proofs.VttText

namespace Hinting

namespace PushMode

open Instruction (pushOff pushOn)

/-! ## Lines and modes -/

def isGuard (line : Text) : Bool := decide (line = pushOff ∨ line = pushOn)

def guards (ls : List Text) : List Text := ls.filter isGuard

/-- The mode that some lines leave, told by the latest guard. -/
def latest (ls : List Text) : Option Text := (guards ls).getLast?

inductive LineKind where
  | guard | push | jump | other
  deriving DecidableEq

/-- The kind of a line.  A guard is not indented; of other lines the indentation is ignored. -/
def kindOf (line : Text) : LineKind :=
  if isGuard line then .guard
  else if Text.dropBlanks line = "#PUSH".toList ∨ "#PUSH, ".toList <+: Text.dropBlanks line then
    .push
  else if Text.dropBlanks line = "JMPR, *".toList ∨ Text.dropBlanks line = "JROF, *, *".toList then
    .jump
  else .other

/-- `Stands front line back`: between the lines `front` and the lines `back`, `line` stands in
the mode that its kind calls for.  A jump moreover stands alone between its guards. -/
def Stands (front : List Text) (line : Text) (back : List Text) : Prop :=
  match kindOf line with
  | .guard => True
  | .push | .other => latest front = some pushOff
  | .jump => latest front = some pushOn ∧ front.getLast? = some pushOn ∧ back.head? = some pushOff

/-- The kind of the line that an instruction has beside guards. -/
def kindOfInstruction (i : Instruction) : LineKind :=
  if i.isPush then .push
  else if i.operation = .JMPR ∨ i.operation = .JROF then .jump
  else .other

/-- How many of some instructions are jumps with guards. -/
def jumps (is : List Instruction) : Nat :=
  is.countP fun i => decide (i.operation = .JMPR ∨ i.operation = .JROF)

/-- The lines of a text in VTT for some instructions, as far as modes go. -/
structure Bracketed (ls : List Text) (is : List Instruction) : Prop where
  first : ls.head? = some pushOff
  last : ls.getLast? = some pushOn
  /-- The guards alternate, one pair for the whole text and one for each jump. -/
  guards : guards ls = (List.replicate (jumps is + 1) [pushOff, pushOn]).flatten
  /-- The other lines are the lines of the instructions, one for each. -/
  kinds : (ls.filter (!isGuard ·)).map kindOf = is.map kindOfInstruction
  stands : ∀ front line back, ls = front ++ line :: back → Stands front line back

/-! ## The kinds of written lines -/

theorem isGuard_eq_false {line : Text} (off : Text.dropBlanks line ≠ pushOff)
    (on : Text.dropBlanks line ≠ pushOn) : isGuard line = false := by
  rw [isGuard, decide_eq_false_iff_not]
  rintro (rfl | rfl)
  · exact off rfl
  · exact on rfl

theorem pushDirective_ne_pushOff (i : Instruction) : i.pushDirective ≠ pushOff := by
  have spelled : pushOff = ['#', 'P', 'U', 'S', 'H', 'O', 'F', 'F'] := rfl
  rw [Instruction.pushDirective_eq, spelled]
  split <;> simp

theorem kindOf_push (i : Instruction) : kindOf (i.indented i.pushDirective) = .push := by
  have bare := i.dropBlanks_push
  have noGuard := isGuard_eq_false (bare.trans_ne (pushDirective_ne_pushOff i))
    (bare.trans_ne i.pushDirective_ne_pushOn)
  have directive : i.pushDirective = "#PUSH".toList ∨ "#PUSH, ".toList <+: i.pushDirective := by
    rw [Instruction.pushDirective]
    split
    · exact .inl rfl
    · exact .inr (List.prefix_append _ _)
  rw [kindOf, noGuard, bare, if_neg Bool.false_ne_true, if_pos directive]

theorem jumpDirective_eq {i : Instruction} (h : i.operation = .JMPR ∨ i.operation = .JROF) :
    i.jumpDirective = "JMPR, *".toList ∨ i.jumpDirective = "JROF, *, *".toList := by
  rw [Instruction.jumpDirective, Instruction.mnemonic]
  rcases h with op | op
  · rw [op]
    exact .inl rfl
  · rw [op]
    exact .inr rfl

theorem kindOf_jump {i : Instruction} (h : i.operation = .JMPR ∨ i.operation = .JROF) :
    kindOf (i.indented i.jumpDirective) = .jump := by
  have bare : Text.dropBlanks (i.indented i.jumpDirective) = i.jumpDirective := by
    obtain ⟨t, named⟩ := i.exists_jumpDirective_eq
    rw [named, i.dropBlanks_named]
  rw [kindOf, bare]
  rcases jumpDirective_eq h with spelled | spelled
  all_goals
    have noGuard : isGuard (i.indented i.jumpDirective) = false :=
      isGuard_eq_false (by rw [bare, spelled]; decide) (by rw [bare, spelled]; decide)
    rw [noGuard, spelled]
    rfl

/-- A described instruction starts with a letter and has a bracket, so it is no directive. -/
theorem kindOf_described (i : Instruction) (letters : Text) :
    kindOf (i.indented (i.described letters)) = .other := by
  have bare := i.dropBlanks_described letters
  have noGuard := isGuard_eq_false (bare.trans_ne (i.described_ne letters rfl))
    (bare.trans_ne (i.described_ne letters rfl))
  have noPush : ¬(i.described letters = "#PUSH".toList ∨
      "#PUSH, ".toList <+: i.described letters) := by
    rintro (directive | ⟨t, directive⟩)
    · exact i.described_ne letters rfl directive
    · exact i.described_ne letters rfl directive.symm
  have bracket : '[' ∈ i.described letters := by simp [Instruction.described_eq]
  have noJump : ¬(i.described letters = "JMPR, *".toList ∨
      i.described letters = "JROF, *, *".toList) := by
    rintro (directive | directive)
    · exact absurd (directive ▸ bracket) (by decide)
    · exact absurd (directive ▸ bracket) (by decide)
  rw [kindOf, noGuard, bare, if_neg Bool.false_ne_true, if_neg noPush, if_neg noJump]

theorem isGuard_iff_kindOf (line : Text) : isGuard line = true ↔ kindOf line = .guard := by
  rw [kindOf]
  split
  · simp_all
  · split
    · simp_all
    · split <;> simp_all

theorem isGuard_pushOff : isGuard pushOff = true := by decide

theorem isGuard_pushOn : isGuard pushOn = true := by decide

/-! ## One instruction -/

theorem kindOfInstruction_eq_jump_iff {i : Instruction} :
    kindOfInstruction i = .jump ↔ i.operation = .JMPR ∨ i.operation = .JROF := by
  rw [kindOfInstruction]
  split
  · rename_i isPush
    rw [Instruction.isPush] at isPush
    refine iff_of_false (by decide) ?_
    rintro (op | op) <;> rw [op] at isPush <;> cases isPush
  · split
    · rename_i jump
      exact iff_of_true rfl jump
    · rename_i straight
      exact iff_of_false (by decide) straight

theorem isGuard_of_kindOf {i : Instruction} {l : Text} (h : kindOf l = kindOfInstruction i) :
    isGuard l = false := by
  rw [Bool.eq_false_iff, ne_eq, isGuard_iff_kindOf, h, kindOfInstruction]
  split
  · decide
  · split <;> decide

/-- The lines of one instruction: a line of its kind, and around that of a jump two guards. -/
inductive Block (i : Instruction) : List Text → Prop
  | straight {l : Text} : kindOf l = kindOfInstruction i → kindOf l ≠ .jump → Block i [l]
  | jump {l : Text} : kindOf l = kindOfInstruction i → kindOf l = .jump →
      Block i [pushOn, l, pushOff]

theorem block_of_vttForm {i : Instruction} {ls : List Text} (h : i.VttForm ls) : Block i ls := by
  cases h with
  | push isPush =>
      have kind := kindOf_push i
      exact .straight (by rw [kind, kindOfInstruction, if_pos isPush]) (by rw [kind]; decide)
  | jump _ isJump =>
      have jump := Operation.isVttJump_iff.mp isJump
      have kind := kindOf_jump jump
      exact .jump (by rw [kind, kindOfInstruction_eq_jump_iff.mpr jump]) kind
  | @plain letters notPush notJump _ =>
      have straight : ¬(i.operation = .JMPR ∨ i.operation = .JROF) := by
        rw [← Operation.isVttJump_iff, notJump]
        exact Bool.false_ne_true
      have kind := kindOf_described i letters
      refine .straight ?_ (by rw [kind]; decide)
      rw [kind, kindOfInstruction, notPush, if_neg Bool.false_ne_true, if_neg straight]

theorem blocks_of_renders {is : List Instruction} {lss : List (List Text)}
    (h : Dialect.vtt.Renders is lss) : List.Forall₂ Block is lss :=
  h.imp fun _ _ written => block_of_vttForm (Instruction.vttLines_eq_ok_iff.mp written)

theorem jumps_singleton (i : Instruction) :
    jumps [i] = if kindOfInstruction i = .jump then 1 else 0 := by
  rw [jumps, List.countP_singleton]
  simp only [kindOfInstruction_eq_jump_iff, decide_eq_true_eq]

theorem jumps_cons (i : Instruction) (is : List Instruction) :
    jumps (i :: is) = jumps [i] + jumps is := by
  have split : jumps ([i] ++ is) = jumps [i] + jumps is := List.countP_append
  exact split

theorem Block.guards_eq {i : Instruction} {ls : List Text} (block : Block i ls) :
    guards ls = (List.replicate (jumps [i]) [pushOn, pushOff]).flatten := by
  rw [jumps_singleton]
  cases block with
  | straight kind straight => simp [guards, isGuard_of_kindOf kind, ← kind, straight]
  | jump kind jump =>
      simp [guards, isGuard_of_kindOf kind, isGuard_pushOn, isGuard_pushOff, ← kind, jump]

theorem Block.kinds_eq {i : Instruction} {ls : List Text} (block : Block i ls) :
    (ls.filter (!isGuard ·)).map kindOf = [kindOfInstruction i] := by
  cases block with
  | straight kind _ => simp [isGuard_of_kindOf kind, kind]
  | jump kind _ => simp [isGuard_of_kindOf kind, isGuard_pushOn, isGuard_pushOff, kind]

/-! ## All instructions -/

/-- After the lines `before`, every one of others stands as its kind calls for. -/
def AllStand (before ls : List Text) : Prop :=
  ∀ front line back, ls = front ++ line :: back → Stands (before ++ front) line back

theorem allStand_nil (before : List Text) : AllStand before [] := by
  intro front line back h
  cases front <;> cases h

theorem AllStand.cons {before ls : List Text} {l : Text} (first : Stands before l ls)
    (rest : AllStand (before ++ [l]) ls) : AllStand before (l :: ls) := by
  intro front line back h
  cases front with
  | nil =>
      obtain ⟨rfl, rfl⟩ := List.cons.inj h
      rw [List.append_nil]
      exact first
  | cons l' front =>
      obtain ⟨rfl, later⟩ := List.cons.inj h
      rw [List.append_cons]
      exact rest front line back later

theorem AllStand.guard {before ls : List Text} {l : Text} (guard : isGuard l = true)
    (rest : AllStand (before ++ [l]) ls) : AllStand before (l :: ls) := by
  refine .cons ?_ rest
  rw [Stands, (isGuard_iff_kindOf l).mp guard]
  trivial

theorem latest_concat_guard {l : Text} (guard : isGuard l = true) (ls : List Text) :
    latest (ls ++ [l]) = some l := by
  simp [latest, guards, guard]

theorem latest_concat_other {l : Text} (noGuard : isGuard l = false) (ls : List Text) :
    latest (ls ++ [l]) = latest ls := by
  simp [latest, guards, noGuard]

theorem Block.allStand {i : Instruction} {ls : List Text} (block : Block i ls)
    {before rest : List Text} (off : latest before = some pushOff)
    (later : ∀ before, latest before = some pushOff → AllStand before rest) :
    AllStand before (ls ++ rest) := by
  cases block with
  | @straight l kind straight =>
      have noGuard := isGuard_of_kindOf kind
      refine .cons ?_ (later _ ((latest_concat_other noGuard before).trans off))
      rw [Stands]
      split
      · trivial
      · exact off
      · exact off
      · contradiction
  | jump kind jump =>
      refine .guard isGuard_pushOn (.cons ?_ (.guard isGuard_pushOff (later _ ?_)))
      · rw [Stands, jump]
        exact ⟨latest_concat_guard isGuard_pushOn before, List.getLast?_concat, rfl⟩
      · exact latest_concat_guard isGuard_pushOff _

section
variable {is : List Instruction} {lss : List (List Text)}

/-- The lines of instructions stand in the modes that are left by those before them, if the
first finds the mode off.  By induction on the instructions, each of which leaves it off. -/
theorem allStand_flatten (h : List.Forall₂ Block is lss) {rest : List Text}
    (later : ∀ before, latest before = some pushOff → AllStand before rest) :
    ∀ before, latest before = some pushOff → AllStand before (lss.flatten ++ rest) := by
  induction h with
  | nil => exact later
  | cons block _ ih =>
      intro before off
      rw [List.flatten_cons, List.append_assoc]
      exact block.allStand off ih

theorem guards_flatten (h : List.Forall₂ Block is lss) :
    guards lss.flatten = (List.replicate (jumps is) [pushOn, pushOff]).flatten := by
  induction h with
  | nil => rfl
  | @cons i ls is lss block _ ih =>
      rw [List.flatten_cons, guards, List.filter_append, ← guards, ← guards, block.guards_eq, ih,
        jumps_cons i is, List.replicate_add, List.flatten_append]

theorem kinds_flatten (h : List.Forall₂ Block is lss) :
    (lss.flatten.filter (!isGuard ·)).map kindOf = is.map kindOfInstruction := by
  induction h with
  | nil => rfl
  | cons block _ ih =>
      rw [List.flatten_cons, List.filter_append, List.map_append, block.kinds_eq, ih]
      rfl

/-- A row of pairs, seen from the middle of one to the middle of the next. -/
theorem cons_flatten_replicate {α : Type} (a b : α) (n : Nat) :
    a :: ((List.replicate n [b, a]).flatten ++ [b]) = (List.replicate (n + 1) [a, b]).flatten := by
  induction n with
  | zero => rfl
  | succ n ih =>
      rw [List.replicate_succ, List.replicate_succ, List.flatten_cons, List.flatten_cons, ← ih]
      rfl

theorem bracketed_of_forall (h : List.Forall₂ Block is lss) :
    Bracketed (pushOff :: (lss.flatten ++ [pushOn])) is where
  first := rfl
  last := List.getLast?_concat (l := pushOff :: lss.flatten)
  guards := by
    rw [guards, List.filter_cons_of_pos isGuard_pushOff, List.filter_append, ← guards,
      guards_flatten h, ← cons_flatten_replicate]
    rfl
  kinds := by
    rw [List.filter_cons_of_neg (by simp [isGuard_pushOff]), List.filter_append,
      List.filter_cons_of_neg (by simp [isGuard_pushOn]), List.filter_nil, List.append_nil,
      kinds_flatten h]
  stands := by
    have last : ∀ before, latest before = some pushOff → AllStand before [pushOn] :=
      fun before _ => .guard isGuard_pushOn (allStand_nil _)
    have whole : AllStand [] (pushOff :: (lss.flatten ++ [pushOn])) :=
      .guard isGuard_pushOff (allStand_flatten h last _ rfl)
    exact whole

/-! ## Texts -/

theorem bracketed_of_writeMany {w : Writer}
    (written : (Writer.start ⟨.vtt, ['\n']⟩).writeMany is = .ok w) (some_text : w.text ≠ []) :
    Bracketed ((Writer.framed ['\n'] w.text).splitOn '\n') is := by
  obtain ⟨lss, rendered, solid, text⟩ := Writer.exists_renders_of_writeMany written
  have some_line : lss.flatten ≠ [] := by
    intro none
    rw [text, none] at some_text
    exact some_text rfl
  have feedless : ∀ l ∈ pushOff :: (lss.flatten ++ [pushOn]), '\n' ∉ l := by
    intro l hl
    rcases List.mem_cons.mp hl with rfl | hl
    · decide
    · rcases List.mem_append.mp hl with inside | last
      · exact (solid l inside).1
      · rw [List.mem_singleton.mp last]
        decide
  rw [text, Writer.framed_intercalate _ some_line,
    List.splitOn_intercalate '\n' feedless (List.cons_ne_nil _ _)]
  exact bracketed_of_forall (blocks_of_renders rendered)

end

end PushMode

open PushMode in
/-- **VTT brackets its modes.**  The lines of a text that is not empty are bracketed for the
instructions of the program: `#PUSHOFF` and `#PUSHON` alternate from the first line to the
last, one pair for the text and one for each jump, the jumps stand alone where the mode is
on, and all else stands where it is off.  The same holds of what was written before a fault,
put between guards, for the instructions before the fault. -/
theorem vttAssembly_bracketed (p : Bytes) :
    (∀ t, vttAssembly p = .ok t → t ≠ [] →
      ∃ is, decode p = .ok is ∧ Bracketed (t.splitOn '\n') is) ∧
    (∀ fault, vttAssembly p = .error fault → fault.partialOutput ≠ [] →
      Bracketed ((Writer.framed ['\n'] fault.partialOutput).splitOn '\n')
        ((decoding p).instructions.filter fun i => decide (i.offset < fault.offset))) := by
  constructor
  · intro t ok some_text
    obtain ⟨cs, r, split⟩ := Stream.exists_split p
    obtain ⟨w, written, faultless, rfl⟩ := split.disassemble_eq_ok_iff.mp ok
    have kept : w.options = ⟨.vtt, ['\n']⟩ := Writer.options_of_writeMany written
    rw [Writer.finish_eq, kept, Options.frame_eq] at some_text ⊢
    have filled : w.text ≠ [] := by
      intro none
      rw [none] at some_text
      exact some_text rfl
    refine ⟨_, split.decode_eq faultless, ?_⟩
    rw [if_neg (by simp [filled])]
    exact bracketed_of_writeMany written filled
  · intro fault failed filled
    obtain ⟨cs, w, b, s, rfl, failing⟩ := exists_failsAfter failed
    rw [failing.instructions_before, failing.partialOutput]
    rw [failing.partialOutput] at filled
    exact bracketed_of_writeMany failing.written filled

/-- `PUSHB` and `JMPR`, and the same before a relative move with a color that does not exist. -/
theorem bracketed_push_and_jump :
    let body := ["#PUSH, 7".toList, "#PUSHON".toList, "JMPR, *".toList, "#PUSHOFF".toList]
    let text := ['\n'].intercalate ("#PUSHOFF".toList :: (body ++ ["#PUSHON".toList]))
    vttAssembly [0xb0, 0x07, 0x1c] = .ok text ∧
      (∃ is, decode [0xb0, 0x07, 0x1c] = .ok is ∧ PushMode.Bracketed (text.splitOn '\n') is) ∧
      ∃ fault, vttAssembly [0xb0, 0x07, 0x1c, 0xe3] = .error fault ∧
        fault.partialOutput = ['\n'].intercalate body ∧
        PushMode.Bracketed ((Writer.framed ['\n'] fault.partialOutput).splitOn '\n')
          ((decoding [0xb0, 0x07, 0x1c, 0xe3]).instructions.filter
            fun i => decide (i.offset < fault.offset)) := by
  intro body text
  have ok : vttAssembly [0xb0, 0x07, 0x1c] = .ok text := by cbv
  have failed : vttAssembly [0xb0, 0x07, 0x1c, 0xe3]
      = .error ⟨.illegalBits .MIRP ⟨3, 5⟩, 3, ['\n'].intercalate body⟩ := by cbv
  exact ⟨ok, (vttAssembly_bracketed _).1 text ok (by decide), _, failed, rfl,
    (vttAssembly_bracketed _).2 _ failed (by decide)⟩

end Hinting
