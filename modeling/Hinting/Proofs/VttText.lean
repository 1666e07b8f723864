/-
# `Hinting.Proofs.VttText` — what a text in VTT tells of a program

VTT writes a push by its values alone, whichever push it is.  Of everything else it
writes the operation and the bits.  Two instructions that have these in common
**agree** (`Instruction.Agree`).

Nothing else is lost: two programs have one text in VTT exactly if their instructions
agree one by one (`vttAssembly_eq_iff_agree`).  From the text to the instructions it
goes in three steps, each of which can be undone:

    text  ──frame off──▸  body  ──line feeds──▸  lines  ──first lines──▸  instructions

The last is a prefix code.  The first line of an instruction, less its indentation, starts
with a letter, or is `#PUSHON`, or is some other directive, and tells which of its three
forms the instruction has; so of two equal rows of lines the first instructions agree
(`Instruction.agree_of_append_eq`), take up the same lines, and leave the same depth for
what follows.
-/
import Mathlib
import Hinting.Proofs.Letters
import Hinting.Proofs.WrittenLines

namespace Hinting

/-! ## Joined texts are taken apart -/

namespace Text

theorem eq_of_read {α : Type} {read : Text → Option α} {a a' : α} {t t' : Text}
    (ha : read t = some a) (ha' : read t' = some a') (h : t = t') : a = a' := by
  subst h
  exact Option.some.inj (ha.symm.trans ha')

theorem eq_of_append_cons {c : Char} {t t' u u' : Text} (ht : c ∉ t) (ht' : c ∉ t')
    (h : t ++ c :: u = t' ++ c :: u') : t = t' ∧ u = u' := by
  have front : ∀ {a r : Text}, c ∉ a → (a ++ c :: r).takeWhile (· != c) = a := by
    intro a r ha
    refine takeWhile_append_cons (fun d hd => ?_) (by simp)
    rw [bne_iff_ne]
    rintro rfl
    exact ha hd
  have same : t = t' := by rw [← front (r := u) ht, h, front ht']
  subst same
  exact ⟨rfl, (List.cons.inj (List.append_cancel_left h)).2⟩

theorem eq_of_intercalate {c : Char} {separator : Text} : ∀ {ts us : List Text},
    (∀ t ∈ ts, c ∉ t) → (∀ u ∈ us, c ∉ u) → ts ≠ [] → us ≠ [] →
      (c :: separator).intercalate ts = (c :: separator).intercalate us → ts = us := by
  intro ts
  induction ts with
  | nil => intro us _ _ none; exact absurd rfl none
  | cons t ts ih =>
      intro us ht hu _ some_part h
      cases us with
      | nil => exact absurd rfl some_part
      | cons u us =>
          obtain ⟨ht₀, ht⟩ := List.forall_mem_cons.mp ht
          obtain ⟨hu₀, hu⟩ := List.forall_mem_cons.mp hu
          cases ts with
          | nil =>
              cases us with
              | nil => simpa using h
              | cons u' us =>
                  rw [List.intercalate_singleton, List.intercalate_cons_cons] at h
                  exact absurd (h ▸ by simp) ht₀
          | cons t' ts =>
              cases us with
              | nil =>
                  rw [List.intercalate_singleton, List.intercalate_cons_cons] at h
                  exact absurd (h.symm ▸ by simp) hu₀
              | cons u' us =>
                  rw [List.intercalate_cons_cons, List.intercalate_cons_cons, List.append_assoc,
                    List.append_assoc] at h
                  obtain ⟨first, rest⟩ := eq_of_append_cons ht₀ hu₀ h
                  have tails := List.append_cancel_left rest
                  rw [first, ih ht hu (List.cons_ne_nil _ _) (List.cons_ne_nil _ _) tails]

theorem eq_of_intercalate_feed {ls ls' : List Text} (solid : ∀ l ∈ ls, Solid l)
    (solid' : ∀ l ∈ ls', Solid l) (h : ['\n'].intercalate ls = ['\n'].intercalate ls') :
    ls = ls' := by
  by_cases none : ls = []
  · subst none
    exact (eq_nil_of_intercalate solid' h.symm).symm
  · by_cases none' : ls' = []
    · subst none'
      exact absurd (eq_nil_of_intercalate solid h) none
    · exact eq_of_intercalate (fun l hl => (solid l hl).1) (fun l hl => (solid' l hl).1)
        none none' h

end Text

theorem Numeral.eq_of_signed {v v' : Int} (h : signed v = signed v') : v = v' :=
  Text.eq_of_read (signed?_signed v) (signed?_signed v') h

theorem Operation.eq_of_mnemonic {op op' : Operation} (h : op.mnemonic = op'.mnemonic) :
    op = op' :=
  Text.eq_of_read op.ofMnemonic?_mnemonic op'.ofMnemonic?_mnemonic h

namespace Instruction

/-! ## Agreement -/

/-- What two instructions have in common if VTT does not tell them apart. -/
inductive Agree (i j : Instruction) : Prop
  | push : i.isPush = true → j.isPush = true → i.arguments = j.arguments → Agree i j
  | plain : i.isPush = false → j.isPush = false → i.operation = j.operation → i.bits = j.bits →
      Agree i j

theorem Agree.vttLines_eq {i j : Instruction} (h : Agree i j) (depth : i.indent = j.indent) :
    i.vttLines = j.vttLines := by
  cases h with
  | push isPush isPush' values =>
      have directive : i.pushDirective = j.pushDirective := by
        rw [pushDirective, pushDirective, argumentsText, argumentsText, values]
      rw [vttLines, vttLines, if_pos isPush, if_pos isPush', directive, indented, indented, depth]
  | plain notPush notPush' operation bits =>
      have letters : i.letters = j.letters := by rw [letters, letters, operation, bits]
      have described : i.described = j.described := by
        funext t
        rw [described, described, bracketed, bracketed, mnemonic, mnemonic, description,
          description, operation]
      have jump : i.jumpDirective = j.jumpDirective := by
        rw [jumpDirective, jumpDirective, mnemonic, mnemonic, operation]
      have indented : i.indented = j.indented := by
        funext t
        rw [indented, indented, depth]
      rw [vttLines, vttLines, notPush, notPush', operation, letters, described, jump, indented]
      rfl

/-! ## First lines -/

theorem dropBlanks_indented (i : Instruction) {c : Char} (solid : Text.isBlank c = false)
    (t : Text) : Text.dropBlanks (i.indented (c :: t)) = c :: t := by
  rw [indented, Text.dropBlanks_append (allBlank_indentation i.indent), Text.dropBlanks,
    List.dropWhile_cons_of_neg (by simp [solid])]

theorem pushDirective_eq (i : Instruction) : i.pushDirective =
    '#' :: 'P' :: 'U' :: 'S' :: 'H' ::
      if i.arguments.isEmpty then [] else ',' :: ' ' :: i.argumentsText [',', ' '] := by
  rw [pushDirective]
  split <;> rfl

theorem head?_pushDirective (i : Instruction) : i.pushDirective.head? = some '#' := by
  rw [pushDirective_eq]
  rfl

theorem dropBlanks_push (i : Instruction) :
    Text.dropBlanks (i.indented i.pushDirective) = i.pushDirective := by
  rw [pushDirective_eq]
  exact dropBlanks_indented i rfl _

theorem dropBlanks_named (i : Instruction) (c : Char) (t : Text) :
    Text.dropBlanks (i.indented (i.mnemonic ++ c :: t)) = i.mnemonic ++ c :: t :=
  Header.dropBlanks_of_name (allBlank_indentation i.indent) i.operation.mnemonic_ne_nil
    Operation.isAlphanum_of_mem_mnemonic

theorem described_eq (i : Instruction) (letters : Text) :
    i.described letters = i.mnemonic ++ '[' :: (letters ++ "]\t/* ".toList ++ i.description
      ++ " */".toList) := by
  have opened : "\t/* ".toList = ['\t', '/', '*', ' '] := rfl
  have closed : "]\t/* ".toList = [']', '\t', '/', '*', ' '] := rfl
  simp [described, bracketed, opened, closed]

theorem dropBlanks_described (i : Instruction) (letters : Text) :
    Text.dropBlanks (i.indented (i.described letters)) = i.described letters := by
  rw [described_eq, dropBlanks_named]

theorem exists_jumpDirective_eq (i : Instruction) :
    ∃ t, i.jumpDirective = i.mnemonic ++ ',' :: t := by
  rw [jumpDirective]
  split <;> exact ⟨_, rfl⟩

/-- A described instruction starts with a letter, a directive with a mark. -/
theorem described_ne (i : Instruction) (letters : Text) {directive : Text}
    (mark : directive.head? = some '#') : i.described letters ≠ directive := by
  rintro rfl
  obtain ⟨c, name, hc⟩ := List.exists_cons_of_ne_nil i.operation.mnemonic_ne_nil
  have letter := Operation.isAlphanum_of_mem_mnemonic c (hc ▸ List.mem_cons_self)
  rw [described_eq, mnemonic, hc] at mark
  obtain rfl := Option.some.inj mark
  cases letter

theorem pushDirective_ne_pushOn (i : Instruction) : i.pushDirective ≠ pushOn := by
  have spelled : pushOn = ['#', 'P', 'U', 'S', 'H', 'O', 'N'] := rfl
  rw [pushDirective_eq, spelled]
  split <;> simp

theorem arguments_eq_of_pushDirective {i j : Instruction}
    (h : i.pushDirective = j.pushDirective) : i.arguments = j.arguments := by
  have comma : ∀ vs : List Int, ∀ t ∈ vs.map Numeral.signed, ',' ∉ t := by
    intro vs t ht inside
    obtain ⟨v, _, rfl⟩ := List.mem_map.mp ht
    rcases Numeral.mem_signed inside with sign | digit
    · cases sign
    · cases digit
  rw [pushDirective_eq, pushDirective_eq] at h
  simp only [List.cons.injEq, true_and] at h
  cases hi : i.arguments with
  | nil =>
      cases hj : j.arguments with
      | nil => rfl
      | cons v' vs' => simp [hi, hj] at h
  | cons v vs =>
      cases hj : j.arguments with
      | nil => simp [hi, hj] at h
      | cons v' vs' =>
          simp only [hi, hj, List.isEmpty_cons, Bool.false_eq_true, if_false, List.cons.injEq,
            true_and, argumentsText] at h
          have told := Text.eq_of_intercalate (comma (v :: vs)) (comma (v' :: vs'))
            (by simp) (by simp) h
          exact (List.map_inj_right fun _ _ => Numeral.eq_of_signed).mp told

theorem operation_eq_of_append {i j : Instruction} {c : Char} {t u : Text}
    (mark : c.isAlphanum = false) (h : i.mnemonic ++ c :: t = j.mnemonic ++ c :: u) :
    i.operation = j.operation ∧ t = u := by
  have outside : ∀ op : Operation, c ∉ op.mnemonic := by
    intro op inside
    rw [Operation.isAlphanum_of_mem_mnemonic c inside] at mark
    cases mark
  obtain ⟨name, rest⟩ := Text.eq_of_append_cons (outside i.operation) (outside j.operation) h
  exact ⟨Operation.eq_of_mnemonic name, rest⟩

theorem eq_of_described {i j : Instruction} {t u : Text}
    (h : i.described t = j.described u) : i.operation = j.operation ∧ t = u := by
  rw [described_eq, described_eq] at h
  obtain ⟨operation, rest⟩ := operation_eq_of_append (by decide) h
  rw [description, description, operation] at rest
  exact ⟨operation, by simpa using rest⟩

theorem bits_eq_of_letters {i j : Instruction} (hi : i.HasOwnBits) (hj : j.HasOwnBits)
    (operation : i.operation = j.operation) {t : Text} (ht : i.letters = .ok t)
    (hu : j.letters = .ok t) : i.bits = j.bits := by
  obtain ⟨v, hv, bits⟩ := hi
  obtain ⟨v', hv', bits'⟩ := hj
  rw [← operation] at hv' bits'
  by_cases none : i.operation.argBits = 0
  · rw [bits, bits', if_pos none, if_pos none]
  · rw [if_neg none] at bits bits'
    have spelled : ∀ {k : Instruction} {b : Bits}, k.bits = some b → k.letters = .ok t →
        k.operation.spellBits? b = some t := by
      intro k b hb hk
      rw [letters, hb] at hk
      cases hs : k.operation.spellBits? b with
      | none => simp [hs] at hk
      | some u => simpa [hs] using hk
    have left := spelled bits ht
    have right := spelled bits' hu
    rw [← operation] at right
    rw [bits, bits', Operation.eq_of_spellBits? hv hv' left right]

/-! ## The prefix code -/

/-- Of two equal rows of lines the first instructions agree.  Pushes and jumps start with a
directive and nothing else does, so the two have the same form. -/
theorem agree_of_append_eq {i j : Instruction} (hi : i.isPush = false → i.HasOwnBits)
    (hj : j.isPush = false → j.HasOwnBits) {ls ls' rest rest' : List Text}
    (form : i.VttForm ls) (form' : j.VttForm ls') (h : ls ++ rest = ls' ++ rest') :
    Agree i j := by
  cases form with
  | push isPush =>
      cases form' with
      | push isPush' =>
          have first := congrArg Text.dropBlanks (List.cons.inj h).1
          rw [dropBlanks_push, dropBlanks_push] at first
          exact .push isPush isPush' (arguments_eq_of_pushDirective first)
      | jump _ _ =>
          have first := congrArg Text.dropBlanks (List.cons.inj h).1
          rw [dropBlanks_push] at first
          exact absurd first i.pushDirective_ne_pushOn
      | plain _ _ _ =>
          have first := congrArg Text.dropBlanks (List.cons.inj h).1
          rw [dropBlanks_push, dropBlanks_described] at first
          exact absurd first.symm (j.described_ne _ i.head?_pushDirective)
  | jump notPush jump =>
      cases form' with
      | push _ =>
          have first := congrArg Text.dropBlanks (List.cons.inj h).1
          rw [dropBlanks_push] at first
          exact absurd first.symm j.pushDirective_ne_pushOn
      | jump notPush' jump' =>
          have second := congrArg Text.dropBlanks (List.cons.inj (List.cons.inj h).2).1
          obtain ⟨t, ht⟩ := i.exists_jumpDirective_eq
          obtain ⟨u, hu⟩ := j.exists_jumpDirective_eq
          rw [ht, hu, dropBlanks_named, dropBlanks_named] at second
          have operation := (operation_eq_of_append (by decide) second).1
          have bits := (hi notPush).bits_eq_none (Operation.argBits_of_isVttJump jump)
          have bits' := (hj notPush').bits_eq_none (Operation.argBits_of_isVttJump jump')
          exact .plain notPush notPush' operation (bits.trans bits'.symm)
      | plain _ _ _ =>
          have first := congrArg Text.dropBlanks (List.cons.inj h).1
          rw [dropBlanks_described] at first
          exact absurd first.symm (j.described_ne _ rfl)
  | @plain letters notPush _ spelled =>
      cases form' with
      | push _ =>
          have first := congrArg Text.dropBlanks (List.cons.inj h).1
          rw [dropBlanks_push, dropBlanks_described] at first
          exact absurd first (i.described_ne _ j.head?_pushDirective)
      | jump _ _ =>
          have first := congrArg Text.dropBlanks (List.cons.inj h).1
          rw [dropBlanks_described] at first
          exact absurd first (i.described_ne _ rfl)
      | @plain letters' notPush' _ spelled' =>
          have first := congrArg Text.dropBlanks (List.cons.inj h).1
          rw [dropBlanks_described, dropBlanks_described] at first
          obtain ⟨operation, rfl⟩ := eq_of_described first
          have bits := bits_eq_of_letters (hi notPush) (hj notPush') operation spelled spelled'
          exact .plain notPush notPush' operation bits

end Instruction

/-! ## Programs -/

theorem Command.depth_eq_of_agree {c c' : Command} {o o' k k' : Nat}
    (h : Instruction.Agree (c.placed o k) (c'.placed o' k')) (depth : Nat) :
    c.indentAt depth = c'.indentAt depth ∧ c.depthAfter depth = c'.depthAfter depth := by
  cases h with
  | push isPush isPush' _ =>
      obtain ⟨here, after⟩ := Operation.depth_of_isPush isPush depth
      obtain ⟨here', after'⟩ := Operation.depth_of_isPush isPush' depth
      have indent : c.indentAt depth = c'.indentAt depth := here.trans here'.symm
      refine ⟨indent, ?_⟩
      rw [depthAfter, depthAfter, indentAt, indentAt]
      exact (congrArg _ here).trans (after.trans (after'.symm.trans (congrArg _ here'.symm)))
  | plain _ _ operation _ =>
      have same : c.operation = c'.operation := operation
      simp only [indentAt, depthAfter, same, and_self]

/-- Commands have the same lines exactly if they agree one by one.  By induction on both lists:
the first commands agree on either side, and then they have the same lines and leave the same
depth. -/
theorem Stream.flatten_eq_iff_agree {cs : List Command} (hcs : ∀ c ∈ cs, c.IsEncodable) :
    ∀ {cs' : List Command}, (∀ c ∈ cs', c.IsEncodable) → ∀ {o o' d : Nat}
      {lss lss' : List (List Text)}, Dialect.vtt.Renders (place o d cs) lss →
        Dialect.vtt.Renders (place o' d cs') lss' →
          (lss.flatten = lss'.flatten ↔
            List.Forall₂ Instruction.Agree (place o d cs) (place o' d cs')) := by
  induction cs with
  | nil =>
      intro cs' _ o o' d lss lss' rendered rendered'
      cases rendered
      cases cs' with
      | nil => cases rendered'; exact iff_of_true rfl .nil
      | cons c' cs' =>
          cases rendered' with
          | cons first' _ =>
              have some_line := (Instruction.vttLines_eq_ok_iff.mp first').ne_nil
              exact iff_of_false (fun h => by simp_all) (fun h => by cases h)
  | cons c cs ih =>
      intro cs' hcs' o o' d lss lss' rendered rendered'
      cases rendered with
      | @cons _ ls _ lss first later =>
          have form := Instruction.vttLines_eq_ok_iff.mp first
          cases cs' with
          | nil =>
              cases rendered'
              have some_line := form.ne_nil
              exact iff_of_false (fun h => by simp_all) (fun h => by cases h)
          | cons c' cs' =>
              cases rendered' with
              | @cons _ ls' _ lss' first' later' =>
                  have form' := Instruction.vttLines_eq_ok_iff.mp first'
                  obtain ⟨hc, hcs⟩ := List.forall_mem_cons.mp hcs
                  obtain ⟨hc', hcs'⟩ := List.forall_mem_cons.mp hcs'
                  have alike : Instruction.Agree (c.placed o (c.indentAt d))
                      (c'.placed o' (c'.indentAt d)) → ls = ls' ∧
                        (lss.flatten = lss'.flatten ↔ List.Forall₂ Instruction.Agree
                          (place (o + c.size) (c.depthAfter d) cs)
                          (place (o' + c'.size) (c'.depthAfter d) cs')) := by
                    intro agree
                    obtain ⟨here, after⟩ := Command.depth_eq_of_agree agree d
                    have lines := (first.symm.trans (agree.vttLines_eq here)).trans first'
                    rw [← after] at later' ⊢
                    exact ⟨Except.ok.inj lines, ih hcs hcs' later later'⟩
                  rw [List.flatten_cons, List.flatten_cons, place, place, List.forall₂_cons]
                  constructor
                  · intro h
                    have agree := Instruction.agree_of_append_eq (Command.hasOwnBits_placed hc _ _)
                      (Command.hasOwnBits_placed hc' _ _) form form' h
                    obtain ⟨rfl, rest⟩ := alike agree
                    exact ⟨agree, rest.mp (List.append_cancel_left h)⟩
                  · rintro ⟨agree, agreed⟩
                    obtain ⟨rfl, rest⟩ := alike agree
                    rw [rest.mpr agreed]

/-- **VTT loses only the form of pushes.**  Where two programs have a text in VTT, they have the
same one exactly if they decode to instructions that agree one by one. -/
theorem vttAssembly_eq_iff_agree {p q : Bytes} {t u : Text} (hp : vttAssembly p = .ok t)
    (hq : vttAssembly q = .ok u) :
    ∃ is js, decode p = .ok is ∧ decode q = .ok js ∧
      (t = u ↔ List.Forall₂ Instruction.Agree is js) := by
  obtain ⟨cs, r, split⟩ := Stream.exists_split p
  obtain ⟨cs', r', split'⟩ := Stream.exists_split q
  obtain ⟨w, written, faultless, rfl⟩ := split.disassemble_eq_ok_iff.mp hp
  obtain ⟨w', written', faultless', rfl⟩ := split'.disassemble_eq_ok_iff.mp hq
  refine ⟨_, _, split.decode_eq faultless, split'.decode_eq faultless', ?_⟩
  obtain ⟨lss, rendered, rfl⟩ := Writer.writeMany_eq_ok_iff.mp written
  obtain ⟨lss', rendered', rfl⟩ := Writer.writeMany_eq_ok_iff.mp written'
  have solid := (Writer.isSolid_start _).writeMany written
  have solid' := (Writer.isSolid_start _).writeMany written'
  rw [← Stream.flatten_eq_iff_agree split.encodable split'.encodable rendered rendered']
  constructor
  · intro h
    have bodies := @Options.frame_injective ⟨.vtt, ['\n']⟩ _ _ h
    rw [solid.text_eq, solid'.text_eq] at bodies
    simpa [Writer.start] using Text.eq_of_intercalate_feed solid solid' bodies
  · intro h
    rw [h]

/-- `PUSHB` or `NPUSHW` of one value, then a jump and a relative move. -/
theorem vttAssembly_eq_of_push_forms :
    let t := ['\n'].intercalate ["#PUSHOFF".toList, "#PUSH, 7".toList, "#PUSHON".toList,
      "JROF, *, *".toList, "#PUSHOFF".toList, "MDRP[m<RWh]\t/* MoveDirectRelPt */".toList,
      "#PUSHON".toList]
    vttAssembly [0xb0, 0x07, 0x79, 0xc6] = .ok t ∧
      vttAssembly [0x41, 0x01, 0x00, 0x07, 0x79, 0xc6] = .ok t ∧
      ∃ is js, decode [0xb0, 0x07, 0x79, 0xc6] = .ok is ∧
        decode [0x41, 0x01, 0x00, 0x07, 0x79, 0xc6] = .ok js ∧
        List.Forall₂ Instruction.Agree is js := by
  intro t
  have hp : vttAssembly [0xb0, 0x07, 0x79, 0xc6] = .ok t := by cbv
  have hq : vttAssembly [0x41, 0x01, 0x00, 0x07, 0x79, 0xc6] = .ok t := by cbv
  obtain ⟨is, js, decoded, decoded', told⟩ := vttAssembly_eq_iff_agree hp hq
  exact ⟨hp, hq, is, js, decoded, decoded', told.mp rfl⟩

end Hinting
