/-
# `Hinting.Proofs.Concatenation` — one program behind another

A program that decodes completely and closes the blocks it opens leaves nothing to what
stands behind it but an offset and the lines above.  So the second of two such programs is
written as if it stood alone:

    program   p  ++  q           offset of a fault    |p| + offset in q
    text      u   E  v           text before it       u  E  text before it in q

with the line ending `E` left out where `u` or `v` is empty (`Text.joined`), and with one
frame around the whole in place of one around each.

The writer that has written `p` and the one that starts anew on `q` are followed in step
(`Writer.followedBy`): what a write does to the second alone, it does to both, be it a
success or a fault (`Writer.behind`).  That is shown for one write, for a run, and for the
ending of the walk, and `disassemble_append` puts them together.
-/
import Mathlib
import Hinting.Proofs.WrittenLines

namespace Hinting

/-! ## Texts with a line ending between them -/

namespace Text

/-- Two texts with something between them, or the one where the other is empty. -/
def joined (between t u : Text) : Text :=
  if t = [] then u else if u = [] then t else t ++ between ++ u

theorem intercalate_append_eq_joined {E : Text} {ls ls' : List Text}
    (solid : ∀ l ∈ ls, Solid l) (solid' : ∀ l ∈ ls', Solid l) :
    E.intercalate (ls ++ ls') = joined E (E.intercalate ls) (E.intercalate ls') := by
  unfold joined
  split
  · rename_i nothing
    rw [eq_nil_of_intercalate solid nothing, List.nil_append]
  · rename_i something
    split
    · rename_i nothing
      rw [eq_nil_of_intercalate solid' nothing, List.append_nil]
    · rename_i something'
      refine intercalate_append ?_ ?_
      · rintro rfl
        exact something rfl
      · rintro rfl
        exact something' rfl

end Text

/-! ## Writers in step -/

theorem Dialect.linesOf_placed (d : Dialect) (c : Command) (offset offset' indent : Nat) :
    d.linesOf (c.placed offset indent) = d.linesOf (c.placed offset' indent) := by
  cases d with
  | ttx => rfl
  | vtt => rfl

namespace Writer

/-- The writer with the lines of another in front of its own. -/
def followedBy (w v : Writer) : Writer := { v with lines := w.lines ++ v.lines }

/-- What becomes of a run behind a program of some length that the writer has written. -/
def behind (w : Writer) (length : Nat) : Except Fault Writer → Except Fault Writer
  | .ok v => .ok (w.followedBy v)
  | .error f => .error
      ⟨f.kind, length + f.offset, Text.joined w.options.lineEnding w.text f.partialOutput⟩

section
variable {w v : Writer} (hw : w.IsSolid) (hv : v.IsSolid) (same : v.options = w.options)
include hw hv same

theorem text_followedBy :
    (w.followedBy v).text = Text.joined w.options.lineEnding w.text v.text := by
  have both : (w.followedBy v).IsSolid := by
    intro l hl
    rcases List.mem_append.mp (Array.toList_append ▸ hl) with front | back
    · exact hw l front
    · exact hv l back
  rw [both.text_eq, hw.text_eq, hv.text_eq, followedBy, same, Array.toList_append]
  exact Text.intercalate_append_eq_joined hw hv

theorem write_followedBy (c : Command) (length offset indent : Nat) :
    (w.followedBy v).write (c.placed (length + offset) indent)
      = w.behind length (v.write (c.placed offset indent)) := by
  have lines := v.options.dialect.linesOf_placed c (length + offset) offset indent
  cases written : v.write (c.placed offset indent) with
  | ok v' =>
      obtain ⟨ls, rendered, rfl⟩ := eq_of_write written
      have rendered' : (w.followedBy v).options.dialect.linesOf
          (c.placed (length + offset) indent) = .ok ls := lines.trans rendered
      have added : w.lines ++ v.lines ++ ls = w.lines ++ (v.lines ++ ls) :=
        Array.toList_inj.mp (by simp)
      rw [write_of_linesOf rendered']
      exact congrArg (fun ls => Except.ok { v with lines := ls }) added
  | error f =>
      obtain ⟨bits, failed, rfl⟩ := write_eq_error_iff.mp written
      refine write_eq_error_iff.mpr ⟨bits, lines.trans failed, ?_⟩
      rw [text_followedBy hw hv same]
      rfl

end

/-- **A run**: by induction on the commands, with what is written before them growing. -/
theorem writeMany_followedBy {w : Writer} (hw : w.IsSolid) (length : Nat) :
    ∀ {cs : List Command} {v : Writer} {offset depth : Nat}, v.IsSolid → v.options = w.options →
      (w.followedBy v).writeMany (Stream.place (length + offset) depth cs)
        = w.behind length (v.writeMany (Stream.place offset depth cs)) := by
  intro cs
  induction cs with
  | nil => intro v offset depth _ _; rfl
  | cons c cs ih =>
      intro v offset depth hv same
      have first := write_followedBy hw hv same c length offset (c.indentAt depth)
      rw [Stream.place, Stream.place, writeMany, writeMany, first]
      cases written : v.write (c.placed offset (c.indentAt depth)) with
      | error f => rfl
      | ok v' =>
          have kept : v'.options = w.options := by
            obtain ⟨ls, _, rfl⟩ := eq_of_write written
            exact same
          rw [behind, Nat.add_assoc]
          exact ih (hv.write written) kept

theorem conclude_followedBy {w v : Writer} (hw : w.IsSolid) (hv : v.IsSolid)
    (same : v.options = w.options) (length offset : Nat) (r : Bytes) :
    (w.followedBy v).conclude (Stream.tailEnding (length + offset) r)
      = w.behind length (v.conclude (Stream.tailEnding offset r)) := by
  have fault : (Stream.tailEnding (length + offset) r).fault? =
      (Stream.tailEnding offset r).fault?.map fun f => { f with offset := length + f.offset } := by
    unfold Stream.tailEnding
    split <;> rfl
  rw [conclude, conclude, fault]
  cases (Stream.tailEnding offset r).fault? with
  | none => rfl
  | some f =>
      simp only [Option.map_some, Fault.withPartialOutput, trimEnd_text, behind]
      rw [text_followedBy hw hv same]

end Writer

/-! ## Programs -/

section
variable {options : Options} {p q r : Bytes} {cs cs' : List Command} {w : Writer}
  (hp : Stream.Split p cs []) (hq : Stream.Split q cs' r) (closed : Stream.depth 0 cs = 0)
  (written : (Writer.start options).writeMany (Stream.place 0 0 cs) = .ok w)
include hp hq closed written

/-- The second program is written in step with the first one before it. -/
theorem disassemble_append_eq :
    disassemble options (p ++ q) =
      (w.behind p.length (((Writer.start options).writeMany (Stream.place 0 0 cs')).bind fun v =>
        v.conclude (Stream.tailEnding (Stream.bytes cs').length r))).map Writer.finish := by
  have solid : w.IsSolid := (Writer.isSolid_start options).writeMany written
  have kept : w.options = options := Writer.options_of_writeMany written
  have start : w.followedBy (Writer.start options) = w := by
    rw [Writer.followedBy, Writer.start, ← kept]
    exact congrArg (Writer.mk w.options) (by simp)
  have front : p = Stream.bytes cs := by rw [hp.eq, List.append_nil]
  subst front
  have run : w.writeMany (Stream.place (Stream.bytes cs).length 0 cs')
      = w.behind (Stream.bytes cs).length
          ((Writer.start options).writeMany (Stream.place 0 0 cs')) := by
    rw [← Writer.writeMany_followedBy solid _ (Writer.isSolid_start options) kept.symm, start,
      Nat.add_zero]
  -- The depth is 0 again where the second program starts, so its commands are placed as they are
  -- alone, but for the offset.
  rw [(hq.prepend hp.encodable).disassemble_eq, Stream.place_append,
    Writer.writeMany_append written, closed, Nat.zero_add, run, Stream.bytes_append,
    List.length_append]
  cases written' : (Writer.start options).writeMany (Stream.place 0 0 cs') with
  | error f => rfl
  | ok v =>
      have solid' : v.IsSolid := (Writer.isSolid_start options).writeMany written'
      have kept' : v.options = options := Writer.options_of_writeMany written'
      exact congrArg (Except.map Writer.finish)
        (Writer.conclude_followedBy solid solid' (kept'.trans kept.symm) _ _ r)

theorem disassemble_append_of_ok {s : Text} (alone : disassemble options q = .ok s) :
    ∃ v, s = options.frame v ∧ disassemble options (p ++ q)
      = .ok (options.frame (Text.joined options.lineEnding w.text v)) := by
  obtain ⟨v, written', faultless, rfl⟩ := hq.disassemble_eq_ok_iff.mp alone
  have kept : w.options = options := Writer.options_of_writeMany written
  have kept' : v.options = options := Writer.options_of_writeMany written'
  have both : (w.followedBy v).text = Text.joined options.lineEnding w.text v.text := by
    rw [Writer.text_followedBy ((Writer.isSolid_start options).writeMany written)
      ((Writer.isSolid_start options).writeMany written') (kept'.trans kept.symm), kept]
  have concluded : v.conclude (Stream.tailEnding (Stream.bytes cs').length r) = .ok v := by
    rw [Writer.conclude, faultless]
  refine ⟨v.text, by rw [Writer.finish_eq, kept'], ?_⟩
  rw [disassemble_append_eq hp hq closed written, written', Except.bind, concluded, Writer.behind,
    Except.map, Writer.finish_eq, both]
  exact congrArg (fun o => Except.ok (Options.frame o _)) kept'

theorem disassemble_append_of_error {f : Fault} (alone : disassemble options q = .error f) :
    disassemble options (p ++ q) = .error
      ⟨f.kind, p.length + f.offset, Text.joined options.lineEnding w.text f.partialOutput⟩ := by
  have kept : w.options = options := Writer.options_of_writeMany written
  rw [hq.disassemble_eq] at alone
  rw [disassemble_append_eq hp hq closed written]
  generalize ((Writer.start options).writeMany (Stream.place 0 0 cs')).bind _ = run at alone ⊢
  cases run with
  | ok v => cases alone
  | error f' =>
      obtain rfl := Except.error.inj alone
      rw [← kept]
      rfl

end

/-- **One program behind another.**  The first decodes completely, closes its blocks, and has a
text.  Then the two together have a text exactly if the second has one, and without the frames
that is the one text, the line ending and the other text.  A fault of the second is the fault of
the two, as many bytes later, with the text of the first before what it carries. -/
theorem disassemble_append {options : Options} {p : Bytes} {t : Text}
    (complete : (decoding p).ending = .complete) (closed : (Decoder.start p).last.depth = 0)
    (written : disassemble options p = .ok t) (q : Bytes) :
    ∃ u, t = options.frame u ∧
      ((∃ s, disassemble options (p ++ q) = .ok s) ↔ ∃ s, disassemble options q = .ok s) ∧
      (∀ s, disassemble options q = .ok s → ∃ v, s = options.frame v ∧
        disassemble options (p ++ q)
          = .ok (options.frame (Text.joined options.lineEnding u v))) ∧
      ∀ f, disassemble options q = .error f →
        disassemble options (p ++ q) = .error
          ⟨f.kind, p.length + f.offset, Text.joined options.lineEnding u f.partialOutput⟩ := by
  obtain ⟨cs, r, hp⟩ := Stream.exists_split p
  obtain ⟨cs', r', hq⟩ := Stream.exists_split q
  obtain ⟨w, run, _, rfl⟩ := hp.disassemble_eq_ok_iff.mp written
  rw [hp.decoding_eq] at complete
  obtain rfl := Stream.eq_nil_of_complete hp.tail complete
  rw [hp.depth_last] at closed
  have kept : w.options = options := Writer.options_of_writeMany run
  refine ⟨w.text, by rw [Writer.finish_eq, kept], ?_,
    fun s => disassemble_append_of_ok hp hq closed run,
    fun f => disassemble_append_of_error hp hq closed run⟩
  constructor
  · rintro ⟨s, together⟩
    cases alone : disassemble options q with
    | ok s => exact ⟨s, rfl⟩
    | error f =>
        rw [disassemble_append_of_error hp hq closed run alone] at together
        cases together
  · rintro ⟨s, alone⟩
    obtain ⟨v, _, together⟩ := disassemble_append_of_ok hp hq closed run alone
    exact ⟨_, together⟩

/-- A push in a block, and behind it a call and a relative move without a color. -/
theorem disassemble_append_illegal_move :
    (decoding [0x58, 0xb0, 0x07, 0x59]).ending = .complete ∧
      (Decoder.start [0x58, 0xb0, 0x07, 0x59]).last.depth = 0 ∧
      disassemble ⟨.vtt, ['\r', '\n']⟩ [0x58, 0xb0, 0x07, 0x59] = .ok
        "#PUSHOFF\r\nIF[]\t/* If */\r\n  #PUSH, 7\r\nEIF[]\t/* EndIf */\r\n#PUSHON".toList ∧
      disassemble ⟨.vtt, ['\r', '\n']⟩ [0x2b, 0xe3, 0x90]
        = .error ⟨.illegalBits .MIRP ⟨3, 5⟩, 1, "CALL[]\t/* CallFunction */".toList⟩ ∧
      disassemble ⟨.vtt, ['\r', '\n']⟩ ([0x58, 0xb0, 0x07, 0x59] ++ [0x2b, 0xe3, 0x90])
        = .error ⟨.illegalBits .MIRP ⟨3, 5⟩, 5,
            "IF[]\t/* If */\r\n  #PUSH, 7\r\nEIF[]\t/* EndIf */\r\n".toList
              ++ "CALL[]\t/* CallFunction */".toList⟩ := by
  have complete : (decoding [0x58, 0xb0, 0x07, 0x59]).ending = .complete := by cbv
  have closed : (Decoder.start [0x58, 0xb0, 0x07, 0x59]).last.depth = 0 := by cbv
  have written : disassemble ⟨.vtt, ['\r', '\n']⟩ [0x58, 0xb0, 0x07, 0x59] = .ok
      "#PUSHOFF\r\nIF[]\t/* If */\r\n  #PUSH, 7\r\nEIF[]\t/* EndIf */\r\n#PUSHON".toList := by
    cbv
  have failed : disassemble ⟨.vtt, ['\r', '\n']⟩ [0x2b, 0xe3, 0x90]
      = .error ⟨.illegalBits .MIRP ⟨3, 5⟩, 1, "CALL[]\t/* CallFunction */".toList⟩ := by cbv
  obtain ⟨u, framed, _, _, fails⟩ := disassemble_append complete closed written [0x2b, 0xe3, 0x90]
  have body : Options.frame ⟨.vtt, ['\r', '\n']⟩
      "IF[]\t/* If */\r\n  #PUSH, 7\r\nEIF[]\t/* EndIf */".toList = Options.frame _ u :=
    framed
  obtain rfl := Options.frame_injective body
  exact ⟨complete, closed, written, failed, fails _ failed⟩

end Hinting
