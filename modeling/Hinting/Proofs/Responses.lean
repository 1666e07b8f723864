/-
# `Hinting.Proofs.Responses` — the program answers as the library does

A command line that is accepted names a file and asks for an output of its contents.  The
library has a result for these contents too: the text of the output, or a fault.  The program
answers with that result and adds nothing of its own:

                   exit code   stdout           stderr
    a text             0       it, line feed    the warning about a push cut off, if there is one
    a fault            1       nothing          its message, and what was written before it

What a line looks like is the printer's affair, and so is what the reader finds under a name.
All that is used of the printer is which levels it shows.

What the second row leaves out needs a proof.  A run may report a warning before it fails,
and the line on it would stand before the message.  But it never does (`shown_writeAll`): the
warning is about the end of the program, an instruction that cannot be written lies before
that, and an end of which there is a warning is no fault.
-/
import Hinting.CommandLine
import Hinting.Proofs.Arguments
import Hinting.Proofs.Events

namespace Hinting.CommandLine

/-! ## What is shown -/

def shown (es : List Entry) : List Entry := es.filter fun e => !e.level.isDetail

theorem shown_cons_of_isDetail {e : Entry} (detail : e.level.isDetail = true) (es : List Entry) :
    shown (e :: es) = shown es :=
  List.filter_cons_of_neg (by rw [detail]; exact Bool.false_ne_true)

section
variable {printer : Printer} (hides : printer.HidesDetails)
include hides

theorem Printer.print_of_isDetail {e : Entry} (detail : e.level.isDetail = true) (n : Nat) :
    printer.print n e = [] := by
  rw [print, hides, detail]
  rfl

theorem Printer.printFrom_of_shown_nil {es : List Entry} (h : shown es = []) :
    ∀ n, printer.printFrom n es = [] := by
  induction es with
  | nil => intro n; rfl
  | cons e es ih =>
      intro n
      cases detail : e.level.isDetail with
      | true =>
          rw [shown_cons_of_isDetail detail] at h
          rw [printFrom, print_of_isDetail hides detail, ih h]
          rfl
      | false =>
          have first : shown (e :: es) = e :: shown es :=
            List.filter_cons_of_pos (by rw [detail]; rfl)
          cases first.symm.trans h

theorem Printer.printFrom_of_shown_singleton {es : List Entry} {e : Entry} (h : shown es = [e]) :
    ∀ n, ∃ number, printer.printFrom n es = printer.line number e ++ ['\n'] := by
  induction es with
  | nil => cases h
  | cons e' es ih =>
      intro n
      cases detail : e'.level.isDetail with
      | true =>
          rw [shown_cons_of_isDetail detail] at h
          rw [printFrom, print_of_isDetail hides detail]
          exact ih h (n + 1)
      | false =>
          have first : shown (e' :: es) = e' :: shown es :=
            List.filter_cons_of_pos (by rw [detail]; rfl)
          obtain ⟨rfl, others⟩ := List.cons.inj (first.symm.trans h)
          refine ⟨n, ?_⟩
          rw [printFrom, printFrom_of_shown_nil hides others, print, hides, detail, List.append_nil]
          rfl

end

/-! ## Warnings and faults -/

/-- **A run that fails has not warned**, by induction on the instructions. -/
theorem shown_writeAll (ending : Ending) : ∀ (is : List Instruction) (w : Writer),
    shown ((w.writeAll ending is).events.map Event.entry) =
      match (w.writeAll ending is).value with
      | .ok _ => ending.events.map Event.entry
      | .error _ => [] := by
  intro is
  induction is with
  | nil =>
      intro w
      rw [Writer.writeAll_nil]
      cases ending with
      | complete => rfl
      | unassigned opcode offset => rfl
      | cutOff push => rfl
  | cons i is ih =>
      intro w
      cases written : w.write i with
      | error fault => rw [Writer.writeAll_of_error written]; rfl
      | ok w' =>
          rw [Writer.writeAll_of_ok written]
          exact (shown_cons_of_isDetail rfl _).trans (ih w')

/-! ## What the library has to say -/

def libraryResult : Output → Bytes → Except Fault Text
  | .listing, b => (listing b).map Listing.text
  | .assembly options, b => disassemble options b

theorem Output.value_ofProgram (output : Output) (b : Bytes) :
    (output.ofProgram b).value = libraryResult output b := by
  cases output <;> rfl

theorem Output.shown_ofProgram (output : Output) (b : Bytes) :
    shown ((output.ofProgram b).events.map Event.entry) =
      match libraryResult output b with
      | .ok _ => (decoding b).ending.events.map Event.entry
      | .error _ => [] := by
  have written : ∀ options, shown ((writeProgram options b).events.map Event.entry) =
      match (writeProgram options b).value with
      | .ok _ => (decoding b).ending.events.map Event.entry
      | .error _ => [] := by
    intro options
    rw [writeProgram_eq]
    exact shown_writeAll _ _ (.start options)
  cases output with
  | listing =>
      rw [libraryResult, Hinting.listing, ofProgram, listingLogged_eq]
      refine (written {}).trans ?_
      simp only [Logged.map]
      cases (writeProgram {} b).value <;> rfl
  | assembly options =>
      rw [libraryResult, disassemble, ofProgram, disassembleLogged]
      cases value : (writeProgram options b).value with
      | error fault =>
          have run := written options
          rw [value] at run
          simp only [Logged.after, Logged.map, value]
          exact (shown_cons_of_isDetail rfl _).trans run
      | ok w =>
          have run := written options
          rw [value] at run
          simp only [Logged.after, Logged.map, Logged.snoc, value]
          refine (shown_cons_of_isDetail rfl _).trans ?_
          show shown (((writeProgram options b).events ++ [_]).map Event.entry) = _
          rw [List.map_append, shown, List.filter_append]
          exact (congrArg (· ++ _) run).trans (List.append_nil _)

/-! ## What the program has to say -/

/-- The program prints a text, and warns of a push that the end of the contents cuts off. -/
structure Prints (printer : Printer) (b : Bytes) (text : Text) (response : Response) : Prop where
  exitCode : response.exitCode = 0
  stdout : response.stdout = text ++ ['\n']
  cutOff : ∀ op offset, Format.EndsCutOff b op offset → ∃ number,
    response.stderr = printer.line number (.missingOperands op offset b.length) ++ ['\n']
  whole : (∀ op offset, ¬Format.EndsCutOff b op offset) → response.stderr = []

/-- The program reports a fault, and what was written before it. -/
structure Fails (printer : Printer) (fault : Fault) (response : Response) : Prop where
  exitCode : response.exitCode = 1
  stdout : response.stdout = []
  stderr : ∃ number, response.stderr = printer.line number (.failure fault.message) ++ ['\n']
    ++ if fault.partialOutput = [] then [] else fault.partialOutput ++ ['\n']

/-- The program gives the result that the library has. -/
def Agrees (printer : Printer) (b : Bytes) : Except Fault Text → Response → Prop
  | .ok text, response => Prints printer b text response
  | .error fault, response => Fails printer fault response

theorem agrees_respond {printer : Printer} (hides : printer.HidesDetails) (i : Invocation)
    (b : Bytes) : Agrees printer b (libraryResult i.output b) (i.respond printer b) := by
  have entries := i.output.shown_ofProgram b
  have warned := warned_decoding b
  rw [Invocation.respond, Output.value_ofProgram]
  cases result : libraryResult i.output b with
  | error fault =>
      rw [result] at entries
      refine ⟨rfl, rfl, ?_⟩
      -- Nothing of the run itself is shown, so the message is the one entry that is.
      have message : shown ((i.output.ofProgram b).events.map Event.entry
          ++ [.failure fault.message]) = [.failure fault.message] := by
        rw [shown, List.filter_append]
        exact congrArg (· ++ _) entries
      obtain ⟨number, line⟩ := Printer.printFrom_of_shown_singleton hides message 0
      refine ⟨number, ?_⟩
      simp only [line, partialLines, List.isEmpty_iff]
  | ok text =>
      rw [result] at entries
      refine ⟨rfl, rfl, fun op offset cut => ?_, fun none => ?_⟩
      · exact Printer.printFrom_of_shown_singleton hides
          (entries.trans (warned.cutOff op offset cut)) 0
      · exact Printer.printFrom_of_shown_nil hides (entries.trans (warned.whole none)) 0

/-- **The program agrees with the library**, whatever the reader finds in the file and however
lines are printed, as long as just the levels from information on are shown. -/
theorem run_agrees {read : Text → Except Text Bytes} {printer : Printer} {arguments : List Text}
    {i : Invocation} {b : Bytes} (hides : printer.HidesDetails)
    (accepted : Invocation.ofArguments arguments = .ok i) (contents : read i.file = .ok b) :
    (∃ d crlf listing, Names arguments i.file d crlf listing) ∧
      ∀ file d crlf listed, Names arguments file d crlf listed → file = i.file ∧
        Agrees printer b
          (if listed then (listing b).map Listing.text
            else disassemble ⟨d, if crlf then ['\r', '\n'] else ['\n']⟩ b)
          (run read printer arguments) := by
  refine ⟨exists_names accepted, fun file d crlf listed names => ?_⟩
  have answer : run read printer arguments = i.respond printer b := by
    simp only [run, accepted, contents]
  have asked := eq_of_names accepted names
  refine ⟨by rw [asked], ?_⟩
  have result : libraryResult i.output b = if listed then (listing b).map Listing.text
      else disassemble ⟨d, if crlf then ['\r', '\n'] else ['\n']⟩ b := by
    rw [asked]
    cases listed <;> rfl
  rw [answer, ← result]
  exact agrees_respond hides i b

/-- The reader that finds one file. -/
def onlyFile (name : Text) (contents : Bytes) (file : Text) : Except Text Bytes :=
  if file = name then .ok contents else .error "No such file or directory (os error 2)".toList

/-- A VTT text with a carriage return before each line feed, and a push cut off.  The file is
named from the root, and each line tells the time. -/
theorem run_agrees_cut_push :
    Prints (.stamped fun _ => "2024-05-01T10:00:00.000000Z ".toList) [0x4e, 0xb1, 0x07]
      "#PUSHOFF\r\nFLIPOFF[]\t/* SetAutoFlipOff */\r\n#PUSHON".toList
      (run (onlyFile "/fonts/a.bin".toList [0x4e, 0xb1, 0x07])
        (.stamped fun _ => "2024-05-01T10:00:00.000000Z ".toList)
        ["--crlf".toList, "-d".toList, "VTT".toList, "/fonts/a.bin".toList]) := by
  have accepted : Invocation.ofArguments
      ["--crlf".toList, "-d".toList, "VTT".toList, "/fonts/a.bin".toList]
        = .ok ⟨"/fonts/a.bin".toList, .assembly ⟨.vtt, ['\r', '\n']⟩⟩ := rfl
  have names : Names ["--crlf".toList, "-d".toList, "VTT".toList, "/fonts/a.bin".toList]
      "/fonts/a.bin".toList .vtt true false :=
    ⟨_, .crlf (.shortDialect (by simp [LooksLikeOption])
      (.file (by simp [LooksLikeOption]) .nothing)), rfl, rfl, rfl, rfl⟩
  have text : disassemble ⟨.vtt, ['\r', '\n']⟩ [0x4e, 0xb1, 0x07]
      = .ok "#PUSHOFF\r\nFLIPOFF[]\t/* SetAutoFlipOff */\r\n#PUSHON".toList := by cbv
  have contents : onlyFile "/fonts/a.bin".toList [0x4e, 0xb1, 0x07] "/fonts/a.bin".toList
      = .ok [0x4e, 0xb1, 0x07] := if_pos rfl
  have hides : (Printer.stamped fun _ => "2024-05-01T10:00:00.000000Z ".toList).HidesDetails :=
    Printer.hidesDetails_stamped _
  have agrees := ((run_agrees hides accepted contents).2 _ _ _ _ names).2
  rw [if_neg Bool.false_ne_true, if_pos rfl, text] at agrees
  exact agrees

end Hinting.CommandLine
