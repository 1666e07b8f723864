/-
# `Hinting.Listing` — a program as a table

A listing has a row for each instruction: its offset, its bytes, and the
instruction on one line, indented by its depth.  A program has a listing exactly
if the generic dialect can write it, and its fault is the same.
-/
import Hinting.Disassembly
import Hinting.Table

namespace Hinting

/-- A program and its instructions. -/
structure Listing where
  program : Bytes
  instructions : List Instruction

namespace Listing

/-- The number of bytes that a row shows. -/
def maxListedBytes : Nat := 8

/-- The bytes of an instruction in the program. -/
def bytesOf (l : Listing) (i : Instruction) : Bytes := (l.program.drop i.offset).take i.length

/-- Bytes in hexadecimal, two dots standing for those that are not shown. -/
def bytesText (bytes : Bytes) : Text :=
  [' '].intercalate ((bytes.take maxListedBytes).map fun b => Numeral.hex 2 b.toNat)
    ++ (if maxListedBytes < bytes.length then " ..".toList else [])

def size (l : Listing) : Nat := l.instructions.length

def isEmpty (l : Listing) : Bool := l.instructions.isEmpty

def row (l : Listing) (i : Instruction) : List Text :=
  [Fault.offsetText i.offset, bytesText (l.bytesOf i), i.indented i.text]

def columns : List Column :=
  [⟨"Offset".toList, .right⟩, ⟨"Bytes".toList, .left⟩, ⟨"Instruction".toList, .left⟩]

def table (l : Listing) : Table := ⟨columns, l.instructions.map l.row⟩

def text (l : Listing) : Text := l.table.text

/-! ## Listing a program -/

/-- The client that keeps what the generic dialect can write. -/
def client : Client (Writer × Array Instruction) where
  take s i := (s.1.write i).map fun w => (w, s.2.push i)
  blame s fault := fault.withPartialOutput s.1.text

theorem takeAll_client (p : Bytes) (ending : Ending) : ∀ (is : List Instruction) (w : Writer)
    (rows : Array Instruction),
    (client.takeAll ending (w, rows) is).map (·.map fun s => (⟨p, s.2.toList⟩ : Listing)) =
      (w.writeAll ending is).map (·.map fun _ => ⟨p, rows.toList ++ is⟩) := by
  intro is
  induction is with
  | nil =>
      intro w rows
      rw [Client.takeAll, Writer.writeAll_nil, List.append_nil]
      cases ending.fault? <;> rfl
  | cons i is ih =>
      intro w rows
      cases written : w.write i with
      | error fault =>
          have refused : client.take (w, rows) i = .error fault := by
            simp only [client, written, Except.map]
          rw [client.takeAll_of_error refused, Writer.writeAll_of_error written]
          rfl
      | ok w' =>
          have taken : client.take (w, rows) i = .ok (w', rows.push i) := by
            simp only [client, written, Except.map]
          have rest := ih w' (rows.push i)
          rw [Array.toList_push, List.append_assoc] at rest
          rw [client.takeAll_of_ok taken, Writer.writeAll_of_ok written]
          exact congrArg (Logged.after [.decoded i]) rest

end Listing

/-- The listing of a program, with the events of the run. -/
def listingLogged (program : Bytes) : Logged (Except Fault Listing) :=
  (Listing.client.follow (.start {}, #[]) (.start program)).map fun result =>
    result.map fun s => ⟨program, s.2.toList⟩

def listing (program : Bytes) : Except Fault Listing := (listingLogged program).value

/-- The rows kept are the instructions of the walk, where all of them are written. -/
theorem listingLogged_eq (p : Bytes) :
    listingLogged p = (writeProgram {} p).map fun written =>
      written.map fun _ => ⟨p, (decoding p).instructions⟩ := by
  rw [listingLogged, writeProgram_eq, Client.follow_eq]
  exact Listing.takeAll_client p _ _ _ #[]

end Hinting
