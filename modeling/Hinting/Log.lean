/-
# `Hinting.Log` — the events of a run

A run reports what it does in events: one for each instruction decoded, a warning
for a push that is cut off, and one at either end of a disassembly.  A value
together with the events on the way to it is a `Logged` value, the events in the
order in which they happened.
-/
import Hinting.Dialect
import Hinting.Fault

namespace Hinting

/-! ## Events -/

/-- How much an event matters. -/
inductive Level where
  | error | warning | info | debug | trace
  deriving DecidableEq

namespace Level

def name : Level → Text
  | error => "ERROR".toList
  | warning => "WARN".toList
  | info => "INFO".toList
  | debug => "DEBUG".toList
  | trace => "TRACE".toList

/-- Whether an event matters less than information does. -/
def isDetail : Level → Bool
  | debug | trace => true
  | error | warning | info => false

end Level

/-- A push without all of its operands, at the end of a program. -/
structure CutOff where
  operation : Operation
  offset : Nat
  /-- The length of the program. -/
  programEnd : Nat
  deriving DecidableEq

inductive Event where
  /-- An instruction was decoded. -/
  | decoded (instruction : Instruction)
  /-- A push was dropped because its operands are cut off. -/
  | missingOperands (push : CutOff)
  /-- A program of so many bytes is about to be written in a dialect. -/
  | disassembling (bytes : Nat) (dialect : Dialect)
  /-- A program was written in so many lines. -/
  | disassembled (lines : Nat)
  deriving DecidableEq

namespace Event

inductive Field where
  | number (n : Nat)
  | text (t : Text)
  deriving DecidableEq

def level : Event → Level
  | decoded _ => .trace
  | missingOperands _ => .warning
  | disassembling _ _ | disassembled _ => .debug

/-- The part of the program that an event comes from. -/
def target : Event → Text
  | decoded _ | missingOperands _ => "ttdisasm::bytecode::binary".toList
  | disassembling _ _ | disassembled _ => "ttdisasm::bytecode::assembly".toList

def message : Event → Text
  | decoded _ => "decoded".toList
  | missingOperands push =>
    push.operation.mnemonic ++ " at offset ".toList ++ Fault.offsetText push.offset
      ++ " is missing operands; the stream ends at ".toList ++ Fault.offsetText push.programEnd
  | disassembling _ _ => "disassembling".toList
  | disassembled _ => "disassembled".toList

/-- What an event tells beside its message. -/
def fields : Event → List (Text × Field)
  | decoded i =>
    [("offset".toList, .number i.offset), ("opcode".toList, .number i.opcode.toNat),
      ("mnemonic".toList, .text i.mnemonic), ("indent".toList, .number i.indent)]
  | missingOperands _ => []
  | disassembling bytes dialect =>
    [("bytes".toList, .number bytes), ("dialect".toList, .text dialect.name)]
  | disassembled lines => [("lines".toList, .number lines)]

end Event

/-- What is reported of an event. -/
structure Entry where
  level : Level
  target : Text
  message : Text
  fields : List (Text × Event.Field)

def Event.entry (e : Event) : Entry := ⟨e.level, e.target, e.message, e.fields⟩

/-! ## Values with their events -/

structure Logged (α : Type) where
  value : α
  events : List Event

namespace Logged

def map {α β : Type} (f : α → β) (l : Logged α) : Logged β := ⟨f l.value, l.events⟩

/-- The value with more events before the others. -/
def after {α : Type} (es : List Event) (l : Logged α) : Logged α := ⟨l.value, es ++ l.events⟩

/-- The value with one more event behind the others. -/
def snoc {α : Type} (l : Logged α) (e : Event) : Logged α := ⟨l.value, l.events ++ [e]⟩

end Logged

end Hinting
