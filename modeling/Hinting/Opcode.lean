/-
# `Hinting.Opcode` — from opcodes to operations and back

An opcode belongs to the operation in whose range it lies.  The ranges are
disjoint, so there is at most one (`ofOpcode?_eq_some_iff`); some opcodes lie in
no range and are *unassigned*.  Within a range the distance from the code is the
value of the argument bits (`opcode`, `argument`).
-/
import Hinting.Operation
import Hinting.Numeral

namespace Hinting.Operation

/-! ## Ranges -/

/-- Whether an opcode lies in the operation's range. -/
def owns (op : Operation) (opcode : UInt8) : Bool :=
  op.code ≤ opcode.toNat && opcode.toNat < op.code + 2 ^ op.argBits

def ofOpcode? (opcode : UInt8) : Option Operation :=
  all.find? fun op => op.owns opcode

/-- The opcode of the variant whose argument bits have a given value. -/
def opcode (op : Operation) (value : Nat) : UInt8 := UInt8.ofNat (op.code + value)

/-- The value of the argument bits in an opcode of the operation. -/
def argument (op : Operation) (opcode : UInt8) : Nat := opcode.toNat - op.code

/-- The operation with a given code.  The other opcodes of its range are refused. -/
def ofCode? (code : UInt8) : Option Operation :=
  all.find? fun op => op.code == code.toNat

def noSuchCodeMessage (code : UInt8) : Text :=
  "No discriminant in enum `Operation` matches the value `".toList
    ++ Numeral.decimal code.toNat ++ "`".toList

/-! ## Every opcode has at most one operation -/

theorem eq_or_related_of_pairwise {α : Type} {R : α → α → Prop} {l : List α}
    (h : l.Pairwise R) {a b : α} (ha : a ∈ l) (hb : b ∈ l) : a = b ∨ R a b ∨ R b a := by
  induction h with
  | nil => cases ha
  | cons hx _ ih =>
    rcases List.mem_cons.1 ha with ea | ha <;> rcases List.mem_cons.1 hb with eb | hb
    · exact .inl (ea.trans eb.symm)
    · exact .inr (.inl (ea ▸ hx b hb))
    · exact .inr (.inr (eb ▸ hx a ha))
    · exact ih ha hb

theorem owns_iff {op : Operation} {b : UInt8} :
    op.owns b = true ↔ op.code ≤ b.toNat ∧ b.toNat < op.code + 2 ^ op.argBits := by
  simp [owns]

/-- Ranges are disjoint. -/
theorem eq_of_owns {op op' : Operation} {b : UInt8} (h : op.owns b = true)
    (h' : op'.owns b = true) : op = op' := by
  rw [owns_iff] at h h'
  rcases eq_or_related_of_pairwise all_ascending (mem_all op) (mem_all op') with e | e | e
  · exact e
  · omega
  · omega

theorem owns_of_ofOpcode? {b : UInt8} {op : Operation} (h : ofOpcode? b = some op) :
    op.owns b = true := by
  simpa using List.find?_some (show all.find? (fun op => op.owns b) = some op from h)

theorem ofOpcode?_eq_some_iff {b : UInt8} {op : Operation} :
    ofOpcode? b = some op ↔ op.owns b = true := by
  refine ⟨owns_of_ofOpcode?, fun h => ?_⟩
  cases found : ofOpcode? b with
  | none => exact absurd h (by simpa using List.find?_eq_none.1 found op (mem_all op))
  | some op' => rw [eq_of_owns (owns_of_ofOpcode? found) h]

theorem toNat_opcode {op : Operation} {value : Nat} (h : value < 2 ^ op.argBits) :
    (op.opcode value).toNat = op.code + value := by
  have := op.code_add_lt
  rw [opcode, UInt8.toNat_ofNat']
  exact Nat.mod_eq_of_lt (by omega)

/-- Composing an opcode from an operation and a value of its argument bits, and taking it
apart again. -/
theorem ofOpcode?_opcode {op : Operation} {value : Nat} (h : value < 2 ^ op.argBits) :
    ofOpcode? (op.opcode value) = some op ∧ op.argument (op.opcode value) = value := by
  have e := toNat_opcode h
  refine ⟨ofOpcode?_eq_some_iff.2 (owns_iff.2 (by omega)), ?_⟩
  rw [argument, e]
  omega

theorem opcode_argument {op : Operation} {b : UInt8} (h : ofOpcode? b = some op) :
    op.opcode (op.argument b) = b ∧ op.argument b < 2 ^ op.argBits := by
  have ⟨low, high⟩ := owns_iff.1 (ofOpcode?_eq_some_iff.1 h)
  refine ⟨?_, by rw [argument]; omega⟩
  rw [opcode, argument, Nat.add_sub_cancel' low, UInt8.ofNat_toNat]

end Hinting.Operation
