/-
# `Hinting.Operation` — the operations of the instruction set

The operations of the interpreter for font programs, each under its
mnemonic.  An operation owns a contiguous range of opcodes: its **code** is the
first of them, and its **argument bits** are the low opcode bits that select a
variant, so that an operation with `n` argument bits owns `2 ^ n` opcodes.

Only four operations carry operands in the program itself, the pushes.  Three
operations open an indented block and three close one; `ELSE` is in both sets.

The constructors stand in the order of their codes, and `all` lists them in
that order (`all_ascending`).
-/
import Hinting.Text

namespace Hinting

-- A power of a number means the same whatever other instances are in scope.
attribute [instance (1100)] instPowNat

/-- Whether the operands of a push are bytes or words of two bytes. -/
inductive PushWidth where
  | byte | word
  deriving DecidableEq

/-- An operation, under its mnemonic. -/
inductive Operation where
  -- Graphics state: vectors
  | SVTCA | SPVTCA | SFVTCA | SPVTL | SFVTL | SPVFS | SFVFS | GPV | GFV | SFVTPV | ISECT
  -- Graphics state: reference points, zones, rounding
  | SRP0 | SRP1 | SRP2 | SZP0 | SZP1 | SZP2 | SZPS | SLOOP | RTG | RTHG | SMD | ELSE | JMPR
  | SCVTCI | SSWCI | SSW
  -- Stack
  | DUP | POP | CLEAR | SWAP | DEPTH | CINDEX | MINDEX | ALIGNPTS | UTP | LOOPCALL | CALL
  | FDEF | ENDF
  -- Moving points
  | MDAP | IUP | SHP | SHC | SHZ | SHPIX | IP | MSIRP | ALIGNRP | RTDG | MIAP
  -- Variable length pushes
  | NPUSHB | NPUSHW
  -- Storage, CVT, measurement
  | WS | RS | WCVTP | RCVT | GC | SCFS | MD | MPPEM | MPS | FLIPON | FLIPOFF | DEBUG
  -- Logic and control flow
  | LT | LTEQ | GT | GTEQ | EQ | NEQ | ODD | EVEN | IF | EIF | AND | OR | NOT | DELTAP1 | SDB
  | SDS
  -- Arithmetic
  | ADD | SUB | DIV | MUL | ABS | NEG | FLOOR | CEILING | ROUND | NROUND
  -- Deltas, super rounding, jumps
  | WCVTF | DELTAP2 | DELTAP3 | DELTAC1 | DELTAC2 | DELTAC3 | SROUND | S45ROUND | JROT | JROF
  | ROFF | RUTG | RDTG | SANGW | AA
  -- Flipping, scan conversion, misc
  | FLIPPT | FLIPRGON | FLIPRGOFF | SCANCTRL | SDPVTL | GETINFO | IDEF | ROLL | MAX | MIN
  | SCANTYPE | INSTCTRL | GETVARIATION
  -- Fixed length pushes
  | PUSHB | PUSHW
  -- Relative point moves
  | MDRP | MIRP
  deriving DecidableEq

namespace Operation

/-! ## The definition of each operation -/

/-- What the instruction set lays down for an operation. -/
structure Definition where
  /-- The first opcode of the operation's range. -/
  code : Nat
  mnemonic : String
  /-- The descriptive name, written in the comment after an instruction. -/
  description : String

def definition : Operation → Definition
  | .SVTCA => ⟨0x00, "SVTCA", "SetFPVectorToAxis"⟩
  | .SPVTCA => ⟨0x02, "SPVTCA", "SetPVectorToAxis"⟩
  | .SFVTCA => ⟨0x04, "SFVTCA", "SetFVectorToAxis"⟩
  | .SPVTL => ⟨0x06, "SPVTL", "SetPVectorToLine"⟩
  | .SFVTL => ⟨0x08, "SFVTL", "SetFVectorToLine"⟩
  | .SPVFS => ⟨0x0a, "SPVFS", "SetPVectorFromStack"⟩
  | .SFVFS => ⟨0x0b, "SFVFS", "SetFVectorFromStack"⟩
  | .GPV => ⟨0x0c, "GPV", "GetPVector"⟩
  | .GFV => ⟨0x0d, "GFV", "GetFVector"⟩
  | .SFVTPV => ⟨0x0e, "SFVTPV", "SetFVectorToPVector"⟩
  | .ISECT => ⟨0x0f, "ISECT", "MovePtToIntersect"⟩
  | .SRP0 => ⟨0x10, "SRP0", "SetRefPoint0"⟩
  | .SRP1 => ⟨0x11, "SRP1", "SetRefPoint1"⟩
  | .SRP2 => ⟨0x12, "SRP2", "SetRefPoint2"⟩
  | .SZP0 => ⟨0x13, "SZP0", "SetZonePointer0"⟩
  | .SZP1 => ⟨0x14, "SZP1", "SetZonePointer1"⟩
  | .SZP2 => ⟨0x15, "SZP2", "SetZonePointer2"⟩
  | .SZPS => ⟨0x16, "SZPS", "SetZonePointerS"⟩
  | .SLOOP => ⟨0x17, "SLOOP", "SetLoopVariable"⟩
  | .RTG => ⟨0x18, "RTG", "RoundToGrid"⟩
  | .RTHG => ⟨0x19, "RTHG", "RoundToHalfGrid"⟩
  | .SMD => ⟨0x1a, "SMD", "SetMinimumDistance"⟩
  | .ELSE => ⟨0x1b, "ELSE", "Else"⟩
  | .JMPR => ⟨0x1c, "JMPR", "Jump"⟩
  | .SCVTCI => ⟨0x1d, "SCVTCI", "SetCVTCutIn"⟩
  | .SSWCI => ⟨0x1e, "SSWCI", "SetSingleWidthCutIn"⟩
  | .SSW => ⟨0x1f, "SSW", "SetSingleWidth"⟩
  | .DUP => ⟨0x20, "DUP", "DuplicateTopStack"⟩
  | .POP => ⟨0x21, "POP", "PopTopStack"⟩
  | .CLEAR => ⟨0x22, "CLEAR", "ClearStack"⟩
  | .SWAP => ⟨0x23, "SWAP", "SwapTopStack"⟩
  | .DEPTH => ⟨0x24, "DEPTH", "GetDepthStack"⟩
  | .CINDEX => ⟨0x25, "CINDEX", "CopyXToTopStack"⟩
  | .MINDEX => ⟨0x26, "MINDEX", "MoveXToTopStack"⟩
  | .ALIGNPTS => ⟨0x27, "ALIGNPTS", "AlignPts"⟩
  | .UTP => ⟨0x29, "UTP", "UnTouchPt"⟩
  | .LOOPCALL => ⟨0x2a, "LOOPCALL", "LoopAndCallFunction"⟩
  | .CALL => ⟨0x2b, "CALL", "CallFunction"⟩
  | .FDEF => ⟨0x2c, "FDEF", "FunctionDefinition"⟩
  | .ENDF => ⟨0x2d, "ENDF", "EndFunctionDefinition"⟩
  | .MDAP => ⟨0x2e, "MDAP", "MoveDirectAbsPt"⟩
  | .IUP => ⟨0x30, "IUP", "InterpolateUntPts"⟩
  | .SHP => ⟨0x32, "SHP", "ShiftPointByLastPoint"⟩
  | .SHC => ⟨0x34, "SHC", "ShiftContourByLastPt"⟩
  | .SHZ => ⟨0x36, "SHZ", "ShiftZoneByLastPoint"⟩
  | .SHPIX => ⟨0x38, "SHPIX", "ShiftZoneByPixel"⟩
  | .IP => ⟨0x39, "IP", "InterpolatePts"⟩
  | .MSIRP => ⟨0x3a, "MSIRP", "MoveStackIndirRelPt"⟩
  | .ALIGNRP => ⟨0x3c, "ALIGNRP", "AlignRelativePt"⟩
  | .RTDG => ⟨0x3d, "RTDG", "RoundToDoubleGrid"⟩
  | .MIAP => ⟨0x3e, "MIAP", "MoveIndirectAbsPt"⟩
  | .NPUSHB => ⟨0x40, "NPUSHB", "PushNBytes"⟩
  | .NPUSHW => ⟨0x41, "NPUSHW", "PushNWords"⟩
  | .WS => ⟨0x42, "WS", "WriteStore"⟩
  | .RS => ⟨0x43, "RS", "ReadStore"⟩
  | .WCVTP => ⟨0x44, "WCVTP", "WriteCVTInPixels"⟩
  | .RCVT => ⟨0x45, "RCVT", "ReadCVT"⟩
  | .GC => ⟨0x46, "GC", "GetCoordOnPVector"⟩
  | .SCFS => ⟨0x48, "SCFS", "SetCoordFromStackFP"⟩
  | .MD => ⟨0x49, "MD", "MeasureDistance"⟩
  | .MPPEM => ⟨0x4b, "MPPEM", "MeasurePixelPerEm"⟩
  | .MPS => ⟨0x4c, "MPS", "MeasurePointSize"⟩
  | .FLIPON => ⟨0x4d, "FLIPON", "SetAutoFlipOn"⟩
  | .FLIPOFF => ⟨0x4e, "FLIPOFF", "SetAutoFlipOff"⟩
  | .DEBUG => ⟨0x4f, "DEBUG", "DebugCall"⟩
  | .LT => ⟨0x50, "LT", "LessThan"⟩
  | .LTEQ => ⟨0x51, "LTEQ", "LessThenOrEqual"⟩
  | .GT => ⟨0x52, "GT", "GreaterThan"⟩
  | .GTEQ => ⟨0x53, "GTEQ", "GreaterThanOrEqual"⟩
  | .EQ => ⟨0x54, "EQ", "Equal"⟩
  | .NEQ => ⟨0x55, "NEQ", "NotEqual"⟩
  | .ODD => ⟨0x56, "ODD", "Odd"⟩
  | .EVEN => ⟨0x57, "EVEN", "Even"⟩
  | .IF => ⟨0x58, "IF", "If"⟩
  | .EIF => ⟨0x59, "EIF", "EndIf"⟩
  | .AND => ⟨0x5a, "AND", "LogicalAnd"⟩
  | .OR => ⟨0x5b, "OR", "LogicalOr"⟩
  | .NOT => ⟨0x5c, "NOT", "LogicalNot"⟩
  | .DELTAP1 => ⟨0x5d, "DELTAP1", "DeltaExceptionP1"⟩
  | .SDB => ⟨0x5e, "SDB", "SetDeltaBaseInGState"⟩
  | .SDS => ⟨0x5f, "SDS", "SetDeltaShiftInGState"⟩
  | .ADD => ⟨0x60, "ADD", "Add"⟩
  | .SUB => ⟨0x61, "SUB", "Subtract"⟩
  | .DIV => ⟨0x62, "DIV", "Divide"⟩
  | .MUL => ⟨0x63, "MUL", "Multiply"⟩
  | .ABS => ⟨0x64, "ABS", "Absolute"⟩
  | .NEG => ⟨0x65, "NEG", "Negate"⟩
  | .FLOOR => ⟨0x66, "FLOOR", "Floor"⟩
  | .CEILING => ⟨0x67, "CEILING", "Ceiling"⟩
  | .ROUND => ⟨0x68, "ROUND", "Round"⟩
  | .NROUND => ⟨0x6c, "NROUND", "NoRound"⟩
  | .WCVTF => ⟨0x70, "WCVTF", "WriteCVTInFUnits"⟩
  | .DELTAP2 => ⟨0x71, "DELTAP2", "DeltaExceptionP2"⟩
  | .DELTAP3 => ⟨0x72, "DELTAP3", "DeltaExceptionP3"⟩
  | .DELTAC1 => ⟨0x73, "DELTAC1", "DeltaExceptionC1"⟩
  | .DELTAC2 => ⟨0x74, "DELTAC2", "DeltaExceptionC2"⟩
  | .DELTAC3 => ⟨0x75, "DELTAC3", "DeltaExceptionC3"⟩
  | .SROUND => ⟨0x76, "SROUND", "SuperRound"⟩
  | .S45ROUND => ⟨0x77, "S45ROUND", "SuperRound45Degrees"⟩
  | .JROT => ⟨0x78, "JROT", "JumpRelativeOnTrue"⟩
  | .JROF => ⟨0x79, "JROF", "JumpRelativeOnFalse"⟩
  | .ROFF => ⟨0x7a, "ROFF", "RoundOff"⟩
  | .RUTG => ⟨0x7c, "RUTG", "RoundUpToGrid"⟩
  | .RDTG => ⟨0x7d, "RDTG", "RoundDownToGrid"⟩
  | .SANGW => ⟨0x7e, "SANGW", "SetAngleWeight"⟩
  | .AA => ⟨0x7f, "AA", "AdjustAngle"⟩
  | .FLIPPT => ⟨0x80, "FLIPPT", "FlipPoint"⟩
  | .FLIPRGON => ⟨0x81, "FLIPRGON", "FlipRangeOn"⟩
  | .FLIPRGOFF => ⟨0x82, "FLIPRGOFF", "FlipRangeOff"⟩
  | .SCANCTRL => ⟨0x85, "SCANCTRL", "ScanConversionControl"⟩
  | .SDPVTL => ⟨0x86, "SDPVTL", "SetDualPVectorToLine"⟩
  | .GETINFO => ⟨0x88, "GETINFO", "GetInfo"⟩
  | .IDEF => ⟨0x89, "IDEF", "InstructionDefinition"⟩
  | .ROLL => ⟨0x8a, "ROLL", "RollTopThreeStack"⟩
  | .MAX => ⟨0x8b, "MAX", "Maximum"⟩
  | .MIN => ⟨0x8c, "MIN", "Minimum"⟩
  | .SCANTYPE => ⟨0x8d, "SCANTYPE", "ScanType"⟩
  | .INSTCTRL => ⟨0x8e, "INSTCTRL", "SetInstrExecControl"⟩
  | .GETVARIATION => ⟨0x91, "GETVARIATION", "GetVariation"⟩
  | .PUSHB => ⟨0xb0, "PUSHB", "PushBytes"⟩
  | .PUSHW => ⟨0xb8, "PUSHW", "PushWords"⟩
  | .MDRP => ⟨0xc0, "MDRP", "MoveDirectRelPt"⟩
  | .MIRP => ⟨0xe0, "MIRP", "MoveIndirectRelPt"⟩

/-- The first opcode of the operation's range. -/
def code (op : Operation) : Nat := op.definition.code

def mnemonic (op : Operation) : Text := op.definition.mnemonic.toList

def description (op : Operation) : Text := op.definition.description.toList

/-- Every operation, in the order of the codes. -/
def all : List Operation := [
  .SVTCA, .SPVTCA, .SFVTCA, .SPVTL, .SFVTL, .SPVFS, .SFVFS, .GPV, .GFV, .SFVTPV, .ISECT,
  .SRP0, .SRP1, .SRP2, .SZP0, .SZP1, .SZP2, .SZPS, .SLOOP, .RTG, .RTHG, .SMD, .ELSE, .JMPR,
  .SCVTCI, .SSWCI, .SSW,
  .DUP, .POP, .CLEAR, .SWAP, .DEPTH, .CINDEX, .MINDEX, .ALIGNPTS, .UTP, .LOOPCALL, .CALL,
  .FDEF, .ENDF,
  .MDAP, .IUP, .SHP, .SHC, .SHZ, .SHPIX, .IP, .MSIRP, .ALIGNRP, .RTDG, .MIAP,
  .NPUSHB, .NPUSHW,
  .WS, .RS, .WCVTP, .RCVT, .GC, .SCFS, .MD, .MPPEM, .MPS, .FLIPON, .FLIPOFF, .DEBUG,
  .LT, .LTEQ, .GT, .GTEQ, .EQ, .NEQ, .ODD, .EVEN, .IF, .EIF, .AND, .OR, .NOT, .DELTAP1,
  .SDB, .SDS,
  .ADD, .SUB, .DIV, .MUL, .ABS, .NEG, .FLOOR, .CEILING, .ROUND, .NROUND,
  .WCVTF, .DELTAP2, .DELTAP3, .DELTAC1, .DELTAC2, .DELTAC3, .SROUND, .S45ROUND, .JROT,
  .JROF, .ROFF, .RUTG, .RDTG, .SANGW, .AA,
  .FLIPPT, .FLIPRGON, .FLIPRGOFF, .SCANCTRL, .SDPVTL, .GETINFO, .IDEF, .ROLL, .MAX, .MIN,
  .SCANTYPE, .INSTCTRL, .GETVARIATION,
  .PUSHB, .PUSHW,
  .MDRP, .MIRP]

/-- The operation with a mnemonic, which has to be given exactly. -/
def ofMnemonic? (name : Text) : Option Operation :=
  all.find? fun op => op.mnemonic == name

def unknownNameMessage : Text := "Matching variant not found".toList

/-! ## Argument bits and operands -/

/-- The number of low opcode bits that select a variant of the operation. -/
def argBits : Operation → Nat
  | .SVTCA | .SPVTCA | .SFVTCA | .SPVTL | .SFVTL | .MDAP | .IUP | .SHP | .SHC | .SHZ
  | .MSIRP | .MIAP | .GC | .MD | .SDPVTL => 1
  | .ROUND | .NROUND => 2
  | .PUSHB | .PUSHW => 3
  | .MDRP | .MIRP => 5
  | _ => 0

/-- The argument bits of the largest family. -/
def maxArgBits : Nat := 5

/-- The width of the operands that follow the opcode; only a push has operands. -/
def pushWidth? : Operation → Option PushWidth
  | .NPUSHB | .PUSHB => some .byte
  | .NPUSHW | .PUSHW => some .word
  | _ => none

def isPush (op : Operation) : Bool := op.pushWidth?.isSome

/-- Whether the opcode itself tells the number of operands.  The other pushes tell it
in a byte after the opcode. -/
def hasInlineCount : Operation → Bool
  | .PUSHB | .PUSHW => true
  | _ => false

/-- Whether the operation can push a number of values at once. -/
def admitsCount (op : Operation) (count : Nat) : Bool :=
  if op.hasInlineCount then 1 ≤ count && count ≤ 8 else count ≤ 255

/-! ## Blocks and jumps -/

/-- Whether the instructions that follow stand one level deeper. -/
def opensBlock : Operation → Bool
  | .IF | .ELSE | .FDEF => true
  | _ => false

/-- Whether the instruction itself and those that follow stand one level less deep. -/
def closesBlock : Operation → Bool
  | .EIF | .ELSE | .ENDF => true
  | _ => false

/-- The relative jumps that the VTT dialect writes with placeholders for their operands. -/
def isVttJump : Operation → Bool
  | .JMPR | .JROF => true
  | _ => false

/-- The jumps that take a condition from the stack. -/
def isConditionalJump : Operation → Bool
  | .JROF | .JROT => true
  | _ => false

/-! ## The table as a whole -/

theorem mem_all (op : Operation) : op ∈ all := by
  cases op <;> decide

/-- Each range of opcodes ends before the next one begins. -/
theorem all_ascending :
    all.Pairwise fun a b => a.code + 2 ^ a.argBits ≤ b.code := by
  decide +kernel

theorem code_add_lt (op : Operation) : op.code + 2 ^ op.argBits ≤ 256 := by
  cases op <;> decide

theorem argBits_le (op : Operation) : op.argBits ≤ maxArgBits := by
  cases op <;> decide

theorem isPush_of_pushWidth? {op : Operation} {w : PushWidth} (h : op.pushWidth? = some w) :
    op.isPush = true := by
  rw [isPush, h]
  rfl

theorem isPush_eq_false {op : Operation} (h : op.pushWidth? = none) : op.isPush = false := by
  rw [isPush, h]
  rfl

/-- A push with an inline count has three argument bits for it, any other push has none. -/
theorem argBits_of_isPush {op : Operation} (h : op.isPush = true) :
    op.argBits = if op.hasInlineCount then 3 else 0 := by
  revert h; cases op <;> decide

theorem ofMnemonic?_mnemonic (op : Operation) : ofMnemonic? op.mnemonic = some op := by
  have table : ∀ op ∈ all, ofMnemonic? op.mnemonic = some op := by decide +kernel
  exact table op (mem_all op)

end Operation

end Hinting
