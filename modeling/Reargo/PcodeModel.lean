import Mathlib.Tactic
import Mathlib.Data.BitVec

/-!
# P-code and decoded instructions

The register-transfer language the lifters emit and the emulator and the
decompiler consume, and a decoded instruction with its flow and its text, given
or formatted from the bytes when first read. Machine words are bit vectors of
their width. Their arithmetic, here and in every module, is that of a release
build: sums and differences wrap, shift counts are taken modulo the width.
-/
namespace PcodeModel

abbrev U64 := BitVec 64
abbrev U128 := BitVec 128
abbrev Byte := BitVec 8
abbrev SpaceId := ℕ

instance instLawfulBEqU64 : LawfulBEq U64 := inferInstance

def SpaceId.const : SpaceId := 0
def SpaceId.ram : SpaceId := 1
def SpaceId.register : SpaceId := 2
def SpaceId.unique : SpaceId := 3

/-- All operation codes, in the order of their numbers; `select` is the
decompiler's own and has no counterpart in Ghidra's table. -/
inductive OpCode where
  | copy | load | store | branch | cBranch | branchInd | call | callInd | callOther
  | return | intEqual | intNotEqual | intSLess | intSLessEqual | intLess | intLessEqual
  | intZExt | intSExt | intAdd | intSub | intCarry | intSCarry | intSBorrow | int2Comp
  | intNegate | intXor | intAnd | intOr | intLeft | intRight | intSRight | intMult | intDiv
  | intSDiv | intRem | intSRem | boolNegate | boolXor | boolAnd | boolOr | floatEqual
  | floatNotEqual | floatLess | floatLessEqual | floatNan | floatAdd | floatDiv | floatMult
  | floatSub | floatNeg | floatAbs | floatSqrt | floatInt2Float | floatFloat2Float
  | floatTrunc | floatCeil | floatFloor | floatRound | multiEqual | indirect | piece
  | subpiece | cast | ptrAdd | ptrSub | segmentOp | cPoolRef | new | insert | zPull
  | popCount | lzCount | sPull | select
  deriving DecidableEq, Repr, Inhabited

def OpCode.name : OpCode → String
  | .copy => "COPY"
  | .load => "LOAD"
  | .store => "STORE"
  | .branch => "BRANCH"
  | .cBranch => "CBRANCH"
  | .branchInd => "BRANCHIND"
  | .call => "CALL"
  | .callInd => "CALLIND"
  | .callOther => "CALLOTHER"
  | .return => "RETURN"
  | .intEqual => "INT_EQUAL"
  | .intNotEqual => "INT_NOTEQUAL"
  | .intSLess => "INT_SLESS"
  | .intSLessEqual => "INT_SLESSEQUAL"
  | .intLess => "INT_LESS"
  | .intLessEqual => "INT_LESSEQUAL"
  | .intZExt => "INT_ZEXT"
  | .intSExt => "INT_SEXT"
  | .intAdd => "INT_ADD"
  | .intSub => "INT_SUB"
  | .intCarry => "INT_CARRY"
  | .intSCarry => "INT_SCARRY"
  | .intSBorrow => "INT_SBORROW"
  | .int2Comp => "INT_2COMP"
  | .intNegate => "INT_NEGATE"
  | .intXor => "INT_XOR"
  | .intAnd => "INT_AND"
  | .intOr => "INT_OR"
  | .intLeft => "INT_LEFT"
  | .intRight => "INT_RIGHT"
  | .intSRight => "INT_SRIGHT"
  | .intMult => "INT_MULT"
  | .intDiv => "INT_DIV"
  | .intSDiv => "INT_SDIV"
  | .intRem => "INT_REM"
  | .intSRem => "INT_SREM"
  | .boolNegate => "BOOL_NEGATE"
  | .boolXor => "BOOL_XOR"
  | .boolAnd => "BOOL_AND"
  | .boolOr => "BOOL_OR"
  | .floatEqual => "FLOAT_EQUAL"
  | .floatNotEqual => "FLOAT_NOTEQUAL"
  | .floatLess => "FLOAT_LESS"
  | .floatLessEqual => "FLOAT_LESSEQUAL"
  | .floatNan => "FLOAT_NAN"
  | .floatAdd => "FLOAT_ADD"
  | .floatDiv => "FLOAT_DIV"
  | .floatMult => "FLOAT_MULT"
  | .floatSub => "FLOAT_SUB"
  | .floatNeg => "FLOAT_NEG"
  | .floatAbs => "FLOAT_ABS"
  | .floatSqrt => "FLOAT_SQRT"
  | .floatInt2Float => "FLOAT_INT2FLOAT"
  | .floatFloat2Float => "FLOAT_FLOAT2FLOAT"
  | .floatTrunc => "FLOAT_TRUNC"
  | .floatCeil => "FLOAT_CEIL"
  | .floatFloor => "FLOAT_FLOOR"
  | .floatRound => "FLOAT_ROUND"
  | .multiEqual => "MULTIEQUAL"
  | .indirect => "INDIRECT"
  | .piece => "PIECE"
  | .subpiece => "SUBPIECE"
  | .cast => "CAST"
  | .ptrAdd => "PTRADD"
  | .ptrSub => "PTRSUB"
  | .segmentOp => "SEGMENTOP"
  | .cPoolRef => "CPOOLREF"
  | .new => "NEW"
  | .insert => "INSERT"
  | .zPull => "ZPULL"
  | .popCount => "POPCOUNT"
  | .lzCount => "LZCOUNT"
  | .sPull => "SPULL"
  | .select => "SELECT"

structure VarnodeData where
  space : SpaceId
  offset : U64
  size : ℕ
  deriving DecidableEq, Repr, Inhabited

/-- An operation; its sequence number is not read by any modelled function. -/
structure PcodeOp where
  opcode : OpCode
  output : Option VarnodeData
  inputs : List VarnodeData
  deriving DecidableEq, Repr, Inhabited

def PcodeOp.input (op : PcodeOp) (i : ℕ) : Option VarnodeData := op.inputs[i]?

end PcodeModel

namespace InstructionModel

open PcodeModel

inductive FlowType where
  | fall
  | unconditionalJump
  | conditionalJump
  | call
  | indirectCall
  | indirectJump
  | ret
  deriving DecidableEq, Repr

/-- The text given or formatted, and the bitness to format it with, 0 for a given one. -/
structure DisasmText where
  cell : Option (String × String)
  lazyX86Bitness : Byte
  deriving DecidableEq

structure DecodedInstruction where
  address : U64
  length : BitVec 32
  bytes : List Byte
  flowType : FlowType
  branchTarget : Option U64
  text : DisasmText
  deriving DecidableEq

/-- What formats the text of an x86 instruction: bytes, address and bitness. -/
abbrev FormatText := List Byte → U64 → Byte → String × String

namespace DecodedInstruction

variable (formatText : FormatText) (i : DecodedInstruction)

/-- The mnemonic and the operands. -/
def texts : String × String :=
  match i.text.cell with
  | some t => t
  | none =>
    if i.text.lazyX86Bitness ≠ 0 then formatText i.bytes i.address i.text.lazyX86Bitness
    else ("", "")

def cacheText : Byte × Option (String × String) :=
  (i.text.lazyX86Bitness,
    if i.text.lazyX86Bitness = 0 then some (i.texts formatText) else none)

def fromCacheParts (address : U64) (length : BitVec 32) (bytes : List Byte)
    (flowType : FlowType) (branchTarget : Option U64) (lazyX86Bitness : Byte)
    (text : Option (String × String)) : DecodedInstruction :=
  ⟨address, length, bytes, flowType, branchTarget, ⟨text, lazyX86Bitness⟩⟩

end DecodedInstruction

end InstructionModel
