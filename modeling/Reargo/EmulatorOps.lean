import Reargo.EmulatorMemory

/-!
# The P-code interpreter

`execute_op` over the paged state. Floating-point operations and the lifter's
named intrinsics (`CALLOTHER`) are a parameter: nothing here depends on what they
compute.
-/
namespace EmulatorOps

open PcodeModel EmulatorMemory

inductive EmulatorError where
  | missingOutput (op : String)
  | missingInput (op : String) (index : ℕ)
  | halted (address : U64)
  | branch (target : U64)
  | return (value : U64)
  | call (target : U64)
  | unsupported (what : String)
  deriving DecidableEq, Repr

abbrev Result := Except EmulatorError EmulatorState

/-- The operations left to the parameter of the interpreter. -/
abbrev Uninterpreted := EmulatorState → PcodeOp → Result

def isFloatOpcode : OpCode → Bool
  | .floatEqual | .floatNotEqual | .floatLess | .floatLessEqual | .floatNan | .floatAdd
  | .floatDiv | .floatMult | .floatSub | .floatNeg | .floatAbs | .floatSqrt | .floatInt2Float
  | .floatFloat2Float | .floatTrunc | .floatCeil | .floatFloor | .floatRound => true
  | _ => false

def wrappingShl (a b : U64) : U64 := a <<< (b.toNat % 2 ^ 32 % 64)
def wrappingShr (a b : U64) : U64 := a >>> (b.toNat % 2 ^ 32 % 64)

def signExtendFrom (bits : ℕ) (a : U64) : U64 :=
  (a <<< ((64 - bits) % 64)).sshiftRight ((64 - bits) % 64)

def checkedDiv (a b : U64) : Option U64 := if b = 0 then none else some (a / b)
def checkedRem (a b : U64) : Option U64 := if b = 0 then none else some (a % b)

/-- `i64::checked_div`: no quotient by zero, nor of the minimum by minus one. -/
def checkedSDiv (a b : U64) : Option U64 :=
  if b = 0 ∨ (a = BitVec.intMin 64 ∧ b = -1) then none else some (a.sdiv b)

def checkedSRem (a b : U64) : Option U64 :=
  if b = 0 ∨ (a = BitVec.intMin 64 ∧ b = -1) then none else some (a.srem b)

def countOnes (a : BitVec w) : ℕ := ((List.range w).filter fun i => a.getLsbD i).length
def leadingZeros (a : BitVec w) : ℕ := w - a.toNat.size

def ofBool (b : Bool) : U64 := if b then 1 else 0

def signedOverflow (f : ∀ w, BitVec w → BitVec w → Bool) (size : ℕ) (a b : U64) : Bool :=
  match size with
  | 1 => f 8 (a.setWidth 8) (b.setWidth 8)
  | 2 => f 16 (a.setWidth 16) (b.setWidth 16)
  | 4 => f 32 (a.setWidth 32) (b.setWidth 32)
  | _ => f 64 a b

def needOutput (op : PcodeOp) : Except EmulatorError VarnodeData :=
  match op.output with
  | some out => .ok out
  | none => .error (.missingOutput op.opcode.name)

def needInput (op : PcodeOp) (index : ℕ) : Except EmulatorError VarnodeData :=
  match op.input index with
  | some vn => .ok vn
  | none => .error (.missingInput op.opcode.name index)

def readInput (s : EmulatorState) (op : PcodeOp) (index : ℕ) : Except EmulatorError U64 := do
  let vn ← needInput op index
  return s.readVarnode vn

/-- The size of the first input, eight when there is none, at most eight. -/
def firstSize (op : PcodeOp) : ℕ := min (((op.inputs.head?).map VarnodeData.size).getD 8) 8

def unary (s : EmulatorState) (op : PcodeOp) (f : U64 → U64) : Result := do
  let out ← needOutput op
  let a ← readInput s op 0
  return s.writeVarnode out (f a)

def binary (s : EmulatorState) (op : PcodeOp) (f : U64 → U64 → U64) : Result := do
  let out ← needOutput op
  let a ← readInput s op 0
  let b ← readInput s op 1
  return s.writeVarnode out (f a b)

/-- A whole XMM register at once when the output is wide. -/
def bitwise (s : EmulatorState) (op : PcodeOp) (f : ∀ w, BitVec w → BitVec w → BitVec w) :
    Result := do
  let out ← needOutput op
  match op.input 0, op.input 1 with
  | some a, some b =>
    if out.size > 8 then
      return s.writeWide out (f 128 (s.readWide a) (s.readWide b))
    else return s.writeVarnode out (f 64 (s.readVarnode a) (s.readVarnode b))
  | _, _ => binary s op (f 64)

def intLeft (size : ℕ) (a b : U64) : U64 :=
  if b.toNat ≥ size * 8 then 0 else wrappingShl a b

def intRight (size : ℕ) (a b : U64) : U64 :=
  if b.toNat ≥ size * 8 then 0 else wrappingShr a b

/-- A shift by the width or more replicates the sign bit of the operand's width. -/
def intSRight (size : ℕ) (a b : U64) : U64 :=
  let bits := size * 8
  if b.toNat ≥ bits then
    -- `bits - 1` wraps for no bits
    if (a >>> ((bits + 63) % 64)) &&& 1 = 1 then
      if bits ≥ 64 then BitVec.allOnes 64 else ((1 : U64) <<< bits) - 1
    else 0
  else (signExtendFrom bits a).sshiftRight (b.toNat % 2 ^ 32 % 64)

def intCarry (size : ℕ) (a b : U64) : U64 :=
  let mask : U64 := if size ≥ 8 then BitVec.allOnes 64 else ((1 : U64) <<< (size * 8)) - 1
  let a := a &&& mask
  let b := b &&& mask
  ofBool ((a + b) &&& mask < a)

def intSExtWord (size : ℕ) (a : U64) : U64 :=
  match size with
  | 1 => (a.setWidth 8).signExtend 64
  | 2 => (a.setWidth 16).signExtend 64
  | 4 => (a.setWidth 32).signExtend 64
  | _ => a

def lzCount (size : ℕ) (a : U64) : ℕ :=
  let bits := size * 8
  if bits ≥ 64 then leadingZeros a else min (leadingZeros (a <<< (64 - bits))) bits

def copyOp (s : EmulatorState) (op : PcodeOp) : Result := do
  let out ← needOutput op
  let in_vn ← needInput op 0
  if out.size > 8 then return s.writeWide out (s.readWide in_vn)
  else
    let src ← readInput s op 0
    return s.writeVarnode out src

def multOp (s : EmulatorState) (op : PcodeOp) : Result := do
  let out ← needOutput op
  if out.size > 8 then
    match op.input 0, op.input 1 with
    | some a, some b => return s.writeWide out (s.readWide a * s.readWide b)
    | _, _ => .error (.missingInput "INT_MULT" 1)
  else
    let a ← readInput s op 0
    let b ← readInput s op 1
    return s.writeVarnode out (a * b)

def negateOp (s : EmulatorState) (op : PcodeOp) : Result := do
  let out ← needOutput op
  match op.input 0 with
  | some a =>
    if out.size > 8 then return s.writeWide out (~~~ s.readWide a)
    else return s.writeVarnode out (~~~ s.readVarnode a)
  | none => .error (.missingInput op.opcode.name 0)

def zextOp (s : EmulatorState) (op : PcodeOp) : Result := do
  let out ← needOutput op
  let a ← readInput s op 0
  return s.writeWide out (a.setWidth 128)

def sextOp (s : EmulatorState) (op : PcodeOp) : Result := do
  let out ← needOutput op
  let in_vn ← needInput op 0
  let a := s.readVarnode in_vn
  return s.writeWide out ((intSExtWord in_vn.size a).signExtend 128)

def loadOp (s : EmulatorState) (op : PcodeOp) : Result := do
  let out ← needOutput op
  let _space_id ← readInput s op 0
  let addr ← readInput s op 1
  if out.size > 8 then return s.writeWide out (s.readWide ⟨SpaceId.ram, addr, out.size⟩)
  else return s.writeVarnode out (s.readMemory addr out.size)

def storeOp (s : EmulatorState) (op : PcodeOp) : Result := do
  let space_id ← readInput s op 0
  let addr ← readInput s op 1
  let in_vn ← needInput op 2
  let val := s.readVarnode in_vn
  let space : SpaceId := space_id.toNat % 2 ^ 32
  if in_vn.size > 8 then return s.writeWide ⟨space, addr, in_vn.size⟩ (s.readWide in_vn)
  else if space_id = 1 then return s.writeMemory addr in_vn.size val
  else return s.writeVarnode ⟨space, addr, in_vn.size⟩ val

def pieceOp (s : EmulatorState) (op : PcodeOp) : Result := do
  let out ← needOutput op
  let hi_vn ← needInput op 0
  let lo_vn ← needInput op 1
  if out.size > 8 ∧ lo_vn.size < 16 then
    return s.writeWide out (s.readWide hi_vn <<< (lo_vn.size * 8) ||| s.readWide lo_vn)
  else
    let hi := s.readVarnode hi_vn
    let lo := s.readVarnode lo_vn
    let shift := lo_vn.size * 8 % 2 ^ 32
    return s.writeVarnode out (if shift ≥ 64 then lo else (hi <<< shift) ||| lo)

def subpieceOp (s : EmulatorState) (op : PcodeOp) : Result := do
  let out ← needOutput op
  let in_vn ← needInput op 0
  let a := s.readWide in_vn
  let truncate ← readInput s op 1
  -- `saturating_mul(8)` stays above every wide shift
  let shift := min (truncate.toNat * 8) (2 ^ 64 - 1)
  return s.writeWide out (if shift ≥ 128 then 0 else a >>> shift)

def selectOp (s : EmulatorState) (op : PcodeOp) : Result := do
  let out ← needOutput op
  let c ← readInput s op 0
  let i := if c ≠ 0 then 1 else 2
  let pick ← needInput op i
  return s.writeWide out (s.readWide pick)

def fieldMask (sz : ℕ) : U64 := ((1 : U64) <<< (sz % 64)) - 1

/-- The field width an operation takes from an optional input, one by default. -/
def fieldSize (s : EmulatorState) (op : PcodeOp) (index : ℕ) : Except EmulatorError ℕ :=
  if op.inputs.length > index then do
    let v ← readInput s op index
    return v.toNat % 2 ^ 32
  else return 1

def insertOp (s : EmulatorState) (op : PcodeOp) : Result := do
  let out ← needOutput op
  let base ← readInput s op 0
  let val ← readInput s op 1
  let pos := (← readInput s op 2).toNat % 2 ^ 32
  let sz ← fieldSize s op 3
  let mask := fieldMask sz <<< (pos % 64)
  return s.writeVarnode out ((base &&& ~~~mask) ||| ((val <<< (pos % 64)) &&& mask))

def zPullOp (s : EmulatorState) (op : PcodeOp) : Result := do
  let out ← needOutput op
  let val ← readInput s op 0
  let pos := (← readInput s op 1).toNat % 2 ^ 32
  let sz ← fieldSize s op 2
  return s.writeVarnode out ((val >>> (pos % 64)) &&& fieldMask sz)

def sPullOp (s : EmulatorState) (op : PcodeOp) : Result := do
  let out ← needOutput op
  let val ← readInput s op 0
  let pos := (← readInput s op 1).toNat % 2 ^ 32
  let sz ← fieldSize s op 2
  let extracted := val.sshiftRight (pos % 64) &&& fieldMask sz
  let sign_bit := (1 : U64) <<< ((sz + 63) % 64)
  return s.writeVarnode out
    (if extracted &&& sign_bit ≠ 0 then extracted ||| ~~~ fieldMask sz else extracted)

def passThroughOp (s : EmulatorState) (op : PcodeOp) : Result :=
  match op.output with
  | some out => do
    let val ← if op.inputs ≠ [] then readInput s op 0 else pure 0
    return s.writeVarnode out val
  | none => return s

def execute (un : Uninterpreted) (s : EmulatorState) (op : PcodeOp) : Result :=
  let size := firstSize op
  let signed := signExtendFrom (size * 8)
  if isFloatOpcode op.opcode then un s op
  else match op.opcode with
  | .copy => copyOp s op
  | .intAdd => binary s op fun a b => a + b
  | .intSub => binary s op fun a b => a - b
  | .intMult => multOp s op
  | .intAnd => bitwise s op fun _ a b => a &&& b
  | .intOr => bitwise s op fun _ a b => a ||| b
  | .intXor => bitwise s op fun _ a b => a ^^^ b
  | .intNegate => negateOp s op
  | .int2Comp => unary s op fun a => ~~~a + 1
  | .intLeft => binary s op (intLeft size)
  | .intRight => binary s op (intRight size)
  | .intSRight => binary s op (intSRight size)
  | .intEqual => binary s op fun a b => ofBool (a = b)
  | .intNotEqual => binary s op fun a b => ofBool (a ≠ b)
  | .intLess => binary s op fun a b => ofBool (a < b)
  | .intLessEqual => binary s op fun a b => ofBool (a ≤ b)
  | .intSLess => binary s op fun a b => ofBool ((signed a).slt (signed b))
  | .intSLessEqual => binary s op fun a b => ofBool ((signed a).sle (signed b))
  | .intZExt => zextOp s op
  | .intSExt => sextOp s op
  | .load => loadOp s op
  | .store => storeOp s op
  | .branch => do
    let target ← needInput op 0
    .error (.branch target.offset)
  | .cBranch => do
    let target ← needInput op 0
    let cond ← readInput s op 1
    if cond ≠ 0 then .error (.branch target.offset) else return s
  | .call => do
    let target ← needInput op 0
    .error (.call target.offset)
  | .return => do
    let value ← readInput s op 0
    .error (.return value)
  | .callOther => un s op
  | .piece => pieceOp s op
  | .subpiece => subpieceOp s op
  | .popCount => unary s op fun a => BitVec.ofNat 64 (countOnes a)
  | .lzCount => unary s op fun a => BitVec.ofNat 64 (lzCount size a)
  | .boolNegate => unary s op fun a => ofBool (a = 0)
  | .boolAnd => binary s op fun a b => ofBool (a ≠ 0 ∧ b ≠ 0)
  | .boolOr => binary s op fun a b => ofBool (a ≠ 0 ∨ b ≠ 0)
  | .boolXor => binary s op fun a b => ofBool (decide (a ≠ 0) ^^ decide (b ≠ 0))
  | .intCarry => binary s op (intCarry (((op.inputs.head?).map VarnodeData.size).getD 8))
  | .intSCarry => binary s op fun a b => ofBool (signedOverflow @BitVec.saddOverflow
      (((op.inputs.head?).map VarnodeData.size).getD 8) a b)
  | .intSBorrow => binary s op fun a b => ofBool (signedOverflow @BitVec.ssubOverflow
      (((op.inputs.head?).map VarnodeData.size).getD 8) a b)
  | .intDiv => binary s op fun a b => (checkedDiv a b).getD 0
  | .intSDiv => binary s op fun a b => (checkedSDiv (signed a) (signed b)).getD 0
  | .intRem => binary s op fun a b => (checkedRem a b).getD 0
  | .intSRem => binary s op fun a b => (checkedSRem (signed a) (signed b)).getD 0
  | .insert => insertOp s op
  | .zPull => zPullOp s op
  | .sPull => sPullOp s op
  | .select => selectOp s op
  | .multiEqual | .indirect | .cast | .ptrAdd | .ptrSub | .segmentOp | .cPoolRef | .new =>
    passThroughOp s op
  | .branchInd => do
    let target ← readInput s op 0
    .error (.branch target)
  | .callInd => do
    let target ← readInput s op 0
    .error (.call target)
  | _ => un s op

structure Emulator where
  state : EmulatorState
  stepCount : U64

/-- One step: counted also when it fails, in which case the state is as it was. -/
def Emulator.executeOp (un : Uninterpreted) (em : Emulator) (op : PcodeOp) :
    Emulator × Except EmulatorError Unit :=
  match execute un em.state op with
  | .ok s => (⟨s, em.stepCount + 1⟩, .ok ())
  | .error e => (⟨em.state, em.stepCount + 1⟩, .error e)

end EmulatorOps
