import Reargo.PcodeModel

/-!
# The MIPS lifter

`lift_word`: the operations of one 32-bit word, from the fields of its encoding. Branch delay
slots are not reordered.
-/
namespace MipsLifter

open PcodeModel

abbrev Word := BitVec 32
abbrev Reg := BitVec 5

def constant (value : U64) (size : ℕ) : VarnodeData := ⟨SpaceId.const, value, size⟩
def ram (addr : U64) : VarnodeData := ⟨SpaceId.ram, addr, 4⟩
def unique (offset : U64) (size : ℕ) : VarnodeData := ⟨SpaceId.unique, offset, size⟩
def register (n : Reg) (size : ℕ) : VarnodeData := ⟨SpaceId.register, n.setWidth 64 * 4, size⟩

def regIn (n : Reg) : VarnodeData := if n = 0 then constant 0 4 else register n 4

/-- A write of the zero register is discarded. -/
def regOut (n : Reg) : Option VarnodeData := if n = 0 then none else some (register n 4)

def loReg : VarnodeData := ⟨SpaceId.register, 34 * 4, 4⟩
def hiReg : VarnodeData := ⟨SpaceId.register, 33 * 4, 4⟩

section Fields

variable (word : Word)

def opcode : BitVec 6 := word.extractLsb' 26 6
def rs : Reg := word.extractLsb' 21 5
def rt : Reg := word.extractLsb' 16 5
def rd : Reg := word.extractLsb' 11 5
def shamt : BitVec 5 := word.extractLsb' 6 5
def funct : BitVec 6 := word.extractLsb' 0 6
def imm16 : BitVec 16 := word.extractLsb' 0 16
def target26 : BitVec 26 := word.extractLsb' 0 26

/-- The immediate operands, sign-extended to 32 bits or not at all. -/
def sextImm : VarnodeData := constant (((imm16 word).signExtend 64) &&& 0xFFFFFFFF) 4
def zextImm : VarnodeData := constant ((imm16 word).setWidth 64) 4

end Fields

/-- What is emitted for a register unless its writes are discarded. -/
def into (n : Reg) (ops : VarnodeData → List PcodeOp) : List PcodeOp :=
  match regOut n with
  | some out => ops out
  | none => []

def binop (n : Reg) (op : OpCode) (a b : VarnodeData) : List PcodeOp :=
  into n fun out => [⟨op, some out, [a, b]⟩]

def nor (n : Reg) (a b : VarnodeData) : List PcodeOp :=
  into n fun out =>
    let tmp := unique 0x100 4
    [⟨.intOr, some tmp, [a, b]⟩, ⟨.intNegate, some out, [tmp]⟩]

/-- A shift by the low five bits of a register. -/
def variableShift (n : Reg) (op : OpCode) (a b : VarnodeData) : List PcodeOp :=
  into n fun out =>
    let amt := unique 0x108 4
    [⟨.intAnd, some amt, [b, constant 0x1F 4]⟩, ⟨op, some out, [a, amt]⟩]

def copyInto (n : Reg) (a : VarnodeData) : List PcodeOp := into n fun out => [⟨.copy, some out, [a]⟩]

def quotients (div rem : OpCode) (a b : VarnodeData) : List PcodeOp :=
  [⟨div, some loReg, [a, b]⟩, ⟨rem, some hiReg, [a, b]⟩]

def special (word : Word) (address : U64) : List PcodeOp :=
  let rs := rs word
  let rt := rt word
  let rd := rd word
  let sa := constant ((shamt word).setWidth 64) 4
  match (funct word).toNat with
  | 0x20 | 0x21 => binop rd .intAdd (regIn rs) (regIn rt)
  | 0x22 | 0x23 => binop rd .intSub (regIn rs) (regIn rt)
  | 0x24 => binop rd .intAnd (regIn rs) (regIn rt)
  | 0x25 => binop rd .intOr (regIn rs) (regIn rt)
  | 0x26 => binop rd .intXor (regIn rs) (regIn rt)
  | 0x27 => nor rd (regIn rs) (regIn rt)
  | 0x2A => binop rd .intSLess (regIn rs) (regIn rt)
  | 0x2B => binop rd .intLess (regIn rs) (regIn rt)
  | 0x00 => binop rd .intLeft (regIn rt) sa
  | 0x02 => binop rd .intRight (regIn rt) sa
  | 0x03 => binop rd .intSRight (regIn rt) sa
  | 0x04 => variableShift rd .intLeft (regIn rt) (regIn rs)
  | 0x06 => variableShift rd .intRight (regIn rt) (regIn rs)
  | 0x07 => variableShift rd .intSRight (regIn rt) (regIn rs)
  | 0x08 => [⟨if rs = 31 then .return else .branchInd, none, [regIn rs]⟩]
  | 0x09 => copyInto rd (constant (address + 8) 4) ++ [⟨.callInd, none, [regIn rs]⟩]
  | 0x0C => [⟨.callOther, none, [constant 0x0C 4]⟩]
  | 0x0D => [⟨.callOther, none, [constant 0x0D 4]⟩]
  | 0x10 => copyInto rd hiReg
  | 0x11 => [⟨.copy, some hiReg, [regIn rs]⟩]
  | 0x12 => copyInto rd loReg
  | 0x13 => [⟨.copy, some loReg, [regIn rs]⟩]
  -- the low product only
  | 0x18 | 0x19 => [⟨.intMult, some loReg, [regIn rs, regIn rt]⟩]
  | 0x1A => quotients .intSDiv .intSRem (regIn rs) (regIn rt)
  | 0x1B => quotients .intDiv .intRem (regIn rs) (regIn rt)
  | _ => [⟨.callOther, none, [constant ((funct word).setWidth 64) 4]⟩]

def branchTarget (word : Word) (address : U64) : U64 :=
  address + 4 + ((imm16 word).signExtend 64 <<< 2)

def jumpTarget (word : Word) (address : U64) : U64 :=
  ((address + 4) &&& 0xF0000000) ||| ((target26 word).setWidth 64 <<< 2)

/-- A comparison and the branch on its result. -/
def branchOn (word : Word) (address : U64) (op : OpCode) (a b : VarnodeData) : List PcodeOp :=
  let cond := unique 0x200 1
  [⟨op, some cond, [a, b]⟩, ⟨.cBranch, none, [ram (branchTarget word address), cond]⟩]

def link (address : U64) : List PcodeOp := copyInto 31 (constant (address + 8) 4)

/-- The branches against zero: the field of `rt` tells which, and whether they link. -/
def regimm (word : Word) (address : U64) : List PcodeOp :=
  let rt := (rt word).toNat
  let isLink := rt ∈ [0x10, 0x11, 0x12, 0x13]
  let isLt := rt ∈ [0x00, 0x02, 0x10, 0x12]
  let isGe := rt ∈ [0x01, 0x03, 0x11, 0x13]
  if ¬ isLt ∧ ¬ isGe then [⟨.callOther, none, [constant (0x0100 ||| BitVec.ofNat 64 rt) 4]⟩]
  else (if isLink then link address else []) ++
    if isLt then branchOn word address .intSLess (regIn (rs word)) (constant 0 4)
    else branchOn word address .intSLessEqual (constant 0 4) (regIn (rs word))

/-- The address of an access, computed first. -/
def addressOf (base : Reg) (offset : VarnodeData) : PcodeOp :=
  ⟨.intAdd, some (unique 0x300 4), [regIn base, offset]⟩

def memorySpace : VarnodeData := constant (BitVec.ofNat 64 SpaceId.ram) 4

def load (rt base : Reg) (offset : VarnodeData) (size : ℕ) (signed : Bool) : List PcodeOp :=
  into rt fun out =>
    addressOf base offset ::
      if size = 4 then [⟨.load, some out, [memorySpace, unique 0x300 4]⟩]
      else
        let loaded := unique 0x310 size
        [⟨.load, some loaded, [memorySpace, unique 0x300 4]⟩,
          ⟨if signed then .intSExt else .intZExt, some out, [loaded]⟩]

def store (rt base : Reg) (offset : VarnodeData) (size : ℕ) : List PcodeOp :=
  let value := if rt = 0 then constant 0 size else register rt size
  [addressOf base offset, ⟨.store, none, [memorySpace, unique 0x300 4, value]⟩]

def liftWord (word : Word) (address : U64) : List PcodeOp :=
  let rs := rs word
  let rt := rt word
  match (opcode word).toNat with
  | 0x00 => special word address
  | 0x01 => regimm word address
  | 0x02 => [⟨.branch, none, [ram (jumpTarget word address)]⟩]
  | 0x03 => link address ++ [⟨.call, none, [ram (jumpTarget word address)]⟩]
  | 0x04 => branchOn word address .intEqual (regIn rs) (regIn rt)
  | 0x05 => branchOn word address .intNotEqual (regIn rs) (regIn rt)
  | 0x06 => branchOn word address .intSLessEqual (regIn rs) (constant 0 4)
  | 0x07 => branchOn word address .intSLess (constant 0 4) (regIn rs)
  | 0x08 | 0x09 => binop rt .intAdd (regIn rs) (sextImm word)
  | 0x0A => binop rt .intSLess (regIn rs) (sextImm word)
  | 0x0B => binop rt .intLess (regIn rs) (sextImm word)
  | 0x0C => binop rt .intAnd (regIn rs) (zextImm word)
  | 0x0D => binop rt .intOr (regIn rs) (zextImm word)
  | 0x0E => binop rt .intXor (regIn rs) (zextImm word)
  | 0x0F => copyInto rt (constant ((imm16 word).setWidth 64 <<< 16) 4)
  | 0x20 => load rt rs (sextImm word) 1 true
  | 0x21 => load rt rs (sextImm word) 2 true
  | 0x23 => load rt rs (sextImm word) 4 false
  | 0x24 => load rt rs (sextImm word) 1 false
  | 0x25 => load rt rs (sextImm word) 2 false
  | 0x28 => store rt rs (sextImm word) 1
  | 0x29 => store rt rs (sextImm word) 2
  | 0x2B => store rt rs (sextImm word) 4
  | _ => [⟨.callOther, none, [constant ((opcode word).setWidth 64 <<< 26) 4]⟩]

end MipsLifter
