import Reargo.ReaderLaws

/-!
# Bytecode

The decoder of a method's code. Its position only moves forward, so the sweep over the code
ends; no outcome of it is a fault.
-/
namespace Bytecode

open PcodeModel ModifiedUtf8 ClassFiles

inductive Operand where
  | none
  | int (v : U32)
  | local (slot : U16)
  | cp (index : U16)
  | iinc (index : U16) (delta : U16)
  | branch (target : U32)
  | tableSwitch (default low : U32) (targets : List U32)
  | lookupSwitch (default : U32) (pairs : List (U32 × U32))
  | invokeInterface (cp : U16) (count : Byte)
  | multiANewArray (cp : U16) (dims : Byte)
  | newArray (code : Byte)
  deriving DecidableEq, Repr

structure Insn where
  pc : U32
  opcode : Byte
  wide : Bool
  operand : Operand
  deriving DecidableEq, Repr

/-- `(pc as i64 + offset as i64).max(0) as u32`. -/
def target (pc : U32) (offset : ℤ) : U32 := BitVec.ofInt 32 (max (pc.toNat + offset) 0)

def position : ReadM ℕ := fun r => .ok (r.pos, r)

/-- Bytes up to the next multiple of four from the start of the code. -/
def padding (pos : ℕ) : ℕ := (4 - pos % 4) % 4

/-- `(high - low + 1).clamp(0, 1 << 16)`. -/
def tableSize (low high : U32) : ℕ := (min (max (high.toInt - low.toInt + 1) 0) (2 ^ 16)).toNat

def jumpOffset (pc : U32) : ReadM U32 := return target pc (← u32).toInt

def switchPair (pc : U32) : ReadM (U32 × U32) := do
  let key ← u32
  return (key, ← jumpOffset pc)

def tableSwitch (pc : U32) : ReadM Operand := do
  let _ ← bytes (padding (← position))
  let default ← jumpOffset pc
  let low ← u32
  let high ← u32
  return .tableSwitch default low (← times (jumpOffset pc) (tableSize low high))

def lookupSwitch (pc : U32) : ReadM Operand := do
  let _ ← bytes (padding (← position))
  let default ← jumpOffset pc
  let n ← u32
  return .lookupSwitch default (← times (switchPair pc) (min n.toNat (2 ^ 16)))

def isLocal (opcode : ℕ) : Bool :=
  (0x15 ≤ opcode && opcode ≤ 0x19) || (0x36 ≤ opcode && opcode ≤ 0x3a) || opcode = 0xa9

def isBranch (opcode : ℕ) : Bool :=
  (0x99 ≤ opcode && opcode ≤ 0xa8) || opcode = 0xc6 || opcode = 0xc7

/-- Field, method and class operands. -/
def isCp (opcode : ℕ) : Bool :=
  (0xb2 ≤ opcode && opcode ≤ 0xb8) || opcode = 0xbb || opcode = 0xbd || opcode = 0xc0 ||
    opcode = 0xc1

def localOperand (wide : Bool) : ReadM Operand :=
  if wide then return .local (← u16) else return .local ((← u8).setWidth 16)

def iincOperand (wide : Bool) : ReadM Operand :=
  if wide then return .iinc (← u16) (← u16)
  else return .iinc ((← u8).setWidth 16) ((← u8).signExtend 16)

def invokeInterface : ReadM Operand := do
  let cp ← u16
  let count ← u8
  let _ ← u8
  return .invokeInterface cp count

def invokeDynamic : ReadM Operand := do
  let cp ← u16
  let _ ← u16
  return .cp cp

/-- The arms stand in the order of the source: a later range excludes the opcodes before it. -/
def operand (pc : U32) (opcode : Byte) (wide : Bool) : ReadM Operand :=
  let op := opcode.toNat
  if op = 0x10 then return .int ((← u8).signExtend 32)
  else if op = 0x11 then return .int ((← u16).signExtend 32)
  else if op = 0x12 then return .cp ((← u8).setWidth 16)
  else if op = 0x13 ∨ op = 0x14 then return .cp (← u16)
  else if isLocal op then localOperand wide
  else if op = 0x84 then iincOperand wide
  else if isBranch op then return .branch (target pc (← u16).toInt)
  else if op = 0xc8 ∨ op = 0xc9 then return .branch (← jumpOffset pc)
  else if op = 0xaa then tableSwitch pc
  else if op = 0xab then lookupSwitch pc
  else if isCp op then return .cp (← u16)
  else if op = 0xb9 then invokeInterface
  else if op = 0xba then invokeDynamic
  else if op = 0xbc then return .newArray (← u8)
  else if op = 0xc5 then return .multiANewArray (← u16) (← u8)
  else if op ≤ 0xc9 then return .none
  else fail (.error (.badOpcode op pc.toNat))

/-- One round of the sweep. -/
def decodeInsn : ReadM Insn := do
  let pc := BitVec.ofNat 32 (← position)
  let opcode ← u8
  if opcode = 0xc4 then
    let opcode ← u8
    return ⟨pc, opcode, true, ← operand pc opcode true⟩
  else return ⟨pc, opcode, false, ← operand pc opcode false⟩

theorem advances_position : Advances 0 position := by
  intro r a r' h
  cases h
  exact ⟨rfl, le_rfl⟩

theorem advances_jumpOffset (pc : U32) : Advances 0 (jumpOffset pc) :=
  (advances_u32.mono (Nat.zero_le 4)).andThen fun _ => .pure _

theorem advances_tableSwitch (pc : U32) : Advances 0 (tableSwitch pc) :=
  advances_position.andThen fun n => ((advances_bytes (padding n)).mono (Nat.zero_le _)).andThen
    fun _ => (advances_jumpOffset pc).andThen fun _ =>
      (advances_u32.mono (Nat.zero_le 4)).andThen fun low =>
        (advances_u32.mono (Nat.zero_le 4)).andThen fun high =>
          (advances_times (advances_jumpOffset pc) (tableSize low high)).andThen fun _ => .pure _

theorem advances_lookupSwitch (pc : U32) : Advances 0 (lookupSwitch pc) := by
  have pair : Advances 0 (switchPair pc) :=
    (advances_u32.mono (Nat.zero_le 4)).andThen fun _ =>
      (advances_jumpOffset pc).andThen fun _ => .pure _
  exact advances_position.andThen fun n =>
    ((advances_bytes (padding n)).mono (Nat.zero_le _)).andThen fun _ =>
      (advances_jumpOffset pc).andThen fun _ =>
        (advances_u32.mono (Nat.zero_le 4)).andThen fun k =>
          (advances_times pair (min k.toNat (2 ^ 16))).andThen fun _ => .pure _

theorem advances_operand (pc : U32) (opcode : Byte) (wide : Bool) :
    Advances 0 (operand pc opcode wide) := by
  have h8 := advances_u8.mono (Nat.zero_le 1)
  have h16 := advances_u16.mono (Nat.zero_le 2)
  unfold operand localOperand iincOperand
  dsimp only
  repeat' apply Advances.ite
  all_goals first
    | exact .fail _ _
    | exact .pure _
    | exact advances_tableSwitch pc
    | exact advances_lookupSwitch pc
    | exact (advances_jumpOffset pc).andThen fun _ => .pure _
    | exact h8.andThen fun _ => .pure _
    | exact h16.andThen fun _ => .pure _
    | exact h8.andThen fun _ => h8.andThen fun _ => .pure _
    | exact h16.andThen fun _ => h16.andThen fun _ => .pure _
    | exact h16.andThen fun _ => h8.andThen fun _ => .pure _
    | exact h16.andThen fun _ => h8.andThen fun _ => h8.andThen fun _ => .pure _

theorem advances_decodeInsn : Advances 1 decodeInsn := by
  refine advances_position.bind fun n => advances_u8.andThen fun opcode => Advances.ite ?_ ?_
  · exact (advances_u8.mono (Nat.zero_le 1)).andThen fun op =>
      (advances_operand _ op true).andThen fun _ => .pure _
  · exact (advances_operand _ opcode false).andThen fun _ => .pure _

theorem decodeInsn_ok {r r' : Reader} {insn : Insn} (h : decodeInsn r = .ok (insn, r')) :
    r'.data = r.data ∧ r.pos < r'.pos := advances_decodeInsn h

/-- The instructions from the reader's position on. -/
def decodeFrom (r : Reader) : Except Fault (List Insn) :=
  if r.pos < r.data.length then
    match _h : decodeInsn r with
    | .error f => .error f
    | .ok (insn, r') =>
      match decodeFrom r' with
      | .error f => .error f
      | .ok rest => .ok (insn :: rest)
  else .ok []
termination_by r.data.length - r.pos
decreasing_by
  obtain ⟨hd, hp⟩ := decodeInsn_ok _h
  rw [hd]
  omega

def decode (code : List Byte) : Except Fault (List Insn) := decodeFrom ⟨code, 0⟩

theorem safe_position : Safe position := fun _ => .ok _

theorem safe_jumpOffset (pc : U32) : Safe (jumpOffset pc) := safe_u32.bind fun _ => .pure _

theorem safe_tableSwitch (pc : U32) : Safe (tableSwitch pc) :=
  safe_position.bind fun n => (safe_bytes (padding n)).bind fun _ =>
    (safe_jumpOffset pc).bind fun _ => safe_u32.bind fun low => safe_u32.bind fun high =>
      (safe_times (safe_jumpOffset pc) (tableSize low high)).bind fun _ => .pure _

theorem safe_lookupSwitch (pc : U32) : Safe (lookupSwitch pc) := by
  have pair : Safe (switchPair pc) :=
    safe_u32.bind fun _ => (safe_jumpOffset pc).bind fun _ => .pure _
  exact safe_position.bind fun n => (safe_bytes (padding n)).bind fun _ =>
    (safe_jumpOffset pc).bind fun _ => safe_u32.bind fun k =>
      (safe_times pair (min k.toNat (2 ^ 16))).bind fun _ => .pure _

theorem safe_operand (pc : U32) (opcode : Byte) (wide : Bool) : Safe (operand pc opcode wide) := by
  unfold operand localOperand iincOperand
  dsimp only
  repeat' apply Safe.ite
  all_goals first
    | exact .fail _
    | exact .pure _
    | exact safe_tableSwitch pc
    | exact safe_lookupSwitch pc
    | exact (safe_jumpOffset pc).bind fun _ => .pure _
    | exact safe_u8.bind fun _ => .pure _
    | exact safe_u16.bind fun _ => .pure _
    | exact safe_u8.bind fun _ => safe_u8.bind fun _ => .pure _
    | exact safe_u16.bind fun _ => safe_u16.bind fun _ => .pure _
    | exact safe_u16.bind fun _ => safe_u8.bind fun _ => .pure _
    | exact safe_u16.bind fun _ => safe_u8.bind fun _ => safe_u8.bind fun _ => .pure _

theorem safe_decodeInsn : Safe decodeInsn := by
  refine safe_position.bind fun n => safe_u8.bind fun opcode => Safe.ite ?_ ?_
  · exact safe_u8.bind fun op => (safe_operand _ op true).bind fun _ => .pure _
  · exact (safe_operand _ opcode false).bind fun _ => .pure _

theorem ends_decodeFrom (r : Reader) : Ends (decodeFrom r) := by
  fun_induction decodeFrom r with
  | case1 r hr f h => exact Ends.of_error (h ▸ safe_decodeInsn r)
  | case2 r hr insn r' h f hf ih => exact Ends.of_error (hf ▸ ih)
  | case3 r hr insn r' h rest hrest ih => exact .ok _
  | case4 r hr => exact .ok _

theorem ends_decode (code : List Byte) : Ends (decode code) := ends_decodeFrom _

end Bytecode
