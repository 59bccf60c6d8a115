import Reargo.Bytecode

/-!
# Assembled bytecode

The instruction set with its operand formats and its encoding, written from the instruction set's
own rules: big-endian operands, branch offsets relative to the instruction, switches padded to a
multiple of four. The decoder gives back every method that is assembled so.
-/
namespace BytecodeAssembly

open PcodeModel ModifiedUtf8 ClassFiles Bytecode List BitVec Bool

inductive Instruction where
  | plain (opcode : Byte)
  | bipush (v : Byte)
  | sipush (v : U16)
  | ldc (index : Byte)
  | indexed (opcode : Byte) (index : U16)
  | slot (opcode : Byte) (index : Byte)
  | wideSlot (opcode : Byte) (index : U16)
  | iinc (index : Byte) (delta : Byte)
  | wideIinc (index : U16) (delta : U16)
  | branch (opcode : Byte) (target : ℕ)
  | wideBranch (opcode : Byte) (target : ℕ)
  | tableswitch (default : ℕ) (low : ℤ) (targets : List ℕ)
  | lookupswitch (default : ℕ) (pairs : List (U32 × ℕ))
  | invokeinterface (index : U16) (count : Byte)
  | invokedynamic (index : U16)
  | newarray (code : Byte)
  | multianewarray (index : U16) (dims : Byte)

/-- No operand: constants, array accesses, stack, arithmetic, conversions, returns, monitors. -/
def Plain (op : ℕ) : Prop :=
  op ≤ 0x0f ∨ (0x1a ≤ op ∧ op ≤ 0x35) ∨ (0x3b ≤ op ∧ op ≤ 0x83) ∨ (0x85 ≤ op ∧ op ≤ 0x98) ∨
    (0xac ≤ op ∧ op ≤ 0xb1) ∨ op = 0xbe ∨ op = 0xbf ∨ op = 0xc2 ∨ op = 0xc3

/-- An index of the constant pool: `ldc_w`, `ldc2_w`, members and classes. -/
def Indexed (op : ℕ) : Prop :=
  op = 0x13 ∨ op = 0x14 ∨ (0xb2 ≤ op ∧ op ≤ 0xb8) ∨ op = 0xbb ∨ op = 0xbd ∨ op = 0xc0 ∨ op = 0xc1

/-- A local variable: loads, stores and `ret`. -/
def Slot (op : ℕ) : Prop := (0x15 ≤ op ∧ op ≤ 0x19) ∨ (0x36 ≤ op ∧ op ≤ 0x3a) ∨ op = 0xa9

/-- A 16-bit offset: conditional branches, `goto` and `jsr`. -/
def Branch (op : ℕ) : Prop := (0x99 ≤ op ∧ op ≤ 0xa8) ∨ op = 0xc6 ∨ op = 0xc7

namespace Instruction

def opcode : Instruction → Byte
  | plain op | indexed op _ | slot op _ | wideSlot op _ | branch op _ | wideBranch op _ => op
  | bipush _ => 0x10
  | sipush _ => 0x11
  | ldc _ => 0x12
  | iinc .. | wideIinc .. => 0x84
  | tableswitch .. => 0xaa
  | lookupswitch .. => 0xab
  | invokeinterface .. => 0xb9
  | invokedynamic _ => 0xba
  | newarray _ => 0xbc
  | multianewarray .. => 0xc5

/-- An instruction at a position of a method of a size: its opcode is one of its format, its
operands are in range, its targets inside the method. -/
def Valid (size pc : ℕ) : Instruction → Prop
  | plain op => Plain op.toNat
  | indexed op _ => Indexed op.toNat
  | slot op _ | wideSlot op _ => Slot op.toNat
  | branch op t => Branch op.toNat ∧ t < size ∧ -2 ^ 15 ≤ (t : ℤ) - pc ∧ (t : ℤ) - pc < 2 ^ 15
  | wideBranch op t => (op.toNat = 0xc8 ∨ op.toNat = 0xc9) ∧ t < size
  | tableswitch default low targets => default < size ∧ (∀ t ∈ targets, t < size) ∧
      targets ≠ [] ∧ -2 ^ 31 ≤ low ∧ low + targets.length - 1 < 2 ^ 31
  | lookupswitch default pairs => default < size ∧ ∀ p ∈ pairs, p.2 < size
  | _ => True

end Instruction

theorem opcodes_covered (op : Byte) (h : op.toNat ≤ 0xc9) (hw : op.toNat ≠ 0xc4) :
    ∃ i : Instruction, i.opcode = op ∧ i.Valid 1 0 := by
  by_cases hp : Plain op.toNat
  · exact ⟨.plain op, rfl, hp⟩
  by_cases hx : Indexed op.toNat
  · exact ⟨.indexed op 0, rfl, hx⟩
  by_cases hs : Slot op.toNat
  · exact ⟨.slot op 0, rfl, hs⟩
  by_cases hb : Branch op.toNat
  · exact ⟨.branch op 0, rfl, hb, by decide, by decide, by decide⟩
  by_cases hj : op.toNat = 0xc8 ∨ op.toNat = 0xc9
  · exact ⟨.wideBranch op 0, rfl, hj, by decide⟩
  have single (n : ℕ) (hn : n < 2 ^ 8) (ho : op.toNat = n) : BitVec.ofNat 8 n = op := by
    rw [← ho, BitVec.ofNat_toNat, setWidth_eq]
  unfold Plain at hp
  unfold Indexed at hx
  unfold Slot at hs
  unfold Branch at hb
  have left : op.toNat = 0x10 ∨ op.toNat = 0x11 ∨ op.toNat = 0x12 ∨ op.toNat = 0x84 ∨
      op.toNat = 0xaa ∨ op.toNat = 0xab ∨ op.toNat = 0xb9 ∨ op.toNat = 0xba ∨ op.toNat = 0xbc ∨
      op.toNat = 0xc5 := by omega
  rcases left with h | h | h | h | h | h | h | h | h | h
  · exact ⟨.bipush 0, single _ (by decide) h, trivial⟩
  · exact ⟨.sipush 0, single _ (by decide) h, trivial⟩
  · exact ⟨.ldc 0, single _ (by decide) h, trivial⟩
  · exact ⟨.iinc 0 0, single _ (by decide) h, trivial⟩
  · exact ⟨.tableswitch 0 0 [0], single _ (by decide) h, by decide, by simp, by simp, by decide,
      by decide⟩
  · exact ⟨.lookupswitch 0 [], single _ (by decide) h, by decide, by simp⟩
  · exact ⟨.invokeinterface 0 0, single _ (by decide) h, trivial⟩
  · exact ⟨.invokedynamic 0, single _ (by decide) h, trivial⟩
  · exact ⟨.newarray 0, single _ (by decide) h, trivial⟩
  · exact ⟨.multianewarray 0 0, single _ (by decide) h, trivial⟩

def offset16 (pc t : ℕ) : U16 := BitVec.ofInt 16 ((t : ℤ) - pc)

def offset32 (pc t : ℕ) : U32 := BitVec.ofInt 32 ((t : ℤ) - pc)

/-- Zero to three bytes, so that the operands of a switch start at a multiple of four. -/
def pad (pc : ℕ) : List Byte := List.replicate (3 - pc % 4) 0

def encode (pc : ℕ) : Instruction → List Byte
  | .plain op => [op]
  | .bipush v => [0x10, v]
  | .sipush v => 0x11 :: be16 v
  | .ldc i => [0x12, i]
  | .indexed op i => op :: be16 i
  | .slot op i => [op, i]
  | .wideSlot op i => 0xc4 :: op :: be16 i
  | .iinc i d => [0x84, i, d]
  | .wideIinc i d => 0xc4 :: 0x84 :: (be16 i ++ be16 d)
  | .branch op t => op :: be16 (offset16 pc t)
  | .wideBranch op t => op :: be32 (offset32 pc t)
  | .tableswitch default low targets =>
    0xaa :: (pad pc ++ (be32 (offset32 pc default) ++ (be32 (BitVec.ofInt 32 low) ++
      (be32 (BitVec.ofInt 32 (low + targets.length - 1)) ++
        targets.flatMap fun t => be32 (offset32 pc t)))))
  | .lookupswitch default pairs =>
    0xab :: (pad pc ++ (be32 (offset32 pc default) ++ (be32 (BitVec.ofNat 32 pairs.length) ++
      pairs.flatMap fun p => be32 p.1 ++ be32 (offset32 pc p.2))))
  | .invokeinterface i n => 0xb9 :: (be16 i ++ [n, 0])
  | .invokedynamic i => 0xba :: (be16 i ++ [0, 0])
  | .newarray c => [0xbc, c]
  | .multianewarray i d => 0xc5 :: (be16 i ++ [d])

/-- What a decoder has to say of the operands: values with their sign, targets as positions. -/
def meaning : Instruction → Operand
  | .plain _ => .none
  | .bipush v => .int (BitVec.ofInt 32 v.toInt)
  | .sipush v => .int (BitVec.ofInt 32 v.toInt)
  | .ldc i => .cp (BitVec.ofNat 16 i.toNat)
  | .indexed _ i => .cp i
  | .slot _ i => .local (BitVec.ofNat 16 i.toNat)
  | .wideSlot _ i => .local i
  | .iinc i d => .iinc (BitVec.ofNat 16 i.toNat) (BitVec.ofInt 16 d.toInt)
  | .wideIinc i d => .iinc i d
  | .branch _ t | .wideBranch _ t => .branch (BitVec.ofNat 32 t)
  | .tableswitch default low targets =>
    .tableSwitch (BitVec.ofNat 32 default) (BitVec.ofInt 32 low) (targets.map (BitVec.ofNat 32))
  | .lookupswitch default pairs =>
    .lookupSwitch (BitVec.ofNat 32 default) (pairs.map fun p => (p.1, BitVec.ofNat 32 p.2))
  | .invokeinterface i n => .invokeInterface i n
  | .invokedynamic i => .cp i
  | .newarray c => .newArray c
  | .multianewarray i d => .multiANewArray i d

def isWide : Instruction → Bool
  | .wideSlot .. | .wideIinc .. => true
  | _ => false

/-- The decoded form of an instruction at a position. -/
def insnAt (pc : ℕ) (i : Instruction) : Insn := ⟨BitVec.ofNat 32 pc, i.opcode, isWide i, meaning i⟩

def assemble (pc : ℕ) : List Instruction → List Byte
  | [] => []
  | i :: rest => encode pc i ++ assemble (pc + (encode pc i).length) rest

def listing (pc : ℕ) : List Instruction → List Insn
  | [] => []
  | i :: rest => insnAt pc i :: listing (pc + (encode pc i).length) rest

def Laid (size pc : ℕ) : List Instruction → Prop
  | [] => True
  | i :: rest => i.Valid size pc ∧ Laid size (pc + (encode pc i).length) rest

structure MethodBody where
  instructions : List Instruction
  fits : (assemble 0 instructions).length ≤ 65535
  valid : Laid (assemble 0 instructions).length 0 instructions

def MethodBody.bytes (m : MethodBody) : List Byte := assemble 0 m.instructions

def MethodBody.insns (m : MethodBody) : List Insn := listing 0 m.instructions

example : assemble 0 [.plain 0x1a, .branch 0x99 6, .iinc 1 0xff, .wideSlot 0x15 300,
    .branch 0xa7 0] = [0x1a, 0x99, 0x00, 0x05, 0x84, 0x01, 0xff, 0xc4, 0x15, 0x01, 0x2c, 0xa7, 0xff,
      0xf5] := by decide

theorem target_of_offset {pc t : ℕ} {v : ℤ} (hpc : pc < 2 ^ 32) (hv : v = (t : ℤ) - pc) :
    target (BitVec.ofNat 32 pc) v = BitVec.ofNat 32 t := by
  have at_pc : (BitVec.ofNat 32 pc).toNat = pc := by
    rw [toNat_ofNat, Nat.mod_eq_of_lt hpc]
  have sum : max ((pc : ℤ) + v) 0 = (t : ℤ) := by omega
  rw [target, at_pc, sum, ofInt_natCast]

theorem offset16_toInt {pc t : ℕ} (h₁ : -2 ^ 15 ≤ (t : ℤ) - pc) (h₂ : (t : ℤ) - pc < 2 ^ 15) :
    (offset16 pc t).toInt = (t : ℤ) - pc := by
  rw [offset16, toInt_ofInt]
  apply Int.bmod_eq_of_le
  · simpa using h₁
  · simpa using h₂

theorem offset32_toInt {pc t : ℕ} (hpc : pc < 2 ^ 31) (ht : t < 2 ^ 31) :
    (offset32 pc t).toInt = (t : ℤ) - pc := by
  rw [offset32, toInt_ofInt]
  apply Int.bmod_eq_of_le <;> omega

theorem padding_pad (pc : ℕ) : padding (pc + 1) = (pad pc).length := by
  unfold padding pad
  rw [length_replicate]
  omega

theorem reads_position (pos : ℕ) : Reads pos position [] pos := fun _ _ _ => rfl

theorem reads_jumpOffset {pc t : ℕ} (pos : ℕ) (hpc : pc < 2 ^ 31) (ht : t < 2 ^ 31) :
    Reads pos (jumpOffset (BitVec.ofNat 32 pc)) (be32 (offset32 pc t)) (BitVec.ofNat 32 t) := by
  have h := (reads_u32 pos (offset32 pc t)).map fun v => target (BitVec.ofNat 32 pc) v.toInt
  rwa [target_of_offset (by omega) (offset32_toInt hpc ht)] at h

variable {op : Byte}

/-- The arm of an opcode of a format: the arms before it are for other opcodes. -/
theorem operand_plain (h : Plain op.toNat) (pc : U32) (wide : Bool) :
    operand pc op wide = return .none := by
  unfold Plain at h
  unfold operand isLocal isBranch isCp
  simp only [or_eq_true, and_eq_true, decide_eq_true_eq]
  repeat rw [if_neg (by omega)]
  rw [if_pos (by omega)]

theorem operand_indexed (h : Indexed op.toNat) (pc : U32) (wide : Bool) :
    operand pc op wide = return .cp (← u16) := by
  unfold Indexed at h
  unfold operand isLocal isBranch isCp
  simp only [or_eq_true, and_eq_true, decide_eq_true_eq]
  by_cases ldc : op.toNat = 0x13 ∨ op.toNat = 0x14
  · repeat rw [if_neg (by omega)]
    rw [if_pos ldc]
  · repeat rw [if_neg (by omega)]
    rw [if_pos (by omega)]

theorem operand_slot (h : Slot op.toNat) (pc : U32) (wide : Bool) :
    operand pc op wide = localOperand wide := by
  unfold Slot at h
  unfold operand isLocal isBranch isCp
  simp only [or_eq_true, and_eq_true, decide_eq_true_eq]
  repeat rw [if_neg (by omega)]
  rw [if_pos (by omega)]

theorem operand_branch (h : Branch op.toNat) (pc : U32) (wide : Bool) :
    operand pc op wide = return .branch (target pc (← u16).toInt) := by
  unfold Branch at h
  unfold operand isLocal isBranch isCp
  simp only [or_eq_true, and_eq_true, decide_eq_true_eq]
  repeat rw [if_neg (by omega)]
  rw [if_pos (by omega)]

theorem operand_wideBranch (h : op.toNat = 0xc8 ∨ op.toNat = 0xc9) (pc : U32)
    (wide : Bool) : operand pc op wide = return .branch (← jumpOffset pc) := by
  unfold operand isLocal isBranch isCp
  simp only [or_eq_true, and_eq_true, decide_eq_true_eq]
  repeat rw [if_neg (by omega)]
  rw [if_pos (by omega)]

theorem byte_widened (b : Byte) : b.setWidth 16 = BitVec.ofNat 16 b.toNat := by
  apply eq_of_toNat_eq
  simp

theorem reads_tableswitch {size pc default : ℕ} {low : ℤ} {targets : List ℕ} (hsize : size ≤ 65535)
    (hpc : pc < 2 ^ 31) (hv : (Instruction.tableswitch default low targets).Valid size pc)
    (hn : targets.length ≤ 2 ^ 16) :
    Reads (pc + 1) (tableSwitch (BitVec.ofNat 32 pc))
      (pad pc ++ (be32 (offset32 pc default) ++ (be32 (BitVec.ofInt 32 low) ++
        (be32 (BitVec.ofInt 32 (low + targets.length - 1)) ++
          targets.flatMap fun t => be32 (offset32 pc t)))))
      (meaning (.tableswitch default low targets)) := by
  obtain ⟨hd, ht, nonempty, hlow, hhigh⟩ := hv
  have some : 0 < targets.length := length_pos_iff.mpr nonempty
  have lowInt : (BitVec.ofInt 32 low).toInt = low := by
    rw [toInt_ofInt]
    apply Int.bmod_eq_of_le <;> omega
  have highInt : (BitVec.ofInt 32 (low + targets.length - 1)).toInt = low + targets.length - 1 := by
    rw [toInt_ofInt]
    apply Int.bmod_eq_of_le <;> omega
  have count : tableSize (BitVec.ofInt 32 low) (BitVec.ofInt 32 (low + targets.length - 1)) =
      targets.length := by
    unfold tableSize
    rw [lowInt, highInt]
    omega
  have arm (t : ℕ) (h : t ∈ targets) (pos : ℕ) : Reads pos (jumpOffset (BitVec.ofNat 32 pc))
      (be32 (offset32 pc t)) (BitVec.ofNat 32 t) :=
    reads_jumpOffset pos hpc (by have := ht t h; omega)
  have arms (pos : ℕ) := reads_times targets arm pos
  have skip := reads_bytes (pc + 1) (pad pc)
  rw [← padding_pad] at skip
  refine (reads_position (pc + 1)).bind (skip.bind ((reads_jumpOffset _ hpc (by omega)).bind
    ((reads_u32 _ _).bind ((reads_u32 _ _).bind ?_))))
  rw [count]
  exact (arms _).map fun ts => Operand.tableSwitch _ _ ts

theorem reads_lookupswitch {size pc default : ℕ} {pairs : List (U32 × ℕ)} (hsize : size ≤ 65535)
    (hpc : pc < 2 ^ 31) (hv : (Instruction.lookupswitch default pairs).Valid size pc)
    (hn : pairs.length ≤ 2 ^ 16) :
    Reads (pc + 1) (lookupSwitch (BitVec.ofNat 32 pc))
      (pad pc ++ (be32 (offset32 pc default) ++ (be32 (BitVec.ofNat 32 pairs.length) ++
        pairs.flatMap fun p => be32 p.1 ++ be32 (offset32 pc p.2))))
      (meaning (.lookupswitch default pairs)) := by
  obtain ⟨hd, ht⟩ := hv
  have count : min (BitVec.ofNat 32 pairs.length).toNat (2 ^ 16) = pairs.length := by
    rw [toNat_ofNat]
    omega
  have pair (p : U32 × ℕ) (hp : p ∈ pairs) (pos : ℕ) : Reads pos (switchPair (BitVec.ofNat 32 pc))
      (be32 p.1 ++ be32 (offset32 pc p.2)) (p.1, BitVec.ofNat 32 p.2) :=
    (reads_u32 pos p.1).bind ((reads_jumpOffset _ hpc (by have := ht p hp; omega)).map
      fun t => (p.1, t))
  have arms (pos : ℕ) := reads_times pairs pair pos
  have skip := reads_bytes (pc + 1) (pad pc)
  rw [← padding_pad] at skip
  refine (reads_position (pc + 1)).bind (skip.bind ((reads_jumpOffset _ hpc (by omega)).bind
    ((reads_u32 _ _).bind ?_)))
  rw [count]
  exact (arms _).map fun ps => Operand.lookupSwitch _ ps

/-- An instruction without the prefix, from its operand's arm. -/
theorem reads_narrow {pc : ℕ} {enc : List Byte} {v : Operand} (hop : op ≠ 0xc4)
    (h : Reads (pc + 1) (operand (BitVec.ofNat 32 pc) op false) enc v) :
    Reads pc decodeInsn (op :: enc) ⟨BitVec.ofNat 32 pc, op, false, v⟩ := by
  refine (reads_position pc).bind (d := op :: enc) ((reads_u8 pc op).bind (d := enc) ?_)
  rw [if_neg hop]
  exact h.map fun v => (⟨BitVec.ofNat 32 pc, op, false, v⟩ : Insn)

theorem reads_wide {pc : ℕ} {enc : List Byte} {v : Operand}
    (h : Reads (pc + 2) (operand (BitVec.ofNat 32 pc) op true) enc v) :
    Reads pc decodeInsn (0xc4 :: op :: enc) ⟨BitVec.ofNat 32 pc, op, true, v⟩ := by
  refine (reads_position pc).bind (d := 0xc4 :: op :: enc)
    ((reads_u8 pc 0xc4).bind (d := op :: enc) ?_)
  rw [if_pos rfl]
  exact (reads_u8 (pc + 1) op).bind (d := enc)
    (h.map fun v => (⟨BitVec.ofNat 32 pc, op, true, v⟩ : Insn))

theorem unprefixed (h : op.toNat ≠ 0xc4) : op ≠ 0xc4 := by
  rintro rfl
  exact h rfl

theorem not_wide {n : ℕ} (h : Plain n ∨ Indexed n ∨ Slot n ∨ Branch n) : n ≠ 0xc4 := by
  rintro rfl
  simp [Plain, Indexed, Slot, Branch] at h

theorem reads_instruction {size pc : ℕ} (hsize : size ≤ 65535) (i : Instruction)
    (hv : i.Valid size pc) (hfit : pc + (encode pc i).length ≤ size) :
    Reads pc decodeInsn (encode pc i) (insnAt pc i) := by
  cases i with
  | plain op =>
    apply reads_narrow (unprefixed (not_wide (.inl hv)))
    rw [operand_plain hv]
    exact .pure _ _
  | bipush v =>
    exact reads_narrow (by decide) ((reads_u8 _ v).map fun v => Operand.int (v.signExtend 32))
  | sipush v =>
    exact reads_narrow (by decide) ((reads_u16 _ v).map fun v => Operand.int (v.signExtend 32))
  | ldc index =>
    have h := (reads_u8 (pc + 1) index).map fun b => Operand.cp (b.setWidth 16)
    rw [byte_widened] at h
    exact reads_narrow (by decide) h
  | indexed op index =>
    apply reads_narrow (unprefixed (not_wide (.inr (.inl hv))))
    rw [operand_indexed hv]
    exact (reads_u16 _ index).map Operand.cp
  | slot op index =>
    apply reads_narrow (unprefixed (not_wide (.inr (.inr (.inl hv)))))
    rw [operand_slot hv]
    have h := (reads_u8 (pc + 1) index).map fun b => Operand.local (b.setWidth 16)
    rwa [byte_widened] at h
  | wideSlot op index =>
    apply reads_wide
    rw [operand_slot hv]
    exact (reads_u16 _ index).map Operand.local
  | iinc index delta =>
    apply reads_narrow (by decide)
    apply (reads_u8 (pc + 1) index).bind (d := [delta])
    rw [byte_widened]
    exact (reads_u8 _ delta).map fun d =>
      Operand.iinc (BitVec.ofNat 16 index.toNat) (d.signExtend 16)
  | wideIinc index delta =>
    exact reads_wide ((reads_u16 _ index).bind ((reads_u16 _ delta).map (Operand.iinc index)))
  | branch op t =>
    obtain ⟨hop, ht, low, high⟩ := hv
    apply reads_narrow (unprefixed (not_wide (.inr (.inr (.inr hop)))))
    rw [operand_branch hop]
    have h := (reads_u16 (pc + 1) (offset16 pc t)).map fun v =>
      Operand.branch (target (BitVec.ofNat 32 pc) v.toInt)
    rwa [target_of_offset (by omega) (offset16_toInt low high)] at h
  | wideBranch op t =>
    obtain ⟨hop, ht⟩ := hv
    apply reads_narrow (unprefixed (by omega))
    rw [operand_wideBranch hop]
    exact (reads_jumpOffset _ (by omega) (by omega)).map Operand.branch
  | tableswitch default low targets =>
    apply reads_narrow (by decide)
    refine reads_tableswitch hsize (by omega) hv ?_
    simp only [encode, length_cons, length_append, be32_length, length_flatMap,
      map_const', sum_replicate, smul_eq_mul] at hfit
    omega
  | lookupswitch default pairs =>
    apply reads_narrow (by decide)
    refine reads_lookupswitch hsize (by omega) hv ?_
    simp only [encode, length_cons, length_append, be32_length, length_flatMap,
      map_const', sum_replicate, smul_eq_mul] at hfit
    omega
  | invokeinterface index count =>
    exact reads_narrow (by decide) ((reads_u16 _ index).bind (d := [count, 0])
      ((reads_u8 _ count).bind (d := [0])
        ((reads_u8 _ 0).map fun _ => Operand.invokeInterface index count)))
  | invokedynamic index =>
    exact reads_narrow (by decide) ((reads_u16 _ index).bind
      ((reads_u16 _ 0).map fun _ => Operand.cp index))
  | newarray code => exact reads_narrow (by decide) ((reads_u8 _ code).map Operand.newArray)
  | multianewarray index dims =>
    exact reads_narrow (by decide) ((reads_u16 _ index).bind
      ((reads_u8 _ dims).map (Operand.multiANewArray index)))

theorem encode_nonempty (pc : ℕ) (i : Instruction) : 0 < (encode pc i).length := by
  cases i <;> simp [encode]

theorem decodeFrom_step {r r' : Reader} {insn : Insn} (hr : r.pos < r.data.length)
    (h : decodeInsn r = .ok (insn, r')) : decodeFrom r =
      match decodeFrom r' with
      | .error f => .error f
      | .ok rest => .ok (insn :: rest) := by
  rw [decodeFrom, if_pos hr]
  split
  · rename_i f hf
    cases h.symm.trans hf
  · rename_i insn' s hs
    cases h.symm.trans hs
    rfl

theorem decodeFrom_assemble {size : ℕ} (hsize : size ≤ 65535) (is : List Instruction)
    (before : List Byte) (hv : Laid size before.length is)
    (hfit : (before ++ assemble before.length is).length = size) :
    decodeFrom ⟨before ++ assemble before.length is, before.length⟩ =
      .ok (listing before.length is) := by
  induction is generalizing before with
  | nil =>
    rw [decodeFrom, if_neg (by simp [assemble])]
    rfl
  | cons i is ih =>
    obtain ⟨hi, hrest⟩ := hv
    have some := encode_nonempty before.length i
    have next : (before ++ encode before.length i).length =
        before.length + (encode before.length i).length := length_append
    have whole : before ++ assemble before.length (i :: is) = (before ++ encode before.length i) ++
        assemble (before ++ encode before.length i).length is := by
      rw [next, List.append_assoc]
      rfl
    have fits : before.length + (encode before.length i).length ≤ size := by
      rw [← hfit, whole, length_append, next]
      omega
    have step : decodeInsn ⟨before ++ assemble before.length (i :: is), before.length⟩ =
        .ok (insnAt before.length i, ⟨before ++ assemble before.length (i :: is),
          before.length + (encode before.length i).length⟩) :=
      (reads_instruction hsize i hi fits).run before _ rfl rfl
    have rest := ih (before ++ encode before.length i) (by rwa [next]) (by rw [← whole, hfit])
    rw [← whole, next] at rest
    have inside : before.length < (before ++ assemble before.length (i :: is)).length := by
      rw [hfit]
      omega
    rw [decodeFrom_step inside step, rest]
    rfl

/-- The decoder gives back every method body, and the string decoder every string. -/
theorem decode_inverts_encoding :
    (∀ m : MethodBody, decode m.bytes = .ok m.insns) ∧
      ∀ s : String, decode_modified_utf8 (encodeModifiedUtf8 s) = s := by
  constructor
  · intro m
    exact decodeFrom_assemble m.fits m.instructions [] m.valid rfl
  · exact decode_encodeModifiedUtf8

end BytecodeAssembly
