import Reargo.LittleEndian
import Reargo.PcodeModel
import Reargo.SortedKeys

/-!
# The memory of a loaded binary

Blocks by start address, at most one per start. A read is served by the last block that
starts at or before its address; it never continues into the next block. Addresses wrap; the
names of the blocks are left out.
-/
namespace LoadedMemory

open PcodeModel LittleEndian SortedKeys

inductive Endian where
  | little | big
  deriving DecidableEq, Repr, Inhabited

abbrev MemoryFlags := BitVec 32

def MemoryFlags.execute : MemoryFlags := 0x1

def MemoryFlags.contains (flags wanted : MemoryFlags) : Bool := flags &&& wanted = wanted

structure MemoryBlock where
  start : U64
  size : U64
  flags : MemoryFlags
  data : Option (List Byte)
  deriving DecidableEq, Repr, Inhabited

namespace MemoryBlock

def contains (b : MemoryBlock) (offset : U64) : Bool :=
  b.start ≤ offset ∧ offset < b.start + b.size

def index (b : MemoryBlock) (offset : U64) : Option ℕ :=
  if offset < b.start then none else some (offset.toNat - b.start.toNat)

def readByte (b : MemoryBlock) (offset : U64) : Option Byte :=
  b.data.bind fun data => (b.index offset).bind fun i => data[i]?

def readBytes (b : MemoryBlock) (offset : U64) (n : ℕ) : Option (List Byte) :=
  b.data.bind fun data =>
    (b.index offset).bind fun i =>
      -- where the code's sum wraps, it refuses or the slice panics
      if data.length < i + n then none else some ((data.drop i).take n)

end MemoryBlock

abbrev InstructionBuffer := { buf : List Byte // buf.length = 15 }

/-- `buf[..bytes.len()].copy_from_slice(bytes)`. -/
def InstructionBuffer.fill (buf : InstructionBuffer) (bytes : List Byte) : InstructionBuffer :=
  ⟨(bytes ++ buf.val.drop bytes.length).take 15, by
    have := buf.property
    simp only [List.length_take, List.length_append, List.length_drop]
    omega⟩

structure Memory where
  blocks : List MemoryBlock
  endian : Endian
  deriving DecidableEq, Repr, Inhabited

namespace Memory

def findBlock (m : Memory) (offset : U64) : Option MemoryBlock :=
  -- the last block starting at or before `offset`
  let i := partitionPoint (fun b => decide (b.start ≤ offset)) m.blocks
  if i = 0 then none
  else m.blocks[i - 1]?.filter fun b => b.contains offset

def readByte (m : Memory) (offset : U64) : Option Byte :=
  (m.findBlock offset).bind fun b => b.readByte offset

def readBytes (m : Memory) (offset : U64) (n : ℕ) : Option (List Byte) :=
  (m.findBlock offset).bind fun b => b.readBytes offset n

def addBlock (m : Memory) (block : MemoryBlock) : Memory :=
  match binarySearch (fun b : MemoryBlock => b.start.toNat) block.start.toNat m.blocks with
  | .ok i => { m with blocks := m.blocks.set i block }
  | .error i => { m with blocks := m.blocks.take i ++ block :: m.blocks.drop i }

def slice (m : Memory) (offset len : U64) : Option (List Byte) :=
  let i := partitionPoint (fun b => decide (b.start ≤ offset)) m.blocks
  if i = 0 then none
  else m.blocks[i - 1]?.bind fun block =>
    if block.contains offset then
      block.data.bind fun data =>
        let start := (offset - block.start).toNat
        let stop := start + len.toNat
        -- `checked_add` fails, or the range leaves the data or the block
        if 2 ^ 64 ≤ stop ∨ data.length < stop ∨ block.size.toNat < stop then none
        -- the blocks are sorted: the next one starts first
        else if 1 < len ∧ m.blocks[i]?.any (fun b => b.start < offset + len) then none
        else some ((data.drop start).take len.toNat)
    else none

def bytes (m : Memory) (offset len : U64) : Option (List Byte) :=
  match m.slice offset len with
  | some bytes => some bytes
  | none => m.readBytes offset len.toNat

def readInstructionBytes (m : Memory) (address : U64) (buf : InstructionBuffer) :
    ℕ × InstructionBuffer :=
  match m.findBlock address with
  | none => (0, buf)
  | some block =>
    let available := (block.start + block.size - address).toNat
    let read_len := min buf.val.length available
    if 0 < read_len then
      match block.readBytes address read_len with
      | some bytes => (read_len, buf.fill bytes)
      -- the error is dropped: `let _ = block.read_bytes(..)`
      | none => (read_len, buf)
    else (read_len, buf)

/-- The number the bytes denote in the memory's order. -/
def wordOf (m : Memory) (bytes : List Byte) : ℕ :=
  match m.endian with
  | .little => leNat bytes
  | .big => leNat bytes.reverse

def readWord (m : Memory) (n : ℕ) (offset : U64) : Option (BitVec (8 * n)) :=
  (m.readBytes offset n).map fun bytes => BitVec.ofNat (8 * n) (m.wordOf bytes)

def readU16 (m : Memory) (offset : U64) : Option (BitVec 16) := m.readWord 2 offset
def readU32 (m : Memory) (offset : U64) : Option (BitVec 32) := m.readWord 4 offset
def readU64 (m : Memory) (offset : U64) : Option U64 := m.readWord 8 offset

end Memory

end LoadedMemory
