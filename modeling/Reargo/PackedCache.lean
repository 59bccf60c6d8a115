import Reargo.ReferenceParts
import Reargo.Varints

/-!
# The packed maps of the analysis cache

The writers and readers of the instructions and the references, a chunk decoded into slots
that hold nothing yet, and the chunks of a map put together.
-/
namespace PackedCache

open PcodeModel InstructionModel ReferenceParts ByteReaders Varints

def utf8 (s : String) : List Byte := s.toUTF8.data.toList.map UInt8.toBitVec

def fromUtf8 (b : List Byte) : Option String :=
  String.fromUTF8? ⟨(b.map UInt8.ofBitVec).toArray⟩

def writeBytes (b : List Byte) : List Byte := varint (BitVec.ofNat 64 b.length) ++ b

def readBytes : Reader Byte (List Byte) := do
  let n ← readVarint
  items n.toNat

def readString : Reader Byte String := do
  let b ← readBytes
  ofOption (fromUtf8 b)

/-- A count of entries of at least `minSize` bytes each. -/
def readCount (minSize : ℕ) : Reader Byte ℕ := do
  let n ← readVarint
  let b ← get
  if n.toNat * minSize < 2 ^ 64 ∧ n.toNat * minSize ≤ b.length then pure n.toNat else failure

def flows : List FlowType :=
  [.fall, .unconditionalJump, .conditionalJump, .call, .indirectCall, .indirectJump, .ret]

def flowCode : FlowType → Byte
  | .fall => 0
  | .unconditionalJump => 1
  | .conditionalJump => 2
  | .call => 3
  | .indirectCall => 4
  | .indirectJump => 5
  | .ret => 6

def writeBranch (address : U64) : Option U64 → List Byte
  | none => [0]
  | some t => 1 :: delta t address

def readBranch (address : U64) : Reader Byte (Option U64) := do
  let flag ← item
  if flag = 0 then pure none
  else if flag = 1 then
    let t ← readDelta address
    pure (some t)
  else failure

def writeText : Option (String × String) → List Byte
  | some (mnemonic, operands) => 1 :: (writeBytes (utf8 mnemonic) ++ writeBytes (utf8 operands))
  | none => [0]

def readText : Reader Byte (Option (String × String)) := do
  let flag ← item
  if flag = 0 then pure none
  else if flag = 1 then
    let mnemonic ← readString
    let operands ← readString
    pure (some (mnemonic, operands))
  else failure

def insnEnd (e : U64 × DecodedInstruction) : U64 := e.2.address + e.2.length.zeroExtend 64

def writeInsn (formatText : FormatText) (prevEnd : U64) (e : U64 × DecodedInstruction) :
    List Byte :=
  let (addr, insn) := e
  let (lazy, text) := insn.cacheText formatText
  delta addr prevEnd ++ (delta insn.address addr ++ (varint (insn.length.zeroExtend 64) ++
    (writeBytes insn.bytes ++ ([flowCode insn.flowType] ++
      (writeBranch insn.address insn.branchTarget ++ ([lazy] ++ writeText text))))))

def readInsn (prevEnd : U64) : Reader Byte ((U64 × DecodedInstruction) × U64) := do
  let key ← readDelta prevEnd
  let address ← readDelta key
  let v ← readVarint
  let length ← ofOption (if v.toNat < 2 ^ 32 then some (v.truncate 32) else none)
  let bytes ← readBytes
  let code ← item
  let flow ← ofOption flows[code.toNat]?
  let branch ← readBranch address
  let lazy ← item
  let text ← readText
  let insn := DecodedInstruction.fromCacheParts address length bytes flow branch lazy text
  pure ((key, insn), insnEnd (key, insn))

def refTypes : List RefType :=
  [.unconditionalCall, .conditionalCall, .indirectCall, .unconditionalJump, .conditionalJump,
    .indirectJump, .dataRead, .dataWrite, .dataReadWrite, .fallThrough]

def refCode : RefType → Byte
  | .unconditionalCall => 0
  | .conditionalCall => 1
  | .indirectCall => 2
  | .unconditionalJump => 3
  | .conditionalJump => 4
  | .indirectJump => 5
  | .dataRead => 6
  | .dataWrite => 7
  | .dataReadWrite => 8
  | .fallThrough => 9

def writeRef (key : U64) (r : Reference) : List Byte :=
  delta r.fromAddr key ++ (delta r.toAddr key ++ [refCode r.refType])

def readRef (key : U64) : Reader Byte Reference := do
  let fromAddr ← readDelta key
  let toAddr ← readDelta key
  let code ← item
  let refType ← ofOption refTypes[code.toNat]?
  pure ⟨fromAddr, toAddr, refType⟩

def writeRefs (prev : U64) (e : U64 × List Reference) : List Byte :=
  delta e.1 prev ++ (varint (BitVec.ofNat 64 e.2.length) ++
    e.2.flatMap (writeRef e.1))

def readRefs (prev : U64) : Reader Byte ((U64 × List Reference) × U64) := do
  let key ← readDelta prev
  let m ← readCount 3
  let list ← readMany (readRef key) m
  pure ((key, list), key)

section Chunks

variable {α : Type}

def encodeChunk (write : U64 → α → List Byte) (next : α → U64) (entries : List α) : List Byte :=
  varint (BitVec.ofNat 64 entries.length) ++ writeAll write next 0 entries

def fillSlots (read : U64 → Reader Byte (α × U64)) :
    U64 → List (Option α) → List Byte → List (Option α) × Option (List Byte)
  | _, [], b => ([], some b)
  | prev, slot :: slots, b =>
    match (read prev).run b with
    | none => (slot :: slots, none)
    | some ((v, next), b) =>
      let (filled, left) := fillSlots read next slots b
      (some v :: filled, left)

def decodeChunk (read : U64 → Reader Byte (α × U64)) (raw : List Byte)
    (out : List (Option α)) : List (Option α) × Option Unit :=
  match readVarint.run raw with
  | none => (out, none)
  | some (n, b) =>
    if n.toNat ≠ out.length then (out, none)
    else
      let (filled, left) := fillSlots read 0 out b
      (filled, left.bind fun b => if b.isEmpty then some () else none)

/-- The sections of a map, each with its recorded count, decoded in their places of one
vector. A slot never written stays `none` in it. -/
def decodePacked (decode : List Byte → List (Option α) → List (Option α) × Option Unit)
    (sections : List (ℕ × List Byte)) : Option (List (Option α)) := do
  let _ ← sections.foldlM
    (fun total s => if total + s.1 < 2 ^ 64 then some (total + s.1) else none) 0
  let decoded := sections.map fun s => decode s.2 (List.replicate s.1 none)
  if decoded.all fun d => d.2.isSome then some (decoded.flatMap Prod.fst) else none

end Chunks

def encodeInsns (formatText : FormatText) (insns : List (U64 × DecodedInstruction)) :
    List Byte :=
  encodeChunk (writeInsn formatText) insnEnd insns

def decodeInsns := decodeChunk readInsn

def encodeRefs (refs : List (U64 × List Reference)) : List Byte :=
  encodeChunk writeRefs Prod.fst refs

def decodeRefs := decodeChunk readRefs

end PackedCache
