import Reargo.ControlFlow
import Reargo.LittleEndian

/-!
# The blocks of a lift

What the block structure reads of each instruction, the marks found from it, and the blocks
of one function's lift with the edges between them, built from either. Array searches stand
as searches for the entry of a strictly increasing array; a block's number fits the width the
code keeps it in.
-/
namespace BlockShapes

open PcodeModel List
open ControlFlow (LiftedInstruction)

structure InsnShape where
  address : U64
  target : U64
  flags : Byte
  deriving DecidableEq, Repr

namespace InsnShape

def call : Byte := 1
def ends : Byte := 2
def stops : Byte := 4
def hasTarget : Byte := 8
def hasTargets : Byte := 16
def callInd : Byte := 32

/-- The target of a jump when it is an address. -/
def branchTarget (op : PcodeOp) : Option U64 :=
  (op.inputs.head?.filter fun t => t.space = SpaceId.ram).map VarnodeData.offset

def addJump (shape : InsnShape) (op : PcodeOp) (flags : Byte) : InsnShape :=
  let shape :=
    match branchTarget op with
    | some t =>
      if shape.flags &&& (hasTarget ||| hasTargets) = 0 then
        { shape with flags := shape.flags ||| hasTarget, target := t }
      else { shape with flags := (shape.flags &&& ~~~hasTarget) ||| hasTargets }
    | none => shape
  { shape with flags := shape.flags ||| flags }

def add (shape : InsnShape) (op : PcodeOp) : InsnShape :=
  match op.opcode with
  | .call => { shape with flags := shape.flags ||| call }
  | .callInd => { shape with flags := shape.flags ||| (call ||| callInd) }
  | .branch => addJump shape op (ends ||| stops)
  | .cBranch => addJump shape op ends
  | .return | .branchInd => { shape with flags := shape.flags ||| (ends ||| stops) }
  | _ => shape

def of (insn : LiftedInstruction) : InsnShape :=
  insn.ops.foldl add { address := insn.address, target := 0, flags := 0 }

end InsnShape

def isJump (op : PcodeOp) : Bool := op.opcode = .branch ∨ op.opcode = .cBranch

def jumpTargets (insn : LiftedInstruction) : List U64 :=
  (insn.ops.filter isJump).filterMap InsnShape.branchTarget

def pushBranches (branches : List (ℕ × U64)) (i : ℕ) (s : InsnShape) (insn : LiftedInstruction) :
    List (ℕ × U64) :=
  if s.flags &&& InsnShape.hasTarget ≠ 0 then branches ++ [(i, s.target)]
  else if s.flags &&& InsnShape.hasTargets ≠ 0 then
    branches ++ (jumpTargets insn).map fun t => (i, t)
  else branches

structure LiftShape where
  increasing : Bool
  addrs : List U64
  flags : List Byte
  branches : List (ℕ × U64)
  special : List ℕ
  finder : Option (U64 → Option ℕ)

namespace LiftShape

def flag (shape : LiftShape) (i : ℕ) : Byte := shape.flags.getD i 0
def hasCall (shape : LiftShape) (i : ℕ) : Bool := shape.flag i &&& InsnShape.call ≠ 0
def endsBlock (shape : LiftShape) (i : ℕ) : Bool := shape.flag i &&& InsnShape.ends ≠ 0
def stops (shape : LiftShape) (i : ℕ) : Bool := shape.flag i &&& InsnShape.stops ≠ 0

def isIncreasing (addrs : List U64) : Bool :=
  (addrs.zip addrs.tail).foldl (fun ok w => ok && decide (w.1 < w.2)) true

def of (insns : List LiftedInstruction) : LiftShape :=
  let addrs := insns.map fun insn => (InsnShape.of insn).address
  { increasing := isIncreasing addrs
    addrs := addrs
    flags := insns.map fun insn => (InsnShape.of insn).flags
    branches := insns.zipIdx.foldl (fun bs e => let s := InsnShape.of e.1
      if s.flags ≠ 0 then pushBranches bs e.2 s e.1 else bs) []
    special := (insns.zipIdx.filter fun e => decide ((InsnShape.of e.1).flags ≠ 0)).map Prod.snd
    finder := none }

end LiftShape

/-- Where an address stands in increasing addresses. -/
def binarySearch (addrs : List U64) (a : U64) : Option ℕ :=
  if a ∈ addrs then some (addrs.idxOf a) else none

def slice {α : Type} (xs : List α) (lo hi : ℕ) : List α := (xs.take hi).drop lo

/-- Probes at distance `2 ^ k` after `origin`; the address at `lo` is not past `t`. -/
def findUp (addrs : List U64) (origin : ℕ) (t : U64) (lo k : ℕ) : Option ℕ :=
  let hi := origin + 2 ^ k
  if hi ≥ addrs.length then (binarySearch (addrs.drop lo) t).map (lo + ·)
  else if addrs.getD hi 0 ≥ t then (binarySearch (slice addrs lo (hi + 1)) t).map (lo + ·)
  else findUp addrs origin t hi (k + 1)
termination_by addrs.length - (origin + 2 ^ k)
decreasing_by
  have hpow : 2 ^ k < 2 ^ (k + 1) := Nat.pow_lt_pow_right (by omega) (by omega)
  omega

/-- Probes at distance `2 ^ k` before `origin`; the address at `hi` is past `t`. -/
def findDown (addrs : List U64) (origin : ℕ) (t : U64) (hi k : ℕ) : Option ℕ :=
  if 2 ^ k > origin then binarySearch (addrs.take hi) t
  else
    let lo := origin - 2 ^ k
    if addrs.getD lo 0 ≤ t then (binarySearch (slice addrs lo hi) t).map (lo + ·)
    else findDown addrs origin t lo (k + 1)
termination_by origin + 1 - 2 ^ k
decreasing_by
  have hpow : 2 ^ k < 2 ^ (k + 1) := Nat.pow_lt_pow_right (by omega) (by omega)
  omega

/-- The position of `t` searched outwards from `origin`. -/
def findNear (addrs : List U64) (origin : ℕ) (t : U64) : Option ℕ :=
  if t ≥ addrs.getD origin 0 then findUp addrs origin t origin 0
  else findDown addrs origin t origin 0

structure LiftMarks where
  flags : List Byte
  targetIdx : List (Option ℕ)
  ownedCalls : List ℕ
  calls : List (U64 × Bool)
  deriving DecidableEq, Repr

namespace LiftMarks

def target : Byte := 1
def external : Byte := 2
def ownedCall : Byte := 4
def afterEnd : Byte := 8

def mark (flags : List Byte) (i : ℕ) (m : Byte) : List Byte := flags.modify i (· ||| m)

def markFound (flags : List Byte) (i : Option ℕ) (m : Byte) : List Byte :=
  match i with
  | some i => mark flags i m
  | none => flags

def markSpecial (shape : LiftShape) (owns : ℕ → Bool)
    (acc : List Byte × List ℕ × List (U64 × Bool)) (i : ℕ) :
    List Byte × List ℕ × List (U64 × Bool) :=
  let (flags, owned, calls) := acc
  let flags :=
    if shape.endsBlock i ∧ i + 1 < shape.addrs.length then mark flags (i + 1) afterEnd else flags
  if shape.hasCall i then
    if owns i then
      (mark flags i ownedCall, owned ++ [i], calls ++ [(shape.addrs.getD i 0, true)])
    else (flags, owned, calls ++ [(shape.addrs.getD i 0, false)])
  else (flags, owned, calls)

def new (shape : LiftShape) (entries : List U64) (owns : ℕ → Bool) : LiftMarks :=
  let flags := List.replicate shape.addrs.length (0 : Byte)
  let targetIdx := shape.branches.map fun e => match shape.finder with
    | some find => find e.2
    | none => findNear shape.addrs e.1 e.2
  let flags := targetIdx.foldl (fun flags i => markFound flags i target) flags
  let flags := entries.foldl (fun flags a => markFound flags (match shape.finder with
      | some find => find a
      | none => binarySearch shape.addrs a) external) flags
  let (flags, owned, calls) := shape.special.foldl (markSpecial shape owns) (flags, [], [])
  { flags := flags, targetIdx := targetIdx, ownedCalls := owned, calls := calls }

end LiftMarks

structure Cfg where
  startIdx : List ℕ
  startAddr : List U64
  unknownEntry : List Bool
  unknownBlocks : List ℕ
  succs : List ℕ
  succAt : List ℕ
  brBlock : List (Option ℕ)
  brAt : List ℕ
  relevant : Option (List Bool)
  legacy : Bool
  external : List U64
  inBodyBlocks : List U64
  deriving DecidableEq, Repr

def unknownBlocksOf (unknownEntry : List Bool) : List ℕ :=
  (unknownEntry.zipIdx.filter Prod.fst).map Prod.snd

def flood {κ : Type} [DecidableEq κ] (nodes : List κ) (next : κ → List κ)
    (reached stack : List κ) : List κ :=
  match stack with
  | [] => reached
  | b :: rest =>
    let fresh := ((next b).filter fun s => s ∈ nodes ∧ s ∉ reached).eraseDups
    if fresh = [] then flood nodes next reached rest
    else flood nodes next (reached ++ fresh) (fresh.reverse ++ rest)
termination_by ((nodes.filter fun s => s ∉ reached).length, stack.length)
decreasing_by
  · exact Prod.Lex.right _ (Nat.lt_succ_self _)
  · rename_i h
    obtain ⟨s, hs⟩ := exists_mem_of_ne_nil _ h
    have hs' := mem_filter.mp (mem_eraseDups.mp hs)
    have hsp : s ∈ nodes ∧ s ∉ reached := of_decide_eq_true hs'.2
    refine Prod.Lex.left _ _ ?_
    have hsub : (nodes.filter fun s => decide (s ∉ reached ++ fresh)).Sublist
        (nodes.filter fun s => decide (s ∉ reached)) := by
      refine monotone_filter_right _ fun x hx => ?_
      have hx' := of_decide_eq_true hx
      exact decide_eq_true fun h => hx' (mem_append_left _ h)
    refine lt_of_le_of_ne hsub.length_le fun heq => ?_
    have hmem : s ∈ nodes.filter fun s => decide (s ∉ reached ++ fresh) := by
      rw [hsub.eq_of_length heq]
      exact mem_filter.mpr ⟨hsp.1, decide_eq_true hsp.2⟩
    exact of_decide_eq_true (mem_filter.mp hmem).2 (mem_append_right _ hs)

/-- The edges of the blocks passed, and the jumps of those to come. -/
structure BlockEdges (α : Type) where
  targets : List (ℕ × α)
  succs : List ℕ
  succAt : List ℕ
  brBlock : List (Option ℕ)
  brAt : List ℕ

def lastOf (startIdx : List ℕ) (n b : ℕ) : ℕ := startIdx.getD (b + 1) n - 1

def addBlock {α : Type} (shape : LiftShape) (n : ℕ) (startIdx : List ℕ) (blockOf : α → Option ℕ)
    (e : BlockEdges α) (b : ℕ) : BlockEdges α :=
  let last := lastOf startIdx n b
  let start := startIdx.getD b 0
  let passed := e.targets.takeWhile fun t => t.1 < start
  let rest := e.targets.dropWhile fun t => t.1 < start
  let brBlock := e.brBlock ++ passed.map fun _ => none
  let mine := (rest.takeWhile fun t => t.1 ≤ last).map fun t => blockOf t.2
  let falls := if !shape.stops last && decide (b + 1 < startIdx.length) then [b + 1] else []
  { targets := rest.dropWhile fun t => t.1 ≤ last
    succs := e.succs ++ mine.filterMap id ++ falls
    succAt := e.succAt ++ [e.succs.length]
    brBlock := brBlock ++ mine
    brAt := e.brAt ++ [brBlock.length] }

def blockEdges {α : Type} (shape : LiftShape) (n : ℕ) (startIdx : List ℕ) (blockOf : α → Option ℕ)
    (targets : List (ℕ × α)) : BlockEdges α :=
  let e := (List.range startIdx.length).foldl (addBlock shape n startIdx blockOf)
    { targets := targets, succs := [], succAt := [], brBlock := [], brAt := [] }
  { e with succAt := e.succAt ++ [e.succs.length], brAt := e.brAt ++ [e.brBlock.length] }

def BlockEdges.succsOf {α : Type} (e : BlockEdges α) (b : ℕ) : List ℕ :=
  slice e.succs (e.succAt.getD b 0) (e.succAt.getD (b + 1) 0)

def BlockEdges.reached {α : Type} (e : BlockEdges α) (nb : ℕ) : List ℕ :=
  flood (List.range nb) e.succsOf [0] [0]

/-- A lift without blocks: the walk by addresses runs instead. -/
def Cfg.byAddress (external inBodyBlocks : List U64) : Cfg :=
  { startIdx := [], startAddr := [], unknownEntry := [], unknownBlocks := [], succs := [],
    succAt := [], brBlock := [], brAt := [], relevant := none, legacy := true,
    external := external, inBodyBlocks := inBodyBlocks }

def Cfg.ofEdges {α : Type} (startIdx : List ℕ) (startAddr : List U64) (unknownEntry : List Bool)
    (e : BlockEdges α) : Cfg :=
  { startIdx := startIdx, startAddr := startAddr, unknownEntry := unknownEntry,
    unknownBlocks := unknownBlocksOf unknownEntry, succs := e.succs, succAt := e.succAt,
    brBlock := e.brBlock, brAt := e.brAt, relevant := none, legacy := false, external := [],
    inBodyBlocks := [] }

def setStart (isStart : List Bool) (i : Option ℕ) : List Bool :=
  match i with
  | some i => isStart.set i true
  | none => isStart

/-- Which instructions start a block: the first, the external entries, the jump targets and
those after an instruction that ends a block. -/
def startFlags (shape : LiftShape) (external : List U64) : List Bool :=
  let isStart := (List.replicate shape.addrs.length false).set 0 true
  let isStart := external.foldl (fun m a => setStart m (binarySearch shape.addrs a)) isStart
  let isStart := shape.branches.foldl (fun m t => setStart m (binarySearch shape.addrs t.2)) isStart
  isStart.take 1 ++
    (isStart.tail.zip shape.flags).map fun e => e.1 || decide (e.2 &&& InsnShape.ends ≠ 0)

def Cfg.buildShaped (shape : LiftShape) (external : List U64) (inBody : U64 → Bool) : Cfg :=
  let addrs := shape.addrs
  if !shape.increasing || addrs.isEmpty then Cfg.byAddress external (addrs.filter inBody)
  else
    let n := addrs.length
    let startIdx := (List.range n).filter fun i => (startFlags shape external).getD i false
    let startAddr := startIdx.map fun i => addrs.getD i 0
    let e := blockEdges shape n startIdx (binarySearch startAddr) shape.branches
    let reached := e.reached startIdx.length
    let unknownEntry := (List.range startIdx.length).map fun b =>
      decide (b ≠ 0) && (decide (startAddr.getD b 0 ∈ external) ||
        (decide (b ∉ reached) && inBody (startAddr.getD b 0)))
    Cfg.ofEdges startIdx startAddr unknownEntry e

def Cfg.build (insns : List LiftedInstruction) (external : List U64) (inBody : U64 → Bool) : Cfg :=
  Cfg.buildShaped (LiftShape.of insns) external inBody

def startMask : Byte := LiftMarks.target ||| LiftMarks.external ||| LiftMarks.afterEnd

def wideMask : U64 := BitVec.ofNat 64 (LittleEndian.leNat (List.replicate 8 startMask))

def wordOf (chunk : List Byte) : U64 := BitVec.ofNat 64 (LittleEndian.leNat chunk)

/-- The bytes of a word that are not zero, lowest first. -/
def nonzeroBytes (word : U64) : ℕ → List ℕ
  | 0 => []
  | fuel + 1 =>
    if word = 0 then []
    else
      let k := word.ctz.toNat / 8
      k :: nonzeroBytes (word &&& ~~~((0xff : U64) <<< (8 * k))) fuel

/-- The marked instructions of chunks of eight flags, but for the first. -/
def scanChunks : ℕ → List (List Byte) → List ℕ
  | _, [] => []
  | c, chunk :: chunks =>
    (((nonzeroBytes (wordOf chunk &&& wideMask) 8).map fun k => 8 * c + k).filter fun i => 0 < i) ++
      scanChunks (c + 1) chunks

/-- Whole chunks of eight, and what is left. -/
def chunksExact (flags : List Byte) : List (List Byte) × List Byte :=
  ((List.range (flags.length / 8)).map fun c => slice flags (8 * c) (8 * c + 8),
    flags.drop (8 * (flags.length / 8)))

def markedStarts (flags : List Byte) : List ℕ :=
  let (chunks, remainder) := chunksExact flags
  let tail := flags.length - remainder.length
  [0] ++ scanChunks 0 chunks ++
    ((remainder.zipIdx.filter fun e => 0 < tail + e.2 ∧ e.1 &&& startMask ≠ 0).map
      fun e => tail + e.2)

/-- `blockAt` holds what an earlier build left. -/
def Cfg.buildMarkedUptoWith (shape : LiftShape) (marks : LiftMarks) (inBody : U64 → Bool) (last : ℕ)
    (blockAt : List ℕ) : Cfg :=
  let addrs := shape.addrs.take last
  let n := addrs.length
  if n = 0 then Cfg.buildShaped (LiftShape.of []) [] inBody
  else
    let flags := marks.flags.take n
    let startIdx := markedStarts flags
    let startAddr := startIdx.map fun i => addrs.getD i 0
    let blockAt := blockAt ++ List.replicate (n - blockAt.length) 0
    let blockAt := startIdx.zipIdx.foldl (fun at' e => at'.set e.1 e.2) blockAt
    let blockOf := fun i : Option ℕ => i.bind fun i => if i < n then some (blockAt.getD i 0) else none
    let targets := shape.branches.takeWhile fun t => t.1 < n
    let e := blockEdges shape n startIdx blockOf
      (targets.zipWith (fun t i => (t.1, i)) marks.targetIdx)
    let reached := e.reached startIdx.length
    let unknownEntry := (List.range startIdx.length).map fun b => decide (b ≠ 0) &&
        (decide (flags.getD (startIdx.getD b 0) 0 &&& LiftMarks.external ≠ 0) ||
          (decide (b ∉ reached) && inBody (startAddr.getD b 0)))
    Cfg.ofEdges startIdx startAddr unknownEntry e

def Cfg.buildMarkedUpto (shape : LiftShape) (marks : LiftMarks) (inBody : U64 → Bool) (last : ℕ) :
    Cfg :=
  Cfg.buildMarkedUptoWith shape marks inBody last []

def Cfg.buildMarked (shape : LiftShape) (marks : LiftMarks) (inBody : U64 → Bool) : Cfg :=
  Cfg.buildMarkedUpto shape marks inBody shape.addrs.length

end BlockShapes
