import Reargo.Dominators
import Reargo.SsaModel
import Reargo.TreeWalk

/-!
# SSA construction

Phis for the names read before they are written in some block, on the iterated
dominance frontiers of the blocks that write them, then renaming along the dominator
forest. Names left out of the P-code by other passes are not part of this model, nor
is the width of the value ids.
-/
namespace SsaBuild

open PcodeModel ControlFlow DominatorTree Dominators SsaModel

def slotVarnode (k : Slot) : VarnodeData := ⟨k.1, k.2.1, k.2.2⟩

/-- The operations of a block with the addresses of their instructions. -/
def blockCode (cfg : ControlFlowGraph) (b : ℕ) : List (U64 × PcodeOp) :=
  (cfg.block b).instructions.flatMap fun insn => insn.ops.map fun op => (insn.address, op)

def readSlots (op : PcodeOp) : List Slot :=
  (op.inputs.filter fun vn => vn.space ≠ SpaceId.const).map slotOf

def writtenSlot (op : PcodeOp) : Option Slot := op.output.map slotOf

def exposedAfter (killed : List Slot) : List (U64 × PcodeOp) → List Slot
  | [] => []
  | (_, op) :: code =>
    (readSlots op).filter (· ∉ killed) ++ exposedAfter ((writtenSlot op).toList ++ killed) code

/-- The slots a block reads before it writes them. -/
def exposed (cfg : ControlFlowGraph) (b : ℕ) : List Slot := exposedAfter [] (blockCode cfg b)

def written (cfg : ControlFlowGraph) (b : ℕ) : List Slot :=
  (blockCode cfg b).filterMap fun c => writtenSlot c.2

def slotLe (k l : Slot) : Bool :=
  k.1 < l.1 ∨ (k.1 = l.1 ∧ (k.2.1 < l.2.1 ∨ (k.2.1 = l.2.1 ∧ k.2.2 ≤ l.2.2)))

/-- The slots read before they are written in some block, in slot order. -/
def globalSlots (cfg : ControlFlowGraph) : List Slot :=
  ((List.range cfg.blocks.length).flatMap (exposed cfg)).dedup.insertionSort (slotLe · ·)

def defSites (cfg : ControlFlowGraph) (k : Slot) : List ℕ :=
  (List.range cfg.blocks.length).filter fun b => k ∈ written cfg b

/-- The entry block has predecessors: its phis take the value on entry as their last input. -/
def entryIsJoin (cfg : ControlFlowGraph) : Bool :=
  cfg.blocks ≠ [] ∧ cfg.preds cfg.entryBlock ≠ []

def entryWalk (idom : Parents) (entry : ℕ) : ℕ → ℕ → List ℕ
  | 0, _ => []
  | fuel + 1, runner =>
    match idom runner with
    | some up =>
      if up ≠ runner ∧ runner ≠ entry then runner :: entryWalk idom entry fuel up else [runner]
    | none => [runner]

def entryRunners (cfg : ControlFlowGraph) (idom : Parents) : List ℕ :=
  if entryIsJoin cfg then
    ((cfg.preds cfg.entryBlock).filter fun p => p = cfg.entryBlock ∨ idom p ≠ none).flatMap
      (entryWalk idom cfg.entryBlock cfg.blocks.length)
  else []

def frontier (cfg : ControlFlowGraph) (x : ℕ) : List ℕ :=
  let idom := computeIdomForest cfg
  dominanceFrontier cfg idom x ++ if x ∈ entryRunners cfg idom then [cfg.entryBlock] else []

structure Placement where
  work : List ℕ
  hasPhi : List ℕ
  queued : List ℕ

def placeAt (st : Placement) (f : ℕ) : Placement :=
  if f ∈ st.hasPhi then st
  else if f ∈ st.queued then { st with hasPhi := st.hasPhi ++ [f] }
  else ⟨f :: st.work, st.hasPhi ++ [f], f :: st.queued⟩

def placeRun (df : ℕ → List ℕ) : ℕ → Placement → Placement
  | 0, st => st
  | fuel + 1, st =>
    match st.work with
    | [] => st
    | b :: rest => placeRun df fuel ((df b).foldl placeAt { st with work := rest })

/-- The iterated dominance frontier of `sites`; every block is queued at most once. -/
def place (df : ℕ → List ℕ) (n : ℕ) (sites : List ℕ) : List ℕ :=
  (placeRun df (sites.length + n) ⟨sites.reverse, [], sites⟩).hasPhi

def phisOf (cfg : ControlFlowGraph) (b : ℕ) : List Slot :=
  (globalSlots cfg).filter fun k => b ∈ place (frontier cfg) cfg.blocks.length (defSites cfg k)

/-- An operation under construction; an operand of a phi may still be open. -/
structure BuildOp where
  opcode : OpCode
  output : Option ℕ
  inputs : List (Option ℕ)
  block : ℕ
  address : U64
  deriving DecidableEq, Repr, Inhabited

def phiWidth (cfg : ControlFlowGraph) (b : ℕ) : ℕ :=
  (cfg.preds b).length + if entryIsJoin cfg ∧ b = cfg.entryBlock then 1 else 0

def blockOps (cfg : ControlFlowGraph) (b : ℕ) : List BuildOp :=
  ((phisOf cfg b).map fun _ =>
      ⟨.multiEqual, none, List.replicate (phiWidth cfg b) none, b, (cfg.block b).startAddr⟩) ++
    (blockCode cfg b).map fun c => ⟨c.2.opcode, none, [], b, c.1⟩

def blockStart (cfg : ControlFlowGraph) (b : ℕ) : ℕ :=
  ((List.range b).map fun x => (blockOps cfg x).length).sum

/-- Per slot the number of versions and the value on entry once it has been read; the
entries are the versions in scope, the newest first. -/
structure Renaming where
  varnodes : List SsaVarnode
  ops : List BuildOp
  versions : Slot → ℕ
  incoming : Slot → Option ℕ
  entries : List (Slot × ℕ)

namespace Renaming

def pushVar (st : Renaming) (data : VarnodeData) (version : ℕ) : Renaming × ℕ :=
  ({ st with varnodes := st.varnodes ++ [⟨data, version, none, []⟩] }, st.varnodes.length)

def newVersionVar (st : Renaming) (vn : VarnodeData) : Renaming × ℕ :=
  let version := st.versions (slotOf vn) + 1
  pushVar { st with versions := Function.update st.versions (slotOf vn) version } vn version

def constVar (st : Renaming) (vn : VarnodeData) : Renaming × ℕ := st.pushVar vn 0

/-- The value of a slot read where no version of it is in scope. -/
def incomingVar (st : Renaming) (vn : VarnodeData) : Renaming × ℕ :=
  match st.incoming (slotOf vn) with
  | some id => (st, id)
  | none =>
    let (st', id) := st.pushVar vn (st.versions (slotOf vn))
    ({ st' with incoming := Function.update st'.incoming (slotOf vn) (some id) }, id)

def addUse (st : Renaming) (v idx : ℕ) : Renaming :=
  { st with varnodes := st.varnodes.modify v fun vn => { vn with uses := vn.uses ++ [idx] } }

def setDef (st : Renaming) (v idx : ℕ) : Renaming :=
  { st with varnodes := st.varnodes.modify v fun vn => { vn with defOp := some idx } }

def modifyOp (st : Renaming) (idx : ℕ) (f : BuildOp → BuildOp) : Renaming :=
  { st with ops := st.ops.modify idx f }

/-- The version in scope, or the value on entry. -/
def scopedVar (st : Renaming) (vn : VarnodeData) : Renaming × ℕ :=
  match st.entries.lookup (slotOf vn) with
  | some id => (st, id)
  | none => st.incomingVar vn

/-- A fresh version defined by operation `idx`, put in scope. -/
def define (st : Renaming) (vn : VarnodeData) (idx : ℕ) : Renaming :=
  let (st', out) := st.newVersionVar vn
  let st' := (st'.setDef out idx).modifyOp idx fun op => { op with output := some out }
  { st' with entries := (slotOf vn, out) :: st'.entries }

def setPhiInput (st : Renaming) (idx j v : ℕ) : Renaming :=
  (st.addUse v idx).modifyOp idx fun op => { op with inputs := op.inputs.set j (some v) }

def renamePhi (cfg : ControlFlowGraph) (b : ℕ) (acc : Renaming × ℕ) (k : Slot) : Renaming × ℕ :=
  let (st, idx) := acc
  let st :=
    if entryIsJoin cfg ∧ b = cfg.entryBlock then
      let (st, incoming) := st.incomingVar (slotVarnode k)
      st.setPhiInput idx (phiWidth cfg b - 1) incoming
    else st
  (st.define (slotVarnode k) idx, idx + 1)

def renameInput (idx : ℕ) (acc : Renaming × List ℕ) (inp : VarnodeData) : Renaming × List ℕ :=
  let (st, id) := if inp.space = SpaceId.const then acc.1.constVar inp else acc.1.scopedVar inp
  (st.addUse id idx, acc.2 ++ [id])

def renameOp (acc : Renaming × ℕ) (code : U64 × PcodeOp) : Renaming × ℕ :=
  let (st, idx) := acc
  let (st, ids) := code.2.inputs.foldl (renameInput idx) (st, [])
  let st := st.modifyOp idx fun op => { op with inputs := ids.map some }
  let st :=
    match code.2.output with
    | some out => st.define out idx
    | none => st
  (st, idx + 1)

def isOpen (st : Renaming) (idx j : ℕ) : Bool :=
  (st.ops.getD idx default).inputs[j]? = some none

/-- The `j`-th operand of one phi of a successor, unless it is set. -/
def fillPhi (start j : ℕ) (st : Renaming) (phi : Slot × ℕ) : Renaming :=
  if st.isOpen (start + phi.2) j then
    let (st, id) := st.scopedVar (slotVarnode phi.1)
    st.setPhiInput (start + phi.2) j id
  else st

def fillEdge (cfg : ControlFlowGraph) (b s : ℕ) (st : Renaming) (pred : ℕ × ℕ) : Renaming :=
  if pred.1 = b then (phisOf cfg s).zipIdx.foldl (fillPhi (blockStart cfg s) pred.2) st else st

def fillSuccessor (cfg : ControlFlowGraph) (b : ℕ) (st : Renaming) (s : ℕ) : Renaming :=
  (cfg.preds s).zipIdx.foldl (fillEdge cfg b s) st

def renameBlock (cfg : ControlFlowGraph) (b : ℕ) (st : Renaming) : Renaming :=
  let (st, idx) := (phisOf cfg b).foldl (renamePhi cfg b) (st, blockStart cfg b)
  let (st, _) := (blockCode cfg b).foldl renameOp (st, idx)
  (cfg.succs b).foldl (fillSuccessor cfg b) st

/-- The operand is still open at the end: the value on entry. -/
def closePhi (idx : ℕ) (k : Slot) (st : Renaming) (j : ℕ) : Renaming :=
  if st.isOpen idx j then
    let (st, id) := st.incomingVar (slotVarnode k)
    st.setPhiInput idx j id
  else st

def closeBlock (cfg : ControlFlowGraph) (st : Renaming) (b : ℕ) : Renaming :=
  (phisOf cfg b).zipIdx.foldl (fun st phi =>
    (List.range (phiWidth cfg b)).foldl (closePhi (blockStart cfg b + phi.2) phi.1) st) st

end Renaming

/-- The state with the number of entries at which each block on the walk was entered. -/
structure Scoped where
  st : Renaming
  entered : ℕ → ℕ

def enterBlock (cfg : ControlFlowGraph) (b : ℕ) (s : Scoped) : Scoped :=
  ⟨s.st.renameBlock cfg b, Function.update s.entered b s.st.entries.length⟩

/-- The names the block pushed go out of scope. -/
def leaveBlock (b : ℕ) (s : Scoped) : Scoped :=
  { s with
    st := { s.st with entries := s.st.entries.drop (s.st.entries.length - s.entered b) } }

def childrenOf (cfg : ControlFlowGraph) (b : ℕ) : List ℕ :=
  (List.range cfg.blocks.length).filter fun c => computeIdomForest cfg c = some b ∧ b ≠ c

def renameRoots (cfg : ControlFlowGraph) : List ℕ :=
  (if cfg.blocks = [] then [] else [cfg.entryBlock]) ++
    (List.range cfg.blocks.length).filter fun b => b ≠ cfg.entryBlock ∧
        (computeIdomForest cfg b = none ∨ computeIdomForest cfg b = some b)

def startState (cfg : ControlFlowGraph) : Scoped where
  st :=
    { varnodes := []
      ops := (List.range cfg.blocks.length).flatMap (blockOps cfg)
      versions := fun _ => 0
      incoming := fun _ => none
      entries := [] }
  entered := fun _ => 0

def renameAll (cfg : ControlFlowGraph) : TreeWalk.Walk Scoped :=
  TreeWalk.walkRoots (childrenOf cfg) (enterBlock cfg) leaveBlock
    (TreeWalk.stepBound (childrenOf cfg) cfg.blocks.length) (renameRoots cfg)
    ⟨[], [], startState cfg⟩

def closeAll (cfg : ControlFlowGraph) (st : Renaming) : Renaming :=
  (List.range cfg.blocks.length).foldl (Renaming.closeBlock cfg) st

def renamed (cfg : ControlFlowGraph) : Renaming := closeAll cfg (renameAll cfg).state.st

def BuildOp.finish (op : BuildOp) : SsaOp :=
  ⟨op.opcode, op.output, op.inputs.map (·.getD 0), op.block, op.address, false⟩

def fromCfg (cfg : ControlFlowGraph) : SsaFunction where
  varnodes := (renamed cfg).varnodes
  ops := (renamed cfg).ops.map BuildOp.finish
  cfg := cfg
  phantomWrites := []
  phantomRegs := []

end SsaBuild
