import Mathlib.Data.List.GetD
import Reargo.OrderedMap
import Reargo.PcodeModel

/-!
# The control-flow graph

Basic blocks from lifted instructions: leaders, the runs between them, successor
edges of the last instruction of each run, and the predecessor lists that mirror
them. A block's identity is its position. Jump tables found later (`switches`) are carried by the graph.
-/
namespace ControlFlow

open PcodeModel OrderedMap List

structure LiftedInstruction where
  address : U64
  length : ℕ
  mnemonic : String
  ops : List PcodeOp
  deriving DecidableEq, Repr, Inhabited

structure BasicBlock where
  id : ℕ
  startAddr : U64
  instructions : List LiftedInstruction
  successors : List ℕ
  predecessors : List ℕ
  deriving DecidableEq, Repr, Inhabited

/-- The block each case value goes to, and where the bounds check sends the others. -/
structure SwitchInfo where
  cases : List (U64 × ℕ)
  default : Option ℕ
  deriving DecidableEq, Repr, Inhabited

/-- Addresses in increasing order, so the binary search finds the only entry of an address. -/
abbrev AddrIndex := List (U64 × ℕ)

def AddrIndex.get (index : AddrIndex) (addr : U64) : Option ℕ := index.lookup addr

structure ControlFlowGraph where
  blocks : List BasicBlock
  entryBlock : ℕ
  addrToBlock : AddrIndex
  switches : OrdMap ℕ SwitchInfo

namespace ControlFlowGraph

def block (cfg : ControlFlowGraph) (b : ℕ) : BasicBlock := cfg.blocks.getD b default
def succs (cfg : ControlFlowGraph) (b : ℕ) : List ℕ := (cfg.block b).successors
def preds (cfg : ControlFlowGraph) (b : ℕ) : List ℕ := (cfg.block b).predecessors

end ControlFlowGraph

def endAddrOf (insn : LiftedInstruction) : U64 := insn.address + BitVec.ofNat 64 insn.length

/-- The case targets a recovered jump table put on a `BRANCHIND`. -/
def switchTargets (op : PcodeOp) : List U64 :=
  ((op.inputs.drop 1).filter fun v => op.opcode = .branchInd ∧ v.space = .ram).map
    VarnodeData.offset

/-- The intrinsic number of a call that never returns. -/
def noreturn : U64 := 0xff

/-- `CALLOTHER` of `int3` or of a call that never returns. -/
def isTrapOp (op : PcodeOp) : Bool :=
  op.opcode = .callOther ∧
    op.inputs.head?.any fun c => c.space = .const ∧ (c.offset = 3 ∨ c.offset = noreturn)

/-- The characters of Unicode's `White_Space`. -/
def isWhitespace (c : Char) : Bool :=
  9 ≤ c.toNat ∧ c.toNat ≤ 13 ∨ 0x2000 ≤ c.toNat ∧ c.toNat ≤ 0x200a ∨
    c.toNat ∈ [0x20, 0x85, 0xa0, 0x1680, 0x2028, 0x2029, 0x202f, 0x205f, 0x3000]

/-- The first of a text's words, empty where it has none. -/
def firstWord (text : String) : List Char :=
  (text.toList.dropWhile isWhitespace).takeWhile (!isWhitespace ·)

/-- The text's first word is `ud2` or `hlt`. -/
def isTrapText (insn : LiftedInstruction) : Bool :=
  let word := firstWord insn.mnemonic
  word = ['u', 'd', '2'] ∨ word = ['h', 'l', 't']

def isTrap (insn : LiftedInstruction) : Bool := insn.ops.any isTrapOp || isTrapText insn

def hasOp (opcode : OpCode) (insn : LiftedInstruction) : Bool :=
  insn.ops.any fun op => op.opcode = opcode

/-- Does a block end here, and do its jump targets start one? -/
def endsBlock (insn : LiftedInstruction) : Bool :=
  hasOp .branch insn || hasOp .cBranch insn || hasOp .branchInd insn || hasOp .return insn ||
    isTrap insn

def branchLeader (op : PcodeOp) : List U64 :=
  if op.opcode = .branch ∨ op.opcode = .cBranch then
    match op.inputs.head? with
    | some target => if target.space = .ram then [target.offset] else []
    | none => []
  else []

def leadersOf (insn : LiftedInstruction) : List U64 :=
  if endsBlock insn then
    (insn.ops.flatMap fun op => branchLeader op ++ switchTargets op) ++ [endAddrOf insn]
  else []

def computeLeaders (instructions : List LiftedInstruction) : List U64 :=
  ((instructions.head?.map LiftedInstruction.address).toList ++ instructions.flatMap leadersOf).mergeSort
    |>.dedup

def takeRun (leader next : U64) :
    List LiftedInstruction → List LiftedInstruction × List LiftedInstruction
  | [] => ([], [])
  | insn :: rest =>
    if insn.address < leader then takeRun leader next rest
    else if insn.address ≥ next then ([], insn :: rest)
    else
      let (run, left) := takeRun leader next rest
      (insn :: run, left)

/-- The non-empty runs with their leaders, in order. -/
def runs : List U64 → List LiftedInstruction → List (U64 × List LiftedInstruction)
  | [], _ => []
  | leader :: leaders, insns =>
    let next := leaders.head?.getD (BitVec.allOnes 64)
    let (run, left) := takeRun leader next insns
    if run = [] then runs leaders left else (leader, run) :: runs leaders left

def indexOf (rs : List (U64 × List LiftedInstruction)) : AddrIndex :=
  rs.zipIdx.map fun r => (r.1.1, r.2)

/-- The operand of the last branch or call of the instruction, when it is a code address. -/
def branchTarget (insn : LiftedInstruction) : Option U64 :=
  insn.ops.reverse.findSome? fun op =>
    if op.opcode = .branch ∨ op.opcode = .cBranch ∨ op.opcode = .call then
      match op.inputs.head? with
      | some vn => if vn.space = .ram then some vn.offset else none
      | none => none
    else none

def pushNew (ids : List ℕ) (id : ℕ) : List ℕ := if id ∈ ids then ids else ids ++ [id]

def successorsOf (index : AddrIndex) (insn : LiftedInstruction) : List ℕ :=
  let target := ((branchTarget insn).bind index.get).toList
  let fall := (index.get (endAddrOf insn)).toList
  if hasOp .branchInd insn then
    ((insn.ops.flatMap switchTargets).filterMap index.get).foldl pushNew []
  else if hasOp .return insn || isTrap insn then []
  else if hasOp .branch insn && !hasOp .cBranch insn then target
  else if hasOp .cBranch insn then target ++ fall
  else fall

def blockOf (index : AddrIndex) (run : (U64 × List LiftedInstruction) × ℕ) : BasicBlock where
  id := run.2
  startAddr := run.1.1
  instructions := run.1.2
  successors := (run.1.2.getLast?.map (successorsOf index)).getD (index.get run.1.1).toList
  predecessors := []

/-- One edge added to the predecessors of its target, once. -/
def linkPred (blocks : List BasicBlock) (edge : ℕ × ℕ) : List BasicBlock :=
  blocks.modify edge.2 fun b => { b with predecessors := pushNew b.predecessors edge.1 }

def edgesOf (blocks : List BasicBlock) : List (ℕ × ℕ) :=
  blocks.zipIdx.flatMap fun b => b.1.successors.map fun s => (b.2, s)

def linkPreds (blocks : List BasicBlock) : List BasicBlock :=
  (edgesOf blocks).foldl linkPred blocks

def emptyCfg : ControlFlowGraph := ⟨[⟨0, 0, [], [], []⟩], 0, [], OrdMap.empty⟩

def finalizeCfg (rs : List (U64 × List LiftedInstruction)) (entryAddr : U64) : ControlFlowGraph where
  blocks := linkPreds (rs.zipIdx.map (blockOf (indexOf rs)))
  entryBlock := ((indexOf rs).get entryAddr).getD 0
  addrToBlock := indexOf rs
  switches := OrdMap.empty

def ControlFlowGraph.build (instructions : List LiftedInstruction) : ControlFlowGraph :=
  match instructions with
  | [] => emptyCfg
  | first :: _ => finalizeCfg (runs (computeLeaders instructions) instructions) first.address

/-- Edges stay inside the graph and predecessor lists mirror them, each predecessor once. -/
structure ControlFlowGraph.WellFormed (cfg : ControlFlowGraph) : Prop where
  entry_lt : cfg.blocks ≠ [] → cfg.entryBlock < cfg.blocks.length
  succ_lt : ∀ b s, s ∈ cfg.succs b → s < cfg.blocks.length
  mirror : ∀ b s, b ∈ cfg.preds s ↔ s ∈ cfg.succs b
  preds_nodup : ∀ b, (cfg.preds b).Nodup

structure ControlFlowGraph.Mirrored (cfg : ControlFlowGraph) : Prop where
  entry_lt : cfg.blocks ≠ [] → cfg.entryBlock < cfg.blocks.length
  mirror : ∀ b s, b ∈ cfg.preds s ↔ s ∈ cfg.succs b

section Mirrored

variable {cfg : ControlFlowGraph}

theorem ControlFlowGraph.WellFormed.mirrored (h : cfg.WellFormed) : cfg.Mirrored :=
  ⟨h.entry_lt, h.mirror⟩

theorem lt_of_mem_succs {p s : ℕ} (h : s ∈ cfg.succs p) : p < cfg.blocks.length := by
  by_contra hge
  rw [ControlFlowGraph.succs, ControlFlowGraph.block, getD_eq_default _ _ (by omega)] at h
  exact not_mem_nil h

theorem lt_of_mem_preds {p s : ℕ} (h : p ∈ cfg.preds s) : s < cfg.blocks.length := by
  by_contra hge
  rw [ControlFlowGraph.preds, ControlFlowGraph.block, getD_eq_default _ _ (by omega)] at h
  exact not_mem_nil h

theorem ControlFlowGraph.Mirrored.succ_lt (h : cfg.Mirrored) {p s : ℕ} (hs : s ∈ cfg.succs p) :
    s < cfg.blocks.length :=
  lt_of_mem_preds ((h.mirror p s).mpr hs)

theorem ControlFlowGraph.Mirrored.pred_lt (h : cfg.Mirrored) {p s : ℕ} (hp : p ∈ cfg.preds s) :
    p < cfg.blocks.length :=
  lt_of_mem_succs ((h.mirror p s).mp hp)

end Mirrored

theorem mem_pushNew {ids : List ℕ} {id x : ℕ} : x ∈ pushNew ids id ↔ x ∈ ids ∨ x = id := by
  unfold pushNew
  split
  · next h =>
    constructor
    · exact .inl
    · rintro (hx | rfl)
      · exact hx
      · exact h
  · simp

theorem nodup_pushNew {ids : List ℕ} (h : ids.Nodup) (id : ℕ) : (pushNew ids id).Nodup := by
  unfold pushNew
  split
  · exact h
  · next hnew =>
    rw [nodup_append]
    refine ⟨h, nodup_singleton id, ?_⟩
    intro a ha b hb
    rw [mem_singleton] at hb
    rintro rfl
    exact hnew (hb ▸ ha)

theorem mem_foldl_pushNew {new ids : List ℕ} {x : ℕ} :
    x ∈ new.foldl pushNew ids ↔ x ∈ ids ∨ x ∈ new := by
  induction new generalizing ids with
  | nil => simp
  | cons id new ih => rw [foldl_cons, ih, mem_pushNew, mem_cons, or_assoc]

def blockAt (blocks : List BasicBlock) (b : ℕ) : BasicBlock := blocks.getD b default

theorem blockAt_linkPred (blocks : List BasicBlock) (edge : ℕ × ℕ) (b : ℕ) :
    blockAt (linkPred blocks edge) b =
      if b = edge.2 ∧ b < blocks.length then
        { blockAt blocks b with predecessors := pushNew (blockAt blocks b).predecessors edge.1 }
      else blockAt blocks b := by
  unfold blockAt linkPred
  rw [getD_eq_getElem?_getD, getElem?_modify, getD_eq_getElem?_getD]
  by_cases hb : b < blocks.length
  · rw [getElem?_eq_getElem hb]
    by_cases he : edge.2 = b
    · simp [he, hb]
    · simp [he, Ne.symm he]
  · rw [getElem?_eq_none (by omega)]
    simp [hb]

theorem foldl_linkPred_spec (edges : List (ℕ × ℕ)) (blocks : List BasicBlock) :
    (edges.foldl linkPred blocks).length = blocks.length ∧
      ∀ b, (blockAt (edges.foldl linkPred blocks) b).successors = (blockAt blocks b).successors ∧
        ((blockAt blocks b).predecessors.Nodup →
          (blockAt (edges.foldl linkPred blocks) b).predecessors.Nodup) ∧
        ∀ p, p ∈ (blockAt (edges.foldl linkPred blocks) b).predecessors ↔
          p ∈ (blockAt blocks b).predecessors ∨ (b < blocks.length ∧ (p, b) ∈ edges) := by
  induction edges generalizing blocks with
  | nil => simp
  | cons edge edges ih =>
    obtain ⟨hlen, hspec⟩ := ih (linkPred blocks edge)
    have hlen' : (linkPred blocks edge).length = blocks.length := by simp [linkPred]
    refine ⟨hlen.trans hlen', fun b => ?_⟩
    obtain ⟨hsucc, hnodup, hmem⟩ := hspec b
    rw [foldl_cons]
    refine ⟨?_, fun hn => hnodup ?_, fun p => ?_⟩
    · rw [hsucc, blockAt_linkPred]
      split <;> rfl
    · rw [blockAt_linkPred]
      split
      · exact nodup_pushNew hn _
      · exact hn
    · rw [hmem p, hlen', blockAt_linkPred, mem_cons]
      split
      · next h =>
        obtain ⟨he, hlt⟩ := h
        rw [he] at hlt
        simp only [mem_pushNew, Prod.ext_iff, he]
        tauto
      · next h =>
        constructor
        · rintro (hp | ⟨hlt, hp⟩)
          · exact .inl hp
          · exact .inr ⟨hlt, .inr hp⟩
        · rintro (hp | ⟨hlt, heq | hp⟩)
          · exact .inl hp
          · exact absurd ⟨congrArg Prod.snd heq, hlt⟩ h
          · exact .inr ⟨hlt, hp⟩

variable {blocks : List BasicBlock}

theorem mem_edgesOf {p b : ℕ} : (p, b) ∈ edgesOf blocks ↔ b ∈ (blockAt blocks p).successors := by
  unfold edgesOf blockAt
  simp only [mem_flatMap, mem_map, Prod.mk.injEq]
  constructor
  · rintro ⟨⟨blk, i⟩, hmem, s, hs, rfl, rfl⟩
    rw [mem_zipIdx_iff_getElem?] at hmem
    rw [getD_eq_getElem?_getD, hmem]
    exact hs
  · intro hb
    by_cases hp : p < blocks.length
    · refine ⟨(blocks[p], p), ?_, b, ?_, rfl, rfl⟩
      · rw [mem_zipIdx_iff_getElem?]
        exact getElem?_eq_getElem hp
      · rwa [getD_eq_getElem?_getD, getElem?_eq_getElem hp] at hb
    · rw [getD_eq_getElem?_getD, getElem?_eq_none (by omega)] at hb
      exact absurd hb not_mem_nil

variable {switches : OrdMap ℕ SwitchInfo}

theorem wellFormed_linkPreds {entry : ℕ} {index : AddrIndex}
    (hentry : blocks ≠ [] → entry < blocks.length)
    (hsucc : ∀ b, ∀ s ∈ (blockAt blocks b).successors, s < blocks.length)
    (hpreds : ∀ b, (blockAt blocks b).predecessors = []) :
    (ControlFlowGraph.mk (linkPreds blocks) entry index switches).WellFormed := by
  obtain ⟨hlen, hspec⟩ := foldl_linkPred_spec (edgesOf blocks) blocks
  refine ⟨fun hne => ?_, fun b s hs => ?_, fun b s => ?_, fun b => ?_⟩
  · have hblocks : blocks ≠ [] := by
      rintro rfl
      exact hne rfl
    exact lt_of_lt_of_eq (hentry hblocks) hlen.symm
  · have hs' : s ∈ (blockAt blocks b).successors := (hspec b).1 ▸ hs
    exact lt_of_lt_of_eq (hsucc b s hs') hlen.symm
  · have hmem := (hspec s).2.2 b
    rw [hpreds s, mem_edgesOf, ← (hspec b).1] at hmem
    refine hmem.trans ⟨?_, fun hs => .inr ⟨?_, hs⟩⟩
    · rintro (hb | ⟨-, hb⟩)
      · exact absurd hb not_mem_nil
      · exact hb
    · exact hsucc b s ((hspec b).1 ▸ hs)
  · exact (hspec b).2.1 (by rw [hpreds b]; exact nodup_nil)

theorem wellFormed_linkPreds_of_all {entry : ℕ} {index : AddrIndex} (hentry : entry < blocks.length)
    (hall : ∀ blk ∈ blocks, blk.predecessors = [] ∧ ∀ s ∈ blk.successors, s < blocks.length) :
    (ControlFlowGraph.mk (linkPreds blocks) entry index switches).WellFormed := by
  have hblock : ∀ b, blockAt blocks b ∈ blocks ∨ blockAt blocks b = default := by
    intro b
    unfold blockAt
    by_cases hb : b < blocks.length
    · rw [getD_eq_getElem _ _ hb]
      exact .inl (getElem_mem hb)
    · exact .inr (getD_eq_default _ _ (by omega))
  refine wellFormed_linkPreds (fun _ => hentry) (fun b s hs => ?_) fun b => ?_
  · rcases hblock b with hmem | hdef
    · exact (hall _ hmem).2 s hs
    · rw [hdef] at hs
      exact absurd hs not_mem_nil
  · rcases hblock b with hmem | hdef
    · exact (hall _ hmem).1
    · rw [hdef]
      rfl

theorem mem_of_get {index : AddrIndex} {addr : U64} {id : ℕ} (h : index.get addr = some id) :
    (addr, id) ∈ index := by
  unfold AddrIndex.get at h
  induction index with
  | nil => cases h
  | cons entry index ih =>
    rw [lookup_cons] at h
    split at h
    · next heq =>
      rw [beq_iff_eq] at heq
      obtain rfl := Option.some.inj h
      rw [heq]
      exact mem_cons_self
    · exact mem_cons_of_mem _ (ih h)

theorem get_indexOf_lt {rs : List (U64 × List LiftedInstruction)} {addr : U64} {id : ℕ}
    (h : (indexOf rs).get addr = some id) : id < rs.length := by
  have hmem := mem_of_get h
  unfold indexOf at hmem
  obtain ⟨⟨r, i⟩, hr, he⟩ := mem_map.mp hmem
  rw [mem_zipIdx_iff_getElem?] at hr
  obtain rfl : i = id := congrArg Prod.snd he
  exact (List.getElem?_eq_some_iff.mp hr).1

theorem mem_successorsOf {index : AddrIndex} {insn : LiftedInstruction} {s : ℕ}
    (h : s ∈ successorsOf index insn) : ∃ addr, index.get addr = some s := by
  unfold successorsOf at h
  simp only at h
  have htarget : s ∈ ((branchTarget insn).bind index.get).toList → ∃ addr, index.get addr = some s := by
    intro hs
    rw [Option.mem_toList] at hs
    obtain ⟨addr, -, ha⟩ := Option.bind_eq_some_iff.mp hs
    exact ⟨addr, ha⟩
  have hfall : s ∈ (index.get (endAddrOf insn)).toList → ∃ addr, index.get addr = some s := by
    intro hs
    rw [Option.mem_toList] at hs
    exact ⟨_, hs⟩
  split at h
  · rw [mem_foldl_pushNew] at h
    obtain ⟨addr, -, ha⟩ := mem_filterMap.mp (h.resolve_left not_mem_nil)
    exact ⟨addr, ha⟩
  · split at h
    · exact absurd h not_mem_nil
    · split at h
      · exact htarget h
      · split at h
        · rcases mem_append.mp h with h | h
          · exact htarget h
          · exact hfall h
        · exact hfall h

theorem build_wellFormed (instructions : List LiftedInstruction) :
    (ControlFlowGraph.build instructions).WellFormed := by
  cases instructions with
  | nil =>
    refine ⟨fun _ => Nat.one_pos, fun b s hs => ?_, fun b s => ?_, fun b => ?_⟩
    · cases b <;> exact absurd hs not_mem_nil
    · cases b <;> cases s <;> exact iff_of_false not_mem_nil not_mem_nil
    · cases b <;> exact nodup_nil
  | cons first rest =>
    unfold ControlFlowGraph.build finalizeCfg
    simp only
    generalize runs (computeLeaders (first :: rest)) (first :: rest) = rs
    have hlen : (rs.zipIdx.map (blockOf (indexOf rs))).length = rs.length := by simp
    have hblock : ∀ b, blockAt (rs.zipIdx.map (blockOf (indexOf rs))) b = default ∨
        ∃ r, blockAt (rs.zipIdx.map (blockOf (indexOf rs))) b = blockOf (indexOf rs) r := by
      intro b
      unfold blockAt
      rw [getD_eq_getElem?_getD, getElem?_map]
      cases rs.zipIdx[b]? with
      | none => exact .inl rfl
      | some r => exact .inr ⟨r, rfl⟩
    refine wellFormed_linkPreds (fun hne => ?_) (fun b s hs => ?_) fun b => ?_
    · rw [hlen]
      cases hget : (indexOf rs).get first.address with
      | none =>
        have : rs ≠ [] := by
          rintro rfl
          exact hne rfl
        exact length_pos_iff.mpr this
      | some id => exact get_indexOf_lt hget
    · rw [hlen]
      rcases hblock b with hb | ⟨r, hb⟩
      · rw [hb] at hs
        exact absurd hs not_mem_nil
      · rw [hb, blockOf] at hs
        simp only at hs
        cases hlast : r.1.2.getLast? with
        | none =>
          rw [hlast] at hs
          exact get_indexOf_lt (Option.mem_toList.mp hs)
        | some insn =>
          rw [hlast] at hs
          obtain ⟨addr, ha⟩ := mem_successorsOf hs
          exact get_indexOf_lt ha
    · rcases hblock b with hb | ⟨r, hb⟩ <;> rw [hb]
      · rfl
      · rfl

end ControlFlow
