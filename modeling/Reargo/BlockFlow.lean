import Reargo.BlockShapes

/-!
# The flow over the blocks

The walk of the blocks by number, and the walk keyed by addresses that lifts take whose
addresses do not strictly increase. Both record a snapshot of the state at every call of
every visit. Maps keyed by addresses stand as association lists, the newest entry first
where nothing reads their order.
-/
namespace BlockFlow

open PcodeModel BlockShapes
open ControlFlow (LiftedInstruction)

def maxVisitsPerBlock : ℕ := 8

class FlowState (S : Type) where
  join : S → S → S
  apply : S → PcodeOp → S
  afterCall : S → S
  default : S

/-- What a flow records, and how often it visited each block, by address. -/
structure Outcome (T : Type) where
  snaps : List (U64 × T)
  visits : List (U64 × ℕ)
  deriving DecidableEq, Repr

variable {S T : Type} [FlowState S] [DecidableEq S]

open FlowState (join apply afterCall)

def joinAll : List S → Option S
  | [] => none
  | s :: ss => some (ss.foldl join s)

structure FlowScratch (S T : Type) where
  inEdges : List (List (ℕ × S))
  visits : List ℕ
  saturated : List Bool
  queued : List Bool
  worklist : List ℕ
  snaps : List (U64 × T)

/-- A block on its way: the state, the edges out of it so far, and the blocks its coming
jumps go to. -/
structure BlockWalk (S T : Type) where
  st : S
  out : List (ℕ × S)
  fallsThrough : Bool
  jumps : List (Option ℕ)
  snaps : List (U64 × T)

def addEdge (out : List (ℕ × S)) (dest : ℕ) (s : S) : List (ℕ × S) :=
  match out with
  | [] => [(dest, s)]
  | (t, prev) :: out =>
    if t = dest then (t, join prev s) :: out else (t, prev) :: addEdge out dest s

def addJump (out : List (ℕ × S)) (dest : Option ℕ) (s : S) : List (ℕ × S) :=
  match dest with
  | some dest => addEdge out dest s
  | none => out

def jumpBlock (op : PcodeOp) (jumps : List (Option ℕ)) : Option (Option ℕ × List (Option ℕ)) :=
  match InsnShape.branchTarget op with
  | none => some (none, jumps)
  | some _ =>
    match jumps with
    | [] => none
    | k :: jumps => some (k, jumps)

def walkOp (snapshot : S → T) (wanted : Bool) (address : U64) (w : BlockWalk S T) (op : PcodeOp) :
    Option (BlockWalk S T) :=
  match op.opcode with
  | .call | .callInd =>
    some
      { w with
        snaps := if wanted then w.snaps ++ [(address, snapshot w.st)] else w.snaps
        st := afterCall w.st }
  | .cBranch => (jumpBlock op w.jumps).map fun j =>
      { w with out := addJump w.out j.1 w.st, jumps := j.2 }
  | .branch => (jumpBlock op w.jumps).map fun j =>
      { w with out := addJump w.out j.1 w.st, jumps := j.2, fallsThrough := false }
  | .return | .branchInd => some { w with fallsThrough := false }
  | _ => some { w with st := apply w.st op }

def walkInsns (snapshot : S → T) (want : ℕ → Bool) :
    List (LiftedInstruction × ℕ) → BlockWalk S T → Option (BlockWalk S T)
  | [], w => some w
  | (insn, i) :: insns, w => do
    let w ← insn.ops.foldlM (walkOp snapshot (want i) insn.address) w
    if w.fallsThrough then walkInsns snapshot want insns w else some w

def queuePush (f : FlowScratch S T) (dest : ℕ) : FlowScratch S T :=
  if f.queued.getD dest false then f
  else { f with queued := f.queued.set dest true, worklist := f.worklist ++ [dest] }

/-- Put a state on the edge from a block; the edges into a block are kept by where they come
from. -/
def putEdge (edges : List (ℕ × S)) (b : ℕ) (s : S) : List (ℕ × S) :=
  OrderedMap.insertEntry b s edges

def sendEdge (relevant : ℕ → Bool) (b : ℕ) (f : FlowScratch S T) (e : ℕ × S) : FlowScratch S T :=
  if !relevant e.1 then f
  else
    let edges := f.inEdges.getD e.1 []
    if OrderedMap.lookup b edges = some e.2 then f
    else queuePush { f with inEdges := f.inEdges.set e.1 (putEdge edges b e.2) } e.1

def visitStart (cfg : Cfg) (f : FlowScratch S T) (b v : ℕ) : Option (S × Bool) :=
  if b = 0 ∨ cfg.unknownEntry.getD b false then some (FlowState.default, false)
  else if v > maxVisitsPerBlock then some (FlowState.default, true)
  else (joinAll ((f.inEdges.getD b []).map Prod.snd)).map fun s => (s, false)

def blockInsns (cfg : Cfg) (insns : List LiftedInstruction) (b : ℕ) :
    List (LiftedInstruction × ℕ) :=
  slice insns.zipIdx (cfg.startIdx.getD b 0) (cfg.startIdx.getD (b + 1) insns.length)

def blockJumps (cfg : Cfg) (b : ℕ) : List (Option ℕ) :=
  slice cfg.brBlock (cfg.brAt.getD b 0) (cfg.brAt.getD (b + 1) 0)

def walkBlock (cfg : Cfg) (insns : List LiftedInstruction) (snapshot : S → T) (want : ℕ → Bool)
    (relevant : ℕ → Bool) (b : ℕ) (st : S) (f : FlowScratch S T) : Option (FlowScratch S T) := do
  let w ← walkInsns snapshot want (blockInsns cfg insns b)
    { st := st, out := [], fallsThrough := true, jumps := blockJumps cfg b, snaps := f.snaps }
  let out :=
    if w.fallsThrough ∧ b + 1 < cfg.startIdx.length then addEdge w.out (b + 1) w.st else w.out
  let out := out.insertionSort (fun x y => x.1 ≤ y.1)
  some (out.foldl (sendEdge relevant b) { f with snaps := w.snaps })

def visitBlock (cfg : Cfg) (insns : List LiftedInstruction) (snapshot : S → T) (want : ℕ → Bool)
    (relevant : ℕ → Bool) (f : FlowScratch S T) (b : ℕ) : Option (FlowScratch S T) :=
  let v := f.visits.getD b 0 + 1
  let f := { f with visits := f.visits.set b v }
  match visitStart cfg f b v with
  | none => some f
  | some (st, last) =>
    walkBlock cfg insns snapshot want relevant b st
      (if last then { f with saturated := f.saturated.set b true } else f)

def isRelevant (cfg : Cfg) (b : ℕ) : Bool :=
  match cfg.relevant with
  | some r => r.getD b false
  | none => true

def initScratch (cfg : Cfg) : FlowScratch S T :=
  let nb := cfg.startIdx.length
  let worklist := (0 :: cfg.unknownBlocks).filter (isRelevant cfg)
  { inEdges := List.replicate nb []
    visits := List.replicate nb 0
    saturated := List.replicate nb false
    queued := worklist.foldl (fun q b => q.set b true) (List.replicate nb false)
    worklist := worklist
    snaps := [] }

/-- Visits until the worklist is empty; nothing when there are more, or a visit fails. -/
def flowLoop (cfg : Cfg) (insns : List LiftedInstruction) (snapshot : S → T) (want : ℕ → Bool) :
    ℕ → FlowScratch S T → Option (FlowScratch S T)
  | fuel, f =>
    match f.worklist with
    | [] => some f
    | b :: worklist =>
      match fuel with
      | 0 => none
      | fuel + 1 =>
        let f := { f with worklist := worklist, queued := f.queued.set b false }
        if f.saturated.getD b false then flowLoop cfg insns snapshot want fuel f
        else do
          let f ← visitBlock cfg insns snapshot want (isRelevant cfg) f b
          flowLoop cfg insns snapshot want fuel f

structure LegacyWalk (S T : Type) where
  st : S
  out : List (U64 × S)
  fallsThrough : Bool
  snaps : List (U64 × T)

def addEdgeAt (out : List (U64 × S)) (dest : U64) (s : S) : List (U64 × S) :=
  let joined :=
    match OrderedMap.lookup dest out with
    | some prev => join prev s
    | none => s
  OrderedMap.insertEntry dest joined out

def addJumpAt (starts : List U64) (op : PcodeOp) (out : List (U64 × S)) (s : S) :
    List (U64 × S) :=
  match (InsnShape.branchTarget op).filter (· ∈ starts) with
  | some t => addEdgeAt out t s
  | none => out

def legacyOp (starts : List U64) (snapshot : S → T) (address : U64) (w : LegacyWalk S T)
    (op : PcodeOp) : LegacyWalk S T :=
  match op.opcode with
  | .call | .callInd =>
    { w with snaps := w.snaps ++ [(address, snapshot w.st)], st := afterCall w.st }
  | .cBranch => { w with out := addJumpAt starts op w.out w.st }
  | .branch => { w with out := addJumpAt starts op w.out w.st, fallsThrough := false }
  | .return | .branchInd => { w with fallsThrough := false }
  | _ => { w with st := apply w.st op }

def legacyInsns (starts : List U64) (snapshot : S → T) :
    List LiftedInstruction → LegacyWalk S T → LegacyWalk S T
  | [], w => w
  | insn :: insns, w =>
    let w := insn.ops.foldl (legacyOp starts snapshot insn.address) w
    if w.fallsThrough then legacyInsns starts snapshot insns w else w

def indexOf (insns : List LiftedInstruction) (a : U64) : Option ℕ :=
  (insns.zipIdx.reverse.find? fun e => e.1.address = a).map Prod.snd

def inLift (insns : List LiftedInstruction) (a : U64) : Bool := (indexOf insns a).isSome

def insertKey (a : U64) : List U64 → List U64
  | [] => [a]
  | b :: bs => if a < b then a :: b :: bs else if a = b then b :: bs else b :: insertKey a bs

def isEnd (op : PcodeOp) : Bool :=
  isJump op || decide (op.opcode = .return) || decide (op.opcode = .branchInd)

/-- The block starts so far, and whether the instruction before ends a block. -/
def collectStarts (insns : List LiftedInstruction) (acc : List U64 × Bool)
    (insn : LiftedInstruction) : List U64 × Bool :=
  let starts := if acc.2 then insertKey insn.address acc.1 else acc.1
  (((jumpTargets insn).filter (inLift insns)).foldl (fun s t => insertKey t s) starts,
    insn.ops.any isEnd)

def legacyStarts (insns : List LiftedInstruction) (external : List U64) (entry : U64) : List U64 :=
  let starts := (external.filter (inLift insns)).foldl (fun s a => insertKey a s) [entry]
  (insns.foldl (collectStarts insns) (starts, false)).1

/-- Where the block at an address ends: the next start, or the last address. -/
def blockEnd (starts : List U64) (b : U64) : U64 := (starts.find? fun s => b < s).getD (-1)

def legacyBody (insns : List LiftedInstruction) (starts : List U64) (b : U64) :
    List LiftedInstruction :=
  match indexOf insns b with
  | some i => (insns.drop i).takeWhile fun insn => insn.address < blockEnd starts b
  | none => []

def isStop (op : PcodeOp) : Bool :=
  decide (op.opcode = .branch) || decide (op.opcode = .return) || decide (op.opcode = .branchInd)

def staticJumps (starts : List U64) : List LiftedInstruction → List U64 × Bool
  | [] => ([], true)
  | insn :: insns =>
    let jumps := (jumpTargets insn).filter (· ∈ starts)
    if insn.ops.any isStop then (jumps, false)
    else
      let (rest, falls) := staticJumps starts insns
      (jumps ++ rest, falls)

def legacySuccs (insns : List LiftedInstruction) (starts : List U64) (b : U64) : List U64 :=
  if b ∈ starts then
    let e := blockEnd starts b
    let (jumps, falls) := staticJumps starts (legacyBody insns starts b)
    if falls && inLift insns e then jumps ++ [e] else jumps
  else []

def legacyReached (insns : List LiftedInstruction) (starts : List U64) (entry : U64) : List U64 :=
  flood (insns.map LiftedInstruction.address) (legacySuccs insns starts) [entry] [entry]

structure LegacyScratch (S T : Type) where
  edges : List ((U64 × U64) × S)
  preds : List (U64 × List U64)
  visits : List (U64 × ℕ)
  saturated : List U64
  queued : List U64
  worklist : List U64
  snaps : List (U64 × T)

def predsOf (f : LegacyScratch S T) (b : U64) : List U64 := (f.preds.lookup b).getD []

def incomingOf (f : LegacyScratch S T) (b : U64) : List S :=
  (predsOf f b).filterMap fun p => f.edges.lookup (p, b)

def sendEdgeAt (b : U64) (f : LegacyScratch S T) (e : U64 × S) : LegacyScratch S T :=
  let f := { f with preds := (e.1, insertKey b (predsOf f e.1)) :: f.preds }
  if f.edges.lookup (b, e.1) = some e.2 then f
  else
    let f := { f with edges := ((b, e.1), e.2) :: f.edges }
    if e.1 ∈ f.queued then f
    else { f with queued := e.1 :: f.queued, worklist := f.worklist ++ [e.1] }

def visitStartAt (unknown : U64 → Bool) (entry : U64) (f : LegacyScratch S T) (b : U64) (v : ℕ) :
    Option (S × Bool) :=
  if b = entry ∨ unknown b then some (FlowState.default, false)
  else if v > maxVisitsPerBlock then some (FlowState.default, true)
  else (joinAll (incomingOf f b)).map fun s => (s, false)

def walkBlockAt (insns : List LiftedInstruction) (starts : List U64) (snapshot : S → T) (b : U64)
    (st : S) (f : LegacyScratch S T) : LegacyScratch S T :=
  let e := blockEnd starts b
  if !inLift insns b then f
  else
    let w := legacyInsns starts snapshot (legacyBody insns starts b)
      { st := st, out := [], fallsThrough := true, snaps := f.snaps }
    let out :=
      if w.fallsThrough ∧ e ≠ -1 ∧ inLift insns e then addEdgeAt w.out e w.st else w.out
    out.foldl (sendEdgeAt b) { f with snaps := w.snaps }

def visitBlockAt (insns : List LiftedInstruction) (starts : List U64) (unknown : U64 → Bool)
    (entry : U64) (snapshot : S → T) (f : LegacyScratch S T) (b : U64) : LegacyScratch S T :=
  let v := (f.visits.lookup b).getD 0 + 1
  let f := { f with visits := (b, v) :: f.visits }
  match visitStartAt unknown entry f b v with
  | none => f
  | some (st, last) =>
    walkBlockAt insns starts snapshot b st
      (if last then { f with saturated := b :: f.saturated } else f)

def legacyLoop (insns : List LiftedInstruction) (starts : List U64) (unknown : U64 → Bool)
    (entry : U64) (snapshot : S → T) : ℕ → LegacyScratch S T → Option (LegacyScratch S T)
  | fuel, f =>
    match f.worklist with
    | [] => some f
    | b :: worklist =>
      match fuel with
      | 0 => none
      | fuel + 1 =>
        let f := { f with worklist := worklist, queued := f.queued.filter (· ≠ b) }
        if b ∈ f.saturated then legacyLoop insns starts unknown entry snapshot fuel f
        else
          legacyLoop insns starts unknown entry snapshot fuel
            (visitBlockAt insns starts unknown entry snapshot f b)

def legacyUnknown (insns : List LiftedInstruction) (external : List U64) (inBody : U64 → Bool)
    (entry : U64) : List U64 :=
  let starts := legacyStarts insns external entry
  let reached := legacyReached insns starts entry
  starts.filter fun b =>
    decide (b ≠ entry) && (decide (b ∈ external) || (decide (b ∉ reached) && inBody b))

/-- The flow keyed by addresses. -/
def propagateLegacy (fuel : ℕ) (insns : List LiftedInstruction) (external : List U64)
    (inBody : U64 → Bool) (snapshot : S → T) : Option (Outcome T) :=
  match insns with
  | [] => some ⟨[], []⟩
  | first :: _ =>
    let entry := first.address
    let starts := legacyStarts insns external entry
    let unknown := legacyUnknown insns external inBody entry
    let worklist := entry :: unknown
    (legacyLoop insns starts (· ∈ unknown) entry snapshot fuel
        { edges := [], preds := [], visits := [], saturated := [], queued := worklist,
          worklist := worklist, snaps := [] }).map fun f =>
      ⟨f.snaps, starts.map fun b => (b, (f.visits.lookup b).getD 0)⟩

def propagateCfgWith (fuel : ℕ) (cfg : Cfg) (insns : List LiftedInstruction) (snapshot : S → T)
    (want : ℕ → Bool) : Option (Outcome T) :=
  if cfg.legacy then
    propagateLegacy fuel insns cfg.external (· ∈ cfg.inBodyBlocks) snapshot
  else if cfg.startIdx.length = 0 then some ⟨[], []⟩
  else
    (flowLoop cfg insns snapshot want fuel (initScratch cfg)).map fun f =>
      ⟨f.snaps, cfg.startAddr.zip f.visits⟩

def propagateCfg (fuel : ℕ) (cfg : Cfg) (insns : List LiftedInstruction) (snapshot : S → T) :
    Option (Outcome T) :=
  propagateCfgWith fuel cfg insns snapshot fun _ => true

end BlockFlow
