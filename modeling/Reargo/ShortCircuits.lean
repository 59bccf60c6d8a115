import Reargo.ConditionTests
import Reargo.Worklist

/-!
# Short-circuit conditions

Blocks that print nothing are threaded, then `A → {S, B}, B → {S, Y}` becomes
`A → {S, Y}` when `B` is reached only from `A` and holds nothing but its test. The
condition a block branches on is a tree over the original conditions.
-/
namespace ShortCircuits

open ControlFlow SsaModel ConditionTests

inductive Cond where
  /-- The original condition of a block, to its first successor. -/
  | leaf (block : ℕ) (negated : Bool)
  | or (cs : List Cond)
  | and (cs : List Cond)

mutual

/-- Negation pushed down to the leaves. -/
def Cond.negate : Cond → Cond
  | .leaf block negated => .leaf block !negated
  | .or cs => .and (Cond.negateAll cs)
  | .and cs => .or (Cond.negateAll cs)

def Cond.negateAll : List Cond → List Cond
  | [] => []
  | c :: cs => c.negate :: Cond.negateAll cs

end

/-- A disjunction contributes its members. -/
def Cond.disjuncts : Cond → List Cond
  | .or cs => cs
  | c => [c]

def Cond.orOf (a b : Cond) : Cond := .or (a.disjuncts ++ b.disjuncts)

mutual

/-- The tree's value under the original conditions. -/
def Cond.eval (σ : ℕ → Bool) : Cond → Bool
  | .leaf block negated => σ block ^^ negated
  | .or cs => Cond.evalAny σ cs
  | .and cs => Cond.evalAll σ cs

def Cond.evalAny (σ : ℕ → Bool) : List Cond → Bool
  | [] => false
  | c :: cs => c.eval σ || Cond.evalAny σ cs

def Cond.evalAll (σ : ℕ → Bool) : List Cond → Bool
  | [] => true
  | c :: cs => c.eval σ && Cond.evalAll σ cs

end

mutual

theorem eval_negate (σ : ℕ → Bool) : ∀ c : Cond, c.negate.eval σ = !c.eval σ
  | .leaf block negated => by simp [Cond.negate, Cond.eval]
  | .or cs => by simp [Cond.negate, Cond.eval, evalAll_negateAll σ cs]
  | .and cs => by simp [Cond.negate, Cond.eval, evalAny_negateAll σ cs]

theorem evalAll_negateAll (σ : ℕ → Bool) :
    ∀ cs : List Cond, Cond.evalAll σ (Cond.negateAll cs) = !Cond.evalAny σ cs
  | [] => rfl
  | c :: cs => by
    simp [Cond.negateAll, Cond.evalAll, Cond.evalAny, eval_negate σ c, evalAll_negateAll σ cs]

theorem evalAny_negateAll (σ : ℕ → Bool) :
    ∀ cs : List Cond, Cond.evalAny σ (Cond.negateAll cs) = !Cond.evalAll σ cs
  | [] => rfl
  | c :: cs => by
    simp [Cond.negateAll, Cond.evalAll, Cond.evalAny, eval_negate σ c, evalAny_negateAll σ cs]

end

theorem evalAny_append (σ : ℕ → Bool) (cs ds : List Cond) :
    Cond.evalAny σ (cs ++ ds) = (Cond.evalAny σ cs || Cond.evalAny σ ds) := by
  induction cs with
  | nil => rfl
  | cons c cs ih => rw [List.cons_append, Cond.evalAny, Cond.evalAny, ih, Bool.or_assoc]

theorem evalAny_disjuncts (σ : ℕ → Bool) (c : Cond) : Cond.evalAny σ c.disjuncts = c.eval σ := by
  cases c with
  | or cs => rfl
  | leaf block negated => simp [Cond.disjuncts, Cond.evalAny]
  | and cs => simp [Cond.disjuncts, Cond.evalAny]

theorem eval_orOf (σ : ℕ → Bool) (a b : Cond) : (a.orOf b).eval σ = (a.eval σ || b.eval σ) := by
  unfold Cond.orOf
  rw [Cond.eval, evalAny_append, evalAny_disjuncts, evalAny_disjuncts]

def setSuccessors (cfg : ControlFlowGraph) (b : ℕ) (succs : List ℕ) : ControlFlowGraph :=
  { cfg with blocks := cfg.blocks.modify b fun blk => { blk with successors := succs } }

def mapPredecessors (cfg : ControlFlowGraph) (b : ℕ) (f : List ℕ → List ℕ) : ControlFlowGraph :=
  { cfg with
    blocks := cfg.blocks.modify b fun blk => { blk with predecessors := f blk.predecessors } }

def cloneEdges (cfg : ControlFlowGraph) : ControlFlowGraph :=
  { cfg with blocks := cfg.blocks.map fun blk => { blk with instructions := [] } }

def isSwitch (cfg : ControlFlowGraph) (b : ℕ) : Bool := (cfg.switches.get? b).isSome

/-- A block that prints nothing and goes on to one other block. -/
def isEmptyBlock (func : SsaFunction) (b : ℕ) : Bool :=
  decide (b ≠ func.cfg.entryBlock) && (match func.cfg.succs b with
      | [s] => decide (s ≠ b)
      | _ => false) &&
    (opsOfBlock func b).all fun o => (func.op o).opcode = .branch ∨ (func.op o).opcode = .multiEqual

/-- Where at most `steps` empty blocks lead. -/
def resolve (cfg : ControlFlowGraph) (empty : ℕ → Bool) : ℕ → ℕ → ℕ
  | 0, b => b
  | steps + 1, b =>
    if empty b then resolve cfg empty steps ((cfg.succs b).getD 0 0) else b

/-- Two arms that reach the same block are one: the test decides nothing. -/
def joinArms : List ℕ → List ℕ
  | [s, t] => if s = t then [s] else [s, t]
  | succs => succs

def threadedArms (cfg : ControlFlowGraph) (empty : ℕ → Bool) (b : ℕ) : List ℕ :=
  (cfg.succs b).map (resolve cfg empty cfg.blocks.length)

/-- Threads the edges of one block; the successors of a jump table stay its cases. -/
def threadBlock (empty : ℕ → Bool) (st : ControlFlowGraph × Bool) (b : ℕ) :
    ControlFlowGraph × Bool :=
  if isSwitch st.1 b || threadedArms st.1 empty b = st.1.succs b then st
  else (setSuccessors st.1 b (joinArms (threadedArms st.1 empty b)), true)

def threadEdges (cfg : ControlFlowGraph) (empty : ℕ → Bool) : ControlFlowGraph × Bool :=
  (List.range cfg.blocks.length).foldl (threadBlock empty) (cfg, false)

/-- Blocks the search did not mark lose their edges; no block has predecessors yet. -/
def dropUnreached (reach : List Bool) (blocks : List BasicBlock) : List BasicBlock :=
  blocks.zipIdx.map fun b => { b.1 with
      successors := if Worklist.marked reach b.2 then b.1.successors else []
      predecessors := [] }

def threadEmptyBlocks (cfg : ControlFlowGraph) (empty : ℕ → Bool) : ControlFlowGraph :=
  let threaded := threadEdges cfg empty
  if threaded.2 then
    let reach :=
      Worklist.reachFrom threaded.1.succs threaded.1.blocks.length threaded.1.entryBlock
    { threaded.1 with blocks := linkPreds (dropUnreached reach threaded.1.blocks) }
  else threaded.1

def two : List ℕ → Bool
  | [s, t] => s ≠ t
  | _ => false

structure MergeState where
  cfg : ControlFlowGraph
  conds : ℕ → Option Cond

def condOf (conds : ℕ → Option Cond) (b : ℕ) : Cond := (conds b).getD (.leaf b false)

def outerArm (b : ℕ) : List ℕ → Option (ℕ × Bool)
  | [s, t] => if s ≠ b then (if t = b then some (s, false) else none) else some (t, true)
  | _ => none

def innerArm (s : ℕ) : List ℕ → Option (ℕ × Bool)
  | [x, y] => if x = s then some (y, false) else if y = s then some (x, true) else none
  | _ => none

def armCond (negated : Bool) (c : Cond) : Cond := if negated then c.negate else c

/-- The inner test `b` goes into its only predecessor `a`: both lead to `s`. -/
def collapse (st : MergeState) (a b s y : ℕ) (na nb : Bool) : MergeState where
  cfg :=
    mapPredecessors (mapPredecessors (mapPredecessors
          (setSuccessors (setSuccessors st.cfg a [s, y]) b []) b fun _ => [])
        s (List.filter (· ≠ b)))
      y (List.map fun p => if p = b then a else p)
  conds :=
    let c := (armCond na (condOf st.conds a)).orOf (armCond nb (condOf st.conds b))
    Function.update (Function.update st.conds a (some c)) b none

def onlyPredecessor (cfg : ControlFlowGraph) (b : ℕ) : Option ℕ :=
  match cfg.preds b with
  | [a] => some a
  | _ => none

def mergeAt (test : ℕ → Bool) (st : MergeState) (b : ℕ) : Option MergeState := do
  let a ← onlyPredecessor st.cfg b
  guard (test b ∧ b ≠ st.cfg.entryBlock ∧ a ≠ b)
  guard (two (st.cfg.succs a) ∧ two (st.cfg.succs b))
  guard (isSwitch st.cfg a = false ∧ isSwitch st.cfg b = false)
  let (s, na) ← outerArm b (st.cfg.succs a)
  let (y, nb) ← innerArm s (st.cfg.succs b)
  some (collapse st a b s y na nb)

def mergeStep (test : ℕ → Bool) (acc : MergeState × Bool) (b : ℕ) : MergeState × Bool :=
  match mergeAt test acc.1 b with
  | some st => (st, true)
  | none => acc

/-- One pass over the blocks, and whether anything was merged. -/
def mergeRound (test : ℕ → Bool) (st : MergeState) : MergeState × Bool :=
  (List.range st.cfg.blocks.length).foldl (mergeStep test) (st, false)

def mergeRounds (test : ℕ → Bool) : ℕ → MergeState → MergeState
  | 0, st => st
  | fuel + 1, st =>
    let r := mergeRound test st
    if r.2 then mergeRounds test fuel r.1 else r.1

def predCount (cfg : ControlFlowGraph) : ℕ := (cfg.blocks.map fun b => b.predecessors.length).sum

def isTestBlock (func : SsaFunction) (b : ℕ) : Bool :=
  (conditionOps func (opsOfBlock func b)).isSome

/-- The check before the graph is copied. -/
def mayMerge (func : SsaFunction) (b : ℕ) : Bool :=
  isTestBlock func b && decide (b ≠ func.cfg.entryBlock) && two (func.cfg.succs b) &&
    ((onlyPredecessor func.cfg b).any fun a => two (func.cfg.succs a))

def mergeShortCircuits (func : SsaFunction) : Option MergeState :=
  let blocks := List.range func.cfg.blocks.length
  if blocks.any (isEmptyBlock func) || blocks.any (mayMerge func) then
    let cfg := threadEmptyBlocks (cloneEdges func.cfg) (isEmptyBlock func)
    some (mergeRounds (isTestBlock func) (predCount cfg + 1) ⟨cfg, fun _ => none⟩)
  else none

end ShortCircuits
