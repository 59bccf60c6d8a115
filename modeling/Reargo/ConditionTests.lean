import Reargo.SsaModel

/-!
# Blocks that hold nothing but their test

Which operations of a block only compute its branch condition. Values are compared
by slot and version, since several varnodes may name one value.
-/
namespace ConditionTests

open PcodeModel SsaModel

/-- No memory write and no call. -/
def isPure : OpCode → Bool
  | .copy | .load | .intEqual | .intNotEqual | .intSLess | .intSLessEqual | .intLess
  | .intLessEqual | .intZExt | .intSExt | .intAdd | .intSub | .intCarry | .intSCarry
  | .intSBorrow | .int2Comp | .intNegate | .intXor | .intAnd | .intOr | .intLeft | .intRight
  | .intSRight | .intMult | .boolNegate | .boolXor | .boolAnd | .boolOr | .floatEqual
  | .floatNotEqual | .floatLess | .floatLessEqual | .floatNan | .floatAdd | .floatDiv
  | .floatMult | .floatSub | .floatNeg | .floatAbs | .floatSqrt | .floatInt2Float
  | .floatFloat2Float | .floatTrunc | .floatCeil | .floatFloor | .floatRound | .piece
  | .subpiece | .popCount | .lzCount => true
  | _ => false

/-- Both ends are 64-bit sums, so a range at the top of the space wraps. -/
def overlaps (x y : VarnodeData) : Bool :=
  x.space = y.space ∧ x.offset < y.offset + BitVec.ofNat 64 y.size ∧
    y.offset < x.offset + BitVec.ofNat 64 x.size

/-- Where neither end wraps, ranges overlap as intervals do. -/
theorem overlaps_iff {x y : VarnodeData} (hx : x.offset.toNat + x.size < 2 ^ 64)
    (hy : y.offset.toNat + y.size < 2 ^ 64) :
    overlaps x y = true ↔ x.space = y.space ∧ x.offset.toNat < y.offset.toNat + y.size ∧
      y.offset.toNat < x.offset.toNat + x.size := by
  have hend : ∀ d : VarnodeData, d.offset.toNat + d.size < 2 ^ 64 →
      (d.offset + BitVec.ofNat 64 d.size).toNat = d.offset.toNat + d.size := by
    intro d hd
    rw [BitVec.toNat_add, BitVec.toNat_ofNat, Nat.add_mod_mod, Nat.mod_eq_of_lt hd]
  unfold overlaps
  rw [decide_eq_true_eq, BitVec.lt_def, BitVec.lt_def, hend x hx, hend y hy]

def namedFlagBase : U64 := 0x6f000000

/-- The machine flags and the flags given a name of their own. -/
def isFlagStorage (d : VarnodeData) : Bool :=
  d.space = .register ∧
    ((0x200 ≤ d.offset ∧ d.offset < 0x210) ∨
      (namedFlagBase ≤ d.offset ∧ d.offset < namedFlagBase + 0x1000000))

/-- The live operations of a block, in order. -/
def opsOfBlock (func : SsaFunction) (b : ℕ) : List ℕ :=
  (List.range func.ops.length).filter fun i => !(func.op i).dead && (func.op i).block == b

abbrev ValueKey := Slot × ℕ

def valueKey (func : SsaFunction) (v : ℕ) : ValueKey :=
  (slotOf (func.var v).data, (func.var v).version)

/-- The live operations that read the value `v` names, each once. -/
def readersOf (func : SsaFunction) (v : ℕ) : List ℕ :=
  (List.range func.ops.length).filter fun i =>
    !(func.op i).dead &&
      (func.op i).inputs.any fun u => !func.isConst u && valueKey func u == valueKey func v

/-- Storage the live copies of a temporary write: it may print as the copy. -/
def copiesOf (func : SsaFunction) (v : ℕ) : List VarnodeData :=
  (readersOf func v).filterMap fun r =>
    if (func.op r).opcode = .copy then (func.op r).output.map fun o => (func.var o).data
    else none

/-- The definition of `v` that may print inside a reader in `block`. -/
def inlinedDef (func : SsaFunction) (block v : ℕ) : Option SsaOp :=
  match (func.var v).defOp with
  | some o =>
    let d := (func.var v).data
    if (func.op o).dead = false ∧ (func.op o).block = block ∧ isPure (func.op o).opcode ∧
        (d.space = .unique ∨ isFlagStorage d) then some (func.op o)
    else none
  | none => none

/-- Storage read through `v`, definitions included up to a depth, and whether a load is
among them. -/
def collectLeaves (func : SsaFunction) (block : ℕ) : ℕ → ℕ → List VarnodeData × Bool
  | depth, v =>
    if func.isConst v then ([], false)
    else
      let d := (func.var v).data
      let own := d :: if d.space = .unique then copiesOf func v else []
      match depth, inlinedDef func block v with
      | left + 1, some op =>
        let inner := op.inputs.map (collectLeaves func block left)
        (own ++ inner.flatMap Prod.fst, decide (op.opcode = .load) || inner.any Prod.snd)
      | _, _ => (own, false)

def maxLeafDepth : ℕ := 6

/-- What the operations left out write, and the operations folded so far. -/
structure TailScan where
  chain : List ℕ
  written : List VarnodeData
  memoryWritten : Bool

def folds (func : SsaFunction) (scan : TailScan) (o : ℕ) : Bool :=
  let op := func.op o
  match op.output with
  | none => false
  | some out =>
    let readers := readersOf func out
    let leaves := op.inputs.map (collectLeaves func op.block maxLeafDepth)
    let loads := decide (op.opcode = .load) || leaves.any Prod.snd
    let changed := (leaves.flatMap Prod.fst).any fun d => scan.written.any fun w => overlaps w d
    isPure op.opcode && !readers.isEmpty &&
      (readers.length == 1 || op.opcode = .intSub || op.opcode = .intAnd) &&
      (readers.all fun u => scan.chain.contains u) && !(changed || (loads && scan.memoryWritten))

/-- The scan over the body from its end; a phi that does not fold stops it. -/
def scanTail (func : SsaFunction) (scan : TailScan) : List ℕ → TailScan
  | [] => scan
  | o :: rest =>
    let op := func.op o
    if folds func scan o then scanTail func { scan with chain := o :: scan.chain } rest
    else if op.opcode = .multiEqual then scan
    else
      let written := op.output.toList.map (fun out => (func.var out).data) ++ scan.written
      let memory := scan.memoryWritten || op.opcode = .store || op.opcode = .call ||
        op.opcode = .callInd || op.opcode = .callOther
      scanTail func { scan with written := written, memoryWritten := memory } rest

/-- The operations that only compute the branch condition, in order. -/
def conditionTail (func : SsaFunction) (ops : List ℕ) : List ℕ :=
  match ops.getLast? with
  | none => []
  | some last =>
    if (func.op last).opcode = .cBranch ∧ 2 ≤ (func.op last).inputs.length then
      (scanTail func ⟨[last], [], false⟩ ops.dropLast.reverse).chain.dropLast
    else []

/-- When the block holds nothing but its test, the operations of the condition. -/
def conditionOps (func : SsaFunction) (ops : List ℕ) : Option (List ℕ) :=
  let tail := conditionTail func ops
  if tail.length + 1 = ops.length then some tail else none

end ConditionTests
