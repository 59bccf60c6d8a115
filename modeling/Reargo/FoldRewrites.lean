import Reargo.SsaModel

/-!
# Constant folding, algebraic identities and strength reduction

The fused walk over the operations of an SSA function. Each of the three
rewrites changes one operation, adds at most one constant and answers whether it
applied; the walk tries them in order.
-/
namespace FoldRewrites

open PcodeModel SsaModel

/-- The low bits of a word, all of it from eight bytes on. -/
def maskTo (size : ℕ) (val : U64) : U64 :=
  if size ≥ 8 then val else val &&& (((1 : U64) <<< (size * 8)) - 1)

def extendConst (signed : Bool) (vn : VarnodeData) : U64 :=
  let bits := vn.size * 8
  let a := if bits ≥ 64 then vn.offset else vn.offset &&& (((1 : U64) <<< bits) - 1)
  if signed && decide (bits < 64) && decide ((a >>> (bits - 1)) &&& 1 = 1) then
    a ||| ~~~ (((1 : U64) <<< bits) - 1)
  else a

def foldedValue (func : SsaFunction) (op : SsaOp) : Option U64 :=
  let const (id : ℕ) : U64 := (func.var id).data.offset
  match op.opcode, op.inputs with
  | .intAdd, a :: b :: _ => some (const a + const b)
  | .intSub, a :: b :: _ => some (const a - const b)
  | .intAnd, a :: b :: _ => some (const a &&& const b)
  | .intOr, a :: b :: _ => some (const a ||| const b)
  | .intXor, a :: b :: _ => some (const a ^^^ const b)
  | .intEqual, a :: b :: _ => some (if const a = const b then 1 else 0)
  | .intMult, a :: b :: _ => some (const a * const b)
  | .intZExt, a :: _ => some (extendConst false (func.var a).data)
  | .intSExt, a :: _ => some (extendConst true (func.var a).data)
  -- a constant holds at most 64 bits
  | .subpiece, [a, k] =>
    some (if (const k).toNat ≥ 8 then 0 else const a >>> ((const k).toNat * 8))
  | _, _ => none

/-- The operation becomes a copy of a new constant of the output's size. -/
def copyConst (func : SsaFunction) (i out : ℕ) (value : U64) : SsaFunction :=
  (func.pushConst i value (func.var out).data.size).rewriteOp i .copy [func.varnodes.length]

def tryConstantFoldOp (func : SsaFunction) (i : ℕ) : Option SsaFunction :=
  let op := func.op i
  if op.inputs = [] ∨ ¬ op.inputs.all func.isConst then none
  else match foldedValue func op, op.output with
    | some val, some out => some (copyConst func i out (maskTo (func.var out).data.size val))
    | _, _ => none

/-- The constant value of an input. -/
def constValue (func : SsaFunction) (id : ℕ) : Option U64 :=
  if func.isConst id then some (func.var id).data.offset else none

/-- Is the first value an unused-elsewhere extension of a temporary as wide as the output? -/
def extensionSource (func : SsaFunction) (i in0 in1 out : ℕ) : Option ℕ :=
  match (func.var in0).defOp with
  | none => none
  | some e =>
    let eop := func.op e
    if constValue func in1 ≠ some 0 then none
    else if eop.dead ∨ ¬ (eop.opcode = .intZExt ∨ eop.opcode = .intSExt) then none
    else match eop.inputs with
      | [x] =>
        if (func.var x).data.space ≠ SpaceId.unique ∨
            (func.var x).data.size ≠ (func.var out).data.size ∨
            (func.var in0).uses.any (fun u => u ≠ i && !(func.op u).dead) then none
        else some x
      | _ => none

def clearUses (func : SsaFunction) (v : ℕ) : SsaFunction :=
  func.setVar v { func.var v with uses := [] }

def addUse (func : SsaFunction) (v i : ℕ) : SsaFunction :=
  func.setVar v { func.var v with uses := (func.var v).uses ++ [i] }

def tryAlgebraicSimplifyOp (func : SsaFunction) (i : ℕ) : Option SsaFunction :=
  let op := func.op i
  match op.inputs, op.output with
  | in0 :: in1 :: _, some out =>
    let zero := some (copyConst func i out 0)
    let keep (id : ℕ) := some (func.rewriteOp i .copy [id])
    match op.opcode with
    | .intSub => if in0 = in1 then zero else none
    | .intXor => if in0 = in1 then zero else none
    | .intAdd | .intOr =>
      if constValue func in0 = some 0 then keep in1
      else if constValue func in1 = some 0 then keep in0
      else none
    | .intMult =>
      if constValue func in0 = some 1 then keep in1
      else if constValue func in0 = some 0 then zero
      else if constValue func in1 = some 1 then keep in0
      else if constValue func in1 = some 0 then zero
      else none
    | .intAnd =>
      if constValue func in0 = some 0 then zero
      else if constValue func in1 = some 0 then zero
      else none
    | .subpiece =>
      (extensionSource func i in0 in1 out).map fun x =>
        (addUse (clearUses func in0) x i).rewriteOp i .copy [x]
    | _ => none
  | _, _ => none

def log2Exact (v : U64) : Option ℕ := (List.range 64).find? fun k => v = BitVec.twoPow 64 k

/-- The power of two an input holds. -/
def shiftOf (func : SsaFunction) (id : ℕ) : Option ℕ := (constValue func id).bind log2Exact

/-- The operation becomes a shift of `kept` by a new constant. -/
def shiftBy (func : SsaFunction) (i out : ℕ) (opcode : OpCode) (kept k : ℕ) : SsaFunction :=
  (func.pushConst i (BitVec.ofNat 64 k) (func.var out).data.size).rewriteOp i opcode
    [kept, func.varnodes.length]

def tryStrengthReduceOp (func : SsaFunction) (i : ℕ) : Option SsaFunction :=
  let op := func.op i
  match op.inputs, op.output with
  | in0 :: in1 :: _, some out =>
    match op.opcode with
    | .intMult =>
      match shiftOf func in0, shiftOf func in1 with
      | some k, _ => some (shiftBy func i out .intLeft in1 k)
      | none, some k => some (shiftBy func i out .intLeft in0 k)
      | none, none => none
    | .intDiv => (shiftOf func in1).map fun k => shiftBy func i out .intRight in0 k
    | _ => none
  | _, _ => none

/-- The opcodes one of the three rewrites. -/
def isFoldable : OpCode → Bool
  | .intAdd | .intSub | .intAnd | .intOr | .intXor | .intEqual | .intMult | .intZExt | .intSExt
  | .subpiece | .intDiv => true
  | _ => false

structure FoldState where
  func : SsaFunction
  folded : ℕ
  simplified : ℕ
  reduced : ℕ
  /-- The blocks with a rewritten operation, when asked for. -/
  changed : Option (List Bool)

def FoldState.mark (st : FoldState) (i : ℕ) : Option (List Bool) :=
  st.changed.map fun c => c.set (st.func.op i).block true

def rewriteAt (st : FoldState) (i : ℕ) : FoldState :=
  let op := st.func.op i
  if op.dead ∨ op.output = none ∨ ¬ isFoldable op.opcode then st
  else match tryConstantFoldOp st.func i with
    | some f => { st with func := f, folded := st.folded + 1, changed := st.mark i }
    | none => match tryAlgebraicSimplifyOp st.func i with
      | some f => { st with func := f, simplified := st.simplified + 1, changed := st.mark i }
      | none => match tryStrengthReduceOp st.func i with
        | some f => { st with func := f, reduced := st.reduced + 1, changed := st.mark i }
        | none => st

def constAlgStrengthIn (func : SsaFunction) (changed : Option (List Bool)) : FoldState :=
  (List.range func.ops.length).foldl rewriteAt ⟨func, 0, 0, 0, changed⟩

def constAlgStrength (func : SsaFunction) : FoldState := constAlgStrengthIn func none

end FoldRewrites
