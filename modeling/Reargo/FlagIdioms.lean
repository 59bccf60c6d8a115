import Reargo.ConditionTests
import Reargo.EmulatorSemantics

/-!
# Flag idioms

A condition computed from the flags of `cmp a, b` prints as the comparison the flags stand
for. Each operation of the condition gets a relation from those of its inputs; a difference
or a comparison computed earlier in the block counts when its operands are not written over
after it. Dead operations neither count nor write.
-/
namespace FlagIdioms

open PcodeModel SsaModel ConditionTests

/-- What a flag computation stands for: `a - b`, its sign flag, its signed-overflow flag, or
a comparison, inverted when `negated`. -/
inductive Rel where
  | sub (a b : ℕ)
  | sf (a b : ℕ)
  | of (a b : ℕ)
  | cmp (op : OpCode) (a b : ℕ) (negated : Bool)
  deriving DecidableEq, Repr

def Rel.operands : Rel → ℕ × ℕ
  | .sub a b => (a, b)
  | .sf a b => (a, b)
  | .of a b => (a, b)
  | .cmp _ a b _ => (a, b)

section Recovery

variable (func : SsaFunction)

/-- Does a write of `w` change the value `x` names? Constants are no storage. -/
def writesOver (x : ℕ) (w : VarnodeData) : Bool :=
  (func.var x).data.space ≠ SpaceId.const && overlaps (func.var x).data w

def keptFrom (start block a b : ℕ) : Bool :=
  ((func.ops.drop start).takeWhile fun o => o.block = block).all fun later =>
    later.dead || !(later.output.any fun out =>
      writesOver func a (func.var out).data || writesOver func b (func.var out).data)

/-- The operands of the live operation that computes `v` in `block`. -/
def definition (v block : ℕ) : Option (ℕ × OpCode × ℕ × ℕ) :=
  (func.var v).defOp.bind fun d =>
    let o := func.op d
    if o.dead ∨ o.block ≠ block ∨ o.inputs.length ≠ 2 then none
    else (o.inputs[0]?).bind fun a => (o.inputs[1]?).map fun b => (d, o.opcode, a, b)

/-- `a - b` computed in `block`, when nothing from it on writes over `a` or `b`; the
difference itself counts, its result may go over `a`. -/
def earlierSub (v block : ℕ) : Option Rel :=
  (definition func v block).bind fun (d, opcode, a, b) =>
    if opcode = .intSub ∧ keptFrom func d block a b then some (.sub a b) else none

/-- A comparison computed in `block`, when nothing after it writes over `a` or `b`. -/
def earlierCompare (v block : ℕ) : Option Rel :=
  (definition func v block).bind fun (d, opcode, a, b) =>
    if (opcode = .intSLess ∨ opcode = .intLess ∨ opcode = .intEqual) ∧
        keptFrom func (d + 1) block a b then some (.cmp opcode a b false)
    else none

def same (x y : ℕ) : Bool := valueKey func x = valueKey func y

def pair (a₁ b₁ a₂ b₂ : ℕ) : Bool := same func a₁ a₂ && same func b₁ b₂

/-- The relation of an input: that of the condition's operations, or an earlier difference. -/
def relOf (op : SsaOp) (rels : ValueKey → Option Rel) (i : ℕ) : Option Rel :=
  (op.inputs[i]?).bind fun v => (rels (valueKey func v)).or (earlierSub func v op.block)

def isZero (op : SsaOp) (i : ℕ) : Bool :=
  (op.inputs[i]?).any fun v => func.isConst v && (func.var v).data.offset = 0

/-- The comparison of the two inputs. -/
def compareInputs (op : SsaOp) : Option Rel :=
  (op.inputs[0]?).bind fun a => (op.inputs[1]?).map fun b => .cmp op.opcode a b false

/-- Sign and overflow flag of one difference differ: signed less. -/
def signedLess : Rel → Rel → Option Rel
  | .sf a b, .of c d => if pair func a b c d then some (.cmp .intSLess a b false) else none
  | .of c d, .sf a b => if pair func a b c d then some (.cmp .intSLess a b false) else none
  | _, _ => none

/-- A float compare's carry flag, below or unordered, with its zero flag. -/
def floatBelow : Rel → Rel → Option Rel
  | .cmp .floatLessEqual b₀ a₀ true, .cmp .floatEqual c d false =>
    if pair func a₀ b₀ c d || pair func b₀ a₀ c d then some (.cmp .floatLess b₀ a₀ true) else none
  | _, _ => none

/-- The comparison that holds when either of the two does. -/
def orEqual : OpCode → OpCode → Option OpCode
  | .intLess, .intEqual => some .intLessEqual
  | .intEqual, .intLess => some .intLessEqual
  | .intSLess, .intEqual => some .intSLessEqual
  | .intEqual, .intSLess => some .intSLessEqual
  | .floatLess, .floatEqual => some .floatLessEqual
  | .floatEqual, .floatLess => some .floatLessEqual
  | _, _ => none

def lessOrEqual : Rel → Rel → Option Rel
  | .cmp x a b false, .cmp y c d false =>
    if pair func a b c d then (orEqual x y).map fun le => .cmp le a b false else none
  | _, _ => none

def asCompare : Rel → Option Rel
  | .cmp op a b negated => some (.cmp op a b negated)
  | _ => none

def negate : Rel → Option Rel
  | .cmp op a b negated => some (.cmp op a b !negated)
  | _ => none

def relation (op : SsaOp) (rels : ValueKey → Option Rel) : Option Rel :=
  let rel := relOf func op rels
  match op.opcode with
  | .intSub => (op.inputs[0]?).bind fun a => (op.inputs[1]?).map fun b => .sub a b
  | .intEqual | .intNotEqual =>
    match isZero func op 1, rel 0 with
    | true, some (.sub a b) => some (.cmp op.opcode a b false)
    | _, _ => compareInputs op
  | .intSLess =>
    match isZero func op 1, rel 0 with
    | true, some (.sub a b) => some (.sf a b)
    | _, _ => compareInputs op
  | .intSBorrow => (op.inputs[0]?).bind fun a => (op.inputs[1]?).map fun b => .of a b
  | .intLess | .intLessEqual | .intSLessEqual | .floatEqual | .floatNotEqual | .floatLess
  | .floatLessEqual => compareInputs op
  | .boolXor => (rel 0).bind fun r => (rel 1).bind fun s => signedLess func r s
  | .boolOr =>
    let both (f : Rel → Rel → Option Rel) (i j : ℕ) :=
      (rel i).bind fun r => (rel j).bind fun s => f r s
    ((both (floatBelow func) 0 1).or (both (floatBelow func) 1 0)).or (both (lessOrEqual func) 0 1)
  | .copy =>
    ((rel 0).or ((op.inputs[0]?).bind fun v => earlierCompare func v op.block)).bind asCompare
  | .boolNegate => (rel 0).bind negate
  | _ => none

def record (rels : ValueKey → Option Rel) (i : ℕ) : ValueKey → Option Rel :=
  match (func.op i).output with
  | some out => (relation func (func.op i) rels).elim rels fun r =>
      Function.update rels (valueKey func out) (some r)
  | none => rels

/-- The relations of a condition's operations, in order. -/
def relations (ops : List ℕ) : ValueKey → Option Rel := ops.foldl (record func) fun _ => none

end Recovery

end FlagIdioms
