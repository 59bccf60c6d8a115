import Reargo.ControlFlow

/-!
# SSA functions

Values and operations in two arenas, referring to each other by index. Accesses
outside an arena, which the program never makes on a well-formed function, read a
default here.
-/
namespace SsaModel

open PcodeModel ControlFlow

structure SsaVarnode where
  data : VarnodeData
  version : ℕ
  defOp : Option ℕ
  uses : List ℕ
  deriving DecidableEq, Repr, Inhabited

structure SsaOp where
  opcode : OpCode
  output : Option ℕ
  inputs : List ℕ
  block : ℕ
  address : U64
  dead : Bool
  deriving DecidableEq, Repr, Inhabited

abbrev Slot := SpaceId × U64 × ℕ

instance instLawfulBEqSlot : LawfulBEq Slot := inferInstance

def slotOf (vn : VarnodeData) : Slot := (vn.space, vn.offset, vn.size)

structure SsaFunction where
  varnodes : List SsaVarnode
  ops : List SsaOp
  cfg : ControlFlowGraph
  /-- Positions of writes left out of the P-code, with the registers as bits. -/
  phantomWrites : List (ℕ × BitVec 128)
  phantomRegs : List Slot

namespace SsaFunction

def var (func : SsaFunction) (v : ℕ) : SsaVarnode := func.varnodes.getD v default
def op (func : SsaFunction) (i : ℕ) : SsaOp := func.ops.getD i default

def isConst (func : SsaFunction) (v : ℕ) : Bool := (func.var v).data.space = SpaceId.const

def pushVar (func : SsaFunction) (v : SsaVarnode) : SsaFunction :=
  { func with varnodes := func.varnodes ++ [v] }

def setVar (func : SsaFunction) (v : ℕ) (vn : SsaVarnode) : SsaFunction :=
  { func with varnodes := func.varnodes.set v vn }

def setOp (func : SsaFunction) (i : ℕ) (o : SsaOp) : SsaFunction :=
  { func with ops := func.ops.set i o }

/-- The operation gets a new opcode and new inputs. -/
def rewriteOp (func : SsaFunction) (i : ℕ) (opcode : OpCode) (inputs : List ℕ) :
    SsaFunction :=
  func.setOp i { func.op i with opcode := opcode, inputs := inputs }

/-- A constant used by operation `i`, as a new value. -/
def pushConst (func : SsaFunction) (i : ℕ) (value : U64) (size : ℕ) : SsaFunction :=
  func.pushVar ⟨⟨SpaceId.const, value, size⟩, 0, none, [i]⟩

section Access

variable (func : SsaFunction)

@[simp] theorem op_pushVar (v : SsaVarnode) (j : ℕ) : (func.pushVar v).op j = func.op j := rfl

@[simp] theorem op_setVar (v : ℕ) (vn : SsaVarnode) (j : ℕ) :
    (func.setVar v vn).op j = func.op j := rfl

@[simp] theorem var_setOp (i : ℕ) (o : SsaOp) (v : ℕ) : (func.setOp i o).var v = func.var v :=
  rfl

@[simp] theorem var_rewriteOp (i : ℕ) (oc : OpCode) (ins : List ℕ) (v : ℕ) :
    (func.rewriteOp i oc ins).var v = func.var v := rfl

theorem op_setOp {i : ℕ} (hi : i < func.ops.length) (o : SsaOp) (j : ℕ) :
    (func.setOp i o).op j = if j = i then o else func.op j := by
  unfold op setOp
  by_cases hj : j = i
  · subst hj
    simp [hi]
  · simp [hj, List.getElem?_set_ne (Ne.symm hj)]

theorem op_rewriteOp {i : ℕ} (hi : i < func.ops.length) (oc : OpCode) (ins : List ℕ)
    (j : ℕ) :
    (func.rewriteOp i oc ins).op j =
      if j = i then { func.op i with opcode := oc, inputs := ins } else func.op j :=
  func.op_setOp hi _ j

theorem var_pushVar (vn : SsaVarnode) (v : ℕ) :
    (func.pushVar vn).var v =
      if v < func.varnodes.length then func.var v
      else if v = func.varnodes.length then vn else default := by
  unfold var pushVar
  by_cases hlt : v < func.varnodes.length
  · simp [hlt, List.getElem?_append_left]
  · by_cases heq : v = func.varnodes.length
    · simp [heq]
    · have hout : (func.varnodes ++ [vn]).length ≤ v := by
        rw [List.length_append, List.length_singleton]
        omega
      simp [hlt, heq, List.getElem?_eq_none hout]

theorem var_setVar {v : ℕ} (hv : v < func.varnodes.length) (vn : SsaVarnode) (u : ℕ) :
    (func.setVar v vn).var u = if u = v then vn else func.var u := by
  unfold var setVar
  by_cases hu : u = v
  · subst hu
    simp [hv]
  · simp [hu, List.getElem?_set_ne (Ne.symm hu)]

@[simp] theorem length_ops_pushVar (v : SsaVarnode) : (func.pushVar v).ops.length = func.ops.length :=
  rfl

@[simp] theorem length_ops_setVar (v : ℕ) (vn : SsaVarnode) :
    (func.setVar v vn).ops.length = func.ops.length := rfl

@[simp] theorem length_ops_rewriteOp (i : ℕ) (oc : OpCode) (ins : List ℕ) :
    (func.rewriteOp i oc ins).ops.length = func.ops.length := by
  simp [rewriteOp, setOp]

end Access

end SsaFunction

end SsaModel
