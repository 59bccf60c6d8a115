import Reargo.FlagValues
import Reargo.MovedReaders

/-!
# The rewrite rule pool

Every rule of the pool turns an operation into a copy: of a new zero, of one of its own inputs
or of what its operand negates. So no operation is rewritten twice, and an operation's result
stays where the copied value is that result, whatever the values it reads.
-/
namespace RewriteRules

open PcodeModel SsaModel SsaBuild ControlFlow ConditionTests EmulatorSemantics FlagValues List
  FoldPass UseLists MovedReaders
open SsaFunction (pushConst var_pushVar)

abbrev Rule := SsaFunction → ℕ → Option SsaFunction

section Rules

variable (func : SsaFunction) (i : ℕ)

/-- The operands are compared by storage, whatever their versions. -/
def sameStorage (a b : ℕ) : Bool := (func.var a).data = (func.var b).data && !func.isConst a

def isConstant (c : U64) (v : ℕ) : Bool := func.isConst v && (func.var v).data.offset = c

def keeping (opcodes : List OpCode) (pick : ℕ → ℕ → Option ℕ) : Option SsaFunction :=
  match (func.op i).inputs with
  | [a, b] =>
    if (func.op i).opcode ∈ opcodes then (pick a b).map fun w => func.rewriteOp i .copy [w] else none
  | _ => none

def otherThan (c : U64) (a b : ℕ) : Option ℕ :=
  if isConstant func c a then some b else if isConstant func c b then some a else none

def firstOfSame (a b : ℕ) : Option ℕ := if sameStorage func a b then some a else none

def firstOverZero (a b : ℕ) : Option ℕ := if isConstant func 0 b then some a else none

/-- All ones at the output's size, of 64 bits from eight bytes on. -/
def allOnes : U64 :=
  let size := (func.op i).output.elim 8 fun out => (func.var out).data.size
  if 8 ≤ size then -1 else 1 <<< (size * 8) - 1

def ruleXorSelfZero : Option SsaFunction :=
  match (func.op i).inputs, (func.op i).output with
  | [a, b], some out =>
    if (func.op i).opcode = .intXor ∧ sameStorage func a b then
      some ((func.pushConst i 0 (func.var out).data.size).rewriteOp i .copy [func.varnodes.length])
    else none
  | _, _ => none

def ruleAddZero : Option SsaFunction := keeping func i [.intAdd] (otherThan func 0)

def ruleMultOne : Option SsaFunction := keeping func i [.intMult] (otherThan func 1)

def ruleDoubleNeg : Option SsaFunction :=
  match (func.op i).opcode, (func.op i).inputs with
  | .int2Comp, [inner] =>
    (func.var inner).defOp.bind fun d =>
      match (func.op d).opcode, (func.op d).inputs with
      | .int2Comp, [original] => some (func.rewriteOp i .copy [original])
      | _, _ => none
  | _, _ => none

def ruleAndSelf : Option SsaFunction := keeping func i [.intAnd] (firstOfSame func)

def ruleOrSelf : Option SsaFunction := keeping func i [.intOr] (firstOfSame func)

def ruleShiftZero : Option SsaFunction :=
  keeping func i [.intLeft, .intRight, .intSRight] (firstOverZero func)

def ruleSubZero : Option SsaFunction := keeping func i [.intSub] (firstOverZero func)

def ruleAndAllOnes : Option SsaFunction := keeping func i [.intAnd] (otherThan func (allOnes func i))

def ruleOrZero : Option SsaFunction := keeping func i [.intOr] (otherThan func 0)

end Rules

def createDefaultRulePool : List Rule :=
  [ruleXorSelfZero, ruleAddZero, ruleMultOne, ruleDoubleNeg, ruleAndSelf, ruleOrSelf,
    ruleShiftZero, ruleSubZero, ruleAndAllOnes, ruleOrZero]

def applyRule (i : ℕ) (st : SsaFunction × ℕ) (rule : Rule) : SsaFunction × ℕ :=
  match rule st.1 i with
  | some func => (func, st.2 + 1)
  | none => st

def applyOp (pool : List Rule) (st : SsaFunction × ℕ) (i : ℕ) : SsaFunction × ℕ :=
  if (st.1.op i).dead then st else pool.foldl (applyRule i) st

def applyAll (pool : List Rule) (func : SsaFunction) : SsaFunction × ℕ :=
  (List.range func.ops.length).foldl (applyOp pool) (func, 0)

def runUntilFixedPoint (pool : List Rule) : ℕ → SsaFunction → SsaFunction × ℕ
  | 0, func => (func, 0)
  | n + 1, func =>
    let (func, changes) := applyAll pool func
    if changes = 0 then (func, 0)
    else
      let (func, total) := runUntilFixedPoint pool n func
      (func, changes + total)

def ConstantsHold (ρ : Valuation) : Prop :=
  ∀ k : ValueKey, k.1.1 = .const → ρ k = k.1.2.1.setWidth _

section Results

variable (func : SsaFunction) (o : SsaOp) (out : ℕ)

/-- The operands have the sizes P-code requires. -/
def Sized : Prop := SizesFit o.opcode (FlagValues.sizeOf func out) (sizesOf func o)

def resultOf (ρ : Valuation) : Operand :=
  ⟨8 * FlagValues.sizeOf func out, bitResult o.opcode _ (o.inputs.map (valueOf func ρ))⟩

/-- The values an operation can find: constants hold their value, and a negation one of its
operands is defined by has computed it. -/
structure Reached (ρ : Valuation) : Prop where
  const : ConstantsHold ρ
  negated : ∀ v ∈ o.inputs, ∀ d, (func.var v).defOp = some d → (func.op d).opcode = .int2Comp →
    ∀ out, (func.op d).output = some out →
      Sized func (func.op d) out ∧ valueOf func ρ out = resultOf func (func.op d) out ρ

/-- No exclusive or, and or or has two versions of one storage as operands, no and of more than
eight bytes has 64 ones, and no negated constant is defined by a negation. -/
structure Plain : Prop where
  same : o.opcode ∈ [.intXor, .intAnd, .intOr] → ∀ a b, o.inputs = [a, b] →
    sameStorage func a b = true → valueKey func a = valueKey func b
  narrow : o.opcode = .intAnd → ∀ out, o.output = some out → 8 < FlagValues.sizeOf func out →
    ∀ v ∈ o.inputs, isConstant func (-1) v = false
  negated : o.opcode = .int2Comp → ∀ v ∈ o.inputs, func.isConst v = true →
    ∀ d, (func.var v).defOp = some d → (func.op d).opcode ≠ .int2Comp

end Results

/-- What the rules have made of a function: operations turned into copies of their results. -/
structure Rewritten (f₀ func : SsaFunction) : Prop where
  grows : f₀.varnodes.length ≤ func.varnodes.length
  vars : ∀ v < f₀.varnodes.length, func.var v = f₀.var v
  ops : ∀ i, func.op i = f₀.op i ∨ ∃ w < func.varnodes.length,
    func.op i = { f₀.op i with opcode := .copy, inputs := [w] } ∧
      ∀ ρ out, Reached f₀ (f₀.op i) ρ → (f₀.op i).output = some out → Sized f₀ (f₀.op i) out →
        valueOf func ρ w = resultOf f₀ (f₀.op i) out ρ

section Steps

variable {f₀ func g : SsaFunction} {ρ : Valuation} {i w out : ℕ} {o : SsaOp}

theorem valueOf_same {v : ℕ} (h : g.var v = func.var v) : valueOf g ρ v = valueOf func ρ v := by
  unfold valueOf valueKey
  rw [h]

theorem resultOf_same (hin : ∀ v ∈ o.inputs, g.var v = func.var v)
    (hout : g.var out = func.var out) :
    sizesOf g o = sizesOf func o ∧ FlagValues.sizeOf g out = FlagValues.sizeOf func out ∧
      resultOf g o out ρ = resultOf func o out ρ := by
  have hsize : FlagValues.sizeOf g out = FlagValues.sizeOf func out := congrArg (·.data.size) hout
  have hmap : o.inputs.map (valueOf g ρ) = o.inputs.map (valueOf func ρ) :=
    map_congr_left fun v hv => valueOf_same (hin v hv)
  refine ⟨map_congr_left fun v hv => by rw [hin v hv], hsize, ?_⟩
  unfold resultOf
  rw [hmap, hsize]

namespace Rewritten

theorem op_of_ne (h : Rewritten f₀ func) (hne : (func.op i).opcode ≠ .copy) :
    func.op i = f₀.op i := by
  rcases h.ops i with hop | ⟨u, -, hop, -⟩
  · exact hop
  · rw [hop] at hne
    exact absurd rfl hne

variable (h : Rewritten f₀ func) (hrec : Recorded f₀)
include h hrec

theorem var_input (hne : (func.op i).opcode ≠ .copy) {v : ℕ} (hv : v ∈ (func.op i).inputs) :
    v < func.varnodes.length ∧ func.var v = f₀.var v := by
  rw [h.op_of_ne hne] at hv
  have hlt := hrec.range i v hv
  exact ⟨hlt.trans_le h.grows, h.vars v hlt⟩

theorem var_output (hlive : (f₀.op i).dead = false) (ho : (f₀.op i).output = some out) :
    func.var out = f₀.var out := h.vars out (lt_of_defOp (hrec.output i out hlive ho))

theorem copy (hi : i < func.ops.length) (hlive : (func.op i).dead = false)
    (hne : (func.op i).opcode ≠ .copy) (hops : g.ops = func.ops)
    (hgrow : func.varnodes.length ≤ g.varnodes.length)
    (hvar : ∀ v < func.varnodes.length, g.var v = func.var v) (hw : w < g.varnodes.length)
    (hval : ∀ ρ out, Reached f₀ (f₀.op i) ρ → (func.op i).output = some out →
      Sized func (func.op i) out → valueOf g ρ w = resultOf func (func.op i) out ρ) :
    Rewritten f₀ (g.rewriteOp i .copy [w]) ∧ ((g.rewriteOp i .copy [w]).op i).dead = false := by
  have hop : ∀ j, (g.rewriteOp i .copy [w]).op j =
      if j = i then { func.op i with opcode := .copy, inputs := [w] } else func.op j := by
    intro j
    have hgop : ∀ j, g.op j = func.op j := fun j => by
      unfold SsaFunction.op
      rw [hops]
    rw [g.op_rewriteOp (by rw [hops]; exact hi), hgop, hgop]
  refine ⟨⟨h.grows.trans hgrow, fun v hv => ?_, fun j => ?_⟩, ?_⟩
  · exact (hvar v (hv.trans_le h.grows)).trans (h.vars v hv)
  · rw [hop]
    split
    · next hj =>
      subst hj
      refine .inr ⟨w, hw, by rw [h.op_of_ne hne], fun ρ out hρ ho hfit => ?_⟩
      have hin : ∀ v ∈ (func.op j).inputs, func.var v = f₀.var v := fun v hv =>
        (h.var_input hrec hne hv).2
      rw [h.op_of_ne hne] at hlive hval hin
      obtain ⟨hsizes, hsize, hres⟩ :=
        resultOf_same (ρ := ρ) hin (h.var_output hrec hlive ho)
      rw [← hres]
      exact hval ρ out hρ ho (by unfold Sized; rw [hsizes, hsize]; exact hfit)
    · rcases h.ops j with hj | ⟨u, hu, hj, hval⟩
      · exact .inl hj
      · refine .inr ⟨u, hu.trans_le hgrow, hj, fun ρ out hρ ho hfit => ?_⟩
        exact (valueOf_same (hvar u hu)).trans (hval ρ out hρ ho hfit)
  · rw [hop, if_pos rfl]
    exact hlive

theorem result (hlive : (f₀.op i).dead = false) (ho : (f₀.op i).output = some out)
    (hfit : Sized f₀ (f₀.op i) out) (hρ : Reached f₀ (f₀.op i) ρ) :
    resultOf func (func.op i) out ρ = resultOf f₀ (f₀.op i) out ρ := by
  have hout := h.var_output hrec hlive ho
  rcases h.ops i with hop | ⟨w, -, hop, hval⟩
  · rw [hop]
    exact (resultOf_same (fun v hv => h.vars v (hrec.range i v hv)) hout).2.2
  · rw [hop, ← hval ρ out hρ ho hfit]
    have hwidth : (valueOf func ρ w).1 = 8 * FlagValues.sizeOf func out := by
      rw [hval ρ out hρ ho hfit]
      exact congrArg (8 * ·.data.size) hout.symm
    exact operand_cut hwidth _

end Rewritten

end Steps

variable {oc : OpCode}

theorem binaryResult_zero
    (hoc : oc ∈ [.intAdd, .intOr, .intSub, .intLeft, .intRight, .intSRight]) {n m : ℕ}
    (x : BitVec n) : binaryResult oc n x (0 : BitVec m) = x := by
  simp only [mem_cons, not_mem_nil, or_false] at hoc
  rcases hoc with rfl | rfl | rfl | rfl | rfl | rfl <;> simp [binaryResult, sameWidthResult]

theorem binaryResult_comm (hoc : oc ∈ [.intAdd, .intMult, .intAnd, .intOr]) {n : ℕ}
    {u v : Operand} (hu : u.1 = n) (hv : v.1 = n) :
    binaryResult oc n u.2 v.2 = binaryResult oc n v.2 u.2 := by
  obtain ⟨_, x⟩ := u
  obtain ⟨_, y⟩ := v
  cases hu
  cases hv
  simp only [mem_cons, not_mem_nil, or_false] at hoc
  rcases hoc with rfl | rfl | rfl | rfl <;>
    simp [binaryResult, sameWidthResult, add_comm, mul_comm, BitVec.and_comm, BitVec.or_comm]

theorem eq_of_neutral {n : ℕ} {u v : Operand} (hu : u.1 = n)
    (h : ∀ x : BitVec n, binaryResult oc n x v.2 = x) :
    (⟨n, binaryResult oc n u.2 v.2⟩ : Operand) = u := by
  obtain ⟨_, x⟩ := u
  cases hu
  exact congrArg (Sigma.mk _) (h x)

theorem unary_negate_twice {n m : ℕ} (u : Operand) (hm : m = n) (hu : u.1 = m) :
    (⟨n, unaryResult .int2Comp n (unaryResult .int2Comp m u.2)⟩ : Operand) = u := by
  obtain ⟨_, x⟩ := u
  cases hm
  cases hu
  simp [unaryResult]

section Picks

variable {func : SsaFunction} {oc : OpCode} {a b w : ℕ} {c : U64}

theorem constant_value {ρ : Valuation} (hconst : ConstantsHold ρ) {v : ℕ}
    (h : isConstant func c v = true) :
    (valueOf func ρ v).2 = c.setWidth _ := by
  unfold isConstant at h
  rw [Bool.and_eq_true, decide_eq_true_eq] at h
  rw [← h.2]
  exact hconst _ (of_decide_eq_true h.1)

def Picks (func : SsaFunction) (oc : OpCode) (n a b w : ℕ) : Prop :=
  ∀ ρ, ConstantsHold ρ → SizesFit oc n [FlagValues.sizeOf func a, FlagValues.sizeOf func b] →
    (⟨8 * n, binaryResult oc _ (valueOf func ρ a).2 (valueOf func ρ b).2⟩ : Operand) =
      valueOf func ρ w

theorem picks_otherThan (hoc : oc ∈ [.intAdd, .intMult, .intAnd, .intOr])
    (h : otherThan func c a b = some w) : w ∈ [a, b] ∧ ∀ n, (∀ v ∈ [a, b],
      isConstant func c v = true →
        ∀ x : BitVec (8 * n), binaryResult oc _ x (c.setWidth (8 * n)) = x) →
      Picks func oc n a b w := by
  have hkeeps : ∀ {n ρ u v}, (∀ x : BitVec (8 * n), binaryResult oc _ x (c.setWidth (8 * n)) = x) →
      ConstantsHold ρ → isConstant func c v = true → FlagValues.sizeOf func u = n →
      FlagValues.sizeOf func v = n →
      (⟨8 * n, binaryResult oc _ (valueOf func ρ u).2 (valueOf func ρ v).2⟩ : Operand) =
        valueOf func ρ u := by
    intro n ρ u v hneutral hconst hc hu hv
    refine eq_of_neutral (congrArg (8 * ·) hu) fun x => ?_
    rw [constant_value hconst hc, valueOf_fst, hv]
    exact hneutral x
  have hsizes : ∀ {n m l}, SizesFit oc n [m, l] → m = n ∧ l = n := by
    simp only [mem_cons, not_mem_nil, or_false] at hoc
    rcases hoc with rfl | rfl | rfl | rfl <;> exact id
  unfold otherThan at h
  split at h
  · next hc =>
    cases h
    refine ⟨by simp, fun n hneutral ρ hconst hfit => ?_⟩
    obtain ⟨ha, hb⟩ := hsizes hfit
    rw [binaryResult_comm hoc (congrArg (8 * ·) ha) (congrArg (8 * ·) hb)]
    exact hkeeps (hneutral _ (by simp) hc) hconst hc hb ha
  · split at h
    · next hc =>
      cases h
      refine ⟨by simp, fun n hneutral ρ hconst hfit => ?_⟩
      exact hkeeps (hneutral _ (by simp) hc) hconst hc (hsizes hfit).1 (hsizes hfit).2
    · cases h

theorem picks_firstOverZero (hoc : oc ∈ [.intSub, .intLeft, .intRight, .intSRight])
    (h : firstOverZero func a b = some w) : w ∈ [a, b] ∧ ∀ n, Picks func oc n a b w := by
  unfold firstOverZero at h
  split at h
  · next hc =>
    cases h
    refine ⟨by simp, fun n ρ hconst hfit => ?_⟩
    have ha : FlagValues.sizeOf func a = n := by
      simp only [mem_cons, not_mem_nil, or_false] at hoc
      rcases hoc with rfl | rfl | rfl | rfl
      · exact hfit.1
      all_goals exact hfit
    refine eq_of_neutral (congrArg (8 * ·) ha) fun x => ?_
    rw [constant_value hconst hc, cut_zero]
    exact binaryResult_zero (mem_cons_of_mem _ (mem_cons_of_mem _ hoc)) x
  · cases h

theorem picks_firstOfSame (hoc : oc ∈ [.intAnd, .intOr])
    (hsame : sameStorage func a b = true → ∀ ρ, valueOf func ρ a = valueOf func ρ b)
    (h : firstOfSame func a b = some w) : w ∈ [a, b] ∧ ∀ n, Picks func oc n a b w := by
  unfold firstOfSame at h
  split at h
  · next hs =>
    cases h
    refine ⟨by simp, fun n ρ _ hfit => ?_⟩
    rw [← hsame hs]
    simp only [mem_cons, not_mem_nil, or_false] at hoc
    rcases hoc with rfl | rfl <;>
      simp only [binaryResult, sameWidthResult, BitVec.setWidth_eq, BitVec.and_self,
        BitVec.or_self] <;>
      exact operand_cut (congrArg (8 * ·) hfit.1) _
  · cases h

end Picks

section Rule

variable {f₀ func g : SsaFunction} {i : ℕ} (h : Rewritten f₀ func) (hrec : Recorded f₀)
  (hlive : (func.op i).dead = false)

include h hrec

theorem same_value (hplain : Plain f₀ (f₀.op i)) {a b : ℕ} (hin : (func.op i).inputs = [a, b])
    (hoc : (func.op i).opcode ∈ [.intXor, .intAnd, .intOr]) (hs : sameStorage func a b = true)
    (ρ : Valuation) : valueOf func ρ a = valueOf func ρ b := by
  have hne : (func.op i).opcode ≠ .copy := by
    intro hop
    rw [hop] at hoc
    exact absurd hoc (by decide)
  have ha := (h.var_input hrec hne (v := a) (by rw [hin]; simp)).2
  have hb := (h.var_input hrec hne (v := b) (by rw [hin]; simp)).2
  rw [h.op_of_ne hne] at hin hoc
  unfold sameStorage SsaFunction.isConst at hs
  rw [ha, hb] at hs
  rw [valueOf_same ha, valueOf_same hb]
  unfold valueOf
  rw [hplain.same hoc a b hin hs]

include hlive

theorem rewritten_keeping {ocs : List OpCode} {pick : ℕ → ℕ → Option ℕ} (hcopy : .copy ∉ ocs)
    (hpick : ∀ a b w, (func.op i).inputs = [a, b] → (func.op i).opcode ∈ ocs →
      pick a b = some w → w ∈ [a, b] ∧ ∀ out, (func.op i).output = some out →
        Picks func (func.op i).opcode (FlagValues.sizeOf func out) a b w)
    (hf : keeping func i ocs pick = some g) : Rewritten f₀ g ∧ (g.op i).dead = false := by
  unfold keeping at hf
  split at hf
  · next a b hin =>
    split at hf
    · next hoc =>
      obtain ⟨w, hsome, rfl⟩ := Option.map_eq_some_iff.mp hf
      obtain ⟨hw, hres⟩ := hpick a b w hin hoc hsome
      have hne : (func.op i).opcode ≠ .copy := fun hop => hcopy (hop ▸ hoc)
      rw [← hin] at hw
      refine h.copy hrec (lt_of_input hw) hlive hne rfl (le_refl _) (fun _ _ => rfl)
        (h.var_input hrec hne hw).1 fun ρ out hρ ho hfit => ?_
      unfold Sized sizesOf at hfit
      unfold resultOf
      rw [hin] at hfit ⊢
      exact (hres out ho ρ hρ.const hfit).symm
    · cases hf
  · cases hf

theorem rewritten_xorSelf (hplain : Plain f₀ (f₀.op i)) (hf : ruleXorSelfZero func i = some g) :
    Rewritten f₀ g ∧ (g.op i).dead = false := by
  unfold ruleXorSelfZero at hf
  split at hf
  · next a b out hin hout =>
    split at hf
    · next hoc =>
      cases hf
      have hnew : (func.pushConst i 0 (func.var out).data.size).var func.varnodes.length =
          ⟨⟨.const, 0, (func.var out).data.size⟩, 0, none, [i]⟩ := by
        unfold pushConst
        rw [var_pushVar, if_neg (lt_irrefl _), if_pos rfl]
      have hlen : func.varnodes.length <
          (func.pushConst i 0 (func.var out).data.size).varnodes.length := by
        unfold pushConst SsaFunction.pushVar
        rw [length_append]
        exact Nat.lt_succ_self _
      refine h.copy hrec (lt_of_output hout) hlive (by rw [hoc.1]; decide) rfl hlen.le
        (fun v hv => ?_) hlen fun ρ out' hρ ho _ => ?_
      · unfold pushConst
        rw [var_pushVar, if_pos hv]
      · rw [hout, Option.some.injEq] at ho
        subst ho
        have hsame := same_value h hrec hplain hin (by rw [hoc.1]; decide) hoc.2 ρ
        have hzero : valueOf (func.pushConst i 0 (func.var out).data.size) ρ func.varnodes.length =
            ⟨8 * FlagValues.sizeOf func out, 0⟩ := by
          unfold valueOf valueKey
          rw [hnew]
          exact congrArg (Sigma.mk _)
            ((hρ.const ((.const, 0, (func.var out).data.size), 0) rfl).trans (cut_zero _ _))
        unfold resultOf
        rw [hzero, hin, hoc.1]
        simp [bitResult, binaryResult, sameWidthResult, hsame]
    · cases hf
  · cases hf

theorem rewritten_doubleNeg (hplain : Plain f₀ (f₀.op i)) (hf : ruleDoubleNeg func i = some g) :
    Rewritten f₀ g ∧ (g.op i).dead = false := by
  unfold ruleDoubleNeg at hf
  split at hf
  · next inner hoc hin =>
    obtain ⟨d, hd, hf⟩ := Option.bind_eq_some_iff.mp hf
    split at hf
    · next original hoc' hin' =>
      cases hf
      have hne : (func.op i).opcode ≠ .copy := by rw [hoc]; decide
      have hne' : (func.op d).opcode ≠ .copy := by rw [hoc']; decide
      have hmem : inner ∈ (func.op i).inputs := by rw [hin]; simp
      have hmem' : original ∈ (func.op d).inputs := by rw [hin']; simp
      refine h.copy hrec (lt_of_input hmem) hlive hne rfl (le_refl _) (fun _ _ => rfl)
        (h.var_input hrec hne' hmem').1 fun ρ out hρ ho hfit => ?_
      have hvar := (h.var_input hrec hne hmem).2
      have hvar' := (h.var_input hrec hne' hmem').2
      rw [hvar] at hd
      unfold Sized sizesOf at hfit
      unfold resultOf
      rw [hin, hoc] at hfit ⊢
      rw [h.op_of_ne hne] at hlive hmem hoc
      rw [h.op_of_ne hne'] at hoc' hin'
      have hconst : f₀.isConst inner = false := by
        by_contra hc
        rw [Bool.not_eq_false] at hc
        exact hplain.negated hoc inner hmem hc d hd hoc'
      obtain ⟨hfit', hval⟩ := hρ.negated inner hmem d hd hoc' inner
        (hrec.defined i inner d hlive hmem hconst hd).2
      unfold Sized sizesOf at hfit'
      unfold resultOf at hval
      rw [hin', hoc'] at hfit' hval
      have hsize : (f₀.var inner).data.size = (func.var out).data.size := hvar ▸ hfit
      change _ = (⟨_, unaryResult .int2Comp _ (valueOf func ρ inner).2⟩ : Operand)
      rw [valueOf_same hvar, hval, valueOf_same hvar']
      exact (unary_negate_twice _ (congrArg (8 * ·) hsize) (congrArg (8 * ·) hfit')).symm
    · cases hf
  · cases hf

end Rule

theorem ones_narrow : ∀ size < 8, ((1 <<< (size * 8) - 1 : U64)).setWidth
    (8 * size) = -1 := by decide

theorem and_allOnes {func : SsaFunction} {i out : ℕ} (ho : (func.op i).output = some out)
    (hsize : FlagValues.sizeOf func out ≤ 8) (x : BitVec (8 * FlagValues.sizeOf func out)) :
    binaryResult .intAnd _ x ((allOnes func i).setWidth (8 * FlagValues.sizeOf func out)) = x := by
  have hones : (allOnes func i).setWidth (8 * FlagValues.sizeOf func out) = -1 := by
    unfold allOnes
    simp only [ho, Option.elim_some]
    split
    · next h8 =>
      have hs : FlagValues.sizeOf func out = 8 := le_antisymm hsize h8
      rw [hs]
      rfl
    · next h8 => exact ones_narrow _ (Nat.lt_of_not_le h8)
  rw [hones]
  simp [binaryResult, sameWidthResult, BitVec.neg_one_eq_allOnes]

section Pool

variable {f₀ func g : SsaFunction} {i : ℕ} (hrec : Recorded f₀)
  (hplain : ∀ i, (f₀.op i).dead = false → Plain f₀ (f₀.op i)) {pool : List Rule}

include hrec hplain

theorem rewritten_rule (h : Rewritten f₀ func) (hlive : (func.op i).dead = false) {rule : Rule}
    (hrule : rule ∈ createDefaultRulePool) (hf : rule func i = some g) :
    Rewritten f₀ g ∧ (g.op i).dead = false := by
  have hlive₀ : (f₀.op i).dead = false := by
    rcases h.ops i with hop | ⟨u, -, hop, -⟩ <;> rw [hop] at hlive <;> exact hlive
  simp only [createDefaultRulePool, mem_cons, not_mem_nil, or_false] at hrule
  rcases hrule with rfl | rfl | rfl | rfl | rfl | rfl | rfl | rfl | rfl | rfl
  · exact rewritten_xorSelf h hrec hlive (hplain i hlive₀) hf
  · refine rewritten_keeping h hrec hlive (by decide) (fun a b w _ hoc hp => ?_) hf
    rw [mem_singleton.mp hoc]
    refine (picks_otherThan (by decide) hp).imp_right fun h out _ => h _ fun v _ _ x => ?_
    rw [cut_zero]
    exact binaryResult_zero (by decide) x
  · refine rewritten_keeping h hrec hlive (by decide) (fun a b w _ hoc hp => ?_) hf
    rw [mem_singleton.mp hoc]
    refine (picks_otherThan (by decide) hp).imp_right fun h out _ => h _ fun v _ _ x => ?_
    have hone : (1 : U64).setWidth (8 * FlagValues.sizeOf func out) = 1 :=
      BitVec.eq_of_toNat_eq (by simp)
    rw [hone]
    simp [binaryResult, sameWidthResult]
  · exact rewritten_doubleNeg h hrec hlive (hplain i hlive₀) hf
  · refine rewritten_keeping h hrec hlive (by decide) (fun a b w hin hoc hp => ?_) hf
    rw [mem_singleton] at hoc
    exact (picks_firstOfSame (by rw [hoc]; decide) (same_value h hrec (hplain i hlive₀) hin
      (by rw [hoc]; decide)) hp).imp_right fun h out _ => h _
  · refine rewritten_keeping h hrec hlive (by decide) (fun a b w hin hoc hp => ?_) hf
    rw [mem_singleton] at hoc
    exact (picks_firstOfSame (by rw [hoc]; decide) (same_value h hrec (hplain i hlive₀) hin
      (by rw [hoc]; decide)) hp).imp_right fun h out _ => h _
  · exact rewritten_keeping h hrec hlive (by decide) (fun a b w _ hoc hp =>
      (picks_firstOverZero (mem_cons_of_mem _ hoc) hp).imp_right fun h out _ => h _) hf
  · exact rewritten_keeping h hrec hlive (by decide) (fun a b w _ hoc hp =>
      (picks_firstOverZero (mem_singleton.mp hoc ▸ mem_cons_self) hp).imp_right
        fun h out _ => h _) hf
  · refine rewritten_keeping h hrec hlive (by decide) (fun a b w hin hoc hp => ?_) hf
    rw [mem_singleton] at hoc
    refine (picks_otherThan (by rw [hoc]; decide) hp).imp_right fun h' out ho =>
      h' _ fun v hv hc x => ?_
    have hne : (func.op i).opcode ≠ .copy := by rw [hoc]; decide
    rw [← hin] at hv
    have hvar := (h.var_input hrec hne hv).2
    have hop := h.op_of_ne hne
    have hout := h.var_output hrec hlive₀ (hop ▸ ho)
    rw [hoc]
    refine and_allOnes ho (Nat.le_of_not_lt fun hwide => ?_) x
    have hones : allOnes func i = -1 := by
      unfold allOnes
      rw [ho]
      exact if_pos hwide.le
    unfold isConstant SsaFunction.isConst at hc
    rw [hones, hvar] at hc
    unfold FlagValues.sizeOf at hwide
    rw [hout] at hwide
    rw [hop] at hv ho hoc
    exact absurd (((hplain i hlive₀).narrow hoc out ho hwide v hv).symm.trans hc) (by decide)
  · refine rewritten_keeping h hrec hlive (by decide) (fun a b w _ hoc hp => ?_) hf
    rw [mem_singleton.mp hoc]
    refine (picks_otherThan (by decide) hp).imp_right fun h out _ => h _ fun v _ _ x => ?_
    rw [cut_zero]
    exact binaryResult_zero (by decide) x

theorem rewritten_applyOp (h : Rewritten f₀ func) (n : ℕ)
    (hpool : pool ⊆ createDefaultRulePool) : Rewritten f₀ (applyOp pool (func, n) i).1 := by
  unfold applyOp
  split
  · exact h
  · next hlive =>
    rw [Bool.not_eq_true] at hlive
    induction pool generalizing func n with
    | nil => exact h
    | cons rule rules ih =>
      rw [cons_subset] at hpool
      rw [foldl_cons]
      unfold applyRule
      cases hf : rule func i with
      | none => exact ih h n hpool.2 hlive
      | some g =>
        obtain ⟨hg, hglive⟩ := rewritten_rule hrec hplain h hlive hpool.1 hf
        exact ih hg (n + 1) hpool.2 hglive

theorem rewritten_applyAll (h : Rewritten f₀ func)
    (hpool : pool ⊆ createDefaultRulePool) : Rewritten f₀ (applyAll pool func).1 := by
  unfold applyAll
  generalize 0 = n
  induction range func.ops.length generalizing func n with
  | nil => exact h
  | cons i l ih => exact ih (rewritten_applyOp hrec hplain h n hpool) _

theorem rewritten_rounds (h : Rewritten f₀ func)
    (hpool : pool ⊆ createDefaultRulePool) (rounds : ℕ) :
    Rewritten f₀ (runUntilFixedPoint pool rounds func).1 := by
  induction rounds generalizing func with
  | zero => exact h
  | succ rounds ih =>
    have hround := rewritten_applyAll hrec hplain h hpool
    simp only [runUntilFixedPoint]
    split
    · exact hround
    · exact ih hround

end Pool

/-- The rewritten function's operations have the results they had, on all values they can find. -/
def KeepsResults (func g : SsaFunction) : Prop :=
  ∀ i out, (func.op i).dead = false → (func.op i).output = some out → Sized func (func.op i) out →
    ∀ ρ, Reached func (func.op i) ρ →
      resultOf g (g.op i) out ρ = resultOf func (func.op i) out ρ

/-- Any number of rounds of rules of the pool, in any order, keeps the results of a plain
function. -/
theorem rounds_keep_results (cfg : ControlFlowGraph)
    (hentry : cfg.blocks ≠ [] → cfg.entryBlock < cfg.blocks.length) (passes : List Pass)
    (hplain : ∀ i, ((runPasses passes (fromCfg cfg)).op i).dead = false →
      Plain (runPasses passes (fromCfg cfg)) ((runPasses passes (fromCfg cfg)).op i))
    (pool : List Rule) (hpool : pool ⊆ createDefaultRulePool) (rounds : ℕ) :
    KeepsResults (runPasses passes (fromCfg cfg))
        (applyAll pool (runPasses passes (fromCfg cfg))).1 ∧
      KeepsResults (runPasses passes (fromCfg cfg))
        (runUntilFixedPoint pool rounds (runPasses passes (fromCfg cfg))).1 := by
  have hrec := recorded_runPasses passes (recorded_fromCfg hentry)
  have hstart : Rewritten (runPasses passes (fromCfg cfg)) (runPasses passes (fromCfg cfg)) :=
    ⟨le_refl _, fun _ _ => rfl, fun _ => .inl rfl⟩
  constructor
  · exact fun i out hlive ho hfit ρ hρ =>
      (rewritten_applyAll hrec hplain hstart hpool).result hrec hlive ho hfit hρ
  · exact fun i out hlive ho hfit ρ hρ =>
      (rewritten_rounds hrec hplain hstart hpool rounds).result hrec hlive ho hfit hρ

def masked (size : ℕ) : ControlFlowGraph where
  blocks := [⟨0, 0x1000, [⟨0x1000, 8, "pand xmm0, [mask]",
    [⟨.intAnd, some ⟨.register, 0x1200, size⟩,
      [⟨.register, 0x1200, size⟩, ⟨.const, -1, size⟩]⟩]⟩], [], []⟩]
  entryBlock := 0
  addrToBlock := []
  switches := OrderedMap.OrdMap.empty

/-- At eight bytes the mask is dropped. -/
theorem rounds_keep_results_masked :
    (KeepsResults (fromCfg (masked 8))
        (applyAll createDefaultRulePool (fromCfg (masked 8))).1 ∧
      KeepsResults (fromCfg (masked 8))
        (runUntilFixedPoint createDefaultRulePool 2 (fromCfg (masked 8))).1) ∧
      ((applyAll createDefaultRulePool (fromCfg (masked 8))).1.op 0).opcode = .copy := by
  refine ⟨rounds_keep_results (masked 8) (by decide) [] (fun i _ => ?_) _ (List.Subset.refl _) 2,
    by decide +kernel⟩
  change Plain (fromCfg (masked 8)) ((fromCfg (masked 8)).op i)
  cases i with
  | zero =>
    have hop : (fromCfg (masked 8)).op 0 = ⟨.intAnd, some 2, [0, 1], 0, 0x1000, false⟩ := by
      decide +kernel
    refine ⟨fun _ a b hab hs => ?_, fun _ out ho hwide => ?_, fun hneg => ?_⟩
    · rw [hop] at hab
      cases hab
      exact absurd hs (by decide +kernel)
    · rw [hop] at ho
      cases ho
      exact absurd hwide (by decide +kernel)
    · exact absurd hneg (by decide +kernel)
  | succ i =>
    have hop : (fromCfg (masked 8)).op (i + 1) = default :=
      getD_eq_default _ _ (show (fromCfg (masked 8)).ops.length ≤ i + 1 by
        rw [show (fromCfg (masked 8)).ops.length = 1 by decide +kernel]
        exact Nat.le_add_left 1 i)
    rw [hop]
    exact ⟨fun h => absurd h (by decide), fun h => absurd h (by decide),
      fun h => absurd h (by decide)⟩

/-- All ones in every register and temporary. -/
def filled : Valuation := fun k =>
  if k.1.1 = .const then k.1.2.1.setWidth _ else BitVec.allOnes _

/-- At sixteen bytes the constant has zeros above its 64 ones, and the mask is dropped too. -/
theorem mask_of_half_dropped : ¬ KeepsResults (fromCfg (masked 16))
    (applyAll createDefaultRulePool (fromCfg (masked 16))).1 := by
  intro h
  have hop : (fromCfg (masked 16)).op 0 = ⟨.intAnd, some 2, [0, 1], 0, 0x1000, false⟩ := by
    decide +kernel
  have hsized : Sized (fromCfg (masked 16)) ((fromCfg (masked 16)).op 0) 2 := by
    rw [hop]
    exact ⟨by decide +kernel, by decide +kernel⟩
  have hρ : Reached (fromCfg (masked 16)) ((fromCfg (masked 16)).op 0) filled := by
    refine ⟨fun k hk => if_pos hk, fun v hv d hd => ?_⟩
    rw [hop] at hv
    have hnone : ∀ v ∈ [0, 1], ((fromCfg (masked 16)).var v).defOp = none := by decide +kernel
    rw [hnone v hv] at hd
    cases hd
  have heq := congrArg (fun u : Operand => u.2.toNat)
    (h 0 2 (by rw [hop]) (by rw [hop]) hsized filled hρ)
  exact absurd heq (by decide +kernel)

end RewriteRules
