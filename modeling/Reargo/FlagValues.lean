import Mathlib.Data.List.TakeWhile
import Reargo.FlagIdioms

/-!
# What the flag idioms denote

A run of a block gives every value a bit vector of its width, each live operation computing
its result from those of its inputs. A relation recovered for an operation denotes the value
the operation computes. Operands of an earlier operation may be written over by that
operation alone, when it is a comparison.
-/
namespace FlagValues

open PcodeModel SsaModel ConditionTests EmulatorSemantics FlagIdioms List
open Bool hiding decide_false not_not not_or not_true or_false
open BitVec hiding not_not not_or
open Option hiding all all_eq_true

variable {n : ℕ}

section Flags

variable {w : ℕ} (x y : BitVec w)

/-- The signed value of a difference is off by at most one turn, away from its sign. -/
theorem toInt_sub_turn : (x - y).toInt = x.toInt - y.toInt ∨
      (0 ≤ x.toInt - y.toInt ∧ (x - y).toInt = x.toInt - y.toInt - 2 ^ w) ∨
      (x.toInt - y.toInt < 0 ∧ (x - y).toInt = x.toInt - y.toInt + 2 ^ w) := by
  have hx := x.two_mul_toInt_lt
  have hx' := x.le_two_mul_toInt
  have hy := y.two_mul_toInt_lt
  have hy' := y.le_two_mul_toInt
  rw [toInt_sub, Int.bmod_def]
  push_cast
  rcases lt_or_ge (x.toInt - y.toInt) 0 with hneg | hpos
  · rw [← Int.add_emod_right, Int.emod_eq_of_lt (by omega) (by omega)]
    split
    · omega
    · omega
  · rw [Int.emod_eq_of_lt hpos (by omega)]
    split
    · omega
    · omega

theorem sign_xor_overflow :
    ((x - y).msb ^^ decide (x.toInt - y.toInt ≠ (x - y).toInt)) = decide (x.toInt < y.toInt) := by
  have hmsb : (x - y).msb = decide ((x - y).toInt < 0) := msb_eq_toInt
  have hx := x.two_mul_toInt_lt
  have hx' := x.le_two_mul_toInt
  have hy := y.two_mul_toInt_lt
  have hy' := y.le_two_mul_toInt
  rw [hmsb]
  rcases toInt_sub_turn x y with h | ⟨h0, h⟩ | ⟨h0, h⟩
  · simp only [h, ne_eq, not_true, decide_false, Bool.xor_false, decide_eq_decide]
    omega
  · have hne : x.toInt - y.toInt ≠ (x - y).toInt := by omega
    have hlt : (x - y).toInt < 0 := by omega
    have hge : ¬ x.toInt < y.toInt := by omega
    rw [decide_eq_true hlt, decide_eq_true hne, decide_eq_false hge]
    rfl
  · have hne : x.toInt - y.toInt ≠ (x - y).toInt := by omega
    have hge : ¬ (x - y).toInt < 0 := by omega
    have hlt : x.toInt < y.toInt := by omega
    rw [decide_eq_false hge, decide_eq_true hne, decide_eq_true hlt]
    rfl

/-- A flag of at least one byte holds its truth value. -/
theorem bit_ne_zero_iff (hn : 0 < n) (b : Bool) : bit n b ≠ 0 ↔ b = true := by
  cases b with
  | false => simp [bit]
  | true =>
    simp only [bit, if_true, iff_true]
    intro h
    have hone : (1 : BitVec n).toNat = 1 := Nat.mod_eq_of_lt (Nat.one_lt_two_pow (by omega))
    rw [h] at hone
    simp at hone

end Flags

abbrev Valuation := (k : ValueKey) → BitVec (8 * k.1.2.2)

def keyValue (ρ : Valuation) (k : ValueKey) : Operand := ⟨8 * k.1.2.2, ρ k⟩

section Runs

variable (func : SsaFunction) (ρ : Valuation)

def valueOf (v : ℕ) : Operand := keyValue ρ (valueKey func v)

def sizesOf (o : SsaOp) : List ℕ := o.inputs.map fun v => (func.var v).data.size

def sizeOf (v : ℕ) : ℕ := (func.var v).data.size

/-- The operation's result is that of its inputs; nothing is said of an operation outside the
integer set, a load or a call. -/
def Computes (o : SsaOp) : Prop :=
  ∀ out, o.output = some out → SizesFit o.opcode (sizeOf func out) (sizesOf func o) →
    valueOf func ρ out = ⟨8 * sizeOf func out, bitResult o.opcode _ (o.inputs.map (valueOf func ρ))⟩

structure RunsBlock (b : ℕ) : Prop where
  const : ∀ v, func.isConst v = true →
    valueOf func ρ v = ⟨8 * sizeOf func v, (func.var v).data.offset.setWidth _⟩
  computes : ∀ i < func.ops.length, (func.op i).dead = false → (func.op i).block = b →
    Computes func ρ (func.op i)

/-- The integer operations a relation is recovered from. -/
def isFlagOp : OpCode → Bool
  | .intSub | .intEqual | .intNotEqual | .intLess | .intLessEqual | .intSLess | .intSLessEqual
  | .intSBorrow | .boolXor | .boolOr | .boolNegate | .copy => true
  | _ => false

/-- What the lifter and the passes keep: the operations of a block stand together, a live
definition names what it defines, operand sizes fit, no storage reaches the end of its
space. -/
structure WellFormed : Prop where
  together : ∀ k < func.ops.length, ∀ j ≤ k, ∀ i ≤ j,
    (func.op i).block = (func.op k).block → (func.op j).block = (func.op i).block
  defined : ∀ v d, (func.var v).defOp = some d → d < func.ops.length ∧ ((func.op d).dead = false →
      ∃ out, (func.op d).output = some out ∧ valueKey func out = valueKey func v)
  defines : ∀ i < func.ops.length, (func.op i).dead = false → ∀ out,
    (func.op i).output = some out → (func.var out).defOp = some i
  sized : ∀ i < func.ops.length, (func.op i).dead = false → isFlagOp (func.op i).opcode = true →
    ∃ out, (func.op i).output = some out ∧
      SizesFit (func.op i).opcode (sizeOf func out) (sizesOf func (func.op i))
  storage : ∀ i < func.ops.length, (func.op i).dead = false →
    ∀ v ∈ (func.op i).inputs ++ (func.op i).output.toList, 0 < sizeOf func v ∧
      (func.isConst v = false → (func.var v).data.offset.toNat + sizeOf func v < 2 ^ 64)

end Runs

/-- The truth of an integer comparison. -/
def truth (op : OpCode) {w : ℕ} (x y : BitVec w) : Bool :=
  match op with
  | .intEqual => x = y
  | .intNotEqual => x ≠ y
  | .intLess => x.toNat < y.toNat
  | .intLessEqual => x.toNat ≤ y.toNat
  | .intSLess => x.toInt < y.toInt
  | .intSLessEqual => x.toInt ≤ y.toInt
  | _ => false

def isIntCompare : OpCode → Bool
  | .intEqual | .intNotEqual | .intLess | .intLessEqual | .intSLess | .intSLessEqual => true
  | _ => false

/-- The value `u` is what the relation says of the operands' values; nothing is said of float
comparisons. -/
def Denotes (value : ℕ → Operand) (u : Operand) : Rel → Prop
  | .sub a b => u = ⟨(value a).1, (value a).2 - (value b).2.setWidth _⟩
  | .sf a b => u.2 = bit u.1 ((value a).2 - (value b).2.setWidth _).msb
  | .of a b =>
    u.2 = bit u.1 (decide ((value a).2.toInt - ((value b).2.setWidth (value a).1).toInt ≠
      ((value a).2 - (value b).2.setWidth _).toInt))
  | .cmp op a b negated =>
    isIntCompare op = true →
      u.2 = bit u.1 (truth op (value a).2 ((value b).2.setWidth _) ^^ negated)

variable {v : ℕ} {r : Rel}

section Steps

variable {func : SsaFunction} {ρ : Valuation} {oc : OpCode} {w : ℕ}

theorem valueOf_fst (v : ℕ) : (valueOf func ρ v).1 = 8 * sizeOf func v := rfl

theorem valueOf_congr {x y : ℕ} (h : same func x y = true) :
    valueOf func ρ x = valueOf func ρ y := by
  unfold valueOf
  rw [of_decide_eq_true h]

theorem pair_iff {a₁ b₁ a₂ b₂ : ℕ} (h : pair func a₁ b₁ a₂ b₂ = true) :
    valueOf func ρ a₁ = valueOf func ρ a₂ ∧ valueOf func ρ b₁ = valueOf func ρ b₂ := by
  unfold pair at h
  rw [and_eq_true] at h
  exact ⟨valueOf_congr h.1, valueOf_congr h.2⟩

/-- Every relation recorded denotes the value it is recorded for. -/
def Sound (func : SsaFunction) (ρ : Valuation) (rels : ValueKey → Option Rel) : Prop :=
  ∀ k r, rels k = some r → Denotes (valueOf func ρ) (keyValue ρ k) r

theorem length_inputs {o : SsaOp} (h : SizesFit o.opcode n (sizesOf func o))
    (hoc : isFlagOp o.opcode = true) :
    o.inputs.length = if o.opcode = .copy ∨ o.opcode = .boolNegate then 1 else 2 := by
  unfold sizesOf at h
  rcases hin : o.inputs with _ | ⟨x, _ | ⟨y, _ | ⟨z, _ | ⟨u, l⟩⟩⟩⟩ <;> rw [hin] at h
  · exact absurd h id
  · cases hop : o.opcode <;> rw [hop] at h hoc <;> simp_all [SizesFit, isFlagOp]
  · cases hop : o.opcode <;> rw [hop] at h hoc <;> simp_all [SizesFit, isFlagOp]
  · cases hop : o.opcode <;> rw [hop] at h hoc <;> simp_all [SizesFit, isFlagOp]
  · exact absurd h id

theorem inputs_two {o : SsaOp} (h : SizesFit o.opcode n (sizesOf func o))
    (hoc : isFlagOp o.opcode = true) (hne : o.opcode ≠ .copy ∧ o.opcode ≠ .boolNegate) :
    ∃ x y, o.inputs = [x, y] :=
  length_eq_two.mp ((length_inputs h hoc).trans (if_neg (not_or.mpr hne)))

theorem binaryResult_compare (h : isIntCompare oc = true) (n : ℕ) {u : ℕ}
    (x : BitVec w) (y : BitVec u) : binaryResult oc n x y = bit n (truth oc x (y.setWidth w)) := by
  cases oc <;> first | exact absurd h false_ne_true | rfl

theorem cut_zero (u w : ℕ) : (0 : BitVec u).setWidth w = 0 := setWidth_zero ..

theorem operand_cut (h : w = n) (z : BitVec w) : (⟨n, z.setWidth n⟩ : Operand) = ⟨w, z⟩ := by
  subst h
  rw [setWidth_eq]

section Operation

variable {o : SsaOp} {out x y : ℕ} (hout : o.output = some out) (hc : Computes func ρ o)
  (hfit : SizesFit o.opcode (sizeOf func out) (sizesOf func o))

include hout hc hfit

theorem computes_two (hin : o.inputs = [x, y]) : valueOf func ρ out =
      ⟨8 * sizeOf func out, binaryResult o.opcode _ (valueOf func ρ x).2 (valueOf func ρ y).2⟩ := by
  have h := hc out hout hfit
  rw [hin] at h
  exact h

theorem computes_one (hin : o.inputs = [x]) : valueOf func ρ out =
      ⟨8 * sizeOf func out, unaryResult o.opcode _ (valueOf func ρ x).2⟩ := by
  have h := hc out hout hfit
  rw [hin] at h
  exact h

theorem compare_denotes (hin : o.inputs = [x, y]) :
    Denotes (valueOf func ρ) (valueOf func ρ out) (.cmp o.opcode x y false) := by
  intro hcmp
  rw [computes_two hout hc hfit hin]
  simp only [Bool.xor_false]
  exact binaryResult_compare hcmp _ _ _

theorem sub_denotes (hop : o.opcode = .intSub) (hin : o.inputs = [x, y]) :
    Denotes (valueOf func ρ) (valueOf func ρ out) (.sub x y) := by
  have hval := computes_two hout hc hfit hin
  rw [hop] at hval hfit
  unfold sizesOf at hfit
  rw [hin] at hfit
  have hsize : 8 * sizeOf func x = 8 * sizeOf func out := congrArg (8 * ·) hfit.1
  exact hval.trans (operand_cut hsize _)

theorem borrow_denotes (hop : o.opcode = .intSBorrow) (hin : o.inputs = [x, y]) :
    Denotes (valueOf func ρ) (valueOf func ρ out) (.of x y) := by
  have hval := computes_two hout hc hfit hin
  rw [hop] at hval
  simp only [Denotes]
  rw [hval]
  rfl

end Operation

theorem definition_spec {b d x y : ℕ} (h : definition func v b = some (d, oc, x, y)) :
    (func.var v).defOp = some d ∧ (func.op d).dead = false ∧ (func.op d).block = b ∧
      (func.op d).opcode = oc ∧ (func.op d).inputs = [x, y] := by
  unfold definition at h
  obtain ⟨d', hd, h⟩ := bind_eq_some_iff.mp h
  simp only at h
  split at h
  · cases h
  · next hlive =>
    simp only [not_or, ne_eq, not_not] at hlive
    obtain ⟨a, ha, h⟩ := bind_eq_some_iff.mp h
    obtain ⟨c, hc, h⟩ := map_eq_some_iff.mp h
    cases h
    refine ⟨hd, not_eq_true _ ▸ hlive.1, hlive.2.1, rfl, ?_⟩
    rcases hin : (func.op d).inputs with _ | ⟨p, _ | ⟨q, _ | ⟨r, l⟩⟩⟩
    · rw [hin] at hlive
      exact absurd hlive.2.2 (by simp)
    · rw [hin] at hlive
      exact absurd hlive.2.2 (by simp)
    · rw [hin] at ha hc
      cases ha
      cases hc
      rfl
    · rw [hin] at hlive
      exact absurd hlive.2.2 (by simp)

variable {b : ℕ}

section

variable (hf : WellFormed func) (hr : RunsBlock func ρ b)

include hf hr

theorem definition_computes {d x y : ℕ}
    (h : definition func v b = some (d, oc, x, y)) (hoc : isFlagOp oc = true) :
    ∃ out, (func.op d).output = some out ∧ valueOf func ρ out = valueOf func ρ v ∧
      Computes func ρ (func.op d) ∧
      SizesFit (func.op d).opcode (sizeOf func out) (sizesOf func (func.op d)) := by
  obtain ⟨hdef, hlive, hblock, hop, -⟩ := definition_spec h
  obtain ⟨hlt, hnamed⟩ := hf.defined v d hdef
  obtain ⟨out, hout, hkey⟩ := hnamed hlive
  obtain ⟨out', hout', hfit⟩ := hf.sized d hlt hlive (by rw [hop]; exact hoc)
  rw [hout, some.injEq] at hout'
  rw [← hout'] at hfit
  refine ⟨out, hout, ?_, hr.computes d hlt hlive hblock, hfit⟩
  unfold valueOf
  rw [hkey]

theorem earlierSub_denotes
    (h : earlierSub func v b = some r) : Denotes (valueOf func ρ) (valueOf func ρ v) r := by
  unfold earlierSub at h
  obtain ⟨⟨d, oc, x, y⟩, hdef, h⟩ := bind_eq_some_iff.mp h
  simp only at h
  split at h
  · next hcond =>
    cases h
    obtain ⟨rfl, -⟩ := hcond
    obtain ⟨-, -, -, hop, hin⟩ := definition_spec hdef
    obtain ⟨out, hout, hval, hc, hfit⟩ := definition_computes hf hr hdef rfl
    rw [← hval]
    exact sub_denotes hout hc hfit hop hin
  · cases h

theorem earlierCompare_denotes
    (h : earlierCompare func v b = some r) : Denotes (valueOf func ρ) (valueOf func ρ v) r := by
  unfold earlierCompare at h
  obtain ⟨⟨d, oc, x, y⟩, hdef, h⟩ := bind_eq_some_iff.mp h
  simp only at h
  split at h
  · next hcond =>
    cases h
    have hflag : isFlagOp oc = true := by
      rcases hcond.1 with rfl | rfl | rfl <;> rfl
    obtain ⟨-, -, -, hop, hin⟩ := definition_spec hdef
    obtain ⟨out, hout, hval, hc, hfit⟩ := definition_computes hf hr hdef hflag
    rw [← hval, ← hop]
    exact compare_denotes hout hc hfit hin
  · cases h

end

section Step

variable {rels : ValueKey → Option Rel} {o : SsaOp} {out x y i : ℕ} {r s t : Rel}

theorem relOf_denotes (hf : WellFormed func) (hr : RunsBlock func ρ b) (hs : Sound func ρ rels)
    (hb : o.block = b) (hv : o.inputs[i]? = some v) (h : relOf func o rels i = some r) :
    Denotes (valueOf func ρ) (valueOf func ρ v) r := by
  unfold relOf at h
  rw [hv, bind_some, or_eq_some_iff] at h
  rcases h with h | ⟨-, h⟩
  · exact hs _ _ h
  · rw [hb] at h
    exact earlierSub_denotes hf hr h

theorem zero_operand (hr : RunsBlock func ρ b) (hin : o.inputs[i]? = some y)
    (h : isZero func o i = true) : (valueOf func ρ y).2 = 0 := by
  unfold isZero at h
  rw [hin, any_some, and_eq_true, decide_eq_true_eq] at h
  rw [hr.const y h.1, h.2]
  exact setWidth_zero ..

theorem truth_difference (hoc : oc = .intEqual ∨ oc = .intNotEqual) {u : Operand}
    {p q : BitVec w} (hu : u = ⟨w, p - q⟩) : truth oc u.2 0 = truth oc p q := by
  subst hu
  rcases hoc with rfl | rfl
  · exact decide_eq_decide.mpr sub_eq_zero
  · exact decide_eq_decide.mpr (not_congr sub_eq_zero)

theorem truth_sign {u : Operand} {p q : BitVec w} (hu : u = ⟨w, p - q⟩) :
    truth .intSLess u.2 0 = (p - q).msb := by
  subst hu
  have hmsb : (p - q).msb = decide ((p - q).toInt < 0) := msb_eq_toInt
  have hzero : (0 : BitVec w).toInt = 0 := toInt_zero
  simp only [truth, hmsb, hzero]

variable (hout : o.output = some out) (hc : Computes func ρ o)
  (hfit : SizesFit o.opcode (sizeOf func out) (sizesOf func o))

include hout hc hfit

theorem equalZero_denotes (hr : RunsBlock func ρ b) (hin : o.inputs = [x, y])
    (hoc : o.opcode = .intEqual ∨ o.opcode = .intNotEqual) (hz : isZero func o 1 = true)
    {p q : ℕ} (hsub : Denotes (valueOf func ρ) (valueOf func ρ x) (.sub p q)) :
    Denotes (valueOf func ρ) (valueOf func ρ out) (.cmp o.opcode p q false) := by
  intro hcmp
  have hzero := zero_operand hr (by rw [hin]; rfl) hz
  rw [computes_two hout hc hfit hin]
  simp only [Bool.xor_false]
  rw [binaryResult_compare hcmp, hzero, cut_zero, truth_difference hoc hsub]

theorem lessZero_denotes (hr : RunsBlock func ρ b) (hin : o.inputs = [x, y])
    (hop : o.opcode = .intSLess) (hz : isZero func o 1 = true)
    {p q : ℕ} (hsub : Denotes (valueOf func ρ) (valueOf func ρ x) (.sub p q)) :
    Denotes (valueOf func ρ) (valueOf func ρ out) (.sf p q) := by
  have hzero := zero_operand hr (by rw [hin]; rfl) hz
  simp only [Denotes]
  rw [computes_two hout hc hfit hin, binaryResult_compare (by rw [hop]; rfl), hop, hzero,
    cut_zero, truth_sign hsub]

end Step

section Combine

variable {r s t : Rel} {u v z : Operand}

theorem flag_truth {c : Bool} (hpos : 0 < u.1) (h : u.2 = bit u.1 c) : decide (u.2 ≠ 0) = c := by
  rw [h]
  cases c with
  | false => exact decide_eq_false (fun hne => hne rfl)
  | true => exact decide_eq_true ((bit_ne_zero_iff hpos true).mpr rfl)

theorem signed_less_bit {p q : BitVec w} (hu : 0 < u.1) (hv : 0 < v.1)
    (hsf : u.2 = bit u.1 (p - q).msb)
    (hof : v.2 = bit v.1 (decide (p.toInt - q.toInt ≠ (p - q).toInt))) :
    (decide (u.2 ≠ 0) ^^ decide (v.2 ≠ 0)) = truth .intSLess p q := by
  rw [flag_truth hu hsf, flag_truth hv hof]
  exact sign_xor_overflow p q

theorem of_congr {a b c d : ℕ} (hac : valueOf func ρ a = valueOf func ρ c)
    (hbd : valueOf func ρ b = valueOf func ρ d) (h : Denotes (valueOf func ρ) u (.of c d)) :
    Denotes (valueOf func ρ) u (.of a b) := by
  simp only [Denotes] at h ⊢
  rw [hac, hbd]
  exact h

theorem signedLess_denotes (hu : 0 < u.1) (hv : 0 < v.1)
    (hr : Denotes (valueOf func ρ) u r) (hs : Denotes (valueOf func ρ) v s)
    (h : signedLess func r s = some t)
    (hz : z.2 = bit z.1 (decide (u.2 ≠ 0) ^^ decide (v.2 ≠ 0))) :
    Denotes (valueOf func ρ) z t := by
  unfold signedLess at h
  split at h
  · next a b c d =>
    split at h
    · next hpair =>
      cases h
      obtain ⟨hac, hbd⟩ := pair_iff hpair
      intro _
      rw [hz, signed_less_bit hu hv hr (of_congr hac hbd hs), Bool.xor_false]
    · cases h
  · next c d a b =>
    split at h
    · next hpair =>
      cases h
      obtain ⟨hac, hbd⟩ := pair_iff hpair
      intro _
      rw [hz, Bool.xor_comm, signed_less_bit hv hu hs (of_congr hac hbd hr), Bool.xor_false]
    · cases h
  · cases h

theorem truth_orEqual {oc' le : OpCode} (h : orEqual oc oc' = some le)
    (hle : isIntCompare le = true) (p q : BitVec w) :
    isIntCompare oc = true ∧ isIntCompare oc' = true ∧
      (truth oc p q || truth oc' p q) = truth le p q := by
  have hu : (decide (p.toNat < q.toNat) || decide (p = q)) = decide (p.toNat ≤ q.toNat) := by
    rw [← decide_or, decide_eq_decide, Nat.le_iff_lt_or_eq, toNat_inj]
  have hs : (decide (p.toInt < q.toInt) || decide (p = q)) = decide (p.toInt ≤ q.toInt) := by
    rw [← decide_or, decide_eq_decide, Int.le_iff_lt_or_eq, toInt_inj]
  unfold orEqual at h
  split at h
  · cases h
    exact ⟨rfl, rfl, hu⟩
  · cases h
    exact ⟨rfl, rfl, (Bool.or_comm _ _).trans hu⟩
  · cases h
    exact ⟨rfl, rfl, hs⟩
  · cases h
    exact ⟨rfl, rfl, (Bool.or_comm _ _).trans hs⟩
  · cases h
    exact absurd hle Bool.false_ne_true
  · cases h
    exact absurd hle Bool.false_ne_true
  · cases h

theorem lessOrEqual_denotes (hu : 0 < u.1) (hv : 0 < v.1)
    (hr : Denotes (valueOf func ρ) u r) (hs : Denotes (valueOf func ρ) v s)
    (h : lessOrEqual func r s = some t)
    (hz : z.2 = bit z.1 (decide (u.2 ≠ 0) || decide (v.2 ≠ 0))) :
    Denotes (valueOf func ρ) z t := by
  unfold lessOrEqual at h
  split at h
  · next oc a b oc' c d =>
    split at h
    · next hpair =>
      obtain ⟨le, hle, rfl⟩ := map_eq_some_iff.mp h
      obtain ⟨hac, hbd⟩ := pair_iff hpair
      intro hint
      obtain ⟨hoc, hoc', htruth⟩ := truth_orEqual hle hint (valueOf func ρ a).2
        ((valueOf func ρ b).2.setWidth _)
      have hfirst := hr hoc
      have hsecond := hs hoc'
      rw [← hac, ← hbd, Bool.xor_false] at hsecond
      rw [Bool.xor_false] at hfirst
      rw [hz, flag_truth hu hfirst, flag_truth hv hsecond, htruth, Bool.xor_false]
    · cases h
  · cases h

/-- The recovery of a float comparison says nothing of integers. -/
theorem floatBelow_denotes (h : floatBelow func r s = some t) : Denotes (valueOf func ρ) z t := by
  unfold floatBelow at h
  split at h
  · split at h
    · cases h
      exact fun hint => absurd hint false_ne_true
    · cases h
  · cases h

theorem asCompare_denotes (hr : Denotes (valueOf func ρ) u r) (h : asCompare r = some t) :
    Denotes (valueOf func ρ) u t := by
  cases r with
  | cmp op a b negated =>
    cases h
    exact hr
  | sub a b => cases h
  | sf a b => cases h
  | of a b => cases h

theorem negate_denotes (hu : 0 < u.1) (hr : Denotes (valueOf func ρ) u r)
    (h : negate r = some t) (hz : z.2 = bit z.1 (decide (u.2 = 0))) :
    Denotes (valueOf func ρ) z t := by
  cases r with
  | cmp op a b negated =>
    cases h
    intro hint
    have hflag := flag_truth hu (hr hint)
    rw [decide_not] at hflag
    rw [hz, xor_not, ← hflag, Bool.not_not]
  | sub a b => cases h
  | sf a b => cases h
  | of a b => cases h

end Combine

section Recovered

variable {rels : ValueKey → Option Rel} {i out : ℕ} {t : Rel}

variable (hf : WellFormed func)

include hf

theorem fits (hi : i < func.ops.length) (hlive : (func.op i).dead = false)
    (hout : (func.op i).output = some out) (hflag : isFlagOp (func.op i).opcode = true) :
    SizesFit (func.op i).opcode (sizeOf func out) (sizesOf func (func.op i)) := by
  obtain ⟨out', hout', hfit⟩ := hf.sized i hi hlive hflag
  rw [hout, some.injEq] at hout'
  rw [hout']
  exact hfit

theorem value_pos (hi : i < func.ops.length)
    (hlive : (func.op i).dead = false) (hv : v ∈ (func.op i).inputs) :
    0 < (valueOf func ρ v).1 := by
  have hpos := (hf.storage i hi hlive v (mem_append_left _ hv)).1
  rw [valueOf_fst]
  omega

theorem compareInputs_denotes (hr : RunsBlock func ρ b) (hi : i < func.ops.length)
    (hlive : (func.op i).dead = false) (hb : (func.op i).block = b)
    (hout : (func.op i).output = some out) (h : compareInputs (func.op i) = some t) :
    Denotes (valueOf func ρ) (valueOf func ρ out) t := by
  unfold compareInputs at h
  obtain ⟨x, hx, h⟩ := bind_eq_some_iff.mp h
  obtain ⟨y, hy, rfl⟩ := map_eq_some_iff.mp h
  intro hcmp
  have hflag : isFlagOp (func.op i).opcode = true := by
    revert hcmp
    cases (func.op i).opcode <;> first | exact fun _ => rfl | exact fun h => absurd h (by decide)
  have hne : (func.op i).opcode ≠ .copy ∧ (func.op i).opcode ≠ .boolNegate := by
    constructor
    · intro hop
      rw [hop] at hcmp
      exact absurd hcmp false_ne_true
    · intro hop
      rw [hop] at hcmp
      exact absurd hcmp false_ne_true
  have hfit := fits hf hi hlive hout hflag
  obtain ⟨x', y', hin⟩ := inputs_two hfit hflag hne
  rw [hin] at hx hy
  cases hx
  cases hy
  exact compare_denotes hout (hr.computes i hi hlive hb) hfit hin hcmp

theorem relation_denotes (hr : RunsBlock func ρ b) (hs : Sound func ρ rels)
    (hi : i < func.ops.length) (hlive : (func.op i).dead = false)
    (hb : (func.op i).block = b) (hout : (func.op i).output = some out)
    (h : relation func (func.op i) rels = some t) :
    Denotes (valueOf func ρ) (valueOf func ρ out) t := by
  have hc := hr.computes i hi hlive hb
  have htwo {oc} (hop : (func.op i).opcode = oc)
      (hoc : isFlagOp oc = true ∧ oc ≠ .copy ∧ oc ≠ .boolNegate) :
      SizesFit (func.op i).opcode (sizeOf func out) (sizesOf func (func.op i)) ∧
        ∃ x y, (func.op i).inputs = [x, y] := by
    subst hop
    exact ⟨fits hf hi hlive hout hoc.1, inputs_two (fits hf hi hlive hout hoc.1) hoc.1 hoc.2⟩
  have hone (hop : (func.op i).opcode = .copy ∨ (func.op i).opcode = .boolNegate) :
      SizesFit (func.op i).opcode (sizeOf func out) (sizesOf func (func.op i)) ∧
        ∃ x, (func.op i).inputs = [x] := by
    have hfit := fits hf hi hlive hout (by rcases hop with hop | hop <;> rw [hop] <;> rfl)
    have hlen := length_inputs hfit (by rcases hop with hop | hop <;> rw [hop] <;> rfl)
    exact ⟨hfit, length_eq_one_iff.mp (hlen.trans (if_pos hop))⟩
  have hrel : ∀ {j v r}, (func.op i).inputs[j]? = some v →
      relOf func (func.op i) rels j = some r → Denotes (valueOf func ρ) (valueOf func ρ v) r :=
    fun hv hr' => relOf_denotes hf hr hs hb hv hr'
  have hpos : ∀ v, v ∈ (func.op i).inputs → 0 < (valueOf func ρ v).1 :=
    fun _ hv => value_pos hf hi hlive hv
  have hcompare := compareInputs_denotes (t := t) hf hr hi hlive hb hout
  unfold relation at h
  simp only at h
  split at h
  · next hop =>
    obtain ⟨hfit, x, y, hin⟩ := htwo hop (by decide)
    rw [hin] at h
    cases h
    exact sub_denotes hout hc hfit hop hin
  · next hop =>
    obtain ⟨hfit, x, y, hin⟩ := htwo hop (by decide)
    split at h
    · next hz hsub =>
      cases h
      exact equalZero_denotes hout hc hfit hr hin (.inl hop) hz (hrel (by rw [hin]; rfl) hsub)
    · exact hcompare h
  · next hop =>
    obtain ⟨hfit, x, y, hin⟩ := htwo hop (by decide)
    split at h
    · next hz hsub =>
      cases h
      exact equalZero_denotes hout hc hfit hr hin (.inr hop) hz (hrel (by rw [hin]; rfl) hsub)
    · exact hcompare h
  · next hop =>
    obtain ⟨hfit, x, y, hin⟩ := htwo hop (by decide)
    split at h
    · next hz hsub =>
      cases h
      exact lessZero_denotes hout hc hfit hr hin hop hz (hrel (by rw [hin]; rfl) hsub)
    · exact hcompare h
  · next hop =>
    obtain ⟨hfit, x, y, hin⟩ := htwo hop (by decide)
    rw [hin] at h
    cases h
    exact borrow_denotes hout hc hfit hop hin
  · exact hcompare h
  · exact hcompare h
  · exact hcompare h
  · exact hcompare h
  · exact hcompare h
  · exact hcompare h
  · exact hcompare h
  · next hop =>
    obtain ⟨hfit, x, y, hin⟩ := htwo hop (by decide)
    obtain ⟨r, hr0, h⟩ := bind_eq_some_iff.mp h
    obtain ⟨s, hr1, h⟩ := bind_eq_some_iff.mp h
    refine signedLess_denotes (hpos x (by rw [hin]; simp)) (hpos y (by rw [hin]; simp))
      (hrel (by rw [hin]; rfl) hr0) (hrel (by rw [hin]; rfl) hr1) h ?_
    rw [computes_two hout hc hfit hin, hop]
    rfl
  · next hop =>
    obtain ⟨hfit, x, y, hin⟩ := htwo hop (by decide)
    rw [or_eq_some_iff, or_eq_some_iff] at h
    rcases h with (h | ⟨-, h⟩) | ⟨-, h⟩
    · obtain ⟨r, -, h⟩ := bind_eq_some_iff.mp h
      obtain ⟨s, -, h⟩ := bind_eq_some_iff.mp h
      exact floatBelow_denotes h
    · obtain ⟨r, -, h⟩ := bind_eq_some_iff.mp h
      obtain ⟨s, -, h⟩ := bind_eq_some_iff.mp h
      exact floatBelow_denotes h
    · obtain ⟨r, hr0, h⟩ := bind_eq_some_iff.mp h
      obtain ⟨s, hr1, h⟩ := bind_eq_some_iff.mp h
      refine lessOrEqual_denotes (hpos x (by rw [hin]; simp)) (hpos y (by rw [hin]; simp))
        (hrel (by rw [hin]; rfl) hr0) (hrel (by rw [hin]; rfl) hr1) h ?_
      rw [computes_two hout hc hfit hin, hop, ← decide_or]
      rfl
  · next hop =>
    obtain ⟨hfit, x, hin⟩ := hone (.inl hop)
    obtain ⟨r, hr0, h⟩ := bind_eq_some_iff.mp h
    have hcopy : valueOf func ρ out = valueOf func ρ x := by
      have hval := computes_one hout hc hfit hin
      rw [hop] at hval hfit
      unfold sizesOf at hfit
      rw [hin] at hfit
      have hsize : 8 * sizeOf func x = 8 * sizeOf func out := congrArg (8 * ·) hfit
      exact hval.trans (operand_cut hsize _)
    rw [hcopy]
    refine asCompare_denotes ?_ h
    rw [or_eq_some_iff] at hr0
    rcases hr0 with hr0 | ⟨-, hr0⟩
    · exact hrel (by rw [hin]; rfl) hr0
    · rw [hin, hb] at hr0
      exact earlierCompare_denotes hf hr hr0
  · next hop =>
    obtain ⟨hfit, x, hin⟩ := hone (.inr hop)
    obtain ⟨r, hr0, h⟩ := bind_eq_some_iff.mp h
    refine negate_denotes (hpos x (by rw [hin]; simp)) (hrel (by rw [hin]; rfl) hr0) h ?_
    rw [computes_one hout hc hfit hin, hop]
    rfl
  · cases h

theorem sound_step (hr : RunsBlock func ρ b) (hs : Sound func ρ rels)
    (hi : i < func.ops.length) (hlive : (func.op i).dead = false) (hb : (func.op i).block = b) :
    Sound func ρ (record func rels i) := by
  intro k r hk
  unfold record at hk
  cases hout : (func.op i).output with
  | none =>
    rw [hout] at hk
    exact hs k r hk
  | some out =>
    cases hrel : relation func (func.op i) rels with
    | none =>
      rw [hout] at hk
      simp only [hrel, elim_none] at hk
      exact hs k r hk
    | some t =>
      rw [hout] at hk
      simp only [hrel, elim_some] at hk
      by_cases hkey : k = valueKey func out
      · subst hkey
        rw [Function.update_self, some.injEq] at hk
        rw [← hk]
        exact relation_denotes hf hr hs hi hlive hb hout hrel
      · rw [Function.update_of_ne hkey] at hk
        exact hs k r hk

end Recovered

end Steps

section Overwrites

/-- Some byte of `x` is one of `w`; constants are no storage. -/
def Overwrites (w x : VarnodeData) : Prop :=
  x.space ≠ .const ∧ x.space = w.space ∧
    ∃ a, x.offset.toNat ≤ a ∧ a < x.offset.toNat + x.size ∧
      w.offset.toNat ≤ a ∧ a < w.offset.toNat + w.size

variable (func : SsaFunction)

/-- From `start` on no live operation of the block writes over an operand of the relation. -/
def KeepsOperands (start block : ℕ) (r : Rel) : Prop :=
  ∀ j, start ≤ j → j < func.ops.length → (func.op j).block = block → (func.op j).dead = false →
    ∀ out, (func.op j).output = some out →
      ¬ Overwrites (func.var out).data (func.var r.operands.1).data ∧
        ¬ Overwrites (func.var out).data (func.var r.operands.2).data

def RelationsExact : Prop :=
  ∀ (b : ℕ) (ρ : Valuation), RunsBlock func ρ b → (∀ ops : List ℕ,
      (∀ i ∈ ops, i < func.ops.length ∧ (func.op i).dead = false ∧ (func.op i).block = b) →
      Sound func ρ (relations func ops)) ∧
    ∀ v r, earlierSub func v b = some r ∨ earlierCompare func v b = some r →
      Denotes (valueOf func ρ) (valueOf func ρ v) r

/-- From an earlier operation on, itself included, nothing writes over its operands. -/
def OperandsKept : Prop :=
  ∀ v b r, earlierSub func v b = some r ∨ earlierCompare func v b = some r →
    ∀ d, (func.var v).defOp = some d → KeepsOperands func d b r

/-- No comparison of two operands that nothing after it writes over writes over one itself. -/
def ComparesKeepOperands : Prop :=
  ∀ d < func.ops.length, (func.op d).dead = false →
    ((func.op d).opcode = .intSLess ∨ (func.op d).opcode = .intLess ∨
      (func.op d).opcode = .intEqual) →
    ∀ x y, (func.op d).inputs = [x, y] →
      KeepsOperands func (d + 1) (func.op d).block (.cmp (func.op d).opcode x y false) →
      ∀ out, (func.op d).output = some out → ¬ Overwrites (func.var out).data (func.var x).data ∧
          ¬ Overwrites (func.var out).data (func.var y).data

variable {func} {x y d i j b : ℕ}

theorem overlaps_iff_common {x w : VarnodeData} (hx : 0 < x.size) (hw : 0 < w.size)
    (hxin : x.offset.toNat + x.size < 2 ^ 64) (hwin : w.offset.toNat + w.size < 2 ^ 64) :
    overlaps x w = true ↔ x.space = w.space ∧
      ∃ a, x.offset.toNat ≤ a ∧ a < x.offset.toNat + x.size ∧
        w.offset.toNat ≤ a ∧ a < w.offset.toNat + w.size := by
  rw [overlaps_iff hxin hwin]
  refine and_congr_right fun _ => ⟨fun h => ?_, ?_⟩
  · exact ⟨max x.offset.toNat w.offset.toNat, by omega, by omega, by omega, by omega⟩
  · rintro ⟨a, h1, h2, h3, h4⟩
    omega

theorem writesOver_iff (hf : WellFormed func) (hi : i < func.ops.length)
    (hlive : (func.op i).dead = false) (hx : x ∈ (func.op i).inputs)
    (hj : j < func.ops.length) (hlive' : (func.op j).dead = false) {out : ℕ}
    (hout : (func.op j).output = some out) :
    writesOver func x (func.var out).data = true ↔
      Overwrites (func.var out).data (func.var x).data := by
  have hxs := hf.storage i hi hlive x (mem_append_left _ hx)
  have hws := hf.storage j hj hlive' out (mem_append_right _ (by rw [hout]; simp))
  unfold writesOver Overwrites
  rw [and_eq_true, decide_eq_true_eq]
  refine and_congr_right fun hconst => ?_
  have hxin := hxs.2 (decide_eq_false hconst)
  by_cases hw : func.isConst out = true
  · have hspace : (func.var out).data.space = .const := of_decide_eq_true hw
    have hne : (func.var x).data.space ≠ (func.var out).data.space := by
      rw [hspace]
      exact hconst
    simp [overlaps, hne]
  · exact overlaps_iff_common hxs.1 hws.1 hxin (hws.2 (by simpa using hw))

theorem op_mem_drop {start : ℕ} (hs : start ≤ j) (hj : j < func.ops.length) :
    (func.ops.drop start)[j - start]? = some (func.op j) := by
  rw [List.getElem?_drop, Nat.add_sub_cancel' hs, List.getElem?_eq_getElem hj, SsaFunction.op,
    getD_eq_getElem?_getD, List.getElem?_eq_getElem hj]
  rfl

theorem mem_takeWhile_of_prefix {α : Type*} {p : α → Bool} {l : List α} {a : α}
    (ha : l[n]? = some a) (hp : ∀ m ≤ n, ∀ c, l[m]? = some c → p c = true) : a ∈ l.takeWhile p := by
  induction l generalizing n with
  | nil => cases ha
  | cons c l ih =>
    have hc := hp 0 (Nat.zero_le n) c rfl
    rw [takeWhile_cons, if_pos hc]
    cases n with
    | zero =>
      cases ha
      exact mem_cons_self
    | succ n =>
      refine mem_cons_of_mem _ (ih (n := n) ha fun m hm c' hc' => ?_)
      exact hp (m + 1) (by omega) c' hc'

variable (hf : WellFormed func)

include hf

/-- The rest of the block is a stretch of the operations, so the test sees all of it. -/
theorem keptFrom_iff (hd : d < func.ops.length)
    (hlive : (func.op d).dead = false) (hin : (func.op d).inputs = [x, y]) {start : ℕ}
    (hstart : d ≤ start) (hb : (func.op d).block = b) (hr : r.operands = (x, y)) :
    keptFrom func start b x y = true ↔ KeepsOperands func start b r := by
  have hx : x ∈ (func.op d).inputs := by rw [hin]; simp
  have hy : y ∈ (func.op d).inputs := by rw [hin]; simp
  unfold keptFrom KeepsOperands
  rw [all_eq_true, hr]
  constructor
  · intro h j hs hj hblock hjlive out hout
    have hmem : func.op j ∈ (func.ops.drop start).takeWhile fun o => o.block = b := by
      refine mem_takeWhile_of_prefix (op_mem_drop hs hj) fun m hm c hc => ?_
      have hm' := op_mem_drop (j := start + m) (Nat.le_add_right _ _)
        (show start + m < func.ops.length by omega)
      rw [Nat.add_sub_cancel_left, hc, some.injEq] at hm'
      have hsame := hf.together j hj (start + m) (by omega) d (by omega) (by rw [hb, hblock])
      rw [hm', hsame, hb, decide_eq_true_eq]
    have hall := h _ hmem
    rw [hjlive, Bool.false_or, hout, any_some, not_eq_true', or_eq_false_iff]
      at hall
    constructor
    · intro hover
      rw [(writesOver_iff hf hd hlive hx hj hjlive hout).mpr hover] at hall
      exact absurd hall.1 (by decide)
    · intro hover
      rw [(writesOver_iff hf hd hlive hy hj hjlive hout).mpr hover] at hall
      exact absurd hall.2 (by decide)
  · intro h o ho
    have hblock := of_decide_eq_true (mem_takeWhile_imp (p := fun o : SsaOp => o.block = b) ho)
    obtain ⟨n, hn⟩ := mem_iff_getElem?.mp ((takeWhile_sublist _).subset ho)
    have hlt : start + n < func.ops.length := by
      have := (List.getElem?_eq_some_iff.mp hn).1
      rw [length_drop] at this
      omega
    have hop : (func.ops.drop start)[start + n - start]? = some (func.op (start + n)) :=
      op_mem_drop (Nat.le_add_right start n) hlt
    rw [Nat.add_sub_cancel_left, hn, some.injEq] at hop
    subst hop
    by_cases hjlive : (func.op (start + n)).dead = true
    · rw [hjlive, Bool.true_or]
    · rw [not_eq_true] at hjlive
      rw [hjlive, Bool.false_or]
      cases hout : (func.op (start + n)).output with
      | none => rfl
      | some out =>
        obtain ⟨h1, h2⟩ := h (start + n) (Nat.le_add_right _ _) hlt hblock hjlive out hout
        rw [any_some, not_eq_true', or_eq_false_iff]
        constructor
        · rw [← not_eq_true, writesOver_iff hf hd hlive hx hlt hjlive hout]
          exact h1
        · rw [← not_eq_true, writesOver_iff hf hd hlive hy hlt hjlive hout]
          exact h2

theorem earlierSub_kept (h : earlierSub func v b = some r) (hdef : (func.var v).defOp = some d) :
    KeepsOperands func d b r := by
  unfold earlierSub at h
  obtain ⟨⟨d', oc, x, y⟩, hdefn, h⟩ := bind_eq_some_iff.mp h
  obtain ⟨hd, hlive, hblock, -, hin⟩ := definition_spec hdefn
  rw [hdef, some.injEq] at hd
  subst hd
  simp only at h
  split at h
  · next hcond =>
    cases h
    exact (keptFrom_iff hf (hf.defined v d hdef).1 hlive hin (le_refl d) hblock rfl).mp hcond.2
  · cases h

theorem earlierCompare_spec
    (h : earlierCompare func v b = some r) (hdef : (func.var v).defOp = some d) :
    (func.op d).dead = false ∧ (func.op d).block = b ∧
      ((func.op d).opcode = .intSLess ∨ (func.op d).opcode = .intLess ∨
        (func.op d).opcode = .intEqual) ∧
      ∃ x y, (func.op d).inputs = [x, y] ∧ r = .cmp (func.op d).opcode x y false ∧
        KeepsOperands func (d + 1) b r := by
  unfold earlierCompare at h
  obtain ⟨⟨d', oc, x, y⟩, hdefn, h⟩ := bind_eq_some_iff.mp h
  obtain ⟨hd, hlive, hblock, hop, hin⟩ := definition_spec hdefn
  rw [hdef, some.injEq] at hd
  subst hd
  simp only at h
  split at h
  · next hcond =>
    cases h
    rw [hop]
    exact ⟨hlive, hblock, hcond.1, x, y, hin, rfl,
      (keptFrom_iff hf (hf.defined v d hdef).1 hlive hin (Nat.le_succ d) hblock rfl).mp hcond.2⟩
  · cases h

theorem earlierCompare_found (hd : d < func.ops.length) (hlive : (func.op d).dead = false)
    (hop : (func.op d).opcode = .intSLess ∨ (func.op d).opcode = .intLess ∨
    (func.op d).opcode = .intEqual) (hin : (func.op d).inputs = [x, y])
    (hkept : KeepsOperands func (d + 1) (func.op d).block (.cmp (func.op d).opcode x y false))
    {out : ℕ} (hout : (func.op d).output = some out) :
    earlierCompare func out (func.op d).block = some (.cmp (func.op d).opcode x y false) := by
  have hdefn : definition func out (func.op d).block = some (d, (func.op d).opcode, x, y) := by
    unfold definition
    rw [hf.defines d hd hlive out hout, bind_some]
    simp only
    rw [if_neg (by rw [hlive, hin]; simp), hin]
    rfl
  have htest := (keptFrom_iff hf hd hlive hin (Nat.le_succ d) rfl rfl).mpr hkept
  unfold earlierCompare
  rw [hdefn, bind_some]
  simp only
  rw [if_pos ⟨hop, htest⟩]

theorem operandsKept_iff : OperandsKept func ↔ ComparesKeepOperands func := by
  constructor
  · intro h d hd hlive hop x y hin hkept out hout
    exact h out _ _ (.inr (earlierCompare_found hf hd hlive hop hin hkept hout)) d
      (hf.defines d hd hlive out hout) d (le_refl d) hd rfl hlive out hout
  · intro h v b r hr d hdef
    rcases hr with hr | hr
    · exact earlierSub_kept hf hr hdef
    · obtain ⟨hlive, rfl, hop, x, y, hin, rfl, hkept⟩ := earlierCompare_spec hf hr hdef
      intro j hj hjlt hblock hjlive out hout
      rcases Nat.eq_or_lt_of_le hj with rfl | hlt
      · exact h d hjlt hlive hop x y hin hkept out hout
      · exact hkept j hlt hjlt hblock hjlive out hout

end Overwrites

theorem sound_relations {func : SsaFunction} {ρ : Valuation} {b : ℕ} (hf : WellFormed func)
    (hr : RunsBlock func ρ b) {ops : List ℕ}
    (hops : ∀ i ∈ ops, i < func.ops.length ∧ (func.op i).dead = false ∧ (func.op i).block = b) :
    Sound func ρ (relations func ops) := by
  have hrun : ∀ (l : List ℕ) (rels : ValueKey → Option Rel), Sound func ρ rels →
      (∀ i ∈ l, i < func.ops.length ∧ (func.op i).dead = false ∧ (func.op i).block = b) →
      Sound func ρ (l.foldl (record func) rels) := by
    intro l
    induction l with
    | nil => exact fun rels hs _ => hs
    | cons i l ih =>
      intro rels hs hl
      obtain ⟨hi, hlive, hb⟩ := hl i mem_cons_self
      exact ih _ (sound_step hf hr hs hi hlive hb) fun j hj => hl j (mem_cons_of_mem i hj)
  exact hrun ops _ (fun _ _ hk => absurd hk (by simp)) hops

theorem relationsExact {func : SsaFunction} (hf : WellFormed func) : RelationsExact func := by
  intro b ρ hr
  constructor
  · exact fun ops hops => sound_relations hf hr hops
  · intro v r hv
    rcases hv with hv | hv
    · exact earlierSub_denotes hf hr hv
    · exact earlierCompare_denotes hf hr hv

def comparingInto (out : U64) : SsaFunction where
  varnodes :=
    [⟨⟨.register, 0, 1⟩, 0, none, [0]⟩, ⟨⟨.register, 8, 1⟩, 0, none, [0]⟩,
      ⟨⟨.register, out, 1⟩, 1, some 0, [1]⟩,
      ⟨⟨.register, 0x206, 1⟩, 1, some 1, []⟩]
  ops := [⟨.intLess, some 2, [0, 1], 0, 0x1000, false⟩, ⟨.copy, some 3, [2], 0, 0x1003, false⟩]
  cfg := ⟨[], 0, [], OrderedMap.OrdMap.empty⟩
  phantomWrites := []
  phantomRegs := []

theorem comparingInto_wellFormed {out : U64} (h : out.toNat < 0x1000) :
    WellFormed (comparingInto out) where
  together := by
    intro k hk j hj i hi _
    have hk : k < 2 := hk
    interval_cases k <;> interval_cases j <;> interval_cases i <;> rfl
  defined := by
    intro v d hv
    rcases v with _ | _ | _ | _ | v
    · cases hv
    · cases hv
    · cases hv
      exact ⟨Nat.zero_lt_two, fun _ => ⟨2, rfl, rfl⟩⟩
    · cases hv
      exact ⟨Nat.one_lt_two, fun _ => ⟨3, rfl, rfl⟩⟩
    · cases hv
  defines := by
    intro i hi _ o ho
    have hi : i < 2 := hi
    interval_cases i
    · cases ho
      rfl
    · cases ho
      rfl
  sized := by
    intro i hi _ _
    have hi : i < 2 := hi
    interval_cases i
    · exact ⟨2, rfl, rfl⟩
    · exact ⟨3, rfl, rfl⟩
  storage := by
    intro i hi _ v hv
    have hout : ((comparingInto out).var 2).data.offset.toNat + sizeOf (comparingInto out) 2 <
        2 ^ 64 := show out.toNat + 1 < 2 ^ 64 by omega
    have hi : i < 2 := hi
    interval_cases i
    · have hv : v ∈ [0, 1, 2] := hv
      simp only [mem_cons, not_mem_nil, or_false] at hv
      rcases hv with rfl | rfl | rfl
      · exact ⟨Nat.one_pos, fun _ => show (0 : ℕ) + 1 < 2 ^ 64 by decide⟩
      · exact ⟨Nat.one_pos, fun _ => show (8 : ℕ) + 1 < 2 ^ 64 by decide⟩
      · exact ⟨Nat.one_pos, fun _ => hout⟩
    · have hv : v ∈ [2, 3] := hv
      simp only [mem_cons, not_mem_nil, or_false] at hv
      rcases hv with rfl | rfl
      · exact ⟨Nat.one_pos, fun _ => hout⟩
      · exact ⟨Nat.one_pos, fun _ => show (0x206 : ℕ) + 1 < 2 ^ 64 by decide⟩

end FlagValues
