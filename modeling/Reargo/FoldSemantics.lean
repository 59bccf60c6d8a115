import Reargo.FoldRewrites
import Reargo.EmulatorSemantics

/-!
# Folding against the interpreter

An operation and its rewritten form are run from one state by the interpreter and
must leave the same bytes. A constant holds 64 bits while an output may be 16
bytes wide, and the interpreter's narrow operations write eight bytes of a wider
output, so the two forms part on a few 16-byte operations; these are named here.
-/
namespace FoldSemantics

open PcodeModel LittleEndian EmulatorMemory EmulatorOps EmulatorSemantics WidthArithmetic SsaModel List
  BitVec FoldRewrites Function
open EmulatorState (bytes_writeVarnode)
open SsaFunction (op_rewriteOp pushConst var_pushVar var_rewriteOp)

/-- The operand sizes of lifted code. -/
def FoldSize (n : ℕ) : Prop := WordSize n ∨ n = 16

variable {n : ℕ}

theorem FoldSize.le (h : FoldSize n) : n ≤ 16 := by
  rcases h with h | rfl
  · exact h.le.trans (by decide)
  · exact le_rfl

theorem FoldSize.word (h : FoldSize n) (hn : n ≤ 8) : WordSize n := by
  rcases h with h | rfl
  · exact h
  · omega

variable {v : U64} {out : VarnodeData} {u : U128}

theorem bytes_writeVarnode_congr (s : EmulatorState) {u : U64}
    (h : v.setWidth (8 * min out.size 8) = u.setWidth (8 * min out.size 8)) :
    (s.writeVarnode out v).bytes = (s.writeVarnode out u).bytes := by
  rw [bytes_writeVarnode, bytes_writeVarnode, ← toLeBytes_cut _ v, h,
    toLeBytes_cut]

theorem bytes_writeWide_narrow (s : EmulatorState) (hn : out.size ≤ 8)
    (v : U128) : (s.writeWide out v).bytes = (s.writeVarnode out (v.setWidth 64)).bytes := by
  rw [EmulatorState.writeWide, PageAccess.writeWide, if_pos hn]
  rfl

theorem bytes_writeWide_inj (s : EmulatorState) (hn : out.size = 16)
    {v : U128} (h : (s.writeWide out v).bytes = (s.writeWide out u).bytes) : v = u := by
  obtain ⟨sp, off, n⟩ := out
  obtain rfl : n = 16 := hn
  have hstores : ∀ a : U128,
      Stores s (.ok (s.writeWide ⟨sp, off, 16⟩ a)) ⟨sp, off, 16⟩ (a.setWidth (8 * 16)) :=
    fun a => stores_writeWide s le_rfl rfl
  have hv := hstores v
  have hu : Stores s (.ok (s.writeWide ⟨sp, off, 16⟩ v)) ⟨sp, off, 16⟩ (u.setWidth (8 * 16)) := by
    obtain ⟨s', he, hb⟩ := hstores u
    cases he
    exact ⟨_, rfl, h.trans hb⟩
  have := hv.unique le_rfl hu
  simpa using this

theorem maskTo_zero (n : ℕ) : maskTo n 0 = 0 := by
  unfold maskTo
  split <;> simp

theorem mask_cut (v : U64) : (maskTo n v).setWidth (8 * min n 8) = v.setWidth
    (8 * min n 8) := by
  unfold maskTo
  split
  · rfl
  · next h =>
    rw [min_eq_left (by omega)]
    have hm : ((1 : U64) <<< (n * 8) - 1).toNat = 2 ^ (n * 8) - 1 := by
      have : n < 8 := by omega
      interval_cases n <;> decide
    apply eq_of_toNat_eq
    rw [toNat_setWidth, toNat_and, hm, Nat.and_two_pow_sub_one_eq_mod,
      toNat_setWidth, mul_comm n 8, Nat.mod_mod]

/-- Both operations leave the same bytes, or fail alike. -/
def Agree (un : Uninterpreted) (s : EmulatorState) (op op' : PcodeOp) : Prop :=
  (execute un s op).map EmulatorState.bytes = (execute un s op').map EmulatorState.bytes

section Agree

variable {un : Uninterpreted} {s : EmulatorState} {op op' : PcodeOp} {out x : VarnodeData}

theorem agree_of_bytes {s₁ s₂ : EmulatorState} (h₁ : execute un s op = .ok s₁)
    (h₂ : execute un s op' = .ok s₂) (h : s₁.bytes = s₂.bytes) : Agree un s op op' := by
  rw [Agree, h₁, h₂]
  exact congrArg Except.ok h

theorem bytes_of_agree {s₁ s₂ : EmulatorState} (h : Agree un s op op')
    (h₁ : execute un s op = .ok s₁) (h₂ : execute un s op' = .ok s₂) : s₁.bytes = s₂.bytes := by
  rw [Agree, h₁, h₂] at h
  exact Except.ok.inj h

theorem execute_copy : execute un s ⟨.copy, some out, [x]⟩ =
    if out.size > 8 then .ok (s.writeWide out (s.readWide x))
    else .ok (s.writeVarnode out (s.readVarnode x)) :=
  rfl

theorem execute_copy_narrow (h : out.size ≤ 8) :
    execute un s ⟨.copy, some out, [x]⟩ = .ok (s.writeVarnode out (s.readVarnode x)) := by
  rw [execute_copy, if_neg (by omega)]

theorem execute_copy_wide (h : out.size = 16) :
    execute un s ⟨.copy, some out, [x]⟩ = .ok (s.writeWide out (s.readWide x)) := by
  rw [execute_copy, if_pos (by omega)]

theorem readVarnode_const (v : U64) (n : ℕ) : s.readVarnode ⟨.const, v, n⟩ = v := rfl

theorem readWide_const (v : U64) (n : ℕ) : s.readWide ⟨.const, v, n⟩ = v.setWidth 128 := by
  rw [EmulatorState.readWide, PageAccess.readWide, if_pos (.inr rfl)]
  rfl

theorem agree_const_narrow (hn : out.size ≤ 8) (h : execute un s op = .ok (s.writeVarnode out v)) :
    Agree un s op ⟨.copy, some out, [⟨.const, maskTo out.size v, out.size⟩]⟩ := by
  refine agree_of_bytes h (execute_copy_narrow hn) ?_
  rw [readVarnode_const]
  exact bytes_writeVarnode_congr s (mask_cut v).symm

theorem agree_const_wide (hn : out.size = 16) {v : U128} {u : U64}
    (h : execute un s op = .ok (s.writeWide out v)) :
    Agree un s op ⟨.copy, some out, [⟨.const, u, out.size⟩]⟩ ↔ v = u.setWidth 128 := by
  have hcopy : execute un s ⟨.copy, some out, [⟨.const, u, out.size⟩]⟩ =
      .ok (s.writeWide out (u.setWidth 128)) := by
    rw [execute_copy_wide hn, readWide_const]
  constructor
  · exact fun ha => bytes_writeWide_inj s hn (bytes_of_agree ha h hcopy)
  · rintro rfl
    exact agree_of_bytes h hcopy rfl

theorem bytes_writeVarnode_ninth (hn : out.size = 16) (v : U64) :
    (s.writeVarnode out v).bytes out.space (out.offset + 8) = s.bytes out.space (out.offset + 8) := by
  rw [bytes_writeVarnode, hn, PageAccess.stored, update_self,
    storeBytes_apply _ _ _ _ (by simp), show out.offset + 8 - out.offset = 8 by ring,
    List.getElem?_eq_none (by simp)]
  rfl

theorem bytes_writeWide_ninth (hn : out.size = 16) (v : U128) :
    (s.writeWide out v).bytes out.space (out.offset + 8) = v.extractLsb' 64 8 := by
  rw [EmulatorState.bytes_writeWide, hn, PageAccess.stored, update_self,
    storeBytes_apply _ _ _ _ (by simp), show out.offset + 8 - out.offset = 8 by ring]
  rfl

theorem not_agree_of_ninth (hn : out.size = 16) (h : execute un s op = .ok (s.writeVarnode out v))
    (h' : execute un s op' = .ok (s.writeWide out u))
    (hu : u.extractLsb' 64 8 = 0) (hs : s.bytes out.space (out.offset + 8) ≠ 0) :
    ¬ Agree un s op op' := by
  intro ha
  have := congrFun (congrFun (bytes_of_agree ha h h') out.space) (out.offset + 8)
  rw [bytes_writeVarnode_ninth hn, bytes_writeWide_ninth hn, hu] at this
  exact hs this

end Agree

/-- Where each value that is not a constant lives: a state then gives every value its bytes. -/
structure Placement where
  space : ℕ → SpaceId
  offset : ℕ → U64
  space_ne : ∀ v, space v ≠ .const

namespace Placement

variable (pl : Placement) {func g : SsaFunction}

def data (func : SsaFunction) (v : ℕ) : VarnodeData :=
  if func.isConst v then (func.var v).data else ⟨pl.space v, pl.offset v, (func.var v).data.size⟩

/-- The operation as the interpreter runs it. -/
def op (func : SsaFunction) (o : SsaOp) : PcodeOp :=
  ⟨o.opcode, o.output.map (pl.data func), o.inputs.map (pl.data func)⟩

theorem size_data (func : SsaFunction) (v : ℕ) : (pl.data func v).size = (func.var v).data.size := by
  unfold data
  split <;> rfl

theorem data_congr {v : ℕ} (h : (g.var v).data = (func.var v).data) :
    pl.data g v = pl.data func v := by
  have hc : g.isConst v = func.isConst v := by simp [SsaFunction.isConst, h]
  rw [data, data, hc, h]

theorem data_of_constValue {v : ℕ} {c : U64} (h : constValue func v = some c) :
    pl.data func v = ⟨.const, c, (func.var v).data.size⟩ := by
  unfold constValue at h
  split at h
  · next hc =>
    rw [data, if_pos hc, ← Option.some.inj h]
    rw [SsaFunction.isConst, decide_eq_true_eq] at hc
    rw [← hc]
  · cases h

theorem space_data {v : ℕ} (h : constValue func v = none) :
    pl.data func v = ⟨pl.space v, pl.offset v, (func.var v).data.size⟩ := by
  unfold constValue at h
  split at h
  · cases h
  · next hc => rw [data, if_neg hc]

end Placement

/-- What the folded operations of a function keep: operands of lifted sizes that the opcode
allows, constants within their size, no value read by its own definition. -/
structure OpFits (func : SsaFunction) (op : SsaOp) (out : ℕ) : Prop where
  sizes : SizesFit op.opcode (func.var out).data.size (op.inputs.map fun v => (func.var v).data.size)
  out_size : FoldSize (func.var out).data.size
  in_size : ∀ v ∈ op.inputs, FoldSize (func.var v).data.size
  out_lt : out < func.varnodes.length
  in_lt : ∀ v ∈ op.inputs, v < func.varnodes.length
  in_ne : ∀ v ∈ op.inputs, v ≠ out
  out_var : constValue func out = none
  in_fits : ∀ v ∈ op.inputs, ConstFits (func.var v).data
  extended : op.opcode = .intZExt ∨ op.opcode = .intSExt →
    ∀ v ∈ op.inputs, (func.var v).data.size ≤ 8

def extensionOf (func : SsaFunction) (i : ℕ) : Option ℕ :=
  match (func.op i).opcode, (func.op i).inputs with
  | .subpiece, in0 :: _ => (func.var in0).defOp.filter fun e =>
      !(func.op e).dead && ((func.op e).opcode = .intZExt || (func.op e).opcode = .intSExt)
  | _, _ => none

def ExtensionHolds (un : Uninterpreted) (pl : Placement) (func : SsaFunction) (s : EmulatorState)
    (i : ℕ) : Prop :=
  ∀ e, extensionOf func i = some e →
    (execute un s (pl.op func (func.op e))).map EmulatorState.bytes = .ok s.bytes

/-- Every valuation gives an operation and its rewritten form the same result. -/
def Faithful (un : Uninterpreted) (func func' : SsaFunction) (i : ℕ) : Prop :=
  ∀ pl s, ExtensionHolds un pl func s i →
    Agree un s (pl.op func (func.op i)) (pl.op func' (func'.op i))

/-- Two constant factors of a product over 64 bits, or one that becomes a shift. -/
def LossyProduct : Option U64 → Option U64 → Prop
  | some u, some v => 2 ^ 64 ≤ u.toNat * v.toNat
  | some u, none => (log2Exact u).isSome ∧ u ≠ 1
  | none, some v => (log2Exact v).isSome ∧ v ≠ 1
  | none, none => False

/-- The operands whose rewrite loses the upper half of a 16-byte output: narrow operations of
the interpreter, products and sign extensions that a 64-bit constant does not hold. -/
def LossyOperands (func : SsaFunction) (opcode : OpCode) (inputs : List ℕ) : Prop :=
  match opcode, inputs with
  | .intAdd, [a, b] =>
    (func.isConst a ∧ func.isConst b) ∨ constValue func a = some 0 ∨ constValue func b = some 0
  | .intSub, [a, b] => (func.isConst a ∧ func.isConst b) ∨ a = b
  | .intEqual, [a, b] => func.isConst a ∧ func.isConst b
  | .intMult, [a, b] => LossyProduct (constValue func a) (constValue func b)
  | .intSExt, [a] =>
    func.isConst a ∧ ((func.var a).data.offset.setWidth (8 * (func.var a).data.size)).msb
  | _, _ => False

/-- A live operation with a 16-byte output and such operands. -/
def Lossy (func : SsaFunction) (i : ℕ) : Prop :=
  (func.op i).dead = false ∧ ∃ out, (func.op i).output = some out ∧ (func.var out).data.size = 16 ∧
    LossyOperands func (func.op i).opcode (func.op i).inputs

section Forms

variable {func : SsaFunction} {i out : ℕ} (pl : Placement)

variable (hi : i < func.ops.length) (hout : (func.op i).output = some out)

include hi hout

/-- An operation on values there were and a new constant. -/
theorem op_pushed (hlt : out < func.varnodes.length) (c : U64) (oc : OpCode) (ins : List ℕ)
    (hins : ∀ v ∈ ins, v < func.varnodes.length) {g : SsaFunction}
    (hg : (func.pushConst i c (func.var out).data.size).rewriteOp i oc
      (ins ++ [func.varnodes.length]) = g) :
    pl.op g (g.op i) = ⟨oc, some (pl.data func out),
      ins.map (pl.data func) ++ [⟨.const, c, (pl.data func out).size⟩]⟩ := by
  have hvar : ∀ v < func.varnodes.length, g.var v = func.var v := by
    intro v hv
    rw [← hg, var_rewriteOp, pushConst, var_pushVar, if_pos hv]
  have hconst : g.var func.varnodes.length =
      ⟨⟨.const, c, (func.var out).data.size⟩, 0, none, [i]⟩ := by
    rw [← hg, var_rewriteOp, pushConst, var_pushVar,
      if_neg (lt_irrefl _), if_pos rfl]
  have hop : g.op i =
      { func.op i with opcode := oc, inputs := ins ++ [func.varnodes.length] } := by
    rw [← hg, op_rewriteOp _ (by simpa [pushConst] using hi), if_pos rfl]
    rfl
  have hdata : pl.data g func.varnodes.length = ⟨.const, c, (pl.data func out).size⟩ := by
    rw [pl.size_data, Placement.data, SsaFunction.isConst, hconst]
    rfl
  have hkept : ins.map (pl.data g) = ins.map (pl.data func) :=
    map_congr_left fun v hv => pl.data_congr (congrArg SsaVarnode.data (hvar v (hins v hv)))
  rw [Placement.op, hop]
  simp only [hout, Option.map_some, map_append, map_cons, map_nil, hdata, hkept]
  rw [pl.data_congr (congrArg SsaVarnode.data (hvar out hlt))]

theorem op_copyConst (hlt : out < func.varnodes.length) (c : U64) :
    pl.op (copyConst func i out c) ((copyConst func i out c).op i) =
      ⟨.copy, some (pl.data func out), [⟨.const, c, (pl.data func out).size⟩]⟩ :=
  op_pushed pl hi hout hlt c .copy [] (fun _ hv => absurd hv not_mem_nil) rfl

theorem op_keep (v : ℕ) :
    pl.op (func.rewriteOp i .copy [v]) ((func.rewriteOp i .copy [v]).op i) =
      ⟨.copy, some (pl.data func out), [pl.data func v]⟩ := by
  rw [op_rewriteOp _ hi, if_pos rfl, Placement.op]
  simp only [hout, Option.map_some, map_cons, map_nil]
  rfl

theorem op_shiftBy (hlt : out < func.varnodes.length) {kept : ℕ}
    (hkept : kept < func.varnodes.length) (oc : OpCode) (k : ℕ) :
    pl.op (shiftBy func i out oc kept k) ((shiftBy func i out oc kept k).op i) =
      ⟨oc, some (pl.data func out),
        [pl.data func kept, ⟨.const, BitVec.ofNat 64 k, (pl.data func out).size⟩]⟩ :=
  op_pushed pl hi hout hlt _ oc [kept] (fun _ hv => mem_singleton.mp hv ▸ hkept) rfl

end Forms

theorem log2Exact_spec {k : ℕ} (h : log2Exact v = some k) : k < 64 ∧ v = BitVec.twoPow 64 k := by
  have hmem := mem_of_find?_eq_some h
  have hp := find?_some h
  exact ⟨mem_range.mp hmem, by simpa using hp⟩

theorem twoPow_fits {k : ℕ} (hk : k < 64) (h : (BitVec.twoPow 64 k).toNat < 2 ^ (8 * n)) :
    k < 8 * n := by
  rw [toNat_twoPow, Nat.mod_eq_of_lt (Nat.pow_lt_pow_right (by decide) hk)] at h
  exact (Nat.pow_lt_pow_iff_right (by decide)).mp h

theorem intLeft_ofNat {k : ℕ} (hk : k < 64) (hn : k < n * 8) (a : U64) :
    intLeft n a (BitVec.ofNat 64 k) = a * BitVec.twoPow 64 k := by
  have hk' : (BitVec.ofNat 64 k).toNat = k := by
    rw [toNat_ofNat]
    omega
  rw [intLeft, hk', if_neg (by omega), wrappingShl, hk', mul_twoPow_eq_shiftLeft]
  congr 1
  omega

theorem intRight_ofNat {k : ℕ} (hk : k < 64) (hn : k < n * 8) (a : U64) :
    intRight n a (BitVec.ofNat 64 k) = (checkedDiv a (BitVec.twoPow 64 k)).getD 0 := by
  have hk' : (BitVec.ofNat 64 k).toNat = k := by
    rw [toNat_ofNat]
    omega
  have htwo : (BitVec.twoPow 64 k).toNat = 2 ^ k := by
    rw [toNat_twoPow, Nat.mod_eq_of_lt (Nat.pow_lt_pow_right (by decide) hk)]
  have hne : BitVec.twoPow 64 k ≠ 0 := by
    intro h
    have := congrArg BitVec.toNat h
    rw [htwo] at this
    exact absurd this (by positivity)
  rw [intRight, hk', if_neg (by omega), wrappingShr, hk', checkedDiv, if_neg hne, Option.getD_some]
  apply eq_of_toNat_eq
  rw [toNat_ushiftRight, toNat_udiv, htwo, Nat.shiftRight_eq_div_pow]
  congr 2
  omega

/-- The output in a space of its own. -/
def stalePlacement (out : ℕ) : Placement where
  space v := if v = out then .register else .unique
  offset _ := 0
  space_ne v := by split <;> decide

/-- All bytes zero but the ninth of the output. -/
def staleState : EmulatorState := EmulatorState.new.writeVarnode ⟨.register, 8, 1⟩ 1

theorem bytes_new : EmulatorState.new.bytes = fun _ _ => 0 := by
  funext sp a
  rfl

theorem bytes_staleState : staleState.bytes .register 8 = 1 := by
  rw [staleState, bytes_writeVarnode, PageAccess.stored, update_self,
    storeBytes_apply _ _ _ _ (by simp)]
  decide

theorem bytes_staleState_unique : staleState.bytes .unique = fun _ => 0 := by
  rw [staleState, bytes_writeVarnode, PageAccess.stored,
    update_of_ne (by decide), bytes_new]

section Stale

variable {func func' : SsaFunction} {un : Uninterpreted} {i out : ℕ}

theorem data_stale_out (hvar : constValue func out = none) (hsize : (func.var out).data.size = 16) :
    (stalePlacement out).data func out = ⟨.register, 0, 16⟩ := by
  rw [Placement.space_data _ hvar, hsize]
  simp [stalePlacement]

theorem readWide_stale {v : ℕ} (hv : constValue func v = none) (hne : v ≠ out) :
    staleState.readWide ((stalePlacement out).data func v) = 0 := by
  rw [Placement.space_data _ hv]
  simp only [stalePlacement, if_neg hne]
  rw [EmulatorState.readWide, PageAccess.readWide_eq (by show SpaceId.unique ≠ _; decide)]
  have hzero : EmulatorState.access.byte staleState .unique = fun _ => 0 :=
    bytes_staleState_unique
  have hload : ∀ n, loadBytes (fun _ : U64 => (0 : Byte)) 0 n = List.replicate n 0#8 := by
    intro n
    simp [loadBytes, map_const']
  simp only [hzero, hload, leNat_replicate_zero]
  rfl

theorem extensionHolds_of_ne (hop : (func.op i).opcode ≠ .subpiece) (pl : Placement)
    (s : EmulatorState) : ExtensionHolds un pl func s i := by
  intro e he
  unfold extensionOf at he
  split at he
  · next h _ => exact absurd h hop
  · cases he

/-- A narrow operation whose rewritten form writes the whole output. -/
theorem not_faithful_widened (hop : (func.op i).opcode ≠ .subpiece)
    (hvar : constValue func out = none) (hsize : (func.var out).data.size = 16)
    (h : execute un staleState ((stalePlacement out).op func (func.op i)) = .ok
    (staleState.writeVarnode ((stalePlacement out).data func out) v))
    (h' : execute un staleState ((stalePlacement out).op func' (func'.op i)) = .ok
    (staleState.writeWide ((stalePlacement out).data func out) u))
    (hu : u.extractLsb' 64 8 = 0) : ¬ Faithful un func func' i := by
  rw [data_stale_out hvar hsize] at h h'
  intro hf
  refine not_agree_of_ninth rfl h h' hu ?_ (hf _ _ (extensionHolds_of_ne hop _ _))
  rw [show staleState.bytes SpaceId.register (0 + 8) = 1 from bytes_staleState]
  decide

theorem not_faithful_narrowed (hop : (func.op i).opcode ≠ .subpiece)
    (hvar : constValue func out = none) (hsize : (func.var out).data.size = 16)
    (h : execute un staleState ((stalePlacement out).op func (func.op i)) = .ok
    (staleState.writeWide ((stalePlacement out).data func out) u))
    (h' : execute un staleState ((stalePlacement out).op func' (func'.op i)) = .ok
    (staleState.writeVarnode ((stalePlacement out).data func out) v))
    (hu : u.extractLsb' 64 8 = 0) : ¬ Faithful un func func' i := by
  rw [data_stale_out hvar hsize] at h h'
  intro hf
  refine not_agree_of_ninth rfl h' h hu ?_ (hf _ _ (extensionHolds_of_ne hop _ _)).symm
  rw [show staleState.bytes SpaceId.register (0 + 8) = 1 from bytes_staleState]
  decide

end Stale

end FoldSemantics
