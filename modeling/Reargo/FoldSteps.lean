import Reargo.FoldSemantics

/-!
# One folded operation

The three rewrites at one operation, opcode by opcode: the rewritten form agrees
with the original under the interpreter exactly when the operation is not lossy.
-/

namespace FoldSteps

open PcodeModel LittleEndian EmulatorMemory EmulatorOps EmulatorSemantics WidthArithmetic SsaModel Option
  FoldRewrites FoldSemantics
open BitVec hiding not_or ofBool not_not

/-- What the walk makes of the function at one operation. -/
def rewriteFunc (func : SsaFunction) (i : ℕ) : SsaFunction :=
  if (func.op i).dead ∨ (func.op i).output = none ∨ ¬ isFoldable (func.op i).opcode then func
  else (((tryConstantFoldOp func i).or (tryAlgebraicSimplifyOp func i)).or
    (tryStrengthReduceOp func i)).getD func

theorem rewriteAt_func (st : FoldState) (i : ℕ) : (rewriteAt st i).func = rewriteFunc st.func i := by
  unfold rewriteAt rewriteFunc
  simp only
  split
  · rfl
  · cases tryConstantFoldOp st.func i <;> cases tryAlgebraicSimplifyOp st.func i <;>
      cases tryStrengthReduceOp st.func i <;> rfl

/-- The rewrites left to an operation that does not fold. -/
def otherRewrites (func : SsaFunction) (i : ℕ) : Option SsaFunction :=
  (tryAlgebraicSimplifyOp func i).or (tryStrengthReduceOp func i)

def Writes (un : Uninterpreted) (func : SsaFunction) (i out : ℕ)
    (word : Placement → EmulatorState → U64) : Prop :=
  ∀ pl s, execute un s (pl.op func (func.op i)) =
    .ok (s.writeVarnode (pl.data func out) (word pl s))

def WritesWide (un : Uninterpreted) (func : SsaFunction) (i out : ℕ)
    (word : Placement → EmulatorState → U128) : Prop :=
  ∀ pl s, execute un s (pl.op func (func.op i)) = .ok (s.writeWide (pl.data func out) (word pl s))

theorem Writes.congr {un : Uninterpreted} {func : SsaFunction} {i out : ℕ}
    {f g : Placement → EmulatorState → U64} (h : Writes un func i out f)
    (hfg : ∀ pl s, f pl s = g pl s) : Writes un func i out g :=
  fun pl s => hfg pl s ▸ h pl s

theorem WritesWide.congr {un : Uninterpreted} {func : SsaFunction} {i out : ℕ}
    {f g : Placement → EmulatorState → U128} (h : WritesWide un func i out f)
    (hfg : ∀ pl s, f pl s = g pl s) : WritesWide un func i out g :=
  fun pl s => hfg pl s ▸ h pl s

section Step

variable {func : SsaFunction} {un : Uninterpreted} {i out a b : ℕ} {c : U64} {v : ℕ} {n : ℕ}
  {w : U128}

theorem isConst_iff (v : ℕ) : func.isConst v ↔ ∃ c, constValue func v = some c := by
  unfold constValue
  split <;> simp_all

theorem faithful_of_eq (hrw : rewriteFunc func i = func) :
    Faithful un func (rewriteFunc func i) i := by
  rw [hrw]
  exact fun _ _ _ => rfl

section

variable (h : constValue func v = some c)

include h

theorem offset_of_constValue : (func.var v).data.offset = c := by
  unfold constValue at h
  split at h
  · exact some.inj h
  · cases h

theorem readVarnode_of_constValue
    (pl : Placement) (s : EmulatorState) : s.readVarnode (pl.data func v) = c := by
  rw [pl.data_of_constValue h, readVarnode_const]

theorem readWide_of_constValue
    (pl : Placement) (s : EmulatorState) : s.readWide (pl.data func v) = c.setWidth 128 := by
  rw [pl.data_of_constValue h, readWide_const]

end

/-- Beside a constant, the other of two inputs that do not fold is none. -/
theorem constValue_other {u : ℕ} (hconst : ¬ (func.isConst u ∧ func.isConst v))
    (hu : constValue func u = some c) : constValue func v = none := by
  by_contra hv
  exact hconst ⟨(isConst_iff u).mpr ⟨c, hu⟩, by simpa [constValue] using hv⟩

/-- The product of two words, in a constant of 64 bits or not. -/
theorem wide_mul_iff (u v : U64) :
    u.setWidth 128 * v.setWidth 128 = (u * v).setWidth 128 ↔ u.toNat * v.toNat < 2 ^ 64 := by
  have hu := u.isLt
  have hv := v.isLt
  have hlt : u.toNat * v.toNat < 2 ^ 128 := by
    calc u.toNat * v.toNat < 2 ^ 64 * 2 ^ 64 := Nat.mul_lt_mul'' hu hv
      _ = 2 ^ 128 := by norm_num
  rw [← toNat_inj, toNat_mul, ext_toNat (by decide), ext_toNat (by decide),
    ext_toNat (by decide), toNat_mul, Nat.mod_eq_of_lt hlt]
  constructor
  · intro h
    rw [h]
    exact Nat.mod_lt _ (by decide)
  · exact fun h => (Nat.mod_eq_of_lt h).symm

theorem log2Exact_zero : log2Exact 0 = none := by decide

theorem writeWide_narrow (s : EmulatorState) {vn : VarnodeData} (hn : vn.size ≤ 8) (w : U128) :
    s.writeWide vn w = s.writeVarnode vn (w.setWidth 64) := by
  rw [EmulatorState.writeWide, PageAccess.writeWide, if_pos hn]
  rfl

/-- A constant within its size, as a word of that size. -/
theorem const_eq_ext {u : U64} (hn : n ≤ 8) (hu : u.toNat < 2 ^ (8 * n)) :
    u = (u.setWidth (8 * n)).setWidth 64 := by
  apply eq_of_toNat_eq
  rw [ext_toNat (by omega), toNat_setWidth, Nat.mod_eq_of_lt hu]

theorem extendConst_masked (hn : n ≤ 8) (x : BitVec (8 * n)) :
    (if n * 8 ≥ 64 then x.setWidth 64 else x.setWidth 64 &&& (((1 : U64) <<< (n * 8)) - 1)) =
      x.setWidth 64 := by
  have h := and_mask hn x
  split
  · rfl
  · rwa [if_neg (by omega)] at h

theorem extendConst_unsigned (hn : n ≤ 8) (x : BitVec (8 * n)) (sp : SpaceId) :
    extendConst false ⟨sp, x.setWidth 64, n⟩ = x.setWidth 64 := by
  simp only [extendConst, Bool.false_and, Bool.false_eq_true, if_false]
  exact extendConst_masked hn x

theorem extendConst_signed (hn : WordSize n) (x : BitVec (8 * n)) (sp : SpaceId) :
    extendConst true ⟨sp, x.setWidth 64, n⟩ = x.signExtend 64 := by
  have hn8 := hn.le
  have hpos := hn.pos
  simp only [extendConst, extendConst_masked hn8 x, Bool.true_and, signBit_iff hn8 x]
  by_cases hm : x.msb = true
  · rcases lt_or_ge n 8 with hlt | hge
    · have hmask : ((1 : U64) <<< (n * 8)) - 1 = (BitVec.allOnes (8 * n)).setWidth 64 := by
        interval_cases n <;> decide
      rw [if_pos (by simp [hm]; omega), hmask, signExtend_eq_not_setWidth_not_of_msb_true hm]
      ext j hj
      by_cases hjn : j < 8 * n <;> simp [hjn]
    · obtain rfl : n = 8 := by omega
      simp
  · rw [if_neg (by simp [hm]), signExtend_eq_setWidth_of_msb_false (by simpa using hm)]

theorem subpiece_const (u k : U64) : (if min (k.toNat * 8) (2 ^ 64 - 1) ≥ 128 then 0
      else u.setWidth 128 >>> min (k.toNat * 8) (2 ^ 64 - 1)) =
      (if k.toNat ≥ 8 then 0 else u >>> (k.toNat * 8)).setWidth 128 := by
  have hu := u.isLt
  by_cases hbig : k.toNat ≥ 16
  · rw [if_pos (by omega), if_pos (by omega)]
    rfl
  · rw [if_neg (by omega), Nat.min_eq_left (by omega)]
    apply eq_of_toNat_eq
    rw [toNat_ushiftRight, ext_toNat (by decide)]
    by_cases h8 : k.toNat ≥ 8
    · rw [if_pos h8, Nat.shiftRight_eq_div_pow, Nat.div_eq_of_lt]
      · rfl
      · exact lt_of_lt_of_le hu (Nat.pow_le_pow_right (by decide) (by omega))
    · rw [if_neg h8, ext_toNat (by decide), toNat_ushiftRight]

theorem readWide_of_bytes {s : EmulatorState} {vn : VarnodeData}
    (hc : vn.space ≠ .const) (hn : vn.size ≤ 16) (h : (s.writeWide vn w).bytes = s.bytes) :
    s.readWide vn = (w.setWidth (8 * vn.size)).setWidth 128 := by
  rw [EmulatorState.bytes_writeWide, Nat.min_eq_left hn] at h
  have hload : loadBytes (s.bytes vn.space) vn.offset vn.size = toLeBytes vn.size w := by
    have hst := loadBytes_storeBytes (s.bytes vn.space) vn.offset (toLeBytes vn.size w)
      (by rw [length_toLeBytes]; omega)
    rw [length_toLeBytes] at hst
    have hsp := congrFun h vn.space
    rw [PageAccess.stored, Function.update_self] at hsp
    rwa [hsp] at hst
  rw [EmulatorState.readWide, PageAccess.readWide_eq hc, Nat.min_eq_left hn,
    show loadBytes (EmulatorState.access.byte s vn.space) vn.offset vn.size = _ from hload,
    leNat_toLeBytes, pow_256]
  apply eq_of_toNat_eq
  rw [toNat_ofNat, ext_toNat (by omega), toNat_setWidth]
  exact Nat.mod_eq_of_lt (lt_of_lt_of_le (Nat.mod_lt _ (by positivity))
    (Nat.pow_le_pow_right (by decide) (by omega)))

theorem extensionSource_spec {x : ℕ} (h : extensionSource func i a b out = some x) :
    ∃ e, (func.var a).defOp = some e ∧ constValue func b = some 0 ∧ (func.op e).dead = false ∧
      ((func.op e).opcode = .intZExt ∨ (func.op e).opcode = .intSExt) ∧ (func.op e).inputs = [x] ∧
      (func.var x).data.space = .unique ∧
      (func.var x).data.size = (func.var out).data.size := by
  unfold extensionSource at h
  split at h
  · cases h
  · next e he =>
    simp only at h
    split_ifs at h with hk hop
    rw [not_or, not_not, Bool.not_eq_true] at hop
    split at h
    · next y hy =>
      split_ifs at h with hx
      simp only [not_or, not_not] at hx
      obtain rfl := some.inj h
      exact ⟨e, he, not_not.mp hk, hop.1, hop.2, hy, hx.1, hx.2.1⟩
    · cases h

theorem data_setVar_uses (v w : ℕ) (us : List ℕ) :
    ((func.setVar v { func.var v with uses := us }).var w).data = (func.var w).data := by
  rcases lt_or_ge v func.varnodes.length with hlt | hge
  · rw [func.var_setVar hlt]
    split
    · next hw => rw [hw]
    · rfl
  · simp [SsaFunction.setVar, SsaFunction.var, List.set_eq_of_length_le hge]

theorem op_extension (hi : i < func.ops.length) (hout : (func.op i).output = some out)
    (pl : Placement) (x : ℕ) :
    pl.op ((addUse (clearUses func a) x i).rewriteOp i .copy [x])
        (((addUse (clearUses func a) x i).rewriteOp i .copy [x]).op i) =
      ⟨.copy, some (pl.data func out), [pl.data func x]⟩ := by
  have hdata : ∀ v, ((addUse (clearUses func a) x i).var v).data = (func.var v).data := by
    intro v
    rw [addUse, data_setVar_uses, clearUses, data_setVar_uses]
  rw [op_keep pl (by simpa [addUse, clearUses] using hi) (by simpa [addUse, clearUses] using hout),
    pl.data_congr (hdata out), pl.data_congr (hdata x)]

theorem extension_low {m : ℕ} (hn : WordSize n) (hnm : n ≤ m) (signed : Bool) (x : BitVec (8 * n)) :
    ((((if signed then (intSExtWord n (x.setWidth 64)).signExtend 128
      else (x.setWidth 64).setWidth 128 : U128).setWidth (8 * m)).setWidth 128).setWidth 64).setWidth
        (8 * n) = x := by
  have hn8 := hn.le
  have hcut : ∀ w : U128, (((w.setWidth (8 * m)).setWidth 128).setWidth 64).setWidth (8 * n) =
      w.setWidth (8 * n) := by
    intro w
    apply eq_of_toNat_eq
    simp only [toNat_setWidth]
    rw [Nat.mod_mod_of_dvd _ (pow_dvd_pow 2 (by omega : 8 * n ≤ 64)),
      Nat.mod_mod_of_dvd _ (pow_dvd_pow 2 (by omega : 8 * n ≤ 128)),
      Nat.mod_mod_of_dvd _ (pow_dvd_pow 2 (by omega : 8 * n ≤ 8 * m))]
  rw [hcut]
  cases signed with
  | false =>
    simp only [Bool.false_eq_true, if_false]
    rw [ext_cut (by decide), cut_ext (by omega)]
  | true =>
    simp only [if_true]
    rw [intSExtWord_ext hn, signExtend_cut (by omega) (by omega)]
    simp

/-- An operation of the walk: it is there, live, with its output and fitting operands. -/
structure Visited (func : SsaFunction) (i out : ℕ) : Prop where
  lt : i < func.ops.length
  live : (func.op i).dead = false
  output : (func.op i).output = some out
  foldable : isFoldable (func.op i).opcode
  fits : OpFits func (func.op i) out

namespace Visited

variable (h : Visited func i out)

include h

theorem rewriteFunc_eq :
    rewriteFunc func i = (((tryConstantFoldOp func i).or (tryAlgebraicSimplifyOp func i)).or
      (tryStrengthReduceOp func i)).getD func := by
  rw [rewriteFunc, if_neg]
  simp [h.live, h.output, h.foldable]

theorem rewriteFunc_fold {v : U64}
    (hne : (func.op i).inputs ≠ []) (hall : ∀ w ∈ (func.op i).inputs, func.isConst w)
    (hv : foldedValue func (func.op i) = some v) :
    rewriteFunc func i = copyConst func i out (maskTo (func.var out).data.size v) := by
  have hfold : tryConstantFoldOp func i =
      some (copyConst func i out (maskTo (func.var out).data.size v)) := by
    have hcond : ¬ ((func.op i).inputs = [] ∨ ¬ (func.op i).inputs.all func.isConst) := by
      rw [not_or, not_not, List.all_eq_true]
      exact ⟨hne, hall⟩
    unfold tryConstantFoldOp
    simp only [if_neg hcond, hv, h.output]
  rw [h.rewriteFunc_eq, hfold]
  rfl

theorem rewriteFunc_not_fold (hno : (∃ w ∈ (func.op i).inputs, constValue func w = none) ∨
    foldedValue func (func.op i) = none) :
    rewriteFunc func i = (otherRewrites func i).getD func := by
  have hnone : tryConstantFoldOp func i = none := by
    unfold tryConstantFoldOp
    simp only
    split
    · rfl
    · next hcond =>
      rcases hno with ⟨w, hw, hvar⟩ | hv
      · rw [not_or, not_not, List.all_eq_true] at hcond
        simp [constValue, hcond.2 w hw] at hvar
      · rw [hv]
  rw [h.rewriteFunc_eq, hnone, none_or, otherRewrites]

theorem lossy_iff : Lossy func i ↔ (func.var out).data.size = 16 ∧
      LossyOperands func (func.op i).opcode (func.op i).inputs := by
  unfold Lossy
  constructor
  · rintro ⟨-, out', ho, hs⟩
    obtain rfl : out = out' := some.inj (h.output.symm.trans ho)
    exact hs
  · exact fun hs => ⟨h.live, out, h.output, hs⟩

theorem faithful_narrow_const (hop : (func.op i).opcode ≠ .subpiece) {v : U64}
    (hrw : rewriteFunc func i = copyConst func i out (maskTo (func.var out).data.size v))
    (hex : Writes un func i out fun _ _ => v) :
    Faithful un func (rewriteFunc func i) i ↔ (func.var out).data.size ≠ 16 := by
  rw [hrw]
  constructor
  · intro hf hsize
    refine not_faithful_widened hop h.fits.out_var hsize (hex _ _) (u := BitVec.setWidth 128 v) ?_ ?_ hf
    · rw [op_copyConst _ h.lt h.output h.fits.out_lt, hsize, execute_copy_wide, readWide_const]
      · rfl
      · rw [Placement.size_data, hsize]
    · apply eq_of_toNat_eq
      have := v.isLt
      simp
      omega
  · intro hsize pl s _
    have hn : (pl.data func out).size ≤ 8 := by
      rw [pl.size_data]
      exact (h.fits.out_size.resolve_right hsize).le
    rw [op_copyConst _ h.lt h.output h.fits.out_lt, ← pl.size_data func out]
    exact agree_const_narrow hn (hex pl s)

theorem faithful_wide_const {v : U64}
    (hrw : rewriteFunc func i = copyConst func i out (maskTo (func.var out).data.size v))
    (hnarrow : (func.var out).data.size ≤ 8 → Writes un func i out fun _ _ => v)
    (hwide : (func.var out).data.size = 16 → WritesWide un func i out fun _ _ => w)
    (hw : (func.var out).data.size = 16 → w = v.setWidth 128) :
    Faithful un func (rewriteFunc func i) i := by
  intro pl s _
  rw [hrw, op_copyConst _ h.lt h.output h.fits.out_lt]
  rcases h.fits.out_size with hn | hn
  · rw [← pl.size_data func out]
    exact agree_const_narrow (by rw [pl.size_data]; exact hn.le) (hnarrow hn.le pl s)
  · refine (agree_const_wide (by rw [pl.size_data, hn]) (hwide hn pl s)).mpr ?_
    rw [hw hn, hn]
    rfl

theorem not_faithful_wide_const (hop : (func.op i).opcode ≠ .subpiece) {v : U64}
    (hrw : rewriteFunc func i = copyConst func i out (maskTo (func.var out).data.size v))
    (hn : (func.var out).data.size = 16) (hwide : WritesWide un func i out fun _ _ => w)
    (hw : w ≠ v.setWidth 128) : ¬ Faithful un func (rewriteFunc func i) i := by
  intro hf
  have ha := hf (stalePlacement out) staleState (extensionHolds_of_ne hop _ _)
  rw [hrw, op_copyConst _ h.lt h.output h.fits.out_lt, hn] at ha
  exact hw ((agree_const_wide (by rw [Placement.size_data, hn]) (hwide _ _)).mp ha)

theorem op_two (pl : Placement) (hins : (func.op i).inputs = [a, b]) : pl.op func (func.op i) =
      ⟨(func.op i).opcode, some (pl.data func out), [pl.data func a, pl.data func b]⟩ := by
  rw [Placement.op, h.output, hins]
  rfl

theorem op_one (pl : Placement) (hins : (func.op i).inputs = [a]) : pl.op func (func.op i) =
      ⟨(func.op i).opcode, some (pl.data func out), [pl.data func a]⟩ := by
  rw [Placement.op, h.output, hins]
  rfl

theorem faithful_keep {k : ℕ} (hrw : rewriteFunc func i = func.rewriteOp i .copy [k])
    (hnarrow : (func.var out).data.size ≤ 8 →
      Writes un func i out fun pl s => s.readVarnode (pl.data func k))
    (hwide : (func.var out).data.size = 16 →
      WritesWide un func i out fun pl s => s.readWide (pl.data func k)) :
    Faithful un func (rewriteFunc func i) i := by
  intro pl s _
  rw [hrw, op_keep pl h.lt h.output]
  rcases h.fits.out_size with hn | hn
  · exact agree_of_bytes (hnarrow hn.le pl s)
      (execute_copy_narrow (by rw [pl.size_data]; exact hn.le)) rfl
  · exact agree_of_bytes (hwide hn pl s) (execute_copy_wide (by rw [pl.size_data, hn])) rfl

theorem faithful_narrow_keep
    (hop : (func.op i).opcode ≠ .subpiece) {k : ℕ} (hk : k ≠ out) (hkv : constValue func k = none)
    (hrw : rewriteFunc func i = func.rewriteOp i .copy [k])
    (hex : Writes un func i out fun pl s => s.readVarnode (pl.data func k)) :
    Faithful un func (rewriteFunc func i) i ↔ (func.var out).data.size ≠ 16 := by
  constructor
  · intro hf hsize
    rw [hrw] at hf
    refine not_faithful_widened hop h.fits.out_var hsize (hex _ _) (u := 0) ?_ rfl hf
    rw [op_keep _ h.lt h.output, execute_copy_wide (by rw [Placement.size_data, hsize]),
      readWide_stale hkv hk]
  · exact fun hsize => h.faithful_keep hrw (fun _ => hex) fun hs => absurd hs hsize

theorem const_fits (hv : v ∈ (func.op i).inputs)
    (hc : constValue func v = some c) : c.toNat < 2 ^ (8 * (func.var v).data.size) := by
  have hconst : (func.var v).data.space = .const := by
    have : func.isConst v := (isConst_iff v).mpr ⟨c, hc⟩
    simpa [SsaFunction.isConst] using this
  rw [← offset_of_constValue hc]
  exact h.fits.in_fits v hv hconst

theorem const_input (hv : v ∈ (func.op i).inputs)
    (hn : (func.var v).data.size ≤ 8) (hc : constValue func v = some c) :
    c = (c.setWidth (8 * (func.var v).data.size)).setWidth 64 :=
  const_eq_ext hn (h.const_fits hv hc)

section Two

variable (hins : (func.op i).inputs = [a, b])

include hins

theorem rewriteFunc_fold_two {u v r : U64} (ha : constValue func a = some u)
    (hb : constValue func b = some v) (hv : foldedValue func (func.op i) = some r) :
    rewriteFunc func i = copyConst func i out (maskTo (func.var out).data.size r) := by
  refine h.rewriteFunc_fold (by simp [hins]) ?_ hv
  simp [hins, isConst_iff, ha, hb]

theorem rewriteFunc_not_fold_two (hconst : ¬ (func.isConst a ∧ func.isConst b)) :
    rewriteFunc func i = (otherRewrites func i).getD func := by
  refine h.rewriteFunc_not_fold (.inl ?_)
  rcases not_and_or.mp hconst with hn | hn
  · exact ⟨a, by simp [hins], by simpa [constValue] using hn⟩
  · exact ⟨b, by simp [hins], by simpa [constValue] using hn⟩

theorem const_cases {P : Prop}
    (fold : ∀ u v, constValue func a = some u → constValue func b = some v → P)
    (rest : ¬ (func.isConst a ∧ func.isConst b) →
      rewriteFunc func i = (otherRewrites func i).getD func → P) : P := by
  by_cases hconst : func.isConst a ∧ func.isConst b
  · obtain ⟨u, ha⟩ := (isConst_iff a).mp hconst.1
    obtain ⟨v, hb⟩ := (isConst_iff b).mp hconst.2
    exact fold u v ha hb
  · exact rest hconst (h.rewriteFunc_not_fold_two hins hconst)

theorem faithful_narrow_fold (hop : (func.op i).opcode ≠ .subpiece) {f : U64 → U64 → U64} {u v : U64}
    (hex : Writes un func i out fun pl s =>
      f (s.readVarnode (pl.data func a)) (s.readVarnode (pl.data func b)))
    (ha : constValue func a = some u) (hb : constValue func b = some v)
    (hv : foldedValue func (func.op i) = some (f u v)) :
    Faithful un func (rewriteFunc func i) i ↔ (func.var out).data.size ≠ 16 :=
  h.faithful_narrow_const hop (h.rewriteFunc_fold_two hins ha hb hv)
    (by simpa [readVarnode_of_constValue ha, readVarnode_of_constValue hb] using hex)

/-- `x + 0` and `x | 0`. -/
theorem algebraic_zero (hop : (func.op i).opcode = .intAdd ∨ (func.op i).opcode = .intOr) :
    otherRewrites func i = if constValue func a = some 0 then some (func.rewriteOp i .copy [b])
      else if constValue func b = some 0 then some (func.rewriteOp i .copy [a])
      else none := by
  rcases hop with hop | hop <;>
    simp only [otherRewrites, tryAlgebraicSimplifyOp, tryStrengthReduceOp, hins, h.output, hop,
        or_none]

/-- `x - x` and `x ^ x`. -/
theorem algebraic_self (hop : (func.op i).opcode = .intSub ∨ (func.op i).opcode = .intXor) :
    otherRewrites func i = if a = b then some (copyConst func i out 0) else none := by
  rcases hop with hop | hop <;>
    simp only [otherRewrites, tryAlgebraicSimplifyOp, tryStrengthReduceOp, hins, h.output, hop,
      or_none]

theorem intAdd (hop : (func.op i).opcode = .intAdd) :
    Faithful un func (rewriteFunc func i) i ↔ ¬ Lossy func i := by
  have hsub : (func.op i).opcode ≠ .subpiece := by rw [hop]; decide
  have hex : Writes un func i out fun pl s =>
      s.readVarnode (pl.data func a) + s.readVarnode (pl.data func b) := by
    intro pl s
    rw [h.op_two pl hins, hop]
    rfl
  have hlossy : Lossy func i ↔ (func.var out).data.size = 16 ∧
      ((func.isConst a ∧ func.isConst b) ∨ constValue func a = some 0 ∨ constValue func b = some 0) := by
    rw [h.lossy_iff, hop, hins]
    rfl
  have hane : a ≠ out := h.fits.in_ne a (by simp [hins])
  have hbne : b ≠ out := h.fits.in_ne b (by simp [hins])
  rw [hlossy]
  refine h.const_cases hins (fun u v ha hb => ?_) fun hconst hrw => ?_
  · rw [h.faithful_narrow_fold hins hsub hex ha hb
      (by simp [foldedValue, hop, hins, offset_of_constValue ha, offset_of_constValue hb])]
    simp [isConst_iff, ha, hb]
  · rw [h.algebraic_zero hins (.inl hop)] at hrw
    by_cases ha : constValue func a = some 0
    · rw [if_pos ha] at hrw
      rw [h.faithful_narrow_keep hsub hbne (constValue_other hconst ha) hrw
        (by simpa [readVarnode_of_constValue ha] using hex)]
      simp [ha]
    · rw [if_neg ha] at hrw
      by_cases hb : constValue func b = some 0
      · rw [if_pos hb] at hrw
        rw [h.faithful_narrow_keep hsub hane (constValue_other (fun hc => hconst hc.symm) hb) hrw
          (by simpa [readVarnode_of_constValue hb] using hex)]
        simp [hb]
      · rw [if_neg hb] at hrw
        exact iff_of_true (faithful_of_eq hrw) (by tauto)

theorem intSub (hop : (func.op i).opcode = .intSub) :
    Faithful un func (rewriteFunc func i) i ↔ ¬ Lossy func i := by
  have hsub : (func.op i).opcode ≠ .subpiece := by rw [hop]; decide
  have hex : Writes un func i out fun pl s =>
      s.readVarnode (pl.data func a) - s.readVarnode (pl.data func b) := by
    intro pl s
    rw [h.op_two pl hins, hop]
    rfl
  have hlossy : Lossy func i ↔ (func.var out).data.size = 16 ∧
      ((func.isConst a ∧ func.isConst b) ∨ a = b) := by
    rw [h.lossy_iff, hop, hins]
    rfl
  rw [hlossy]
  refine h.const_cases hins (fun u v ha hb => ?_) fun hconst hrw => ?_
  · rw [h.faithful_narrow_fold hins hsub hex ha hb
      (by simp [foldedValue, hop, hins, offset_of_constValue ha, offset_of_constValue hb])]
    simp [isConst_iff, ha, hb]
  · rw [h.algebraic_self hins (.inl hop)] at hrw
    by_cases hab : a = b
    · rw [if_pos hab, getD_some, ← maskTo_zero (func.var out).data.size] at hrw
      rw [h.faithful_narrow_const hsub hrw (by simpa [hab] using hex)]
      simp [hab]
    · rw [if_neg hab] at hrw
      exact iff_of_true (faithful_of_eq hrw) (by tauto)

theorem intEqual (hop : (func.op i).opcode = .intEqual) :
    Faithful un func (rewriteFunc func i) i ↔ ¬ Lossy func i := by
  have hsub : (func.op i).opcode ≠ .subpiece := by rw [hop]; decide
  have hex : Writes un func i out fun pl s =>
      ofBool (s.readVarnode (pl.data func a) = s.readVarnode (pl.data func b)) := by
    intro pl s
    rw [h.op_two pl hins, hop]
    rfl
  have hlossy : Lossy func i ↔ (func.var out).data.size = 16 ∧ (func.isConst a ∧ func.isConst b) := by
    rw [h.lossy_iff, hop, hins]
    rfl
  rw [hlossy]
  refine h.const_cases hins (fun u v ha hb => ?_) fun hconst hrw => ?_
  · rw [h.faithful_narrow_fold hins hsub (f := fun x y => ofBool (x = y)) hex ha hb
      (by simp [foldedValue, hop, hins, offset_of_constValue ha, offset_of_constValue hb, ofBool])]
    simp [isConst_iff, ha, hb]
  · have halg : otherRewrites func i = none := by
      simp only [otherRewrites, tryAlgebraicSimplifyOp, tryStrengthReduceOp, hins, h.output, hop,
        or_none]
    rw [halg] at hrw
    exact iff_of_true (faithful_of_eq hrw) (by tauto)

end Two

end Visited

section Wide

structure TwoWidths (un : Uninterpreted) (func : SsaFunction) (i out a b : ℕ)
    (f : ∀ w, BitVec w → BitVec w → BitVec w) : Prop where
  narrow : (func.var out).data.size ≤ 8 → Writes un func i out fun pl s =>
    f 64 (s.readVarnode (pl.data func a)) (s.readVarnode (pl.data func b))
  wide : (func.var out).data.size = 16 → WritesWide un func i out fun pl s =>
    f 128 (s.readWide (pl.data func a)) (s.readWide (pl.data func b))

variable {f : ∀ w, BitVec w → BitVec w → BitVec w}

theorem TwoWidths.of_if (hex : ∀ (pl : Placement) (s : EmulatorState),
    execute un s (pl.op func (func.op i)) = if (pl.data func out).size > 8 then
      .ok (s.writeWide (pl.data func out)
        (f 128 (s.readWide (pl.data func a)) (s.readWide (pl.data func b))))
      else .ok (s.writeVarnode (pl.data func out)
        (f 64 (s.readVarnode (pl.data func a)) (s.readVarnode (pl.data func b))))) :
    TwoWidths un func i out a b f where
  narrow hn pl s := by rw [hex, if_neg (by rw [pl.size_data]; omega)]
  wide hn pl s := by rw [hex, if_pos (by rw [pl.size_data]; omega)]

variable (hf : TwoWidths un func i out a b f) (h : Visited func i out)

include hf h

theorem TwoWidths.faithful_fold
    (hins : (func.op i).inputs = [a, b]) {u v : U64} (ha : constValue func a = some u)
    (hb : constValue func b = some v) (hv : foldedValue func (func.op i) = some (f 64 u v))
    (hw : (func.var out).data.size = 16 →
    f 128 (u.setWidth 128) (v.setWidth 128) = (f 64 u v).setWidth 128) :
    Faithful un func (rewriteFunc func i) i := by
  refine h.faithful_wide_const (h.rewriteFunc_fold_two hins ha hb hv)
    (fun hn => (hf.narrow hn).congr fun pl s => ?_) (fun hn => (hf.wide hn).congr fun pl s => ?_) hw
  · rw [readVarnode_of_constValue ha, readVarnode_of_constValue hb]
  · rw [readWide_of_constValue ha, readWide_of_constValue hb]

/-- A constant result whatever the operands are. -/
theorem TwoWidths.faithful_zero (hrw : rewriteFunc func i = copyConst func i out 0)
    (hz : ∀ (pl : Placement) (s : EmulatorState), f 64
    (s.readVarnode (pl.data func a)) (s.readVarnode (pl.data func b)) = 0 ∧
    f 128 (s.readWide (pl.data func a)) (s.readWide (pl.data func b)) = 0) :
    Faithful un func (rewriteFunc func i) i := by
  rw [← maskTo_zero (func.var out).data.size] at hrw
  exact h.faithful_wide_const hrw (fun hn => (hf.narrow hn).congr fun pl s => (hz pl s).1)
    (fun hn => (hf.wide hn).congr fun pl s => (hz pl s).2) fun _ => rfl

/-- The result is one of the operands. -/
theorem TwoWidths.faithful_keep {k : ℕ} (hrw : rewriteFunc func i = func.rewriteOp i .copy [k])
    (hk : ∀ (pl : Placement) (s : EmulatorState), f 64
    (s.readVarnode (pl.data func a)) (s.readVarnode (pl.data func b)) = s.readVarnode
    (pl.data func k) ∧ f 128 (s.readWide (pl.data func a)) (s.readWide (pl.data func b)) =
    s.readWide (pl.data func k)) : Faithful un func (rewriteFunc func i) i := by
  exact h.faithful_keep hrw (fun hn => (hf.narrow hn).congr fun pl s => (hk pl s).1)
    fun hn => (hf.wide hn).congr fun pl s => (hk pl s).2

end Wide

namespace Visited

variable (h : Visited func i out)

include h

theorem faithful_shift (hop : (func.op i).opcode = .intMult)
    {f : ∀ w, BitVec w → BitVec w → BitVec w} (hf : TwoWidths un func i out a b f) {kept k : ℕ}
    (hkept : kept ∈ (func.op i).inputs) (hkv : constValue func kept = none) (hk : k < 64)
    (hsize : (func.var kept).data.size = (func.var out).data.size)
    (hfit : (BitVec.twoPow 64 k).toNat < 2 ^ (8 * (func.var out).data.size))
    (hrw : rewriteFunc func i = shiftBy func i out .intLeft kept k)
    (hmul : ∀ (pl : Placement) (s : EmulatorState),
      f 64 (s.readVarnode (pl.data func a)) (s.readVarnode (pl.data func b)) =
        s.readVarnode (pl.data func kept) * BitVec.twoPow 64 k ∧
      (s.readWide (pl.data func kept) = 0 →
        f 128 (s.readWide (pl.data func a)) (s.readWide (pl.data func b)) = 0)) :
    Faithful un func (rewriteFunc func i) i ↔ (func.var out).data.size ≠ 16 := by
  have hk8 := twoPow_fits hk hfit
  have hnew : ∀ (pl : Placement) (s : EmulatorState),
      execute un s (pl.op (rewriteFunc func i) ((rewriteFunc func i).op i)) =
        .ok (s.writeVarnode (pl.data func out)
          (s.readVarnode (pl.data func kept) * BitVec.twoPow 64 k)) := by
    intro pl s
    rw [hrw, op_shiftBy pl h.lt h.output h.fits.out_lt (h.fits.in_lt kept hkept),
      ← intLeft_ofNat hk (show k < min (pl.data func kept).size 8 * 8 by
        rw [pl.size_data, hsize]; omega)]
    rfl
  constructor
  · intro hfa hs
    refine not_faithful_narrowed (by rw [hop]; decide) h.fits.out_var hs (hf.wide hs _ _) (hnew _ _)
      ?_ hfa
    beta_reduce
    rw [(hmul _ _).2 (readWide_stale hkv (h.fits.in_ne kept hkept))]
    rfl
  · intro hs pl s _
    have hn := (h.fits.out_size.resolve_right hs).le
    exact agree_of_bytes ((hf.narrow hn).congr (fun pl s => (hmul pl s).1) pl s) (hnew pl s) rfl

section Two

variable (hins : (func.op i).inputs = [a, b])

include hins

theorem twoWidths_and (hop : (func.op i).opcode = .intAnd) :
    TwoWidths un func i out a b fun _ x y => x &&& y :=
  .of_if fun pl s => by rw [h.op_two pl hins, hop]; rfl

theorem twoWidths_or (hop : (func.op i).opcode = .intOr) :
    TwoWidths un func i out a b fun _ x y => x ||| y :=
  .of_if fun pl s => by rw [h.op_two pl hins, hop]; rfl

theorem twoWidths_xor (hop : (func.op i).opcode = .intXor) :
    TwoWidths un func i out a b fun _ x y => x ^^^ y :=
  .of_if fun pl s => by rw [h.op_two pl hins, hop]; rfl

theorem twoWidths_mult (hop : (func.op i).opcode = .intMult) :
    TwoWidths un func i out a b fun _ x y => x * y :=
  .of_if fun pl s => by rw [h.op_two pl hins, hop]; rfl

theorem intAnd (hop : (func.op i).opcode = .intAnd) : Faithful un func (rewriteFunc func i) i := by
  have hf : TwoWidths un func i out a b fun _ x y => x &&& y := h.twoWidths_and hins hop
  refine h.const_cases hins (fun u v ha hb => ?_) fun hconst hrw => ?_
  · exact hf.faithful_fold h hins ha hb
      (by simp [foldedValue, hop, hins, offset_of_constValue ha, offset_of_constValue hb])
      fun _ => (setWidth_and).symm
  · have halg : otherRewrites func i =
        if constValue func a = some 0 then some (copyConst func i out 0)
        else if constValue func b = some 0 then some (copyConst func i out 0) else none := by
      simp only [otherRewrites, tryAlgebraicSimplifyOp, tryStrengthReduceOp, hins, h.output, hop,
        or_none]
    rw [halg] at hrw
    by_cases ha : constValue func a = some 0
    · rw [if_pos ha] at hrw
      exact hf.faithful_zero h hrw fun pl s => by
        simp [readVarnode_of_constValue ha, readWide_of_constValue ha]
    · rw [if_neg ha] at hrw
      by_cases hb : constValue func b = some 0
      · rw [if_pos hb] at hrw
        exact hf.faithful_zero h hrw fun pl s => by
          simp [readVarnode_of_constValue hb, readWide_of_constValue hb]
      · rw [if_neg hb] at hrw
        exact faithful_of_eq hrw

theorem intOr (hop : (func.op i).opcode = .intOr) : Faithful un func (rewriteFunc func i) i := by
  have hf : TwoWidths un func i out a b fun _ x y => x ||| y := h.twoWidths_or hins hop
  refine h.const_cases hins (fun u v ha hb => ?_) fun hconst hrw => ?_
  · exact hf.faithful_fold h hins ha hb
      (by simp [foldedValue, hop, hins, offset_of_constValue ha, offset_of_constValue hb])
      fun _ => (setWidth_or).symm
  · rw [h.algebraic_zero hins (.inr hop)] at hrw
    by_cases ha : constValue func a = some 0
    · rw [if_pos ha] at hrw
      exact hf.faithful_keep h hrw fun pl s => by
        simp [readVarnode_of_constValue ha, readWide_of_constValue ha]
    · rw [if_neg ha] at hrw
      by_cases hb : constValue func b = some 0
      · rw [if_pos hb] at hrw
        exact hf.faithful_keep h hrw fun pl s => by
          simp [readVarnode_of_constValue hb, readWide_of_constValue hb]
      · rw [if_neg hb] at hrw
        exact faithful_of_eq hrw

theorem intXor (hop : (func.op i).opcode = .intXor) : Faithful un func (rewriteFunc func i) i := by
  have hf : TwoWidths un func i out a b fun _ x y => x ^^^ y := h.twoWidths_xor hins hop
  refine h.const_cases hins (fun u v ha hb => ?_) fun hconst hrw => ?_
  · exact hf.faithful_fold h hins ha hb
      (by simp [foldedValue, hop, hins, offset_of_constValue ha, offset_of_constValue hb])
      fun _ => (setWidth_xor).symm
  · rw [h.algebraic_self hins (.inr hop)] at hrw
    by_cases hab : a = b
    · rw [if_pos hab] at hrw
      exact hf.faithful_zero h hrw fun pl s => by simp [hab]
    · rw [if_neg hab] at hrw
      exact faithful_of_eq hrw

theorem sizes_two (hop : (func.op i).opcode = .intMult ∨ (func.op i).opcode = .intDiv) :
    (func.var a).data.size = (func.var out).data.size ∧
      (func.var b).data.size = (func.var out).data.size := by
  have hs := h.fits.sizes
  rcases hop with hop | hop <;>
  · rw [hop, hins] at hs
    exact hs

/-- A product with one constant factor, on either side. -/
theorem mult_by_const (hop : (func.op i).opcode = .intMult) {kept cid : ℕ}
    (hkept : kept ∈ (func.op i).inputs) (hcid : cid ∈ (func.op i).inputs)
    (hkv : constValue func kept = none) (hc : constValue func cid = some c)
    (hmul : ∀ (pl : Placement) (s : EmulatorState), s.readVarnode (pl.data func a) * s.readVarnode
    (pl.data func b) = s.readVarnode (pl.data func kept) * c ∧ s.readWide
    (pl.data func a) * s.readWide (pl.data func b) = s.readWide
    (pl.data func kept) * c.setWidth 128)
    (hrw : rewriteFunc func i = ((if c = 1 then some (func.rewriteOp i .copy [kept])
    else if c = 0 then some (copyConst func i out 0)
    else (log2Exact c).map (shiftBy func i out .intLeft kept)).getD func)) :
    Faithful un func (rewriteFunc func i) i ↔
      ¬ ((func.var out).data.size = 16 ∧ (log2Exact c).isSome ∧ c ≠ 1) := by
  have hf : TwoWidths un func i out a b fun _ x y => x * y := h.twoWidths_mult hins hop
  obtain ⟨hsa, hsb⟩ := h.sizes_two hins (.inl hop)
  have hsize : ∀ v ∈ (func.op i).inputs, (func.var v).data.size = (func.var out).data.size := by
    simp [hins, hsa, hsb]
  by_cases hc1 : c = 1
  · rw [if_pos hc1] at hrw
    refine iff_of_true (hf.faithful_keep h hrw fun pl s => ?_) (by tauto)
    subst hc1
    exact ⟨(hmul pl s).1.trans (by simp), (hmul pl s).2.trans (by simp)⟩
  · rw [if_neg hc1] at hrw
    by_cases hc0 : c = 0
    · rw [if_pos hc0] at hrw
      refine iff_of_true (hf.faithful_zero h hrw fun pl s => ?_) (by rw [hc0, log2Exact_zero]; simp)
      subst hc0
      exact ⟨(hmul pl s).1.trans (by simp), (hmul pl s).2.trans (by simp)⟩
    · rw [if_neg hc0] at hrw
      cases hlog : log2Exact c with
      | none =>
        rw [hlog] at hrw
        exact iff_of_true (faithful_of_eq hrw) (by simp)
      | some k =>
        obtain ⟨hk, rfl⟩ := log2Exact_spec hlog
        rw [hlog] at hrw
        rw [h.faithful_shift hop hf hkept hkv hk (hsize kept hkept)
          (hsize cid hcid ▸ h.const_fits hcid hc) hrw]
        · simp only [isSome_some, true_and]
          tauto
        · exact fun pl s => ⟨(hmul pl s).1, fun hz => (hmul pl s).2.trans (by simp [hz])⟩

theorem intMult (hop : (func.op i).opcode = .intMult) :
    Faithful un func (rewriteFunc func i) i ↔ ¬ Lossy func i := by
  have hsub : (func.op i).opcode ≠ .subpiece := by rw [hop]; decide
  have hf : TwoWidths un func i out a b fun _ x y => x * y := h.twoWidths_mult hins hop
  have hlossy : Lossy func i ↔ (func.var out).data.size = 16 ∧
      LossyProduct (constValue func a) (constValue func b) := by
    rw [h.lossy_iff, hop, hins]
    rfl
  rw [hlossy]
  refine h.const_cases hins (fun u v ha hb => ?_) fun hconst hrw => ?_
  · have hv : foldedValue func (func.op i) = some (u * v) := by
      simp [foldedValue, hop, hins, offset_of_constValue ha, offset_of_constValue hb]
    have hiff := wide_mul_iff u v
    simp only [ha, hb, LossyProduct]
    constructor
    · rintro hfa ⟨hs, hbig⟩
      refine h.not_faithful_wide_const hsub (h.rewriteFunc_fold_two hins ha hb hv) hs
        (w := u.setWidth 128 * v.setWidth 128) ((hf.wide hs).congr fun pl s => ?_) ?_ hfa
      · rw [readWide_of_constValue ha, readWide_of_constValue hb]
      · rw [ne_eq, hiff]
        omega
    · intro hno
      refine hf.faithful_fold h hins ha hb hv fun hs => hiff.mpr ?_
      by_contra hbig
      exact hno ⟨hs, by omega⟩
  · have halg : otherRewrites func i =
        (if constValue func a = some 1 then some (func.rewriteOp i .copy [b])
        else if constValue func a = some 0 then some (copyConst func i out 0)
        else if constValue func b = some 1 then some (func.rewriteOp i .copy [a])
        else if constValue func b = some 0 then some (copyConst func i out 0)
        else none).or
        (((shiftOf func a).map (shiftBy func i out .intLeft b)).or
          ((shiftOf func b).map (shiftBy func i out .intLeft a))) := by
      simp only [otherRewrites, tryAlgebraicSimplifyOp, tryStrengthReduceOp, hins, h.output, hop]
      cases shiftOf func a <;> cases shiftOf func b <;> rfl
    rw [halg] at hrw
    cases ha : constValue func a with
    | some u =>
      have hb := constValue_other hconst ha
      simp only [hb, LossyProduct]
      refine h.mult_by_const hins hop (by simp [hins]) (by simp [hins]) hb ha (fun pl s => ?_) ?_
      · rw [readVarnode_of_constValue ha, readWide_of_constValue ha, mul_comm]
        exact ⟨rfl, mul_comm _ _⟩
      · rw [hrw]
        simp only [ha, hb, shiftOf, bind_some, bind_none, some.injEq, reduceCtorEq, if_false]
        congr 1
        split_ifs <;> cases log2Exact u <;> rfl
    | none =>
      cases hb : constValue func b with
      | some v =>
        simp only [LossyProduct]
        refine h.mult_by_const hins hop (by simp [hins]) (by simp [hins]) ha hb (fun pl s => ?_) ?_
        · rw [readVarnode_of_constValue hb, readWide_of_constValue hb]
          exact ⟨rfl, rfl⟩
        · rw [hrw]
          simp only [ha, hb, shiftOf, bind_some, bind_none, some.injEq,
            reduceCtorEq, if_false]
          congr 1
          split_ifs <;> cases log2Exact v <;> rfl
      | none =>
        simp only [ha, hb, shiftOf, bind_none, reduceCtorEq, if_false] at hrw
        exact iff_of_true (faithful_of_eq hrw) (by simp [LossyProduct])

theorem intDiv (hop : (func.op i).opcode = .intDiv) : Faithful un func (rewriteFunc func i) i := by
  obtain ⟨hsa, hsb⟩ := h.sizes_two hins (.inr hop)
  have hrw := h.rewriteFunc_not_fold (.inr (by simp [foldedValue, hop, hins]))
  have halg : otherRewrites func i =
      (shiftOf func b).map fun k => shiftBy func i out .intRight a k := by
    simp only [otherRewrites, tryAlgebraicSimplifyOp, tryStrengthReduceOp, hins, h.output, hop,
      none_or]
  rw [halg] at hrw
  cases hk : shiftOf func b with
  | none =>
    rw [hk] at hrw
    exact faithful_of_eq hrw
  | some k =>
    rw [hk] at hrw
    obtain ⟨c, hb, hlog⟩ := bind_eq_some_iff.mp hk
    obtain ⟨hk64, rfl⟩ := log2Exact_spec hlog
    have hk8 := twoPow_fits hk64 (hsb ▸ h.const_fits (by simp [hins]) hb)
    intro pl s _
    have hold : execute un s (pl.op func (func.op i)) = .ok (s.writeVarnode (pl.data func out)
        ((checkedDiv (s.readVarnode (pl.data func a)) (BitVec.twoPow 64 k)).getD 0)) := by
      rw [h.op_two pl hins, hop, ← readVarnode_of_constValue hb pl s]
      rfl
    refine agree_of_bytes hold ?_ rfl
    rw [hrw, map_some, getD_some, op_shiftBy pl h.lt h.output h.fits.out_lt
      (h.fits.in_lt a (by simp [hins])), ← intRight_ofNat hk64
      (show k < min (pl.data func a).size 8 * 8 by rw [pl.size_data, hsa]; omega)]
    rfl

theorem subpiece (hop : (func.op i).opcode = .subpiece) (hext : ∀ e, extensionOf func i = some e →
    (func.op e).output = some a ∧ OpFits func (func.op e) a) :
    Faithful un func (rewriteFunc func i) i := by
  have hex : WritesWide un func i out fun pl s =>
      if min ((s.readVarnode (pl.data func b)).toNat * 8) (2 ^ 64 - 1) ≥ 128 then 0
          else s.readWide (pl.data func a) >>>
            min ((s.readVarnode (pl.data func b)).toNat * 8) (2 ^ 64 - 1) := by
    intro pl s
    rw [h.op_two pl hins, hop]
    rfl
  by_cases hconst : func.isConst a ∧ func.isConst b
  · obtain ⟨u, ha⟩ := (isConst_iff a).mp hconst.1
    obtain ⟨k, hb⟩ := (isConst_iff b).mp hconst.2
    have hrw := h.rewriteFunc_fold_two hins ha hb
      (r := if k.toNat ≥ 8 then 0 else u >>> (k.toNat * 8))
      (by simp [foldedValue, hop, hins, offset_of_constValue ha, offset_of_constValue hb])
    have hwide : WritesWide un func i out fun _ _ =>
        (if k.toNat ≥ 8 then 0 else u >>> (k.toNat * 8)).setWidth 128 := by
      refine hex.congr fun pl s => ?_
      rw [readVarnode_of_constValue hb, readWide_of_constValue ha, subpiece_const]
    refine h.faithful_wide_const hrw (fun hn pl s => ?_) (fun _ => hwide) fun _ => rfl
    rw [hwide, writeWide_narrow s (by rwa [pl.size_data]), cut_ext (by decide)]
  · have hrw := h.rewriteFunc_not_fold_two hins hconst
    have halg : otherRewrites func i = (extensionSource func i a b out).map fun x =>
          (addUse (clearUses func a) x i).rewriteOp i .copy [x] := by
      simp only [otherRewrites, tryAlgebraicSimplifyOp, tryStrengthReduceOp, hins, h.output, hop,
        or_none]
    rw [halg] at hrw
    cases hx : extensionSource func i a b out with
    | none =>
      rw [hx] at hrw
      exact faithful_of_eq hrw
    | some x =>
      rw [hx, map_some, getD_some] at hrw
      obtain ⟨e, hdef, hb, hlive, heop, hein, hxsp, hxsize⟩ := extensionSource_spec hx
      have hofe : extensionOf func i = some e := by
        rw [extensionOf, hop, hins]
        simp only [hdef]
        rcases heop with heop | heop <;> simp [Option.filter, hlive, heop]
      obtain ⟨heout, hefit⟩ := hext e hofe
      intro pl s hholds
      have hxn : WordSize (pl.data func x).size := by
        rw [pl.size_data]
        exact (hefit.in_size x (by simp [hein])).word (hefit.extended heop x (by simp [hein]))
      have hxa : (pl.data func x).size ≤ (pl.data func a).size := by
        have hs := hefit.sizes
        rw [pl.size_data, pl.size_data]
        rcases heop with heop | heop <;> simpa [heop, hein, SizesFit] using hs
      have hxo : (pl.data func x).size = (pl.data func out).size := by
        rw [pl.size_data, pl.size_data, hxsize]
      have hon : (pl.data func out).size ≤ 8 := hxo ▸ hxn.le
      have hfits : ConstFits (pl.data func x) := by
        rw [pl.space_data
          (by simp [constValue, SsaFunction.isConst, hxsp, SpaceId.unique, SpaceId.const])]
        exact fun hc => absurd hc (pl.space_ne x)
      have hread := readVarnode_eq_value s hxn.le hfits
      have hwide : s.readWide (pl.data func a) = ((if decide ((func.op e).opcode = .intSExt) then
            (intSExtWord (pl.data func x).size (s.readVarnode (pl.data func x))).signExtend 128
            else (s.readVarnode (pl.data func x)).setWidth 128).setWidth
              (8 * (pl.data func a).size)).setWidth 128 := by
        refine readWide_of_bytes ?_ ?_ ?_
        · rw [pl.space_data hefit.out_var]
          exact pl.space_ne a
        · rw [pl.size_data]
          exact hefit.out_size.le
        · have hb' := hholds e hofe
          rw [Placement.op, heout, hein] at hb'
          rcases heop with heop | heop <;> rw [heop] at hb' ⊢ <;> exact Except.ok.inj hb'
      have hnew : execute un s (pl.op (rewriteFunc func i) ((rewriteFunc func i).op i)) =
          .ok (s.writeVarnode (pl.data func out) (s.readVarnode (pl.data func x))) := by
        rw [hrw, op_extension h.lt h.output, execute_copy_narrow hon]
      refine agree_of_bytes (hex pl s) hnew ?_
      beta_reduce
      rw [readVarnode_of_constValue hb, bytes_writeWide_narrow s hon, hwide, hread]
      apply bytes_writeVarnode_congr
      rw [Nat.min_eq_left hon, ← hxo]
      simpa using (extension_low hxn hxa (decide ((func.op e).opcode = .intSExt))
        (value s (pl.data func x))).trans (cut_ext (v := 64) (by have := hxn.le; omega) _).symm

end Two

section One

variable (hins : (func.op i).inputs = [a])

include hins

theorem rewriteFunc_one (ha : constValue func a = none) : rewriteFunc func i = func := by
  rw [h.rewriteFunc_not_fold (.inl ⟨a, by simp [hins], ha⟩)]
  simp only [otherRewrites, tryAlgebraicSimplifyOp, tryStrengthReduceOp, hins, or_none]
  rfl

theorem extension_input (hop : (func.op i).opcode = .intZExt ∨ (func.op i).opcode = .intSExt) :
    WordSize (func.var a).data.size :=
  (h.fits.in_size a (by simp [hins])).word (h.fits.extended hop a (by simp [hins]))

theorem intZExt (hop : (func.op i).opcode = .intZExt) : Faithful un func (rewriteFunc func i) i := by
  have hsize := h.extension_input hins (.inl hop)
  cases ha : constValue func a with
  | none => exact faithful_of_eq (h.rewriteFunc_one hins ha)
  | some c =>
    have hc := h.const_input (by simp [hins]) hsize.le ha
    have hv : foldedValue func (func.op i) = some c := by
      have hdata : extendConst false (func.var a).data = extendConst false ⟨(func.var a).data.space,
          (c.setWidth (8 * (func.var a).data.size)).setWidth 64, (func.var a).data.size⟩ := by
        rw [← hc, ← offset_of_constValue ha]
      rw [foldedValue, hop, hins]
      simp only
      rw [hdata, extendConst_unsigned hsize.le, ← hc]
    have hrw := h.rewriteFunc_fold (by simp [hins]) (by simpa [hins, isConst_iff] using ⟨c, ha⟩) hv
    have hex : WritesWide un func i out fun _ _ => c.setWidth 128 := by
      intro pl s
      rw [h.op_one pl hins, hop, ← readVarnode_of_constValue ha pl s]
      rfl
    refine h.faithful_wide_const hrw (fun hn pl s => ?_) (fun _ => hex) fun _ => rfl
    rw [hex, writeWide_narrow s (by rwa [pl.size_data]), cut_ext (by decide)]

theorem intSExt (hop : (func.op i).opcode = .intSExt) :
    Faithful un func (rewriteFunc func i) i ↔ ¬ Lossy func i := by
  have hsub : (func.op i).opcode ≠ .subpiece := by rw [hop]; decide
  have hsize := h.extension_input hins (.inr hop)
  have hlossy : Lossy func i ↔ (func.var out).data.size = 16 ∧ func.isConst a ∧
      ((func.var a).data.offset.setWidth (8 * (func.var a).data.size)).msb := by
    rw [h.lossy_iff, hop, hins]
    rfl
  rw [hlossy]
  cases ha : constValue func a with
  | none =>
    refine iff_of_true (faithful_of_eq (h.rewriteFunc_one hins ha)) ?_
    rintro ⟨-, hc, -⟩
    obtain ⟨c, hc⟩ := (isConst_iff a).mp hc
    rw [ha] at hc
    cases hc
  | some c =>
    have hc := h.const_input (by simp [hins]) hsize.le ha
    have hconst : func.isConst a := (isConst_iff a).mpr ⟨c, ha⟩
    rw [offset_of_constValue ha]
    generalize hx : c.setWidth (8 * (func.var a).data.size) = x at hc
    have hv : foldedValue func (func.op i) = some (x.signExtend 64) := by
      have hdata : extendConst true (func.var a).data =
          extendConst true ⟨(func.var a).data.space, x.setWidth 64, (func.var a).data.size⟩ := by
        rw [← hc, ← offset_of_constValue ha]
      rw [foldedValue, hop, hins]
      simp only
      rw [hdata, extendConst_signed hsize]
    have hrw := h.rewriteFunc_fold (by simp [hins]) (by simpa [hins, isConst_iff] using ⟨c, ha⟩) hv
    have hex : WritesWide un func i out fun _ _ => (x.signExtend 64).signExtend 128 := by
      intro pl s
      rw [h.op_one pl hins, hop, ← intSExtWord_ext hsize, ← hc, ← readVarnode_of_constValue ha pl s,
        ← pl.size_data func a]
      rfl
    have hmsb : (x.signExtend 64).msb = x.msb := by
      rw [msb_eq_toInt, msb_eq_toInt,
        toInt_signExtend_of_le (by have := hsize.le; omega)]
    have hcut : ((x.signExtend 64).signExtend 128).setWidth 64 = x.signExtend 64 :=
      signExtend_cut (by have := hsize.le; omega) (by decide) x
    by_cases hm : x.msb = true
    · constructor
      · rintro hfa ⟨hs, -⟩
        refine h.not_faithful_wide_const hsub hrw hs hex ?_ hfa
        intro he
        have := congrArg BitVec.msb he
        rw [msb_signExtend, msb_setWidth] at this
        simp [hmsb, hm] at this
      · intro hno
        refine h.faithful_wide_const hrw (fun hn pl s => ?_) (fun _ => hex) fun hs => ?_
        · rw [hex, writeWide_narrow s (by rwa [pl.size_data]), hcut]
        · exact absurd ⟨hs, hconst, hm⟩ hno
    · refine iff_of_true (h.faithful_wide_const hrw (fun hn pl s => ?_) (fun _ => hex) fun _ => ?_)
        fun hl => hm hl.2.2
      · rw [hex, writeWide_narrow s (by rwa [pl.size_data]), hcut]
      · exact signExtend_eq_setWidth_of_msb_false (by simpa [hmsb] using hm)

end One

end Visited

/-- What a `SUBPIECE` relies on: the extension that defines its input fits as well. -/
def ExtensionFits (func : SsaFunction) (i : ℕ) : Prop :=
  ∀ e, extensionOf func i = some e → ∀ a rest, (func.op i).inputs = a :: rest →
    (func.op e).output = some a ∧ OpFits func (func.op e) a

theorem Visited.faithful_iff (h : Visited func i out) (hext : ExtensionFits func i) :
    Faithful un func (rewriteFunc func i) i ↔ ¬ Lossy func i := by
  have hsizes := h.fits.sizes
  have hfold := h.foldable
  have hnot : ∀ {oc : OpCode} {ins : List ℕ}, (func.op i).opcode = oc → (func.op i).inputs = ins →
      ¬ LossyOperands func oc ins → ¬ Lossy func i := by
    rintro _ _ rfl rfl hno hl
    exact hno (h.lossy_iff.mp hl).2
  -- an opcode with another number of operands does not fit, or is not folded
  match hins : (func.op i).inputs with
  | [] =>
    rw [hins] at hsizes
    exact absurd hsizes id
  | [a] =>
    rw [hins] at hsizes
    cases hop : (func.op i).opcode with
    | intZExt => exact iff_of_true (h.intZExt hins hop) (hnot hop hins id)
    | intSExt => exact h.intSExt hins hop
    | _ =>
      rw [hop] at hsizes hfold
      first | exact absurd hsizes id | exact absurd hfold (by decide)
  | [a, b] =>
    rw [hins] at hsizes
    cases hop : (func.op i).opcode with
    | intAdd => exact h.intAdd hins hop
    | intSub => exact h.intSub hins hop
    | intEqual => exact h.intEqual hins hop
    | intMult => exact h.intMult hins hop
    | intAnd => exact iff_of_true (h.intAnd hins hop) (hnot hop hins id)
    | intOr => exact iff_of_true (h.intOr hins hop) (hnot hop hins id)
    | intXor => exact iff_of_true (h.intXor hins hop) (hnot hop hins id)
    | intDiv => exact iff_of_true (h.intDiv hins hop) (hnot hop hins id)
    | subpiece =>
      exact iff_of_true (h.subpiece hins hop fun e he => hext e he a [b] hins) (hnot hop hins id)
    | _ =>
      rw [hop] at hsizes hfold
      first | exact absurd hsizes id | exact absurd hfold (by decide)
  | [a, b, c] =>
    rw [hins] at hsizes
    cases hop : (func.op i).opcode with
    | _ =>
      rw [hop] at hsizes hfold
      first | exact absurd hsizes id | exact absurd hfold (by decide)
  | _ :: _ :: _ :: _ :: _ =>
    rw [hins] at hsizes
    exact absurd hsizes id

end Step

end FoldSteps
