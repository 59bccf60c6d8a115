import Reargo.FoldSteps

/-!
# The fused folding walk

What one step of the walk leaves alone, what the steps before and after an
operation leave alone, and from these the agreement of the whole pass.
-/
namespace FoldPass

open PcodeModel LittleEndian EmulatorMemory EmulatorOps EmulatorSemantics WidthArithmetic SsaModel List
  Option FoldRewrites FoldSemantics FoldSteps
open SsaFunction (pushConst setVar var_pushVar)

def InputsInRange (func : SsaFunction) : Prop :=
  ∀ j, ∀ v ∈ (func.op j).inputs, v < func.varnodes.length

/-- A rewrite gives operation `i` one of three opcodes, over values that only gained readers
and constants. -/
structure RewritesAt (func : SsaFunction) (i : ℕ) (f g : SsaFunction) (oc : OpCode)
    (ins : List ℕ) : Prop where
  eq : f = g.rewriteOp i oc ins
  opcode : oc = .copy ∨ oc = .intLeft ∨ oc = .intRight
  ops : g.ops = func.ops
  grows : func.varnodes.length ≤ g.varnodes.length
  data : ∀ v < func.varnodes.length, (g.var v).data = (func.var v).data
  defOp : ∀ v < func.varnodes.length, (g.var v).defOp = (func.var v).defOp
  range : ∀ v ∈ ins, v < g.varnodes.length

section Rewrites

variable {func f : SsaFunction} {i : ℕ}

theorem rewritesAt_keep {v : ℕ} (hv : v < func.varnodes.length) :
    ∃ g oc ins, RewritesAt func i (func.rewriteOp i .copy [v]) g oc ins :=
  ⟨func, .copy, [v], rfl, .inl rfl, rfl, le_rfl, fun _ _ => rfl, fun _ _ => rfl, by simpa using hv⟩

theorem rewritesAt_pushConst (c : U64) (n : ℕ) {oc : OpCode} {ins : List ℕ}
    (hoc : oc = .copy ∨ oc = .intLeft ∨ oc = .intRight)
    (hins : ∀ v ∈ ins, v ≤ func.varnodes.length) :
    ∃ g oc' ins', RewritesAt func i ((func.pushConst i c n).rewriteOp i oc ins) g oc' ins' := by
  refine ⟨func.pushConst i c n, oc, ins, rfl, hoc, rfl, ?_, fun v hv => ?_, fun v hv => ?_, ?_⟩
  · simp [pushConst, SsaFunction.pushVar]
  · rw [pushConst, var_pushVar, if_pos hv]
  · rw [pushConst, var_pushVar, if_pos hv]
  · intro v hv
    have := hins v hv
    simp only [pushConst, SsaFunction.pushVar, length_append, length_singleton]
    omega

theorem defOp_setVar_uses (v w : ℕ) (us : List ℕ) :
    ((func.setVar v { func.var v with uses := us }).var w).defOp = (func.var w).defOp := by
  rcases lt_or_ge v func.varnodes.length with hlt | hge
  · rw [func.var_setVar hlt]
    split
    · next hw => rw [hw]
    · rfl
  · simp [setVar, SsaFunction.var, set_eq_of_length_le hge]

theorem rewritesAt_extension (a : ℕ) {x : ℕ} (hx : x < func.varnodes.length) :
    ∃ g oc ins, RewritesAt func i ((addUse (clearUses func a) x i).rewriteOp i .copy [x]) g oc ins := by
  refine ⟨addUse (clearUses func a) x i, .copy, [x], rfl, .inl rfl, rfl, ?_, fun v _ => ?_,
    fun v _ => ?_, ?_⟩
  · simp [addUse, clearUses, setVar]
  · rw [addUse, data_setVar_uses, clearUses, data_setVar_uses]
  · rw [addUse, defOp_setVar_uses, clearUses, defOp_setVar_uses]
  · simpa [addUse, clearUses, setVar] using hx

theorem rewritesAt_constantFold (h : tryConstantFoldOp func i = some f) :
    ∃ g oc ins, RewritesAt func i f g oc ins := by
  unfold tryConstantFoldOp at h
  simp only at h
  split at h
  · cases h
  · split at h
    · cases h
      exact rewritesAt_pushConst _ _ (.inl rfl) (by simp)
    · cases h

theorem rewritesAt_algebraic (hr : InputsInRange func) (h : tryAlgebraicSimplifyOp func i = some f) :
    ∃ g oc ins, RewritesAt func i f g oc ins := by
  unfold tryAlgebraicSimplifyOp at h
  simp only at h
  split at h
  · next in0 in1 rest out hins hout =>
    have h0 : in0 < func.varnodes.length := hr i in0 (by simp [hins])
    have h1 : in1 < func.varnodes.length := hr i in1 (by simp [hins])
    have hconst : ∀ c, ∃ g oc ins, RewritesAt func i (copyConst func i out c) g oc ins :=
      fun c => rewritesAt_pushConst _ _ (.inl rfl) (by simp)
    split at h
    all_goals
      first
      | (split_ifs at h <;> cases h <;>
          first | exact hconst _ | exact rewritesAt_keep h0 | exact rewritesAt_keep h1)
      | cases h
      | skip
    obtain ⟨x, hx, rfl⟩ := map_eq_some_iff.mp h
    obtain ⟨e, -, -, -, -, hein, -⟩ := extensionSource_spec hx
    exact rewritesAt_extension _ (hr e x (by simp [hein]))
  · cases h

theorem rewritesAt_strength (hr : InputsInRange func) (h : tryStrengthReduceOp func i = some f) :
    ∃ g oc ins, RewritesAt func i f g oc ins := by
  unfold tryStrengthReduceOp at h
  simp only at h
  split at h
  · next in0 in1 rest out hins hout =>
    have h0 : in0 ≤ func.varnodes.length := (hr i in0 (by simp [hins])).le
    have h1 : in1 ≤ func.varnodes.length := (hr i in1 (by simp [hins])).le
    split at h
    · split at h
      · cases h
        exact rewritesAt_pushConst _ _ (.inr (.inl rfl)) (by simpa using h1)
      · cases h
        exact rewritesAt_pushConst _ _ (.inr (.inl rfl)) (by simpa using h0)
      · cases h
    · obtain ⟨k, -, rfl⟩ := map_eq_some_iff.mp h
      exact rewritesAt_pushConst _ _ (.inr (.inr rfl)) (by simpa using h0)
    · cases h
  · cases h

theorem rewriteFunc_spec (hr : InputsInRange func) (i : ℕ) :
    rewriteFunc func i = func ∨ ∃ g oc ins, RewritesAt func i (rewriteFunc func i) g oc ins := by
  unfold rewriteFunc
  split
  · exact .inl rfl
  · cases h : ((tryConstantFoldOp func i).or (tryAlgebraicSimplifyOp func i)).or
        (tryStrengthReduceOp func i) with
    | none => exact .inl rfl
    | some f =>
      right
      rcases or_eq_some_iff.mp h with h | ⟨-, h⟩
      · rcases or_eq_some_iff.mp h with h | ⟨-, h⟩
        · exact rewritesAt_constantFold h
        · exact rewritesAt_algebraic hr h
      · exact rewritesAt_strength hr h

end Rewrites

/-- One step of the walk: other operations, and the values there were, are as before. -/
structure StepsAt (f f' : SsaFunction) (i : ℕ) : Prop where
  length : f'.ops.length = f.ops.length
  other : ∀ j ≠ i, f'.op j = f.op j
  output : (f'.op i).output = (f.op i).output
  -- a rewritten operation is no extension
  rewritten : f'.op i = f.op i ∨ ((f'.op i).opcode ≠ .intZExt ∧ (f'.op i).opcode ≠ .intSExt)
  grows : f.varnodes.length ≤ f'.varnodes.length
  data : ∀ v < f.varnodes.length, (f'.var v).data = (f.var v).data
  defOp : ∀ v < f.varnodes.length, (f'.var v).defOp = (f.var v).defOp
  range : InputsInRange f'

theorem rewriteFunc_stepsAt {f : SsaFunction} {i : ℕ} (hr : InputsInRange f)
    (hi : i < f.ops.length) : StepsAt f (rewriteFunc f i) i := by
  rcases rewriteFunc_spec hr i with he | ⟨g, oc, ins, h⟩
  · rw [he]
    exact ⟨rfl, fun _ _ => rfl, rfl, .inl rfl, le_rfl, fun _ _ => rfl, fun _ _ => rfl, hr⟩
  · have hgi : i < g.ops.length := by rw [h.ops]; exact hi
    have hgop : ∀ j, g.op j = f.op j := fun j => by rw [SsaFunction.op, SsaFunction.op, h.ops]
    have hop : ∀ j, (g.rewriteOp i oc ins).op j =
        if j = i then { f.op i with opcode := oc, inputs := ins } else f.op j := by
      intro j
      rw [g.op_rewriteOp hgi, hgop, hgop]
    rw [h.eq]
    refine ⟨?_, fun j hj => ?_, ?_, ?_, h.grows, h.data, h.defOp, fun j v hv => ?_⟩
    · rw [SsaFunction.length_ops_rewriteOp, h.ops]
    · rw [hop, if_neg hj]
    · rw [hop, if_pos rfl]
    · rw [hop, if_pos rfl]
      rcases h.opcode with rfl | rfl | rfl <;> exact .inr ⟨nofun, nofun⟩
    · rw [hop] at hv
      split at hv
      · exact h.range v hv
      · exact (hr j v hv).trans_le h.grows

/-- The function after the walk has passed the operations below `k`. -/
def walk (func : SsaFunction) (k : ℕ) : SsaFunction :=
  ((List.range k).foldl rewriteAt ⟨func, 0, 0, 0, none⟩).func

theorem walk_succ (func : SsaFunction) (k : ℕ) :
    walk func (k + 1) = rewriteFunc (walk func k) k := by
  rw [walk, range_succ, foldl_append, foldl_cons, foldl_nil, rewriteAt_func]
  rfl

structure RanTo (func f : SsaFunction) (k : ℕ) : Prop where
  length : f.ops.length = func.ops.length
  later : ∀ j ≥ k, f.op j = func.op j
  earlier : ∀ j < k, f.op j = func.op j ∨ ((f.op j).opcode ≠ .intZExt ∧ (f.op j).opcode ≠ .intSExt)
  grows : func.varnodes.length ≤ f.varnodes.length
  data : ∀ v < func.varnodes.length, (f.var v).data = (func.var v).data
  defOp : ∀ v < func.varnodes.length, (f.var v).defOp = (func.var v).defOp
  range : InputsInRange f

theorem walk_ranTo {func : SsaFunction} (hr : InputsInRange func) {k : ℕ}
    (hk : k ≤ func.ops.length) : RanTo func (walk func k) k := by
  induction k with
  | zero => exact ⟨rfl, fun _ _ => rfl, by simp, le_rfl, fun _ _ => rfl, fun _ _ => rfl, hr⟩
  | succ k ih =>
    have h := ih (by omega)
    have hstep := rewriteFunc_stepsAt h.range (by rw [h.length]; exact hk : k < (walk func k).ops.length)
    rw [walk_succ]
    refine ⟨hstep.length.trans h.length, fun j hj => ?_, fun j hj => ?_, h.grows.trans hstep.grows,
      fun v hv => ?_, fun v hv => ?_, hstep.range⟩
    · rw [hstep.other j (by omega), h.later j (by omega)]
    · rcases Nat.lt_succ_iff_lt_or_eq.mp hj with hlt | rfl
      · rw [hstep.other j (by omega)]
        exact h.earlier j hlt
      · rw [← h.later j le_rfl]
        exact hstep.rewritten
    · rw [hstep.data v (hv.trans_le h.grows), h.data v hv]
    · rw [hstep.defOp v (hv.trans_le h.grows), h.defOp v hv]

/-- Later steps leave an operation passed, and the values it reads, alone. -/
theorem walk_kept {func : SsaFunction} (hr : InputsInRange func) {i k : ℕ} (hik : i ≤ k)
    (hk : k ≤ func.ops.length) :
    (∀ j < i, (walk func k).op j = (walk func i).op j) ∧
      (walk func i).varnodes.length ≤ (walk func k).varnodes.length ∧
      ∀ v < (walk func i).varnodes.length, ((walk func k).var v).data = ((walk func i).var v).data := by
  induction k, hik using Nat.le_induction with
  | base => exact ⟨fun _ _ => rfl, le_rfl, fun _ _ => rfl⟩
  | succ k hik ih =>
    obtain ⟨hop, hlen, hdata⟩ := ih (by omega)
    have h := walk_ranTo hr (by omega : k ≤ func.ops.length)
    have hstep := rewriteFunc_stepsAt h.range (by rw [h.length]; exact hk : k < (walk func k).ops.length)
    rw [walk_succ]
    refine ⟨fun j hj => ?_, hlen.trans hstep.grows, fun v hv => ?_⟩
    · rw [hstep.other j (by omega), hop j hj]
    · rw [hstep.data v (hv.trans_le hlen), hdata v hv]

/-- A function whose folded operations fit, whose values are in the arena and whose
definitions are linked both ways. -/
structure Sized (func : SsaFunction) : Prop where
  range : InputsInRange func
  out_range : ∀ i out, (func.op i).output = some out → out < func.varnodes.length
  fits : ∀ i out, (func.op i).dead = false → isFoldable (func.op i).opcode →
    (func.op i).output = some out → OpFits func (func.op i) out
  def_link : ∀ v e, (func.var v).defOp = some e → (func.op e).output = some v

section Pass

variable {func f : SsaFunction} {i : ℕ}

section

variable (h : RanTo func f i)

include h

theorem RanTo.constValue {v : ℕ} (hv : v < func.varnodes.length) :
    constValue f v = constValue func v := by
  have hc : f.isConst v = func.isConst v := by simp [SsaFunction.isConst, h.data v hv]
  simp only [FoldRewrites.constValue, hc, h.data v hv]

theorem RanTo.opFits {op : SsaOp} {out : ℕ} (hf : OpFits func op out) : OpFits f op out := by
  have hin : ∀ v ∈ op.inputs, (f.var v).data = (func.var v).data :=
    fun v hv => h.data v (hf.in_lt v hv)
  have hmap : op.inputs.map (fun v => (f.var v).data.size) =
      op.inputs.map fun v => (func.var v).data.size :=
    map_congr_left fun v hv => by rw [hin v hv]
  refine ⟨?_, ?_, fun v hv => ?_, hf.out_lt.trans_le h.grows, fun v hv => ?_, hf.in_ne, ?_,
    fun v hv => ?_, fun ho v hv => ?_⟩
  · rw [hmap, h.data out hf.out_lt]
    exact hf.sizes
  · rw [h.data out hf.out_lt]
    exact hf.out_size
  · rw [hin v hv]
    exact hf.in_size v hv
  · exact (hf.in_lt v hv).trans_le h.grows
  · rw [h.constValue hf.out_lt, hf.out_var]
  · rw [hin v hv]
    exact hf.in_fits v hv
  · rw [hin v hv]
    exact hf.extended ho v hv

theorem RanTo.isConst {v : ℕ} (hv : v < func.varnodes.length) : f.isConst v = func.isConst v := by
  simp [SsaFunction.isConst, h.data v hv]

theorem RanTo.lossyOperands {oc : OpCode} {ins : List ℕ}
    (hins : ∀ v ∈ ins, v < func.varnodes.length) :
    LossyOperands f oc ins ↔ LossyOperands func oc ins := by
  match ins with
  | [a] =>
    have ha := hins a (by simp)
    cases oc with
    | intSExt =>
      show f.isConst a ∧ ((f.var a).data.offset.setWidth (8 * (f.var a).data.size)).msb ↔ _
      rw [h.isConst ha, h.data a ha]
      rfl
    | _ => exact .rfl
  | [a, b] =>
    have ha := hins a (by simp)
    have hb := hins b (by simp)
    cases oc <;> simp [LossyOperands, h.isConst ha, h.isConst hb, h.constValue ha, h.constValue hb]
  | [] => cases oc <;> simp [LossyOperands]
  | _ :: _ :: _ :: _ => cases oc <;> simp [LossyOperands]

theorem RanTo.lossy (hs : Sized func) : Lossy f i ↔ Lossy func i := by
  have hop := h.later i le_rfl
  have hl : LossyOperands f (func.op i).opcode (func.op i).inputs ↔
      LossyOperands func (func.op i).opcode (func.op i).inputs :=
    h.lossyOperands fun v hv => hs.range i v hv
  unfold Lossy
  rw [hop, hl]
  have hsize : ∀ out, (func.op i).output = some out →
      (f.var out).data.size = (func.var out).data.size :=
    fun out ho => by rw [h.data out (hs.out_range i out ho)]
  constructor
  · rintro ⟨hd, out, ho, h16, hrest⟩
    exact ⟨hd, out, ho, hsize out ho ▸ h16, hrest⟩
  · rintro ⟨hd, out, ho, h16, hrest⟩
    exact ⟨hd, out, ho, (hsize out ho).trans h16, hrest⟩

/-- The extension a step sees was there, unchanged, at the start of the walk. -/
theorem RanTo.extensionOf (hs : Sized func) {e : ℕ}
    (he : extensionOf f i = some e) : extensionOf func i = some e ∧ f.op e = func.op e := by
  have hop := h.later i le_rfl
  unfold FoldSemantics.extensionOf at he ⊢
  rw [hop] at he
  split at he
  · next a rest hoc hins =>
    rw [h.defOp a (hs.range i a (by simp [hins]))] at he
    obtain ⟨hdef, hext⟩ := filter_eq_some_iff.mp he
    have hsame : f.op e = func.op e := by
      rcases lt_or_ge e i with hlt | hge
      · refine (h.earlier e hlt).resolve_right ?_
        rintro ⟨hz, hx⟩
        simp [hz, hx] at hext
      · exact h.later e hge
    rw [hsame] at hext
    exact ⟨filter_eq_some_iff.mpr ⟨hdef, hext⟩, hsame⟩
  · cases he

theorem RanTo.extensionFits (hs : Sized func) : ExtensionFits f i := by
  intro e he a rest hins
  obtain ⟨hfe, hsame⟩ := h.extensionOf hs he
  rw [h.later i le_rfl] at hins
  unfold FoldSemantics.extensionOf at hfe
  rw [hins] at hfe
  split at hfe
  · next a' rest' hoc hins' =>
    obtain ⟨rfl, rfl⟩ := List.cons.inj hins'
    obtain ⟨hdef, hext⟩ := filter_eq_some_iff.mp hfe
    have hout := hs.def_link a e hdef
    rw [hsame]
    refine ⟨hout, h.opFits (hs.fits e a ?_ ?_ hout)⟩
    · simp only [Bool.and_eq_true, Bool.not_eq_true'] at hext
      exact hext.1
    · simp only [Bool.and_eq_true, Bool.or_eq_true, decide_eq_true_eq] at hext
      rcases hext.2 with ho | ho <;> simp [ho, isFoldable]
  · cases hfe

theorem RanTo.op_eq (pl : Placement) {o : SsaOp} (hin : ∀ v ∈ o.inputs, v < func.varnodes.length)
    (hout : ∀ v, o.output = some v → v < func.varnodes.length) : pl.op f o = pl.op func o := by
  unfold Placement.op
  congr 1
  · cases ho : o.output with
    | none => rfl
    | some v => simp only [map_some, pl.data_congr (h.data v (hout v ho))]
  · exact map_congr_left fun v hv => pl.data_congr (h.data v (hin v hv))

/-- A valuation that gives the `SUBPIECE` its extension at the start gives it at the step. -/
theorem RanTo.extensionHolds (hs : Sized func) {un : Uninterpreted}
    {pl : Placement} {s : EmulatorState} (hh : ExtensionHolds un pl func s i) :
    ExtensionHolds un pl f s i := by
  intro e he
  obtain ⟨hfe, hsame⟩ := h.extensionOf hs he
  rw [hsame, h.op_eq pl (fun v hv => hs.range e v hv) fun v hv => hs.out_range e v hv]
  exact hh e hfe

end

/-- The rewritten operation as the whole pass leaves it. -/
theorem final_op (hs : Sized func) (hi : i < func.ops.length) (pl : Placement) :
    pl.op (constAlgStrength func).func ((constAlgStrength func).func.op i) =
      pl.op (walk func (i + 1)) ((walk func (i + 1)).op i) := by
  obtain ⟨hop, -, hdata⟩ := walk_kept hs.range (Nat.succ_le_of_lt hi) le_rfl
  have hnext := walk_ranTo hs.range (Nat.succ_le_of_lt hi)
  have hrun := walk_ranTo hs.range hi.le
  have hstep := rewriteFunc_stepsAt hrun.range (by rw [hrun.length]; exact hi)
  have houtput : ((walk func (i + 1)).op i).output = (func.op i).output := by
    rw [walk_succ, hstep.output, hrun.later i le_rfl]
  show pl.op (walk func func.ops.length) ((walk func func.ops.length).op i) = _
  rw [hop i (Nat.lt_succ_self i)]
  unfold Placement.op
  congr 1
  · rw [houtput]
    cases ho : (func.op i).output with
    | none => rfl
    | some v =>
      simp only [map_some,
        pl.data_congr (hdata v ((hs.out_range i v ho).trans_le hnext.grows))]
  · exact map_congr_left fun v hv => pl.data_congr (hdata v (hnext.range i v hv))

theorem not_lossy_of_skipped (h : ¬ ((func.op i).dead = false ∧ isFoldable (func.op i).opcode ∧
    (func.op i).output ≠ none)) : ¬ Lossy func i := by
  rintro ⟨hlive, out, hout, -, hl⟩
  refine h ⟨hlive, ?_, by simp [hout]⟩
  cases ho : (func.op i).opcode with
  | intAdd | intSub | intEqual | intMult | intSExt => rfl
  | _ =>
    rw [ho] at hl
    exact absurd hl id

theorem ne_subpiece_of_lossy (h : Lossy func i) : (func.op i).opcode ≠ .subpiece := by
  obtain ⟨-, out, -, -, hl⟩ := h
  intro ho
  rw [ho] at hl
  exact hl

theorem walk_faithful_iff (un : Uninterpreted) (hs : Sized func) (hi : i < func.ops.length) :
    Faithful un (walk func i) (rewriteFunc (walk func i) i) i ↔ ¬ Lossy (walk func i) i := by
  have hrun := walk_ranTo hs.range hi.le
  have hop := hrun.later i le_rfl
  by_cases hv : (func.op i).dead = false ∧ isFoldable (func.op i).opcode ∧ (func.op i).output ≠ none
  · obtain ⟨hlive, hfold, hout⟩ := hv
    obtain ⟨out, hout⟩ := ne_none_iff_exists'.mp hout
    have hvisited : Visited (walk func i) i out := by
      refine ⟨?_, ?_, ?_, ?_, ?_⟩
      · rw [hrun.length]
        exact hi
      · rw [hop, hlive]
      · rw [hop, hout]
      · rw [hop]
        exact hfold
      · rw [hop]
        exact hrun.opFits (hs.fits i out hlive hfold hout)
    exact hvisited.faithful_iff (hrun.extensionFits hs)
  · have hskip : rewriteFunc (walk func i) i = walk func i := by
      rw [rewriteFunc, hop, if_pos]
      by_contra hno
      rw [not_or, not_or, not_not, Bool.not_eq_true] at hno
      exact hv ⟨hno.1, hno.2.2, hno.2.1⟩
    exact iff_of_true (faithful_of_eq hskip) (not_lossy_of_skipped (by rwa [hop]))

end Pass

/-- A 16-byte product of two constants, as a widening multiply of known operands leaves it. -/
def productOf (u v : U64) : SsaFunction where
  varnodes := [⟨⟨SpaceId.const, u, 16⟩, 0, none, [0]⟩, ⟨⟨SpaceId.const, v, 16⟩, 0, none, [0]⟩,
    ⟨⟨SpaceId.unique, 0, 16⟩, 1, some 0, []⟩]
  ops := [⟨.intMult, some 2, [0, 1], 0, 0, false⟩]
  cfg := ControlFlow.emptyCfg
  phantomWrites := []
  phantomRegs := []

theorem op_productOf (u v : U64) (i : ℕ) :
    (productOf u v).op i = if i = 0 then ⟨.intMult, some 2, [0, 1], 0, 0, false⟩ else default := by
  cases i <;> rfl

theorem sized_productOf (u v : U64) : Sized (productOf u v) := by
  have hlen : (productOf u v).varnodes.length = 3 := rfl
  refine ⟨fun i w hw => ?_, fun i out ho => ?_, fun i out hd hf ho => ?_, fun w e he => ?_⟩
  · rw [op_productOf] at hw
    split at hw
    · fin_cases hw <;> simp [hlen]
    · cases hw
  · rw [op_productOf] at ho
    split at ho
    · cases ho
      simp [hlen]
    · cases ho
  · rw [op_productOf] at ho ⊢
    split at ho
    · next hi =>
      cases ho
      rw [if_pos hi]
      refine ⟨⟨rfl, rfl⟩, .inr rfl, ?_, by simp [hlen], ?_, ?_, rfl, ?_, fun h => by simp at h⟩
      · intro w hw
        fin_cases hw <;> exact .inr rfl
      · intro w hw
        fin_cases hw <;> simp [hlen]
      · intro w hw
        fin_cases hw <;> decide
      · intro w hw
        fin_cases hw <;> intro _ <;>
          exact lt_of_lt_of_le (BitVec.isLt _) (show 2 ^ 64 ≤ 2 ^ 128 by decide)
    · cases ho
  · match w with
    | 0 | 1 => cases he
    | 2 =>
      cases he
      rfl
    | _ + 3 => cases he

end FoldPass
