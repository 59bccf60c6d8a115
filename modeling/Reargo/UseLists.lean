import Reargo.CommonSubexpressions
import Reargo.DeadCodeExact
import Reargo.FoldPass
import Reargo.SsaLinks
import Reargo.SsaPaths

/-!
# Use lists through the passes

The uses of a value name every live operation that reads it, and its definition is a live
operation with this output. The SSA construction establishes this with one definition for each
version of a slot, and every pass keeps it.
-/
namespace UseLists

open PcodeModel ControlFlow SsaModel SsaBuild SsaRenaming SsaLinks SsaPaths FoldRewrites FoldSteps List
  FoldPass DeadCode DeadCodeExact CommonSubexpressions
open SsaFunction (pushConst setOp setVar var_pushVar)

structure Recorded (func : SsaFunction) : Prop where
  range : InputsInRange func
  uses : ∀ o v, (func.op o).dead = false → v ∈ (func.op o).inputs → func.isConst v = false →
    o ∈ (func.var v).uses
  defined : ∀ o v d, (func.op o).dead = false → v ∈ (func.op o).inputs → func.isConst v = false →
    (func.var v).defOp = some d → (func.op d).dead = false ∧ (func.op d).output = some v
  output : ∀ d w, (func.op d).dead = false → (func.op d).output = some w →
    (func.var w).defOp = some d
  distinct : ∀ d e w x, (func.op d).dead = false → (func.op e).dead = false →
    (func.op d).output = some w → (func.op e).output = some x →
      valueKey func w = valueKey func x → w = x

variable {func f g : SsaFunction} {v : ℕ}

theorem lt_of_defOp {d : ℕ} (h : (func.var v).defOp = some d) : v < func.varnodes.length := by
  by_contra hge
  rw [show func.var v = default from getD_eq_default _ _ (Nat.le_of_not_lt hge)] at h
  cases h

theorem lt_of_input {o : ℕ} (h : v ∈ (func.op o).inputs) : o < func.ops.length := by
  by_contra hge
  rw [show func.op o = default from getD_eq_default _ _ (Nat.le_of_not_lt hge)] at h
  cases h

theorem lt_of_output {o : ℕ} (h : (func.op o).output = some v) : o < func.ops.length := by
  by_contra hge
  rw [show func.op o = default from getD_eq_default _ _ (Nat.le_of_not_lt hge)] at h
  cases h

theorem isConst_congr (h : (g.var v).data = (f.var v).data) : g.isConst v = f.isConst v := by
  unfold SsaFunction.isConst
  rw [h]

theorem recorded_fromCfg {cfg : ControlFlowGraph}
    (hentry : cfg.blocks ≠ [] → cfg.entryBlock < cfg.blocks.length) : Recorded (fromCfg cfg) := by
  obtain ⟨hlinks, hshut⟩ := links_renamed hentry
  -- no operand was left open, so every input is one that was set
  have hinput : ∀ o v, v ∈ ((fromCfg cfg).op o).inputs → Used (renamed cfg) o v := by
    intro o v hv
    rw [op_fromCfg] at hv
    obtain ⟨x, hx, rfl⟩ := mem_map.mp hv
    cases x with
    | some w => exact hlinks.used o w hx
    | none =>
      obtain ⟨j, hj⟩ := getElem?_of_mem hx
      exact absurd ((hshut o j).symm.trans (decide_eq_true hj)) (by decide)
  have houtput : ∀ d, ((fromCfg cfg).op d).output = (opOf (renamed cfg) d).output := fun d => by
    rw [op_fromCfg]
    rfl
  have hlive : ∀ d, ((fromCfg cfg).op d).dead = false := fun d => by
    rw [op_fromCfg]
    rfl
  refine ⟨fun o v hv => (hinput o v hv).1, fun o v _ hv _ => (hinput o v hv).2, ?_, ?_, ?_⟩
  · intro o v d _ _ _ hd
    rw [houtput]
    exact ⟨hlive d, hlinks.defined v d hd⟩
  · intro d w _ hw
    rw [houtput] at hw
    exact hlinks.output d w hw
  · intro d e w x _ _ hw hx hkey
    rw [houtput] at hw hx
    have hslot : slotOf (varOf (renamed cfg) w).data = slotOf (varOf (renamed cfg) x).data :=
      congrArg Prod.fst hkey
    exact hlinks.distinct w x d e (hlinks.output d w hw) (hlinks.output e x hx) hslot
      (congrArg Prod.snd hkey)

/-- The values stay, but for their uses. -/
structure SameValues (f g : SsaFunction) : Prop where
  grows : f.varnodes.length ≤ g.varnodes.length
  data : ∀ v < f.varnodes.length, (g.var v).data = (f.var v).data
  version : ∀ v < f.varnodes.length, (g.var v).version = (f.var v).version
  defOp : ∀ v < f.varnodes.length, (g.var v).defOp = (f.var v).defOp

theorem SameValues.rfl : SameValues f f :=
  ⟨le_refl _, fun _ _ => Eq.refl _, fun _ _ => Eq.refl _, fun _ _ => Eq.refl _⟩

theorem SameValues.trans {h : SsaFunction} (k : SameValues f g) (l : SameValues g h) :
    SameValues f h :=
  ⟨k.grows.trans l.grows, fun v hv => (l.data v (hv.trans_le k.grows)).trans (k.data v hv),
    fun v hv => (l.version v (hv.trans_le k.grows)).trans (k.version v hv),
    fun v hv => (l.defOp v (hv.trans_le k.grows)).trans (k.defOp v hv)⟩

theorem SameValues.valueKey (h : SameValues f g) (hv : v < f.varnodes.length) :
    valueKey g v = valueKey f v := by
  unfold CommonSubexpressions.valueKey keyOf
  rw [h.data v hv, h.version v hv]

theorem SameValues.distinct (hsame : SameValues f g) (h : Recorded f) {d e w x : ℕ}
    (hd : (f.op d).dead = false) (he : (f.op e).dead = false) (hw : (f.op d).output = some w)
    (hx : (f.op e).output = some x) (hkey : CommonSubexpressions.valueKey g w =
      CommonSubexpressions.valueKey g x) : w = x := by
  refine h.distinct d e w x hd he hw hx ?_
  rw [← hsame.valueKey (lt_of_defOp (h.output d w hd hw)),
    ← hsame.valueKey (lt_of_defOp (h.output e x he hx))]
  exact hkey

theorem var_pushConst (f : SsaFunction) (i : ℕ) (c : U64) (n : ℕ)
    (hv : v < f.varnodes.length) : (f.pushConst i c n).var v = f.var v := by
  unfold pushConst
  rw [var_pushVar, if_pos hv]

theorem sameValues_pushConst (f : SsaFunction) (i : ℕ) (c : U64) (n : ℕ) :
    SameValues f (f.pushConst i c n) := by
  have hvar := fun v (hv : v < f.varnodes.length) => var_pushConst f i c n hv
  refine ⟨?_, fun v hv => by rw [hvar v hv], fun v hv => by rw [hvar v hv],
    fun v hv => by rw [hvar v hv]⟩
  unfold pushConst SsaFunction.pushVar
  rw [length_append]
  exact Nat.le_add_right _ _

theorem var_setUses (f : SsaFunction) (v w : ℕ) (us : List ℕ) :
    (f.setVar v { f.var v with uses := us }).var w =
      if w = v ∧ v < f.varnodes.length then { f.var w with uses := us } else f.var w := by
  by_cases hv : v < f.varnodes.length
  · rw [f.var_setVar hv]
    by_cases hw : w = v
    · subst hw
      rw [if_pos rfl, if_pos ⟨rfl, hv⟩]
    · rw [if_neg hw, if_neg fun h => hw h.1]
  · rw [if_neg fun h => hv h.2]
    unfold setVar SsaFunction.var
    rw [set_eq_of_length_le (Nat.le_of_not_lt hv)]

theorem sameValues_setUses (f : SsaFunction) (v : ℕ) (us : List ℕ) :
    SameValues f (f.setVar v { f.var v with uses := us }) := by
  refine ⟨?_, fun w _ => ?_, fun w _ => ?_, fun w _ => ?_⟩
  · unfold setVar
    rw [length_set]
  all_goals
    rw [var_setUses]
    split <;> rfl

theorem Recorded.rewriteOp (h : Recorded f) {i : ℕ} (hi : i < f.ops.length)
    (hops : g.ops = f.ops) (hsame : SameValues f g)
    {oc : OpCode} {ins : List ℕ}
    (hins : ∀ v ∈ ins, v < g.varnodes.length ∧ (g.isConst v = false →
      v < f.varnodes.length ∧ i ∈ (g.var v).uses ∧
        ∃ o, (f.op o).dead = false ∧ v ∈ (f.op o).inputs))
    (huses : ∀ o, o ≠ i → (f.op o).dead = false → ∀ v ∈ (f.op o).inputs, f.isConst v = false →
      o ∈ (g.var v).uses) :
    Recorded (g.rewriteOp i oc ins) := by
  have hop : ∀ j, (g.rewriteOp i oc ins).op j =
      if j = i then { f.op i with opcode := oc, inputs := ins } else f.op j := by
    intro j
    have hgop : ∀ j, g.op j = f.op j := fun j => by
      unfold SsaFunction.op
      rw [hops]
    rw [g.op_rewriteOp (by rw [hops]; exact hi), hgop, hgop]
  have hdead : ∀ j, ((g.rewriteOp i oc ins).op j).dead = (f.op j).dead := by
    intro j
    rw [hop]
    split
    · next hj => rw [hj]
    · rfl
  have houtput : ∀ j, ((g.rewriteOp i oc ins).op j).output = (f.op j).output := by
    intro j
    rw [hop]
    split
    · next hj => rw [hj]
    · rfl
  refine ⟨fun o v hv => ?_, fun o v ho hv hc => ?_, fun o v d ho hv hc hd => ?_,
    fun d w hd hw => ?_, fun d e w x hd he hw hx hkey => ?_⟩
  · rw [hop] at hv
    split at hv
    · exact (hins v hv).1
    · exact (h.range o v hv).trans_le hsame.grows
  · rw [hdead] at ho
    rw [hop] at hv
    split at hv
    · next hoi =>
      rw [hoi]
      exact ((hins v hv).2 hc).2.1
    · next hoi =>
      have hold : f.isConst v = false :=
        (isConst_congr (hsame.data v (h.range o v hv))).symm.trans hc
      exact huses o hoi ho v hv hold
  · rw [hdead] at ho ⊢
    rw [houtput]
    rw [hop] at hv
    have hold : v < f.varnodes.length ∧ ∃ o, (f.op o).dead = false ∧ v ∈ (f.op o).inputs := by
      split at hv
      · obtain ⟨hlt, -, hread⟩ := (hins v hv).2 hc
        exact ⟨hlt, hread⟩
      · exact ⟨h.range o v hv, o, ho, hv⟩
    obtain ⟨hlt, o', ho', hv'⟩ := hold
    refine h.defined o' v d ho' hv' ((isConst_congr (hsame.data v hlt)).symm.trans hc) ?_
    exact (hsame.defOp v hlt).symm.trans hd
  · rw [hdead] at hd
    rw [houtput] at hw
    have hdef := h.output d w hd hw
    exact (hsame.defOp w (lt_of_defOp hdef)).trans hdef
  · rw [hdead] at hd he
    rw [houtput] at hw hx
    exact hsame.distinct h hd he hw hx hkey

theorem only_reader {i a b out x : ℕ} (hx : extensionSource f i a b out = some x) :
    ∀ u ∈ (f.var a).uses, u ≠ i → (f.op u).dead = true := by
  intro u hu hui
  unfold extensionSource at hx
  split at hx
  · cases hx
  · simp only at hx
    split_ifs at hx
    split at hx
    · split_ifs at hx with hother
      simp only [not_or, any_eq_true, not_exists, not_and, Bool.and_eq_true, decide_eq_true_eq,
        Bool.not_eq_true'] at hother
      exact Bool.not_eq_false _ ▸ hother.2.2 u hu hui
    · cases hx

theorem recorded_extension (h : Recorded f) {i a b out x : ℕ} (hi : i < f.ops.length)
    (hx : extensionSource f i a b out = some x) :
    Recorded ((addUse (clearUses f a) x i).rewriteOp i .copy [x]) := by
  obtain ⟨e, -, -, helive, -, hein, hspace, -⟩ := extensionSource_spec hx
  have hread : x ∈ (f.op e).inputs := by
    rw [hein]
    exact mem_singleton_self x
  have hlt := h.range e x hread
  have hconst : f.isConst x = false := by
    unfold SsaFunction.isConst
    rw [hspace]
    rfl
  have hclear := sameValues_setUses f a []
  have hadd := sameValues_setUses (clearUses f a) x (((clearUses f a).var x).uses ++ [i])
  have hsame : SameValues f (addUse (clearUses f a) x i) := hclear.trans hadd
  -- a value other than `a` keeps its readers
  have hkeeps : ∀ v, v ≠ a → ∀ o ∈ (f.var v).uses,
      o ∈ ((addUse (clearUses f a) x i).var v).uses := by
    intro v hva o ho
    have hold : (clearUses f a).var v = f.var v := by
      unfold clearUses
      rw [var_setUses, if_neg fun hc => hva hc.1]
    unfold addUse
    rw [var_setUses]
    split
    · next hvx =>
      rw [← hvx.1, hold]
      exact mem_append_left _ ho
    · rw [hold]
      exact ho
  refine h.rewriteOp (g := addUse (clearUses f a) x i) hi rfl hsame (fun v hv => ?_)
    fun o hoi ho v hv hc => ?_
  · obtain rfl := mem_singleton.mp hv
    refine ⟨hlt.trans_le hsame.grows, fun _ => ⟨hlt, ?_, e, helive, hread⟩⟩
    unfold addUse
    rw [var_setUses, if_pos ⟨rfl, hlt.trans_le hclear.grows⟩]
    exact mem_append_right _ (mem_singleton_self i)
  · refine hkeeps v ?_ o (h.uses o v ho hv hc)
    rintro rfl
    exact absurd (ho.symm.trans (only_reader hx o (h.uses o v ho hv hc) hoi)) (by decide)

section Fold

variable {i : ℕ} (h : Recorded f) (hi : i < f.ops.length) (hlive : (f.op i).dead = false)
  {f' : SsaFunction}

include h hi hlive

theorem recorded_keep (hv : v ∈ (f.op i).inputs) : Recorded (f.rewriteOp i .copy [v]) := by
  refine h.rewriteOp (g := f) hi rfl SameValues.rfl (fun w hw => ?_) fun o _ ho w hw hc =>
    h.uses o w ho hw hc
  obtain rfl := mem_singleton.mp hw
  exact ⟨h.range i w hv, fun hc => ⟨h.range i w hv, h.uses i w hlive hv hc, i, hlive, hv⟩⟩

theorem recorded_pushConst (c : U64) (n : ℕ) (oc : OpCode) {ins : List ℕ}
    (hins : ∀ v ∈ ins, v ∈ (f.op i).inputs ∨ v = f.varnodes.length) :
    Recorded ((f.pushConst i c n).rewriteOp i oc ins) := by
  have hsame := sameValues_pushConst f i c n
  refine h.rewriteOp (g := f.pushConst i c n) hi rfl hsame (fun v hv => ?_) fun o _ ho w hw hc => ?_
  · rcases hins v hv with hv | rfl
    · have hlt := h.range i v hv
      refine ⟨hlt.trans_le hsame.grows, fun hc => ⟨hlt, ?_, i, hlive, hv⟩⟩
      rw [isConst_congr (hsame.data v hlt)] at hc
      rw [var_pushConst f i c n hlt]
      exact h.uses i v hlive hv hc
    · refine ⟨?_, fun hc => ?_⟩
      · unfold pushConst SsaFunction.pushVar
        rw [length_append]
        exact Nat.lt_succ_self _
      · unfold SsaFunction.isConst pushConst at hc
        rw [var_pushVar, if_neg (lt_irrefl _), if_pos rfl] at hc
        cases hc
  · rw [var_pushConst f i c n (h.range o w hw)]
    exact h.uses o w ho hw hc

theorem recorded_algebraic (hf : tryAlgebraicSimplifyOp f i = some f') : Recorded f' := by
  unfold tryAlgebraicSimplifyOp at hf
  simp only at hf
  split at hf
  · next in0 in1 rest out hins hout =>
    have h0 : in0 ∈ (f.op i).inputs := by
      rw [hins]
      exact mem_cons_self
    have h1 : in1 ∈ (f.op i).inputs := by
      rw [hins]
      exact mem_cons_of_mem _ mem_cons_self
    have hconst : ∀ c, Recorded (copyConst f i out c) := fun c =>
      recorded_pushConst h hi hlive c _ .copy fun v hv => .inr (mem_singleton.mp hv)
    have hkeep : ∀ v ∈ (f.op i).inputs, Recorded (f.rewriteOp i .copy [v]) := fun v hv =>
      recorded_keep h hi hlive hv
    split at hf
    all_goals
      first
      | (split_ifs at hf <;> cases hf <;>
          first | exact hconst _ | exact hkeep _ h0 | exact hkeep _ h1)
      | cases hf
      | skip
    obtain ⟨x, hx, rfl⟩ := Option.map_eq_some_iff.mp hf
    exact recorded_extension h hi hx
  · cases hf

theorem recorded_strength (hf : tryStrengthReduceOp f i = some f') : Recorded f' := by
  unfold tryStrengthReduceOp at hf
  simp only at hf
  split at hf
  · next in0 in1 rest out hins hout =>
    have hshift : ∀ (oc : OpCode) (v k : ℕ), v = in0 ∨ v = in1 →
        Recorded (shiftBy f i out oc v k) := by
      intro oc v k hv
      refine recorded_pushConst h hi hlive _ _ oc fun w hw => ?_
      rcases mem_cons.mp hw with rfl | hw
      · left
        rw [hins]
        rcases hv with rfl | rfl
        · exact mem_cons_self
        · exact mem_cons_of_mem _ mem_cons_self
      · exact .inr (mem_singleton.mp hw)
    split at hf
    · split at hf
      · cases hf
        exact hshift _ _ _ (.inr rfl)
      · cases hf
        exact hshift _ _ _ (.inl rfl)
      · cases hf
    · obtain ⟨k, -, rfl⟩ := Option.map_eq_some_iff.mp hf
      exact hshift _ _ _ (.inl rfl)
    · cases hf
  · cases hf

theorem recorded_constantFold (hf : tryConstantFoldOp f i = some f') : Recorded f' := by
  unfold tryConstantFoldOp at hf
  simp only at hf
  split at hf
  · cases hf
  · split at hf
    · cases hf
      exact recorded_pushConst h hi hlive _ _ .copy fun v hv => .inr (mem_singleton.mp hv)
    · cases hf

end Fold

theorem recorded_rewriteFunc (h : Recorded f) {i : ℕ} (hi : i < f.ops.length) :
    Recorded (rewriteFunc f i) := by
  unfold rewriteFunc
  split
  · exact h
  · next hvisit =>
    simp only [not_or, Bool.not_eq_true] at hvisit
    have hlive := hvisit.1
    cases hf : ((tryConstantFoldOp f i).or (tryAlgebraicSimplifyOp f i)).or
        (tryStrengthReduceOp f i) with
    | none => exact h
    | some f' =>
      rcases Option.or_eq_some_iff.mp hf with hf | ⟨-, hf⟩
      · rcases Option.or_eq_some_iff.mp hf with hf | ⟨-, hf⟩
        · exact recorded_constantFold h hi hlive hf
        · exact recorded_algebraic h hi hlive hf
      · exact recorded_strength h hi hlive hf

theorem recorded_constAlgStrength (h : Recorded f) : Recorded (constAlgStrength f).func := by
  have hwalk : ∀ k ≤ f.ops.length, Recorded (walk f k) ∧ (walk f k).ops.length = f.ops.length := by
    intro k hk
    induction k with
    | zero => exact ⟨h, rfl⟩
    | succ k ih =>
      obtain ⟨hrec, hlen⟩ := ih (by omega)
      have hlt : k < (walk f k).ops.length := by omega
      rw [walk_succ]
      exact ⟨recorded_rewriteFunc hrec hlt,
        (rewriteFunc_stepsAt hrec.range hlt).length.trans hlen⟩
  exact (hwalk f.ops.length (le_refl _)).1

theorem op_replaceInput (f : SsaFunction) (old new u j : ℕ) :
    (replaceInput f old new u).op j = if j = u then { f.op u with
      inputs := (f.op u).inputs.map fun v => if v = old then new else v } else f.op j := by
  by_cases hu : u < f.ops.length
  · exact f.op_setOp hu _ j
  · -- outside the arena there are no inputs to replace
    have hsame : replaceInput f old new u = f := by
      unfold replaceInput setOp
      rw [set_eq_of_length_le (Nat.le_of_not_lt hu)]
    have hdefault : f.op u = default := getD_eq_default _ _ (Nat.le_of_not_lt hu)
    rw [hsame]
    split
    · next hj =>
      rw [hj, hdefault]
      rfl
    · rfl

@[simp] theorem dead_replaceInput (f : SsaFunction) (old new u j : ℕ) :
    ((replaceInput f old new u).op j).dead = (f.op j).dead := by
  rw [op_replaceInput]
  split
  · next hj => rw [hj]
  · rfl

@[simp] theorem output_replaceInput (f : SsaFunction) (old new u j : ℕ) :
    ((replaceInput f old new u).op j).output = (f.op j).output := by
  rw [op_replaceInput]
  split
  · next hj => rw [hj]
  · rfl

theorem mem_inputs_replaceInput {f : SsaFunction} {old new u j : ℕ}
    (hv : v ∈ ((replaceInput f old new u).op j).inputs) :
    v ∈ (f.op j).inputs ∨ (j = u ∧ v = new ∧ old ∈ (f.op j).inputs) := by
  rw [op_replaceInput] at hv
  split at hv
  · next hj =>
    subst hj
    obtain ⟨w, hw, rfl⟩ := mem_map.mp hv
    split
    · next heq => exact .inr ⟨rfl, rfl, heq ▸ hw⟩
    · exact .inl hw
  · exact .inl hv

theorem valueKey_congr (h : g.var v = f.var v) : valueKey g v = valueKey f v := by
  unfold valueKey
  rw [h]

variable {src : ℕ}

theorem Recorded.replaceConst (h : Recorded f) (hlt : src < f.varnodes.length)
    (hconst : f.isConst src = true) (out u : ℕ) : Recorded (replaceInput f out src u) := by
  have hinput : ∀ o v, v ∈ ((replaceInput f out src u).op o).inputs →
      v ∈ (f.op o).inputs ∨ v = src := fun o v hv =>
    (mem_inputs_replaceInput hv).imp_right fun hnew => hnew.2.1
  have hnonconst : ∀ v, f.isConst v = false → v ≠ src := by
    rintro v hv rfl
    exact absurd (hv.symm.trans hconst) (by decide)
  refine ⟨fun o v hv => ?_, fun o v ho hv hc => ?_, fun o v d ho hv hc hd => ?_,
    fun d w hd hw => ?_, fun d e w x hd he hw hx hkey => ?_⟩
  · rcases hinput o v hv with hv | rfl
    · exact h.range o v hv
    · exact hlt
  · rw [dead_replaceInput] at ho
    exact h.uses o v ho ((hinput o v hv).resolve_right (hnonconst v hc)) hc
  · rw [dead_replaceInput] at ho ⊢
    rw [output_replaceInput]
    exact h.defined o v d ho ((hinput o v hv).resolve_right (hnonconst v hc)) hc hd
  · rw [dead_replaceInput] at hd
    rw [output_replaceInput] at hw
    exact h.output d w hd hw
  · rw [dead_replaceInput] at hd he
    rw [output_replaceInput] at hw hx
    exact h.distinct d e w x hd he hw hx hkey

theorem Recorded.setUses (h : Recorded f) (v : ℕ) (us : List ℕ)
    (hus : ∀ o, (f.op o).dead = false → v ∈ (f.op o).inputs → f.isConst v = false → o ∈ us) :
    Recorded (f.setVar v { f.var v with uses := us }) := by
  have hsame := sameValues_setUses f v us
  refine ⟨fun o w hw => (h.range o w hw).trans_le hsame.grows, fun o w ho hw hc => ?_,
    fun o w d ho hw hc hd => ?_, fun d w hd hw => ?_, fun d e w x hd he hw hx hkey => ?_⟩
  · rw [isConst_congr (hsame.data w (h.range o w hw))] at hc
    rw [var_setUses]
    split
    · next heq =>
      obtain ⟨rfl, -⟩ := heq
      exact hus o ho hw hc
    · exact h.uses o w ho hw hc
  · rw [isConst_congr (hsame.data w (h.range o w hw))] at hc
    rw [hsame.defOp w (h.range o w hw)] at hd
    exact h.defined o w d ho hw hc hd
  · have hdef := h.output d w hd hw
    exact (hsame.defOp w (lt_of_defOp hdef)).trans hdef
  · exact hsame.distinct h hd he hw hx hkey

theorem recorded_propagateTo {st : CopyState} (h : Recorded st.func) (out : ℕ)
    (hlt : src < st.func.varnodes.length) (hconst : st.func.isConst src = true) (u : ℕ) :
    Recorded (propagateTo out src st u).func ∧
      (propagateTo out src st u).func.varnodes = st.func.varnodes := by
  unfold propagateTo
  simp only
  split
  · exact ⟨h, rfl⟩
  · exact ⟨h.replaceConst hlt hconst out u, rfl⟩

theorem recorded_foldl_propagateTo (out : ℕ) (us : List ℕ) (st : CopyState) (h : Recorded st.func)
    (hlt : src < st.func.varnodes.length) (hconst : st.func.isConst src = true) :
    Recorded (us.foldl (propagateTo out src) st).func := by
  induction us generalizing st with
  | nil => exact h
  | cons u us ih =>
    obtain ⟨h', hvars⟩ := recorded_propagateTo h out hlt hconst u
    refine ih _ h' (by rw [hvars]; exact hlt) ?_
    unfold SsaFunction.isConst SsaFunction.var at hconst ⊢
    rw [hvars]
    exact hconst

theorem recorded_propagateCopy {st : CopyState} (h : Recorded st.func) (i : ℕ) :
    Recorded (propagateCopy st i).func := by
  unfold propagateCopy
  simp only
  split
  · next out src rest hout hins =>
    split
    · exact h
    · next hcopy =>
      simp only [not_or, Bool.not_eq_false] at hcopy
      have hsrc : src ∈ (st.func.op i).inputs := by
        rw [hins]
        exact mem_cons_self
      have hall := recorded_foldl_propagateTo out (st.func.var out).uses st h
        (h.range i src hsrc) hcopy.2.2
      refine hall.setUses out _ fun o ho hv hc => ?_
      rw [mem_filter, Bool.or_eq_true, contains_iff_mem]
      exact ⟨hall.uses o out ho hv hc, .inr hv⟩
  · exact h

theorem recorded_copyPropagation (h : Recorded f) : Recorded (copyPropagation f).1 := by
  have hfold : ∀ (is : List ℕ) (st : CopyState), Recorded st.func →
      Recorded (is.foldl propagateCopy st).func := by
    intro is
    induction is with
    | nil => exact fun _ h => h
    | cons i is ih => exact fun st h => ih _ (recorded_propagateCopy h i)
  exact hfold _ _ h

/-- What a surviving operation reads by its use list survives. -/
theorem definition_lives {o d : ℕ} (ho : ((deadCodeElimination f).1.op o).dead = false)
    (hv : v ∈ (f.op o).inputs) (huse : o ∈ (f.var v).uses) (hdef : (f.var v).defOp = some d)
    (hd : (f.op d).dead = false) (hout : (f.op d).output = some v) :
    ((deadCodeElimination f).1.op d).dead = false := by
  obtain ⟨h, -, hend, -⟩ := swept_spec (P := fun _ => True) f (fun _ _ _ _ _ => trivial) trivial
  -- the sweep kills no definition with a live reader
  have hspared : ((swept f).func.op o).dead = false → ((swept f).func.op d).dead = false := by
    intro hlive
    by_contra hdead
    rw [Bool.not_eq_false] at hdead
    exact absurd ((h.unread d v hdead hd hout o huse).symm.trans hlive) (by decide)
  rw [deadCodeElimination_eq] at ho ⊢
  split
  · next hphis =>
    rw [if_pos hphis] at ho
    obtain ⟨-, -, hiff⟩ := dropPhase_spec h hend
    have hon : o < (withoutPhantoms f).ops.length := lt_of_input hv
    have hdn : d < (withoutPhantoms f).ops.length := lt_of_output hout
    have hmarked := (hiff o hon).mp ho
    have hlive := hspared (lives_of_marked h hend hon hmarked)
    obtain ⟨r, hr, hchain⟩ := (marked_markNeeded h hend hon).mp hmarked
    refine (hiff d hdn).mpr ((marked_markNeeded h hend hdn).mpr ⟨r, hr, hchain.tail ?_⟩)
    refine ⟨by rw [h.thins.length]; exact hdn, hlive, v, ?_, ?_⟩
    · rw [h.thins.inputs]
      exact hv
    · rw [h.thins.var]
      exact hdef
  · next hphis =>
    rw [if_neg hphis] at ho
    exact hspared ho

/-- Operations may die as long as what the others read does not. -/
theorem Recorded.thin (h : Recorded f) (hthins : Thins f g)
    (hlives : ∀ o v d, (g.op o).dead = false → v ∈ (f.op o).inputs → f.isConst v = false →
      (f.var v).defOp = some d → (g.op d).dead = false) : Recorded g := by
  have hvar : ∀ v, g.var v = f.var v := hthins.var
  have hlive : ∀ o, (g.op o).dead = false → (f.op o).dead = false := fun o => hthins.lives
  have hinputs : ∀ o, (g.op o).inputs = (f.op o).inputs := hthins.inputs
  have houtput : ∀ o, (g.op o).output = (f.op o).output := hthins.output
  have hconst : ∀ v, g.isConst v = f.isConst v := fun v =>
    isConst_congr (congrArg SsaVarnode.data (hvar v))
  have hkey : ∀ v, valueKey g v = valueKey f v := fun v => valueKey_congr (hvar v)
  refine ⟨fun o v hv => ?_, fun o v ho hv hc => ?_, fun o v d ho hv hc hd => ?_,
    fun d w hd hw => ?_, fun d e w x hd he hw hx hk => ?_⟩
  · rw [hinputs] at hv
    rw [hthins.varnodes]
    exact h.range o v hv
  · rw [hinputs] at hv
    rw [hconst] at hc
    rw [hvar]
    exact h.uses o v (hlive o ho) hv hc
  · rw [hinputs] at hv
    rw [hconst] at hc
    rw [hvar] at hd
    rw [houtput]
    exact ⟨hlives o v d ho hv hc hd, (h.defined o v d (hlive o ho) hv hc hd).2⟩
  · rw [houtput] at hw
    rw [hvar]
    exact h.output d w (hlive d hd) hw
  · rw [houtput] at hw hx
    rw [hkey, hkey] at hk
    exact h.distinct d e w x (hlive d hd) (hlive e he) hw hx hk

theorem recorded_deadCodeElimination (h : Recorded f) : Recorded (deadCodeElimination f).1 := by
  have hthins := (thins_deadCodeElimination f).1
  have hrec : Recorded (withoutPhantoms f) := ⟨h.range, h.uses, h.defined, h.output, h.distinct⟩
  refine hrec.thin hthins fun o v d ho hv hc hd => ?_
  obtain ⟨hdlive, hdout⟩ := h.defined o v d (hthins.lives ho) hv hc hd
  exact definition_lives ho hv (h.uses o v (hthins.lives ho) hv hc) hd hdlive hdout

end UseLists
