import Reargo.EdgeThreading

/-!
# Merged tests decide as the original graph

Every merged decision follows the original graph through empty blocks and merged
tests to a block that is still there.
-/
namespace ShortCircuitMerge

open PcodeModel OrderedMap ControlFlow SsaModel ShortCircuits EdgeThreading List Option

structure Merge (test : ℕ → Bool) (st st' : MergeState) (a b s y : ℕ) (na nb : Bool) : Prop where
  is_test : test b = true
  ne_entry : b ≠ st.cfg.entryBlock
  preds_inner : st.cfg.preds b = [a]
  ne : a ≠ b
  succs_outer : st.cfg.succs a = if na then [b, s] else [s, b]
  shared_ne : s ≠ b
  succs_inner : st.cfg.succs b = if nb then [y, s] else [s, y]
  arms_ne : s ≠ y
  result : st' = collapse st a b s y na nb

variable {b : ℕ} {test : ℕ → Bool} {x : ℕ}

theorem onlyPredecessor_eq_some {cfg : ControlFlowGraph} {a : ℕ}
    (h : onlyPredecessor cfg b = some a) : cfg.preds b = [a] := by
  unfold onlyPredecessor at h
  split at h
  · next x hx =>
    rw [hx, some.inj h]
  · cases h

theorem outerArm_eq_some {s : ℕ} {na : Bool} {succs : List ℕ} (htwo : two succs = true)
    (h : outerArm b succs = some (s, na)) : succs = (if na then [b, s] else [s, b]) ∧ s ≠ b := by
  unfold outerArm at h
  split at h
  · next p q =>
    simp only [two, decide_eq_true_eq] at htwo
    split at h
    · next hp =>
      split at h
      · next hq =>
        obtain ⟨rfl, rfl⟩ := Prod.mk.inj (some.inj h)
        exact ⟨by rw [hq]; rfl, hp⟩
      · cases h
    · next hp =>
      obtain ⟨rfl, rfl⟩ := Prod.mk.inj (some.inj h)
      rw [not_not] at hp
      exact ⟨by rw [hp]; rfl, fun heq => htwo (hp.trans heq.symm)⟩
  · cases h

theorem innerArm_eq_some {s y : ℕ} {nb : Bool} {succs : List ℕ} (htwo : two succs = true)
    (h : innerArm s succs = some (y, nb)) :
    succs = (if nb then [y, s] else [s, y]) ∧ s ≠ y := by
  unfold innerArm at h
  split at h
  · next p q =>
    simp only [two, decide_eq_true_eq] at htwo
    split at h
    · next hp =>
      obtain ⟨rfl, rfl⟩ := Prod.mk.inj (some.inj h)
      exact ⟨by rw [hp]; rfl, fun heq => htwo (hp.trans heq)⟩
    · split at h
      · next hq =>
        obtain ⟨rfl, rfl⟩ := Prod.mk.inj (some.inj h)
        exact ⟨by rw [hq]; rfl, fun heq => htwo (heq.symm.trans hq.symm)⟩
      · cases h
  · cases h

theorem mergeAt_cases {st st' : MergeState}
    (h : mergeAt test st b = some st') : ∃ a s y na nb, Merge test st st' a b s y na nb := by
  unfold mergeAt at h
  simp only [bind_eq_bind, bind_eq_some_iff, guard_eq_some', some.injEq, exists_const] at h
  obtain ⟨a, ha, ⟨htest, hentry, hne⟩, ⟨htwoA, htwoB⟩, -, ⟨s, na⟩, hs, ⟨y, nb⟩, hy, rfl⟩ := h
  obtain ⟨hsa, hsb⟩ := outerArm_eq_some htwoA hs
  obtain ⟨hsb', hsy⟩ := innerArm_eq_some htwoB hy
  exact ⟨a, s, y, na, nb, htest, hentry, onlyPredecessor_eq_some ha, hne, hsa, hsb, hsb', hsy, rfl⟩

section OneMerge

variable {test : ℕ → Bool} {st st' : MergeState} {a b s y : ℕ} {na nb : Bool}

theorem mem_arms {n : Bool} {p q : ℕ} : x ∈ (if n then [p, q] else [q, p]) ↔ x = q ∨ x = p := by
  cases n
  · simp
  · simp [or_comm]

variable (hm : Merge test st st' a b s y na nb) (hwf : st.cfg.WellFormed)
include hm hwf

theorem Merge.other_ne : y ≠ b := by
  rintro rfl
  have hmem : y ∈ st.cfg.succs y := by
    rw [hm.succs_inner, mem_arms]
    exact .inr rfl
  have hpred := (hwf.mirror y y).mpr hmem
  rw [hm.preds_inner, mem_singleton] at hpred
  exact hm.ne hpred.symm

theorem Merge.lt_length :
    a < st.cfg.blocks.length ∧ b < st.cfg.blocks.length ∧ s < st.cfg.blocks.length ∧
      y < st.cfg.blocks.length := by
  have hb : b ∈ st.cfg.succs a := by
    rw [hm.succs_outer, mem_arms]
    exact .inr rfl
  have hs : s ∈ st.cfg.succs b := by
    rw [hm.succs_inner, mem_arms]
    exact .inl rfl
  have hy : y ∈ st.cfg.succs b := by
    rw [hm.succs_inner, mem_arms]
    exact .inr rfl
  exact ⟨lt_of_mem_succs hb, lt_of_mem_succs hs, hwf.succ_lt _ _ hs, hwf.succ_lt _ _ hy⟩

theorem Merge.succs_eq (x : ℕ) :
    st'.cfg.succs x = if x = b then [] else if x = a then [s, y] else st.cfg.succs x := by
  obtain ⟨ha, hb, -, -⟩ := hm.lt_length hwf
  rw [hm.result]
  simp only [collapse, succs_mapPredecessors]
  rw [succs_setSuccessors _ (by simpa using hb), succs_setSuccessors _ ha]

theorem Merge.preds_eq (x : ℕ) : st'.cfg.preds x = if x = b then []
      else if x = s then (st.cfg.preds s).filter (· ≠ b)
      else if x = y then (st.cfg.preds y).map fun p => if p = b then a else p
      else st.cfg.preds x := by
  obtain ⟨-, hb, hs, hy⟩ := hm.lt_length hwf
  have hyb := hm.other_ne hwf
  rw [hm.result]
  simp only [collapse]
  rw [preds_mapPredecessors _ (by simpa using hy), preds_mapPredecessors _ (by simpa using hs),
    preds_mapPredecessors _ (by simpa using hb)]
  simp only [preds_setSuccessors]
  by_cases hxb : x = b
  · simp [hxb, hm.shared_ne.symm, hyb.symm]
  · by_cases hxs : x = s
    · simp [hxs, hm.arms_ne, hm.shared_ne]
    · by_cases hxy : x = y
      · simp [hxy, hm.arms_ne.symm, hyb]
      · simp [hxb, hxs, hxy]

theorem Merge.mem_preds (x z : ℕ) : x ∈ st'.cfg.preds z ↔ z ∈ st'.cfg.succs x := by
  have hyb := hm.other_ne hwf
  have hmir := hwf.mirror
  have hsuccA : ∀ z, z ∈ st.cfg.succs a ↔ z = s ∨ z = b := fun z => by
    rw [hm.succs_outer, mem_arms]
  have hsuccB : ∀ z, z ∈ st.cfg.succs b ↔ z = s ∨ z = y := fun z => by
    rw [hm.succs_inner, mem_arms]
  have hpredB : ∀ x, b ∈ st.cfg.succs x ↔ x = a := fun x => by
    rw [← hmir, hm.preds_inner, mem_singleton]
  rw [hm.preds_eq hwf, hm.succs_eq hwf]
  by_cases hzb : z = b
  · subst hzb
    rw [if_pos rfl]
    refine iff_of_false not_mem_nil ?_
    split
    · exact not_mem_nil
    · split
      · simp [hm.shared_ne.symm, hyb.symm]
      · next hxa => exact fun hmem => hxa ((hpredB x).mp hmem)
  · rw [if_neg hzb]
    by_cases hzs : z = s
    · subst hzs
      rw [if_pos rfl, mem_filter, decide_eq_true_eq, hmir]
      by_cases hxb : x = b
      · simp [hxb]
      · by_cases hxa : x = a
        · simp [hxa, hsuccA, hm.ne]
        · simp [hxa, hxb]
    · rw [if_neg hzs]
      by_cases hzy : z = y
      · subst hzy
        rw [if_pos rfl, List.mem_map]
        constructor
        · rintro ⟨p, hp, rfl⟩
          split
          · next hpb =>
            split
            · next hab => exact absurd hab hm.ne
            · simp
          · next hpb => split <;> simp_all
        · intro hmem
          split at hmem
          · exact absurd hmem not_mem_nil
          · next hxb =>
            split at hmem
            · next hxa => exact ⟨b, (hmir _ _).mpr ((hsuccB z).mpr (.inr rfl)), by simp [hxa]⟩
            · exact ⟨x, (hmir _ _).mpr hmem, by simp [hxb]⟩
      · rw [if_neg hzy, hmir]
        by_cases hxb : x = b
        · simp [hxb, hsuccB, hzs, hzy]
        · by_cases hxa : x = a
          · simp [hxa, hsuccA, hzs, hzb, hzy, hm.ne]
          · simp [hxa, hxb]

theorem Merge.wellFormed : st'.cfg.WellFormed := by
  obtain ⟨ha, -, hs, hy⟩ := hm.lt_length hwf
  have hlen : st'.cfg.blocks.length = st.cfg.blocks.length := by
    rw [hm.result]
    simp [collapse]
  have hentry : st'.cfg.entryBlock = st.cfg.entryBlock := by
    rw [hm.result]
    rfl
  refine ⟨fun _ => ?_, fun x z hz => ?_, hm.mem_preds hwf, fun x => ?_⟩
  · rw [hlen, hentry]
    exact hwf.entry_lt (length_pos_iff.mp (by omega))
  · rw [hm.succs_eq hwf] at hz
    rw [hlen]
    split at hz
    · exact absurd hz not_mem_nil
    · split at hz
      · rcases mem_cons.mp hz with rfl | hz
        · exact hs
        · rw [mem_singleton] at hz
          exact hz ▸ hy
      · exact hwf.succ_lt x z hz
  · rw [hm.preds_eq hwf]
    split
    · exact nodup_nil
    · split
      · exact (hwf.preds_nodup s).filter _
      · split
        · -- `a` was not a predecessor of `y`, so renaming `b` to `a` makes no duplicate
          have hay : a ∉ st.cfg.preds y := by
            rw [hwf.mirror, hm.succs_outer, mem_arms]
            rintro (h | h)
            · exact hm.arms_ne h.symm
            · exact hm.other_ne hwf h
          refine (hwf.preds_nodup y).map_on fun p hp q hq hpq => ?_
          split at hpq <;> split at hpq
          · simp_all
          · exact absurd (hpq ▸ hq) hay
          · exact absurd (hpq ▸ hp) hay
          · exact hpq
        · exact hwf.preds_nodup x

theorem Merge.preds_ne_nil (h : st'.cfg.preds x ≠ []) : st.cfg.preds x ≠ [] := by
  rw [hm.preds_eq hwf] at h
  split at h
  · exact absurd rfl h
  · split at h
    · next hx =>
      intro hnil
      rw [← hx, hnil] at h
      exact h rfl
    · split at h
      · next hx =>
        intro hnil
        rw [← hx, hnil] at h
        exact h rfl
      · exact h

end OneMerge

/-- The block has an incoming edge, is the entry, or had no predecessors at first. -/
def Kept (src cfg : ControlFlowGraph) (b : ℕ) : Prop :=
  b = src.entryBlock ∨ src.preds b = [] ∨ cfg.preds b ≠ []

/-- Empty blocks, and tests that are no longer there. -/
def Passed (src : ControlFlowGraph) (empty test : ℕ → Bool) (cfg : ControlFlowGraph) (m : ℕ) :
    Prop :=
  empty m = true ∨ (test m = true ∧ ¬ Kept src cfg m)

/-- The next block by the original conditions `σ` and the chosen case `κ` of a table. -/
def srcNext (src : ControlFlowGraph) (σ : ℕ → Bool) (κ : ℕ → ℕ) (b : ℕ) : Option ℕ :=
  branch (σ b) (κ b) (src.succs b)

/-- The next block by the block's condition tree. -/
def mergedNext (st : MergeState) (σ : ℕ → Bool) (κ : ℕ → ℕ) (b : ℕ) : Option ℕ :=
  branch ((condOf st.conds b).eval σ) (κ b) (st.cfg.succs b)

structure Faithful (src : ControlFlowGraph) (empty test : ℕ → Bool) (st : MergeState) : Prop where
  wellFormed : st.cfg.WellFormed
  entry : st.cfg.entryBlock = src.entryBlock
  had_preds : ∀ b, st.cfg.preds b ≠ [] → src.preds b ≠ []
  follows : ∀ σ κ b t, mergedNext st σ κ b = some t →
    Follows (srcNext src σ κ) (Passed src empty test st.cfg) b t
  stops : ∀ b, Kept src st.cfg b → ∀ σ κ, (mergedNext st σ κ b = none ↔ srcNext src σ κ b = none)

theorem eval_armCond (σ : ℕ → Bool) (n : Bool) (c : Cond) :
    (armCond n c).eval σ = (n ^^ c.eval σ) := by
  cases n
  · simp [armCond]
  · simp [armCond, eval_negate]

theorem branch_arms (σ : ℕ → Bool) (k : ℕ) (n : Bool) (c : Cond) (s y : ℕ) :
    branch (c.eval σ) k (if n then [y, s] else [s, y]) =
      some (if (armCond n c).eval σ then s else y) := by
  rw [eval_armCond]
  cases n <;> cases c.eval σ <;> rfl

section Invariant

variable {src : ControlFlowGraph} {empty test : ℕ → Bool} {st st' : MergeState}
  {a b s y : ℕ} {na nb : Bool}

section

variable (hm : Merge test st st' a b s y na nb)

include hm

theorem condOf_merge : condOf st'.conds a =
        (armCond na (condOf st.conds a)).orOf (armCond nb (condOf st.conds b)) ∧
      ∀ x, x ≠ a → x ≠ b → condOf st'.conds x = condOf st.conds x := by
  rw [hm.result]
  constructor
  · simp [condOf, collapse, hm.ne]
  · intro x hxa hxb
    simp [condOf, collapse, hxa, hxb]

section

variable (hwf : st.cfg.WellFormed) (σ : ℕ → Bool) (κ : ℕ → ℕ)

include hwf σ κ

theorem mergedNext_outer :
    mergedNext st' σ κ a = some (if (armCond na (condOf st.conds a)).eval σ then s
        else if (armCond nb (condOf st.conds b)).eval σ then s else y) := by
  unfold mergedNext
  rw [hm.succs_eq hwf, if_neg hm.ne, if_pos rfl, (condOf_merge hm).1, eval_orOf]
  cases (armCond na (condOf st.conds a)).eval σ
  · cases (armCond nb (condOf st.conds b)).eval σ <;> rfl
  · rfl

theorem mergedNext_other (hxa : x ≠ a) (hxb : x ≠ b) :
    mergedNext st' σ κ x = mergedNext st σ κ x := by
  unfold mergedNext
  rw [hm.succs_eq hwf, if_neg hxb, if_neg hxa, (condOf_merge hm).2 x hxa hxb]

theorem mergedNext_inner : mergedNext st' σ κ b = none := by
  unfold mergedNext
  rw [hm.succs_eq hwf, if_pos rfl]
  rfl

end

theorem Kept.of_merge (hwf : st.cfg.WellFormed) (h : Kept src st'.cfg x) : Kept src st.cfg x := by
  rcases h with h | h | h
  · exact .inl h
  · exact .inr (.inl h)
  · exact .inr (.inr (hm.preds_ne_nil hwf h))

end

section

variable (hf : Faithful src empty test st) (hm : Merge test st st' a b s y na nb)

include hf hm

theorem not_kept_inner : ¬ Kept src st'.cfg b := by
  have hpreds : st.cfg.preds b ≠ [] := by
    rw [hm.preds_inner]
    exact cons_ne_nil _ _
  rintro (h | h | h)
  · exact hm.ne_entry (h.trans hf.entry.symm)
  · exact hf.had_preds b hpreds h
  · rw [hm.preds_eq hf.wellFormed, if_pos rfl] at h
    exact h rfl

theorem Faithful.merge : Faithful src empty test st' := by
  have hwf := hf.wellFormed
  have hpassed : ∀ m, Passed src empty test st.cfg m → Passed src empty test st'.cfg m := by
    rintro m (h | ⟨ht, hk⟩)
    · exact .inl h
    · exact .inr ⟨ht, fun hk' => hk (hk'.of_merge hm hwf)⟩
  have hinner : Passed src empty test st'.cfg b := .inr ⟨hm.is_test, not_kept_inner hf hm⟩
  refine ⟨hm.wellFormed hwf, ?_, fun x hx => hf.had_preds x (hm.preds_ne_nil hwf hx), ?_, ?_⟩
  · rw [hm.result]
    exact hf.entry
  · intro σ κ x t hx
    by_cases hxb : x = b
    · rw [hxb, mergedNext_inner hm hwf] at hx
      cases hx
    by_cases hxa : x = a
    · rw [hxa, mergedNext_outer hm hwf, some.injEq] at hx
      have houter : mergedNext st σ κ a =
          some (if (armCond na (condOf st.conds a)).eval σ then s else b) := by
        rw [mergedNext, hm.succs_outer, branch_arms]
      have hin : mergedNext st σ κ b =
          some (if (armCond nb (condOf st.conds b)).eval σ then s else y) := by
        rw [mergedNext, hm.succs_inner, branch_arms]
      rw [hxa]
      by_cases hca : (armCond na (condOf st.conds a)).eval σ = true
      · rw [if_pos hca] at hx houter
        exact hx ▸ (hf.follows σ κ a s houter).mono hpassed
      · rw [if_neg hca] at hx houter
        have hfirst := (hf.follows σ κ a b houter).mono hpassed
        exact hfirst.trans hinner (hx ▸ (hf.follows σ κ b _ hin).mono hpassed)
    · rw [mergedNext_other hm hwf σ κ hxa hxb] at hx
      exact (hf.follows σ κ x t hx).mono hpassed
  · intro x hk σ κ
    have hxb : x ≠ b := fun h => not_kept_inner hf hm (h ▸ hk)
    have hbefore := hf.stops x (hk.of_merge hm hwf) σ κ
    by_cases hxa : x = a
    · subst hxa
      have hsome : mergedNext st σ κ x ≠ none := by
        rw [mergedNext, hm.succs_outer, branch_arms]
        exact some_ne_none _
      rw [mergedNext_outer hm hwf]
      exact iff_of_false (some_ne_none _) (fun h => hsome (hbefore.mpr h))
    · rw [mergedNext_other hm hwf σ κ hxa hxb]
      exact hbefore

end

theorem mergeRounds_induction {P : MergeState → Prop}
    (hstep : ∀ st st' b, P st → mergeAt test st b = some st' → P st') (fuel : ℕ)
    (st : MergeState) (h : P st) : P (mergeRounds test fuel st) := by
  have hround : ∀ (bs : List ℕ) (acc : MergeState × Bool), P acc.1 →
      P (bs.foldl (ShortCircuits.mergeStep test) acc).1 := by
    intro bs
    induction bs with
    | nil => exact fun acc hacc => hacc
    | cons b bs ih =>
      intro acc hacc
      refine ih _ ?_
      unfold ShortCircuits.mergeStep
      split
      · next st hst => exact hstep _ _ _ hacc hst
      · exact hacc
  induction fuel generalizing st with
  | zero => exact h
  | succ fuel ih =>
    rw [mergeRounds]
    split
    · exact ih _ (hround _ _ h)
    · exact hround _ _ h

end Invariant

section Rounds

variable {test : ℕ → Bool} {g : BasicBlock → BasicBlock} {f : BasicBlock → ℕ}

theorem sum_map_modify_le (hg : ∀ x, f (g x) ≤ f x) (blocks : List BasicBlock) (i : ℕ) :
    ((blocks.modify i g).map f).sum ≤ (blocks.map f).sum := by
  induction blocks generalizing i with
  | nil => simp
  | cons x xs ih =>
    cases i with
    | zero => simpa using hg x
    | succ i => simpa using ih i

theorem sum_map_modify_lt {blocks : List BasicBlock} {i : ℕ}
    (hi : i < blocks.length) (hg : f (g (blockAt blocks i)) < f (blockAt blocks i)) :
    ((blocks.modify i g).map f).sum < (blocks.map f).sum := by
  induction blocks generalizing i with
  | nil => cases hi
  | cons x xs ih =>
    cases i with
    | zero => simpa [blockAt] using hg
    | succ i =>
      simp only [modify_succ_cons, map_cons, sum_cons]
      exact Nat.add_lt_add_left (ih (Nat.lt_of_succ_lt_succ hi) hg) _

theorem predCount_setSuccessors (cfg : ControlFlowGraph) (b : ℕ) (succs : List ℕ) :
    predCount (setSuccessors cfg b succs) ≤ predCount cfg := by
  refine sum_map_modify_le (f := fun blk => blk.predecessors.length) ?_ cfg.blocks b
  exact fun _ => le_refl _

theorem predCount_mapPredecessors (cfg : ControlFlowGraph) (b : ℕ) {f : List ℕ → List ℕ}
    (hf : ∀ l, (f l).length ≤ l.length) : predCount (mapPredecessors cfg b f) ≤ predCount cfg :=
  sum_map_modify_le (fun _ => hf _) cfg.blocks b

theorem predCount_lt_of_mergeAt {st st' : MergeState} (h : mergeAt test st b = some st') :
    predCount st'.cfg < predCount st.cfg := by
  obtain ⟨a, s, y, na, nb, hm⟩ := mergeAt_cases h
  have hb : b < st.cfg.blocks.length :=
    lt_of_mem_preds (hm.preds_inner ▸ mem_singleton_self a)
  have hclear : predCount (mapPredecessors (setSuccessors (setSuccessors st.cfg a [s, y]) b []) b
      fun _ => []) < predCount (setSuccessors (setSuccessors st.cfg a [s, y]) b []) := by
    refine sum_map_modify_lt (by simpa using hb) ?_
    have hpreds : (setSuccessors (setSuccessors st.cfg a [s, y]) b []).preds b = [a] := by
      simpa using hm.preds_inner
    exact lt_of_lt_of_eq Nat.zero_lt_one (congrArg List.length hpreds).symm
  rw [hm.result]
  calc predCount (collapse st a b s y na nb).cfg ≤ predCount (mapPredecessors (mapPredecessors
          (setSuccessors (setSuccessors st.cfg a [s, y]) b []) b fun _ => [])
            s (List.filter (· ≠ b))) :=
        predCount_mapPredecessors _ _ fun l => (length_map _).le
    _ ≤ predCount (mapPredecessors (setSuccessors (setSuccessors st.cfg a [s, y]) b []) b
          fun _ => []) :=
        predCount_mapPredecessors _ _ fun l => length_filter_le _ _
    _ < predCount (setSuccessors (setSuccessors st.cfg a [s, y]) b []) := hclear
    _ ≤ predCount (setSuccessors st.cfg a [s, y]) := predCount_setSuccessors _ _ _
    _ ≤ predCount st.cfg := predCount_setSuccessors _ _ _

theorem foldl_mergeStep_cases (bs : List ℕ) (acc : MergeState × Bool) :
    bs.foldl (mergeStep test) acc = acc ∨ ((bs.foldl (mergeStep test) acc).2 = true ∧
        predCount (bs.foldl (mergeStep test) acc).1.cfg < predCount acc.1.cfg) := by
  induction bs generalizing acc with
  | nil => exact .inl rfl
  | cons b bs ih =>
    rw [foldl_cons]
    cases hst : mergeAt test acc.1 b with
    | none =>
      have hstep : mergeStep test acc b = acc := by
        unfold mergeStep
        rw [hst]
      rw [hstep]
      exact ih acc
    | some st =>
      have hstep : mergeStep test acc b = (st, true) := by
        unfold mergeStep
        rw [hst]
      have hlt := predCount_lt_of_mergeAt hst
      rw [hstep]
      rcases ih (st, true) with heq | ⟨htrue, hlt'⟩
      · rw [heq]
        exact .inr ⟨rfl, hlt⟩
      · exact .inr ⟨htrue, hlt'.trans hlt⟩

/-- A pass that merged nothing tried every block on the same graph. -/
theorem mergeAt_of_foldl {st : MergeState} (bs : List ℕ)
    (h : (bs.foldl (mergeStep test) (st, false)).2 = false) {b : ℕ} (hb : b ∈ bs) :
    mergeAt test st b = none := by
  induction bs with
  | nil => cases hb
  | cons c bs ih =>
    rw [foldl_cons, mergeStep] at h
    cases hst : mergeAt test st c with
    | none =>
      rw [hst] at h
      rcases mem_cons.mp hb with rfl | hb
      · exact hst
      · exact ih h hb
    | some st' =>
      -- once something is merged the mark stays
      rw [hst] at h
      have hcases : bs.foldl (mergeStep test) (st', true) = _ ∨ _ := foldl_mergeStep_cases bs _
      rcases hcases with heq | ⟨htrue, -⟩
      · rw [heq] at h
        cases h
      · rw [htrue] at h
        cases h

theorem mergeRounds_settled (fuel : ℕ) (st : MergeState) (h : predCount st.cfg < fuel) :
    mergeRound test (mergeRounds test fuel st) = (mergeRounds test fuel st, false) := by
  induction fuel generalizing st with
  | zero => omega
  | succ fuel ih =>
    rw [mergeRounds]
    rcases foldl_mergeStep_cases (range st.cfg.blocks.length) (st, false) with
      heq | ⟨htrue, hlt⟩
    · have hround : mergeRound test st = (st, false) := heq
      simp only [hround, Bool.false_eq_true, if_false]
    · have htrue' : (mergeRound test st).2 = true := htrue
      simp only [htrue', if_true]
      refine ih _ ?_
      have hlt' : predCount (mergeRound test st).1.cfg < predCount st.cfg := hlt
      omega

end Rounds

section Pass

variable {func : SsaFunction} {sc : MergeState}

theorem mergeShortCircuits_eq_some (h : mergeShortCircuits func = some sc) :
    sc = mergeRounds (isTestBlock func)
      (predCount (threadEmptyBlocks (cloneEdges func.cfg) (isEmptyBlock func)) + 1)
      ⟨threadEmptyBlocks (cloneEdges func.cfg) (isEmptyBlock func), fun _ => none⟩ := by
  unfold mergeShortCircuits at h
  simp only at h
  split at h
  · exact (some.inj h).symm
  · cases h

/-- The loop, which has no bound in the code, has ended: a further round changes nothing, and
no block can be merged with a following test. -/
theorem mergeShortCircuits_settled (h : mergeShortCircuits func = some sc) :
    mergeRound (isTestBlock func) sc = (sc, false) ∧
      ∀ b < sc.cfg.blocks.length, mergeAt (isTestBlock func) sc b = none := by
  have hround : mergeRound (isTestBlock func) sc = (sc, false) := by
    rw [mergeShortCircuits_eq_some h]
    exact mergeRounds_settled _ _ (Nat.lt_succ_self _)
  exact ⟨hround, fun b hb =>
    mergeAt_of_foldl _ (congrArg Prod.snd hround) (mem_range.mpr hb)⟩

theorem wellFormed_cloneEdges {cfg : ControlFlowGraph} (h : cfg.WellFormed) :
    (cloneEdges cfg).WellFormed := by
  refine ⟨fun hne => ?_, fun b s hs => ?_, fun b s => ?_, fun b => ?_⟩
  · rw [length_cloneEdges]
    exact h.entry_lt fun hnil => hne (by rw [cloneEdges, hnil]; rfl)
  · rw [length_cloneEdges]
    exact h.succ_lt b s (by simpa using hs)
  · simpa using h.mirror b s
  · simpa using h.preds_nodup b

theorem emptyGoOn_isEmptyBlock : EmptyGoOn (cloneEdges func.cfg) (isEmptyBlock func) := by
  intro b hb
  rw [succs_cloneEdges]
  unfold isEmptyBlock at hb
  cases hs : func.cfg.succs b with
  | nil => simp [hs] at hb
  | cons s l =>
    cases l with
    | nil => exact ⟨s, rfl⟩
    | cons t l => simp [hs] at hb

section

variable (cfg : ControlFlowGraph) (empty : ℕ → Bool)

include cfg empty

theorem resolve_cloneEdges (steps b : ℕ) :
    resolve (cloneEdges cfg) empty steps b = resolve cfg empty steps b := by
  induction steps generalizing b with
  | zero => rfl
  | succ steps ih => rw [resolve, resolve, succs_cloneEdges, ih]

theorem noneThreaded_cloneEdges : NoneThreaded (cloneEdges cfg) empty ↔ NoneThreaded cfg empty := by
  unfold NoneThreaded
  simp only [resolve_cloneEdges, succs_cloneEdges, length_cloneEdges]
  rfl

theorem leads_cloneEdges : Leads (cloneEdges cfg) empty = Leads cfg empty := by
  unfold Leads
  simp only [succs_cloneEdges]

end

/-- No second root of the graph goes anywhere. -/
def RootsStop (cfg : ControlFlowGraph) : Prop :=
  ∀ b, b ≠ cfg.entryBlock → cfg.preds b = [] → cfg.succs b = []

theorem faithful_threaded (hwf : func.cfg.WellFormed)
    (hroots : NoneThreaded func.cfg (isEmptyBlock func) ∨ RootsStop func.cfg)
    (test : ℕ → Bool) :
    Faithful func.cfg (isEmptyBlock func) test
      ⟨threadEmptyBlocks (cloneEdges func.cfg) (isEmptyBlock func), fun _ => none⟩ := by
  have hres := threadResult_threadEmptyBlocks (wellFormed_cloneEdges hwf) emptyGoOn_isEmptyBlock
  have hleads := hres.leads
  have hgoes := hres.goesOn
  simp only [succs_cloneEdges, leads_cloneEdges] at hleads hgoes
  have hnext : ∀ σ κ b, mergedNext
      ⟨threadEmptyBlocks (cloneEdges func.cfg) (isEmptyBlock func), fun _ => none⟩ σ κ b =
        branch (σ b) (κ b)
          ((threadEmptyBlocks (cloneEdges func.cfg) (isEmptyBlock func)).succs b) := by
    intro σ κ b
    simp [mergedNext, condOf, Cond.eval]
  refine ⟨hres.wellFormed, hres.entry, fun b hb => ?_, fun σ κ b t ht => ?_, fun b hk σ κ => ?_⟩
  · obtain ⟨p, hp⟩ := exists_mem_of_ne_nil _ hb
    obtain ⟨c, k, hbr⟩ := exists_branch_of_mem ((hres.wellFormed.mirror p b).mp hp)
    obtain ⟨s, hs, hlead⟩ := hleads p c k b hbr
    obtain ⟨x, hx⟩ := mem_succs_of_leads (mem_of_branch hs) hlead
    exact ne_nil_of_mem ((hwf.mirror x b).mpr hx)
  · rw [hnext] at ht
    obtain ⟨s, hs, hlead⟩ := hleads b _ _ t ht
    exact (follows_of_leads hs hlead).mono fun m hm => .inl hm
  · rw [hnext]
    unfold srcNext
    by_cases hentry : b = func.cfg.entryBlock
    · exact hgoes b (.inl hentry) _ _
    rcases hk with hk | hk | hk
    · exact absurd hk hentry
    · rcases hroots with hnone | hstop
      · rw [threadEmptyBlocks_of_noneThreaded ((noneThreaded_cloneEdges _ _).mpr hnone),
          succs_cloneEdges]
      · -- the root stops, so the threaded graph has no arm for it either
        rw [hstop b hentry hk]
        refine iff_of_true ?_ rfl
        rw [eq_none_iff_forall_ne_some]
        intro t ht
        obtain ⟨s, hs, -⟩ := hleads b _ _ t ht
        rw [hstop b hentry hk] at hs
        cases hs
    · exact hgoes b (.inr hk) _ _

/-- Blocks that are still there decide as the original graph, seen through empty blocks
and merged tests; predecessor lists mirror successor lists. -/
structure Preserves (func : SsaFunction) (sc : MergeState) : Prop where
  mirrored : ∀ b s, b ∈ sc.cfg.preds s ↔ s ∈ sc.cfg.succs b
  stops : ∀ b, Kept func.cfg sc.cfg b → ∀ σ κ,
    (mergedNext sc σ κ b = none ↔ srcNext func.cfg σ κ b = none)
  follows : ∀ b, Kept func.cfg sc.cfg b → ∀ σ κ t, mergedNext sc σ κ b = some t →
    Kept func.cfg sc.cfg t ∧ Follows (srcNext func.cfg σ κ)
        (Passed func.cfg (isEmptyBlock func) (isTestBlock func) sc.cfg) b t

theorem preserves_of_faithful (htest : test = isTestBlock func)
    (h : Faithful func.cfg (isEmptyBlock func) test sc) : Preserves func sc := by
  subst htest
  refine ⟨h.wellFormed.mirror, h.stops, fun b _ σ κ t ht => ⟨.inr (.inr ?_), ?_⟩⟩
  · exact ne_nil_of_mem ((h.wellFormed.mirror b t).mpr (mem_of_branch ht))
  · exact h.follows σ κ b t ht

theorem not_preserves_of_root (hwf : func.cfg.WellFormed) (h : mergeShortCircuits func = some sc)
    (hthread : ¬ NoneThreaded func.cfg (isEmptyBlock func)) (hentry : b ≠ func.cfg.entryBlock)
    (hroot : func.cfg.preds b = []) (hsucc : func.cfg.succs b ≠ []) : ¬ Preserves func sc := by
  intro hpres
  have hstart : (threadEmptyBlocks (cloneEdges func.cfg) (isEmptyBlock func)).succs b = [] :=
    succs_root_of_threaded (wellFormed_cloneEdges hwf) emptyGoOn_isEmptyBlock
      (fun hc => hthread ((noneThreaded_cloneEdges _ _).mp hc)) hentry (by simpa using hroot)
  -- a merge never gives a block without successors any
  have hkeep : ∀ st st' x, st.cfg.WellFormed ∧ st.cfg.succs b = [] →
      mergeAt (isTestBlock func) st x = some st' →
      st'.cfg.WellFormed ∧ st'.cfg.succs b = [] := by
    rintro st st' x ⟨hw, hnil⟩ hst
    obtain ⟨a, s, y, na, nb, hm⟩ := mergeAt_cases hst
    refine ⟨hm.wellFormed hw, ?_⟩
    have hba : b ≠ a := by
      rintro rfl
      have hsuccs := hm.succs_outer
      rw [hnil] at hsuccs
      cases na <;> cases hsuccs
    rw [hm.succs_eq hw, if_neg hba, hnil, ite_self]
  have hnil : sc.cfg.succs b = [] := by
    rw [mergeShortCircuits_eq_some h]
    refine (mergeRounds_induction hkeep _ _ ⟨?_, hstart⟩).2
    exact wellFormed_threadEmptyBlocks (wellFormed_cloneEdges hwf) emptyGoOn_isEmptyBlock
  obtain ⟨s, hs⟩ := exists_mem_of_ne_nil _ hsucc
  obtain ⟨c, k, hbr⟩ := exists_branch_of_mem hs
  have hnone : mergedNext sc (fun _ => c) (fun _ => k) b = none := by
    unfold mergedNext
    rw [hnil]
    rfl
  have hsrc := (hpres.stops b (.inr (.inl hroot)) _ _).mp hnone
  rw [srcNext, hbr] at hsrc
  cases hsrc

/-- The merged graph decides as the original one exactly when no edge is threaded or no
block besides the entry lacks predecessors and goes on. -/
theorem mergeShortCircuits_preserves_iff (func : SsaFunction) (sc : MergeState)
    (hwf : func.cfg.WellFormed) (h : mergeShortCircuits func = some sc) :
    Preserves func sc ↔ NoneThreaded func.cfg (isEmptyBlock func) ∨ RootsStop func.cfg := by
  constructor
  · intro hpres
    by_contra hcon
    rw [not_or] at hcon
    obtain ⟨hthread, hstop⟩ := hcon
    simp only [RootsStop, not_forall] at hstop
    obtain ⟨b, hentry, hroot, hsucc⟩ := hstop
    exact not_preserves_of_root hwf h hthread hentry hroot hsucc hpres
  · intro hcond
    refine preserves_of_faithful rfl ?_
    rw [mergeShortCircuits_eq_some h]
    refine mergeRounds_induction ?_ _ _ (faithful_threaded hwf hcond _)
    intro st st' b hf hst
    obtain ⟨a, s, y, na, nb, hm⟩ := mergeAt_cases hst
    exact hf.merge hm

end Pass

def edgeBlock (b : ℕ) (successors : List ℕ) : BasicBlock := ⟨b, 0, [], successors, []⟩

/-- `if (a || b)`: block 0 tests and goes to 2 or 1, block 1 tests and goes to 2 or 3. -/
def orTests : SsaFunction where
  varnodes := [⟨⟨SpaceId.const, 0, 8⟩, 0, none, [0, 1]⟩, ⟨⟨SpaceId.register, 0x206, 1⟩, 0, none, [0, 1]⟩]
  ops := [⟨.cBranch, none, [0, 1], 0, 0, false⟩, ⟨.cBranch, none, [0, 1], 1, 0, false⟩,
    ⟨.return, none, [], 2, 0, false⟩, ⟨.return, none, [], 3, 0, false⟩]
  cfg := ⟨linkPreds [edgeBlock 0 [2, 1], edgeBlock 1 [2, 3], edgeBlock 2 [], edgeBlock 3 []], 0, [],
    OrdMap.empty⟩
  phantomWrites := []
  phantomRegs := []

theorem mergeShortCircuits_preserves_or_tests :
    ∃ sc, mergeShortCircuits orTests = some sc ∧ sc.cfg.succs 0 = [2, 3] ∧
      Preserves orTests sc := by
  have hsome : (mergeShortCircuits orTests).isSome = true := by decide
  obtain ⟨sc, hsc⟩ := isSome_iff_exists.mp hsome
  have hwf : orTests.cfg.WellFormed := wellFormed_linkPreds_of_all (by decide) (by decide)
  refine ⟨sc, hsc, ?_, (mergeShortCircuits_preserves_iff orTests sc hwf hsc).mpr (.inr ?_)⟩
  · rw [mergeShortCircuits_eq_some hsc]
    decide
  · intro b hentry hroot
    rw [eq_nil_iff_forall_not_mem]
    intro s hs
    have hb : b < 4 := lt_of_mem_succs hs
    interval_cases b <;> revert hentry hroot <;> decide

theorem mergeShortCircuits_settled_or_tests : ∃ sc, mergeShortCircuits orTests = some sc ∧
    mergeRound (isTestBlock orTests) sc = (sc, false) ∧
      ∀ b < sc.cfg.blocks.length, mergeAt (isTestBlock orTests) sc b = none := by
  have hsome : (mergeShortCircuits orTests).isSome = true := by decide
  obtain ⟨sc, hsc⟩ := isSome_iff_exists.mp hsome
  exact ⟨sc, hsc, mergeShortCircuits_settled hsc⟩

def landingPad : SsaFunction where
  varnodes := [⟨⟨SpaceId.ram, 0, 8⟩, 0, none, [0, 1]⟩]
  ops := [⟨.branch, none, [0], 1, 0, false⟩, ⟨.return, none, [], 2, 0, false⟩,
    ⟨.call, none, [0], 3, 0, false⟩]
  cfg := ⟨linkPreds [edgeBlock 0 [1], edgeBlock 1 [2], edgeBlock 2 [], edgeBlock 3 [2]], 0, [],
    OrdMap.empty⟩
  phantomWrites := []
  phantomRegs := []

theorem mergeShortCircuits_cuts_landing_pad : landingPad.cfg.WellFormed ∧
      ∃ sc, mergeShortCircuits landingPad = some sc ∧ ¬ Preserves landingPad sc := by
  have hwf : landingPad.cfg.WellFormed := wellFormed_linkPreds_of_all (by decide) (by decide)
  have hsome : (mergeShortCircuits landingPad).isSome = true := by decide
  obtain ⟨sc, hsc⟩ := isSome_iff_exists.mp hsome
  refine ⟨hwf, sc, hsc, not_preserves_of_root hwf hsc ?_ (b := 3) ?_ ?_ ?_⟩
  · intro hnone
    have hone := hnone 0 (by decide) 1 (by decide)
    revert hone
    decide
  · decide
  · decide
  · decide

end ShortCircuitMerge
