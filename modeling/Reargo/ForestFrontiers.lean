import Reargo.ForestDominance
import Reargo.PhiPlacement

/-!
# Dominance frontiers over the forest

The walk that collects a frontier stops at the parent of the block. A block that several
roots reach first is its own parent instead of the virtual root's child, so the walk up from
a back edge stops before the block itself: such a block is never in its own frontier. All
other frontiers are those of the graph with the virtual root.
-/
namespace ForestFrontiers

open ControlFlow DominatorTree Dominators Dominance SetDominators ForestDominance List

variable {cfg : ControlFlowGraph}

def ReachedBlock (cfg : ControlFlowGraph) (b : ℕ) : Prop :=
  Reached (ForestEdge cfg) (virtualRoot cfg) b

def BlockDominates (cfg : ControlFlowGraph) (x b : ℕ) : Prop :=
  Dominates (ForestEdge cfg) (virtualRoot cfg) x b

def InFrontier (cfg : ControlFlowGraph) (x b : ℕ) : Prop :=
  b ≠ cfg.entryBlock ∧ (∃ p ∈ cfg.preds b, ReachedBlock cfg p ∧ BlockDominates cfg x p) ∧
    ¬ StrictlyDominates (ForestEdge cfg) (virtualRoot cfg) x b

/-- Not a root, but reached from several roots without a block common to all ways. -/
def Joined (cfg : ControlFlowGraph) (b : ℕ) : Prop :=
  b ≠ cfg.entryBlock ∧ cfg.preds b ≠ [] ∧
    ImmediateDominator (ForestEdge cfg) (virtualRoot cfg) (virtualRoot cfg) b

def OnCycle (cfg : ControlFlowGraph) (b : ℕ) : Prop := Relation.TransGen (FlowEdge cfg) b b

def frontierOf (cfg : ControlFlowGraph) (x : ℕ) : List ℕ :=
  dominanceFrontier cfg (computeIdomForest cfg) x

/-- Sorted and without duplicates, exactly the frontier. -/
structure ExactAt (cfg : ControlFlowGraph) (x : ℕ) : Prop where
  sorted : (frontierOf cfg x).Pairwise (· < ·)
  mem_iff : ∀ b, b ∈ frontierOf cfg x ↔ InFrontier cfg x b

structure FrontiersCorrect (cfg : ControlFlowGraph) : Prop where
  exact : ∀ x, x < cfg.blocks.length → ReachedBlock cfg x → ExactAt cfg x
  own : ∀ b, b < cfg.blocks.length → Joined cfg b → OnCycle cfg b → b ∈ frontierOf cfg b

section Forest

variable (hm : cfg.Mirrored)
include hm

theorem reached_iff_ne_none {b : ℕ} (hb : b < cfg.blocks.length) :
    computeIdomForest cfg b ≠ none ↔ ReachedBlock cfg b := by
  rw [ne_eq, (forestParent_computeIdomForest hm hb).unreached, not_not]
  exact .rfl

theorem anc_iff_dominates (hne : cfg.blocks ≠ []) {x b : ℕ} (hx : x < cfg.blocks.length)
    (hb : b < cfg.blocks.length) (hreached : ReachedBlock cfg b) :
    Ancestor (computeIdomForest cfg) x b ↔ BlockDominates cfg x b := by
  obtain ⟨order, hf⟩ := computeIdomForest_isForest hm hne
  have hparent : ∀ c d, c < cfg.blocks.length → computeIdomForest cfg c = some d → d ≠ c →
      d < cfg.blocks.length ∧ ImmediateDominator (ForestEdge cfg) (virtualRoot cfg) d c := by
    intro c d hc hd hdc
    have himm := ((forestParent_computeIdomForest hm hc).other d hdc).mp hd
    exact ⟨hf.inside d (hf.closed c d hd), himm.2⟩
  constructor
  · intro h
    clear hreached
    induction h with
    | self => exact .refl x
    | @climb b d hd _ ih =>
      by_cases hdb : d = b
      · exact hdb ▸ ih (hdb ▸ hb)
      · obtain ⟨hlt, himm⟩ := hparent b d hb hd hdb
        exact (ih hlt).trans himm.strict.2
  · intro h
    induction hk : order b using Nat.strong_induction_on generalizing b with
    | _ k ih =>
      by_cases hxb : x = b
      · exact hxb ▸ .self _
      · obtain ⟨d, hd⟩ := Option.ne_none_iff_exists'.mp ((reached_iff_ne_none hm hb).mpr hreached)
        by_cases hdb : d = b
        · -- only the virtual root stands above such a block
          have himm := (forestParent_computeIdomForest hm hb).self.mp (hdb ▸ hd)
          exact absurd (himm.nearest x ⟨hxb, h⟩).eq_root hx.ne
        · obtain ⟨hlt, himm⟩ := hparent b d hb hd hdb
          have hdr := himm.strict.2.reached hreached
          have horder := (hf.lt b d hd).resolve_left hdb
          have hxd := himm.nearest x ⟨hxb, h⟩
          exact .climb hd (ih _ (hk ▸ horder) hlt hdr hxd rfl)

end Forest

theorem sorted_frontierOf (cfg : ControlFlowGraph) (x : ℕ) :
    (frontierOf cfg x).Pairwise (· < ·) := by
  unfold frontierOf dominanceFrontier
  exact List.Pairwise.filter _ pairwise_lt_range

theorem entry_notMem_frontierOf (cfg : ControlFlowGraph) (x : ℕ) :
    cfg.entryBlock ∉ frontierOf cfg x := by
  unfold frontierOf dominanceFrontier
  intro hmem
  have hrun := of_decide_eq_true (mem_filter.mp hmem).2
  unfold runners at hrun
  rw [if_pos rfl] at hrun
  exact not_mem_nil hrun

theorem mem_frontierOf_iff {x b : ℕ} (hb : b ≠ cfg.entryBlock) :
    b ∈ frontierOf cfg x ↔ b ∈ SsaBuild.frontier cfg x := by
  unfold SsaBuild.frontier frontierOf
  simp only [mem_append]
  constructor
  · exact .inl
  · rintro (h | h)
    · exact h
    · split at h
      · exact absurd (mem_singleton.mp h) hb
      · exact absurd h not_mem_nil

section Frontier

variable (hm : cfg.Mirrored)
include hm

theorem mem_frontierOf {x b : ℕ} (hx : x < cfg.blocks.length) (hb : b < cfg.blocks.length)
    (hbe : b ≠ cfg.entryBlock) :
    b ∈ frontierOf cfg x ↔ ∃ p ∈ cfg.preds b, ReachedBlock cfg p ∧ BlockDominates cfg x p ∧
      ∃ stop, computeIdomForest cfg b = some stop ∧
        ¬ (BlockDominates cfg stop p ∧ BlockDominates cfg x stop) := by
  have hne : cfg.blocks ≠ [] := ne_nil_of_length_pos (by omega)
  obtain ⟨order, hf⟩ := computeIdomForest_isForest hm hne
  have hstop : ∀ stop, computeIdomForest cfg b = some stop →
      stop < cfg.blocks.length ∧ ReachedBlock cfg stop := by
    intro stop hs
    have hn := hf.closed b stop hs
    have hlt := hf.inside stop hn
    exact ⟨hlt, (reached_iff_ne_none hm hlt).mp hn⟩
  rw [mem_frontierOf_iff hbe, PhiPlacement.mem_frontier hm hne hf]
  constructor
  · rintro ⟨p, hp, hpn, hxp, hcases⟩
    have hplt := hm.pred_lt hp
    have hpr := (reached_iff_ne_none hm hplt).mp hpn
    obtain ⟨stop, hs, hnot⟩ := hcases.resolve_left hbe
    obtain ⟨hslt, hsr⟩ := hstop stop hs
    refine ⟨p, hp, hpr, (anc_iff_dominates hm hne hx hplt hpr).mp hxp, stop, hs, ?_⟩
    rintro ⟨hsp, hxs⟩
    exact hnot ⟨(anc_iff_dominates hm hne hslt hplt hpr).mpr hsp,
      (anc_iff_dominates hm hne hx hslt hsr).mpr hxs⟩
  · rintro ⟨p, hp, hpr, hxp, stop, hs, hnot⟩
    have hplt := hm.pred_lt hp
    obtain ⟨hslt, hsr⟩ := hstop stop hs
    refine ⟨p, hp, (reached_iff_ne_none hm hplt).mpr hpr,
      (anc_iff_dominates hm hne hx hplt hpr).mpr hxp, .inr ⟨stop, hs, ?_⟩⟩
    rintro ⟨hsp, hxs⟩
    exact hnot ⟨(anc_iff_dominates hm hne hslt hplt hpr).mp hsp,
      (anc_iff_dominates hm hne hx hslt hsr).mp hxs⟩

theorem forestEdge_of_pred {p b : ℕ} (hp : p ∈ cfg.preds b) : ForestEdge cfg p b :=
  .inl ((hm.mirror p b).mp hp)

theorem mem_frontierOf_of_parent {x b d : ℕ} (hx : x < cfg.blocks.length)
    (hb : b < cfg.blocks.length) (hbe : b ≠ cfg.entryBlock)
    (hd : computeIdomForest cfg b = some d) (hdb : d ≠ b) :
    b ∈ frontierOf cfg x ↔ InFrontier cfg x b := by
  have himm := (((forestParent_computeIdomForest hm hb).other d hdb).mp hd).2
  have hstrict : BlockDominates cfg x d ↔
      StrictlyDominates (ForestEdge cfg) (virtualRoot cfg) x b := by
    constructor
    · intro hxd
      refine ⟨?_, hxd.trans himm.strict.2⟩
      rintro rfl
      exact hdb (Dominates.antisymm himm.reached himm.strict.2 hxd)
    · exact himm.nearest x
  rw [mem_frontierOf hm hx hb hbe]
  constructor
  · rintro ⟨p, hp, hpr, hxp, stop, hs, hnot⟩
    obtain rfl := Option.some.inj (hd.symm.trans hs)
    refine ⟨hbe, ⟨p, hp, hpr, hxp⟩, ?_⟩
    intro hxb
    exact hnot ⟨himm.strict.2.pred hdb (forestEdge_of_pred hm hp), hstrict.mpr hxb⟩
  · rintro ⟨-, ⟨p, hp, hpr, hxp⟩, hnot⟩
    exact ⟨p, hp, hpr, hxp, d, hd, fun h => hnot (hstrict.mp h.2)⟩

theorem mem_frontierOf_of_joined {x b : ℕ} (hx : x < cfg.blocks.length)
    (hb : b < cfg.blocks.length) (hbe : b ≠ cfg.entryBlock)
    (hd : computeIdomForest cfg b = some b) :
    b ∈ frontierOf cfg x ↔ InFrontier cfg x b ∧ x ≠ b := by
  have himm := (forestParent_computeIdomForest hm hb).self.mp hd
  have hnone : ¬ StrictlyDominates (ForestEdge cfg) (virtualRoot cfg) x b := fun hxb =>
    hx.ne (himm.nearest x hxb).eq_root
  rw [mem_frontierOf hm hx hb hbe]
  constructor
  · rintro ⟨p, hp, hpr, hxp, stop, hs, hnot⟩
    obtain rfl := Option.some.inj (hd.symm.trans hs)
    refine ⟨⟨hbe, ⟨p, hp, hpr, hxp⟩, hnone⟩, ?_⟩
    rintro rfl
    exact hnot ⟨hxp, .refl x⟩
  · rintro ⟨⟨-, ⟨p, hp, hpr, hxp⟩, -⟩, hxb⟩
    exact ⟨p, hp, hpr, hxp, b, hd, fun h => hnone ⟨hxb, h.2⟩⟩

theorem mem_frontierOf_iff_inFrontier {x b : ℕ} (hx : x < cfg.blocks.length) :
    b ∈ frontierOf cfg x ↔ InFrontier cfg x b ∧ ¬ (x = b ∧ Joined cfg b) := by
  by_cases hbe : b = cfg.entryBlock
  · subst hbe
    exact iff_of_false (entry_notMem_frontierOf cfg x) fun h => h.1.1 rfl
  by_cases hb : b < cfg.blocks.length
  · have hparent := forestParent_computeIdomForest hm hb
    cases hd : computeIdomForest cfg b with
    | none =>
      have hunreached := hparent.unreached.mp hd
      refine iff_of_false ?_ ?_
      · rw [mem_frontierOf hm hx hb hbe]
        rintro ⟨p, hp, hpr, -⟩
        exact hunreached (hpr.step (forestEdge_of_pred hm hp))
      · rintro ⟨⟨-, ⟨p, hp, hpr, -⟩, -⟩, -⟩
        exact hunreached (hpr.step (forestEdge_of_pred hm hp))
    | some d =>
      by_cases hdb : d = b
      · subst hdb
        rw [mem_frontierOf_of_joined hm hx hb hbe hd]
        constructor
        · rintro ⟨h, hxd⟩
          exact ⟨h, fun hc => hxd hc.1⟩
        · rintro ⟨h, hc⟩
          refine ⟨h, fun hxd => hc ⟨hxd, hbe, ?_, hparent.self.mp hd⟩⟩
          obtain ⟨-, ⟨p, hp, -⟩, -⟩ := h
          exact ne_nil_of_mem hp
      · rw [mem_frontierOf_of_parent hm hx hb hbe hd hdb]
        refine (and_iff_left ?_).symm
        rintro ⟨-, -, -, himm⟩
        exact hdb (Option.some.inj (hd.symm.trans (hparent.self.mpr himm)))
  · refine iff_of_false ?_ ?_
    · intro hmem
      exact hb (mem_range.mp (mem_filter.mp hmem).1)
    · rintro ⟨⟨-, ⟨p, hp, -⟩, -⟩, -⟩
      exact hb (lt_of_mem_preds hp)

theorem exactAt_iff {x : ℕ} (hx : x < cfg.blocks.length) :
    ExactAt cfg x ↔
      ¬ (Joined cfg x ∧ ∃ p ∈ cfg.preds x, ReachedBlock cfg p ∧ BlockDominates cfg x p) := by
  constructor
  · rintro hexact ⟨hj, hp⟩
    have hin : InFrontier cfg x x := ⟨hj.1, hp, fun h => h.1 rfl⟩
    have hmem := (hexact.mem_iff x).mpr hin
    exact ((mem_frontierOf_iff_inFrontier hm hx).mp hmem).2 ⟨rfl, hj⟩
  · intro hnot
    refine ⟨sorted_frontierOf cfg x, fun b => ?_⟩
    rw [mem_frontierOf_iff_inFrontier hm hx]
    refine and_iff_left_of_imp ?_
    rintro hin ⟨rfl, hj⟩
    exact hnot ⟨hj, hin.2.1⟩

theorem flow_of_dominates {b p : ℕ} (hb : b < cfg.blocks.length)
    (hpr : ReachedBlock cfg p) (h : BlockDominates cfg b p) :
    Relation.ReflTransGen (FlowEdge cfg) b p := by
  obtain ⟨l, hl⟩ := hpr
  have hmem := h l hl
  clear h
  induction hl with
  | root => exact absurd (mem_singleton.mp hmem) hb.ne
  | @step q s l hq hqs ih =>
    by_cases hbs : b = s
    · exact hbs ▸ .refl
    · have hbq := ih ((mem_cons.mp hmem).resolve_left hbs)
      rcases hqs with hs | ⟨hqv, -⟩
      · exact hbq.tail hs
      · -- nothing leads to the virtual root
        exfalso
        have hqb : q = b := by
          rcases Relation.ReflTransGen.cases_tail hbq with heq | ⟨c, -, hcq⟩
          · exact heq
          · exact absurd (hm.succ_lt hcq) (by rw [hqv]; exact lt_irrefl _)
        exact hb.ne (hqb.symm.trans hqv)

/-- The frontiers are right exactly when no block that several roots reach first lies on a
cycle; one block's frontier is wrong exactly when such a block dominates a reached
predecessor of itself. -/
theorem frontiers_correct_iff :
    (FrontiersCorrect cfg ↔
      ∀ b, b < cfg.blocks.length → Joined cfg b → ¬ OnCycle cfg b) ∧
    ∀ x, x < cfg.blocks.length → (ExactAt cfg x ↔
      ¬ (Joined cfg x ∧ ∃ p ∈ cfg.preds x, ReachedBlock cfg p ∧ BlockDominates cfg x p)) := by
  refine ⟨⟨?_, ?_⟩, fun x hx => exactAt_iff hm hx⟩
  · intro hcorrect b hb hj hcycle
    have hmem := hcorrect.own b hb hj hcycle
    exact ((mem_frontierOf_iff_inFrontier hm hb).mp hmem).2 ⟨rfl, hj⟩
  · intro hnone
    constructor
    · intro x hx _
      rw [exactAt_iff hm hx]
      rintro ⟨hj, p, hp, hpr, hdom⟩
      have hway := flow_of_dominates hm hx hpr hdom
      exact hnone x hx hj (Relation.TransGen.tail' hway ((hm.mirror p x).mp hp))
    · intro b hb hj hcycle
      exact absurd hcycle (hnone b hb hj)

end Frontier

/-- The entry and a landing pad go to block 2, which goes to block 3. -/
def sharedTail : ControlFlowGraph :=
  ⟨linkPreds [⟨0, 0x1000, [], [2], []⟩, ⟨1, 0x1002, [], [2], []⟩, ⟨2, 0x1006, [], [3], []⟩,
    ⟨3, 0x100c, [], [], []⟩], 0, [], OrderedMap.OrdMap.empty⟩

theorem frontiers_correct_shared_tail :
    FrontiersCorrect sharedTail ∧ frontierOf sharedTail 1 = [2] := by
  have hm : sharedTail.Mirrored := (wellFormed_linkPreds_of_all (by decide) (by decide)).mirrored
  have hup : ∀ p s, FlowEdge sharedTail p s → p < s := by
    intro p s hs
    have hp : p < 4 := lt_of_mem_succs hs
    unfold FlowEdge at hs
    interval_cases p
    · have hs' : s ∈ [2] := hs
      rw [mem_singleton.mp hs']
      omega
    · have hs' : s ∈ [2] := hs
      rw [mem_singleton.mp hs']
      omega
    · have hs' : s ∈ [3] := hs
      rw [mem_singleton.mp hs']
      omega
    · exact absurd hs not_mem_nil
  refine ⟨(frontiers_correct_iff hm).1.mpr ?_, by decide +kernel⟩
  intro b _ _ hcycle
  have hlt : ∀ c, Relation.TransGen (FlowEdge sharedTail) b c → b < c := by
    intro c hc
    induction hc with
    | single h => exact hup _ _ h
    | tail _ h ih => exact ih.trans (hup _ _ h)
  exact lt_irrefl b (hlt b hcycle)

/-- The frontier of the loop that two roots share misses the loop itself. -/
theorem frontier_misses_shared_loop : ¬ FrontiersCorrect sharedLoop := by
  intro hcorrect
  have hself : computeIdomForest sharedLoop 2 = some 2 := by decide +kernel
  have hparent := forestParent_computeIdomForest mirrored_sharedLoop (b := 2) (by decide)
  have hjoined : Joined sharedLoop 2 := ⟨by decide, by decide, hparent.self.mp hself⟩
  have hloop : FlowEdge sharedLoop 2 2 := by
    unfold FlowEdge
    decide
  have hmem := hcorrect.own 2 (by decide) hjoined (.single hloop)
  have hempty : frontierOf sharedLoop 2 = [] := by decide +kernel
  rw [hempty] at hmem
  exact not_mem_nil hmem

end ForestFrontiers
