import Reargo.DominatorPaths
import Reargo.Dominators
import Reargo.SetDominators

/-!
# The dominator forest and the paths of the graph

The forest is the dominator tree of the graph with one virtual root before the entry and
before every block without predecessors, a block right under the virtual root standing for
itself. From the entry alone the tree agrees with the dominators computed as sets.
-/
namespace ForestDominance

open ControlFlow DepthFirst Dominators Dominance DominatorPaths SetDominators List

def virtualRoot (cfg : ControlFlowGraph) : ℕ := cfg.blocks.length

def ForestEdge (cfg : ControlFlowGraph) (p s : ℕ) : Prop :=
  s ∈ cfg.succs p ∨
    (p = virtualRoot cfg ∧ (s = cfg.entryBlock ∨ (s < cfg.blocks.length ∧ cfg.preds s = [])))

variable {cfg : ControlFlowGraph} {b : ℕ}

theorem covers_of_postOrder {next preds : ℕ → List ℕ} {n entry : ℕ} {rpo : List ℕ}
    (h : PostOrder next n entry rpo) (hmirror : ∀ q b, b ∈ next q ↔ q ∈ preds b)
    (hlt : ∀ q b, b ∈ next q → b < n) : Covers preds rpo entry := by
  constructor
  · exact numbering_of_postOrder h fun q b _ hb => (hmirror q b).mp hb
  · intro p s hp hs
    have hnext := (hmirror p s).mpr hs
    exact h.closed p hp s hnext (hlt p s hnext)

section

variable (hm : cfg.Mirrored)

include hm

theorem edge_preds : Edge cfg.preds = FlowEdge cfg :=
  funext fun p => funext fun s => propext (hm.mirror p s)

theorem edge_virtualPreds : Edge (virtualPreds cfg) = ForestEdge cfg := by
  funext p s
  unfold Edge ForestEdge virtualRoot
  rw [mem_virtualPreds, mem_roots, hm.mirror p s]

theorem covers_entry (hne : cfg.blocks ≠ []) :
    Covers cfg.preds (reversePostOrder cfg.succs cfg.blocks.length cfg.entryBlock)
      cfg.entryBlock :=
  covers_of_postOrder (postOrder_reversePostOrder (hm.entry_lt hne))
    (fun q b => (hm.mirror q b).symm) fun _ _ hb => hm.succ_lt hb

theorem virtualSuccs_iff {q : ℕ} : b ∈ virtualSuccs cfg q ↔ q ∈ virtualPreds cfg b := by
  rw [mem_virtualPreds]
  unfold virtualSuccs
  split
  · next hq =>
    constructor
    · exact fun hb => .inr ⟨hq, hb⟩
    · rintro (hp | ⟨-, hb⟩)
      · exact absurd (hm.pred_lt hp) (by omega)
      · exact hb
  · next hq =>
    constructor
    · exact fun hb => .inl ((hm.mirror q b).mpr hb)
    · rintro (hp | ⟨heq, -⟩)
      · exact (hm.mirror q b).mp hp
      · exact absurd heq hq

theorem covers_virtual (hne : cfg.blocks ≠ []) :
    Covers (virtualPreds cfg) (virtualOrder cfg) cfg.blocks.length := by
  refine covers_of_postOrder (virtual_postOrder cfg) (fun q b => virtualSuccs_iff hm) ?_
  intro q b hb
  have hlt := virtualSuccs_lt hm hne hb
  omega

theorem precedes_of_oneRoot (hne : cfg.blocks ≠ []) (hone : (roots cfg).length = 1) :
    Precedes (FlowEdge cfg) cfg.entryBlock (ForestEdge cfg) (virtualRoot cfg) := by
  have hroot : ∀ b, b < cfg.blocks.length → cfg.preds b = [] → b = cfg.entryBlock := by
    intro b hb hp
    have hmem : b ∈ roots cfg := mem_roots.mpr (.inr ⟨hb, hp⟩)
    obtain ⟨r, hr⟩ := length_eq_one_iff.mp hone
    have hentry : cfg.entryBlock ∈ roots cfg := mem_roots.mpr (.inl rfl)
    rw [hr] at hmem hentry
    rw [mem_singleton.mp hmem, mem_singleton.mp hentry]
  constructor
  · exact (hm.entry_lt hne).ne'
  · intro s
    constructor
    · rintro (hs | ⟨-, rfl | ⟨hlt, hp⟩⟩)
      · exact absurd (lt_of_mem_succs hs) (lt_irrefl _)
      · rfl
      · exact hroot s hlt hp
    · exact fun hs => .inr ⟨rfl, .inl hs⟩
  · intro p s hp
    constructor
    · rintro (hs | ⟨heq, -⟩)
      · exact hs
      · exact absurd heq hp
    · exact .inl
  · intro p hp
    exact absurd (hm.succ_lt hp) (lt_irrefl _)

end

section

variable (hm : cfg.Mirrored) (hne : cfg.blocks ≠ [])

include hm hne

theorem computeIdom_eq_none_iff :
    computeIdom cfg b = none ↔ ¬ Reached (FlowEdge cfg) cfg.entryBlock b := by
  rw [← edge_preds hm]
  exact immediate_eq_none_iff (covers_entry hm hne)

theorem computeIdom_entry : computeIdom cfg cfg.entryBlock = some cfg.entryBlock :=
  immediate_entry (covers_entry hm hne)

theorem computeIdom_eq_some_iff {d : ℕ} (hb : b ≠ cfg.entryBlock) :
    computeIdom cfg b = some d ↔ ImmediateDominator (FlowEdge cfg) cfg.entryBlock d b := by
  rw [← edge_preds hm]
  exact immediate_eq_some_iff (covers_entry hm hne) hb

end

/-- The parent the forest should give a block: its immediate dominator below the virtual
root, or the block itself right under it. -/
structure ForestParent (cfg : ControlFlowGraph) (b : ℕ) (parent : Option ℕ) : Prop where
  unreached : parent = none ↔ ¬ Reached (ForestEdge cfg) (virtualRoot cfg) b
  self : parent = some b ↔
    ImmediateDominator (ForestEdge cfg) (virtualRoot cfg) (virtualRoot cfg) b
  other : ∀ d, d ≠ b → (parent = some d ↔
    d ≠ virtualRoot cfg ∧ ImmediateDominator (ForestEdge cfg) (virtualRoot cfg) d b)

theorem forestParent_oneRoot (hm : cfg.Mirrored) (hne : cfg.blocks ≠ [])
    (hone : (roots cfg).length = 1) (hb : b < cfg.blocks.length) :
    ForestParent cfg b (computeIdom cfg b) := by
  have hp := precedes_of_oneRoot hm hne hone
  have hbr : b ≠ virtualRoot cfg := hb.ne
  have hnone : ∀ d, ImmediateDominator (FlowEdge cfg) cfg.entryBlock d b →
      d ≠ virtualRoot cfg := fun d hd => hp.reached_ne (hd.strict.2.reached hd.reached)
  have hentry : ∀ d, ¬ ImmediateDominator (FlowEdge cfg) cfg.entryBlock d cfg.entryBlock :=
    fun d hd => hd.strict.1 hd.strict.2.eq_root
  constructor
  · rw [computeIdom_eq_none_iff hm hne, hp.reached_iff hbr]
  · rw [hp.immediate_iff hbr]
    by_cases hbe : b = cfg.entryBlock
    · subst hbe
      rw [computeIdom_entry hm hne]
      exact ⟨fun _ => .inl ⟨rfl, rfl⟩, fun _ => rfl⟩
    · rw [computeIdom_eq_some_iff hm hne hbe]
      constructor
      · intro hd
        exact absurd rfl hd.strict.1
      · rintro (⟨heq, -⟩ | hd)
        · exact absurd heq hbe
        · exact absurd rfl (hnone _ hd)
  · intro d hdb
    rw [hp.immediate_iff hbr]
    by_cases hbe : b = cfg.entryBlock
    · subst hbe
      rw [computeIdom_entry hm hne]
      constructor
      · exact fun heq => absurd (Option.some.inj heq).symm hdb
      · rintro ⟨hdr, ⟨-, heq⟩ | hd⟩
        · exact absurd heq hdr
        · exact absurd hd (hentry d)
    · rw [computeIdom_eq_some_iff hm hne hbe]
      constructor
      · exact fun hd => ⟨hnone d hd, .inr hd⟩
      · rintro ⟨-, ⟨heq, -⟩ | hd⟩
        · exact absurd heq hbe
        · exact hd

theorem forestParent_below (hm : cfg.Mirrored) (hne : cfg.blocks ≠ [])
    (hb : b < cfg.blocks.length) :
    ForestParent cfg b (below cfg.blocks.length (virtualIdom cfg) b) := by
  have hcovers := covers_virtual hm hne
  have hbr : b ≠ cfg.blocks.length := hb.ne
  have hsome : ∀ d, virtualIdom cfg b = some d ↔
      ImmediateDominator (ForestEdge cfg) (virtualRoot cfg) d b := by
    intro d
    rw [← edge_virtualPreds hm]
    exact immediate_eq_some_iff hcovers hbr
  have hself : virtualIdom cfg b ≠ some b := fun heq => ((hsome b).mp heq).strict.1 rfl
  have hvalue : ∀ d, below cfg.blocks.length (virtualIdom cfg) b = some d ↔
      (virtualIdom cfg b = some cfg.blocks.length ∧ d = b) ∨
        (virtualIdom cfg b = some d ∧ d ≠ cfg.blocks.length) := by
    intro d
    constructor
    · exact fun heq => (below_eq_some heq).2
    · unfold below
      rintro (⟨heq, rfl⟩ | ⟨heq, hdn⟩)
      · rw [if_pos hb, heq, Option.map_some, if_pos rfl]
      · rw [if_pos hb, heq, Option.map_some, if_neg hdn]
  constructor
  · rw [← not_iff_not, not_not, ← ne_eq, below_ne_none, ← edge_virtualPreds hm]
    have hunreached := immediate_eq_none_iff hcovers (b := b)
    constructor
    · rintro ⟨-, hnone⟩
      by_contra hr
      exact hnone (hunreached.mpr hr)
    · exact fun hr => ⟨hb, fun hnone => hunreached.mp hnone hr⟩
  · rw [hvalue, ← hsome]
    constructor
    · rintro (⟨heq, -⟩ | ⟨heq, -⟩)
      · exact heq
      · exact absurd heq hself
    · exact fun heq => .inl ⟨heq, rfl⟩
  · intro d hdb
    rw [hvalue, ← hsome]
    constructor
    · rintro (⟨-, heq⟩ | ⟨heq, hdn⟩)
      · exact absurd heq hdb
      · exact ⟨hdn, heq⟩
    · exact fun ⟨hdn, heq⟩ => .inr ⟨heq, hdn⟩

theorem forestParent_computeIdomForest (hm : cfg.Mirrored) (hb : b < cfg.blocks.length) :
    ForestParent cfg b (computeIdomForest cfg b) := by
  have hne : cfg.blocks ≠ [] := by
    rintro hnil
    rw [hnil] at hb
    exact absurd hb (Nat.not_lt_zero b)
  unfold computeIdomForest
  rw [if_neg hne]
  split
  · next hone => exact forestParent_oneRoot hm hne hone hb
  · exact forestParent_below hm hne hb

theorem maxByKey_eq {key : ℕ → ℕ} {m : ℕ} {xs : List ℕ} (hm : m ∈ xs)
    (hmax : ∀ x ∈ xs, x = m ∨ key x < key m) : maxByKey key xs = some m := by
  -- the step of the fold, by what it gives
  obtain ⟨step, hfirst, hnext, hmaxByKey⟩ : ∃ step : Option ℕ → ℕ → Option ℕ,
      (∀ x, step none x = some x) ∧
      (∀ b x, step (some b) x = if key b ≤ key x then some x else some b) ∧
      ∀ xs, maxByKey key xs = xs.foldl step none :=
    ⟨_, fun _ => rfl, fun _ _ => rfl, fun _ => rfl⟩
  have hfold : ∀ (xs : List ℕ) (best : Option ℕ),
      (best = some m ∨ (m ∈ xs ∧ ∀ b, best = some b → key b < key m)) →
      (∀ x ∈ xs, x = m ∨ key x < key m) → xs.foldl step best = some m := by
    intro xs
    induction xs with
    | nil =>
      rintro best (hbest | ⟨hmem, -⟩) _
      · exact hbest
      · exact absurd hmem not_mem_nil
    | cons x xs ih =>
      intro best hbest hall
      have hrest : ∀ y ∈ xs, y = m ∨ key y < key m := fun y hy =>
        hall y (mem_cons_of_mem _ hy)
      have hx := hall x mem_cons_self
      rw [foldl_cons]
      rcases hbest with rfl | ⟨hmem, hlow⟩
      · apply ih _ _ hrest
        left
        rcases hx with rfl | hx
        · rw [hnext, if_pos le_rfl]
        · rw [hnext, if_neg (not_le.mpr hx)]
      · by_cases hxm : x = m
        · subst hxm
          apply ih _ _ hrest
          left
          cases best with
          | none => exact hfirst x
          | some b => rw [hnext, if_pos (hlow b rfl).le]
        · have hmem' : m ∈ xs := (mem_cons.mp hmem).resolve_left fun heq => hxm heq.symm
          apply ih _ _ hrest
          refine .inr ⟨hmem', ?_⟩
          have hxlt := hx.resolve_left hxm
          intro b hb
          cases best with
          | none =>
            rw [hfirst] at hb
            obtain rfl := Option.some.inj hb
            exact hxlt
          | some c =>
            rw [hnext] at hb
            split at hb
            · obtain rfl := Option.some.inj hb
              exact hxlt
            · obtain rfl := Option.some.inj hb
              exact hlow c rfl
  rw [hmaxByKey]
  exact hfold xs none (.inr ⟨hm, fun b hb => by cases hb⟩) hmax

theorem computeIdom_eq_referenceIdom (hm : cfg.Mirrored) (hb : b < cfg.blocks.length)
    (hreached : Reached (FlowEdge cfg) cfg.entryBlock b) :
    computeIdom cfg b = referenceIdom cfg b := by
  have hne : cfg.blocks ≠ [] := by
    rintro hnil
    rw [hnil] at hb
    exact absurd hb (Nat.not_lt_zero b)
  unfold referenceIdom
  split
  · next hbe => rw [hbe, computeIdom_entry hm hne]
  · next hbe =>
    obtain ⟨d, hd⟩ := Option.ne_none_iff_exists'.mp
      (fun hnone => (computeIdom_eq_none_iff hm hne).mp hnone hreached)
    have himm := (computeIdom_eq_some_iff hm hne hbe).mp hd
    have hinside : ∀ x, Reached (FlowEdge cfg) cfg.entryBlock x → x < cfg.blocks.length :=
      fun x hx => hx.induct (hm.entry_lt hne) fun _ _ _ _ hxy => hm.succ_lt hxy
    have hstrict : ∀ x, x ∈ ((dominators cfg b).sort (· ≤ ·)).filter (fun d => d ≠ b) ↔
        StrictlyDominates (FlowEdge cfg) cfg.entryBlock x b := by
      intro x
      rw [mem_filter, Finset.mem_sort, mem_dominators hm hb hreached, decide_eq_true_eq,
        StrictlyDominates, and_comm]
    rw [hd]
    symm
    apply maxByKey_eq ((hstrict d).mpr himm.strict)
    intro x hx
    by_cases hxd : x = d
    · exact .inl hxd
    · right
      -- the dominators of `x` are dominators of `d`, and `d` is a further one
      have hxdom := himm.nearest x ((hstrict x).mp hx)
      have hdr := himm.strict.2.reached hreached
      have hxr := hxdom.reached hdr
      apply Finset.card_lt_card
      constructor
      · intro e he
        have hex := (mem_dominators hm (hinside x hxr) hxr).mp he
        exact (mem_dominators hm (hinside d hdr) hdr).mpr (hex.trans hxdom)
      · intro hsub
        have hdd := (mem_dominators hm (hinside d hdr) hdr).mpr (.refl d)
        have hdx := (mem_dominators hm (hinside x hxr) hxr).mp (hsub hdd)
        exact hxd (Dominates.antisymm hdr hxdom hdx)

/-- The forest gives every block its immediate dominator in the graph with the virtual root,
and from the entry the tree is the one of the dominator sets. -/
theorem dominator_forest_correct (hm : cfg.Mirrored) :
    (∀ b, b < cfg.blocks.length → ForestParent cfg b (computeIdomForest cfg b)) ∧
      ∀ b, b < cfg.blocks.length → Reached (FlowEdge cfg) cfg.entryBlock b →
        computeIdom cfg b = referenceIdom cfg b :=
  ⟨fun _ hb => forestParent_computeIdomForest hm hb,
    fun _ hb hreached => computeIdom_eq_referenceIdom hm hb hreached⟩

/-- The entry and a landing pad both go to block 2, a loop with the way out to block 3. -/
def sharedLoop : ControlFlowGraph :=
  ⟨linkPreds [⟨0, 0x1000, [], [2], []⟩, ⟨1, 0x1002, [], [2], []⟩, ⟨2, 0x1006, [], [2, 3], []⟩,
    ⟨3, 0x100c, [], [], []⟩], 0, [], OrderedMap.OrdMap.empty⟩

theorem mirrored_sharedLoop : sharedLoop.Mirrored :=
  (wellFormed_linkPreds_of_all (by decide) (by decide)).mirrored

theorem dominator_forest_correct_shared_loop :
    ForestParent sharedLoop 2 (computeIdomForest sharedLoop 2) ∧
      computeIdomForest sharedLoop 2 = some 2 ∧
      computeIdom sharedLoop 3 = referenceIdom sharedLoop 3 := by
  have hcorrect := dominator_forest_correct mirrored_sharedLoop
  have hreached : Reached (FlowEdge sharedLoop) sharedLoop.entryBlock 3 := by
    have h2 : FlowEdge sharedLoop 0 2 := by
      unfold FlowEdge
      decide
    have h3 : FlowEdge sharedLoop 2 3 := by
      unfold FlowEdge
      decide
    exact (reached_root.step h2).step h3
  refine ⟨hcorrect.1 2 (by decide), ?_, hcorrect.2 3 (by decide) hreached⟩
  decide +kernel

end ForestDominance
