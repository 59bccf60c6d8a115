import Reargo.ControlFlow
import Reargo.DominatorTree

/-!
# Dominators of a control-flow graph

The dominator tree from the entry, the forest whose roots are the entry and every
block without predecessors, and the dominance frontiers. The forest is the tree of a
virtual node before all roots; a block right under it is its own parent.
-/
namespace Dominators

open ControlFlow DepthFirst DominatorTree List Option

def computeIdom (cfg : ControlFlowGraph) : Parents :=
  immediate cfg.preds (reversePostOrder cfg.succs cfg.blocks.length cfg.entryBlock) cfg.entryBlock

def roots (cfg : ControlFlowGraph) : List ℕ :=
  cfg.entryBlock ::
    (List.range cfg.blocks.length).filter fun b => b ≠ cfg.entryBlock ∧ cfg.preds b = []

/-- The virtual node is numbered after the blocks. -/
def virtualSuccs (cfg : ControlFlowGraph) (b : ℕ) : List ℕ :=
  if b = cfg.blocks.length then roots cfg else cfg.succs b

/-- The virtual node is the first predecessor of each root. -/
def virtualPreds (cfg : ControlFlowGraph) (b : ℕ) : List ℕ :=
  if b ∈ roots cfg then cfg.blocks.length :: cfg.preds b else cfg.preds b

def virtualOrder (cfg : ControlFlowGraph) : List ℕ :=
  reversePostOrder (virtualSuccs cfg) (cfg.blocks.length + 1) cfg.blocks.length

def virtualIdom (cfg : ControlFlowGraph) : Parents :=
  immediate (virtualPreds cfg) (virtualOrder cfg) cfg.blocks.length

def computeIdomForest (cfg : ControlFlowGraph) : Parents :=
  if cfg.blocks = [] then fun _ => none
  else if (roots cfg).length = 1 then computeIdom cfg
  else fun b => if b < cfg.blocks.length then
      (virtualIdom cfg b).map fun d => if d = cfg.blocks.length then b else d
    else none

/-- The walk up from a block until `stop`, which is left out, or a root. -/
def walkUp (idom : Parents) (stop : ℕ) : ℕ → ℕ → List ℕ
  | 0, _ => []
  | fuel + 1, runner =>
    if runner = stop then []
    else
      match idom runner with
      | some up => if up = runner then [runner] else runner :: walkUp idom stop fuel up
      | none => [runner]

/-- The blocks that get `b` into their frontier, when `b` joins two reached blocks. -/
def runners (cfg : ControlFlowGraph) (idom : Parents) (b : ℕ) : List ℕ :=
  if b = cfg.entryBlock then []
  else
    match idom b with
    | none => []
    | some stop =>
      let preds := (cfg.preds b).filter fun p => (idom p).isSome
      if preds.length < 2 then [] else preds.flatMap (walkUp idom stop cfg.blocks.length)

/-- Sorted, each block once. -/
def dominanceFrontier (cfg : ControlFlowGraph) (idom : Parents) (x : ℕ) : List ℕ :=
  (List.range cfg.blocks.length).filter fun b => x ∈ runners cfg idom b

/-- What the renaming relies on: parents come earlier in some order, the parent of a block
is the nearest common ancestor of its reached predecessors, and a block without a parent of
its own is a root or joins blocks without a common ancestor. -/
structure IsForest (cfg : ControlFlowGraph) (order : ℕ → ℕ) (idom : Parents) : Prop where
  lt : ∀ b d, idom b = some d → d = b ∨ order d < order b
  bound : ∀ b, idom b ≠ none → order b < cfg.blocks.length
  inside : ∀ b, idom b ≠ none → b < cfg.blocks.length
  closed : ∀ b d, idom b = some d → idom d ≠ none
  entry : idom cfg.entryBlock = some cfg.entryBlock
  root : ∀ b, b < cfg.blocks.length → cfg.preds b = [] → idom b = some b
  succ : ∀ p s, idom p ≠ none → s ∈ cfg.succs p → idom s ≠ none
  forward : ∀ b, idom b ≠ none → b = cfg.entryBlock ∨ cfg.preds b = [] ∨
    ∃ p ∈ cfg.preds b, idom p ≠ none ∧ order p < order b
  meet : ∀ b d, idom b = some d → d ≠ b → IsMeet idom (fun p => p ∈ cfg.preds b ∧ idom p ≠ none) d
  top : ∀ b, idom b = some b → b ≠ cfg.entryBlock → cfg.preds b ≠ [] →
    ∀ z, ∃ p ∈ cfg.preds b, idom p ≠ none ∧ ¬ Ancestor idom z p

variable {cfg : ControlFlowGraph} {b : ℕ}

theorem mem_roots :
    b ∈ roots cfg ↔ b = cfg.entryBlock ∨ (b < cfg.blocks.length ∧ cfg.preds b = []) := by
  unfold roots
  rw [mem_cons, mem_filter, mem_range, decide_eq_true_eq]
  constructor
  · rintro (h | ⟨h, -, hp⟩)
    · exact .inl h
    · exact .inr ⟨h, hp⟩
  · rintro (h | ⟨h, hp⟩)
    · exact .inl h
    · by_cases hb : b = cfg.entryBlock
      · exact .inl hb
      · exact .inr ⟨h, hb, hp⟩

theorem numbering_of_postOrder {next preds : ℕ → List ℕ} {n entry : ℕ} {rpo : List ℕ}
    (h : PostOrder next n entry rpo) (hmirror : ∀ q b, q ∈ rpo → b ∈ next q → q ∈ preds b) :
    Numbering preds rpo entry := by
  refine ⟨h.nodup, h.head, ?_⟩
  intro b hb hne
  obtain ⟨l, r, hsplit⟩ := append_of_mem hb
  obtain ⟨q, hq, hedge⟩ := (h.parent l b r hsplit).resolve_left hne
  have hqmem : q ∈ rpo := by
    rw [hsplit]
    exact mem_append_left _ hq
  refine ⟨q, hmirror q b hqmem hedge, ?_⟩
  have hnodup := h.nodup
  rw [hsplit] at hnodup ⊢
  have hbl : b ∉ l := fun hbl => (nodup_append.mp hnodup).2.2 b hbl b mem_cons_self rfl
  rw [idxOf_append_of_mem hq, idxOf_append_of_notMem hbl]
  have hlt := idxOf_lt_length_iff.mpr hq
  omega

theorem length_order_le {rpo : List ℕ} {n : ℕ} (hnodup : rpo.Nodup) (h : ∀ x ∈ rpo, x < n) :
    rpo.length ≤ n := by
  have hsub : rpo ⊆ range n := fun x hx => mem_range.mpr (h x hx)
  have hle := (subperm_of_subset hnodup hsub).length_le
  rwa [length_range] at hle

section OneRoot

variable (hm : cfg.Mirrored) (hne : cfg.blocks ≠ []) (hone : (roots cfg).length = 1)
include hm hne hone

theorem isForest_computeIdom : IsForest cfg
      (fun x => (reversePostOrder cfg.succs cfg.blocks.length cfg.entryBlock).idxOf x)
      (computeIdom cfg) := by
  have hpo : PostOrder cfg.succs _ _ _ := postOrder_reversePostOrder (hm.entry_lt hne)
  have hn : Numbering cfg.preds _ _ :=
    numbering_of_postOrder hpo fun q b _ hb => (hm.mirror q b).mpr hb
  have ht : IsTree cfg.preds _ _ (computeIdom cfg) := immediate_isTree hn
  have hroot : ∀ b, b < cfg.blocks.length → cfg.preds b = [] → b = cfg.entryBlock := by
    intro b hb hp
    by_contra hbe
    have hmem : b ∈ (roots cfg).tail := by
      unfold roots
      rw [tail_cons, mem_filter, mem_range, decide_eq_true_eq]
      exact ⟨hb, hbe, hp⟩
    have hpos := length_pos_of_mem hmem
    rw [length_tail, hone] at hpos
    omega
  constructor
  · intro b d hd
    by_cases hb : b = cfg.entryBlock
    · subst hb
      exact .inl (some.inj (hd.symm.trans ht.ordered.root))
    · exact .inr (ht.ordered.lt b d hb hd)
  · intro b hb
    have hlt := idxOf_lt_length_iff.mpr ((ht.processed_iff b).mp hb)
    exact lt_of_lt_of_le hlt (length_order_le hpo.nodup hpo.inside)
  · intro b hb
    exact hpo.inside b ((ht.processed_iff b).mp hb)
  · exact ht.ordered.closed
  · exact ht.ordered.root
  · intro b hb hp
    rw [hroot b hb hp]
    exact ht.ordered.root
  · intro p s hp hs
    exact (ht.processed_iff s).mpr (hpo.closed p ((ht.processed_iff p).mp hp) s hs (hm.succ_lt hs))
  · intro b hb
    by_cases hbe : b = cfg.entryBlock
    · exact .inl hbe
    · have hmem := (ht.processed_iff b).mp hb
      obtain ⟨q, hq, hlt⟩ := hn.forward b hmem hbe
      exact .inr (.inr ⟨q, hq, (ht.processed_iff q).mpr (mem_of_idxOf_lt hmem hlt), hlt⟩)
  · intro b d hd hdb
    have hbe : b ≠ cfg.entryBlock := by
      rintro rfl
      exact hdb (some.inj (hd.symm.trans ht.ordered.root))
    have hmem := (ht.processed_iff b).mp (by rw [hd]; exact some_ne_none _)
    obtain ⟨d', hd', hmeet⟩ := ht.parent b hmem hbe
    obtain rfl := some.inj (hd.symm.trans hd')
    refine ⟨fun p hp => ?_, fun z hz => ?_⟩
    · exact hmeet.anc p ⟨hp.1, (ht.processed_iff p).mp hp.2⟩
    · exact hmeet.nearest z fun p hp => hz p ⟨hp.1, (ht.processed_iff p).mpr hp.2⟩
  · intro b hb hbe
    have hlt := ht.ordered.lt b b hbe hb
    exact absurd hlt (lt_irrefl _)

end OneRoot

theorem virtualSuccs_lt (hm : cfg.Mirrored) (hne : cfg.blocks ≠ []) {s : ℕ}
    (hs : s ∈ virtualSuccs cfg b) : s < cfg.blocks.length := by
  unfold virtualSuccs at hs
  split at hs
  · rcases mem_roots.mp hs with rfl | ⟨hlt, -⟩
    · exact hm.entry_lt hne
    · exact hlt
  · exact hm.succ_lt hs

theorem mem_virtualPreds {p : ℕ} :
    p ∈ virtualPreds cfg b ↔ p ∈ cfg.preds b ∨ (p = cfg.blocks.length ∧ b ∈ roots cfg) := by
  unfold virtualPreds
  split
  · next h =>
    rw [mem_cons]
    constructor
    · rintro (hp | hp)
      · exact .inr ⟨hp, h⟩
      · exact .inl hp
    · rintro (hp | ⟨hp, -⟩)
      · exact .inr hp
      · exact .inl hp
  · next h =>
    constructor
    · exact .inl
    · rintro (hp | ⟨-, hb⟩)
      · exact hp
      · exact absurd hb h

/-- The forest below the virtual node. -/
def below (n : ℕ) (idom : Parents) : Parents := fun b =>
  if b < n then (idom b).map fun d => if d = n then b else d else none

section Below

variable {n : ℕ} {idom : Parents} {order : ℕ → ℕ}

theorem below_ne_none : below n idom b ≠ none ↔ b < n ∧ idom b ≠ none := by
  unfold below
  split
  · next h => simp [h]
  · next h => simp [h]

theorem below_eq_some {d : ℕ} (h : below n idom b = some d) :
    b < n ∧ ((idom b = some n ∧ d = b) ∨ (idom b = some d ∧ d ≠ n)) := by
  unfold below at h
  split at h
  · next hb =>
    obtain ⟨e, he, hed⟩ := map_eq_some_iff.mp h
    refine ⟨hb, ?_⟩
    split at hed
    · next hen => exact .inl ⟨hen ▸ he, hed.symm⟩
    · next hen => exact .inr ⟨hed ▸ he, hed ▸ hen⟩
  · cases h

theorem ancestor_below (ho : Ordered order n idom) (hin : ∀ x, idom x ≠ none → x < n + 1)
    {z x : ℕ} (hz : z ≠ n) : Ancestor (below n idom) z x ↔ Ancestor idom z x := by
  constructor
  · intro h
    induction h with
    | self => exact .self _
    | @climb x c hc _ ih =>
      rcases (below_eq_some hc).2 with ⟨-, heq⟩ | ⟨hd, -⟩
      · exact heq ▸ ih
      · exact .climb hd ih
  · intro h
    induction h with
    | self => exact .self _
    | @climb x c hc hzc ih =>
      have hlt := hin x (by rw [hc]; exact some_ne_none _)
      by_cases hx : x = n
      · subst hx
        obtain rfl := some.inj (ho.root.symm.trans hc)
        exact absurd (ho.anc_entry hzc) hz
      · by_cases hcn : c = n
        · subst hcn
          exact absurd (ho.anc_entry hzc) hz
        · refine .climb ?_ ih
          unfold below
          rw [if_pos (by omega), hc, map_some, if_neg hcn]

theorem ancestor_below_lt (ho : Ordered order n idom) (hin : ∀ x, idom x ≠ none → x < n + 1)
    {z x : ℕ} (h : Ancestor (below n idom) z x) (hx : x < n) : z < n := by
  induction h with
  | self => exact hx
  | climb hc _ ih =>
    obtain ⟨hlt, hcases⟩ := below_eq_some hc
    rcases hcases with ⟨-, heq⟩ | ⟨hcd, hcn⟩
    · exact ih (heq ▸ hlt)
    · refine ih (lt_of_le_of_ne (Nat.le_of_lt_succ (hin _ ?_)) hcn)
      exact ho.closed _ _ hcd

end Below

theorem virtual_postOrder (cfg : ControlFlowGraph) :
    PostOrder (virtualSuccs cfg) (cfg.blocks.length + 1) cfg.blocks.length (virtualOrder cfg) :=
  postOrder_reversePostOrder (Nat.lt_succ_self _)

section ManyRoots

variable (hm : cfg.Mirrored) (hne : cfg.blocks ≠ [])
include hm

theorem virtual_numbering : Numbering (virtualPreds cfg) (virtualOrder cfg) cfg.blocks.length := by
  refine numbering_of_postOrder (virtual_postOrder cfg) ?_
  intro q b _ hb
  unfold virtualSuccs at hb
  rw [mem_virtualPreds]
  split at hb
  · next hq => exact .inr ⟨hq, hb⟩
  · exact .inl ((hm.mirror q b).mpr hb)

include hne

theorem isForest_below : IsForest cfg (fun x => (virtualOrder cfg).idxOf x - 1)
      (below cfg.blocks.length (virtualIdom cfg)) := by
  have hpo := virtual_postOrder cfg
  have hn := virtual_numbering hm
  have ht : IsTree (virtualPreds cfg) (virtualOrder cfg) cfg.blocks.length (virtualIdom cfg) :=
    immediate_isTree hn
  have hin : ∀ x, virtualIdom cfg x ≠ none → x < cfg.blocks.length + 1 := fun x hx =>
    hpo.inside x ((ht.processed_iff x).mp hx)
  have hpreds : ∀ p b, p ∈ cfg.preds b → p < cfg.blocks.length := fun _ _ => hm.pred_lt
  have hreached : ∀ x, x < cfg.blocks.length →
      (below cfg.blocks.length (virtualIdom cfg) x ≠ none ↔ x ∈ virtualOrder cfg) := by
    intro x hx
    rw [below_ne_none, ht.processed_iff]
    exact ⟨fun h => h.2, fun h => ⟨hx, h⟩⟩
  have hpos : ∀ x ∈ virtualOrder cfg, x ≠ cfg.blocks.length → 0 < (virtualOrder cfg).idxOf x := by
    intro x hx hxn
    by_contra hzero
    refine hxn (idxOf_inj hx ?_)
    rw [hn.idxOf_entry]
    omega
  have hroot : ∀ b, b ∈ roots cfg → b < cfg.blocks.length →
      below cfg.blocks.length (virtualIdom cfg) b = some b := by
    intro b hb hlt
    have hnmem : cfg.blocks.length ∈ virtualOrder cfg := hn.mem_entry
    have hbmem : b ∈ virtualOrder cfg := by
      refine hpo.closed _ hnmem b ?_ (by omega)
      unfold virtualSuccs
      rw [if_pos rfl]
      exact hb
    obtain ⟨d, hd, hmeet⟩ := ht.parent b hbmem (by omega)
    have hdn : d = cfg.blocks.length :=
      ht.ordered.anc_entry (hmeet.anc _ ⟨mem_virtualPreds.mpr (.inr ⟨rfl, hb⟩), hnmem⟩)
    unfold below
    rw [if_pos hlt, hd, map_some, if_pos hdn]
  have hparts : ∀ b, below cfg.blocks.length (virtualIdom cfg) b ≠ none →
      b < cfg.blocks.length ∧ b ∈ virtualOrder cfg := by
    intro b hb
    have hb' := below_ne_none.mp hb
    exact ⟨hb'.1, (ht.processed_iff b).mp hb'.2⟩
  -- off the roots the virtual predecessors are the real ones
  have hmeets : ∀ b z, b ∈ virtualOrder cfg → b < cfg.blocks.length → b ∉ roots cfg →
      (∀ p ∈ cfg.preds b, below cfg.blocks.length (virtualIdom cfg) p ≠ none →
        Ancestor (below cfg.blocks.length (virtualIdom cfg)) z p) →
      z ≠ cfg.blocks.length ∧ ∀ p, p ∈ virtualPreds cfg b ∧ p ∈ virtualOrder cfg →
        Ancestor (virtualIdom cfg) z p := by
    intro b z hmem hlt hnotroot hz
    have hinner : ∀ p, p ∈ virtualPreds cfg b → p ∈ virtualOrder cfg →
        p < cfg.blocks.length ∧ Ancestor (below cfg.blocks.length (virtualIdom cfg)) z p := by
      intro p hp hpmem
      have hp' := (mem_virtualPreds.mp hp).resolve_right fun h => hnotroot h.2
      exact ⟨hpreds p b hp', hz p hp' ((hreached p (hpreds p b hp')).mpr hpmem)⟩
    obtain ⟨q, hq, hqlt⟩ := hn.forward b hmem (by omega)
    obtain ⟨hqn, hzq⟩ := hinner q hq (mem_of_idxOf_lt hmem hqlt)
    have hzn := (ancestor_below_lt ht.ordered hin hzq hqn).ne
    exact ⟨hzn, fun p hp => (ancestor_below ht.ordered hin hzn).mp (hinner p hp.1 hp.2).2⟩
  constructor
  · intro b d hd
    obtain ⟨hlt, hcases⟩ := below_eq_some hd
    rcases hcases with ⟨-, heq⟩ | ⟨hd', hdn⟩
    · exact .inl heq
    · have hdlt := ht.ordered.lt b d (by omega) hd'
      have hdmem := (ht.processed_iff d).mp (ht.ordered.closed b d hd')
      have hdpos := hpos d hdmem hdn
      right
      omega
  · intro b hb
    obtain ⟨hlt, hmem⟩ := hparts b hb
    have hidx := idxOf_lt_length_iff.mpr hmem
    have hlen := length_order_le hpo.nodup hpo.inside
    have hbpos := hpos b hmem (by omega)
    omega
  · intro b hb
    exact (hparts b hb).1
  · intro b d hd
    obtain ⟨-, hcases⟩ := below_eq_some hd
    rcases hcases with ⟨-, heq⟩ | ⟨hd', hdn⟩
    · rw [heq, hd]
      exact some_ne_none _
    · have hdn' := ht.ordered.closed b d hd'
      exact below_ne_none.mpr ⟨lt_of_le_of_ne (Nat.le_of_lt_succ (hin d hdn')) hdn, hdn'⟩
  · exact hroot _ (mem_roots.mpr (.inl rfl)) (hm.entry_lt hne)
  · intro b hb hp
    exact hroot b (mem_roots.mpr (.inr ⟨hb, hp⟩)) hb
  · intro p s hp hs
    obtain ⟨hlt, hmem⟩ := hparts p hp
    have hslt := hm.succ_lt hs
    refine (hreached s hslt).mpr (hpo.closed p hmem s ?_ (by omega))
    unfold virtualSuccs
    rw [if_neg (by omega)]
    exact hs
  · intro b hb
    obtain ⟨hlt, hmem⟩ := hparts b hb
    obtain ⟨q, hq, hqlt⟩ := hn.forward b hmem (by omega)
    rcases mem_virtualPreds.mp hq with hq | ⟨-, hroot⟩
    · have hqmem := mem_of_idxOf_lt hmem hqlt
      have hqn := hpreds q b hq
      have hqpos := hpos q hqmem (by omega)
      refine .inr (.inr ⟨q, hq, (hreached q hqn).mpr hqmem, ?_⟩)
      omega
    · rcases mem_roots.mp hroot with h | ⟨-, h⟩
      · exact .inl h
      · exact .inr (.inl h)
  · intro b d hd hdb
    obtain ⟨hlt, hcases⟩ := below_eq_some hd
    rcases hcases with ⟨-, heq⟩ | ⟨hd', hdn⟩
    · exact absurd heq hdb
    · have hmem := (ht.processed_iff b).mp (by rw [hd']; exact some_ne_none _)
      obtain ⟨e, he, hmeet⟩ := ht.parent b hmem (by omega)
      obtain rfl := some.inj (hd'.symm.trans he)
      refine ⟨fun p hp => ?_, fun z hz => ?_⟩
      · have hpmem := (hparts p hp.2).2
        exact (ancestor_below ht.ordered hin hdn).mpr
          (hmeet.anc p ⟨mem_virtualPreds.mpr (.inl hp.1), hpmem⟩)
      · -- a root would have the virtual node as its parent
        have hnotroot : b ∉ roots cfg := fun hroot' =>
          hdb (some.inj (hd.symm.trans (hroot b hroot' hlt)))
        obtain ⟨hzn, habove⟩ := hmeets b z hmem hlt hnotroot fun p hp hpb => hz p ⟨hp, hpb⟩
        exact (ancestor_below ht.ordered hin hzn).mpr (hmeet.nearest z habove)
  · intro b hb hbe hbp z
    by_contra hall
    simp only [not_exists, not_and, not_not] at hall
    obtain ⟨hlt, hcases⟩ := below_eq_some hb
    have hbn : virtualIdom cfg b = some cfg.blocks.length := by
      rcases hcases with ⟨h, -⟩ | ⟨h, -⟩
      · exact h
      · have hself := ht.ordered.lt b b (by omega) h
        exact absurd hself (lt_irrefl _)
    have hnotroot : b ∉ roots cfg := by
      intro hroot'
      rcases mem_roots.mp hroot' with h | ⟨-, h⟩
      · exact hbe h
      · exact hbp h
    have hmem := (ht.processed_iff b).mp (by rw [hbn]; exact some_ne_none _)
    obtain ⟨e, he, hmeet⟩ := ht.parent b hmem (by omega)
    obtain rfl := some.inj (hbn.symm.trans he)
    obtain ⟨hzn, habove⟩ := hmeets b z hmem hlt hnotroot hall
    exact hzn (ht.ordered.anc_entry (hmeet.nearest z habove))

end ManyRoots

theorem computeIdomForest_isForest (hm : cfg.Mirrored) (hne : cfg.blocks ≠ []) :
    ∃ order, IsForest cfg order (computeIdomForest cfg) := by
  unfold computeIdomForest
  rw [if_neg hne]
  split
  · next hone => exact ⟨_, isForest_computeIdom hm hne hone⟩
  · exact ⟨_, isForest_below hm hne⟩

/-- A path along the edges of the graph. -/
def Reaches (cfg : ControlFlowGraph) : ℕ → ℕ → Prop :=
  Relation.ReflTransGen fun p s => s ∈ cfg.succs p

section Forest

variable {order : ℕ → ℕ} {idom : Parents}

theorem IsForest.anc_lt (h : IsForest cfg order idom) {a : ℕ} (hab : Ancestor idom a b) :
    a = b ∨ order a < order b := by
  induction hab with
  | self => exact .inl rfl
  | climb hc _ ih =>
    rcases h.lt _ _ hc with rfl | hlt
    · exact ih
    · rcases ih with rfl | ih
      · exact .inr hlt
      · exact .inr (ih.trans hlt)

theorem IsForest.antisymm (h : IsForest cfg order idom) {a : ℕ} (hab : Ancestor idom a b)
    (hba : Ancestor idom b a) : a = b := by
  rcases h.anc_lt hab with heq | hlt
  · exact heq
  · rcases h.anc_lt hba with heq | hlt'
    · exact heq.symm
    · omega

theorem anc_root {a : ℕ} (hb : idom b = some b) (hab : Ancestor idom a b) : a = b := by
  induction hab with
  | self => rfl
  | climb hc _ ih =>
    obtain rfl := some.inj (hb.symm.trans hc)
    exact ih hb

theorem IsForest.anc_reached (h : IsForest cfg order idom) {a : ℕ} (hb : idom b ≠ none)
    (hab : Ancestor idom a b) : idom a ≠ none := by
  induction hab with
  | self => exact hb
  | climb hc _ ih => exact ih (h.closed _ _ hc)

theorem exists_root (h : IsForest cfg order idom) (m : ℕ) :
    ∀ b, idom b ≠ none → order b ≤ m → ∃ r, Ancestor idom r b ∧ idom r = some r := by
  induction m with
  | zero =>
    intro b hb hm
    obtain ⟨d, hd⟩ := ne_none_iff_exists'.mp hb
    rcases h.lt b d hd with rfl | hlt
    · exact ⟨d, .self _, hd⟩
    · omega
  | succ m ih =>
    intro b hb hm
    obtain ⟨d, hd⟩ := ne_none_iff_exists'.mp hb
    rcases h.lt b d hd with rfl | hlt
    · exact ⟨d, .self _, hd⟩
    · obtain ⟨r, hr, hroot⟩ := ih d (h.closed b d hd) (by omega)
      exact ⟨r, .climb hd hr, hroot⟩

theorem IsForest.root_above (h : IsForest cfg order idom) (hb : idom b ≠ none) :
    ∃ r, Ancestor idom r b ∧ idom r = some r :=
  exists_root h (order b) b hb (le_refl _)

theorem IsForest.anc_reaches (hwf : cfg.WellFormed) (h : IsForest cfg order idom) {a : ℕ}
    (hb : idom b ≠ none) (hab : Ancestor idom a b) : Reaches cfg a b := by
  induction hm : order b using Nat.strong_induction_on generalizing b with
  | _ m ih =>
    subst hm
    by_cases hne : a = b
    · subst hne
      exact .refl
    · have hself : idom b ≠ some b := fun hs => hne (anc_root hs hab)
      have hpred : ∃ p ∈ cfg.preds b, idom p ≠ none ∧ order p < order b := by
        rcases h.forward b hb with rfl | hp | hp
        · exact absurd h.entry hself
        · exact absurd (h.root b (h.inside b hb) hp) hself
        · exact hp
      obtain ⟨p, hp, hreached, hlt⟩ := hpred
      obtain ⟨d, hd, had⟩ := hab.parent hne
      have hdb : d ≠ b := by
        rintro rfl
        exact hself hd
      have hdp := (h.meet b d hd hdb).anc p ⟨hp, hreached⟩
      exact (ih _ hlt hreached (had.trans hdp) rfl).tail ((hwf.mirror p b).mp hp)

theorem IsForest.reached_from_root (hwf : cfg.WellFormed) (h : IsForest cfg order idom)
    (hb : idom b ≠ none) : ∃ r ∈ roots cfg, Reaches cfg r b := by
  induction hm : order b using Nat.strong_induction_on generalizing b with
  | _ m ih =>
    subst hm
    rcases h.forward b hb with rfl | hp | ⟨p, hp, hreached, hlt⟩
    · exact ⟨_, mem_roots.mpr (.inl rfl), .refl⟩
    · exact ⟨b, mem_roots.mpr (.inr ⟨h.inside b hb, hp⟩), .refl⟩
    · obtain ⟨r, hr, hrp⟩ := ih _ hlt hreached rfl
      exact ⟨r, hr, hrp.tail ((hwf.mirror p b).mp hp)⟩

theorem IsForest.reaches_reached (h : IsForest cfg order idom) {a : ℕ} (ha : idom a ≠ none)
    (hab : Reaches cfg a b) : idom b ≠ none := by
  induction hab with
  | refl => exact ha
  | tail _ hs ih => exact h.succ _ _ ih hs

theorem IsForest.root_reached (h : IsForest cfg order idom) {r : ℕ} (hr : r ∈ roots cfg) :
    idom r = some r := by
  rcases mem_roots.mp hr with rfl | ⟨hlt, hp⟩
  · exact h.entry
  · exact h.root r hlt hp

end Forest

end Dominators
