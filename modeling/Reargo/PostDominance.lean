import Reargo.ForestDominance
import Reargo.Spreading

/-!
# Post-dominators

The dominator tree of the reversed graph from a virtual exit. The blocks without a successor
in range are wired to the exit; while some reached block does not reach it, the one with the
highest number in the reverse post-order is wired too.
-/
namespace PostDominance

open ControlFlow DepthFirst DominatorTree Dominance DominatorPaths Worklist Spreading List Option

structure PostDominators where
  /-- The exit is `none`. -/
  ipdom : List (Option ℕ)
  reachable : List Bool

/-- The walk up, with a bound on its steps. -/
def climbs (pd : PostDominators) (a : ℕ) : ℕ → ℕ → Option Bool
  | 0, _ => none
  | fuel + 1, b =>
    if a = b then some true
    else
      match pd.ipdom[b]? with
      | some (some p) => if p ≠ b then climbs pd a fuel p else some false
      | _ => some false

/-- Does `a` post-dominate `b`? `none` if the walk up did not end. -/
def postDominates (pd : PostDominators) (a b : ℕ) : Option Bool :=
  climbs pd a (pd.ipdom.length + 1) b

def blockOrder (cfg : ControlFlowGraph) : List ℕ :=
  reversePostOrder cfg.succs cfg.blocks.length cfg.entryBlock

/-- Reached blocks without a successor in range. -/
def leaving (cfg : ControlFlowGraph) : List ℕ :=
  (blockOrder cfg).filter fun b => (cfg.succs b).all fun s => cfg.blocks.length ≤ s

def reachedPreds (cfg : ControlFlowGraph) (b : ℕ) : List ℕ :=
  (cfg.preds b).filter fun p => p < cfg.blocks.length ∧ p ∈ blockOrder cfg

/-- The marks when the stack is empty. -/
def closure (next : ℕ → List ℕ) (fuel : ℕ) (st : List Bool × List ℕ) : Option (List Bool) :=
  let r := spread next fuel st
  if r.2 = [] then some r.1 else none

def reachesExit (cfg : ControlFlowGraph) (toExit : List ℕ) : Option (List Bool) :=
  closure (reachedPreds cfg) (cfg.blocks.length + toExit.length)
    (markAll cfg.blocks.length toExit, toExit.reverse)

def wire (cfg : ControlFlowGraph) : ℕ → List ℕ → List Bool → Option (List ℕ)
  | 0, _, _ => none
  | fuel + 1, toExit, seen =>
    match (blockOrder cfg).reverse.find? fun b => !marked seen b with
    | none => some toExit
    | some deepest =>
      (closure (reachedPreds cfg) (cfg.blocks.length + 1) (seen.set deepest true, [deepest])).bind
        fun seen => wire cfg fuel (toExit ++ [deepest]) seen

def wiredBlocks (cfg : ControlFlowGraph) : Option (List ℕ) :=
  (reachesExit cfg (leaving cfg)).bind fun seen =>
    wire cfg (cfg.blocks.length + 1) (leaving cfg) seen

/-- The virtual exit is numbered after the blocks. -/
def exitNode (cfg : ControlFlowGraph) : ℕ := cfg.blocks.length

def reverseSuccs (cfg : ControlFlowGraph) (toExit : List ℕ) (v : ℕ) : List ℕ :=
  if v = exitNode cfg then toExit else reachedPreds cfg v

def reversePreds (cfg : ControlFlowGraph) (toExit : List ℕ) (v : ℕ) : List ℕ :=
  (cfg.succs v).filter (fun s => s < cfg.blocks.length) ++ if v ∈ toExit then [exitNode cfg] else []

def exitOrder (cfg : ControlFlowGraph) (toExit : List ℕ) : List ℕ :=
  reversePostOrder (reverseSuccs cfg toExit) (cfg.blocks.length + 1) (exitNode cfg)

def exitParents (cfg : ControlFlowGraph) (toExit : List ℕ) : Parents :=
  immediate (reversePreds cfg toExit) (exitOrder cfg toExit) (exitNode cfg)

def postDominatorsOf (cfg : ControlFlowGraph) (toExit : List ℕ) : PostDominators where
  ipdom := (List.range cfg.blocks.length).map fun b => match exitParents cfg toExit b with
    | some p => if p ≠ exitNode cfg then some p else none
    | none => none
  reachable := (List.range cfg.blocks.length).map fun b => decide (b ∈ blockOrder cfg)

def computePostDominators (cfg : ControlFlowGraph) : Option PostDominators :=
  (wiredBlocks cfg).map (postDominatorsOf cfg)

/-- The lists mirror each other on the blocks; a successor out of range is not followed. -/
structure MirroredInRange (cfg : ControlFlowGraph) : Prop where
  entry_lt : cfg.blocks ≠ [] → cfg.entryBlock < cfg.blocks.length
  mirror : ∀ p s, s < cfg.blocks.length → (p ∈ cfg.preds s ↔ s ∈ cfg.succs p)

def BlockEdge (cfg : ControlFlowGraph) (p s : ℕ) : Prop := s ∈ cfg.succs p ∧ s < cfg.blocks.length

def ReachedBlock (cfg : ControlFlowGraph) (b : ℕ) : Prop :=
  b < cfg.blocks.length ∧ Reached (BlockEdge cfg) cfg.entryBlock b

/-- The edges of the reachable subgraph. -/
def SubEdge (cfg : ControlFlowGraph) (p s : ℕ) : Prop := ReachedBlock cfg p ∧ BlockEdge cfg p s

def ReachesExit (cfg : ControlFlowGraph) (toExit : List ℕ) (b : ℕ) : Prop :=
  ∃ w ∈ toExit, Relation.ReflTransGen (SubEdge cfg) b w

def ExitEdge (cfg : ControlFlowGraph) (toExit : List ℕ) (u v : ℕ) : Prop :=
  SubEdge cfg u v ∨ (v = exitNode cfg ∧ u ∈ toExit)

/-- The wired blocks: those without a successor in range, and then, again and again, the
block of the highest number that does not reach the exit yet. -/
inductive Wired (cfg : ControlFlowGraph) : List ℕ → Prop where
  | start {toExit} (h : ∀ b, b ∈ toExit ↔
      ReachedBlock cfg b ∧ ∀ s ∈ cfg.succs b, cfg.blocks.length ≤ s) : Wired cfg toExit
  | more {toExit d} (h : Wired cfg toExit) (hd : ReachedBlock cfg d)
      (hnot : ¬ ReachesExit cfg toExit d)
      (hmax : ∀ b, ReachedBlock cfg b → ¬ ReachesExit cfg toExit b →
        (blockOrder cfg).idxOf b ≤ (blockOrder cfg).idxOf d) : Wired cfg (toExit ++ [d])

/-- Every way from the second to the exit meets the first. -/
def PostDominates (cfg : ControlFlowGraph) (toExit : List ℕ) (a b : ℕ) : Prop :=
  Dominates (fun v u => ExitEdge cfg toExit u v) (exitNode cfg) a b

def ImmediatePostDominator (cfg : ControlFlowGraph) (toExit : List ℕ) (p b : ℕ) : Prop :=
  ImmediateDominator (fun v u => ExitEdge cfg toExit u v) (exitNode cfg) p b

variable {cfg : ControlFlowGraph} {b : ℕ}

theorem mem_order_iff {next : ℕ → List ℕ} {n entry : ℕ} {rpo : List ℕ}
    (h : PostOrder next n entry rpo) :
    b ∈ rpo ↔ Reached (fun p s => s ∈ next p ∧ s < n) entry b := by
  constructor
  · intro hb
    induction hk : rpo.idxOf b using Nat.strong_induction_on generalizing b with
    | _ k ih =>
      obtain ⟨l, r, hsplit⟩ := append_of_mem hb
      rcases h.parent l b r hsplit with rfl | ⟨q, hq, hqb⟩
      · exact reached_root
      · have hqmem : q ∈ rpo := by
          rw [hsplit]
          exact mem_append_left _ hq
        have hlt : rpo.idxOf q < rpo.idxOf b := by
          have hnodup := h.nodup
          rw [hsplit] at hnodup ⊢
          have hbl : b ∉ l := fun hbl => (nodup_append.mp hnodup).2.2 b hbl b mem_cons_self rfl
          rw [idxOf_append_of_mem hq, idxOf_append_of_notMem hbl]
          have hlen := idxOf_lt_length_iff.mpr hq
          omega
        exact (ih _ (hk ▸ hlt) hqmem rfl).step ⟨hqb, h.inside b hb⟩
  · intro hb
    exact hb.induct (mem_of_mem_head? h.head) fun x y _ hx hxy => h.closed x hx y hxy.1 hxy.2

theorem mem_blockOrder (hm : MirroredInRange cfg) : b ∈ blockOrder cfg ↔ ReachedBlock cfg b := by
  by_cases hne : cfg.blocks = []
  · have hempty : blockOrder cfg = [] := by
      unfold blockOrder reversePostOrder stepBound
      rw [hne]
      rfl
    rw [hempty]
    refine iff_of_false not_mem_nil ?_
    rintro ⟨hlt, -⟩
    rw [hne] at hlt
    exact absurd hlt (Nat.not_lt_zero b)
  · have hpo : PostOrder cfg.succs cfg.blocks.length cfg.entryBlock (blockOrder cfg) :=
      postOrder_reversePostOrder (hm.entry_lt hne)
    constructor
    · exact fun hb => ⟨hpo.inside b hb, (mem_order_iff hpo).mp hb⟩
    · exact fun hb => (mem_order_iff hpo).mpr hb.2

theorem nodup_blockOrder (hm : MirroredInRange cfg) : (blockOrder cfg).Nodup := by
  by_cases hne : cfg.blocks = []
  · have hempty : blockOrder cfg = [] := by
      unfold blockOrder reversePostOrder stepBound
      rw [hne]
      rfl
    rw [hempty]
    exact nodup_nil
  · exact (postOrder_reversePostOrder (hm.entry_lt hne)).nodup

theorem mem_reachedPreds (hm : MirroredInRange cfg) {p s : ℕ} :
    p ∈ reachedPreds cfg s ↔ SubEdge cfg p s := by
  unfold reachedPreds
  rw [mem_filter, decide_eq_true_eq, mem_blockOrder hm]
  constructor
  · rintro ⟨hp, -, hr⟩
    have hs := lt_of_mem_preds hp
    exact ⟨hr, (hm.mirror p s hs).mp hp, hs⟩
  · rintro ⟨hr, hedge, hs⟩
    exact ⟨(hm.mirror p s hs).mpr hedge, hr.1, hr⟩

theorem reachable_reachedPreds (hm : MirroredInRange cfg) {w : ℕ} :
    Reachable (reachedPreds cfg) w b ↔ Relation.ReflTransGen (SubEdge cfg) b w := by
  have hedge : Worklist.Edge (reachedPreds cfg) = fun s p => SubEdge cfg p s :=
    funext fun s => funext fun p => propext (mem_reachedPreds hm)
  unfold Reachable
  rw [hedge]
  constructor
  · exact fun h => h.swap
  · exact fun h => h.swap

structure MarksExit (cfg : ControlFlowGraph) (toExit : List ℕ) (seen : List Bool) : Prop where
  length : seen.length = cfg.blocks.length
  marked_iff : ∀ x, x < cfg.blocks.length → (marked seen x = true ↔ ReachesExit cfg toExit x)

variable {toExit : List ℕ}

theorem Wired.inside (h : Wired cfg toExit) : ∀ b ∈ toExit, ReachedBlock cfg b := by
  induction h with
  | start h => exact fun b hb => ((h b).mp hb).1
  | more _ hd _ _ ih =>
    intro b hb
    rcases mem_append.mp hb with hb | hb
    · exact ih b hb
    · exact mem_singleton.mp hb ▸ hd

/-- The first block found from the end has the highest number. -/
theorem idxOf_le_of_find {xs : List ℕ} {p : ℕ → Bool} {d : ℕ} (hnodup : xs.Nodup)
    (hfind : xs.reverse.find? p = some d) (hb : b ∈ xs) (hpb : p b = true) :
    xs.idxOf b ≤ xs.idxOf d := by
  obtain ⟨-, l, r, hsplit, hl⟩ := find?_eq_some_iff_append.mp hfind
  have hxs : xs = r.reverse ++ d :: l.reverse := by
    have hrev := congrArg List.reverse hsplit
    rw [reverse_reverse] at hrev
    rw [hrev, reverse_append, reverse_cons, append_assoc]
    rfl
  have hbl : b ∉ l := fun hmem => by
    have hnot := hl b hmem
    rw [hpb] at hnot
    cases hnot
  have hd : d ∉ r.reverse := by
    rw [hxs] at hnodup
    exact fun hmem => (nodup_append.mp hnodup).2.2 d hmem d mem_cons_self rfl
  rw [hxs] at hb ⊢
  rw [idxOf_append_of_notMem hd, idxOf_cons_self]
  rcases mem_append.mp hb with hb | hb
  · rw [idxOf_append_of_mem hb]
    have hlt := idxOf_lt_length_iff.mpr hb
    omega
  · rcases mem_cons.mp hb with rfl | hb
    · rw [idxOf_append_of_notMem hd, idxOf_cons_self]
    · exact absurd (mem_reverse.mp hb) hbl

section Wiring

variable (hm : MirroredInRange cfg)
include hm

theorem closure_marksExit {toExit : List ℕ} {fuel : ℕ} {st : List Bool × List ℕ}
    (h : Sound (reachedPreds cfg) (fun b => b ∈ toExit) cfg.blocks.length st)
    (hfuel : popsLeft st ≤ fuel) :
    ∃ seen, closure (reachedPreds cfg) fuel st = some seen ∧ MarksExit cfg toExit seen ∧
      seen = (spread (reachedPreds cfg) fuel st).1 := by
  have hnext : ∀ b, ∀ s ∈ reachedPreds cfg b, s < cfg.blocks.length := fun b s hs =>
    ((mem_reachedPreds hm).mp hs).1.1
  obtain ⟨hsound, hempty⟩ := spread_spec hnext fuel st h hfuel
  refine ⟨(spread (reachedPreds cfg) fuel st).1, ?_, ⟨hsound.length, ?_⟩, rfl⟩
  · unfold closure
    simp only [hempty, if_true]
  · intro x hx
    rw [marked_spread_iff hnext h hfuel hx]
    unfold ReachesExit
    simp only [reachable_reachedPreds hm]

theorem reachesExit_spec {toExit : List ℕ} (hin : ∀ b ∈ toExit, ReachedBlock cfg b) :
    ∃ seen, reachesExit cfg toExit = some seen ∧ MarksExit cfg toExit seen := by
  have hsound := sound_markAll (reachedPreds cfg) fun b hb => (hin b hb).1
  have hfuel := popsLeft_markAll cfg.blocks.length toExit
  obtain ⟨seen, hseen, hmarks, -⟩ := closure_marksExit hm hsound hfuel
  exact ⟨seen, hseen, hmarks⟩

theorem closure_deepest {toExit : List ℕ} {seen : List Bool} {d : ℕ}
    (hseen : MarksExit cfg toExit seen) (hin : ∀ b ∈ toExit, ReachedBlock cfg b)
    (hd : ReachedBlock cfg d) (hnot : marked seen d = false) :
    ∃ seen', closure (reachedPreds cfg) (cfg.blocks.length + 1) (seen.set d true, [d]) =
        some seen' ∧ MarksExit cfg (toExit ++ [d]) seen' ∧
      seen'.count false < seen.count false := by
  have hset : ∀ x, marked (seen.set d true) x = true ↔ marked seen x = true ∨ x = d := by
    intro x
    rw [marked_set, Bool.or_eq_true, decide_eq_true_eq]
  have hmem : ∀ x, x ∈ toExit ++ [d] ↔ x ∈ toExit ∨ x = d := by
    intro x
    rw [mem_append, mem_singleton]
  have hself : ∀ b ∈ toExit, marked seen b = true := fun b hb =>
    (hseen.marked_iff b (hin b hb).1).mpr ⟨b, hb, .refl⟩
  have hsound : Sound (reachedPreds cfg) (fun b => b ∈ toExit ++ [d]) cfg.blocks.length
      (seen.set d true, [d]) := by
    constructor
    · exact length_set.trans hseen.length
    · intro x hx hmark
      rcases (hset x).mp hmark with hmark | rfl
      · obtain ⟨w, hw, hway⟩ := (hseen.marked_iff x hx).mp hmark
        exact ⟨w, (hmem w).mpr (.inl hw), (reachable_reachedPreds hm).mpr hway⟩
      · exact ⟨x, (hmem x).mpr (.inr rfl), .refl⟩
    · intro b hb
      rcases (hmem b).mp hb with hb | rfl
      · exact ⟨(hin b hb).1, (hset b).mpr (.inl (hself b hb))⟩
      · exact ⟨hd.1, (hset b).mpr (.inr rfl)⟩
    · intro x hx
      obtain rfl := mem_singleton.mp hx
      exact ⟨hd.1, (hset x).mpr (.inr rfl)⟩
    · intro b hb hmark
      rcases (hset b).mp hmark with hmark | rfl
      · -- the marks were closed before
        right
        intro s hs
        obtain ⟨w, hw, hway⟩ := (hseen.marked_iff b hb).mp hmark
        have hedge := (mem_reachedPreds hm).mp hs
        exact (hset s).mpr (.inl ((hseen.marked_iff s hedge.1.1).mpr ⟨w, hw, .head hedge hway⟩))
      · exact .inl mem_cons_self
  have hcount := count_set_false hnot
  have hfuel : popsLeft (seen.set d true, [d]) ≤ cfg.blocks.length + 1 := by
    have hle := count_le_length (a := false) (l := seen)
    rw [hseen.length] at hle
    simp only [popsLeft, length_singleton]
    omega
  obtain ⟨seen', hseen', hmarks, heq⟩ := closure_marksExit hm hsound hfuel
  refine ⟨seen', hseen', hmarks, ?_⟩
  have hle := count_spread_le (reachedPreds cfg) (cfg.blocks.length + 1) (seen.set d true, [d])
  rw [← heq] at hle
  simp only at hle
  omega

theorem wire_spec (fuel : ℕ) (toExit : List ℕ) (seen : List Bool) (hwired : Wired cfg toExit)
    (hseen : MarksExit cfg toExit seen) (hfuel : seen.count false < fuel) :
    ∃ toExit', wire cfg fuel toExit seen = some toExit' ∧ Wired cfg toExit' ∧
      ∀ b, ReachedBlock cfg b → ReachesExit cfg toExit' b := by
  induction fuel generalizing toExit seen with
  | zero => omega
  | succ fuel ih =>
    unfold wire
    cases hfind : (blockOrder cfg).reverse.find? fun b => !marked seen b with
    | none =>
      refine ⟨toExit, rfl, hwired, ?_⟩
      intro b hb
      have hmark := find?_eq_none.mp hfind b (mem_reverse.mpr ((mem_blockOrder hm).mpr hb))
      rw [Bool.not_eq_true', Bool.not_eq_false] at hmark
      exact (hseen.marked_iff b hb.1).mp hmark
    | some d =>
      have hdmem := mem_reverse.mp (mem_of_find?_eq_some hfind)
      have hd := (mem_blockOrder hm).mp hdmem
      have hnot : marked seen d = false := by
        have hp := find?_some hfind
        rwa [Bool.not_eq_true'] at hp
      have hunmarked : ∀ b, ReachedBlock cfg b → ¬ ReachesExit cfg toExit b →
          marked seen b = false := by
        intro b hb hreach
        rw [Bool.eq_false_iff]
        exact fun hmark => hreach ((hseen.marked_iff b hb.1).mp hmark)
      have hmore : Wired cfg (toExit ++ [d]) := by
        refine hwired.more hd ?_ ?_
        · intro hreach
          rw [(hseen.marked_iff d hd.1).mpr hreach] at hnot
          cases hnot
        · intro b hb hreach
          refine idxOf_le_of_find (nodup_blockOrder hm) hfind ((mem_blockOrder hm).mpr hb) ?_
          rw [hunmarked b hb hreach]
          rfl
      obtain ⟨seen', hclosure, hmarks, hlt⟩ :=
        closure_deepest hm hseen (hwired.inside) hd hnot
      simp only [hclosure, bind_some]
      exact ih _ _ hmore hmarks (by omega)

theorem wiredBlocks_spec : ∃ toExit, wiredBlocks cfg = some toExit ∧ Wired cfg toExit ∧
    ∀ b, ReachedBlock cfg b → ReachesExit cfg toExit b := by
  have hstart : Wired cfg (leaving cfg) := by
    refine .start fun b => ?_
    unfold leaving
    rw [mem_filter, mem_blockOrder hm, List.all_eq_true]
    simp only [decide_eq_true_eq]
  obtain ⟨seen, hseen, hmarks⟩ := reachesExit_spec hm (hstart.inside)
  unfold wiredBlocks
  rw [hseen, bind_some]
  refine wire_spec hm _ _ _ hstart hmarks ?_
  have hle := count_le_length (a := false) (l := seen)
  rw [hmarks.length] at hle
  omega

end Wiring

def reachedReversePreds (cfg : ControlFlowGraph) (toExit : List ℕ) (v : ℕ) : List ℕ :=
  if v ∈ blockOrder cfg then reversePreds cfg toExit v else []

theorem exit_postOrder (cfg : ControlFlowGraph) (toExit : List ℕ) :
    PostOrder (reverseSuccs cfg toExit) (cfg.blocks.length + 1) (exitNode cfg)
      (exitOrder cfg toExit) :=
  postOrder_reversePostOrder (Nat.lt_succ_self _)

theorem mem_reverseSuccs (hm : MirroredInRange cfg) {q : ℕ} :
    b ∈ reverseSuccs cfg toExit q ↔ ExitEdge cfg toExit b q := by
  unfold reverseSuccs ExitEdge
  split
  · next hq =>
    constructor
    · exact fun hb => .inr ⟨hq, hb⟩
    · rintro (⟨-, -, hlt⟩ | ⟨-, hb⟩)
      · exact absurd (hq ▸ hlt) (lt_irrefl _)
      · exact hb
  · next hq =>
    rw [mem_reachedPreds hm]
    exact (or_iff_left fun h => hq h.1).symm

section Tree

variable (hm : MirroredInRange cfg) {toExit : List ℕ} (hin : ∀ b ∈ toExit, ReachedBlock cfg b)
include hm hin

theorem mem_reachedReversePreds {q : ℕ} :
    q ∈ reachedReversePreds cfg toExit b ↔ ExitEdge cfg toExit b q := by
  unfold reachedReversePreds ExitEdge SubEdge BlockEdge
  split
  · next hb =>
    have hb' := (mem_blockOrder hm).mp hb
    unfold reversePreds
    rw [mem_append, mem_filter, decide_eq_true_eq]
    constructor
    · rintro (hq | hq)
      · exact .inl ⟨hb', hq⟩
      · split at hq
        · next hw => exact .inr ⟨mem_singleton.mp hq, hw⟩
        · exact absurd hq not_mem_nil
    · rintro (⟨-, hq⟩ | ⟨rfl, hw⟩)
      · exact .inl hq
      · right
        rw [if_pos hw]
        exact mem_singleton_self _
  · next hb =>
    refine iff_of_false not_mem_nil ?_
    rintro (⟨hr, -⟩ | ⟨-, hw⟩)
    · exact hb ((mem_blockOrder hm).mpr hr)
    · exact hb ((mem_blockOrder hm).mpr (hin b hw))

theorem covers_exit :
    Covers (reachedReversePreds cfg toExit) (exitOrder cfg toExit) (exitNode cfg) := by
  refine ForestDominance.covers_of_postOrder (exit_postOrder cfg toExit) ?_ ?_
  · intro q b
    rw [mem_reverseSuccs hm, mem_reachedReversePreds hm hin]
  · intro q b hb
    have hlt : b < cfg.blocks.length := by
      rcases (mem_reverseSuccs hm).mp hb with ⟨hr, -⟩ | ⟨-, hw⟩
      · exact hr.1
      · exact (hin b hw).1
    omega

theorem edge_exit : DominatorPaths.Edge (reachedReversePreds cfg toExit) =
    fun v u => ExitEdge cfg toExit u v :=
  funext fun _ => funext fun _ => propext (mem_reachedReversePreds hm hin)

theorem exitPreds_eq : ∀ b ∈ (exitOrder cfg toExit).drop 1,
    reversePreds cfg toExit b = reachedReversePreds cfg toExit b := by
  intro b hb
  have hn := (covers_exit hm hin).numbering
  have hmem : b ∈ exitOrder cfg toExit := mem_of_mem_drop hb
  have hne : b ≠ exitNode cfg := by
    rintro rfl
    have hnodup := hn.nodup
    rw [hn.split] at hnodup
    exact (nodup_append.mp hnodup).2.2 _ (mem_singleton_self _) _ hb rfl
  obtain ⟨q, hq, -⟩ := hn.forward b hmem hne
  have hreached : ReachedBlock cfg b := by
    rcases (mem_reachedReversePreds hm hin).mp hq with ⟨hr, -⟩ | ⟨-, hw⟩
    · exact hr
    · exact hin b hw
  unfold reachedReversePreds
  rw [if_pos ((mem_blockOrder hm).mpr hreached)]

theorem exitParents_eq : exitParents cfg toExit =
    immediate (reachedReversePreds cfg toExit) (exitOrder cfg toExit) (exitNode cfg) :=
  immediate_congr (exitPreds_eq hm hin)

theorem mem_exitOrder (hexit : ∀ b, ReachedBlock cfg b → ReachesExit cfg toExit b)
    (hb : b < cfg.blocks.length) : b ∈ exitOrder cfg toExit ↔ ReachedBlock cfg b := by
  rw [(covers_exit hm hin).mem_iff, edge_exit hm hin]
  constructor
  · rintro ⟨l, hl⟩
    cases hl with
    | root => exact absurd hb (lt_irrefl _)
    | step _ hedge =>
      rcases hedge with ⟨hr, -⟩ | ⟨-, hw⟩
      · exact hr
      · exact hin b hw
  · intro hr
    obtain ⟨w, hw, hway⟩ := hexit b hr
    have hback : Relation.ReflTransGen (fun v u => ExitEdge cfg toExit u v) w b :=
      Relation.ReflTransGen.mono (fun v u h => .inl h) _ _ hway.swap
    exact reached_iff.mpr (.head (.inr ⟨rfl, hw⟩) hback)

theorem exitParents_eq_some {p : ℕ} (hb : b < cfg.blocks.length) :
    exitParents cfg toExit b = some p ↔ ImmediatePostDominator cfg toExit p b := by
  rw [exitParents_eq hm hin, immediate_eq_some_iff (covers_exit hm hin) hb.ne, edge_exit hm hin]
  exact .rfl

theorem ancestor_iff_postDominates (hexit : ∀ b, ReachedBlock cfg b → ReachesExit cfg toExit b)
    {a : ℕ} (hb : ReachedBlock cfg b) :
    Ancestor (exitParents cfg toExit) a b ↔ PostDominates cfg toExit a b := by
  rw [exitParents_eq hm hin, ancestor_iff_dominates (covers_exit hm hin)
    ((mem_exitOrder hm hin hexit hb.1).mpr hb), edge_exit hm hin]
  exact .rfl

theorem isTree_exitParents : IsTree (reachedReversePreds cfg toExit) (exitOrder cfg toExit)
    (exitNode cfg) (exitParents cfg toExit) := by
  rw [exitParents_eq hm hin]
  exact immediate_isTree (covers_exit hm hin).numbering

end Tree

theorem getElem?_ipdom (hb : b < cfg.blocks.length) : (postDominatorsOf cfg toExit).ipdom[b]? =
      some (match exitParents cfg toExit b with
        | some p => if p ≠ exitNode cfg then some p else none
        | none => none) := by
  unfold postDominatorsOf
  simp only [getElem?_map, getElem?_range hb, map_some]

theorem length_ipdom (cfg : ControlFlowGraph) (toExit : List ℕ) :
    (postDominatorsOf cfg toExit).ipdom.length = cfg.blocks.length := by
  unfold postDominatorsOf
  rw [length_map, length_range]

theorem idxOf_exitOrder_lt (hb : b ∈ exitOrder cfg toExit) :
    (exitOrder cfg toExit).idxOf b < (postDominatorsOf cfg toExit).ipdom.length + 1 := by
  have hpo := exit_postOrder cfg toExit
  have hlen := Dominators.length_order_le hpo.nodup hpo.inside
  have hlt := idxOf_lt_length_iff.mpr hb
  rw [length_ipdom]
  omega

section Walk

variable (hm : MirroredInRange cfg) {toExit : List ℕ} (hin : ∀ b ∈ toExit, ReachedBlock cfg b)
include hm hin

theorem climbs_spec {a : ℕ} (ha : a < cfg.blocks.length) (fuel b : ℕ)
    (hb : b ∈ exitOrder cfg toExit) (hlt : b < cfg.blocks.length)
    (hfuel : (exitOrder cfg toExit).idxOf b < fuel) :
    ∃ r, climbs (postDominatorsOf cfg toExit) a fuel b = some r ∧
      (r = true ↔ Ancestor (exitParents cfg toExit) a b) := by
  have ht := isTree_exitParents hm hin
  induction fuel generalizing b with
  | zero => omega
  | succ fuel ih =>
    unfold climbs
    by_cases hab : a = b
    · rw [if_pos hab]
      exact ⟨true, rfl, fun _ => hab ▸ .self a, fun _ => rfl⟩
    · obtain ⟨p, hp⟩ := ne_none_iff_exists'.mp ((ht.processed_iff b).mpr hb)
      have hpmem : p ∈ exitOrder cfg toExit := (ht.processed_iff p).mp (ht.ordered.closed b p hp)
      have horder : (exitOrder cfg toExit).idxOf p < (exitOrder cfg toExit).idxOf b :=
        ht.ordered.lt b p hlt.ne hp
      have hclimb : Ancestor (exitParents cfg toExit) a b ↔
          Ancestor (exitParents cfg toExit) a p := by
        constructor
        · intro h
          obtain ⟨p', hp', hap⟩ := h.parent hab
          obtain rfl := some.inj (hp.symm.trans hp')
          exact hap
        · exact fun h => .climb hp h
      rw [if_neg hab, getElem?_ipdom hlt, hp, hclimb]
      by_cases hpe : p = exitNode cfg
      · simp only [hpe, ne_eq, not_true_eq_false, if_false]
        refine ⟨false, rfl, iff_of_false Bool.false_ne_true ?_⟩
        exact fun h => ha.ne (ht.ordered.anc_entry h)
      · have hpb : p ≠ b := by
          rintro rfl
          exact lt_irrefl _ horder
        have hplt : p < cfg.blocks.length := by
          have hinside := (exit_postOrder cfg toExit).inside p hpmem
          exact lt_of_le_of_ne (Nat.le_of_lt_succ hinside) hpe
        simp only [ne_eq, hpe, not_false_eq_true, if_true, hpb]
        exact ih p hpmem hplt (by omega)

end Walk

/-- What the analysis promises about the wired blocks and the result. -/
structure Correct (cfg : ControlFlowGraph) (toExit : List ℕ) (pd : PostDominators) : Prop where
  wired : Wired cfg toExit
  exits : ∀ b, ReachedBlock cfg b → ReachesExit cfg toExit b
  lengths : pd.ipdom.length = cfg.blocks.length ∧ pd.reachable.length = cfg.blocks.length
  reachable : ∀ b, pd.reachable[b]? = some true ↔ ReachedBlock cfg b
  parent : ∀ b p, ReachedBlock cfg b →
    (pd.ipdom[b]? = some (some p) ↔ p ≠ exitNode cfg ∧ ImmediatePostDominator cfg toExit p b)
  exit : ∀ b, ReachedBlock cfg b →
    (pd.ipdom[b]? = some none ↔ ImmediatePostDominator cfg toExit (exitNode cfg) b)
  unreached : ∀ b, b < cfg.blocks.length → ¬ ReachedBlock cfg b → pd.ipdom[b]? = some none
  relation : ∀ a b, a < cfg.blocks.length → ReachedBlock cfg b →
    ∃ r, postDominates pd a b = some r ∧ (r = true ↔ PostDominates cfg toExit a b)

/-- The two searches end with an empty stack, and another round of the iteration would change
nothing. -/
structure Ends (cfg : ControlFlowGraph) (toExit : List ℕ) : Prop where
  search : cfg.blocks ≠ [] → (run cfg.succs (stepBound cfg.succs cfg.blocks.length)
    (start cfg.succs cfg.blocks.length cfg.entryBlock)).stack = []
  reverseSearch : (run (reverseSuccs cfg toExit)
    (stepBound (reverseSuccs cfg toExit) (cfg.blocks.length + 1))
    (start (reverseSuccs cfg toExit) (cfg.blocks.length + 1) (exitNode cfg))).stack = []
  rounds : (round (reversePreds cfg toExit) (exitOrder cfg toExit)
    (exitParents cfg toExit)).2 = false

theorem ends_of_inside (hm : MirroredInRange cfg)
    (hin : ∀ b ∈ toExit, ReachedBlock cfg b) : Ends cfg toExit := by
  constructor
  · exact fun hne => stack_run _ _ (.inr (stepsLeft_start (hm.entry_lt hne)).le)
  · exact stack_run _ _ (.inr (stepsLeft_start (Nat.lt_succ_self _)).le)
  · rw [round_congr (exitPreds_eq hm hin), exitParents_eq hm hin]
    exact immediate_stable (covers_exit hm hin).numbering

theorem correct_postDominatorsOf (hm : MirroredInRange cfg)
    (hwired : Wired cfg toExit) (hexit : ∀ b, ReachedBlock cfg b → ReachesExit cfg toExit b) :
    Correct cfg toExit (postDominatorsOf cfg toExit) := by
  have hin := hwired.inside
  have ht := isTree_exitParents hm hin
  have hsome : ∀ b, ReachedBlock cfg b → ∃ p, exitParents cfg toExit b = some p := by
    intro b hb
    exact ne_none_iff_exists'.mp
      ((ht.processed_iff b).mpr ((mem_exitOrder hm hin hexit hb.1).mpr hb))
  constructor
  · exact hwired
  · exact hexit
  · refine ⟨length_ipdom cfg toExit, ?_⟩
    unfold postDominatorsOf
    rw [length_map, length_range]
  · intro b
    unfold postDominatorsOf
    by_cases hb : b < cfg.blocks.length
    · simp only [getElem?_map, getElem?_range hb, map_some, some.injEq,
        decide_eq_true_eq]
      exact mem_blockOrder hm
    · refine iff_of_false ?_ fun h => hb h.1
      rw [getElem?_eq_none (by rw [length_map, length_range]; omega)]
      exact fun h => by cases h
  · intro b p hb
    obtain ⟨q, hq⟩ := hsome b hb
    rw [getElem?_ipdom hb.1, ← exitParents_eq_some hm hin hb.1, hq]
    by_cases hqe : q = exitNode cfg
    · simp only [hqe, ne_eq, not_true_eq_false, if_false, some.injEq, reduceCtorEq,
        false_iff, not_and]
      exact fun hp heq => hp heq.symm
    · simp only [ne_eq, hqe, not_false_eq_true, if_true, some.injEq]
      constructor
      · rintro rfl
        exact ⟨hqe, rfl⟩
      · exact fun h => h.2
  · intro b hb
    obtain ⟨q, hq⟩ := hsome b hb
    rw [getElem?_ipdom hb.1, ← exitParents_eq_some hm hin hb.1, hq]
    by_cases hqe : q = exitNode cfg
    · simp only [hqe, ne_eq, not_true_eq_false, if_false]
    · simp only [ne_eq, hqe, not_false_eq_true, if_true, some.injEq, reduceCtorEq]
  · intro b hb hr
    have hnone : exitParents cfg toExit b = none := by
      by_contra hne
      exact hr ((mem_exitOrder hm hin hexit hb).mp ((ht.processed_iff b).mp hne))
    rw [getElem?_ipdom hb, hnone]
  · intro a b ha hb
    have hmem := (mem_exitOrder hm hin hexit hb.1).mpr hb
    obtain ⟨r, hr, hiff⟩ :=
      climbs_spec hm hin ha _ b hmem hb.1 (idxOf_exitOrder_lt hmem)
    exact ⟨r, hr, hiff.trans (ancestor_iff_postDominates hm hin hexit hb)⟩

/-- The wiring loop ends, every reached block then reaches the exit, and the result is the
post-dominance of the wired graph. -/
theorem post_dominators_correct (hm : MirroredInRange cfg) :
    ∃ toExit pd, wiredBlocks cfg = some toExit ∧ computePostDominators cfg = some pd ∧
      Ends cfg toExit ∧ Correct cfg toExit pd := by
  obtain ⟨toExit, hwire, hwired, hexit⟩ := wiredBlocks_spec hm
  refine ⟨toExit, postDominatorsOf cfg toExit, hwire, ?_, ends_of_inside hm hwired.inside,
    correct_postDominatorsOf hm hwired hexit⟩
  unfold computePostDominators
  rw [hwire, map_some]

/-- A branch to a return or into a loop of two blocks without a way out. -/
def infiniteLoop : ControlFlowGraph :=
  ⟨linkPreds [⟨0, 0x1000, [], [2, 1], []⟩, ⟨1, 0x1001, [], [], []⟩, ⟨2, 0x1002, [], [3], []⟩,
    ⟨3, 0x1003, [], [2], []⟩], 0, [], OrderedMap.OrdMap.empty⟩

theorem post_dominators_correct_infinite_loop : wiredBlocks infiniteLoop = some [1, 3] ∧
      ∃ pd, computePostDominators infiniteLoop = some pd ∧
        pd.ipdom = [none, none, some 3, none] ∧ Correct infiniteLoop [1, 3] pd := by
  have hwf : infiniteLoop.WellFormed := wellFormed_linkPreds_of_all (by decide) (by decide)
  have hm : MirroredInRange infiniteLoop := ⟨hwf.entry_lt, fun p s _ => hwf.mirror p s⟩
  obtain ⟨toExit, pd, hwire, hpd, -, hcorrect⟩ := post_dominators_correct hm
  have hwire' : wiredBlocks infiniteLoop = some [1, 3] := by decide +kernel
  obtain rfl := some.inj (hwire'.symm.trans hwire)
  refine ⟨hwire', pd, hpd, ?_, hcorrect⟩
  have hipdom : (computePostDominators infiniteLoop).map PostDominators.ipdom =
      some [none, none, some 3, none] := by decide +kernel
  rw [hpd] at hipdom
  exact some.inj hipdom

end PostDominance
