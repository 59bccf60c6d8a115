import Reargo.ShortCircuits

/-!
# Threaded edges follow the original ones

Threading changes an edge only to a block the original graph reaches through empty
blocks. What the search from the entry leaves out loses its edges.
-/
namespace EdgeThreading

open ControlFlow ShortCircuits List

/-- Where a block goes on: by its condition with two successors, by an index with more. -/
def branch (c : Bool) (k : ℕ) : List ℕ → Option ℕ
  | [] => none
  | [s] => some s
  | [s, t] => some (if c then s else t)
  | succs => succs[k]?

/-- The walk from a block on to another, through blocks that let it pass. -/
inductive Follows (next : ℕ → Option ℕ) (Passed : ℕ → Prop) : ℕ → ℕ → Prop where
  | step {b t} : next b = some t → Follows next Passed b t
  | pass {b m t} : next b = some m → Passed m → Follows next Passed m t →
      Follows next Passed b t

variable {b t : ℕ}

section Follows

variable {next : ℕ → Option ℕ} {P Q : ℕ → Prop}

theorem Follows.mono (hPQ : ∀ m, P m → Q m) (h : Follows next P b t) : Follows next Q b t := by
  induction h with
  | step hn => exact .step hn
  | pass hn hm _ ih => exact .pass hn (hPQ _ hm) ih

theorem Follows.trans {m : ℕ} (h : Follows next P b m) (hm : P m)
    (k : Follows next P m t) : Follows next P b t := by
  induction h with
  | step hn => exact .pass hn hm k
  | pass hn hx _ ih => exact .pass hn hx (ih hm k)

end Follows

/-- The second block is where empty blocks lead from the first. -/
abbrev Leads (cfg : ControlFlowGraph) (empty : ℕ → Bool) : ℕ → ℕ → Prop :=
  Relation.ReflTransGen fun x y => empty x = true ∧ cfg.succs x = [y]

variable {cfg : ControlFlowGraph}

theorem follows_of_leads {empty : ℕ → Bool} {σ : ℕ → Bool} {κ : ℕ → ℕ} {s : ℕ}
    (hb : branch (σ b) (κ b) (cfg.succs b) = some s) (h : Leads cfg empty s t) :
    Follows (fun x => branch (σ x) (κ x) (cfg.succs x)) (fun m => empty m = true) b t := by
  induction h with
  | refl => exact .step hb
  | tail _ hstep ih =>
    refine ih.trans hstep.1 (.step ?_)
    rw [hstep.2]
    rfl

theorem branch_joinArms (c : Bool) (k : ℕ) (succs : List ℕ) :
    branch c k (joinArms succs) = branch c k succs := by
  unfold joinArms
  split
  · next s t =>
    split
    · next heq =>
      subst heq
      cases c <;> rfl
    · rfl
  · rfl

variable {R : ℕ → ℕ → Prop}

/-- Arms replaced one by one: the same arm is taken. -/
theorem branch_forall₂ {l l' : List ℕ} (h : List.Forall₂ R l l') (c : Bool) (k : ℕ) :
    (branch c k l' = none ↔ branch c k l = none) ∧
      ∀ t, branch c k l' = some t → ∃ s, branch c k l = some s ∧ R s t := by
  match l, l', h with
  | [], [], .nil => simp [branch]
  | [s], [t], .cons hst .nil => simpa [branch] using hst
  | [s, u], [t, v], .cons hst (.cons huv .nil) =>
    cases c
    · simpa [branch] using huv
    · simpa [branch] using hst
  | s :: u :: w :: l, t :: v :: z :: l', h =>
    have hlen := h.length_eq
    simp only [branch]
    refine ⟨?_, fun x hx => ?_⟩
    · rw [List.getElem?_eq_none_iff, List.getElem?_eq_none_iff, hlen]
    · obtain ⟨hk, rfl⟩ := List.getElem?_eq_some_iff.mp hx
      exact ⟨_, List.getElem?_eq_getElem (hlen ▸ hk), h.get (hlen ▸ hk) hk⟩

section Edits

variable (cfg : ControlFlowGraph)

theorem succs_setSuccessors (hb : b < cfg.blocks.length) (succs : List ℕ) (x : ℕ) :
    (setSuccessors cfg b succs).succs x = if x = b then succs else cfg.succs x := by
  unfold ControlFlowGraph.succs ControlFlowGraph.block setSuccessors
  simp only [getD_eq_getElem?_getD, getElem?_modify]
  by_cases hx : b = x
  · subst hx
    simp [getElem?_eq_getElem hb]
  · simp [hx, Ne.symm hx]

@[simp] theorem preds_setSuccessors (b : ℕ) (succs : List ℕ) (x : ℕ) :
    (setSuccessors cfg b succs).preds x = cfg.preds x := by
  unfold ControlFlowGraph.preds ControlFlowGraph.block setSuccessors
  simp only [getD_eq_getElem?_getD, getElem?_modify]
  cases cfg.blocks[x]? with
  | none => rfl
  | some blk => by_cases hx : b = x <;> simp [hx]

theorem preds_mapPredecessors (hb : b < cfg.blocks.length) (f : List ℕ → List ℕ) (x : ℕ) :
    (mapPredecessors cfg b f).preds x = if x = b then f (cfg.preds x) else cfg.preds x := by
  unfold ControlFlowGraph.preds ControlFlowGraph.block mapPredecessors
  simp only [getD_eq_getElem?_getD, getElem?_modify]
  by_cases hx : b = x
  · subst hx
    simp [getElem?_eq_getElem hb]
  · simp [hx, Ne.symm hx]

@[simp] theorem succs_mapPredecessors (b : ℕ) (f : List ℕ → List ℕ) (x : ℕ) :
    (mapPredecessors cfg b f).succs x = cfg.succs x := by
  unfold ControlFlowGraph.succs ControlFlowGraph.block mapPredecessors
  simp only [getD_eq_getElem?_getD, getElem?_modify]
  cases cfg.blocks[x]? with
  | none => rfl
  | some blk => by_cases hx : b = x <;> simp [hx]

@[simp] theorem length_setSuccessors (b : ℕ) (succs : List ℕ) :
    (setSuccessors cfg b succs).blocks.length = cfg.blocks.length := by
  simp [setSuccessors]

@[simp] theorem length_mapPredecessors (b : ℕ) (f : List ℕ → List ℕ) :
    (mapPredecessors cfg b f).blocks.length = cfg.blocks.length := by
  simp [mapPredecessors]

theorem block_cloneEdges (b : ℕ) :
    (cloneEdges cfg).block b = { cfg.block b with instructions := [] } := by
  unfold ControlFlowGraph.block cloneEdges
  simp only [getD_eq_getElem?_getD, getElem?_map]
  cases cfg.blocks[b]? <;> rfl

@[simp] theorem succs_cloneEdges (b : ℕ) : (cloneEdges cfg).succs b = cfg.succs b := by
  rw [ControlFlowGraph.succs, block_cloneEdges]
  rfl

@[simp] theorem preds_cloneEdges (b : ℕ) : (cloneEdges cfg).preds b = cfg.preds b := by
  rw [ControlFlowGraph.preds, block_cloneEdges]
  rfl

@[simp] theorem length_cloneEdges : (cloneEdges cfg).blocks.length = cfg.blocks.length := by
  simp [cloneEdges]

end Edits

theorem mem_of_branch {c : Bool} {k : ℕ} {succs : List ℕ} (h : branch c k succs = some t) :
    t ∈ succs := by
  unfold branch at h
  split at h
  · cases h
  · simp only [Option.some.injEq] at h
    exact h ▸ mem_singleton_self _
  · simp only [Option.some.injEq] at h
    subst h
    cases c <;> simp
  · exact mem_of_getElem? h

theorem exists_branch_of_mem {succs : List ℕ} (h : t ∈ succs) :
    ∃ c k, branch c k succs = some t := by
  match succs, h with
  | [s], h => exact ⟨true, 0, congrArg some (mem_singleton.mp h).symm⟩
  | [s, u], h =>
    rcases mem_cons.mp h with rfl | h
    · exact ⟨true, 0, rfl⟩
    · exact ⟨false, 0, congrArg some (mem_singleton.mp h).symm⟩
  | s :: u :: w :: l, h =>
    obtain ⟨k, hk⟩ := mem_iff_getElem?.mp h
    exact ⟨true, k, hk⟩

def ArmsLead (R : ℕ → ℕ → Prop) (l l' : List ℕ) : Prop :=
  ∀ c k, (branch c k l' = none ↔ branch c k l = none) ∧
    ∀ t, branch c k l' = some t → ∃ s, branch c k l = some s ∧ R s t

theorem ArmsLead.mem {l l' : List ℕ} (h : ArmsLead R l l') (ht : t ∈ l') : ∃ s ∈ l, R s t := by
  obtain ⟨c, k, hb⟩ := exists_branch_of_mem ht
  obtain ⟨s, hs, hR⟩ := (h c k).2 t hb
  exact ⟨s, mem_of_branch hs, hR⟩

structure Threaded (src : ControlFlowGraph) (empty : ℕ → Bool) (cfg : ControlFlowGraph) :
    Prop where
  length : cfg.blocks.length = src.blocks.length
  entry : cfg.entryBlock = src.entryBlock
  switches : cfg.switches = src.switches
  arms : ∀ b, ArmsLead (Leads src empty) (src.succs b) (cfg.succs b)

theorem Threaded.rfl {src : ControlFlowGraph} {empty : ℕ → Bool} : Threaded src empty src :=
  ⟨Eq.refl _, Eq.refl _, Eq.refl _, fun _ _ _ => ⟨.rfl, fun t ht => ⟨t, ht, .refl⟩⟩⟩

/-- Every empty block goes on to one block. -/
def EmptyGoOn (src : ControlFlowGraph) (empty : ℕ → Bool) : Prop :=
  ∀ b, empty b = true → ∃ s, src.succs b = [s]

section Thread

variable {src cfg : ControlFlowGraph} {empty : ℕ → Bool}

section

variable (h : Threaded src empty cfg) (hgo : EmptyGoOn src empty)

include h hgo

theorem Threaded.leads_head (hb : empty b = true) : Leads src empty b ((cfg.succs b).getD 0 0) := by
  obtain ⟨s, hs⟩ := hgo b hb
  have harms := h.arms b
  rw [hs] at harms
  cases hc : cfg.succs b with
  | nil =>
    have hnone := (harms true 0).1.mp (by rw [hc]; rfl)
    cases hnone
  | cons t l =>
    obtain ⟨u, hu, hlead⟩ := harms.mem (t := t) (by rw [hc]; exact mem_cons_self)
    rw [mem_singleton] at hu
    subst hu
    exact .head ⟨hb, hs⟩ hlead

theorem Threaded.leads_resolve (steps b : ℕ) : Leads src empty b (resolve cfg empty steps b) := by
  induction steps generalizing b with
  | zero => exact .refl
  | succ steps ih =>
    rw [resolve]
    split
    · next hb => exact (h.leads_head hgo hb).trans (ih _)
    · exact .refl

theorem Threaded.threadedArms (b : ℕ) :
    ArmsLead (Leads src empty) (src.succs b) (joinArms (threadedArms cfg empty b)) := by
  intro c k
  have hall : List.Forall₂ (Leads src empty) (cfg.succs b)
      (ShortCircuits.threadedArms cfg empty b) := by
    unfold ShortCircuits.threadedArms
    rw [forall₂_map_right_iff, forall₂_same]
    exact fun s _ => h.leads_resolve hgo _ s
  obtain ⟨hnone, hsome⟩ := branch_forall₂ hall c k
  rw [branch_joinArms]
  refine ⟨hnone.trans (h.arms b c k).1, fun t ht => ?_⟩
  obtain ⟨s, hs, hst⟩ := hsome t ht
  obtain ⟨u, hu, hus⟩ := (h.arms b c k).2 s hs
  exact ⟨u, hu, hus.trans hst⟩

theorem Threaded.threadBlock {changed : Bool} (hb : b < src.blocks.length) :
    Threaded src empty (threadBlock empty (cfg, changed) b).1 := by
  unfold ShortCircuits.threadBlock
  split
  · exact h
  · have hlt : b < cfg.blocks.length := by
      rw [h.length]
      exact hb
    refine ⟨(length_setSuccessors _ _ _).trans h.length, h.entry, h.switches, fun x => ?_⟩
    rw [succs_setSuccessors _ hlt]
    split
    · next hx =>
      subst hx
      exact h.threadedArms hgo x
    · exact h.arms x

end

variable {st : ControlFlowGraph × Bool}

theorem threaded_foldl (hgo : EmptyGoOn src empty) (bs : List ℕ)
    (hbs : ∀ b ∈ bs, b < src.blocks.length)
    (h : Threaded src empty st.1) : Threaded src empty (bs.foldl (threadBlock empty) st).1 := by
  induction bs generalizing st with
  | nil => exact h
  | cons b bs ih =>
    rw [foldl_cons]
    refine ih (fun x hx => hbs x (mem_cons_of_mem _ hx)) ?_
    exact h.threadBlock hgo (hbs b mem_cons_self)

theorem threaded_threadEdges (hgo : EmptyGoOn src empty) :
    Threaded src empty (threadEdges src empty).1 :=
  threaded_foldl hgo _ (fun _ hb => mem_range.mp hb) Threaded.rfl

/-- No edge of a block other than a jump table leads through empty blocks elsewhere. -/
def NoneThreaded (src : ControlFlowGraph) (empty : ℕ → Bool) : Prop :=
  ∀ b, isSwitch src b = false → ∀ s ∈ src.succs b,
    resolve src empty src.blocks.length s = s

theorem foldl_threadBlock_changed (bs : List ℕ)
    (h : st.2 = true) : (bs.foldl (threadBlock empty) st).2 = true := by
  induction bs generalizing st with
  | nil => exact h
  | cons b bs ih =>
    rw [foldl_cons]
    refine ih ?_
    unfold threadBlock
    split
    · exact h
    · rfl

theorem threadedArms_eq_iff (b : ℕ) :
    threadedArms src empty b = src.succs b ↔
      ∀ s ∈ src.succs b, resolve src empty src.blocks.length s = s := by
  unfold threadedArms
  conv_lhs => rw [← map_id (src.succs b), map_map]
  exact map_inj_left

theorem threadEdges_of_noneThreaded (h : NoneThreaded src empty) :
    threadEdges src empty = (src, false) := by
  have hstep : ∀ b, threadBlock empty (src, false) b = (src, false) := by
    intro b
    unfold threadBlock
    rw [if_pos]
    by_cases hsw : isSwitch src b = true
    · rw [hsw, Bool.true_or]
    · have harms := (threadedArms_eq_iff b).mpr (h b (Bool.eq_false_of_not_eq_true hsw))
      simp [harms]
  unfold threadEdges
  generalize range src.blocks.length = bs
  induction bs with
  | nil => rfl
  | cons b bs ih => rw [foldl_cons, hstep b, ih]

theorem threadEdges_changed (h : ¬ NoneThreaded src empty) : (threadEdges src empty).2 = true := by
  simp only [NoneThreaded, not_forall] at h
  obtain ⟨b, hsw, s, hs, hne⟩ := h
  have hlt := mem_range.mpr (lt_of_mem_succs hs)
  have hb : ¬ (isSwitch src b || threadedArms src empty b = src.succs b) = true := by
    rw [hsw, Bool.false_or, decide_eq_true_eq, threadedArms_eq_iff]
    exact fun hall => hne (hall s hs)
  unfold threadEdges
  generalize range src.blocks.length = bs at hlt
  induction bs with
  | nil => exact absurd hlt not_mem_nil
  | cons x bs ih =>
    rw [foldl_cons]
    by_cases hx : (isSwitch src x || threadedArms src empty x = src.succs x) = true
    · rw [threadBlock, if_pos hx]
      refine ih ((mem_cons.mp hlt).resolve_left ?_)
      rintro rfl
      exact hb hx
    · refine foldl_threadBlock_changed bs ?_
      rw [threadBlock, if_neg hx]

end Thread

theorem blockAt_dropUnreached (reach : List Bool) (blocks : List BasicBlock) (b : ℕ) :
    (blockAt (dropUnreached reach blocks) b).successors =
        (if Worklist.marked reach b then (blockAt blocks b).successors else []) ∧
      (blockAt (dropUnreached reach blocks) b).predecessors = [] := by
  unfold blockAt dropUnreached
  simp only [getD_eq_getElem?_getD, getElem?_map, getElem?_zipIdx]
  cases blocks[b]? with
  | none =>
    refine ⟨?_, rfl⟩
    split <;> rfl
  | some blk => simp

/-- What the rest of the program relies on after threading. -/
structure ThreadResult (src : ControlFlowGraph) (empty : ℕ → Bool) (cfg : ControlFlowGraph) :
    Prop where
  wellFormed : cfg.WellFormed
  length : cfg.blocks.length = src.blocks.length
  entry : cfg.entryBlock = src.entryBlock
  leads : ∀ b c k t, branch c k (cfg.succs b) = some t →
    ∃ s, branch c k (src.succs b) = some s ∧ Leads src empty s t
  goesOn : ∀ b, b = src.entryBlock ∨ cfg.preds b ≠ [] → ∀ c k,
    (branch c k (cfg.succs b) = none ↔ branch c k (src.succs b) = none)

section Result

variable {src : ControlFlowGraph} {empty : ℕ → Bool}

theorem mem_succs_of_leads {s : ℕ} (hs : s ∈ src.succs b) (h : Leads src empty s t) :
    ∃ x, t ∈ src.succs x := by
  induction h with
  | refl => exact ⟨b, hs⟩
  | tail _ hstep _ => exact ⟨_, by rw [hstep.2]; exact mem_singleton_self _⟩

theorem Threaded.mem_succs (h : Threaded src empty cfg)
    (ht : t ∈ cfg.succs b) : ∃ x, t ∈ src.succs x := by
  obtain ⟨s, hs, hlead⟩ := (h.arms b).mem ht
  exact mem_succs_of_leads hs hlead

theorem threadEmptyBlocks_of_noneThreaded (h : NoneThreaded src empty) :
    threadEmptyBlocks src empty = src := by
  unfold threadEmptyBlocks
  rw [threadEdges_of_noneThreaded h]
  rfl

/-- The marks of the search over the threaded edges. -/
def reached (src : ControlFlowGraph) (empty : ℕ → Bool) : List Bool :=
  Worklist.reachFrom (threadEdges src empty).1.succs (threadEdges src empty).1.blocks.length
    (threadEdges src empty).1.entryBlock

theorem threadEmptyBlocks_of_threaded (h : ¬ NoneThreaded src empty) :
    threadEmptyBlocks src empty =
      { (threadEdges src empty).1 with
        blocks := linkPreds
          (dropUnreached (reached src empty) (threadEdges src empty).1.blocks) } := by
  unfold threadEmptyBlocks
  rw [if_pos (threadEdges_changed h)]
  rfl

theorem succs_threadEmptyBlocks (h : ¬ NoneThreaded src empty) (b : ℕ) :
    (threadEmptyBlocks src empty).succs b =
      if Worklist.marked (reached src empty) b then (threadEdges src empty).1.succs b else [] := by
  rw [threadEmptyBlocks_of_threaded h]
  obtain ⟨-, hspec⟩ := foldl_linkPred_spec
    (edgesOf (dropUnreached (reached src empty) (threadEdges src empty).1.blocks))
    (dropUnreached (reached src empty) (threadEdges src empty).1.blocks)
  exact (hspec b).1.trans (blockAt_dropUnreached _ _ b).1

variable (hwf : src.WellFormed) (hgo : EmptyGoOn src empty)
include hwf hgo

theorem wellFormed_threadEmptyBlocks : (threadEmptyBlocks src empty).WellFormed := by
  by_cases h : NoneThreaded src empty
  · rw [threadEmptyBlocks_of_noneThreaded h]
    exact hwf
  · have hth := threaded_threadEdges hgo
    have hlen : (dropUnreached (reached src empty) (threadEdges src empty).1.blocks).length =
        src.blocks.length := by
      simp [dropUnreached, hth.length]
    rw [threadEmptyBlocks_of_threaded h]
    refine wellFormed_linkPreds (fun hne => ?_) (fun b s hs => ?_)
      (fun b => (blockAt_dropUnreached _ _ b).2)
    · rw [hlen, hth.entry]
      refine hwf.entry_lt ?_
      rw [← length_pos_iff] at hne ⊢
      omega
    · rw [(blockAt_dropUnreached _ _ b).1] at hs
      rw [hlen]
      split at hs
      · obtain ⟨x, hx⟩ := hth.mem_succs hs
        exact hwf.succ_lt x s hx
      · exact absurd hs not_mem_nil

theorem marked_succ {s : ℕ} (hb : Worklist.marked (reached src empty) b = true)
    (hs : s ∈ (threadEdges src empty).1.succs b) :
    Worklist.marked (reached src empty) s = true := by
  have hth := threaded_threadEdges hgo
  have hlt := lt_of_mem_succs hs
  have hsucc : ∀ x, x < (threadEdges src empty).1.blocks.length →
      ∀ y ∈ (threadEdges src empty).1.succs x, y < (threadEdges src empty).1.blocks.length := by
    intro x _ y hy
    obtain ⟨z, hz⟩ := hth.mem_succs hy
    rw [hth.length]
    exact hwf.succ_lt z y hz
  have hentry : (threadEdges src empty).1.entryBlock < (threadEdges src empty).1.blocks.length := by
    rw [hth.entry, hth.length]
    refine hwf.entry_lt ?_
    rw [← length_pos_iff, ← hth.length]
    omega
  have hreach := (Worklist.marked_reachFrom hentry hsucc hlt).mp hb
  exact (Worklist.marked_reachFrom hentry hsucc (hsucc b hlt s hs)).mpr (hreach.tail hs)

theorem threadResult_threadEmptyBlocks : ThreadResult src empty (threadEmptyBlocks src empty) := by
  have hwf' := wellFormed_threadEmptyBlocks hwf hgo
  by_cases h : NoneThreaded src empty
  · rw [threadEmptyBlocks_of_noneThreaded h]
    exact ⟨hwf, rfl, rfl, fun b c k t ht => ⟨t, ht, .refl⟩, fun _ _ _ _ => .rfl⟩
  · have hth := threaded_threadEdges hgo
    have hsuccs := succs_threadEmptyBlocks h
    refine ⟨hwf', ?_, ?_, fun b c k t ht => ?_, fun b hb c k => ?_⟩
    · rw [threadEmptyBlocks_of_threaded h]
      refine (foldl_linkPred_spec _ _).1.trans ?_
      simp [dropUnreached, hth.length]
    · rw [threadEmptyBlocks_of_threaded h]
      exact hth.entry
    · rw [hsuccs b] at ht
      split at ht
      · exact (hth.arms b c k).2 t ht
      · cases ht
    · -- the entry is marked, and so is a block with a predecessor: that one kept its edges
      have hmark : Worklist.marked (reached src empty) b = true := by
        rcases hb with rfl | hb
        · refine Worklist.marked_explore_of _ _ (.inr ?_)
          rw [hth.entry]
          exact mem_singleton_self _
        · obtain ⟨p, hp⟩ := exists_mem_of_ne_nil _ hb
          have hmem := (hwf'.mirror p b).mp hp
          rw [hsuccs p] at hmem
          split at hmem
          · next hmark => exact marked_succ hwf hgo hmark hmem
          · exact absurd hmem not_mem_nil
      rw [hsuccs b, if_pos hmark]
      exact (hth.arms b c k).1

theorem succs_root_of_threaded (h : ¬ NoneThreaded src empty)
    (hb : b ≠ src.entryBlock) (hroot : src.preds b = []) :
    (threadEmptyBlocks src empty).succs b = [] := by
  have hth := threaded_threadEdges hgo
  rw [succs_threadEmptyBlocks h b]
  split
  · next hmark =>
    by_contra hne
    obtain ⟨s, hs⟩ := exists_mem_of_ne_nil _ hne
    have hlt := lt_of_mem_succs hs
    rcases Worklist.reachable_of_marked _ _ hmark with hm | ⟨e, he, hreach⟩
    · simp [Worklist.marked, hlt] at hm
    · rw [mem_singleton, hth.entry] at he
      rcases Relation.ReflTransGen.cases_tail hreach with heq | ⟨x, -, hx⟩
      · exact hb (heq.trans he)
      · obtain ⟨y, hy⟩ := hth.mem_succs hx
        have hmem := (hwf.mirror y b).mpr hy
        rw [hroot] at hmem
        exact not_mem_nil hmem
  · rfl

end Result

end EdgeThreading
