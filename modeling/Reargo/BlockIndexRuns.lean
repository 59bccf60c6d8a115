import Reargo.BlockRuns

/-!
# The walk by block number runs the flow

Blocks by number stand for blocks by address: the edges, visits and queue of the scratch
read as those of the flow over the addresses of the block starts.
-/
namespace BlockIndexRuns

open PcodeModel BlockShapes BlockFlow BlockPaths BlockRuns OrderedMap EdgeFlow Option
open List hiding lookup lookup_eq_none_iff map_map mem_map
open List (foldl_cons getD_eq_getElem length_replicate length_set map_cons mem_cons_self
  mem_singleton)
open ControlFlow (LiftedInstruction)

variable {S T : Type}

def addrOf (cfg : Cfg) (b : ℕ) : U64 := cfg.startAddr.getD b 0

/-- The blocks of the walk by number, by the addresses of their starts. -/
def indexBlocks (cfg : Cfg) (insns : List LiftedInstruction) : Blocks where
  starts := cfg.startAddr
  body a :=
    ((binarySearch cfg.startAddr a).map fun b => (blockInsns cfg insns b).map Prod.fst).getD []
  next a := (binarySearch cfg.startAddr a).bind fun b => cfg.startAddr[b + 1]?
  fixed a :=
    ((binarySearch cfg.startAddr a).map fun b =>
      decide (b = 0 ∨ cfg.unknownEntry.getD b false = true)).getD false

structure Fits (cfg : Cfg) (insns : List LiftedInstruction) : Prop where
  nonempty : 0 < cfg.startIdx.length
  length : cfg.startAddr.length = cfg.startIdx.length
  sorted : cfg.startAddr.Pairwise (· < ·)
  jumps : ∀ b < cfg.startIdx.length, blockJumps cfg b =
    ((blockInsns cfg insns b).flatMap fun e => jumpTargets e.1).map (binarySearch cfg.startAddr)
  unknown : cfg.unknownBlocks = unknownBlocksOf cfg.unknownEntry
  unknownLength : cfg.unknownEntry.length = cfg.startIdx.length
  relevant : cfg.relevant = none

section Addresses

variable {cfg : Cfg} {insns : List LiftedInstruction} {b b' : ℕ}

variable (h : Fits cfg insns)

include h

theorem Fits.getElem (hb : b < cfg.startIdx.length) : cfg.startAddr[b]? = some (addrOf cfg b) := by
  have hb' : b < cfg.startAddr.length := h.length ▸ hb
  unfold addrOf
  rw [getD_eq_getElem _ _ hb', getElem?_eq_getElem hb']

theorem Fits.addr_mem (hb : b < cfg.startIdx.length) : addrOf cfg b ∈ cfg.startAddr :=
  mem_of_getElem? (h.getElem hb)

theorem Fits.addr_lt (hb' : b' < cfg.startIdx.length) (hlt : b < b') :
    addrOf cfg b < addrOf cfg b' := by
  have hl : b' < cfg.startAddr.length := h.length ▸ hb'
  unfold addrOf
  rw [getD_eq_getElem _ _ hl, getD_eq_getElem _ _ (hlt.trans hl)]
  exact pairwise_iff_getElem.mp h.sorted b b' _ _ hlt

theorem Fits.addr_lt_iff (hb : b < cfg.startIdx.length)
    (hb' : b' < cfg.startIdx.length) : b < b' ↔ addrOf cfg b < addrOf cfg b' := by
  refine ⟨h.addr_lt hb', fun hlt => ?_⟩
  rcases lt_trichotomy b b' with h₁ | h₁ | h₁
  · exact h₁
  · subst h₁
    exact absurd hlt (lt_irrefl _)
  · exact absurd hlt (lt_asymm (h.addr_lt hb h₁))

theorem Fits.addr_inj (hb : b < cfg.startIdx.length)
    (hb' : b' < cfg.startIdx.length) : addrOf cfg b = addrOf cfg b' ↔ b = b' := by
  refine ⟨fun heq => ?_, fun heq => heq ▸ rfl⟩
  rcases lt_trichotomy b b' with h₁ | h₁ | h₁
  · exact absurd heq (ne_of_lt (h.addr_lt hb' h₁))
  · exact h₁
  · exact absurd heq (ne_of_gt (h.addr_lt hb h₁))

theorem Fits.exists_of_mem {a : U64} (ha : a ∈ cfg.startAddr) :
    ∃ b < cfg.startIdx.length, addrOf cfg b = a := by
  obtain ⟨b, hb, rfl⟩ := mem_iff_getElem.mp ha
  refine ⟨b, h.length ▸ hb, ?_⟩
  unfold addrOf
  rw [getD_eq_getElem _ _ hb]

theorem Fits.search (hb : b < cfg.startIdx.length) :
    binarySearch cfg.startAddr (addrOf cfg b) = some b := by
  have hb' : b < cfg.startAddr.length := h.length ▸ hb
  unfold binarySearch
  rw [if_pos (h.addr_mem hb)]
  unfold addrOf
  rw [getD_eq_getElem _ _ hb']
  have hnodup := h.sorted.imp fun h => ne_of_lt h
  exact congrArg some (List.Nodup.idxOf_getElem hnodup b hb')

theorem Fits.addr_of_search {a : U64} (hs : binarySearch cfg.startAddr a = some b) :
    b < cfg.startIdx.length ∧ addrOf cfg b = a ∧ a ∈ cfg.startAddr := by
  unfold binarySearch at hs
  split at hs
  · next ha =>
    obtain ⟨b', hb', heq⟩ := h.exists_of_mem ha
    have hsearch := h.search hb'
    unfold binarySearch at hsearch
    rw [if_pos (h.addr_mem hb'), heq] at hsearch
    obtain rfl : b' = b := some.inj (hsearch.symm.trans hs)
    exact ⟨hb', heq, ha⟩
  · cases hs

end Addresses

section Edges

variable {cfg : Cfg} {insns : List LiftedInstruction} {out : List (ℕ × S)} {out' : List (U64 × S)}

/-- The same states on the edges, by number and by address. -/
structure SameEdges (cfg : Cfg) (out : List (ℕ × S)) (out' : List (U64 × S)) : Prop where
  nodup : (out.map Prod.fst).Nodup
  lt : ∀ b ∈ out.map Prod.fst, b < cfg.startIdx.length
  sorted : (out'.map Prod.fst).Pairwise (· < ·)
  starts : ∀ a ∈ out'.map Prod.fst, a ∈ cfg.startAddr
  same : ∀ b < cfg.startIdx.length, lookup b out = lookup (addrOf cfg b) out'

theorem SameEdges.nil (cfg : Cfg) : SameEdges (S := S) cfg [] [] :=
  ⟨nodup_nil, fun _ h => absurd h not_mem_nil, List.Pairwise.nil,
    fun _ h => absurd h not_mem_nil, fun _ _ => rfl⟩

theorem SameEdges.eq (h : SameEdges cfg out out') (hF : Fits cfg insns) :
    (out.insertionSort fun x y => x.1 ≤ y.1).map (fun e => (addrOf cfg e.1, e.2)) = out' := by
  have hperm := perm_insertionSort (fun x y : ℕ × S => x.1 ≤ y.1) out
  have hkeys : ∀ e ∈ out.insertionSort (fun x y => x.1 ≤ y.1), e.1 < cfg.startIdx.length :=
    fun e he => h.lt e.1 (List.mem_map.mpr ⟨e, hperm.mem_iff.mp he, rfl⟩)
  have hnodup : ((out.insertionSort fun x y => x.1 ≤ y.1).map Prod.fst).Nodup :=
    (hperm.map Prod.fst).nodup_iff.mpr h.nodup
  have hle : (out.insertionSort fun x y => x.1 ≤ y.1).Pairwise fun x y => x.1 ≤ y.1 := by
    have : Std.Total fun x y : ℕ × S => x.1 ≤ y.1 := ⟨fun x y => Nat.le_total x.1 y.1⟩
    have : IsTrans (ℕ × S) fun x y => x.1 ≤ y.1 := ⟨fun _ _ _ => Nat.le_trans⟩
    exact pairwise_insertionSort _ out
  refine eq_of_lookup_eq ?_ h.sorted fun k => ?_
  · rw [List.map_map, pairwise_map]
    refine (hle.and (pairwise_map.mp hnodup)).imp_of_mem fun {x y} hx hy hxy => ?_
    exact hF.addr_lt (hkeys y hy) (lt_of_le_of_ne hxy.1 hxy.2)
  · by_cases hk : k ∈ cfg.startAddr
    · obtain ⟨b, hb, rfl⟩ := hF.exists_of_mem hk
      rw [lookup_map_key (addrOf cfg) fun e he heq => (hF.addr_inj (hkeys e he) hb).mp heq,
        lookup_perm hnodup hperm, h.same b hb]
    · have hleft : lookup k ((out.insertionSort fun x y => x.1 ≤ y.1).map
          fun e => (addrOf cfg e.1, e.2)) = none := by
        rw [lookup_eq_none_iff, List.map_map]
        intro hmem
        obtain ⟨e, he, rfl⟩ := List.mem_map.mp hmem
        exact hk (hF.addr_mem (hkeys e he))
      rw [hleft, eq_comm, lookup_eq_none_iff]
      exact fun hmem => hk (h.starts k hmem)

variable [FlowState S]

theorem keys_addEdge (out : List (ℕ × S)) (dest : ℕ) (s : S) : (addEdge out dest s).map Prod.fst =
      if dest ∈ out.map Prod.fst then out.map Prod.fst else out.map Prod.fst ++ [dest] := by
  induction out with
  | nil => simp [addEdge]
  | cons e out ih =>
    obtain ⟨t, prev⟩ := e
    unfold addEdge
    by_cases ht : t = dest
    · simp [ht]
    · rw [if_neg ht, map_cons, ih, map_cons]
      by_cases hmem : dest ∈ out.map Prod.fst
      · rw [if_pos hmem, if_pos (mem_cons_of_mem _ hmem)]
      · have hnot : dest ∉ t :: out.map Prod.fst := by
          rw [mem_cons, not_or]
          exact ⟨Ne.symm ht, hmem⟩
        rw [if_neg hmem, if_neg hnot]
        rfl

theorem lookup_addEdge (out : List (ℕ × S)) (dest k : ℕ) (s : S) : lookup k (addEdge out dest s) =
      if k = dest then some (((lookup dest out).map fun prev => FlowState.join prev s).getD s)
      else lookup k out := by
  induction out with
  | nil => simp [addEdge, lookup]
  | cons e out ih =>
    obtain ⟨t, prev⟩ := e
    unfold addEdge
    by_cases ht : t = dest
    · subst ht
      by_cases hk : k = t <;> simp [lookup, hk]
    · rw [if_neg ht]
      simp only [lookup]
      rw [ih, if_neg (Ne.symm ht)]
      by_cases hk : k = t
      · subst hk
        simp [ht]
      · simp [hk]

theorem lookup_addEdgeAt_eq (out : List (U64 × S)) (dest k : U64) (s : S) :
    lookup k (addEdgeAt out dest s) =
      if k = dest then some (((lookup dest out).map fun prev => FlowState.join prev s).getD s)
      else lookup k out := by
  unfold addEdgeAt
  rw [lookup_insertEntry]
  by_cases hk : k = dest
  · rw [if_pos hk, if_pos hk]
    cases lookup dest out <;> rfl
  · rw [if_neg hk, if_neg hk]

theorem SameEdges.add (h : SameEdges cfg out out') (hF : Fits cfg insns) {dest : ℕ}
    (hd : dest < cfg.startIdx.length) (s : S) :
    SameEdges cfg (addEdge out dest s) (addEdgeAt out' (addrOf cfg dest) s) := by
  refine ⟨?_, fun b hb => ?_, addEdgeAt_sorted h.sorted _ _, fun a ha => ?_, fun b hb => ?_⟩
  · rw [keys_addEdge]
    split
    · exact h.nodup
    · next hnot =>
      refine nodup_append.mpr ⟨h.nodup, nodup_singleton _, ?_⟩
      intro x hx y hy hxy
      rw [mem_singleton.mp hy] at hxy
      exact hnot (hxy ▸ hx)
  · rw [keys_addEdge] at hb
    split at hb
    · exact h.lt b hb
    · rcases mem_append.mp hb with hb | hb
      · exact h.lt b hb
      · exact mem_singleton.mp hb ▸ hd
  · rcases mem_keys_insertEntry ha with rfl | ha
    · exact hF.addr_mem hd
    · exact h.starts a ha
  · rw [lookup_addEdge, lookup_addEdgeAt_eq, h.same b hb, h.same dest hd]
    by_cases hbd : b = dest
    · rw [if_pos hbd, if_pos (congrArg _ hbd)]
    · rw [if_neg hbd, if_neg fun heq => hbd ((hF.addr_inj hb hd).mp heq)]

end Edges

section Walks

variable [FlowState S] {cfg : Cfg} {insns : List LiftedInstruction} {snapshot : S → T}
  {w : BlockWalk S T} {w' : LegacyWalk S T}

structure SameWalk (cfg : Cfg) (w : BlockWalk S T) (w' : LegacyWalk S T) : Prop where
  st : w.st = w'.st
  fallsThrough : w.fallsThrough = w'.fallsThrough
  snaps : w.snaps = w'.snaps
  out : SameEdges cfg w.out w'.out

variable {rest : List (Option ℕ)}

theorem SameWalk.addJump (h : SameWalk cfg w w') (hF : Fits cfg insns) {op : PcodeOp}
    (hjumps : w.jumps =
      ([op].filterMap InsnShape.branchTarget).map (binarySearch cfg.startAddr) ++ rest) :
    ∃ j, jumpBlock op w.jumps = some j ∧ j.2 = rest ∧
      SameEdges cfg (BlockFlow.addJump w.out j.1 w.st) (addJumpAt cfg.startAddr op w'.out w'.st) := by
  unfold jumpBlock addJumpAt
  cases htarget : InsnShape.branchTarget op with
  | none =>
    rw [filterMap_cons_none htarget] at hjumps
    exact ⟨(none, w.jumps), rfl, hjumps, h.out⟩
  | some t =>
    rw [filterMap_cons_some htarget] at hjumps
    refine ⟨(binarySearch cfg.startAddr t, rest), by rw [hjumps]; rfl, rfl, ?_⟩
    cases hs : binarySearch cfg.startAddr t with
    | none =>
      have hnot : t ∉ cfg.startAddr := fun hmem => by
        unfold binarySearch at hs
        rw [if_pos hmem] at hs
        cases hs
      have hfilter : (some t).filter (· ∈ cfg.startAddr) = none := by
        rw [filter_some, if_neg (by simpa using hnot)]
      rw [hfilter]
      exact h.out
    | some b =>
      obtain ⟨hb, haddr, hmem⟩ := hF.addr_of_search hs
      have hfilter : (some t).filter (· ∈ cfg.startAddr) = some t := by
        rw [filter_some, if_pos (by simpa using hmem)]
      rw [hfilter, h.st, ← haddr]
      exact h.out.add hF hb _

theorem isJump_iff {op : PcodeOp} :
    isJump op = true ↔ op.opcode = .branch ∨ op.opcode = .cBranch := by
  unfold isJump
  rw [decide_eq_true_eq]

variable (snapshot) in
theorem walkOp_same (h : SameWalk cfg w w') (hF : Fits cfg insns) (address : U64) (op : PcodeOp)
    (hjumps : w.jumps = (([op].filter isJump).filterMap InsnShape.branchTarget).map
      (binarySearch cfg.startAddr) ++ rest) :
    ∃ w₁, walkOp snapshot true address w op = some w₁ ∧ w₁.jumps = rest ∧
      SameWalk cfg w₁ (legacyOp cfg.startAddr snapshot address w' op) := by
  cases hjump : isJump op with
  | true =>
    rw [filter_cons_of_pos hjump] at hjumps
    obtain ⟨j, hj, hrest, hout⟩ := h.addJump hF hjumps
    rcases isJump_iff.mp hjump with hop | hop
    · refine ⟨{ w with out := BlockFlow.addJump w.out j.1 w.st, jumps := j.2, fallsThrough := false },
        ?_, hrest, ?_⟩
      · unfold walkOp
        rw [hop, hj]
        rfl
      · unfold legacyOp
        rw [hop]
        exact ⟨h.st, rfl, h.snaps, hout⟩
    · refine ⟨{ w with out := BlockFlow.addJump w.out j.1 w.st, jumps := j.2 }, ?_, hrest, ?_⟩
      · unfold walkOp
        rw [hop, hj]
        rfl
      · unfold legacyOp
        rw [hop]
        exact ⟨h.st, h.fallsThrough, h.snaps, hout⟩
  | false =>
    rw [filter_cons_of_neg (by rw [hjump]; exact Bool.false_ne_true)] at hjumps
    have hnot : op.opcode ≠ .branch ∧ op.opcode ≠ .cBranch := by
      refine ⟨fun hop => ?_, fun hop => ?_⟩
      · rw [isJump_iff.mpr (.inl hop)] at hjump
        cases hjump
      · rw [isJump_iff.mpr (.inr hop)] at hjump
        cases hjump
    unfold walkOp legacyOp
    split
    · exact ⟨_, rfl, hjumps, congrArg _ h.st, h.fallsThrough, by simp [h.snaps, h.st], h.out⟩
    · exact ⟨_, rfl, hjumps, congrArg _ h.st, h.fallsThrough, by simp [h.snaps, h.st], h.out⟩
    · next hop => exact absurd hop hnot.2
    · next hop => exact absurd hop hnot.1
    · exact ⟨_, rfl, hjumps, h.st, rfl, h.snaps, h.out⟩
    · exact ⟨_, rfl, hjumps, h.st, rfl, h.snaps, h.out⟩
    · exact ⟨_, rfl, hjumps, by rw [h.st], h.fallsThrough, h.snaps, h.out⟩

variable (snapshot) in
theorem walkOps_same (hF : Fits cfg insns) (address : U64) (ops : List PcodeOp)
    {w : BlockWalk S T} {w' : LegacyWalk S T} (h : SameWalk cfg w w')
    (hjumps : w.jumps = ((ops.filter isJump).filterMap InsnShape.branchTarget).map
      (binarySearch cfg.startAddr) ++ rest) :
    ∃ w₁, ops.foldlM (walkOp snapshot true address) w = some w₁ ∧ w₁.jumps = rest ∧
      SameWalk cfg w₁ (ops.foldl (legacyOp cfg.startAddr snapshot address) w') := by
  induction ops generalizing w w' with
  | nil => exact ⟨w, rfl, hjumps, h⟩
  | cons op ops ih =>
    have hsplit : ((op :: ops).filter isJump).filterMap InsnShape.branchTarget =
        ([op].filter isJump).filterMap InsnShape.branchTarget ++
          (ops.filter isJump).filterMap InsnShape.branchTarget := by
      rw [← filterMap_append, ← filter_append]
      rfl
    rw [hsplit, map_append, append_assoc] at hjumps
    obtain ⟨w₁, hw₁, hrest, hsame⟩ := walkOp_same snapshot h hF address op hjumps
    obtain ⟨w₂, hw₂, hrest₂, hsame₂⟩ := ih hsame hrest
    refine ⟨w₂, ?_, hrest₂, hsame₂⟩
    rw [foldlM_cons, hw₁]
    exact hw₂

variable (snapshot) in
theorem walkInsns_same (hF : Fits cfg insns) (block : List (LiftedInstruction × ℕ))
    {w : BlockWalk S T} {w' : LegacyWalk S T} (h : SameWalk cfg w w')
    (hjumps : w.jumps = (block.flatMap fun e => jumpTargets e.1).map
      (binarySearch cfg.startAddr) ++ rest) :
    ∃ w₁, walkInsns snapshot (fun _ => true) block w = some w₁ ∧
      SameWalk cfg w₁ (legacyInsns cfg.startAddr snapshot (block.map Prod.fst) w') := by
  induction block generalizing w w' with
  | nil => exact ⟨w, rfl, h⟩
  | cons e block ih =>
    obtain ⟨insn, i⟩ := e
    rw [flatMap_cons, map_append, append_assoc] at hjumps
    obtain ⟨w₁, hw₁, hrest, hsame⟩ := walkOps_same snapshot hF insn.address insn.ops h hjumps
    unfold walkInsns
    rw [hw₁]
    rw [map_cons]
    unfold legacyInsns
    dsimp only [bind_eq_bind, bind_some]
    rw [hsame.fallsThrough]
    split
    · exact ih hsame hrest
    · exact ⟨w₁, rfl, hsame⟩

end Walks

/-- The scratch by number holds the progress of the flow over the addresses. -/
structure Indexed (cfg : Cfg) (f : FlowScratch S T) (p : Progress U64 S (U64 × T)) : Prop where
  edgesLength : f.inEdges.length = cfg.startIdx.length
  visitsLength : f.visits.length = cfg.startIdx.length
  saturatedLength : f.saturated.length = cfg.startIdx.length
  queuedLength : f.queued.length = cfg.startIdx.length
  incoming : ∀ b < cfg.startIdx.length, p.incoming (addrOf cfg b) =
    (f.inEdges.getD b []).map fun e => (addrOf cfg e.1, e.2)
  source : ∀ b < cfg.startIdx.length, ∀ e ∈ f.inEdges.getD b [], e.1 < cfg.startIdx.length
  visits : ∀ b < cfg.startIdx.length, p.visits (addrOf cfg b) = f.visits.getD b 0
  saturated : ∀ b < cfg.startIdx.length, p.saturated (addrOf cfg b) = f.saturated.getD b false
  queue : p.queue = f.worklist.map (addrOf cfg)
  lt : ∀ b ∈ f.worklist, b < cfg.startIdx.length
  nodup : f.worklist.Nodup
  queued : ∀ b < cfg.startIdx.length, f.queued.getD b false = decide (b ∈ f.worklist)
  log : p.log = f.snaps

theorem getD_set {α : Type} (l : List α) (i j : ℕ) (v d : α) (hi : i < l.length) :
    (l.set i v).getD j d = if j = i then v else l.getD j d := by
  rw [getD_eq_getElem?_getD, getD_eq_getElem?_getD, getElem?_set]
  by_cases h : i = j
  · subst h
    rw [if_pos rfl, if_pos hi, if_pos rfl, getD_some]
  · rw [if_neg h, if_neg (Ne.symm h)]

section Scratch

variable {cfg : Cfg} {insns : List LiftedInstruction} {snapshot : S → T}
  {f : FlowScratch S T} {p : Progress U64 S (U64 × T)} {b : ℕ}

theorem Indexed.mem_queue (h : Indexed cfg f p) (hF : Fits cfg insns)
    (hb : b < cfg.startIdx.length) : addrOf cfg b ∈ p.queue ↔ b ∈ f.worklist := by
  rw [h.queue, List.mem_map]
  constructor
  · rintro ⟨b', hb', heq⟩
    exact (hF.addr_inj (h.lt b' hb') hb).mp heq ▸ hb'
  · exact fun hmem => ⟨b, hmem, rfl⟩

theorem queuePush_indexed (h : Indexed cfg f p) (hF : Fits cfg insns)
    (hb : b < cfg.startIdx.length) : Indexed cfg (queuePush f b) (p.push (addrOf cfg b)) := by
  unfold queuePush
  rw [h.queued b hb]
  by_cases hmem : b ∈ f.worklist
  · rw [if_pos (decide_eq_true hmem), p.push_of_mem _ ((h.mem_queue hF hb).mpr hmem)]
    exact h
  · rw [if_neg (by rw [decide_eq_false hmem]; exact Bool.false_ne_true),
      p.push_of_notMem _ fun hq => hmem ((h.mem_queue hF hb).mp hq)]
    refine { h with
      queuedLength := by rw [length_set]; exact h.queuedLength
      queue := ?_, lt := fun x hx => ?_, nodup := ?_, queued := fun x hx => ?_ }
    · rw [h.queue, map_append]
      rfl
    · rcases mem_append.mp hx with hx | hx
      · exact h.lt x hx
      · exact mem_singleton.mp hx ▸ hb
    · refine nodup_append.mpr ⟨h.nodup, nodup_singleton _, ?_⟩
      intro x hx y hy hxy
      rw [mem_singleton.mp hy] at hxy
      exact hmem (hxy ▸ hx)
    · dsimp only
      rw [getD_set _ _ _ _ _ (h.queuedLength ▸ hb), h.queued x hx]
      by_cases hxb : x = b
      · simp [hxb]
      · simp [hxb]

theorem Indexed.pop {worklist : List ℕ} (h : Indexed cfg f p) (hq : f.worklist = b :: worklist) :
    Indexed cfg { f with worklist := worklist, queued := f.queued.set b false }
      { p with queue := worklist.map (addrOf cfg) } := by
  have hnodup := h.nodup
  rw [hq, nodup_cons] at hnodup
  have hb := h.lt b (hq ▸ mem_cons_self)
  refine { h with
    queuedLength := by rw [length_set]; exact h.queuedLength
    queue := rfl, lt := fun x hx => h.lt x (hq ▸ mem_cons_of_mem _ hx), nodup := hnodup.2
    queued := fun x hx => ?_ }
  dsimp only
  rw [getD_set _ _ _ _ _ (h.queuedLength ▸ hb), h.queued x hx, hq]
  by_cases hxb : x = b
  · subst hxb
    rw [if_pos rfl, decide_eq_false hnodup.1]
  · simp [hxb]

section Steps

variable [DecidableEq S]

theorem sendEdge_indexed (h : Indexed cfg f p) (hF : Fits cfg insns)
    (hb : b < cfg.startIdx.length) {e : ℕ × S} (he : e.1 < cfg.startIdx.length) :
    Indexed cfg (sendEdge (fun _ => true) b f e)
      (Flow.deliver (addrOf cfg b) p (addrOf cfg e.1, e.2)) := by
  have hlookup : lookup (addrOf cfg b) (p.incoming (addrOf cfg e.1)) =
      lookup b (f.inEdges.getD e.1 []) := by
    rw [h.incoming e.1 he]
    exact lookup_map_key _ fun x hx heq => (hF.addr_inj (h.source e.1 he x hx) hb).mp heq
  have hinsert : insertEntry (addrOf cfg b) e.2 (p.incoming (addrOf cfg e.1)) =
      (putEdge (f.inEdges.getD e.1 []) b e.2).map fun e => (addrOf cfg e.1, e.2) := by
    rw [h.incoming e.1 he]
    refine insertEntry_map_key _ (fun x hx => ?_) _
    have hx := h.source e.1 he x hx
    exact ⟨hF.addr_lt_iff hb hx, (hF.addr_inj hb hx).symm⟩
  unfold sendEdge Flow.deliver
  dsimp only
  rw [hlookup]
  simp only [Bool.not_true, Bool.false_eq_true, if_false]
  by_cases hsame : lookup b (f.inEdges.getD e.1 []) = some e.2
  · rw [if_pos hsame, if_pos hsame]
    exact h
  · rw [if_neg hsame, if_neg hsame]
    refine queuePush_indexed ?_ hF he
    have hlen := h.edgesLength
    refine { h with
      edgesLength := by rw [length_set]; exact hlen
      incoming := fun k hk => ?_, source := fun k hk x hx => ?_ }
    · dsimp only
      rw [getD_set _ _ _ _ _ (hlen ▸ he)]
      by_cases hke : k = e.1
      · subst hke
        rw [if_pos rfl, ← hinsert]
        exact p.put_incoming_self (addrOf cfg b) (addrOf cfg e.1, e.2)
      · rw [if_neg hke, ← h.incoming k hk]
        exact p.put_incoming_of_ne _ _ fun heq => hke ((hF.addr_inj hk he).mp heq)
    · dsimp only at hx
      rw [getD_set _ _ _ _ _ (hlen ▸ he)] at hx
      split at hx
      · have hkey : x.1 ∈ (putEdge (f.inEdges.getD e.1 []) b e.2).map Prod.fst :=
          List.mem_map.mpr ⟨x, hx, rfl⟩
        rcases mem_keys_insertEntry hkey with hxb | hxb
        · exact hxb ▸ hb
        · obtain ⟨y, hy, hxy⟩ := List.mem_map.mp hxb
          exact hxy ▸ h.source e.1 he y hy
      · exact h.source k hk x hx

/-- The addresses of the blocks the walk keeps to. -/
def keptBy (cfg : Cfg) (relevant : ℕ → Bool) (a : U64) : Bool :=
  (binarySearch cfg.startAddr a).any relevant

theorem keptBy_addrOf (hF : Fits cfg insns) (relevant : ℕ → Bool) (hb : b < cfg.startIdx.length) :
    keptBy cfg relevant (addrOf cfg b) = relevant b := by
  unfold keptBy
  rw [hF.search hb]
  rfl

theorem sendEdge_of_relevant {relevant : ℕ → Bool} {e : ℕ × S} (he : relevant e.1 = true) :
    sendEdge relevant b f e = sendEdge (fun _ => true) b f e := by
  unfold sendEdge
  rw [he]

theorem foldl_sendEdge_indexed (relevant : ℕ → Bool) (hF : Fits cfg insns)
    (hb : b < cfg.startIdx.length) {es : List (ℕ × S)}
    (hes : ∀ e ∈ es, e.1 < cfg.startIdx.length) (h : Indexed cfg f p) :
    Indexed cfg (es.foldl (sendEdge relevant b) f)
      (((es.map fun e => (addrOf cfg e.1, e.2)).filter fun e => keptBy cfg relevant e.1).foldl
        (Flow.deliver (addrOf cfg b)) p) := by
  induction es generalizing f p with
  | nil => exact h
  | cons e es ih =>
    have he := hes e mem_cons_self
    have hrest := fun x hx => hes x (mem_cons_of_mem _ hx)
    have hkept := keptBy_addrOf hF relevant he
    rw [foldl_cons, map_cons]
    cases hr : relevant e.1 with
    | true =>
      rw [filter_cons_of_pos (p := fun e : U64 × S => keptBy cfg relevant e.1)
        (hkept.trans hr), foldl_cons, sendEdge_of_relevant hr]
      exact ih hrest (sendEdge_indexed h hF hb he)
    | false =>
      have hskip : sendEdge relevant b f e = f := by
        unfold sendEdge
        rw [hr]
        rfl
      rw [filter_cons_of_neg (p := fun e : U64 × S => keptBy cfg relevant e.1)
        (by rw [hkept, hr]; exact Bool.false_ne_true), hskip]
      exact ih hrest h

variable [FlowState S]

/-- The flow over the addresses of the blocks a walk keeps to. -/
def keptFlow (cfg : Cfg) (insns : List LiftedInstruction) (snapshot : S → T)
    (relevant : ℕ → Bool) : Flow U64 S (U64 × T) :=
  (flowOf (indexBlocks cfg insns) snapshot).within (keptBy cfg relevant)

theorem walkBlock_indexed (relevant : ℕ → Bool) (h : Indexed cfg f p) (hF : Fits cfg insns)
    (hb : b < cfg.startIdx.length) (s : S) :
    ∃ f', walkBlock cfg insns snapshot (fun _ => true) relevant b s f = some f' ∧
      Indexed cfg f' ((keptFlow cfg insns snapshot relevant).walk (addrOf cfg b) s p) := by
  have hbody : (indexBlocks cfg insns).body (addrOf cfg b) =
      (blockInsns cfg insns b).map Prod.fst := by
    change ((binarySearch cfg.startAddr (addrOf cfg b)).map _).getD [] = _
    rw [hF.search hb]
    rfl
  have hnext : (indexBlocks cfg insns).next (addrOf cfg b) = cfg.startAddr[b + 1]? := by
    change (binarySearch cfg.startAddr (addrOf cfg b)).bind _ = _
    rw [hF.search hb]
    rfl
  have hstart : SameWalk cfg
      { st := s, out := [], fallsThrough := true, jumps := blockJumps cfg b, snaps := f.snaps }
      (withSnaps f.snaps (startWalk s) : LegacyWalk S T) :=
    ⟨rfl, rfl, (append_nil _).symm, .nil cfg⟩
  obtain ⟨w, hw, hsame⟩ := walkInsns_same snapshot hF (blockInsns cfg insns b) hstart
    ((hF.jumps b hb).trans (append_nil _).symm)
  rw [legacyInsns_withSnaps, ← hbody] at hsame
  change SameWalk cfg w (withSnaps f.snaps
    ((indexBlocks cfg insns).walk snapshot (addrOf cfg b) s)) at hsame
  have hedges : SameEdges cfg
      (if w.fallsThrough ∧ b + 1 < cfg.startIdx.length then addEdge w.out (b + 1) w.st else w.out)
      (outOf ((indexBlocks cfg insns).next (addrOf cfg b))
        ((indexBlocks cfg insns).walk snapshot (addrOf cfg b) s)) := by
    unfold outOf
    rw [hsame.fallsThrough, hsame.st, hnext]
    by_cases hfalls : ((indexBlocks cfg insns).walk snapshot (addrOf cfg b) s).fallsThrough = true
    · rw [if_pos hfalls]
      by_cases hlast : b + 1 < cfg.startIdx.length
      · rw [if_pos ⟨hfalls, hlast⟩, hF.getElem hlast]
        exact hsame.out.add hF hlast _
      · have hnone : cfg.startAddr[b + 1]? = none := by
          rw [getElem?_eq_none_iff, hF.length]
          omega
        rw [if_neg fun hc => hlast hc.2, hnone]
        exact hsame.out
    · rw [if_neg hfalls, if_neg fun hc => hfalls hc.1]
      exact hsame.out
  refine ⟨_, by unfold walkBlock; rw [hw]; rfl, ?_⟩
  have hsorted := hedges.eq hF
  have hlt : ∀ e ∈ (if w.fallsThrough ∧ b + 1 < cfg.startIdx.length then
      addEdge w.out (b + 1) w.st else w.out).insertionSort (fun x y => x.1 ≤ y.1),
      e.1 < cfg.startIdx.length := fun e he =>
    hedges.lt e.1 (List.mem_map.mpr ⟨e, (mem_insertionSort _).mp he, rfl⟩)
  unfold Flow.walk
  change Indexed cfg _ (((outOf ((indexBlocks cfg insns).next (addrOf cfg b))
    ((indexBlocks cfg insns).walk snapshot (addrOf cfg b) s)).filter
      fun e => keptBy cfg relevant e.1).foldl _ _)
  rw [← hsorted]
  refine foldl_sendEdge_indexed relevant hF hb hlt ?_
  refine { h with log := ?_ }
  dsimp only
  rw [h.log, hsame.snaps]
  rfl

omit [DecidableEq S] in
theorem visitStart_eq (h : Indexed cfg f p) (hF : Fits cfg insns) (hb : b < cfg.startIdx.length)
    (v : ℕ) :
    visitStart cfg f b v =
      ((flowOf (indexBlocks cfg insns) snapshot).start p (addrOf cfg b) v).map fun s =>
        (s, (flowOf (indexBlocks cfg insns) snapshot).saturates (addrOf cfg b) v) := by
  have hfixed : (indexBlocks cfg insns).fixed (addrOf cfg b) =
      decide (b = 0 ∨ cfg.unknownEntry.getD b false = true) := by
    change ((binarySearch cfg.startAddr (addrOf cfg b)).map _).getD false = _
    rw [hF.search hb]
    rfl
  have hstates : (p.incoming (addrOf cfg b)).map Prod.snd = (f.inEdges.getD b []).map Prod.snd := by
    rw [h.incoming b hb, List.map_map]
    rfl
  unfold visitStart
  rw [← hstates]
  exact start_map hfixed v

variable (snapshot) in
theorem visitBlock_indexed (relevant : ℕ → Bool) (h : Indexed cfg f p) (hF : Fits cfg insns)
    (hb : b < cfg.startIdx.length) :
    ∃ f', visitBlock cfg insns snapshot (fun _ => true) relevant f b = some f' ∧
      Indexed cfg f' ((keptFlow cfg insns snapshot relevant).visit (addrOf cfg b) p) := by
  have hvisited : Indexed cfg { f with visits := f.visits.set b (f.visits.getD b 0 + 1) }
      (p.count (addrOf cfg b)) := by
    refine { h with
      visitsLength := by rw [length_set]; exact h.visitsLength
      visits := fun k hk => ?_ }
    dsimp only
    rw [getD_set _ _ _ _ _ (h.visitsLength ▸ hb)]
    by_cases hkb : k = b
    · subst hkb
      rw [p.count_visits_self, if_pos rfl, h.visits k hk]
    · rw [p.count_visits_of_ne fun heq => hkb ((hF.addr_inj hk hb).mp heq), if_neg hkb,
        h.visits k hk]
  have hstart : visitStart cfg { f with visits := f.visits.set b (f.visits.getD b 0 + 1) } b
      (f.visits.getD b 0 + 1) = ((keptFlow cfg insns snapshot relevant).start p (addrOf cfg b)
          (p.visits (addrOf cfg b) + 1)).map fun s =>
            (s, (keptFlow cfg insns snapshot relevant).saturates (addrOf cfg b)
              (p.visits (addrOf cfg b) + 1)) := by
    rw [h.visits b hb]
    exact @visitStart_eq S T cfg insns snapshot _ _ _ _ h hF hb _
  unfold visitBlock
  dsimp only
  rw [hstart]
  cases hfrom : (keptFlow cfg insns snapshot relevant).start p (addrOf cfg b)
      (p.visits (addrOf cfg b) + 1) with
  | none =>
    rw [visit_of_start_none hfrom]
    exact ⟨_, rfl, hvisited⟩
  | some s =>
    rw [visit_of_start_some hfrom, map_some]
    refine walkBlock_indexed relevant ?_ hF hb s
    split
    · refine { hvisited with
        saturatedLength := by rw [length_set]; exact h.saturatedLength
        saturated := fun k hk => ?_ }
      dsimp only
      rw [getD_set _ _ _ _ _ (h.saturatedLength ▸ hb)]
      by_cases hkb : k = b
      · subst hkb
        rw [Progress.saturate_self, if_pos rfl]
      · rw [Progress.saturate_of_ne _ fun heq => hkb ((hF.addr_inj hk hb).mp heq), if_neg hkb]
        exact hvisited.saturated k hk
    · exact hvisited

variable (snapshot) in
theorem flowLoop_kept (relevant : Option (List Bool)) (hF : Fits cfg insns) (fuel : ℕ)
    (h : Indexed cfg f p) :
    Option.Rel (Indexed cfg)
      (flowLoop { cfg with relevant := relevant } insns snapshot (fun _ => true) fuel f)
      ((keptFlow cfg insns snapshot (isRelevant { cfg with relevant := relevant })).run fuel p) := by
  induction fuel generalizing f p with
  | zero =>
    unfold flowLoop Flow.run
    cases hq : f.worklist with
    | nil =>
      rw [step_of_nil (h.queue.trans (congrArg _ hq))]
      exact .some h
    | cons b worklist =>
      rw [step_of_queue (h.queue.trans (congrArg _ hq))]
      exact .none
  | succ fuel ih =>
    unfold flowLoop Flow.run
    cases hq : f.worklist with
    | nil =>
      rw [step_of_nil (h.queue.trans (congrArg _ hq))]
      exact .some h
    | cons b worklist =>
      have hpop := h.pop hq
      have hb := h.lt b (hq ▸ mem_cons_self)
      have hsat := h.saturated b hb
      rw [step_of_queue (h.queue.trans (congrArg _ hq))]
      dsimp only
      cases hs : f.saturated.getD b false with
      | true =>
        rw [if_pos rfl, if_pos (hsat.trans hs)]
        exact ih hpop
      | false =>
        rw [if_neg Bool.false_ne_true, if_neg (by rw [hsat, hs]; exact Bool.false_ne_true)]
        obtain ⟨f', hf', hvisit⟩ := visitBlock_indexed snapshot
          (isRelevant { cfg with relevant := relevant }) hpop hF hb
        change Option.Rel (Indexed cfg) ((visitBlock cfg insns snapshot (fun _ => true)
          (isRelevant { cfg with relevant := relevant }) _ b).bind _) _
        rw [hf']
        exact ih hvisit

omit [DecidableEq S] in
theorem keptFlow_all (hF : Fits cfg insns) :
    keptFlow cfg insns snapshot (fun _ => true) = flowOf (indexBlocks cfg insns) snapshot := by
  refine Flow.within_eq_self fun b s e he => ?_
  have hmem : e.1 ∈ cfg.startAddr := by
    rcases outOf_mem he with hnext | ⟨t, ht⟩
    · obtain ⟨k, -, hk⟩ := bind_eq_some_iff.mp hnext
      exact mem_of_getElem? hk
    · exact (indexBlocks cfg insns).walk_mem snapshot b s (e.1, t) ht
  obtain ⟨k, hk, hkey⟩ := hF.exists_of_mem hmem
  rw [← hkey]
  exact keptBy_addrOf hF _ hk

theorem isRelevant_none (cfg : Cfg) : isRelevant { cfg with relevant := none } = fun _ => true :=
  rfl

theorem Fits.with_none (hF : Fits cfg insns) : { cfg with relevant := none } = cfg := by
  rw [← hF.relevant]

variable (snapshot) in
theorem flowLoop_rel (hF : Fits cfg insns) (fuel : ℕ) (h : Indexed cfg f p) :
    Option.Rel (Indexed cfg) (flowLoop cfg insns snapshot (fun _ => true) fuel f)
      ((flowOf (indexBlocks cfg insns) snapshot).run fuel p) := by
  have hrel := flowLoop_kept snapshot none hF fuel h
  rwa [isRelevant_none, keptFlow_all hF, hF.with_none] at hrel

end Steps

theorem mem_unknownBlocksOf {unknown : List Bool} {b : ℕ} :
    b ∈ unknownBlocksOf unknown ↔ unknown.getD b false = true := by
  unfold unknownBlocksOf
  rw [List.mem_map]
  constructor
  · rintro ⟨e, he, rfl⟩
    obtain ⟨hmem, htrue⟩ := mem_filter.mp he
    have hget := List.mem_zipIdx_iff_getElem?.mp hmem
    rw [List.getD_eq_getElem?_getD, hget, getD_some, htrue]
  · intro h
    refine ⟨(true, b), mem_filter.mpr ⟨mem_zipIdx_iff_getElem?.mpr ?_, rfl⟩, rfl⟩
    rw [getD_eq_getElem?_getD] at h
    cases hget : unknown[b]? with
    | none =>
      rw [hget] at h
      cases h
    | some u =>
      rw [hget, getD_some] at h
      rw [h]

theorem unknownBlocksOf_nodup (unknown : List Bool) : (unknownBlocksOf unknown).Nodup := by
  unfold unknownBlocksOf
  have hsub : ((unknown.zipIdx.filter Prod.fst).map Prod.snd).Sublist
      (unknown.zipIdx.map Prod.snd) := filter_sublist.map _
  refine hsub.nodup ?_
  rw [zipIdx_map_snd]
  exact nodup_range'

theorem Fits.root_lt (hF : Fits cfg insns) : ∀ b ∈ 0 :: cfg.unknownBlocks,
    b < cfg.startIdx.length := by
  intro b hb
  rcases mem_cons.mp hb with rfl | hb
  · exact hF.nonempty
  · rw [hF.unknown, mem_unknownBlocksOf] at hb
    by_contra hge
    rw [getD_eq_default _ _ (hF.unknownLength ▸ not_lt.mp hge)] at hb
    cases hb

theorem initScratch_kept (relevant : Option (List Bool)) (hF : Fits cfg insns)
    (hentry : cfg.unknownEntry.getD 0 false = false) :
    Indexed (S := S) (T := T) cfg (initScratch { cfg with relevant := relevant })
      (Flow.init (((0 :: cfg.unknownBlocks).filter
        (isRelevant { cfg with relevant := relevant })).map (addrOf cfg))) := by
  have hlt : ∀ b ∈ (0 :: cfg.unknownBlocks).filter (isRelevant { cfg with relevant := relevant }),
      b < cfg.startIdx.length := fun b hb => hF.root_lt b (mem_filter.mp hb).1
  have hqueued : ∀ (l : List ℕ) (q : List Bool), (∀ b ∈ l, b < q.length) →
      (l.foldl (fun q b => q.set b true) q).length = q.length ∧
        ∀ k, (l.foldl (fun q b => q.set b true) q).getD k false =
          (q.getD k false || decide (k ∈ l)) := by
    intro l
    induction l with
    | nil => exact fun q _ => ⟨rfl, fun k => by simp⟩
    | cons b l ih =>
      intro q hl
      have hb := hl b mem_cons_self
      obtain ⟨hlen, hget⟩ := ih (q.set b true) fun x hx => by
        rw [length_set]
        exact hl x (mem_cons_of_mem _ hx)
      refine ⟨by rw [foldl_cons, hlen, length_set], fun k => ?_⟩
      rw [foldl_cons, hget, getD_set _ _ _ _ _ hb]
      by_cases hkb : k = b
      · simp [hkb]
      · simp [hkb]
  have hreplicate : ∀ {α : Type} (n b : ℕ) (v : α), (replicate n v).getD b v = v := by
    intro α n b v
    rw [getD_eq_getElem?_getD, getElem?_replicate]
    split <;> rfl
  obtain ⟨hqlen, hqget⟩ := hqueued ((0 :: cfg.unknownBlocks).filter
    (isRelevant { cfg with relevant := relevant }))
    (replicate cfg.startIdx.length false) fun b hb => by
      rw [length_replicate]
      exact hlt b hb
  unfold initScratch
  refine ⟨length_replicate .., length_replicate .., length_replicate ..,
    hqlen.trans (length_replicate ..), fun b _ => ?_, fun b _ e he => ?_, fun b _ => ?_,
    fun b _ => ?_, rfl, hlt, ?_, fun b _ => ?_, rfl⟩
  · rw [hreplicate]
    rfl
  · rw [hreplicate] at he
    cases he
  · exact (hreplicate ..).symm
  · exact (hreplicate ..).symm
  · refine List.Nodup.filter _ ?_
    rw [nodup_cons]
    refine ⟨fun h0 => ?_, hF.unknown ▸ unknownBlocksOf_nodup _⟩
    rw [hF.unknown, mem_unknownBlocksOf, hentry] at h0
    cases h0
  · rw [hqget, hreplicate, Bool.false_or]

theorem initScratch_indexed (hF : Fits cfg insns) (hentry : cfg.unknownEntry.getD 0 false = false) :
    Indexed (S := S) (T := T) cfg (initScratch cfg)
      (Flow.init ((0 :: cfg.unknownBlocks).map (addrOf cfg))) := by
  have hkept := initScratch_kept (S := S) (T := T) none hF hentry
  rwa [isRelevant_none, filter_true, hF.with_none] at hkept

end Scratch

end BlockIndexRuns
