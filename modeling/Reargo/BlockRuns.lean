import Reargo.BlockPaths

/-!
# Both walks run the flow over blocks

The walk keyed by addresses and the walk by block number each take the steps of the flow
over their blocks, with the same edges, visits, queue and snapshots after every step.
-/
namespace BlockRuns

open PcodeModel BlockFlow BlockPaths OrderedMap EdgeFlow
open List hiding lookup
open ControlFlow (LiftedInstruction)

variable {S T : Type} {l : List U64}

/-- The blocks of the walk keyed by addresses. -/
def legacyBlocks (insns : List LiftedInstruction) (starts : List U64) (unknown : U64 → Bool)
    (entry : U64) : Blocks where
  starts := starts
  body := legacyBody insns starts
  next b :=
    if blockEnd starts b ≠ -1 ∧ inLift insns (blockEnd starts b) then some (blockEnd starts b)
    else none
  fixed b := decide (b = entry) || unknown b

theorem insertKey_of_mem {a : U64} (hs : l.Pairwise (· < ·)) (h : a ∈ l) : insertKey a l = l := by
  induction l with
  | nil => cases h
  | cons b l ih =>
    rw [pairwise_cons] at hs
    unfold insertKey
    rcases mem_cons.mp h with rfl | h
    · rw [if_neg (lt_irrefl _), if_pos rfl]
    · have hlt := hs.1 a h
      rw [if_neg (lt_asymm hlt), if_neg (ne_of_gt hlt), ih hs.2 h]

theorem mem_insertKey {a x : U64} : x ∈ insertKey a l ↔ x = a ∨ x ∈ l := by
  induction l with
  | nil => simp [insertKey]
  | cons b l ih =>
    unfold insertKey
    split
    · simp
    · split
      · next heq =>
        subst heq
        simp
      · rw [mem_cons, ih, mem_cons]
        tauto

theorem insertKey_sorted {a : U64} (h : l.Pairwise (· < ·)) : (insertKey a l).Pairwise (· < ·) := by
  induction l with
  | nil => simp [insertKey]
  | cons b l ih =>
    rw [pairwise_cons] at h
    unfold insertKey
    split
    · next hlt =>
      refine pairwise_cons.mpr ⟨fun x hx => ?_, pairwise_cons.mpr h⟩
      rcases mem_cons.mp hx with rfl | hx
      · exact hlt
      · exact lt_trans hlt (h.1 x hx)
    · split
      · exact pairwise_cons.mpr h
      · next hlt hne =>
        refine pairwise_cons.mpr ⟨fun x hx => ?_, ih h.2⟩
        rcases mem_insertKey.mp hx with rfl | hx
        · exact lt_of_le_of_ne (not_lt.mp hlt) (Ne.symm hne)
        · exact h.1 x hx

def edgesFrom (g : U64 → Option S) (preds : List U64) : List (U64 × S) :=
  preds.filterMap fun q => (g q).map fun s => (q, s)

section EdgesFrom

variable {g : U64 → Option S} {preds : List U64} {b : U64} {s : S}

theorem mem_edgesFrom {e : U64 × S} : e ∈ edgesFrom g preds ↔ e.1 ∈ preds ∧ g e.1 = some e.2 := by
  unfold edgesFrom
  rw [mem_filterMap]
  constructor
  · rintro ⟨q, hq, hg⟩
    obtain ⟨s, hs, rfl⟩ := Option.map_eq_some_iff.mp hg
    exact ⟨hq, hs⟩
  · rintro ⟨hq, hg⟩
    exact ⟨e.1, hq, by rw [hg]; rfl⟩

theorem edgesFrom_sorted (h : preds.Pairwise (· < ·)) :
    ((edgesFrom g preds).map Prod.fst).Pairwise (· < ·) := by
  have hsub : ((edgesFrom g preds).map Prod.fst).Sublist preds := by
    clear h
    induction preds with
    | nil => exact .slnil
    | cons q preds ih =>
      unfold edgesFrom at ih ⊢
      rw [filterMap_cons]
      cases g q with
      | none => exact ih.cons q
      | some s => exact ih.cons_cons q
  exact h.sublist hsub

theorem lookup_edgesFrom (h : preds.Pairwise (· < ·)) (hkept : (g b).isSome → b ∈ preds) :
    lookup b (edgesFrom g preds) = g b := by
  have hnodup := (edgesFrom_sorted (g := g) h).imp fun h => ne_of_lt h
  refine Option.ext fun s => ?_
  rw [lookup_eq_some_iff hnodup, mem_edgesFrom]
  exact ⟨And.right, fun hg => ⟨hkept (by rw [hg]; rfl), hg⟩⟩

theorem insertEntry_edgesFrom (h : preds.Pairwise (· < ·)) (hkept : ∀ q, (g q).isSome → q ∈ preds)
    {g' : U64 → Option S} (hg' : ∀ q, g' q = if q = b then some s else g q) :
    insertEntry b s (edgesFrom g preds) = edgesFrom g' (insertKey b preds) := by
  have hsorted := insertKey_sorted (a := b) h
  refine eq_of_lookup_eq (insertEntry_sorted (edgesFrom_sorted h)) (edgesFrom_sorted hsorted) ?_
  intro q
  have hkept' : (g' q).isSome → q ∈ insertKey b preds := by
    intro hq
    rw [hg'] at hq
    split at hq
    · next heq => exact mem_insertKey.mpr (.inl heq)
    · exact mem_insertKey.mpr (.inr (hkept q hq))
  rw [lookup_insertEntry, lookup_edgesFrom h (hkept q), lookup_edgesFrom hsorted hkept', hg']
  by_cases hq : q = b <;> simp [hq]

end EdgesFrom

/-- The scratch of the walk keyed by addresses holds the progress of the flow. -/
structure Keyed (insns : List LiftedInstruction) (f : LegacyScratch S T)
    (p : Progress U64 S (U64 × T)) : Prop where
  incoming : ∀ b, p.incoming b = edgesFrom (fun q => f.edges.lookup (q, b)) (predsOf f b)
  sorted : ∀ b, (predsOf f b).Pairwise (· < ·)
  kept : ∀ b q, (f.edges.lookup (q, b)).isSome → q ∈ predsOf f b
  visits : ∀ b, p.visits b = (f.visits.lookup b).getD 0
  saturated : ∀ b, p.saturated b = decide (b ∈ f.saturated)
  queue : p.queue = f.worklist
  nodup : f.worklist.Nodup
  queued : ∀ b, b ∈ f.queued ↔ b ∈ f.worklist
  log : p.log = f.snaps
  inLift : ∀ b ∈ f.worklist, inLift insns b = true

section KeyedSteps

variable {insns : List LiftedInstruction} {f : LegacyScratch S T} {p : Progress U64 S (U64 × T)}
  {b : U64}

theorem predsOf_cons {g : LegacyScratch S T} {k : U64} {v : List U64}
    (hg : g.preds = (k, v) :: f.preds) (b : U64) :
    predsOf g b = if b = k then v else predsOf f b := by
  unfold predsOf
  rw [hg, lookup_cons]
  by_cases h : b = k
  · simp [h]
  · rw [beq_eq_false_iff_ne.mpr h, if_neg h]

theorem lookup_edges_cons {edges : List ((U64 × U64) × S)} (q b q' b' : U64) (s : S) :
    (((q, b), s) :: edges).lookup (q', b') =
      if q' = q ∧ b' = b then some s else edges.lookup (q', b') := by
  rw [lookup_cons]
  by_cases h : q' = q ∧ b' = b
  · simp [h]
  · have hne : ((q', b') == (q, b)) = false := by
      rw [beq_eq_false_iff_ne, ne_eq, Prod.mk.injEq]
      exact h
    rw [hne, if_neg h]

theorem Keyed.lookup (h : Keyed insns f p) (q b : U64) :
    OrderedMap.lookup q (p.incoming b) = f.edges.lookup (q, b) := by
  rw [h.incoming]
  exact lookup_edgesFrom (h.sorted b) (h.kept b q)

theorem Keyed.push (h : Keyed insns f p) {k : U64} (hk : BlockFlow.inLift insns k = true) :
    Keyed insns
      (if k ∈ f.queued then f else
        { f with queued := k :: f.queued, worklist := f.worklist ++ [k] }) (p.push k) := by
  by_cases hqd : k ∈ f.queued
  · rw [if_pos hqd, p.push_of_mem k (by rw [h.queue]; exact (h.queued k).mp hqd)]
    exact h
  · have hnot : k ∉ f.worklist := fun hm => hqd ((h.queued k).mpr hm)
    rw [if_neg hqd, p.push_of_notMem k (by rw [h.queue]; exact hnot)]
    refine { h with queue := ?_, nodup := ?_, queued := fun x => ?_, inLift := fun x hx => ?_ }
    · rw [h.queue]
    · refine nodup_append.mpr ⟨h.nodup, nodup_singleton _, ?_⟩
      intro x hx y hy hxy
      rw [mem_singleton.mp hy] at hxy
      exact hnot (hxy ▸ hx)
    · dsimp only
      rw [mem_cons, mem_append, mem_singleton, h.queued, or_comm]
    · rcases mem_append.mp hx with hx | hx
      · exact h.inLift x hx
      · rw [mem_singleton.mp hx]
        exact hk

theorem Keyed.states (h : Keyed insns f p) (b : U64) :
    (p.incoming b).map Prod.snd = incomingOf f b := by
  rw [h.incoming]
  unfold edgesFrom incomingOf
  rw [map_filterMap]
  refine filterMap_congr fun q _ => ?_
  rw [Option.map_map]
  exact Option.map_id'

theorem Keyed.pop {worklist : List U64} (h : Keyed insns f p) (hq : f.worklist = b :: worklist) :
    Keyed insns { f with worklist := worklist, queued := f.queued.filter (· ≠ b) }
      { p with queue := worklist } := by
  have hnodup := h.nodup
  rw [hq, nodup_cons] at hnodup
  refine { h with queue := rfl, nodup := hnodup.2, queued := fun k => ?_, inLift := fun k hk => ?_ }
  · dsimp only
    rw [mem_filter, h.queued, hq, mem_cons, decide_eq_true_eq]
    constructor
    · rintro ⟨hk, hne⟩
      exact hk.resolve_left hne
    · intro hk
      refine ⟨.inr hk, ?_⟩
      rintro rfl
      exact hnodup.1 hk
  · exact h.inLift k (hq ▸ mem_cons_of_mem _ hk)

variable [DecidableEq S]

theorem sendEdgeAt_keyed (h : Keyed insns f p) {e : U64 × S} (he : BlockFlow.inLift insns e.1 = true) :
    Keyed insns (sendEdgeAt b f e) (Flow.deliver b p e) := by
  unfold sendEdgeAt Flow.deliver
  rw [h.lookup]
  by_cases hsame : f.edges.lookup (b, e.1) = some e.2
  · have hmem : b ∈ predsOf f e.1 := h.kept e.1 b (by rw [hsame]; rfl)
    have hpreds : ∀ k, predsOf { f with preds := (e.1, insertKey b (predsOf f e.1)) :: f.preds } k =
        predsOf f k := by
      intro k
      rw [predsOf_cons rfl, insertKey_of_mem (h.sorted e.1) hmem]
      split
      · next heq => rw [heq]
      · rfl
    simp only [hsame, if_true]
    exact ⟨fun k => by rw [hpreds]; exact h.incoming k, fun k => by rw [hpreds]; exact h.sorted k,
      fun k q hq => by rw [hpreds]; exact h.kept k q hq, h.visits, h.saturated, h.queue, h.nodup,
      h.queued, h.log, h.inLift⟩
  · simp only [hsame, if_false]
    have hput : Keyed insns
        { f with
          preds := (e.1, insertKey b (predsOf f e.1)) :: f.preds
          edges := ((b, e.1), e.2) :: f.edges } (p.put b e) := by
      have hpreds : ∀ k, predsOf { f with
          preds := (e.1, insertKey b (predsOf f e.1)) :: f.preds
          edges := ((b, e.1), e.2) :: f.edges } k =
            if k = e.1 then insertKey b (predsOf f e.1) else predsOf f k :=
        predsOf_cons rfl
      refine ⟨fun k => ?_, fun k => ?_, fun k q hq => ?_, h.visits, h.saturated, h.queue, h.nodup,
        h.queued, h.log, h.inLift⟩
      · by_cases hk : k = e.1
        · subst hk
          rw [p.put_incoming_self, h.incoming, hpreds, if_pos rfl]
          refine insertEntry_edgesFrom (h.sorted e.1) (h.kept e.1) fun q => ?_
          dsimp only
          rw [lookup_edges_cons]
          simp only [and_true]
        · rw [p.put_incoming_of_ne b k hk, h.incoming, hpreds, if_neg hk]
          unfold edgesFrom
          refine filterMap_congr fun q _ => ?_
          dsimp only
          rw [lookup_edges_cons, if_neg fun hc => hk hc.2]
      · rw [hpreds]
        split
        · exact insertKey_sorted (h.sorted e.1)
        · exact h.sorted k
      · rw [hpreds]
        dsimp only at hq
        rw [lookup_edges_cons] at hq
        split at hq
        · next hc =>
          rw [if_pos hc.2]
          exact mem_insertKey.mpr (.inl hc.1)
        · have hold := h.kept k q hq
          split
          · next hk =>
            subst hk
            exact mem_insertKey.mpr (.inr hold)
          · exact hold
    exact hput.push he

theorem foldl_sendEdgeAt_keyed {es : List (U64 × S)} (h : Keyed insns f p)
    (hes : ∀ e ∈ es, BlockFlow.inLift insns e.1 = true) :
    Keyed insns (es.foldl (sendEdgeAt b) f) (es.foldl (Flow.deliver b) p) := by
  induction es generalizing f p with
  | nil => exact h
  | cons e es ih =>
    rw [foldl_cons, foldl_cons]
    exact ih (sendEdgeAt_keyed h (hes e mem_cons_self))
      fun e' he' => hes e' (mem_cons_of_mem _ he')

end KeyedSteps

section LegacyRuns

variable [FlowState S] {insns : List LiftedInstruction} {starts : List U64} {unknown : U64 → Bool}
  {entry : U64} {snapshot : S → T} {f : LegacyScratch S T} {p : Progress U64 S (U64 × T)} {b : U64}
  {B : Blocks}

theorem joinAll_flowOf (B : Blocks) (ss : List S) :
    (flowOf B snapshot).joinAll ss = joinAll ss := by
  cases ss <;> rfl

theorem start_map {fixed : Prop} [Decidable fixed] (h : B.fixed b = decide fixed) (v : ℕ) :
    (if fixed then some (FlowState.default, false)
      else if maxVisitsPerBlock < v then some (FlowState.default, true)
      else (joinAll ((p.incoming b).map Prod.snd)).map fun s => (s, false)) =
      ((flowOf B snapshot).start p b v).map fun s =>
        (s, !B.fixed b && decide (maxVisitsPerBlock < v)) := by
  unfold Flow.start
  rw [joinAll_flowOf]
  change _ = Option.map _ (if B.fixed b = true then _ else if maxVisitsPerBlock < v then _ else _)
  rw [h]
  by_cases hc : fixed
  · simp only [hc, decide_true, if_true, Bool.not_true, Bool.false_and, Option.map_some]
    rfl
  · by_cases hv : maxVisitsPerBlock < v
    · simp only [hc, hv, decide_true, decide_false, if_true, if_false, Bool.not_false,
        Bool.and_self, Option.map_some, Bool.false_eq_true]
      rfl
    · simp only [hc, hv, decide_false, if_false, Bool.and_false, Bool.false_eq_true]

variable (unknown entry snapshot) in
theorem legacyOut_inLift (hstarts : ∀ s ∈ starts, inLift insns s = true) (b : U64) (s : S) :
    ∀ e ∈ (flowOf (legacyBlocks insns starts unknown entry) snapshot).out b s,
      inLift insns e.1 = true := by
  intro e he
  rcases outOf_mem he with hnext | ⟨s', hs'⟩
  · unfold legacyBlocks at hnext
    dsimp only at hnext
    split at hnext
    · next hc => exact Option.some.inj hnext ▸ hc.2
    · cases hnext
  · exact hstarts _ (Blocks.walk_mem _ snapshot b s _ hs')

theorem visitStartAt_eq (hB : legacyBlocks insns starts unknown entry = B) (h : Keyed insns f p)
    (v : ℕ) :
    visitStartAt unknown entry f b v = ((flowOf B snapshot).start p b v).map fun s =>
      (s, !B.fixed b && decide (maxVisitsPerBlock < v)) := by
  have hfixed : B.fixed b = decide (b = entry ∨ unknown b = true) := by
    rw [← hB]
    change (decide (b = entry) || unknown b) = _
    rw [Bool.decide_or, Bool.decide_eq_true]
  rw [← start_map hfixed, h.states]
  rfl

variable [DecidableEq S]

theorem walkBlockAt_keyed (hB : legacyBlocks insns starts unknown entry = B)
    (hstarts : ∀ s ∈ starts, inLift insns s = true) (h : Keyed insns f p)
    (hb : inLift insns b = true) (s : S) :
    Keyed insns (walkBlockAt insns starts snapshot b s f) ((flowOf B snapshot).walk b s p) := by
  have hw : legacyInsns starts snapshot (legacyBody insns starts b)
      { st := s, out := [], fallsThrough := true, snaps := f.snaps } =
        withSnaps f.snaps (B.walk snapshot b s) := by
    subst hB
    unfold Blocks.walk
    rw [← legacyInsns_withSnaps]
    unfold withSnaps startWalk
    rw [append_nil]
    rfl
  have hnext : B.next b = if blockEnd starts b ≠ -1 ∧ inLift insns (blockEnd starts b) then
      some (blockEnd starts b) else none := by
    rw [← hB]
    rfl
  have hout : (flowOf B snapshot).out b s =
      if (withSnaps f.snaps (B.walk snapshot b s)).fallsThrough ∧
          blockEnd starts b ≠ -1 ∧ inLift insns (blockEnd starts b) then
        addEdgeAt (B.walk snapshot b s).out (blockEnd starts b) (B.walk snapshot b s).st
      else (B.walk snapshot b s).out := by
    change outOf (B.next b) (B.walk snapshot b s) = _
    rw [hnext]
    unfold outOf withSnaps
    split
    · next hfalls =>
      by_cases hc : blockEnd starts b ≠ -1 ∧ inLift insns (blockEnd starts b) = true
      · rw [if_pos hc, if_pos ⟨hfalls, hc⟩]
      · rw [if_neg hc, if_neg fun hall => hc hall.2]
    · next hfalls => rw [if_neg fun hall => hfalls hall.1]
  unfold walkBlockAt Flow.walk
  dsimp only
  rw [if_neg (by rw [hb]; exact fun h => absurd h (by decide)), hw]
  have hlog : Keyed insns { f with snaps := (withSnaps f.snaps (B.walk snapshot b s)).snaps }
      { p with log := p.log ++ (flowOf B snapshot).record b s } :=
    { h with log := by rw [h.log]; rfl }
  have hsent := foldl_sendEdgeAt_keyed (b := b) hlog
    (hB ▸ legacyOut_inLift unknown entry snapshot hstarts b s)
  refine Eq.mp (congrArg (Keyed insns · _) ?_) hsent
  rw [hout]
  rfl

theorem visitBlockAt_keyed (hB : legacyBlocks insns starts unknown entry = B)
    (hstarts : ∀ s ∈ starts, inLift insns s = true) (h : Keyed insns f p)
    (hb : inLift insns b = true) :
    Keyed insns (visitBlockAt insns starts unknown entry snapshot f b)
      ((flowOf B snapshot).visit b p) := by
  have hvisited : Keyed insns { f with visits := (b, (f.visits.lookup b).getD 0 + 1) :: f.visits }
      (p.count b) := by
    refine { h with visits := fun k => ?_ }
    dsimp only
    rw [lookup_cons]
    by_cases hk : k = b
    · subst hk
      rw [p.count_visits_self, beq_self_eq_true, h.visits]
      rfl
    · rw [p.count_visits_of_ne hk, beq_eq_false_iff_ne.mpr hk, h.visits]
  have hstart : visitStartAt unknown entry
      { f with visits := (b, (f.visits.lookup b).getD 0 + 1) :: f.visits } b
      ((f.visits.lookup b).getD 0 + 1) =
        ((flowOf B snapshot).start p b (p.visits b + 1)).map fun s =>
          (s, !B.fixed b && decide (maxVisitsPerBlock < p.visits b + 1)) := by
    rw [h.visits]
    exact visitStartAt_eq hB h _
  unfold visitBlockAt
  dsimp only
  rw [hstart]
  cases hfrom : (flowOf B snapshot).start p b (p.visits b + 1) with
  | none =>
    rw [visit_of_start_none hfrom]
    exact hvisited
  | some s =>
    rw [visit_of_start_some hfrom, Option.map_some]
    refine walkBlockAt_keyed hB hstarts ?_ hb s
    change Keyed insns _ (if (!B.fixed b && decide (maxVisitsPerBlock < p.visits b + 1)) = true
      then _ else _)
    split
    · refine { hvisited with saturated := fun k => ?_ }
      by_cases hk : k = b
      · subst hk
        rw [Progress.saturate_self]
        simp
      · rw [Progress.saturate_of_ne _ hk, hvisited.saturated]
        simp [hk]
    · exact hvisited

variable (unknown entry snapshot) in
theorem legacyLoop_rel (hstarts : ∀ s ∈ starts, inLift insns s = true) (fuel : ℕ)
    (h : Keyed insns f p) :
    Option.Rel (Keyed insns) (legacyLoop insns starts unknown entry snapshot fuel f)
      ((flowOf (legacyBlocks insns starts unknown entry) snapshot).run fuel p) := by
  induction fuel generalizing f p with
  | zero =>
    unfold legacyLoop Flow.run
    cases hq : f.worklist with
    | nil =>
      rw [step_of_nil (h.queue.trans hq)]
      exact .some h
    | cons b worklist =>
      rw [step_of_queue (h.queue.trans hq)]
      exact .none
  | succ fuel ih =>
    unfold legacyLoop Flow.run
    cases hq : f.worklist with
    | nil =>
      rw [step_of_nil (h.queue.trans hq)]
      exact .some h
    | cons b worklist =>
      have hpop := h.pop hq
      rw [step_of_queue (h.queue.trans hq)]
      dsimp only
      have hsat := h.saturated b
      by_cases hs : b ∈ f.saturated
      · rw [if_pos hs, if_pos (hsat.trans (decide_eq_true hs))]
        exact ih hpop
      · rw [if_neg hs, if_neg (by rw [hsat, decide_eq_false hs]; exact Bool.false_ne_true)]
        exact ih (visitBlockAt_keyed rfl hstarts hpop (h.inLift b (hq ▸ mem_cons_self)))

end LegacyRuns

end BlockRuns
