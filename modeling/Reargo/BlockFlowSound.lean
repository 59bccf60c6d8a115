import Reargo.BlockCfg

/-!
# The block flow ends at a sound post-fixpoint

The flow over a lift ends, and for every call a path reaches one recorded snapshot is of a
state that describes every path to it: for a lift whose addresses strictly increase, and for
any other whose walks keyed by addresses keep to their blocks.
-/
namespace BlockFlowSound

open PcodeModel BlockShapes BlockFlow BlockPaths BlockRuns BlockIndexRuns BlockCfg EdgeFlow List
open Option (getD_some map_eq_some_iff some.inj)
open ControlFlow (LiftedInstruction)

/-- Where the flow starts from the state that knows nothing: the entry and the blocks entered
from somewhere unknown. -/
def flowRoots (cfg : Cfg) (insns : List LiftedInstruction) : List U64 :=
  if cfg.legacy then
    (insns.head?.map fun first => first.address ::
      legacyUnknown insns cfg.external (· ∈ cfg.inBodyBlocks) first.address).getD []
  else (0 :: cfg.unknownBlocks).map (addrOf cfg)

/-- Whatever the states and the snapshots: the flow ends, with few visits of each block other
than the roots, and a snapshot for each call reached describes all paths to it. -/
def SoundFlow (insns : List LiftedInstruction) (external : List U64) (inBody : U64 → Bool) : Prop :=
  ∀ (S T : Type) [FlowState S] [DecidableEq S] (snapshot : S → T),
    ∃ fuel o, propagateCfg fuel (Cfg.build insns external inBody) insns snapshot = some o ∧
      (∀ e ∈ o.visits, e.1 ∉ flowRoots (Cfg.build insns external inBody) insns →
        e.2 ≤ maxVisitsPerBlock + 1) ∧
      ∀ (C : Type) (γ : S → Set C) (M : Machine C), Sound γ M →
        ∀ (i k : ℕ) (insn : LiftedInstruction) (op : PcodeOp), insns[i]? = some insn →
          insn.ops[k]? = some op → isCall op = true →
          (∃ c, Reaches M insns (flowRoots (Cfg.build insns external inBody) insns) i k c) →
          ∃ s, (insn.address, snapshot s) ∈ o.snaps ∧
            ∀ c, Reaches M insns (flowRoots (Cfg.build insns external inBody) insns) i k c → c ∈ γ s

/-- What a walk keyed by addresses takes of the block at an address. -/
def legacyWalk (insns : List LiftedInstruction) (starts : List U64) (b : U64) :
    List LiftedInstruction :=
  untilStop (legacyBody insns starts b)

/-- A block that static edges lead to from a root. -/
def Entered (insns : List LiftedInstruction) (starts roots : List U64) (b : U64) : Prop :=
  b ∈ starts ∧ ∃ r ∈ roots, Relation.ReflTransGen (fun a e => e ∈ legacySuccs insns starts a) r b

/-- The walk of a block keyed by addresses passes no start of another block entered, and where
it falls through the lift goes on with the next start in address order. -/
structure KeepsBlock (insns : List LiftedInstruction) (starts roots : List U64) (b : U64) (i : ℕ) :
    Prop where
  index : indexOf insns b = some i
  unique : ∀ j insn, insns[j]? = some insn → insn.address = b → j = i
  nonempty : legacyWalk insns starts b ≠ []
  inside : ∀ insn ∈ (legacyWalk insns starts b).tail, ¬ Entered insns starts roots insn.address
  falls : (∀ insn ∈ legacyWalk insns starts b, insn.ops.any isStop = false) →
    ∀ insn, insns[i + (legacyWalk insns starts b).length]? = some insn →
      insn.address = blockEnd starts b ∧ insn.address ≠ -1

/-- The walks keyed by addresses of the blocks entered keep to them. -/
def KeepsBlocks (insns : List LiftedInstruction) (starts roots : List U64) : Prop :=
  ∀ b, Entered insns starts roots b → ∃ i, KeepsBlock insns starts roots b i

def WalksKeep (insns : List LiftedInstruction) (external : List U64) (inBody : U64 → Bool) : Prop :=
  ∀ first ∈ insns.head?, KeepsBlocks insns (legacyStarts insns external first.address)
    (flowRoots (Cfg.build insns external inBody) insns)

section Flow

variable {S T : Type} [FlowState S] [DecidableEq S]

theorem flow_ends {insns : List LiftedInstruction} {B : Blocks} {live : U64 → Prop} {lo : U64 → ℕ}
    (roots : List U64) (hT : Tiles insns B live lo)
    (hnext : ∀ b e, B.next b = some e → e ∈ B.starts)
    (hroots : ∀ r ∈ roots, B.fixed r = true ∧ r ∈ B.starts) (hlive : ∀ r ∈ roots, live r)
    (snapshot : S → T) :
    ∃ fuel q, (flowOf B snapshot).run fuel (Flow.init roots) = some q ∧
      (∀ b, B.fixed b = false → q.visits b ≤ maxVisitsPerBlock + 1) ∧
      ∀ (C : Type) (γ : S → Set C) (M : Machine C), Sound γ M →
        ∀ (i k : ℕ) (insn : LiftedInstruction) (op : PcodeOp), insns[i]? = some insn →
          insn.ops[k]? = some op → isCall op = true → (∃ c, Reaches M insns roots i k c) →
          ∃ s, (insn.address, snapshot s) ∈ q.log ∧ ∀ c, Reaches M insns roots i k c → c ∈ γ s := by
  have hout : ∀ b s, ∀ e ∈ (flowOf B snapshot).out b s, e.1 ∈ B.starts.toFinset := by
    intro b s e he
    rw [mem_toFinset]
    rcases outOf_mem he with hn | ⟨s', hs'⟩
    · exact hnext b e.1 hn
    · exact B.walk_mem snapshot b s (e.1, s') hs'
  have hfrom : ∀ r ∈ roots, (flowOf B snapshot).fixed r = true ∧ r ∈ B.starts.toFinset :=
    fun r hr => ⟨(hroots r hr).1, mem_toFinset.mpr (hroots r hr).2⟩
  obtain ⟨fuel, q, last, hrun, hfin⟩ := run_init hout hfrom
  refine ⟨fuel, q, hrun, fun b hb => hfin.bounded.visits b hb, ?_⟩
  intro C γ M hγ i k insn op hi hop hcall hreach
  refine calls_described hT hγ ?_ hlive hfin.roots hfin.covered.recorded hi hop hcall hreach
  exact fun b s hlast dest t hlookup => hfin.postfixpoint (hγ.describes B snapshot) hlast
    (e := (dest, t)) (OrderedMap.mem_of_lookup hlookup)

end Flow

section Index

variable {insns : List LiftedInstruction} {external : List U64} {inBody : U64 → Bool}

variable (hinc : (insns.map LiftedInstruction.address).Pairwise (· < ·)) (hne : insns ≠ [])

include hinc hne

variable (external inBody) in
theorem build_legacy : (Cfg.build insns external inBody).legacy = false := by
  rw [build_eq hinc hne]
  rfl

variable (external inBody) in
theorem unknownEntry_zero : (Cfg.build insns external inBody).unknownEntry.getD 0 false = false := by
  obtain ⟨-, hpos⟩ := boundary_zero external hinc hne
  rw [build_eq hinc hne, getD_eq_getElem?_getD]
  change (((range (startsOf insns external).length).map _)[0]?).getD false = false
  rw [getElem?_map, getElem?_range hpos]
  rfl

variable (external inBody) in
theorem soundFlow_of_increasing : SoundFlow insns external inBody := by
  intro S T _ _ snapshot
  have hF := build_fits external inBody hinc hne
  have hlegacy := build_legacy external inBody hinc hne
  have hentry := unknownEntry_zero external inBody hinc hne
  generalize hcfg : Cfg.build insns external inBody = cfg at hF hlegacy hentry ⊢
  have hroots : flowRoots cfg insns = (0 :: cfg.unknownBlocks).map (addrOf cfg) := by
    unfold flowRoots
    rw [hlegacy, if_neg Bool.false_ne_true]
  have hlt := hF.root_lt
  have hfixed : ∀ b < cfg.startIdx.length, (indexBlocks cfg insns).fixed (addrOf cfg b) =
      decide (b ∈ 0 :: cfg.unknownBlocks) := by
    intro b hb
    change ((binarySearch cfg.startAddr (addrOf cfg b)).map _).getD false = _
    rw [hF.search hb, Option.map_some, getD_some]
    refine decide_eq_decide.mpr ?_
    rw [mem_cons, hF.unknown, mem_unknownBlocksOf]
  have hTiles : Tiles insns (indexBlocks cfg insns) (· ∈ cfg.startAddr)
      fun a => (insns.map LiftedInstruction.address).idxOf a := by
    rw [← hcfg]
    exact build_tiles hinc hne
  obtain ⟨fuel, q, hrun, hvisits, hcalls⟩ := flow_ends (flowRoots cfg insns) hTiles
    (fun b e he => by
      obtain ⟨k, -, hk⟩ := Option.bind_eq_some_iff.mp he
      exact mem_of_getElem? hk)
    (fun r hr => by
      rw [hroots] at hr
      obtain ⟨b, hb, rfl⟩ := mem_map.mp hr
      rw [hfixed b (hlt b hb)]
      exact ⟨decide_eq_true hb, hF.addr_mem (hlt b hb)⟩)
    (fun r hr => by
      rw [hroots] at hr
      obtain ⟨b, hb, rfl⟩ := mem_map.mp hr
      exact hF.addr_mem (hlt b hb))
    snapshot
  have hrel := flowLoop_rel snapshot hF fuel (initScratch_indexed hF hentry)
  rw [← hroots, hrun] at hrel
  obtain ⟨f, hf, hq⟩ : ∃ f, flowLoop cfg insns snapshot (fun _ => true) fuel (initScratch cfg) =
      some f ∧ Indexed cfg f q := by
    cases hloop : flowLoop cfg insns snapshot (fun _ => true) fuel (initScratch cfg) with
    | none =>
      rw [hloop] at hrel
      cases hrel
    | some f =>
      rw [hloop] at hrel
      cases hrel with
      | some h => exact ⟨f, rfl, h⟩
  refine ⟨fuel, ⟨f.snaps, cfg.startAddr.zip f.visits⟩, ?_, fun e he hnot => ?_, ?_⟩
  · unfold propagateCfg propagateCfgWith
    rw [hlegacy, if_neg Bool.false_ne_true, if_neg (by have := hF.nonempty; omega), hf]
    rfl
  · obtain ⟨b, hb⟩ := mem_iff_getElem?.mp he
    obtain ⟨haddr, hvis⟩ := getElem?_zip_eq_some.mp hb
    have hlen : b < cfg.startIdx.length :=
      hF.length ▸ (List.getElem?_eq_some_iff.mp haddr).1
    have hab : addrOf cfg b = e.1 := some.inj ((hF.getElem hlen).symm.trans haddr)
    have hve : f.visits.getD b 0 = e.2 := by
      rw [getD_eq_getElem?_getD, hvis]
      rfl
    rw [← hve, ← hq.visits b hlen]
    refine hvisits _ ?_
    rw [hfixed b hlen, decide_eq_false_iff_not]
    intro hmem
    refine hnot ?_
    rw [hroots, ← hab]
    exact mem_map.mpr ⟨b, hmem, rfl⟩
  · dsimp only
    rw [← hq.log]
    exact hcalls

end Index

section Legacy

variable {insns : List LiftedInstruction} {external : List U64} {inBody : U64 → Bool} {a : U64}
  {i : ℕ}

theorem indexOf_spec (h : indexOf insns a = some i) :
    ∃ insn, insns[i]? = some insn ∧ insn.address = a := by
  unfold indexOf at h
  obtain ⟨e, he, rfl⟩ := map_eq_some_iff.mp h
  have hmem := mem_reverse.mp (mem_of_find?_eq_some he)
  have haddr := find?_some he
  exact ⟨e.1, mem_zipIdx_iff_getElem?.mp hmem, of_decide_eq_true haddr⟩

theorem inLift_iff : inLift insns a = true ↔ ∃ insn ∈ insns, insn.address = a := by
  unfold inLift
  constructor
  · intro h
    obtain ⟨i, hi⟩ := Option.isSome_iff_exists.mp h
    obtain ⟨insn, hget, haddr⟩ := indexOf_spec hi
    exact ⟨insn, mem_of_getElem? hget, haddr⟩
  · rintro ⟨insn, hmem, haddr⟩
    obtain ⟨j, hj⟩ := mem_iff_getElem?.mp hmem
    unfold indexOf
    rw [Option.isSome_map, List.find?_isSome]
    exact ⟨(insn, j), mem_reverse.mpr (List.mem_zipIdx_iff_getElem?.mpr hj), decide_eq_true haddr⟩

structure GoodStarts (insns : List LiftedInstruction) (starts : List U64) : Prop where
  sorted : starts.Pairwise (· < ·)
  lifted : ∀ s ∈ starts, inLift insns s = true

variable {starts : List U64}

theorem GoodStarts.insert (h : GoodStarts insns starts)
    (ha : inLift insns a = true) : GoodStarts insns (insertKey a starts) := by
  refine ⟨insertKey_sorted h.sorted, fun s hs => ?_⟩
  rcases mem_insertKey.mp hs with rfl | hs
  · exact ha
  · exact h.lifted s hs

theorem GoodStarts.insertAll (h : GoodStarts insns starts) (l : List U64)
    (hl : ∀ a ∈ l, inLift insns a = true) :
    GoodStarts insns (l.foldl (fun s a => insertKey a s) starts) ∧
      ∀ s, s ∈ l.foldl (fun s a => insertKey a s) starts ↔ s ∈ starts ∨ s ∈ l := by
  induction l generalizing starts with
  | nil => exact ⟨h, fun s => by simp⟩
  | cons a l ih =>
    obtain ⟨hgood, hmem⟩ := ih (h.insert (hl a mem_cons_self))
      fun x hx => hl x (mem_cons_of_mem _ hx)
    refine ⟨hgood, fun s => ?_⟩
    rw [foldl_cons, hmem, mem_insertKey, mem_cons]
    tauto

theorem collectStarts_spec {a : List U64 × Bool} (h : GoodStarts insns a.1)
    {insn : LiftedInstruction} (hinsn : insn ∈ insns) :
    GoodStarts insns (collectStarts insns a insn).1 ∧ ∀ s, s ∈ (collectStarts insns a insn).1 ↔
        s ∈ a.1 ∨ (a.2 = true ∧ s = insn.address) ∨
          (s ∈ jumpTargets insn ∧ inLift insns s = true) := by
  have hbase : GoodStarts insns (if a.2 then insertKey insn.address a.1 else a.1) ∧
      ∀ s, s ∈ (if a.2 then insertKey insn.address a.1 else a.1) ↔
        s ∈ a.1 ∨ (a.2 = true ∧ s = insn.address) := by
    cases a.2 with
    | true =>
      refine ⟨h.insert (inLift_iff.mpr ⟨insn, hinsn, rfl⟩), fun s => ?_⟩
      rw [if_pos rfl, mem_insertKey]
      tauto
    | false =>
      refine ⟨h, fun s => ?_⟩
      simp
  obtain ⟨hgood, hmem⟩ := hbase.1.insertAll ((jumpTargets insn).filter (inLift insns))
    fun x hx => (mem_filter.mp hx).2
  refine ⟨hgood, fun s => ?_⟩
  unfold collectStarts
  dsimp only
  rw [hmem, hbase.2, mem_filter, or_assoc]

theorem foldl_collectStarts (l : List LiftedInstruction) (hl : ∀ x ∈ l, x ∈ insns)
    (ends : Bool) (h : GoodStarts insns starts) :
    GoodStarts insns (l.foldl (collectStarts insns) (starts, ends)).1 ∧
      (∀ s ∈ starts, s ∈ (l.foldl (collectStarts insns) (starts, ends)).1) ∧
      ∀ x ∈ l, ∀ s ∈ jumpTargets x, inLift insns s = true →
        s ∈ (l.foldl (collectStarts insns) (starts, ends)).1 := by
  induction l generalizing starts ends with
  | nil => exact ⟨h, fun _ hs => hs, fun x hx => absurd hx not_mem_nil⟩
  | cons x l ih =>
    obtain ⟨hgood, hmem⟩ := collectStarts_spec (a := (starts, ends)) h (hl x mem_cons_self)
    obtain ⟨hgood', hkeep, htargets⟩ := ih (fun y hy => hl y (mem_cons_of_mem _ hy))
      (collectStarts insns (starts, ends) x).2 hgood
    refine ⟨hgood', fun s hs => hkeep s ((hmem s).mpr (.inl hs)), fun y hy s hs hin => ?_⟩
    rcases mem_cons.mp hy with rfl | hy
    · exact hkeep s ((hmem s).mpr (.inr (.inr ⟨hs, hin⟩)))
    · exact htargets y hy s hs hin

variable (external) in
theorem legacyStarts_spec {entry : U64} (hentry : inLift insns entry = true) :
    GoodStarts insns (legacyStarts insns external entry) ∧
      entry ∈ legacyStarts insns external entry ∧
      ∀ x ∈ insns, ∀ s ∈ jumpTargets x, inLift insns s = true →
        s ∈ legacyStarts insns external entry := by
  have hone : GoodStarts insns [entry] :=
    ⟨pairwise_singleton _ _, fun s hs => mem_singleton.mp hs ▸ hentry⟩
  obtain ⟨hgood, hmem⟩ := hone.insertAll (external.filter (inLift insns))
    fun x hx => (mem_filter.mp hx).2
  obtain ⟨hgood', hkeep, htargets⟩ := foldl_collectStarts insns (fun _ hx => hx) false hgood
  exact ⟨hgood', hkeep entry ((hmem entry).mpr (.inl (mem_singleton.mpr rfl))), htargets⟩

theorem blockEnd_mem {b : U64} (h : blockEnd starts b ≠ -1) : blockEnd starts b ∈ starts := by
  unfold blockEnd at h ⊢
  cases hfind : starts.find? fun s => b < s with
  | none =>
    rw [hfind] at h
    exact absurd rfl h
  | some s => exact mem_of_find?_eq_some hfind

theorem staticJumps_eq (starts : List U64) (l : List LiftedInstruction) : staticJumps starts l =
      ((untilStop l).flatMap fun insn => (jumpTargets insn).filter (· ∈ starts),
        (untilStop l).all fun insn => !insn.ops.any isStop) := by
  induction l with
  | nil => rfl
  | cons insn l ih =>
    unfold staticJumps untilStop
    dsimp only
    split
    · next hstop => simp [hstop]
    · next hstop => simp [hstop, ih]

theorem legacySuccs_eq {b : U64} (hb : b ∈ starts) : legacySuccs insns starts b =
      ((legacyWalk insns starts b).flatMap fun insn => (jumpTargets insn).filter (· ∈ starts)) ++
        if ((legacyWalk insns starts b).all fun insn => !insn.ops.any isStop) &&
          inLift insns (blockEnd starts b) then [blockEnd starts b] else [] := by
  unfold legacySuccs legacyWalk
  rw [if_pos hb, staticJumps_eq]
  dsimp only
  split
  · rfl
  · exact (append_nil _).symm

theorem Entered.tail {starts roots : List U64} {b e : U64} (h : Entered insns starts roots b)
    (hstart : e ∈ starts) (he : e ∈ legacySuccs insns starts b) : Entered insns starts roots e := by
  obtain ⟨-, r, hr, hpath⟩ := h
  exact ⟨hstart, r, hr, hpath.tail he⟩

theorem KeepsBlock.prefix_walk {starts roots : List U64} {b : U64}
    (hK : KeepsBlock insns starts roots b i) : legacyWalk insns starts b <+: insns.drop i := by
  have hbody : legacyBody insns starts b =
      (insns.drop i).takeWhile fun insn => insn.address < blockEnd starts b := by
    unfold legacyBody
    rw [hK.index]
  refine (prefix_untilStop _).trans ?_
  rw [hbody]
  exact takeWhile_prefix _

theorem legacy_tiles {starts roots : List U64} {unknown : U64 → Bool} {entry : U64}
    (htargets : ∀ x ∈ insns, ∀ s ∈ jumpTargets x, inLift insns s = true → s ∈ starts)
    (hkeeps : KeepsBlocks insns starts roots) :
    Tiles insns (legacyBlocks insns starts unknown entry) (Entered insns starts roots)
      fun b => (indexOf insns b).getD 0 := by
  refine ⟨fun b hb => ?_, fun i insn hi hmem => ?_, fun b hb => ?_,
    fun b hb insn hinsn dest hdest htarget => ?_, fun b hb hstop insn hnext => ?_⟩
  · obtain ⟨i, hK⟩ := hkeeps b hb
    obtain ⟨x, hx, haddr⟩ := indexOf_spec hK.index
    have hpre := hK.prefix_walk
    cases hwalk : legacyWalk insns starts b with
    | nil => exact absurd hwalk hK.nonempty
    | cons y rest =>
      have hy : y = x := by
        obtain ⟨tail, htail⟩ := hpre
        rw [hwalk] at htail
        have hhead : (insns.drop i)[0]? = some y := by
          rw [← htail]
          rfl
        rw [getElem?_drop, add_zero, hx] at hhead
        exact (some.inj hhead).symm
      refine ⟨y, rest, hwalk, hy ▸ haddr, ?_⟩
      rw [hK.index, ← hwalk]
      exact hpre
  · obtain ⟨k, hK⟩ := hkeeps _ hmem
    rw [hK.index, getD_some]
    exact (hK.unique i insn hi rfl).symm
  · obtain ⟨k, hK⟩ := hkeeps b hb
    exact hK.inside
  · obtain ⟨k, hK⟩ := hkeeps b hb
    have hin : insn ∈ insns := mem_of_mem_drop (hK.prefix_walk.subset hinsn)
    have hstart := htargets insn hin _ htarget (inLift_iff.mpr ⟨dest, hdest, rfl⟩)
    refine ⟨hstart, hb.tail hstart ?_⟩
    rw [legacySuccs_eq hb.1]
    refine mem_append_left _ (mem_flatMap.mpr ⟨insn, hinsn, ?_⟩)
    exact mem_filter.mpr ⟨htarget, decide_eq_true hstart⟩
  · obtain ⟨k, hK⟩ := hkeeps b hb
    rw [hK.index, getD_some] at hnext
    obtain ⟨haddr, hmax⟩ := hK.falls hstop insn hnext
    rw [haddr] at hmax
    have hin : inLift insns (blockEnd starts b) = true :=
      inLift_iff.mpr ⟨insn, mem_of_getElem? hnext, haddr⟩
    refine ⟨haddr ▸ hb.tail (blockEnd_mem hmax) ?_, ?_⟩
    · have hall : ((legacyWalk insns starts b).all fun insn => !insn.ops.any isStop) = true :=
        all_eq_true.mpr fun x hx => by
          rw [hstop x hx]
          rfl
      rw [legacySuccs_eq hb.1, hall, hin]
      exact mem_append_right _ (mem_singleton.mpr rfl)
    · change (if blockEnd starts b ≠ -1 ∧ inLift insns (blockEnd starts b) then _ else _) = _
      rw [if_pos ⟨hmax, hin⟩, haddr]

theorem build_of_not_increasing (hinc : ¬ (insns.map LiftedInstruction.address).Pairwise (· < ·)) :
    Cfg.build insns external inBody =
      Cfg.byAddress external ((LiftShape.of insns).addrs.filter inBody) := by
  have hincr : (LiftShape.of insns).increasing = false := by
    rw [← addrs_eq] at hinc
    exact Bool.eq_false_iff.mpr fun h => hinc ((isIncreasing_iff _).mp h)
  have hcond : (!(LiftShape.of insns).increasing || (LiftShape.of insns).addrs.isEmpty) = true := by
    rw [hincr]
    rfl
  unfold Cfg.build Cfg.buildShaped
  dsimp only
  rw [if_pos hcond]

/-- The scratch the walk keyed by addresses starts from. -/
def initAt (S T : Type) (worklist : List U64) : LegacyScratch S T :=
  { edges := [], preds := [], visits := [], saturated := [], queued := worklist,
    worklist := worklist, snaps := [] }

theorem initAt_keyed {S T : Type} {worklist : List U64} (hnodup : worklist.Nodup)
    (hin : ∀ b ∈ worklist, inLift insns b = true) :
    Keyed insns (initAt S T worklist) (Flow.init worklist) :=
  ⟨fun _ => rfl, fun _ => List.Pairwise.nil, fun _ _ h => (by cases h), fun _ => rfl, fun _ => rfl,
    rfl, hnodup, fun _ => .rfl, rfl, hin⟩

theorem soundFlow_of_walksKeep (hinc : ¬ (insns.map LiftedInstruction.address).Pairwise (· < ·))
    (hkeeps : WalksKeep insns external inBody) : SoundFlow insns external inBody := by
  intro S T _ _ snapshot
  unfold WalksKeep at hkeeps
  rw [build_of_not_increasing hinc] at hkeeps ⊢
  cases insns with
  | nil => exact absurd List.Pairwise.nil hinc
  | cons first rest =>
    have hentry : inLift (first :: rest) first.address = true :=
      inLift_iff.mpr ⟨first, mem_cons_self, rfl⟩
    obtain ⟨hgood, hmem, htargets⟩ := legacyStarts_spec external hentry
    generalize hcfg : Cfg.byAddress external
      ((LiftShape.of (first :: rest)).addrs.filter inBody) = cfg at hkeeps ⊢
    have hext : cfg.external = external := by
      rw [← hcfg]
      rfl
    have hlegacy : cfg.legacy = true := by
      rw [← hcfg]
      rfl
    have hroots : flowRoots cfg (first :: rest) = first.address ::
        legacyUnknown (first :: rest) cfg.external (· ∈ cfg.inBodyBlocks) first.address := by
      unfold flowRoots
      rw [hlegacy, if_pos rfl]
      rfl
    rw [hext] at hroots
    generalize hunknown : legacyUnknown (first :: rest) external (· ∈ cfg.inBodyBlocks)
      first.address = unknown at hroots
    have hsub : ∀ b ∈ unknown, b ∈ legacyStarts (first :: rest) external first.address ∧
        b ≠ first.address := by
      intro b hb
      rw [← hunknown] at hb
      obtain ⟨hin, hcond⟩ := mem_filter.mp hb
      rw [Bool.and_eq_true, decide_eq_true_eq] at hcond
      exact ⟨hin, hcond.1⟩
    have hT : Tiles (first :: rest) (legacyBlocks (first :: rest)
        (legacyStarts (first :: rest) external first.address) (· ∈ unknown) first.address)
        (Entered (first :: rest) (legacyStarts (first :: rest) external first.address)
          (first.address :: unknown)) _ :=
      legacy_tiles htargets (hroots ▸ hkeeps first rfl)
    obtain ⟨fuel, q, hrun, hvisits, hcalls⟩ := flow_ends (first.address :: unknown) hT
      (fun b e he => by
        change (if _ then _ else _) = _ at he
        split at he
        · next hc => exact some.inj he ▸ blockEnd_mem hc.1
        · cases he)
      (fun r hr => by
        change (decide (r = first.address) || decide (r ∈ unknown)) = true ∧ r ∈ _
        rcases mem_cons.mp hr with rfl | hr
        · exact ⟨by simp, hmem⟩
        · exact ⟨by simp [hr], (hsub r hr).1⟩)
      (fun r hr => by
        refine ⟨?_, r, hr, .refl⟩
        rcases mem_cons.mp hr with rfl | hr
        · exact hmem
        · exact (hsub r hr).1)
      snapshot
    have hinit : Keyed (first :: rest) (initAt S T (first.address :: unknown))
        (Flow.init (first.address :: unknown)) := by
      refine initAt_keyed (nodup_cons.mpr ⟨fun h => (hsub _ h).2 rfl, ?_⟩) fun b hb => ?_
      · rw [← hunknown]
        exact (hgood.sorted.imp fun h => ne_of_lt h).filter _
      · rcases mem_cons.mp hb with rfl | hb
        · exact hentry
        · exact hgood.lifted b (hsub b hb).1
    have hrel := legacyLoop_rel (· ∈ unknown) first.address snapshot hgood.lifted fuel hinit
    rw [hrun] at hrel
    obtain ⟨f, hf, hq⟩ : ∃ f, legacyLoop (first :: rest)
        (legacyStarts (first :: rest) external first.address) (· ∈ unknown) first.address snapshot
        fuel (initAt S T (first.address :: unknown)) = some f ∧ Keyed (first :: rest) f q := by
      cases hloop : legacyLoop (first :: rest)
        (legacyStarts (first :: rest) external first.address) (· ∈ unknown) first.address snapshot
        fuel (initAt S T (first.address :: unknown)) with
      | none =>
        rw [hloop] at hrel
        cases hrel
      | some f =>
        rw [hloop] at hrel
        cases hrel with
        | some h => exact ⟨f, rfl, h⟩
    refine ⟨fuel, ⟨f.snaps, (legacyStarts (first :: rest) external first.address).map
      fun b => (b, (f.visits.lookup b).getD 0)⟩, ?_, fun e he hnot => ?_, ?_⟩
    · unfold propagateCfg propagateCfgWith propagateLegacy
      rw [hlegacy, if_pos rfl, hext]
      dsimp only
      rw [hunknown]
      change Option.map _ (legacyLoop _ _ _ _ _ _ (initAt S T (first.address :: unknown))) = _
      rw [hf]
      rfl
    · obtain ⟨b, -, rfl⟩ := mem_map.mp he
      dsimp only at hnot ⊢
      rw [← hq.visits]
      refine hvisits b ?_
      rw [hroots] at hnot
      change (decide (b = first.address) || decide (b ∈ unknown)) = false
      rw [mem_cons, not_or] at hnot
      simp [hnot.1, hnot.2]
    · dsimp only
      rw [← hq.log, hroots]
      exact hcalls

end Legacy

/-- More visits than it takes change nothing. -/
theorem legacyLoop_mono {S T : Type} [FlowState S] [DecidableEq S] {starts : List U64}
    {unknown : U64 → Bool} {entry : U64} {snapshot : S → T} {fuel : ℕ} {f g : LegacyScratch S T}
    (h : legacyLoop insns starts unknown entry snapshot fuel f = some g) (k : ℕ) :
    legacyLoop insns starts unknown entry snapshot (fuel + k) f = some g := by
  induction fuel generalizing f with
  | zero =>
    unfold legacyLoop at h ⊢
    cases hq : f.worklist with
    | nil => rwa [hq] at h
    | cons b worklist =>
      rw [hq] at h
      cases h
  | succ fuel ih =>
    rw [Nat.succ_add]
    unfold legacyLoop at h ⊢
    cases hq : f.worklist with
    | nil => rwa [hq] at h
    | cons b worklist =>
      rw [hq] at h
      dsimp only at h ⊢
      split
      · next hsat =>
        rw [if_pos hsat] at h
        exact ih h
      · next hsat =>
        rw [if_neg hsat] at h
        exact ih h

theorem soundFlow_nil (external : List U64) (inBody : U64 → Bool) : SoundFlow [] external inBody := by
  intro S T _ _ snapshot
  refine ⟨0, ⟨[], []⟩, rfl, fun e he => absurd he not_mem_nil, ?_⟩
  rintro C γ M - i k insn op ⟨⟩

/-- The flow ends at a sound post-fixpoint when the addresses of the lift strictly increase,
and otherwise when every walk keyed by addresses of a block entered keeps to its block. -/
theorem propagateCfg_sound (insns : List LiftedInstruction) (external : List U64)
    (inBody : U64 → Bool)
    (h : (insns.map LiftedInstruction.address).Pairwise (· < ·) ∨ WalksKeep insns external inBody) :
    SoundFlow insns external inBody := by
  by_cases hinc : (insns.map LiftedInstruction.address).Pairwise (· < ·)
  · by_cases hne : insns = []
    · subst hne
      exact soundFlow_nil external inBody
    · exact soundFlow_of_increasing external inBody hinc hne
  · exact soundFlow_of_walksKeep hinc (h.resolve_left hinc)

/-- A constant in the one register there is, when it is known. -/
structure Known where
  value : Option U64
  deriving DecidableEq

def copied (op : PcodeOp) : Option U64 :=
  if op.opcode = .copy then op.inputs.head?.map VarnodeData.offset else none

instance : FlowState Known where
  join s t := if s = t then s else ⟨none⟩
  apply s op := if (copied op).isSome then ⟨copied op⟩ else s
  afterCall s := s
  default := ⟨none⟩

def oneRegister : Machine U64 where
  exec op c c' := c' = (copied op).getD c
  call _ c c' := c' = c

def Known.states (s : Known) : Set U64 := {c | ∀ v ∈ s.value, c = v}

theorem known_sound : Sound Known.states oneRegister := by
  have hnone : ∀ c, c ∈ Known.states ⟨none⟩ := fun c v hv => by cases hv
  refine ⟨fun s t => ?_, fun s t => ?_, hnone, fun s op c c' _ _ hc hexec => ?_,
    fun s op c c' _ hc hcall => hcall ▸ hc⟩
  · change _ ⊆ Known.states (if s = t then s else ⟨none⟩)
    split
    · exact subset_rfl
    · exact fun c _ => hnone c
  · change _ ⊆ Known.states (if s = t then s else ⟨none⟩)
    split
    · next heq => exact heq ▸ subset_rfl
    · exact fun c _ => hnone c
  · subst hexec
    change _ ∈ Known.states (if (copied op).isSome then ⟨copied op⟩ else s)
    cases hcopy : copied op with
    | none => exact hc
    | some v => exact fun v' hv' => some.inj hv'

/-- A call at address zero is reached from the last bytes of memory with 1 in the register,
and by a jump with 2. -/
def wrappedLift : List LiftedInstruction :=
  [⟨0xfffffffffffffff0, 16, "mov", [⟨.copy, some ⟨.register, 0, 8⟩, [⟨.const, 1, 8⟩]⟩]⟩,
    ⟨0, 8, "call", [⟨.call, none, [⟨.ram, 0x1000, 8⟩]⟩]⟩,
    ⟨8, 8, "jmp", [⟨.copy, some ⟨.register, 0, 8⟩, [⟨.const, 2, 8⟩]⟩,
      ⟨.branch, none, [⟨.ram, 0, 8⟩]⟩]⟩]

/-- The walk from the last bytes of memory runs on past the start of the block at zero: the
block is never walked from a state that holds both. -/
theorem wrappedLift_not_sound : ¬ SoundFlow wrappedLift [] fun _ => false := by
  intro hsound
  obtain ⟨fuel, o, hrun, -, hcalls⟩ := hsound Known Known id
  have hinc : ¬ (wrappedLift.map LiftedInstruction.address).Pairwise (· < ·) := by decide
  rw [build_of_not_increasing hinc] at hrun hcalls
  have hbody : (LiftShape.of wrappedLift).addrs.filter (fun _ => false) = [] := by decide +kernel
  rw [hbody] at hrun hcalls
  have hunknown : legacyUnknown wrappedLift [] (fun a => decide (a ∈ ([] : List U64)))
      0xfffffffffffffff0 = [] := by
    unfold legacyUnknown
    refine filter_eq_nil_iff.mpr fun b _ => ?_
    simp
  have hroots : flowRoots (Cfg.byAddress [] []) wrappedLift = [0xfffffffffffffff0] := by
    change 0xfffffffffffffff0 :: legacyUnknown wrappedLift [] (· ∈ ([] : List U64)) _ = _
    rw [hunknown]
  rw [hroots] at hcalls
  have hsnaps : o.snaps = [(0, ⟨some 1⟩), (0, ⟨some 2⟩), (0, ⟨some 2⟩)] := by
    change Option.map _ (legacyLoop wrappedLift _
      (· ∈ legacyUnknown wrappedLift [] (· ∈ ([] : List U64)) _) _ _ fuel
      (initAt Known Known (0xfffffffffffffff0 ::
        legacyUnknown wrappedLift [] (· ∈ ([] : List U64)) _))) = _ at hrun
    rw [hunknown] at hrun
    obtain ⟨f, hf, rfl⟩ := map_eq_some_iff.mp hrun
    have hthree : (legacyLoop wrappedLift (legacyStarts wrappedLift [] 0xfffffffffffffff0)
        (· ∈ ([] : List U64)) 0xfffffffffffffff0 id 3
        (initAt Known Known [0xfffffffffffffff0])).map (·.snaps) =
          some [(0, ⟨some 1⟩), (0, ⟨some 2⟩), (0, ⟨some 2⟩)] := by decide +kernel
    obtain ⟨g, hg, hsnaps⟩ := map_eq_some_iff.mp hthree
    have hmore := legacyLoop_mono hg fuel
    rw [add_comm] at hmore
    obtain rfl : g = f := some.inj (hmore.symm.trans (legacyLoop_mono hf 3))
    exact hsnaps
  have hfirst : Reaches oneRegister wrappedLift [0xfffffffffffffff0] 1 0 1 := by
    refine ⟨0, _, 0, rfl, mem_singleton.mpr rfl, ?_⟩
    have hnext : PathStep oneRegister wrappedLift (0, 1, 1) (1, 0, 1) :=
      @PathStep.next U64 oneRegister wrappedLift 0 1 wrappedLift[0] rfl
    exact .tail (.single (.exec 0 0 0 1 _ _ rfl rfl rfl rfl rfl)) hnext
  have hsecond : Reaches oneRegister wrappedLift [0xfffffffffffffff0] 1 0 2 := by
    obtain ⟨i₀, insn, c₀, hi₀, hr, hpath⟩ := hfirst
    refine ⟨i₀, insn, c₀, hi₀, hr, ?_⟩
    have hcall := hpath.tail (.call 1 0 1 1 _ _ rfl rfl rfl rfl)
    have hnext : PathStep oneRegister wrappedLift (1, 1, 1) (2, 0, 1) :=
      @PathStep.next U64 oneRegister wrappedLift 1 1 wrappedLift[1] rfl
    have hcopy := (hcall.tail hnext).tail (.exec 2 0 1 2 _ _ rfl rfl rfl rfl rfl)
    exact hcopy.tail (.jump 2 1 1 2 _ _ _ rfl rfl rfl rfl rfl)
  obtain ⟨s, hs, hall⟩ := hcalls U64 Known.states oneRegister known_sound 1 0 _ _ rfl rfl rfl
    ⟨1, hfirst⟩
  have hone := hall 1 hfirst
  have htwo := hall 2 hsecond
  rw [hsnaps] at hs
  have hvalue : s = ⟨some 1⟩ ∨ s = ⟨some 2⟩ := by
    simpa using hs
  rcases hvalue with rfl | rfl
  · exact absurd (htwo 1 rfl) (by decide)
  · exact absurd (hone 2 rfl) (by decide)

/-- A lift that wraps with no jump keeps to its block. -/
theorem propagateCfg_sound_wrapped : SoundFlow (wrappedLift.take 2) [] fun _ => false := by
  refine propagateCfg_sound _ _ _ (.inr ?_)
  rintro first ⟨⟩ b ⟨hb, -⟩
  have hstarts : legacyStarts (wrappedLift.take 2) [] 0xfffffffffffffff0 = [0xfffffffffffffff0] := by
    decide +kernel
  change b ∈ legacyStarts (wrappedLift.take 2) [] 0xfffffffffffffff0 at hb
  rw [hstarts, mem_singleton] at hb
  subst hb
  refine ⟨0, ?_⟩
  change KeepsBlock _ (legacyStarts (wrappedLift.take 2) [] 0xfffffffffffffff0) _ _ 0
  rw [hstarts]
  have hwalk : legacyWalk (wrappedLift.take 2) [0xfffffffffffffff0] 0xfffffffffffffff0 =
      wrappedLift.take 2 := by decide +kernel
  refine ⟨by decide +kernel, fun j insn hj haddr => ?_, by rw [hwalk]; decide,
    fun insn hinsn hin => ?_, fun _ insn hi => ?_⟩
  · match j with
    | 0 => rfl
    | 1 =>
      cases hj
      cases haddr
    | j + 2 => cases hj
  · rw [hwalk] at hinsn
    rw [mem_singleton.mp hinsn] at hin
    exact absurd hin.1 (by decide)
  · rw [hwalk] at hi
    cases hi

end BlockFlowSound
