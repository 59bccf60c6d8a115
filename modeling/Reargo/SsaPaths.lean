import Reargo.PhiPlacement
import Reargo.SsaScopes

/-!
# Dataflow along paths

Along a path every value denotes a write of the path, or the content of a slot at its
start. A phi denotes its operand for the edge taken.
-/
variable {st : Renaming}

namespace SsaPaths

open PcodeModel ControlFlow DominatorTree Dominators SsaModel SsaBuild SsaRenaming SsaScopes List
  Option Function PhiPlacement

/-- What a value denotes: the content of a slot at the start of the path, or the output of an
operation in the block entered at some time. -/
inductive Value where
  | initial (k : Slot)
  | written (time op : ℕ)
  | undefined
  deriving DecidableEq

structure PathState where
  time : ℕ
  /-- The block the path comes from. -/
  last : Option ℕ
  env : ℕ → Value
  mem : Slot → Value
  /-- Every read so far: what the input denotes, and the content of its slot. -/
  reads : List (Value × Value)

def startState (func : SsaFunction) : PathState where
  time := 0
  last := none
  env := fun v =>
    if (func.var v).defOp = none then .initial (slotOf (func.var v).data) else .undefined
  mem := .initial
  reads := []

/-- The operand of the edge taken; the last one where the path starts. -/
def operandIndex (cfg : ControlFlowGraph) (b : ℕ) (last : Option ℕ) : ℕ :=
  match last with
  | some a => (cfg.preds b).idxOf a
  | none => phiWidth cfg b - 1

def evalPhi (func : SsaFunction) (j : ℕ) (before : ℕ → Value) (idx : ℕ) (st : PathState) :
    PathState :=
  let taken := before ((func.op idx).inputs.getD j 0)
  match (func.op idx).output with
  | some out =>
    { st with
      env := Function.update st.env out taken
      reads := (taken, st.mem (slotOf (func.var out).data)) :: st.reads }
  | none => st

def evalPhis (func : SsaFunction) (j : ℕ) (before : ℕ → Value) :
    ℕ → List Slot → PathState → PathState
  | _, [], st => st
  | idx, _ :: ks, st => evalPhis func j before (idx + 1) ks (evalPhi func j before idx st)

def readsOf (func : SsaFunction) (st : PathState) (idx : ℕ) (op : PcodeOp) : List (Value × Value) :=
  (op.inputs.zipIdx.filter fun e => e.1.space ≠ .const).map fun e =>
    (st.env ((func.op idx).inputs.getD e.2 0), st.mem (slotOf e.1))

def evalOp (func : SsaFunction) (idx : ℕ) (op : PcodeOp) (st : PathState) : PathState where
  time := st.time
  last := st.last
  env :=
    match (func.op idx).output with
    | some out => Function.update st.env out (.written st.time idx)
    | none => st.env
  mem :=
    match op.output with
    | some out => Function.update st.mem (slotOf out) (.written st.time idx)
    | none => st.mem
  reads := readsOf func st idx op ++ st.reads

def evalOps (func : SsaFunction) : ℕ → List (U64 × PcodeOp) → PathState → PathState
  | _, [], st => st
  | idx, c :: code, st => evalOps func (idx + 1) code (evalOp func idx c.2 st)

def evalBlock (cfg : ControlFlowGraph) (func : SsaFunction) (b : ℕ) (st : PathState) : PathState :=
  let start := blockStart cfg b
  let st₁ := evalPhis func (operandIndex cfg b st.last) st.env start (phisOf cfg b) st
  let st₂ := evalOps func (start + (phisOf cfg b).length) (blockCode cfg b) st₁
  { st₂ with time := st.time + 1, last := some b }

inductive Along (cfg : ControlFlowGraph) (func : SsaFunction) : ℕ → PathState → Prop where
  | start {b} : b ∈ roots cfg → Along cfg func b (evalBlock cfg func b (startState func))
  | step {a b st} : Along cfg func a st → b ∈ cfg.succs a →
      Along cfg func b (evalBlock cfg func b st)

/-- On every path every input denotes the content of its slot. -/
def PreservesDataflow (cfg : ControlFlowGraph) (func : SsaFunction) : Prop :=
  ∀ b st, Along cfg func b st → ∀ r ∈ st.reads, r.1 = r.2

/-- A loop on the values of `k` the construction loses: `b` joins paths of several roots and
heads a loop that reads `k` before it writes it, no other block that writes `k` reaches `b`,
and no cycle through `b` leaves the blocks below it. -/
structure LostLoop (cfg : ControlFlowGraph) (b : ℕ) (k : Slot) : Prop where
  notEntry : b ≠ cfg.entryBlock
  own : computeIdomForest cfg b = some b
  reads : k ∈ exposed cfg b
  writes : k ∈ written cfg b
  cycle : ∃ p ∈ cfg.preds b, Reaches cfg b p
  alone : ∀ c, c ≠ b → (∃ r ∈ roots cfg, Reaches cfg r c) → k ∈ written cfg c → ¬ Reaches cfg c b
  inside : ∀ y, Reaches cfg b y → Reaches cfg y b → Ancestor (computeIdomForest cfg) b y

variable {k : Slot} {idx : ℕ}

theorem lookup_scan {E E' : Entries} {code : List (U64 × PcodeOp)} (h : Scan st E idx code E')
    (hk : ∀ c ∈ code, writtenSlot c.2 ≠ some k) :
    E'.lookup k = E.lookup k := by
  induction h with
  | nil => rfl
  | @cons E E₁ E₂ idx a op code hop _ ih =>
    rw [ih fun c hc => hk c (mem_cons_of_mem _ hc)]
    rcases hop.output with ⟨-, -, rfl⟩ | ⟨vn, v, hout, -, -, -, rfl⟩
    · rfl
    · have hne : k ≠ slotOf vn := by
        rintro rfl
        refine hk (a, op) mem_cons_self ?_
        unfold writtenSlot
        rw [hout]
        rfl
      rw [lookup_cons, beq_false_of_ne hne]

variable {ks : List Slot}

theorem lookup_scanPhis {E E' : Entries}
    (h : ScanPhis st E idx ks E') (hk : k ∉ ks) : E'.lookup k = E.lookup k := by
  induction h with
  | nil => rfl
  | @cons E E₁ E₂ idx l ls hphi _ ih =>
    rw [mem_cons, not_or] at hk
    rw [ih hk.2]
    obtain ⟨v, -, -, -, rfl⟩ := hphi
    rw [lookup_cons, beq_false_of_ne hk.1]

variable {cfg : ControlFlowGraph} {order : ℕ → ℕ} {sIn sOut : ℕ → Entries} {b : ℕ}

theorem mem_written : k ∈ written cfg b ↔ ∃ c ∈ blockCode cfg b, writtenSlot c.2 = some k := by
  unfold written
  rw [mem_filterMap]

theorem BlockDone.lookup {E E' : Entries}
    (h : BlockDone cfg st b E E') (hk : ¬ Defines cfg k b) : E'.lookup k = E.lookup k := by
  obtain ⟨E₁, hphis, hscan⟩ := h.scan
  rw [lookup_scan hscan fun c hc hw => hk (.inl (mem_written.mpr ⟨c, hc, hw⟩))]
  exact lookup_scanPhis hphis fun hmem => hk (.inr hmem)

section Edges

variable (hwf : cfg.WellFormed) (hne : cfg.blocks ≠ [])
  (h : IsForest cfg order (computeIdomForest cfg)) (hr : IsRenamed cfg sIn sOut)
include h hr

/-- No definition below `z`: the name at the end of `a` is that at the end of `z`. -/
theorem lookup_climb {z a : ℕ} (ha : computeIdomForest cfg a ≠ none)
    (hza : Ancestor (computeIdomForest cfg) z a)
    (hclear : ∀ x, Ancestor (computeIdomForest cfg) z x → Ancestor (computeIdomForest cfg) x a →
    x ≠ z → ¬ Defines cfg k x) : (sOut a).lookup k = (sOut z).lookup k := by
  induction hza with
  | self => rfl
  | @climb x c hc hzc ih =>
    have hup := ih (h.closed x c hc) fun y hzy hyc hne' => hclear y hzy (.climb hc hyc) hne'
    by_cases hcx : c = x
    · rw [← hcx]
      exact hup
    · by_cases hxz : x = z
      · rw [hxz]
      · have hnot := hclear x (.climb hc hzc) (.self _) hxz
        rw [BlockDone.lookup (hr.done x (h.inside x ha)) hnot, hr.child x (h.inside x ha) c hc hcx]
        exact hup

include hwf hne

theorem lookup_edge {a : ℕ} (ha : computeIdomForest cfg a ≠ none)
    (hab : a ∈ cfg.preds b) (hk : k ∈ globalSlots cfg) (hno : k ∉ phisOf cfg b) :
    (sOut a).lookup k = (sIn b).lookup k ∨ (b ≠ cfg.entryBlock ∧ computeIdomForest cfg b = some b ∧
        Ancestor (computeIdomForest cfg) b a ∧ k ∈ written cfg b) := by
  have hb := h.succ a b ha ((hwf.mirror a b).mp hab)
  have hbn := h.inside b hb
  obtain ⟨stop, hstop⟩ := ne_none_iff_exists'.mp hb
  -- a definition above `a` is above the parent of `b`
  have habove : ∀ x, Defines cfg k x → Ancestor (computeIdomForest cfg) x a →
      b ≠ cfg.entryBlock ∧ Ancestor (computeIdomForest cfg) stop a ∧
        Ancestor (computeIdomForest cfg) x stop := by
    intro x hx hxa
    obtain ⟨hbe, stop', hstop', hsa, hxs⟩ := anc_of_no_phi hwf hne h hk hx hxa hab ha hno
    obtain rfl := some.inj (hstop.symm.trans hstop')
    exact ⟨hbe, hsa, hxs⟩
  by_cases hself : stop = b
  · subst hself
    obtain ⟨r, hra, hroot⟩ := h.root_above ha
    have hclimb : (sOut a).lookup k = (sOut r).lookup k := by
      refine lookup_climb h hr ha hra fun x hrx hxa hxr hx => ?_
      obtain ⟨-, -, hxs⟩ := habove x hx hxa
      have hxs' := anc_root hstop hxs
      subst hxs'
      exact hxr (anc_root hstop hrx).symm
    by_cases hdef : Defines cfg k r
    · right
      obtain ⟨hbe, hsa, hrs⟩ := habove r hdef hra
      have hrs' := anc_root hstop hrs
      subst hrs'
      exact ⟨hbe, hstop, hsa, hdef.resolve_right hno⟩
    · left
      have hrn := h.inside r (by rw [hroot]; exact some_ne_none _)
      rw [hclimb, BlockDone.lookup (hr.done r hrn) hdef, hr.root r hrn hroot,
        hr.root stop hbn hstop]
  · left
    have hsa := (h.meet b stop hstop hself).anc a ⟨hab, ha⟩
    rw [hr.child b hbn stop hstop hself]
    refine lookup_climb h hr ha hsa fun x hsx hxa hxs hx => ?_
    exact hxs (h.antisymm (habove x hx hxa).2.2 hsx)

end Edges

section Lost

variable (hwf : cfg.WellFormed) (hne : cfg.blocks ≠ [])
  (h : IsForest cfg order (computeIdomForest cfg))
include hwf hne h

theorem no_definition_above {x z : ℕ} (hb : computeIdomForest cfg b = some b)
    (hk : k ∈ globalSlots cfg) (hno : k ∉ phisOf cfg b) (hxb : Reaches cfg x b)
    (hx : computeIdomForest cfg x ≠ none) (hxne : x ≠ b) (hz : Defines cfg k z) (hzne : z ≠ b)
    (hzx : Ancestor (computeIdomForest cfg) z x) : False := by
  induction hxb using Relation.ReflTransGen.head_induction_on generalizing z with
  | refl => exact hxne rfl
  | @head x y hxy hyb ih =>
    have hpred := (hwf.mirror x y).mpr hxy
    by_cases hyb' : y = b
    · subst hyb'
      obtain ⟨-, stop, hstop, -, hzs⟩ := anc_of_no_phi hwf hne h hk hz hzx hpred hx hno
      obtain rfl := some.inj (hb.symm.trans hstop)
      exact hzne (anc_root hb hzs)
    · have hy := h.succ x y hx hxy
      by_cases hphi : k ∈ phisOf cfg y
      · exact ih hy hyb' (.inr hphi) hyb' (.self _)
      · obtain ⟨-, stop, hstop, -, hzs⟩ := anc_of_no_phi hwf hne h hk hz hzx hpred hx hphi
        exact ih hy hyb' hz hzne (.climb hstop hzs)

theorem lostLoop_of_no_phi {a : ℕ} (hbe : b ≠ cfg.entryBlock)
    (hb : computeIdomForest cfg b = some b) (ha : computeIdomForest cfg a ≠ none)
    (hab : a ∈ cfg.preds b) (hba : Ancestor (computeIdomForest cfg) b a)
    (hreads : k ∈ exposed cfg b) (hwrites : k ∈ written cfg b) (hno : k ∉ phisOf cfg b) :
    LostLoop cfg b k := by
  have hbr : computeIdomForest cfg b ≠ none := by
    rw [hb]
    exact some_ne_none _
  have hk := mem_globalSlots (h.inside b hbr) hreads
  refine ⟨hbe, hb, hreads, hwrites, ⟨a, hab, h.anc_reaches hwf ha hba⟩, ?_, ?_⟩
  · rintro c hcb ⟨r, hr, hrc⟩ hc hreach
    have hroot := h.root_reached hr
    have hcr := h.reaches_reached (by rw [hroot]; exact some_ne_none _) hrc
    exact no_definition_above hwf hne h hb hk hno hreach hcr hcb (.inl hc) hcb (.self _)
  · intro y hby hyb
    induction hby with
    | refl => exact .self _
    | @tail x y hbx hxy ih =>
      by_cases hyeq : y = b
      · rw [hyeq]
        exact .self _
      · have hxr := h.reaches_reached hbr hbx
        have hyr := h.succ x y hxr hxy
        have hbx' := ih (Relation.ReflTransGen.head hxy hyb)
        by_cases hphi : k ∈ phisOf cfg y
        · exact (no_definition_above hwf hne h hb hk hno hyb hyr hyeq (.inr hphi) hyeq
            (.self _)).elim
        · obtain ⟨-, stop, hstop, -, hbs⟩ := anc_of_no_phi hwf hne h hk (.inl hwrites) hbx'
            ((hwf.mirror x y).mpr hxy) hxr hphi
          exact .climb hstop hbs

theorem LostLoop.no_phi (hl : LostLoop cfg b k) : k ∉ phisOf cfg b := by
  intro hphi
  obtain ⟨-, hplace⟩ := mem_phisOf.mp hphi
  refine place_induction (Q := fun f => ¬ Reaches cfg f b) ?_ ?_ hplace .refl
  · intro s hs f hf hfb
    obtain ⟨p, hp, hpr, hsp, hcases⟩ := (mem_frontier hwf.mirrored hne h).mp hf
    have hpf := (hwf.mirror p f).mp hp
    have hsr := h.anc_reached hpr hsp
    have hsf : Reaches cfg s f := (h.anc_reaches hwf hpr hsp).tail hpf
    have hsb : s = b := by
      by_contra hsb
      exact hl.alone s hsb (h.reached_from_root hwf hsr) (mem_defSites.mp hs).2 (hsf.trans hfb)
    subst hsb
    have hsf' := hl.inside f hsf hfb
    rcases hcases with rfl | ⟨stop, hstop, hn⟩
    · exact hl.notEntry (anc_root h.entry hsf')
    · by_cases hself : stop = f
      · subst hself
        have heq := anc_root hstop hsf'
        subst heq
        exact hn ⟨hsp, .self _⟩
      · have hne' : s ≠ f := by
          rintro rfl
          exact hself (some.inj (hstop.symm.trans hl.own))
        obtain ⟨d, hd, hsd⟩ := hsf'.parent hne'
        obtain rfl := some.inj (hstop.symm.trans hd)
        exact hn ⟨(h.meet f stop hstop hself).anc p ⟨hp, hpr⟩, hsd⟩
  · intro x hx f hf hfb
    obtain ⟨p, hp, hpr, hxp, -⟩ := (mem_frontier hwf.mirrored hne h).mp hf
    exact hx (((h.anc_reaches hwf hpr hxp).tail ((hwf.mirror p f).mp hp)).trans hfb)

end Lost

section Eval

variable (cfg) in
theorem op_fromCfg (i : ℕ) : (fromCfg cfg).op i = (opOf (renamed cfg) i).finish := by
  unfold SsaFunction.op opOf fromCfg
  simp only
  by_cases hi : i < (renamed cfg).ops.length
  · rw [getD_eq_getElem _ _ (by rwa [length_map]), getElem_map, getD_eq_getElem _ _ hi]
  · rw [getD_eq_default _ _ (by rw [length_map]; omega), getD_eq_default _ _ (by omega)]
    rfl

variable (cfg) in
theorem var_fromCfg (v : ℕ) : (fromCfg cfg).var v = varOf (renamed cfg) v := rfl

/-- Names in scope are values of their slots. -/
def EntriesOk (cfg : ControlFlowGraph) (E : Entries) : Prop :=
  ∀ e ∈ E, slotOf (varOf (renamed cfg) e.2).data = e.1

theorem Named.slot {E : Entries} {id : ℕ} (hv : Valid (renamed cfg))
    (hE : EntriesOk cfg E) (h : Named (renamed cfg) E k id) :
    slotOf (varOf (renamed cfg) id).data = k := by
  rcases h with h | ⟨-, h⟩
  · exact hE (k, id) (mem_of_lookup h)
  · exact (hv.incoming k id h).2.1

theorem EntriesOk.cons {E : Entries} {v : ℕ} (h : EntriesOk cfg E)
    (hslot : slotOf (varOf (renamed cfg) v).data = k) : EntriesOk cfg ((k, v) :: E) := by
  intro e he
  rcases mem_cons.mp he with rfl | he
  · exact hslot
  · exact h e he

variable {E E' : Entries}

section

variable (h : EntriesOk cfg E)

include h

theorem EntriesOk.phi (hphi : PhiDone (renamed cfg) E idx k E') : EntriesOk cfg E' := by
  obtain ⟨v, -, -, hdata, rfl⟩ := hphi
  exact h.cons (by rw [hdata]; exact slotOf_slotVarnode k)

theorem EntriesOk.op {op : PcodeOp} (hop : OpDone (renamed cfg) E idx op E') : EntriesOk cfg E' := by
  rcases hop.output with ⟨-, -, rfl⟩ | ⟨vn, v, -, -, -, hdata, rfl⟩
  · exact h
  · exact h.cons (by rw [hdata])

theorem EntriesOk.scanPhis (hscan : ScanPhis (renamed cfg) E idx ks E') : EntriesOk cfg E' := by
  induction hscan with
  | nil => exact h
  | cons hphi _ ih => exact ih (h.phi hphi)

theorem EntriesOk.scan {code : List (U64 × PcodeOp)}
    (hscan : Scan (renamed cfg) E idx code E') : EntriesOk cfg E' := by
  induction hscan with
  | nil => exact h
  | cons hop _ ih => exact ih (h.op hop)

theorem EntriesOk.block (hdone : BlockDone cfg (renamed cfg) b E E') : EntriesOk cfg E' := by
  obtain ⟨E₁, hphis, hscan⟩ := hdone.scan
  exact (h.scanPhis hphis).scan hscan

end

theorem entriesOk_in (h : IsForest cfg order (computeIdomForest cfg))
    (hr : IsRenamed cfg sIn sOut) (hb : computeIdomForest cfg b ≠ none) :
    EntriesOk cfg (sIn b) := by
  induction hm : order b using Nat.strong_induction_on generalizing b with
  | _ m ih =>
    subst hm
    obtain ⟨d, hd⟩ := ne_none_iff_exists'.mp hb
    by_cases hdb : d = b
    · subst hdb
      rw [hr.root d (h.inside d hb) hd]
      exact fun e he => absurd he not_mem_nil
    · have hdr := h.closed b d hd
      rw [hr.child b (h.inside b hb) d hd hdb]
      exact (ih _ ((h.lt b d hd).resolve_left hdb) hdr rfl).block (hr.done d (h.inside d hdr))

def Agrees (cfg : ControlFlowGraph) (G : Slot → Prop) (E : Entries) (st : PathState) : Prop :=
  ∀ k id, G k → Named (renamed cfg) E k id → st.env id = st.mem k

/-- Values on entry denote the content of their slots at the start. -/
def EntryKept (cfg : ControlFlowGraph) (st : PathState) : Prop :=
  ∀ k id, (renamed cfg).incoming k = some id → st.env id = .initial k

def ReadsRight (st : PathState) : Prop := ∀ r ∈ st.reads, r.1 = r.2

/-- Nothing an operation writes is a value on entry. -/
theorem incoming_ne_output (hv : Valid (renamed cfg)) {id i v : ℕ}
    (hid : (renamed cfg).incoming k = some id) (hout : (opOf (renamed cfg) i).output = some v) :
    id ≠ v := by
  rintro rfl
  have hdef := (hv.output i id hout).2
  rw [(hv.incoming k id hid).2.2] at hdef
  cases hdef

variable {st : PathState}

section

variable (hv : Valid (renamed cfg))

include hv

theorem EntryKept.update {st' : PathState} {i v : ℕ} {w : Value}
    (hout : (opOf (renamed cfg) i).output = some v)
    (henv : st'.env = Function.update st.env v w) (h : EntryKept cfg st) : EntryKept cfg st' := by
  intro k id hid
  rw [henv, update_of_ne (incoming_ne_output hv hid hout)]
  exact h k id hid

theorem entryKept_evalPhi (j : ℕ) (before : ℕ → Value) (idx : ℕ) (h : EntryKept cfg st) :
    EntryKept cfg (evalPhi (fromCfg cfg) j before idx st) := by
  unfold evalPhi
  rw [op_fromCfg]
  cases hout : (opOf (renamed cfg) idx).output with
  | none =>
    simp only [BuildOp.finish, hout]
    exact h
  | some v =>
    simp only [BuildOp.finish, hout]
    exact h.update hv hout rfl

theorem entryKept_evalOp (idx : ℕ) (op : PcodeOp)
    (h : EntryKept cfg st) : EntryKept cfg (evalOp (fromCfg cfg) idx op st) := by
  unfold evalOp
  rw [op_fromCfg]
  cases hout : (opOf (renamed cfg) idx).output with
  | none =>
    simp only [BuildOp.finish, hout]
    exact h
  | some v =>
    simp only [BuildOp.finish, hout]
    exact h.update hv hout rfl

theorem entryKept_evalPhis (j : ℕ) (before : ℕ → Value)
    (ks : List Slot) (idx : ℕ) (h : EntryKept cfg st) :
    EntryKept cfg (evalPhis (fromCfg cfg) j before idx ks st) := by
  induction ks generalizing idx st with
  | nil => exact h
  | cons k ks ih => exact ih (idx + 1) (entryKept_evalPhi hv j before idx h)

theorem entryKept_evalOps (code : List (U64 × PcodeOp)) (idx : ℕ) (h : EntryKept cfg st) :
    EntryKept cfg (evalOps (fromCfg cfg) idx code st) := by
  induction code generalizing idx st with
  | nil => exact h
  | cons c code ih => exact ih (idx + 1) (entryKept_evalOp hv idx c.2 h)

theorem entryKept_evalBlock (b : ℕ)
    (h : EntryKept cfg st) : EntryKept cfg (evalBlock cfg (fromCfg cfg) b st) :=
  entryKept_evalOps hv _ _ (entryKept_evalPhis hv _ _ _ _ h)

theorem entryKept_start : EntryKept cfg (startState (fromCfg cfg)) := by
  intro k id hid
  obtain ⟨-, hslot, hdef⟩ := hv.incoming k id hid
  rw [← var_fromCfg] at hslot hdef
  unfold startState
  simp only
  rw [if_pos hdef, hslot]

end

variable {G : Slot → Prop}

theorem evalPhis_spec (hv : Valid (renamed cfg)) {j : ℕ} {before : ℕ → Value}
    (h : ScanPhis (renamed cfg) E idx ks E') (hE : EntriesOk cfg E) (hagrees : Agrees cfg G E st)
    (hreads : ReadsRight st) (htaken : ∀ (pi : ℕ) (k : Slot), ks[pi]? = some k → ∃ id,
    (opOf (renamed cfg) (idx + pi)).inputs[j]? = some (some id) ∧ before id = st.mem k) :
    Agrees cfg (fun k => G k ∨ k ∈ ks) E' (evalPhis (fromCfg cfg) j before idx ks st) ∧
      ReadsRight (evalPhis (fromCfg cfg) j before idx ks st) := by
  induction h generalizing G st with
  | nil E idx =>
    refine ⟨fun k id hk hid => ?_, hreads⟩
    exact hagrees k id (hk.resolve_right not_mem_nil) hid
  | @cons E E₁ E₂ idx k ks hphi _ ih =>
    obtain ⟨v, hout, -, hdata, rfl⟩ := hphi
    obtain ⟨id, hid, hbefore⟩ := htaken 0 k rfl
    rw [add_zero] at hid
    have hslot : slotOf (varOf (renamed cfg) v).data = k := by
      rw [hdata]
      exact slotOf_slotVarnode k
    have hE₁ : EntriesOk cfg ((k, v) :: E) := hE.cons hslot
    have htake : ((fromCfg cfg).op idx).inputs.getD j 0 = id := by
      rw [op_fromCfg, getD_eq_getElem?_getD]
      simp [BuildOp.finish, hid]
    have heval : evalPhi (fromCfg cfg) j before idx st = { st with
          env := update st.env v (st.mem k)
          reads := (st.mem k, st.mem k) :: st.reads } := by
      have hop : ((fromCfg cfg).op idx).output = some v := by
        rw [op_fromCfg]
        exact hout
      unfold evalPhi
      simp only [hop, htake, hbefore, var_fromCfg, hslot]
    have hnext : Agrees cfg (fun l => G l ∨ l = k) ((k, v) :: E)
        (evalPhi (fromCfg cfg) j before idx st) := by
      rw [heval]
      intro l id' hl hid'
      simp only
      by_cases hlk : l = k
      · subst hlk
        rcases hid' with hid' | ⟨hid', -⟩
        · rw [lookup_cons_self] at hid'
          rw [← some.inj hid', update_self]
        · rw [lookup_cons_self] at hid'
          cases hid'
      · have hne : id' ≠ v := by
          rintro rfl
          exact hlk ((Named.slot hv hE₁ hid').symm.trans hslot)
        rw [update_of_ne hne]
        refine hagrees l id' (hl.resolve_right hlk) ?_
        unfold Named at hid' ⊢
        rwa [lookup_cons, beq_false_of_ne hlk] at hid'
    have hmem : (evalPhi (fromCfg cfg) j before idx st).mem = st.mem := by
      rw [heval]
    obtain ⟨hagrees₂, hreads₂⟩ := ih hE₁ hnext (by
      rw [heval]
      intro r hr
      rcases mem_cons.mp hr with rfl | hr
      · rfl
      · exact hreads r hr) (by
      intro pi l hl
      obtain ⟨id', hid', hbefore'⟩ := htaken (pi + 1) l hl
      refine ⟨id', ?_, hbefore'.trans (congrFun hmem l).symm⟩
      rwa [add_assoc, add_comm 1 pi])
    refine ⟨fun l id' hl hid' => ?_, hreads₂⟩
    refine hagrees₂ l id' ?_ hid'
    rcases hl with hl | hl
    · exact .inl (.inl hl)
    · rcases mem_cons.mp hl with rfl | hl
      · exact .inl (.inr rfl)
      · exact .inr hl

theorem readsRight_op {op : PcodeOp}
    (hop : OpDone (renamed cfg) E idx op E') (hagrees : Agrees cfg G E st)
    (hG : ∀ k ∈ readSlots op, G k) : ∀ r ∈ readsOf (fromCfg cfg) st idx op, r.1 = r.2 := by
  intro r hr
  obtain ⟨⟨inp, j⟩, he, rfl⟩ := mem_map.mp hr
  obtain ⟨hmem, hconst⟩ := mem_filter.mp he
  have hconst := of_decide_eq_true hconst
  have hget : op.inputs[j]? = some inp := mem_zipIdx_iff_getElem?.mp hmem
  obtain ⟨ids, hids, hforall⟩ := hop.inputs
  obtain ⟨hj, rfl⟩ := List.getElem?_eq_some_iff.mp hget
  have hj' : j < ids.length := by
    rw [← hforall.length_eq]
    exact hj
  have hread : Reads (renamed cfg) E op.inputs[j] ids[j] := hforall.get hj hj'
  have hinput : ((fromCfg cfg).op idx).inputs.getD j 0 = ids[j] := by
    rw [op_fromCfg, getD_eq_getElem?_getD]
    simp [BuildOp.finish, hids, hj']
  simp only [hinput]
  refine hagrees _ _ (hG _ ?_) (hread.2.2 hconst)
  unfold readSlots
  refine mem_map.mpr ⟨op.inputs[j], mem_filter.mpr ⟨getElem_mem hj, ?_⟩, rfl⟩
  exact decide_eq_true hconst

theorem agrees_evalOp (hv : Valid (renamed cfg)) {op : PcodeOp}
    (hop : OpDone (renamed cfg) E idx op E') (hE : EntriesOk cfg E) (hagrees : Agrees cfg G E st) :
    Agrees cfg (fun k => G k ∨ writtenSlot op = some k) E' (evalOp (fromCfg cfg) idx op st) := by
  have hE' := hE.op hop
  rcases hop.output with ⟨hnone, hout, rfl⟩ | ⟨vn, v, hsome, hout, -, hdata, rfl⟩
  · intro k id hk hid
    have hop' : ((fromCfg cfg).op idx).output = none := by
      rw [op_fromCfg]
      exact hout
    have hk' : writtenSlot op ≠ some k := by
      unfold writtenSlot
      rw [hnone]
      exact some_ne_none _ |>.symm
    unfold evalOp
    simp only [hop', hnone]
    exact hagrees k id (hk.resolve_right hk') hid
  · have hslot : slotOf (varOf (renamed cfg) v).data = slotOf vn := by rw [hdata]
    have hop' : ((fromCfg cfg).op idx).output = some v := by
      rw [op_fromCfg]
      exact hout
    intro k id hk hid
    unfold evalOp
    simp only [hop', hsome]
    by_cases hkv : k = slotOf vn
    · subst hkv
      rcases hid with hid | ⟨hid, -⟩
      · rw [lookup_cons_self] at hid
        rw [← some.inj hid, update_self, update_self]
      · rw [lookup_cons_self] at hid
        cases hid
    · have hne : id ≠ v := by
        rintro rfl
        exact hkv ((Named.slot hv hE' hid).symm.trans hslot)
      rw [update_of_ne hne, update_of_ne hkv]
      refine hagrees k id (hk.resolve_right fun hw => ?_) ?_
      · unfold writtenSlot at hw
        rw [hsome] at hw
        exact hkv (some.inj hw).symm
      · unfold Named at hid ⊢
        rwa [lookup_cons, beq_false_of_ne hkv] at hid

theorem evalOps_spec (hv : Valid (renamed cfg)) {code : List (U64 × PcodeOp)}
    (h : Scan (renamed cfg) E idx code E') (killed : List Slot) (hkilled : ∀ k ∈ killed, G k)
    (hexposed : ∀ k ∈ exposedAfter killed code, G k) (hE : EntriesOk cfg E)
    (hagrees : Agrees cfg G E st) (hreads : ReadsRight st) :
    Agrees cfg (fun k => G k ∨ ∃ c ∈ code, writtenSlot c.2 = some k) E'
        (evalOps (fromCfg cfg) idx code st) ∧
      ReadsRight (evalOps (fromCfg cfg) idx code st) := by
  induction h generalizing G killed st with
  | nil E idx =>
    refine ⟨fun k id hk hid => hagrees k id (hk.resolve_right ?_) hid, hreads⟩
    rintro ⟨c, hc, -⟩
    exact absurd hc not_mem_nil
  | @cons E E₁ E₂ idx a op code hop _ ih =>
    have hreadsG : ∀ k ∈ readSlots op, G k := by
      intro k hk
      by_cases hkill : k ∈ killed
      · exact hkilled k hkill
      · refine hexposed k (mem_append_left _ (mem_filter.mpr ⟨hk, ?_⟩))
        exact decide_eq_true hkill
    have hagrees₁ := agrees_evalOp hv hop hE hagrees
    obtain ⟨hagrees₂, hreads₂⟩ := ih ((writtenSlot op).toList ++ killed) (by
        intro k hk
        rcases mem_append.mp hk with hk | hk
        · exact .inr (mem_toList.mp hk)
        · exact .inl (hkilled k hk))
      (fun k hk => .inl (hexposed k (mem_append_right _ hk))) (hE.op hop) hagrees₁ (by
        intro r hr
        rcases mem_append.mp hr with hr | hr
        · exact readsRight_op hop hagrees hreadsG r hr
        · exact hreads r hr)
    refine ⟨fun k id hk hid => hagrees₂ k id ?_ hid, hreads₂⟩
    rcases hk with hk | ⟨c, hc, hw⟩
    · exact .inl (.inl hk)
    · rcases mem_cons.mp hc with rfl | hc
      · exact .inl (.inr hw)
      · exact .inr ⟨c, hc, hw⟩

theorem evalBlock_spec (hr : IsRenamed cfg sIn sOut) (hb : b < cfg.blocks.length)
    (hE : EntriesOk cfg (sIn b)) (hagrees : Agrees cfg G (sIn b) st) (hreads : ReadsRight st)
    (hexposed : ∀ k ∈ exposed cfg b, G k ∨ k ∈ phisOf cfg b)
    (htaken : ∀ (pi : ℕ) (k : Slot), (phisOf cfg b)[pi]? = some k → ∃ id,
    (opOf (renamed cfg) (blockStart cfg b + pi)).inputs[operandIndex cfg b st.last]? =
    some (some id) ∧ st.env id = st.mem k) :
    Agrees cfg (fun k => G k ∨ Defines cfg k b) (sOut b) (evalBlock cfg (fromCfg cfg) b st) ∧
      ReadsRight (evalBlock cfg (fromCfg cfg) b st) := by
  obtain ⟨E₁, hphis, hscan⟩ := (hr.done b hb).scan
  obtain ⟨hagrees₁, hreads₁⟩ := evalPhis_spec hr.valid hphis hE hagrees hreads htaken
  obtain ⟨hagrees₂, hreads₂⟩ := evalOps_spec hr.valid hscan []
    (fun k hk => absurd hk not_mem_nil) hexposed (hE.scanPhis hphis) hagrees₁ hreads₁
  refine ⟨fun k id hk hid => hagrees₂ k id ?_ hid, hreads₂⟩
  rcases hk with hk | hk | hk
  · exact .inl (.inl hk)
  · exact .inr (mem_written.mp hk)
  · exact .inl (.inr hk)

theorem Agrees.mono {G H : Slot → Prop}
    (hGH : ∀ k, H k → G k ∧ E'.lookup k = E.lookup k) (h : Agrees cfg G E st) :
    Agrees cfg H E' st := by
  intro k id hk hid
  obtain ⟨hG, heq⟩ := hGH k hk
  refine h k id hG ?_
  unfold Named at hid ⊢
  rwa [heq] at hid

end Eval

structure PathSound (cfg : ControlFlowGraph) (sOut : ℕ → Entries) (b : ℕ) (st : PathState) :
    Prop where
  last : st.last = some b
  reached : computeIdomForest cfg b ≠ none
  kept : EntryKept cfg st
  agrees : Agrees cfg (· ∈ globalSlots cfg) (sOut b) st
  reads : ReadsRight st

variable {st : PathState}

section Sound

variable (hwf : cfg.WellFormed) (hne : cfg.blocks ≠ [])
  (h : IsForest cfg order (computeIdomForest cfg)) (hr : IsRenamed cfg sIn sOut)
include hwf hne h hr

omit hr in
theorem preds_of_phi (hk : k ∈ phisOf cfg b) : cfg.preds b ≠ [] := by
  have hplace := (mem_phisOf.mp hk).2
  have hfrontier : ∀ x f, f ∈ SsaBuild.frontier cfg x → cfg.preds f ≠ [] := by
    intro x f hf
    obtain ⟨p, hp, -⟩ := (mem_frontier hwf.mirrored hne h).mp hf
    exact ne_nil_of_mem hp
  exact place_induction (Q := fun f => cfg.preds f ≠ []) (fun x _ f hf => hfrontier x f hf)
    (fun x _ f hf => hfrontier x f hf) hplace

theorem pathSound_start (hb : b ∈ roots cfg) :
    PathSound cfg sOut b (evalBlock cfg (fromCfg cfg) b (startState (fromCfg cfg))) := by
  have hroot := h.root_reached hb
  have hreached : computeIdomForest cfg b ≠ none := by
    rw [hroot]
    exact some_ne_none _
  have hbn := h.inside b hreached
  have hkept := entryKept_start hr.valid
  have hin := hr.root b hbn hroot
  have hagrees : Agrees cfg (fun _ => True) (sIn b) (startState (fromCfg cfg)) := by
    rw [hin]
    rintro k id - (hid | ⟨-, hid⟩)
    · cases hid
    · exact hkept k id hid
  obtain ⟨hagrees', hreads⟩ := evalBlock_spec hr hbn (entriesOk_in h hr hreached) hagrees
    (fun r hr' => absurd hr' not_mem_nil) (fun k _ => .inl trivial) (by
      intro pi k hk
      have hpreds := preds_of_phi hwf hne h (mem_of_getElem? hk)
      have hjoin : JoinsEntry cfg b := by
        rcases mem_roots.mp hb with rfl | ⟨-, hp⟩
        · exact ⟨decide_eq_true ⟨hne, hpreds⟩, rfl⟩
        · exact absurd hp hpreds
      obtain ⟨id, hid, hincoming⟩ := (hr.done b hbn).entryPhi hjoin pi k hk
      exact ⟨id, hid, hkept k id hincoming⟩)
  refine ⟨rfl, hreached, entryKept_evalBlock hr.valid b hkept, ?_, hreads⟩
  exact hagrees'.mono fun k _ => ⟨.inl trivial, rfl⟩

theorem pathSound_step (hlost : ∀ b k, ¬ LostLoop cfg b k) {a : ℕ}
    (hst : PathSound cfg sOut a st) (hab : b ∈ cfg.succs a) :
    PathSound cfg sOut b (evalBlock cfg (fromCfg cfg) b st) := by
  have hpred := (hwf.mirror a b).mpr hab
  have hreached := h.succ a b hst.reached hab
  have hbn := h.inside b hreached
  have han := h.inside a hst.reached
  have hagrees : Agrees cfg
      (fun k => k ∈ globalSlots cfg ∧ (sOut a).lookup k = (sIn b).lookup k) (sIn b) st :=
    hst.agrees.mono fun k hk => ⟨hk.1, hk.2.symm⟩
  obtain ⟨hagrees', hreads⟩ := evalBlock_spec hr hbn (entriesOk_in h hr hreached) hagrees
    hst.reads (by
      intro k hk
      by_cases hphi : k ∈ phisOf cfg b
      · exact .inr hphi
      · have hglobal := mem_globalSlots hbn hk
        rcases lookup_edge hwf hne h hr hst.reached hpred hglobal hphi with
          hsame | ⟨hbe, hroot, hba, hw⟩
        · exact .inl ⟨hglobal, hsame⟩
        · exact (hlost b k (lostLoop_of_no_phi hwf hne h hbe hroot hst.reached hpred hba hk hw
            hphi)).elim) (by
      intro pi k hk
      have hj : (cfg.preds b)[(cfg.preds b).idxOf a]? = some a := by
        rw [getElem?_eq_getElem (idxOf_lt_length_iff.mpr hpred), getElem_idxOf]
      obtain ⟨id, hid, hname⟩ := (hr.done a han).edges b hab _ hj pi k hk
      refine ⟨id, ?_, hst.agrees k id (mem_phisOf.mp (mem_of_getElem? hk)).1 hname⟩
      rw [hst.last]
      exact hid)
  refine ⟨rfl, hreached, entryKept_evalBlock hr.valid b hst.kept, ?_, hreads⟩
  refine hagrees'.mono fun k hk => ⟨?_, rfl⟩
  by_cases hphi : k ∈ phisOf cfg b
  · exact .inr (.inr hphi)
  · rcases lookup_edge hwf hne h hr hst.reached hpred hk hphi with hsame | ⟨-, -, -, hw⟩
    · exact .inl ⟨hk, hsame⟩
    · exact .inr (.inl hw)

theorem pathSound_of_along (hlost : ∀ b k, ¬ LostLoop cfg b k)
    (hst : Along cfg (fromCfg cfg) b st) : PathSound cfg sOut b st := by
  induction hst with
  | start hb => exact pathSound_start hwf hne h hr hb
  | step _ hab ih => exact pathSound_step hwf hne h hr hlost ih hab

end Sound

section Wrong

variable {func : SsaFunction} {k : Slot}

theorem mem_evalPhis (j : ℕ) (before : ℕ → Value) (ks : List Slot) (idx : ℕ) (st : PathState) :
    (evalPhis func j before idx ks st).mem = st.mem := by
  induction ks generalizing idx st with
  | nil => rfl
  | cons l ks ih =>
    unfold evalPhis
    rw [ih]
    unfold evalPhi
    cases (func.op idx).output <;> rfl

variable {st : PathState}

theorem touched_evalOps (code : List (U64 × PcodeOp))
    (h : st.mem k ≠ .initial k ∨ ∃ c ∈ code, writtenSlot c.2 = some k) :
    (evalOps func idx code st).mem k ≠ .initial k := by
  induction code generalizing idx st with
  | nil =>
    rcases h with h | ⟨c, hc, -⟩
    · exact h
    · exact absurd hc not_mem_nil
  | cons c code ih =>
    unfold evalOps
    refine ih ?_
    have hkeep : st.mem k ≠ .initial k ∨ writtenSlot c.2 = some k →
        (evalOp func idx c.2 st).mem k ≠ .initial k := by
      intro hor
      unfold evalOp
      simp only
      cases hout : c.2.output with
      | none =>
        refine hor.resolve_right fun hw => ?_
        unfold writtenSlot at hw
        rw [hout] at hw
        cases hw
      | some vn =>
        simp only
        by_cases hkv : k = slotOf vn
        · rw [hkv, update_self]
          exact Value.noConfusion
        · rw [update_of_ne hkv]
          refine hor.resolve_right fun hw => ?_
          unfold writtenSlot at hw
          rw [hout] at hw
          exact hkv (some.inj hw).symm
    rcases h with h | ⟨d, hd, hw⟩
    · exact .inl (hkeep (.inl h))
    · rcases mem_cons.mp hd with rfl | hd
      · exact .inl (hkeep (.inr hw))
      · exact .inr ⟨d, hd, hw⟩

theorem touched_evalBlock (h : st.mem k ≠ .initial k ∨ k ∈ written cfg b) :
    (evalBlock cfg func b st).mem k ≠ .initial k := by
  refine touched_evalOps (blockCode cfg b) ?_
  rw [mem_evalPhis]
  rcases h with h | h
  · exact .inl h
  · exact .inr (mem_written.mp h)

theorem reads_evalOps (code : List (U64 × PcodeOp)) (idx : ℕ) (st : PathState) :
    ∀ r ∈ st.reads, r ∈ (evalOps func idx code st).reads := by
  induction code generalizing idx st with
  | nil => exact fun r hr => hr
  | cons c code ih => exact fun r hr => ih (idx + 1) _ r (mem_append_right _ hr)

theorem not_mem_exposedAfter {killed : List Slot} (hk : k ∈ killed)
    (code : List (U64 × PcodeOp)) : k ∉ exposedAfter killed code := by
  induction code generalizing killed with
  | nil => exact not_mem_nil
  | cons c code ih =>
    intro hmem
    rcases mem_append.mp hmem with hmem | hmem
    · exact of_decide_eq_true (mem_filter.mp hmem).2 hk
    · exact ih (mem_append_right _ hk) hmem

theorem wrong_read (hv : Valid (renamed cfg)) {E E' : Entries} {code : List (U64 × PcodeOp)}
    (h : Scan (renamed cfg) E idx code E') (killed : List Slot) (hk : k ∈ exposedAfter killed code)
    (hscope : E.lookup k = none) (hkept : EntryKept cfg st) (htouched : st.mem k ≠ .initial k) :
    ∃ r ∈ (evalOps (fromCfg cfg) idx code st).reads, r.1 ≠ r.2 := by
  induction h generalizing killed st with
  | nil E idx => exact absurd hk not_mem_nil
  | @cons E E₁ E₂ idx a op code hop _ ih =>
    rcases mem_append.mp hk with hk | hk
    · -- the operation reads the slot
      obtain ⟨inp, hinp, rfl⟩ := mem_map.mp (mem_filter.mp hk).1
      obtain ⟨hmem, hconst⟩ := mem_filter.mp hinp
      obtain ⟨j, hj, rfl⟩ := mem_iff_getElem.mp hmem
      obtain ⟨ids, hids, hforall⟩ := hop.inputs
      have hj' : j < ids.length := by
        rw [← hforall.length_eq]
        exact hj
      have hread : Reads (renamed cfg) E op.inputs[j] ids[j] := hforall.get hj hj'
      have hname := hread.2.2 (of_decide_eq_true hconst)
      have hentry : st.env ids[j] = .initial (slotOf op.inputs[j]) := by
        rcases hname with hname | ⟨-, hname⟩
        · rw [hscope] at hname
          cases hname
        · exact hkept _ _ hname
      have hinput : ((fromCfg cfg).op idx).inputs.getD j 0 = ids[j] := by
        rw [op_fromCfg, getD_eq_getElem?_getD]
        simp [BuildOp.finish, hids, hj']
      refine ⟨(st.env ids[j], st.mem (slotOf op.inputs[j])), ?_, ?_⟩
      · refine reads_evalOps code (idx + 1) _ _ (mem_append_left _ ?_)
        refine mem_map.mpr ⟨(op.inputs[j], j), mem_filter.mpr ⟨?_, hconst⟩, ?_⟩
        · exact mem_zipIdx_iff_getElem?.mpr (getElem?_eq_getElem hj)
        · simp only [hinput]
      · simp only [hentry]
        exact Ne.symm htouched
    · have hw : writtenSlot op ≠ some k := by
        intro hw
        refine not_mem_exposedAfter (mem_append_left _ ?_) code hk
        exact mem_toList.mpr hw
      have hscope₁ : E₁.lookup k = none := by
        have hone : Scan (renamed cfg) E idx [(a, op)] E₁ := .cons hop (.nil E₁ (idx + 1))
        refine (lookup_scan hone fun c hc => ?_).trans hscope
        rw [mem_singleton.mp hc]
        exact hw
      refine ih _ hk hscope₁ (entryKept_evalOp hv idx op hkept) ?_
      exact touched_evalOps [(a, op)] (.inl htouched)

variable (hwf : cfg.WellFormed) (hne : cfg.blocks ≠ [])

theorem entryKept_of_along (hv : Valid (renamed cfg))
    (hst : Along cfg (fromCfg cfg) b st) : EntryKept cfg st := by
  induction hst with
  | start _ => exact entryKept_evalBlock hv _ (entryKept_start hv)
  | step _ _ ih => exact entryKept_evalBlock hv _ ih

theorem along_reaches {a c : ℕ} (hst : Along cfg func a st)
    (hac : Reaches cfg a c) : ∃ st', Along cfg func c st' ∧
      (st.mem k ≠ .initial k → st'.mem k ≠ .initial k) := by
  induction hac with
  | refl => exact ⟨st, hst, fun ht => ht⟩
  | tail _ hs ih =>
    obtain ⟨st', hst', ht'⟩ := ih
    exact ⟨_, .step hst' hs, fun ht => touched_evalBlock (.inl (ht' ht))⟩

theorem touched_of_along (hst : Along cfg func b st)
    (hk : k ∈ written cfg b) : st.mem k ≠ .initial k := by
  cases hst with
  | start _ => exact touched_evalBlock (.inr hk)
  | step _ _ => exact touched_evalBlock (.inr hk)

include hwf hne

theorem not_preserves_of_lostLoop (h : IsForest cfg order (computeIdomForest cfg))
    (hr : IsRenamed cfg sIn sOut) (hl : LostLoop cfg b k) :
    ¬ PreservesDataflow cfg (fromCfg cfg) := by
  have hreached : computeIdomForest cfg b ≠ none := by
    rw [hl.own]
    exact some_ne_none _
  have hbn := h.inside b hreached
  obtain ⟨r, hroot, hrb⟩ := h.reached_from_root hwf hreached
  obtain ⟨st₁, hst₁, -⟩ := along_reaches (k := k) (.start hroot : Along cfg (fromCfg cfg) _ _) hrb
  obtain ⟨p, hp, hbp⟩ := hl.cycle
  obtain ⟨st₂, hst₂, htouched⟩ := along_reaches (k := k) hst₁ hbp
  have hagain := Along.step hst₂ ((hwf.mirror p b).mp hp)
  intro hpres
  obtain ⟨E₁, hphis, hscan⟩ := (hr.done b hbn).scan
  have hscope : E₁.lookup k = none := by
    rw [lookup_scanPhis hphis (hl.no_phi hwf hne h), hr.root b hbn hl.own]
    rfl
  have hkept := entryKept_of_along hr.valid hst₂
  obtain ⟨r', hr', hwrong⟩ := wrong_read hr.valid hscan [] hl.reads hscope
    (entryKept_evalPhis hr.valid (operandIndex cfg b st₂.last) st₂.env (phisOf cfg b)
      (blockStart cfg b) hkept) (by
      rw [mem_evalPhis]
      exact htouched (touched_of_along hst₁ hl.writes))
  exact hwrong (hpres b _ hagain r' hr')

end Wrong

theorem reads_of_no_blocks {func : SsaFunction} (hnil : cfg.blocks = [])
    (hst : Along cfg func b st) : st.reads = [] := by
  have hcode : ∀ c, blockCode cfg c = [] := by
    intro c
    have hblock : cfg.block c = default := getD_eq_default _ _ (by rw [hnil]; exact Nat.zero_le _)
    unfold blockCode
    rw [hblock]
    rfl
  have hphis : ∀ c, phisOf cfg c = [] := by
    intro c
    unfold phisOf globalSlots
    rw [hnil]
    rfl
  have hkeep : ∀ c (st : PathState), (evalBlock cfg func c st).reads = st.reads := by
    intro c st
    unfold evalBlock
    rw [hcode c, hphis c]
    rfl
  induction hst with
  | start _ => exact hkeep _ _
  | step _ _ ih => exact (hkeep _ _).trans ih

/-- The construction preserves dataflow exactly on the graphs without a lost loop. -/
theorem fromCfg_preservesDataflow_iff (instructions : List LiftedInstruction) :
    PreservesDataflow (ControlFlowGraph.build instructions)
        (fromCfg (ControlFlowGraph.build instructions)) ↔
      ∀ b k, ¬ LostLoop (ControlFlowGraph.build instructions) b k := by
  have hwf := build_wellFormed instructions
  by_cases hne : (ControlFlowGraph.build instructions).blocks = []
  · refine iff_of_true (fun b st hst r hr => ?_) fun b k hl => ?_
    · rw [reads_of_no_blocks hne hst] at hr
      exact absurd hr not_mem_nil
    · have hb := written_lt hl.writes
      rw [hne] at hb
      exact absurd hb (Nat.not_lt_zero _)
  · obtain ⟨order, h⟩ := computeIdomForest_isForest hwf.mirrored hne
    obtain ⟨sIn, sOut, hr⟩ := renamed_isRenamed hwf hne
    constructor
    · intro hpres b k hl
      exact not_preserves_of_lostLoop hwf hne h hr hl hpres
    · intro hlost b st hst
      exact (pathSound_of_along hwf hne h hr hlost hst).reads

/-- The entry jumps over a landing pad to a loop that counts up; the pad falls into the loop. -/
def padLoop : List LiftedInstruction :=
  [⟨0x1000, 2, "jmp 0x1006", [⟨.branch, none, [⟨.ram, 0x1006, 8⟩]⟩]⟩, ⟨0x1002, 4, "nop", []⟩,
    ⟨0x1006, 4, "inc rax", [⟨.intAdd, some ⟨.register, 0, 8⟩,
      [⟨.register, 0, 8⟩, ⟨.const, 1, 8⟩]⟩]⟩,
    ⟨0x100a, 2, "jne 0x1006", [⟨.cBranch, none,
      [⟨.ram, 0x1006, 8⟩, ⟨.register, 0x206, 1⟩]⟩]⟩,
    ⟨0x100c, 1, "ret", [⟨.return, none, [⟨.const, 0, 8⟩]⟩]⟩]

theorem build_padLoop : ControlFlowGraph.build padLoop =
    finalizeCfg (runs [0x1000, 0x1002, 0x1006, 0x100c, 0x100d] padLoop) 0x1000 := by
  have hsort : ∀ l : List U64, l.mergeSort = l.insertionSort (· ≤ ·) := fun l =>
    mergeSort_eq_insertionSort (· ≤ ·) l
  have hleaders : computeLeaders padLoop = [0x1000, 0x1002, 0x1006, 0x100c, 0x100d] := by
    unfold computeLeaders
    rw [hsort]
    decide +kernel
  unfold ControlFlowGraph.build
  rw [hleaders]
  rfl

/-- The second time round the loop, `rax` is read as it was on entry. -/
theorem fromCfg_loses_pad_loop : ¬ PreservesDataflow (ControlFlowGraph.build padLoop)
      (fromCfg (ControlFlowGraph.build padLoop)) := by
  rw [build_padLoop]
  generalize hcfg : finalizeCfg (runs [0x1000, 0x1002, 0x1006, 0x100c, 0x100d] padLoop) 0x1000 = cfg
  intro hpres
  have hentry : Along cfg (fromCfg cfg) 0 _ := .start (by rw [← hcfg]; decide +kernel)
  have hloop : Along cfg (fromCfg cfg) 2 _ := .step hentry (by rw [← hcfg]; decide +kernel)
  have hagain : Along cfg (fromCfg cfg) 2 _ := .step hloop (by rw [← hcfg]; decide +kernel)
  have hright := hpres 2 _ hagain
  rw [← hcfg] at hright
  revert hright
  decide +kernel

end SsaPaths
