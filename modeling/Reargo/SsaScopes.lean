import Reargo.SsaRenaming

/-!
# Scopes along the dominator forest

Every block is renamed once. The names in scope at its start are those at the end of
its parent, none at a root; the operands its successors' phis take from it are the
names at its end.
-/
namespace SsaScopes

open PcodeModel ControlFlow Dominators SsaModel SsaBuild SsaRenaming List Function

variable {cfg : ControlFlowGraph} {b : ℕ}

structure BlockDone (cfg : ControlFlowGraph) (st : Renaming) (b : ℕ) (E E' : List (Slot × ℕ)) :
    Prop where
  scan : ∃ E₁, ScanPhis st E (blockStart cfg b) (phisOf cfg b) E₁ ∧
    Scan st E₁ (blockStart cfg b + (phisOf cfg b).length) (blockCode cfg b) E'
  entryPhi : JoinsEntry cfg b → ∀ (pi : ℕ) (k : Slot), (phisOf cfg b)[pi]? = some k →
    ∃ id, (opOf st (blockStart cfg b + pi)).inputs[phiWidth cfg b - 1]? = some (some id) ∧
      st.incoming k = some id
  edges : ∀ s ∈ cfg.succs b, ∀ j, (cfg.preds s)[j]? = some b → ∀ (pi : ℕ) (k : Slot),
    (phisOf cfg s)[pi]? = some k → InputNamed st E' (blockStart cfg s + pi) j k

/-- What the renaming of a block finds: its operations without outputs, and the operands it
is to set open. -/
structure Fresh (cfg : ControlFlowGraph) (st : Renaming) (b : ℕ) : Prop where
  output : ∀ i, Owns cfg b i → (opOf st i).output = none
  entryPhi : JoinsEntry cfg b → ∀ pi < (phisOf cfg b).length,
    st.isOpen (blockStart cfg b + pi) (phiWidth cfg b - 1) = true
  edges : ∀ s j, (cfg.preds s)[j]? = some b → ∀ pi < (phisOf cfg s).length,
    st.isOpen (blockStart cfg s + pi) j = true

/-- The operands the renaming of `b` may change. -/
def Writes (cfg : ControlFlowGraph) (b i x : ℕ) : Prop :=
  (blockStart cfg b + (phisOf cfg b).length ≤ i ∧ i < blockStart cfg (b + 1)) ∨
    (JoinsEntry cfg b ∧ Owns cfg b i ∧ x = phiWidth cfg b - 1) ∨
    ∃ s, Owns cfg s i ∧ (cfg.preds s)[x]? = some b

theorem phiWidth_join (h : JoinsEntry cfg b) : phiWidth cfg b = (cfg.preds b).length + 1 := by
  unfold phiWidth
  rw [if_pos (show entryIsJoin cfg = true ∧ b = cfg.entryBlock from h)]

theorem not_writes_edge {c s j pi : ℕ} (hne : c ≠ b) (hj : (cfg.preds s)[j]? = some b)
    (hpi : pi < (phisOf cfg s).length) : ¬ Writes cfg c (blockStart cfg s + pi) j := by
  have howns := owns_phi hpi
  rintro (⟨hlo, hhi⟩ | ⟨hjoin, hc, hx⟩ | ⟨s', hs', hx⟩)
  · have hsc : s = c := howns.unique ⟨by omega, hhi⟩
    subst hsc
    omega
  · have hsc : s = c := howns.unique hc
    subst hsc
    rw [phiWidth_join hjoin] at hx
    have hlt := (List.getElem?_eq_some_iff.mp hj).1
    omega
  · have hss : s = s' := howns.unique hs'
    subst hss
    rw [hj] at hx
    exact hne (Option.some.inj hx).symm

theorem not_writes_entryPhi {c pi : ℕ} (hne : c ≠ b) (hjoin : JoinsEntry cfg b)
    (hpi : pi < (phisOf cfg b).length) :
    ¬ Writes cfg c (blockStart cfg b + pi) (phiWidth cfg b - 1) := by
  have howns := owns_phi hpi
  rintro (⟨hlo, hhi⟩ | ⟨-, hc, -⟩ | ⟨s, hs, hx⟩)
  · exact hne (howns.unique ⟨by omega, hhi⟩).symm
  · exact hne (howns.unique hc).symm
  · have hbs : b = s := howns.unique hs
    subst hbs
    rw [phiWidth_join hjoin] at hx
    have hlt := (List.getElem?_eq_some_iff.mp hx).1
    omega

section Rename

variable {st : Renaming} {b : ℕ}

theorem renameBlock_spec (h : Valid st) (hlen : blockStart cfg (b + 1) ≤ st.ops.length)
    (hfresh : Fresh cfg st b) :
    Effect (Owns cfg b) (Writes cfg b) st (st.renameBlock cfg b) ∧
      BlockDone cfg (st.renameBlock cfg b) b st.entries (st.renameBlock cfg b).entries := by
  have hsucc := blockStart_succ cfg b
  rw [length_blockOps] at hsucc
  -- the phis
  obtain ⟨hidx, heff₁, hphis, hjoin⟩ := foldl_renamePhi_spec cfg b (phisOf cfg b) st
    (blockStart cfg b) h (by omega) (by
      intro hj i hi hlt
      obtain ⟨pi, rfl⟩ := Nat.exists_eq_add_of_le hi
      exact hfresh.entryPhi hj pi (by omega))
  unfold Renaming.renameBlock
  generalize (phisOf cfg b).foldl (Renaming.renamePhi cfg b) (st, blockStart cfg b) = r₁
    at hidx heff₁ hphis hjoin ⊢
  obtain ⟨st₁, idx⟩ := r₁
  simp only at hidx heff₁ hphis hjoin ⊢
  subst hidx
  -- the operations
  obtain ⟨heff₂, hscan⟩ := foldl_renameOp_spec (blockCode cfg b) st₁
    (blockStart cfg b + (phisOf cfg b).length) heff₁.valid
    (by rw [heff₁.grows.length]; omega) (by
      intro i hi hlt
      rw [(heff₁.grows.ops i (by omega)).output]
      exact hfresh.output i ⟨by omega, by omega⟩)
  generalize (blockCode cfg b).foldl Renaming.renameOp
    (st₁, blockStart cfg b + (phisOf cfg b).length) = r₂ at heff₂ hscan ⊢
  obtain ⟨st₂, idx₂⟩ := r₂
  simp only at heff₂ hscan ⊢
  -- the operands of the successors
  obtain ⟨hfills, hnamed⟩ := foldl_fillSuccessor_spec cfg b (cfg.succs b) st₂ heff₂.valid rfl
  generalize (cfg.succs b).foldl (Renaming.fillSuccessor cfg b) st₂ = st₃ at hfills hnamed ⊢
  have heff₁' : Effect (Owns cfg b) (Writes cfg b) st st₁ := by
    refine heff₁.mono ?_ ?_
    · rintro i ⟨hi, hlt⟩
      exact ⟨hi, by omega⟩
    · rintro i x ⟨hj, ⟨hi, hlt⟩, hx⟩
      exact .inr (.inl ⟨hj, ⟨hi, by omega⟩, hx⟩)
  have heff₂' : Effect (Owns cfg b) (Writes cfg b) st₁ st₂ := by
    refine heff₂.mono ?_ ?_
    · rintro i ⟨hi, hlt⟩
      exact ⟨by omega, by omega⟩
    · rintro i x ⟨hi, hlt⟩
      exact .inl ⟨hi, by omega⟩
  have heff₃' : Effect (Owns cfg b) (Writes cfg b) st₂ st₃ :=
    hfills.effect.mono (fun _ hf => hf.elim) fun i x hx => .inr (.inr hx)
  refine ⟨(heff₁'.trans heff₂').trans heff₃', ⟨⟨st₁.entries, ?_, ?_⟩, ?_, ?_⟩⟩
  · refine (hphis.grow heff₂.grows ?_).grow hfills.effect.grows fun i _ _ hf => hf.elim
    intro i hi hlt
    omega
  · rw [hfills.entries]
    exact hscan.grow hfills.effect.grows fun i _ _ hf => hf.elim
  · intro hj pi k hk
    obtain ⟨id, hid, hin⟩ := hjoin hj pi k hk
    have hpi := (List.getElem?_eq_some_iff.mp hk).1
    have hid₂ := (heff₂.grows.ops (blockStart cfg b + pi) (by omega)).inputs _ id hid
    exact ⟨id, (hfills.effect.grows.ops _ fun hf => hf.elim).inputs _ id hid₂,
      hfills.effect.grows.incoming k id (heff₂.grows.incoming k id hin)⟩
  · intro s hs j hj pi k hk
    have hpi := (List.getElem?_eq_some_iff.mp hk).1
    rw [hfills.entries]
    refine hnamed s hs j hj pi k hk (.inl ?_)
    -- neither the phis nor the operations of `b` set this operand
    have hopen := of_decide_eq_true (hfresh.edges s j hj pi hpi)
    have hkeep₁ := heff₁.filled (blockStart cfg s + pi) j (by
      rintro ⟨hjoin', ⟨hlo, hhi⟩, hx⟩
      have hsb : s = b := (owns_phi hpi).unique ⟨hlo, by omega⟩
      subst hsb
      rw [phiWidth_join hjoin'] at hx
      have hlt := (List.getElem?_eq_some_iff.mp hj).1
      omega)
    have hkeep₂ := heff₂.filled (blockStart cfg s + pi) j (by
      rintro ⟨hlo, hhi⟩
      have hsb : s = b := (owns_phi hpi).unique ⟨by omega, by omega⟩
      subst hsb
      omega)
    exact decide_eq_true (hkeep₂.trans (hkeep₁.trans hopen))

variable {st' : Renaming} {c : ℕ}

/-- The renaming of another block leaves what a block needs. -/
theorem Fresh.step (hne : c ≠ b) (heff : Effect (Owns cfg c) (Writes cfg c) st st')
    (h : Fresh cfg st b) : Fresh cfg st' b := by
  constructor
  · intro i hi
    rw [(heff.grows.ops i fun hc => hne (hc.unique hi)).output]
    exact h.output i hi
  · intro hj pi hpi
    have hbefore := of_decide_eq_true (h.entryPhi hj pi hpi)
    exact decide_eq_true ((heff.filled _ _ (not_writes_entryPhi hne hj hpi)).trans hbefore)
  · intro s j hj pi hpi
    have hbefore := of_decide_eq_true (h.edges s j hj pi hpi)
    exact decide_eq_true ((heff.filled _ _ (not_writes_edge hne hj hpi)).trans hbefore)

variable {E E' : List (Slot × ℕ)}

theorem BlockDone.step (hne : c ≠ b)
    (heff : Effect (Owns cfg c) (Writes cfg c) st st') (h : BlockDone cfg st b E E') :
    BlockDone cfg st' b E E' := by
  have hsucc := blockStart_succ cfg b
  rw [length_blockOps] at hsucc
  constructor
  · obtain ⟨E₁, hphis, hscan⟩ := h.scan
    refine ⟨E₁, hphis.grow heff.grows ?_, hscan.grow heff.grows ?_⟩
    · intro i hi hlt hc
      exact hne (hc.unique ⟨hi, by omega⟩)
    · intro i hi hlt hc
      exact hne (hc.unique ⟨by omega, by omega⟩)
  · intro hj pi k hk
    obtain ⟨id, hid, hin⟩ := h.entryPhi hj pi k hk
    have hpi := (List.getElem?_eq_some_iff.mp hk).1
    exact ⟨id, (heff.filled _ _ (not_writes_entryPhi hne hj hpi)).trans hid,
      heff.grows.incoming k id hin⟩
  · intro s hs j hj pi k hk
    obtain ⟨id, hid, hname⟩ := h.edges s hs j hj pi k hk
    have hpi := (List.getElem?_eq_some_iff.mp hk).1
    exact ⟨id, (heff.filled _ _ (not_writes_edge hne hj hpi)).trans hid, hname.grow heff.grows⟩

theorem BlockDone.close (hg : Grows (fun _ => False) st st')
    (h : BlockDone cfg st b E E') : BlockDone cfg st' b E E' := by
  constructor
  · obtain ⟨E₁, hphis, hscan⟩ := h.scan
    exact ⟨E₁, hphis.grow hg fun _ _ _ hf => hf.elim, hscan.grow hg fun _ _ _ hf => hf.elim⟩
  · intro hj pi k hk
    obtain ⟨id, hid, hin⟩ := h.entryPhi hj pi k hk
    exact ⟨id, (hg.ops _ fun hf => hf.elim).inputs _ id hid, hg.incoming k id hin⟩
  · intro s hs j hj pi k hk
    exact (h.edges s hs j hj pi k hk).grow hg

/-- A block adds entries on top of those it found. -/
theorem scan_suffix {idx : ℕ} {code : List (U64 × PcodeOp)}
    (h : Scan st E idx code E') : ∃ D, E' = D ++ E := by
  induction h with
  | nil => exact ⟨[], rfl⟩
  | cons hop _ ih =>
    obtain ⟨D, rfl⟩ := ih
    rcases hop.output with ⟨-, -, rfl⟩ | ⟨vn, v, -, -, -, -, rfl⟩
    · exact ⟨D, rfl⟩
    · exact ⟨D ++ [(slotOf vn, v)], by simp⟩

theorem scanPhis_suffix {idx : ℕ} {ks : List Slot}
    (h : ScanPhis st E idx ks E') : ∃ D, E' = D ++ E := by
  induction h with
  | nil => exact ⟨[], rfl⟩
  | @cons _ _ _ _ k _ hphi _ ih =>
    obtain ⟨D, rfl⟩ := ih
    obtain ⟨v, -, -, -, rfl⟩ := hphi
    exact ⟨D ++ [(k, v)], by simp⟩

theorem BlockDone.suffix (h : BlockDone cfg st b E E') :
    ∃ D, E' = D ++ E := by
  obtain ⟨E₁, hphis, hscan⟩ := h.scan
  obtain ⟨D₁, rfl⟩ := scanPhis_suffix hphis
  obtain ⟨D₂, rfl⟩ := scan_suffix hscan
  exact ⟨D₂ ++ D₁, by simp⟩

end Rename

abbrev Entries := List (Slot × ℕ)

/-- The names in scope at the start of a block: none at a root of the walk, else those at
the end of its parent. -/
def Starts (cfg : ControlFlowGraph) (sOut : ℕ → Entries) (V : List ℕ) (c : ℕ) (E : Entries) :
    Prop :=
  ((computeIdomForest cfg c = none ∨ computeIdomForest cfg c = some c) ∧ E = []) ∨
    ∃ d, computeIdomForest cfg c = some d ∧ d ≠ c ∧ d ∈ V ∧ E = sOut d

/-- The stack of the walk against the names in scope. -/
inductive StackOk (cfg : ControlFlowGraph) (entered : ℕ → ℕ) (sIn sOut : ℕ → Entries)
    (V : List ℕ) : List (ℕ × Bool) → Entries → Prop where
  | nil : StackOk cfg entered sIn sOut V [] []
  | leave {b rest} : b ∈ V → entered b = (sIn b).length →
      StackOk cfg entered sIn sOut V rest (sIn b) →
      StackOk cfg entered sIn sOut V ((b, true) :: rest) (sOut b)
  | enter {c rest E} : Starts cfg sOut V c E → StackOk cfg entered sIn sOut V rest E →
      StackOk cfg entered sIn sOut V ((c, false) :: rest) E

/-- Entered blocks are renamed, each between the names at its start and its end. -/
structure Scopes (cfg : ControlFlowGraph) (sIn sOut : ℕ → Entries) (w : TreeWalk.Walk Scoped) :
    Prop where
  valid : Valid w.state.st
  length : w.state.st.ops.length = blockStart cfg cfg.blocks.length
  waiting : TreeWalk.Inside cfg.blocks.length w
  done : ∀ b ∈ w.visited, BlockDone cfg w.state.st b (sIn b) (sOut b)
  starts : ∀ b ∈ w.visited, Starts cfg sOut w.visited b (sIn b)
  fresh : ∀ b, b < cfg.blocks.length → b ∉ w.visited → Fresh cfg w.state.st b
  stack : StackOk cfg w.state.entered sIn sOut w.visited w.stack w.state.st.entries

theorem mem_childrenOf {c : ℕ} :
    c ∈ childrenOf cfg b ↔ c < cfg.blocks.length ∧ computeIdomForest cfg c = some b ∧ b ≠ c := by
  unfold childrenOf
  rw [mem_filter, mem_range, decide_eq_true_eq]

section Walk

variable {sIn sOut : ℕ → Entries} {V : List ℕ} {b : ℕ} {rest : List (ℕ × Bool)} {s : Scoped}

theorem Starts.enter {c : ℕ} {E Eout : Entries} (hb : b ∉ V) (h : Starts cfg sOut V c E) :
    Starts cfg (Function.update sOut b Eout) (b :: V) c E := by
  rcases h with h | ⟨d, hd, hne, hmem, hE⟩
  · exact .inl h
  · have hdb : d ≠ b := by
      rintro rfl
      exact hb hmem
    exact .inr ⟨d, hd, hne, mem_cons_of_mem _ hmem, by rw [update_of_ne hdb, hE]⟩

theorem StackOk.enterBlock {entered : ℕ → ℕ} {stack : List (ℕ × Bool)} {E Ein Eout : Entries}
    {len : ℕ} (hb : b ∉ V) (h : StackOk cfg entered sIn sOut V stack E) :
    StackOk cfg (Function.update entered b len) (Function.update sIn b Ein)
      (Function.update sOut b Eout) (b :: V) stack E := by
  induction h with
  | nil => exact .nil
  | @leave c rest hc hlen _ ih =>
    have hcb : c ≠ b := by
      rintro rfl
      exact hb hc
    have hin : update sIn b Ein c = sIn c := update_of_ne hcb _ _
    have hout : update sOut b Eout c = sOut c := update_of_ne hcb _ _
    rw [← hout]
    refine .leave (mem_cons_of_mem _ hc) ?_ ?_
    · rw [update_of_ne hcb, hin]
      exact hlen
    · rw [hin]
      exact ih
  | enter hstart _ ih => exact .enter (hstart.enter hb) ih

theorem grows_entries (T : ℕ → Prop) (st : Renaming) (E : Entries) :
    Grows T st { st with entries := E } :=
  ⟨fun _ hv => ⟨hv, rfl, rfl, rfl⟩, fun _ _ hk => hk, rfl, fun _ _ => OpGrows.rfl⟩

theorem Scopes.leave (h : Scopes cfg sIn sOut ⟨V, (b, true) :: rest, s⟩) :
    Scopes cfg sIn sOut ⟨V, rest, leaveBlock b s⟩ := by
  have hstack := h.stack
  simp only at hstack
  generalize hE : s.st.entries = E at hstack
  cases hstack with
  | leave hb hlen hrest =>
    have hdrop : (leaveBlock b s).st.entries = sIn b := by
      obtain ⟨D, hD⟩ := (h.done b hb).suffix
      unfold leaveBlock
      simp only [hE, hlen, hD, length_append, Nat.add_sub_cancel]
      exact drop_left
    have hg : Grows (fun _ => False) s.st (leaveBlock b s).st := grows_entries _ _ _
    constructor
    · refine ⟨fun e he => h.valid.scope e ?_, h.valid.incoming, h.valid.output⟩
      exact mem_of_mem_drop he
    · exact h.length
    · exact fun e he => h.waiting e (mem_cons_of_mem _ he)
    · exact fun c hc => (h.done c hc).close hg
    · exact h.starts
    · intro c hc hcV
      obtain ⟨hout, hphi, hedge⟩ := h.fresh c hc hcV
      exact ⟨hout, hphi, hedge⟩
    · simp only
      rw [hdrop]
      exact hrest

theorem Scopes.skip (h : Scopes cfg sIn sOut ⟨V, (b, false) :: rest, s⟩) :
    Scopes cfg sIn sOut ⟨V, rest, s⟩ := by
  refine ⟨h.valid, h.length, fun e he => h.waiting e (mem_cons_of_mem _ he), h.done, h.starts,
    h.fresh, ?_⟩
  have hstack := h.stack
  simp only at hstack ⊢
  cases hstack with
  | enter _ hrest => exact hrest

theorem Scopes.enter (hb : b ∉ V) (h : Scopes cfg sIn sOut ⟨V, (b, false) :: rest, s⟩) :
    Scopes cfg (Function.update sIn b s.st.entries)
      (Function.update sOut b (s.st.renameBlock cfg b).entries)
      ⟨b :: V, (childrenOf cfg b).map (fun c => (c, false)) ++ (b, true) :: rest,
        enterBlock cfg b s⟩ := by
  have hlt : b < cfg.blocks.length := h.waiting (b, false) mem_cons_self
  have hlen : blockStart cfg (b + 1) ≤ s.st.ops.length := by
    rw [h.length]
    exact blockStart_mono cfg hlt
  obtain ⟨heff, hdone⟩ := renameBlock_spec h.valid hlen (h.fresh b hlt hb)
  have hstack := h.stack
  simp only at hstack
  constructor
  · exact heff.valid
  · exact heff.grows.length.trans h.length
  · intro e he
    rcases mem_append.mp he with he | he
    · obtain ⟨c, hc, rfl⟩ := mem_map.mp he
      exact (mem_childrenOf.mp hc).1
    · rcases mem_cons.mp he with rfl | he
      · exact hlt
      · exact h.waiting e (mem_cons_of_mem _ he)
  · intro c hc
    by_cases hcb : c = b
    · subst hcb
      rw [update_self, update_self]
      exact hdone
    · rw [update_of_ne hcb, update_of_ne hcb]
      exact (h.done c ((mem_cons.mp hc).resolve_left hcb)).step (Ne.symm hcb) heff
  · intro c hc
    by_cases hcb : c = b
    · subst hcb
      rw [update_self]
      cases hstack with
      | enter hstart _ => exact hstart.enter hb
    · rw [update_of_ne hcb]
      exact (h.starts c ((mem_cons.mp hc).resolve_left hcb)).enter hb
  · intro c hc hcV
    rw [mem_cons, not_or] at hcV
    exact (h.fresh c hc hcV.2).step (Ne.symm hcV.1) heff
  · have htop : StackOk cfg (update s.entered b s.st.entries.length)
        (update sIn b s.st.entries)
        (update sOut b (s.st.renameBlock cfg b).entries) (b :: V) ((b, true) :: rest)
        (s.st.renameBlock cfg b).entries := by
      have hout : update sOut b (s.st.renameBlock cfg b).entries b =
          (s.st.renameBlock cfg b).entries := update_self _ _ _
      have hin : update sIn b s.st.entries b = s.st.entries := update_self _ _ _
      conv => arg 7; rw [← hout]
      refine .leave mem_cons_self ?_ ?_
      · rw [update_self, hin]
      · rw [hin]
        cases hstack with
        | enter _ hrest => exact hrest.enterBlock hb
    have hchildren : ∀ cs : List ℕ, (∀ c ∈ cs, c ∈ childrenOf cfg b) →
        StackOk cfg (update s.entered b s.st.entries.length)
          (update sIn b s.st.entries)
          (update sOut b (s.st.renameBlock cfg b).entries) (b :: V)
          (cs.map (fun c => (c, false)) ++ (b, true) :: rest)
          (s.st.renameBlock cfg b).entries := by
      intro cs hcs
      induction cs with
      | nil => exact htop
      | cons c cs ih =>
        obtain ⟨-, hidom, hne⟩ := mem_childrenOf.mp (hcs c mem_cons_self)
        refine .enter (.inr ⟨b, hidom, hne, mem_cons_self, ?_⟩)
          (ih fun x hx => hcs x (mem_cons_of_mem _ hx))
        rw [update_self]
    exact hchildren _ fun c hc => hc

end Walk

section Start

theorem op_start {i : ℕ} (hb : b < cfg.blocks.length) (hi : i < (blockOps cfg b).length) :
    opOf (startState cfg).st (blockStart cfg b + i) = (blockOps cfg b)[i] := by
  have hget := getElem?_layout hb hi
  rw [getElem?_eq_getElem hi] at hget
  unfold opOf startState
  simp only
  rw [getD_eq_getElem?_getD, hget]
  rfl

theorem op_start_phi {pi : ℕ} (hb : b < cfg.blocks.length) (hpi : pi < (phisOf cfg b).length) :
    opOf (startState cfg).st (blockStart cfg b + pi) =
      ⟨.multiEqual, none, List.replicate (phiWidth cfg b) none, b, (cfg.block b).startAddr⟩ := by
  have hlen : pi < (blockOps cfg b).length := by
    rw [length_blockOps]
    omega
  rw [op_start hb hlen]
  refine (getElem_append_left (by rwa [length_map])).trans ?_
  exact getElem_map _

theorem output_start {i : ℕ} (hb : b < cfg.blocks.length) (hi : Owns cfg b i) :
    (opOf (startState cfg).st i).output = none := by
  obtain ⟨hlo, hhi⟩ := hi
  obtain ⟨x, rfl⟩ := Nat.exists_eq_add_of_le hlo
  rw [blockStart_succ] at hhi
  have hx : x < (blockOps cfg b).length := by omega
  rw [op_start hb hx]
  have hall : ∀ op ∈ blockOps cfg b, op.output = none := by
    intro op hop
    rcases mem_append.mp hop with hop | hop
    · obtain ⟨_, -, rfl⟩ := mem_map.mp hop
      rfl
    · obtain ⟨_, -, rfl⟩ := mem_map.mp hop
      rfl
  exact hall _ (getElem_mem hx)

theorem isOpen_start {pi j : ℕ} (hb : b < cfg.blocks.length)
    (hpi : pi < (phisOf cfg b).length) (hj : j < phiWidth cfg b) :
    (startState cfg).st.isOpen (blockStart cfg b + pi) j = true := by
  have hop := op_start_phi hb hpi
  unfold opOf at hop
  unfold Renaming.isOpen
  rw [hop]
  exact decide_eq_true (by simp [hj])

theorem fresh_start (hwf : cfg.WellFormed) (hb : b < cfg.blocks.length) :
    Fresh cfg (startState cfg).st b := by
  refine ⟨fun i hi => output_start hb hi, fun hjoin pi hpi => ?_, fun s j hj pi hpi => ?_⟩
  · refine isOpen_start hb hpi ?_
    rw [phiWidth_join hjoin]
    omega
  · have hmem : b ∈ cfg.preds s := mem_of_getElem? hj
    have hs : s < cfg.blocks.length := hwf.succ_lt b s ((hwf.mirror b s).mp hmem)
    have hlt := (List.getElem?_eq_some_iff.mp hj).1
    exact isOpen_start hs hpi (lt_of_lt_of_le hlt (Nat.le_add_right _ _))

/-- Before the walk an operation has neither output nor operands. -/
theorem opOf_start (i : ℕ) : (opOf (startState cfg).st i).output = none ∧
    ∀ v, some v ∉ (opOf (startState cfg).st i).inputs := by
  by_cases hi : i < (startState cfg).st.ops.length
  · have hmem : opOf (startState cfg).st i ∈ (startState cfg).st.ops := by
      unfold opOf
      rw [getD_eq_getElem _ _ hi]
      exact getElem_mem hi
    obtain ⟨b, -, hop⟩ := mem_flatMap.mp hmem
    rcases mem_append.mp hop with hop | hop
    · obtain ⟨_, -, heq⟩ := mem_map.mp hop
      rw [← heq]
      exact ⟨rfl, fun v hv => absurd (mem_replicate.mp hv).2 (Option.some_ne_none v)⟩
    · obtain ⟨_, -, heq⟩ := mem_map.mp hop
      rw [← heq]
      exact ⟨rfl, fun _ => not_mem_nil⟩
  · have hdefault : opOf (startState cfg).st i = default :=
      getD_eq_default _ _ (Nat.le_of_not_lt hi)
    rw [hdefault]
    exact ⟨rfl, fun _ => not_mem_nil⟩

theorem scopes_start (hwf : cfg.WellFormed) :
    Scopes cfg (fun _ => []) (fun _ => []) ⟨[], [], startState cfg⟩ := by
  refine ⟨⟨fun e he => absurd he not_mem_nil, fun k id hk => ?_, fun i v hv => ?_⟩, ?_,
    fun e he => absurd he not_mem_nil, fun b hb => absurd hb not_mem_nil,
    fun b hb => absurd hb not_mem_nil, fun b hb _ => fresh_start hwf hb, .nil⟩
  · cases hk
  · rw [(opOf_start i).1] at hv
    cases hv
  · exact length_layout cfg _

end Start

/-- Some names in scope fit the walk. -/
def Scoping (cfg : ControlFlowGraph) (w : TreeWalk.Walk Scoped) : Prop :=
  ∃ sIn sOut, Scopes cfg sIn sOut w

theorem scoping_step (w : TreeWalk.Walk Scoped) (h : Scoping cfg w) :
    Scoping cfg (TreeWalk.step (childrenOf cfg) (enterBlock cfg) leaveBlock w) := by
  obtain ⟨sIn, sOut, h⟩ := h
  obtain ⟨V, stack, s⟩ := w
  match stack with
  | [] => exact ⟨sIn, sOut, h⟩
  | (b, true) :: rest => exact ⟨sIn, sOut, h.leave⟩
  | (b, false) :: rest =>
    unfold TreeWalk.step
    simp only
    split
    · exact ⟨sIn, sOut, h.skip⟩
    · next hb => exact ⟨_, _, h.enter hb⟩

theorem mem_renameRoots : b ∈ renameRoots cfg ↔
    (cfg.blocks ≠ [] ∧ b = cfg.entryBlock) ∨ (b < cfg.blocks.length ∧ b ≠ cfg.entryBlock ∧
      (computeIdomForest cfg b = none ∨ computeIdomForest cfg b = some b)) := by
  unfold renameRoots
  rw [mem_append, mem_filter, mem_range, decide_eq_true_eq]
  split
  · next h => simp [h]
  · next h => simp [h]

theorem scoping_next (hwf : cfg.WellFormed) (hne : cfg.blocks ≠ []) (w : TreeWalk.Walk Scoped)
    (r : ℕ) (hr : r ∈ renameRoots cfg) (hw : w.stack = []) (h : Scoping cfg w) :
    Scoping cfg ⟨w.visited, [(r, false)], w.state⟩ := by
  obtain ⟨order, hforest⟩ := computeIdomForest_isForest hwf.mirrored hne
  obtain ⟨sIn, sOut, h⟩ := h
  have hstack := h.stack
  rw [hw] at hstack
  generalize hE : w.state.st.entries = E at hstack
  cases hstack with
  | nil =>
    have hroot : r < cfg.blocks.length ∧
        (computeIdomForest cfg r = none ∨ computeIdomForest cfg r = some r) := by
      rcases mem_renameRoots.mp hr with ⟨-, rfl⟩ | ⟨hlt, -, hidom⟩
      · exact ⟨hwf.entry_lt hne, .inr hforest.entry⟩
      · exact ⟨hlt, hidom⟩
    refine ⟨sIn, sOut, h.valid, h.length, ?_, h.done, h.starts, h.fresh, ?_⟩
    · intro e he
      rw [mem_singleton.mp he]
      exact hroot.1
    · simp only
      rw [hE]
      exact .enter (.inl ⟨hroot.2, rfl⟩) .nil

theorem renameAll_spec (hwf : cfg.WellFormed) (hne : cfg.blocks ≠ [])
    {P : TreeWalk.Walk Scoped → Prop}
    (hstep : ∀ w, P w → P (TreeWalk.step (childrenOf cfg) (enterBlock cfg) leaveBlock w))
    (hnext : ∀ w, ∀ r ∈ renameRoots cfg, w.stack = [] → P w →
      P ⟨w.visited, [(r, false)], w.state⟩)
    (hstart : P ⟨[], [], startState cfg⟩) :
    P (renameAll cfg) ∧ (renameAll cfg).stack = [] ∧
      ∀ b < cfg.blocks.length, b ∈ (renameAll cfg).visited := by
  obtain ⟨order, hforest⟩ := computeIdomForest_isForest hwf.mirrored hne
  have hroots : ∀ r ∈ renameRoots cfg, r < cfg.blocks.length := by
    intro r hr
    rcases mem_renameRoots.mp hr with ⟨-, rfl⟩ | ⟨hlt, -, -⟩
    · exact hwf.entry_lt hne
    · exact hlt
  obtain ⟨h, hstack, hcov, hvisit, -⟩ := TreeWalk.walkRoots_spec
    (fun b c hc => (mem_childrenOf.mp hc).1) (le_refl _) (renameRoots cfg) hroots
    hstep hnext (⟨[], [], startState cfg⟩ : TreeWalk.Walk Scoped) rfl hstart
    (fun b hb => absurd hb not_mem_nil)
  refine ⟨h, hstack, fun b hb => ?_⟩
  -- every block is a root or the child of an earlier one
  induction hm : order b using Nat.strong_induction_on generalizing b with
  | _ m ih =>
    subst hm
    by_cases hbe : b = cfg.entryBlock
    · exact hvisit b (mem_renameRoots.mpr (.inl ⟨hne, hbe⟩))
    · cases hidom : computeIdomForest cfg b with
      | none => exact hvisit b (mem_renameRoots.mpr (.inr ⟨hb, hbe, .inl hidom⟩))
      | some d =>
        by_cases hdb : d = b
        · subst hdb
          exact hvisit d (mem_renameRoots.mpr (.inr ⟨hb, hbe, .inr hidom⟩))
        · have hlt := (hforest.lt b d hidom).resolve_left hdb
          have hd := ih _ hlt d (hforest.inside d (hforest.closed b d hidom)) rfl
          rcases hcov d hd b (mem_childrenOf.mpr ⟨hb, hidom, hdb⟩) with hcover | hcover
          · exact hcover
          · rw [hstack] at hcover
            exact absurd hcover not_mem_nil

/-- A step that sets operands left open. -/
structure Closes (st st' : Renaming) : Prop where
  grows : Grows (fun _ => False) st st'
  valid : Valid st'

theorem Closes.trans {st st' st'' : Renaming} (h : Closes st st') (k : Closes st' st'') :
    Closes st st'' :=
  ⟨h.grows.trans k.grows, k.valid⟩

theorem closes_foldl {α : Type} (f : Renaming → α → Renaming)
    (hf : ∀ st a, Valid st → Closes st (f st a)) (l : List α) (st : Renaming) (h : Valid st) :
    Closes st (l.foldl f st) := by
  induction l generalizing st with
  | nil => exact ⟨Grows.rfl, h⟩
  | cons a l ih => exact (hf st a h).trans (ih _ (hf st a h).valid)

theorem closes_closePhi (idx : ℕ) (k : Slot) (st : Renaming) (j : ℕ) (h : Valid st) :
    Closes st (Renaming.closePhi idx k st j) := by
  unfold Renaming.closePhi
  split
  · next hopen =>
    obtain ⟨hlook, -⟩ := looked_incomingVar h (slotVarnode k)
    have hopen' := (isOpen_of_looked hlook idx j).trans hopen
    obtain ⟨hg, hv, -⟩ := setPhiInput_spec hlook.valid hopen' (st.incomingVar (slotVarnode k)).2
    exact ⟨hlook.grows.trans hg, hv⟩
  · exact ⟨Grows.rfl, h⟩

theorem closes_closeAll (cfg : ControlFlowGraph) (st : Renaming) (h : Valid st) :
    Closes st (closeAll cfg st) := by
  refine closes_foldl _ (fun st b hv => ?_) _ st h
  refine closes_foldl _ (fun st phi hv => ?_) _ st hv
  exact closes_foldl _ (fun st j hv => closes_closePhi _ _ st j hv) _ st hv

/-- The names in scope at the start and the end of every block in the finished renaming. -/
structure IsRenamed (cfg : ControlFlowGraph) (sIn sOut : ℕ → Entries) : Prop where
  valid : Valid (renamed cfg)
  length : (renamed cfg).ops.length = blockStart cfg cfg.blocks.length
  done : ∀ b < cfg.blocks.length, BlockDone cfg (renamed cfg) b (sIn b) (sOut b)
  root : ∀ b < cfg.blocks.length, computeIdomForest cfg b = some b → sIn b = []
  child : ∀ b < cfg.blocks.length, ∀ d, computeIdomForest cfg b = some d → d ≠ b →
    sIn b = sOut d

theorem renamed_isRenamed (hwf : cfg.WellFormed) (hne : cfg.blocks ≠ []) :
    ∃ sIn sOut, IsRenamed cfg sIn sOut := by
  obtain ⟨⟨sIn, sOut, h⟩, -, hall⟩ :=
    renameAll_spec hwf hne scoping_step (scoping_next hwf hne) ⟨_, _, scopes_start hwf⟩
  have hclose := closes_closeAll cfg (renameAll cfg).state.st h.valid
  refine ⟨sIn, sOut, hclose.valid, hclose.grows.length.trans h.length, ?_, ?_, ?_⟩
  · intro b hb
    exact (h.done b (hall b hb)).close hclose.grows
  · intro b hb hidom
    rcases h.starts b (hall b hb) with ⟨-, hE⟩ | ⟨d, hd, hne', -, -⟩
    · exact hE
    · exact absurd (Option.some.inj (hd.symm.trans hidom)) hne'
  · intro b hb d hidom hdb
    rcases h.starts b (hall b hb) with ⟨hroot, -⟩ | ⟨d', hd', -, -, hE⟩
    · rcases hroot with hn | hs
      · rw [hn] at hidom
        cases hidom
      · exact absurd (Option.some.inj (hidom.symm.trans hs)) hdb
    · obtain rfl := Option.some.inj (hidom.symm.trans hd')
      exact hE

end SsaScopes
