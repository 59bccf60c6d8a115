import Reargo.SsaBuild

/-!
# Where phis are placed

The placement is the least set closed under the frontier, so an edge into a block
without a phi leaves the definitions above its source above the block.
-/
namespace PhiPlacement

open ControlFlow DominatorTree Dominators SsaModel SsaBuild List

structure Placed (df : ℕ → List ℕ) (sites : List ℕ) (st : Placement) : Prop where
  work : ∀ x ∈ st.work, x ∈ st.queued
  queued : ∀ x, x ∈ st.queued ↔ x ∈ sites ∨ x ∈ st.hasPhi
  done : ∀ x ∈ st.queued, x ∈ st.work ∨ ∀ f ∈ df x, f ∈ st.hasPhi

def placeLeft (n : ℕ) (st : Placement) : ℕ :=
  st.work.length + ((TreeWalk.unvisited n st.queued).map fun _ => 1).sum

/-- What placing some blocks does. -/
structure Places (n : ℕ) (fs : List ℕ) (st st' : Placement) : Prop where
  hasPhi : ∀ x, x ∈ st'.hasPhi ↔ x ∈ st.hasPhi ∨ x ∈ fs
  work : ∀ x, x ∈ st'.work ↔ x ∈ st.work ∨ (x ∈ st'.queued ∧ x ∉ st.queued)
  queued : ∀ x, x ∈ st'.queued ↔ x ∈ st.queued ∨ (x ∈ fs ∧ x ∉ st.hasPhi)
  left : placeLeft n st' = placeLeft n st

variable {b : ℕ}

section Iterate

variable {df : ℕ → List ℕ} {n : ℕ} {sites : List ℕ}

theorem placeAt_places {f : ℕ} (hf : f < n) (st : Placement) : Places n [f] st (placeAt st f) := by
  unfold placeAt
  split
  · next hphi =>
    refine ⟨fun x => ?_, fun x => ?_, fun x => ?_, rfl⟩
    · exact (or_iff_left_of_imp fun h => mem_singleton.mp h ▸ hphi).symm
    · exact (or_iff_left_of_imp fun h => absurd h.1 h.2).symm
    · exact (or_iff_left_of_imp fun h => absurd (mem_singleton.mp h.1 ▸ hphi) h.2).symm
  · next hphi =>
    split
    · next hqueued =>
      refine ⟨fun x => mem_append, fun x => ?_, fun x => ?_, rfl⟩
      · exact (or_iff_left_of_imp fun h => absurd h.1 h.2).symm
      · exact (or_iff_left_of_imp fun h => mem_singleton.mp h.1 ▸ hqueued).symm
    · next hqueued =>
      refine ⟨fun x => mem_append, fun x => ?_, fun x => ?_, ?_⟩
      · simp only [mem_cons]
        constructor
        · rintro (rfl | h)
          · exact .inr ⟨.inl rfl, hqueued⟩
          · exact .inl h
        · rintro (h | ⟨rfl | h, hn⟩)
          · exact .inr h
          · exact .inl rfl
          · exact absurd h hn
      · simp only [mem_cons, not_mem_nil, or_false]
        constructor
        · rintro (rfl | h)
          · exact .inr ⟨rfl, hphi⟩
          · exact .inl h
        · rintro (h | ⟨rfl, -⟩)
          · exact .inr h
          · exact .inl rfl
      · have hsum := TreeWalk.sum_unvisited_cons hf hqueued fun _ => 1
        unfold placeLeft
        simp only [length_cons]
        omega

theorem foldl_placeAt_places (fs : List ℕ) (hfs : ∀ f ∈ fs, f < n) (st : Placement) :
    Places n fs st (fs.foldl placeAt st) := by
  induction fs generalizing st with
  | nil =>
    refine ⟨fun x => ?_, fun x => ?_, fun x => ?_, rfl⟩
    · simp
    · exact (or_iff_left_of_imp fun h => absurd h.1 h.2).symm
    · simp
  | cons f fs ih =>
    have hfirst := placeAt_places (hfs f mem_cons_self) st
    have hrest := ih (fun x hx => hfs x (mem_cons_of_mem _ hx)) (placeAt st f)
    rw [foldl_cons]
    have hphi := fun x => hfirst.hasPhi x
    have hqueued := fun x => hfirst.queued x
    simp only [mem_singleton] at hphi hqueued
    refine ⟨fun x => ?_, fun x => ?_, fun x => ?_, hrest.left.trans hfirst.left⟩
    · rw [hrest.hasPhi, hphi, mem_cons]
      tauto
    · have hq := fun h : x ∈ st.queued => (hfirst.queued x).mpr (.inl h)
      have hq' := fun h : x ∈ (placeAt st f).queued => (hrest.queued x).mpr (.inl h)
      rw [hrest.work, hfirst.work]
      tauto
    · rw [hrest.queued, hqueued, hphi, mem_cons]
      tauto

theorem placed_step {rest : List ℕ} {st : Placement} (hdf : ∀ f ∈ df b, f < n)
    (hwork : st.work = b :: rest) (h : Placed df sites st) :
    Placed df sites ((df b).foldl placeAt { st with work := rest }) ∧
      placeLeft n ((df b).foldl placeAt { st with work := rest }) + 1 = placeLeft n st := by
  have hp := foldl_placeAt_places (df b) hdf { st with work := rest }
  refine ⟨⟨fun x hx => ?_, fun x => ?_, fun x hx => ?_⟩, ?_⟩
  · rcases (hp.work x).mp hx with hr | ⟨hq, -⟩
    · refine (hp.queued x).mpr (.inl (h.work x ?_))
      rw [hwork]
      exact mem_cons_of_mem _ hr
    · exact hq
  · rw [hp.queued, hp.hasPhi, h.queued]
    tauto
  · by_cases hold : x ∈ st.queued
    · rcases h.done x hold with hw | hd
      · rw [hwork] at hw
        rcases mem_cons.mp hw with rfl | hr
        · exact .inr fun f hf => (hp.hasPhi f).mpr (.inr hf)
        · exact .inl ((hp.work x).mpr (.inl hr))
      · exact .inr fun f hf => (hp.hasPhi f).mpr (.inl (hd f hf))
    · exact .inl ((hp.work x).mpr (.inr ⟨hx, hold⟩))
  · rw [hp.left]
    unfold placeLeft
    rw [hwork, length_cons]
    exact add_right_comm _ _ _

theorem placeRun_placed (hdf : ∀ b, ∀ f ∈ df b, f < n) (fuel : ℕ) (st : Placement)
    (h : Placed df sites st) (hfuel : placeLeft n st ≤ fuel) :
    Placed df sites (placeRun df fuel st) ∧ (placeRun df fuel st).work = [] := by
  induction fuel generalizing st with
  | zero =>
    refine ⟨h, length_eq_zero_iff.mp ?_⟩
    unfold placeLeft at hfuel
    exact Nat.eq_zero_of_le_zero (le_trans (Nat.le_add_right _ _) hfuel)
  | succ fuel ih =>
    unfold placeRun
    cases hwork : st.work with
    | nil => exact ⟨h, hwork⟩
    | cons b rest =>
      obtain ⟨hplaced, hleft⟩ := placed_step (hdf b) hwork h
      exact ih _ hplaced (by omega)

theorem placed_start (df : ℕ → List ℕ) (sites : List ℕ) :
    Placed df sites ⟨sites.reverse, [], sites⟩ := by
  refine ⟨fun x hx => mem_reverse.mp hx, fun x => ?_, fun x hx => .inl ?_⟩
  · simp
  · exact mem_reverse.mpr hx

theorem place_placed (sites : List ℕ) (hdf : ∀ b, ∀ f ∈ df b, f < n) :
    ∃ st, st.hasPhi = place df n sites ∧ st.work = [] ∧ Placed df sites st := by
  have hfuel : placeLeft n ⟨sites.reverse, [], sites⟩ ≤ sites.length + n := by
    have hlen : (TreeWalk.unvisited n sites).length ≤ n := by
      unfold TreeWalk.unvisited
      exact (length_filter_le _ _).trans (length_range).le
    unfold placeLeft
    simpa using hlen
  obtain ⟨h, hwork⟩ := placeRun_placed hdf _ _ (placed_start df sites) hfuel
  exact ⟨_, rfl, hwork, h⟩

theorem place_closed (hdf : ∀ b, ∀ f ∈ df b, f < n) {x f : ℕ}
    (hx : x ∈ sites ∨ x ∈ place df n sites) (hf : f ∈ df x) : f ∈ place df n sites := by
  obtain ⟨st, hphi, hwork, h⟩ := place_placed sites hdf
  rw [← hphi] at hx ⊢
  have hd := h.done x ((h.queued x).mpr hx)
  rw [hwork] at hd
  exact hd.resolve_left not_mem_nil f hf

theorem place_induction {Q : ℕ → Prop} (hsite : ∀ x ∈ sites, ∀ f ∈ df x, Q f)
    (hstep : ∀ x, Q x → ∀ f ∈ df x, Q f) {f : ℕ} (hf : f ∈ place df n sites) : Q f := by
  have hat : ∀ (st : Placement) (g : ℕ), Q g → (∀ x ∈ st.hasPhi, Q x) →
      (∀ x ∈ st.work, x ∈ sites ∨ Q x) →
      (∀ x ∈ (placeAt st g).hasPhi, Q x) ∧ ∀ x ∈ (placeAt st g).work, x ∈ sites ∨ Q x := by
    intro st g hg hphi hwork
    have happend : ∀ x ∈ st.hasPhi ++ [g], Q x := by
      intro x hx
      rcases mem_append.mp hx with hx | hx
      · exact hphi x hx
      · rw [mem_singleton.mp hx]
        exact hg
    unfold placeAt
    split
    · exact ⟨hphi, hwork⟩
    · split
      · exact ⟨happend, hwork⟩
      · refine ⟨happend, fun x hx => ?_⟩
        rcases mem_cons.mp hx with rfl | hx
        · exact .inr hg
        · exact hwork x hx
  have hfold : ∀ (fs : List ℕ) (st : Placement), (∀ g ∈ fs, Q g) → (∀ x ∈ st.hasPhi, Q x) →
      (∀ x ∈ st.work, x ∈ sites ∨ Q x) →
      (∀ x ∈ (fs.foldl placeAt st).hasPhi, Q x) ∧
        ∀ x ∈ (fs.foldl placeAt st).work, x ∈ sites ∨ Q x := by
    intro fs
    induction fs with
    | nil => exact fun st _ hphi hwork => ⟨hphi, hwork⟩
    | cons g fs ih =>
      intro st hfs hphi hwork
      obtain ⟨hphi', hwork'⟩ := hat st g (hfs g mem_cons_self) hphi hwork
      exact ih _ (fun x hx => hfs x (mem_cons_of_mem _ hx)) hphi' hwork'
  have hrun : ∀ (fuel : ℕ) (st : Placement), (∀ x ∈ st.hasPhi, Q x) →
      (∀ x ∈ st.work, x ∈ sites ∨ Q x) → ∀ x ∈ (placeRun df fuel st).hasPhi, Q x := by
    intro fuel
    induction fuel with
    | zero => exact fun st hphi _ => hphi
    | succ fuel ih =>
      intro st hphi hwork
      unfold placeRun
      cases hst : st.work with
      | nil => exact hphi
      | cons b rest =>
        rw [hst] at hwork
        have hb : ∀ g ∈ df b, Q g := by
          rcases hwork b mem_cons_self with hb | hb
          · exact hsite b hb
          · exact hstep b hb
        obtain ⟨hphi', hwork'⟩ := hfold (df b) { st with work := rest } hb hphi
          fun x hx => hwork x (mem_cons_of_mem _ hx)
        exact ih _ hphi' hwork'
  refine hrun _ _ (fun x hx => absurd hx not_mem_nil) (fun x hx => .inl ?_) f hf
  exact mem_reverse.mp hx

end Iterate

section Forest

variable {cfg : ControlFlowGraph} {order : ℕ → ℕ} {idom : Parents}

theorem mem_walkUp (h : IsForest cfg order idom) {stop x : ℕ} (fuel runner : ℕ)
    (hfuel : order runner < fuel) :
    x ∈ walkUp idom stop fuel runner ↔
      Ancestor idom x runner ∧ ¬ (Ancestor idom stop runner ∧ Ancestor idom x stop) := by
  induction fuel generalizing runner with
  | zero => omega
  | succ fuel ih =>
    unfold walkUp
    by_cases hstop : runner = stop
    · subst hstop
      rw [if_pos rfl]
      constructor
      · intro hx
        exact absurd hx not_mem_nil
      · rintro ⟨hx, hn⟩
        exact absurd ⟨.self _, hx⟩ hn
    · rw [if_neg hstop]
      have hself : Ancestor idom runner runner ∧
          ¬ (Ancestor idom stop runner ∧ Ancestor idom runner stop) :=
        ⟨.self _, fun hc => hstop (h.antisymm hc.2 hc.1)⟩
      cases hup : idom runner with
      | none =>
        constructor
        · intro hx
          rw [mem_singleton.mp hx]
          exact hself
        · rintro ⟨hx, -⟩
          cases hx with
          | self => exact mem_singleton_self _
          | climb hc _ =>
            rw [hup] at hc
            cases hc
      | some up =>
        by_cases hroot : up = runner
        · subst hroot
          simp only [if_pos]
          constructor
          · intro hx
            rw [mem_singleton.mp hx]
            exact hself
          · rintro ⟨hx, -⟩
            rw [anc_root hup hx]
            exact mem_singleton_self _
        · simp only [if_neg hroot]
          have hlt := (h.lt runner up hup).resolve_left hroot
          have hclimb : ∀ z, z ≠ runner → (Ancestor idom z runner ↔ Ancestor idom z up) := by
            intro z hz
            constructor
            · intro hzr
              obtain ⟨d, hd, hzd⟩ := hzr.parent hz
              obtain rfl := Option.some.inj (hup.symm.trans hd)
              exact hzd
            · exact fun hzu => .climb hup hzu
          rw [mem_cons, ih up (by omega), hclimb stop (Ne.symm hstop)]
          by_cases hx : x = runner
          · subst hx
            refine iff_of_true (.inl rfl) ⟨.self _, fun hc => ?_⟩
            exact hself.2 ⟨.climb hup hc.1, hc.2⟩
          · rw [hclimb x hx]
            exact or_iff_right hx

theorem mem_entryWalk (h : IsForest cfg order idom) {x : ℕ} (fuel runner : ℕ)
    (hfuel : order runner < fuel) :
    x ∈ entryWalk idom cfg.entryBlock fuel runner ↔ Ancestor idom x runner := by
  induction fuel generalizing runner with
  | zero => omega
  | succ fuel ih =>
    unfold entryWalk
    cases hup : idom runner with
    | none =>
      constructor
      · intro hx
        rw [mem_singleton.mp hx]
        exact .self _
      · intro hx
        cases hx with
        | self => exact mem_singleton_self _
        | climb hc _ =>
          rw [hup] at hc
          cases hc
    | some up =>
      by_cases hroot : up = runner
      · subst hroot
        simp only [ne_eq, not_true_eq_false, false_and, if_false]
        constructor
        · intro hx
          rw [mem_singleton.mp hx]
          exact .self _
        · intro hx
          rw [anc_root hup hx]
          exact mem_singleton_self _
      · have hne : runner ≠ cfg.entryBlock := by
          rintro rfl
          exact hroot (Option.some.inj (hup.symm.trans h.entry))
        have hlt := (h.lt runner up hup).resolve_left hroot
        simp only [ne_eq, hroot, hne, not_false_eq_true, and_self, if_true]
        rw [mem_cons, ih up (by omega)]
        constructor
        · rintro (rfl | hx)
          · exact .self _
          · exact .climb hup hx
        · intro hx
          by_cases hxr : x = runner
          · exact .inl hxr
          · obtain ⟨d, hd, hxd⟩ := hx.parent hxr
            obtain rfl := Option.some.inj (hup.symm.trans hd)
            exact .inr hxd

end Forest

section Frontier

variable {cfg : ControlFlowGraph} {order : ℕ → ℕ} {k : Slot}

theorem mem_frontier (hm : cfg.Mirrored) (hne : cfg.blocks ≠ [])
    (h : IsForest cfg order (computeIdomForest cfg)) {x f : ℕ} :
    f ∈ frontier cfg x ↔ ∃ p ∈ cfg.preds f, computeIdomForest cfg p ≠ none ∧
      Ancestor (computeIdomForest cfg) x p ∧ (f = cfg.entryBlock ∨
        ∃ stop, computeIdomForest cfg f = some stop ∧ ¬ (Ancestor (computeIdomForest cfg) stop p ∧
            Ancestor (computeIdomForest cfg) x stop)) := by
  have hentry : x ∈ entryRunners cfg (computeIdomForest cfg) ↔
      ∃ p ∈ cfg.preds cfg.entryBlock, computeIdomForest cfg p ≠ none ∧
        Ancestor (computeIdomForest cfg) x p := by
    have hpreds : ∀ p, (p = cfg.entryBlock ∨ computeIdomForest cfg p ≠ none) ↔
        computeIdomForest cfg p ≠ none := by
      intro p
      constructor
      · rintro (rfl | hp)
        · rw [h.entry]
          exact Option.some_ne_none _
        · exact hp
      · exact .inr
    unfold entryRunners
    split
    · rw [mem_flatMap]
      constructor
      · rintro ⟨p, hp, hx⟩
        rw [mem_filter, decide_eq_true_eq, hpreds] at hp
        exact ⟨p, hp.1, hp.2, (mem_entryWalk h _ p (h.bound p hp.2)).mp hx⟩
      · rintro ⟨p, hp, hreached, hx⟩
        refine ⟨p, ?_, (mem_entryWalk h _ p (h.bound p hreached)).mpr hx⟩
        rw [mem_filter, decide_eq_true_eq, hpreds]
        exact ⟨hp, hreached⟩
    · next hjoin =>
      refine iff_of_false not_mem_nil ?_
      rintro ⟨p, hp, -⟩
      exact hjoin (decide_eq_true ⟨hne, ne_nil_of_mem hp⟩)
  unfold SsaBuild.frontier dominanceFrontier
  simp only
  rw [mem_append, mem_filter, mem_range, decide_eq_true_eq]
  by_cases hf : f = cfg.entryBlock
  · subst hf
    have hrun : x ∉ runners cfg (computeIdomForest cfg) cfg.entryBlock := by
      unfold runners
      rw [if_pos rfl]
      exact not_mem_nil
    have hsplit : cfg.entryBlock ∈ (if x ∈ entryRunners cfg (computeIdomForest cfg)
        then [cfg.entryBlock] else []) ↔ x ∈ entryRunners cfg (computeIdomForest cfg) := by
      split
      · next hx => exact iff_of_true (mem_singleton_self _) hx
      · next hx => exact iff_of_false not_mem_nil hx
    rw [hsplit, hentry]
    constructor
    · rintro (⟨-, hx⟩ | ⟨p, hp, hreached, hx⟩)
      · exact absurd hx hrun
      · exact ⟨p, hp, hreached, hx, .inl rfl⟩
    · rintro ⟨p, hp, hreached, hx, -⟩
      exact .inr ⟨p, hp, hreached, hx⟩
  · have hsplit : f ∉ (if x ∈ entryRunners cfg (computeIdomForest cfg)
        then [cfg.entryBlock] else []) := by
      split
      · exact fun hc => hf (mem_singleton.mp hc)
      · exact not_mem_nil
    unfold runners
    rw [if_neg hf, or_iff_left hsplit]
    have hfilter : ∀ p, p ∈ (cfg.preds f).filter (fun p => (computeIdomForest cfg p).isSome) ↔
        p ∈ cfg.preds f ∧ computeIdomForest cfg p ≠ none := by
      intro p
      rw [mem_filter, Option.isSome_iff_ne_none]
    cases hstop : computeIdomForest cfg f with
    | none =>
      refine iff_of_false (fun hc => absurd hc.2 not_mem_nil) ?_
      rintro ⟨p, hp, hreached, -, -⟩
      exact h.succ p f hreached ((hm.mirror p f).mp hp) hstop
    | some stop =>
      simp only
      have hwalk : ∀ p, computeIdomForest cfg p ≠ none →
          (x ∈ walkUp (computeIdomForest cfg) stop cfg.blocks.length p ↔
            Ancestor (computeIdomForest cfg) x p ∧ ¬ (Ancestor (computeIdomForest cfg) stop p ∧
                Ancestor (computeIdomForest cfg) x stop)) :=
        fun p hp => mem_walkUp h _ p (h.bound p hp)
      constructor
      · rintro ⟨-, hx⟩
        split at hx
        · exact absurd hx not_mem_nil
        · obtain ⟨p, hp, hx⟩ := mem_flatMap.mp hx
          obtain ⟨hpf, hreached⟩ := (hfilter p).mp hp
          obtain ⟨hxp, hn⟩ := (hwalk p hreached).mp hx
          exact ⟨p, hpf, hreached, hxp, .inr ⟨stop, rfl, hn⟩⟩
      · rintro ⟨p, hpf, hreached, hxp, hcases⟩
        obtain ⟨stop', hstop', hn⟩ := hcases.resolve_left hf
        obtain rfl := Option.some.inj hstop'
        have hp := (hfilter p).mpr ⟨hpf, hreached⟩
        refine ⟨h.inside f (by rw [hstop]; exact Option.some_ne_none _), ?_⟩
        split
        · next hfew =>
          -- a single reached predecessor is the parent
          exfalso
          have honly : ∀ q ∈ cfg.preds f, computeIdomForest cfg q ≠ none → q = p := by
            intro q hq hqr
            have hq' := (hfilter q).mpr ⟨hq, hqr⟩
            have hlen : ((cfg.preds f).filter fun p =>
                (computeIdomForest cfg p).isSome).length = 1 := by
              have := length_pos_of_mem hp
              omega
            obtain ⟨y, hy⟩ := length_eq_one_iff.mp hlen
            rw [hy, mem_singleton] at hp hq'
            exact hq'.trans hp.symm
          by_cases hself : stop = f
          · subst hself
            obtain ⟨q, hq, hqr, hnq⟩ := h.top stop hstop hf (ne_nil_of_mem hpf) p
            obtain rfl := honly q hq hqr
            exact hnq (.self _)
          · have hmeet := h.meet f stop hstop hself
            have hstopp := hmeet.anc p ⟨hpf, hreached⟩
            refine hn ⟨hstopp, hxp.trans (hmeet.nearest p ?_)⟩
            rintro q ⟨hq, hqr⟩
            rw [honly q hq hqr]
            exact .self _
        · exact mem_flatMap.mpr ⟨p, hp, (hwalk p hreached).mpr ⟨hxp, hn⟩⟩

theorem frontier_lt (hwf : cfg.WellFormed) (hne : cfg.blocks ≠ []) :
    ∀ x, ∀ f ∈ frontier cfg x, f < cfg.blocks.length := by
  intro x f hf
  rcases mem_append.mp hf with hf | hf
  · exact mem_range.mp (mem_of_mem_filter hf)
  · split at hf
    · rw [mem_singleton.mp hf]
      exact hwf.entry_lt hne
    · exact absurd hf not_mem_nil

def Defines (cfg : ControlFlowGraph) (k : Slot) (b : ℕ) : Prop :=
  k ∈ written cfg b ∨ k ∈ phisOf cfg b

theorem mem_globalSlots (hb : b < cfg.blocks.length) (hk : k ∈ exposed cfg b) :
    k ∈ globalSlots cfg := by
  unfold globalSlots
  rw [mem_insertionSort, mem_dedup, mem_flatMap]
  exact ⟨b, mem_range.mpr hb, hk⟩

theorem mem_phisOf : k ∈ phisOf cfg b ↔
    k ∈ globalSlots cfg ∧ b ∈ place (frontier cfg) cfg.blocks.length (defSites cfg k) := by
  unfold phisOf
  rw [mem_filter, decide_eq_true_eq]

theorem mem_defSites : b ∈ defSites cfg k ↔ b < cfg.blocks.length ∧ k ∈ written cfg b := by
  unfold defSites
  rw [mem_filter, mem_range, decide_eq_true_eq]

theorem written_lt (h : k ∈ written cfg b) : b < cfg.blocks.length := by
  by_contra hge
  have hblock : cfg.block b = default := getD_eq_default _ _ (Nat.le_of_not_lt hge)
  unfold written blockCode at h
  rw [hblock] at h
  exact absurd h not_mem_nil

theorem phi_of_frontier (hwf : cfg.WellFormed) (hne : cfg.blocks ≠ []) {x f : ℕ}
    (hk : k ∈ globalSlots cfg) (hx : Defines cfg k x) (hf : f ∈ frontier cfg x) :
    k ∈ phisOf cfg f := by
  refine mem_phisOf.mpr ⟨hk, place_closed (frontier_lt hwf hne) ?_ hf⟩
  rcases hx with hx | hx
  · exact .inl (mem_defSites.mpr ⟨written_lt hx, hx⟩)
  · exact .inr (mem_phisOf.mp hx).2

theorem anc_of_no_phi (hwf : cfg.WellFormed) (hne : cfg.blocks ≠ [])
    (h : IsForest cfg order (computeIdomForest cfg)) {z p f : ℕ} (hk : k ∈ globalSlots cfg)
    (hz : Defines cfg k z) (hzp : Ancestor (computeIdomForest cfg) z p) (hp : p ∈ cfg.preds f)
    (hreached : computeIdomForest cfg p ≠ none) (hno : k ∉ phisOf cfg f) :
    f ≠ cfg.entryBlock ∧ ∃ stop, computeIdomForest cfg f = some stop ∧
      Ancestor (computeIdomForest cfg) stop p ∧ Ancestor (computeIdomForest cfg) z stop := by
  have hnot : f ∉ frontier cfg z := fun hf => hno (phi_of_frontier hwf hne hk hz hf)
  rw [mem_frontier hwf.mirrored hne h] at hnot
  have hfe : f ≠ cfg.entryBlock := fun hfe => hnot ⟨p, hp, hreached, hzp, .inl hfe⟩
  have hfr := h.succ p f hreached ((hwf.mirror p f).mp hp)
  obtain ⟨stop, hstop⟩ := Option.ne_none_iff_exists'.mp hfr
  refine ⟨hfe, stop, hstop, ?_⟩
  by_contra hc
  exact hnot ⟨p, hp, hreached, hzp, .inr ⟨stop, hstop, hc⟩⟩

end Frontier

end PhiPlacement
