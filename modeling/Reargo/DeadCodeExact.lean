import Reargo.DeadCode

/-!
# What dead-code elimination leaves

No operation that one with an effect needs dies. With exact uses and linked definitions the
operations left are the needed ones, in whatever order they stand, when every cycle of readers
meets a phi: only then does the second phase run.
-/
namespace DeadCodeExact

open SsaModel Worklist DeadCode List Finset

structure Dropped (f₀ : SsaFunction) (live : List Bool) (is : List ℕ) (r r' : SsaFunction × ℕ) :
    Prop where
  thins : Thins f₀ r'.1
  count : r'.2 + deadCount r.1 = r.2 + deadCount r'.1
  dead_iff : ∀ i, (r'.1.op i).dead = true ↔
    (r.1.op i).dead = true ∨ (i ∈ is ∧ marked live i = false)

variable {f₀ : SsaFunction} {i : ℕ}

theorem dropped_foldl (live : List Bool) (is : List ℕ) (r : SsaFunction × ℕ)
    (h : Thins f₀ r.1) (hin : ∀ i ∈ is, i < f₀.ops.length)
    (hcand : ∀ i ∈ is, marked live i = false → (r.1.op i).dead = false →
      candidate (r.1.op i) = true) :
    Dropped f₀ live is r (is.foldl (dropUnmarked live) r) := by
  induction is generalizing r with
  | nil =>
    refine ⟨h, rfl, fun i => ?_⟩
    exact (or_iff_left fun hi => not_mem_nil hi.1).symm
  | cons x is ih =>
    have hrest : ∀ i ∈ is, i < f₀.ops.length := fun i hi => hin i (mem_cons_of_mem _ hi)
    rw [foldl_cons]
    by_cases hx : marked live x = false ∧ (r.1.op x).dead = false
    · have hxin : x < r.1.ops.length := by
        rw [h.length]
        exact hin x mem_cons_self
      have hdrop : dropUnmarked live r x = (kill r.1 x, r.2 + 1) := if_pos hx
      have hkill := h.kill hxin (hcand x mem_cons_self hx.1 hx.2)
      rw [hdrop]
      have hend := ih (kill r.1 x, r.2 + 1) hkill hrest ?_
      · refine ⟨hend.thins, ?_, fun i => ?_⟩
        · have hcount := hend.count
          have hstep := deadCount_kill hxin hx.2
          simp only at hcount
          omega
        · rw [hend.dead_iff, dead_kill hxin]
          constructor
          · rintro ((rfl | hd) | ⟨hi, hm⟩)
            · exact .inr ⟨mem_cons_self, hx.1⟩
            · exact .inl hd
            · exact .inr ⟨mem_cons_of_mem _ hi, hm⟩
          · rintro (hd | ⟨hi, hm⟩)
            · exact .inl (.inr hd)
            · rcases List.mem_cons.mp hi with rfl | hi
              · exact .inl (.inl rfl)
              · exact .inr ⟨hi, hm⟩
      · intro i hi hm hlive
        have hix : i ≠ x := by
          rintro rfl
          exact absurd (((dead_kill hxin i).mpr (.inl rfl)).symm.trans hlive) (by decide)
        refine (candidate_kill hxin i).mpr ⟨hix, hcand i (mem_cons_of_mem _ hi) hm ?_⟩
        have hsame : ((kill r.1 x).op i).dead = (r.1.op i).dead := by
          rw [op_kill hxin, if_neg hix]
        exact hsame.symm.trans hlive
    · have hdrop : dropUnmarked live r x = r := if_neg hx
      rw [hdrop]
      have hend := ih r h hrest fun i hi => hcand i (mem_cons_of_mem _ hi)
      refine ⟨hend.thins, hend.count, fun i => ?_⟩
      rw [hend.dead_iff, List.mem_cons]
      constructor
      · exact fun hi => hi.imp_right fun hi => ⟨.inr hi.1, hi.2⟩
      · rintro (hd | ⟨rfl | hi, hm⟩)
        · exact .inl hd
        · left
          by_contra hlive
          exact hx ⟨hm, Bool.eq_false_iff.mpr hlive⟩
        · exact .inr ⟨hi, hm⟩

theorem count_true_eq {marks : List Bool} {n : ℕ} (hlen : marks.length = n) :
    marks.count true = ((Finset.range n).filter fun i => marked marks i = true).card := by
  have hmarks : marks = (List.range n).map fun i => marked marks i := by
    apply ext_getElem
    · rw [length_map, length_range, hlen]
    · intro i hi _
      rw [getElem_map, getElem_range, marked, getD_eq_getElem _ _ hi]
  have hcount : marks.count true = ((List.range n).filter fun i => marked marks i).length := by
    conv_lhs => rw [hmarks]
    rw [List.count, countP_map, countP_eq_length_filter]
    congr 1
    refine filter_congr fun i _ => ?_
    simp
  rw [hcount]
  simp [Finset.card, Finset.filter, Finset.range, Multiset.range]

theorem deadCount_add_living (f : SsaFunction) :
    ((Finset.range f.ops.length).filter fun i => (f.op i).dead = false).card + deadCount f =
      f.ops.length := by
  have hsplit := card_filter_add_card_filter_not (s := Finset.range f.ops.length)
    (fun i => (f.op i).dead = false)
  rw [card_range] at hsplit
  simp only [Bool.not_eq_false] at hsplit
  exact hsplit

section Phase

variable {st : Sweep} (h : SweepOk f₀ st) (hend : st.sweep = st.func.ops.length)
include h hend

theorem living_eq : st.func.ops.length - st.deadBefore - st.removed =
    ((Finset.range st.func.ops.length).filter fun i => (st.func.op i).dead = false).card := by
  have hsplit := deadCount_add_living st.func
  have hcount := h.count
  have hbefore : st.deadBefore = deadCount f₀ := by
    rw [h.before, hend, h.thins.length]
    rfl
  omega

theorem marked_of_no_drop (hno : ¬ (markNeeded st.func st.roots).count true <
    st.func.ops.length - st.deadBefore - st.removed) (hi : i < f₀.ops.length)
    (hlive : (st.func.op i).dead = false) : marked (markNeeded st.func st.roots) i = true := by
  have hlen := h.thins.length
  rw [living_eq h hend, count_true_eq (length_markNeeded h hend)] at hno
  by_contra hm
  refine hno (card_lt_card ⟨?_, ?_⟩)
  · intro j hj
    obtain ⟨hjn, hjm⟩ := Finset.mem_filter.mp hj
    have hjn' := Finset.mem_range.mp hjn
    exact Finset.mem_filter.mpr ⟨hjn, lives_of_marked h hend (by omega) hjm⟩
  · intro hsub
    have hmem := hsub (Finset.mem_filter.mpr ⟨Finset.mem_range.mpr (by omega), hlive⟩)
    exact hm (Finset.mem_filter.mp hmem).2

theorem dropPhase_spec :
    Thins f₀ (dropPhase st).1 ∧ (dropPhase st).2 + deadCount f₀ = deadCount (dropPhase st).1 ∧
      ∀ i, i < f₀.ops.length → (((dropPhase st).1.op i).dead = false ↔
        marked (markNeeded st.func st.roots) i = true) := by
  have hlen := h.thins.length
  unfold dropPhase
  simp only
  split
  · have hcand : ∀ i ∈ List.range st.func.ops.length,
        marked (markNeeded st.func st.roots) i = false → (st.func.op i).dead = false →
          candidate (st.func.op i) = true := by
      intro i hi hm hlive
      have hi' := List.mem_range.mp hi
      by_contra hc
      have hroot : IsRoot f₀ i := by
        rw [IsRoot.iff_candidate]
        refine ⟨by omega, h.thins.lives hlive, Bool.eq_false_iff.mpr fun hc₀ => hc ?_⟩
        exact (h.thins.candidate_iff i).mpr ⟨hc₀, hlive⟩
      rw [(marked_markNeeded h hend (by omega)).mpr ⟨i, hroot, .refl⟩] at hm
      cases hm
    have hdrop := dropped_foldl (markNeeded st.func st.roots) (List.range st.func.ops.length)
      (st.func, st.removed) h.thins
      (fun i hi => by have hi' := List.mem_range.mp hi; omega) hcand
    refine ⟨hdrop.thins, ?_, fun i hi => ?_⟩
    · have hcount := hdrop.count
      have hold := h.count
      simp only at hcount
      omega
    · have hiff := hdrop.dead_iff i
      have hmem : i ∈ List.range st.func.ops.length := List.mem_range.mpr (by omega)
      constructor
      · intro hlive
        by_contra hm
        rw [hiff.mpr (.inr ⟨hmem, Bool.eq_false_iff.mpr hm⟩)] at hlive
        cases hlive
      · intro hm
        rw [Bool.eq_false_iff]
        intro hdead
        rcases hiff.mp hdead with hd | ⟨-, hm'⟩
        · exact absurd (hd.symm.trans (lives_of_marked h hend hi hm)) (by decide)
        · exact absurd (hm'.symm.trans hm) (by decide)
  · next hno =>
    refine ⟨h.thins, h.count, fun i hi => ?_⟩
    exact ⟨marked_of_no_drop h hend hno hi, lives_of_marked h hend hi⟩

end Phase

def withoutPhantoms (func : SsaFunction) : SsaFunction := { func with phantomWrites := [] }

/-- The state at the end of the first phase. -/
def swept (func : SsaFunction) : Sweep :=
  runSweep (sweepBound (withoutPhantoms func)) (startSweep (withoutPhantoms func))

theorem deadCodeElimination_eq (func : SsaFunction) : deadCodeElimination func =
    if 0 < (swept func).livePhis then dropPhase (swept func)
    else ((swept func).func, (swept func).removed) := rfl

theorem swept_spec {P : Sweep → Prop} (func : SsaFunction)
    (hP : ∀ st st', SweepOk (withoutPhantoms func) st → P st → step st = some st' → P st')
    (hstart : P (startSweep (withoutPhantoms func))) :
    SweepOk (withoutPhantoms func) (swept func) ∧ P (swept func) ∧
      (swept func).sweep = (swept func).func.ops.length ∧ (swept func).queue = [] :=
  runSweep_spec hP _ _ (sweepOk_start _) hstart (stepsLeft_start _)

theorem thins_deadCodeElimination (func : SsaFunction) :
    Thins (withoutPhantoms func) (deadCodeElimination func).1 ∧
      (deadCodeElimination func).2 + deadCount func = deadCount (deadCodeElimination func).1 := by
  obtain ⟨h, -, hend, -⟩ := swept_spec (P := fun _ => True) func (fun _ _ _ _ _ => trivial) trivial
  rw [deadCodeElimination_eq]
  split
  · obtain ⟨hthins, hcount, -⟩ := dropPhase_spec h hend
    exact ⟨hthins, hcount⟩
  · exact ⟨h.thins, h.count⟩

variable {func : SsaFunction}

theorem needed_lives (huses : UsesContain func)
    (hi : Needed func i) : ((deadCodeElimination func).1.op i).dead = false := by
  obtain ⟨h, -, hend, -⟩ := swept_spec (P := fun _ => True) func (fun _ _ _ _ _ => trivial) trivial
  have hi' : Needed (withoutPhantoms func) i := hi
  rw [deadCodeElimination_eq]
  split
  · obtain ⟨-, -, hiff⟩ := dropPhase_spec h hend
    exact (hiff i hi'.lives.1).mpr (marked_of_needed h hend huses hi')
  · exact h.spares huses hi'

theorem phi_free {k : ℕ} (hzero : phisBelow func k = 0) (hi : i < k)
    (hc : candidate (func.op i) = true) : (func.op i).opcode ≠ .multiEqual := by
  intro hphi
  have hterm := (Finset.sum_eq_zero_iff.mp hzero) i (Finset.mem_range.mpr hi)
  rw [if_pos hc, phiCount, if_pos hphi] at hterm
  cases hterm

theorem exists_cycle {n : ℕ} {R : ℕ → ℕ → Prop} {P : ℕ → Prop} (hfin : ∀ i, P i → i < n)
    (hpred : ∀ i, P i → ∃ u, P u ∧ R u i) (hi : P i) : ∃ d, Relation.TransGen R d d := by
  by_contra hno
  rw [not_exists] at hno
  let S : Fin n → Fin n → Prop := fun a b => Relation.TransGen R a.1 b.1
  have hwf : WellFounded S := by
    have htrans : IsTrans (Fin n) S := ⟨fun _ _ _ hab hbc => hab.trans hbc⟩
    have hirrefl : Std.Irrefl S := ⟨fun a => hno a.1⟩
    exact Finite.wellFounded_of_trans_of_irrefl S
  obtain ⟨m, hm, hmin⟩ := hwf.has_min {a : Fin n | P a.1} ⟨⟨i, hfin i hi⟩, hi⟩
  obtain ⟨u, hu, hum⟩ := hpred m.1 hm
  exact hmin ⟨u, hfin u hu⟩ hu (.single hum)

theorem settled_swept (huses : UsesExact func) (hlinked : Linked func) :
    SweepOk (withoutPhantoms func) (swept func) ∧ Settled (swept func) ∧
      (swept func).sweep = (swept func).func.ops.length ∧ (swept func).queue = [] := by
  have huses' : UsesExact (withoutPhantoms func) := huses
  have hlinked' : Linked (withoutPhantoms func) := hlinked
  exact swept_spec func (fun _ _ hst hs hstep => settled_step huses' hlinked' hst hs hstep)
    fun j hj => absurd hj (Nat.not_lt_zero j)

/-- The second phase leaves the needed operations. -/
theorem needed_of_dropped (huses : UsesExact func) (hlinked : Linked func)
    (hphis : 0 < (swept func).livePhis) (hi : i < func.ops.length)
    (hlive : ((deadCodeElimination func).1.op i).dead = false) : Needed func i := by
  obtain ⟨h, -, hend, -⟩ := settled_swept huses hlinked
  have hlinked' : Linked (withoutPhantoms func) := hlinked
  rw [deadCodeElimination_eq, if_pos hphis] at hlive
  obtain ⟨-, -, hiff⟩ := dropPhase_spec h hend
  exact needed_of_marked h hend hlinked' hi ((hiff i hi).mp hlive)

theorem needed_of_lives (huses : UsesExact func) (hlinked : Linked func) (hcycles : PhiCycles func)
    (hi : i < func.ops.length)
    (hlive : ((deadCodeElimination func).1.op i).dead = false) : Needed func i := by
  have huses' : UsesExact (withoutPhantoms func) := huses
  have hlinked' : Linked (withoutPhantoms func) := hlinked
  obtain ⟨h, hsettled, hend, hempty⟩ := settled_swept huses hlinked
  by_cases hphis : 0 < (swept func).livePhis
  · exact needed_of_dropped huses hlinked hphis hi hlive
  · rw [deadCodeElimination_eq, if_neg hphis] at hlive
    -- without phis the operations that live unneeded would read one another in a cycle
    have hzero : phisBelow (swept func).func (swept func).sweep = 0 := by
      rw [← h.phis]
      omega
    have hbelow : ∀ j, j < func.ops.length → j < (swept func).sweep := by
      intro j hj
      rw [hend, h.thins.length]
      exact hj
    by_contra hnot
    have hcand : ∀ j, j < func.ops.length → ((swept func).func.op j).dead = false →
        ¬ Needed func j → candidate ((swept func).func.op j) = true := by
      intro j hj hjlive hjnot
      by_contra hc
      refine hjnot ⟨j, IsRoot.iff_candidate.mpr ⟨hj, h.thins.lives hjlive, ?_⟩, .refl⟩
      exact Bool.eq_false_iff.mpr fun hc₀ => hc ((h.thins.candidate_iff j).mpr ⟨hc₀, hjlive⟩)
    have hplain : ∀ j, j < func.ops.length → ((swept func).func.op j).dead = false →
        ¬ Needed func j → (func.op j).opcode ≠ .multiEqual := by
      intro j hj hjlive hjnot
      have hphi := phi_free hzero (hbelow j hj) (hcand j hj hjlive hjnot)
      rw [h.thins.opcode] at hphi
      exact hphi
    obtain ⟨d, hcycle⟩ := exists_cycle (n := func.ops.length)
      (R := fun u d => Needs func u d ∧ (func.op u).opcode ≠ .multiEqual ∧
        (func.op d).opcode ≠ .multiEqual)
      (P := fun j => j < func.ops.length ∧ ((swept func).func.op j).dead = false ∧ ¬ Needed func j)
      (fun j hj => hj.1) (fun j hj => by
        obtain ⟨u, hu, hulive, hneeds⟩ := reader_of_settled huses' hlinked' h hsettled hend
          hempty hj.1 (hcand j hj.1 hj.2.1 hj.2.2)
        have hunot : ¬ Needed func u := fun ⟨r, hr, hchain⟩ => hj.2.2 ⟨r, hr, hchain.tail hneeds⟩
        exact ⟨u, ⟨hu, hulive, hunot⟩, hneeds, hplain u hu hulive hunot,
          hplain j hj.1 hj.2.1 hj.2.2⟩)
      ⟨hi, hlive, hnot⟩
    exact hcycles d hcycle

/-- The operations that died in the pass. -/
def newlyDead (before after : SsaFunction) : Finset ℕ :=
  (Finset.range before.ops.length).filter fun i =>
    (before.op i).dead = false ∧ (after.op i).dead = true

theorem count_newlyDead (func : SsaFunction) :
    (deadCodeElimination func).2 = (newlyDead func (deadCodeElimination func).1).card := by
  obtain ⟨hthins, hcount⟩ := thins_deadCodeElimination func
  have hlen : (deadCodeElimination func).1.ops.length = func.ops.length := hthins.length
  have hsplit : (Finset.range func.ops.length).filter
        (fun i => ((deadCodeElimination func).1.op i).dead = true) =
      newlyDead func (deadCodeElimination func).1 ∪
        (Finset.range func.ops.length).filter fun i => (func.op i).dead = true := by
    ext i
    simp only [newlyDead, Finset.mem_filter, mem_union]
    constructor
    · rintro ⟨hi, hd⟩
      cases hold : (func.op i).dead with
      | false => exact .inl ⟨hi, rfl, hd⟩
      | true => exact .inr ⟨hi, rfl⟩
    · rintro (⟨hi, -, hd⟩ | ⟨hi, hd⟩)
      · exact ⟨hi, hd⟩
      · exact ⟨hi, hthins.mono i hd⟩
  have hdisjoint : Disjoint (newlyDead func (deadCodeElimination func).1)
      ((Finset.range func.ops.length).filter fun i => (func.op i).dead = true) := by
    rw [Finset.disjoint_left]
    intro i hi hi'
    have hlive := (Finset.mem_filter.mp hi).2.1
    exact absurd ((Finset.mem_filter.mp hi').2.symm.trans hlive) (by decide)
  have hcard := card_union_of_disjoint hdisjoint
  rw [← hsplit] at hcard
  unfold deadCount at hcount
  rw [hlen] at hcount
  omega

theorem needed_again (huses : UsesExact func) (hi : Needed func i) :
    Needed (deadCodeElimination func).1 i := by
  obtain ⟨hthins, -⟩ := thins_deadCodeElimination func
  have hlen : (deadCodeElimination func).1.ops.length = func.ops.length := hthins.length
  have hcontain : UsesContain func := fun o v _ hlive hv => (huses o v hlive).mpr hv
  obtain ⟨r, hr, hchain⟩ := hi
  refine ⟨r, ⟨hlen ▸ hr.1, needed_lives hcontain ⟨r, hr, .refl⟩, ?_⟩, ?_⟩
  · rw [hthins.opcode, hthins.output]
    exact hr.2.2
  · induction hchain with
    | refl => exact .refl
    | @tail o d hchain hneeds ih =>
      refine ih.tail ?_
      have hlive := needed_lives hcontain ⟨r, hr, hchain.tail hneeds⟩
      obtain ⟨hd, -, v, hv, hdef, hout⟩ := hneeds
      refine ⟨hlen ▸ hd, hlive, v, ?_, ?_, ?_⟩
      · rw [hthins.inputs]
        exact hv
      · rw [hthins.var]
        exact hdef
      · rw [hthins.output]
        exact hout

theorem visit_of_used {st : Sweep}
    (h : hasLiveUse st.func ((st.func.op i).output.getD 0) = true) : visit st i = st :=
  if_pos h

/-- Where every operation that may die has a live reader, none does in the first phase. -/
theorem swept_of_used (hused : ∀ i, candidate (func.op i) = true →
    hasLiveUse func ((func.op i).output.getD 0) = true) :
    (swept func).func = withoutPhantoms func := by
  refine (swept_spec (P := fun st => st.func = withoutPhantoms func ∧ st.queue = []) func ?_
    ⟨rfl, rfl⟩).2.1.1
  rintro ⟨f, onQueue, queue, removed, sweep, roots, livePhis, deadBefore⟩ st' - ⟨hfunc, hqueue⟩ hstep
  simp only at hfunc hqueue
  subst hfunc hqueue
  unfold step at hstep
  simp only at hstep
  split at hstep
  · split at hstep
    · next hc =>
      obtain rfl := Option.some.inj hstep
      rw [visit_of_used]
      · exact ⟨rfl, rfl⟩
      · exact hused sweep hc
    · split at hstep <;>
        obtain rfl := Option.some.inj hstep <;> exact ⟨rfl, rfl⟩
  · cases hstep

theorem second_run_zero_of_plain (huses : UsesExact func) (hlinked : Linked func)
    (hphis : ¬ 0 < (swept func).livePhis) :
    (deadCodeElimination (deadCodeElimination func).1).2 = 0 := by
  obtain ⟨h, hsettled, hend, hempty⟩ := settled_swept huses hlinked
  have hfirst : (deadCodeElimination func).1 = (swept func).func := by
    rw [deadCodeElimination_eq, if_neg hphis]
  have hzero : phisBelow (swept func).func (swept func).func.ops.length = 0 := by
    rw [← hend, ← h.phis]
    omega
  rw [hfirst, count_newlyDead]
  have hused (i : ℕ) (hc : candidate ((swept func).func.op i) = true) :
      hasLiveUse (swept func).func (((swept func).func.op i).output.getD 0) = true := by
    refine (hsettled i ?_ hc).resolve_left (by rw [hempty]; exact not_mem_nil)
    by_contra hge
    rw [hend] at hge
    have hop : (swept func).func.op i = default := getD_eq_default _ _ (Nat.le_of_not_lt hge)
    rw [hop] at hc
    cases hc
  generalize (swept func).func = f at hused hzero
  obtain ⟨h', -, hend', -⟩ := swept_spec (P := fun _ => True) f (fun _ _ _ _ _ => trivial) trivial
  have hidle : ¬ 0 < (swept f).livePhis := by
    rw [h'.phis, hend', swept_of_used hused]
    exact not_lt.mpr hzero.le
  rw [deadCodeElimination_eq, if_neg hidle, swept_of_used hused, card_eq_zero,
    eq_empty_iff_forall_notMem]
  intro i hi
  obtain ⟨-, hlive, hdead⟩ := Finset.mem_filter.mp hi
  exact absurd (hdead.symm.trans hlive) (by decide)

/-- A second run finds nothing dead, also where a cycle without phis was left. -/
theorem second_run_zero (huses : UsesExact func) (hlinked : Linked func) :
    (deadCodeElimination (deadCodeElimination func).1).2 = 0 := by
  by_cases hphis : 0 < (swept func).livePhis
  case neg => exact second_run_zero_of_plain huses hlinked hphis
  obtain ⟨hthins, -⟩ := thins_deadCodeElimination func
  have hlen : (deadCodeElimination func).1.ops.length = func.ops.length := hthins.length
  have hcontain : UsesContain (deadCodeElimination func).1 := by
    intro o v _ hlive hv
    rw [hthins.var]
    rw [hthins.inputs] at hv
    exact (huses o v (hthins.lives hlive)).mpr hv
  rw [count_newlyDead, card_eq_zero, eq_empty_iff_forall_notMem]
  intro i hi
  obtain ⟨hin, hlive, hdead⟩ := Finset.mem_filter.mp hi
  have hin' : i < func.ops.length := hlen ▸ Finset.mem_range.mp hin
  have hneeded := needed_again huses (needed_of_dropped huses hlinked hphis hin' hlive)
  exact absurd (hdead.symm.trans (needed_lives hcontain hneeded)) (by decide)

theorem usesExact_of_bounds (hall : ∀ o, o < func.ops.length → ∀ v, v < func.varnodes.length →
      (o ∈ (func.var v).uses ↔ v ∈ (func.op o).inputs))
    (hin : ∀ o, o < func.ops.length → ∀ v ∈ (func.op o).inputs, v < func.varnodes.length)
    (huse : ∀ v, v < func.varnodes.length → ∀ o ∈ (func.var v).uses, o < func.ops.length) :
    UsesExact func := by
  intro o v _
  by_cases hv : v < func.varnodes.length
  · by_cases ho : o < func.ops.length
    · exact hall o ho v hv
    · have hop : func.op o = default := getD_eq_default _ _ (Nat.le_of_not_lt ho)
      rw [hop]
      exact iff_of_false (fun h => ho (huse v hv o h)) not_mem_nil
  · have hvar : func.var v = default := getD_eq_default _ _ (Nat.le_of_not_lt hv)
    rw [hvar]
    refine iff_of_false not_mem_nil fun h => ?_
    by_cases ho : o < func.ops.length
    · exact hv (hin o ho v h)
    · have hop : func.op o = default := getD_eq_default _ _ (Nat.le_of_not_lt ho)
      rw [hop] at h
      exact not_mem_nil h

theorem linked_of_bounds (hall : ∀ d, d < func.ops.length → ∀ v, v < func.varnodes.length →
      ((func.op d).output = some v ↔ (func.var v).defOp = some d))
    (hout : ∀ d, d < func.ops.length → (func.op d).output.all (· < func.varnodes.length) = true)
    (hdef : ∀ v, v < func.varnodes.length → (func.var v).defOp.all (· < func.ops.length) = true) :
    Linked func := by
  intro d v _
  by_cases hv : v < func.varnodes.length
  · by_cases hd : d < func.ops.length
    · exact hall d hd v hv
    · have hop : func.op d = default := getD_eq_default _ _ (Nat.le_of_not_lt hd)
      rw [hop]
      refine iff_of_false (fun h => by cases h) fun h => ?_
      have hlt := hdef v hv
      rw [h] at hlt
      exact hd (of_decide_eq_true hlt)
  · have hvar : func.var v = default := getD_eq_default _ _ (Nat.le_of_not_lt hv)
    rw [hvar]
    refine iff_of_false (fun h => ?_) fun h => by cases h
    by_cases hd : d < func.ops.length
    · have hlt := hout d hd
      rw [h] at hlt
      exact hv (of_decide_eq_true hlt)
    · have hop : func.op d = default := getD_eq_default _ _ (Nat.le_of_not_lt hd)
      rw [hop] at h
      cases h

def plainCfg : ControlFlow.ControlFlowGraph := ⟨[], 0, [], OrderedMap.OrdMap.empty⟩

/-- A loop counter that only its own phi reads, and a store. -/
def idleCounter : SsaFunction where
  varnodes := [⟨⟨.register, 0, 8⟩, 1, some 0, [1]⟩, ⟨⟨.register, 0, 8⟩, 2, some 1, [0]⟩,
    ⟨⟨.register, 8, 8⟩, 0, none, [2]⟩]
  ops := [⟨.multiEqual, some 0, [1], 0, 0, false⟩, ⟨.int2Comp, some 1, [0], 0, 0, false⟩,
    ⟨.store, none, [2], 0, 4, false⟩]
  cfg := plainCfg
  phantomWrites := []
  phantomRegs := []

/-- A store reads a value whose definition link names an operation with another output. -/
def mislinked : SsaFunction where
  varnodes := [⟨⟨.register, 0, 8⟩, 1, some 0, []⟩, ⟨⟨.register, 8, 8⟩, 1, some 0, [1]⟩]
  ops := [⟨.int2Comp, some 0, [], 0, 0, false⟩, ⟨.store, none, [1], 0, 4, false⟩]
  cfg := plainCfg
  phantomWrites := []
  phantomRegs := []

/-- An operation that reads only its own output. -/
def selfReader : SsaFunction where
  varnodes := [⟨⟨.register, 0, 8⟩, 1, some 0, [0]⟩]
  ops := [⟨.int2Comp, some 0, [0], 0, 0, false⟩]
  cfg := plainCfg
  phantomWrites := []
  phantomRegs := []

end DeadCodeExact
