import Reargo.ControlFlow
import Reargo.Dominance

/-!
# Dominators as sets

The dominators of every block as the largest sets that satisfy the data-flow equation,
from all blocks downwards. The sets of unreached blocks stay full, so as predecessors
they leave an intersection as it is.

Rounds visit the items in order until one changes nothing. When every change lowers a
measure, enough rounds end in a state that no visit changes.
-/
namespace ChangeRounds

variable {σ ι : Type*}

/-- One round, and whether it changed something. -/
def round (visit : σ → ι → Option σ) (items : List ι) (start : σ) : σ × Bool :=
  items.foldl (fun st x => match visit st.1 x with | none => st | some s => (s, true)) (start, false)

def rounds (visit : σ → ι → Option σ) (items : List ι) : ℕ → σ → σ
  | 0, s => s
  | fuel + 1, s =>
    let r := round visit items s
    if r.2 then rounds visit items fuel r.1 else r.1

/-- No visit changes the state. -/
def Stable (visit : σ → ι → Option σ) (items : List ι) (s : σ) : Prop := ∀ x ∈ items, visit s x = none

structure Lowers (visit : σ → ι → Option σ) (items : List ι) (Inv : σ → Prop) (measure : σ → ℕ) :
    Prop where
  keeps : ∀ s s' x, x ∈ items → Inv s → visit s x = some s' → Inv s'
  lower : ∀ s s' x, x ∈ items → Inv s → visit s x = some s' → measure s' < measure s

variable {visit : σ → ι → Option σ} {items : List ι} {Inv : σ → Prop} {measure : σ → ℕ}

theorem foldl_spec (h : Lowers visit items Inv measure) (rest : List ι) (hsub : ∀ x ∈ rest, x ∈ items)
    (st : σ × Bool) (hinv : Inv st.1) :
    let r := rest.foldl
      (fun st x => match visit st.1 x with | none => st | some s => (s, true)) st
    Inv r.1 ∧ ((r = st ∧ Stable visit rest st.1) ∨ (r.2 = true ∧ measure r.1 < measure st.1)) := by
  induction rest generalizing st with
  | nil => exact ⟨hinv, .inl ⟨rfl, fun x hx => absurd hx List.not_mem_nil⟩⟩
  | cons x rest ih =>
    have hrest : ∀ y ∈ rest, y ∈ items := fun y hy => hsub y (List.mem_cons_of_mem _ hy)
    simp only [List.foldl_cons]
    cases hv : visit st.1 x with
    | none =>
      obtain ⟨hend, hcases⟩ := ih hrest st hinv
      refine ⟨hend, ?_⟩
      rcases hcases with ⟨heq, hstable⟩ | hlt
      · refine .inl ⟨heq, ?_⟩
        intro y hy
        rcases List.mem_cons.mp hy with rfl | hy
        · exact hv
        · exact hstable y hy
      · exact .inr hlt
    | some s =>
      have hx := hsub x List.mem_cons_self
      have hlower := h.lower st.1 s x hx hinv hv
      obtain ⟨hend, hcases⟩ := ih hrest (s, true) (h.keeps st.1 s x hx hinv hv)
      refine ⟨hend, .inr ?_⟩
      rcases hcases with ⟨heq, -⟩ | ⟨htrue, hlt⟩
      · rw [heq]
        exact ⟨rfl, hlower⟩
      · exact ⟨htrue, Nat.lt_trans hlt hlower⟩

theorem rounds_spec (h : Lowers visit items Inv measure) (fuel : ℕ) (s : σ) (hinv : Inv s)
    (hfuel : measure s < fuel) :
    Inv (rounds visit items fuel s) ∧ Stable visit items (rounds visit items fuel s) := by
  induction fuel generalizing s with
  | zero => omega
  | succ fuel ih =>
    obtain ⟨hend, hcases⟩ := foldl_spec h items (fun _ hx => hx) (s, false) hinv
    rw [rounds]
    rcases hcases with ⟨heq, hstable⟩ | ⟨htrue, hlt⟩
    · have hround : round visit items s = (s, false) := heq
      simp only [hround, Bool.false_eq_true, if_false]
      exact ⟨hinv, hstable⟩
    · have htrue' : (round visit items s).2 = true := htrue
      have hlt' : measure (round visit items s).1 < measure s := hlt
      simp only [htrue', if_true]
      exact ih _ hend (by omega)

end ChangeRounds

namespace SetDominators

open ControlFlow Dominance List Function Finset

abbrev DomSets := ℕ → Finset ℕ

def newDom (cfg : ControlFlowGraph) (dom : DomSets) (i : ℕ) : Finset ℕ :=
  insert i ((cfg.preds i).foldl (fun acc pred => acc ∩ dom pred) (Finset.range cfg.blocks.length))

def visitDom (cfg : ControlFlowGraph) (dom : DomSets) (i : ℕ) : Option DomSets :=
  if i = cfg.entryBlock then none
  else if newDom cfg dom i ≠ dom i then some (Function.update dom i (newDom cfg dom i))
  else none

def fullSets (cfg : ControlFlowGraph) : DomSets := fun i =>
  if i = cfg.entryBlock then {cfg.entryBlock} else Finset.range cfg.blocks.length

def dominators (cfg : ControlFlowGraph) : DomSets :=
  ChangeRounds.rounds (visitDom cfg) (List.range cfg.blocks.length)
    (cfg.blocks.length * cfg.blocks.length + 1) (fullSets cfg)

/-- The last of the elements with the largest key. -/
def maxByKey (key : ℕ → ℕ) (xs : List ℕ) : Option ℕ :=
  xs.foldl (fun best x =>
    match best with
    | none => some x
    | some m => if key m ≤ key x then some x else some m) none

/-- The strict dominator with the largest set. -/
def referenceIdom (cfg : ControlFlowGraph) (b : ℕ) : Option ℕ :=
  if b = cfg.entryBlock then some b
  else
    maxByKey (fun d => (dominators cfg d).card)
      (((dominators cfg b).sort (· ≤ ·)).filter fun d => d ≠ b)

def FlowEdge (cfg : ControlFlowGraph) (p s : ℕ) : Prop := s ∈ cfg.succs p

variable {cfg : ControlFlowGraph} {dom : DomSets}

theorem mem_newDom {i d : ℕ} :
    d ∈ newDom cfg dom i ↔ d = i ∨ (d < cfg.blocks.length ∧ ∀ p ∈ cfg.preds i, d ∈ dom p) := by
  have hfold : ∀ (ps : List ℕ) (acc : Finset ℕ),
      d ∈ ps.foldl (fun acc pred => acc ∩ dom pred) acc ↔ d ∈ acc ∧ ∀ p ∈ ps, d ∈ dom p := by
    intro ps
    induction ps with
    | nil => simp
    | cons p ps ih =>
      intro acc
      rw [foldl_cons, ih]
      simp only [mem_inter, List.forall_mem_cons, and_assoc]
  unfold newDom
  rw [Finset.mem_insert, hfold, Finset.mem_range]

/-- What holds of the sets throughout: they hold every dominator, and the equation can only
take blocks out. -/
structure Above (cfg : ControlFlowGraph) (dom : DomSets) : Prop where
  entry : dom cfg.entryBlock = {cfg.entryBlock}
  inside : ∀ i, i < cfg.blocks.length → dom i ⊆ Finset.range cfg.blocks.length
  shrinks : ∀ i, i < cfg.blocks.length → i ≠ cfg.entryBlock → newDom cfg dom i ⊆ dom i
  holds : ∀ i d, i < cfg.blocks.length → d < cfg.blocks.length →
    Dominates (FlowEdge cfg) cfg.entryBlock d i → d ∈ dom i

def totalSize (cfg : ControlFlowGraph) (dom : DomSets) : ℕ :=
  ∑ i ∈ Finset.range cfg.blocks.length, (dom i).card

theorem newDom_mono (cfg : ControlFlowGraph) {dom' : DomSets} (h : ∀ i, dom' i ⊆ dom i) (i : ℕ) :
    newDom cfg dom' i ⊆ newDom cfg dom i := by
  intro d hd
  rcases mem_newDom.mp hd with rfl | ⟨hlt, hall⟩
  · exact mem_newDom.mpr (.inl rfl)
  · exact mem_newDom.mpr (.inr ⟨hlt, fun p hp => h p (hall p hp)⟩)

theorem Above.update (hm : cfg.Mirrored) (h : Above cfg dom) {i : ℕ}
    (hi : i < cfg.blocks.length) (hie : i ≠ cfg.entryBlock) :
    Above cfg (Function.update dom i (newDom cfg dom i)) := by
  have hsub : ∀ j, Function.update dom i (newDom cfg dom i) j ⊆ dom j := by
    intro j
    by_cases hji : j = i
    · rw [hji, update_self]
      exact h.shrinks i hi hie
    · rw [update_of_ne hji]
  constructor
  · rw [update_of_ne hie.symm]
    exact h.entry
  · intro j hj
    exact (hsub j).trans (h.inside j hj)
  · intro j hj hje
    have hmono := newDom_mono cfg hsub j
    by_cases hji : j = i
    · rw [hji, update_self]
      rw [hji] at hmono
      exact hmono
    · rw [update_of_ne hji]
      exact hmono.trans (h.shrinks j hj hje)
  · intro j d hj hd hdom
    by_cases hji : j = i
    · subst hji
      rw [update_self]
      by_cases hdj : d = j
      · exact mem_newDom.mpr (.inl hdj)
      · refine mem_newDom.mpr (.inr ⟨hd, ?_⟩)
        intro p hp
        exact h.holds p d (hm.pred_lt hp) hd (hdom.pred hdj ((hm.mirror p j).mp hp))
    · rw [update_of_ne hji]
      exact h.holds j d hj hd hdom

theorem above_fullSets : Above cfg (fullSets cfg) := by
  have hfull : ∀ i, i ≠ cfg.entryBlock → fullSets cfg i = Finset.range cfg.blocks.length :=
    fun i hi => if_neg hi
  have hentry : fullSets cfg cfg.entryBlock = {cfg.entryBlock} := if_pos rfl
  constructor
  · exact hentry
  · intro i hi
    by_cases hie : i = cfg.entryBlock
    · rw [hie, hentry, singleton_subset_iff, Finset.mem_range]
      exact hie ▸ hi
    · rw [hfull i hie]
  · intro i hi hie
    rw [hfull i hie]
    intro d hd
    rcases mem_newDom.mp hd with rfl | ⟨hlt, -⟩
    · exact Finset.mem_range.mpr hi
    · exact Finset.mem_range.mpr hlt
  · intro i d _ hd hdom
    by_cases hie : i = cfg.entryBlock
    · subst hie
      rw [hentry, hdom.eq_root]
      exact Finset.mem_singleton_self _
    · rw [hfull i hie]
      exact Finset.mem_range.mpr hd

theorem visitDom_lowers (hm : cfg.Mirrored) :
    ChangeRounds.Lowers (visitDom cfg) (List.range cfg.blocks.length) (Above cfg) (totalSize cfg) := by
  have hvisit : ∀ dom dom' i, visitDom cfg dom i = some dom' →
      i ≠ cfg.entryBlock ∧ newDom cfg dom i ≠ dom i ∧
        dom' = update dom i (newDom cfg dom i) := by
    intro dom dom' i hv
    unfold visitDom at hv
    split at hv
    · cases hv
    · next hie =>
      split at hv
      · next hne => exact ⟨hie, hne, (Option.some.inj hv).symm⟩
      · cases hv
  constructor
  · intro dom dom' i hi h hv
    obtain ⟨hie, -, rfl⟩ := hvisit dom dom' i hv
    exact h.update hm (List.mem_range.mp hi) hie
  · intro dom dom' i hi h hv
    obtain ⟨hie, hne, rfl⟩ := hvisit dom dom' i hv
    have hlt := List.mem_range.mp hi
    have hssub : newDom cfg dom i ⊂ dom i := (h.shrinks i hlt hie).ssubset_of_ne hne
    unfold totalSize
    refine sum_lt_sum ?_ ⟨i, Finset.mem_range.mpr hlt, ?_⟩
    · intro j _
      by_cases hji : j = i
      · rw [hji, update_self]
        exact card_le_card hssub.subset
      · rw [update_of_ne hji]
    · rw [update_self]
      exact card_lt_card hssub

theorem totalSize_le (h : Above cfg dom) :
    totalSize cfg dom ≤ cfg.blocks.length * cfg.blocks.length := by
  have hle : ∀ i ∈ Finset.range cfg.blocks.length, (dom i).card ≤ cfg.blocks.length := by
    intro i hi
    have hcard := card_le_card (h.inside i (Finset.mem_range.mp hi))
    rwa [card_range] at hcard
  have hsum := sum_le_card_nsmul _ _ _ hle
  rwa [card_range, smul_eq_mul] at hsum

theorem mem_dominators (hm : cfg.Mirrored) {b d : ℕ} (hlt : b < cfg.blocks.length)
    (hb : Reached (FlowEdge cfg) cfg.entryBlock b) :
    d ∈ dominators cfg b ↔ Dominates (FlowEdge cfg) cfg.entryBlock d b := by
  obtain ⟨habove, hstable⟩ := ChangeRounds.rounds_spec (visitDom_lowers hm)
    (cfg.blocks.length * cfg.blocks.length + 1) (fullSets cfg) above_fullSets
    (Nat.lt_succ_of_le (totalSize_le above_fullSets))
  have hequation : ∀ i, i < cfg.blocks.length → i ≠ cfg.entryBlock →
      newDom cfg (dominators cfg) i = dominators cfg i := by
    intro i hi hie
    have hnone : visitDom cfg (dominators cfg) i = none := hstable i (List.mem_range.mpr hi)
    by_contra hne
    rw [visitDom, if_neg hie, if_pos hne] at hnone
    exact absurd hnone (Option.some_ne_none _)
  constructor
  · intro hd l hl
    clear hb
    induction hl with
    | root =>
      have hd' : d ∈ ({cfg.entryBlock} : Finset ℕ) := habove.entry ▸ hd
      exact List.mem_singleton.mpr (Finset.mem_singleton.mp hd')
    | @step p s l hp hps ih =>
      have hps' : s ∈ cfg.succs p := hps
      by_cases hse : s = cfg.entryBlock
      · subst hse
        have hd' : d ∈ ({cfg.entryBlock} : Finset ℕ) := habove.entry ▸ hd
        rw [Finset.mem_singleton.mp hd']
        exact List.mem_cons_self
      · rw [← hequation s hlt hse] at hd
        rcases mem_newDom.mp hd with rfl | ⟨-, hall⟩
        · exact List.mem_cons_self
        · exact List.mem_cons_of_mem _
            (ih (lt_of_mem_succs hps') (hall p ((hm.mirror p s).mpr hps')))
  · intro hdom
    have hdr : Reached (FlowEdge cfg) cfg.entryBlock d := hdom.reached hb
    have hdlt : d < cfg.blocks.length := by
      refine hdr.induct ?_ fun x y _ _ hxy => hm.succ_lt hxy
      exact hm.entry_lt (by
        rintro hnil
        rw [hnil] at hlt
        exact absurd hlt (Nat.not_lt_zero b))
    exact habove.holds b d hlt hdlt hdom

end SetDominators
