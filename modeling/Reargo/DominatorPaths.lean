import Reargo.Dominance
import Reargo.DominatorTree

/-!
# The tree of the iteration and the paths of the graph

No visit drops a dominator from the walk up: a node below another in the tree is reached
from it through later numbers, so what stands above both cannot be on that way. Hence the
ancestors of a node in the final tree are its dominators.
-/
namespace DominatorPaths

open Dominance DominatorTree Function List

/-- An edge of the graph given by its predecessor lists. -/
def Edge (preds : ℕ → List ℕ) (p s : ℕ) : Prop := p ∈ preds s

variable {preds : ℕ → List ℕ} {rpo : List ℕ} {entry : ℕ}

/-- Every dominator of a processed node is on the walk up from it. -/
def Keeps (preds : ℕ → List ℕ) (entry : ℕ) (J : Parents) : Prop :=
  ∀ x z, J x ≠ none → Dominates (Edge preds) entry z x → Ancestor J z x

/-- A way from one node to another through nodes numbered after the first. -/
def Onward (preds : ℕ → List ℕ) (rpo : List ℕ) (c x : ℕ) : Prop :=
  Relation.ReflTransGen (fun p s => Edge preds p s ∧ rpo.idxOf c < rpo.idxOf s) c x

theorem onward_of_ancestor {J : Parents} {m : ℕ} (hn : Numbering preds rpo entry)
    (ho : Ordered (fun x => rpo.idxOf x) entry J)
    (hbelow : ∀ x d q, rpo.idxOf x < m → x ≠ entry → J x = some d → q ∈ preds x →
      rpo.idxOf q < rpo.idxOf x → Ancestor J d q) {c x : ℕ} (hx : x ∈ rpo)
    (hlt : rpo.idxOf x < m) (h : Ancestor J c x) : Onward preds rpo c x := by
  induction hk : rpo.idxOf x using Nat.strong_induction_on generalizing x with
  | _ k ih =>
    by_cases hcx : c = x
    · exact hcx ▸ .refl
    · obtain ⟨d, hd, hcd⟩ := h.parent hcx
      have hxe : x ≠ entry := by
        rintro rfl
        exact hcx (ho.anc_entry h)
      obtain ⟨q, hq, hqlt⟩ := hn.forward x hx hxe
      have hcq : Ancestor J c q := hcd.trans (hbelow x d q hlt hxe hd hq hqlt)
      have hway := ih _ (hk ▸ hqlt) (mem_of_idxOf_lt hx hqlt) (by omega) hcq rfl
      exact hway.tail ⟨hq, (ho.anc_lt h).resolve_left hcx⟩

theorem progress_onward {I J : Parents} {k : ℕ} (hn : Numbering preds rpo entry)
    (hs : Settled preds rpo entry I) (h : Progress preds rpo entry I J k) {c x : ℕ}
    (hx : J x ≠ none) (hcx : Ancestor J c x) : Onward preds rpo c x := by
  have hmem := h.inside x hx
  by_cases hlt : rpo.idxOf x < k
  · exact onward_of_ancestor hn h.ordered h.below hmem hlt hcx
  · -- not visited in this round: the parents of the round before
    have hIx : I x ≠ none := by
      rw [← h.later x (by omega)]
      exact hx
    refine onward_of_ancestor hn hs.ordered ?_ hmem (Nat.lt_succ_self _) (h.shrink x c hIx hcx)
    intro y d q _ hye hd hq hqlt
    exact hs.below y d q hye hd hq hqlt

/-- The parent of a node stands below every dominator of the node. -/
theorem dominates_parent {J : Parents} {z c x : ℕ}
    (ho : Ordered (fun x => rpo.idxOf x) entry J) (hway : Onward preds rpo c x)
    (hzc : Ancestor J z c) (hzx : Dominates (Edge preds) entry z x) :
    Dominates (Edge preds) entry z c := by
  intro l hl
  by_contra hz
  have hzc' : z ≠ c := by
    rintro rfl
    exact hz hl.mem_last
  have hlt := (ho.anc_lt hzc).resolve_left hzc'
  have havoid : Relation.ReflTransGen (fun p s => Edge preds p s ∧ s ≠ z) c x := by
    refine Relation.ReflTransGen.mono ?_ _ _ hway
    rintro p s ⟨hps, hs⟩
    refine ⟨hps, ?_⟩
    rintro rfl
    exact lt_asymm hlt hs
  obtain ⟨l', hl', hz'⟩ := avoid_step ⟨l, hl, hz⟩ havoid
  exact hz' (hzx l' hl')

theorem Keeps.update {I J : Parents} {b d : ℕ} (hs : Settled preds rpo entry I)
    (hn : Numbering preds rpo entry) (h : Progress preds rpo entry I J (rpo.idxOf b))
    (hmeet : IsMeet J (Processed J (preds b)) d) (hdlt : rpo.idxOf d < rpo.idxOf b)
    (hk : Keeps preds entry J) : Keeps preds entry (Function.update J b (some d)) := by
  intro x z hx hzx
  induction hm : rpo.idxOf x using Nat.strong_induction_on generalizing x with
  | _ m ih =>
    by_cases hzx' : z = x
    · exact hzx' ▸ .self _
    by_cases hxb : x = b
    · subst hxb
      have hzd : Ancestor J z d := by
        apply hmeet.nearest
        rintro p ⟨hp, hpn⟩
        exact hk p z hpn (hzx.pred hzx' hp)
      exact .climb (update_self ..) ((ancestor_update h.ordered hdlt).mpr hzd)
    · rw [update_of_ne hxb] at hx
      have hzJ := hk x z hx hzx
      obtain ⟨c, hc, hzc⟩ := hzJ.parent hzx'
      have hxe : x ≠ entry := by
        rintro rfl
        exact hzx' (h.ordered.anc_entry hzJ)
      have hway := progress_onward hn hs h hx (.climb hc (.self c))
      have hzc' := dominates_parent h.ordered hway hzc hzx
      have hlt := h.ordered.lt x c hxe hc
      have hcn : Function.update J b (some d) c ≠ none := by
        by_cases hcb : c = b
        · rw [hcb, update_self]
          exact Option.some_ne_none _
        · rw [update_of_ne hcb]
          exact h.ordered.closed x c hc
      refine .climb ?_ (ih _ (hm ▸ hlt) c hcn hzc' rfl)
      rw [update_of_ne hxb]
      exact hc

theorem keeps_foldl {I : Parents} (hs : Settled preds rpo entry I) (hn : Numbering preds rpo entry)
    (rest pre : List ℕ) (st : Parents × Bool) (hsplit : rpo = pre ++ rest) (hpre : pre ≠ [])
    (h : Progress preds rpo entry I st.1 pre.length) (hk : Keeps preds entry st.1) :
    Keeps preds entry (rest.foldl (visit preds fun x => rpo.idxOf x) st).1 := by
  induction rest generalizing pre st with
  | nil => exact hk
  | cons b rest ih =>
    obtain ⟨hmem, hidx, hb, hsplit', hpre', hlen⟩ := hn.next hsplit hpre
    rw [← hidx] at h
    rw [foldl_cons]
    obtain ⟨J, c⟩ := st
    obtain ⟨d, hmeet, hdlt, ⟨-, hvisit, hkeep⟩ | ⟨-, hvisit, -, hupdate⟩⟩ :=
      h.visit hs hn hmem hb c
    · rw [hvisit]
      exact ih (pre ++ [b]) _ hsplit' hpre' (hlen ▸ hkeep) hk
    · rw [hvisit]
      exact ih (pre ++ [b]) _ hsplit' hpre' (hlen ▸ hupdate) (hk.update hs hn h hmeet hdlt)

theorem rounds_keeps (hn : Numbering preds rpo entry) (fuel : ℕ) (I : Parents)
    (hs : Settled preds rpo entry I) (hk : Keeps preds entry I) :
    Keeps preds entry (rounds preds rpo fuel I) := by
  induction fuel generalizing I with
  | zero => exact hk
  | succ fuel ih =>
    have hsplit := hn.split
    have hstart := hs.start hn
    have hround : Keeps preds entry (round preds rpo I).1 :=
      keeps_foldl hs hn (rpo.drop 1) [entry] (I, false) hsplit (cons_ne_nil _ _) hstart hk
    have hend := (foldl_visit_spec hs hn (rpo.drop 1) [entry] I false hsplit
      (cons_ne_nil _ _) hstart).1
    rw [rounds]
    split
    · exact ih _ hend.settled hround
    · exact hround

theorem keeps_seed : Keeps preds entry (seed entry) := by
  intro x z hx hzx
  have hxe : x = entry := by
    by_contra hne
    exact hx (if_neg hne)
  subst hxe
  rw [hzx.eq_root]
  exact .self _

/-- An order of the nodes the entry reaches. -/
structure Covers (preds : ℕ → List ℕ) (rpo : List ℕ) (entry : ℕ) : Prop where
  numbering : Numbering preds rpo entry
  closed : ∀ p s, p ∈ rpo → p ∈ preds s → s ∈ rpo

variable (h : Covers preds rpo entry)

include h

theorem Covers.mem_iff {b : ℕ} : b ∈ rpo ↔ Reached (Edge preds) entry b := by
  constructor
  · intro hb
    induction hk : rpo.idxOf b using Nat.strong_induction_on generalizing b with
    | _ k ih =>
      by_cases hbe : b = entry
      · exact hbe ▸ reached_root
      · obtain ⟨q, hq, hlt⟩ := h.numbering.forward b hb hbe
        exact (ih _ (hk ▸ hlt) (mem_of_idxOf_lt hb hlt) rfl).step hq
  · intro hb
    exact hb.induct h.numbering.mem_entry fun x y _ hx hxy => h.closed x y hx hxy

theorem ancestor_iff_dominates {d b : ℕ} (hb : b ∈ rpo) :
    Ancestor (immediate preds rpo entry) d b ↔ Dominates (Edge preds) entry d b := by
  have ht : IsTree preds rpo entry (immediate preds rpo entry) := immediate_isTree h.numbering
  constructor
  · intro hanc l hl
    induction hl generalizing d with
    | root =>
      rw [ht.ordered.anc_entry hanc]
      exact mem_cons_self
    | @step p s l hp hps ih =>
      by_cases hds : d = s
      · exact hds ▸ mem_cons_self
      · have hse : s ≠ entry := by
          rintro rfl
          exact hds (ht.ordered.anc_entry hanc)
        have hpm : p ∈ rpo := h.mem_iff.mpr hp.reached
        obtain ⟨e, he, hmeet⟩ := ht.parent s hb hse
        obtain ⟨e', he', hde⟩ := hanc.parent hds
        obtain rfl := Option.some.inj (he.symm.trans he')
        exact mem_cons_of_mem _ (ih hpm (hde.trans (hmeet.anc p ⟨hps, hpm⟩)))
  · intro hdom
    have hkeeps : Keeps preds entry (immediate preds rpo entry) :=
      rounds_keeps h.numbering _ _ (settled_seed h.numbering) keeps_seed
    exact hkeeps b d ((ht.processed_iff b).mpr hb) hdom

theorem immediate_eq_none_iff {b : ℕ} :
    immediate preds rpo entry b = none ↔ ¬ Reached (Edge preds) entry b := by
  have ht : IsTree preds rpo entry (immediate preds rpo entry) := immediate_isTree h.numbering
  rw [← h.mem_iff, ← ht.processed_iff, not_not]

theorem immediate_entry : immediate preds rpo entry entry = some entry :=
  (immediate_isTree h.numbering).ordered.root

theorem immediate_eq_some_iff {d b : ℕ} (hbe : b ≠ entry) :
    immediate preds rpo entry b = some d ↔ ImmediateDominator (Edge preds) entry d b := by
  have ht : IsTree preds rpo entry (immediate preds rpo entry) := immediate_isTree h.numbering
  have hparent : ∀ e, immediate preds rpo entry b = some e →
      ImmediateDominator (Edge preds) entry e b := by
    intro e he
    have hmem : b ∈ rpo := (ht.processed_iff b).mp (by rw [he]; exact Option.some_ne_none _)
    have hem : e ∈ rpo := (ht.processed_iff e).mp (ht.ordered.closed b e he)
    refine ⟨h.mem_iff.mp hmem, ⟨?_, ?_⟩, ?_⟩
    · rintro rfl
      exact lt_irrefl _ (ht.ordered.lt e e hbe he)
    · exact (ancestor_iff_dominates h hmem).mp (.climb he (.self e))
    · rintro z ⟨hzb, hz⟩
      obtain ⟨e', he', hze⟩ := ((ancestor_iff_dominates h hmem).mpr hz).parent hzb
      obtain rfl := Option.some.inj (he.symm.trans he')
      exact (ancestor_iff_dominates h hem).mp hze
  constructor
  · exact hparent d
  · intro hd
    obtain ⟨e, he, -⟩ := ht.parent b (h.mem_iff.mpr hd.reached) hbe
    rw [he, (hparent e he).unique hd]

end DominatorPaths
