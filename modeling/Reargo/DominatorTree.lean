import Reargo.DepthFirst

/-!
# Immediate dominators by iteration

Rounds over a reverse post-order set the parent of each node to the nearest common
ancestor of its processed predecessors, until a round changes nothing. The rounds
end, and the result is a tree in which the parent of every node is the nearest
common ancestor of its predecessors.
-/
namespace DominatorTree

open List Option Function

abbrev Parents := ℕ → Option ℕ

/-- The first common node of the walks up from two nodes, by their numbers in the order. -/
def intersect (idom : Parents) (order : ℕ → ℕ) : ℕ → ℕ → ℕ → ℕ
  | 0, a, _ => a
  | fuel + 1, a, b =>
    if a = b then a
    else if order b < order a then intersect idom order fuel ((idom a).getD a) b
    else if order a < order b then intersect idom order fuel a ((idom b).getD b)
    else a

/-- A predecessor without a parent is not reached, or not processed yet. -/
def meet (idom : Parents) (order : ℕ → ℕ) (acc : Option ℕ) (p : ℕ) : Option ℕ :=
  if idom p = none then acc
  else
    match acc with
    | none => some p
    | some cur => some (intersect idom order (order cur + order p) cur p)

def newParent (preds : ℕ → List ℕ) (order : ℕ → ℕ) (idom : Parents) (b : ℕ) : Option ℕ :=
  (preds b).foldl (meet idom order) none

def visit (preds : ℕ → List ℕ) (order : ℕ → ℕ) (st : Parents × Bool) (b : ℕ) : Parents × Bool :=
  let new := newParent preds order st.1 b
  if new ≠ none ∧ new ≠ st.1 b then (Function.update st.1 b new, true) else st

def round (preds : ℕ → List ℕ) (rpo : List ℕ) (idom : Parents) : Parents × Bool :=
  (rpo.drop 1).foldl (visit preds fun x => rpo.idxOf x) (idom, false)

def rounds (preds : ℕ → List ℕ) (rpo : List ℕ) : ℕ → Parents → Parents
  | 0, idom => idom
  | fuel + 1, idom =>
    let r := round preds rpo idom
    if r.2 then rounds preds rpo fuel r.1 else r.1

def seed (entry : ℕ) : Parents := fun x => if x = entry then some entry else none

/-- A round that changes something moves some node up. -/
def roundBound (rpo : List ℕ) : ℕ := rpo.length * rpo.length + 1

def immediate (preds : ℕ → List ℕ) (rpo : List ℕ) (entry : ℕ) : Parents :=
  rounds preds rpo (roundBound rpo) (seed entry)

/-- The first node is on the walk up from the second. -/
inductive Ancestor (idom : Parents) : ℕ → ℕ → Prop where
  | self (a) : Ancestor idom a a
  | climb {a b c} : idom b = some c → Ancestor idom a c → Ancestor idom a b

variable {b : ℕ}

section Ancestors

variable {idom : Parents}

theorem Ancestor.trans {a c : ℕ} (h : Ancestor idom a b) (k : Ancestor idom b c) :
    Ancestor idom a c := by
  induction k with
  | self => exact h
  | climb hc _ ih => exact .climb hc ih

theorem Ancestor.parent {a : ℕ} (h : Ancestor idom a b) (hne : a ≠ b) :
    ∃ c, idom b = some c ∧ Ancestor idom a c := by
  cases h with
  | self => exact absurd rfl hne
  | climb hc h => exact ⟨_, hc, h⟩

structure Ordered (order : ℕ → ℕ) (entry : ℕ) (idom : Parents) : Prop where
  root : idom entry = some entry
  lt : ∀ x d, x ≠ entry → idom x = some d → order d < order x
  closed : ∀ x d, idom x = some d → idom d ≠ none

variable {order : ℕ → ℕ} {entry : ℕ}

section

variable (h : Ordered order entry idom)

include h

theorem Ordered.anc_entry {a : ℕ} (ha : Ancestor idom a entry) : a = entry := by
  generalize hx : entry = x at ha
  induction ha with
  | self => rfl
  | climb hd _ ih =>
    subst hx
    have heq := some.inj (h.root.symm.trans hd)
    exact (ih heq).trans heq.symm

theorem Ordered.anc_lt {a : ℕ} (hab : Ancestor idom a b) : a = b ∨ order a < order b := by
  induction hab with
  | self => exact .inl rfl
  | @climb b c hc hac ih =>
    by_cases hb : b = entry
    · subst hb
      exact .inl (h.anc_entry (.climb hc hac))
    · have hlt := h.lt b c hb hc
      rcases ih with rfl | hlt'
      · exact .inr hlt
      · exact .inr (hlt'.trans hlt)

theorem Ordered.processed {a : ℕ} (hab : Ancestor idom a b) (hb : idom b ≠ none) :
    idom a ≠ none := by
  induction hab with
  | self => exact hb
  | climb hc _ ih => exact ih (h.closed _ _ hc)

/-- The nearest common ancestor of two nodes with different numbers, or the same node. -/
theorem intersect_spec (hinj : ∀ x y, idom x ≠ none → idom y ≠ none → order x = order y → x = y)
    (hzero : ∀ x, order entry ≤ order x) (fuel a b : ℕ) (ha : idom a ≠ none)
    (hb : idom b ≠ none) (hfuel : order a + order b ≤ fuel) :
    Ancestor idom (intersect idom order fuel a b) a ∧ Ancestor idom (intersect idom order fuel a b) b ∧
      ∀ z, Ancestor idom z a → Ancestor idom z b → Ancestor idom z (intersect idom order fuel a b) := by
  induction fuel generalizing a b with
  | zero =>
    have heq : a = b := hinj a b ha hb (by omega)
    subst heq
    exact ⟨.self _, .self _, fun z hz _ => hz⟩
  | succ fuel ih =>
    rw [intersect]
    split
    · next heq =>
      subst heq
      exact ⟨.self _, .self _, fun z hz _ => hz⟩
    · next hne =>
      split
      · next hlt =>
        have hentry : a ≠ entry := by
          rintro rfl
          have hle := hzero b
          omega
        obtain ⟨d, hd⟩ := ne_none_iff_exists'.mp ha
        have hdlt := h.lt a d hentry hd
        rw [hd, getD_some]
        obtain ⟨h1, h2, h3⟩ := ih d b (h.closed a d hd) hb (by omega)
        refine ⟨.climb hd h1, h2, ?_⟩
        intro z hza hzb
        have hz : z ≠ a := by
          rintro rfl
          rcases h.anc_lt hzb with heq | hlt'
          · exact hne heq
          · omega
        obtain ⟨d', hd', hzd⟩ := hza.parent hz
        obtain rfl := some.inj (hd.symm.trans hd')
        exact h3 z hzd hzb
      · split
        · next hlt =>
          have hentry : b ≠ entry := by
            rintro rfl
            have hle := hzero a
            omega
          obtain ⟨d, hd⟩ := ne_none_iff_exists'.mp hb
          have hdlt := h.lt b d hentry hd
          rw [hd, getD_some]
          obtain ⟨h1, h2, h3⟩ := ih a d ha (h.closed b d hd) (by omega)
          refine ⟨h1, .climb hd h2, ?_⟩
          intro z hza hzb
          have hz : z ≠ b := by
            rintro rfl
            rcases h.anc_lt hza with heq | hlt'
            · exact hne heq.symm
            · omega
          obtain ⟨d', hd', hzd⟩ := hzb.parent hz
          obtain rfl := some.inj (hd.symm.trans hd')
          exact h3 z hza hzd
        · exact absurd (hinj a b ha hb (by omega)) hne

end

/-- The nearest common ancestor of some nodes. -/
structure IsMeet (idom : Parents) (ps : ℕ → Prop) (d : ℕ) : Prop where
  anc : ∀ p, ps p → Ancestor idom d p
  nearest : ∀ z, (∀ p, ps p → Ancestor idom z p) → Ancestor idom z d

def Processed (idom : Parents) (ps : List ℕ) (p : ℕ) : Prop := p ∈ ps ∧ idom p ≠ none

/-- What the fold over some predecessors has found. -/
def Meets (idom : Parents) (ps : List ℕ) : Option ℕ → Prop
  | none => ∀ p ∈ ps, idom p = none
  | some d => idom d ≠ none ∧ IsMeet idom (Processed idom ps) d

variable (h : Ordered order entry idom)
  (hinj : ∀ x y, idom x ≠ none → idom y ≠ none → order x = order y → x = y)
  (hzero : ∀ x, order entry ≤ order x)

include h hinj hzero

theorem meets_meet {ps : List ℕ} {acc : Option ℕ} (p : ℕ)
    (hacc : Meets idom ps acc) : Meets idom (ps ++ [p]) (meet idom order acc p) := by
  unfold meet
  split
  · next hp =>
    have hsame : ∀ q, Processed idom (ps ++ [p]) q ↔ Processed idom ps q := by
      intro q
      simp only [Processed, mem_append, mem_singleton]
      constructor
      · rintro ⟨hq | rfl, hn⟩
        · exact ⟨hq, hn⟩
        · exact absurd hp hn
      · rintro ⟨hq, hn⟩
        exact ⟨.inl hq, hn⟩
    cases acc with
    | none =>
      intro q hq
      rcases mem_append.mp hq with hq | hq
      · exact hacc q hq
      · exact mem_singleton.mp hq ▸ hp
    | some d =>
      obtain ⟨hd, hmeet⟩ := hacc
      refine ⟨hd, fun q hq => hmeet.anc q ((hsame q).mp hq), fun z hz => hmeet.nearest z ?_⟩
      intro q hq
      exact hz q ((hsame q).mpr hq)
  · next hp =>
    have hlast : Processed idom (ps ++ [p]) p :=
      ⟨mem_append_right _ (mem_singleton_self p), hp⟩
    cases acc with
    | none =>
      refine ⟨hp, ?_, fun z hz => hz p hlast⟩
      rintro q ⟨hq, hn⟩
      rcases mem_append.mp hq with hq | hq
      · exact absurd (hacc q hq) hn
      · rw [mem_singleton.mp hq]
        exact .self p
    | some d =>
      obtain ⟨hd, hmeet⟩ := hacc
      obtain ⟨h1, h2, h3⟩ := intersect_spec h hinj hzero _ d p hd hp (le_refl _)
      refine ⟨h.processed h1 hd, ?_, ?_⟩
      · rintro q ⟨hq, hn⟩
        rcases mem_append.mp hq with hq | hq
        · exact h1.trans (hmeet.anc q ⟨hq, hn⟩)
        · rw [mem_singleton.mp hq]
          exact h2
      · intro z hz
        refine h3 z (hmeet.nearest z ?_) (hz p hlast)
        rintro q ⟨hq, hn⟩
        exact hz q ⟨mem_append_left _ hq, hn⟩

theorem meets_foldl (ps qs : List ℕ) (acc : Option ℕ)
    (hacc : Meets idom qs acc) : Meets idom (qs ++ ps) (ps.foldl (meet idom order) acc) := by
  induction ps generalizing qs acc with
  | nil => simpa using hacc
  | cons p ps ih =>
    have hstep := ih (qs ++ [p]) _ (meets_meet h hinj hzero p hacc)
    simpa using hstep

theorem meets_newParent (preds : ℕ → List ℕ) (b : ℕ) :
    Meets idom (preds b) (newParent preds order idom b) := by
  refine meets_foldl h hinj hzero (preds b) [] none ?_
  exact fun p hp => absurd hp not_mem_nil

end Ancestors

/-- An order that starts with the entry and puts every other node after one of its
predecessors. -/
structure Numbering (preds : ℕ → List ℕ) (rpo : List ℕ) (entry : ℕ) : Prop where
  nodup : rpo.Nodup
  head : rpo.head? = some entry
  forward : ∀ b ∈ rpo, b ≠ entry → ∃ q ∈ preds b, rpo.idxOf q < rpo.idxOf b

section Rounds

variable {preds : ℕ → List ℕ} {rpo : List ℕ} {entry : ℕ}

/-- Parents between two rounds: the forward predecessors of a node are below its parent, and
no common ancestor of its predecessors is numbered above it. -/
structure Settled (preds : ℕ → List ℕ) (rpo : List ℕ) (entry : ℕ) (I : Parents) : Prop where
  ordered : Ordered (fun x => rpo.idxOf x) entry I
  inside : ∀ x, I x ≠ none → x ∈ rpo
  all : ∀ b, b ≠ entry → I b ≠ none → ∀ x ∈ rpo, I x ≠ none
  below : ∀ x d q, x ≠ entry → I x = some d → q ∈ preds x → rpo.idxOf q < rpo.idxOf x →
    Ancestor I d q
  bound : ∀ x d z, x ≠ entry → I x = some d → (∀ p ∈ preds x, I p ≠ none → Ancestor I z p) →
    rpo.idxOf z ≤ rpo.idxOf d

/-- Parents within a round that began with `I`, after the nodes numbered below `k`. -/
structure Progress (preds : ℕ → List ℕ) (rpo : List ℕ) (entry : ℕ) (I J : Parents) (k : ℕ) :
    Prop where
  ordered : Ordered (fun x => rpo.idxOf x) entry J
  inside : ∀ x, J x ≠ none → x ∈ rpo
  done : ∀ x ∈ rpo, rpo.idxOf x < k → J x ≠ none
  below : ∀ x d q, rpo.idxOf x < k → x ≠ entry → J x = some d → q ∈ preds x →
    rpo.idxOf q < rpo.idxOf x → Ancestor J d q
  later : ∀ x, k ≤ rpo.idxOf x → J x = I x
  shrink : ∀ x z, I x ≠ none → Ancestor J z x → Ancestor I z x
  bound : ∀ x d z, x ≠ entry → J x = some d → (∀ p ∈ preds x, J p ≠ none → Ancestor J z p) →
    rpo.idxOf z ≤ rpo.idxOf d

theorem Numbering.idxOf_entry (hn : Numbering preds rpo entry) : rpo.idxOf entry = 0 := by
  have hhead := hn.head
  cases rpo with
  | nil => cases hhead
  | cons x xs =>
    obtain rfl := some.inj hhead
    exact idxOf_cons_self

theorem Numbering.mem_entry (hn : Numbering preds rpo entry) : entry ∈ rpo :=
  mem_of_mem_head? hn.head

theorem mem_of_idxOf_lt {x y : ℕ} (hy : y ∈ rpo) (h : rpo.idxOf x < rpo.idxOf y) : x ∈ rpo := by
  have hlt : rpo.idxOf y < rpo.length := idxOf_lt_length_iff.mpr hy
  exact idxOf_lt_length_iff.mp (by omega)

theorem idxOf_inj {x y : ℕ} (hx : x ∈ rpo) (h : rpo.idxOf x = rpo.idxOf y) : x = y :=
  (List.idxOf_inj hx).mp h

theorem Numbering.split (hn : Numbering preds rpo entry) : rpo = [entry] ++ rpo.drop 1 := by
  have hhead := hn.head
  cases rpo with
  | nil => cases hhead
  | cons x xs =>
    obtain rfl := some.inj hhead
    rfl

/-- The node a round visits after the nodes `pre`. -/
theorem Numbering.next (hn : Numbering preds rpo entry) {pre rest : List ℕ}
    (hsplit : rpo = pre ++ b :: rest) (hpre : pre ≠ []) :
    b ∈ rpo ∧ rpo.idxOf b = pre.length ∧ b ≠ entry ∧ rpo = (pre ++ [b]) ++ rest ∧
      pre ++ [b] ≠ [] ∧ (pre ++ [b]).length = rpo.idxOf b + 1 := by
  have hnodup := hn.nodup
  have hmem : b ∈ rpo := by
    rw [hsplit]
    exact mem_append_right _ mem_cons_self
  have hidx : rpo.idxOf b = pre.length := by
    rw [hsplit] at hnodup ⊢
    have hnot : b ∉ pre := fun hb => (nodup_append.mp hnodup).2.2 b hb b mem_cons_self rfl
    rw [idxOf_append_of_notMem hnot, idxOf_cons_self, add_zero]
  refine ⟨hmem, hidx, ?_, hsplit.trans (append_cons pre b rest),
    append_ne_nil_of_right_ne_nil _ (cons_ne_nil _ _), by
      rw [length_append, length_singleton, hidx]⟩
  rintro rfl
  rw [hn.idxOf_entry] at hidx
  exact hpre (length_eq_zero_iff.mp hidx.symm)

theorem Settled.start {I : Parents} (hn : Numbering preds rpo entry)
    (h : Settled preds rpo entry I) : Progress preds rpo entry I I 1 := by
  constructor
  · exact h.ordered
  · exact h.inside
  · intro x hx hlt
    have heq : x = entry := idxOf_inj hx (by rw [hn.idxOf_entry]; omega)
    rw [heq, h.ordered.root]
    exact some_ne_none _
  · intro x d q _ hne hd hq hlt
    exact h.below x d q hne hd hq hlt
  · intro x _
    rfl
  · intro x z _ hz
    exact hz
  · exact h.bound

variable {I J : Parents} {preds' : ℕ → List ℕ}

theorem Progress.settled
    (h : Progress preds rpo entry I J rpo.length) : Settled preds rpo entry J := by
  have hlt : ∀ x, J x ≠ none → rpo.idxOf x < rpo.length := fun x hx =>
    idxOf_lt_length_iff.mpr (h.inside x hx)
  constructor
  · exact h.ordered
  · exact h.inside
  · intro b _ _ x hx
    exact h.done x hx (idxOf_lt_length_iff.mpr hx)
  · intro x d q hne hd hq hlt'
    exact h.below x d q (hlt x (by rw [hd]; exact some_ne_none _)) hne hd hq hlt'
  · exact h.bound

/-- Within a round, walks from nodes numbered below a node do not meet it. -/
theorem ancestor_update {J : Parents} {v : Option ℕ}
    (ho : Ordered (fun x => rpo.idxOf x) entry J) {z x : ℕ} (hx : rpo.idxOf x < rpo.idxOf b) :
    Ancestor (Function.update J b v) z x ↔ Ancestor J z x := by
  have hne : ∀ {x : ℕ}, rpo.idxOf x < rpo.idxOf b → x ≠ b := by
    rintro x hx rfl
    exact lt_irrefl _ hx
  have hparent : ∀ {x c : ℕ}, rpo.idxOf x < rpo.idxOf b → J x = some c →
      rpo.idxOf c < rpo.idxOf b := by
    intro x c hx hc
    by_cases hentry : x = entry
    · obtain rfl : c = x := some.inj (hc.symm.trans (hentry ▸ ho.root))
      exact hx
    · exact lt_trans (ho.lt x c hentry hc) hx
  constructor
  · intro h
    induction h with
    | self => exact .self _
    | climb hc _ ih =>
      rw [update_of_ne (hne hx)] at hc
      exact .climb hc (ih (hparent hx hc))
  · intro h
    induction h with
    | self => exact .self _
    | climb hc _ ih =>
      exact .climb ((update_of_ne (hne hx) _ _).trans hc) (ih (hparent hx hc))

theorem Progress.climbs {d d' : ℕ} (hs : Settled preds rpo entry I) (hn : Numbering preds rpo entry)
    (h : Progress preds rpo entry I J (rpo.idxOf b)) (hb : b ≠ entry) (hd : J b = some d)
    (hd' : ∀ p ∈ preds b, J p ≠ none → Ancestor J d' p) : Ancestor J d' d := by
  have hI : I b = some d := (h.later b (le_refl _)).symm.trans hd
  have hbmem : b ∈ rpo := h.inside b (by rw [hd]; exact some_ne_none _)
  obtain ⟨q, hq, hqlt⟩ := hn.forward b hbmem hb
  have hqmem := mem_of_idxOf_lt hbmem hqlt
  have hdq : Ancestor I d q := hs.below b d q hb hI hq hqlt
  have hd'q : Ancestor J d' q := hd' q hq (h.done q hqmem hqlt)
  have hle : rpo.idxOf d' ≤ rpo.idxOf d := h.bound b d d' hb hd hd'
  -- otherwise no node of this round below `d` has `d'` as an ancestor, `q` among them
  by_contra hcon
  have hnone : ∀ n x, rpo.idxOf x = n → rpo.idxOf x < rpo.idxOf b → Ancestor I d x →
      ¬ Ancestor J d' x := by
    intro n
    induction n using Nat.strong_induction_on with
    | _ n ih =>
      intro x hxn hxb hdx hd'x
      by_cases hxd : d = x
      · exact hcon (hxd ▸ hd'x)
      obtain ⟨m, hm, hdm⟩ := hdx.parent hxd
      have hx : x ≠ entry := by
        rintro rfl
        exact hxd (hs.ordered.anc_entry hdx)
      have hxmem : x ∈ rpo := mem_of_idxOf_lt hbmem hxb
      obtain ⟨r, hr, hrlt⟩ := hn.forward x hxmem hx
      have hdr : Ancestor I d r := hdm.trans (hs.below x m r hx hm hr hrlt)
      have hd'x' : d' ≠ x := by
        rintro rfl
        rcases hs.ordered.anc_lt hdx with heq | hlt
        · exact hxd heq
        · have hlt' : rpo.idxOf d < rpo.idxOf d' := hlt
          omega
      obtain ⟨e, he, hd'e⟩ := hd'x.parent hd'x'
      have her : Ancestor J e r := h.below x e r hxb hx he hr hrlt
      exact ih (rpo.idxOf r) (by omega) r rfl (by omega) hdr (hd'e.trans her)
  exact hnone _ q rfl hqlt hdq hd'q

theorem Progress.newParent (hn : Numbering preds rpo entry)
    (h : Progress preds rpo entry I J (rpo.idxOf b)) (hmem : b ∈ rpo) (hb : b ≠ entry) :
    ∃ d, newParent preds (fun x => rpo.idxOf x) J b = some d ∧ J d ≠ none ∧
      IsMeet J (Processed J (preds b)) d ∧ rpo.idxOf d < rpo.idxOf b := by
  have hmeets := meets_newParent h.ordered (fun x y hx _ hxy => idxOf_inj (h.inside x hx) hxy)
    (fun x => by rw [hn.idxOf_entry]; exact Nat.zero_le _) preds b
  obtain ⟨q, hq, hqlt⟩ := hn.forward b hmem hb
  have hqdone := h.done q (mem_of_idxOf_lt hmem hqlt) hqlt
  cases hnew : DominatorTree.newParent preds (fun x => rpo.idxOf x) J b with
  | none =>
    rw [hnew] at hmeets
    exact absurd (hmeets q hq) hqdone
  | some d =>
    rw [hnew] at hmeets
    obtain ⟨hd, hmeet⟩ := hmeets
    refine ⟨d, rfl, hd, hmeet, ?_⟩
    rcases h.ordered.anc_lt (hmeet.anc q ⟨hq, hqdone⟩) with heq | hlt
    · exact heq ▸ hqlt
    · exact lt_trans hlt hqlt

/-- A node whose parent does not change. -/
theorem idxOf_lt_or_eq {x : ℕ} (hmem : b ∈ rpo) (hx : rpo.idxOf x < rpo.idxOf b + 1) :
    rpo.idxOf x < rpo.idxOf b ∨ x = b := by
  by_cases heq : rpo.idxOf b = rpo.idxOf x
  · exact .inr (idxOf_inj hmem heq).symm
  · exact .inl (by omega)

theorem Progress.keep {d : ℕ}
    (h : Progress preds rpo entry I J (rpo.idxOf b)) (hmem : b ∈ rpo) (hd : J b = some d)
    (hmeet : IsMeet J (Processed J (preds b)) d) :
    Progress preds rpo entry I J (rpo.idxOf b + 1) := by
  refine ⟨h.ordered, h.inside, ?_, ?_, ?_, h.shrink, h.bound⟩
  · intro x hx hlt
    rcases idxOf_lt_or_eq hmem hlt with hlt | rfl
    · exact h.done x hx hlt
    · rw [hd]
      exact some_ne_none _
  · intro x e q hlt hne he hq hqlt
    rcases idxOf_lt_or_eq hmem hlt with hlt | rfl
    · exact h.below x e q hlt hne he hq hqlt
    · obtain rfl := some.inj (hd.symm.trans he)
      exact hmeet.anc q ⟨hq, h.done q (mem_of_idxOf_lt hmem hqlt) hqlt⟩
  · intro x hx
    exact h.later x (by omega)

theorem Progress.update {d : ℕ} (hs : Settled preds rpo entry I) (hn : Numbering preds rpo entry)
    (h : Progress preds rpo entry I J (rpo.idxOf b)) (hmem : b ∈ rpo) (hb : b ≠ entry)
    (hd : J d ≠ none)
    (hmeet : IsMeet J (Processed J (preds b)) d) (hdlt : rpo.idxOf d < rpo.idxOf b) :
    Progress preds rpo entry I (Function.update J b (some d)) (rpo.idxOf b + 1) := by
  have hsome : ∀ x, J x ≠ none → Function.update J b (some d) x ≠ none := by
    intro x hx
    by_cases hxb : x = b
    · rw [hxb, update_self]
      exact some_ne_none _
    · rw [update_of_ne hxb]
      exact hx
  -- the new walk from `b` is a part of the old one, if it had a parent
  have hback : ∀ x z, J x ≠ none → Ancestor (Function.update J b (some d)) z x →
      Ancestor J z x := by
    intro x z hx hz
    induction hz with
    | self => exact .self _
    | @climb x c hc _ ih =>
      by_cases heq : x = b
      · subst heq
        rw [update_self] at hc
        obtain rfl := some.inj hc
        obtain ⟨e, he⟩ := ne_none_iff_exists'.mp hx
        have hde : Ancestor J d e :=
          h.climbs hs hn hb he fun p hp hpn => hmeet.anc p ⟨hp, hpn⟩
        exact (ih hd).trans (.climb he hde)
      · rw [update_of_ne heq] at hc
        exact .climb hc (ih (h.ordered.closed x c hc))
  constructor
  · constructor
    · rw [update_of_ne hb.symm]
      exact h.ordered.root
    · intro x e hx he
      by_cases hxb : x = b
      · subst hxb
        rw [update_self] at he
        exact some.inj he ▸ hdlt
      · rw [update_of_ne hxb] at he
        exact h.ordered.lt x e hx he
    · intro x e he
      by_cases hxb : x = b
      · subst hxb
        rw [update_self] at he
        exact hsome _ (some.inj he ▸ hd)
      · rw [update_of_ne hxb] at he
        exact hsome _ (h.ordered.closed x e he)
  · intro x hx
    by_cases hxb : x = b
    · exact hxb ▸ hmem
    · rw [update_of_ne hxb] at hx
      exact h.inside x hx
  · intro x hx hlt
    rcases idxOf_lt_or_eq hmem hlt with hlt | rfl
    · exact hsome x (h.done x hx hlt)
    · rw [update_self]
      exact some_ne_none _
  · intro x e q hlt hne he hq hqlt
    rcases idxOf_lt_or_eq hmem hlt with hlt | rfl
    · have hxb : x ≠ b := by
        rintro rfl
        omega
      rw [update_of_ne hxb] at he
      exact (ancestor_update h.ordered (lt_trans hqlt hlt)).mpr (h.below x e q hlt hne he hq hqlt)
    · rw [update_self] at he
      obtain rfl := some.inj he
      exact (ancestor_update h.ordered hqlt).mpr
        (hmeet.anc q ⟨hq, h.done q (mem_of_idxOf_lt hmem hqlt) hqlt⟩)
  · intro x hx
    have hxb : x ≠ b := by
      rintro rfl
      omega
    rw [update_of_ne hxb]
    exact h.later x (by omega)
  · intro x z hx hz
    by_cases hJx : J x = none
    · -- `x` had no parent before this round
      exfalso
      by_cases hlt : rpo.idxOf x < rpo.idxOf b
      · exact h.done x (hs.inside x hx) hlt hJx
      · rw [← h.later x (by omega)] at hx
        exact hx hJx
    · exact h.shrink x z hx (hback x z hJx hz)
  · intro x e z hne he hz
    have hcommon : ∀ p ∈ preds x, J p ≠ none → Ancestor J z p := by
      intro p hp hpn
      exact hback p z hpn (hz p hp (hsome p hpn))
    by_cases hxb : x = b
    · subst hxb
      rw [update_self] at he
      obtain rfl := some.inj he
      have hzd := hmeet.nearest z fun p hp => hcommon p hp.1 hp.2
      rcases h.ordered.anc_lt hzd with heq | hlt
      · rw [heq]
      · exact hlt.le
    · rw [update_of_ne hxb] at he
      exact h.bound x e z hne he hcommon

def cost (rpo : List ℕ) (idom : Parents) (x : ℕ) : ℕ :=
  match idom x with
  | none => rpo.length
  | some d => rpo.idxOf d

def totalCost (rpo : List ℕ) (idom : Parents) : ℕ := (rpo.map (cost rpo idom)).sum

theorem totalCost_update {J : Parents} {d : ℕ} (hmem : b ∈ rpo) (hlt : rpo.idxOf d < cost rpo J b) :
    totalCost rpo (Function.update J b (some d)) < totalCost rpo J := by
  unfold totalCost
  refine sum_lt_sum _ _ ?_ ⟨b, hmem, ?_⟩
  · intro x _
    by_cases hxb : x = b
    · subst hxb
      simp only [cost, update_self]
      exact hlt.le
    · simp only [cost, update_of_ne hxb]
      exact le_refl _
  · simp only [cost, update_self]
    exact hlt

theorem Progress.visit (hs : Settled preds rpo entry I) (hn : Numbering preds rpo entry)
    (h : Progress preds rpo entry I J (rpo.idxOf b)) (hmem : b ∈ rpo) (hb : b ≠ entry) (c : Bool) :
    ∃ d, IsMeet J (Processed J (preds b)) d ∧ rpo.idxOf d < rpo.idxOf b ∧
      (J b = some d ∧ visit preds (fun x => rpo.idxOf x) (J, c) b = (J, c) ∧
          Progress preds rpo entry I J (rpo.idxOf b + 1) ∨
        J b ≠ some d ∧ visit preds (fun x => rpo.idxOf x) (J, c) b =
            (Function.update J b (some d), true) ∧ rpo.idxOf d < cost rpo J b ∧
          Progress preds rpo entry I (Function.update J b (some d)) (rpo.idxOf b + 1)) := by
  obtain ⟨d, hnew, hd, hmeet, hdlt⟩ := h.newParent hn hmem hb
  refine ⟨d, hmeet, hdlt, ?_⟩
  unfold DominatorTree.visit
  simp only [hnew]
  by_cases hsame : J b = some d
  · refine .inl ⟨hsame, ?_, h.keep hmem hsame hmeet⟩
    rw [if_neg fun hne => hne.2 hsame.symm]
  · refine .inr ⟨hsame, ?_, ?_, h.update hs hn hmem hb hd hmeet hdlt⟩
    · rw [if_pos ⟨some_ne_none _, fun heq => hsame heq.symm⟩]
    · unfold cost
      split
      · exact idxOf_lt_length_iff.mpr (h.inside d hd)
      · next e he =>
        have hanc := h.climbs hs hn hb he fun p hp hpn => hmeet.anc p ⟨hp, hpn⟩
        rcases h.ordered.anc_lt hanc with heq | hlt
        · exact absurd (heq ▸ he) hsame
        · exact hlt

theorem foldl_visit_spec {I : Parents} (hs : Settled preds rpo entry I)
    (hn : Numbering preds rpo entry) (rest pre : List ℕ) (J : Parents) (c : Bool)
    (hsplit : rpo = pre ++ rest) (hpre : pre ≠ [])
    (h : Progress preds rpo entry I J pre.length) :
    Progress preds rpo entry I (rest.foldl (visit preds fun x => rpo.idxOf x) (J, c)).1 rpo.length ∧
      ((rest.foldl (visit preds fun x => rpo.idxOf x) (J, c) = (J, c) ∧
          ∀ b ∈ rest, ∃ d, J b = some d ∧ IsMeet J (Processed J (preds b)) d ∧
            rpo.idxOf d < rpo.idxOf b) ∨
        ((rest.foldl (visit preds fun x => rpo.idxOf x) (J, c)).2 = true ∧
          totalCost rpo (rest.foldl (visit preds fun x => rpo.idxOf x) (J, c)).1 <
            totalCost rpo J)) := by
  induction rest generalizing pre J c with
  | nil =>
    rw [append_nil] at hsplit
    subst hsplit
    exact ⟨h, .inl ⟨rfl, fun b hb => absurd hb not_mem_nil⟩⟩
  | cons b rest ih =>
    obtain ⟨hmem, hidx, hb, hsplit', hpre', hlen⟩ := hn.next hsplit hpre
    rw [← hidx] at h
    rw [foldl_cons]
    obtain ⟨d, hmeet, hdlt, ⟨hsame, hvisit, hkeep⟩ | ⟨-, hvisit, hcost, hupdate⟩⟩ :=
      h.visit hs hn hmem hb c
    · rw [hvisit]
      rw [← hlen] at hkeep
      obtain ⟨hend, hrest⟩ := ih (pre ++ [b]) J c hsplit' hpre' hkeep
      exact ⟨hend, hrest.imp_left fun ⟨heq, hall⟩ =>
        ⟨heq, forall_mem_cons.mpr ⟨⟨d, hsame, hmeet, hdlt⟩, hall⟩⟩⟩
    · rw [hvisit]
      rw [← hlen] at hupdate
      have hdrop := totalCost_update hmem hcost
      obtain ⟨hend, hrest⟩ := ih (pre ++ [b]) _ true hsplit' hpre' hupdate
      refine ⟨hend, .inr ?_⟩
      rcases hrest with ⟨heq, -⟩ | ⟨htrue, hlt⟩
      · rw [heq]
        exact ⟨rfl, hdrop⟩
      · exact ⟨htrue, hlt.trans hdrop⟩

/-- The parent of every node of the order but the entry is the nearest common ancestor of
its predecessors; nodes outside the order have none. -/
structure IsTree (preds : ℕ → List ℕ) (rpo : List ℕ) (entry : ℕ) (idom : Parents) : Prop where
  ordered : Ordered (fun x => rpo.idxOf x) entry idom
  processed_iff : ∀ x, idom x ≠ none ↔ x ∈ rpo
  parent : ∀ b ∈ rpo, b ≠ entry → ∃ d, idom b = some d ∧
    IsMeet idom (fun p => p ∈ preds b ∧ p ∈ rpo) d

theorem settled_seed (hn : Numbering preds rpo entry) : Settled preds rpo entry (seed entry) := by
  have honly : ∀ x d, seed entry x = some d → x = entry ∧ d = entry := by
    intro x d hd
    unfold seed at hd
    split at hd
    · next hx => exact ⟨hx, (some.inj hd).symm⟩
    · cases hd
  have hself : seed entry entry = some entry := if_pos rfl
  constructor
  · constructor
    · exact hself
    · intro x d hx hd
      exact absurd (honly x d hd).1 hx
    · intro x d hd
      rw [(honly x d hd).2, hself]
      exact some_ne_none _
  · intro x hx
    obtain ⟨d, hd⟩ := ne_none_iff_exists'.mp hx
    rw [(honly x d hd).1]
    exact hn.mem_entry
  · intro b hb hbn
    obtain ⟨d, hd⟩ := ne_none_iff_exists'.mp hbn
    exact absurd (honly b d hd).1 hb
  · intro x d q hx hd
    exact absurd (honly x d hd).1 hx
  · intro x d z hx hd
    exact absurd (honly x d hd).1 hx

theorem rounds_settled (hn : Numbering preds rpo entry) (fuel : ℕ) (I : Parents)
    (hs : Settled preds rpo entry I) (hfuel : totalCost rpo I < fuel) :
    Settled preds rpo entry (rounds preds rpo fuel I) ∧
      (round preds rpo (rounds preds rpo fuel I)).2 = false := by
  induction fuel generalizing I with
  | zero => omega
  | succ fuel ih =>
    obtain ⟨hend, hcases⟩ := foldl_visit_spec hs hn (rpo.drop 1) [entry] I false hn.split
      (cons_ne_nil _ _) (hs.start hn)
    rw [rounds]
    rcases hcases with ⟨heq, -⟩ | ⟨htrue, hlt⟩
    · have hround : round preds rpo I = (I, false) := heq
      simp only [hround, Bool.false_eq_true, if_false]
      exact ⟨hs, trivial⟩
    · have htrue' : (round preds rpo I).2 = true := htrue
      have hlt' : totalCost rpo (round preds rpo I).1 < totalCost rpo I := hlt
      simp only [htrue', if_true]
      exact ih _ hend.settled (by omega)

theorem rounds_isTree (hn : Numbering preds rpo entry) (fuel : ℕ) (I : Parents)
    (hs : Settled preds rpo entry I) (hfuel : totalCost rpo I < fuel) :
    IsTree preds rpo entry (rounds preds rpo fuel I) := by
  obtain ⟨hsettled, hstable⟩ := rounds_settled hn fuel I hs hfuel
  generalize rounds preds rpo fuel I = I at hsettled hstable
  obtain ⟨hend, hcases⟩ := foldl_visit_spec hsettled hn (rpo.drop 1) [entry] I false hn.split
    (cons_ne_nil _ _) (hsettled.start hn)
  rcases hcases with ⟨heq, hall⟩ | ⟨htrue, -⟩
  · rw [heq] at hend
    have hprocessed : ∀ x, I x ≠ none ↔ x ∈ rpo := fun x =>
      ⟨hsettled.inside x, fun hx => hend.done x hx (idxOf_lt_length_iff.mpr hx)⟩
    refine ⟨hsettled.ordered, hprocessed, ?_⟩
    intro b hb hne
    have hbrest : b ∈ rpo.drop 1 := by
      rw [hn.split] at hb
      exact (mem_append.mp hb).resolve_left fun h => hne (mem_singleton.mp h)
    obtain ⟨d, hd, hmeet, -⟩ := hall b hbrest
    refine ⟨d, hd, fun p hp => ?_, fun z hz => ?_⟩
    · exact hmeet.anc p ⟨hp.1, (hprocessed p).mpr hp.2⟩
    · exact hmeet.nearest z fun p hp => hz p ⟨hp.1, (hprocessed p).mp hp.2⟩
  · exact absurd (htrue.symm.trans hstable) Bool.true_eq_false.mp

theorem totalCost_le (I : Parents) (hin : ∀ x d, I x = some d → d ∈ rpo) :
    totalCost rpo I ≤ rpo.length * rpo.length := by
  have hle : ∀ c ∈ rpo.map (cost rpo I), c ≤ rpo.length := by
    intro c hc
    obtain ⟨x, -, rfl⟩ := mem_map.mp hc
    unfold cost
    split
    · exact le_refl _
    · next d hd => exact (idxOf_lt_length_iff.mpr (hin x d hd)).le
  have hsum := sum_le_card_nsmul _ _ hle
  simpa [totalCost] using hsum

theorem totalCost_seed_le (hn : Numbering preds rpo entry) :
    totalCost rpo (seed entry) ≤ rpo.length * rpo.length := by
  refine totalCost_le _ ?_
  intro x d hd
  unfold seed at hd
  split at hd
  · exact some.inj hd ▸ hn.mem_entry
  · cases hd

theorem immediate_isTree (hn : Numbering preds rpo entry) :
    IsTree preds rpo entry (immediate preds rpo entry) :=
  rounds_isTree hn _ _ (settled_seed hn) (Nat.lt_succ_of_le (totalCost_seed_le hn))

theorem immediate_stable (hn : Numbering preds rpo entry) :
    (round preds rpo (immediate preds rpo entry)).2 = false :=
  (rounds_settled hn _ _ (settled_seed hn) (Nat.lt_succ_of_le (totalCost_seed_le hn))).2

theorem round_congr (h : ∀ b ∈ rpo.drop 1, preds b = preds' b)
    (idom : Parents) : round preds rpo idom = round preds' rpo idom := by
  unfold round
  refine foldl_ext _ _ _ fun st b hb => ?_
  unfold visit newParent
  rw [h b hb]

theorem immediate_congr (h : ∀ b ∈ rpo.drop 1, preds b = preds' b) :
    immediate preds rpo entry = immediate preds' rpo entry := by
  have hrounds : ∀ fuel idom, rounds preds rpo fuel idom = rounds preds' rpo fuel idom := by
    intro fuel
    induction fuel with
    | zero => exact fun _ => rfl
    | succ fuel ih =>
      intro idom
      rw [rounds, rounds, round_congr h]
      simp only [ih]
  exact hrounds _ _

end Rounds

end DominatorTree
