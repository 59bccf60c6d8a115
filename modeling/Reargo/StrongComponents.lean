import Mathlib.Algebra.BigOperators.Group.Finset.Basic
import Mathlib.Algebra.Order.BigOperators.Group.Finset
import Mathlib.Algebra.Ring.Nat

/-!
# Strongly connected components

One pass over a graph with an explicit stack of open nodes. A node is numbered when it is met,
keeps the lowest number it is known to reach among the nodes not yet put in a component, and
closes a component when that is its own. Components come out after those they have edges to.
-/
namespace StrongComponents

open List Option
open Function (update_apply update_of_ne update_self)

/-- The numbers given, the nodes not in a component yet (the last numbered first), the open nodes
with the edges looked at, and the components closed. -/
structure Scc where
  index : ℕ → Option ℕ
  low : ℕ → ℕ
  on : ℕ → Bool
  stack : List ℕ
  out : List (List ℕ)
  next : ℕ
  work : List (ℕ × ℕ)

def start : Scc := ⟨fun _ => none, fun _ => 0, fun _ => false, [], [], 0, []⟩

def visit (st : Scc) (w : ℕ) : Scc :=
  { st with
    index := Function.update st.index w (some st.next)
    low := Function.update st.low w st.next
    on := Function.update st.on w true
    stack := w :: st.stack
    next := st.next + 1
    work := (w, 0) :: st.work }

/-- The nodes above `v` and `v` itself, what is left, and the marks without them. -/
def unstack (v : ℕ) : List ℕ → (ℕ → Bool) → List ℕ × List ℕ × (ℕ → Bool)
  | [], on => ([], [], on)
  | w :: stack, on =>
    if w = v then ([w], stack, Function.update on w false)
    else
      let (comp, left, on) := unstack v stack (Function.update on w false)
      (w :: comp, left, on)

def lower (low : ℕ → ℕ) (v k : ℕ) : ℕ → ℕ := Function.update low v (min (low v) k)

/-- The open node below takes over the low number of one that is closed. -/
def passDown (low : ℕ → ℕ) (v : ℕ) : List (ℕ × ℕ) → ℕ → ℕ
  | (u, _) :: _ => lower low u (low v)
  | [] => low

/-- One turn of the loop: the next edge of the last open node, or its end. -/
def step (succ : List (List ℕ)) (st : Scc) : Scc :=
  match st.work with
  | [] => st
  | (v, i) :: work =>
    match (succ.getD v [])[i]? with
    | some w =>
      let st := { st with work := (v, i + 1) :: work }
      match st.index w with
      | none => visit st w
      | some k => if st.on w then { st with low := lower st.low v k } else st
    | none =>
      let st := { st with work := work, low := passDown st.low v work }
      if st.index v = some (st.low v) then
        let (comp, stack, on) := unstack v st.stack st.on
        { st with stack := stack, on := on, out := st.out ++ [comp] }
      else st

/-- The loop until no node is open. -/
def explore (succ : List (List ℕ)) : ℕ → Scc → Scc
  | 0, st => st
  | fuel + 1, st => if st.work = [] then st else explore succ fuel (step succ st)

/-- Every turn takes an edge or closes a node. -/
def turns (succ : List (List ℕ)) : ℕ :=
  ∑ v ∈ Finset.range succ.length, ((succ.getD v []).length + 1)

def exploreRoot (succ : List (List ℕ)) (st : Scc) (root : ℕ) : Scc :=
  match st.index root with
  | some _ => st
  | none => explore succ (turns succ) (visit st root)

def sccs (succ : List (List ℕ)) : List (List ℕ) :=
  ((List.range succ.length).foldl (exploreRoot succ) start).out

variable {p : ℕ}

section Graph

variable (succ : List (List ℕ))

def Edge (x y : ℕ) : Prop := y ∈ succ.getD x []

abbrev Reach : ℕ → ℕ → Prop := Relation.ReflTransGen (Edge succ)

structure Components (comps : List (List ℕ)) : Prop where
  all : ∀ v, v ∈ comps.flatten ↔ v < succ.length
  once : comps.flatten.Nodup
  nonempty : ∀ c ∈ comps, c ≠ []
  same : ∀ (p q : ℕ) (c d : List ℕ) (x y : ℕ), comps[p]? = some c → comps[q]? = some d →
    x ∈ c → y ∈ d → (p = q ↔ Reach succ x y ∧ Reach succ y x)
  after : ∀ (p q : ℕ) (c d : List ℕ) (x y : ℕ), comps[p]? = some c → comps[q]? = some d →
    x ∈ c → y ∈ d → Edge succ x y → q ≤ p

/-- Edges of the nodes put in components lead to the same component or one before it. -/
def Closed (comps : List (List ℕ)) : Prop :=
  ∀ (p : ℕ) (c : List ℕ), comps[p]? = some c → ∀ x ∈ c, ∀ y, Edge succ x y →
    ∃ q ≤ p, ∃ d : List ℕ, comps[q]? = some d ∧ y ∈ d

variable {succ}

variable {comps : List (List ℕ)}

theorem Closed.reach (h : Closed succ comps) {c : List ℕ} {x y : ℕ}
    (hp : comps[p]? = some c) (hx : x ∈ c) (hxy : Reach succ x y) :
    ∃ q ≤ p, ∃ d : List ℕ, comps[q]? = some d ∧ y ∈ d := by
  induction hxy with
  | refl => exact ⟨p, le_rfl, c, hp, hx⟩
  | tail _ hedge ih =>
    obtain ⟨q, hqp, d, hd, hy⟩ := ih
    obtain ⟨r, hrq, e, he, hz⟩ := h q d hd _ hy _ hedge
    exact ⟨r, hrq.trans hqp, e, he, hz⟩

theorem position_unique (hnodup : comps.flatten.Nodup) {q : ℕ} {c d : List ℕ} {x : ℕ}
    (hp : comps[p]? = some c) (hq : comps[q]? = some d) (hx : x ∈ c) (hx' : x ∈ d) : p = q := by
  obtain ⟨hlt, rfl⟩ := List.getElem?_eq_some_iff.mp hp
  obtain ⟨hlt', rfl⟩ := List.getElem?_eq_some_iff.mp hq
  have hpair := pairwise_iff_getElem.mp (nodup_flatten.mp hnodup).2
  by_contra hne
  rcases Nat.lt_or_gt_of_ne hne with hpq | hqp
  · exact hpair p q hlt hlt' hpq hx hx'
  · exact hpair q p hlt' hlt hqp hx' hx

theorem mem_flatten_iff {x : ℕ} :
    x ∈ comps.flatten ↔ ∃ (p : ℕ) (c : List ℕ), comps[p]? = some c ∧ x ∈ c := by
  rw [mem_flatten]
  constructor
  · rintro ⟨c, hc, hx⟩
    obtain ⟨p, hp⟩ := getElem?_of_mem hc
    exact ⟨p, c, hp, hx⟩
  · rintro ⟨p, c, hp, hx⟩
    exact ⟨c, mem_of_getElem? hp, hx⟩

theorem components_of_closed
    (hall : ∀ v, v ∈ comps.flatten ↔ v < succ.length) (hnodup : comps.flatten.Nodup)
    (hne : ∀ c ∈ comps, c ≠ []) (hclosed : Closed succ comps)
    (hstrong : ∀ c ∈ comps, ∀ x ∈ c, ∀ y ∈ c, Reach succ x y) : Components succ comps := by
  refine ⟨hall, hnodup, hne, fun p q c d x y hp hq hx hy => ⟨?_, ?_⟩,
    fun p q c d x y hp hq hx hy hedge => ?_⟩
  · rintro rfl
    rw [hp] at hq
    obtain rfl := some.inj hq
    have hc := mem_of_getElem? hp
    exact ⟨hstrong c hc x hx y hy, hstrong c hc y hy x hx⟩
  · rintro ⟨hxy, hyx⟩
    obtain ⟨q', hq'p, d', hd', hy'⟩ := hclosed.reach hp hx hxy
    obtain ⟨p', hp'q, c', hc', hx'⟩ := hclosed.reach hq hy hyx
    rw [position_unique hnodup hd' hq hy' hy] at hq'p
    rw [position_unique hnodup hc' hp hx' hx] at hp'q
    exact le_antisymm hp'q hq'p
  · obtain ⟨q', hq'p, d', hd', hy'⟩ := hclosed p c hp x hx y hedge
    rwa [position_unique hnodup hd' hq hy' hy] at hq'p

end Graph

variable {rest : List (ℕ × ℕ)} {v w : ℕ} {st' : Scc}

section Invariant

/-- The number of a node, 0 before it is met. -/
def num (st : Scc) (v : ℕ) : ℕ := (st.index v).getD 0

def frames (st : Scc) : List ℕ := st.work.map Prod.fst

/-- An edge the loop has looked at, or will not look at again. -/
def Seen (succ : List (List ℕ)) (st : Scc) (x y : ℕ) : Prop :=
  Edge succ x y ∧ ∀ i, (x, i) ∈ st.work → y ∈ (succ.getD x []).take i

/-- Open nodes reach what was numbered after them, and every node not in a component reaches an
open one numbered no later; the edges seen are below the low number of some open node. -/
structure Inv (succ : List (List ℕ)) (st : Scc) : Prop where
  on_iff : ∀ v, st.on v = true ↔ v ∈ st.stack
  met_iff : ∀ v, st.index v ≠ none ↔ v ∈ st.stack ∨ v ∈ st.out.flatten
  inside : ∀ v, st.index v ≠ none → v < succ.length
  below : ∀ v k, st.index v = some k → k < st.next
  order : st.stack.Pairwise fun a b => num st b < num st a
  open_sub : (frames st).Sublist st.stack
  apart : ∀ v ∈ st.stack, v ∉ st.out.flatten
  once : st.out.flatten.Nodup
  nonempty : ∀ c ∈ st.out, c ≠ []
  closed : Closed succ st.out
  strong : ∀ c ∈ st.out, ∀ x ∈ c, ∀ y ∈ c, Reach succ x y
  upward : ∀ v ∈ frames st, ∀ x ∈ st.stack, num st v ≤ num st x → Reach succ v x
  downward : ∀ x ∈ st.stack, ∃ v ∈ frames st, num st v ≤ num st x ∧ Reach succ x v
  low_at : ∀ v ∈ frames st, ∃ x ∈ st.stack, num st x = st.low v ∧ num st x ≤ num st v ∧
    Reach succ v x
  seen : ∀ x ∈ st.stack, ∀ y, Seen succ st x y → st.index y ≠ none
  lowest : ∀ p ∈ frames st, ∀ x ∈ st.stack, num st p ≤ num st x → ∀ y ∈ st.stack,
    Seen succ st x y → ∃ q ∈ frames st, num st p ≤ num st q ∧ st.low q ≤ num st y

variable {succ : List (List ℕ)} {st : Scc}

theorem inv_start : Inv succ start := by
  constructor
  · exact fun v => iff_of_false Bool.false_ne_true not_mem_nil
  · exact fun v => iff_of_false (fun h => h rfl) (fun h => h.elim not_mem_nil not_mem_nil)
  · exact fun v h => absurd rfl h
  · exact fun v k h => by cases h
  · exact List.Pairwise.nil
  · exact List.Sublist.refl _
  · exact fun v h => absurd h not_mem_nil
  · exact nodup_nil
  · exact fun c h => absurd h not_mem_nil
  · exact fun p c h => by cases h
  · exact fun c h => absurd h not_mem_nil
  · exact fun v h => absurd h not_mem_nil
  · exact fun v h => absurd h not_mem_nil
  · exact fun v h => absurd h not_mem_nil
  · exact fun v h => absurd h not_mem_nil
  · exact fun v h => absurd h not_mem_nil

theorem Inv.met (h : Inv succ st) (hv : v ∈ st.stack) : st.index v ≠ none :=
  (h.met_iff v).mpr (.inl hv)

theorem Inv.num_lt (h : Inv succ st) (hv : v ∈ st.stack) : num st v < st.next := by
  obtain ⟨k, hk⟩ := ne_none_iff_exists'.mp (h.met hv)
  unfold num
  rw [hk]
  exact h.below v k hk

theorem Inv.stack_nodup (h : Inv succ st) : st.stack.Nodup :=
  h.order.imp fun hlt heq => by
    rw [heq] at hlt
    exact lt_irrefl _ hlt

theorem num_visit (x : ℕ) : num (visit st w) x = if x = w then st.next else num st x := by
  unfold num visit
  simp only [update_apply]
  split <;> rfl

theorem frames_visit (w : ℕ) : frames (visit st w) = w :: frames st := rfl

theorem Seen.of_visit {x y : ℕ} (h : Seen succ (visit st w) x y) : x ≠ w ∧ Seen succ st x y := by
  constructor
  · rintro rfl
    have hnone := h.2 0 mem_cons_self
    rw [take_zero] at hnone
    exact not_mem_nil hnone
  · exact ⟨h.1, fun i hi => h.2 i (mem_cons_of_mem _ hi)⟩

theorem Inv.visit (h : Inv succ st) (hnew : st.index w = none) (hw : w < succ.length)
    (hreach : ∀ p ∈ frames st, Reach succ p w) : Inv succ (visit st w) := by
  have hnot : ∀ v, st.index v ≠ none → v ≠ w := fun v hv heq => hv (heq ▸ hnew)
  have hstack : ∀ x ∈ st.stack, x ≠ w := fun x hx => hnot x (h.met hx)
  have hnum : ∀ x ∈ st.stack, num (StrongComponents.visit st w) x = num st x := fun x hx => by
    rw [num_visit, if_neg (hstack x hx)]
  have hself : num (StrongComponents.visit st w) w = st.next := by
    rw [num_visit, if_pos rfl]
  have hframe : ∀ p ∈ frames st, p ∈ st.stack := fun p hp => h.open_sub.subset hp
  have hindex : ∀ v, (StrongComponents.visit st w).index v ≠ none ↔ v = w ∨ st.index v ≠ none := by
    intro v
    unfold StrongComponents.visit
    simp only [update_apply]
    by_cases hv : v = w
    · simp [hv]
    · simp [hv]
  have hlow : ∀ p ∈ frames st, (StrongComponents.visit st w).low p = st.low p := by
    intro p hp
    unfold StrongComponents.visit
    simp only
    rw [update_of_ne (hstack p (hframe p hp))]
  constructor
  · intro v
    unfold StrongComponents.visit
    simp only [update_apply, mem_cons]
    by_cases hv : v = w
    · simp [hv]
    · simp only [hv, if_false, false_or]
      exact h.on_iff v
  · intro v
    rw [hindex, h.met_iff v]
    unfold StrongComponents.visit
    simp only [mem_cons]
    exact or_assoc.symm
  · intro v hv
    rcases (hindex v).mp hv with rfl | hv
    · exact hw
    · exact h.inside v hv
  · intro v k hv
    unfold StrongComponents.visit at hv ⊢
    simp only [update_apply] at hv ⊢
    split at hv
    · obtain rfl := some.inj hv
      exact Nat.lt_succ_self _
    · exact Nat.lt_succ_of_lt (h.below v k hv)
  · refine pairwise_cons.mpr ⟨fun x hx => ?_, h.order.imp_of_mem fun ha hb hlt => ?_⟩
    · rw [hself, hnum x hx]
      exact h.num_lt hx
    · rwa [hnum _ ha, hnum _ hb]
  · exact h.open_sub.cons_cons w
  · intro v hv
    rcases mem_cons.mp hv with rfl | hv
    · exact fun hout => hnew |> (h.met_iff v).mpr (.inr hout)
    · exact h.apart v hv
  · exact h.once
  · exact h.nonempty
  · exact h.closed
  · exact h.strong
  · intro v hv x hx hle
    rw [frames_visit] at hv
    rcases mem_cons.mp hv with hvw | hv'
    · rcases mem_cons.mp hx with hxw | hx'
      · rw [hvw, hxw]
      · rw [hvw, hself, hnum x hx'] at hle
        exact absurd (h.num_lt hx') (not_lt.mpr hle)
    · rcases mem_cons.mp hx with hxw | hx'
      · rw [hxw]
        exact hreach v hv'
      · rw [hnum v (hframe v hv'), hnum x hx'] at hle
        exact h.upward v hv' x hx' hle
  · intro x hx
    rw [frames_visit]
    rcases mem_cons.mp hx with rfl | hx
    · exact ⟨x, mem_cons_self, le_rfl, Relation.ReflTransGen.refl⟩
    · obtain ⟨v, hv, hle, hxv⟩ := h.downward x hx
      refine ⟨v, mem_cons_of_mem _ hv, ?_, hxv⟩
      rwa [hnum v (hframe v hv), hnum x hx]
  · intro v hv
    rw [frames_visit] at hv
    rcases mem_cons.mp hv with rfl | hv
    · refine ⟨v, mem_cons_self, ?_, le_rfl, Relation.ReflTransGen.refl⟩
      rw [hself]
      exact (update_self v st.next st.low).symm
    · obtain ⟨x, hx, heq, hle, hvx⟩ := h.low_at v hv
      refine ⟨x, mem_cons_of_mem _ hx, ?_, ?_, hvx⟩
      · rw [hnum x hx, heq, hlow v hv]
      · rwa [hnum x hx, hnum v (hframe v hv)]
  · intro x hx y hseen
    obtain ⟨hxw, hseen'⟩ := hseen.of_visit
    have hx' := (mem_cons.mp hx).resolve_left hxw
    exact (hindex y).mpr (.inr (h.seen x hx' y hseen'))
  · intro p hp x hx hle y hy hseen
    obtain ⟨hxw, hseen'⟩ := hseen.of_visit
    have hx' := (mem_cons.mp hx).resolve_left hxw
    have hmet := h.seen x hx' y hseen'
    have hy' := (mem_cons.mp hy).resolve_left (hnot y hmet)
    rw [frames_visit] at hp ⊢
    rcases mem_cons.mp hp with rfl | hp
    · rw [hself, hnum x hx'] at hle
      exact absurd (h.num_lt hx') (not_lt.mpr hle)
    · rw [hnum p (hframe p hp), hnum x hx'] at hle
      obtain ⟨q, hq, hpq, hqy⟩ := h.lowest p hp x hx' hle y hy' hseen'
      refine ⟨q, mem_cons_of_mem _ hq, ?_, ?_⟩
      · rwa [hnum p (hframe p hp), hnum q (hframe q hq)]
      · rwa [hlow q hq, hnum y hy']

theorem Inv.frame_mem (h : Inv succ st) (hp : p ∈ frames st) : p ∈ st.stack :=
  h.open_sub.subset hp

theorem Inv.position_eq (h : Inv succ st) {i j : ℕ} (hi : (v, i) ∈ st.work)
    (hj : (v, j) ∈ st.work) : i = j := by
  have hnodup : (frames st).Nodup := h.stack_nodup.sublist h.open_sub
  have heq := inj_on_of_nodup_map hnodup hi hj rfl
  exact congrArg Prod.snd heq

theorem Inv.lowered (h : Inv succ st) {x : ℕ} (hx : x ∈ st.stack) (hvx : Reach succ v x) :
    Inv succ { st with low := lower st.low v (num st x) } := by
  have hle : ∀ q, lower st.low v (num st x) q ≤ st.low q := by
    intro q
    unfold lower
    rw [update_apply]
    split
    · next hq =>
      rw [hq]
      exact min_le_left _ _
    · exact le_rfl
  refine ⟨h.on_iff, h.met_iff, h.inside, h.below, h.order, h.open_sub, h.apart, h.once, h.nonempty,
    h.closed, h.strong, h.upward, h.downward, fun u hu => ?_, h.seen,
    fun p hp x hx hle' y hy hseen => ?_⟩
  · obtain ⟨z, hz, heq, hzu, huz⟩ := h.low_at u hu
    change ∃ z ∈ st.stack, num st z = lower st.low v (num st x) u ∧ num st z ≤ num st u ∧
      Reach succ u z
    unfold lower
    rw [update_apply]
    split
    · next huv =>
      rw [huv] at heq hzu huz ⊢
      rcases le_total (st.low v) (num st x) with hmin | hmin
      · rw [min_eq_left hmin]
        exact ⟨z, hz, heq, hzu, huz⟩
      · rw [min_eq_right hmin]
        exact ⟨x, hx, rfl, by omega, hvx⟩
    · exact ⟨z, hz, heq, hzu, huz⟩
  · obtain ⟨q, hq, hpq, hqy⟩ := h.lowest p hp x hx hle' y hy hseen
    exact ⟨q, hq, hpq, (hle q).trans hqy⟩

theorem Inv.advanced (h : Inv succ st) (pre : List (ℕ × ℕ)) {i : ℕ}
    (hwork : st.work = pre ++ (v, i) :: rest) (hedge : (succ.getD v [])[i]? = some w)
    (hmet : st.index w ≠ none)
    (hlow : w ∈ st.stack → ∃ q ∈ frames st, num st v ≤ num st q ∧ st.low q ≤ num st w) :
    Inv succ { st with work := pre ++ (v, i + 1) :: rest } := by
  have hframes : frames { st with work := pre ++ (v, i + 1) :: rest } = frames st := by
    unfold frames
    rw [hwork]
    simp
  have hvi : (v, i) ∈ st.work := by
    rw [hwork]
    simp
  have hv : v ∈ frames st := mem_map_of_mem hvi
  have hseen : ∀ x y, Seen succ { st with work := pre ++ (v, i + 1) :: rest } x y →
      Seen succ st x y ∨ (x = v ∧ y = w) := by
    intro x y hs
    by_cases hxv : x = v
    · subst hxv
      have hy := hs.2 (i + 1) (by simp)
      rw [take_add_one, hedge, mem_append] at hy
      rcases hy with hy | hy
      · refine .inl ⟨hs.1, fun j hj => ?_⟩
        rwa [h.position_eq hj hvi]
      · exact .inr ⟨rfl, by simpa using hy⟩
    · refine .inl ⟨hs.1, fun j hj => hs.2 j ?_⟩
      rw [hwork] at hj
      rcases mem_append.mp hj with hj | hj
      · exact mem_append_left _ hj
      · rcases mem_cons.mp hj with heq | hj
        · exact absurd (congrArg Prod.fst heq) hxv
        · exact mem_append_right _ (mem_cons_of_mem _ hj)
  refine ⟨h.on_iff, h.met_iff, h.inside, h.below, h.order, ?_, h.apart, h.once, h.nonempty,
    h.closed, h.strong, ?_, ?_, ?_, ?_, ?_⟩
  · rw [hframes]
    exact h.open_sub
  · rw [hframes]
    exact h.upward
  · rw [hframes]
    exact h.downward
  · rw [hframes]
    exact h.low_at
  · intro x hx y hs
    rcases hseen x y hs with hs | ⟨-, rfl⟩
    · exact h.seen x hx y hs
    · exact hmet
  · rw [hframes]
    intro p hp x hx hle y hy hs
    rcases hseen x y hs with hs | ⟨rfl, rfl⟩
    · exact h.lowest p hp x hx hle y hy hs
    · obtain ⟨q, hq, hxq, hqy⟩ := hlow hy
      exact ⟨q, hq, hle.trans hxq, hqy⟩

section Pop

variable {rest : List (ℕ × ℕ)} {v i : ℕ}

section

variable (hwork : st.work = (v, i) :: rest)

include hwork

theorem frames_cons : frames st = v :: rest.map Prod.fst := by
  unfold frames
  rw [hwork]
  rfl

theorem top_mem : v ∈ frames st := by
  rw [frames_cons hwork]
  exact mem_cons_self

/-- With its last edge looked at, closing a node makes no edge newly seen. -/
theorem seen_of_rest (hend : (succ.getD v [])[i]? = none) (hst' : st'.work = rest) {x y : ℕ}
    (hs : Seen succ st' x y) : Seen succ st x y := by
  refine ⟨hs.1, fun j hj => ?_⟩
  rw [hwork] at hj
  rcases mem_cons.mp hj with heq | hj
  · obtain ⟨rfl, rfl⟩ := Prod.mk.inj heq
    rw [take_of_length_le (getElem?_eq_none_iff.mp hend)]
    exact hs.1
  · exact hs.2 j (by rw [hst']; exact hj)

theorem mem_rest (hp : p ∈ frames st) (hlt : num st p < num st v) : p ∈ rest.map Prod.fst := by
  rw [frames_cons hwork] at hp
  refine (mem_cons.mp hp).resolve_left fun heq => ?_
  rw [heq] at hlt
  exact lt_irrefl _ hlt

end

variable (h : Inv succ st) (hwork : st.work = (v, i) :: rest)
include h hwork

/-- The last open node has the highest number among them. -/
theorem Inv.num_lt_top (hp : p ∈ rest.map Prod.fst) : num st p < num st v := by
  have horder := h.order.sublist h.open_sub
  rw [frames_cons hwork] at horder
  exact rel_of_pairwise_cons horder hp

theorem Inv.eq_top (hp : p ∈ frames st) (hle : num st v ≤ num st p) : p = v := by
  rw [frames_cons hwork] at hp
  refine (mem_cons.mp hp).resolve_right fun hp' => ?_
  exact not_lt.mpr hle (h.num_lt_top hwork hp')

theorem Inv.dropped (hend : (succ.getD v [])[i]? = none) (hlow : st.low v < num st v)
    (hbelow : ∀ u ∈ (rest.map Prod.fst).head?, st.low u ≤ st.low v) :
    Inv succ { st with work := rest } := by
  have hv := top_mem hwork
  have hsub : ∀ p ∈ rest.map Prod.fst, p ∈ frames st := fun p hp => by
    rw [frames_cons hwork]
    exact mem_cons_of_mem _ hp
  -- what the closed node reaches, and from there an open node below it
  obtain ⟨z, hz, hzlow, -, hvz⟩ := h.low_at v hv
  obtain ⟨u, hu, huz, hzu⟩ := h.downward z hz
  have hurest := mem_rest hwork hu (lt_of_le_of_lt huz (hzlow ▸ hlow))
  refine ⟨h.on_iff, h.met_iff, h.inside, h.below, h.order, ?_, h.apart, h.once, h.nonempty,
    h.closed, h.strong, ?_, ?_, ?_, ?_, ?_⟩
  · have hopen := h.open_sub
    rw [frames_cons hwork] at hopen
    exact (sublist_cons_self _ _).trans hopen
  · exact fun p hp => h.upward p (hsub p hp)
  · intro x hx
    obtain ⟨p, hp, hpx, hxp⟩ := h.downward x hx
    rcases lt_or_ge (num st p) (num st v) with hlt | hge
    · exact ⟨p, mem_rest hwork hp hlt, hpx, hxp⟩
    · rw [h.eq_top hwork hp hge] at hpx hxp
      refine ⟨u, hurest, ?_, (hxp.trans hvz).trans hzu⟩
      exact (huz.trans (hzlow ▸ hlow.le)).trans hpx
  · exact fun p hp => h.low_at p (hsub p hp)
  · exact fun x hx y hs => h.seen x hx y (seen_of_rest hwork hend rfl hs)
  · intro p hp x hx hle y hy hs
    obtain ⟨q, hq, hpq, hqy⟩ := h.lowest p (hsub p hp) x hx hle y hy
      (seen_of_rest hwork hend rfl hs)
    rcases lt_or_ge (num st q) (num st v) with hlt | hge
    · exact ⟨q, mem_rest hwork hq hlt, hpq, hqy⟩
    · rw [h.eq_top hwork hq hge] at hqy
      cases hrest : rest with
      | nil =>
        rw [hrest] at hp
        exact absurd hp not_mem_nil
      | cons e rest' =>
        rw [hrest] at hp hbelow
        refine ⟨e.1, mem_cons_self, ?_, (hbelow e.1 rfl).trans hqy⟩
        have horder := h.order.sublist h.open_sub
        rw [frames_cons hwork, hrest] at horder
        rcases mem_cons.mp hp with rfl | hp
        · exact le_rfl
        · exact (rel_of_pairwise_cons horder.of_cons hp).le

omit h hwork in
theorem unstack_spec {stack : List ℕ} (hv : v ∈ stack) (hnodup : stack.Nodup) (on : ℕ → Bool) :
    ∃ top left on', stack = top ++ v :: left ∧ unstack v stack on = (top ++ [v], left, on') ∧
      ∀ x, on' x = true ↔ on x = true ∧ x ∉ top ++ [v] := by
  induction stack generalizing on with
  | nil => exact absurd hv not_mem_nil
  | cons w stack ih =>
    have hon : ∀ x, Function.update on w false x = true ↔ on x = true ∧ x ≠ w := by
      intro x
      rw [update_apply]
      split
      · next hx => exact iff_of_false Bool.false_ne_true fun hne => hne.2 hx
      · next hx => exact (and_iff_left hx).symm
    unfold unstack
    by_cases hwv : w = v
    · rw [if_pos hwv, hwv]
      refine ⟨[], stack, _, rfl, rfl, fun x => ?_⟩
      rw [← hwv, hon x, nil_append, mem_singleton]
    · rw [if_neg hwv]
      have hv' : v ∈ stack := (mem_cons.mp hv).resolve_left fun heq => hwv heq.symm
      obtain ⟨top, left, on', hsplit, hunstack, hon'⟩ := ih hv' (nodup_cons.mp hnodup).2
        (Function.update on w false)
      rw [hunstack]
      refine ⟨w :: top, left, on', by rw [hsplit]; rfl, rfl, fun x => ?_⟩
      rw [hon' x, hon x, cons_append, mem_cons, not_or]
      tauto

theorem Inv.closed_off (hend : (succ.getD v [])[i]? = none) (hlow : st.low v = num st v)
    {top left : List ℕ} {on : ℕ → Bool} (hstack : st.stack = top ++ v :: left)
    (hon : ∀ x, on x = true ↔ st.on x = true ∧ x ∉ top ++ [v]) :
    Inv succ { st with work := rest, stack := left, on := on, out := st.out ++ [top ++ [v]] } := by
  have hv := top_mem hwork
  have hvs := h.frame_mem hv
  have hsub : ∀ p ∈ rest.map Prod.fst, p ∈ frames st := fun p hp => by
    rw [frames_cons hwork]
    exact mem_cons_of_mem _ hp
  have hmem : ∀ x, x ∈ st.stack ↔ x ∈ top ++ [v] ∨ x ∈ left := by
    intro x
    rw [hstack]
    simp only [mem_append, mem_cons, not_mem_nil, or_false]
    exact or_assoc.symm
  have horder := h.order
  rw [hstack, pairwise_append] at horder
  obtain ⟨-, htail, habove⟩ := horder
  have hflat : ∀ x, x ∈ (st.out ++ [top ++ [v]]).flatten ↔ x ∈ st.out.flatten ∨ x ∈ top ++ [v] := by
    intro x
    rw [flatten_append, flatten_singleton, mem_append]
  have hleft : ∀ x ∈ left, num st x < num st v := fun x hx => rel_of_pairwise_cons htail hx
  have hcomp : ∀ x ∈ top ++ [v], num st v ≤ num st x := by
    intro x hx
    rcases mem_append.mp hx with hx | hx
    · exact (habove x hx v mem_cons_self).le
    · rw [mem_singleton.mp hx]
  have hin : ∀ x ∈ st.stack, num st v ≤ num st x → x ∈ top ++ [v] := fun x hx hle =>
    ((hmem x).mp hx).resolve_right fun hl => not_lt.mpr hle (hleft x hl)
  have hout : ∀ x ∈ st.stack, num st x < num st v → x ∈ left := fun x hx hlt =>
    ((hmem x).mp hx).resolve_left fun hc => not_lt.mpr (hcomp x hc) hlt
  have hlefts : ∀ x ∈ left, x ∈ st.stack := fun x hx => (hmem x).mpr (.inr hx)
  have hcomps : ∀ x ∈ top ++ [v], x ∈ st.stack := fun x hx => (hmem x).mpr (.inl hx)
  -- every edge out of the component was looked at, and none leads below it
  have hedges : ∀ x ∈ top ++ [v], ∀ y, Edge succ x y → y ∈ top ++ [v] ∨ y ∈ st.out.flatten := by
    intro x hx y hxy
    have hs : Seen succ st x y := by
      refine ⟨hxy, fun j hj => ?_⟩
      have hxv : x = v := h.eq_top hwork (mem_map_of_mem hj) (hcomp x hx)
      have hvi : (x, i) ∈ st.work := by
        rw [hwork, hxv]
        exact mem_cons_self
      rw [h.position_eq hj hvi, hxv, take_of_length_le (getElem?_eq_none_iff.mp hend)]
      rw [hxv] at hxy
      exact hxy
    rcases (h.met_iff y).mp (h.seen x (hcomps x hx) y hs) with hy | hy
    · obtain ⟨q, hq, hvq, hqy⟩ := h.lowest v hv x (hcomps x hx) (hcomp x hx) y hy hs
      rw [h.eq_top hwork hq hvq, hlow] at hqy
      exact .inl (hin y hy hqy)
    · exact .inr hy
  have hto : ∀ x ∈ top ++ [v], Reach succ x v := by
    intro x hx
    obtain ⟨u, hu, -, hxu⟩ := h.downward x (hcomps x hx)
    rcases lt_or_ge (num st u) (num st v) with hlt | hge
    · exact hxu.trans (h.upward u hu v hvs hlt.le)
    · rwa [h.eq_top hwork hu hge] at hxu
  constructor
  · intro x
    change on x = true ↔ x ∈ left
    rw [hon x, h.on_iff x, hmem x]
    constructor
    · rintro ⟨hx | hx, hnot⟩
      · exact absurd hx hnot
      · exact hx
    · intro hx
      exact ⟨.inr hx, fun hc => not_lt.mpr (hcomp x hc) (hleft x hx)⟩
  · intro x
    change st.index x ≠ none ↔ x ∈ left ∨ x ∈ (st.out ++ [top ++ [v]]).flatten
    rw [h.met_iff x, hmem x, hflat x]
    tauto
  · exact h.inside
  · exact h.below
  · exact htail.of_cons
  · change (rest.map Prod.fst).Sublist left
    have hopen := h.open_sub
    rw [frames_cons hwork, hstack] at hopen
    have hvtop : v ∉ top := fun hvt => lt_irrefl _ (habove v hvt v mem_cons_self)
    clear hstack hmem habove hcomp hin hout hcomps hedges hto hon hflat
    induction top with
    | nil => exact cons_sublist_cons.mp hopen
    | cons t top ih =>
      cases hopen with
      | cons _ hopen => exact ih hopen fun hvt => hvtop (mem_cons_of_mem _ hvt)
      | cons_cons _ _ => exact absurd mem_cons_self hvtop
  · intro x hx
    change x ∉ (st.out ++ [top ++ [v]]).flatten
    rw [hflat x, not_or]
    exact ⟨h.apart x (hlefts x hx), fun hc => not_lt.mpr (hcomp x hc) (hleft x hx)⟩
  · change (st.out ++ [top ++ [v]]).flatten.Nodup
    rw [flatten_append, flatten_singleton, nodup_append]
    refine ⟨h.once, ?_, fun x hx y hy heq => h.apart y (hcomps y hy) (heq ▸ hx)⟩
    refine h.stack_nodup.sublist ?_
    rw [hstack]
    exact List.Sublist.append_left (singleton_sublist.mpr mem_cons_self) top
  · intro c hc
    rcases mem_append.mp hc with hc | hc
    · exact h.nonempty c hc
    · rw [mem_singleton.mp hc]
      exact append_ne_nil_of_right_ne_nil _ (cons_ne_nil _ _)
  · intro p c hp x hx y hxy
    have hold : y ∈ st.out.flatten → ∃ q < st.out.length, ∃ d : List ℕ,
        (st.out ++ [top ++ [v]])[q]? = some d ∧ y ∈ d := by
      intro hy
      obtain ⟨q, d, hq, hyd⟩ := mem_flatten_iff.mp hy
      have hlt := (List.getElem?_eq_some_iff.mp hq).1
      exact ⟨q, hlt, d, by rwa [List.getElem?_append_left hlt], hyd⟩
    rcases Nat.lt_or_ge p st.out.length with hlt | hge
    · rw [List.getElem?_append_left hlt] at hp
      obtain ⟨q, hq, d, hd, hy⟩ := h.closed p c hp x hx y hxy
      refine ⟨q, hq, d, ?_, hy⟩
      rwa [getElem?_append_left (lt_of_le_of_lt hq hlt)]
    · rw [getElem?_append_right hge, getElem?_singleton] at hp
      split at hp
      · next hzero =>
        obtain rfl := some.inj hp
        rcases hedges x hx y hxy with hy | hy
        · refine ⟨p, le_rfl, _, ?_, hy⟩
          rw [getElem?_append_right hge, getElem?_singleton, if_pos hzero]
        · obtain ⟨q, hq, d, hd, hyd⟩ := hold hy
          exact ⟨q, by omega, d, hd, hyd⟩
      · cases hp
  · intro c hc
    rcases mem_append.mp hc with hc | hc
    · exact h.strong c hc
    · rw [mem_singleton.mp hc]
      exact fun x hx y hy => (hto x hx).trans (h.upward v hv y (hcomps y hy) (hcomp y hy))
  · exact fun p hp x hx hle => h.upward p (hsub p hp) x (hlefts x hx) hle
  · intro x hx
    obtain ⟨p, hp, hpx, hxp⟩ := h.downward x (hlefts x hx)
    exact ⟨p, mem_rest hwork hp (lt_of_le_of_lt hpx (hleft x hx)), hpx, hxp⟩
  · intro p hp
    obtain ⟨z, hz, heq, hzp, hpz⟩ := h.low_at p (hsub p hp)
    exact ⟨z, hout z hz (lt_of_le_of_lt hzp (h.num_lt_top hwork hp)), heq, hzp, hpz⟩
  · exact fun x hx y hs => h.seen x (hlefts x hx) y (seen_of_rest hwork hend rfl hs)
  · intro p hp x hx hle y hy hs
    obtain ⟨q, hq, hpq, hqy⟩ := h.lowest p (hsub p hp) x (hlefts x hx) hle y (hlefts y hy)
      (seen_of_rest hwork hend rfl hs)
    refine ⟨q, ?_, hpq, hqy⟩
    rcases lt_or_ge (num st q) (num st v) with hlt | hge
    · exact mem_rest hwork hq hlt
    · rw [h.eq_top hwork hq hge, hlow] at hqy
      exact absurd (hleft y hy) (not_lt.mpr hqy)

end Pop

theorem Inv.index_eq (h : Inv succ st) (hv : v ∈ st.stack) : st.index v = some (num st v) := by
  obtain ⟨k, hk⟩ := ne_none_iff_exists'.mp (h.met hv)
  unfold num
  rw [hk]
  rfl

theorem Inv.low_le (h : Inv succ st) (hv : v ∈ frames st) : st.low v ≤ num st v := by
  obtain ⟨z, -, heq, hle, -⟩ := h.low_at v hv
  exact heq ▸ hle

theorem inv_step (hrange : ∀ x y, Edge succ x y → y < succ.length) (h : Inv succ st) :
    Inv succ (step succ st) := by
  cases hwork : st.work with
  | nil =>
    unfold step
    rw [hwork]
    exact h
  | cons e rest =>
    obtain ⟨v, i⟩ := e
    have hv := top_mem hwork
    have hvs := h.frame_mem hv
    cases hedge : (succ.getD v [])[i]? with
    | some w =>
      have hvw : Edge succ v w := mem_of_getElem? hedge
      cases hw : st.index w with
      | none =>
        have hstep : step succ st = visit { st with work := (v, i + 1) :: rest } w := by
          unfold step
          simp only [hwork, hedge, hw]
        have hne : v ≠ w := fun heq => h.met hvs (heq ▸ hw)
        have hmeet := h.visit hw (hrange v w hvw) fun p hp => by
          refine (h.upward p hp v hvs ?_).tail hvw
          rw [frames_cons hwork] at hp
          rcases mem_cons.mp hp with rfl | hp
          · exact le_rfl
          · exact (h.num_lt_top hwork hp).le
        have hwork' : (visit st w).work = [(w, 0)] ++ (v, i) :: rest := by
          rw [← hwork]
          rfl
        rw [hstep]
        refine hmeet.advanced [(w, 0)] hwork' hedge (hmeet.met mem_cons_self) fun _ => ?_
        refine ⟨w, mem_cons_self, ?_, ?_⟩
        · rw [num_visit, num_visit, if_neg hne, if_pos rfl]
          exact (h.num_lt hvs).le
        · rw [num_visit, if_pos rfl]
          exact (update_self w st.next st.low).le
      | some k =>
        have hmet : st.index w ≠ none := hw ▸ some_ne_none k
        have hnum : num st w = k := by
          unfold num
          rw [hw]
          rfl
        cases hon : st.on w with
        | true =>
          have hstep : step succ st =
              { st with low := lower st.low v (num st w), work := (v, i + 1) :: rest } := by
            unfold step
            simp only [hwork, hedge, hw, hon, if_true, hnum]
          have hws := (h.on_iff w).mp hon
          have hlowered := h.lowered hws (Relation.ReflTransGen.single hvw)
          rw [hstep]
          refine hlowered.advanced [] hwork hedge hmet fun _ => ⟨v, hv, le_rfl, ?_⟩
          change lower st.low v (num st w) v ≤ num st w
          unfold lower
          rw [update_self]
          exact min_le_right _ _
        | false =>
          have hstep : step succ st = { st with work := (v, i + 1) :: rest } := by
            unfold step
            simp only [hwork, hedge, hw, hon, Bool.false_eq_true, if_false]
          rw [hstep]
          refine h.advanced [] hwork hedge hmet fun hws => ?_
          rw [(h.on_iff w).mpr hws] at hon
          cases hon
    | none =>
      generalize hlow' : passDown st.low v rest = low'
      have hstep : step succ st = if st.index v = some (low' v) then
            { st with
              work := rest, low := low'
              stack := (unstack v st.stack st.on).2.1, on := (unstack v st.stack st.on).2.2
              out := st.out ++ [(unstack v st.stack st.on).1] }
          else { st with work := rest, low := low' } := by
        unfold step
        simp only [hwork, hedge, hlow']
      have hlowv : low' v = st.low v := by
        rw [← hlow']
        cases rest with
        | nil => rfl
        | cons e rest =>
          have hlt := h.num_lt_top hwork (p := e.1) mem_cons_self
          have hne : v ≠ e.1 := fun heq => lt_irrefl _ (heq ▸ hlt)
          exact update_of_ne hne _ _
      rw [hstep, hlowv, h.index_eq hvs]
      split
      · next heq =>
        have hroot : st.low v = num st v := (some.inj heq).symm
        have hkeep : low' = st.low := by
          rw [← hlow']
          cases rest with
          | nil => rfl
          | cons e rest =>
            have hlt := h.num_lt_top hwork (p := e.1) mem_cons_self
            have hle := h.low_le (v := e.1) (by
              rw [frames_cons hwork]
              exact mem_cons_of_mem _ mem_cons_self)
            change lower st.low e.1 (st.low v) = st.low
            unfold lower
            rw [min_eq_left (by omega)]
            exact Function.update_eq_self e.1 st.low
        obtain ⟨top, left, on, hstack, hun, hon⟩ := unstack_spec hvs h.stack_nodup st.on
        rw [hkeep, hun]
        exact h.closed_off hwork hedge hroot hstack hon
      · next hne =>
        have hlt : st.low v < num st v :=
          lt_of_le_of_ne (h.low_le hv) fun heq => hne (congrArg some heq.symm)
        obtain ⟨z, hz, hzlow, -, hvz⟩ := h.low_at v hv
        obtain ⟨u, hu, huz, -⟩ := h.downward z hz
        have hurest := mem_rest hwork hu (lt_of_le_of_lt huz (hzlow ▸ hlt))
        cases rest with
        | nil => exact absurd hurest not_mem_nil
        | cons e rest =>
          have he : e.1 ∈ frames st := by
            rw [frames_cons hwork]
            exact mem_cons_of_mem _ mem_cons_self
          have hltv := h.num_lt_top hwork (p := e.1) mem_cons_self
          have hlowered := h.lowered hz ((h.upward e.1 he v hvs hltv.le).trans hvz)
          rw [hzlow] at hlowered
          rw [← hlow']
          rw [← hlow'] at hlowv
          refine hlowered.dropped hwork hedge ?_ fun p hp => ?_
          · exact lt_of_eq_of_lt hlowv hlt
          · obtain rfl := some.inj hp
            refine le_trans (le_of_eq (update_self _ _ _)) ?_
            exact le_trans (min_le_right _ _) (le_of_eq hlowv.symm)

end Invariant

section Run

variable {succ : List (List ℕ)} {st : Scc}

/-- The turns left: the edges and ends of the nodes not met, and those of the open nodes. -/
def turnsLeft (succ : List (List ℕ)) (st : Scc) : ℕ :=
  (∑ v ∈ Finset.range succ.length, if (st.index v).isNone then (succ.getD v []).length + 1 else 0) +
    (st.work.map fun e => (succ.getD e.1 []).length - e.2 + 1).sum

theorem turnsLeft_visit (hnew : st.index w = none) (hw : w < succ.length) :
    turnsLeft succ (visit st w) = turnsLeft succ st := by
  have hmem : w ∈ Finset.range succ.length := Finset.mem_range.mpr hw
  unfold turnsLeft visit
  simp only [map_cons, sum_cons, Nat.sub_zero]
  rw [← Finset.add_sum_erase _ _ hmem, ← Finset.add_sum_erase _ (fun v =>
    if (st.index v).isNone then (succ.getD v []).length + 1 else 0) hmem]
  have hrest : ∑ v ∈ (Finset.range succ.length).erase w,
      (if (Function.update st.index w (some st.next) v).isNone then (succ.getD v []).length + 1
        else 0) =
      ∑ v ∈ (Finset.range succ.length).erase w,
        if (st.index v).isNone then (succ.getD v []).length + 1 else 0 := by
    refine Finset.sum_congr rfl fun v hv => ?_
    rw [update_of_ne (Finset.ne_of_mem_erase hv)]
  rw [hrest]
  simp only [hnew, update_self, isNone_none, isNone_some,
    Bool.false_eq_true, if_true, if_false]
  omega

theorem turnsLeft_advance {i : ℕ} (hwork : st.work = (v, i) :: rest)
    (hedge : i < (succ.getD v []).length) (hindex : st'.index = st.index)
    (hwork' : st'.work = (v, i + 1) :: rest) : turnsLeft succ st' < turnsLeft succ st := by
  unfold turnsLeft
  rw [hindex, hwork, hwork']
  simp only [map_cons, sum_cons]
  omega

theorem turnsLeft_close {i : ℕ} (hwork : st.work = (v, i) :: rest)
    (hindex : st'.index = st.index) (hwork' : st'.work = rest) :
    turnsLeft succ st' < turnsLeft succ st := by
  unfold turnsLeft
  rw [hindex, hwork, hwork']
  simp only [map_cons, sum_cons]
  omega

variable (hrange : ∀ x y, Edge succ x y → y < succ.length)

include hrange

/-- A turn brings the end nearer and forgets no node. -/
theorem step_progress (hopen : st.work ≠ []) : turnsLeft succ (step succ st) < turnsLeft succ st ∧
      ∀ v, st.index v ≠ none → (step succ st).index v ≠ none := by
  cases hwork : st.work with
  | nil => exact absurd hwork hopen
  | cons e rest =>
    obtain ⟨v, i⟩ := e
    unfold step
    simp only [hwork]
    cases hedge : (succ.getD v [])[i]? with
    | some w =>
      have hlt := (List.getElem?_eq_some_iff.mp hedge).1
      simp only
      cases hw : st.index w with
      | none =>
        constructor
        · have hvw : Edge succ v w := mem_of_getElem? hedge
          refine lt_of_eq_of_lt (turnsLeft_visit hw (hrange v w hvw)) ?_
          exact turnsLeft_advance hwork hlt rfl rfl
        · intro x hx
          unfold visit
          simp only [update_apply]
          split
          · exact some_ne_none _
          · exact hx
      | some k =>
        simp only
        split
        · exact ⟨turnsLeft_advance hwork hlt rfl rfl, fun _ hx => hx⟩
        · exact ⟨turnsLeft_advance hwork hlt rfl rfl, fun _ hx => hx⟩
    | none =>
      simp only
      split
      · exact ⟨turnsLeft_close hwork rfl rfl, fun _ hx => hx⟩
      · exact ⟨turnsLeft_close hwork rfl rfl, fun _ hx => hx⟩

theorem explore_spec (fuel : ℕ) (h : Inv succ st) (hfuel : turnsLeft succ st ≤ fuel) :
    Inv succ (explore succ fuel st) ∧ (explore succ fuel st).work = [] ∧
      ∀ v, st.index v ≠ none → (explore succ fuel st).index v ≠ none := by
  induction fuel generalizing st with
  | zero =>
    refine ⟨h, ?_, fun _ hv => hv⟩
    cases hwork : st.work with
    | nil => exact hwork
    | cons e rest =>
      unfold turnsLeft at hfuel
      rw [hwork, map_cons, sum_cons] at hfuel
      omega
  | succ fuel ih =>
    unfold explore
    split
    · next hdone => exact ⟨h, hdone, fun _ hv => hv⟩
    · next hopen =>
      obtain ⟨hlt, hkeep⟩ := step_progress hrange hopen
      obtain ⟨hinv, hdone, hmet⟩ := ih (inv_step hrange h) (by omega)
      exact ⟨hinv, hdone, fun v hv => hmet v (hkeep v hv)⟩

theorem exploreRoot_spec (h : Inv succ st)
    (hdone : st.work = []) {root : ℕ} (hroot : root < succ.length) :
    Inv succ (exploreRoot succ st root) ∧ (exploreRoot succ st root).work = [] ∧
      ∀ v, st.index v ≠ none ∨ v = root → (exploreRoot succ st root).index v ≠ none := by
  unfold exploreRoot
  cases hnew : st.index root with
  | some k =>
    refine ⟨h, hdone, fun v hv => ?_⟩
    rcases hv with hv | rfl
    · exact hv
    · rw [hnew]
      exact some_ne_none k
  | none =>
    have hnoframe : frames st = [] := by
      unfold frames
      rw [hdone]
      rfl
    have hmeet := h.visit hnew hroot fun p hp => absurd (hnoframe ▸ hp) not_mem_nil
    have hfuel : turnsLeft succ (visit st root) ≤ turns succ := by
      rw [turnsLeft_visit hnew hroot]
      unfold turnsLeft turns
      rw [hdone, map_nil, sum_nil, add_zero]
      refine Finset.sum_le_sum fun v _ => ?_
      split
      · exact le_rfl
      · exact Nat.zero_le _
    obtain ⟨hinv, hdone', hmet⟩ := explore_spec hrange (turns succ) hmeet hfuel
    refine ⟨hinv, hdone', fun v hv => hmet v ?_⟩
    unfold visit
    simp only [update_apply]
    split
    · exact some_ne_none _
    · next hne => exact hv.resolve_right hne

theorem foldl_exploreRoot_spec (roots : List ℕ) (h : Inv succ st) (hdone : st.work = [])
    (hroots : ∀ r ∈ roots, r < succ.length) :
    Inv succ (roots.foldl (exploreRoot succ) st) ∧ (roots.foldl (exploreRoot succ) st).work = [] ∧
        ∀ v, st.index v ≠ none ∨ v ∈ roots →
          (roots.foldl (exploreRoot succ) st).index v ≠ none := by
  induction roots generalizing st with
  | nil => exact ⟨h, hdone, fun v hv => hv.resolve_right not_mem_nil⟩
  | cons root roots ih =>
    obtain ⟨hinv, hdone', hmet⟩ := exploreRoot_spec hrange h hdone (hroots root mem_cons_self)
    obtain ⟨hinv', hdone'', hmet'⟩ := ih hinv hdone' fun r hr => hroots r (mem_cons_of_mem _ hr)
    refine ⟨hinv', hdone'', fun v hv => hmet' v ?_⟩
    rcases hv with hv | hv
    · exact .inl (hmet v (.inl hv))
    · rcases mem_cons.mp hv with hv | hv
      · exact .inl (hmet v (.inr hv))
      · exact .inr hv

/-- The pass finds the strongly connected components, callees first. -/
theorem components_sccs : Components succ (sccs succ) := by
  obtain ⟨hinv, hdone, hmet⟩ := foldl_exploreRoot_spec hrange (range succ.length) inv_start
    rfl fun r hr => mem_range.mp hr
  unfold sccs
  generalize (range succ.length).foldl (exploreRoot succ) start = st at hinv hdone hmet
  have hempty : ∀ x, x ∉ st.stack := by
    intro x hx
    obtain ⟨v, hv, -⟩ := hinv.downward x hx
    unfold frames at hv
    rw [hdone] at hv
    exact not_mem_nil hv
  refine components_of_closed (fun v => ⟨fun hv => ?_, fun hv => ?_⟩) hinv.once hinv.nonempty
    hinv.closed hinv.strong
  · exact hinv.inside v ((hinv.met_iff v).mpr (.inr hv))
  · have hv' := hmet v (.inr (mem_range.mpr hv))
    exact ((hinv.met_iff v).mp hv').resolve_left (hempty v)

example : sccs [[1], [2], [0, 3], [3]] = [[3], [2, 1, 0]] := by
  decide +kernel

end Run

end StrongComponents
