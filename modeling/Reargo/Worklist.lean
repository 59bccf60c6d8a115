import Mathlib.Tactic
import Mathlib.Data.List.GetD

/-!
# Marking the reachable nodes of a finite graph

A stack of nodes to visit over a list of marks. Nodes outside the list count as
marked. The marks of the search from one node are the nodes reachable from it.
-/
namespace Worklist

open List

def marked (marks : List Bool) (b : ℕ) : Bool := marks.getD b true

theorem marked_set (marks : List Bool) (b x : ℕ) :
    marked (marks.set b true) x = (marked marks x || decide (x = b)) := by
  unfold marked
  rw [getD_eq_getElem?_getD, getD_eq_getElem?_getD, getElem?_set]
  by_cases hx : b = x
  · subst hx
    by_cases hlt : b < marks.length
    · simp [hlt]
    · simp [hlt]
  · simp [hx, Ne.symm hx]

theorem count_set_false {marks : List Bool} {b : ℕ} (h : marked marks b = false) :
    (marks.set b true).count false + 1 = marks.count false := by
  unfold marked at h
  have hlt : b < marks.length := by
    by_contra hge
    rw [getD_eq_default _ _ (by omega)] at h
    cases h
  have hb : marks[b] = false := by
    rwa [getD_eq_getElem _ _ hlt] at h
  have hpos : 0 < marks.count false := count_pos_iff.mpr (hb ▸ getElem_mem hlt)
  have hcount : (marks.set b true).count false = marks.count false - 1 := by
    rw [count_set hlt, hb]
    simp
  omega

theorem count_set_lt {marks : List Bool} {b : ℕ} (h : marked marks b = false) :
    (marks.set b true).count false < marks.count false := by
  have hcount := count_set_false h
  omega

/-- Pop a node; mark it and push its unmarked successors, the last on top. -/
def explore (next : ℕ → List ℕ) (marks : List Bool) (stack : List ℕ) : List Bool :=
  match stack with
  | [] => marks
  | b :: rest =>
    if _h : marked marks b then explore next marks rest
    else explore next (marks.set b true)
      (((next b).filter fun s => !marked (marks.set b true) s).reverse ++ rest)
termination_by (marks.count false, stack.length)
decreasing_by
  · exact Prod.Lex.right _ (Nat.lt_succ_self _)
  · exact Prod.Lex.left _ _ (count_set_lt (Bool.eq_false_of_not_eq_true _h))

variable {next : ℕ → List ℕ}

def Edge (next : ℕ → List ℕ) (b s : ℕ) : Prop := s ∈ next b

abbrev Reachable (next : ℕ → List ℕ) : ℕ → ℕ → Prop := Relation.ReflTransGen (Edge next)

theorem marked_explore_of (marks : List Bool) (stack : List ℕ) {x : ℕ}
    (hx : marked marks x = true ∨ x ∈ stack) : marked (explore next marks stack) x = true := by
  induction marks, stack using explore.induct next with
  | case1 marks =>
    rw [explore]
    exact hx.resolve_right not_mem_nil
  | case2 marks b rest h ih =>
    rw [explore, dif_pos h]
    refine ih ?_
    rcases hx with hx | hx
    · exact .inl hx
    · rcases mem_cons.mp hx with rfl | hx
      · exact .inl h
      · exact .inr hx
  | case3 marks b rest h ih =>
    rw [explore, dif_neg h]
    refine ih ?_
    rw [marked_set]
    rcases hx with hx | hx
    · exact .inl (by rw [hx, Bool.true_or])
    · rcases mem_cons.mp hx with rfl | hx
      · exact .inl (by simp)
      · exact .inr (mem_append_right _ hx)

theorem reachable_of_marked (marks : List Bool) (stack : List ℕ) {x : ℕ}
    (hx : marked (explore next marks stack) x = true) :
    marked marks x = true ∨ ∃ b ∈ stack, Reachable next b x := by
  induction marks, stack using explore.induct next with
  | case1 marks =>
    rw [explore] at hx
    exact .inl hx
  | case2 marks b rest h ih =>
    rw [explore, dif_pos h] at hx
    rcases ih hx with hx | ⟨c, hc, hr⟩
    · exact .inl hx
    · exact .inr ⟨c, mem_cons_of_mem _ hc, hr⟩
  | case3 marks b rest h ih =>
    rw [explore, dif_neg h] at hx
    rcases ih hx with hx | ⟨c, hc, hr⟩
    · rw [marked_set, Bool.or_eq_true, decide_eq_true_eq] at hx
      rcases hx with hx | rfl
      · exact .inl hx
      · exact .inr ⟨x, mem_cons_self, .refl⟩
    · rcases mem_append.mp hc with hc | hc
      · have hs := (mem_filter.mp (mem_reverse.mp hc)).1
        exact .inr ⟨b, mem_cons_self, .head hs hr⟩
      · exact .inr ⟨c, mem_cons_of_mem _ hc, hr⟩

theorem explore_closed (marks : List Bool) (stack : List ℕ)
    (hinv : ∀ b, b < marks.length → marked marks b = true → ∀ s ∈ next b,
      marked marks s = true ∨ s ∈ stack) :
    ∀ b, b < marks.length → marked (explore next marks stack) b = true → ∀ s ∈ next b,
      marked (explore next marks stack) s = true := by
  induction marks, stack using explore.induct next with
  | case1 marks =>
    rw [explore]
    exact fun b hb hm s hs => (hinv b hb hm s hs).resolve_right not_mem_nil
  | case2 marks b rest h ih =>
    rw [explore, dif_pos h]
    refine ih fun c hc hm s hs => ?_
    rcases hinv c hc hm s hs with hm' | hmem
    · exact .inl hm'
    · rcases mem_cons.mp hmem with rfl | hmem
      · exact .inl h
      · exact .inr hmem
  | case3 marks b rest h ih =>
    rw [explore, dif_neg h]
    have hlen : (marks.set b true).length = marks.length := length_set
    rw [← hlen]
    refine ih fun c hc hm s hs => ?_
    by_cases hsm : marked (marks.set b true) s = true
    · exact .inl hsm
    · right
      rw [marked_set, Bool.or_eq_true, decide_eq_true_eq] at hm
      rcases hm with hm | rfl
      · rcases hinv c (hlen ▸ hc) hm s hs with hm' | hmem
        · rw [marked_set, hm', Bool.true_or] at hsm
          exact absurd rfl hsm
        · rcases mem_cons.mp hmem with rfl | hmem
          · rw [marked_set] at hsm
            simp at hsm
          · exact mem_append_right _ hmem
      · refine mem_append_left _ (mem_reverse.mpr (mem_filter.mpr ⟨hs, ?_⟩))
        simpa using hsm

/-- The nodes reachable from `entry` in a graph of `n` nodes. -/
def reachFrom (next : ℕ → List ℕ) (n entry : ℕ) : List Bool :=
  explore next (List.replicate n false) [entry]

theorem marked_reachFrom {n entry : ℕ} (hentry : entry < n)
    (hnext : ∀ b, b < n → ∀ s ∈ next b, s < n) {x : ℕ} (hx : x < n) :
    marked (reachFrom next n entry) x = true ↔ Reachable next entry x := by
  have hempty : ∀ y < n, marked (replicate n false) y = false := by
    intro y hy
    unfold marked
    rw [getD_eq_getElem _ _ (by simpa using hy), getElem_replicate]
  constructor
  · intro h
    rcases reachable_of_marked _ _ h with hm | ⟨b, hb, hr⟩
    · rw [hempty x hx] at hm
      cases hm
    · rw [mem_singleton] at hb
      exact hb ▸ hr
  · intro hr
    have hclosed : ∀ b, b < (replicate n false).length →
        marked (reachFrom next n entry) b = true → ∀ s ∈ next b,
          marked (reachFrom next n entry) s = true := by
      refine explore_closed (replicate n false) [entry] ?_
      intro b hb hm
      rw [hempty b (by simpa using hb)] at hm
      cases hm
    have hlt : x < n ∧ marked (reachFrom next n entry) x = true := by
      clear hx
      induction hr with
      | refl => exact ⟨hentry, marked_explore_of _ _ (.inr mem_cons_self)⟩
      | tail _ hs ih => exact ⟨hnext _ ih.1 _ hs, hclosed _ (by simpa using ih.1) ih.2 _ hs⟩
    exact hlt.2

end Worklist
