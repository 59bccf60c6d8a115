import Mathlib.Tactic

/-!
# Walking a tree with an explicit stack

Nodes are entered before their children and left after them. The actions on entry and
exit change a state the walk itself does not look at.
-/
namespace TreeWalk

open List

structure Walk (σ : Type) where
  /-- Nodes entered so far, the last first. -/
  visited : List ℕ
  /-- Nodes to enter, or to leave when marked. -/
  stack : List (ℕ × Bool)
  state : σ

variable {σ τ : Type}

def step (children : ℕ → List ℕ) (enter leave : ℕ → σ → σ) (w : Walk σ) : Walk σ :=
  match w.stack with
  | [] => w
  | (b, true) :: rest => ⟨w.visited, rest, leave b w.state⟩
  | (b, false) :: rest =>
    if b ∈ w.visited then ⟨w.visited, rest, w.state⟩
    else
      ⟨b :: w.visited, (children b).map (fun c => (c, false)) ++ (b, true) :: rest,
        enter b w.state⟩

def run (children : ℕ → List ℕ) (enter leave : ℕ → σ → σ) : ℕ → Walk σ → Walk σ
  | 0, w => w
  | fuel + 1, w => run children enter leave fuel (step children enter leave w)

def walkRoots (children : ℕ → List ℕ) (enter leave : ℕ → σ → σ) (fuel : ℕ) (roots : List ℕ)
    (w : Walk σ) : Walk σ :=
  roots.foldl (fun w r => run children enter leave fuel ⟨w.visited, [(r, false)], w.state⟩) w

/-- Steps of one walk over nodes below `n`: each is entered and left once, and waits once for
each node it is a child of. -/
def stepBound (children : ℕ → List ℕ) (n : ℕ) : ℕ :=
  ((List.range n).map fun b => (children b).length + 1).sum + 1

variable {children : ℕ → List ℕ} {enter leave : ℕ → σ → σ} {n : ℕ} {P : Walk σ → Prop}

theorem run_induction
    (hstep : ∀ w, P w → P (step children enter leave w)) (fuel : ℕ) (w : Walk σ) (h : P w) :
    P (run children enter leave fuel w) := by
  induction fuel generalizing w with
  | zero => exact h
  | succ fuel ih => exact ih _ (hstep w h)

def unvisited (n : ℕ) (visited : List ℕ) : List ℕ := (List.range n).filter (· ∉ visited)

def stepsLeft (children : ℕ → List ℕ) (n : ℕ) (w : Walk σ) : ℕ :=
  ((unvisited n w.visited).map fun b => (children b).length + 1).sum + w.stack.length

theorem sum_unvisited_cons {b : ℕ} {visited : List ℕ} (hb : b < n) (hnew : b ∉ visited)
    (f : ℕ → ℕ) :
    ((unvisited n (b :: visited)).map f).sum + f b = ((unvisited n visited).map f).sum := by
  have hmem : b ∈ unvisited n visited := by
    unfold unvisited
    rw [mem_filter, mem_range, decide_eq_true_eq]
    exact ⟨hb, hnew⟩
  have hnodup : (unvisited n visited).Nodup := nodup_range.filter _
  have hperm : (unvisited n visited).Perm (b :: unvisited n (b :: visited)) := by
    rw [perm_ext_iff_of_nodup hnodup]
    · intro x
      simp only [unvisited, mem_cons, mem_filter, mem_range, decide_eq_true_eq]
      by_cases hx : x = b
      · subst hx
        tauto
      · tauto
    · refine nodup_cons.mpr ⟨?_, nodup_range.filter _⟩
      unfold unvisited
      simp
  have hsum := (hperm.map f).sum_eq
  rw [map_cons, sum_cons] at hsum
  omega

/-- The nodes waiting are nodes of the tree. -/
def Inside (n : ℕ) (w : Walk σ) : Prop := ∀ e ∈ w.stack, e.1 < n

theorem inside_step (hchildren : ∀ b, ∀ c ∈ children b, c < n) (w : Walk σ)
    (h : Inside n w) : Inside n (step children enter leave w) := by
  obtain ⟨visited, stack, state⟩ := w
  match stack with
  | [] => exact h
  | (b, true) :: rest => exact fun e he => h e (mem_cons_of_mem _ he)
  | (b, false) :: rest =>
    unfold step
    simp only
    split
    · exact fun e he => h e (mem_cons_of_mem _ he)
    · intro e he
      rcases mem_append.mp he with he | he
      · obtain ⟨c, hc, rfl⟩ := mem_map.mp he
        exact hchildren b c hc
      · rcases mem_cons.mp he with rfl | he
        · exact h (b, false) mem_cons_self
        · exact h e (mem_cons_of_mem _ he)

theorem stepsLeft_step (w : Walk σ) (hin : Inside n w) (hne : w.stack ≠ []) :
    stepsLeft children n (step children enter leave w) < stepsLeft children n w := by
  obtain ⟨visited, stack, state⟩ := w
  match stack, hne with
  | (b, true) :: rest, _ =>
    simp only [step, stepsLeft, length_cons]
    omega
  | (b, false) :: rest, _ =>
    unfold step
    simp only
    split
    · simp only [stepsLeft, length_cons]
      omega
    · next hb =>
      have hlt : b < n := hin (b, false) mem_cons_self
      have hsum := sum_unvisited_cons hlt hb fun x => (children x).length + 1
      simp only [stepsLeft, length_cons, length_append, length_map]
      omega

theorem stack_run (hchildren : ∀ b, ∀ c ∈ children b, c < n) (fuel : ℕ) (w : Walk σ)
    (hin : Inside n w) (h : w.stack = [] ∨ stepsLeft children n w ≤ fuel) :
    (run children enter leave fuel w).stack = [] := by
  induction fuel generalizing w with
  | zero =>
    rcases h with h | h
    · exact h
    · by_contra hne
      have hlt : stepsLeft children n (step children enter leave w) < stepsLeft children n w :=
        stepsLeft_step w hin hne
      omega
  | succ fuel ih =>
    refine ih _ (inside_step hchildren w hin) ?_
    by_cases hne : w.stack = []
    · left
      unfold step
      rw [hne]
      exact hne
    · right
      have hlt : stepsLeft children n (step children enter leave w) < stepsLeft children n w :=
        stepsLeft_step w hin hne
      have hle := h.resolve_left hne
      omega

theorem stepsLeft_le_stepBound (n : ℕ) (visited : List ℕ) (r : ℕ) (s : σ) :
    stepsLeft children n ⟨visited, [(r, false)], s⟩ ≤ stepBound children n := by
  unfold stepsLeft stepBound unvisited
  have hsub : ((List.range n).filter (· ∉ visited)).Sublist (List.range n) := filter_sublist
  have hle := (hsub.map fun b => (children b).length + 1).sum_le_sum fun _ _ => Nat.zero_le _
  simp only [length_singleton]
  omega

/-- The node is entered or waits. -/
def Covers (w : Walk σ) (b : ℕ) : Prop := b ∈ w.visited ∨ (b, false) ∈ w.stack

theorem covers_step {b : ℕ} (w : Walk σ) (h : Covers w b) :
    Covers (step children enter leave w) b := by
  obtain ⟨visited, stack, state⟩ := w
  match stack with
  | [] => exact h
  | (c, true) :: rest =>
    rcases h with h | h
    · exact .inl h
    · right
      rcases mem_cons.mp h with heq | h
      · cases heq
      · exact h
  | (c, false) :: rest =>
    unfold step
    simp only
    split
    · next hc =>
      rcases h with h | h
      · exact .inl h
      · rcases mem_cons.mp h with heq | h
        · exact .inl ((Prod.mk.inj heq).1 ▸ hc)
        · exact .inr h
    · rcases h with h | h
      · exact .inl (mem_cons_of_mem _ h)
      · rcases mem_cons.mp h with heq | h
        · rw [(Prod.mk.inj heq).1]
          exact .inl mem_cons_self
        · exact .inr (mem_append_right _ (mem_cons_of_mem _ h))

/-- Children of entered nodes are entered or wait. -/
def ChildrenCovered (children : ℕ → List ℕ) (w : Walk σ) : Prop :=
  ∀ b ∈ w.visited, ∀ c ∈ children b, Covers w c

theorem childrenCovered_step (w : Walk σ) (h : ChildrenCovered children w) :
    ChildrenCovered children (step children enter leave w) := by
  have hkeep : ∀ b ∈ w.visited, ∀ c ∈ children b, Covers (step children enter leave w) c :=
    fun b hb c hc => covers_step w (h b hb c hc)
  obtain ⟨visited, stack, state⟩ := w
  match stack with
  | [] => exact h
  | (b, true) :: rest => exact hkeep
  | (b, false) :: rest =>
    by_cases hb : b ∈ visited
    · have hstep : step children enter leave ⟨visited, (b, false) :: rest, state⟩ =
          ⟨visited, rest, state⟩ := by
        unfold step
        simp only
        rw [if_pos hb]
      rw [hstep] at hkeep ⊢
      exact hkeep
    · have hstep : step children enter leave ⟨visited, (b, false) :: rest, state⟩ =
          ⟨b :: visited, (children b).map (fun c => (c, false)) ++ (b, true) :: rest,
            enter b state⟩ := by
        unfold step
        simp only
        rw [if_neg hb]
      rw [hstep] at hkeep ⊢
      intro x hx c hc
      rcases mem_cons.mp hx with rfl | hx
      · exact .inr (mem_append_left _ (mem_map.mpr ⟨c, hc, rfl⟩))
      · exact hkeep x hx c hc

theorem walkRoots_spec {fuel : ℕ} (hchildren : ∀ b, ∀ c ∈ children b, c < n)
    (hfuel : stepBound children n ≤ fuel) (roots : List ℕ) (hroots : ∀ r ∈ roots, r < n)
    (hstep : ∀ w, P w → P (step children enter leave w))
    (hnext : ∀ w r, r ∈ roots → w.stack = [] → P w → P ⟨w.visited, [(r, false)], w.state⟩)
    (w : Walk σ) (hw : w.stack = []) (h : P w) (hcov : ChildrenCovered children w) :
    P (walkRoots children enter leave fuel roots w) ∧
      (walkRoots children enter leave fuel roots w).stack = [] ∧
      ChildrenCovered children (walkRoots children enter leave fuel roots w) ∧
      (∀ r ∈ roots, r ∈ (walkRoots children enter leave fuel roots w).visited) ∧
      ∀ b ∈ w.visited, b ∈ (walkRoots children enter leave fuel roots w).visited := by
  induction roots generalizing w with
  | nil => exact ⟨h, hw, hcov, fun r hr => absurd hr not_mem_nil, fun b hb => hb⟩
  | cons r roots ih =>
    have hr := hroots r mem_cons_self
    have hnext₀ := hnext w r mem_cons_self hw h
    obtain ⟨w₀, hw₀⟩ : ∃ w₀ : Walk σ, (⟨w.visited, [(r, false)], w.state⟩ : Walk σ) = w₀ := ⟨_, rfl⟩
    rw [hw₀] at hnext₀
    have hin : Inside n w₀ := by
      subst hw₀
      intro e he
      rw [mem_singleton.mp he]
      exact hr
    have hstack : (run children enter leave fuel w₀).stack = [] :=
      stack_run hchildren fuel _ hin
        (.inr ((hw₀ ▸ stepsLeft_le_stepBound n w.visited r w.state).trans hfuel))
    have hP := run_induction hstep fuel _ hnext₀
    have hcov₀ : ChildrenCovered children w₀ := by
      subst hw₀
      intro b hb c hc
      rcases hcov b hb c hc with hv | hs
      · exact .inl hv
      · rw [hw] at hs
        exact absurd hs not_mem_nil
    have hcov₁ : ChildrenCovered children (run children enter leave fuel w₀) :=
      run_induction childrenCovered_step fuel _ hcov₀
    have hvisits : ∀ b, Covers w₀ b →
        b ∈ (run children enter leave fuel w₀).visited := by
      intro b hb
      have hb' : Covers (run children enter leave fuel w₀) b :=
        run_induction (P := fun w => Covers w b) (fun w => covers_step w) fuel _ hb
      rcases hb' with hv | hs
      · exact hv
      · rw [hstack] at hs
        exact absurd hs not_mem_nil
    obtain ⟨h₁, h₂, h₃, h₄, h₅⟩ := ih (fun x hx => hroots x (mem_cons_of_mem _ hx))
      (fun w x hx => hnext w x (mem_cons_of_mem _ hx))
      (run children enter leave fuel w₀) hstack hP hcov₁
    subst hw₀
    refine ⟨h₁, h₂, h₃, fun x hx => ?_, fun b hb => h₅ b (hvisits b (.inl hb))⟩
    rcases mem_cons.mp hx with rfl | hx
    · exact h₅ x (hvisits x (.inr mem_cons_self))
    · exact h₄ x hx

end TreeWalk
