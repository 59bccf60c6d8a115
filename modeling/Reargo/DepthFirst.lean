import Reargo.Worklist

/-!
# Reverse post-order

Depth-first search with an explicit stack of nodes and the successors each has left.
Finished nodes are collected newest first, which is the reverse post-order. Every
node but the start comes after one of its predecessors in it.
-/
namespace DepthFirst

open Worklist Finset
open List hiding map map_cons mem_cons sum_cons

structure Search where
  seen : List Bool
  /-- Nodes being visited with their successors left, the top first. -/
  stack : List (ℕ × List ℕ)
  post : List ℕ

def step (next : ℕ → List ℕ) (w : Search) : Search :=
  match w.stack with
  | [] => w
  | (b, []) :: rest => { w with stack := rest, post := b :: w.post }
  | (b, s :: left) :: rest =>
    if marked w.seen s then { w with stack := (b, left) :: rest }
    else { w with seen := w.seen.set s true, stack := (s, next s) :: (b, left) :: rest }

def run (next : ℕ → List ℕ) : ℕ → Search → Search
  | 0, w => w
  | fuel + 1, w => run next fuel (step next w)

def start (next : ℕ → List ℕ) (n entry : ℕ) : Search :=
  ⟨(List.replicate n false).set entry true, [(entry, next entry)], []⟩

/-- One step for each node and one for each edge. -/
def stepBound (next : ℕ → List ℕ) (n : ℕ) : ℕ := ∑ x ∈ Finset.range n, ((next x).length + 1)

def reversePostOrder (next : ℕ → List ℕ) (n entry : ℕ) : List ℕ :=
  (run next (stepBound next n) (start next n entry)).post

variable {next : ℕ → List ℕ} {n entry : ℕ}

def unseenSteps (next : ℕ → List ℕ) (seen : List Bool) : ℕ :=
  ∑ x ∈ Finset.range seen.length, if marked seen x then 0 else (next x).length + 1

def stackSteps (stack : List (ℕ × List ℕ)) : ℕ := (stack.map fun f => f.2.length + 1).sum

def stepsLeft (next : ℕ → List ℕ) (w : Search) : ℕ :=
  unseenSteps next w.seen + stackSteps w.stack

theorem lt_length_of_not_marked {marks : List Bool} {s : ℕ} (h : ¬ marked marks s = true) :
    s < marks.length := by
  by_contra hge
  unfold marked at h
  rw [getD_eq_default _ _ (by omega)] at h
  exact h rfl

theorem unseenSteps_set (next : ℕ → List ℕ) {marks : List Bool} {s : ℕ} (h : ¬ marked marks s = true) :
    unseenSteps next marks = (next s).length + 1 + unseenSteps next (marks.set s true) := by
  have hs : s ∈ Finset.range marks.length := Finset.mem_range.mpr (lt_length_of_not_marked h)
  have hself : marked (marks.set s true) s = true := by
    rw [marked_set]
    simp
  have hrest : ∀ x ∈ (Finset.range marks.length).erase s,
      (if marked marks x then 0 else (next x).length + 1) =
        if marked (marks.set s true) x then 0 else (next x).length + 1 := by
    intro x hx
    have hne : x ≠ s := (mem_erase.mp hx).1
    rw [marked_set]
    simp [hne]
  unfold unseenSteps
  rw [length_set, ← add_sum_erase _ _ hs, if_neg h, sum_congr rfl hrest]
  congr 1
  exact sum_erase _ (if_pos hself)

theorem stepsLeft_step (next : ℕ → List ℕ) (w : Search) (h : w.stack ≠ []) :
    stepsLeft next (step next w) + 1 = stepsLeft next w := by
  obtain ⟨seen, stack, post⟩ := w
  match stack, h with
  | (b, []) :: rest, _ =>
    have hpop : stackSteps ((b, []) :: rest) = 1 + stackSteps rest := rfl
    simp only [step, stepsLeft]
    omega
  | (b, s :: left) :: rest, _ =>
    have htop : stackSteps ((b, s :: left) :: rest) = stackSteps ((b, left) :: rest) + 1 := by
      simp only [stackSteps, List.map_cons, List.sum_cons, length_cons]
      omega
    simp only [step]
    split
    · simp only [stepsLeft]
      omega
    · next hs =>
      have hset := unseenSteps_set next hs
      have hpush : stackSteps ((s, next s) :: (b, left) :: rest) =
          (next s).length + 1 + stackSteps ((b, left) :: rest) := rfl
      simp only [stepsLeft]
      omega

theorem stack_run (fuel : ℕ) (w : Search) (h : w.stack = [] ∨ stepsLeft next w ≤ fuel) :
    (run next fuel w).stack = [] := by
  induction fuel generalizing w with
  | zero =>
    rw [run]
    by_contra hne
    have hstep := stepsLeft_step next w hne
    have hle := h.resolve_left hne
    omega
  | succ fuel ih =>
    rw [run]
    refine ih _ ?_
    by_cases hne : w.stack = []
    · left
      unfold step
      rw [hne]
      exact hne
    · right
      have hstep := stepsLeft_step next w hne
      have hle := h.resolve_left hne
      omega

theorem stepsLeft_start (hentry : entry < n) :
    stepsLeft next (start next n entry) = stepBound next n := by
  have hmark : ¬ marked (replicate n false) entry = true := by
    unfold marked
    rw [getD_eq_getElem _ _ (by simpa using hentry), getElem_replicate]
    exact Bool.false_ne_true
  have hall : unseenSteps next (replicate n false) = stepBound next n := by
    unfold unseenSteps stepBound
    rw [length_replicate]
    refine sum_congr rfl ?_
    intro x hx
    rw [if_neg]
    unfold marked
    rw [getD_eq_getElem _ _ (by simpa using hx), getElem_replicate]
    exact Bool.false_ne_true
  have hset := unseenSteps_set next hmark
  have hstack : stackSteps [(entry, next entry)] = (next entry).length + 1 := rfl
  simp only [stepsLeft, start]
  omega

def active (w : Search) : List ℕ := w.stack.map Prod.fst

/-- The top of the stack is the start or a successor of the node below it. -/
def Rooted (next : ℕ → List ℕ) (entry : ℕ) : List (ℕ × List ℕ) → Prop
  | [] => True
  | [f] => f.1 = entry
  | f :: g :: rest => f.1 ∈ next g.1 ∧ Rooted next entry (g :: rest)

structure Sound (next : ℕ → List ℕ) (n entry : ℕ) (w : Search) : Prop where
  length : w.seen.length = n
  inside : ∀ x ∈ active w ++ w.post, x < n
  seen_iff : ∀ x, x < n → (marked w.seen x = true ↔ x ∈ active w ++ w.post)
  nodup : (active w ++ w.post).Nodup
  rooted : Rooted next entry w.stack
  done : w.stack = [] → w.post.head? = some entry
  left : ∀ f ∈ w.stack, ∀ s ∈ next f.1, s ∈ f.2 ∨ marked w.seen s = true
  closed : ∀ b ∈ w.post, ∀ s ∈ next b, marked w.seen s = true
  parent : ∀ l b r, w.post = l ++ b :: r → b = entry ∨ ∃ q ∈ active w ++ l, b ∈ next q

variable {rest : List (ℕ × List ℕ)} {post : List ℕ}

theorem Rooted.change_left {b : ℕ} {ss ss' : List ℕ}
    (h : Rooted next entry ((b, ss) :: rest)) : Rooted next entry ((b, ss') :: rest) := by
  cases rest with
  | nil => exact h
  | cons g rest => exact h

theorem Rooted.tail {f : ℕ × List ℕ}
    (h : Rooted next entry (f :: rest)) : Rooted next entry rest := by
  cases rest with
  | nil => trivial
  | cons g rest => exact h.2

/-- The top node is finished: every successor has been seen. -/
theorem Sound.pop {seen : List Bool} {b : ℕ}
    (h : Sound next n entry ⟨seen, (b, []) :: rest, post⟩) :
    Sound next n entry ⟨seen, rest, b :: post⟩ := by
  have hperm : (active ⟨seen, rest, b :: post⟩ ++ b :: post).Perm
      (active ⟨seen, (b, []) :: rest, post⟩ ++ post) := perm_middle
  constructor
  · exact h.length
  · intro x hx
    exact h.inside x (hperm.mem_iff.mp hx)
  · intro x hx
    exact (h.seen_iff x hx).trans hperm.mem_iff.symm
  · exact hperm.nodup_iff.mpr h.nodup
  · exact h.rooted.tail
  · intro hnil
    have hrest : rest = [] := hnil
    subst hrest
    exact congrArg some h.rooted
  · intro f hf s hs
    exact h.left f (mem_cons_of_mem _ hf) s hs
  · intro c hc s hs
    rcases List.mem_cons.mp hc with rfl | hc
    · exact (h.left (c, []) mem_cons_self s hs).resolve_left not_mem_nil
    · exact h.closed c hc s hs
  · intro l c r hpost
    cases l with
    | nil =>
      have hc : b = c := (List.cons.inj hpost).1
      subst hc
      have hrooted := h.rooted
      cases rest with
      | nil => exact .inl hrooted
      | cons g rest => exact .inr ⟨g.1, by simp [active], hrooted.1⟩
    | cons x l =>
      obtain ⟨rfl, hold⟩ := List.cons.inj hpost
      rcases h.parent l c r hold with hentry | ⟨q, hq, hs⟩
      · exact .inl hentry
      · refine .inr ⟨q, ?_, hs⟩
        simp only [active, List.map_cons, mem_append, List.mem_cons] at hq ⊢
        tauto

theorem Sound.skip {seen : List Bool} {b s : ℕ} {left : List ℕ} (hs : marked seen s = true)
    (h : Sound next n entry ⟨seen, (b, s :: left) :: rest, post⟩) :
    Sound next n entry ⟨seen, (b, left) :: rest, post⟩ := by
  refine ⟨h.length, h.inside, h.seen_iff, h.nodup, h.rooted.change_left, ?_, ?_, h.closed,
    h.parent⟩
  · intro hnil
    cases hnil
  · intro f hf x hx
    rcases List.mem_cons.mp hf with rfl | hf
    · rcases h.left (b, s :: left) mem_cons_self x hx with hmem | hm
      · rcases List.mem_cons.mp hmem with rfl | hmem
        · exact .inr hs
        · exact .inl hmem
      · exact .inr hm
    · exact h.left f (mem_cons_of_mem _ hf) x hx

theorem Sound.push {seen : List Bool} {b s : ℕ} {left : List ℕ} (hs : ¬ marked seen s = true)
    (hedge : s ∈ next b)
    (h : Sound next n entry ⟨seen, (b, s :: left) :: rest, post⟩) :
    Sound next n entry ⟨seen.set s true, (s, next s) :: (b, left) :: rest, post⟩ := by
  have hlt : s < n := lt_of_lt_of_eq (lt_length_of_not_marked hs) h.length
  have hnew : s ∉ active ⟨seen, (b, s :: left) :: rest, post⟩ ++ post :=
    fun hmem => hs ((h.seen_iff s hlt).mpr hmem)
  have hmark : ∀ x, marked seen x = true → marked (seen.set s true) x = true := by
    intro x hx
    rw [marked_set, hx, Bool.true_or]
  constructor
  · exact (length_set).trans h.length
  · intro x hx
    rcases List.mem_cons.mp hx with rfl | hx
    · exact hlt
    · exact h.inside x hx
  · intro x hx
    have hbefore := h.seen_iff x hx
    rw [marked_set, Bool.or_eq_true, decide_eq_true_eq, hbefore]
    simp only [active, List.map_cons, cons_append, List.mem_cons]
    tauto
  · exact nodup_cons.mpr ⟨hnew, h.nodup⟩
  · exact ⟨hedge, h.rooted.change_left⟩
  · intro hnil
    cases hnil
  · intro f hf x hx
    rcases List.mem_cons.mp hf with rfl | hf
    · exact .inl hx
    · rcases List.mem_cons.mp hf with rfl | hf
      · rcases h.left (b, s :: left) mem_cons_self x hx with hmem | hm
        · rcases List.mem_cons.mp hmem with rfl | hmem
          · right
            rw [marked_set]
            simp
          · exact .inl hmem
        · exact .inr (hmark x hm)
      · rcases h.left f (mem_cons_of_mem _ hf) x hx with hmem | hm
        · exact .inl hmem
        · exact .inr (hmark x hm)
  · intro c hc x hx
    exact hmark x (h.closed c hc x hx)
  · intro l c r hpost
    rcases h.parent l c r hpost with hentry | ⟨q, hq, hc⟩
    · exact .inl hentry
    · exact .inr ⟨q, mem_cons_of_mem _ hq, hc⟩

theorem Sound.step {w : Search} (hin : ∀ f ∈ w.stack, ∀ s ∈ f.2, s ∈ next f.1)
    (h : Sound next n entry w) : Sound next n entry (step next w) := by
  obtain ⟨seen, stack, post⟩ := w
  match stack with
  | [] => exact h
  | (b, []) :: rest => exact h.pop
  | (b, s :: left) :: rest =>
    unfold DepthFirst.step
    simp only
    split
    · next hs => exact h.skip hs
    · next hs => exact h.push hs (hin _ mem_cons_self s mem_cons_self)

theorem left_step {w : Search} (hin : ∀ f ∈ w.stack, ∀ s ∈ f.2, s ∈ next f.1) :
    ∀ f ∈ (DepthFirst.step next w).stack, ∀ s ∈ f.2, s ∈ next f.1 := by
  obtain ⟨seen, stack, post⟩ := w
  match stack with
  | [] => exact hin
  | (b, []) :: rest => exact fun f hf => hin f (mem_cons_of_mem _ hf)
  | (b, s :: left) :: rest =>
    have hleft : ∀ f ∈ (b, left) :: rest, ∀ x ∈ f.2, x ∈ next f.1 := by
      intro f hf x hx
      rcases List.mem_cons.mp hf with rfl | hf
      · exact hin _ mem_cons_self x (mem_cons_of_mem _ hx)
      · exact hin f (mem_cons_of_mem _ hf) x hx
    unfold DepthFirst.step
    simp only
    split
    · exact hleft
    · intro f hf x hx
      rcases List.mem_cons.mp hf with rfl | hf
      · exact hx
      · exact hleft f hf x hx

theorem sound_run (fuel : ℕ) (w : Search) (hin : ∀ f ∈ w.stack, ∀ s ∈ f.2, s ∈ next f.1)
    (h : Sound next n entry w) : Sound next n entry (run next fuel w) := by
  induction fuel generalizing w with
  | zero => exact h
  | succ fuel ih => exact ih _ (left_step hin) (h.step hin)

theorem sound_start (hentry : entry < n) : Sound next n entry (start next n entry) := by
  have hmark : ∀ x, x < n → (marked ((replicate n false).set entry true) x = true ↔ x = entry) := by
    intro x hx
    rw [marked_set, marked, getD_eq_getElem _ _ (by simpa using hx), getElem_replicate]
    simp
  constructor
  · simp [start]
  · intro x hx
    have hx' : x = entry := by simpa [start, active] using hx
    exact hx' ▸ hentry
  · intro x hx
    rw [show (start next n entry).seen = (replicate n false).set entry true from rfl, hmark x hx]
    simp [start, active]
  · simp [start, active]
  · exact rfl
  · intro hnil
    cases hnil
  · intro f hf s hs
    have hf' : f = (entry, next entry) := by simpa [start] using hf
    subst hf'
    exact .inl hs
  · intro b hb
    exact absurd hb not_mem_nil
  · intro l b r hpost
    cases l <;> cases hpost

/-- The order starts with the entry, is closed under edges, and every later node comes
after one of its predecessors. -/
structure PostOrder (next : ℕ → List ℕ) (n entry : ℕ) (rpo : List ℕ) : Prop where
  nodup : rpo.Nodup
  inside : ∀ x ∈ rpo, x < n
  head : rpo.head? = some entry
  closed : ∀ b ∈ rpo, ∀ s ∈ next b, s < n → s ∈ rpo
  parent : ∀ l b r, rpo = l ++ b :: r → b = entry ∨ ∃ q ∈ l, b ∈ next q

theorem postOrder_reversePostOrder (hentry : entry < n) :
    PostOrder next n entry (reversePostOrder next n entry) := by
  have hin : ∀ f ∈ (start next n entry).stack, ∀ s ∈ f.2, s ∈ next f.1 := by
    intro f hf s hs
    have hf' : f = (entry, next entry) := by simpa [start] using hf
    subst hf'
    exact hs
  have hsound := sound_run (stepBound next n) _ hin (sound_start hentry)
  have hstack : (run next (stepBound next n) (start next n entry)).stack = [] :=
    stack_run _ _ (.inr (stepsLeft_start hentry).le)
  have hactive : active (run next (stepBound next n) (start next n entry)) = [] := by
    unfold active
    rw [hstack]
    rfl
  have hseen := hsound.seen_iff
  have hnodup := hsound.nodup
  have hparent := hsound.parent
  have hinside := hsound.inside
  rw [hactive] at hseen hnodup hparent hinside
  refine ⟨hnodup, hinside, hsound.done hstack, ?_, hparent⟩
  intro b hb s hs hlt
  exact (hseen s hlt).mp (hsound.closed b hb s hs)

end DepthFirst
