import Mathlib.Logic.Function.Basic

/-!
# Computations that ask questions

A computation asks a question and goes on with a view of the answer. The same questions
with the same views lead to the same end, so a record of one run can stand for another.
-/
namespace Questions

inductive Asks (κ β α : Type) where
  | pure (a : α)
  | ask (q : κ) (next : β → Asks κ β α)

variable {κ β γ α α' σ : Type}

namespace Asks

def bind : Asks κ β α → (α → Asks κ β α') → Asks κ β α'
  | .pure a, f => f a
  | .ask q next, f => .ask q fun b => (next b).bind f

end Asks

/-- The result, the state after the last answer and the answers in order. -/
def run (answer : κ → σ → γ × σ) (view : γ → β) : Asks κ β α → σ → α × σ × List (κ × γ)
  | .pure a, s => (a, s, [])
  | .ask q next, s =>
    let (g, s') := answer q s
    let (a, s'', log) := run answer view (next (view g)) s'
    (a, s'', (q, g) :: log)

/-- The computation ends with `a` when the questions are answered as recorded. -/
inductive Follows : Asks κ β α → List (κ × β) → α → Prop where
  | pure (a) : Follows (.pure a) [] a
  | ask {q b calls a} {next : β → Asks κ β α} : Follows (next b) calls a →
      Follows (.ask q next) ((q, b) :: calls) a

theorem Follows.bind_inv {t : Asks κ β α} {f : α → Asks κ β α'} {calls : List (κ × β)} {a' : α'}
    (h : Follows (t.bind f) calls a') :
    ∃ a before after, Follows t before a ∧ Follows (f a) after a' ∧ calls = before ++ after := by
  induction t generalizing calls with
  | pure a => exact ⟨a, [], calls, .pure a, h, rfl⟩
  | ask q next ih =>
    cases h with
    | @ask _ b rest _ _ hrest =>
      obtain ⟨a, before, after, hb, ha, rfl⟩ := ih b hrest
      exact ⟨a, (q, b) :: before, after, .ask hb, ha, rfl⟩

/-- Ask the recorded questions in order, up to the first whose answer looks different. -/
def replay [DecidableEq β] (answer : κ → σ → γ × σ) (view : γ → β) :
    List (κ × β) → σ → Bool × σ × List (κ × γ)
  | [], s => (true, s, [])
  | (q, b) :: calls, s =>
    let (g, s') := answer q s
    if view g = b then
      let (same, s'', log) := replay answer view calls s'
      (same, s'', (q, g) :: log)
    else (false, s', [(q, g)])

section Run

variable {answer : κ → σ → γ × σ} {view : γ → β}

variable (answer view) in
theorem follows_run (t : Asks κ β α) (s : σ) :
    Follows t ((run answer view t s).2.2.map fun e => (e.1, view e.2)) (run answer view t s).1 := by
  induction t generalizing s with
  | pure a => exact .pure a
  | ask q next ih => exact .ask (ih (view (answer q s).1) (answer q s).2)

variable (view) in
theorem run_invariant {P : σ → Prop} (Q : κ → γ → Prop)
    (hstep : ∀ q s, P s → P (answer q s).2 ∧ Q q (answer q s).1) (t : Asks κ β α) {s : σ}
    (hs : P s) :
    P (run answer view t s).2.1 ∧ ∀ e ∈ (run answer view t s).2.2, Q e.1 e.2 := by
  induction t generalizing s with
  | pure a => exact ⟨hs, fun e he => absurd he List.not_mem_nil⟩
  | ask q next ih =>
    obtain ⟨hs', hq⟩ := hstep q s hs
    obtain ⟨hend, hlog⟩ := ih (view (answer q s).1) hs'
    refine ⟨hend, fun e he => ?_⟩
    rcases List.mem_cons.mp he with rfl | he
    · exact hq
    · exact hlog e he

variable [DecidableEq β]

theorem run_of_replay {t : Asks κ β α} {calls : List (κ × β)} {a : α} (h : Follows t calls a)
    (s : σ) (hsame : (replay answer view calls s).1 = true) :
    run answer view t s = (a, (replay answer view calls s).2) := by
  induction h generalizing s with
  | pure a => rfl
  | @ask q b calls a next _ ih =>
    unfold replay at hsame ⊢
    unfold run
    by_cases hb : view (answer q s).1 = b
    · simp only [hb, if_true] at hsame ⊢
      rw [ih (answer q s).2 hsame]
    · simp only [hb, if_false] at hsame
      cases hsame

end Run

/-- Answers last: later states, in the order `R`, answer as before and stay as they are. -/
structure Lasting (answer : κ → σ → γ × σ) (R : σ → σ → Prop) : Prop where
  refl : ∀ s, R s s
  trans : ∀ s s' s'', R s s' → R s' s'' → R s s''
  step : ∀ q s, R s (answer q s).2
  again : ∀ q s s', R (answer q s).2 s' → answer q s' = ((answer q s).1, s')

section Lasting

variable [DecidableEq β] {answer : κ → σ → γ × σ} {view : γ → β} {R : σ → σ → Prop}

variable (view) in
theorem Lasting.replay_step (h : Lasting answer R) (calls : List (κ × β)) (s : σ) :
    R s (replay answer view calls s).2.1 := by
  induction calls generalizing s with
  | nil => exact h.refl s
  | cons c calls ih =>
    obtain ⟨q, b⟩ := c
    unfold replay
    by_cases hb : view (answer q s).1 = b
    · simp only [hb, if_true]
      exact h.trans _ _ _ (h.step q s) (ih _)
    · simp only [hb, if_false]
      exact h.step q s

theorem Lasting.run_again (h : Lasting answer R) {t : Asks κ β α} {calls : List (κ × β)} {a : α}
    (hf : Follows t calls a) (s : σ) (hdiff : (replay answer view calls s).1 = false) :
    run answer view t (replay answer view calls s).2.1 = run answer view t s := by
  induction hf generalizing s with
  | pure a => cases hdiff
  | @ask q b calls a next _ ih =>
    by_cases hb : view (answer q s).1 = b
    · have hrest : replay answer view ((q, b) :: calls) s =
          ((replay answer view calls (answer q s).2).1, (replay answer view calls (answer q s).2).2.1,
            (q, (answer q s).1) :: (replay answer view calls (answer q s).2).2.2) := by
        unfold replay
        simp only [hb, if_true]
        cases calls <;> rfl
      rw [hrest] at hdiff ⊢
      have hagain := h.again q s _ (h.replay_step view calls (answer q s).2)
      unfold run
      simp only [hagain]
      rw [hb, ih _ hdiff]
    · have hrest : replay answer view ((q, b) :: calls) s =
          (false, (answer q s).2, [(q, (answer q s).1)]) := by
        unfold replay
        simp only [hb, if_false]
      rw [hrest]
      have hagain := h.again q s _ (h.refl _)
      unfold run
      simp only [hagain]

end Lasting

end Questions
