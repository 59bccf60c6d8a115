import Mathlib.Data.List.Induction

/-!
# Deferred actions

Actions on a state, each with an answer. Those marked are put off to the end of the list.
When a marked action and any other commute and neither answer shows whether the other ran,
nothing changes.
-/
namespace DeferredActions

open List

variable {σ ρ α : Type}

abbrev Action (σ ρ : Type) := σ → σ × ρ

/-- The answer of `a` is the same before and after `l`. -/
def Unseen (l a : Action σ ρ) : Prop := ∀ s, (a (l s).1).2 = (a s).2

def Commutes (l a : Action σ ρ) : Prop := ∀ s, (a (l s).1).1 = (l (a s).1).1

variable (act : α → Action σ ρ)

/-- The state after the actions of `as` in order. -/
def after (as : List α) (s : σ) : σ := as.foldl (fun s a => (act a s).1) s

@[simp] theorem after_nil (s : σ) : after act [] s = s := rfl

@[simp] theorem after_cons (a : α) (as : List α) (s : σ) :
    after act (a :: as) s = after act as (act a s).1 := rfl

theorem after_append (as bs : List α) (s : σ) :
    after act (as ++ bs) s = after act bs (after act as s) := by
  simp only [after, foldl_append]

theorem after_snoc (as : List α) (a : α) (s : σ) :
    after act (as ++ [a]) s = (act a (after act as s)).1 := by
  apply after_append

variable {act}

theorem commute_after {b : α} {ls : List α} (h : ∀ l ∈ ls, Commutes (act l) (act b)) (s : σ) :
    (act b (after act ls s)).1 = after act ls (act b s).1 := by
  induction ls generalizing s with
  | nil => rfl
  | cons l ls ih =>
    have hl := h l mem_cons_self s
    have hls := ih (fun x hx => h x (mem_cons_of_mem l hx)) (act l s).1
    simp only [after_cons]
    exact hls.trans (congrArg (after act ls) hl)

theorem unseen_after {γ : Type} {f : σ → γ} {ls : List α}
    (h : ∀ l ∈ ls, ∀ s, f (act l s).1 = f s) (s : σ) : f (after act ls s) = f s := by
  induction ls generalizing s with
  | nil => rfl
  | cons l ls ih =>
    have hls := ih (fun x hx => h x (mem_cons_of_mem l hx)) (act l s).1
    exact hls.trans (h l mem_cons_self s)

variable (mark : α → Bool)

def kept (as : List α) : List α := as.filter fun a => !mark a

def deferred (as : List α) : List α := as.filter mark

variable (act) in
def Deferrable (as : List α) : Prop :=
  as.Pairwise fun a b =>
    (mark a = true → Commutes (act a) (act b)) ∧ (mark b = true → Commutes (act b) (act a))

variable {mark}

theorem after_deferred {as : List α} (h : Deferrable act mark as) (s : σ) :
    after act (deferred mark as) (after act (kept mark as) s) = after act as s := by
  induction as using List.reverseRecOn with
  | nil => rfl
  | append_singleton as a ih =>
    obtain ⟨has, -, ha⟩ := pairwise_append.mp h
    have hstep := ih has
    cases hm : mark a with
    | true =>
      have hdef : deferred mark (as ++ [a]) = deferred mark as ++ [a] := by
        simp [deferred, hm]
      have hkept : kept mark (as ++ [a]) = kept mark as := by simp [kept, hm]
      simp only [hdef, hkept, after_snoc, hstep]
    | false =>
      have hdef : deferred mark (as ++ [a]) = deferred mark as := by simp [deferred, hm]
      have hkept : kept mark (as ++ [a]) = kept mark as ++ [a] := by simp [kept, hm]
      have hcomm : ∀ l ∈ deferred mark as, Commutes (act l) (act a) := by
        intro l hl
        obtain ⟨hl, hml⟩ := mem_filter.mp hl
        exact (ha l hl a mem_cons_self).1 hml
      simp only [hdef, hkept, after_snoc]
      calc after act (deferred mark as) (act a (after act (kept mark as) s)).1
          = (act a (after act (deferred mark as) (after act (kept mark as) s))).1 :=
            (commute_after hcomm _).symm
        _ = (act a (after act as s)).1 := by simp only [hstep]

end DeferredActions
