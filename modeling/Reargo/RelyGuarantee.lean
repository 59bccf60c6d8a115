import Mathlib.Data.Nat.Notation

/-!
# Programs among others

Tasks act on a shared world in any interleaving, and the outside moves it between their
acts. What a program ends with is proved of the program alone, from what the others keep.
-/
namespace RelyGuarantee

open List

variable {Op : Type} {Resp : Op → Type} {W G ι α β : Type}

inductive Prog (Resp : Op → Type) (α : Type) where
  | pure (a : α)
  | op (o : Op) (next : Resp o → Prog Resp α)

namespace Prog

def bind : Prog Resp α → (α → Prog Resp β) → Prog Resp β
  | .pure a, f => f a
  | .op o next, f => .op o fun r => (next r).bind f

def act (o : Op) : Prog Resp (Resp o) := .op o .pure

/-- On with the value, or the end without one. -/
def andThen (p : Prog Resp (Option α)) (f : α → Prog Resp (Option β)) : Prog Resp (Option β) :=
  p.bind fun
    | none => .pure none
    | some a => f a

/-- The act `o` made after the first `n` acts of a program, if it is still running then. -/
def during (o : Op) : ℕ → Prog Resp α → Prog Resp (Option (Resp o) × α)
  | _, .pure a => .pure (none, a)
  | 0, .op o' next => .op o fun r => .op o' fun r' => (next r').bind fun a => .pure (some r, a)
  | n + 1, .op o' next => .op o' fun r' => (next r').during o n

end Prog

structure System (Resp : Op → Type) (W G : Type) where
  act : (o : Op) → W → Resp o → W → Prop
  outside : W → W → Prop
  note : (o : Op) → W → Resp o → G → G

/-- Every move goes forward, and the outside keeps the invariant. -/
structure Forward (sys : System Resp W G) (later : W → W → Prop) (inv : W → Prop) : Prop where
  refl : ∀ w, later w w
  trans : ∀ {w₁ w₂ w₃}, later w₁ w₂ → later w₂ w₃ → later w₁ w₃
  act : ∀ {o w r w'}, sys.act o w r w' → later w w'
  outside : ∀ {w w'}, sys.outside w w' → later w w'
  kept : ∀ {w w'}, inv w → sys.outside w w' → inv w'

section Wp

variable (sys : System Resp W G) (later : W → W → Prop) (inv : W → Prop) (allowed : Op → G → Prop)

/-- The program keeps the invariant with each allowed act, whatever the others do between
its acts, and ends in `Q`, taken at its last act. -/
def Wp : Prog Resp α → (W → G → α → Prop) → W → G → Prop
  | .pure a, Q, w, g => Q w g a
  | .op o next, Q, w, g => ∀ w₁, later w w₁ → inv w₁ → allowed o g → ∀ r w₂,
      sys.act o w₁ r w₂ → inv w₂ ∧ Wp (next r) Q w₂ (sys.note o w₁ r g)

variable {sys later inv allowed}

variable {p : Prog Resp α} {Q : W → G → α → Prop} {g : G} {f : α → Prog Resp β}

theorem Wp.mono {Q' : W → G → α → Prop} {w : W}
    (h : Wp sys later inv allowed p Q w g) (hq : ∀ w g a, Q w g a → Q' w g a) :
    Wp sys later inv allowed p Q' w g := by
  induction p generalizing w g with
  | pure a => exact hq w g a h
  | op o next ih =>
    intro w₁ hl hi ha r w₂ hact
    obtain ⟨hi₂, hnext⟩ := h w₁ hl hi ha r w₂ hact
    exact ⟨hi₂, ih r hnext⟩

theorem Wp.bind {Q : W → G → β → Prop} {w : W}
    (h : Wp sys later inv allowed p (fun w g a => Wp sys later inv allowed (f a) Q w g) w g) :
    Wp sys later inv allowed (p.bind f) Q w g := by
  induction p generalizing w g with
  | pure a => exact h
  | op o next ih =>
    intro w₁ hl hi ha r w₂ hact
    obtain ⟨hi₂, hnext⟩ := h w₁ hl hi ha r w₂ hact
    exact ⟨hi₂, ih r hnext⟩

variable (hf : Forward sys later inv)

include hf

/-- The end of a program is no earlier than its start, and the invariant holds there. -/
theorem Wp.held {w₀ w : W} (hle : later w₀ w) (hi : inv w) (h : Wp sys later inv allowed p Q w g) :
    Wp sys later inv allowed p (fun w' g' a => later w₀ w' ∧ inv w' ∧ Q w' g' a) w g := by
  induction p generalizing w g with
  | pure a => exact ⟨hle, hi, h⟩
  | op o next ih =>
    intro w₁ hl hi₁ ha r w₂ hact
    obtain ⟨hi₂, hnext⟩ := h w₁ hl hi₁ ha r w₂ hact
    exact ⟨hi₂, ih r (hf.trans hle (hf.trans hl (hf.act hact))) hi₂ hnext⟩

/-- One program after another, the second from wherever the first ends. -/
theorem Wp.next {Q' : W → G → β → Prop} {w : W} (hi : inv w) (h : Wp sys later inv allowed p Q w g)
    (hnext : ∀ w' g' a, later w w' → inv w' → Q w' g' a → Wp sys later inv allowed (f a) Q' w' g') :
    Wp sys later inv allowed (p.bind f) Q' w g := by
  apply Wp.bind
  apply (h.held hf (hf.refl w) hi).mono
  rintro w' g' a ⟨hle, hi', hq⟩
  exact hnext w' g' a hle hi' hq

theorem Wp.andThen {p : Prog Resp (Option α)} {f : α → Prog Resp (Option β)}
    {Q : W → G → Option α → Prop} {Q' : W → G → Option β → Prop} {w : W} (hi : inv w)
    (h : Wp sys later inv allowed p Q w g) (hnone : ∀ w' g', Q w' g' none → Q' w' g' none)
    (hsome : ∀ w' g' a, later w w' → inv w' → Q w' g' (some a) →
    Wp sys later inv allowed (f a) Q' w' g') : Wp sys later inv allowed (p.andThen f) Q' w g := by
  apply Wp.next hf hi h
  intro w' g' a hle hi' hq
  cases a with
  | none => exact hnone w' g' hq
  | some a => exact hsome w' g' a hle hi' hq

theorem Wp.during {o : Op} {w : W} (n : ℕ) (h : Wp sys later inv allowed p Q w g)
    (hkeep : ∀ {w r w'}, inv w → sys.act o w r w' → inv w')
    (hnote : ∀ w r g, sys.note o w r g = g) :
    Wp sys later inv allowed (p.during o n) (fun w g x => Q w g x.2) w g := by
  induction p generalizing w g n with
  | pure a =>
    cases n with
    | zero => exact h
    | succ n => exact h
  | op o' next ih =>
    cases n with
    | zero =>
      intro w₁ hl hi _ r w₂ hact
      refine ⟨hkeep hi hact, ?_⟩
      simp only [hnote]
      intro w₃ hl₃ hi₃ ha₃ r' w₄ hact'
      have hle : later w w₃ := hf.trans (hf.trans hl (hf.act hact)) hl₃
      obtain ⟨hi₄, hnext⟩ := h w₃ hle hi₃ ha₃ r' w₄ hact'
      exact ⟨hi₄, Wp.bind hnext⟩
    | succ n =>
      intro w₁ hl hi ha r w₂ hact
      obtain ⟨hi₂, hnext⟩ := h w₁ hl hi ha r w₂ hact
      exact ⟨hi₂, ih r n hnext⟩

end Wp

/-- A task under way: what it was asked, the world at its start and at its last act. -/
structure Task (Resp : Op → Type) (W G ι α : Type) where
  asked : ι
  start : W
  last : W
  notes : G
  prog : Prog Resp α

structure Answered (W ι α : Type) where
  asked : ι
  start : W
  last : W
  answer : α

structure Pool (Resp : Op → Type) (W G ι α : Type) where
  world : W
  tasks : List (Task Resp W G ι α)
  answers : List (Answered W ι α)

inductive Step (sys : System Resp W G) (allowed : Op → G → Prop) (quiet : G)
    (program : ι → Prog Resp α) : Pool Resp W G ι α → Pool Resp W G ι α → Prop where
  | outside (s w) : sys.outside s.world w → Step sys allowed quiet program s { s with world := w }
  | start (s i) : Step sys allowed quiet program s
      { s with tasks := ⟨i, s.world, s.world, quiet, program i⟩ :: s.tasks }
  | act (s before after i w₀ w g o next r w') :
      s.tasks = before ++ ⟨i, w₀, w, g, .op o next⟩ :: after → allowed o g →
      sys.act o s.world r w' → Step sys allowed quiet program s { s with
          world := w'
          tasks := before ++ ⟨i, w₀, w', sys.note o s.world r g, next r⟩ :: after }
  | answer (s before after i w₀ w g a) :
      s.tasks = before ++ ⟨i, w₀, w, g, .pure a⟩ :: after → Step sys allowed quiet program s
        { s with tasks := before ++ after, answers := ⟨i, w₀, w, a⟩ :: s.answers }

inductive Reachable (sys : System Resp W G) (allowed : Op → G → Prop) (quiet : G)
    (program : ι → Prog Resp α) (initial : W → Prop) : Pool Resp W G ι α → Prop where
  | initial (w) : initial w → Reachable sys allowed quiet program initial ⟨w, [], []⟩
  | step {s t} : Reachable sys allowed quiet program initial s →
      Step sys allowed quiet program s t → Reachable sys allowed quiet program initial t

section Invariant

variable (sys : System Resp W G) (later : W → W → Prop) (inv : W → Prop)
  (allowed : Op → G → Prop) (quiet : G) (program : ι → Prog Resp α)
  (Q : ι → W → W → α → Prop)

structure Invariant (s : Pool Resp W G ι α) : Prop where
  world : inv s.world
  tasks : ∀ t ∈ s.tasks, later t.last s.world ∧
    Wp sys later inv allowed t.prog (fun w _ a => Q t.asked t.start w a) t.last t.notes
  answers : ∀ a ∈ s.answers, Q a.asked a.start a.last a.answer

variable {sys later inv allowed quiet program Q}

theorem step_invariant (hf : Forward sys later inv) (hprog : ∀ i w, inv w →
      Wp sys later inv allowed (program i) (fun w' _ a => Q i w w' a) w quiet)
    {s t : Pool Resp W G ι α} (h : Invariant sys later inv allowed Q s)
    (hst : Step sys allowed quiet program s t) : Invariant sys later inv allowed Q t := by
  cases hst with
  | outside w hw =>
    refine ⟨hf.kept h.world hw, fun t ht => ?_, h.answers⟩
    obtain ⟨hle, hwp⟩ := h.tasks t ht
    exact ⟨hf.trans hle (hf.outside hw), hwp⟩
  | start i =>
    refine ⟨h.world, fun t ht => ?_, h.answers⟩
    rcases mem_cons.mp ht with rfl | ht
    · exact ⟨hf.refl _, hprog i s.world h.world⟩
    · exact h.tasks t ht
  | act before after i w₀ w g o next r w' heq ha hact =>
    have hmem : ∀ t, t ∈ s.tasks ↔ t ∈ before ∨ t = ⟨i, w₀, w, g, .op o next⟩ ∨ t ∈ after := by
      intro t
      simp only [heq, mem_append, mem_cons]
    obtain ⟨hle, hwp⟩ := h.tasks _ ((hmem _).mpr (.inr (.inl rfl)))
    obtain ⟨hi', hnext⟩ := hwp s.world hle h.world ha r w' hact
    refine ⟨hi', fun t ht => ?_, h.answers⟩
    have hother : t ∈ s.tasks → later t.last w' ∧
        Wp sys later inv allowed t.prog (fun w _ a => Q t.asked t.start w a) t.last t.notes := by
      intro hts
      obtain ⟨hle', hwp'⟩ := h.tasks t hts
      exact ⟨hf.trans hle' (hf.act hact), hwp'⟩
    rcases mem_append.mp ht with ht | ht
    · exact hother ((hmem t).mpr (.inl ht))
    · rcases mem_cons.mp ht with rfl | ht
      · exact ⟨hf.refl _, hnext⟩
      · exact hother ((hmem t).mpr (.inr (.inr ht)))
  | answer before after i w₀ w g a heq =>
    have hmem : ∀ t, t ∈ s.tasks ↔ t ∈ before ∨ t = ⟨i, w₀, w, g, .pure a⟩ ∨ t ∈ after := by
      intro t
      simp only [heq, mem_append, mem_cons]
    refine ⟨h.world, fun t ht => ?_, fun b hb => ?_⟩
    · rcases mem_append.mp ht with ht | ht
      · exact h.tasks t ((hmem t).mpr (.inl ht))
      · exact h.tasks t ((hmem t).mpr (.inr (.inr ht)))
    · rcases mem_cons.mp hb with rfl | hb
      · exact (h.tasks _ ((hmem _).mpr (.inr (.inl rfl)))).2
      · exact h.answers b hb

theorem reachable_invariant (hf : Forward sys later inv) {initial : W → Prop}
    (hinit : ∀ w, initial w → inv w)
    (hprog : ∀ i w, inv w → Wp sys later inv allowed (program i) (fun w' _ a => Q i w w' a) w quiet)
    {s : Pool Resp W G ι α} (h : Reachable sys allowed quiet program initial s) :
    Invariant sys later inv allowed Q s := by
  induction h with
  | initial w hw =>
    exact ⟨hinit w hw, fun t ht => absurd ht not_mem_nil, fun a ha => absurd ha not_mem_nil⟩
  | step _ hst ih => exact step_invariant hf hprog ih hst

end Invariant

section Scheduled

variable {sys : System Resp W G} {allowed : Op → G → Prop} {quiet : G}
  {program : ι → Prog Resp α} {initial : W → Prop} {t : Task Resp W G ι α}

def Task.ahead (note : (o : Op) → W → Resp o → G → G) (pick : (o : Op) → W → Resp o × W) :
    ℕ → W → Task Resp W G ι α → W × Task Resp W G ι α
  | 0, w, t => (w, t)
  | _ + 1, w, ⟨i, w₀, l, g, .pure a⟩ => (w, ⟨i, w₀, l, g, .pure a⟩)
  | n + 1, w, ⟨i, w₀, _, g, .op o next⟩ =>
    Task.ahead note pick n (pick o w).2
      ⟨i, w₀, (pick o w).2, note o w (pick o w).1 g, next (pick o w).1⟩

/-- The guard holds at each of these acts. -/
def Task.AllowedAhead (allowed : Op → G → Prop) (note : (o : Op) → W → Resp o → G → G)
    (pick : (o : Op) → W → Resp o × W) : ℕ → W → Task Resp W G ι α → Prop
  | 0, _, _ => True
  | _ + 1, _, ⟨_, _, _, _, .pure _⟩ => True
  | n + 1, w, ⟨i, w₀, _, g, .op o next⟩ => allowed o g ∧
    Task.AllowedAhead allowed note pick n (pick o w).2
      ⟨i, w₀, (pick o w).2, note o w (pick o w).1 g, next (pick o w).1⟩

theorem Task.allowedAhead_of_all {note : (o : Op) → W → Resp o → G → G}
    {pick : (o : Op) → W → Resp o × W} (hall : ∀ o g, allowed o g) (n : ℕ) (w : W)
    (t : Task Resp W G ι α) : t.AllowedAhead allowed note pick n w := by
  induction n generalizing w t with
  | zero => trivial
  | succ n ih =>
    obtain ⟨i, w₀, l, g, prog⟩ := t
    cases prog with
    | pure a => trivial
    | op o next => exact ⟨hall o g, ih _ _⟩

theorem Reachable.ahead {pick : (o : Op) → W → Resp o × W}
    (hpick : ∀ o w, sys.act o w (pick o w).1 (pick o w).2) {rest : List (Task Resp W G ι α)}
    {answers : List (Answered W ι α)} (n : ℕ) {w : W} (hall : t.AllowedAhead allowed sys.note pick n w)
    (h : Reachable sys allowed quiet program initial ⟨w, t :: rest, answers⟩) :
    Reachable sys allowed quiet program initial
      ⟨(t.ahead sys.note pick n w).1, (t.ahead sys.note pick n w).2 :: rest, answers⟩ := by
  induction n generalizing w t with
  | zero => exact h
  | succ n ih =>
    obtain ⟨i, w₀, l, g, prog⟩ := t
    cases prog with
    | pure a => exact h
    | op o next =>
      apply ih hall.2
      exact h.step (.act _ [] rest i w₀ l g o next _ _ rfl hall.1 (hpick o w))

theorem Reachable.answered {rest : List (Task Resp W G ι α)} {answers : List (Answered W ι α)}
    {w : W} {a : α} (hp : t.prog = .pure a)
    (h : Reachable sys allowed quiet program initial ⟨w, t :: rest, answers⟩) :
    Reachable sys allowed quiet program initial
      ⟨w, rest, ⟨t.asked, t.start, t.last, a⟩ :: answers⟩ := by
  obtain ⟨i, w₀, l, g, prog⟩ := t
  cases hp
  exact h.step (.answer _ [] rest i w₀ l g a rfl)

end Scheduled

end RelyGuarantee
