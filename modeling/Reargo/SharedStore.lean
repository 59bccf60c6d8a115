import Mathlib.Logic.Function.Basic

/-!
# Stores

A table keeps values of a function as they are asked for. Whatever is asked in whatever
order, what it hands out are the function's values.

Tasks run in any interleaving, each load and each save at once. A program that ends
with one answer whatever acceptable values it loads, and saves acceptable values only,
ends with it in every interleaving.
-/
namespace LookupTable

/-- Reading and adding values; a value added under a new key is read back, and changes no
other key. -/
structure Table (σ κ ν : Type) where
  get : σ → κ → Option ν
  insert : σ → κ → ν → σ
  Fits : κ → ν → Prop
  get_insert : ∀ s k v, Fits k v → get s k = none → get (insert s k v) k = some v
  get_insert_of_ne : ∀ s k v k', k' ≠ k → get (insert s k v) k' = get s k'

namespace Table

variable {σ κ ν : Type}

/-- The value kept, or the function's, which is kept from then on. -/
def lookup (T : Table σ κ ν) (f : κ → ν) (s : σ) (k : κ) : ν × σ :=
  match T.get s k with
  | some v => (v, s)
  | none => (f k, T.insert s k (f k))

def lookups (T : Table σ κ ν) (f : κ → ν) : σ → List κ → List ν × σ
  | s, [] => ([], s)
  | s, k :: ks =>
    let (v, s') := T.lookup f s k
    let (vs, s'') := T.lookups f s' ks
    (v :: vs, s'')

def Holds (T : Table σ κ ν) (f : κ → ν) (s : σ) : Prop :=
  ∀ k v, T.get s k = some v → v = f k

variable {T : Table σ κ ν} {f : κ → ν} {s : σ}

theorem lookup_spec (hfits : ∀ k, T.Fits k (f k)) (h : T.Holds f s) (k : κ) :
    (T.lookup f s k).1 = f k ∧ T.Holds f (T.lookup f s k).2 := by
  unfold lookup
  cases hget : T.get s k with
  | some v => exact ⟨h k v hget, h⟩
  | none =>
    refine ⟨rfl, fun k' v' hget' => ?_⟩
    by_cases hk : k' = k
    · subst hk
      have hback := T.get_insert s k' (f k') (hfits k') hget
      exact Option.some.inj (hget'.symm.trans hback)
    · have hsame := T.get_insert_of_ne s k (f k) k' hk
      exact h k' v' (hsame.symm.trans hget')

theorem lookups_spec (hfits : ∀ k, T.Fits k (f k)) (h : T.Holds f s) (ks : List κ) :
    (T.lookups f s ks).1 = ks.map f ∧ T.Holds f (T.lookups f s ks).2 := by
  induction ks generalizing s with
  | nil => exact ⟨rfl, h⟩
  | cons k ks ih =>
    obtain ⟨hv, hs⟩ := lookup_spec hfits h k
    obtain ⟨hvs, hend⟩ := ih hs
    refine ⟨?_, hend⟩
    unfold lookups
    simp only [hv, hvs, List.map_cons]

end Table

end LookupTable

namespace SharedStore

open List

variable {κ ι α β : Type} {V : κ → Type}

inductive Prog (V : κ → Type) (α : Type) where
  | pure (a : α)
  | load (k : κ) (next : Option (V k) → Prog V α)
  | save (k : κ) (v : V k) (next : Prog V α)

namespace Prog

def bind : Prog V α → (α → Prog V β) → Prog V β
  | .pure a, f => f a
  | .load k next, f => .load k fun v => (next v).bind f
  | .save k v next, f => .save k v (next.bind f)

def Yields (ok : (k : κ) → V k → Prop) : Prog V α → α → Prop
  | .pure b, a => b = a
  | .load k next, a => ∀ v, (∀ x, v = some x → ok k x) → (next v).Yields ok a
  | .save k v next, a => ok k v ∧ next.Yields ok a

variable {ok : (k : κ) → V k → Prop}

theorem Yields.bind {p : Prog V α} {f : α → Prog V β} {a : α} {b : β} (hp : p.Yields ok a)
    (hf : (f a).Yields ok b) : (p.bind f).Yields ok b := by
  induction p with
  | pure c =>
    have heq : c = a := hp
    rw [heq]
    exact hf
  | load k next ih => exact fun v hv => ih v (hp v hv)
  | save k v next ih => exact ⟨hp.1, ih hp.2⟩

end Prog

/-- The store, the tasks under way with what they were asked, and the answers given. -/
structure Pool (V : κ → Type) (ι α : Type) where
  store : (k : κ) → Option (V k)
  tasks : List (ι × Prog V α)
  answers : List (ι × α)

variable [DecidableEq κ] {s : Pool V ι α}

inductive Step (program : ι → Prog V α) : Pool V ι α → Pool V ι α → Prop where
  | start (s i) : Step program s { s with tasks := (i, program i) :: s.tasks }
  | load (s before after i k next) : s.tasks = before ++ (i, .load k next) :: after →
      Step program s { s with tasks := before ++ (i, next (s.store k)) :: after }
  | save (s before after i k v next) : s.tasks = before ++ (i, .save k v next) :: after →
      Step program s
        { s with
          store := Function.update s.store k (some v)
          tasks := before ++ (i, next) :: after }
  | answer (s before after i a) : s.tasks = before ++ (i, .pure a) :: after →
      Step program s { s with tasks := before ++ after, answers := (i, a) :: s.answers }

def initial : Pool V ι α := ⟨fun _ => none, [], []⟩

inductive Reachable (program : ι → Prog V α) : Pool V ι α → Prop where
  | initial : Reachable program initial
  | step {s t} : Reachable program s → Step program s t → Reachable program t

structure Invariant (ok : (k : κ) → V k → Prop) (expected : ι → α) (s : Pool V ι α) : Prop where
  store : ∀ k v, s.store k = some v → ok k v
  tasks : ∀ e ∈ s.tasks, e.2.Yields ok (expected e.1)
  answers : ∀ e ∈ s.answers, e.2 = expected e.1

section Invariant

variable {ok : (k : κ) → V k → Prop} {expected : ι → α} {program : ι → Prog V α}

theorem step_invariant (hprog : ∀ i, (program i).Yields ok (expected i)) {t : Pool V ι α}
    (h : Invariant ok expected s) (hst : Step program s t) : Invariant ok expected t := by
  have hpick : ∀ {before after : List (ι × Prog V α)} {i p},
      s.tasks = before ++ (i, p) :: after → p.Yields ok (expected i) := by
    intro before after i p heq
    refine h.tasks (i, p) ?_
    rw [heq]
    exact mem_append_right _ mem_cons_self
  have hrest : ∀ {before after : List (ι × Prog V α)} {i p p'},
      s.tasks = before ++ (i, p) :: after → p'.Yields ok (expected i) →
        ∀ e ∈ before ++ (i, p') :: after, e.2.Yields ok (expected e.1) := by
    intro before after i p p' heq hp' e he
    rcases mem_append.mp he with he | he
    · refine h.tasks e ?_
      rw [heq]
      exact mem_append_left _ he
    · rcases mem_cons.mp he with rfl | he
      · exact hp'
      · refine h.tasks e ?_
        rw [heq]
        exact mem_append_right _ (mem_cons_of_mem _ he)
  cases hst with
  | start i =>
    refine ⟨h.store, fun e he => ?_, h.answers⟩
    rcases mem_cons.mp he with rfl | he
    · exact hprog i
    · exact h.tasks e he
  | load before after i k next heq =>
    have hp : ∀ v, (∀ x, v = some x → ok k x) → (next v).Yields ok (expected i) := hpick heq
    exact ⟨h.store, hrest heq (hp _ (h.store k)), h.answers⟩
  | save before after i k v next heq =>
    have hp : ok k v ∧ next.Yields ok (expected i) := hpick heq
    refine ⟨fun k' v' hv' => ?_, hrest heq hp.2, h.answers⟩
    by_cases hk : k' = k
    · subst hk
      simp only [Function.update_self] at hv'
      rw [← Option.some.inj hv']
      exact hp.1
    · simp only [Function.update_of_ne hk] at hv'
      exact h.store k' v' hv'
  | answer before after i a heq =>
    have hp : a = expected i := hpick heq
    refine ⟨h.store, fun e he => ?_, fun e he => ?_⟩
    · refine h.tasks e ?_
      rw [heq]
      rcases mem_append.mp he with he | he
      · exact mem_append_left _ he
      · exact mem_append_right _ (mem_cons_of_mem _ he)
    · rcases mem_cons.mp he with rfl | he
      · exact hp
      · exact h.answers e he

theorem reachable_invariant (hprog : ∀ i, (program i).Yields ok (expected i))
    (h : Reachable program s) : Invariant ok expected s := by
  induction h with
  | initial =>
    refine ⟨fun k v hv => ?_, fun e he => absurd he not_mem_nil,
      fun e he => absurd he not_mem_nil⟩
    cases hv
  | step _ hst ih => exact step_invariant hprog ih hst

end Invariant

section Alone

variable {program : ι → Prog V α}

/-- The program run on its own: its answer and the store after it. -/
def Prog.exec : Prog V α → ((k : κ) → Option (V k)) → α × ((k : κ) → Option (V k))
  | .pure a, store => (a, store)
  | .load k next, store => (next (store k)).exec store
  | .save k v next, store => next.exec (Function.update store k (some v))

theorem reachable_exec {i : ι} (p : Prog V α) {rest : List (ι × Prog V α)}
    (h : Reachable program s) (htasks : s.tasks = (i, p) :: rest) :
    Reachable program
      { store := (p.exec s.store).2, tasks := rest,
        answers := (i, (p.exec s.store).1) :: s.answers } := by
  induction p generalizing s with
  | pure a => exact .step h (.answer s [] rest i a htasks)
  | load k next ih =>
    have hnext := h.step (.load s [] rest i k next htasks)
    have hend := ih (s.store k) hnext rfl
    exact hend
  | save k v next ih =>
    have hnext := h.step (.save s [] rest i k v next htasks)
    have hend := ih hnext rfl
    exact hend

theorem Reachable.ask (h : Reachable program s) (i : ι) :
    Reachable program
      { store := ((program i).exec s.store).2, tasks := s.tasks,
        answers := (i, ((program i).exec s.store).1) :: s.answers } := by
  have hstart := h.step (.start s i)
  have hend := reachable_exec (program i) hstart rfl
  exact hend

end Alone

end SharedStore
