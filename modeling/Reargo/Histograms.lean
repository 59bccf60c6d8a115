import Mathlib.Data.BitVec
import Mathlib.Data.Multiset.Bind

/-!
# Histograms

Counters that are bumped one index at a time. A counter is its start and the number of times that
its index occurs, so the order of the indices and the way they are split do not matter.
-/
namespace Histograms

open List

abbrev U32 := BitVec 32

variable {ι κ : Type}

/-- The sums of two sets of counters. -/
def plus (a b : ι → U32) : ι → U32 := fun i => a i + b i

def zeros : ι → U32 := fun _ => 0

theorem plus_assoc (a b c : ι → U32) : plus (plus a b) c = plus a (plus b c) :=
  funext fun _ => BitVec.add_assoc _ _ _

theorem plus_zeros (a : ι → U32) : plus a zeros = a := funext fun _ => BitVec.add_zero _

theorem zeros_plus (a : ι → U32) : plus zeros a = a := funext fun _ => BitVec.zero_add _

variable [DecidableEq ι] [DecidableEq κ]

def bump (counts : ι → U32) (i : ι) : ι → U32 := Function.update counts i (counts i + 1)

/-- The number of times that an index occurs, as a counter. -/
def times (l : List ι) (i : ι) : U32 := BitVec.ofNat 32 (l.count i)

theorem times_append (l l' : List ι) : times (l ++ l') = plus (times l) (times l') := by
  funext i
  rw [plus, times, count_append, BitVec.ofNat_add]
  rfl

theorem times_perm {l l' : List ι} (h : l.Perm l') : times l = times l' := by
  funext i
  rw [times, h.count_eq, ← times]

theorem bump_eq (counts : ι → U32) (i : ι) : bump counts i = plus counts (times [i]) := by
  funext j
  rw [bump, plus, times, count_singleton]
  by_cases h : j = i
  · subst h
    simp
  · rw [Function.update_of_ne h, if_neg (by simpa using Ne.symm h)]
    exact (BitVec.add_zero _).symm

theorem foldl_bump (counts : ι → U32) (l : List ι) : l.foldl bump counts = plus counts (times l) := by
  induction l generalizing counts with
  | nil => exact (plus_zeros counts).symm
  | cons i l ih =>
    rw [foldl_cons, ih, bump_eq, plus_assoc, ← times_append, singleton_append]

/-- Indices that are told apart keep their counters. -/
theorem times_map {f : ι → κ} (h : Function.Injective f) (l : List ι) (i : ι) :
    times (l.map f) (f i) = times l i := by
  rw [times, count_map_of_injective l f h, ← times]

/-- Sets of counters that are added up, whatever is added in between. -/
theorem foldl_plus (counts : ι → U32) (ls : List (List ι)) :
    (ls.map times).foldl plus counts = plus counts (times ls.flatten) := by
  induction ls generalizing counts with
  | nil => exact (plus_zeros counts).symm
  | cons l ls ih =>
    rw [map_cons, foldl_cons, ih, plus_assoc, flatten_cons, times_append]

/-- Each of four neighbouring indices bumps a set of its own. -/
structure Four (ι : Type) where
  c₀ : ι → U32
  c₁ : ι → U32
  c₂ : ι → U32
  c₃ : ι → U32

def Four.zeros : Four ι := ⟨fun _ => 0, fun _ => 0, fun _ => 0, fun _ => 0⟩

def Four.spread (c : Four ι) : List ι → Four ι
  | i₀ :: i₁ :: i₂ :: i₃ :: l =>
    Four.spread ⟨bump c.c₀ i₀, bump c.c₁ i₁, bump c.c₂ i₂, bump c.c₃ i₃⟩ l
  | _ => c

def Four.total (c : Four ι) : ι → U32 := plus (plus (plus c.c₀ c.c₁) c.c₂) c.c₃

theorem Four.total_spread (c : Four ι) (l : List ι) (h : l.length % 4 = 0) :
    (c.spread l).total = plus c.total (times l) := by
  induction c, l using Four.spread.induct with
  | case1 c i₀ i₁ i₂ i₃ l ih =>
    have split : times (i₀ :: i₁ :: i₂ :: i₃ :: l) =
        plus (times [i₀]) (plus (times [i₁]) (plus (times [i₂]) (plus (times [i₃]) (times l)))) := by
      simp only [← times_append, singleton_append]
    simp only [length_cons] at h
    rw [Four.spread, ih (by omega), split]
    funext j
    simp only [Four.total, bump_eq, plus]
    ac_rfl
  | case2 l c other =>
    have empty : l = [] := by
      match l, h, other with
      | [], _, _ => rfl
      | [_], h, _ => simp at h
      | [_, _], h, _ => simp at h
      | [_, _, _], h, _ => simp at h
      | i₀ :: i₁ :: i₂ :: i₃ :: l, _, other => exact absurd rfl (other i₀ i₁ i₂ i₃ l)
    rw [empty]
    exact (plus_zeros _).symm

theorem flatMap_perm {α β γ : Type} (rows : List α) (columns : List β) (f : α → β → γ) :
    (rows.flatMap fun a => columns.map (f a)).Perm (columns.flatMap fun b => rows.map (f · b)) := by
  have swap := Multiset.bind_map_comm (rows : Multiset α) (columns : Multiset β) (f := f)
  simp only [Multiset.map_coe, Multiset.coe_bind] at swap
  exact Multiset.coe_eq_coe.mp swap

end Histograms
