import Mathlib.Data.List.Basic
import Mathlib.Logic.Relation

/-!
# Dominance in a rooted graph

A node dominates another when every path from the root to the second meets the first.
Paths are lists of nodes, the last node first.
-/
namespace Dominance

open List

/-- A path from the root, its last node first. -/
inductive Path {α : Type*} (edge : α → α → Prop) (root : α) : α → List α → Prop where
  | root : Path edge root root [root]
  | step {b c l} : Path edge root b l → edge b c → Path edge root c (c :: l)

variable {α : Type*} {edge : α → α → Prop} {root : α} {b : α} {l : List α}

def Reached (edge : α → α → Prop) (root b : α) : Prop := ∃ l, Path edge root b l

/-- Also true of every node when the second is not reached. -/
def Dominates (edge : α → α → Prop) (root d b : α) : Prop := ∀ l, Path edge root b l → d ∈ l

def StrictlyDominates (edge : α → α → Prop) (root d b : α) : Prop :=
  d ≠ b ∧ Dominates edge root d b

structure ImmediateDominator (edge : α → α → Prop) (root d b : α) : Prop where
  reached : Reached edge root b
  strict : StrictlyDominates edge root d b
  nearest : ∀ e, StrictlyDominates edge root e b → Dominates edge root e d

theorem Path.mem_last (h : Path edge root b l) : b ∈ l := by
  cases h with
  | root => exact mem_cons_self
  | step _ _ => exact mem_cons_self

theorem Path.cut {c : α} (h : Path edge root c l) (hb : b ∈ l) :
    ∃ l', Path edge root b l' ∧ l' <:+ l := by
  induction h with
  | root =>
    obtain rfl := mem_singleton.mp hb
    exact ⟨_, .root, suffix_refl _⟩
  | @step x y l hx hxy ih =>
    rcases mem_cons.mp hb with rfl | hb
    · exact ⟨_, .step hx hxy, suffix_refl _⟩
    · obtain ⟨l', hl', hsuffix⟩ := ih hb
      exact ⟨l', hl', hsuffix.trans (suffix_cons _ _)⟩

theorem Path.reached (h : Path edge root b l) : Reached edge root b := ⟨l, h⟩

theorem Reached.step {c : α} (h : Reached edge root b) (hbc : edge b c) : Reached edge root c := by
  obtain ⟨l, hl⟩ := h
  exact ⟨c :: l, hl.step hbc⟩

theorem reached_root : Reached edge root root := ⟨_, .root⟩

theorem reached_iff : Reached edge root b ↔ Relation.ReflTransGen edge root b := by
  constructor
  · rintro ⟨l, hl⟩
    induction hl with
    | root => exact .refl
    | step _ hbc ih => exact ih.tail hbc
  · intro h
    induction h with
    | refl => exact reached_root
    | tail _ hbc ih => exact ih.step hbc

theorem Reached.induct {P : α → Prop} (h : Reached edge root b) (hroot : P root)
    (hstep : ∀ x y, Reached edge root x → P x → edge x y → P y) : P b := by
  obtain ⟨l, hl⟩ := h
  induction hl with
  | root => exact hroot
  | step hx hxy ih => exact hstep _ _ hx.reached ih hxy

theorem Dominates.refl (b : α) : Dominates edge root b b := fun _ hl => hl.mem_last

theorem Dominates.trans {a c : α} (hab : Dominates edge root a b) (hbc : Dominates edge root b c) :
    Dominates edge root a c := by
  intro l hl
  obtain ⟨l', hl', hsuffix⟩ := hl.cut (hbc l hl)
  exact hsuffix.subset (hab l' hl')

theorem Dominates.eq_root {d : α} (h : Dominates edge root d root) : d = root :=
  mem_singleton.mp (h _ .root)

theorem root_dominates (b : α) : Dominates edge root root b := by
  intro l hl
  induction hl with
  | root => exact mem_cons_self
  | step _ _ ih => exact mem_cons_of_mem _ ih

theorem Dominates.pred {d c : α} (h : Dominates edge root d c) (hne : d ≠ c) (hbc : edge b c) :
    Dominates edge root d b := by
  intro l hl
  exact (mem_cons.mp (h _ (hl.step hbc))).resolve_left hne

theorem Dominates.reached {d : α} (h : Dominates edge root d b) (hb : Reached edge root b) :
    Reached edge root d := by
  obtain ⟨l, hl⟩ := hb
  obtain ⟨l', hl', -⟩ := hl.cut (h l hl)
  exact hl'.reached

/-- A shorter path to the same node would be cut at a dominator below it. -/
theorem Dominates.antisymm {a : α} (hb : Reached edge root b) (hab : Dominates edge root a b)
    (hba : Dominates edge root b a) : a = b := by
  obtain ⟨l, hl⟩ := hb
  induction hn : l.length using Nat.strongRecOn generalizing l with
  | ind n ih =>
    by_contra hne
    cases hl with
    | root => exact hne hab.eq_root
    | @step x _ l hx hxb =>
      obtain ⟨m, hm, hml⟩ := hx.cut (hab.pred hne hxb l hx)
      obtain ⟨k, hk, hkm⟩ := hm.cut (hba m hm)
      have hlt : k.length < n := by
        have h1 := hkm.length_le
        have h2 := hml.length_le
        rw [← hn, length_cons]
        omega
      exact hne (ih k.length hlt k hk rfl)

theorem ImmediateDominator.unique {d e : α} (hd : ImmediateDominator edge root d b)
    (he : ImmediateDominator edge root e b) : d = e :=
  Dominates.antisymm (he.strict.2.reached hd.reached) (he.nearest d hd.strict)
    (hd.nearest e he.strict)

theorem avoid_step {z c x : α}
    (hpath : ∃ l, Path edge root c l ∧ z ∉ l)
    (h : Relation.ReflTransGen (fun p s => edge p s ∧ s ≠ z) c x) :
    ∃ l, Path edge root x l ∧ z ∉ l := by
  induction h with
  | refl => exact hpath
  | tail _ hps ih =>
    obtain ⟨l, hl, hz⟩ := ih
    refine ⟨_, hl.step hps.1, ?_⟩
    rw [mem_cons, not_or]
    exact ⟨hps.2.symm, hz⟩

/-- The second graph has one more node, its root, with the old root as the only successor. -/
structure Precedes (edge : α → α → Prop) (root : α) (edge' : α → α → Prop) (root' : α) : Prop where
  new : root' ≠ root
  first : ∀ s, edge' root' s ↔ s = root
  rest : ∀ p s, p ≠ root' → (edge' p s ↔ edge p s)
  source : ∀ p, ¬ edge p root'

section Precedes

variable {edge' : α → α → Prop} {root' : α} (h : Precedes edge root edge' root')
include h

theorem Precedes.reached_ne (hb : Reached edge root b) : b ≠ root' := by
  obtain ⟨l, hl⟩ := hb
  cases hl with
  | root => exact h.new.symm
  | step _ hbc =>
    rintro rfl
    exact h.source _ hbc

theorem Precedes.path (hl : Path edge root b l) : Path edge' root' b (l ++ [root']) := by
  induction hl with
  | root => exact .step .root ((h.first _).mpr rfl)
  | step hb hbc ih => exact .step ih ((h.rest _ _ (h.reached_ne hb.reached)).mpr hbc)

theorem Precedes.path_split (hl : Path edge' root' b l) (hb : b ≠ root') :
    ∃ l', l = l' ++ [root'] ∧ Path edge root b l' := by
  induction hl with
  | root => exact absurd rfl hb
  | @step p s l hp hps ih =>
    by_cases hpr : p = root'
    · subst hpr
      obtain rfl := (h.first s).mp hps
      refine ⟨[s], ?_, .root⟩
      cases hp with
      | root => rfl
      | @step q _ _ hq hqp =>
        by_cases hqr : q = p
        · subst hqr
          exact absurd ((h.first q).mp hqp) h.new
        · exact absurd ((h.rest q p hqr).mp hqp) (h.source q)
    · obtain ⟨l', rfl, hl'⟩ := ih hpr
      exact ⟨s :: l', rfl, .step hl' ((h.rest p s hpr).mp hps)⟩

theorem Precedes.reached_iff (hb : b ≠ root') : Reached edge' root' b ↔ Reached edge root b := by
  constructor
  · rintro ⟨l, hl⟩
    obtain ⟨l', -, hl'⟩ := h.path_split hl hb
    exact hl'.reached
  · rintro ⟨l, hl⟩
    exact (h.path hl).reached

theorem Precedes.dominates_iff {d : α} (hb : b ≠ root') :
    Dominates edge' root' d b ↔ d = root' ∨ Dominates edge root d b := by
  constructor
  · intro hd
    by_cases hdr : d = root'
    · exact .inl hdr
    · right
      intro l hl
      rcases mem_append.mp (hd _ (h.path hl)) with hmem | hmem
      · exact hmem
      · exact absurd (mem_singleton.mp hmem) hdr
  · rintro (rfl | hd)
    · exact root_dominates b
    · intro l hl
      obtain ⟨l', rfl, hl'⟩ := h.path_split hl hb
      exact mem_append_left _ (hd l' hl')

theorem Precedes.immediate_iff {d : α} (hb : b ≠ root') :
    ImmediateDominator edge' root' d b ↔
      (b = root ∧ d = root') ∨ ImmediateDominator edge root d b := by
  constructor
  · intro hd
    have hreached := (h.reached_iff hb).mp hd.reached
    by_cases hdr : d = root'
    · subst hdr
      left
      refine ⟨?_, rfl⟩
      by_contra hbr
      have hroot : StrictlyDominates edge' d root b :=
        ⟨fun heq => hbr heq.symm, (h.dominates_iff hb).mpr (.inr (root_dominates b))⟩
      exact h.new (hd.nearest root hroot).eq_root.symm
    · right
      have hdom := ((h.dominates_iff hb).mp hd.strict.2).resolve_left hdr
      refine ⟨hreached, ⟨hd.strict.1, hdom⟩, ?_⟩
      rintro e ⟨heb, he⟩
      have hed := hd.nearest e ⟨heb, (h.dominates_iff hb).mpr (.inr he)⟩
      exact ((h.dominates_iff hdr).mp hed).resolve_left (h.reached_ne (he.reached hreached))
  · rintro (⟨rfl, rfl⟩ | hd)
    · refine ⟨(h.reached_iff hb).mpr reached_root, ⟨hb.symm, root_dominates b⟩, ?_⟩
      rintro e ⟨heb, he⟩
      rcases (h.dominates_iff hb).mp he with rfl | he
      · exact .refl e
      · exact absurd he.eq_root heb
    · have hdr := h.reached_ne (hd.strict.2.reached hd.reached)
      refine ⟨(h.reached_iff hb).mpr hd.reached, ⟨hd.strict.1, ?_⟩, ?_⟩
      · exact (h.dominates_iff hb).mpr (.inr hd.strict.2)
      · rintro e ⟨heb, he⟩
        rcases (h.dominates_iff hb).mp he with rfl | he
        · exact root_dominates d
        · exact (h.dominates_iff hdr).mpr (.inr (hd.nearest e ⟨heb, he⟩))

end Precedes

end Dominance
