import Mathlib.Tactic

/-!
# Saturation by rules, round after round

A rule gives its conclusion as soon as one of its premises is there. Rounds over a list of
rules add conclusions until a round adds none. Every round that adds something adds a
conclusion, so one round more than there are rules is enough, and what is there in the end
is what the rules derive.
-/
namespace RuleSaturation

open List Finset List

variable {K : Type} [DecidableEq K]

structure Rule (K : Type) where
  premises : List K
  conclusion : K

def fire (acc : Finset K × Bool) (r : Rule K) : Finset K × Bool :=
  if r.premises.any (· ∈ acc.1) then
    (insert r.conclusion acc.1, acc.2 || r.conclusion ∉ acc.1)
  else acc

def round (rules : List (Rule K)) (T : Finset K) : Finset K × Bool := rules.foldl fire (T, false)

/-- At most so many rounds, and none after one that adds nothing. -/
def saturate (rules : List (Rule K)) : ℕ → Finset K → Finset K
  | 0, T => T
  | n + 1, T =>
    let r := round rules T
    if r.2 then saturate rules n r.1 else r.1

inductive Derives (rules : List (Rule K)) (S : Finset K) : K → Prop where
  | base {k : K} : k ∈ S → Derives rules S k
  | rule {r : Rule K} {p : K} : r ∈ rules → p ∈ r.premises → Derives rules S p →
      Derives rules S r.conclusion

def Closed (rules : List (Rule K)) (T : Finset K) : Prop :=
  ∀ r ∈ rules, ∀ p ∈ r.premises, p ∈ T → r.conclusion ∈ T

variable {rules : List (Rule K)} {S T : Finset K}

omit [DecidableEq K] in
theorem Derives.mem_of_closed {k : K} (h : Derives rules S k) (hS : S ⊆ T)
    (hT : Closed rules T) : k ∈ T := by
  induction h with
  | base hk => exact hS hk
  | rule hr hp _ ih => exact hT _ hr _ hp ih

theorem subset_fire (acc : Finset K × Bool) (r : Rule K) : acc.1 ⊆ (fire acc r).1 := by
  unfold fire
  split
  · exact subset_insert _ _
  · exact Finset.Subset.refl _

theorem subset_foldl_fire (acc : Finset K × Bool) (rs : List (Rule K)) :
    acc.1 ⊆ (rs.foldl fire acc).1 := by
  induction rs generalizing acc with
  | nil => exact Finset.Subset.refl _
  | cons r rs ih => exact (subset_fire acc r).trans (ih _)

theorem subset_round (T : Finset K) : T ⊆ (round rules T).1 := subset_foldl_fire (T, false) rules

theorem derives_round (hT : ∀ k ∈ T, Derives rules S k) :
    ∀ k ∈ (round rules T).1, Derives rules S k := by
  have hfold : ∀ (rs : List (Rule K)) (acc : Finset K × Bool), (∀ r ∈ rs, r ∈ rules) →
      (∀ k ∈ acc.1, Derives rules S k) → ∀ k ∈ (rs.foldl fire acc).1, Derives rules S k := by
    intro rs
    induction rs with
    | nil => exact fun _ _ h => h
    | cons r rs ih =>
      intro acc hrs hacc
      refine ih _ (fun q hq => hrs q (mem_cons_of_mem _ hq)) fun k hk => ?_
      unfold fire at hk
      split at hk
      · next hany =>
        obtain ⟨p, hp, hmem⟩ := any_eq_true.mp hany
        rcases mem_insert.mp hk with rfl | hk
        · exact .rule (hrs r mem_cons_self) hp (hacc p (by simpa using hmem))
        · exact hacc k hk
      · exact hacc k hk
  exact hfold rules (T, false) (fun _ h => h) hT

/-- A round that reports no change made none, and there is nothing left to add. -/
theorem closed_of_unchanged (h : (round rules T).2 = false) :
    (round rules T).1 = T ∧ Closed rules T := by
  have hfold : ∀ (rs : List (Rule K)) (acc : Finset K × Bool), (rs.foldl fire acc).2 = false →
      acc.2 = false ∧ (rs.foldl fire acc).1 = acc.1 ∧ Closed rs acc.1 := by
    intro rs
    induction rs with
    | nil => exact fun acc h => ⟨h, rfl, by simp [Closed]⟩
    | cons r rs ih =>
      intro acc h
      rw [foldl_cons] at h ⊢
      obtain ⟨hsecond, hfirst, hclosed⟩ := ih (fire acc r) h
      by_cases hany : r.premises.any (· ∈ acc.1)
      · have hfire : fire acc r = (insert r.conclusion acc.1, acc.2 || r.conclusion ∉ acc.1) :=
          if_pos hany
        rw [hfire] at hsecond hfirst hclosed ⊢
        simp only [Bool.or_eq_false_iff, decide_eq_false_iff_not, not_not] at hsecond
        rw [insert_eq_self.mpr hsecond.2] at hfirst hclosed ⊢
        refine ⟨hsecond.1, hfirst, fun q hq p hp hmem => ?_⟩
        rcases mem_cons.mp hq with rfl | hq
        · exact hsecond.2
        · exact hclosed q hq p hp hmem
      · have hfire : fire acc r = acc := if_neg hany
        rw [hfire] at hsecond hfirst hclosed ⊢
        refine ⟨hsecond, hfirst, fun q hq p hp hmem => ?_⟩
        rcases mem_cons.mp hq with rfl | hq
        · exact absurd (any_eq_true.mpr ⟨p, hp, by simpa using hmem⟩) hany
        · exact hclosed q hq p hp hmem
  exact (hfold rules (T, false) h).2

/-- The conclusions not there yet. -/
def missing (rules : List (Rule K)) (T : Finset K) : Finset K :=
  (rules.map Rule.conclusion).toFinset \ T

theorem card_missing_le (T : Finset K) : (missing rules T).card ≤ rules.length := by
  calc (missing rules T).card ≤ (rules.map Rule.conclusion).toFinset.card :=
        card_le_card sdiff_subset
    _ ≤ (rules.map Rule.conclusion).length := toFinset_card_le _
    _ = rules.length := length_map _

theorem card_missing_round (h : (round rules T).2 = true) :
    (missing rules (round rules T).1).card < (missing rules T).card := by
  have hfold : ∀ (rs : List (Rule K)) (acc : Finset K × Bool), acc.2 = false →
      (rs.foldl fire acc).2 = true →
        ∃ r ∈ rs, r.conclusion ∉ acc.1 ∧ r.conclusion ∈ (rs.foldl fire acc).1 := by
    intro rs
    induction rs with
    | nil =>
      intro acc hfalse htrue
      exact absurd (hfalse.symm.trans htrue) (by decide)
    | cons r rs ih =>
      intro acc hfalse htrue
      by_cases hnew : r.premises.any (· ∈ acc.1) = true ∧ r.conclusion ∉ acc.1
      · refine ⟨r, mem_cons_self, hnew.2, subset_foldl_fire _ rs ?_⟩
        simp [fire, hnew.1]
      · have hfire : (fire acc r).2 = false ∧ (fire acc r).1 = acc.1 := by
          unfold fire
          split
          · next hany =>
            have hmem : r.conclusion ∈ acc.1 := by
              by_contra hc
              exact hnew ⟨hany, hc⟩
            simp [hfalse, hmem]
          · exact ⟨hfalse, rfl⟩
        obtain ⟨q, hq, hout, hin⟩ := ih (fire acc r) hfire.1 htrue
        exact ⟨q, mem_cons_of_mem _ hq, hfire.2 ▸ hout, hin⟩
  obtain ⟨r, hr, hout, hin⟩ := hfold rules (T, false) rfl h
  have hmem : r.conclusion ∈ (rules.map Rule.conclusion).toFinset :=
    mem_toFinset.mpr (mem_map_of_mem hr)
  refine card_lt_card (ssubset_iff_of_subset ?_ |>.mpr ⟨r.conclusion, ?_, ?_⟩)
  · exact sdiff_subset_sdiff (Finset.Subset.refl _) (subset_round T)
  · exact mem_sdiff.mpr ⟨hmem, hout⟩
  · exact fun hc => (mem_sdiff.mp hc).2 hin

theorem saturate_spec {n : ℕ} (hn : (missing rules T).card < n) (hST : S ⊆ T)
    (hT : ∀ k ∈ T, Derives rules S k) (k : K) :
    k ∈ saturate rules n T ↔ Derives rules S k := by
  induction n generalizing T with
  | zero => exact absurd hn (Nat.not_lt_zero _)
  | succ n ih =>
    unfold saturate
    simp only
    split
    · next hchanged =>
      exact ih (by have := card_missing_round hchanged; omega) (hST.trans (subset_round T))
        (derives_round hT)
    · next hsame =>
      obtain ⟨heq, hclosed⟩ := closed_of_unchanged (Bool.eq_false_iff.mpr hsame)
      rw [heq]
      exact ⟨hT k, fun h => h.mem_of_closed hST hclosed⟩

theorem mem_saturate {n : ℕ} (hn : rules.length < n) (S : Finset K) (k : K) :
    k ∈ saturate rules n S ↔ Derives rules S k :=
  saturate_spec (lt_of_le_of_lt (card_missing_le S) hn) (Finset.Subset.refl S)
    (fun _ h => .base h) k

end RuleSaturation
