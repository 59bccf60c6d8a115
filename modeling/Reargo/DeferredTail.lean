import Mathlib.Tactic

/-!
# Deferring operations of a straight line

Operations over a store of locations, each with the locations it reads and those it writes.
A set of them is moved to the end of the line, in order. When each location an operation reads
keeps what it got at one point of the line until the operation, the moved line computes the
same values, provided that what is moved reads nothing written later by what stays.
-/
namespace DeferredTail

open List

variable {Op Loc Val : Type*}

/-- What an operation reads decides what it writes; it changes nothing else. -/
structure Footprint (step : Op → (Loc → Val) → Loc → Val) (reads writes : Op → Set Loc) :
    Prop where
  frame : ∀ o σ l, l ∉ writes o → step o σ l = σ l
  congr : ∀ o σ τ, (∀ l ∈ reads o, σ l = τ l) → ∀ l ∈ writes o, step o σ l = step o τ l

def run (step : Op → (Loc → Val) → Loc → Val) (ops : List Op) (σ : Loc → Val) : Loc → Val :=
  ops.foldl (fun σ o => step o σ) σ

section Line

variable (step : Op → (Loc → Val) → Loc → Val) (reads writes : Op → Set Loc) (ops : List Op)
  (late : Op → Bool) (σ : Loc → Val)

/-- The store after the first `j` operations. -/
def after (j : ℕ) : Loc → Val := run step (ops.take j) σ

/-- The store after those of the first `j` that stay. -/
def stayed (j : ℕ) : Loc → Val := run step ((ops.take j).filter fun o => !late o) σ

/-- The store after all that stay and those of the first `j` that are moved. -/
def moved (j : ℕ) : Loc → Val :=
  run step ((ops.take j).filter late) (stayed step ops late σ ops.length)

/-- Position `j` reads at `l` what is there since the first `b` operations: at the start, or
written by the last of them. -/
structure Since (j : ℕ) (l : Loc) (b : ℕ) : Prop where
  le : b ≤ j
  born : b = 0 ∨ ∃ o, ops[b - 1]? = some o ∧ l ∈ writes o
  held : ∀ q, b ≤ q → q < j → after step ops σ (q + 1) l = after step ops σ q l

/-- What stays reads nothing a moved operation gave it. -/
def Stays (b : ℕ) : Prop := ∀ o, b ≠ 0 → ops[b - 1]? = some o → late o = false

/-- What is moved finds its location as it was: nothing that stays writes it later, and
what was moved over the point it was given at wrote the same. -/
structure Moves (j : ℕ) (l : Loc) (b : ℕ) : Prop where
  clear : ∀ q o, j < q → ops[q]? = some o → late o = false → l ∉ writes o
  early : ∀ q o, q + 1 < b → ops[q]? = some o → late o = true → l ∈ writes o →
    after step ops σ b l = after step ops σ (q + 1) l

/-- Each location read is covered. -/
structure Deferrable : Prop where
  stays : ∀ j o, ops[j]? = some o → late o = false → ∀ l ∈ reads o,
    ∃ b, Since step writes ops σ j l b ∧ Stays ops late b
  moves : ∀ j o, ops[j]? = some o → late o = true → ∀ l ∈ reads o,
    ∃ b, Since step writes ops σ j l b ∧ (Stays ops late b → Moves step writes ops late σ j l b)

end Line

section Steps

variable {step : Op → (Loc → Val) → Loc → Val} {reads writes : Op → Set Loc} {ops : List Op}
  {late : Op → Bool} {σ : Loc → Val} {j q b : ℕ} {o : Op} {l : Loc}

theorem take_succ_of_getElem? (ho : ops[q]? = some o) :
    ops.take (q + 1) = ops.take q ++ [o] := by
  rw [take_add_one, ho]
  rfl

theorem run_append (ops ops' : List Op) (σ : Loc → Val) :
    run step (ops ++ ops') σ = run step ops' (run step ops σ) := foldl_append

section

variable (ho : ops[q]? = some o)

include ho

theorem after_succ : after step ops σ (q + 1) = step o (after step ops σ q) := by
  unfold after
  rw [take_succ_of_getElem? ho, run_append]
  rfl

theorem stayed_succ (hl : late o = false) :
    stayed step ops late σ (q + 1) = step o (stayed step ops late σ q) := by
  unfold stayed
  rw [take_succ_of_getElem? ho, filter_append, run_append]
  simp [run, hl]

theorem stayed_succ_late (hl : late o = true) :
    stayed step ops late σ (q + 1) = stayed step ops late σ q := by
  unfold stayed
  rw [take_succ_of_getElem? ho, filter_append, run_append]
  simp [run, hl]

theorem moved_succ (hl : late o = true) :
    moved step ops late σ (q + 1) = step o (moved step ops late σ q) := by
  unfold moved
  rw [take_succ_of_getElem? ho, filter_append, run_append]
  simp [run, hl]

theorem moved_succ_stays (hl : late o = false) :
    moved step ops late σ (q + 1) = moved step ops late σ q := by
  unfold moved
  rw [take_succ_of_getElem? ho, filter_append, run_append]
  simp [run, hl]

end

theorem Since.eq_at (hs : Since step writes ops σ j l b) (hb : b ≤ q) (hq : q ≤ j) :
    after step ops σ q l = after step ops σ j l := by
  induction hq using Nat.decreasingInduction with
  | self => rfl
  | of_succ k hk ih =>
    rw [← ih (by omega), hs.held k hb (by omega)]

variable (hf : Footprint step reads writes)

include hf

/-- The stores of the two lines agree on a location that holds what something staying gave
it, if every staying operation in between computes alike. -/
theorem stayed_eq_after
    (hs : Since step writes ops σ j l b) (hstay : Stays ops late b)
    (ih : ∀ q o, q < j → ops[q]? = some o → late o = false → ∀ l ∈ reads o,
      stayed step ops late σ q l = after step ops σ q l) (hj : j ≤ ops.length) (hb : b ≤ q)
    (hq : q ≤ j) : stayed step ops late σ q l = after step ops σ q l := by
  induction q, hb using Nat.le_induction with
  | base =>
    rcases hs.born with rfl | ⟨o, ho, hw⟩
    · rfl
    · cases b with
      | zero => rfl
      | succ b =>
        have hlate := hstay o (Nat.succ_ne_zero b) ho
        rw [Nat.add_sub_cancel] at ho
        rw [stayed_succ ho hlate, after_succ ho]
        exact hf.congr o _ _ (ih b o (by omega) ho hlate) l hw
  | succ q hb' ihq =>
    have hin : q < ops.length := by omega
    have ho := getElem?_eq_getElem hin
    have hprev := ihq (by omega)
    cases hlate : late ops[q] with
    | true =>
      rw [stayed_succ_late ho hlate, hs.held q hb' (by omega)]
      exact hprev
    | false =>
      rw [stayed_succ ho hlate, after_succ ho]
      by_cases hw : l ∈ writes ops[q]
      · exact hf.congr _ _ _ (ih q _ (by omega) ho hlate) l hw
      · rw [hf.frame _ _ l hw, hf.frame _ _ l hw]
        exact hprev

theorem stayed_reads (hd : Deferrable step reads writes ops late σ) (ho : ops[j]? = some o)
    (hlate : late o = false) :
    ∀ l ∈ reads o, stayed step ops late σ j l = after step ops σ j l := by
  induction j using Nat.strong_induction_on generalizing o with
  | _ j ih =>
    intro l hl
    obtain ⟨b, hs, hstay⟩ := hd.stays j o ho hlate l hl
    have hj := (List.getElem?_eq_some_iff.mp ho).1
    exact stayed_eq_after hf hs hstay (fun q o' hq ho' hlate' => ih q hq ho' hlate')
      (by omega) hs.le (Nat.le_refl j)

/-- A location nothing moved writes is left the same by both lines. -/
theorem stayed_unmoved (hd : Deferrable step reads writes ops late σ)
    (hl : ∀ o ∈ ops, late o = true → l ∉ writes o) (hq : q ≤ ops.length) :
    stayed step ops late σ q l = after step ops σ q l := by
  induction q with
  | zero => rfl
  | succ q ih =>
    have hin : q < ops.length := by omega
    have ho := getElem?_eq_getElem hin
    have hmem : ops[q] ∈ ops := getElem_mem _
    have hprev := ih (by omega)
    cases hlate : late ops[q] with
    | true =>
      rw [stayed_succ_late ho hlate, after_succ ho, hf.frame _ _ l (hl _ hmem hlate)]
      exact hprev
    | false =>
      rw [stayed_succ ho hlate, after_succ ho]
      by_cases hw : l ∈ writes ops[q]
      · exact hf.congr _ _ _ (stayed_reads hf hd ho hlate) l hw
      · rw [hf.frame _ _ l hw, hf.frame _ _ l hw]
        exact hprev

theorem moved_unmoved (hl : ∀ o ∈ ops, late o = true → l ∉ writes o) (hq : q ≤ ops.length) :
    moved step ops late σ q l = stayed step ops late σ ops.length l := by
  induction q with
  | zero => rfl
  | succ q ih =>
    have hin : q < ops.length := by omega
    have ho := getElem?_eq_getElem hin
    have hmem : ops[q] ∈ ops := getElem_mem _
    have hprev := ih (by omega)
    cases hlate : late ops[q] with
    | true =>
      rw [moved_succ ho hlate, hf.frame _ _ l (hl _ hmem hlate)]
      exact hprev
    | false =>
      rw [moved_succ_stays ho hlate]
      exact hprev

variable (hd : Deferrable step reads writes ops late σ) (ho : ops[j]? = some o)
  (hlate : late o = true)

include hd ho hlate

theorem stayed_end (hs : Since step writes ops σ j l b) (hstay : Stays ops late b)
    (hm : Moves step writes ops late σ j l b) :
    stayed step ops late σ ops.length l = after step ops σ j l := by
  have hj := (List.getElem?_eq_some_iff.mp ho).1
  have hat : stayed step ops late σ j l = after step ops σ j l :=
    stayed_eq_after hf hs hstay
      (fun _ _ _ ho' hlate' => stayed_reads hf hd ho' hlate') (by omega) hs.le (Nat.le_refl j)
  have hend : ∀ q, j ≤ q → q ≤ ops.length →
      stayed step ops late σ q l = stayed step ops late σ j l := by
    intro q hq
    induction q, hq using Nat.le_induction with
    | base => exact fun _ => rfl
    | succ q hq ih =>
      intro hlen
      have hin : q < ops.length := by omega
      have ho' := getElem?_eq_getElem hin
      cases hl' : late ops[q] with
      | true =>
        rw [stayed_succ_late ho' hl']
        exact ih (by omega)
      | false =>
        have hne : j ≠ q := by
          rintro rfl
          rw [ho', Option.some.injEq] at ho
          rw [ho, hlate] at hl'
          cases hl'
        rw [stayed_succ ho' hl', hf.frame _ _ l (hm.clear q _ (by omega) ho' hl')]
        exact ih (by omega)
  rw [hend ops.length (by omega) (Nat.le_refl _), hat]

theorem moved_reads : ∀ l ∈ reads o, moved step ops late σ j l = after step ops σ j l := by
  induction j using Nat.strong_induction_on generalizing o with
  | _ j ih =>
    intro l hl
    obtain ⟨b, hs, hmoves⟩ := hd.moves j o ho hlate l hl
    have hj := (List.getElem?_eq_some_iff.mp ho).1
    by_cases hstay : Stays ops late b
    · -- given by something that stays, or at the start: no moved operation changes it
      have hm := hmoves hstay
      have hall : ∀ q, q ≤ j → moved step ops late σ q l = after step ops σ j l := by
        intro q
        induction q with
        | zero => exact fun _ => stayed_end hf hd ho hlate hs hstay hm
        | succ q ihq =>
          intro hq
          have hin : q < ops.length := by omega
          have ho' := getElem?_eq_getElem hin
          cases hl' : late ops[q] with
          | false =>
            rw [moved_succ_stays ho' hl']
            exact ihq (by omega)
          | true =>
            by_cases hw : l ∈ writes ops[q]
            · have hsame : moved step ops late σ (q + 1) l = after step ops σ (q + 1) l := by
                rw [moved_succ ho' hl', after_succ ho']
                exact hf.congr _ _ _ (ih q (by omega) ho' hl') l hw
              rw [hsame]
              rcases lt_or_ge q b with hqb | hqb
              · have hne : q + 1 ≠ b := by
                  rintro rfl
                  have hno := hstay _ (Nat.succ_ne_zero q) ho'
                  rw [hl'] at hno
                  cases hno
                rw [← hm.early q _ (by omega) ho' hl' hw]
                exact hs.eq_at (le_refl b) hs.le
              · exact hs.eq_at (by omega) hq
            · rw [moved_succ ho' hl', hf.frame _ _ l hw]
              exact ihq (by omega)
      exact hall j (le_refl j)
    · -- given by a moved operation, after which the moved ones only repeat it
      unfold Stays at hstay
      push Not at hstay
      obtain ⟨o', hb, ho', hlate'⟩ := hstay
      rw [Bool.ne_false_iff] at hlate'
      have hbpos : b - 1 + 1 = b := by omega
      have hbj := hs.le
      have hwritten : l ∈ writes o' := by
        rcases hs.born with h | ⟨o'', ho'', hw⟩
        · exact absurd h hb
        · rw [ho', Option.some.injEq] at ho''
          rw [ho'']
          exact hw
      have hall : ∀ q, b ≤ q → q ≤ j → moved step ops late σ q l = after step ops σ q l := by
        intro q hq
        induction q, hq using Nat.le_induction with
        | base =>
          intro _
          rw [← hbpos, moved_succ ho' hlate', after_succ ho']
          exact hf.congr _ _ _ (ih (b - 1) (by omega) ho' hlate') l hwritten
        | succ q hq ihq =>
          intro hqj
          have hin : q < ops.length := by omega
          have hoq := getElem?_eq_getElem hin
          have hheld := hs.held q hq (by omega)
          cases hlq : late ops[q] with
          | false =>
            rw [moved_succ_stays hoq hlq, hheld]
            exact ihq (by omega)
          | true =>
            by_cases hw : l ∈ writes ops[q]
            · rw [moved_succ hoq hlq, after_succ hoq]
              exact hf.congr _ _ _ (ih q (by omega) hoq hlq) l hw
            · rw [moved_succ hoq hlq, hf.frame _ _ l hw, hheld]
              exact ihq (by omega)
      exact hall j hs.le (le_refl j)

end Steps

end DeferredTail
