import Reargo.CallSites

/-!
# What the calls to a function pass

The summaries folded in parts, through one of four states a parameter, pin what the sets of
all the calls pin. The values passed to a parameter join in any grouping.
-/
namespace CallSummaries

open PcodeModel OrderedMap CallSites Bool
open Option hiding join
open List hiding lookup set lookup_eq_none_iff

variable {p : Passed}

section Lattice

theorem and_nothing (p : Passed) : p.and .nothing = p := by cases p <;> rfl

theorem nothing_and (p : Passed) : Passed.nothing.and p = p := by cases p <;> rfl

theorem and_comm (p q : Passed) : p.and q = q.and p := by
  cases p with
  | nothing => rw [nothing_and, and_nothing]
  | notOne => cases q <;> rfl
  | one w =>
    cases q with
    | nothing => rfl
    | notOne => rfl
    | one v =>
      simp only [Passed.and]
      by_cases h : w = v
      · simp only [h]
      · simp only [h, Ne.symm h, if_false]

theorem notOne_and (p : Passed) : Passed.notOne.and p = .notOne := by cases p <;> rfl

theorem and_notOne (p : Passed) : p.and .notOne = .notOne := by cases p <;> rfl

theorem and_assoc (p q r : Passed) : (p.and q).and r = p.and (q.and r) := by
  cases p with
  | nothing => rw [nothing_and, nothing_and]
  | notOne => simp only [notOne_and]
  | one w =>
    cases q with
    | nothing => rw [and_nothing, nothing_and]
    | notOne => simp only [and_notOne, notOne_and]
    | one v =>
      cases r with
      | nothing => simp only [and_nothing]
      | notOne => simp only [and_notOne]
      | one u =>
        simp only [Passed.and]
        by_cases h : w = v
        · subst h
          by_cases k : w = u
          · simp only [k, if_true]
          · simp only [k, if_true, if_false]
        · by_cases k : v = u
          · subst k
            simp only [h, if_true, if_false]
          · simp only [h, k, if_false]

/-- One argument more is that argument joined. -/
theorem pass_eq (p : Passed) (x : Option U64) : p.pass x = p.and (Passed.nothing.pass x) := by
  cases x <;> cases p <;> rfl

def combined (vs : List (Option U64)) : Passed := vs.foldl Passed.pass .nothing

theorem foldl_pass (p : Passed) (vs : List (Option U64)) :
    vs.foldl Passed.pass p = p.and (combined vs) := by
  induction vs generalizing p with
  | nil => exact (and_nothing p).symm
  | cons x rest ih =>
    simp only [foldl_cons, combined]
    rw [ih, ih (Passed.nothing.pass x), ← and_assoc, ← pass_eq]

theorem combined_append (vs ws : List (Option U64)) :
    combined (vs ++ ws) = (combined vs).and (combined ws) := by
  simp only [combined, foldl_append]
  exact foldl_pass _ ws

variable {vs : List (Option U64)}

theorem foldl_pass_eq_one {v : U64} (h : vs.foldl Passed.pass p = .one v) :
    (p = .nothing ∨ p = .one v) ∧ ∀ x ∈ vs, x = some v := by
  induction vs generalizing p with
  | nil => exact ⟨.inr h, fun x hx => absurd hx not_mem_nil⟩
  | cons y rest ih =>
    obtain ⟨hp, hrest⟩ := ih h
    have hy : (p = .nothing ∨ p = .one v) ∧ y = some v := by
      cases y with
      | none => cases p <;> simp [Passed.pass] at hp
      | some w =>
        cases p with
        | nothing => simpa [Passed.pass] using hp
        | notOne => simp [Passed.pass] at hp
        | one u =>
          simp only [Passed.pass] at hp
          split at hp
          next heq =>
            subst heq
            simpa using hp
          · simp at hp
    refine ⟨hy.1, fun x hx => ?_⟩
    rcases mem_cons.mp hx with rfl | hx
    · exact hy.2
    · exact hrest x hx

theorem combined_eq_one {v : U64} (h : combined vs = .one v) : ∀ x ∈ vs, x = some v :=
  (foldl_pass_eq_one h).2

end Lattice

section Parts

def argsTo (target : U64) (i : Fin 6) (sites : List CallSite) : List (Option U64) :=
  (sites.filter fun s => s.callTarget = some target).map fun s => s.args i

theorem argsTo_append (target : U64) (i : Fin 6) (sites sites' : List CallSite) :
    argsTo target i (sites ++ sites') = argsTo target i sites ++ argsTo target i sites' := by
  simp only [argsTo, filter_append, map_append]

def passedAt (m : PassedMap) (target : U64) (i : Fin 6) : Passed :=
  (m.get? target).getD (fun _ => .nothing) i

theorem passedAt_insert (m : PassedMap) (target t : U64) (params : Fin 6 → Passed) (i : Fin 6) :
    passedAt (m.insert target params) t i = if t = target then params i else passedAt m t i := by
  simp only [passedAt, OrdMap.get?_insert]
  by_cases h : t = target
  · simp only [h, if_true, getD_some]
  · simp only [h, if_false]

theorem passedAt_foldl (sites : List CallSite) (m : PassedMap) (t : U64) (i : Fin 6) :
    passedAt (sites.foldl addPassed m) t i =
      (passedAt m t i).and (combined (argsTo t i sites)) := by
  induction sites generalizing m with
  | nil => exact (and_nothing _).symm
  | cons s rest ih =>
    have hone : passedAt (addPassed m s) t i =
        (passedAt m t i).and (combined (argsTo t i [s])) := by
      unfold addPassed
      cases ht : s.callTarget with
      | none =>
        simp only [argsTo, filter_cons, ht, reduceCtorEq, decide_false, false_eq_true,
          if_false, filter_nil, map_nil]
        exact (and_nothing _).symm
      | some target =>
        simp only [passedAt_insert, argsTo, filter_cons, ht, some.injEq,
          filter_nil]
        by_cases h : t = target
        · subst h
          simp only [if_true, decide_true, map_cons, map_nil]
          exact pass_eq _ _
        · simp only [h, Ne.symm h, decide_false, false_eq_true, if_false, map_nil]
          exact (and_nothing _).symm
    rw [foldl_cons, ih, hone, and_assoc, ← combined_append, ← argsTo_append,
      singleton_append]

theorem passedAt_joinInto (a b : PassedMap) (t : U64) (i : Fin 6) :
    passedAt (joinInto a b) t i = (passedAt a t i).and (passedAt b t i) := by
  have hfold : ∀ (es : List (U64 × (Fin 6 → Passed))) (a : PassedMap),
      (es.map Prod.fst).Pairwise (· < ·) →
      passedAt (es.foldl (fun a e => a.insert e.1 fun i =>
        ((a.get? e.1).getD (fun _ => .nothing) i).and (e.2 i)) a) t i =
      (passedAt a t i).and ((lookup t es).getD (fun _ => .nothing) i) := by
    intro es
    induction es with
    | nil => exact fun a _ => (and_nothing _).symm
    | cons e es ih =>
      intro a hs
      rw [map_cons, pairwise_cons] at hs
      rw [foldl_cons, ih _ hs.2, passedAt_insert]
      by_cases h : t = e.1
      · have hnone : lookup e.1 es = none := by
          rw [lookup_eq_none_iff]
          exact fun hmem => lt_irrefl _ (hs.1 _ hmem)
        simp only [hnone, lookup, h, if_true, getD_some, getD_none, and_nothing]
        rfl
      · simp only [lookup, h, if_false]
  exact hfold b.entries a b.sorted

theorem passedAt_join (a b : PassedMap) (t : U64) (i : Fin 6) :
    passedAt (join a b) t i = (passedAt a t i).and (passedAt b t i) := by
  unfold join
  split
  · rw [passedAt_joinInto, and_comm]
  · exact passedAt_joinInto a b t i

theorem passedAt_parts (parts : Parts) (t : U64) (i : Fin 6) :
    passedAt parts.passed t i = combined (argsTo t i parts.sites) := by
  induction parts with
  | none => rfl
  | part sites =>
    have h := passedAt_foldl sites .empty t i
    exact h.trans (nothing_and _)
  | both l r ihl ihr =>
    simp only [Parts.passed, Parts.sites, argsTo_append, combined_append, passedAt_join, ihl, ihr]

end Parts

section Sets

/-- The set of the values seen, for each state of a parameter. -/
def Shows : Passed → Option (List U64) → Prop
  | .nothing, set => set = some []
  | .one v, set => set = some [v]
  | .notOne, set => ∀ l, set = some l → l.length = 2

variable {set : Option (List U64)}

theorem Shows.pinned (h : Shows p set) : pinned set = pinned p.summary := by
  cases p with
  | nothing => rw [show set = some [] from h]; rfl
  | one v => rw [show set = some [v] from h]; rfl
  | notOne =>
    cases set with
    | none => rfl
    | some l =>
      obtain ⟨a, b, rfl⟩ := length_eq_two.mp (h l rfl)
      rfl

theorem Shows.seen (h : Shows p set) (x : Option U64) : Shows (p.pass x) (seen x set) := by
  cases x with
  | none =>
    have hnot : p.pass none = .notOne := by cases p <;> rfl
    rw [hnot]
    intro l hl
    cases hl
  | some v =>
    cases p with
    | nothing => rw [show set = some [] from h]; rfl
    | one w =>
      rw [show set = some [w] from h]
      simp only [Passed.pass, CallSites.seen, length_singleton, Nat.one_lt_two, if_true]
      by_cases hw : w = v
      · subst hw
        simp only [if_true]
        exact congrArg some (insert_of_mem mem_cons_self)
      · simp only [hw, if_false]
        intro l hl
        rw [insert_of_not_mem (by simpa using Ne.symm hw)] at hl
        cases hl
        rfl
    | notOne =>
      intro l hl
      cases set with
      | none => cases hl
      | some s =>
        have hs : s.length = 2 := h s rfl
        simp only [CallSites.seen, hs, lt_irrefl, if_false, some.injEq] at hl
        rw [← hl]
        exact hs

def setAt (m : ParamSummaries) (target : U64) (i : Fin 6) : Option (List U64) :=
  (m.get? target).getD (fun _ => some []) i

theorem seeds_get? (m : ParamSummaries) (target : U64) (i : Fin 6) :
    seeds (m.get? target) i = pinned (setAt m target i) := by
  unfold setAt
  cases m.get? target with
  | none => rfl
  | some summary => rfl

theorem shows_addSite {m : ParamSummaries} {passed : PassedMap}
    (h : ∀ t i, Shows (passedAt passed t i) (setAt m t i)) (s : CallSite) (t : U64) (i : Fin 6) :
    Shows (passedAt (addPassed passed s) t i) (setAt (addSite m s) t i) := by
  unfold addSite addPassed
  cases s.callTarget with
  | none => exact h t i
  | some target =>
    simp only [passedAt_insert, setAt, OrdMap.get?_insert]
    by_cases ht : t = target
    · subst ht
      simp only [if_true, getD_some]
      exact (h t i).seen (s.args i)
    · simp only [ht, if_false]
      exact h t i

theorem shows_foldl (sites : List CallSite) {m : ParamSummaries} {passed : PassedMap}
    (h : ∀ t i, Shows (passedAt passed t i) (setAt m t i)) (t : U64) (i : Fin 6) :
    Shows (passedAt (sites.foldl addPassed passed) t i) (setAt (sites.foldl addSite m) t i) := by
  induction sites generalizing m passed with
  | nil => exact h t i
  | cons s rest ih => exact ih (shows_addSite h s)

theorem seeds_build (sites : List CallSite) (t : U64) (i : Fin 6) :
    seeds ((buildParamSummaries sites).get? t) i =
      pinned (combined (argsTo t i sites)).summary := by
  have hempty : ∀ t i, Shows (passedAt .empty t i) (setAt .empty t i) := fun _ _ => rfl
  have h := shows_foldl sites hempty t i
  rw [passedAt_foldl] at h
  rw [seeds_get?]
  have hshows : Shows (combined (argsTo t i sites)) (setAt (buildParamSummaries sites) t i) := by
    rw [← nothing_and (combined (argsTo t i sites))]
    exact h
  exact hshows.pinned

theorem anyOne_eq_false {params : Fin 6 → Passed} (h : anyOne params = false) (i : Fin 6) :
    (params i).summary = none := by
  have hi := any_eq_false.mp h i (mem_finRange i)
  cases hp : params i with
  | nothing => rfl
  | notOne => rfl
  | one v =>
    rw [hp] at hi
    exact absurd rfl hi

theorem seeds_seeding (split : Split) (sites : List CallSite) (t : U64) (i : Fin 6) :
    seeds ((seedingSummaries split sites).get? t) i =
      pinned (combined (argsTo t i sites)).summary := by
  have hat := passedAt_parts (split.parts sites) t i
  rw [split.whole] at hat
  rw [← hat]
  simp only [seedingSummaries, OrdMap.get?_mapValues, OrdMap.get?_filter, passedAt]
  cases (split.parts sites).passed.get? t with
  | none => rfl
  | some params =>
    by_cases hany : anyOne params = true
    · simp only [filter_some, hany, if_true, map_some, getD_some]
      rfl
    · have hnone := anyOne_eq_false (eq_false_iff.mpr hany) i
      simp only [filter_some, hany, getD_some, hnone]
      rfl

theorem seeds_keepClosed (program : Program) (sites : List CallSite) (m : ParamSummaries)
    (t : U64) (i : Fin 6) :
    seeds ((keepClosedCallers program sites m).get? t) i =
      if dropped program sites t then none else seeds (m.get? t) i := by
  simp only [keepClosedCallers, OrdMap.get?_filter]
  cases m.get? t with
  | none =>
    simp only [filter_none]
    split <;> rfl
  | some summary =>
    by_cases h : dropped program sites t = true
    · simp only [filter_some, h, Bool.not_true, false_eq_true, if_false, if_true]
      rfl
    · simp only [filter_some, h, Bool.not_false, if_true, false_eq_true, if_false]

theorem seeds_summariesOf (program : Program) (split : Split) (sites : List CallSite) (t : U64) :
    seeds ((summariesOf program split sites).get? t) =
      seeds ((keepClosedCallers program sites (buildParamSummaries sites)).get? t) := by
  funext i
  simp only [summariesOf, seeds_keepClosed, seeds_seeding, seeds_build]

end Sets

section Dedup

theorem keepFirst_of_increasing {l : List CallSite} {prev : Option U64} {seen : List U64}
    (h : increasing prev l = true) (hseen : ∀ x ∈ seen, ∃ p, prev = some p ∧ x ≤ p) :
    keepFirst seen l = l := by
  induction l generalizing prev seen with
  | nil => rfl
  | cons s rest ih =>
    have hnext : increasing (some s.callSite) rest = true ∧
        ∀ x ∈ seen, x < s.callSite := by
      cases prev with
      | none =>
        refine ⟨h, fun x hx => ?_⟩
        obtain ⟨p, hp, -⟩ := hseen x hx
        cases hp
      | some p =>
        simp only [increasing, and_eq_true, decide_eq_true_eq] at h
        refine ⟨h.2, fun x hx => ?_⟩
        obtain ⟨q, hq, hle⟩ := hseen x hx
        cases hq
        exact lt_of_le_of_lt hle h.1
    have hfresh : s.callSite ∉ seen := fun hmem => lt_irrefl _ (hnext.2 _ hmem)
    simp only [keepFirst, hfresh, if_false]
    rw [ih hnext.1]
    intro x hx
    rcases mem_cons.mp hx with rfl | hx
    · exact ⟨s.callSite, rfl, le_refl _⟩
    · exact ⟨s.callSite, rfl, le_of_lt (hnext.2 x hx)⟩

theorem dedupSites_eq (perFunc : List (List CallSite)) :
    dedupSites perFunc = keepFirst [] perFunc.flatten := by
  unfold dedupSites
  split
  next h => exact (keepFirst_of_increasing h fun x hx => absurd hx not_mem_nil).symm
  · rfl

theorem keepFirst_subset {l : List CallSite} {seen : List U64} {s : CallSite}
    (h : s ∈ keepFirst seen l) : s ∈ l := by
  induction l generalizing seen with
  | nil => exact h
  | cons s' rest ih =>
    simp only [keepFirst] at h
    split at h
    · exact mem_cons_of_mem _ (ih h)
    · rcases mem_cons.mp h with rfl | h
      · exact mem_cons_self
      · exact mem_cons_of_mem _ (ih h)

end Dedup

end CallSummaries
