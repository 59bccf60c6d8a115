import Reargo.CallSummaries

/-!
# The rounds of the call-site resolver

Kept lifts are the lifts, and kept walks are the walks of the same summary, so each round
gives what walking every function again gives. A value one round proves of every call to a
function holds at its entry in the next.
-/
namespace CallSiteRounds

open PcodeModel OrderedMap CallSites CallSummaries List Option

variable {summaries : ParamSummaries}

section Rewalks

variable {L : Type} {walks : Walks L} {program : Program} {split : Split}

theorem walkFunction_congr {entry : U64} {insns : L} {summaries' : ParamSummaries}
    (h : seeds (summaries.get? entry) = seeds (summaries'.get? entry)) :
    walkFunction walks entry insns summaries = walkFunction walks entry insns summaries' := by
  simp only [walkFunction, h]

def rewalkOf (walks : Walks L) (summaries : ParamSummaries) (w : FunctionWalk) :
    Option (List CallSite) :=
  if rewalks summaries w then
    (walks.lift w.entry w.maxInsns).map fun insns => walkFunction walks w.entry insns summaries
  else none

def LiftsOk (walks : Walks L) (lifts : RewalkLifts L) : Prop :=
  ∀ k x, lifts.lookup k = some x → x = walks.lift k.1 k.2

def PrevOk (walks : Walks L) (round0 : List FunctionWalk) (prev : Prev) : Prop :=
  ∀ p, prev = some p → p.2 = round0.map (rewalkOf walks p.1)

theorem lookup_cons (k k' : U64 × ℕ) (x : Option L) (lifts : RewalkLifts L) :
    List.lookup k ((k', x) :: lifts) = if k = k' then some x else lifts.lookup k := by
  by_cases h : k = k'
  · subst h
    simp only [lookup_cons_self, if_true]
  · simp only [List.lookup_cons, beq_eq_false_iff_ne.mpr h, h, if_false]

variable {lifts : RewalkLifts L}

theorem extendLifts_ok (missing : List (U64 × ℕ)) (h : LiftsOk walks lifts) :
    LiftsOk walks (extendLifts walks lifts missing) ∧
      (∀ k, (lifts.lookup k).isSome → ((extendLifts walks lifts missing).lookup k).isSome) ∧
      ∀ k ∈ missing, ((extendLifts walks lifts missing).lookup k).isSome := by
  induction missing generalizing lifts with
  | nil => exact ⟨h, fun _ hk => hk, fun k hk => absurd hk not_mem_nil⟩
  | cons k' rest ih =>
    have hadd : LiftsOk walks ((k', walks.lift k'.1 k'.2) :: lifts) := by
      intro k x hx
      rw [lookup_cons] at hx
      split at hx
      next heq =>
        cases hx
        rw [heq]
      · exact h k x hx
    have hself : (List.lookup k' ((k', walks.lift k'.1 k'.2) :: lifts)).isSome := by
      rw [lookup_cons, if_pos rfl]
      rfl
    have hkeep : ∀ k, (lifts.lookup k).isSome →
        (List.lookup k ((k', walks.lift k'.1 k'.2) :: lifts)).isSome := by
      intro k hk
      rw [lookup_cons]
      split
      · rfl
      · exact hk
    obtain ⟨hok, hold, hnew⟩ := ih hadd
    refine ⟨hok, fun k hk => hold k (hkeep k hk), fun k hk => ?_⟩
    rcases mem_cons.mp hk with rfl | hk
    · exact hold k hself
    · exact hnew k hk

/-- A function's walk of the round before, as one of the list's. -/
def prevOf (walks : Walks L) : Prev → FunctionWalk → Option (List CallSite)
  | none, _ => none
  | some p, w => rewalkOf walks p.1 w

variable {round0 : List FunctionWalk}

variable {prev : Prev}

theorem prevWalks_eq (h : PrevOk walks round0 prev) :
    prevWalks round0 prev = round0.map (prevOf walks prev) := by
  cases prev with
  | none => rfl
  | some p =>
    have hp := h p rfl
    obtain ⟨summaries, walked⟩ := p
    simp only at hp
    simp only [prevWalks, hp]
    exact take_left' (length_map _)

theorem zip_prevWalks (h : PrevOk walks round0 prev) :
    round0.zip (prevWalks round0 prev) = round0.map fun w => (w, prevOf walks prev w) := by
  rw [prevWalks_eq h]
  exact map_prod_left_eq_zip.symm

theorem prevOf_same {w : FunctionWalk}
    (h : sameSummary summaries prev w (prevOf walks prev w) = true) :
    prevOf walks prev w = rewalkOf walks summaries w := by
  simp only [sameSummary, Bool.and_eq_true] at h
  cases prev with
  | none => cases h.1
  | some p =>
    have hget : p.1.get? w.entry = summaries.get? w.entry := by
      simpa only [any_some, beq_iff_eq] using h.2
    have hre : rewalks p.1 w = rewalks summaries w := by
      simp only [rewalks, hget]
    simp only [prevOf, rewalkOf, hre]
    split
    · congr 1
      funext insns
      exact walkFunction_congr (by rw [hget])
    · rfl

theorem rewalkOne_eq (hlifts : LiftsOk walks lifts)
    (hprev : PrevOk walks round0 prev) {w : FunctionWalk} (hw : w ∈ round0) :
    rewalkOne walks summaries
      (extendLifts walks lifts (missingLifts round0 summaries lifts prev)) prev w
      (prevOf walks prev w) = rewalkOf walks summaries w := by
  by_cases hre : rewalks summaries w = true
  · by_cases hsame : sameSummary summaries prev w (prevOf walks prev w) = true
    · simp only [rewalkOne, hre, hsame, if_true]
      exact prevOf_same hsame
    · obtain ⟨hok, hold, hnew⟩ :=
        extendLifts_ok (missingLifts round0 summaries lifts prev) hlifts
      have hsome : ((extendLifts walks lifts (missingLifts round0 summaries lifts prev)).lookup
          (w.entry, w.maxInsns)).isSome := by
        by_cases hk : (lifts.lookup (w.entry, w.maxInsns)).isSome = true
        · exact hold _ hk
        · apply hnew
          refine mem_map.mpr ⟨(w, prevOf walks prev w), ?_, rfl⟩
          rw [zip_prevWalks hprev, mem_filter]
          refine ⟨mem_map.mpr ⟨w, hw, rfl⟩, ?_⟩
          simp only [hre, hsame, Bool.not_false, Bool.and_true, Bool.true_and]
          exact isNone_iff_eq_none.mpr (not_isSome_iff_eq_none.mp hk)
      obtain ⟨x, hx⟩ := isSome_iff_exists.mp hsome
      have hlift := hok _ x hx
      simp only at hlift
      simp only [rewalkOne, rewalkOf, hre, hsame, hx, if_true, if_false, Bool.false_eq_true,
        ← hlift]
      cases x <;> rfl
  · simp only [rewalkOne, rewalkOf, hre, if_false, Bool.false_eq_true]

theorem rewalkFunctions_eq (hlifts : LiftsOk walks lifts) (hprev : PrevOk walks round0 prev) :
    (rewalkFunctions walks round0 summaries lifts prev).1 = round0.map (rewalkOf walks summaries) ∧
      LiftsOk walks (rewalkFunctions walks round0 summaries lifts prev).2 := by
  refine ⟨?_, (extendLifts_ok _ hlifts).1⟩
  simp only [rewalkFunctions, zip_prevWalks hprev, List.map_map]
  apply map_congr_left
  intro w hw
  exact rewalkOne_eq hlifts hprev hw

theorem walkAll_congr {functions : List (U64 × ℕ)} {summaries' : ParamSummaries}
    (h : ∀ t, seeds (summaries.get? t) = seeds (summaries'.get? t)) :
    walkAll walks functions summaries = walkAll walks functions summaries' := by
  simp only [walkAll, walkFunction_congr (h _)]

theorem seeds_of_not_seedsAnything {summary : Option (Fin 6 → Option (List U64))}
    (h : seedsAnything summary = false) : seeds summary = fun _ => none := by
  funext i
  have hi := any_eq_false.mp h i (mem_finRange i)
  exact not_isSome_iff_eq_none.mp hi

variable (functions : List (U64 × ℕ))

include functions

theorem view_rewalkOf (summaries : ParamSummaries) : view (roundZero walks functions)
      ((roundZero walks functions).map (rewalkOf walks summaries)) =
      walkAll walks functions summaries := by
  have hzip : (roundZero walks functions).zip
      ((roundZero walks functions).map (rewalkOf walks summaries)) =
      (roundZero walks functions).map fun w => (w, rewalkOf walks summaries w) :=
    map_prod_left_eq_zip.symm
  rw [view, dedupSites_eq, hzip]
  simp only [walkAll, roundZero, filterMap_map]
  congr 3
  funext f
  simp only [Function.comp, rewalkOf, rewalks]
  obtain hl | ⟨insns, hl⟩ := eq_none_or_eq_some (walks.lift f.1 f.2)
  · simp only [hl, map_none, ite_self, none_or]
  · by_cases hs : seedsAnything (summaries.get? f.1) = true
    · simp only [hl, hs, map_some, isSome_some, Bool.true_and, if_true, some_or]
    · have hnone := seeds_of_not_seedsAnything (Bool.eq_false_iff.mpr hs)
      simp only [hl, hs, map_some, isSome_some, Bool.true_and, Bool.false_eq_true,
        if_false, none_or]
      congr 1
      apply walkFunction_congr
      rw [hnone]
      rfl

theorem round_eq (sites : List CallSite) (hlifts : LiftsOk walks lifts)
    (hprev : PrevOk walks (roundZero walks functions) prev) :
    view (roundZero walks functions) (rewalkFunctions walks (roundZero walks functions)
        (summariesOf program split sites) lifts prev).1 =
      plainRound walks program functions sites := by
  rw [(rewalkFunctions_eq hlifts hprev).1, view_rewalkOf, plainRound]
  exact walkAll_congr (seeds_summariesOf program split sites)

theorem resolveLoop_eq (n : ℕ) (sites : List CallSite) (hlifts : LiftsOk walks lifts)
    (hprev : PrevOk walks (roundZero walks functions) prev) :
    resolveLoop walks program split (roundZero walks functions) (n + 1)
      ⟨countKnownArgs sites, summariesOf program split sites, lifts, prev⟩ =
      plainLoop walks program functions (n + 1) sites := by
  induction n generalizing sites lifts prev with
  | zero =>
    simp only [resolveLoop, plainLoop, round_eq functions sites hlifts hprev, or_true, if_true,
      ite_self]
  | succ n ih =>
    simp only [resolveLoop, plainLoop, round_eq functions sites hlifts hprev, Nat.succ_ne_zero,
      or_false]
    split
    · rfl
    · obtain ⟨hwalks, hlifts'⟩ := rewalkFunctions_eq hlifts hprev
      apply ih _ hlifts'
      intro p hp
      cases hp
      exact hwalks

theorem resolve_eq_plain (maxIters : ℕ) :
    resolveCallSitesIterativeFrom walks program split (roundZero walks functions) maxIters =
      resolvePlain walks program functions maxIters := by
  have hfirst : view (roundZero walks functions)
      ((roundZero walks functions).map fun _ => none) = walkAll walks functions .empty := by
    rw [← view_rewalkOf functions .empty]
    congr 1
    apply map_congr_left
    intro w _
    have hno : seedsAnything ((OrdMap.empty : ParamSummaries).get? w.entry) = false := rfl
    simp only [rewalkOf, rewalks, hno, Bool.and_false, Bool.false_eq_true, if_false]
  simp only [resolveCallSitesIterativeFrom, resolvePlain, hfirst]
  cases maxIters with
  | zero => rfl
  | succ n =>
    simp only [Nat.succ_ne_zero, if_false]
    split
    · apply resolveLoop_eq functions n
      · intro k x hx
        cases hx
      · intro p hp
        cases hp
    · rfl

end Rewalks

section Executions

/-- What an execution does with the argument registers: a call instruction in a function's
code is executed, or a function is entered. -/
inductive Event where
  | call (function site : U64) (regs : Fin 6 → U64)
  | enter (function : U64) (regs : Fin 6 → U64)

/-- Every known argument is what the register holds. -/
def Holds (args : Args) (regs : Fin 6 → U64) : Prop := ∀ i v, args i = some v → regs i = v

def WalksRight {L : Type} (walks : Walks L) (run : List Event) : Prop :=
  ∀ entry maxInsns insns args, walks.lift entry maxInsns = some insns →
    (∀ regs, .enter entry regs ∈ run → Holds args regs) →
    ∀ x ∈ walks.walk entry insns args, ∀ regs, .call entry x.callSite regs ∈ run → Holds x.args regs

def EnteredByCalls (sites : List CallSite) (function : U64) (run : List Event) : Prop :=
  ∀ before after regs, run = before ++ .enter function regs :: after →
    ∃ s ∈ sites, s.callTarget = some function ∧
      ∃ earlier, before = earlier ++ [.call s.callerFunction s.callSite regs]

def SitesRight (sites : List CallSite) (run : List Event) : Prop :=
  ∀ s ∈ sites, ∀ regs, .call s.callerFunction s.callSite regs ∈ run → Holds s.args regs

variable {L : Type} {walks : Walks L} {program : Program} {split : Split}
  {functions : List (U64 × ℕ)} {run : List Event}

theorem pinned_passed {sites : List CallSite} {t : U64} {i : Fin 6} {v : U64}
    (h : seeds ((summariesOf program split sites).get? t) i = some v) :
    ∀ s ∈ sites, s.callTarget = some t → s.args i = some v := by
  simp only [summariesOf, seeds_keepClosed] at h
  split at h
  · cases h
  · rw [seeds_seeding] at h
    cases hc : combined (argsTo t i sites) with
    | nothing => rw [hc] at h; cases h
    | notOne => rw [hc] at h; cases h
    | one w =>
      rw [hc] at h
      cases h
      intro s hs ht
      refine combined_eq_one hc _ (mem_map.mpr ⟨s, ?_, rfl⟩)
      simp only [mem_filter, hs, ht, decide_true, and_self]

theorem walkAll_right (hwalks : WalksRight walks run)
    (hseeds : ∀ t regs, .enter t regs ∈ run → Holds (seeds (summaries.get? t)) regs) :
    SitesRight (walkAll walks functions summaries) run := by
  intro s hs regs hcall
  obtain ⟨sites, hsites, hmem⟩ := mem_flatten.mp (keepFirst_subset hs)
  obtain ⟨f, _, hf⟩ := mem_filterMap.mp hsites
  obtain ⟨insns, hlift, rfl⟩ := map_eq_some_iff.mp hf
  obtain ⟨x, hx, rfl⟩ := mem_map.mp hmem
  exact hwalks f.1 f.2 insns _ hlift (hseeds f.1) x hx regs hcall

theorem plainRound_right (functions : List (U64 × ℕ)) (hwalks : WalksRight walks run)
    (split : Split) {sites : List CallSite}
    (hright : SitesRight sites run)
    (hclosed : ∀ t, ((summariesOf program split sites).get? t).isSome →
      EnteredByCalls sites t run) :
    SitesRight (plainRound walks program functions sites) run := by
  apply walkAll_right hwalks
  intro t regs henter i v hv
  rw [← seeds_summariesOf program split sites t] at hv
  have hkept : ((summariesOf program split sites).get? t).isSome := by
    cases hget : (summariesOf program split sites).get? t with
    | none => rw [hget] at hv; cases hv
    | some summary => rfl
  obtain ⟨before, after, hrun⟩ := append_of_mem henter
  obtain ⟨s, hs, htarget, earlier, hbefore⟩ := hclosed t hkept before after regs hrun
  have hcall : .call s.callerFunction s.callSite regs ∈ run := by
    rw [hrun, hbefore]
    simp only [mem_append, mem_cons, true_or, or_true]
  exact hright s hs regs hcall i v (pinned_passed hv s hs htarget)

def seedingSites (walks : Walks L) (program : Program) (functions : List (U64 × ℕ)) :
    ℕ → List CallSite → List (List CallSite)
  | 0, _ => []
  | n + 1, sites =>
    let next := plainRound walks program functions sites
    sites :: if countKnownArgs next = countKnownArgs sites then []
      else seedingSites walks program functions n next

theorem plainLoop_right (hwalks : WalksRight walks run) (split : Split) (n : ℕ)
    {sites : List CallSite} (hright : SitesRight sites run)
    (hclosed : ∀ seeding ∈ seedingSites walks program functions n sites, ∀ t,
      ((summariesOf program split seeding).get? t).isSome → EnteredByCalls seeding t run) :
    SitesRight (plainLoop walks program functions n sites) run := by
  induction n generalizing sites with
  | zero => exact hright
  | succ n ih =>
    have hnext := plainRound_right functions hwalks split hright (hclosed sites mem_cons_self)
    simp only [plainLoop]
    split
    · exact hnext
    next hne =>
      apply ih hnext
      intro seeding hseeding
      apply hclosed
      simp only [seedingSites, hne, if_false]
      exact mem_cons_of_mem _ hseeding

/-- The resolver gives what the plain iteration gives, and every value it reports is right on
each execution where the walks are and where every function that keeps a summary in a round
is entered only through the direct calls in that round's sites. -/
theorem resolve_plain_and_right (walks : Walks L) (program : Program) (split : Split)
    (functions : List (U64 × ℕ)) (maxIters : ℕ) :
    resolveCallSitesIterativeFrom walks program split (roundZero walks functions) maxIters =
        resolvePlain walks program functions maxIters ∧
      ∀ run, WalksRight walks run → (∀ seeding ∈ seedingSites walks program functions maxIters
            (walkAll walks functions .empty), ∀ t,
          ((summariesOf program split seeding).get? t).isSome → EnteredByCalls seeding t run) →
        SitesRight (resolveCallSitesIterativeFrom walks program split
          (roundZero walks functions) maxIters) run := by
  refine ⟨resolve_eq_plain functions maxIters, fun run hwalks hclosed => ?_⟩
  rw [resolve_eq_plain]
  unfold resolvePlain
  split
  · apply plainLoop_right hwalks split maxIters _ hclosed
    apply walkAll_right hwalks
    intro t regs _ i v hv
    cases hv
  · intro s hs
    cases hs

theorem walkAll_of_seeding {seeding : List CallSite} {n : ℕ}
    (h : seeding ∈ seedingSites walks program functions n (walkAll walks functions summaries)) :
    ∃ summaries, seeding = walkAll walks functions summaries := by
  induction n generalizing summaries with
  | zero => cases h
  | succ n ih =>
    unfold seedingSites at h
    rcases mem_cons.mp h with rfl | h
    · exact ⟨summaries, rfl⟩
    · split at h
      · cases h
      · exact ih h

/-- A function calls another with 5, which passes on what it was given. -/
def passingOn : Walks Unit where
  lift entry _ := if entry ∈ [0x1000, 0x2000] then some () else none
  walk entry _ args :=
    if entry = 0x1000 then [⟨0x1008, some 0x2000, fun i => if i.val = 0 then some 5 else none⟩]
    else [⟨0x2008, some 0x3000, args⟩]

def callsOnly : Program where
  x86_64 := true
  refsTo a :=
    if a = 0x2000 then [⟨0x1008, 0x2000, .unconditionalCall⟩]
    else [⟨0x2008, 0x3000, .unconditionalCall⟩]
  exportedFunctions := []
  exportSymbols := []

def five (i : Fin 6) : U64 := if i.val = 0 then 5 else 0

def passedOn : List Event :=
  [.call 0x1000 0x1008 five, .enter 0x2000 five, .call 0x2000 0x2008 five, .enter 0x3000 five]

theorem walkAll_passingOn (summaries : ParamSummaries) :
    walkAll passingOn [(0x1000, 64), (0x2000, 64)] summaries =
      [⟨0x1008, 0x1000, some 0x2000, fun i => if i.val = 0 then some 5 else none⟩,
        ⟨0x2008, 0x2000, some 0x3000, seeds (summaries.get? 0x2000)⟩] := rfl

theorem enteredByCalls_passedOn (summaries : ParamSummaries) (t : U64) :
    EnteredByCalls (walkAll passingOn [(0x1000, 64), (0x2000, 64)] summaries) t passedOn := by
  rw [walkAll_passingOn]
  intro before after regs hrun
  unfold passedOn at hrun
  rcases before with _ | ⟨e₁, _ | ⟨e₂, _ | ⟨e₃, _ | ⟨e₄, before⟩⟩⟩⟩
  · cases hrun
  · cases hrun
    exact ⟨_, mem_cons_self, rfl, [], rfl⟩
  · cases hrun
  · cases hrun
    exact ⟨_, mem_cons_of_mem _ mem_cons_self, rfl, [_, _], rfl⟩
  · simp at hrun

/-- The second round knows that the last call passes 5 too. -/
theorem resolve_plain_and_right_passed_on :
    let sites := resolveCallSitesIterativeFrom passingOn callsOnly ⟨.part, fun _ => rfl⟩
      (roundZero passingOn [(0x1000, 64), (0x2000, 64)]) 2
    SitesRight sites passedOn ∧
      sites.map (fun s => (s.callSite, s.args 0)) = [(0x1008, some 5), (0x2008, some 5)] := by
  refine ⟨(resolve_plain_and_right _ _ _ _ 2).2 passedOn ?_ ?_, by decide +kernel⟩
  · intro entry _ _ args hlift hentered x hx regs hcall
    simp only [passedOn, mem_cons, Event.call.injEq, reduceCtorEq, not_mem_nil, false_or,
      or_false] at hcall
    rcases hcall with ⟨rfl, -, rfl⟩ | ⟨rfl, -, rfl⟩
    · obtain rfl := mem_singleton.mp hx
      intro i v hv
      dsimp only at hv
      split at hv
      · next hi => exact (if_pos hi).trans (some.inj hv)
      · cases hv
    · obtain rfl := mem_singleton.mp hx
      exact hentered five (by simp [passedOn])
  · intro seeding hseeding t _
    obtain ⟨summaries, rfl⟩ := walkAll_of_seeding hseeding
    exact enteredByCalls_passedOn summaries t

end Executions

end CallSiteRounds
