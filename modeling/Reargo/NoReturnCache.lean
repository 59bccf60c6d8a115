import Reargo.NoReturnSearch
import Reargo.SharedStore

/-!
# Oracles that share a batch cache

The verdicts and the last search of each function, kept for every oracle of a batch. An
oracle replays a kept search as long as its own answers are the recorded ones. Whatever is
stored when it looks, the oracle answers as one without a cache.
-/
namespace NoReturnCache

open PcodeModel NoReturnFlow NoReturnSearch Questions SharedStore

/-- What a search asked, with the answers it got, and what it found. -/
structure Trace where
  calls : List (U64 × Bool)
  exit : Option Bool

inductive Key where
  | trace (target : U64)
  | verdict (target : U64)
  deriving DecidableEq

abbrev Value : Key → Type
  | .trace _ => Trace
  | .verdict _ => Bool

abbrev Task := Prog Value

/-- Asking goes through the store. -/
abbrev Asking := U64 → Memo → Task (Verdict × Memo)

def runTask {α : Type} (ask : Asking) :
    Asks U64 Bool α → Memo → Task (α × Memo × List (U64 × Verdict))
  | .pure a, memo => .pure (a, memo, [])
  | .ask t next, memo =>
    (ask t memo).bind fun e =>
      (runTask ask (next e.1.stops) e.2).bind fun r => .pure (r.1, r.2.1, (t, e.1) :: r.2.2)

def replayTask (ask : Asking) : List (U64 × Bool) → Memo → Task (Bool × Memo × List (U64 × Verdict))
  | [], memo => .pure (true, memo, [])
  | (t, stops) :: calls, memo =>
    (ask t memo).bind fun e => if e.1.stops = stops then
        (replayTask ask calls e.2).bind fun r => .pure (r.1, r.2.1, (t, e.1) :: r.2.2)
      else .pure (false, e.2, [(t, e.1)])

/-- The search, kept when it is done. -/
def searchTask (cm : CodeMap) (named : U64 → Bool) (ask : Asking) (target : U64) (memo : Memo) :
    Task (Verdict × Memo) :=
  (runTask ask (searchFrom cm named target) memo).bind fun r =>
    .save (.trace target) ⟨r.2.2.map fun e => (e.1, e.2.stops), r.1⟩
      (.pure (outcome r.1 (isUnsure r.2.2), r.2.1))

/-- A search made before is replayed; at the first answer that differs the search runs. -/
def analyzeTask (cm : CodeMap) (named : U64 → Bool) (ask : Asking) (target : U64) (memo : Memo) :
    Task (Verdict × Memo) :=
  .load (.trace target) fun
    | some (trace : Trace) =>
      (replayTask ask trace.calls memo).bind fun r =>
        if r.1 then .pure (outcome trace.exit (isUnsure r.2.2), r.2.1)
        else searchTask cm named ask target r.2.1
    | none => searchTask cm named ask target memo

def verdictTask (cm : CodeMap) (named : U64 → Bool) :
    ℕ → List U64 → U64 → Memo → Task (Verdict × Memo)
  | 0, stack, target, memo => .pure ((known named 0 stack target memo).getD .unsure, memo)
  | depth + 1, stack, target, memo =>
    match known named (depth + 1) stack target memo with
    | some v => .pure (v, memo)
    | none =>
      (analyzeTask cm named (verdictTask cm named depth (target :: stack)) target memo).bind fun r =>
        .pure (r.1, remember r.2 target r.1 (depth + 1))

def isNoreturnTask (cm : CodeMap) (named : U64 → Bool) (target : U64) : Task Bool :=
  if named target then .pure true
  else
    .load (.verdict target) fun
      | some (v : Bool) => .pure v
      | none =>
        (verdictTask cm named maxDepth [] target fun _ => none).bind fun r =>
          .save (.verdict target) (r.1 = .noReturn : Bool) (.pure (r.1 = .noReturn : Bool))

/-- The memo has not changed for the functions on the stack nor for those it answers at this
depth, and at depth `0` not at all. -/
structure Kept (depth : ℕ) (stack : List U64) (memo memo' : Memo) : Prop where
  stack : ∀ t ∈ stack, memo' t = memo t
  hit : ∀ t v, hit memo t depth = some v → memo' t = memo t
  bottom : depth = 0 → memo' = memo

section Lasting

variable {cm : CodeMap} {named : U64 → Bool} {stack : List U64} {depth : ℕ} {memo : Memo}

theorem hit_mono {t : U64} {depth' : ℕ} {v : Verdict} (hle : depth' ≤ depth)
    (h : hit memo t depth = some v) : hit memo t depth' = some v := by
  unfold hit at h ⊢
  cases hm : memo t with
  | none =>
    rw [hm] at h
    cases h
  | some e =>
    obtain ⟨v', d⟩ := e
    rw [hm] at h
    simp only at h ⊢
    split at h
    · next hhit =>
      rw [if_pos (hhit.imp_right hle.trans)]
      exact h
    · cases h

theorem hit_congr {memo' : Memo} {t : U64} (h : memo' t = memo t) (depth : ℕ) :
    hit memo' t depth = hit memo t depth := by
  unfold hit
  rw [h]

theorem Kept.refl (depth : ℕ) (stack : List U64) (memo : Memo) : Kept depth stack memo memo :=
  ⟨fun _ _ => rfl, fun _ _ _ => rfl, fun _ => rfl⟩

theorem Kept.trans {memo' memo'' : Memo}
    (h : Kept depth stack memo memo') (h' : Kept depth stack memo' memo'') :
    Kept depth stack memo memo'' := by
  refine ⟨fun t ht => (h'.stack t ht).trans (h.stack t ht), fun t v hv => ?_,
    fun hd => (h'.bottom hd).trans (h.bottom hd)⟩
  have hsame := h.hit t v hv
  exact (h'.hit t v ((hit_congr hsame depth).trans hv)).trans hsame

theorem known_eq_none {target : U64} (h : known named depth stack target memo = none) :
    named target = false ∧ hit memo target depth = none ∧ target ∉ stack := by
  unfold known at h
  split at h
  · cases h
  · next hnamed =>
    refine ⟨Bool.eq_false_iff.mpr hnamed, ?_⟩
    cases hhit : hit memo target depth with
    | some v =>
      rw [hhit] at h
      cases h
    | none =>
      rw [hhit] at h
      simp only at h
      split at h
      · cases h
      · next hrest => exact ⟨rfl, fun ht => hrest (.inr ht)⟩

theorem known_again {target : U64} {memo' : Memo} {v : Verdict}
    (hk : Kept depth stack memo memo') (h : known named depth stack target memo = some v) :
    known named depth stack target memo' = some v := by
  rw [← h]
  have hhit : ∀ hsame : memo' target = memo target,
      known named depth stack target memo' = known named depth stack target memo := by
    intro hsame
    unfold known
    rw [hit_congr hsame]
  by_cases hnamed : named target = true
  · unfold known
    rw [if_pos hnamed, if_pos hnamed]
  · cases hh : hit memo target depth with
    | some w => exact hhit (hk.hit target w hh)
    | none =>
      unfold known at h
      rw [if_neg hnamed, hh] at h
      simp only at h
      split at h
      · next hrest =>
        rcases hrest with hzero | hstack
        · rw [hk.bottom hzero]
        · exact hhit (hk.stack target hstack)
      · cases h

theorem verdict_kept (depth : ℕ) (stack : List U64) (target : U64) (memo : Memo) :
    Kept depth stack memo (verdict cm named depth stack target memo).2 := by
  induction depth generalizing stack target memo with
  | zero => exact Kept.refl 0 stack memo
  | succ depth ih =>
    unfold verdict
    cases hknown : known named (depth + 1) stack target memo with
    | some v => exact Kept.refl _ stack memo
    | none =>
      obtain ⟨-, hmiss, hnew⟩ := known_eq_none hknown
      simp only
      have hrun := (run_invariant Verdict.stops (fun _ _ => True)
        (fun t m hm => ⟨Kept.trans hm (ih (target :: stack) t m), trivial⟩)
        (searchFrom cm named target) (Kept.refl depth (target :: stack) memo)).1
      refine ⟨fun t ht => ?_, fun t v hv => ?_, fun hd => absurd hd (Nat.succ_ne_zero depth)⟩
      · have hne : t ≠ target := by
          rintro rfl
          exact hnew ht
        exact (Function.update_of_ne hne _ _).trans (hrun.stack t (List.mem_cons_of_mem _ ht))
      · have hne : t ≠ target := by
          rintro rfl
          rw [hmiss] at hv
          cases hv
        exact (Function.update_of_ne hne _ _).trans (hrun.hit t v (hit_mono (Nat.le_succ depth) hv))

theorem hit_remember (memo : Memo) (target : U64) (v : Verdict) (depth : ℕ) :
    hit (remember memo target v depth) target depth = some v := by
  unfold hit remember
  rw [Function.update_self]
  simp

theorem verdict_again {target : U64} {memo' : Memo}
    (hk : Kept depth stack (verdict cm named depth stack target memo).2 memo') :
    verdict cm named depth stack target memo' =
      ((verdict cm named depth stack target memo).1, memo') := by
  cases depth with
  | zero =>
    have hsame : memo' = memo := hk.bottom rfl
    rw [hsame]
    rfl
  | succ depth =>
    have hagain : ∀ v, known named (depth + 1) stack target memo' = some v →
        verdict cm named (depth + 1) stack target memo' = (v, memo') := by
      intro v hv
      unfold verdict
      rw [hv]
    cases hknown : known named (depth + 1) stack target memo with
    | some v =>
      have hbefore : verdict cm named (depth + 1) stack target memo = (v, memo) := by
        unfold verdict
        rw [hknown]
      rw [hbefore] at hk ⊢
      exact hagain v (known_again hk hknown)
    | none =>
      obtain ⟨hnamed, -, -⟩ := known_eq_none hknown
      refine hagain _ ?_
      have hhit : hit (verdict cm named (depth + 1) stack target memo).2 target (depth + 1) =
          some (verdict cm named (depth + 1) stack target memo).1 := by
        unfold verdict
        rw [hknown]
        exact hit_remember _ _ _ _
      unfold known
      rw [if_neg (by simp [hnamed]), hit_congr (hk.hit target _ hhit), hhit]

theorem verdict_lasting (cm : CodeMap) (named : U64 → Bool) (depth : ℕ) (stack : List U64) :
    Lasting (verdict cm named depth stack) (Kept depth stack) where
  refl := Kept.refl depth stack
  trans _ _ _ := Kept.trans
  step := verdict_kept depth stack
  again _ _ _ := verdict_again

end Lasting

/-- A stored search is one the code has; a stored verdict is the oracle's. -/
def Acceptable (cm : CodeMap) (named : U64 → Bool) : (k : Key) → Value k → Prop
  | .trace t, (trace : Trace) => Follows (searchFrom cm named t) trace.calls trace.exit
  | .verdict t, (v : Bool) => v = isNoreturn cm named t

section Tasks

variable {cm : CodeMap} {named : U64 → Bool} {ask : Asking} {answer : U64 → Memo → Verdict × Memo}

section

variable (hask : ∀ t memo, (ask t memo).Yields (Acceptable cm named) (answer t memo))

include hask

theorem runTask_yields {α : Type} (tree : Asks U64 Bool α) (memo : Memo) :
    (runTask ask tree memo).Yields (Acceptable cm named) (run answer Verdict.stops tree memo) := by
  induction tree generalizing memo with
  | pure a => rfl
  | ask t next ih => exact (hask t memo).bind ((ih _ _).bind rfl)

theorem replayTask_yields (calls : List (U64 × Bool)) (memo : Memo) :
    (replayTask ask calls memo).Yields (Acceptable cm named)
      (replay answer Verdict.stops calls memo) := by
  induction calls generalizing memo with
  | nil => rfl
  | cons c calls ih =>
    obtain ⟨t, stops⟩ := c
    refine (hask t memo).bind ?_
    unfold replay
    by_cases hsame : (answer t memo).1.stops = stops
    · simp only [hsame, if_true]
      exact (ih _).bind rfl
    · simp only [hsame, if_false]
      rfl

theorem searchTask_yields (target : U64) (memo : Memo) :
    (searchTask cm named ask target memo).Yields (Acceptable cm named)
      (analyze cm named answer target memo) :=
  (runTask_yields hask _ memo).bind
    ⟨follows_run answer Verdict.stops (searchFrom cm named target) memo, rfl⟩

end

theorem analyzeTask_yields {R : Memo → Memo → Prop} (hlast : Lasting answer R)
    (hask : ∀ t memo, (ask t memo).Yields (Acceptable cm named) (answer t memo))
    (target : U64) (memo : Memo) :
    (analyzeTask cm named ask target memo).Yields (Acceptable cm named)
      (analyze cm named answer target memo) := by
  intro stored hstored
  cases stored with
  | none => exact searchTask_yields hask target memo
  | some trace =>
    have hf : Follows (searchFrom cm named target) trace.calls trace.exit := hstored trace rfl
    refine (replayTask_yields hask trace.calls memo).bind ?_
    cases hsame : (replay answer Verdict.stops trace.calls memo).1 with
    | true =>
      have hrun := run_of_replay hf memo hsame
      unfold analyze
      rw [hrun]
      rfl
    | false =>
      have hagain := hlast.run_again hf memo hsame
      have hanalyze : analyze cm named answer target
          (replay answer Verdict.stops trace.calls memo).2.1 =
            analyze cm named answer target memo := by
        unfold analyze
        rw [hagain]
      rw [← hanalyze]
      exact searchTask_yields hask target _

theorem verdictTask_yields (depth : ℕ) (stack : List U64) (target : U64) (memo : Memo) :
    (verdictTask cm named depth stack target memo).Yields (Acceptable cm named)
      (verdict cm named depth stack target memo) := by
  induction depth generalizing stack target memo with
  | zero => rfl
  | succ depth ih =>
    unfold verdictTask verdict
    cases known named (depth + 1) stack target memo with
    | some v => rfl
    | none =>
      have hanalyze := analyzeTask_yields (verdict_lasting cm named depth (target :: stack))
        (fun t m => ih (target :: stack) t m) target memo
      exact hanalyze.bind rfl

theorem isNoreturnTask_yields (target : U64) :
    (isNoreturnTask cm named target).Yields (Acceptable cm named) (isNoreturn cm named target) := by
  unfold isNoreturnTask
  by_cases hnamed : named target = true
  · rw [if_pos hnamed]
    unfold isNoreturn
    rw [hnamed]
    rfl
  · rw [if_neg hnamed]
    intro stored hstored
    have hfresh : isNoreturn cm named target =
        decide ((verdict cm named maxDepth [] target fun _ => none).1 = .noReturn) := by
      unfold isNoreturn
      rw [Bool.eq_false_iff.mpr hnamed, Bool.false_or]
    cases stored with
    | some v => exact hstored v rfl
    | none => exact (verdictTask_yields maxDepth [] target _).bind ⟨hfresh.symm, hfresh.symm⟩

end Tasks

/-- A stored search stands for a new one: replayed to its end it gives the verdict and the memo
the search would, and left early it has changed nothing for the search. -/
def StandsFor (cm : CodeMap) (named : U64 → Bool) (target : U64) (trace : Trace) : Prop :=
  ∀ depth stack memo, let ask := verdict cm named depth (target :: stack)
    let replayed := replay ask Verdict.stops trace.calls memo
    (replayed.1 = true → analyze cm named ask target memo =
      (outcome trace.exit (isUnsure replayed.2.2), replayed.2.1)) ∧
    (replayed.1 = false → run ask Verdict.stops (searchFrom cm named target) replayed.2.1 =
      run ask Verdict.stops (searchFrom cm named target) memo)

theorem standsFor_of_follows {cm : CodeMap} {named : U64 → Bool} {target : U64} {trace : Trace}
    (hf : Follows (searchFrom cm named target) trace.calls trace.exit) :
    StandsFor cm named target trace := by
  intro depth stack memo
  refine ⟨fun hsame => ?_, (verdict_lasting cm named depth (target :: stack)).run_again hf memo⟩
  unfold analyze
  rw [run_of_replay hf memo hsame]

/-- The oracles of a batch answer as one without a cache, in every interleaving; what they
keep of searches and of flows is as good as new. -/
theorem shared_cache_answers (cm : CodeMap) (named : U64 → Bool) {pool : Pool Value U64 Bool}
    (h : Reachable (isNoreturnTask cm named) pool) :
    (∀ e ∈ pool.answers, e.2 = isNoreturn cm named e.1) ∧
      (∀ target (trace : Trace), pool.store (.trace target) = some trace →
        StandsFor cm named target trace) ∧
      (∀ addrs, (shardTable.lookups cm.flow FlowShard.empty addrs).1 = addrs.map cm.flow) ∧
      ∀ lift : U64 × ItKey → Option Flow × ItKey,
        (∀ key f, (lift key).1 = some f → f.address = key.1) →
          ∀ keys, (genericTable.lookups lift GenericFlows.empty keys).1 = keys.map lift := by
  have hinv : Invariant (Acceptable cm named) (isNoreturn cm named) pool :=
    reachable_invariant isNoreturnTask_yields h
  refine ⟨hinv.answers, fun target trace hstored => ?_, shard_lookups cm,
    fun lift haddr => generic_lookups haddr⟩
  exact standsFor_of_follows (hinv.store (.trace target) trace hstored)

/-- Two functions that call each other; the first returns after the call. -/
def mutualCode : CodeMap :=
  codeOf [⟨0x10, 5, false, [.call 0x20]⟩, ⟨0x15, 1, false, [.exit]⟩,
    ⟨0x20, 5, false, [.call 0x10]⟩, ⟨0x25, 2, true, []⟩]

theorem shared_cache_answers_mutual : ∃ pool : Pool Value U64 Bool, pool.answers.length = 3 ∧
      ∀ e ∈ pool.answers, e.2 = isNoreturn mutualCode (fun _ => false) e.1 := by
  have hstart : Reachable (isNoreturnTask mutualCode fun _ => false) initial := .initial
  have hpool := ((hstart.ask 0x10).ask 0x20).ask 0x10
  exact ⟨_, rfl, (shared_cache_answers mutualCode (fun _ => false) hpool).1⟩

end NoReturnCache
