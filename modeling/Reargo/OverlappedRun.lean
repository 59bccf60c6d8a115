import Reargo.DeferredActions
import Reargo.AnalyzerWindows

/-!
# Overlapping the analyzers

What the analyzers declare, and the overlapped run against the plain one: a prepared value is
the one of the analyzer's own place, and taking the marked analyzers last shows in nothing.
-/
namespace OverlappedRun

open AnalyzerPipeline AnalyzerWindows DeferredActions List Option Function

variable {V : Fin 32 → Type} {Prepared Result : Type}

/-- Two analyzers at different places of the pipeline. -/
def TwoOf (analyzers : List (Analyzer V Prepared Result)) (l a : Analyzer V Prepared Result) :
    Prop :=
  ∃ i j : ℕ, i ≠ j ∧ analyzers[i]? = some l ∧ analyzers[j]? = some a

structure Honest (analyzers : List (Analyzer V Prepared Result)) : Prop where
  split : ∀ a ∈ analyzers, a.prepareReads.isSome = true → ∀ s, a.analyze s = a.apply s (a.prepare s)
  reads : ∀ a ∈ analyzers, ∀ reads, a.prepareReads = some reads →
    ∀ s s', (∀ p, reads.has p = true → s p = s' p) → a.prepare s = a.prepare s'
  writes : ∀ a ∈ analyzers, ∀ s p, a.writes.has p = false →
    (a.analyze s).1 p = s p ∧ ∀ v, (a.apply s v).1 p = s p
  /-- What an analyzer that runs last writes is read by no other. -/
  unread : ∀ l a, TwoOf analyzers l a → l.runsLast = true → Unseen l.analyze a.analyze ∧
      (a.prepareReads.isSome = true → ∀ s, a.prepare (l.analyze s).1 = a.prepare s)
  /-- Nor does it matter in which order it and the others write. -/
  commutes : ∀ l a, TwoOf analyzers l a → l.runsLast = true → Commutes l.analyze a.analyze

/-- What an analyzer that runs last answers is the same after those behind it that do not. -/
def LastReadsUnwritten (analyzers : List (Analyzer V Prepared Result)) : Prop :=
  ∀ (i j : ℕ) (l a : Analyzer V Prepared Result), i < j → analyzers[i]? = some l →
    analyzers[j]? = some a → l.runsLast = true → a.runsLast = false → Unseen a.analyze l.analyze

/-- The program as it is once the first `i` analyzers ran in order. -/
def programAt (analyzers : List (Analyzer V Prepared Result)) (s : Program V) (i : ℕ) : Program V :=
  after Analyzer.analyze (analyzers.take i) s

def isLast (overlap : Bool) (a : Analyzer V Prepared Result) : Bool := overlap && a.runsLast

def lastAt (overlap : Bool) (analyzers : List (Analyzer V Prepared Result)) (i : ℕ) : Bool :=
  (analyzers[i]?).any (isLast overlap)

/-- The program once those of the first `i` analyzers that do not run last ran. -/
def keptAt (overlap : Bool) (analyzers : List (Analyzer V Prepared Result)) (s : Program V)
    (i : ℕ) : Program V :=
  after Analyzer.analyze (kept (isLast overlap) (analyzers.take i)) s

def resultAt (analyzers : List (Analyzer V Prepared Result)) (s : Program V)
    (entry : Analyzer V Prepared Result × ℕ) : String × Result :=
  (entry.1.name, (entry.1.analyze (programAt analyzers s entry.2)).2)

section Lists

variable {α : Type} {l : List α} {n : ℕ} {a : α}

theorem take_succ_of_get (h : l[n]? = some a) : l.take (n + 1) = l.take n ++ [a] := by
  simp only [take_add_one, h, toList_some]

theorem mem_take_iff_get : a ∈ l.take n ↔ ∃ i, i < n ∧ l[i]? = some a := by
  simp only [mem_iff_getElem?, getElem?_take]
  constructor
  · rintro ⟨i, hi⟩
    split at hi
    · exact ⟨i, by assumption, hi⟩
    · contradiction
  · rintro ⟨i, hi, ha⟩
    exact ⟨i, by simp [hi, ha]⟩

theorem mem_drop_iff_get : a ∈ l.drop n ↔ ∃ i, n ≤ i ∧ l[i]? = some a := by
  simp only [mem_iff_getElem?, getElem?_drop]
  constructor
  · rintro ⟨i, hi⟩
    exact ⟨n + i, Nat.le_add_right n i, hi⟩
  · rintro ⟨i, hi, ha⟩
    exact ⟨i - n, by simpa [Nat.add_sub_cancel' hi] using ha⟩

end Lists

variable {overlap : Bool} {analyzers : List (Analyzer V Prepared Result)} {s : Program V}
  {n : ℕ} {a : Analyzer V Prepared Result}

theorem isLast_runsLast (h : isLast overlap a = true) : a.runsLast = true := by
  simp only [isLast, Bool.and_eq_true] at h
  exact h.2

theorem keptAt_succ (ha : analyzers[n]? = some a) (hl : isLast overlap a = false) :
    keptAt overlap analyzers s (n + 1) = (a.analyze (keptAt overlap analyzers s n)).1 := by
  have hkept : kept (isLast overlap) (analyzers.take (n + 1)) =
      kept (isLast overlap) (analyzers.take n) ++ [a] := by
    simp [kept, take_succ_of_get ha, hl]
  simp only [keptAt, hkept, after_snoc]

theorem keptAt_succ_last (ha : analyzers[n]? = some a) (hl : isLast overlap a = true) :
    keptAt overlap analyzers s (n + 1) = keptAt overlap analyzers s n := by
  have hkept : kept (isLast overlap) (analyzers.take (n + 1)) =
      kept (isLast overlap) (analyzers.take n) := by
    simp [kept, take_succ_of_get ha, hl]
  simp only [keptAt, hkept]

section Deferring

variable (h : Honest analyzers)
include h

theorem deferrable (overlap : Bool) (n : ℕ) :
    Deferrable Analyzer.analyze (isLast overlap) (analyzers.take n) := by
  apply pairwise_iff_getElem.mpr
  intro i j hi hj hij
  have hget : ∀ k (hk : k < (analyzers.take n).length),
      analyzers[k]? = some (analyzers.take n)[k] := by
    intro k hk
    have hkl : k < analyzers.length := by
      simp only [length_take] at hk
      omega
    simp only [getElem_take, getElem?_eq_getElem hkl]
  constructor
  · intro hl
    exact h.commutes _ _ ⟨i, j, ne_of_lt hij, hget i hi, hget j hj⟩ (isLast_runsLast hl)
  · intro hl
    exact h.commutes _ _ ⟨j, i, ne_of_gt hij, hget j hj, hget i hi⟩ (isLast_runsLast hl)

/-- The marked analyzers run on what the others left end where all in order do. -/
theorem deferred_keptAt (overlap : Bool) (n : ℕ) :
    after Analyzer.analyze (deferred (isLast overlap) (analyzers.take n))
      (keptAt overlap analyzers s n) = programAt analyzers s n :=
  after_deferred (deferrable h overlap n) s

theorem unseen_keptAt {γ : Type} {f : Program V → γ} (overlap : Bool)
    (hf : ∀ i l, i < n → analyzers[i]? = some l → l.runsLast = true →
      ∀ s, f (l.analyze s).1 = f s) :
    f (programAt analyzers s n) = f (keptAt overlap analyzers s n) := by
  rw [← deferred_keptAt h overlap]
  apply unseen_after
  intro l hl
  obtain ⟨hl, hlast⟩ := mem_filter.mp hl
  obtain ⟨i, hi, hil⟩ := mem_take_iff_get.mp hl
  exact hf i l hi hil (isLast_runsLast hlast)

theorem result_keptAt (overlap : Bool) (ha : analyzers[n]? = some a) :
    (a.analyze (keptAt overlap analyzers s n)).2 = (a.analyze (programAt analyzers s n)).2 := by
  symm
  apply unseen_keptAt h overlap (f := fun s => (a.analyze s).2)
  intro i l hi hil hlast
  exact (h.unread l a ⟨i, n, ne_of_lt hi, hil, ha⟩ hlast).1

theorem prepare_keptAt (overlap : Bool) (ha : analyzers[n]? = some a)
    (hs : a.prepareReads.isSome = true) :
    a.prepare (keptAt overlap analyzers s n) = a.prepare (programAt analyzers s n) := by
  symm
  apply unseen_keptAt h overlap
  intro i l hi hil hlast
  exact (h.unread l a ⟨i, n, ne_of_lt hi, hil, ha⟩ hlast).2 hs

theorem keptAt_writes {p : Fin 32} (ha : analyzers[n]? = some a) (hp : a.writes.has p = false) :
    keptAt overlap analyzers s (n + 1) p = keptAt overlap analyzers s n p := by
  cases hl : isLast overlap a with
  | true => rw [keptAt_succ_last ha hl]
  | false =>
    rw [keptAt_succ ha hl]
    exact (h.writes a (mem_of_getElem? ha) _ p hp).1

theorem prepare_clear {i k : ℕ} {reads : State} (overlap : Bool) (ha : analyzers[i]? = some a)
    (hr : a.prepareReads = some reads) (hclear : Clear analyzers reads n i) (hnk : n ≤ k)
    (hki : k ≤ i) :
    a.prepare (keptAt overlap analyzers s k) = a.prepare (keptAt overlap analyzers s n) := by
  obtain ⟨hi, -⟩ := List.getElem?_eq_some_iff.mp ha
  induction k, hnk using Nat.le_induction with
  | base => rfl
  | succ k hnk ih =>
    have hget : analyzers[k]? = some analyzers[k] := List.getElem?_eq_getElem (by omega)
    have hunwritten := hclear k _ hnk hki hget
    have hstep : a.prepare (keptAt overlap analyzers s (k + 1)) =
        a.prepare (keptAt overlap analyzers s k) := by
      apply h.reads a (mem_of_getElem? ha) reads hr
      intro p hp
      apply keptAt_writes h hget
      apply Bool.eq_false_iff.mpr
      intro hw
      have hinter := State.intersects_iff.mpr ⟨p, hp, hw⟩
      simp [hunwritten] at hinter
    exact hstep.trans (ih (Nat.le_of_succ_le hki))

theorem result_deferred (hlast : LastReadsUnwritten analyzers) (ha : analyzers[n]? = some a)
    (hl : isLast overlap a = true) :
    (a.analyze (after Analyzer.analyze (deferred (isLast overlap) (analyzers.take n))
      (keptAt overlap analyzers s analyzers.length))).2 =
    (a.analyze (programAt analyzers s n)).2 := by
  have hrest : keptAt overlap analyzers s analyzers.length =
      after Analyzer.analyze (kept (isLast overlap) (analyzers.drop n))
        (keptAt overlap analyzers s n) := by
    simp only [keptAt, ← after_append, kept, ← filter_append, take_append_drop, take_length]
  have hseen : ∀ t, (a.analyze (after Analyzer.analyze
      (deferred (isLast overlap) (analyzers.take n)) t)).2 = (a.analyze t).2 := by
    apply unseen_after (f := fun t => (a.analyze t).2)
    intro l hl
    obtain ⟨hl, hll⟩ := mem_filter.mp hl
    obtain ⟨i, hi, hil⟩ := mem_take_iff_get.mp hl
    exact (h.unread l a ⟨i, n, ne_of_lt hi, hil, ha⟩ (isLast_runsLast hll)).1
  have hunwritten : ∀ t, (a.analyze (after Analyzer.analyze
      (kept (isLast overlap) (analyzers.drop n)) t)).2 = (a.analyze t).2 := by
    apply unseen_after (f := fun t => (a.analyze t).2)
    intro b hb
    obtain ⟨hb, hbl⟩ := mem_filter.mp hb
    obtain ⟨i, hi, hib⟩ := mem_drop_iff_get.mp hb
    obtain ⟨hover, hruns⟩ := Bool.and_eq_true_iff.mp hl
    have hkept : b.runsLast = false := by simpa [isLast, hover] using hbl
    refine hlast n i a b (lt_of_le_of_ne hi ?_) ha hib hruns hkept
    -- the analyzer itself is not among those kept
    rintro rfl
    have hab : a = b := some.inj (ha.symm.trans hib)
    rw [← hab, hruns] at hkept
    contradiction
  calc (a.analyze (after Analyzer.analyze (deferred (isLast overlap) (analyzers.take n))
        (keptAt overlap analyzers s analyzers.length))).2
      = (a.analyze (keptAt overlap analyzers s analyzers.length)).2 := hseen _
    _ = (a.analyze (keptAt overlap analyzers s n)).2 := by rw [hrest]; exact hunwritten _
    _ = (a.analyze (programAt analyzers s n)).2 := result_keptAt h overlap ha

end Deferring

structure RunInv (overlap : Bool) (analyzers : List (Analyzer V Prepared Result))
    (s : Program V) (n : ℕ) (r : Run V Prepared Result) : Prop where
  program : r.program = keptAt overlap analyzers s n
  results : r.results = (analyzers.take n).zipIdx.map fun e =>
    if isLast overlap e.1 then none else some (resultAt analyzers s e)
  last : r.last = (List.range n).filter (lastAt overlap analyzers)
  effects : r.effects = (List.range n).filter fun i => !lastAt overlap analyzers i
  ready : ∀ i v, n ≤ i → r.ready[i]? = some (some v) → ∃ a reads, analyzers[i]? = some a ∧
    a.prepareReads = some reads ∧ Clear analyzers reads n i ∧
    v = a.prepare (keptAt overlap analyzers s n)
  prepares : ∀ i v, (i, v) ∈ r.prepares → ∃ a, analyzers[i]? = some a ∧
    a.prepareReads.isSome = true ∧ v = a.prepare (programAt analyzers s i)

section Steps

variable {r : Run V Prepared Result}

theorem runInv_initial : RunInv overlap analyzers s 0
    ⟨s, analyzers.map fun _ => none, [], [], [], []⟩ where
  program := rfl
  results := rfl
  last := rfl
  effects := rfl
  ready := by
    intro i v _ hi
    simp only [getElem?_map] at hi
    cases hg : analyzers[i]? <;> simp [hg] at hi
  prepares := by simp

variable (h : Honest analyzers)
include h

section

variable (hr : RunInv overlap analyzers s n r)

include hr

theorem RunInv.prepareAt {i : ℕ} {reads : State}
    (hni : n ≤ i) (hs : SplitAt analyzers i reads) (hclear : Clear analyzers reads n i) :
    RunInv overlap analyzers s n (prepareAt analyzers r i) := by
  obtain ⟨a, ha, hreads⟩ := hs
  simp only [AnalyzerPipeline.prepareAt, ha]
  refine ⟨hr.program, hr.results, hr.last, hr.effects, ?_, ?_⟩
  · intro j v hnj hj
    simp only [getElem?_set] at hj
    split at hj
    · rename_i hij
      split at hj
      · have hv := some.inj (some.inj hj)
        exact ⟨a, reads, hij ▸ ha, hreads, hij ▸ hclear, by rw [← hv, hr.program]⟩
      · contradiction
    · exact hr.ready j v hnj hj
  · intro j v hj
    rcases mem_append.mp hj with hj | hj
    · exact hr.prepares j v hj
    · obtain ⟨rfl, rfl⟩ := Prod.mk.inj (mem_singleton.mp hj)
      have hsome : a.prepareReads.isSome = true := by simp [hreads]
      refine ⟨a, ha, hsome, ?_⟩
      calc a.prepare r.program = a.prepare (keptAt overlap analyzers s n) := by rw [hr.program]
        _ = a.prepare (keptAt overlap analyzers s j) :=
          (prepare_clear h overlap ha hreads hclear hni (le_refl j)).symm
        _ = a.prepare (programAt analyzers s j) := prepare_keptAt h overlap ha hsome

theorem RunInv.ready_succ {i : ℕ} {v : Prepared}
    (hni : n + 1 ≤ i) (hi : r.ready[i]? = some (some v)) :
    ∃ a reads, analyzers[i]? = some a ∧ a.prepareReads = some reads ∧
      Clear analyzers reads (n + 1) i ∧ v = a.prepare (keptAt overlap analyzers s (n + 1)) := by
  obtain ⟨a, reads, ha, hreads, hclear, hv⟩ := hr.ready i v (Nat.le_of_succ_le hni) hi
  refine ⟨a, reads, ha, hreads, hclear.mono (Nat.le_succ n), ?_⟩
  exact hv.trans (prepare_clear h overlap ha hreads hclear (Nat.le_succ n) hni).symm

theorem RunInv.turn (ha : analyzers[n]? = some a) :
    turn r a n = a.analyze (keptAt overlap analyzers s n) := by
  simp only [AnalyzerPipeline.turn, hr.program]
  split
  · rename_i v hv
    have hready : r.ready[n]? = some (some v) := join_eq_some_iff.mp hv
    obtain ⟨b, reads, hb, hreads, -, rfl⟩ := hr.ready n v (le_refl n) hready
    obtain rfl : a = b := some.inj (ha.symm.trans hb)
    exact (h.split a (mem_of_getElem? ha) (by simp [hreads]) _).symm
  · rfl

theorem RunInv.runAt (ha : analyzers[n]? = some a) :
    RunInv overlap analyzers s (n + 1) (runAt overlap analyzers r n) := by
  obtain ⟨hn, -⟩ := List.getElem?_eq_some_iff.mp ha
  have hlast : lastAt overlap analyzers n = isLast overlap a := by
    simp only [lastAt, ha, any_some]
  have hzip : (analyzers.take (n + 1)).zipIdx = (analyzers.take n).zipIdx ++ [(a, n)] := by
    simp [take_succ_of_get ha, zipIdx_append, Nat.min_eq_left hn.le]
  have hmark : (overlap && a.runsLast) = isLast overlap a := rfl
  simp only [AnalyzerPipeline.runAt, ha, hmark]
  cases hl : isLast overlap a with
  | true =>
    simp only [if_true]
    refine ⟨?_, ?_, ?_, ?_, fun i v hni hi => hr.ready_succ h hni hi, hr.prepares⟩
    · exact hr.program.trans (keptAt_succ_last ha hl).symm
    · simp [hr.results, hzip, hl]
    · simp [hr.last, range_succ, hlast, hl]
    · simp [hr.effects, range_succ, hlast, hl]
  | false =>
    rw [hr.turn h ha]
    simp only [Bool.false_eq_true, if_false]
    refine ⟨?_, ?_, ?_, ?_, ?_, hr.prepares⟩
    · exact (keptAt_succ ha hl).symm
    · simp [hr.results, hzip, hl, resultAt, result_keptAt h overlap ha]
    · simp [hr.last, range_succ, hlast, hl]
    · simp [hr.effects, range_succ, hlast, hl]
    · intro i v hni hi
      apply hr.ready_succ h hni
      have hne : n ≠ i := by omega
      simpa [getElem?_set_ne hne] using hi

theorem RunInv.prepares_fold {prepared : List ℕ}
    (hp : ∀ i ∈ prepared, n ≤ i ∧ ∃ reads, SplitAt analyzers i reads ∧ Clear analyzers reads n i) :
    RunInv overlap analyzers s n (prepared.foldl (AnalyzerPipeline.prepareAt analyzers) r) := by
  induction prepared generalizing r with
  | nil => exact hr
  | cons i prepared ih =>
    obtain ⟨hni, reads, hs, hclear⟩ := hp i mem_cons_self
    exact ih (hr.prepareAt h hni hs hclear) fun j hj => hp j (mem_cons_of_mem i hj)

theorem RunInv.runs {k : ℕ} (hk : n + k ≤ analyzers.length) : RunInv overlap analyzers s (n + k)
      ((List.range' n k).foldl (AnalyzerPipeline.runAt overlap analyzers) r) := by
  induction k generalizing n r with
  | zero => exact hr
  | succ k ih =>
    have hn : analyzers[n]? = some analyzers[n] := getElem?_eq_getElem (by omega)
    have hstep := ih (hr.runAt h hn) (by omega)
    simpa only [range'_succ, foldl_cons, add_assoc, add_comm 1 k] using hstep

end

theorem RunInv.runWindow {w : Window} (hr : RunInv overlap analyzers s w.start r)
    (hle : w.start ≤ w.stop) (hstop : w.stop ≤ analyzers.length)
    (hp : ∀ i ∈ w.prepared, w.start ≤ i ∧
      ∃ reads, SplitAt analyzers i reads ∧ Clear analyzers reads w.start i) :
    RunInv overlap analyzers s w.stop (runWindow overlap analyzers r w) := by
  obtain ⟨k, hk⟩ := Nat.exists_eq_add_of_le hle
  simp only [AnalyzerPipeline.runWindow, hk, Nat.add_sub_cancel_left]
  split
  · exact (hr.prepares_fold h hp).runs h (hk ▸ hstop)
  · exact hr.runs h (hk ▸ hstop)

theorem RunInv.runWindows {ws : List Window} (hr : RunInv overlap analyzers s n r)
    (hc : Covers n ws analyzers.length)
    (hp : ∀ w ∈ ws, ∀ i ∈ w.prepared, w.start ≤ i ∧
      ∃ reads, SplitAt analyzers i reads ∧ Clear analyzers reads w.start i) :
    RunInv overlap analyzers s analyzers.length
      (ws.foldl (AnalyzerPipeline.runWindow overlap analyzers) r) := by
  induction ws generalizing n r with
  | nil => exact hc ▸ hr
  | cons w ws ih =>
    obtain ⟨rfl, hle, hrest⟩ := hc
    apply ih
    · exact hr.runWindow h hle hrest.le (hp w mem_cons_self)
    · exact hrest
    · exact fun v hv => hp v (mem_cons_of_mem w hv)

end Steps

/-- The run once those of the first `n` analyzers put off to the end ran too. -/
structure LastInv (overlap : Bool) (analyzers : List (Analyzer V Prepared Result))
    (s : Program V) (n : ℕ) (r : Run V Prepared Result) : Prop where
  program : r.program = after Analyzer.analyze (deferred (isLast overlap) (analyzers.take n))
      (keptAt overlap analyzers s analyzers.length)
  results : r.results = analyzers.zipIdx.map fun e =>
    if isLast overlap e.1 && n ≤ e.2 then none else some (resultAt analyzers s e)
  effects : r.effects =
    (List.range analyzers.length).filter (fun i => !lastAt overlap analyzers i) ++
      (List.range n).filter (lastAt overlap analyzers)
  prepares : ∀ i v, (i, v) ∈ r.prepares → ∃ a, analyzers[i]? = some a ∧
    a.prepareReads.isSome = true ∧ v = a.prepare (programAt analyzers s i)

section Last

variable {r : Run V Prepared Result}

theorem RunInv.toLast (hr : RunInv overlap analyzers s analyzers.length r) :
    LastInv overlap analyzers s 0 r where
  program := hr.program
  results := by simp [hr.results]
  effects := by simp [hr.effects]
  prepares := hr.prepares

variable (overlap) in
theorem set_result (ha : analyzers[n]? = some a) : (analyzers.zipIdx.map fun e =>
      if isLast overlap e.1 && n ≤ e.2 then none else some (resultAt analyzers s e)).set n
        (some (resultAt analyzers s (a, n))) =
    analyzers.zipIdx.map fun e =>
      if isLast overlap e.1 && n + 1 ≤ e.2 then none else some (resultAt analyzers s e) := by
  obtain ⟨hn, -⟩ := List.getElem?_eq_some_iff.mp ha
  apply ext_getElem?
  intro i
  simp only [List.getElem?_set, List.getElem?_map, List.getElem?_zipIdx, length_map,
    length_zipIdx, zero_add, Option.map_map, comp_def]
  split
  · rename_i hni
    subst hni
    simp only [ha, map_some]
    simp
  · rename_i hni
    cases analyzers[i]? with
    | none => rfl
    | some b =>
      have hiff : n ≤ i ↔ n + 1 ≤ i := by omega
      simp only [map_some, hiff]

variable (h : Honest analyzers)
include h

theorem LastInv.step (hlast : LastReadsUnwritten analyzers)
    (hr : LastInv overlap analyzers s n r) (ha : analyzers[n]? = some a)
    (hl : isLast overlap a = true) :
    LastInv overlap analyzers s (n + 1) (runLastAt analyzers r n) := by
  have hmark : lastAt overlap analyzers n = true := by
    simp only [lastAt, ha, any_some, hl]
  have hdef : deferred (isLast overlap) (analyzers.take (n + 1)) =
      deferred (isLast overlap) (analyzers.take n) ++ [a] := by
    simp [deferred, take_succ_of_get ha, hl]
  simp only [runLastAt, ha]
  refine ⟨?_, ?_, ?_, hr.prepares⟩
  · simp only [hr.program, hdef, after_snoc]
  · have hresult := result_deferred h (s := s) hlast ha hl
    have hset := set_result overlap ha (s := s)
    simp only [resultAt] at hset ⊢
    simp only [hr.results, resultAt, hr.program, hresult, hset]
  · simp [hr.effects, range_succ, hmark]

omit h in
theorem LastInv.skip (hr : LastInv overlap analyzers s n r) (ha : analyzers[n]? = some a)
    (hl : isLast overlap a = false) : LastInv overlap analyzers s (n + 1) r := by
  have hmark : lastAt overlap analyzers n = false := by
    simp only [lastAt, ha, any_some, hl]
  have hdef : deferred (isLast overlap) (analyzers.take (n + 1)) =
      deferred (isLast overlap) (analyzers.take n) := by
    simp [deferred, take_succ_of_get ha, hl]
  refine ⟨?_, ?_, ?_, hr.prepares⟩
  · simp only [hr.program, hdef]
  · simp only [hr.results]
    apply map_congr_left
    rintro ⟨b, i⟩ hb
    have hib : analyzers[i]? = some b := mem_zipIdx_iff_getElem?.mp hb
    rcases eq_or_ne i n with rfl | hne
    · obtain rfl : a = b := some.inj (ha.symm.trans hib)
      simp [hl]
    · have hiff : n ≤ i ↔ n + 1 ≤ i := by omega
      simp only [hiff]
  · simp [hr.effects, range_succ, hmark]

theorem LastInv.runs (hlast : LastReadsUnwritten analyzers)
    (hr : LastInv overlap analyzers s 0 r) (hn : n ≤ analyzers.length) :
    LastInv overlap analyzers s n (((List.range n).filter (lastAt overlap analyzers)).foldl
      (runLastAt analyzers) r) := by
  induction n with
  | zero => exact hr
  | succ n ih =>
    have ha : analyzers[n]? = some analyzers[n] := getElem?_eq_getElem hn
    have hmark : lastAt overlap analyzers n = isLast overlap analyzers[n] := by
      simp only [lastAt, ha, any_some]
    have hbefore := ih (Nat.le_of_succ_le hn)
    cases hl : isLast overlap analyzers[n] with
    | true =>
      have hstep := hbefore.step h hlast ha hl
      simpa [range_succ, hmark, hl] using hstep
    | false =>
      have hskip := hbefore.skip ha hl
      simpa [range_succ, hmark, hl] using hskip

end Last

theorem mapM_some {α : Type} (l : List α) : (l.map some).mapM id = some l := by
  induction l with
  | nil => rfl
  | cons a l ih => simp [mapM_cons, ih]

/-- What a run of the pipeline ends with: the program and the results of all analyzers in
order, each in effect once, each prepared value the one of its analyzer's own place. -/
structure InOrder (m : AnalysisManager V Prepared Result) (s : Program V) : Prop where
  program : (m.runAllTimed s).program = programAt m.analyzers (m.startEarly s) m.analyzers.length
  timed : m.timed s = some (m.analyzers.zipIdx.map (resultAt m.analyzers (m.startEarly s)))
  effects : (m.runAllTimed s).effects.Perm (List.range m.analyzers.length)
  prepares : ∀ i v, (i, v) ∈ (m.runAllTimed s).prepares → ∃ a, m.analyzers[i]? = some a ∧
    a.prepareReads.isSome = true ∧ v = a.prepare (programAt m.analyzers (m.startEarly s) i)

theorem inOrder (m : AnalysisManager V Prepared Result) (s : Program V)
    (h : Honest m.analyzers) (hlast : LastReadsUnwritten m.analyzers) : InOrder m s := by
  have hplaced := windows_placed m
  have hwindows : RunInv m.overlap m.analyzers (m.startEarly s) m.analyzers.length
      (m.runWindows s) := runInv_initial.runWindows h hplaced.covers hplaced.clear
  have hdone := hwindows.toLast.runs h hlast (le_refl m.analyzers.length)
  rw [← hwindows.last] at hdone
  change LastInv m.overlap m.analyzers (m.startEarly s) m.analyzers.length (m.runAllTimed s)
    at hdone
  refine ⟨?_, ?_, ?_, hdone.prepares⟩
  · rw [hdone.program, take_length]
    have hkept := deferred_keptAt h m.overlap m.analyzers.length (s := m.startEarly s)
    rwa [take_length] at hkept
  · have hresults : (m.runAllTimed s).results =
        (m.analyzers.zipIdx.map (resultAt m.analyzers (m.startEarly s))).map some := by
      rw [hdone.results, List.map_map]
      apply map_congr_left
      rintro ⟨a, i⟩ ha
      have hia : m.analyzers[i]? = some a := List.mem_zipIdx_iff_getElem?.mp ha
      obtain ⟨hi, -⟩ := List.getElem?_eq_some_iff.mp hia
      simp [Nat.not_le.mpr hi]
    simp only [AnalysisManager.timed, hresults, mapM_some]
  · rw [hdone.effects]
    apply perm_append_comm.trans
    exact filter_append_perm _ _

section Examples

/-- A split analyzer that copies a part of the state to another. -/
def copier (source target : Fin 32) : Analyzer (fun _ => ℕ) ℕ ℕ where
  name := "copier"
  startEarly := id
  runsLast := false
  writes := .part target
  prepareReads := some (.part source)
  prepare s := s source
  analyze s := (Function.update s target (s source), s source)
  apply s v := (Function.update s target v, v)

def marker (target : Fin 32) : Analyzer (fun _ => ℕ) ℕ ℕ where
  name := "marker"
  startEarly := id
  runsLast := true
  writes := .part target
  prepareReads := none
  prepare _ := 0
  analyze s := (Function.update s target 1, 1)
  apply s _ := (Function.update s target 1, 1)

/-- One that runs last, changes nothing and answers with a part of the state. -/
def reader (source : Fin 32) : Analyzer (fun _ => ℕ) ℕ ℕ where
  name := "reader"
  startEarly := id
  runsLast := true
  writes := .none
  prepareReads := none
  prepare _ := 0
  analyze s := (s, s source)
  apply s _ := (s, s source)

theorem update_part {s : Program fun _ => ℕ} {target p : Fin 32} {v : ℕ}
    (h : (State.part target).has p = false) : Function.update s target v p = s p := by
  have hne : p ≠ target := by simpa [eq_comm] using h
  exact update_of_ne hne v s

theorem copiers_honest : Honest [marker 11, copier 0 10, copier 0 9] where
  split := by
    intro a ha hs s
    simp only [mem_cons, not_mem_nil, or_false] at ha
    rcases ha with rfl | rfl | rfl <;> rfl
  reads := by
    intro a ha reads hr s s' hag
    simp only [mem_cons, not_mem_nil, or_false] at ha
    rcases ha with rfl | rfl | rfl
    · rfl
    · cases hr
      exact hag 0 (by simp)
    · cases hr
      exact hag 0 (by simp)
  writes := by
    intro a ha s p hp
    simp only [mem_cons, not_mem_nil, or_false] at ha
    rcases ha with rfl | rfl | rfl <;> exact ⟨update_part hp, fun _ => update_part hp⟩
  unread := by
    rintro l a ⟨i, j, hij, hi, hj⟩ hl
    rcases i with _ | _ | _ | i <;> cases hi <;> first | contradiction | skip
    rcases j with _ | _ | _ | j <;> cases hj <;> first | contradiction | skip
    · exact ⟨fun _ => rfl, fun _ _ => rfl⟩
    · exact ⟨fun _ => rfl, fun _ _ => rfl⟩
  commutes := by
    rintro l a ⟨i, j, hij, hi, hj⟩ hl
    rcases i with _ | _ | _ | i <;> cases hi <;> first | contradiction | skip
    rcases j with _ | _ | _ | j <;> cases hj <;> first | contradiction | skip
    · exact fun s => update_comm (by decide) _ _ s
    · exact fun s => update_comm (by decide) _ _ s

theorem reader_honest : Honest [reader 10, copier 0 10] where
  split := by
    intro a ha hs s
    simp only [mem_cons, not_mem_nil, or_false] at ha
    rcases ha with rfl | rfl <;> rfl
  reads := by
    intro a ha reads hr s s' hag
    simp only [mem_cons, not_mem_nil, or_false] at ha
    rcases ha with rfl | rfl
    · rfl
    · cases hr
      exact hag 0 (by simp)
  writes := by
    intro a ha s p hp
    simp only [mem_cons, not_mem_nil, or_false] at ha
    rcases ha with rfl | rfl
    · exact ⟨rfl, fun _ => rfl⟩
    · exact ⟨update_part hp, fun _ => update_part hp⟩
  unread := by
    rintro l a ⟨i, j, hij, hi, -⟩ hl
    rcases i with _ | _ | i <;> cases hi <;> first | contradiction | skip
    exact ⟨fun _ => rfl, fun _ _ => rfl⟩
  commutes := by
    rintro l a ⟨i, j, hij, hi, -⟩ hl
    rcases i with _ | _ | i <;> cases hi <;> first | contradiction | skip
    exact fun _ => rfl

end Examples

/-- With the overlap and without it: the same program, the same results in the same order,
every analyzer in effect once, every prepared value the one of its own place. -/
theorem overlap_changes_nothing (analyzers : List (Analyzer V Prepared Result)) (s : Program V)
    (h : Honest analyzers) (hlast : LastReadsUnwritten analyzers) :
    let m : AnalysisManager V Prepared Result := ⟨analyzers, true⟩
    (m.runAllTimed s).program = (m.withoutOverlap.runAllTimed s).program ∧
    (∃ results, m.timed s = some results ∧ m.withoutOverlap.timed s = some results) ∧
    (m.runAllTimed s).effects.Perm (range analyzers.length) ∧
    ∀ i v, (i, v) ∈ (m.runAllTimed s).prepares → ∃ a, analyzers[i]? = some a ∧
      a.prepareReads.isSome = true ∧ v = a.prepare (programAt analyzers (m.startEarly s) i) := by
  intro m
  have hover : InOrder m s := inOrder m s h hlast
  have hplain : InOrder m.withoutOverlap s := inOrder m.withoutOverlap s h hlast
  refine ⟨hover.program.trans hplain.program.symm, ?_, hover.effects, hover.prepares⟩
  exact ⟨_, hover.timed, hplain.timed⟩

theorem overlap_changes_nothing_copiers :
    let m : AnalysisManager (fun _ => ℕ) ℕ ℕ := ⟨[marker 11, copier 0 10, copier 0 9], true⟩
    m.timed (fun _ => 5) = some [("marker", 1), ("copier", 5), ("copier", 5)] ∧
      (m.runAllTimed fun _ => 5).prepares = [(1, 5), (2, 5)] ∧
      (m.runAllTimed fun _ => 5).program = (m.withoutOverlap.runAllTimed fun _ => 5).program ∧
      m.timed (fun _ => 5) = m.withoutOverlap.timed (fun _ => 5) ∧
      (m.runAllTimed fun _ => 5).effects.Perm (range 3) := by
  refine ⟨by decide, by decide, ?_⟩
  have hlast : LastReadsUnwritten [marker 11, copier 0 10, copier 0 9] := by
    rintro i j l a - hi - hl -
    rcases i with _ | _ | _ | i <;> cases hi <;> first | contradiction | skip
    exact fun _ => rfl
  obtain ⟨hprogram, ⟨results, hover, hplain⟩, heffects, -⟩ :=
    overlap_changes_nothing _ (fun _ => 5) copiers_honest hlast
  exact ⟨hprogram, hover.trans hplain.symm, heffects⟩

/-- One that runs last and reads what another writes answers otherwise at the end. -/
theorem reader_overlap_differs : Honest [reader 10, copier 0 10] ∧
    (⟨[reader 10, copier 0 10], true⟩ : AnalysisManager (fun _ => ℕ) ℕ ℕ).timed
      (fun p => if p = 0 then 1 else 0) ≠
    (⟨[reader 10, copier 0 10], false⟩ : AnalysisManager (fun _ => ℕ) ℕ ℕ).timed
      (fun p => if p = 0 then 1 else 0) :=
  ⟨reader_honest, by decide⟩

end OverlappedRun
