import Mathlib.Data.List.GetD
import Reargo.EffectSummaries
import Reargo.StrongComponents

/-!
# Effects through the call graph

The functions are summarised callees first. A component of the call graph with a cycle is summarised
again from the effects of the round before, until they stop changing or the rounds are used up.
-/
namespace EffectRounds

open PcodeModel EffectSummaries StrongComponents List

def maxSccRounds : ℕ := 4

/-- The functions that allocate and free memory, and the virtual methods that do. -/
structure MemFns where
  alloc : List U64
  dealloc : List U64
  allocSlots : List (U64 × ℤ)
  deallocSlots : List (U64 × ℤ)

/-- Functions in address order, with their summaries and the parameters their callers get. -/
structure Functions where
  starts : List U64
  sums : List Summary
  exported : List (BitVec 8)
  ascending : starts.Pairwise (· < ·)
  sums_length : sums.length = starts.length
  exported_length : exported.length = starts.length

def markFresh (mem : MemFns) (s : Summary) : Summary :=
  let fresh := s.callTargets.zipIdx.filterMap fun t => if t.1 ∈ mem.alloc then some t.2 else none
  let drop := s.globalCalls.filterMap fun g =>
    if (g.2.1, g.2.2.1) ∈ mem.allocSlots ∨ (g.2.1, g.2.2.1) ∈ mem.deallocSlots then
      some g.2.2.2
    else none
  if drop = [] then { s with fresh := fresh }
  else
    let inline := s.globalCalls.filterMap fun g =>
      if (g.2.1, g.2.2.1) ∈ mem.allocSlots then some g.1 else none
    { s with
      fresh := sortDedup (fun c : ℕ => [(c : ℤ)]) (fresh ++ inline)
      bufEscapes := (s.bufEscapes.zipIdx.filter fun e =>
        ¬ drop.any fun d => d.1 ≤ e.2 ∧ e.2 < d.2).map Prod.fst }

section Compose

variable (fns : Functions) (mem : MemFns)

def fidx (a : U64) : Option ℕ := fns.starts.idxOf? a

/-- A function's own summary, its fresh calls marked. -/
def markedSum (v : ℕ) : Summary := markFresh mem (fns.sums.getD v default)

/-- The direct callees of each function. -/
def callees : List (List ℕ) :=
  (List.range fns.starts.length).map fun v =>
    sortDedup (fun x : ℕ => [(x : ℤ)]) ((markedSum fns mem v).callTargets.filterMap (fidx fns))

/-- A function's summary with the effects of its callees. -/
def summaryIn (view : ℕ → Effects) (v : ℕ) : Summary :=
  install (composeWith (markedSum fns mem v) view (fidx fns))

/-- What the callers get of it: nothing of a memory function. -/
def exportedEffects (s : Summary) (v : ℕ) : Effects :=
  if fns.starts.getD v 0 ∈ mem.dealloc ∨ fns.starts.getD v 0 ∈ mem.alloc then some []
  else effectsOf s (fns.exported.getD v 0)

/-- The component of each function. -/
def compOf (comps : List (List ℕ)) (v : ℕ) : ℕ := comps.findIdx fun c => v ∈ c

/-- One more than the levels of the components called. -/
def levelOf (comps : List (List ℕ)) (levels : List ℕ) (c : List ℕ) : ℕ :=
  ((c.flatMap fun v => (callees fns mem).getD v []).filterMap fun w =>
    if compOf comps w ≠ levels.length then some (levels.getD (compOf comps w) 0 + 1)
    else none).foldl max 0

def levelsFrom (comps : List (List ℕ)) : List (List ℕ) → List ℕ → List ℕ
  | [], levels => levels
  | c :: cs, levels => levelsFrom comps cs (levels ++ [levelOf fns mem comps levels c])

/-- The positions of the components of a level. -/
def atLevel (levels : List ℕ) (l : ℕ) : List ℕ :=
  (List.range levels.length).filter fun ci => levels.getD ci 0 = l

def byLevel (levels : List ℕ) : List (List ℕ) :=
  (List.range ((levels.max?.map (· + 1)).getD 0)).map (atLevel levels)

/-- The effects of the last round, before them those of the components done. -/
def viewOf (held : List (ℕ × Effects)) (fx : List Effects) (t : ℕ) : Effects :=
  (held.lookup t).getD (fx.getD t (some []))

def round (view : ℕ → Effects) (comp : List ℕ) : List (ℕ × Summary × Effects) :=
  comp.map fun v => (v, summaryIn fns mem view v,
    exportedEffects fns mem (summaryIn fns mem view v) v)

/-- Rounds over a component until nothing changes. -/
def rounds (fx : List Effects) (comp : List ℕ) :
    ℕ → List (ℕ × Effects) → List (ℕ × Summary × Effects) → List (ℕ × Summary × Effects)
  | 0, _, res => res
  | k + 1, held, _ =>
    let res := round fns mem (viewOf held fx) comp
    let changed := res.filter fun r => held.lookup r.1 ≠ some r.2.2
    if changed = [] then res
    else rounds fx comp k (changed.map (fun r => (r.1, r.2.2)) ++ held) res

def isRecursive (comp : List ℕ) : Bool :=
  1 < comp.length || comp.head?.any fun v => ((callees fns mem).getD v []).contains v

def summarise (fx : List Effects) (comp : List ℕ) : List (ℕ × Summary × Effects) :=
  rounds fns mem fx comp (if isRecursive fns mem comp then maxSccRounds else 1) [] []

abbrev Done := List Effects × List (Option Summary)

def record (st : Done) (r : ℕ × Summary × Effects) : Done :=
  (st.1.set r.1 r.2.2, st.2.set r.1 (some r.2.1))

def composeLevel (comps : List (List ℕ)) (st : Done) (at_ : List ℕ) : Done :=
  (at_.flatMap fun ci => summarise fns mem st.1 (comps.getD ci [])).foldl record st

def compose : List Summary :=
  let comps := sccs (callees fns mem)
  let n := fns.starts.length
  let st := (byLevel (levelsFrom fns mem comps comps [])).foldl (composeLevel fns mem comps)
    (List.replicate n (some []), List.replicate n none)
  st.2.map fun s => s.getD default

/-- What the callers get of each function after the rounds, the others left as they are. -/
def effectsAfter (base : ℕ → Effects) (comp : List ℕ) : ℕ → ℕ → Effects
  | 0, t => base t
  | k + 1, t =>
    if t ∈ comp then exportedEffects fns mem (summaryIn fns mem (effectsAfter base comp k) t) t
    else base t

/-- The effects after the rounds over a component, from those of the functions done. -/
abbrev heldAfter (fx : List Effects) (comp : List ℕ) : ℕ → ℕ → Effects :=
  effectsAfter fns mem (fun t => fx.getD t (some [])) comp

/-- What the callers get of the functions composed. -/
def finalEffects (out : List Summary) (t : ℕ) : Effects :=
  exportedEffects fns mem (out.getD t default) t

/-- The effects of the functions composed, those of a component as a round leaves them. -/
def inRound (out : List Summary) (comp : List ℕ) : ℕ → ℕ → Effects :=
  effectsAfter fns mem (fun t => if t ∈ comp then some [] else finalEffects fns mem out t) comp

/-- One of the rounds changes no effect of the component. -/
def Stabilises (out : List Summary) (comp : List ℕ) : Prop :=
  ∃ r < maxSccRounds, ∀ t ∈ comp, inRound fns mem out comp (r + 1) t = inRound fns mem out comp r t

theorem callTargets_markFresh (s : Summary) : (markFresh mem s).callTargets = s.callTargets := by
  unfold markFresh
  simp only
  split <;> rfl

theorem length_callees : (callees fns mem).length = fns.starts.length := by
  unfold callees
  rw [length_map, length_range]

variable {fns mem} {base : ℕ → Effects}

theorem edge_iff {v t : ℕ} : Edge (callees fns mem) v t ↔
    t ∈ (markedSum fns mem v).callTargets.filterMap (fidx fns) := by
  unfold Edge callees
  rw [getD_eq_getElem?_getD, getElem?_map]
  by_cases hv : v < fns.starts.length
  · rw [getElem?_range hv]
    exact mem_sortDedup
  · rw [getElem?_eq_none (by rw [length_range]; omega)]
    refine iff_of_false not_mem_nil ?_
    unfold markedSum
    rw [callTargets_markFresh, getD_eq_default _ _ (by rw [fns.sums_length]; omega)]
    exact not_mem_nil

theorem edge_range {v t : ℕ} (h : Edge (callees fns mem) v t) : t < (callees fns mem).length := by
  obtain ⟨a, -, ha⟩ := mem_filterMap.mp (edge_iff.mp h)
  rw [length_callees]
  unfold fidx at ha
  exact (findIdx?_eq_some_iff_getElem.mp ha).1

theorem summaryIn_congr {view view' : ℕ → Effects} {v : ℕ}
    (h : ∀ t, Edge (callees fns mem) v t → view t = view' t) :
    summaryIn fns mem view v = summaryIn fns mem view' v := by
  unfold summaryIn
  rw [composeWith_congr fun t ht => h t (edge_iff.mpr ht)]

section Rounds

variable {fx : List Effects} {comp : List ℕ}

theorem effectsAfter_of_notMem {t : ℕ} (ht : t ∉ comp) (k : ℕ) :
    effectsAfter fns mem base comp k t = base t := by
  cases k with
  | zero => rfl
  | succ k =>
    unfold effectsAfter
    exact if_neg ht

variable (fns mem) in
theorem lookup_changed (held : List (ℕ × Effects)) (view : ℕ → Effects) (comp : List ℕ) (v : ℕ) :
    (((round fns mem view comp).filter fun r => held.lookup r.1 ≠ some r.2.2).map fun r =>
      (r.1, r.2.2)).lookup v =
      if v ∈ comp ∧ held.lookup v ≠ some (exportedEffects fns mem (summaryIn fns mem view v) v) then
        some (exportedEffects fns mem (summaryIn fns mem view v) v)
      else none := by
  unfold round
  induction comp with
  | nil => simp only [map_nil, filter_nil, lookup_nil, not_mem_nil, false_and, if_false]
  | cons u comp ih =>
    rw [map_cons, filter_cons]
    by_cases hu : held.lookup u ≠ some (exportedEffects fns mem (summaryIn fns mem view u) u)
    · rw [if_pos (by simpa using hu), map_cons, lookup_cons]
      by_cases hvu : v = u
      · subst hvu
        rw [if_pos ⟨mem_cons_self, hu⟩]
        simp
      · rw [show (v == u) = false from beq_false_of_ne hvu]
        simp only [ih, mem_cons, hvu, false_or]
    · rw [if_neg (by simpa using hu), ih]
      by_cases hvu : v = u
      · subst hvu
        rw [if_neg fun h => hu h.2, if_neg fun h => hu h.2]
      · simp only [mem_cons, hvu, false_or]

variable (fns mem fx comp) in
theorem rounds_spec (k j : ℕ) (held : List (ℕ × Effects)) (res : List (ℕ × Summary × Effects))
    (hview : viewOf held fx = heldAfter fns mem fx comp j)
    (hk : 0 < k) :
    ∃ r, r < j + k ∧ rounds fns mem fx comp k held res =
        round fns mem (heldAfter fns mem fx comp r) comp ∧
      (r + 1 = j + k ∨ ∀ t ∈ comp, heldAfter fns mem fx comp (r + 1) t =
          heldAfter fns mem fx comp r t) := by
  induction k generalizing j held res with
  | zero => exact absurd hk (lt_irrefl 0)
  | succ k ih =>
    unfold rounds
    simp only
    rw [hview]
    have hnext : ∀ t, heldAfter fns mem fx comp (j + 1) t =
        if t ∈ comp then exportedEffects fns mem (summaryIn fns mem
          (heldAfter fns mem fx comp j) t) t
        else fx.getD t (some []) := fun t => rfl
    split
    · next hsame =>
      refine ⟨j, by omega, rfl, .inr fun t ht => ?_⟩
      have hnone := lookup_changed fns mem held (heldAfter fns mem fx comp j) comp t
      rw [hsame, map_nil, lookup_nil] at hnone
      have hheld : held.lookup t = some (exportedEffects fns mem (summaryIn fns mem
          (heldAfter fns mem fx comp j) t) t) := by
        by_contra hne
        rw [if_pos ⟨ht, hne⟩] at hnone
        cases hnone
      have hj := congrFun hview t
      unfold viewOf at hj
      rw [hheld] at hj
      rw [hnext, if_pos ht]
      exact hj
    · cases k with
      | zero => exact ⟨j, by omega, rfl, .inl rfl⟩
      | succ k =>
        -- the effects held are those of this round now
        have hview' : viewOf (((round fns mem (heldAfter fns mem fx comp j) comp).filter fun r =>
            held.lookup r.1 ≠ some r.2.2).map (fun r => (r.1, r.2.2)) ++ held) fx =
              heldAfter fns mem fx comp (j + 1) := by
          funext t
          unfold viewOf
          rw [lookup_append, lookup_changed, hnext]
          by_cases ht : t ∈ comp
          · rw [if_pos ht]
            by_cases hch : held.lookup t = some (exportedEffects fns mem (summaryIn fns mem
                (heldAfter fns mem fx comp j) t) t)
            · rw [if_neg fun h => h.2 hch, hch]
              rfl
            · rw [if_pos ⟨ht, hch⟩]
              rfl
          · rw [if_neg ht, if_neg fun h => ht h.1]
            have hsame := congrFun hview t
            exact hsame.trans (effectsAfter_of_notMem ht j)
        obtain ⟨r, hr, hres, hlast⟩ := ih (j + 1) _
          (round fns mem (heldAfter fns mem fx comp j) comp) hview' (Nat.succ_pos k)
        exact ⟨r, by omega, hres, hlast.imp_left fun h => by omega⟩

theorem isRecursive_of_edge {v : ℕ} (h : isRecursive fns mem comp = false) (hv : v ∈ comp) :
    comp = [v] ∧ ¬ Edge (callees fns mem) v v := by
  unfold isRecursive at h
  rw [Bool.or_eq_false_iff] at h
  cases comp with
  | nil => exact absurd hv not_mem_nil
  | cons u rest =>
    cases rest with
    | nil =>
      obtain rfl := mem_singleton.mp hv
      refine ⟨rfl, fun hedge => ?_⟩
      have hself : ((callees fns mem).getD v []).contains v = true :=
        contains_iff_mem.mpr hedge
      have hno := h.2
      simp only [head?_cons, Option.any_some, hself] at hno
      cases hno
    | cons w rest => exact absurd h.1 (by simp)

/-- Without a cycle the first round says all. -/
theorem summaryIn_of_not_recursive {v : ℕ}
    (h : isRecursive fns mem comp = false) (hv : v ∈ comp) (j k : ℕ) :
    summaryIn fns mem (effectsAfter fns mem base comp j) v =
      summaryIn fns mem (effectsAfter fns mem base comp k) v := by
  obtain ⟨hcomp, hself⟩ := isRecursive_of_edge h hv
  refine summaryIn_congr fun t ht => ?_
  have hnot : t ∉ comp := by
    rw [hcomp, mem_singleton]
    rintro rfl
    exact hself ht
  rw [effectsAfter_of_notMem hnot, effectsAfter_of_notMem hnot]

theorem effectsAfter_stable_of_not_recursive {v : ℕ}
    (h : isRecursive fns mem comp = false) (hv : v ∈ comp) (k : ℕ) :
    effectsAfter fns mem base comp (k + 2) v = effectsAfter fns mem base comp (k + 1) v := by
  unfold effectsAfter
  rw [if_pos hv, if_pos hv, summaryIn_of_not_recursive h hv (k + 1) k]

variable (fns mem fx comp) in
theorem summarise_spec : ∃ r < maxSccRounds,
      summarise fns mem fx comp = round fns mem (heldAfter fns mem fx comp r) comp ∧
      (r + 1 = maxSccRounds ∨ ∀ t ∈ comp,
        heldAfter fns mem fx comp (r + 1) t = heldAfter fns mem fx comp r t) := by
  unfold summarise
  cases hrec : isRecursive fns mem comp with
  | true =>
    obtain ⟨r, hr, hres, hlast⟩ := rounds_spec fns mem fx comp maxSccRounds 0 [] [] rfl (by decide)
    rw [zero_add] at hr hlast
    exact ⟨r, hr, hres, hlast⟩
  | false =>
    obtain ⟨r, -, hres, -⟩ := rounds_spec fns mem fx comp 1 0 [] [] rfl Nat.one_pos
    refine ⟨1, by decide, ?_, .inr fun t ht => effectsAfter_stable_of_not_recursive hrec ht 0⟩
    refine hres.trans (map_congr_left fun v hv => ?_)
    rw [summaryIn_of_not_recursive hrec hv r 1]

end Rounds

theorem le_foldl_max (l : List ℕ) (init : ℕ) :
    init ≤ l.foldl max init ∧ ∀ x ∈ l, x ≤ l.foldl max init := by
  induction l generalizing init with
  | nil => exact ⟨le_rfl, fun x hx => absurd hx not_mem_nil⟩
  | cons a l ih =>
    obtain ⟨hinit, hall⟩ := ih (max init a)
    refine ⟨(le_max_left _ _).trans hinit, fun x hx => ?_⟩
    rcases mem_cons.mp hx with rfl | hx
    · exact (le_max_right _ _).trans hinit
    · exact hall x hx

variable (fns mem) in
theorem levelsFrom_spec (comps cs : List (List ℕ)) (levels : List ℕ) :
    ∃ more, levelsFrom fns mem comps cs levels = levels ++ more ∧ more.length = cs.length ∧
      ∀ (i : ℕ) (c : List ℕ), cs[i]? = some c → (levels ++ more)[levels.length + i]? =
        some (levelOf fns mem comps ((levels ++ more).take (levels.length + i)) c) := by
  induction cs generalizing levels with
  | nil => exact ⟨[], (append_nil levels).symm, rfl, fun i c h => by cases h⟩
  | cons c cs ih =>
    obtain ⟨more, heq, hlen, hspec⟩ := ih (levels ++ [levelOf fns mem comps levels c])
    refine ⟨levelOf fns mem comps levels c :: more, ?_, by simp [hlen], fun i d hd => ?_⟩
    · unfold levelsFrom
      rw [heq, append_assoc]
      rfl
    · cases i with
      | zero =>
        obtain rfl := Option.some.inj hd
        rw [Nat.add_zero, take_left, List.getElem?_append_right le_rfl, Nat.sub_self]
        rfl
      | succ i =>
        have hstep := hspec i d hd
        rw [append_assoc, length_append, length_singleton, Nat.add_assoc, Nat.add_comm 1 i] at hstep
        exact hstep

section Levels

variable {comps : List (List ℕ)} (h : Components (callees fns mem) comps)
include h

theorem compOf_eq {q y : ℕ} {d : List ℕ} (hq : comps[q]? = some d) (hy : y ∈ d) :
    compOf comps y = q := by
  obtain ⟨hlt, hd⟩ := List.getElem?_eq_some_iff.mp hq
  unfold compOf
  rw [findIdx_eq hlt]
  refine ⟨by rw [hd]; exact decide_eq_true hy, fun j hj => decide_eq_false fun hyj => ?_⟩
  have hjq := position_unique h.once (List.getElem?_eq_getElem (by omega)) hq hyj hy
  omega

/-- A component is above those it calls. -/
theorem level_lt {p q x y : ℕ} {c d : List ℕ} (hp : comps[p]? = some c) (hq : comps[q]? = some d)
    (hx : x ∈ c) (hy : y ∈ d) (hedge : Edge (callees fns mem) x y) (hne : p ≠ q) :
    (levelsFrom fns mem comps comps []).getD q 0 <
      (levelsFrom fns mem comps comps []).getD p 0 := by
  obtain ⟨levels, heq, hlen, hspec⟩ := levelsFrom_spec fns mem comps comps []
  simp only [nil_append, length_nil, Nat.zero_add] at heq hspec
  have hqp : q < p := lt_of_le_of_ne (h.after p q c d x y hp hq hx hy hedge) (Ne.symm hne)
  have hplt := (List.getElem?_eq_some_iff.mp hp).1
  rw [heq, getD_eq_getElem?_getD, getD_eq_getElem?_getD, hspec p c hp, Option.getD_some]
  refine Nat.lt_of_succ_le ((le_foldl_max _ 0).2 _ ?_)
  refine mem_filterMap.mpr ⟨y, mem_flatMap.mpr ⟨x, hx, hedge⟩, ?_⟩
  rw [compOf_eq h hq hy, length_take, min_eq_left (by omega), if_pos (Ne.symm hne),
    getD_eq_getElem?_getD, List.getElem?_take_of_lt hqp]

end Levels

variable {r : ℕ × Summary × Effects}

section

variable (rs : List (ℕ × Summary × Effects)) (st : Done)

include rs st

theorem foldl_record_of_notMem {t : ℕ} (ht : t ∉ rs.map Prod.fst) :
    (rs.foldl record st).1[t]? = st.1[t]? ∧ (rs.foldl record st).2[t]? = st.2[t]? := by
  induction rs generalizing st with
  | nil => exact ⟨rfl, rfl⟩
  | cons r rs ih =>
    rw [map_cons, mem_cons, not_or] at ht
    obtain ⟨hfx, hout⟩ := ih (record st r) ht.2
    rw [foldl_cons, hfx, hout]
    unfold record
    simp only
    rw [getElem?_set_ne (Ne.symm ht.1), getElem?_set_ne (Ne.symm ht.1)]
    exact ⟨rfl, rfl⟩

theorem foldl_record_of_mem (hnodup : (rs.map Prod.fst).Nodup) (hr : r ∈ rs)
    (hfx : r.1 < st.1.length) (hout : r.1 < st.2.length) :
    (rs.foldl record st).1[r.1]? = some r.2.2 ∧
      (rs.foldl record st).2[r.1]? = some (some r.2.1) := by
  induction rs generalizing st with
  | nil => exact absurd hr not_mem_nil
  | cons r' rs ih =>
    rw [map_cons, nodup_cons] at hnodup
    rw [foldl_cons]
    rcases mem_cons.mp hr with rfl | hr
    · obtain ⟨hfx', hout'⟩ := foldl_record_of_notMem rs (record st r) hnodup.1
      rw [hfx', hout']
      unfold record
      simp only
      rw [getElem?_set_self hfx, getElem?_set_self hout]
      exact ⟨rfl, rfl⟩
    · refine ih (record st r') hnodup.2 hr ?_ ?_
      · unfold record
        rwa [length_set]
      · unfold record
        rwa [length_set]

theorem length_foldl_record :
    (rs.foldl record st).1.length = st.1.length ∧ (rs.foldl record st).2.length = st.2.length := by
  induction rs generalizing st with
  | nil => exact ⟨rfl, rfl⟩
  | cons r rs ih =>
    obtain ⟨hfx, hout⟩ := ih (record st r)
    rw [foldl_cons, hfx, hout]
    unfold record
    exact ⟨length_set, length_set⟩

end

variable (fns mem) in
def doneAt (comps : List (List ℕ)) (levels : List ℕ) : ℕ → Done
  | 0 => (List.replicate fns.starts.length (some []), List.replicate fns.starts.length none)
  | l + 1 => composeLevel fns mem comps (doneAt comps levels l) (atLevel levels l)

theorem foldl_composeLevel (comps : List (List ℕ)) (levels : List ℕ) (n : ℕ) :
    ((List.range n).map (atLevel levels)).foldl (composeLevel fns mem comps)
      (List.replicate fns.starts.length (some []), List.replicate fns.starts.length none) =
        doneAt fns mem comps levels n := by
  induction n with
  | zero => rfl
  | succ n ih =>
    rw [range_succ, map_append, foldl_append, ih]
    rfl

section Done

variable {comps : List (List ℕ)} (h : Components (callees fns mem) comps) (levels : List ℕ)

theorem map_fst_summarise (fx : List Effects) (comp : List ℕ) :
    (summarise fns mem fx comp).map Prod.fst = comp := by
  obtain ⟨r, -, hres, -⟩ := summarise_spec fns mem fx comp
  rw [hres]
  unfold round
  rw [map_map]
  exact map_id comp

variable (fns mem) in
theorem map_fst_level (fx : List Effects) (cs : List ℕ) :
    (cs.flatMap fun ci => summarise fns mem fx (comps.getD ci [])).map Prod.fst =
      cs.flatMap fun ci => comps.getD ci [] := by
  rw [map_flatMap]
  simp only [map_fst_summarise]

variable (fns mem comps) in
theorem length_doneAt (l : ℕ) : (doneAt fns mem comps levels l).1.length = fns.starts.length ∧
      (doneAt fns mem comps levels l).2.length = fns.starts.length := by
  induction l with
  | zero => exact ⟨length_replicate, length_replicate⟩
  | succ l ih =>
    obtain ⟨hfx, hout⟩ := length_foldl_record ((atLevel levels l).flatMap fun ci =>
        summarise fns mem (doneAt fns mem comps levels l).1 (comps.getD ci []))
      (doneAt fns mem comps levels l)
    exact ⟨hfx.trans ih.1, hout.trans ih.2⟩

theorem getD_of_mem {ci x : ℕ} (hx : x ∈ comps.getD ci []) :
    comps[ci]? = some (comps.getD ci []) := by
  rw [getD_eq_getElem?_getD] at hx ⊢
  cases hc : comps[ci]? with
  | none =>
    rw [hc] at hx
    exact absurd hx not_mem_nil
  | some c => rfl

include h

theorem mem_level_iff {p f : ℕ} {c : List ℕ} (hp : comps[p]? = some c) (hf : f ∈ c) {l : ℕ} :
    f ∈ (atLevel levels l).flatMap (fun ci => comps.getD ci []) ↔
      p < levels.length ∧ levels.getD p 0 = l := by
  rw [mem_flatMap]
  unfold atLevel
  simp only [mem_filter, mem_range, decide_eq_true_eq]
  constructor
  · rintro ⟨ci, hci, hfc⟩
    rwa [position_unique h.once (getD_of_mem hfc) hp hfc hf] at hci
  · intro hlevel
    refine ⟨p, hlevel, ?_⟩
    rw [getD_eq_getElem?_getD, hp]
    exact hf

theorem nodup_level (l : ℕ) : ((atLevel levels l).flatMap fun ci => comps.getD ci []).Nodup := by
  rw [nodup_flatMap]
  constructor
  · intro ci _
    rw [getD_eq_getElem?_getD]
    cases hc : comps[ci]? with
    | none => exact nodup_nil
    | some c => exact (nodup_flatten.mp h.once).1 c (mem_of_getElem? hc)
  · have hnodup : (atLevel levels l).Nodup := nodup_range.filter _
    refine hnodup.imp fun hne x hx hx' => hne ?_
    exact position_unique h.once (getD_of_mem hx) (getD_of_mem hx') hx hx'

theorem doneAt_before {p f : ℕ} {c : List ℕ} (hp : comps[p]? = some c) (hf : f ∈ c) {l : ℕ}
    (hl : l ≤ levels.getD p 0) : (doneAt fns mem comps levels l).1.getD f (some []) = some [] := by
  induction l with
  | zero =>
    unfold doneAt
    rw [getD_eq_getElem?_getD, getElem?_replicate]
    split <;> rfl
  | succ l ih =>
    have hnot : f ∉ (atLevel levels l).flatMap (fun ci => comps.getD ci []) := by
      rw [mem_level_iff h levels hp hf]
      omega
    rw [← map_fst_level fns mem (doneAt fns mem comps levels l).1] at hnot
    have hsame := (foldl_record_of_notMem _ (doneAt fns mem comps levels l) hnot).1
    have hprev := ih (by omega)
    rw [getD_eq_getElem?_getD] at hprev ⊢
    exact (congrArg (fun o => o.getD (some [])) hsame).trans hprev

theorem doneAt_after {p f : ℕ} {c : List ℕ} (hp : comps[p]? = some c) (hf : f ∈ c)
    (hlt : p < levels.length) {l : ℕ} (hl : levels.getD p 0 < l)
    (hr : r ∈ summarise fns mem (doneAt fns mem comps levels (levels.getD p 0)).1 c)
    (hrf : r.1 = f) :
    (doneAt fns mem comps levels l).1[f]? = some r.2.2 ∧
      (doneAt fns mem comps levels l).2[f]? = some (some r.2.1) := by
  induction l with
  | zero => exact absurd hl (Nat.not_lt_zero _)
  | succ l ih =>
    rcases Nat.lt_or_ge (levels.getD p 0) l with hlt' | hge
    · have hnot : f ∉ (atLevel levels l).flatMap (fun ci => comps.getD ci []) := by
        rw [mem_level_iff h levels hp hf]
        omega
      rw [← map_fst_level fns mem (doneAt fns mem comps levels l).1] at hnot
      obtain ⟨hfx, hout⟩ := foldl_record_of_notMem _ (doneAt fns mem comps levels l) hnot
      obtain ⟨hfx', hout'⟩ := ih hlt'
      exact ⟨hfx.trans hfx', hout.trans hout'⟩
    · have heq : levels.getD p 0 = l := by omega
      obtain ⟨hlen, hlen'⟩ := length_doneAt fns mem comps levels l
      have hfn : f < fns.starts.length := by
        rw [← length_callees fns mem]
        exact (h.all f).mp (mem_flatten_iff.mpr ⟨p, c, hp, hf⟩)
      have hnodup := nodup_level h levels l
      rw [← map_fst_level fns mem (doneAt fns mem comps levels l).1] at hnodup
      rw [heq] at hr
      rw [← hrf]
      refine foldl_record_of_mem _ _ hnodup (mem_flatMap.mpr ⟨p, ?_, ?_⟩) ?_ ?_
      · unfold atLevel
        rw [mem_filter, mem_range, decide_eq_true_eq]
        exact ⟨hlt, heq⟩
      · rwa [getD_eq_getElem?_getD, hp]
      · omega
      · omega

end Done

section Composed

theorem level_lt_levels {levels : List ℕ} {p : ℕ} (hlt : p < levels.length) :
    levels.getD p 0 < (levels.max?.map (· + 1)).getD 0 := by
  have hmem : levels[p] ∈ levels := getElem_mem hlt
  obtain ⟨m, hm⟩ := Option.isSome_iff_exists.mp (isSome_max?_of_mem hmem)
  rw [hm, getD_eq_getElem _ _ hlt]
  exact Nat.lt_succ_of_le ((max?_eq_some_iff.mp hm).2 _ hmem)

variable (fns mem) in
theorem compose_eq : compose fns mem = (doneAt fns mem (sccs (callees fns mem))
      (levelsFrom fns mem (sccs (callees fns mem)) (sccs (callees fns mem)) [])
      (((levelsFrom fns mem (sccs (callees fns mem)) (sccs (callees fns mem)) []).max?.map
        (· + 1)).getD 0)).2.map fun s => s.getD default := by
  unfold compose byLevel
  simp only
  rw [foldl_composeLevel]

variable (fns mem) in
theorem components_callees : Components (callees fns mem) (sccs (callees fns mem)) :=
  components_sccs fun _ _ h => edge_range h

variable (fns mem) in
def levelsOf : List ℕ := levelsFrom fns mem (sccs (callees fns mem)) (sccs (callees fns mem)) []

theorem length_levelsOf : (levelsOf fns mem).length = (sccs (callees fns mem)).length := by
  obtain ⟨levels, heq, hlen, -⟩ := levelsFrom_spec fns mem (sccs (callees fns mem))
    (sccs (callees fns mem)) []
  unfold levelsOf
  rw [heq, nil_append, hlen]

variable {p : ℕ} {c : List ℕ} (hp : (sccs (callees fns mem))[p]? = some c)
include hp

theorem lt_levelsOf : p < (levelsOf fns mem).length := by
  rw [length_levelsOf]
  exact (List.getElem?_eq_some_iff.mp hp).1

theorem composed_of_mem {f : ℕ} (hf : f ∈ c)
    (hr : r ∈ summarise fns mem (doneAt fns mem (sccs (callees fns mem)) (levelsOf fns mem)
    ((levelsOf fns mem).getD p 0)).1 c) (hrf : r.1 = f) :
    (compose fns mem).getD f default = r.2.1 ∧ ∀ l, (levelsOf fns mem).getD p 0 < l →
      (doneAt fns mem (sccs (callees fns mem)) (levelsOf fns mem) l).1.getD f (some []) =
        r.2.2 := by
  have h := components_callees fns mem
  have hlt := lt_levelsOf hp
  constructor
  · have hout := (doneAt_after h (levelsOf fns mem) hp hf hlt (level_lt_levels hlt) hr hrf).2
    rw [compose_eq, getD_eq_getElem?_getD, getElem?_map]
    exact congrArg (fun o => (o.map fun s : Option Summary => s.getD default).getD default) hout
  · intro l hl
    have hfx := (doneAt_after h (levelsOf fns mem) hp hf hlt hl hr hrf).1
    rw [getD_eq_getElem?_getD, hfx, Option.getD_some]

theorem composed_of_round : ∃ r < maxSccRounds, ∃ fx : List Effects,
      (∀ f ∈ c, (compose fns mem).getD f default = summaryIn fns mem (heldAfter fns mem fx c r) f) ∧
      (r + 1 = maxSccRounds ∨ ∀ t ∈ c, heldAfter fns mem fx c (r + 1) t =
        heldAfter fns mem fx c r t) ∧
      (∀ f ∈ c, fx.getD f (some []) = some []) ∧
      ∀ f ∈ c, ∀ t, Edge (callees fns mem) f t → t ∉ c →
        fx.getD t (some []) = finalEffects fns mem (compose fns mem) t := by
  have h := components_callees fns mem
  generalize hfx : (doneAt fns mem (sccs (callees fns mem)) (levelsOf fns mem)
    ((levelsOf fns mem).getD p 0)).1 = fx
  obtain ⟨r, hr, hres, hlast⟩ := summarise_spec fns mem fx c
  refine ⟨r, hr, fx, fun f hf => ?_, hlast, fun f hf => ?_, fun f hf t ht htc => ?_⟩
  · have hmem := mem_map_of_mem (f := fun v => (v, summaryIn fns mem (heldAfter fns mem fx c r) v,
        exportedEffects fns mem (summaryIn fns mem (heldAfter fns mem fx c r) v) v)) hf
    change _ ∈ round fns mem (heldAfter fns mem fx c r) c at hmem
    rw [← hres, ← hfx] at hmem
    have hcomposed := (composed_of_mem hp hf hmem rfl).1
    rwa [hfx] at hcomposed
  · rw [← hfx]
    exact doneAt_before h (levelsOf fns mem) hp hf le_rfl
  · -- the callee is in a component below
    obtain ⟨q, d, hq, htd⟩ := mem_flatten_iff.mp ((h.all t).mpr (edge_range ht))
    have hqp : p ≠ q := by
      rintro rfl
      rw [hp] at hq
      exact htc (Option.some.inj hq ▸ htd)
    have hlevel := level_lt h hp hq hf htd ht hqp
    generalize hfx' : (doneAt fns mem (sccs (callees fns mem)) (levelsOf fns mem)
      ((levelsOf fns mem).getD q 0)).1 = fx'
    obtain ⟨r', -, hres', -⟩ := summarise_spec fns mem fx' d
    have hmem := mem_map_of_mem (f := fun v => (v, summaryIn fns mem (heldAfter fns mem fx' d r') v,
        exportedEffects fns mem (summaryIn fns mem (heldAfter fns mem fx' d r') v) v)) htd
    change _ ∈ round fns mem (heldAfter fns mem fx' d r') d at hmem
    rw [← hres', ← hfx'] at hmem
    obtain ⟨hsum, heff⟩ := composed_of_mem hq htd hmem rfl
    unfold finalEffects
    rw [hsum, ← hfx]
    exact heff ((levelsOf fns mem).getD p 0) hlevel

theorem compose_rounds : ∃ r < maxSccRounds, (∀ f ∈ c, (compose fns mem).getD f default =
        summaryIn fns mem (inRound fns mem (compose fns mem) c r) f) ∧
      (r + 1 = maxSccRounds ∨ ∀ t ∈ c, inRound fns mem (compose fns mem) c (r + 1) t =
        inRound fns mem (compose fns mem) c r t) := by
  obtain ⟨r, hr, fx, hsum, hlast, hin, hout⟩ := composed_of_round hp
  have hagree : ∀ k t, (t ∈ c ∨ ∃ f ∈ c, Edge (callees fns mem) f t) →
      heldAfter fns mem fx c k t = inRound fns mem (compose fns mem) c k t := by
    intro k
    induction k with
    | zero =>
      intro t ht
      change fx.getD t (some []) = if t ∈ c then some [] else _
      split
      · next htc => exact hin t htc
      · next htc =>
        obtain ⟨f, hf, hedge⟩ := ht.resolve_left htc
        exact hout f hf t hedge htc
    | succ k ih =>
      intro t ht
      unfold inRound heldAfter effectsAfter
      split
      · next htc =>
        rw [summaryIn_congr fun u hu => ih u (.inr ⟨t, htc, hu⟩)]
        rfl
      · next htc =>
        obtain ⟨f, hf, hedge⟩ := ht.resolve_left htc
        exact hout f hf t hedge htc
  refine ⟨r, hr, fun f hf => ?_, hlast.imp_right fun hsame t ht => ?_⟩
  · rw [hsum f hf]
    exact summaryIn_congr fun t ht => hagree r t (.inr ⟨f, hf, ht⟩)
  · rw [← hagree (r + 1) t (.inl ht), ← hagree r t (.inl ht), hsame t ht]

omit hp in
theorem stable_succ {k : ℕ}
    (hk : ∀ t ∈ c, effectsAfter fns mem base c (k + 1) t = effectsAfter fns mem base c k t) :
    ∀ t ∈ c, effectsAfter fns mem base c (k + 2) t = effectsAfter fns mem base c (k + 1) t := by
  have hall : effectsAfter fns mem base c (k + 1) = effectsAfter fns mem base c k := by
    funext t
    by_cases ht : t ∈ c
    · exact hk t ht
    · rw [effectsAfter_of_notMem ht, effectsAfter_of_notMem ht]
  intro t ht
  change (if t ∈ c then exportedEffects fns mem
    (summaryIn fns mem (effectsAfter fns mem base c (k + 1)) t) t else base t) = _
  rw [hall]
  exact hk t ht

omit hp in
theorem stable_of_le {j k : ℕ} (hjk : j ≤ k)
    (hj : ∀ t ∈ c, effectsAfter fns mem base c (j + 1) t = effectsAfter fns mem base c j t) :
    ∀ t ∈ c, effectsAfter fns mem base c (k + 1) t = effectsAfter fns mem base c k t := by
  induction hjk with
  | refl => exact hj
  | step _ ih => exact stable_succ ih

omit hp in
/-- Effects that no longer change are those kept at the end. -/
theorem inRound_final {r : ℕ} (hsum : ∀ f ∈ c, (compose fns mem).getD f default =
      summaryIn fns mem (inRound fns mem (compose fns mem) c r) f)
    (hsame : ∀ t ∈ c, inRound fns mem (compose fns mem) c (r + 1) t =
      inRound fns mem (compose fns mem) c r t) :
    inRound fns mem (compose fns mem) c r = finalEffects fns mem (compose fns mem) := by
  funext t
  by_cases ht : t ∈ c
  · unfold finalEffects
    rw [← hsame t ht, hsum t ht]
    exact if_pos ht
  · exact (effectsAfter_of_notMem ht r).trans (if_neg ht)

omit hp in
theorem stabilises_of_not_recursive (out : List Summary)
    (h : isRecursive fns mem c = false) : Stabilises fns mem out c :=
  ⟨1, by decide, fun _ ht => effectsAfter_stable_of_not_recursive h ht 0⟩

end Composed

variable (fns mem) in
/-- The components are those of the call graph, callees first. The summaries of a component whose
effects stop changing within the rounds, as they do without a cycle, solve their equations; those of
another are what the last round makes of the round before it. -/
theorem compose_solves : Components (callees fns mem) (sccs (callees fns mem)) ∧
      ∀ c ∈ sccs (callees fns mem),
        (isRecursive fns mem c = false → Stabilises fns mem (compose fns mem) c) ∧
        (Stabilises fns mem (compose fns mem) c → ∀ f ∈ c, (compose fns mem).getD f default =
          summaryIn fns mem (finalEffects fns mem (compose fns mem)) f) ∧
        (¬ Stabilises fns mem (compose fns mem) c → ∀ f ∈ c, (compose fns mem).getD f default =
          summaryIn fns mem (inRound fns mem (compose fns mem) c (maxSccRounds - 1)) f) := by
  refine ⟨components_callees fns mem, fun c hc => ⟨stabilises_of_not_recursive _, ?_⟩⟩
  obtain ⟨p, hp⟩ := getElem?_of_mem hc
  obtain ⟨r, hr, hsum, hlast⟩ := compose_rounds hp
  constructor
  · rintro ⟨j, hj, hstable⟩ f hf
    rw [hsum f hf, inRound_final hsum]
    rcases hlast with hend | hsame
    · exact stable_of_le (by omega) hstable
    · exact hsame
  · intro hnot f hf
    have hend : r + 1 = maxSccRounds := hlast.resolve_right fun hsame => hnot ⟨r, hr, hsame⟩
    rw [hsum f hf, ← hend, Nat.add_sub_cancel]

end Compose

/-- Each function gives its argument to the next, and the first writes through it. -/
def ring : Functions where
  starts := [0x100, 0x200, 0x300, 0x400, 0x500]
  sums := [0x200, 0x300, 0x400, 0x500, 0x100].map fun t => { Summary.empty with
      callTargets := [t]
      args := [(0, 0, .arg 0, 0)]
      fieldClobbers := if t = 0x200 then [(.arg 0, 8, 8)] else [] }
  exported := List.replicate 5 1
  ascending := by decide
  sums_length := rfl
  exported_length := rfl

/-- The second function calls the third, which writes through its argument by the time the rounds
are used up. -/
theorem compose_loses_ring : ¬ ∀ (fns : Functions) (mem : MemFns), ∀ f < fns.starts.length,
      (compose fns mem).getD f default =
        summaryIn fns mem (finalEffects fns mem (compose fns mem)) f := by
  intro hall
  have hring := hall ring ⟨[], [], [], []⟩ 1 (by decide)
  revert hring
  decide +kernel

end EffectRounds
