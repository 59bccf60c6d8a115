import Reargo.OrderedMap

/-!
# Data flow with states on the edges

Blocks are walked from a worklist. A walk starts from the join of the states on the edges
into its block and leaves states on the edges out of it; a block an edge of which changes is
walked again. Some blocks always start from the state that knows nothing, and so does the
last walk of a block walked too often. No order on the states is assumed.
-/
namespace EdgeFlow

open OrderedMap Function Finset
open Option (some.inj some.injEq)
open List (length_cons mem_cons_of_mem mem_cons_self mem_map)

variable {K S R C : Type} [LinearOrder K]

structure Flow (K S R : Type) where
  join : S → S → S
  empty : S
  fixed : K → Bool
  out : K → S → List (K × S)
  out_nodup : ∀ b s, ((out b s).map Prod.fst).Nodup
  record : K → S → List R
  cap : ℕ

/-- `incoming b` has the edges into `b` by the block they come from. -/
structure Progress (K S R : Type) where
  incoming : K → List (K × S)
  visits : K → ℕ
  saturated : K → Bool
  queue : List K
  log : List R

namespace Progress

variable (p : Progress K S R) (b k : K)

def put (e : K × S) : Progress K S R :=
  { p with incoming := Function.update p.incoming e.1 (insertEntry b e.2 (p.incoming e.1)) }

def push : Progress K S R :=
  { p with queue := if k ∈ p.queue then p.queue else p.queue ++ [k] }

def count : Progress K S R :=
  { p with visits := Function.update p.visits b (p.visits b + 1) }

def saturate : Progress K S R :=
  { p with saturated := Function.update p.saturated b true }

theorem put_incoming_self (e : K × S) :
    (p.put b e).incoming e.1 = insertEntry b e.2 (p.incoming e.1) :=
  update_self ..

theorem put_incoming_of_ne {e : K × S} (h : k ≠ e.1) : (p.put b e).incoming k = p.incoming k :=
  update_of_ne h ..

theorem push_of_mem (h : k ∈ p.queue) : p.push k = p := by
  unfold push
  rw [if_pos h]

theorem push_of_notMem (h : k ∉ p.queue) : p.push k = { p with queue := p.queue ++ [k] } := by
  unfold push
  rw [if_neg h]

theorem count_visits_self : (p.count b).visits b = p.visits b + 1 := update_self ..

theorem count_visits_of_ne {b k : K} (h : k ≠ b) : (p.count b).visits k = p.visits k :=
  update_of_ne h ..

theorem saturate_self : (p.saturate b).saturated b = true := update_self ..

theorem saturate_of_ne {b k : K} (h : k ≠ b) : (p.saturate b).saturated k = p.saturated k :=
  update_of_ne h ..

end Progress

/-- The flow whose walks leave no edges out of a set of blocks. -/
def Flow.within (F : Flow K S R) (kept : K → Bool) : Flow K S R :=
  { F with
    out := fun b s => (F.out b s).filter fun e => kept e.1
    out_nodup := fun b s =>
      (F.out_nodup b s).sublist (List.filter_sublist.map Prod.fst) }

omit [LinearOrder K] in
/-- Nothing is left out when no walk leaves the set. -/
theorem Flow.within_eq_self {F : Flow K S R} {kept : K → Bool}
    (h : ∀ b s, ∀ e ∈ F.out b s, kept e.1 = true) : F.within kept = F := by
  have hout : (F.within kept).out = F.out := by
    funext b s
    exact List.filter_eq_self.mpr (h b s)
  cases F
  simp only [Flow.within] at hout ⊢
  simp only [hout]

variable [DecidableEq S]

namespace Flow

variable (F : Flow K S R)

/-- Put a state on an edge; a changed edge queues its target. -/
def deliver (b : K) (p : Progress K S R) (e : K × S) : Progress K S R :=
  if lookup b (p.incoming e.1) = some e.2 then p else (p.put b e).push e.1

def joinAll : List S → Option S
  | [] => none
  | s :: ss => some (ss.foldl F.join s)

/-- Where the `v`-th walk of a block starts, if anything is known to reach it. -/
def start (p : Progress K S R) (b : K) (v : ℕ) : Option S :=
  if F.fixed b then some F.empty
  else if F.cap < v then some F.empty
  else F.joinAll ((p.incoming b).map Prod.snd)

def walk (b : K) (s : S) (p : Progress K S R) : Progress K S R :=
  (F.out b s).foldl (deliver b) { p with log := p.log ++ F.record b s }

/-- The last walk of a block: it was walked too often. -/
def saturates (b : K) (v : ℕ) : Bool := !F.fixed b && decide (F.cap < v)

def visit (b : K) (p : Progress K S R) : Progress K S R :=
  let v := p.visits b + 1
  match F.start p b v with
  | none => p.count b
  | some s => F.walk b s (if F.saturates b v then (p.count b).saturate b else p.count b)

def step (p : Progress K S R) : Option (Progress K S R) :=
  match p.queue with
  | [] => none
  | b :: rest =>
    if p.saturated b then some { p with queue := rest }
    else some (F.visit b { p with queue := rest })

/-- Steps until the queue is empty, if that many are enough. -/
def run : ℕ → Progress K S R → Option (Progress K S R)
  | fuel, p =>
    match F.step p with
    | none => some p
    | some p' =>
      match fuel with
      | 0 => none
      | fuel + 1 => run fuel p'

def init (roots : List K) : Progress K S R :=
  { incoming := fun _ => []
    visits := fun _ => 0
    saturated := fun _ => false
    queue := roots
    log := [] }

end Flow

section Deliver

variable {b : K} {p : Progress K S R} {e : K × S} {es : List (K × S)}

@[simp] theorem deliver_visits : (Flow.deliver b p e).visits = p.visits := by
  unfold Flow.deliver
  split <;> rfl

@[simp] theorem deliver_saturated : (Flow.deliver b p e).saturated = p.saturated := by
  unfold Flow.deliver
  split <;> rfl

@[simp] theorem deliver_log : (Flow.deliver b p e).log = p.log := by
  unfold Flow.deliver
  split <;> rfl

theorem lookup_deliver (b' k : K) : lookup b' ((Flow.deliver b p e).incoming k) =
      if b' = b ∧ k = e.1 then some e.2 else lookup b' (p.incoming k) := by
  unfold Flow.deliver
  split
  · next heq =>
    split
    · next h =>
      obtain ⟨rfl, rfl⟩ := h
      exact heq
    · rfl
  · change lookup b' ((p.put b e).incoming k) = _
    by_cases hk : k = e.1
    · subst hk
      simp only [p.put_incoming_self, lookup_insertEntry, and_true]
    · simp only [p.put_incoming_of_ne b k hk, hk, and_false, if_false]

omit [DecidableEq S] in
theorem mem_queue_push {k x : K} : x ∈ (p.push k).queue ↔ x ∈ p.queue ∨ x = k := by
  by_cases hk : k ∈ p.queue
  · rw [p.push_of_mem k hk]
    refine ⟨.inl, fun h => h.elim id ?_⟩
    rintro rfl
    exact hk
  · rw [p.push_of_notMem k hk]
    simp

theorem incoming_deliver_of_notMem {k : K} (h : k ∉ (Flow.deliver b p e).queue) :
    (Flow.deliver b p e).incoming k = p.incoming k := by
  unfold Flow.deliver at *
  split at h
  · next heq => rw [if_pos heq]
  · next hne =>
    rw [if_neg hne]
    refine p.put_incoming_of_ne b k ?_
    rintro rfl
    exact h (mem_queue_push.mpr (.inr rfl))

theorem mem_queue_deliver {k : K} : k ∈ (Flow.deliver b p e).queue → k ∈ p.queue ∨ k = e.1 := by
  unfold Flow.deliver
  split
  · exact .inl
  · exact fun h => mem_queue_push.mp h

theorem mem_queue_deliver_of_mem {k : K} (h : k ∈ p.queue) : k ∈ (Flow.deliver b p e).queue := by
  unfold Flow.deliver
  split
  · exact h
  · exact mem_queue_push.mpr (.inl h)

theorem length_queue_deliver : (Flow.deliver b p e).queue.length ≤ p.queue.length + 1 := by
  unfold Flow.deliver
  split
  · exact Nat.le_succ _
  · unfold Progress.push
    change (if e.1 ∈ p.queue then p.queue else p.queue ++ [e.1]).length ≤ _
    split
    · exact Nat.le_succ _
    · rw [List.length_append, List.length_singleton]

/-- What deliveries leave alone, and what they do to the queue. -/
structure Delivered (b : K) (es : List (K × S)) (p q : Progress K S R) : Prop where
  visits : q.visits = p.visits
  saturated : q.saturated = p.saturated
  log : q.log = p.log
  others : ∀ b' k, b' ≠ b → lookup b' (q.incoming k) = lookup b' (p.incoming k)
  mine : ∀ e ∈ es, lookup b (q.incoming e.1) = some e.2
  unqueued : ∀ k, k ∉ q.queue → q.incoming k = p.incoming k
  waiting : ∀ k, k ∈ p.queue → k ∈ q.queue
  queue : ∀ k, k ∈ q.queue → k ∈ p.queue ∨ k ∈ es.map Prod.fst
  length : q.queue.length ≤ p.queue.length + es.length

theorem foldl_deliver (hnodup : (es.map Prod.fst).Nodup) :
    Delivered b es p (es.foldl (Flow.deliver b) p) := by
  suffices h : ∀ p : Progress K S R, Delivered b es p (es.foldl (Flow.deliver b) p) ∧
      ∀ k, k ∉ es.map Prod.fst →
        lookup b ((es.foldl (Flow.deliver b) p).incoming k) = lookup b (p.incoming k) from
    (h p).1
  induction es with
  | nil => exact fun p => ⟨⟨rfl, rfl, rfl, fun _ _ _ => rfl, fun e he => absurd he List.not_mem_nil,
      fun _ _ => rfl, fun _ h => h, fun _ h => .inl h, le_refl _⟩, fun _ _ => rfl⟩
  | cons e es ih =>
    intro p
    rw [List.map_cons, List.nodup_cons] at hnodup
    obtain ⟨hD, hkeep⟩ := ih hnodup.2 (Flow.deliver b p e)
    rw [List.foldl_cons]
    refine ⟨⟨hD.visits.trans deliver_visits, hD.saturated.trans deliver_saturated,
      hD.log.trans deliver_log, fun b' k hne => ?_, fun e' he' => ?_, fun k hk => ?_, fun k hk => ?_,
      fun k hk => ?_, ?_⟩, fun k hk => ?_⟩
    · rw [hD.others b' k hne, lookup_deliver, if_neg fun h => hne h.1]
    · rcases List.mem_cons.mp he' with rfl | he'
      · rw [hkeep e'.1 hnodup.1, lookup_deliver, if_pos ⟨rfl, rfl⟩]
      · exact hD.mine e' he'
    · rw [hD.unqueued k hk]
      exact incoming_deliver_of_notMem fun h => hk (hD.waiting k h)
    · exact hD.waiting k (mem_queue_deliver_of_mem hk)
    · rcases hD.queue k hk with h | h
      · rcases mem_queue_deliver h with h | h
        · exact .inl h
        · exact .inr (h ▸ mem_cons_self)
      · exact .inr (mem_cons_of_mem _ h)
    · have hlen := hD.length
      have hone := length_queue_deliver (b := b) (p := p) (e := e)
      rw [length_cons]
      omega
    · rw [List.map_cons, List.mem_cons, not_or] at hk
      rw [hkeep k hk.2, lookup_deliver, if_neg fun h => hk.1 h.2]

/-- Edges that are there already change nothing. -/
theorem foldl_deliver_eq (h : ∀ e ∈ es, lookup b (p.incoming e.1) = some e.2) :
    es.foldl (Flow.deliver b) p = p := by
  induction es with
  | nil => rfl
  | cons e es ih =>
    have hsame : Flow.deliver b p e = p := if_pos (h e mem_cons_self)
    rw [List.foldl_cons, hsame]
    exact ih fun e' he' => h e' (mem_cons_of_mem _ he')

end Deliver

section Steps

variable {F : Flow K S R} {p p' : Progress K S R} {b : K} {rest : List K} {s : S}

/-- A block was walked from a state. -/
structure Walked (F : Flow K S R) (p p' : Progress K S R) (b : K) (rest : List K) (s : S) :
    Prop where
  unsaturated : p.saturated b = false
  start : F.start p b (p.visits b + 1) = some s
  visits : p'.visits = (p.count b).visits
  saturated : p'.saturated =
    if F.saturates b (p.visits b + 1) then (p.saturate b).saturated else p.saturated
  log : p'.log = p.log ++ F.record b s
  others : ∀ b' k, b' ≠ b → lookup b' (p'.incoming k) = lookup b' (p.incoming k)
  mine : ∀ e ∈ F.out b s, lookup b (p'.incoming e.1) = some e.2
  unqueued : ∀ k, k ∉ p'.queue → p'.incoming k = p.incoming k
  waiting : ∀ k, k ∈ rest → k ∈ p'.queue
  queue : ∀ k, k ∈ p'.queue → k ∈ rest ∨ k ∈ (F.out b s).map Prod.fst
  length : p'.queue.length ≤ rest.length + (F.out b s).length

theorem visit_of_start_none (h : F.start p b (p.visits b + 1) = none) :
    F.visit b p = p.count b := by
  unfold Flow.visit
  simp only [h]

theorem visit_of_start_some (h : F.start p b (p.visits b + 1) = some s) : F.visit b p = F.walk b s
      (if F.saturates b (p.visits b + 1) then (p.count b).saturate b else p.count b) := by
  unfold Flow.visit
  simp only [h]

theorem step_cases (h : F.step p = some p') : ∃ b rest, p.queue = b :: rest ∧
      ((p.saturated b = true ∧ p' = { p with queue := rest }) ∨
        (p.saturated b = false ∧ F.fixed b = false ∧ p.visits b + 1 ≤ F.cap ∧ p.incoming b = [] ∧
          p' = { p.count b with queue := rest }) ∨
        ∃ s, Walked F p p' b rest s) := by
  unfold Flow.step at h
  cases hq : p.queue with
  | nil => simp [hq] at h
  | cons b rest =>
    simp only [hq] at h
    refine ⟨b, rest, rfl, ?_⟩
    cases hsat : p.saturated b with
    | true =>
      rw [if_pos hsat, some.injEq] at h
      exact .inl ⟨rfl, h.symm⟩
    | false =>
      rw [if_neg (by simp [hsat]), some.injEq] at h
      subst h
      right
      cases hstart : F.start p b (p.visits b + 1) with
      | none =>
        left
        have hstart' := hstart
        unfold Flow.start at hstart'
        split at hstart'
        · cases hstart'
        · split at hstart'
          · cases hstart'
          · next hfix hcap =>
            refine ⟨rfl, by simpa using hfix, not_lt.mp hcap, ?_, ?_⟩
            · cases hin : p.incoming b with
              | nil => rfl
              | cons e es =>
                rw [hin] at hstart'
                cases hstart'
            · exact visit_of_start_none (p := { p with queue := rest }) hstart
      | some s =>
        right
        have hD := foldl_deliver (F.out_nodup b s) (b := b) (p :=
          { p.count b with
            queue := rest
            saturated := if F.saturates b (p.visits b + 1) then (p.saturate b).saturated
              else p.saturated
            log := p.log ++ F.record b s })
        have hwalk : F.visit b { p with queue := rest } = F.walk b s { p.count b with
              queue := rest
              saturated := if F.saturates b (p.visits b + 1) then (p.saturate b).saturated
                else p.saturated } := by
          rw [visit_of_start_some (p := { p with queue := rest }) hstart]
          change F.walk b s (if F.saturates b (p.visits b + 1) then _ else _) = _
          split <;> rfl
        rw [hwalk]
        exact ⟨s, hsat, hstart, hD.visits, hD.saturated, hD.log, hD.others, hD.mine, hD.unqueued,
          hD.waiting, hD.queue, hD.length⟩

theorem step_of_queue (hq : p.queue = b :: rest) :
    F.step p = some (if p.saturated b then { p with queue := rest }
      else F.visit b { p with queue := rest }) := by
  unfold Flow.step
  simp only [hq]
  split <;> rfl

theorem step_of_nil (hq : p.queue = []) : F.step p = none := by
  unfold Flow.step
  rw [hq]

theorem queue_of_step_none (h : F.step p = none) : p.queue = [] := by
  unfold Flow.step at h
  cases hq : p.queue with
  | nil => rfl
  | cons b rest =>
    simp only [hq] at h
    split at h <;> cases h

end Steps

/-- `last b` is where the last walk of `b` started. Its edges are there and what it recorded
is kept; a block that is not waiting was last walked from what reaches it now. -/
structure Covered (F : Flow K S R) (p : Progress K S R) (last : K → Option S) : Prop where
  recorded : ∀ b s, last b = some s → ∀ r ∈ F.record b s, r ∈ p.log
  sent : ∀ b s, last b = some s → ∀ e ∈ F.out b s, lookup b (p.incoming e.1) = some e.2
  received : ∀ b, b ∉ p.queue → p.incoming b ≠ [] →
    ∃ s, last b = some s ∧ (s = F.empty ∨ F.joinAll ((p.incoming b).map Prod.snd) = some s)
  fixed : ∀ b s, F.fixed b = true → last b = some s → s = F.empty
  walked : ∀ b, F.fixed b = true → p.visits b ≠ 0 → last b = some F.empty
  saturated : ∀ b, p.saturated b = true → last b = some F.empty

section Covering

variable {F : Flow K S R} {p p' : Progress K S R} {last : K → Option S}

omit [DecidableEq S] in
theorem init_covered (F : Flow K S R) (roots : List K) :
    Covered F (Flow.init roots) (fun _ => none) where
  recorded := by rintro b s ⟨⟩
  sent := by rintro b s ⟨⟩
  received := fun _ _ h => absurd rfl h
  fixed := by rintro b s _ ⟨⟩
  walked := fun _ _ h => absurd rfl h
  saturated := by rintro b ⟨⟩

omit [LinearOrder K] [DecidableEq S] in
theorem start_eq {b : K} {v : ℕ} {s : S} (h : F.start p b v = some s) : s = F.empty ∨
      F.fixed b = false ∧ v ≤ F.cap ∧ F.joinAll ((p.incoming b).map Prod.snd) = some s := by
  unfold Flow.start at h
  split at h
  · exact .inl (some.inj h).symm
  · split at h
    · exact .inl (some.inj h).symm
    · next hfix hcap => exact .inr ⟨by simpa using hfix, not_lt.mp hcap, h⟩

omit [DecidableEq S] in
theorem Walked.covered {b : K} {rest : List K} {s : S} (hw : Walked F p p' b rest s)
    (hq : p.queue = b :: rest) (h : Covered F p last) :
    Covered F p' (Function.update last b (some s)) where
  recorded b' s' hlast r hr := by
    rw [hw.log]
    by_cases hb : b' = b
    · subst hb
      rw [update_self, some.injEq] at hlast
      exact List.mem_append_right _ (hlast ▸ hr)
    · rw [update_of_ne hb] at hlast
      exact List.mem_append_left _ (h.recorded b' s' hlast r hr)
  sent b' s' hlast e he := by
    by_cases hb : b' = b
    · subst hb
      rw [update_self, some.injEq] at hlast
      exact hw.mine e (hlast ▸ he)
    · rw [update_of_ne hb] at hlast
      rw [hw.others b' e.1 hb]
      exact h.sent b' s' hlast e he
  received k hk hin := by
    rw [hw.unqueued k hk] at hin ⊢
    by_cases hb : k = b
    · subst hb
      refine ⟨s, update_self .., ?_⟩
      exact (start_eq hw.start).imp_right fun hs => hs.2.2
    · rw [update_of_ne hb]
      refine h.received k ?_ hin
      rw [hq, List.mem_cons, not_or]
      exact ⟨hb, fun hrest => hk (hw.waiting k hrest)⟩
  fixed b' s' hfix hlast := by
    by_cases hb : b' = b
    · subst hb
      rw [update_self, some.injEq] at hlast
      rw [← hlast]
      refine (start_eq hw.start).resolve_right fun hs => ?_
      rw [hfix] at hs
      cases hs.1
    · rw [update_of_ne hb] at hlast
      exact h.fixed b' s' hfix hlast
  walked b' hfix hv := by
    by_cases hb : b' = b
    · subst hb
      rw [update_self]
      have hs := (start_eq hw.start).resolve_right fun hs => by
        rw [hfix] at hs
        cases hs.1
      rw [hs]
    · rw [update_of_ne hb]
      rw [hw.visits, p.count_visits_of_ne hb] at hv
      exact h.walked b' hfix hv
  saturated b' hsat := by
    rw [hw.saturated] at hsat
    by_cases hb : b' = b
    · subst hb
      rw [update_self]
      split at hsat
      · next hc =>
        unfold Flow.saturates at hc
        rw [Bool.and_eq_true, decide_eq_true_eq] at hc
        have hs := (start_eq hw.start).resolve_right fun hs => absurd hs.2.1 (not_le.mpr hc.2)
        rw [hs]
      · rw [hw.unsaturated] at hsat
        cases hsat
    · rw [update_of_ne hb]
      refine h.saturated b' ?_
      split at hsat
      · rwa [p.saturate_of_ne hb] at hsat
      · exact hsat

omit [DecidableEq S] in
theorem Covered.pop {b : K} {rest : List K} {v : K → ℕ} (h : Covered F p last)
    (hq : p.queue = b :: rest) (hv : ∀ k, F.fixed k = true → v k = p.visits k)
    (hb : p.incoming b ≠ [] → last b = some F.empty) :
    Covered F { p with queue := rest, visits := v } last where
  recorded := h.recorded
  sent := h.sent
  received k hk hin := by
    by_cases hkb : k = b
    · subst hkb
      exact ⟨F.empty, hb hin, .inl rfl⟩
    · refine h.received k ?_ hin
      rw [hq, List.mem_cons, not_or]
      exact ⟨hkb, hk⟩
  fixed := h.fixed
  walked k hfix hne := h.walked k hfix (hv k hfix ▸ hne)
  saturated := h.saturated

theorem step_covered (hstep : F.step p = some p') (h : Covered F p last) :
    ∃ last', Covered F p' last' ∧ (∀ b, (last b).isSome → (last' b).isSome) ∧
      ∀ b, F.fixed b = true → b ∈ p.queue → b ∈ p'.queue ∨ (last' b).isSome := by
  obtain ⟨b, rest, hq, ⟨hsat, rfl⟩ | ⟨hsat, hfix, hcap, hin, rfl⟩ | ⟨s, hw⟩⟩ := step_cases hstep
  · have hlast := h.saturated b hsat
    refine ⟨last, h.pop hq (fun _ _ => rfl) fun _ => hlast, fun _ h => h, fun k _ hk => ?_⟩
    rw [hq] at hk
    rcases List.mem_cons.mp hk with rfl | hk
    · exact .inr (by rw [hlast]; rfl)
    · exact .inl hk
  · refine ⟨last, h.pop hq (fun k hk => ?_) fun hne => absurd hin hne, fun _ h => h,
      fun k hk hmem => ?_⟩
    · refine update_of_ne ?_ _ _
      rintro rfl
      rw [hfix] at hk
      cases hk
    · rw [hq] at hmem
      rcases List.mem_cons.mp hmem with rfl | hmem
      · rw [hfix] at hk
        cases hk
      · exact .inl hmem
  · refine ⟨_, hw.covered hq h, fun k hk => ?_, fun k _ hk => ?_⟩
    · by_cases hb : k = b
      · subst hb
        rw [update_self]
        rfl
      · rwa [update_of_ne hb]
    · rw [hq] at hk
      rcases List.mem_cons.mp hk with rfl | hk
      · exact .inr (by rw [update_self]; rfl)
      · exact .inl (hw.waiting k hk)

end Covering

/-- The blocks of a finite set, and how often the others than the fixed ones were walked. -/
structure Bounded (F : Flow K S R) (B : Finset K) (p : Progress K S R) : Prop where
  queue : ∀ b ∈ p.queue, b ∈ B
  visits : ∀ b, F.fixed b = false → p.visits b ≤ F.cap + 1
  capped : ∀ b, F.fixed b = false → p.visits b = F.cap + 1 → p.saturated b = true

/-- How many walks of a block can still change an edge. -/
def walksLeft (F : Flow K S R) (p : Progress K S R) (b : K) : ℕ :=
  if F.fixed b then (if p.visits b = 0 then 1 else 0) else F.cap + 1 - p.visits b

def stepsLeft (F : Flow K S R) (B : Finset K) (p : Progress K S R) : ℕ :=
  p.queue.length + B.card * ∑ b ∈ B, walksLeft F p b

section Termination

variable {F : Flow K S R} {p p' : Progress K S R} {last : K → Option S} {B : Finset K}

omit [DecidableEq S] in
theorem length_out_le (hout : ∀ b s, ∀ e ∈ F.out b s, e.1 ∈ B) (b : K) (s : S) :
    (F.out b s).length ≤ B.card := by
  have hsub : ((F.out b s).map Prod.fst).toFinset ⊆ B := by
    intro k hk
    obtain ⟨e, he, rfl⟩ := mem_map.mp (List.mem_toFinset.mp hk)
    exact hout b s e he
  calc (F.out b s).length = ((F.out b s).map Prod.fst).toFinset.card := by
        rw [List.toFinset_card_of_nodup (F.out_nodup b s), List.length_map]
    _ ≤ B.card := card_le_card hsub

omit [LinearOrder K] [DecidableEq S] in
theorem Bounded.visits_lt (h : Bounded F B p) {b : K} (hfix : F.fixed b = false)
    (hsat : p.saturated b = false) : p.visits b < F.cap + 1 := by
  refine lt_of_le_of_ne (h.visits b hfix) fun heq => ?_
  have hsat' := h.capped b hfix heq
  rw [hsat] at hsat'
  cases hsat'

variable (hout : ∀ b s, ∀ e ∈ F.out b s, e.1 ∈ B) (hstep : F.step p = some p')

include hout hstep

theorem step_bounded (h : Bounded F B p) : Bounded F B p' := by
  obtain ⟨b, rest, hq, ⟨-, rfl⟩ | ⟨hsat, hfix, hcap, hin, rfl⟩ | ⟨s, hw⟩⟩ := step_cases hstep
  · exact ⟨fun k hk => h.queue k (hq ▸ mem_cons_of_mem _ hk), h.visits, h.capped⟩
  · refine ⟨fun k hk => h.queue k (hq ▸ mem_cons_of_mem _ hk), fun k hk => ?_,
      fun k hk hv => ?_⟩
    · by_cases hkb : k = b
      · subst hkb
        change (p.count k).visits k ≤ _
        rw [p.count_visits_self]
        omega
      · exact (p.count_visits_of_ne hkb).trans_le (h.visits k hk)
    · by_cases hkb : k = b
      · subst hkb
        have hself := p.count_visits_self k
        dsimp only at hv
        omega
      · exact h.capped k hk ((p.count_visits_of_ne hkb).symm.trans hv)
  · refine ⟨fun k hk => ?_, fun k hk => ?_, fun k hk hv => ?_⟩
    · rcases hw.queue k hk with hk | hk
      · exact h.queue k (hq ▸ mem_cons_of_mem _ hk)
      · obtain ⟨e, he, rfl⟩ := mem_map.mp hk
        exact hout b s e he
    · rw [hw.visits]
      by_cases hkb : k = b
      · subst hkb
        rw [p.count_visits_self]
        exact h.visits_lt hk hw.unsaturated
      · rw [p.count_visits_of_ne hkb]
        exact h.visits k hk
    · rw [hw.visits] at hv
      rw [hw.saturated]
      by_cases hkb : k = b
      · subst hkb
        rw [p.count_visits_self] at hv
        have hcap : F.saturates k (p.visits k + 1) = true := by
          unfold Flow.saturates
          rw [hk, Bool.and_eq_true, decide_eq_true_eq]
          exact ⟨rfl, by omega⟩
        rw [if_pos hcap, p.saturate_self]
      · rw [p.count_visits_of_ne hkb] at hv
        have hsat := h.capped k hk hv
        split
        · rwa [p.saturate_of_ne hkb]
        · exact hsat

theorem step_stepsLeft
    (hcov : Covered F p last) (h : Bounded F B p) : stepsLeft F B p' < stepsLeft F B p := by
  obtain ⟨b, rest, hq, ⟨-, rfl⟩ | ⟨hsat, hfix, hcap, hin, rfl⟩ | ⟨s, hw⟩⟩ := step_cases hstep
  · unfold stepsLeft
    rw [hq, length_cons]
    exact Nat.add_lt_add_right (Nat.lt_succ_self _) _
  · have hle : ∑ k ∈ B, walksLeft F { p.count b with queue := rest } k ≤
        ∑ k ∈ B, walksLeft F p k := by
      refine sum_le_sum fun k _ => ?_
      unfold walksLeft
      dsimp only
      by_cases hkb : k = b
      · subst hkb
        simp only [hfix, Bool.false_eq_true, if_false, p.count_visits_self]
        omega
      · rw [p.count_visits_of_ne hkb]
    have hmul := Nat.mul_le_mul_left B.card hle
    have hlen : p.queue.length = rest.length + 1 := by rw [hq, length_cons]
    unfold stepsLeft
    change rest.length + _ < _
    omega
  · have hbB : b ∈ B := h.queue b (hq ▸ mem_cons_self)
    have hothers : ∀ k, k ≠ b → walksLeft F p' k = walksLeft F p k := by
      intro k hkb
      unfold walksLeft
      rw [hw.visits, p.count_visits_of_ne hkb]
    by_cases hold : F.fixed b = true ∧ p.visits b ≠ 0
    · -- the edges are there already
      have hlast := hcov.walked b hold.1 hold.2
      have hs : s = F.empty := (start_eq hw.start).resolve_right fun hs => by
        rw [hold.1] at hs
        cases hs.1
      have hstep' : p'.queue = rest := by
        unfold Flow.step at hstep
        simp only [hq, hw.unsaturated, Bool.false_eq_true, if_false, some.injEq] at hstep
        subst hstep
        have hsat : F.saturates b (p.visits b + 1) = false := by
          unfold Flow.saturates
          rw [hold.1]
          rfl
        have hstart : F.start { p with queue := rest } b (p.visits b + 1) = some F.empty :=
          hw.start.trans (congrArg some hs)
        rw [visit_of_start_some hstart]
        change (F.walk b F.empty (if F.saturates b (p.visits b + 1) then _ else _)).queue = rest
        rw [hsat]
        unfold Flow.walk
        rw [foldl_deliver_eq]
        · rfl
        · exact hcov.sent b F.empty hlast
      have hsum : ∑ k ∈ B, walksLeft F p' k = ∑ k ∈ B, walksLeft F p k := by
        refine sum_congr rfl fun k _ => ?_
        by_cases hkb : k = b
        · subst hkb
          unfold walksLeft
          rw [hw.visits, p.count_visits_self, if_pos hold.1, if_pos hold.1, if_neg hold.2,
            if_neg (Nat.succ_ne_zero _)]
        · exact hothers k hkb
      unfold stepsLeft
      rw [hsum, hstep', hq, length_cons]
      exact Nat.add_lt_add_right (Nat.lt_succ_self _) _
    · have hone : walksLeft F p' b + 1 = walksLeft F p b := by
        unfold walksLeft
        rw [hw.visits, p.count_visits_self]
        by_cases hfix : F.fixed b = true
        · have hv : p.visits b = 0 := by
            by_contra hne
            exact hold ⟨hfix, hne⟩
          rw [if_pos hfix, if_pos hfix, hv, if_neg (by omega), if_pos rfl]
        · have hle := h.visits b (by simpa using hfix)
          have hne : p.visits b ≠ F.cap + 1 := fun heq => by
            have hsat := h.capped b (by simpa using hfix) heq
            rw [hw.unsaturated] at hsat
            cases hsat
          rw [if_neg hfix, if_neg hfix]
          omega
      have hsum : ∑ k ∈ B, walksLeft F p' k + 1 = ∑ k ∈ B, walksLeft F p k := by
        have hrest : ∑ k ∈ B.erase b, walksLeft F p' k = ∑ k ∈ B.erase b, walksLeft F p k :=
          sum_congr rfl fun k hk => hothers k (ne_of_mem_erase hk)
        rw [← add_sum_erase B (fun k => walksLeft F p' k) hbB,
          ← add_sum_erase B (fun k => walksLeft F p k) hbB, hrest, ← hone]
        omega
      have hlen := hw.length
      have hcard := length_out_le hout b s
      unfold stepsLeft
      rw [← hsum, hq, length_cons, mul_add, mul_one]
      omega

end Termination

structure Finished (F : Flow K S R) (B : Finset K) (roots : List K) (p : Progress K S R)
    (last : K → Option S) : Prop where
  covered : Covered F p last
  bounded : Bounded F B p
  queue : p.queue = []
  roots : ∀ b ∈ roots, last b = some F.empty

section Runs

variable {F : Flow K S R} {p : Progress K S R} {last : K → Option S} {B : Finset K} {roots : List K}

theorem run_finished_of_none (hroots : ∀ b ∈ roots, F.fixed b = true) (hstep : F.step p = none)
    (hcov : Covered F p last) (hbound : Bounded F B p)
    (hwait : ∀ b ∈ roots, b ∈ p.queue ∨ (last b).isSome) (fuel : ℕ) :
    ∃ q last', F.run fuel p = some q ∧ Finished F B roots q last' := by
  have hq := queue_of_step_none hstep
  refine ⟨p, last, by cases fuel <;> rw [Flow.run, hstep], hcov, hbound, hq, fun b hb => ?_⟩
  rcases hwait b hb with h | h
  · rw [hq] at h
    cases h
  · obtain ⟨s, hs⟩ := Option.isSome_iff_exists.mp h
    rw [hs, hcov.fixed b s (hroots b hb) hs]

theorem run_finished (hout : ∀ b s, ∀ e ∈ F.out b s, e.1 ∈ B)
    (hroots : ∀ b ∈ roots, F.fixed b = true) {fuel : ℕ} (hfuel : stepsLeft F B p ≤ fuel)
    (hcov : Covered F p last) (hbound : Bounded F B p)
    (hwait : ∀ b ∈ roots, b ∈ p.queue ∨ (last b).isSome) :
    ∃ q last', F.run fuel p = some q ∧ Finished F B roots q last' := by
  induction fuel generalizing p last with
  | zero =>
    cases hstep : F.step p with
    | none => exact run_finished_of_none hroots hstep hcov hbound hwait _
    | some p' =>
      have hlt := step_stepsLeft hout hstep hcov hbound
      omega
  | succ fuel ih =>
    cases hstep : F.step p with
    | none => exact run_finished_of_none hroots hstep hcov hbound hwait _
    | some p' =>
      have hlt := step_stepsLeft hout hstep hcov hbound
      obtain ⟨last', hcov', hkeep, hfixed⟩ := step_covered hstep hcov
      have hwait' : ∀ b ∈ roots, b ∈ p'.queue ∨ (last' b).isSome := by
        intro b hb
        rcases hwait b hb with h | h
        · exact hfixed b (hroots b hb) h
        · exact .inr (hkeep b h)
      obtain ⟨q, last'', hrun, hfin⟩ := ih (by omega) hcov' (step_bounded hout hstep hbound) hwait'
      exact ⟨q, last'', by rw [Flow.run, hstep]; exact hrun, hfin⟩

theorem run_init (hout : ∀ b s, ∀ e ∈ F.out b s, e.1 ∈ B)
    (hroots : ∀ b ∈ roots, F.fixed b = true ∧ b ∈ B) :
    ∃ fuel q last', F.run fuel (Flow.init roots) = some q ∧ Finished F B roots q last' := by
  have hbound : Bounded F B (Flow.init roots : Progress K S R) :=
    ⟨fun b hb => (hroots b hb).2, fun _ _ => Nat.zero_le _, fun _ _ h => by cases h⟩
  exact ⟨stepsLeft F B (Flow.init roots), run_finished hout (fun b hb => (hroots b hb).1)
    (le_refl _) (init_covered F roots) hbound fun b hb => .inl hb⟩

end Runs

/-- What each state describes: a join describes what either state does, the empty state
everything. -/
structure Describes (F : Flow K S R) (γ : S → Set C) : Prop where
  join_left : ∀ s t, γ s ⊆ γ (F.join s t)
  join_right : ∀ s t, γ t ⊆ γ (F.join s t)
  empty : ∀ c, c ∈ γ F.empty

section Describing

variable {F : Flow K S R} {γ : S → Set C} {p : Progress K S R} {last : K → Option S}
  {B : Finset K} {roots : List K}

omit [LinearOrder K] [DecidableEq S] in
theorem Describes.foldl (h : Describes F γ) (s : S) (ss : List S) :
    ∀ t ∈ s :: ss, γ t ⊆ γ (ss.foldl F.join s) := by
  induction ss generalizing s with
  | nil =>
    intro t ht
    rw [mem_singleton.mp ht]
    exact subset_rfl
  | cons s' ss ih =>
    intro t ht
    rw [List.foldl_cons]
    have hfirst := ih (F.join s s') (F.join s s') mem_cons_self
    rcases List.mem_cons.mp ht with rfl | ht
    · exact (h.join_left t s').trans hfirst
    · rcases List.mem_cons.mp ht with rfl | ht
      · exact (h.join_right s t).trans hfirst
      · exact ih (F.join s s') t (mem_cons_of_mem _ ht)

omit [LinearOrder K] [DecidableEq S] in
theorem Describes.joinAll (h : Describes F γ) {ss : List S} {s t : S}
    (hs : F.joinAll ss = some s) (ht : t ∈ ss) : γ t ⊆ γ s := by
  cases ss with
  | nil => cases ht
  | cons s' ss =>
    rw [Flow.joinAll, some.injEq] at hs
    exact hs ▸ h.foldl s' ss t ht

omit [DecidableEq S] in
theorem Finished.postfixpoint (h : Finished F B roots p last) (hγ : Describes F γ) {b : K} {s : S}
    (hlast : last b = some s) {e : K × S} (he : e ∈ F.out b s) :
    ∃ s', last e.1 = some s' ∧ γ e.2 ⊆ γ s' := by
  have hsent := h.covered.sent b s hlast e he
  have hmem := mem_of_lookup hsent
  have hne : p.incoming e.1 ≠ [] := List.ne_nil_of_mem hmem
  obtain ⟨s', hs', hfrom⟩ := h.covered.received e.1 (by rw [h.queue]; exact List.not_mem_nil) hne
  refine ⟨s', hs', ?_⟩
  rcases hfrom with rfl | hjoin
  · exact fun c _ => hγ.empty c
  · exact hγ.joinAll hjoin (mem_map.mpr ⟨(b, e.2), hmem, rfl⟩)

end Describing

/-- The flows do the same to a set of blocks that no walk of theirs leaves. -/
structure Agree (F F' : Flow K S R) (live : Set K) : Prop where
  join : F.join = F'.join
  empty : F.empty = F'.empty
  cap : F.cap = F'.cap
  fixed : ∀ b ∈ live, F.fixed b = F'.fixed b
  out : ∀ b ∈ live, ∀ s, F.out b s = F'.out b s
  record : ∀ b ∈ live, ∀ s, F.record b s = F'.record b s
  closed : ∀ b ∈ live, ∀ s, ∀ e ∈ F.out b s, e.1 ∈ live

section Agreeing

variable {F F' : Flow K S R} {live : Set K} {p p' : Progress K S R}

omit [LinearOrder K] [DecidableEq S] in
theorem Agree.start (h : Agree F F' live) {b : K} (hb : b ∈ live) (v : ℕ) :
    F.start p b v = F'.start p b v := by
  have hjoin : ∀ ss, F.joinAll ss = F'.joinAll ss := by
    intro ss
    cases ss with
    | nil => rfl
    | cons s ss =>
      unfold Flow.joinAll
      rw [h.join]
  unfold Flow.start
  rw [h.fixed b hb, h.empty, h.cap, hjoin]

variable (h : Agree F F' live)

include h

theorem Agree.visit {b : K} (hb : b ∈ live) : F.visit b p = F'.visit b p := by
  have hsat : F.saturates b (p.visits b + 1) = F'.saturates b (p.visits b + 1) := by
    unfold Flow.saturates
    rw [h.fixed b hb, h.cap]
  have hstart := h.start (p := p) hb (p.visits b + 1)
  cases hs : F.start p b (p.visits b + 1) with
  | none => rw [visit_of_start_none hs, visit_of_start_none (hstart ▸ hs)]
  | some s =>
    rw [visit_of_start_some hs, visit_of_start_some (hstart ▸ hs), hsat]
    unfold Flow.walk
    rw [h.out b hb s, h.record b hb s]

theorem Agree.step (hq : ∀ b ∈ p.queue, b ∈ live) : F.step p = F'.step p := by
  cases hqueue : p.queue with
  | nil => rw [step_of_nil hqueue, step_of_nil hqueue]
  | cons b rest =>
    have hb : b ∈ live := hq b (hqueue ▸ mem_cons_self)
    rw [step_of_queue hqueue, step_of_queue hqueue, h.visit hb]

theorem Agree.queue_step (hq : ∀ b ∈ p.queue, b ∈ live)
    (hstep : F.step p = some p') : ∀ b ∈ p'.queue, b ∈ live := by
  obtain ⟨b, rest, hqueue, hcases⟩ := step_cases hstep
  have hrest : ∀ k ∈ rest, k ∈ live := fun k hk => hq k (hqueue ▸ mem_cons_of_mem _ hk)
  rcases hcases with ⟨-, rfl⟩ | ⟨-, -, -, -, rfl⟩ | ⟨s, hw⟩
  · exact hrest
  · exact hrest
  · intro k hk
    rcases hw.queue k hk with hk | hk
    · exact hrest k hk
    · obtain ⟨e, he, rfl⟩ := mem_map.mp hk
      exact h.closed b (hq b (hqueue ▸ mem_cons_self)) s e he

theorem Agree.run (fuel : ℕ) (hq : ∀ b ∈ p.queue, b ∈ live) : F.run fuel p = F'.run fuel p := by
  induction fuel generalizing p with
  | zero =>
    unfold Flow.run
    rw [h.step hq]
  | succ fuel ih =>
    unfold Flow.run
    rw [← h.step hq]
    cases hstep : F.step p with
    | none => rfl
    | some p' => exact ih (h.queue_step hq hstep)

end Agreeing

end EdgeFlow
