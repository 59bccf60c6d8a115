import Reargo.NoReturnFlow
import Reargo.Questions

/-!
# Does the function at an address never return?

The search of one function's code and the recursion over the functions it calls. The
search asks about the calls on its way; the recursion answers within a depth, refuses a
function already on its stack, and keeps its verdicts in a memo.
-/
namespace NoReturnSearch

open PcodeModel NoReturnFlow Questions List
open Option (some.inj)

/-- Most instructions lifted per function looked into. -/
def maxInsns : ℕ := 1024

/-- Call levels followed below the function asked about. -/
def maxDepth : ℕ := 6

/-- Instructions lifted at a time. -/
def chunk : ℕ := 24

def indexOf (insns : List Flow) (addr : U64) : Option ℕ :=
  insns.findIdx? fun f => f.address = addr

/-- Up to so many instructions from `addr` on, as far as they can be lifted and are new. -/
def extend (cm : CodeMap) : ℕ → U64 → List Flow → List Flow
  | 0, _, insns => insns
  | n + 1, addr, insns =>
    match cm.flow addr with
    | none => insns
    | some f =>
      if (indexOf insns f.address).isSome then insns
      else extend cm n f.next (insns ++ [f])

/-- The instruction at `addr`, lifting from there when it is not lifted yet; nothing when it
cannot be lifted or the budget is spent. -/
def codeAt (cm : CodeMap) (insns : List Flow) (addr : U64) : Option ℕ × List Flow :=
  match indexOf insns addr with
  | some i => (some i, insns)
  | none =>
    if maxInsns ≤ insns.length then (none, insns)
    else (indexOf (extend cm chunk addr insns) addr, extend cm chunk addr insns)

inductive Item where
  | insn (i : ℕ)
  /-- A direct call, and the address after it. -/
  | call (target fall : U64)
  deriving DecidableEq

/-- The positions visited, the instructions lifted and what is left to look at. -/
structure State where
  seen : List ℕ
  insns : List Flow
  queue : List Item

/-- Whether control falls through, where it branches to and the calls, after one more event;
nothing when control leaves. -/
def scanEvent (named : U64 → Bool) (next : U64) (acc : Bool × List U64 × List Item) :
    Event → Option (Bool × List U64 × List Item)
  | .exit => none
  | .branch uncond target => some (acc.1 && !uncond, acc.2.1 ++ target.toList, acc.2.2)
  | .call t => some (false, acc.2.1, if named t then acc.2.2 else acc.2.2 ++ [.call t next])

/-- Each target's instruction to the front of the queue; nothing when one has none. -/
def pushTargets (cm : CodeMap) (named : U64 → Bool) :
    List U64 → List Flow → List Item → Option (List Flow × List Item)
  | [], insns, queue => some (insns, queue)
  | t :: ts, insns, queue =>
    if named t then pushTargets cm named ts insns queue
    else
      match codeAt cm insns t with
      | (some j, insns') => pushTargets cm named ts insns' (.insn j :: queue)
      | (none, _) => none

def visit (cm : CodeMap) (named : U64 → Bool) (f : Flow) (insns : List Flow)
    (queue : List Item) : Option (List Flow × List Item) :=
  if f.trap then some (insns, queue)
  else
    match f.events.foldlM (scanEvent named f.next) (true, [], []) with
    | none => none
    | some (falls, targets, calls) =>
      pushTargets cm named (targets ++ if falls then [f.next] else []) insns (queue ++ calls)

/-- What the front of the queue comes to. -/
inductive Pick where
  | done
  | leaves
  | visit (i : ℕ) (insns : List Flow) (queue : List Item)

/-- Up to the next instruction not visited yet; a call is passed unless it never returns. -/
def pick (cm : CodeMap) (seen : List ℕ) : List Item → List Flow → Asks U64 Bool Pick
  | [], _ => .pure .done
  | .insn i :: queue, insns =>
    if i ∈ seen then pick cm seen queue insns else .pure (.visit i insns queue)
  | .call target fall :: queue, insns =>
    .ask target fun stops => if stops then pick cm seen queue insns
      else
        match codeAt cm insns fall with
        | (none, _) => .pure .leaves
        | (some i, insns') =>
          if i ∈ seen then pick cm seen queue insns' else .pure (.visit i insns' queue)

/-- Can control leave the function? Each round visits one more instruction. -/
def search (cm : CodeMap) (named : U64 → Bool) : ℕ → State → Asks U64 Bool Bool
  | 0, _ => .pure true
  | fuel + 1, s =>
    (pick cm s.seen s.queue s.insns).bind fun
      | .done => .pure false
      | .leaves => .pure true
      | .visit i insns queue =>
        match insns[i]? with
        | none => .pure true
        | some f =>
          match visit cm named f insns queue with
          | none => .pure true
          | some (insns', queue') => search cm named fuel ⟨i :: s.seen, insns', queue'⟩

/-- More rounds than instructions can be lifted. -/
def rounds : ℕ := maxInsns + chunk

/-- The search of the function at `target`; nothing when its code cannot be lifted. -/
def searchFrom (cm : CodeMap) (named : U64 → Bool) (target : U64) : Asks U64 Bool (Option Bool) :=
  match codeAt cm [] target with
  | (none, _) => .pure none
  | (some entry, insns) =>
    (search cm named rounds ⟨[], insns, [.insn entry]⟩).bind fun exit => .pure (some exit)

inductive Verdict where
  | noReturn
  | returns
  /-- The search was cut short: treated as `returns`. -/
  | unsure
  deriving DecidableEq, Repr

def Verdict.stops : Verdict → Bool
  | .noReturn => true
  | _ => false

/-- The verdicts of one question, each with the depth it was found at. -/
abbrev Memo := U64 → Option (Verdict × ℕ)

def hit (memo : Memo) (target : U64) (depth : ℕ) : Option Verdict :=
  match memo target with
  | some (v, d) => if v ≠ .unsure ∨ depth ≤ d then some v else none
  | none => none

def outcome : Option Bool → Bool → Verdict
  | none, _ => .returns
  | some false, _ => .noReturn
  | some true, false => .returns
  | some true, true => .unsure

def isUnsure (calls : List (U64 × Verdict)) : Bool :=
  calls.any fun e => e.2 = .unsure

def analyze (cm : CodeMap) (named : U64 → Bool) (ask : U64 → Memo → Verdict × Memo)
    (target : U64) (memo : Memo) : Verdict × Memo :=
  let (exit, memo', calls) := run ask Verdict.stops (searchFrom cm named target) memo
  (outcome exit (isUnsure calls), memo')

/-- A verdict that needs no search. -/
def known (named : U64 → Bool) (depth : ℕ) (stack : List U64) (target : U64) (memo : Memo) :
    Option Verdict :=
  if named target then some .noReturn
  else
    match hit memo target depth with
    | some v => some v
    | none => if depth = 0 ∨ target ∈ stack then some .unsure else none

def remember (memo : Memo) (target : U64) (v : Verdict) (depth : ℕ) : Memo :=
  Function.update memo target (some (v, depth))

def verdict (cm : CodeMap) (named : U64 → Bool) : ℕ → List U64 → U64 → Memo → Verdict × Memo
  | 0, stack, target, memo => ((known named 0 stack target memo).getD .unsure, memo)
  | depth + 1, stack, target, memo =>
    match known named (depth + 1) stack target memo with
    | some v => (v, memo)
    | none =>
      let (v, memo') := analyze cm named (verdict cm named depth (target :: stack)) target memo
      (v, remember memo' target v (depth + 1))

/-- Each question is answered by a search from scratch. -/
def isNoreturn (cm : CodeMap) (named : U64 → Bool) (target : U64) : Bool :=
  named target || (verdict cm named maxDepth [] target fun _ => none).1 = .noReturn

/-- The instructions lifted are the code's, within the budget. -/
structure Lifted (cm : CodeMap) (insns : List Flow) : Prop where
  flow : ∀ f ∈ insns, cm.flow f.address = some f
  length : insns.length < rounds

variable {i : ℕ}

theorem indexOf_some {insns : List Flow} {addr : U64} (h : indexOf insns addr = some i) :
    ∃ f, insns[i]? = some f ∧ f.address = addr := by
  obtain ⟨hlt, heq, -⟩ := findIdx?_eq_some_iff_getElem.mp h
  exact ⟨insns[i], getElem?_eq_getElem hlt, of_decide_eq_true heq⟩

theorem extend_spec (cm : CodeMap) (n : ℕ) (addr : U64) {insns : List Flow}
    (h : ∀ f ∈ insns, cm.flow f.address = some f) :
    insns <+: extend cm n addr insns ∧ (extend cm n addr insns).length ≤ insns.length + n ∧
      ∀ f ∈ extend cm n addr insns, cm.flow f.address = some f := by
  induction n generalizing addr insns with
  | zero => exact ⟨prefix_rfl, le_refl _, h⟩
  | succ n ih =>
    unfold extend
    cases hflow : cm.flow addr with
    | none => exact ⟨prefix_rfl, Nat.le_add_right _ _, h⟩
    | some f =>
      simp only
      split
      · exact ⟨prefix_rfl, Nat.le_add_right _ _, h⟩
      · have hcode : ∀ g ∈ insns ++ [f], cm.flow g.address = some g := by
          intro g hg
          rcases mem_append.mp hg with hg | hg
          · exact h g hg
          · obtain rfl := mem_singleton.mp hg
            rw [cm.address addr g hflow]
            exact hflow
        obtain ⟨hpre, hlen, hall⟩ := ih f.next hcode
        refine ⟨(prefix_append insns [f]).trans hpre, ?_, hall⟩
        rw [length_append, length_singleton] at hlen
        omega

variable {insns insns' : List Flow}

variable {cm : CodeMap} {f : Flow}

theorem codeAt_spec {addr : U64} {r : Option ℕ}
    (hl : Lifted cm insns) (h : codeAt cm insns addr = (r, insns')) :
    insns <+: insns' ∧ Lifted cm insns' ∧
      ∀ i, r = some i → ∃ f, insns'[i]? = some f ∧ f.address = addr := by
  unfold codeAt at h
  cases hindex : indexOf insns addr with
  | some i =>
    rw [hindex] at h
    obtain ⟨rfl, rfl⟩ := Prod.mk.inj h
    refine ⟨prefix_rfl, hl, fun j hj => ?_⟩
    obtain rfl := some.inj hj
    exact indexOf_some hindex
  | none =>
    rw [hindex] at h
    simp only at h
    split at h
    · obtain ⟨rfl, rfl⟩ := Prod.mk.inj h
      exact ⟨prefix_rfl, hl, fun i hi => by cases hi⟩
    · next hroom =>
      obtain ⟨rfl, rfl⟩ := Prod.mk.inj h
      obtain ⟨hpre, hlen, hall⟩ := extend_spec cm chunk addr hl.flow
      refine ⟨hpre, ⟨hall, ?_⟩, fun i hi => indexOf_some hi⟩
      unfold rounds
      omega

theorem lt_of_getElem? {insns : List Flow} (h : insns[i]? = some f) : i < insns.length :=
  (List.getElem?_eq_some_iff.mp h).1

theorem getElem?_of_prefix (hpre : insns <+: insns') (h : insns[i]? = some f) :
    insns'[i]? = some f := by
  obtain ⟨rest, rfl⟩ := hpre
  exact (List.getElem?_append_left (lt_of_getElem? h)).trans h

variable {queue queue' : List Item}

variable {named : U64 → Bool} {events : List Event}

theorem pushTargets_spec (targets : List U64) (hl : Lifted cm insns)
    (h : pushTargets cm named targets insns queue = some (insns', queue')) :
    insns <+: insns' ∧ Lifted cm insns' ∧ (∀ item ∈ queue, item ∈ queue') ∧
      (∀ i, .insn i ∈ queue' → .insn i ∈ queue ∨ i < insns'.length) ∧
      ∀ t ∈ targets, named t = true ∨
        ∃ i f, insns'[i]? = some f ∧ f.address = t ∧ .insn i ∈ queue' := by
  induction targets generalizing insns queue with
  | nil =>
    obtain ⟨rfl, rfl⟩ := Prod.mk.inj (some.inj h)
    exact ⟨prefix_rfl, hl, fun _ hi => hi, fun _ hi => .inl hi, fun t ht => absurd ht not_mem_nil⟩
  | cons t ts ih =>
    unfold pushTargets at h
    split at h
    · next hnamed =>
      obtain ⟨hpre, hl', hkeep, hnew, hts⟩ := ih hl h
      refine ⟨hpre, hl', hkeep, hnew, fun t' ht' => ?_⟩
      rcases mem_cons.mp ht' with rfl | ht'
      · exact .inl hnamed
      · exact hts t' ht'
    · cases hcode : codeAt cm insns t with
      | mk r lifted =>
        rw [hcode] at h
        obtain ⟨hpre, hl₁, hfound⟩ := codeAt_spec hl hcode
        cases r with
        | none => cases h
        | some j =>
          obtain ⟨f, hf, haddr⟩ := hfound j rfl
          obtain ⟨hpre', hl', hkeep, hnew, hts⟩ := ih hl₁ h
          have hf' := getElem?_of_prefix hpre' hf
          refine ⟨hpre.trans hpre', hl', fun item hi => hkeep item (mem_cons_of_mem _ hi),
            fun i hi => ?_, fun t' ht' => ?_⟩
          · rcases hnew i hi with hi | hi
            · rcases mem_cons.mp hi with heq | hi
              · cases heq
                exact .inr (lt_of_getElem? hf')
              · exact .inl hi
            · exact .inr hi
          · rcases mem_cons.mp ht' with rfl | ht'
            · exact .inr ⟨j, f, hf', haddr, hkeep _ mem_cons_self⟩
            · exact hts t' ht'

structure Scanned (named : U64 → Bool) (next : U64) (events : List Event) (falls : Bool)
    (targets : List U64) (calls : List Item) : Prop where
  exit : .exit ∉ events
  branch : ∀ uncond t, .branch uncond (some t) ∈ events → t ∈ targets
  call : ∀ t, .call t ∈ events → named t = true ∨ .call t next ∈ calls
  falls : (∀ e ∈ events, ∃ target, e = .branch false target) → falls = true
  noInsn : ∀ i, .insn i ∉ calls

theorem scanEvent_spec {next : U64} {e : Event} {falls falls' : Bool} {targets targets' : List U64}
    {calls calls' : List Item} (h : Scanned named next events falls targets calls)
    (hs : scanEvent named next (falls, targets, calls) e = some (falls', targets', calls')) :
    Scanned named next (events ++ [e]) falls' targets' calls' := by
  have hsnoc : ∀ {e' : Event}, e' ∈ events ++ [e] → e' ∈ events ∨ e' = e := by
    intro e' he'
    rcases mem_append.mp he' with he' | he'
    · exact .inl he'
    · exact .inr (mem_singleton.mp he')
  have hbefore : (∀ e' ∈ events ++ [e], ∃ target, e' = .branch false target) → falls = true :=
    fun hall => h.falls fun e' he' => hall e' (mem_append_left _ he')
  cases e with
  | exit => cases hs
  | branch uncond target =>
    obtain ⟨rfl, hrest⟩ := Prod.mk.inj (some.inj hs)
    obtain ⟨rfl, rfl⟩ := Prod.mk.inj hrest
    refine ⟨fun he => ?_, fun u t he => ?_, fun t he => ?_, fun hall => ?_, h.noInsn⟩
    · rcases hsnoc he with he | he
      · exact h.exit he
      · cases he
    · rcases hsnoc he with he | he
      · exact mem_append_left _ (h.branch u t he)
      · cases he
        exact mem_append_right _ (mem_singleton.mpr rfl)
    · rcases hsnoc he with he | he
      · exact h.call t he
      · cases he
    · obtain ⟨target', heq⟩ := hall _ (mem_append_right _ (mem_singleton.mpr rfl))
      cases heq
      simp [hbefore hall]
  | call t =>
    obtain ⟨rfl, hrest⟩ := Prod.mk.inj (some.inj hs)
    obtain ⟨rfl, rfl⟩ := Prod.mk.inj hrest
    refine ⟨fun he => ?_, fun u t' he => ?_, fun t' he => ?_, fun hall => ?_, fun i hi => ?_⟩
    · rcases hsnoc he with he | he
      · exact h.exit he
      · cases he
    · rcases hsnoc he with he | he
      · exact h.branch u t' he
      · cases he
    · by_cases hnamed : named t = true
      · rw [if_pos hnamed]
        rcases hsnoc he with he | he
        · exact h.call t' he
        · cases he
          exact .inl hnamed
      · rw [if_neg hnamed]
        rcases hsnoc he with he | he
        · exact (h.call t' he).imp_right (mem_append_left _)
        · cases he
          exact .inr (mem_append_right _ (mem_singleton.mpr rfl))
    · obtain ⟨target, heq⟩ := hall _ (mem_append_right _ (mem_singleton.mpr rfl))
      cases heq
    · by_cases hnamed : named t = true
      · rw [if_pos hnamed] at hi
        exact h.noInsn i hi
      · rw [if_neg hnamed] at hi
        rcases mem_append.mp hi with hi | hi
        · exact h.noInsn i hi
        · cases mem_singleton.mp hi

theorem scanEvents_spec {next : U64} (rest : List Event) {acc acc' : Bool × List U64 × List Item}
    (h : Scanned named next events acc.1 acc.2.1 acc.2.2)
    (hs : rest.foldlM (scanEvent named next) acc = some acc') :
    Scanned named next (events ++ rest) acc'.1 acc'.2.1 acc'.2.2 := by
  induction rest generalizing events acc with
  | nil =>
    obtain rfl := some.inj hs
    rw [append_nil]
    exact h
  | cons e rest ih =>
    rw [foldlM_cons] at hs
    obtain ⟨mid, hmid, hend⟩ := Option.bind_eq_some_iff.mp hs
    have hnext := ih (scanEvent_spec h hmid) hend
    rw [append_assoc] at hnext
    exact hnext

theorem scanned_start (named : U64 → Bool) (next : U64) : Scanned named next [] true [] [] :=
  ⟨not_mem_nil, fun _ _ h => absurd h not_mem_nil,
    fun _ h => absurd h not_mem_nil, fun _ => rfl, fun _ => not_mem_nil⟩

theorem visit_spec (hl : Lifted cm insns)
    (h : visit cm named f insns queue = some (insns', queue')) :
    insns <+: insns' ∧ Lifted cm insns' ∧ (∀ item ∈ queue, item ∈ queue') ∧
      (∀ i, .insn i ∈ queue' → .insn i ∈ queue ∨ i < insns'.length) ∧
      (f.trap = true ∨ ∃ falls targets calls,
        Scanned named f.next f.events falls targets calls ∧ (∀ item ∈ calls, item ∈ queue') ∧
          ∀ t ∈ targets ++ (if falls then [f.next] else []), named t = true ∨
            ∃ i g, insns'[i]? = some g ∧ g.address = t ∧ .insn i ∈ queue') := by
  unfold visit at h
  split at h
  · next htrap =>
    obtain ⟨rfl, rfl⟩ := Prod.mk.inj (some.inj h)
    exact ⟨prefix_rfl, hl, fun _ hi => hi, fun _ hi => .inl hi, .inl htrap⟩
  · cases hscan : f.events.foldlM (scanEvent named f.next) (true, [], []) with
    | none =>
      rw [hscan] at h
      cases h
    | some acc =>
      obtain ⟨falls, targets, calls⟩ := acc
      rw [hscan] at h
      have hs := scanEvents_spec f.events (scanned_start named f.next) hscan
      obtain ⟨hpre, hl', hkeep, hnew, hts⟩ := pushTargets_spec _ hl h
      refine ⟨hpre, hl', fun item hi => hkeep item (mem_append_left _ hi), fun i hi => ?_,
        .inr ⟨falls, targets, calls, hs, fun item hi => hkeep item (mem_append_right _ hi), hts⟩⟩
      rcases hnew i hi with hi | hi
      · rcases mem_append.mp hi with hi | hi
        · exact .inl hi
        · exact absurd hi (hs.noInsn i)
      · exact .inr hi

end NoReturnSearch
