import Reargo.SsaModel
import Reargo.Spreading

/-!
# Dead-code elimination

One sweep over the operations in order, then a queue of definitions that lost a reader: an
operation whose output no live operation reads dies. When a phi survives, a second phase marks
what the operations with effects need and drops the rest.
-/
namespace DeadCode

open PcodeModel SsaModel Worklist Spreading List
open Option (getD_some some.inj)
open Bool hiding false_and not_and or_comm true_or false_or

def isSideEffecting : OpCode → Bool
  | .call | .callInd | .callOther | .store | .return | .branch | .cBranch | .branchInd => true
  | _ => false

def candidate (o : SsaOp) : Bool := !o.dead && o.output.isSome && !isSideEffecting o.opcode

def kill (func : SsaFunction) (i : ℕ) : SsaFunction :=
  func.setOp i { func.op i with dead := true }

structure Sweep where
  func : SsaFunction
  onQueue : List Bool
  /-- The part not taken yet. -/
  queue : List ℕ
  removed : ℕ
  sweep : ℕ
  roots : List ℕ
  livePhis : ℕ
  deadBefore : ℕ

def hasLiveUse (func : SsaFunction) (out : ℕ) : Bool :=
  (func.var out).uses.any fun u => !(func.op u).dead

/-- The definition of an input is queued again, unless the sweep still comes to it. -/
def requeue (func : SsaFunction) (sweep : ℕ) (q : List ℕ × List Bool) (inp : ℕ) :
    List ℕ × List Bool :=
  match (func.var inp).defOp with
  | some d =>
    if candidate (func.op d) ∧ d < sweep ∧ q.2.getD d false = false then
      (q.1 ++ [d], q.2.set d true)
    else q
  | none => q

def phiCount (o : SsaOp) : ℕ := if o.opcode = .multiEqual then 1 else 0

def visit (st : Sweep) (i : ℕ) : Sweep :=
  if hasLiveUse st.func ((st.func.op i).output.getD 0) then st
  else
    let func := kill st.func i
    let q := (func.op i).inputs.foldl (requeue func st.sweep) (st.queue, st.onQueue)
    { st with
      func := func
      queue := q.1
      onQueue := q.2
      removed := st.removed + 1
      livePhis := st.livePhis - phiCount (func.op i) }

def step (st : Sweep) : Option Sweep :=
  if st.sweep < st.func.ops.length then
    let i := st.sweep
    let o := st.func.op i
    let st := { st with sweep := i + 1 }
    if candidate o then some (visit { st with livePhis := st.livePhis + phiCount o } i)
    else if o.dead then some { st with deadBefore := st.deadBefore + 1 }
    else some { st with roots := st.roots ++ [i] }
  else
    match st.queue with
    | [] => none
    | i :: rest =>
      let st := { st with queue := rest, onQueue := st.onQueue.set i false }
      if (st.func.op i).dead then some st else some (visit st i)

def runSweep : ℕ → Sweep → Sweep
  | 0, st => st
  | fuel + 1, st =>
    match step st with
    | none => st
    | some st' => runSweep fuel st'

def startSweep (func : SsaFunction) : Sweep :=
  ⟨func, List.replicate func.ops.length false, [], 0, 0, [], 0, 0⟩

def liveInputs (func : SsaFunction) : ℕ :=
  ∑ i ∈ Finset.range func.ops.length, if (func.op i).dead then 0 else (func.op i).inputs.length

/-- Every operation once, and again for each input of an operation that dies. -/
def sweepBound (func : SsaFunction) : ℕ := func.ops.length + liveInputs func + 1

/-- The live definitions of the inputs. -/
def neededOps (func : SsaFunction) (i : ℕ) : List ℕ :=
  ((func.op i).inputs.filterMap fun v => (func.var v).defOp).filter fun d =>
    d < func.ops.length ∧ (func.op d).dead = false

/-- Each operation is marked once, when it is counted. -/
def markNeeded (func : SsaFunction) (roots : List ℕ) : List Bool :=
  (spread (neededOps func) (func.ops.length + roots.length)
    (markAll func.ops.length roots, roots.reverse)).1

def dropUnmarked (live : List Bool) (st : SsaFunction × ℕ) (i : ℕ) : SsaFunction × ℕ :=
  if marked live i = false ∧ (st.1.op i).dead = false then (kill st.1 i, st.2 + 1) else st

def dropPhase (st : Sweep) : SsaFunction × ℕ :=
  let n := st.func.ops.length
  let live := markNeeded st.func st.roots
  if live.count true < n - st.deadBefore - st.removed then
    (List.range n).foldl (dropUnmarked live) (st.func, st.removed)
  else (st.func, st.removed)

def deadCodeElimination (func : SsaFunction) : SsaFunction × ℕ :=
  let func := { func with phantomWrites := [] }
  let st := runSweep (sweepBound func) (startSweep func)
  if 0 < st.livePhis then dropPhase st else (st.func, st.removed)

variable {i : ℕ} {func : SsaFunction}

theorem op_kill (hi : i < func.ops.length) (j : ℕ) :
    (kill func i).op j = if j = i then { func.op i with dead := true } else func.op j :=
  func.op_setOp hi _ j

@[simp] theorem length_kill (func : SsaFunction) (i : ℕ) :
    (kill func i).ops.length = func.ops.length := by
  unfold kill SsaFunction.setOp
  exact length_set

structure Thins (f₀ f : SsaFunction) : Prop where
  length : f.ops.length = f₀.ops.length
  op : ∀ i, f.op i = { f₀.op i with dead := (f.op i).dead }
  varnodes : f.varnodes = f₀.varnodes
  mono : ∀ i, (f₀.op i).dead = true → (f.op i).dead = true
  killed : ∀ i, (f.op i).dead = true → (f₀.op i).dead = false → candidate (f₀.op i) = true

variable {f₀ f : SsaFunction}

theorem Thins.refl (f : SsaFunction) : Thins f f :=
  ⟨rfl, fun _ => rfl, rfl, fun _ h => h, fun _ h h' => absurd (h.symm.trans h') (by decide)⟩

section Thins

variable (h : Thins f₀ f)
include h

theorem Thins.output (i : ℕ) : (f.op i).output = (f₀.op i).output := by rw [h.op i]

theorem Thins.inputs (i : ℕ) : (f.op i).inputs = (f₀.op i).inputs := by rw [h.op i]

theorem Thins.opcode (i : ℕ) : (f.op i).opcode = (f₀.op i).opcode := by rw [h.op i]

theorem Thins.var (v : ℕ) : f.var v = f₀.var v := by
  unfold SsaFunction.var
  rw [h.varnodes]

theorem Thins.lives {i : ℕ} (hi : (f.op i).dead = false) : (f₀.op i).dead = false := by
  cases hd : (f₀.op i).dead with
  | false => rfl
  | true => exact absurd ((h.mono i hd).symm.trans hi) (by decide)

theorem Thins.candidate_iff (i : ℕ) :
    candidate (f.op i) = true ↔ candidate (f₀.op i) = true ∧ (f.op i).dead = false := by
  unfold candidate
  rw [h.output, h.opcode]
  simp only [and_eq_true, not_eq_true']
  constructor
  · rintro ⟨⟨hd, ho⟩, hs⟩
    exact ⟨⟨⟨h.lives hd, ho⟩, hs⟩, hd⟩
  · rintro ⟨⟨⟨-, ho⟩, hs⟩, hd⟩
    exact ⟨⟨hd, ho⟩, hs⟩

theorem Thins.kill {i : ℕ} (hi : i < f.ops.length) (hc : candidate (f.op i) = true) :
    Thins f₀ (kill f i) := by
  constructor
  · exact (length_kill f i).trans h.length
  · intro j
    rw [op_kill hi]
    by_cases hj : j = i
    · subst hj
      rw [if_pos rfl, h.op j]
    · rw [if_neg hj]
      exact h.op j
  · exact h.varnodes
  · intro j hj
    rw [op_kill hi]
    by_cases hji : j = i
    · rw [if_pos hji]
    · rw [if_neg hji]
      exact h.mono j hj
  · intro j hj hlive
    rw [op_kill hi] at hj
    by_cases hji : j = i
    · exact hji ▸ ((h.candidate_iff i).mp hc).1
    · rw [if_neg hji] at hj
      exact h.killed j hj hlive

end Thins

theorem dead_kill (hi : i < f.ops.length) (j : ℕ) :
    ((kill f i).op j).dead = true ↔ j = i ∨ (f.op j).dead = true := by
  rw [op_kill hi]
  by_cases hj : j = i
  · simp only [hj, if_true, true_or]
  · simp only [hj, if_false, false_or]

theorem hasLiveUse_iff (func : SsaFunction) (out : ℕ) :
    hasLiveUse func out = true ↔ ∃ u ∈ (func.var out).uses, (func.op u).dead = false := by
  unfold hasLiveUse
  simp only [any_eq_true, not_eq_true']

/-- What queueing the definitions of some inputs does. -/
structure Requeued (func : SsaFunction) (sweep : ℕ) (ins : List ℕ) (q q' : List ℕ × List Bool) :
    Prop where
  length : q'.2.length = q.2.length
  size : q'.1.length ≤ q.1.length + ins.length
  kept : ∀ d ∈ q.1, d ∈ q'.1
  new : ∀ d ∈ q'.1, d ∈ q.1 ∨ (candidate (func.op d) = true ∧ d < sweep)
  all : ∀ v ∈ ins, ∀ d, (func.var v).defOp = some d → candidate (func.op d) = true → d < sweep →
    q'.2.getD d false = true
  flags : ∀ d, q.2.getD d false = true → q'.2.getD d false = true
  flagged : (∀ d, d < q.2.length → q.2.getD d false = true → d ∈ q.1) →
    ∀ d, d < q.2.length → q'.2.getD d false = true → d ∈ q'.1

theorem getD_set_true {marks : List Bool} {d x : ℕ} : (marks.set d true).getD x false = true ↔
      marks.getD x false = true ∨ (x = d ∧ d < marks.length) := by
  rw [getD_eq_getElem?_getD, getD_eq_getElem?_getD, getElem?_set]
  by_cases hx : d = x
  · subst hx
    by_cases hlt : d < marks.length
    · simp [hlt]
    · simp [hlt]
  · simp [hx, Ne.symm hx]

theorem requeued_foldl (func : SsaFunction) (sweep : ℕ) (ins : List ℕ) (q : List ℕ × List Bool)
    (hlen : sweep ≤ q.2.length) : Requeued func sweep ins q (ins.foldl (requeue func sweep) q) := by
  induction ins generalizing q with
  | nil =>
    refine ⟨rfl, le_refl _, fun d hd => hd, fun d hd => .inl hd, ?_, fun d hd => hd, fun hq => hq⟩
    exact fun v hv => absurd hv not_mem_nil
  | cons v ins ih =>
    rw [foldl_cons]
    -- one input either queues its definition or leaves the queue
    have hone : requeue func sweep q v = q ∧ (∀ d, (func.var v).defOp = some d →
          candidate (func.op d) = true → d < sweep → q.2.getD d false = true) ∨
        ∃ d, requeue func sweep q v = (q.1 ++ [d], q.2.set d true) ∧
          (func.var v).defOp = some d ∧ candidate (func.op d) = true ∧ d < sweep := by
      unfold requeue
      cases hdef : (func.var v).defOp with
      | none => exact .inl ⟨rfl, fun d hd => by cases hd⟩
      | some d =>
        simp only
        by_cases hc : candidate (func.op d) = true ∧ d < sweep ∧ q.2.getD d false = false
        · exact .inr ⟨d, if_pos hc, rfl, hc.1, hc.2.1⟩
        · refine .inl ⟨if_neg hc, ?_⟩
          rintro d' hd' hcd hlt
          obtain rfl := some.inj hd'
          by_contra hflag
          exact hc ⟨hcd, hlt, eq_false_iff.mpr hflag⟩
    rcases hone with ⟨heq, hflag⟩ | ⟨d, heq, hdef, hcand, hlt⟩
    · rw [heq]
      have hrest := ih q hlen
      refine ⟨hrest.length, ?_, hrest.kept, hrest.new, ?_, hrest.flags, hrest.flagged⟩
      · have hsize := hrest.size
        rw [length_cons]
        omega
      · intro w hw d hd hc hds
        rcases mem_cons.mp hw with rfl | hw
        · exact hrest.flags d (hflag d hd hc hds)
        · exact hrest.all w hw d hd hc hds
    · rw [heq]
      have hrest := ih (q.1 ++ [d], q.2.set d true) (by rw [length_set]; exact hlen)
      have hset : (q.2.set d true).getD d false = true := getD_set_true.mpr (.inr ⟨rfl, by omega⟩)
      refine ⟨hrest.length.trans length_set, ?_, ?_, ?_, ?_, ?_, ?_⟩
      · have hsize := hrest.size
        rw [length_append, length_singleton] at hsize
        rw [length_cons]
        omega
      · exact fun x hx => hrest.kept x (mem_append_left _ hx)
      · intro x hx
        rcases hrest.new x hx with hx | hx
        · rcases mem_append.mp hx with hx | hx
          · exact .inl hx
          · rw [mem_singleton.mp hx]
            exact .inr ⟨hcand, hlt⟩
        · exact .inr hx
      · intro w hw x hx hc hxs
        rcases mem_cons.mp hw with rfl | hw
        · obtain rfl := some.inj (hdef.symm.trans hx)
          exact hrest.flags _ hset
        · exact hrest.all w hw x hx hc hxs
      · exact fun x hx => hrest.flags x (getD_set_true.mpr (.inl hx))
      · intro hq x hx
        refine hrest.flagged ?_ x (by rw [length_set]; exact hx)
        intro y hy hflag
        rw [length_set] at hy
        rcases getD_set_true.mp hflag with hflag | ⟨rfl, -⟩
        · exact mem_append_left _ (hq y hy hflag)
        · exact mem_append_right _ mem_cons_self

def deadCount (func : SsaFunction) : ℕ :=
  ((Finset.range func.ops.length).filter fun i => (func.op i).dead = true).card

def phisBelow (func : SsaFunction) (k : ℕ) : ℕ :=
  ∑ i ∈ Finset.range k, if candidate (func.op i) then phiCount (func.op i) else 0

/-- What holds between two steps, for the function `f₀` at the start. -/
structure SweepOk (f₀ : SsaFunction) (st : Sweep) : Prop where
  thins : Thins f₀ st.func
  unread : ∀ i out, (st.func.op i).dead = true → (f₀.op i).dead = false →
    (f₀.op i).output = some out → ∀ u ∈ (f₀.var out).uses, (st.func.op u).dead = true
  count : st.removed + deadCount f₀ = deadCount st.func
  bound : st.sweep ≤ f₀.ops.length
  ahead : ∀ i, st.sweep ≤ i → (st.func.op i).dead = (f₀.op i).dead
  flags : st.onQueue.length = f₀.ops.length
  flagged : ∀ d, d < f₀.ops.length → st.onQueue.getD d false = true → d ∈ st.queue
  queued : ∀ d ∈ st.queue, d < st.sweep ∧ candidate (f₀.op d) = true
  roots : ∀ i, i ∈ st.roots ↔ i < st.sweep ∧ (f₀.op i).dead = false ∧ candidate (f₀.op i) = false
  before : st.deadBefore = ((Finset.range st.sweep).filter fun i => (f₀.op i).dead = true).card
  phis : st.livePhis = phisBelow st.func st.sweep

theorem deadCount_kill (hi : i < f.ops.length) (hlive : (f.op i).dead = false) :
    deadCount (kill f i) = deadCount f + 1 := by
  have hset : ((Finset.range (kill f i).ops.length).filter fun j => ((kill f i).op j).dead = true) =
      insert i ((Finset.range f.ops.length).filter fun j => (f.op j).dead = true) := by
    ext j
    simp only [length_kill, Finset.mem_filter, Finset.mem_range, Finset.mem_insert, dead_kill hi]
    constructor
    · rintro ⟨hj, rfl | hd⟩
      · exact .inl rfl
      · exact .inr ⟨hj, hd⟩
    · rintro (rfl | ⟨hj, hd⟩)
      · exact ⟨hi, .inl rfl⟩
      · exact ⟨hj, .inr hd⟩
  unfold deadCount
  rw [hset, Finset.card_insert_of_notMem]
  rw [Finset.mem_filter, not_and]
  exact fun _ hd => absurd (hd.symm.trans hlive) (by decide)

theorem candidate_kill (hi : i < f.ops.length) (j : ℕ) :
    candidate ((kill f i).op j) = true ↔ j ≠ i ∧ candidate (f.op j) = true := by
  rw [op_kill hi]
  by_cases hj : j = i
  · subst hj
    simp only [if_true, candidate, Bool.not_true, Bool.false_and, false_eq_true, ne_eq,
      not_true_eq_false, false_and]
  · rw [if_neg hj]
    exact (and_iff_right hj).symm

theorem phisBelow_kill {i k : ℕ} (hi : i < f.ops.length) (hik : i < k)
    (hc : candidate (f.op i) = true) :
    phisBelow (kill f i) k + phiCount (f.op i) = phisBelow f k := by
  have hmem : i ∈ Finset.range k := Finset.mem_range.mpr hik
  have hzero : (if candidate ((kill f i).op i) then phiCount ((kill f i).op i) else 0) = 0 := by
    rw [if_neg]
    exact fun h => ((candidate_kill hi i).mp h).1 rfl
  have hrest : ∀ j ∈ (Finset.range k).erase i,
      (if candidate ((kill f i).op j) then phiCount ((kill f i).op j) else 0) =
        if candidate (f.op j) then phiCount (f.op j) else 0 := by
    intro j hj
    rw [op_kill hi, if_neg (Finset.mem_erase.mp hj).1]
  unfold phisBelow
  rw [← Finset.add_sum_erase _ _ hmem, ← Finset.add_sum_erase _ _ hmem, hzero,
    Finset.sum_congr rfl hrest, if_pos hc, zero_add, add_comm]

theorem liveInputs_kill (hi : i < f.ops.length) (hlive : (f.op i).dead = false) :
    liveInputs (kill f i) + (f.op i).inputs.length = liveInputs f := by
  have hmem : i ∈ Finset.range f.ops.length := Finset.mem_range.mpr hi
  have hzero : (if ((kill f i).op i).dead then 0 else ((kill f i).op i).inputs.length) = 0 := by
    rw [if_pos ((dead_kill hi i).mpr (.inl rfl))]
  have hrest : ∀ j ∈ (Finset.range f.ops.length).erase i,
      (if ((kill f i).op j).dead then 0 else ((kill f i).op j).inputs.length) =
        if (f.op j).dead then 0 else (f.op j).inputs.length := by
    intro j hj
    rw [op_kill hi, if_neg (Finset.mem_erase.mp hj).1]
  unfold liveInputs
  rw [length_kill, ← Finset.add_sum_erase _ _ hmem, ← Finset.add_sum_erase _ _ hmem, hzero,
    Finset.sum_congr rfl hrest, hlive]
  simp only [false_eq_true, if_false]
  omega

variable {o : SsaOp}

theorem candidate_live (h : candidate o = true) : o.dead = false := by
  unfold candidate at h
  simp only [and_eq_true, not_eq_true'] at h
  exact h.1.1

theorem candidate_output (h : candidate o = true) : ∃ out, o.output = some out := by
  unfold candidate at h
  simp only [and_eq_true, not_eq_true'] at h
  exact Option.isSome_iff_exists.mp h.1.2

variable {st : Sweep}

theorem SweepOk.dies (h : SweepOk f₀ st) (hi : i < st.sweep) (hc : candidate (st.func.op i) = true)
    (huse : ¬ hasLiveUse st.func ((st.func.op i).output.getD 0) = true) :
    SweepOk f₀ (visit st i) ∧ ∀ v ∈ (st.func.op i).inputs, ∀ d, (f₀.var v).defOp = some d → d ≠ i →
        candidate (st.func.op d) = true → d < st.sweep → d ∈ (visit st i).queue := by
  have hlen := h.thins.length
  have hin : i < st.func.ops.length := by
    have hbound := h.bound
    omega
  have hlive := candidate_live hc
  obtain ⟨out, hout⟩ := candidate_output hc
  have hq := requeued_foldl (kill st.func i) st.sweep ((kill st.func i).op i).inputs
    (st.queue, st.onQueue) (by rw [h.flags]; exact h.bound)
  have hins : ((kill st.func i).op i).inputs = (st.func.op i).inputs := by
    rw [op_kill hin, if_pos rfl]
  have hvisit : visit st i = { st with
      func := kill st.func i
      queue := (((kill st.func i).op i).inputs.foldl
        (requeue (kill st.func i) st.sweep) (st.queue, st.onQueue)).1
      onQueue := (((kill st.func i).op i).inputs.foldl
        (requeue (kill st.func i) st.sweep) (st.queue, st.onQueue)).2
      removed := st.removed + 1
      livePhis := st.livePhis - phiCount ((kill st.func i).op i) } := by
    unfold visit
    rw [if_neg huse]
  have hthins := h.thins.kill hin hc
  rw [hvisit]
  refine ⟨⟨hthins, ?_, ?_, h.bound, ?_, ?_, ?_, ?_, h.roots, h.before, ?_⟩, ?_⟩
  · intro j w hj hj₀ hw u hu
    rcases (dead_kill hin j).mp hj with rfl | hj
    · -- no reader of the output lived
      have hwout : w = out := by
        rw [h.thins.output] at hout
        exact some.inj (hw.symm.trans hout)
      refine (dead_kill hin u).mpr (.inr ?_)
      by_contra hu'
      refine huse ((hasLiveUse_iff _ _).mpr ⟨u, ?_, eq_false_iff.mpr hu'⟩)
      rw [hout, getD_some, h.thins.var, ← hwout]
      exact hu
    · exact (dead_kill hin u).mpr (.inr (h.unread j w hj hj₀ hw u hu))
  · have hcount := deadCount_kill hin hlive
    have hold := h.count
    simp only
    omega
  · intro j hj
    have hle : st.sweep ≤ j := hj
    have hji : j ≠ i := by omega
    rw [op_kill hin, if_neg hji]
    exact h.ahead j hle
  · exact hq.length.trans h.flags
  · intro d hd
    exact hq.flagged (fun x hx => h.flagged x (h.flags ▸ hx)) d (by rw [h.flags]; exact hd)
  · intro d hd
    rcases hq.new d hd with hd | ⟨hcd, hds⟩
    · exact h.queued d hd
    · exact ⟨hds, ((hthins.candidate_iff d).mp hcd).1⟩
  · have hphis := phisBelow_kill hin hi hc
    have hcount : phiCount ((kill st.func i).op i) = phiCount (st.func.op i) := by
      rw [op_kill hin, if_pos rfl]
      rfl
    have hold := h.phis
    simp only [hcount]
    omega
  · intro v hv d hdef hdi hcd hds
    have hcd' : candidate ((kill st.func i).op d) = true :=
      (candidate_kill hin d).mpr ⟨hdi, hcd⟩
    have hdef' : ((kill st.func i).var v).defOp = some d := by
      rw [hthins.var]
      exact hdef
    have hflag := hq.all v (hins ▸ hv) d hdef' hcd' hds
    refine hq.flagged (fun x hx => h.flagged x (h.flags ▸ hx)) d ?_ hflag
    rw [h.flags]
    have hbound := h.bound
    omega

theorem SweepOk.visit (h : SweepOk f₀ st) (hi : i < st.sweep)
    (hc : candidate (st.func.op i) = true) : SweepOk f₀ (visit st i) := by
  by_cases huse : hasLiveUse st.func ((st.func.op i).output.getD 0) = true
  · rw [DeadCode.visit, if_pos huse]
    exact h
  · exact (h.dies hi hc huse).1

/-- Steps of the sweep, entries of the queue and entries still to come. -/
def stepsLeft (st : Sweep) : ℕ :=
  (st.func.ops.length - st.sweep) + st.queue.length + liveInputs st.func

theorem stepsLeft_visit_le (h : SweepOk f₀ st) (hi : i < st.sweep)
    (hc : candidate (st.func.op i) = true) : stepsLeft (visit st i) ≤ stepsLeft st := by
  have hin : i < st.func.ops.length := by
    have hbound := h.bound
    have hlen := h.thins.length
    omega
  unfold DeadCode.visit
  split
  · exact le_refl _
  · have hq := requeued_foldl (kill st.func i) st.sweep ((kill st.func i).op i).inputs
      (st.queue, st.onQueue) (by rw [h.flags]; exact h.bound)
    have hins : ((kill st.func i).op i).inputs = (st.func.op i).inputs := by
      rw [op_kill hin, if_pos rfl]
    have hsize := hq.size
    have hlive := liveInputs_kill hin (candidate_live hc)
    simp only [hins] at hsize
    simp only [stepsLeft, length_kill, hins]
    omega

theorem candidate_eq_false (hlive : o.dead = false) :
    candidate o = false ↔ (isSideEffecting o.opcode = true ∨ o.output = none) := by
  unfold candidate
  rw [hlive, Bool.not_false, Bool.true_and, and_eq_false_iff, not_eq_false',
    Option.isSome_eq_false_iff, Option.isNone_iff_eq_none, or_comm]

theorem SweepOk.advance (h : SweepOk f₀ st) (hlt : st.sweep < st.func.ops.length) :
    let o := st.func.op st.sweep
    let st' := { st with sweep := st.sweep + 1 }
    (candidate o = true → SweepOk f₀ { st' with livePhis := st.livePhis + phiCount o }) ∧
      (candidate o = false → o.dead = true →
        SweepOk f₀ { st' with deadBefore := st.deadBefore + 1 }) ∧
      (candidate o = false → o.dead = false →
        SweepOk f₀ { st' with roots := st.roots ++ [st.sweep] }) := by
  have hbound : st.sweep + 1 ≤ f₀.ops.length := by
    have hlen := h.thins.length
    omega
  have hahead : ∀ i, st.sweep + 1 ≤ i → (st.func.op i).dead = (f₀.op i).dead :=
    fun i hi => h.ahead i (by omega)
  have hqueued : ∀ d ∈ st.queue, d < st.sweep + 1 ∧ candidate (f₀.op d) = true := by
    intro d hd
    have hold := h.queued d hd
    exact ⟨by omega, hold.2⟩
  have hsame := h.ahead st.sweep (le_refl _)
  have hcand := h.thins.candidate_iff st.sweep
  have hbelow : ∀ i, i < st.sweep + 1 ↔ i < st.sweep ∨ i = st.sweep := fun i => by omega
  have hphis : phisBelow st.func (st.sweep + 1) = phisBelow st.func st.sweep +
      if candidate (st.func.op st.sweep) then phiCount (st.func.op st.sweep) else 0 :=
    Finset.sum_range_succ _ _
  have hroots : (f₀.op st.sweep).dead = true ∨ candidate (f₀.op st.sweep) = true →
      ∀ i, i ∈ st.roots ↔
        i < st.sweep + 1 ∧ (f₀.op i).dead = false ∧ candidate (f₀.op i) = false := by
    intro hnot i
    rw [h.roots, hbelow]
    constructor
    · exact fun hi => ⟨.inl hi.1, hi.2⟩
    · rintro ⟨hi | rfl, hd, hc⟩
      · exact ⟨hi, hd, hc⟩
      · rw [hd, hc] at hnot
        rcases hnot with hnot | hnot <;> cases hnot
  have hbefore : (f₀.op st.sweep).dead = false →
      ((Finset.range (st.sweep + 1)).filter fun i => (f₀.op i).dead = true).card =
        ((Finset.range st.sweep).filter fun i => (f₀.op i).dead = true).card := by
    intro hd
    rw [Finset.range_add_one, Finset.filter_insert, hd, if_neg Bool.false_ne_true]
  refine ⟨fun hc => ?_, fun hc hd => ?_, fun hc hd => ?_⟩
  · have hlive := h.thins.lives (candidate_live hc)
    refine ⟨h.thins, h.unread, h.count, hbound, hahead, h.flags, h.flagged, hqueued,
      hroots (.inr (hcand.mp hc).1), ?_, ?_⟩
    · exact h.before.trans (hbefore hlive).symm
    · simp only [hphis, hc, if_true, h.phis]
  · have hd₀ : (f₀.op st.sweep).dead = true := hsame.symm.trans hd
    refine ⟨h.thins, h.unread, h.count, hbound, hahead, h.flags, h.flagged, hqueued,
      hroots (.inl hd₀), ?_, ?_⟩
    · have hnot : st.sweep ∉ (Finset.range st.sweep).filter fun i => (f₀.op i).dead = true := by
        rw [Finset.mem_filter, Finset.mem_range]
        exact fun hmem => lt_irrefl _ hmem.1
      simp only [h.before]
      rw [Finset.range_add_one, Finset.filter_insert, hd₀, if_pos rfl,
        Finset.card_insert_of_notMem hnot]
    · simp only [hphis, hc, false_eq_true, if_false, h.phis, add_zero]
  · have hd₀ : (f₀.op st.sweep).dead = false := hsame.symm.trans hd
    have hc₀ : candidate (f₀.op st.sweep) = false := by
      rw [eq_false_iff]
      intro hc'
      rw [hcand.mpr ⟨hc', hd⟩] at hc
      cases hc
    refine ⟨h.thins, h.unread, h.count, hbound, hahead, h.flags, h.flagged, hqueued, ?_, ?_, ?_⟩
    · intro i
      rw [mem_append, mem_singleton, h.roots, hbelow]
      constructor
      · rintro (hi | rfl)
        · exact ⟨.inl hi.1, hi.2⟩
        · exact ⟨.inr rfl, hd₀, hc₀⟩
      · rintro ⟨hi | rfl, hrest⟩
        · exact .inl ⟨hi, hrest⟩
        · exact .inr rfl
    · exact h.before.trans (hbefore hd₀).symm
    · simp only [hphis, hc, false_eq_true, if_false, h.phis, add_zero]

theorem SweepOk.take {rest : List ℕ} (h : SweepOk f₀ st) (hq : st.queue = i :: rest) :
    SweepOk f₀ { st with queue := rest, onQueue := st.onQueue.set i false } := by
  refine ⟨h.thins, h.unread, h.count, h.bound, h.ahead, length_set.trans h.flags, ?_, ?_,
    h.roots, h.before, h.phis⟩
  · intro d hd hflag
    have hdi : d ≠ i ∧ st.onQueue.getD d false = true := by
      have hflag' : (st.onQueue.set i false).getD d false = true := hflag
      rw [getD_eq_getElem?_getD, getElem?_set] at hflag'
      by_cases hid : i = d
      · subst hid
        by_cases hlt : i < st.onQueue.length
        · simp [hlt] at hflag'
        · simp [hlt] at hflag'
      · rw [if_neg hid, ← getD_eq_getElem?_getD] at hflag'
        exact ⟨Ne.symm hid, hflag'⟩
    have hmem := h.flagged d hd hdi.2
    rw [hq] at hmem
    exact (mem_cons.mp hmem).resolve_left hdi.1
  · intro d hd
    exact h.queued d (by rw [hq]; exact mem_cons_of_mem _ hd)

theorem step_eq_none (h : SweepOk f₀ st) (hstep : step st = none) :
    st.sweep = st.func.ops.length ∧ st.queue = [] := by
  unfold step at hstep
  split at hstep
  · simp only at hstep
    split at hstep
    · cases hstep
    · split at hstep <;> cases hstep
  · next hlt =>
    have hbound := h.bound
    have hlen := h.thins.length
    split at hstep
    · next hq => exact ⟨by omega, hq⟩
    · simp only at hstep
      split at hstep <;> cases hstep

theorem step_eq_some {st st' : Sweep} (h : SweepOk f₀ st) (hstep : step st = some st') :
    (∃ i st₁, SweepOk f₀ st₁ ∧ i < st₁.sweep ∧ candidate (st₁.func.op i) = true ∧
      st' = visit st₁ i ∧ stepsLeft st₁ < stepsLeft st ∧ st₁.func = st.func ∧
      (∀ j, j < st₁.sweep → j ≠ i → j < st.sweep ∧ (j ∈ st.queue → j ∈ st₁.queue))) ∨
    (SweepOk f₀ st' ∧ stepsLeft st' < stepsLeft st ∧ st'.func = st.func ∧
      ∀ j, j < st'.sweep → candidate (st'.func.op j) = true →
        j < st.sweep ∧ (j ∈ st.queue → j ∈ st'.queue)) := by
  unfold step at hstep
  split at hstep
  · next hlt =>
    obtain ⟨hcand, hdead, hroot⟩ := h.advance hlt
    simp only at hstep
    have hleft : st.func.ops.length - (st.sweep + 1) + st.queue.length + liveInputs st.func <
        stepsLeft st := by
      unfold stepsLeft
      omega
    split at hstep
    · next hc =>
      left
      refine ⟨st.sweep, _, hcand hc, Nat.lt_succ_self _, hc, (some.inj hstep).symm, hleft,
        rfl, ?_⟩
      intro j hj hne
      have hj' : j < st.sweep + 1 := hj
      exact ⟨by omega, fun hq => hq⟩
    · next hc =>
      have hc' := eq_false_iff.mpr hc
      have hbelow : ∀ j, j < st.sweep + 1 → candidate (st.func.op j) = true → j < st.sweep := by
        intro j hj hcj
        have hne : j ≠ st.sweep := by
          rintro rfl
          exact hc hcj
        omega
      right
      split at hstep
      · next hd =>
        obtain rfl := some.inj hstep
        exact ⟨hdead hc' hd, hleft, rfl, fun j hj hcj => ⟨hbelow j hj hcj, fun hq => hq⟩⟩
      · next hd =>
        obtain rfl := some.inj hstep
        exact ⟨hroot hc' (eq_false_iff.mpr hd), hleft, rfl,
          fun j hj hcj => ⟨hbelow j hj hcj, fun hq => hq⟩⟩
  · split at hstep
    · cases hstep
    · next i rest hq =>
      have htake := h.take hq
      have hleft : st.func.ops.length - st.sweep + rest.length + liveInputs st.func <
          stepsLeft st := by
        unfold stepsLeft
        rw [hq, length_cons]
        omega
      obtain ⟨his, hci⟩ := h.queued i (by rw [hq]; exact mem_cons_self)
      have hrest : ∀ j, j ≠ i → j ∈ st.queue → j ∈ rest := by
        intro j hne hj
        rw [hq] at hj
        exact (mem_cons.mp hj).resolve_left hne
      simp only at hstep
      split at hstep
      · next hd =>
        obtain rfl := some.inj hstep
        right
        refine ⟨htake, hleft, rfl, fun j hj hcj => ⟨hj, hrest j ?_⟩⟩
        rintro rfl
        exact absurd ((candidate_live hcj).symm.trans hd) (by decide)
      · next hd =>
        left
        refine ⟨i, _, htake, his, ?_, (some.inj hstep).symm, hleft, rfl,
          fun j hj hne => ⟨hj, hrest j hne⟩⟩
        exact (h.thins.candidate_iff i).mpr ⟨hci, eq_false_iff.mpr hd⟩

theorem SweepOk.step {st st' : Sweep} (h : SweepOk f₀ st) (hstep : DeadCode.step st = some st') :
    SweepOk f₀ st' ∧ stepsLeft st' < stepsLeft st := by
  rcases step_eq_some h hstep with ⟨i, st₁, h₁, hi, hc, rfl, hlt, -, -⟩ | ⟨h', hlt, -, -⟩
  · exact ⟨h₁.visit hi hc, lt_of_le_of_lt (stepsLeft_visit_le h₁ hi hc) hlt⟩
  · exact ⟨h', hlt⟩

theorem runSweep_spec {P : Sweep → Prop}
    (hP : ∀ st st', SweepOk f₀ st → P st → step st = some st' → P st') (fuel : ℕ) (st : Sweep)
    (h : SweepOk f₀ st) (hst : P st) (hfuel : stepsLeft st < fuel) :
    SweepOk f₀ (runSweep fuel st) ∧ P (runSweep fuel st) ∧
      (runSweep fuel st).sweep = (runSweep fuel st).func.ops.length ∧
      (runSweep fuel st).queue = [] := by
  induction fuel generalizing st with
  | zero => omega
  | succ fuel ih =>
    rw [runSweep]
    cases hstep : DeadCode.step st with
    | none =>
      have hend := step_eq_none h hstep
      exact ⟨h, hst, hend⟩
    | some st' =>
      obtain ⟨h', hlt⟩ := h.step hstep
      exact ih st' h' (hP st st' h hst hstep) (by omega)

theorem sweepOk_start (func : SsaFunction) : SweepOk func (startSweep func) := by
  refine ⟨.refl func, ?_, Nat.zero_add _, Nat.zero_le _, fun _ _ => rfl, ?_, ?_, ?_, ?_, ?_, ?_⟩
  · intro i out hd hlive
    exact absurd (hd.symm.trans hlive) (by decide)
  · exact length_replicate
  · intro d hd hflag
    have hflag' : (List.replicate func.ops.length false).getD d false = true := hflag
    rw [getD_eq_getElem _ _ (by simpa using hd), getElem_replicate] at hflag'
    cases hflag'
  · exact fun d hd => absurd hd not_mem_nil
  · intro i
    exact iff_of_false not_mem_nil fun hi => Nat.not_lt_zero i hi.1
  · rfl
  · rfl

theorem stepsLeft_start (func : SsaFunction) : stepsLeft (startSweep func) < sweepBound func := by
  unfold stepsLeft sweepBound startSweep
  simp only [length_nil]
  omega

/-- The uses lists name every live reader. -/
def UsesContain (func : SsaFunction) : Prop :=
  ∀ o v, o < func.ops.length → (func.op o).dead = false → v ∈ (func.op o).inputs →
    o ∈ (func.var v).uses

/-- Among the live operations they name the readers and no others. -/
def UsesExact (func : SsaFunction) : Prop :=
  ∀ o v, (func.op o).dead = false → (o ∈ (func.var v).uses ↔ v ∈ (func.op o).inputs)

/-- The definition of a value is the live operation with this output. -/
def Linked (func : SsaFunction) : Prop :=
  ∀ d v, (func.op d).dead = false → ((func.op d).output = some v ↔ (func.var v).defOp = some d)

/-- Reads a value that the second operation defines, by the links of the value alone. -/
def Reads (func : SsaFunction) (o d : ℕ) : Prop :=
  d < func.ops.length ∧ (func.op d).dead = false ∧
    ∃ v ∈ (func.op o).inputs, (func.var v).defOp = some d

/-- Reads the output of the second operation. -/
def Needs (func : SsaFunction) (o d : ℕ) : Prop :=
  d < func.ops.length ∧ (func.op d).dead = false ∧
    ∃ v ∈ (func.op o).inputs, (func.var v).defOp = some d ∧ (func.op d).output = some v

def IsRoot (func : SsaFunction) (i : ℕ) : Prop :=
  i < func.ops.length ∧ (func.op i).dead = false ∧
    (isSideEffecting (func.op i).opcode = true ∨ (func.op i).output = none)

def NeededBy (func : SsaFunction) (reads : ℕ → ℕ → Prop) (i : ℕ) : Prop :=
  ∃ r, IsRoot func r ∧ Relation.ReflTransGen reads r i

def Needed (func : SsaFunction) (i : ℕ) : Prop := NeededBy func (Needs func) i

/-- Every cycle of readers and definitions meets a phi. -/
def PhiCycles (func : SsaFunction) : Prop :=
  ∀ d, ¬ Relation.TransGen (fun u d => Needs func u d ∧ (func.op u).opcode ≠ .multiEqual ∧
    (func.op d).opcode ≠ .multiEqual) d d

theorem Needed.lives (h : Needed func i) : i < func.ops.length ∧ (func.op i).dead = false := by
  obtain ⟨r, hr, hchain⟩ := h
  rcases Relation.ReflTransGen.cases_tail hchain with rfl | ⟨o, -, hd⟩
  · exact ⟨hr.1, hr.2.1⟩
  · exact ⟨hd.1, hd.2.1⟩

theorem SweepOk.spares (h : SweepOk f₀ st) (huses : UsesContain f₀)
    (hi : Needed f₀ i) : (st.func.op i).dead = false := by
  obtain ⟨r, hr, hchain⟩ := hi
  induction hchain with
  | refl =>
    by_contra hd
    have hc := h.thins.killed r (not_eq_false _ ▸ hd) hr.2.1
    rw [(candidate_eq_false hr.2.1).mpr hr.2.2] at hc
    cases hc
  | @tail o d hchain hneeds ih =>
    obtain ⟨-, hlive, v, hv, -, hout⟩ := hneeds
    have ho := Needed.lives ⟨r, hr, hchain⟩
    by_contra hdead
    have hread := h.unread d v (not_eq_false _ ▸ hdead) hlive hout o (huses o v ho.1 ho.2 hv)
    exact absurd (hread.symm.trans ih) (by decide)

def Settled (st : Sweep) : Prop :=
  ∀ i, i < st.sweep → candidate (st.func.op i) = true →
    i ∈ st.queue ∨ hasLiveUse st.func ((st.func.op i).output.getD 0) = true

section Exact

variable (huses : UsesExact f₀) (hlinked : Linked f₀)
include huses hlinked

theorem settled_visit {st : Sweep} {i : ℕ} (h : SweepOk f₀ st) (hi : i < st.sweep)
    (hc : candidate (st.func.op i) = true)
    (hs : ∀ j, j < st.sweep → j ≠ i → candidate (st.func.op j) = true →
      j ∈ st.queue ∨ hasLiveUse st.func ((st.func.op j).output.getD 0) = true) :
    Settled (visit st i) := by
  have hin : i < st.func.ops.length := by
    have hbound := h.bound
    have hlen := h.thins.length
    omega
  by_cases huse : hasLiveUse st.func ((st.func.op i).output.getD 0) = true
  · rw [DeadCode.visit, if_pos huse]
    intro j hj hcj
    by_cases hji : j = i
    · exact .inr (hji ▸ huse)
    · exact hs j hj hji hcj
  · obtain ⟨-, hqueue⟩ := h.dies hi hc huse
    have hfunc : (visit st i).func = kill st.func i := by
      rw [DeadCode.visit, if_neg huse]
    have hsweep : (visit st i).sweep = st.sweep := by
      rw [DeadCode.visit, if_neg huse]
    have hkept : ∀ j ∈ st.queue, j ∈ (visit st i).queue := by
      rw [DeadCode.visit, if_neg huse]
      exact (requeued_foldl (kill st.func i) st.sweep _ (st.queue, st.onQueue)
        (by rw [h.flags]; exact h.bound)).kept
    intro j hj hkilled
    rw [hsweep] at hj
    rw [hfunc] at hkilled ⊢
    obtain ⟨hji, hcj⟩ := (candidate_kill hin j).mp hkilled
    rw [op_kill hin, if_neg hji]
    rcases hs j hj hji hcj with hq | hread
    · exact .inl (hkept j hq)
    · obtain ⟨u, hu, hulive⟩ := (hasLiveUse_iff _ _).mp hread
      by_cases hui : u = i
      · -- the reader was the operation that died
        subst hui
        left
        obtain ⟨out, hout⟩ := candidate_output hcj
        have hout₀ : (f₀.op j).output = some out := (h.thins.output j).symm.trans hout
        have hdef := (hlinked j out (h.thins.lives (candidate_live hcj))).mp hout₀
        rw [hout, getD_some, h.thins.var] at hu
        have hin' := (huses u out (h.thins.lives hulive)).mp hu
        rw [← h.thins.inputs] at hin'
        exact hqueue out hin' j hdef hji hcj hj
      · right
        refine (hasLiveUse_iff _ _).mpr ⟨u, hu, ?_⟩
        rw [op_kill hin, if_neg hui]
        exact hulive

theorem settled_step {st st' : Sweep} (h : SweepOk f₀ st) (hs : Settled st)
    (hstep : step st = some st') : Settled st' := by
  rcases step_eq_some h hstep with ⟨i, st₁, h₁, hi, hc, rfl, -, hfunc, hrest⟩ | ⟨-, -, hfunc, hrest⟩
  · refine settled_visit huses hlinked h₁ hi hc ?_
    intro j hj hji hcj
    obtain ⟨hjs, hq⟩ := hrest j hj hji
    rw [hfunc] at hcj ⊢
    exact (hs j hjs hcj).imp_left hq
  · intro j hj hcj
    obtain ⟨hjs, hq⟩ := hrest j hj hcj
    rw [hfunc] at hcj ⊢
    exact (hs j hjs hcj).imp_left hq

theorem reader_of_settled {st : Sweep} (h : SweepOk f₀ st) (hs : Settled st)
    (hend : st.sweep = st.func.ops.length) (hempty : st.queue = []) {i : ℕ}
    (hi : i < f₀.ops.length) (hc : candidate (st.func.op i) = true) :
    ∃ u, u < f₀.ops.length ∧ (st.func.op u).dead = false ∧ Needs f₀ u i := by
  have his : i < st.sweep := by
    rw [hend, h.thins.length]
    exact hi
  have hread := (hs i his hc).resolve_left (by rw [hempty]; exact not_mem_nil)
  obtain ⟨u, hu, hulive⟩ := (hasLiveUse_iff _ _).mp hread
  obtain ⟨out, hout⟩ := candidate_output hc
  have hlive := h.thins.lives (candidate_live hc)
  have hout₀ : (f₀.op i).output = some out := (h.thins.output i).symm.trans hout
  have hdef := (hlinked i out hlive).mp hout₀
  rw [hout, getD_some, h.thins.var] at hu
  have hin := (huses u out (h.thins.lives hulive)).mp hu
  refine ⟨u, ?_, hulive, hi, hlive, out, hin, hdef, hout₀⟩
  by_contra hge
  have hop : f₀.op u = default := getD_eq_default _ _ (Nat.le_of_not_lt hge)
  rw [hop] at hin
  exact not_mem_nil hin

end Exact

theorem IsRoot.iff_candidate : IsRoot func i ↔
      i < func.ops.length ∧ (func.op i).dead = false ∧ candidate (func.op i) = false := by
  unfold IsRoot
  constructor
  · rintro ⟨hi, hlive, hroot⟩
    exact ⟨hi, hlive, (candidate_eq_false hlive).mpr hroot⟩
  · rintro ⟨hi, hlive, hc⟩
    exact ⟨hi, hlive, (candidate_eq_false hlive).mp hc⟩

theorem mem_neededOps {o d : ℕ} : d ∈ neededOps func o ↔ Reads func o d := by
  unfold neededOps Reads
  rw [mem_filter, mem_filterMap, decide_eq_true_eq]
  constructor
  · rintro ⟨⟨v, hv, hdef⟩, hd, hlive⟩
    exact ⟨hd, hlive, v, hv, hdef⟩
  · rintro ⟨hd, hlive, v, hv, hdef⟩
    exact ⟨⟨v, hv, hdef⟩, hd, hlive⟩

section MarkPhase

variable {st : Sweep} (h : SweepOk f₀ st) (hend : st.sweep = st.func.ops.length)
include h hend

theorem mem_roots_iff {i : ℕ} : i ∈ st.roots ↔ IsRoot f₀ i := by
  rw [h.roots, IsRoot.iff_candidate, hend, h.thins.length]

theorem marked_markNeeded {i : ℕ} (hi : i < f₀.ops.length) :
    marked (markNeeded st.func st.roots) i = true ↔
      ∃ r, IsRoot f₀ r ∧ Relation.ReflTransGen (Reads st.func) r i := by
  have hlen := h.thins.length
  have hnext : ∀ b, ∀ d ∈ neededOps st.func b, d < st.func.ops.length := fun b d hd =>
    (mem_neededOps.mp hd).1
  have hroots : ∀ b ∈ st.roots, b < st.func.ops.length := by
    intro b hb
    rw [hlen]
    exact ((mem_roots_iff h hend).mp hb).1
  have hedge : Worklist.Edge (neededOps st.func) = Reads st.func :=
    funext fun o => funext fun d => propext mem_neededOps
  unfold markNeeded
  rw [marked_spread_iff hnext (sound_markAll (neededOps st.func) hroots)
    (popsLeft_markAll _ _) (by omega)]
  unfold Worklist.Reachable
  rw [hedge]
  simp only [mem_roots_iff h hend]

theorem length_markNeeded : (markNeeded st.func st.roots).length = st.func.ops.length := by
  have hnext : ∀ b, ∀ d ∈ neededOps st.func b, d < st.func.ops.length := fun b d hd =>
    (mem_neededOps.mp hd).1
  have hroots : ∀ b ∈ st.roots, b < st.func.ops.length := by
    intro b hb
    rw [h.thins.length]
    exact ((mem_roots_iff h hend).mp hb).1
  exact (spread_spec hnext _ _ (sound_markAll (neededOps st.func) hroots)
    (popsLeft_markAll _ _)).1.length

theorem lives_of_marked {i : ℕ} (hi : i < f₀.ops.length)
    (hm : marked (markNeeded st.func st.roots) i = true) : (st.func.op i).dead = false := by
  obtain ⟨r, hr, hchain⟩ := (marked_markNeeded h hend hi).mp hm
  rcases Relation.ReflTransGen.cases_tail hchain with rfl | ⟨o, -, hd⟩
  · by_contra hdead
    have hc := h.thins.killed i (not_eq_false _ ▸ hdead) hr.2.1
    rw [(candidate_eq_false hr.2.1).mpr hr.2.2] at hc
    cases hc
  · exact hd.2.1

theorem marked_of_needed (huses : UsesContain f₀) {i : ℕ} (hi : Needed f₀ i) :
    marked (markNeeded st.func st.roots) i = true := by
  rw [marked_markNeeded h hend hi.lives.1]
  obtain ⟨r, hr, hchain⟩ := hi
  refine ⟨r, hr, ?_⟩
  induction hchain with
  | refl => exact .refl
  | @tail o d hchain hneeds ih =>
    refine ih.tail ?_
    have hlive := h.spares huses ⟨r, hr, hchain.tail hneeds⟩
    obtain ⟨hd, -, v, hv, hdef, -⟩ := hneeds
    refine ⟨by rw [h.thins.length]; exact hd, hlive, v, ?_, ?_⟩
    · rw [h.thins.inputs]
      exact hv
    · rw [h.thins.var]
      exact hdef

theorem needed_of_marked (hlinked : Linked f₀) {i : ℕ} (hi : i < f₀.ops.length)
    (hm : marked (markNeeded st.func st.roots) i = true) : Needed f₀ i := by
  obtain ⟨r, hr, hchain⟩ := (marked_markNeeded h hend hi).mp hm
  refine ⟨r, hr, Relation.ReflTransGen.mono ?_ _ _ hchain⟩
  rintro o d ⟨hd, hlive, v, hv, hdef⟩
  rw [h.thins.inputs] at hv
  rw [h.thins.var] at hdef
  have hlive₀ := h.thins.lives hlive
  exact ⟨h.thins.length ▸ hd, hlive₀, v, hv, hdef, (hlinked d v hlive₀).mpr hdef⟩

end MarkPhase

end DeadCode
