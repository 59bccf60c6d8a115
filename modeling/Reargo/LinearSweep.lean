import Reargo.PcodeModel
import Reargo.CoveredRanges

/-!
# Linear sweep

The search for functions outside of the known bodies. The walks of all candidates are computed
ahead, in chunks with a memo each, and only their meeting with the bodies that the sweep adds is
left to it; the plain loop validates one candidate after the other against all that is covered.
The lift of an address is a parameter; addresses wrap.
-/
namespace LinearSweep

open PcodeModel CoveredRanges List

structure Section where
  address : U64
  size : U64
  execute : Bool

def exec_sections (sections : List Section) : List (U64 × U64) :=
  (sections.filter (·.execute)).map fun s => (s.address, s.address + s.size)

/-- The beginnings of functions that most code uses. -/
def looks_like_prologue : List Byte → Bool
  | b₀ :: b₁ :: b₂ :: b₃ :: _ =>
    -- endbr64
    (b₀ = 0xF3 ∧ b₁ = 0x0F ∧ b₂ = 0x1E ∧ b₃ = 0xFA) ∨
    -- push rbp, mov rbp, rsp
    (b₀ = 0x55 ∧ b₁ = 0x48 ∧ b₂ = 0x89 ∧ b₃ = 0xE5) ∨
    -- sub rsp, imm8
    (b₀ = 0x48 ∧ b₁ = 0x83 ∧ b₂ = 0xEC) ∨
    -- a push of a register that callees preserve
    b₀ ∈ [0x53, 0x55, 0x56, 0x57] ∨ (b₀ = 0x41 ∧ b₁ ∈ [0x54, 0x55, 0x56, 0x57])
  | _ => false

/-- The boundaries of sixteen bytes with eight bytes of the section behind them that start with a
prologue; `read` gives the sixteen bytes there, where the memory has them. -/
def prologue_entries (read : U64 → Option (List Byte)) (exec : List (U64 × U64)) : List U64 :=
  exec.flatMap fun s =>
    let first := (s.1 + 15) &&& ~~~15
    let steps := if first + 8 < s.2 then (s.2 - 9 - first) / 16 + 1 else 0
    (List.range steps.toNat).filterMap fun k =>
      let addr := first + 16 * BitVec.ofNat 64 k
      if (read addr).any looks_like_prologue then some addr else none

/-- The length of the instruction at an address and whether it ends the flow, where one lifts. -/
abbrev Lift := U64 → Option (BitVec 32 × Bool)

/-- The lifts of the addresses that were looked at. -/
abbrev Lifts := List (U64 × Option (BitVec 32 × Bool))

def lift_at (lift : Lift) (lifts : Lifts) (addr : U64) : Option (BitVec 32 × Bool) × Lifts :=
  match lifts.lookup addr with
  | some lifted => (lifted, lifts)
  | none => (lift addr, (addr, lift addr) :: lifts)

/-- The most instructions that a validation lifts. -/
def VALIDATE_BUDGET : ℕ := 256

structure Candidate where
  entry : U64
  /-- The addresses that are checked against the covered bodies. -/
  checked : List U64
  /-- The answer when none of them is covered. -/
  stop : Option U64
  /-- One of them is in the bodies known before the sweep. -/
  known : Bool

structure Walk where
  checked : List U64
  count : ℕ
  addr : U64
  stop : Option U64
  lifts : Lifts

/-- The addresses up to the end of the flow are checked. -/
def Walk.check (w : Walk) : List U64 := if w.stop = none then w.checked ++ [w.addr] else w.checked

/-- The first instruction that ends the flow ends the body. -/
def ending (stop : Option U64) (terminates : Bool) (next : U64) : Option U64 :=
  if stop = none ∧ terminates then some next else stop

def walkLoop (lift : Lift) : ℕ → Walk → Walk
  | 0, w => w
  | n + 1, w =>
    match lift_at lift w.lifts w.addr with
    | (none, lifts) => { w with lifts := lifts }
    | (some (length, terminates), lifts) =>
      let count := w.count + 1
      let next := w.addr + length.setWidth 64
      let stop := ending w.stop terminates next
      if stop ≠ none ∧ 3 ≤ count then ⟨w.check, count, w.addr, stop, lifts⟩
      else walkLoop lift n ⟨w.check, count, next, stop, lifts⟩

def walk_candidate (lift : Lift) (entry : U64) (lifts : Lifts) : Candidate × Lifts :=
  let w := walkLoop lift VALIDATE_BUDGET ⟨[], 0, entry, none, lifts⟩
  (⟨entry, w.checked, if w.count < 3 then none else w.stop, false⟩, w.lifts)

/-- The candidates of a chunk, each with the memo that the one before leaves. -/
def walkChunk (lift : Lift) (covered : Covered U64) : Lifts → List U64 → List Candidate
  | _, [] => []
  | lifts, entry :: entries =>
    let (candidate, lifts) := walk_candidate lift entry lifts
    { candidate with known := covered.hits candidate.checked } ::
      walkChunk lift covered lifts entries

def chunks {α : Type} (n : ℕ) (l : List α) : List (List α) :=
  match l with
  | [] => []
  | x :: l => ((x :: l).take (n + 1)) :: chunks n (l.drop n)
termination_by l.length

def candidates (lift : Lift) (covered : Covered U64) (entries : List U64) : List Candidate :=
  (chunks 63 (entries.filter fun addr => !covered.contains addr)).flatMap (walkChunk lift covered [])

def Candidate.validate_added (c : Candidate) (added : Covered U64) : Option U64 :=
  if c.known || added.hits c.checked then none else c.stop

/-- The bodies that the sweep adds, what it tried, and what it accepted. -/
structure Sweep where
  added : Covered U64
  visited : List U64
  new_functions : List (U64 × U64)

def sweepStep (covered : Covered U64) (s : Sweep) (c : Candidate) : Sweep :=
  if (covered.contains c.entry || s.added.contains c.entry) = true ∨ c.entry ∈ s.visited then s
  else
    let visited := c.entry :: s.visited
    match c.validate_added s.added with
    | some stop => ⟨s.added.insert c.entry stop, visited, s.new_functions ++ [(c.entry, stop)]⟩
    | none => { s with visited := visited }

def sweep (lift : Lift) (known : List (U64 × U64)) (entries : List U64) : List (U64 × U64) :=
  let covered := Covered.from_ranges known
  ((candidates lift covered entries).foldl (sweepStep covered) ⟨.empty, [], []⟩).new_functions

def analyze (lift : Lift) (read : U64 → Option (List Byte)) (sections : List Section)
    (known : List (U64 × U64)) : List (U64 × U64) :=
  sweep lift known (prologue_entries read (exec_sections sections))

def validateLoop (lift : Lift) (covered : U64 → Bool) :
    ℕ → ℕ → U64 → Option U64 → Lifts → Option U64 × Lifts
  | 0, count, _, stop, lifts => (if count < 3 then none else stop, lifts)
  | n + 1, count, addr, stop, lifts =>
    match lift_at lift lifts addr with
    | (none, lifts) => (if count < 3 then none else stop, lifts)
    | (some (length, terminates), lifts) =>
      let count := count + 1
      let next := addr + length.setWidth 64
      if stop = none ∧ covered addr then (none, lifts)
      else
        let stop := ending stop terminates next
        if stop ≠ none ∧ 3 ≤ count then (if count < 3 then none else stop, lifts)
        else validateLoop lift covered n count next stop lifts

def validate_candidate_with_extent (lift : Lift) (covered : U64 → Bool) (entry : U64)
    (lifts : Lifts) : Option U64 × Lifts :=
  validateLoop lift covered VALIDATE_BUDGET 0 entry none lifts

/-- All ranges covered so far, what was tried, what was accepted. -/
structure Plain where
  ranges : List (U64 × U64)
  visited : List U64
  found : List (U64 × U64)
  lifts : Lifts

def plainStep (lift : Lift) (p : Plain) (entry : U64) : Plain :=
  if Covers p.ranges entry ∨ entry ∈ p.visited then p
  else
    let visited := entry :: p.visited
    match validate_candidate_with_extent lift (fun a => Covers p.ranges a) entry p.lifts with
    | (some stop, lifts) =>
      ⟨p.ranges ++ [(entry, stop)], visited, p.found ++ [(entry, stop)], lifts⟩
    | (none, lifts) => { p with visited := visited, lifts := lifts }

/-- The entries in order, each validated against the union of all ranges so far. -/
def plainSweep (lift : Lift) (known : List (U64 × U64)) (entries : List U64) : List (U64 × U64) :=
  (entries.foldl (plainStep lift) ⟨known, [], [], []⟩).found

def Remembers (lift : Lift) (lifts : Lifts) : Prop := ∀ e ∈ lifts, e.2 = lift e.1

variable {lift : Lift} {lifts : Lifts} {w : Walk}

theorem remembers_nil : Remembers lift [] := nofun

theorem lift_at_spec (h : Remembers lift lifts) (addr : U64) :
    (lift_at lift lifts addr).1 = lift addr ∧ Remembers lift (lift_at lift lifts addr).2 := by
  rw [lift_at]
  cases hl : lifts.lookup addr with
  | some lifted =>
    obtain ⟨before, behind, rfl, -⟩ := lookup_eq_some_iff.mp hl
    exact ⟨h (addr, lifted) (mem_append_right _ mem_cons_self), h⟩
  | none =>
    refine ⟨rfl, fun e he => ?_⟩
    rcases mem_cons.mp he with rfl | he
    · rfl
    · exact h e he

theorem walkLoop_checked {n : ℕ} {a : U64} (h : a ∈ w.checked) :
    a ∈ (walkLoop lift n w).checked := by
  induction n generalizing w with
  | zero => exact h
  | succ n ih =>
    have more : a ∈ w.check := by
      rw [Walk.check]
      split
      · exact mem_append_left _ h
      · exact h
    rw [walkLoop]
    split
    · exact h
    · dsimp only
      split
      · exact more
      · exact ih more

theorem walkLoop_remembers {n : ℕ} (h : Remembers lift w.lifts) :
    Remembers lift (walkLoop lift n w).lifts := by
  induction n generalizing w with
  | zero => exact h
  | succ n ih =>
    have next := (lift_at_spec h w.addr).2
    rw [walkLoop]
    split
    · rename_i hl
      rw [hl] at next
      exact next
    · rename_i hl
      rw [hl] at next
      dsimp only
      split
      · exact next
      · exact ih next

/-- What a validation answers, read off the walk. -/
def verdict (covered : U64 → Bool) (checked : List U64) (stop : Option U64) : Option U64 :=
  if checked.any covered then none else stop

theorem validateLoop_eq (covered : U64 → Bool) {n : ℕ}
    (hw : Remembers lift w.lifts) (h : Remembers lift lifts) (clear : w.checked.any covered = false) :
    (validateLoop lift covered n w.count w.addr w.stop lifts).1 =
        verdict covered (walkLoop lift n w).checked
          (if (walkLoop lift n w).count < 3 then none else (walkLoop lift n w).stop) ∧
      Remembers lift (validateLoop lift covered n w.count w.addr w.stop lifts).2 := by
  induction n generalizing w lifts with
  | zero => exact ⟨by rw [walkLoop, verdict, clear]; rfl, h⟩
  | succ n ih =>
    obtain ⟨same, kept⟩ := lift_at_spec h w.addr
    obtain ⟨same', kept'⟩ := lift_at_spec hw w.addr
    rw [validateLoop, walkLoop]
    rcases hl : lift_at lift lifts w.addr with ⟨lifted, lifts₁⟩
    rcases hl' : lift_at lift w.lifts w.addr with ⟨lifted', lifts₂⟩
    rw [hl] at same kept
    rw [hl'] at same' kept'
    have equal : lifted' = lifted := same'.trans same.symm
    subst equal
    cases lifted' with
    | none => exact ⟨by rw [verdict, clear]; rfl, kept⟩
    | some lifted =>
      obtain ⟨length, terminates⟩ := lifted
      dsimp only
      by_cases hc : w.stop = none ∧ covered w.addr = true
      · rw [if_pos hc]
        refine ⟨?_, kept⟩
        have checked : w.addr ∈ w.check := by
          rw [Walk.check, if_pos hc.1]
          exact mem_append_right _ mem_cons_self
        rw [verdict, if_pos]
        apply any_eq_true.mpr
        refine ⟨w.addr, ?_, hc.2⟩
        split
        · exact checked
        · exact walkLoop_checked checked
      · rw [if_neg hc]
        have clear' : w.check.any covered = false := by
          rw [Walk.check]
          split
          · rename_i hs
            have : covered w.addr = false := Bool.eq_false_of_not_eq_true fun ha => hc ⟨hs, ha⟩
            simp [clear, this]
          · exact clear
        split
        · exact ⟨by rw [verdict, clear']; rfl, kept⟩
        · exact ih (w := ⟨w.check, w.count + 1, _, _, _⟩) kept' kept clear'

structure Ahead (lift : Lift) (covered : Covered U64) (addr : U64) (c : Candidate) : Prop where
  entry : c.entry = addr
  known : c.known = covered.hits c.checked
  validate : ∀ covered lifts, Remembers lift lifts →
    (validate_candidate_with_extent lift covered addr lifts).1 = verdict covered c.checked c.stop ∧
      Remembers lift (validate_candidate_with_extent lift covered addr lifts).2

theorem walkChunk_ahead (known : Covered U64) (h : Remembers lift lifts) (entries : List U64) :
    List.Forall₂ (Ahead lift known) entries (walkChunk lift known lifts entries) := by
  induction entries generalizing lifts with
  | nil => exact .nil
  | cons entry entries ih =>
    refine .cons ⟨rfl, rfl, fun covered lifts' h' => ?_⟩ (ih (walkLoop_remembers h))
    exact validateLoop_eq covered (w := ⟨[], 0, entry, none, lifts⟩) h h' rfl

theorem flatten_chunks {α : Type} (n : ℕ) (l : List α) : (chunks n l).flatten = l := by
  induction hn : l.length using Nat.strong_induction_on generalizing l with
  | _ m ih =>
    subst hn
    cases l with
    | nil => simp [chunks]
    | cons x l =>
      have shorter : (l.drop n).length < (x :: l).length := by
        simp only [length_drop, length_cons]
        omega
      rw [chunks, flatten_cons, ih _ shorter _ rfl, take_succ_cons, cons_append,
        take_append_drop]

theorem candidates_ahead (known : Covered U64) (entries : List U64) :
    List.Forall₂ (Ahead lift known) (entries.filter fun addr => !known.contains addr)
      (candidates lift known entries) := by
  have all (cs : List (List U64)) : List.Forall₂ (Ahead lift known) cs.flatten
      (cs.flatMap (walkChunk lift known [])) := by
    induction cs with
    | nil => exact .nil
    | cons c cs ih =>
      rw [flatten_cons, flatMap_cons]
      exact rel_append (walkChunk_ahead known remembers_nil c) ih
  have split := all (chunks 63 (entries.filter fun addr => !known.contains addr))
  rw [flatten_chunks] at split
  exact split

structure Agree (lift : Lift) (known : Covered U64) (s : Sweep) (p : Plain) : Prop where
  found : s.new_functions = p.found
  visited : s.visited = p.visited
  covers : ∀ a, Covers p.ranges a ↔ a ∈ known.carrier ∨ a ∈ s.added.carrier
  remembers : Remembers lift p.lifts

variable {known : Covered U64} {s : Sweep} {p : Plain}

theorem Agree.skip (h : Agree lift known s p) {entry : U64} (hk : known.contains entry = true) :
    plainStep lift p entry = p := by
  rw [plainStep, if_pos]
  exact .inl ((h.covers entry).mpr (.inl (Covered.contains_iff.mp hk)))

theorem Agree.step (h : Agree lift known s p) {entry : U64} {c : Candidate}
    (ahead : Ahead lift known entry c) :
    Agree lift known (sweepStep known s c) (plainStep lift p entry) := by
  have covered (a : U64) : (known.contains a || s.added.contains a) = true ↔ Covers p.ranges a := by
    rw [Bool.or_eq_true, Covered.contains_iff, Covered.contains_iff, h.covers]
  have skips : ((known.contains c.entry || s.added.contains c.entry) = true ∨
      c.entry ∈ s.visited) ↔ (Covers p.ranges entry ∨ entry ∈ p.visited) := by
    rw [covered, h.visited, ahead.entry]
  rw [sweepStep, plainStep]
  by_cases hs : Covers p.ranges entry ∨ entry ∈ p.visited
  · rw [if_pos hs, if_pos (skips.mpr hs)]
    exact h
  rw [if_neg hs, if_neg (mt skips.mp hs)]
  dsimp only
  -- the candidate answers as the validation does
  obtain ⟨same, kept⟩ := ahead.validate (fun a => Covers p.ranges a) p.lifts h.remembers
  have met : (c.known || s.added.hits c.checked) =
      c.checked.any fun a => decide (Covers p.ranges a) := by
    rw [Bool.eq_iff_iff, ahead.known, Bool.or_eq_true, Covered.hits_iff, Covered.hits_iff,
      any_eq_true]
    simp only [decide_eq_true_eq, h.covers, and_or_left, exists_or]
  have answer : c.validate_added s.added =
      (validate_candidate_with_extent lift (fun a => Covers p.ranges a) entry p.lifts).1 := by
    rw [same, Candidate.validate_added, met, verdict]
  rw [answer]
  rcases hv : validate_candidate_with_extent lift (fun a => Covers p.ranges a) entry p.lifts with
    ⟨stop, lifts⟩
  rw [hv] at kept
  cases stop with
  | none => exact ⟨h.found, by rw [h.visited, ahead.entry], h.covers, kept⟩
  | some stop =>
    refine ⟨by rw [h.found, ahead.entry], by rw [h.visited, ahead.entry], fun a => ?_, kept⟩
    rw [covers_append, covers_cons, h.covers, Covered.mem_insert, ahead.entry]
    simp only [not_covers_nil, or_false, or_assoc]

theorem Agree.run (h : Agree lift known s p) {entries : List U64} {cs : List Candidate}
    (ahead : List.Forall₂ (Ahead lift known) (entries.filter fun addr => !known.contains addr) cs) :
    Agree lift known (cs.foldl (sweepStep known) s) (entries.foldl (plainStep lift) p) := by
  induction entries generalizing s p cs with
  | nil =>
    cases ahead
    exact h
  | cons entry entries ih =>
    rw [foldl_cons]
    cases hk : known.contains entry with
    | true =>
      rw [h.skip hk]
      apply ih h
      rwa [filter_cons_of_neg (by simp [hk])] at ahead
    | false =>
      rw [filter_cons_of_pos (by simp [hk])] at ahead
      cases ahead with
      | cons first rest => exact ih (h.step first) rest

theorem sweep_eq_plainSweep (lift : Lift) (known : List (U64 × U64)) (entries : List U64) :
    sweep lift known entries = plainSweep lift known entries := by
  have start : Agree lift (Covered.from_ranges known) ⟨.empty, [], []⟩ ⟨known, [], [], []⟩ :=
    ⟨rfl, rfl, fun a => by
      rw [Covered.mem_from_ranges, Covered.carrier_empty]
      exact (or_iff_left (Set.notMem_empty a)).symm, remembers_nil⟩
  exact (start.run (candidates_ahead _ entries)).found

/-- A set that was built from ranges and to which ranges were added. -/
def covering (known added : List (U64 × U64)) : Covered U64 :=
  added.foldl (fun c r => c.insert r.1 r.2) (.from_ranges known)

theorem mem_covering {known added : List (U64 × U64)} {a : U64} :
    a ∈ (covering known added).carrier ↔ Covers (known ++ added) a := by
  rw [covering, Covered.mem_inserts, Covered.mem_from_ranges, covers_append]

/-- The sweep accepts what the plain loop accepts, with the same ends; the set of covered
addresses is the union of its ranges, kept sorted with a gap behind each. -/
theorem sweep_agrees (lift : Lift) (known : List (U64 × U64)) :
    (∀ entries, sweep lift known entries = plainSweep lift known entries) ∧
      (∀ read sections, analyze lift read sections known =
        plainSweep lift known (prologue_entries read (exec_sections sections))) ∧
      ∀ added, Separated (covering known added).ranges ∧
        (∀ a, (covering known added).contains a = true ↔ Covers (known ++ added) a) ∧
        ∀ points, (covering known added).hits points = true ↔
          ∃ a ∈ points, Covers (known ++ added) a := by
  refine ⟨sweep_eq_plainSweep lift known, fun read sections => sweep_eq_plainSweep lift known _,
    fun added => ⟨(covering known added).separated, fun a => ?_, fun points => ?_⟩⟩
  · rw [Covered.contains_iff, mem_covering]
  · rw [Covered.hits_iff]
    simp only [mem_covering]

end LinearSweep
