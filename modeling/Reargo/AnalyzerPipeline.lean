import Mathlib.Data.BitVec

/-!
# The analyzer pipeline

Analyzers with what each writes and what its first half reads, the cut of the pipeline into
windows, and the run that prepares the split analyzers of a window together and takes the
ones that run last out of order.
-/
namespace AnalyzerPipeline

open BitVec

/-- Parts of the program state. -/
structure State where
  bits : BitVec 32
  deriving DecidableEq

namespace State

def none : State := ⟨0⟩

def part (p : Fin 32) : State := ⟨BitVec.twoPow 32 p⟩

def union (s t : State) : State := ⟨s.bits ||| t.bits⟩

def intersects (s t : State) : Bool := s.bits &&& t.bits != 0

def has (s : State) (p : Fin 32) : Bool := s.bits.getLsbD p

theorem intersects_iff {s t : State} : s.intersects t = true ↔ ∃ p, s.has p ∧ t.has p := by
  simp only [intersects, bne_iff_ne, ne_eq]
  constructor
  · intro hne
    by_contra hall
    push Not at hall
    apply hne
    apply eq_of_getLsbD_eq
    intro i hi
    have hi := hall ⟨i, hi⟩
    simp only [has] at hi
    simp only [getLsbD_and, ofNat_eq_ofNat, getLsbD_zero]
    cases hs : s.bits.getLsbD i with
    | false => simp
    | true => simpa using hi hs
  · rintro ⟨p, hs, ht⟩ heq
    have hp : (s.bits &&& t.bits).getLsbD p = false := by
      simp only [heq, ofNat_eq_ofNat, getLsbD_zero]
    simp only [has] at hs ht
    simp only [getLsbD_and, hs, ht, Bool.and_self] at hp
    contradiction

@[simp] theorem part_has (p q : Fin 32) : (part p).has q = decide (p = q) := by
  simp [part, has, Fin.ext_iff, eq_comm]

@[simp] theorem union_has (s t : State) (p : Fin 32) :
    (s.union t).has p = (s.has p || t.has p) := by
  simp [union, has]

@[simp] theorem intersects_union (r s t : State) :
    r.intersects (s.union t) = (r.intersects s || r.intersects t) := by
  apply Bool.eq_iff_iff.mpr
  simp only [Bool.or_eq_true, intersects_iff, union_has]
  constructor
  · rintro ⟨p, hr, hs | ht⟩
    · exact .inl ⟨p, hr, hs⟩
    · exact .inr ⟨p, hr, ht⟩
  · rintro (⟨p, hr, hs⟩ | ⟨p, hr, ht⟩)
    · exact ⟨p, hr, .inl hs⟩
    · exact ⟨p, hr, .inr ht⟩

end State

/-- One value for each part of the state. -/
abbrev Program (V : Fin 32 → Type) := (p : Fin 32) → V p

/-- `prepareReads = none` is an analyzer that is not split; its `prepare` is never called. -/
structure Analyzer (V : Fin 32 → Type) (Prepared Result : Type) where
  name : String
  startEarly : Program V → Program V
  runsLast : Bool
  writes : State
  prepareReads : Option State
  prepare : Program V → Prepared
  analyze : Program V → Program V × Result
  apply : Program V → Prepared → Program V × Result

structure AnalysisManager (V : Fin 32 → Type) (Prepared Result : Type) where
  analyzers : List (Analyzer V Prepared Result)
  overlap : Bool

/-- A run of consecutive analyzers, and the split ones that prepare at its start. -/
structure Window where
  start : ℕ
  stop : ℕ
  prepared : List ℕ
  deriving DecidableEq

variable {V : Fin 32 → Type} {Prepared Result : Type}

/-- The windows so far, the one under way with what it writes, and the split analyzers. -/
structure Cut where
  windows : List Window
  current : Window
  written : State
  split : List (ℕ × State)

def cutBefore (c : Cut) (i : ℕ) (reads : State) : Cut :=
  if reads.intersects c.written then
    { c with
      windows := c.windows ++ [c.current]
      current := ⟨i, i, []⟩
      written := .none }
  else c

def cutStep (overlap : Bool) (c : Cut) (entry : Analyzer V Prepared Result × ℕ) : Cut :=
  let (analyzer, i) := entry
  let c := match analyzer.prepareReads.filter fun _ => overlap with
    | some reads =>
      let c := cutBefore c i reads
      { c with split := c.split ++ [(i, reads)] }
    | none => c
  { c with
    current := { c.current with stop := i + 1 }
    written := c.written.union analyzer.writes }

def writesOf (analyzers : List (Analyzer V Prepared Result)) : State :=
  analyzers.foldl (fun acc a => acc.union a.writes) .none

def slice {α : Type} (l : List α) (start stop : ℕ) : List α := (l.take stop).drop start

def home (windows : List Window) (i : ℕ) : ℕ :=
  (((List.range windows.length).filter fun w =>
    (windows[w]?).any fun x => x.start ≤ i).getLast?).getD 0

def walkBack (analyzers : List (Analyzer V Prepared Result)) (windows : List Window)
    (reads : State) : ℕ → State → ℕ
  | 0, _ => 0
  | w + 1, written =>
    let before := match windows[w]? with
      | some x => writesOf (slice analyzers x.start x.stop)
      | none => .none
    if reads.intersects (written.union before) then w + 1
    else walkBack analyzers windows reads w (written.union before)

/-- On to a window that prepares anyway, the home `gap` windows on at the latest. -/
def walkOn (homes : List Bool) : ℕ → ℕ → ℕ
  | 0, w => w
  | gap + 1, w => if homes.getD w false then w else walkOn homes gap (w + 1)

def placeOf (analyzers : List (Analyzer V Prepared Result)) (homes : List Bool)
    (windows : List Window) (i : ℕ) (reads : State) : ℕ :=
  let h := home windows i
  let start := match windows[h]? with
    | some x => x.start
    | none => 0
  let w := walkBack analyzers windows reads h (writesOf (slice analyzers start i))
  walkOn homes (h - w) w

def placeStep (analyzers : List (Analyzer V Prepared Result)) (homes : List Bool)
    (windows : List Window) (entry : ℕ × State) : List Window :=
  windows.modify (placeOf analyzers homes windows entry.1 entry.2) fun x =>
    { x with prepared := x.prepared ++ [entry.1] }

namespace AnalysisManager

variable (m : AnalysisManager V Prepared Result)

def withoutOverlap : AnalysisManager V Prepared Result := { m with overlap := false }

def cut : Cut := m.analyzers.zipIdx.foldl (cutStep m.overlap) ⟨[], ⟨0, 0, []⟩, .none, []⟩

def windows : List Window :=
  let c := m.cut
  let windows := c.windows ++ [c.current]
  let homes := windows.map fun w => c.split.any fun e => w.start ≤ e.1 && e.1 < w.stop
  c.split.foldl (placeStep m.analyzers homes) windows

end AnalysisManager

/-- A run under way. `prepares` and `effects` list, for the statements only, every prepared
value and every analyzer whose `analyze` or `apply` was called. -/
structure Run (V : Fin 32 → Type) (Prepared Result : Type) where
  program : Program V
  ready : List (Option Prepared)
  results : List (Option (String × Result))
  last : List ℕ
  prepares : List (ℕ × Prepared)
  effects : List ℕ

def prepareAt (analyzers : List (Analyzer V Prepared Result)) (r : Run V Prepared Result)
    (i : ℕ) : Run V Prepared Result :=
  match analyzers[i]? with
  | some a =>
    { r with
      ready := r.ready.set i (some (a.prepare r.program))
      prepares := r.prepares ++ [(i, a.prepare r.program)] }
  | none => r

/-- The second half on what was prepared, or the whole analyzer. -/
def turn (r : Run V Prepared Result) (a : Analyzer V Prepared Result) (i : ℕ) :
    Program V × Result :=
  match (r.ready[i]?).join with
  | some p => a.apply r.program p
  | none => a.analyze r.program

def runAt (overlap : Bool) (analyzers : List (Analyzer V Prepared Result))
    (r : Run V Prepared Result) (i : ℕ) : Run V Prepared Result :=
  match analyzers[i]? with
  | some a =>
    if overlap && a.runsLast then
      { r with
        last := r.last ++ [i]
        results := r.results ++ [none] }
    else
      let (program, result) := turn r a i
      { r with
        program := program
        ready := r.ready.set i none
        results := r.results ++ [some (a.name, result)]
        effects := r.effects ++ [i] }
  | none => r

def runWindow (overlap : Bool) (analyzers : List (Analyzer V Prepared Result))
    (r : Run V Prepared Result) (window : Window) : Run V Prepared Result :=
  let r := if 2 ≤ window.prepared.length then
      window.prepared.foldl (prepareAt analyzers) r
    else r
  (List.range' window.start (window.stop - window.start)).foldl (runAt overlap analyzers) r

def runLastAt (analyzers : List (Analyzer V Prepared Result)) (r : Run V Prepared Result)
    (i : ℕ) : Run V Prepared Result :=
  match analyzers[i]? with
  | some a =>
    let (program, result) := a.analyze r.program
    { r with
      program := program
      results := r.results.set i (some (a.name, result))
      effects := r.effects ++ [i] }
  | none => r

namespace AnalysisManager

variable (m : AnalysisManager V Prepared Result)

def startEarly (program : Program V) : Program V :=
  m.analyzers.foldl (fun p a => a.startEarly p) program

def runWindows (program : Program V) : Run V Prepared Result :=
  m.windows.foldl (runWindow m.overlap m.analyzers)
    ⟨m.startEarly program, m.analyzers.map fun _ => none, [], [], [], []⟩

def runAllTimed (program : Program V) : Run V Prepared Result :=
  let r := m.runWindows program
  r.last.foldl (runLastAt m.analyzers) r

/-- The results listed, or `none` where the unwrapping panics. -/
def timed (program : Program V) : Option (List (String × Result)) :=
  (m.runAllTimed program).results.mapM id

end AnalysisManager

end AnalyzerPipeline
