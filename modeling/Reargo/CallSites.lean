import Reargo.ReferenceParts

/-!
# Call sites over rounds

Each function's walk reports the constant arguments of its calls. A round takes from all
the calls what each parameter is always passed, and walks again the functions it says
something new of.
-/
namespace CallSites

open PcodeModel OrderedMap ReferenceParts

/-- A value or none for each of the six argument registers, in the order of the calling
convention. -/
abbrev Args := Fin 6 → Option U64

structure CallSite where
  callSite : U64
  callerFunction : U64
  callTarget : Option U64
  args : Args

/-- What a walk finds of one call. -/
structure Found where
  callSite : U64
  callTarget : Option U64
  args : Args

/-- For each parameter the values seen, or `none` after an unknown one. -/
abbrev ParamSummaries := OrdMap U64 (Fin 6 → Option (List U64))

def pinned : Option (List U64) → Option U64
  | some [v] => some v
  | _ => none

def seeds : Option (Fin 6 → Option (List U64)) → Args
  | none => fun _ => none
  | some summary => fun i => pinned (summary i)

/-- The lifts of functions, by entry and budget, and the walks over them. -/
structure Walks (L : Type) where
  lift : U64 → ℕ → Option L
  walk : U64 → L → Args → List Found

structure Program where
  x86_64 : Bool
  refsTo : U64 → List Reference
  exportedFunctions : List U64
  exportSymbols : List U64

section Summaries

/-- Two values pin nothing, nor do more. -/
def seen : Option U64 → Option (List U64) → Option (List U64)
  | some v, some set => some (if set.length < 2 then set.insert v else set)
  | none, _ => none
  | some _, none => none

def addSite (out : ParamSummaries) (site : CallSite) : ParamSummaries :=
  match site.callTarget with
  | none => out
  | some target =>
    out.insert target fun i => seen (site.args i) ((out.get? target).getD (fun _ => some []) i)

def buildParamSummaries (sites : List CallSite) : ParamSummaries :=
  sites.foldl addSite .empty

/-- What the calls pass to one parameter. -/
inductive Passed where
  | nothing
  | one (v : U64)
  | notOne
  deriving DecidableEq

def Passed.and : Passed → Passed → Passed
  | .nothing, p => p
  | p, .nothing => p
  | .one w, .one v => if w = v then .one w else .notOne
  | _, _ => .notOne

def Passed.pass : Passed → Option U64 → Passed
  | _, none => .notOne
  | .notOne, _ => .notOne
  | .nothing, some v => .one v
  | .one w, some v => if w = v then .one w else .notOne

def Passed.isOne : Passed → Bool
  | .one _ => true
  | _ => false

abbrev PassedMap := OrdMap U64 (Fin 6 → Passed)

def addPassed (passed : PassedMap) (site : CallSite) : PassedMap :=
  match site.callTarget with
  | none => passed
  | some target => passed.insert target fun i =>
      ((passed.get? target).getD (fun _ => .nothing) i).pass (site.args i)

def joinInto (a b : PassedMap) : PassedMap :=
  b.entries.foldl (fun a e => a.insert e.1 fun i =>
    ((a.get? e.1).getD (fun _ => .nothing) i).and (e.2 i)) a

/-- The smaller map into the larger. -/
def join (a b : PassedMap) : PassedMap :=
  if a.entries.length < b.entries.length then joinInto b a else joinInto a b

inductive Parts where
  | none
  | part (sites : List CallSite)
  | both (l r : Parts)

def Parts.sites : Parts → List CallSite
  | .none => []
  | .part sites => sites
  | .both l r => l.sites ++ r.sites

def Parts.passed : Parts → PassedMap
  | .none => .empty
  | .part sites => sites.foldl addPassed .empty
  | .both l r => join l.passed r.passed

/-- How the threads share out the sites: all of them, in order. -/
structure Split where
  parts : List CallSite → Parts
  whole : ∀ sites, (parts sites).sites = sites

def Passed.summary : Passed → Option (List U64)
  | .one v => some [v]
  | _ => none

def anyOne (params : Fin 6 → Passed) : Bool := (List.finRange 6).any fun i => (params i).isOne

def seedingSummaries (split : Split) (sites : List CallSite) : ParamSummaries :=
  ((split.parts sites).passed.filter fun _ params => anyOne params).mapValues
    fun params i => (params i).summary

def Program.exported (program : Program) (entry : U64) : Bool :=
  program.exportedFunctions.contains entry || program.exportSymbols.contains entry

def escapes (sites : List CallSite) (entry : U64) : Bool :=
  sites.any fun site => (List.finRange 6).any fun i => site.args i == some entry

def isCallOf (sites : List CallSite) (entry : U64) (r : Reference) : Bool :=
  (r.refType == .unconditionalCall || r.refType == .conditionalCall) &&
    sites.any fun site => site.callTarget == some entry && site.callSite == r.fromAddr

/-- Whether `entry` may be entered other than through the direct calls in `sites`. -/
def dropped (program : Program) (sites : List CallSite) (entry : U64) : Bool :=
  escapes sites entry || program.exported entry ||
    !(program.refsTo entry).all (isCallOf sites entry)

def keepClosedCallers (program : Program) (sites : List CallSite) (summaries : ParamSummaries) :
    ParamSummaries :=
  summaries.filter fun entry _ => !dropped program sites entry

end Summaries

section Sites

/-- Whether the sites after `prev` go up without a repeat. -/
def increasing : Option U64 → List CallSite → Bool
  | _, [] => true
  | none, s :: rest => increasing (some s.callSite) rest
  | some p, s :: rest => decide (p < s.callSite) && increasing (some s.callSite) rest

def keepFirst (seen : List U64) : List CallSite → List CallSite
  | [] => []
  | s :: rest =>
    if s.callSite ∈ seen then keepFirst seen rest
    else s :: keepFirst (s.callSite :: seen) rest

def dedupSites (perFunc : List (List CallSite)) : List CallSite :=
  if increasing none perFunc.flatten then perFunc.flatten else keepFirst [] perFunc.flatten

def countKnownArgs (sites : List CallSite) : ℕ :=
  (sites.map fun s => (List.finRange 6).countP fun i => (s.args i).isSome).sum

end Sites

section Rounds

variable {L : Type} (walks : Walks L) (program : Program)

def walkFunction (entry : U64) (insns : L) (summaries : ParamSummaries) : List CallSite :=
  (walks.walk entry insns (seeds (summaries.get? entry))).map fun x =>
    ⟨x.callSite, entry, x.callTarget, x.args⟩

structure FunctionWalk where
  entry : U64
  maxInsns : ℕ
  sites : Option (List CallSite)

def roundZero (functions : List (U64 × ℕ)) : List FunctionWalk :=
  functions.map fun f =>
    ⟨f.1, f.2, (walks.lift f.1 f.2).map fun insns => walkFunction walks f.1 insns .empty⟩

def seedsAnything (summary : Option (Fin 6 → Option (List U64))) : Bool :=
  (List.finRange 6).any fun i => (seeds summary i).isSome

/-- The lifts kept from one round to the next. -/
abbrev RewalkLifts (L : Type) := List ((U64 × ℕ) × Option L)

/-- The summaries of the round before and its walks. -/
abbrev Prev := Option (ParamSummaries × List (Option (List CallSite)))

def prevWalks (round0 : List FunctionWalk) : Prev → List (Option (List CallSite))
  | none => round0.map fun _ => none
  | some (_, walked) => (walked ++ round0.map fun _ => none).take round0.length

def sameSummary (summaries : ParamSummaries) (prev : Prev) (w : FunctionWalk)
    (walked : Option (List CallSite)) : Bool :=
  walked.isSome && prev.any fun p => p.1.get? w.entry == summaries.get? w.entry

def rewalks (summaries : ParamSummaries) (w : FunctionWalk) : Bool :=
  w.sites.isSome && seedsAnything (summaries.get? w.entry)

def missingLifts (round0 : List FunctionWalk) (summaries : ParamSummaries)
    (lifts : RewalkLifts L) (prev : Prev) : List (U64 × ℕ) :=
  ((round0.zip (prevWalks round0 prev)).filter fun (w, walked) =>
    rewalks summaries w && !sameSummary summaries prev w walked &&
      (lifts.lookup (w.entry, w.maxInsns)).isNone).map fun (w, _) => (w.entry, w.maxInsns)

def extendLifts (lifts : RewalkLifts L) (missing : List (U64 × ℕ)) : RewalkLifts L :=
  missing.foldl (fun lifts k => (k, walks.lift k.1 k.2) :: lifts) lifts

def rewalkOne (summaries : ParamSummaries) (lifts : RewalkLifts L) (prev : Prev)
    (w : FunctionWalk) (walked : Option (List CallSite)) : Option (List CallSite) :=
  if rewalks summaries w then
    if sameSummary summaries prev w walked then walked
    else
      match lifts.lookup (w.entry, w.maxInsns) with
      | some (some insns) => some (walkFunction walks w.entry insns summaries)
      | _ => none
  else none

def rewalkFunctions (round0 : List FunctionWalk) (summaries : ParamSummaries)
    (lifts : RewalkLifts L) (prev : Prev) : List (Option (List CallSite)) × RewalkLifts L :=
  let lifts := extendLifts walks lifts (missingLifts round0 summaries lifts prev)
  ((round0.zip (prevWalks round0 prev)).map fun (w, walked) =>
    rewalkOne walks summaries lifts prev w walked, lifts)

def view (round0 : List FunctionWalk) (rewalked : List (Option (List CallSite))) :
    List CallSite :=
  dedupSites ((round0.zip rewalked).filterMap fun (w, r) => r.or w.sites)

def summariesOf (split : Split) (sites : List CallSite) : ParamSummaries :=
  keepClosedCallers program sites (seedingSummaries split sites)

structure RoundState (L : Type) where
  known : ℕ
  summaries : ParamSummaries
  lifts : RewalkLifts L
  prev : Prev

/-- The rounds left, at least one more. -/
def resolveLoop (split : Split) (round0 : List FunctionWalk) :
    ℕ → RoundState L → List CallSite
  | 0, _ => []
  | n + 1, s =>
    let (rewalked, lifts) := rewalkFunctions walks round0 s.summaries s.lifts s.prev
    let current := view round0 rewalked
    if countKnownArgs current = s.known ∨ n = 0 then current
    else resolveLoop split round0 n
      ⟨countKnownArgs current, summariesOf program split current, lifts,
        some (s.summaries, rewalked)⟩

def resolveCallSitesIterativeFrom (split : Split) (round0 : List FunctionWalk)
    (maxIters : ℕ) : List CallSite :=
  if program.x86_64 then
    let first := view round0 (round0.map fun _ => none)
    if maxIters = 0 then first
    else resolveLoop walks program split round0 maxIters
      ⟨countKnownArgs first, summariesOf program split first, [], none⟩
  else []

end Rounds

section Plain

variable {L : Type} (walks : Walks L) (program : Program) (functions : List (U64 × ℕ))

def walkAll (summaries : ParamSummaries) : List CallSite :=
  keepFirst [] (functions.filterMap fun f => (walks.lift f.1 f.2).map fun insns =>
    walkFunction walks f.1 insns summaries).flatten

def plainRound (sites : List CallSite) : List CallSite :=
  walkAll walks functions (keepClosedCallers program sites (buildParamSummaries sites))

def plainLoop : ℕ → List CallSite → List CallSite
  | 0, sites => sites
  | n + 1, sites =>
    let next := plainRound walks program functions sites
    if countKnownArgs next = countKnownArgs sites then next else plainLoop n next

/-- The plain iteration, with nothing kept from one round to the next. -/
def resolvePlain (maxIters : ℕ) : List CallSite :=
  if program.x86_64 then plainLoop walks program functions maxIters (walkAll walks functions .empty)
  else []

end Plain

end CallSites
