import Reargo.DeadCode
import Reargo.SsaBuild
import Mathlib.Data.List.AList

/-!
# Copy propagation and common subexpressions

A copy of a constant hands the constant to its readers. Within a block, an operation that
computes a value already computed dies, and what reads it reads the earlier value from then
on: the values are renamed in one pass at the end, and the readers of the removed values
move to the kept ones.
-/
namespace CommonSubexpressions

open PcodeModel SsaModel SsaBuild DeadCode

/-- The inputs equal to one value become another. -/
def replaceInput (func : SsaFunction) (old new u : ℕ) : SsaFunction :=
  func.setOp u { func.op u with
    inputs := (func.op u).inputs.map fun v => if v = old then new else v }

structure CopyState where
  func : SsaFunction
  propagated : ℕ
  changed : Option (List Bool)

/-- One reader of a copy. A phi keeps its operand: it names the register on its edge. -/
def propagateTo (out src : ℕ) (st : CopyState) (u : ℕ) : CopyState :=
  let op := st.func.op u
  if op.dead ∨ op.opcode = .multiEqual then st
  else
    let n := op.inputs.count out
    { func := replaceInput st.func out src u
      propagated := st.propagated + n
      changed := if 0 < n then st.changed.map fun c => c.set op.block true else st.changed }

/-- The readers that no longer read the value are dropped. -/
def retainReaders (func : SsaFunction) (out : ℕ) : SsaFunction :=
  func.setVar out { func.var out with
    uses := (func.var out).uses.filter fun u => (func.op u).dead || (func.op u).inputs.contains out }

def propagateCopy (st : CopyState) (i : ℕ) : CopyState :=
  let op := st.func.op i
  match op.output, op.inputs with
  | some out, src :: _ =>
    if op.dead ∨ op.opcode ≠ .copy ∨ st.func.isConst src = false then st
    else
      let st := (st.func.var out).uses.foldl (propagateTo out src) st
      { st with func := retainReaders st.func out }
  | _, _ => st

def copyPropagationIn (func : SsaFunction) (changed : Option (List Bool)) : CopyState :=
  (List.range func.ops.length).foldl propagateCopy ⟨func, 0, changed⟩

def copyPropagation (func : SsaFunction) : SsaFunction × ℕ :=
  let st := copyPropagationIn func none
  (st.func, st.propagated)

/-- A value is known by its slot and version, whichever id it has. -/
abbrev ValueKey := Slot × ℕ

def keyOf (vn : SsaVarnode) : ValueKey := (slotOf vn.data, vn.version)

def valueKey (func : SsaFunction) (v : ℕ) : ValueKey := keyOf (func.var v)

def keyLe (k l : ValueKey) : Bool := (slotLe k.1 l.1 && k.1 ≠ l.1) || (k.1 = l.1 && k.2 ≤ l.2)

def keyBit (k : ValueKey) : U64 :=
  (1 : U64) <<< (((k.1.2.1 >>> 3) ^^^ (k.1.2.1 >>> 9) ^^^ BitVec.ofNat 64 k.2) &&& 63).toNat

def isCsePure : OpCode → Bool
  | .intAdd | .intSub | .intMult | .intAnd | .intOr | .intXor | .intLeft | .intRight | .intSRight
  | .intNegate | .int2Comp | .intEqual | .intNotEqual | .intLess | .intLessEqual | .intSLess
  | .intSLessEqual | .intZExt | .intSExt | .intDiv | .intSDiv | .intRem | .intSRem => true
  | _ => false

def isCommutative : OpCode → Bool
  | .intAdd | .intMult | .intAnd | .intOr | .intXor | .intEqual | .intNotEqual => true
  | _ => false

abbrev Redirects := AList fun _ : ValueKey => ValueKey

def followRedirects (redirects : Redirects) : ℕ → ValueKey → ValueKey
  | 0, k => k
  | steps + 1, k =>
    match redirects.lookup k with
    | some next => if next = k then k else followRedirects redirects steps next
    | none => k

/-- The end of a chain of redirects, of at most 65 of them. -/
def resolveRedirect (redirects : Redirects) (k : ValueKey) : ValueKey :=
  followRedirects redirects 65 k

/-- The writes left out of the P-code, taken from the function. -/
structure Phantoms where
  writes : List (ℕ × BitVec 128)
  regs : List Slot

def Phantoms.reg (ph : Phantoms) (slot : Slot) : Option ℕ :=
  if ph.writes = [] then none else ph.regs.findIdx? (· = slot)

/-- Is a write of the slot left out between two positions? -/
def Phantoms.between (ph : Phantoms) (slot : Slot) (lo hi : ℕ) : Bool :=
  (ph.reg slot).any fun r =>
    ((ph.writes.dropWhile (·.1 ≤ lo)).takeWhile (·.1 < hi)).any (·.2.getLsbD r)

abbrev Latest := AList fun _ : Slot => ℕ × ℕ × ℕ

def writesSlot (func : SsaFunction) (slot : Slot) (i : ℕ) : Bool :=
  !(func.op i).dead && (func.op i).output.any fun w => slotOf (func.var w).data = slot

def scanWrite (func : SsaFunction) (slot : Slot) (last : ℕ × ℕ) (i : ℕ) : ℕ × ℕ :=
  if writesSlot func slot i then
    ((func.var ((func.op i).output.getD 0)).version, 4 * i + 2)
  else last

/-- The version a slot holds before operation `i`; a write left out has a version no
operation makes. The scan goes on from where the last question about the slot ended. -/
def versionBefore (func : SsaFunction) (ph : Phantoms) (latest : Latest) (slot : Slot) (i : ℕ) :
    Latest × ℕ :=
  let (upTo, last) := (latest.lookup slot).getD (0, 0, 0)
  let start := min upTo i
  let last := (List.range' start (i - start)).foldl (scanWrite func slot) last
  let hidden := (ph.reg slot).any fun r =>
    ((ph.writes.takeWhile (·.1 < 4 * i + 2)).reverse.takeWhile (last.2 < ·.1)).any (·.2.getLsbD r)
  (latest.insert slot (max upTo i, last), if hidden then 2 ^ 32 - 1 else last.1)

structure SlotMaps where
  readers : ValueKey → List ℕ
  writers : Slot → ℕ

def buildMaps (func : SsaFunction) (ph : Phantoms) : SlotMaps where
  readers k := (List.range func.ops.length).flatMap fun i =>
    if (func.op i).dead then []
    else ((func.op i).inputs.filter fun v => !func.isConst v && valueKey func v = k).map fun _ => i
  writers slot := (List.range func.ops.length).countP (writesSlot func slot) +
    (ph.writes.map fun w =>
      (List.range 128).countP fun r => w.2.getLsbD r && ph.regs[r]? = some slot).sum

def holdsAtReaders (func : SsaFunction) (ph : Phantoms) (maps : SlotMaps) (i : ℕ)
    (dup existing : ValueKey) : Bool :=
  (maps.readers dup).all fun r =>
    (func.op r).dead ||
      if (func.op r).block = (func.op i).block ∧ i < r then
        !(List.range' (i + 1) (r - (i + 1))).any (writesSlot func existing.1) &&
          !ph.between existing.1 (4 * i + 2) (4 * r + 2)
      else decide (maps.writers existing.1 ≤ 1)

/-- A value a phi reads keeps its own name. -/
def feedsPhi (func : SsaFunction) (out : ℕ) : Bool :=
  (func.var out).uses.any fun u => (func.op u).opcode = .multiEqual

/-- What two operations with the same value agree on. -/
structure SeenKey where
  block : ℕ
  opcode : OpCode
  outSize : ℕ
  inputs : List ValueKey
  deriving DecidableEq

structure CseState where
  func : SsaFunction
  /-- The blocks to look at, all of them when not asked for. -/
  scan : Option (List Bool)
  /-- The blocks the next pass has to look at, when asked for. -/
  rescan : Option (List Bool)
  hits : ℕ
  eliminated : ℕ
  seen : AList fun _ : SeenKey => ValueKey
  redirects : Redirects
  latest : Latest
  maps : Option SlotMaps

def seenKey (st : CseState) (i out : ℕ) : SeenKey :=
  let op := st.func.op i
  let keys := op.inputs.map fun v => resolveRedirect st.redirects (valueKey st.func v)
  ⟨op.block, op.opcode, (st.func.var out).data.size,
    if isCommutative op.opcode then keys.insertionSort (keyLe · ·) else keys⟩

def markBlocks (marks : Option (List Bool)) (blocks : List ℕ) : Option (List Bool) :=
  marks.map fun m => blocks.foldl (fun m b => m.set b true) m

/-- The earlier value may stand for the output of operation `i`: asked in this order, and the
later questions only when the earlier ones answer yes. -/
def standsFor (ph : Phantoms) (st : CseState) (i out : ℕ) (existing : ValueKey) :
    CseState × Bool :=
  if feedsPhi st.func out then (st, false)
  else
    let (latest, version) := versionBefore st.func ph st.latest existing.1 i
    let st := { st with latest := latest }
    if version ≠ existing.2 then (st, false)
    else
      let maps := st.maps.getD (buildMaps st.func ph)
      ({ st with maps := some maps },
        holdsAtReaders st.func ph maps i (valueKey st.func out) existing)

def eliminate (st : CseState) (i out : ℕ) (outKey existing : ValueKey) : CseState :=
  let readers := [valueKey st.func out, outKey].flatMap fun k =>
    (st.maps.map fun maps => maps.readers k).getD []
  let blocks := readers.map fun r => (st.func.op r).block
  { st with
    func := kill st.func i
    scan := markBlocks st.scan blocks
    rescan := markBlocks st.rescan blocks
    eliminated := st.eliminated + 1
    redirects := st.redirects.insert outKey existing }

def skipped (st : CseState) (i : ℕ) : Bool :=
  (st.func.op i).dead || st.scan.any fun s => !s.getD (st.func.op i).block false

def cseStep (ph : Phantoms) (st : CseState) (i : ℕ) : CseState :=
  let op := st.func.op i
  if skipped st i ∨ isCsePure op.opcode = false ∨ op.inputs = [] then st
  else match op.output with
    | none => st
    | some out =>
      let outKey := resolveRedirect st.redirects (valueKey st.func out)
      let key := seenKey st i out
      match st.seen.lookup key with
      | none => { st with seen := st.seen.insert key outKey }
      | some existing =>
        let (st, stands) := standsFor ph
          { st with hits := st.hits + 1, rescan := markBlocks st.rescan [op.block] } i out existing
        if stands then eliminate st i out outKey existing
        else { st with seen := st.seen.insert key outKey }

def bloomOf (keys : List ValueKey) : U64 := keys.foldl (fun m k => m ||| keyBit k) 0

def renameVar (redirects : Redirects) (bloom : U64) (vn : SsaVarnode) : SsaVarnode :=
  if vn.data.space = SpaceId.const ∨ bloom &&& keyBit (keyOf vn) = 0 then vn
  else
    let target := resolveRedirect redirects (keyOf vn)
    if target ≠ keyOf vn then { vn with data := slotVarnode target.1, version := target.2 } else vn

/-- A live operation whose output is the value, by the value's own link. -/
def isDefined (func : SsaFunction) (v : ℕ) : Bool :=
  (func.var v).defOp.any fun d => !(func.op d).dead && (func.op d).output = some v

def holdingOf (func : SsaFunction) (redirects : Redirects) (bloom targetBloom : U64)
    (targets : List ValueKey) : List (ℕ × ValueKey) :=
  (List.range func.varnodes.length).filterMap fun v =>
    let key := keyOf (renameVar redirects bloom (func.var v))
    if func.isConst v then none
    else if targetBloom &&& keyBit key ≠ 0 ∧ key ∈ targets then some (v, key) else none

def definedOf (func : SsaFunction) (holding : List (ℕ × ValueKey)) :
    AList fun _ : ValueKey => ℕ :=
  holding.foldl (fun m e => if isDefined func e.1 then m.insert e.2 e.1 else m) ∅

def pushReader (uses : List ℕ) (u : ℕ) : List ℕ := if u ∈ uses then uses else uses ++ [u]

/-- The readers of one holder move to the kept value; a value a live operation still writes
keeps its own. -/
def moveReaders (defined : AList fun _ : ValueKey => ℕ) (func : SsaFunction) (e : ℕ × ValueKey) :
    SsaFunction :=
  match defined.lookup e.2 with
  | none => func
  | some d =>
    if d = e.1 then func
    else
      let own := isDefined func e.1
      let readers := (func.var e.1).uses
      let func := func.setVar e.1 { func.var e.1 with
        defOp := (func.var d).defOp
        uses := if own then readers else [] }
      let func := if own then func else readers.foldl (fun f u => replaceInput f e.1 d u) func
      func.setVar d { func.var d with uses := readers.foldl pushReader (func.var d).uses }

def applyRedirects (func : SsaFunction) (redirects : Redirects) : SsaFunction :=
  if redirects.entries = [] then func
  else
    let bloom := bloomOf redirects.keys
    let targets := redirects.entries.map fun e => resolveRedirect redirects e.2
    let holding := holdingOf func redirects bloom (bloomOf targets) targets
    let defined := definedOf func holding
    holding.foldl (moveReaders defined)
      { func with varnodes := func.varnodes.map (renameVar redirects bloom) }

structure CseResult where
  func : SsaFunction
  eliminated : ℕ
  hits : ℕ
  rescan : Option (List Bool)

def cseInBlocks (func : SsaFunction) (scan rescan : Option (List Bool)) : CseResult :=
  let ph : Phantoms := ⟨func.phantomWrites, func.phantomRegs⟩
  let func := { func with phantomWrites := [], phantomRegs := [] }
  let st := (List.range func.ops.length).foldl (cseStep ph)
    ⟨func, scan, rescan, 0, 0, ∅, ∅, ∅, none⟩
  ⟨applyRedirects st.func st.redirects, st.eliminated, st.hits, st.rescan⟩

def commonSubexpressionElimination (func : SsaFunction) : SsaFunction × ℕ :=
  let r := cseInBlocks func none none
  (r.func, r.eliminated)

end CommonSubexpressions
