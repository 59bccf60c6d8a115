import Mathlib.Data.List.DropRight
import Reargo.ControlFlow
import Reargo.LoadedMemory

/-!
# Jump tables

A dense `switch` is a bounds check and an indirect jump through a table. The instructions of
the window before the jump are evaluated symbolically, registers known to hold a constant
are replaced by it, and a target of the form `table + sext(int32 table[i])` or
`uint64 table[i]` is a dispatch whose entries are then read. A list of instructions is
indexed as the source indexes its slice; every index used is below its length.
-/
namespace JumpTables

open PcodeModel ControlFlow LoadedMemory

structure JumpTable where
  jmp : U64
  targets : List U64
  default : Option U64
  deriving DecidableEq, Repr, Inhabited

def maxEntries : ℕ := 1024
def maxWindow : ℕ := 8
/-- Instructions looked back for a constant. -/
def maxBack : ℕ := 4096
def cfOffset : U64 := 0x201
/-- Where the tail-call stubs of targets outside the function are. -/
def tailStubBase : U64 := 0xffff000000000000

inductive E where
  | reg (v : VarnodeData)
  | const (c : U64)
  | add (a b : E)
  | mul (a : E) (c : U64)
  | load (addr : E) (size : ℕ)
  | ext (a : E)
  | other
  deriving DecidableEq, Repr, Inhabited

def overlaps (x w : VarnodeData) : Bool :=
  x.space = w.space ∧ x.offset < w.offset + BitVec.ofNat 64 w.size ∧
    w.offset < x.offset + BitVec.ofNat 64 x.size

/-- A constant of `size` bytes sign-extended; a size of zero shifts by nothing. -/
def signExtended (size : ℕ) (c : U64) : U64 :=
  let bits := min size 8 * 8
  if 64 ≤ bits then c else (c <<< ((64 - bits) % 64)).sshiftRight ((64 - bits) % 64)

def opValue (op : PcodeOp) (out : VarnodeData) (val : ℕ → Option E) : E :=
  match op.opcode, val 0, val 1 with
  | .copy, some a, _ => a
  | .intAdd, some a, some b => .add a b
  | .intMult, some a, some (.const c) => .mul a c
  | .intMult, some (.const c), some a => .mul a c
  | .intLeft, some a, some (.const c) => if c < 8 then .mul a (1 <<< c.toNat) else .other
  | .load, _, some addr => .load addr out.size
  | .intZExt, some (.const c), _ => .const c
  | .intSExt, some (.const c), _ => .const (signExtended ((op.input 0).elim 0 (·.size)) c)
  | .intSExt, some a, _ => .ext a
  | .intZExt, some a, _ => .ext a
  | _, _, _ => .other

/-- The value `v` holds after the operations, given latest first: what the last one writing
exactly `v` computed from the values before it. -/
def valueBefore : List PcodeOp → VarnodeData → E
  | [] => fun v => if v.space = .const then .const v.offset else .reg v
  | op :: earlier => fun v =>
    if v.space = .const then .const v.offset
    else if op.output = some v then
      opValue op v fun k => (op.input k).map (valueBefore earlier)
    else valueBefore earlier v

def evaluate (insns : List LiftedInstruction) (v : VarnodeData) : E :=
  valueBefore (insns.flatMap LiftedInstruction.ops).reverse v

/-- An extension of a constant is that constant. -/
def widened : E → E
  | .const c => .const c
  | x => .ext x

/-- Each register the function sets once, to a constant, replaced by that constant. -/
def withBases (bases : U64 → Option U64) : E → E
  | .reg r =>
    if r.space = .register ∧ 4 ≤ r.size then (bases r.offset).elim (.reg r) .const
    else .reg r
  | .add a b => .add (withBases bases a) (withBases bases b)
  | .mul a c => .mul (withBases bases a) c
  | .load a sz => .load (withBases bases a) sz
  | .ext a => widened (withBases bases a)
  | .const c => .const c
  | .other => .other

/-- A summand: a full register takes its constant, anything else what `rest` made of it. -/
def looseSummand (loose : U64 → Option U64) (rest : E) : E → E
  | .reg r =>
    if r.space = .register ∧ r.size = 8 then (loose r.offset).elim (.reg r) .const
    else rest
  | _ => rest

/-- The registers that are added to something replaced by their constant; an index, under a
scale, keeps its name. -/
def withLooseBases (loose : U64 → Option U64) : E → E
  | .add a b =>
    .add (looseSummand loose (withLooseBases loose a) a)
      (looseSummand loose (withLooseBases loose b) b)
  | .load a sz => .load (withLooseBases loose a) sz
  | .ext a => .ext (withLooseBases loose a)
  | x => x

def isPop (insn : LiftedInstruction) : Bool :=
  "pop ".toList.isPrefixOf insn.mnemonic.toList

/-- The storage is part of the general register at `offset`. -/
def writesRegister (offset : U64) (op : PcodeOp) : Bool :=
  op.output.any fun o => o.space = .register ∧ o.offset < 0xC0 ∧ o.offset &&& ~~~7 = offset

/-- What the last full write of the register says, if there is one: the constant it puts
there, or that it puts none. -/
def fullWrite (offset : U64) (insn : LiftedInstruction) : Option (Option U64) :=
  (insn.ops.reverse.filter (writesRegister offset)).findSome? fun op => op.output.bind fun o =>
      if o.size = 8 then
        some (if op.opcode = .copy then
          ((op.input 0).filter fun v => v.space = .const).map VarnodeData.offset else none)
      else none

def nearestConstant (insns : List LiftedInstruction) (start : ℕ) (offset : U64) : Option U64 :=
  if 0xC0 ≤ offset ∨ offset &&& 7 ≠ 0 then none
  else
    (((insns.take start).drop (start - maxBack)).reverse.findSome? fun insn =>
      if !insn.ops.any (writesRegister offset) || isPop insn then none
      else fullWrite offset insn).join

def tableSlot (addr : E) (scale : U64) : Option (U64 × E) :=
  match addr with
  | .add (.const t) (.mul i s) =>
    if s = scale then some (t, i) else if scale = 1 then some (t, .mul i s) else none
  | .add (.mul i s) (.const t) =>
    if s = scale then some (t, i) else if scale = 1 then some (t, .mul i s) else none
  | .add (.const _) (.const _) => none
  | .add (.const t) i => if scale = 1 then some (t, i) else none
  | .add i (.const t) => if scale = 1 then some (t, i) else none
  | _ => none

def relativeEntry (t2 : U64) : E → Option (U64 × Bool × E)
  | .ext (.load addr 4) =>
    (tableSlot addr 4).bind fun s => if s.1 = t2 then some (s.1, true, s.2) else none
  | _ => none

/-- `(table, relative, index)`. -/
def dispatch : E → Option (U64 × Bool × E)
  | .add (.const t) x => relativeEntry t x
  | .add x (.const t) => relativeEntry t x
  | .load addr 8 => (tableSlot addr 8).map fun s => (s.1, false, s.2)
  | _ => none

/-- The expression under its extensions. -/
def stripExt : E → E
  | .ext x => stripExt x
  | x => x

/-- The index of a two-level table: `(T1, entry size, i)`. -/
def indexTable (index : E) : Option (U64 × ℕ × E) :=
  match stripExt index with
  | .load addr sz =>
    if sz = 1 ∨ sz = 2 then (tableSlot addr (BitVec.ofNat 64 sz)).map fun s => (s.1, sz, s.2)
    else none
  | _ => none

def insnAt (insns : List LiftedInstruction) (i : ℕ) : LiftedInstruction := insns.getD i default

def slice (insns : List LiftedInstruction) (st k : ℕ) : List LiftedInstruction :=
  (insns.take (k + 1)).drop st

def isWindowEnd (insn : LiftedInstruction) : Bool :=
  [OpCode.cBranch, .branch, .return, .call, .callInd, .branchInd].any fun o => hasOp o insn

/-- At most so many instructions back from `start`, while they fall into one another. -/
def windowFrom (insns : List LiftedInstruction) : ℕ → ℕ → ℕ
  | _, 0 => 0
  | 0, start => start
  | n + 1, start + 1 =>
    let p := insnAt insns start
    if isWindowEnd p || endAddrOf p ≠ (insnAt insns (start + 1)).address then start + 1
    else windowFrom insns n start

def windowStart (insns : List LiftedInstruction) (k : ℕ) : ℕ := windowFrom insns maxWindow k

def window (insns : List LiftedInstruction) (k : ℕ) : List LiftedInstruction :=
  slice insns (windowStart insns k) k

/-- The starts of the window's straight lines to the jump. -/
def starts (insns : List LiftedInstruction) (k : ℕ) : List ℕ :=
  List.range' (windowStart insns k) (k + 1 - windowStart insns k)

/-- What the indirect jump reads. -/
def targetVarnode (insns : List LiftedInstruction) (k : ℕ) : Option VarnodeData :=
  ((insnAt insns k).ops.find? fun o => o.opcode = .branchInd).bind fun o => o.input 0

/-- What may become a constant. -/
def constant : E → Bool
  | .const _ => true
  | .reg _ => true
  | .ext a => constant a
  | _ => false

def scaled (scale : U64) : E → E → Bool
  | .mul _ s, x => s = scale && constant x
  | _, _ => false

def slot (scale : U64) : E → Bool
  | .add a b => scaled scale a b || scaled scale b a
  | _ => false

def entry : E → Bool
  | .ext (.load addr 4) => slot 4 addr
  | _ => false

def mayBeDispatch : E → Bool
  | .add a b => (constant a && entry b) || (constant b && entry a)
  | .load addr 8 => slot 8 addr
  | _ => false

def mayDispatch (insns : List LiftedInstruction) (k : ℕ) : Bool :=
  (targetVarnode insns k).any fun v =>
    (starts insns k).any fun st => mayBeDispatch (evaluate (slice insns st k) v)

/-- The number of cases a bounds check `cmp r, N` lets through. -/
abbrev CaseCount := U64 → Option U64

def plus1 : CaseCount := fun n => if n = BitVec.allOnes 64 then none else some (n + 1)
def same : CaseCount := some

/-- The count of the cases and whether the conditional jump goes to the dispatch. -/
def boundsKind (mnemonic : String) : Option (CaseCount × Bool) :=
  let word := String.ofList (firstWord mnemonic)
  if word ∈ ["ja", "jnbe", "jg", "jnle"] then some (plus1, false)
  else if word ∈ ["jae", "jnb", "jnc", "jge", "jnl"] then some (same, false)
  else if word ∈ ["jbe", "jna", "jle", "jng"] then some (plus1, true)
  else if word ∈ ["jb", "jnae", "jc", "jl", "jnge"] then some (same, true)
  else none

def cbranchTarget (insn : LiftedInstruction) : Option U64 :=
  (((insn.ops.find? fun o => o.opcode = .cBranch).bind fun o => o.input 0).filter
    fun t => t.space = .ram).map VarnodeData.offset

abbrev Interval := U64 × U64

/-- A dispatch recovered: its index register, the window's first instruction, the table. -/
abbrev Recovered := VarnodeData × ℕ × JumpTable

/-- A dispatch found in the window before its table is read. `level1` is the table of slots
and its entries' size. -/
structure Dispatch where
  start : ℕ
  table : U64
  relative : Bool
  level1 : Option (U64 × ℕ)
  index : VarnodeData
  isLoose : Bool
  deriving DecidableEq, Repr

/-- How the registers get their constants: those set once, then those set to one constant
among other writes, then the constant last written before the window. -/
inductive Mode where
  | once | loose | nearest
  deriving DecidableEq, Repr

section Recovery

variable (insns : List LiftedInstruction) (k : ℕ) (addrs : Finset U64)
  (bases loose : U64 → Option U64) (loaded : Finset U64) (memory : Memory)
  (range : ℕ → VarnodeData → Option Interval)

def substituted (mode : Mode) (st : ℕ) (v : VarnodeData) : E :=
  let target := withBases bases (evaluate (slice insns st k) v)
  match mode with
  | .once => target
  | .loose => withLooseBases loose target
  | .nearest => withLooseBases (nearestConstant insns st) target

def slotTable (index : E) : E × Option (U64 × ℕ) :=
  match (indexTable index).filter fun t => (memory.findBlock t.1).isSome with
  | some (t1, sz, i) => (i, some (t1, sz))
  | none => (index, none)

def asRegister : E → Option VarnodeData
  | .reg r => some r
  | _ => none

def dispatchFrom (v : VarnodeData) (mode : Mode) (st : ℕ) : Option Dispatch :=
  (dispatch (substituted insns k bases loose mode st v)).bind fun (table, relative, index) =>
    let (index, level1) := slotTable memory index
    (asRegister (stripExt index)).map fun r =>
      ⟨st, table, relative, level1, r, decide (mode ≠ .once)⟩

def findDispatch (v : VarnodeData) : Option Dispatch :=
  [Mode.once, .loose, .nearest].findSome? fun mode =>
    (starts insns k).findSome? fun st => dispatchFrom insns k bases loose memory v mode st

variable (d : Dispatch)

def readEntry (slot : U64) : Option U64 :=
  if d.relative then
    (memory.readU32 (d.table + 4 * slot)).map fun e => d.table + e.signExtend 64
  else memory.readU64 (d.table + 8 * slot)

/-- The index's range on every path to the window. -/
def byRange : Option Recovered :=
  if d.level1.isSome then none
  else
    (range d.start d.index).bind fun (lo, hi) =>
      if hi = 0 ∨ maxEntries ≤ hi.toNat ∨ hi < lo then none
      else
        ((List.range (hi.toNat + 1)).mapM fun i =>
          (readEntry memory d (BitVec.ofNat 64 i)).filter (· ∈ addrs)).map fun targets =>
            (d.index, d.start, ⟨(insnAt insns k).address, targets, none⟩)

/-- One operation of the straight line: how many values it leaves the index register. -/
def rangeAfter (r : VarnodeData) (seen : Option U64) (op : PcodeOp) : Option U64 :=
  match op.output with
  | none => seen
  | some out =>
    if ¬ (out.space = r.space ∧ out.offset = r.offset) then seen
    else
      let c := ((op.input 1).filter fun v => v.space = .const).map VarnodeData.offset
      match op.opcode, c with
      | .intRight, some s =>
        if 0 < s ∧ s.toNat < out.size * 8 then some (1 <<< min (out.size * 8 - s.toNat) 63)
        else none
      | .intAnd, some m => if m.toNat < maxEntries then some (m + 1) else none
      | .intZExt, _ =>
        if (op.input 0).any fun i => i.space = r.space ∧ i.offset = r.offset then seen else none
      | .subpiece, _ => if out.size < r.size then seen else none
      | _, _ => none

def readsTable (insn : LiftedInstruction) : Bool :=
  ["*4]", "*8]", "*4+", "*8+"].any fun s => s.toList <:+: insn.mnemonic.toList

/-- The number of values the index register can hold when the straight line computes it with
a shift right or a low mask. -/
def indexRange («from» : ℕ) (r : VarnodeData) : Option U64 :=
  let line := (insns.take k).drop «from»
  let upTo := line.take ((line.findIdx? readsTable).getD line.length)
  (upTo.flatMap LiftedInstruction.ops).foldl (rangeAfter r) none

def codeEnd : U64 := (insns.map endAddrOf).foldl max 0

/-- The entries while they are instructions of the function, or the one right after it. -/
def scanEntries (width : U64) : ℕ → U64 → List U64
  | 0, _ => []
  | n + 1, i =>
    if 0 < i ∧ d.table + width * i ∈ loaded then []
    else
      match readEntry memory d i with
      | none => []
      | some t =>
        if t ∈ addrs then t :: scanEntries width n (i + 1)
        else if t = codeEnd insns ∧ 0 < i then (tailStubBase + t) :: scanEntries width n (i + 1)
        else []

/-- No bounds check: the table runs while its entries are instructions of the function. -/
def byScan : Option Recovered :=
  if d.level1.isSome || ((insns.take k).drop d.start).any (hasOp .cBranch) then none
  else
    let shown := ((indexRange insns k (windowStart insns k) d.index).filter (2 ≤ ·)).getD
      (BitVec.ofNat 64 maxEntries)
    let limit := ((range d.start d.index).filter fun p => 1 ≤ p.2).elim shown
      fun p => min shown (p.2 + 1)
    let width := if d.relative then 4 else 8
    let targets := (scanEntries insns addrs loaded memory d width
      (min limit.toNat maxEntries) 0).rdropWhile (tailStubBase ≤ ·)
    if targets.length < 2 then none
    else some (d.index, d.start, ⟨(insnAt insns k).address, targets, none⟩)

/-- The conditional jump right before the window that falls into it. -/
def fallsInto (start : ℕ) : Option ℕ :=
  if start = 0 then none
  else
    let p := insnAt insns (start - 1)
    if hasOp .cBranch p ∧ endAddrOf p = (insnAt insns start).address ∧
        (boundsKind p.mnemonic).any (!·.2) then some (start - 1)
    else none

/-- The first conditional jump to the window's start. -/
def jumpsTo (start : ℕ) : Option ℕ :=
  insns.findIdx? fun i =>
    cbranchTarget i = some (insnAt insns start).address ∧ (boundsKind i.mnemonic).any (·.2)

/-- The `cmp` of an instruction: what its carry flag compares. -/
def comparison (insn : LiftedInstruction) : Option (VarnodeData × VarnodeData) :=
  insn.ops.findSome? fun o => o.output.bind fun out =>
      if o.opcode = .intLess ∧ out.space = .register ∧ out.offset = cfOffset ∧
          o.inputs.length = 2 then
        (o.input 0).bind fun x => (o.input 1).map fun n => (x, n)
      else none

/-- The closest comparison among the three instructions before the conditional jump. -/
def findComparison (j : ℕ) : Option (ℕ × VarnodeData × VarnodeData) :=
  (List.range' (j - 3) (j - (j - 3))).reverse.findSome? fun c =>
    (comparison (insnAt insns c)).map fun p => (c, p)

/-- Some operation of these instructions writes part of the register. -/
def writtenIn (r : VarnodeData) (line : List LiftedInstruction) : Bool :=
  line.any fun i => i.ops.any fun o => o.output.any fun w => overlaps r w

def executable (t : U64) : Bool :=
  (memory.findBlock t).any fun b => b.flags.contains MemoryFlags.execute

/-- Case `i` of a bounds-checked table. -/
def caseTarget (i : U64) : Option U64 :=
  let slot : Option U64 :=
    match d.level1 with
    | some (t1, 1) => (memory.readByte (t1 + i)).map (BitVec.setWidth 64)
    | some (t1, _) => (memory.readU16 (t1 + 2 * i)).map (BitVec.setWidth 64)
    | none => some i
  slot.bind fun slot => if maxEntries < slot.toNat then none
    else
      (readEntry memory d slot).bind fun t => if t ∈ addrs then some t
        else if executable memory t && !d.isLoose then some (tailStubBase + t)
        else none

/-- The default of a bounds check; one out of the function is a tail call there. -/
def defaultTarget (default : Option U64) : Option (Option U64) :=
  match default with
  | none => some none
  | some t =>
    if t ∈ addrs then some (some t)
    else if executable memory t then some (some (tailStubBase + t))
    else none

/-- The table behind a bounds check that lets so many cases through. -/
def byCount (default : Option U64) (cases : U64) : Option Recovered :=
  if cases = 0 ∨ maxEntries < cases.toNat then none
  else
    ((List.range cases.toNat).mapM fun i => caseTarget addrs memory d (BitVec.ofNat 64 i)).bind
      fun targets => (defaultTarget addrs memory default).map fun default =>
        (d.index, d.start, ⟨(insnAt insns k).address, targets, default⟩)

/-- The table behind the conditional jump `j`. -/
def byCheck (j : ℕ) : Option Recovered :=
  let jcc := insnAt insns j
  (boundsKind jcc.mnemonic).bind fun (count, toDispatch) =>
    let default := if toDispatch then some (endAddrOf jcc) else cbranchTarget jcc
    let ranged := byRange insns k addrs memory range d
    let scanned := byScan insns k addrs loaded memory range d
    match findComparison insns j with
    | none => ranged.or scanned
    | some (c, x, n) =>
      if ¬ (x.space = d.index.space ∧ x.offset = d.index.offset) then ranged.or scanned
      else if n.space ≠ .const then ranged
      else if writtenIn d.index ((insns.take (j + 1)).drop (c + 1)) then ranged
      else (count n.offset).bind fun cases => byCount insns k addrs memory d default cases

/-- The table of a dispatch found. -/
def readTable : Option Recovered :=
  match (fallsInto insns d.start).or (jumpsTo insns d.start) with
  | none =>
    (byRange insns k addrs memory range d).or (byScan insns k addrs loaded memory range d)
  | some j => byCheck insns k addrs loaded memory range d j

end Recovery

def recoverOne (insns : List LiftedInstruction) (k : ℕ) (addrs : Finset U64)
    (bases loose : U64 → Option U64) (loaded : Finset U64) (memory : Memory)
    (range : ℕ → VarnodeData → Option Interval) : Option Recovered :=
  (targetVarnode insns k).bind fun v => (findDispatch insns k bases loose memory v).bind fun d =>
      readTable insns k addrs loaded memory range d

end JumpTables
