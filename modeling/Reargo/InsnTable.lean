import Mathlib.Data.List.Basic

/-!
# The table of instruction facts

What a range walk needs of the instruction at each address, found once and kept, and the
spans that summarise the instructions of a 256-byte region for a walk to step over at once.
Addresses are natural numbers: none reaches the end of the address space.
-/
namespace InsnTable

/-- What is known of the instruction at an address. -/
structure Facts where
  failed : Bool
  x87 : Bool
  readsPf : Bool
  writesPf : Bool
  stops : Bool
  length : ℕ
  pos : 0 < length
  short : length ≤ 15

def pageBytes : ℕ := 4096

def spanBytes : ℕ := 256

/-- The first address of the next region. -/
def boundary (addr : ℕ) : ℕ := (addr / spanBytes + 1) * spanBytes

section Spans

def spanKnown : BitVec 32 := BitVec.twoPow 32 31
def spanStop : BitVec 32 := BitVec.twoPow 32 30
def spanFailClear : BitVec 32 := BitVec.twoPow 32 29
def spanFailSet : BitVec 32 := BitVec.twoPow 32 28
def spanOutClear : BitVec 32 := BitVec.twoPow 32 27
def spanOutSet : BitVec 32 := BitVec.twoPow 32 26

/-- The instructions from an address to the next region's start, packed: flags, the PF
transfer, the count (bits 0 to 8) and the length in bytes (bits 9 to 17). -/
structure Span where
  bits : BitVec 32
  deriving DecidableEq

def Span.count (s : Span) : ℕ := (s.bits &&& 0x1ff#32).toNat

def Span.bytes (s : Span) : ℕ := ((s.bits >>> 9) &&& 0x1ff#32).toNat

def Span.has (s : Span) (flag : BitVec 32) : Bool := s.bits &&& flag != 0#32

def Span.pf (s : Span) (pfWritten : Bool) : Option Bool :=
  if s.has (if pfWritten then spanFailSet else spanFailClear) then none
  else some (s.has (if pfWritten then spanOutSet else spanOutClear))

/-- The flag of one entry state's transfer. -/
def pfFlag (fail out : BitVec 32) : Option Bool → BitVec 32
  | none => fail
  | some true => out
  | some false => 0#32

def Span.pack (n bytes : ℕ) (stop : Bool) (pfClear pfSet : Option Bool) : Span :=
  ⟨spanKnown ||| BitVec.ofNat 32 n ||| (BitVec.ofNat 32 bytes <<< 9) |||
    (if stop then spanStop else 0#32) ||| pfFlag spanFailClear spanOutClear pfClear |||
    pfFlag spanFailSet spanOutSet pfSet⟩

end Spans

section Table

/-- The facts in pages, by page number, and the two slots of spans of each region, by their
offset in it. -/
structure Table where
  base : ℕ
  limit : ℕ
  pages : ℕ → Option (ℕ → Option Facts)
  spans : ℕ → List (Option (ℕ × Span))

namespace Table

def new (base limit : ℕ) : Table := ⟨base, limit, fun _ => none, fun _ => [none, none]⟩

def covers (t : Table) (addr : ℕ) : Bool := decide (t.base ≤ addr) && decide (addr < t.limit)

def cell (t : Table) (addr : ℕ) : Option Facts :=
  (t.pages (addr / pageBytes)).bind fun page => page (addr % pageBytes)

def store (t : Table) (addr : ℕ) (f : Facts) : Table :=
  { t with
    pages := Function.update t.pages (addr / pageBytes)
      ((t.pages (addr / pageBytes)).map fun page => Function.update page (addr % pageBytes) (some f)) }

/-- The page of an address inside the table, allocated when first used. -/
def page (t : Table) (addr : ℕ) : Option Table :=
  if t.covers addr then
    some { t with
      pages := Function.update t.pages (addr / pageBytes)
        (some ((t.pages (addr / pageBytes)).getD fun _ => none)) }
  else none

/-- The page of an address, also past the table's end: an allocated one. -/
def pageUnchecked (t : Table) (addr : ℕ) : Option (ℕ → Option Facts) :=
  if t.base / pageBytes ≤ addr / pageBytes then t.pages (addr / pageBytes) else none

def length (t : Table) (addr : ℕ) : Option ℕ :=
  (t.pageUnchecked addr).bind fun page => (page (addr % pageBytes)).map Facts.length

def spanAt (t : Table) (addr : ℕ) : Option Span :=
  (t.spans (addr / spanBytes)).findSome? fun slot =>
    slot.bind fun e => if e.1 = addr % spanBytes then some e.2 else none

/-- Into the first free slot, unless one has the key. -/
def keepIn (key : ℕ) (v : Span) : List (Option (ℕ × Span)) → List (Option (ℕ × Span))
  | [] => []
  | none :: rest => some (key, v) :: rest
  | some e :: rest => if e.1 = key then some e :: rest else some e :: keepIn key v rest

def keepSpan (t : Table) (addr : ℕ) (v : Span) : Table :=
  { t with
    spans := Function.update t.spans (addr / spanBytes)
      (keepIn (addr % spanBytes) v (t.spans (addr / spanBytes))) }

end Table

variable (facts : ℕ → Facts)

/-- The facts of an address in an allocated page, found when not known yet. -/
def fill (t : Table) (addr : ℕ) : Facts × Table :=
  match t.cell addr with
  | some f => (f, t)
  | none => (facts addr, t.store addr (facts addr))

def fact (t : Table) (addr : ℕ) : Option (Facts × Table) :=
  (t.page addr).map fun t => fill facts t addr

/-- Whether PF was written since the last look-back stop, `none` when a read finds it was
not. -/
def Facts.pf (f : Facts) (w : Bool) : Option Bool :=
  if f.readsPf && !w then none
  else some (if f.writesPf then true else if f.stops then false else w)

structure SpanState where
  table : Table
  addr : ℕ
  n : ℕ
  stop : Bool
  pfClear : Option Bool
  pfSet : Option Bool

def spanLoop (bound : ℕ) : ℕ → SpanState → SpanState
  | 0, s => s
  | fuel + 1, s =>
    if s.addr < bound then
      match fact facts s.table s.addr with
      | none => { s with stop := true }
      | some (f, t) =>
        if f.failed || f.x87 then { s with table := t, stop := true }
        else spanLoop bound fuel
          ⟨t, s.addr + f.length, s.n + 1, false, s.pfClear.bind f.pf, s.pfSet.bind f.pf⟩
    else s

/-- The span at `addr`, computed when no walk left it, and left with `keep`. -/
def span (t : Table) (addr : ℕ) (keep : Bool) : Span × Table :=
  if t.covers addr then
    match t.spanAt addr with
    | some v => (v, t)
    | none =>
      let s := spanLoop facts (boundary addr) spanBytes ⟨t, addr, 0, false, some false, some true⟩
      let v := Span.pack s.n (s.addr - addr) s.stop s.pfClear s.pfSet
      (v, if keep then s.table.keepSpan addr v else s.table)
  else (⟨spanKnown ||| spanStop⟩, t)

end Table

section Walks

/-- A walk's addresses as checkpoints `(address, index)`, the addresses from each to the
next listed when first asked about. -/
structure PlainWalk where
  checkpoints : List (ℕ × ℕ)
  len : ℕ
  needsPf : Bool
  expanded : List (Option (Option (List ℕ)))

def PlainWalk.new (checkpoints : List (ℕ × ℕ)) (len : ℕ) (needsPf : Bool) : PlainWalk :=
  ⟨checkpoints, len, needsPf, checkpoints.map fun _ => none⟩

variable (facts : ℕ → Facts)

/-- A walk under way; `held` is the page whose cells it reads without looking at the
table's bounds. -/
structure Walker where
  table : Table
  addr : ℕ
  idx : ℕ
  held : Option ℕ
  checkPf : Bool
  needsPf : Bool
  pfWritten : Bool
  checkpoints : List (ℕ × ℕ)

inductive Outcome where
  | more (s : Walker)
  | done (s : Walker)
  | refused (t : Table)

def Walker.enter (s : Walker) : Option Walker :=
  if s.held = some (s.addr / pageBytes) then some s
  else (s.table.page s.addr).map fun t =>
    { s with table := t, held := some (s.addr / pageBytes) }

/-- The check of PF along one instruction or one span, given what it makes of the state. -/
def Walker.pf (s : Walker) (relift : Bool) (transfer : Bool → Option Bool) : Option Walker :=
  if s.checkPf then
    match transfer s.pfWritten with
    | some w => some { s with pfWritten := w }
    | none => if relift then some { s with needsPf := true, checkPf := false } else none
  else some s

/-- One instruction at a time, to the span's end. -/
def stepLoop (relift : Bool) (count bound : ℕ) : ℕ → Walker → Outcome
  | 0, s => .more s
  | fuel + 1, s =>
    if s.idx < count ∧ s.addr < bound then
      match s.enter with
      | none => .refused s.table
      | some s =>
        let (f, t) := fill facts s.table s.addr
        if f.failed then .done { s with table := t }
        else if f.x87 then .refused t
        else
          match s.pf relift f.pf with
          | none => .refused t
          | some s => stepLoop relift count bound fuel
              { s with table := t, idx := s.idx + 1, addr := s.addr + f.length }
    else .more s

/-- At most one turn for each instruction. -/
def walkLoop (relift : Bool) (start count : ℕ) : ℕ → Walker → Outcome
  | 0, s => .done s
  | fuel + 1, s =>
    if s.idx < count then
      match s.enter with
      | none => .refused s.table
      | some s =>
        let (v, t) := span facts s.table s.addr (s.addr != start)
        let s := { s with table := t, checkpoints := s.checkpoints ++ [(s.addr, s.idx)] }
        if !v.has spanStop && decide (s.idx + v.count ≤ count) && decide (0 < v.count) then
          match s.pf relift v.pf with
          | none => .refused t
          | some s => walkLoop relift start count fuel
              { s with idx := s.idx + v.count, addr := s.addr + v.bytes }
        else
          match stepLoop facts relift count (boundary s.addr) spanBytes s with
          | .more s => walkLoop relift start count fuel s
          | o => o
    else .done s

def plainWalk (parity : Bool) (t : Table) (start count : ℕ) (relift : Bool) :
    Option PlainWalk × Table :=
  match walkLoop facts relift start count count ⟨t, start, 0, none, parity, false, false, []⟩ with
  | .refused t => (none, t)
  | .more s => (some (.new s.checkpoints s.idx s.needsPf), s.table)
  | .done s => (some (.new s.checkpoints s.idx s.needsPf), s.table)

def rangeLoop (parity : Bool) : ℕ → Table → ℕ → Option ℕ → Bool → List ℕ →
    Option (List ℕ) × Table
  | 0, t, _, _, _, addrs => (some addrs, t)
  | n + 1, t, addr, held, w, addrs =>
    match (if held = some (addr / pageBytes) then some t else t.page addr) with
    | none => (none, t)
    | some t =>
      let (f, t) := fill facts t addr
      if f.failed then (some addrs, t)
      else if f.x87 then (none, t)
      else
        match (if parity then f.pf w else some w) with
        | none => (none, t)
        | some w =>
          rangeLoop parity n t (addr + f.length) (some (addr / pageBytes)) w (addrs ++ [addr])

def plainRange (parity : Bool) (t : Table) (start count : ℕ) : Option (List ℕ) × Table :=
  rangeLoop facts parity count t start none false []

end Walks

namespace PlainWalk

def isEmpty (w : PlainWalk) : Bool := w.len == 0

def first (w : PlainWalk) : Option ℕ :=
  if 0 < w.len then w.checkpoints.head?.map Prod.fst else none

/-- The index after the instructions from checkpoint `k` on. -/
def stop (w : PlainWalk) (k : ℕ) : ℕ := (w.checkpoints[k + 1]?.map Prod.snd).getD w.len

def expandFrom (t : Table) : ℕ → ℕ → Option (List ℕ)
  | 0, _ => some []
  | n + 1, addr => do
    let len ← t.length addr
    let rest ← expandFrom t n (addr + len)
    return addr :: rest

def expand (t : Table) (w : PlainWalk) (k : ℕ) : Option (List ℕ) :=
  match w.checkpoints[k]? with
  | none => none
  | some (addr, first) => expandFrom t (w.stop k - first) addr

/-- The position of an element of an increasing list, as a binary search finds it. -/
def position (l : List ℕ) (a : ℕ) : Option ℕ := if a ∈ l then some (l.idxOf a) else none

def indexOf (t : Table) (w : PlainWalk) (addr : ℕ) : Option ℕ × PlainWalk :=
  match (w.checkpoints.takeWhile fun c => decide (c.1 ≤ addr)).length with
  | 0 => (none, w)
  | k + 1 =>
    let listed := (w.expanded[k]?.join).getD (expand t w k)
    let w' := { w with expanded := w.expanded.set k (some listed) }
    match listed, w.checkpoints[k]? with
    | some addrs, some (_, first) => ((position addrs addr).map (first + ·), w')
    | _, _ => (none, w')

/-- `f` on the addresses from `addr` on while it says to go on; `false` when it did not or
a length is not known. -/
def eachFrom {σ : Type} (t : Table) (f : σ → ℕ → σ × Bool) : ℕ → ℕ → σ → σ × Bool
  | 0, _, s => (s, true)
  | n + 1, addr, s =>
    match f s addr with
    | (s, false) => (s, false)
    | (s, true) =>
      match t.length addr with
      | none => (s, false)
      | some len => eachFrom t f n (addr + len) s

def eachPart {σ : Type} (t : Table) (w : PlainWalk) (f : σ → ℕ → σ × Bool) :
    List ((ℕ × ℕ) × ℕ) → σ → σ
  | [], s => s
  | ((addr, first), k) :: rest, s =>
    match eachFrom t f (w.stop k - first) addr s with
    | (s, true) => eachPart t w f rest s
    | (s, false) => s

/-- `f` called with the walk's addresses in order while it returns `true`. -/
def each {σ : Type} (t : Table) (w : PlainWalk) (f : σ → ℕ → σ × Bool) (s : σ) : σ :=
  eachPart t w f w.checkpoints.zipIdx s

def lastFrom (t : Table) : ℕ → ℕ → Option ℕ
  | 0, addr => some addr
  | n + 1, addr => (t.length addr).bind fun len => lastFrom t n (addr + len)

def last (t : Table) (w : PlainWalk) : Option ℕ :=
  match w.checkpoints.getLast? with
  | none => none
  | some (addr, i) =>
    (lastFrom t (w.len - (i + 1)) addr).bind fun a => if 0 < w.len then some a else none

end PlainWalk

end InsnTable
