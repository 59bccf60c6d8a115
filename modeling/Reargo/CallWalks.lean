import Reargo.BlockMarks
import Reargo.ByteEval
import Reargo.CallSites
import Reargo.RegisterBytes

/-!
# The walk of a function for its call sites

A tracker follows the constants along a lift and drops them where another path joins. The
round-0 walk takes the joins and the owned calls from the lift; a later round walks the
prefix it needs with flags made of the marks, and steps over runs that give nothing.
-/
namespace CallWalks

open PcodeModel OrderedMap ByteConsts RegisterBytes BlockShapes BlockCfg BlockFlowAgree BlockMarks List
  Option Bool
open ControlFlow (LiftedInstruction)
open CallSites (pinned)

section Memory

def i64Min : ℤ := -2 ^ 63
def i64Max : ℤ := 2 ^ 63 - 1

/-- Bytes by space and offset, with the size they were stored with. -/
structure ByteMem (κ : Type) [LinearOrder κ] where
  entries : OrdMap (κ ×ₗ ℤ) (ℕ × ByteConst)

variable {κ : Type} [LinearOrder κ]

namespace ByteMem

def new : ByteMem κ := ⟨.empty⟩

def read (m : ByteMem κ) (space : κ) (offset : ℤ) (size : ℕ) : ByteConst :=
  match m.entries.get? (toLex (space, offset)) with
  | some (stored, v) => if size ≤ stored then v.trunc size else .unknown
  | none => .unknown

/-- An entry is at most eight bytes wide, so the overlapped ones start after `offset - 8`. -/
def write (m : ByteMem κ) (space : κ) (offset : ℤ) (size : ℕ) (v : ByteConst) : ByteMem κ :=
  let stop := min (offset + max size 1) i64Max
  let lo := max (offset - 8) i64Min
  let kept := m.entries.filter fun at' e =>
    !(decide (toLex (space, lo) ≤ at') && decide (at' < toLex (space, stop))) ||
      decide (min ((ofLex at').2 + e.1) i64Max ≤ offset)
  if size ≤ 8 ∧ !(v.trunc size).isUnknown then
    ⟨kept.insert (toLex (space, offset)) (size, v.trunc size)⟩
  else ⟨kept⟩

def clear (_ : ByteMem κ) : ByteMem κ := new

end ByteMem

end Memory

section Operations

/-- The first intrinsic number of those that name their effect. -/
def intrinsicBase : U64 := 0x100

/-- An instruction left opaque: it may write any register. -/
def isUnmodeled (op : PcodeOp) : Bool :=
  op.opcode = .callOther ∧ op.inputs.head?.any fun t =>
    t.space = .const ∧ t.offset < intrinsicBase ∧ t.offset ≠ ControlFlow.noreturn

def isViewRefresh (op : PcodeOp) : Bool :=
  match op.opcode, op.output, op.inputs with
  | .subpiece, some out, src :: k :: _ =>
    out.space = .register ∧ src.space = .register ∧ k.space = .const ∧
      out.offset = src.offset + k.offset ∧
      min (k.offset.toNat + out.size) (2 ^ 64 - 1) ≤ src.size
  | _, _, _ => false

def rbpOffset : U64 := 0x28
def rspOffset : U64 := 0x20

def argRegs : List (U64 × String) :=
  [(0x38, "rdi"), (0x30, "rsi"), (0x10, "rdx"), (0x08, "rcx"), (0x80, "r8"), (0x88, "r9")]

def isFrameBase (vn : VarnodeData) : Bool :=
  vn.space = .register ∧ vn.offset = rbpOffset ∧ vn.size = 8

def signed (vn : VarnodeData) : BitVec 64 :=
  let bits := min vn.size 8 * 8
  if bits = 0 ∨ bits ≥ 64 then vn.offset else (vn.offset <<< (64 - bits)).sshiftRight (64 - bits)

/-- The signed offset `N` of `rbp + N` or `rbp - N`. -/
def frameAddress (op : PcodeOp) : Option (BitVec 64) :=
  match op.inputs with
  | a :: b :: _ =>
    if op.opcode ≠ .intAdd ∧ op.opcode ≠ .intSub then none
    else if isFrameBase a ∧ b.space = .const then
      some (if op.opcode = .intSub then -signed b else signed b)
    else if isFrameBase b ∧ a.space = .const ∧ op.opcode = .intAdd then some (signed a)
    else none
  | _ => none

end Operations

structure Tracker where
  regs : RegFile
  temps : ByteMem SpaceId
  frameOffsets : OrdMap U64 (BitVec 64)
  stack : ByteMem Unit
  rspTemps : Finset U64
  escaped : Bool
  rbpWritten : Bool

namespace Tracker

def new : Tracker := ⟨.new, .new, .empty, .new, ∅, false, false⟩

/-- The stack stays, unless one of its addresses escaped. -/
def clearForCall (t : Tracker) : Tracker :=
  { t with
    regs := t.regs.clear
    temps := t.temps.clear
    frameOffsets := .empty
    rspTemps := ∅
    stack := if t.escaped then t.stack.clear else t.stack }

def reset (t : Tracker) : Tracker :=
  let t := t.clearForCall
  { t with stack := t.stack.clear }

def isStackAddress (t : Tracker) (vn : VarnodeData) : Bool :=
  if vn.space = .register then
    vn.offset = rspOffset ∨ vn.offset = rbpOffset ∧ t.rbpWritten
  else if vn.space = .unique then
    (t.frameOffsets.get? vn.offset).isSome ∨ vn.offset ∈ t.rspTemps
  else false

def read (t : Tracker) (vn : VarnodeData) : ByteConst :=
  if vn.space = .const then .konst vn.offset vn.size
  else if vn.space = .register then t.regs.read vn.offset.toNat vn.size
  else t.temps.read vn.space vn.offset.toInt vn.size

def write (t : Tracker) (out : VarnodeData) (v : ByteConst) : Tracker :=
  if out.space = .register then { t with regs := t.regs.write out.offset.toNat out.size v }
  else { t with temps := t.temps.write out.space out.offset.toInt out.size v }

def reg64 (t : Tracker) (offset : U64) : Option U64 := (t.regs.slot offset.toNat).get 8

/-- The frame slot the address of a load or a store is that of. -/
def frameSlot (t : Tracker) (addr : VarnodeData) : Option (BitVec 64) :=
  if addr.space = .unique then t.frameOffsets.get? addr.offset else none

def applyStore (t : Tracker) (op : PcodeOp) : Tracker :=
  match op.inputs with
  | _ :: addr :: value :: _ =>
    let t := { t with escaped := t.escaped || t.isStackAddress value }
    { t with
      stack :=
        match t.frameSlot addr with
        | some off => t.stack.write () off.toInt value.size (t.read value)
        | none => if t.escaped || t.isStackAddress addr then t.stack.clear else t.stack }
  | _ => t

/-- What an operation that is no frame address writes. -/
def valueOf (t : Tracker) (op : PcodeOp) (out : VarnodeData) : ByteConst :=
  if op.opcode = .load then
    match (op.input 1).bind t.frameSlot with
    | some off => t.stack.read () off.toInt out.size
    | none => .unknown
  else (ByteEval.eval op t.read).getD .unknown

def applyOutput (t : Tracker) (op : PcodeOp) (out : VarnodeData) : Tracker :=
  let readsStackAddress : Bool := op.opcode ≠ .load ∧ op.inputs.any t.isStackAddress
  let t :=
    { t with
      rbpWritten := t.rbpWritten ||
        decide (out.space = SpaceId.register ∧ out.offset &&& ~~~7 = rbpOffset) }
  if out.space = SpaceId.unique then
    let t :=
      { t with
        frameOffsets := t.frameOffsets.filter fun k _ => k ≠ out.offset
        rspTemps := t.rspTemps.erase out.offset }
    match frameAddress op with
    | some off =>
      { t with frameOffsets := t.frameOffsets.insert out.offset off }.write out .unknown
    | none =>
      let t :=
        { t with
          rspTemps := if readsStackAddress then insert out.offset t.rspTemps else t.rspTemps }
      t.write out (t.valueOf op out)
  else
    -- a stack address in a general register can be passed on
    let t :=
      { t with
        escaped := t.escaped ||
          decide (out.space = SpaceId.register ∧ readsStackAddress ∧ out.offset < 0x200 ∧
            out.offset &&& ~~~7 ≠ rbpOffset ∧ out.offset &&& ~~~7 ≠ rspOffset) }
    t.write out (t.valueOf op out)

def apply (t : Tracker) (op : PcodeOp) : Tracker :=
  if isUnmodeled op then t.clearForCall
  else if op.opcode = .store then t.applyStore op
  else
    match op.output with
    | none => t
    | some out => if isViewRefresh op then t else t.applyOutput op out

/-- A parameter past the sixth that is pinned has no register. -/
def seedFromSummary (t : Tracker) (summary : List (Option (List U64))) : Option Tracker :=
  summary.zipIdx.foldlM (fun t param => match pinned param.1 with
    | none => some t
    | some v => argRegs[param.2]?.map fun reg => { t with regs := t.regs.set64 reg.1.toNat v }) t

end Tracker

section Walks

structure ResolvedArg where
  regOffset : U64
  regName : String
  value : Option U64

structure CallSite where
  callSite : U64
  callerFunction : U64
  callTarget : Option U64
  args : List ResolvedArg

abbrev ParamSummaries := OrdMap U64 (List (Option (List U64)))

structure Walk where
  tracker : Tracker
  out : List CallSite

def directCallTarget (op : PcodeOp) : Option U64 :=
  (op.inputs.head?.filter fun t => t.space = .ram ∨ t.space = .const).map
    VarnodeData.offset

def Tracker.args (t : Tracker) : List ResolvedArg :=
  argRegs.map fun reg => ⟨reg.1, reg.2, t.reg64 reg.1⟩

variable (entry : U64)

def walkOp (address : U64) (owned : Bool) (w : Walk) (op : PcodeOp) : Walk :=
  if op.opcode = .call ∨ op.opcode = .callInd then
    { tracker := w.tracker.clearForCall
      out :=
        if owned then w.out ++ [⟨address, entry, directCallTarget op, w.tracker.args⟩]
        else w.out }
  else { w with tracker := w.tracker.apply op }

def walkInsn (w : Walk) (insn : LiftedInstruction) (owned : Bool) : Walk :=
  insn.ops.foldl (walkOp entry insn.address owned) w

/-- The tracker a walk of the function starts with. -/
def seeded (summaries : ParamSummaries) : Option Tracker :=
  match summaries.get? entry with
  | some summary => Tracker.new.seedFromSummary summary
  | none => some .new

def Walk.reset (w : Walk) : Walk := { w with tracker := w.tracker.reset }

def walkJoined (w : Walk) (x : LiftedInstruction × Bool × Bool) : Walk :=
  walkInsn entry (if x.2.1 then w.reset else w) x.1 x.2.2

def joinPointsHashed (shape : LiftShape) : List Bool :=
  (List.range shape.addrs.length).map fun i => (decide (0 < i) && shape.stops (i - 1)) ||
      (shape.branches.map Prod.snd).contains (shape.addrs.getD i 0)

def joinPointsShaped (shape : LiftShape) : List Bool :=
  if shape.increasing then
    let out := shape.branches.foldl (fun out b => setStart out (binarySearch shape.addrs b.2))
      (List.replicate shape.addrs.length false)
    out.zipWith (· || ·) (false :: shape.flags.map fun f => decide (f &&& InsnShape.stops ≠ 0))
  else joinPointsHashed shape

def rposition (values : List Bool) : Option ℕ :=
  ((List.range values.length).filter fun i => values.getD i false).getLast?

/-- Nothing after the last owned call is recorded, so the walk stops there. -/
def walkFunctionShaped (insns : List LiftedInstruction) (shape : LiftShape)
    (summaries : ParamSummaries) (external : List U64) (ownsCall : U64 → Bool) :
    Option (List CallSite) := do
  let tracker ← seeded entry summaries
  let owned := (List.range shape.addrs.length).map fun i =>
    shape.hasCall i && ownsCall (shape.addrs.getD i 0)
  match rposition owned with
  | none => some []
  | some last =>
    let joins := (joinPointsShaped shape).zipWith (fun j a => j || external.contains a) shape.addrs
    some (((insns.take (last + 1)).zip (joins.zip owned)).foldl (walkJoined entry)
      ⟨tracker, []⟩).out

structure WalkPrefix where
  flags : List Byte
  plain : Bool

namespace WalkPrefix

def join : Byte := 1
def owned : Byte := 2

def ofMarks (shape : LiftShape) (marks : LiftMarks) (plain : Bool) : WalkPrefix :=
  let n := (marks.ownedCalls.getLast?.map (· + 1)).getD 0
  { flags := (List.range n).map fun i => let f := marks.flags.getD i 0
      let isJoin := hasBit f (LiftMarks.target ||| LiftMarks.external) ||
        (decide (0 < i) && shape.stops (i - 1))
      (if isJoin then join else 0) ||| (if hasBit f LiftMarks.ownedCall then owned else 0)
    plain := plain }

end WalkPrefix

/-- The walk of the rest. A run up to the next join that owns no call is stepped over once
what a reset keeps is set. -/
def walkRuns (w : Walk) : List (LiftedInstruction × Byte) → Walk
  | [] => w
  | x :: rest =>
    if hasBit x.2 WalkPrefix.join then
      let w := w.reset
      let run := x :: rest.takeWhile fun y => !hasBit y.2 WalkPrefix.join
      if w.tracker.escaped ∧ w.tracker.rbpWritten ∧
          run.all fun y => !hasBit y.2 WalkPrefix.owned then
        walkRuns w (rest.dropWhile fun y => !hasBit y.2 WalkPrefix.join)
      else walkRuns (walkInsn entry w x.1 (hasBit x.2 WalkPrefix.owned)) rest
    else walkRuns (walkInsn entry w x.1 (hasBit x.2 WalkPrefix.owned)) rest
termination_by l => l.length
decreasing_by
  · exact Nat.lt_succ_of_le (dropWhile_sublist _).length_le
  · exact Nat.lt_succ_self _
  · exact Nat.lt_succ_self _

def walkPrefix (insns : List LiftedInstruction) (flags : List Byte) (summaries : ParamSummaries) :
    Option (List CallSite) := do
  let tracker ← seeded entry summaries
  some (walkRuns entry ⟨tracker, []⟩ (insns.zip flags)).out

end Walks

section Kept

/-- What a reset keeps is only ever set. -/
structure Grows (t t' : Tracker) : Prop where
  escaped : t.escaped = true → t'.escaped = true
  rbpWritten : t.rbpWritten = true → t'.rbpWritten = true

theorem Grows.refl (t : Tracker) : Grows t t := ⟨id, id⟩

theorem Grows.trans {t t' t'' : Tracker} (h : Grows t t') (h' : Grows t' t'') : Grows t t'' :=
  ⟨h'.escaped ∘ h.escaped, h'.rbpWritten ∘ h.rbpWritten⟩

theorem grows_write (t : Tracker) (out : VarnodeData) (v : ByteConst) :
    Grows t (t.write out v) := by
  unfold Tracker.write
  split <;> exact ⟨id, id⟩

theorem grows_applyStore (t : Tracker) (op : PcodeOp) : Grows t (t.applyStore op) := by
  unfold Tracker.applyStore
  split
  · exact ⟨fun h => or_eq_true_iff.mpr (.inl h), id⟩
  · exact .refl t

theorem grows_applyOutput (t : Tracker) (op : PcodeOp) (out : VarnodeData) :
    Grows t (t.applyOutput op out) := by
  have left {a : Bool} (b : Bool) (h : a = true) : (a || b) = true :=
    or_eq_true_iff.mpr (.inl h)
  unfold Tracker.applyOutput
  dsimp only
  split
  · split
    · refine Grows.trans ?_ (grows_write _ out _)
      exact ⟨id, left _⟩
    · refine Grows.trans ?_ (grows_write _ out _)
      exact ⟨id, left _⟩
  · refine Grows.trans ?_ (grows_write _ out _)
    exact ⟨left _, left _⟩

theorem grows_apply (t : Tracker) (op : PcodeOp) : Grows t (t.apply op) := by
  unfold Tracker.apply
  split
  · exact ⟨id, id⟩
  · split
    · exact grows_applyStore t op
    · split
      · exact .refl t
      · split
        · exact .refl t
        · exact grows_applyOutput t op _

theorem reset_congr {t t' : Tracker} (hescaped : t.escaped = t'.escaped)
    (hwritten : t.rbpWritten = t'.rbpWritten) : t.reset = t'.reset := by
  change (⟨.new, .new, .empty, .new, ∅, t.escaped, t.rbpWritten⟩ : Tracker) =
    ⟨.new, .new, .empty, .new, ∅, t'.escaped, t'.rbpWritten⟩
  rw [hescaped, hwritten]

variable {entry : U64}

variable (entry) in
theorem grows_walkInsn (w : Walk) (insn : LiftedInstruction) (owned : Bool) :
    Grows w.tracker (walkInsn entry w insn owned).tracker := by
  unfold walkInsn
  induction insn.ops generalizing w with
  | nil => exact .refl _
  | cons op ops ih =>
    refine Grows.trans ?_ (ih _)
    unfold walkOp
    split
    · exact ⟨id, id⟩
    · exact grows_apply _ op

theorem walkInsn_out (w : Walk) (insn : LiftedInstruction) :
    (walkInsn entry w insn false).out = w.out := by
  unfold walkInsn
  induction insn.ops generalizing w with
  | nil => rfl
  | cons op ops ih =>
    refine (ih _).trans ?_
    unfold walkOp
    split <;> rfl

end Kept

section Runs

variable {entry : U64}

/-- The walk of every instruction, with none stepped over. -/
def walkEach (entry : U64) (w : Walk) (l : List (LiftedInstruction × Byte)) : Walk :=
  (l.map fun x => (x.1, hasBit x.2 WalkPrefix.join, hasBit x.2 WalkPrefix.owned)).foldl
    (walkJoined entry) w

theorem walkEach_cons (w : Walk) (x : LiftedInstruction × Byte)
    (l : List (LiftedInstruction × Byte)) :
    walkEach entry w (x :: l) =
      walkEach entry (walkInsn entry (if hasBit x.2 WalkPrefix.join then w.reset else w) x.1
        (hasBit x.2 WalkPrefix.owned)) l := rfl

theorem walkEach_append (w : Walk) (l l' : List (LiftedInstruction × Byte)) :
    walkEach entry w (l ++ l') = walkEach entry (walkEach entry w l) l' := by
  unfold walkEach
  rw [map_append, foldl_append]

variable (entry) in
theorem walkEach_idle {run : List (LiftedInstruction × Byte)} (w : Walk)
    (hjoin : ∀ x ∈ run, hasBit x.2 WalkPrefix.join = false)
    (howned : ∀ x ∈ run, hasBit x.2 WalkPrefix.owned = false) :
    (walkEach entry w run).out = w.out ∧ Grows w.tracker (walkEach entry w run).tracker := by
  induction run generalizing w with
  | nil => exact ⟨rfl, .refl _⟩
  | cons x run ih =>
    obtain ⟨hout, hgrows⟩ := ih (walkInsn entry w x.1 false)
      (fun y hy => hjoin y (mem_cons_of_mem _ hy))
      (fun y hy => howned y (mem_cons_of_mem _ hy))
    rw [walkEach_cons, hjoin x mem_cons_self, howned x mem_cons_self, if_neg nofun]
    exact ⟨hout.trans (walkInsn_out w x.1), (grows_walkInsn entry w x.1 false).trans hgrows⟩

theorem walkEach_congr {w w' : Walk} {l : List (LiftedInstruction × Byte)}
    (hout : w.out = w'.out) (hescaped : w.tracker.escaped = w'.tracker.escaped)
    (hwritten : w.tracker.rbpWritten = w'.tracker.rbpWritten)
    (hjoin : ∀ x ∈ l.head?, hasBit x.2 WalkPrefix.join = true) :
    (walkEach entry w l).out = (walkEach entry w' l).out := by
  cases l with
  | nil => exact hout
  | cons x l =>
    have hreset : w.reset = w'.reset := by
      unfold Walk.reset
      rw [reset_congr hescaped hwritten, hout]
    rw [walkEach_cons, walkEach_cons, if_pos (hjoin x rfl), if_pos (hjoin x rfl), hreset]

theorem walkRuns_out (w : Walk) (l : List (LiftedInstruction × Byte)) :
    (walkRuns entry w l).out = (walkEach entry w l).out := by
  induction w, l using walkRuns.induct entry with
  | case1 w => rw [walkRuns]; rfl
  | case2 w x rest hjoin r run hskip ih =>
    obtain ⟨hescaped, hwritten, hall⟩ := hskip
    have hnone (y) (hy : y ∈ run) : hasBit y.2 WalkPrefix.owned = false := by
      simpa using all_eq_true.mp hall y hy
    have hx := hnone x mem_cons_self
    have hidle : ∀ y ∈ rest.takeWhile fun y => !hasBit y.2 WalkPrefix.join,
        hasBit y.2 WalkPrefix.join = false := fun y hy => by
      simpa using mem_takeWhile_imp hy
    obtain ⟨hout, hgrows⟩ := walkEach_idle entry (walkInsn entry r x.1 false) hidle
      fun y hy => hnone y (mem_cons_of_mem _ hy)
    have hkept := (grows_walkInsn entry r x.1 false).trans hgrows
    rw [walkRuns, if_pos hjoin]
    dsimp only
    rw [if_pos ⟨hescaped, hwritten, hall⟩, ih, walkEach_cons, if_pos hjoin, hx]
    have hpast : ∀ y ∈ (rest.dropWhile fun y => !hasBit y.2 WalkPrefix.join).head?,
        hasBit y.2 WalkPrefix.join = true := by
      intro y hy
      have := head?_dropWhile_not (fun y => !hasBit y.2 WalkPrefix.join) rest
      rw [mem_def.mp hy] at this
      simpa using this
    refine (walkEach_congr (hout.trans (walkInsn_out r x.1)).symm
      (hescaped.trans (hkept.escaped hescaped).symm)
      (hwritten.trans (hkept.rbpWritten hwritten).symm) hpast).trans ?_
    rw [← walkEach_append, takeWhile_append_dropWhile]
  | case3 w x rest hjoin r run hskip ih =>
    rw [walkRuns, if_pos hjoin]
    dsimp only
    rw [if_neg hskip, ih, walkEach_cons, if_pos hjoin]
  | case4 w x rest hjoin ih =>
    rw [walkRuns, if_neg hjoin, ih, walkEach_cons, if_neg hjoin]

end Runs

section Marks

theorem foldl_markSpecial_owned (shape : LiftShape) (owns : ℕ → Bool) (l : List ℕ)
    (acc : List Byte × List ℕ × List (U64 × Bool)) :
    let owned := fun i => shape.hasCall i && owns i
    (l.foldl (LiftMarks.markSpecial shape owns) acc).2.1 = acc.2.1 ++ l.filter owned ∧
      ∀ j < acc.1.length,
        hasBit ((l.foldl (LiftMarks.markSpecial shape owns) acc).1.getD j 0) LiftMarks.ownedCall =
          (hasBit (acc.1.getD j 0) LiftMarks.ownedCall || (decide (j ∈ l) && owned j)) := by
  induction l generalizing acc with
  | nil => exact ⟨(append_nil _).symm, fun j _ => by simp⟩
  | cons i l ih =>
    have hone : (LiftMarks.markSpecial shape owns acc i).1.length = acc.1.length ∧
        (LiftMarks.markSpecial shape owns acc i).2.1 =
          acc.2.1 ++ [i].filter (fun i => shape.hasCall i && owns i) ∧
        ∀ j < acc.1.length, hasBit ((LiftMarks.markSpecial shape owns acc i).1.getD j 0)
          LiftMarks.ownedCall = (hasBit (acc.1.getD j 0) LiftMarks.ownedCall ||
            (decide (j = i) && (shape.hasCall j && owns j))) := by
      have hkept (flags : List Byte) (m : Byte) (hm : hasBit m LiftMarks.ownedCall = false) (k j) :
          hasBit ((LiftMarks.mark flags k m).getD j 0) LiftMarks.ownedCall =
            hasBit (flags.getD j 0) LiftMarks.ownedCall := by
        rw [hasBit_mark, hm, Bool.and_false, Bool.or_false]
      have hafter : (if shape.endsBlock i = true ∧ i + 1 < shape.addrs.length then
          LiftMarks.mark acc.1 (i + 1) LiftMarks.afterEnd else acc.1).length = acc.1.length ∧
          ∀ j, hasBit ((if shape.endsBlock i = true ∧ i + 1 < shape.addrs.length then
            LiftMarks.mark acc.1 (i + 1) LiftMarks.afterEnd else acc.1).getD j 0)
              LiftMarks.ownedCall = hasBit (acc.1.getD j 0) LiftMarks.ownedCall := by
        split
        · exact ⟨mark_length .., hkept acc.1 _ (by decide) _⟩
        · exact ⟨rfl, fun _ => rfl⟩
      unfold LiftMarks.markSpecial
      dsimp only
      generalize (if shape.endsBlock i = true ∧ i + 1 < shape.addrs.length then
        LiftMarks.mark acc.1 (i + 1) LiftMarks.afterEnd else acc.1) = flags at hafter
      obtain ⟨hlen, hbit⟩ := hafter
      cases hcall : shape.hasCall i
      · refine ⟨hlen, by simp [hcall], fun j _ => ?_⟩
        rw [if_neg nofun, hbit]
        by_cases hj : j = i <;> simp [hj, hcall]
      · cases howns : owns i
        · refine ⟨hlen, by simp [howns], fun j _ => ?_⟩
          rw [if_pos rfl, if_neg nofun, hbit]
          by_cases hj : j = i <;> simp [hj, howns]
        · refine ⟨(mark_length ..).trans hlen, by simp [hcall, howns], fun j hj => ?_⟩
          rw [if_pos rfl, if_pos rfl, hasBit_mark, hbit, hlen, decide_eq_true hj]
          by_cases hij : j = i
          · subst hij
            simp [hcall, howns, show hasBit LiftMarks.ownedCall LiftMarks.ownedCall = true by decide]
          · simp [hij, Ne.symm hij]
    obtain ⟨hlen, hcalls, hbit⟩ := hone
    obtain ⟨hcalls', hbit'⟩ := ih (LiftMarks.markSpecial shape owns acc i)
    refine ⟨?_, fun j hj => ?_⟩
    · rw [foldl_cons, hcalls', hcalls, append_assoc, ← filter_append]
      rfl
    · rw [foldl_cons, hbit' j (hlen ▸ hj), hbit j hj, Bool.or_assoc, ← and_or_distrib_right,
        ← decide_or]
      simp only [mem_cons]

variable {insns : List LiftedInstruction} {external : List U64} {owns : ℕ → Bool}
  {find? : Option (U64 → Option ℕ)}

theorem special_sorted (insns : List LiftedInstruction) :
    (LiftShape.of insns).special.Pairwise (· < ·) := by
  have hall : (insns.zipIdx.map Prod.snd).Pairwise (· < ·) := by
    rw [zipIdx_map_snd]
    exact pairwise_lt_range'
  exact hall.sublist (filter_sublist.map _)

theorem mem_special {i : ℕ} :
    i ∈ (LiftShape.of insns).special ↔ i < insns.length ∧ (LiftShape.of insns).flag i ≠ 0 := by
  have hflag {x : LiftedInstruction} (hx : insns[i]? = some x) :
      (LiftShape.of insns).flag i = (InsnShape.of x).flags := by
    change ((insns.map fun insn => (InsnShape.of insn).flags).getD i 0) = _
    rw [getD_eq_getElem?_getD, getElem?_map, hx]
    rfl
  refine mem_map.trans ⟨?_, fun ⟨hi, hne⟩ => ?_⟩
  · rintro ⟨⟨x, k⟩, hx, rfl⟩
    obtain ⟨hget, hne⟩ := mem_filter.mp hx
    have hget := mem_zipIdx_iff_getElem?.mp hget
    exact ⟨(List.getElem?_eq_some_iff.mp hget).1, hflag hget ▸ of_decide_eq_true hne⟩
  · have hget := List.getElem?_eq_getElem hi
    exact ⟨(insns[i], i), mem_filter.mpr ⟨mem_zipIdx_iff_getElem?.mpr hget,
      decide_eq_true (hflag hget ▸ hne)⟩, rfl⟩

theorem flag_of_hasCall {shape : LiftShape} {i : ℕ} (h : shape.hasCall i = true) :
    shape.flag i ≠ 0 := by
  intro hzero
  rw [LiftShape.hasCall, hzero] at h
  exact absurd h (by decide)

theorem new_eq (shape : LiftShape) (external : List U64) (owns : ℕ → Bool) :
    ∃ flags : List Byte, flags.length = shape.addrs.length ∧
      (∀ j, hasBit (flags.getD j 0) LiftMarks.ownedCall = false) ∧
      (LiftMarks.new shape external owns).flags =
        (shape.special.foldl (LiftMarks.markSpecial shape owns) (flags, [], [])).1 ∧
      (LiftMarks.new shape external owns).ownedCalls =
        (shape.special.foldl (LiftMarks.markSpecial shape owns) (flags, [], [])).2.1 := by
  have htarget := foldl_markFound id LiftMarks.target LiftMarks.ownedCall
    (LiftMarks.new shape external owns).targetIdx (replicate shape.addrs.length (0 : Byte))
  have hexternal := fun find => foldl_markFound find LiftMarks.external LiftMarks.ownedCall external
    ((LiftMarks.new shape external owns).targetIdx.foldl
      (fun flags i => LiftMarks.markFound flags (id i) LiftMarks.target)
      (replicate shape.addrs.length (0 : Byte)))
  refine ⟨_, ((hexternal _).1.trans htarget.1).trans length_replicate, fun j => ?_, rfl, rfl⟩
  have hzero : hasBit ((replicate shape.addrs.length (0 : Byte)).getD j 0)
      LiftMarks.ownedCall = false := by
    rw [getD_eq_getElem?_getD, getElem?_replicate]
    split <;> decide
  rw [(hexternal _).2, htarget.2, hzero]
  simp [show hasBit LiftMarks.target LiftMarks.ownedCall = false by decide,
    show hasBit LiftMarks.external LiftMarks.ownedCall = false by decide]

theorem ownedCalls_eq : (LiftMarks.new (shapeOf insns find?) external owns).ownedCalls =
    (List.range insns.length).filter fun i => (LiftShape.of insns).hasCall i && owns i := by
  obtain ⟨flags, -, -, -, hcalls⟩ := new_eq (shapeOf insns find?) external owns
  rw [hcalls, (foldl_markSpecial_owned _ _ _ _).1, nil_append]
  refine eq_of_sorted ((special_sorted insns).filter _) (pairwise_lt_range.filter _) fun i => ?_
  rw [mem_filter, mem_filter, mem_range]
  refine and_congr_left fun h => mem_special.trans (and_iff_left ?_)
  exact flag_of_hasCall (and_eq_true_iff.mp h).1

variable (external owns find?) in
theorem hasBit_ownedCall {j : ℕ} (hj : j < insns.length) :
    hasBit ((LiftMarks.new (shapeOf insns find?) external owns).flags.getD j 0)
      LiftMarks.ownedCall = ((LiftShape.of insns).hasCall j && owns j) := by
  obtain ⟨flags, hlen, hzero, hflags, -⟩ := new_eq (shapeOf insns find?) external owns
  rw [hflags, (foldl_markSpecial_owned _ _ _ _).2 j (hlen ▸ (length_addrs insns).symm ▸ hj), hzero,
    Bool.false_or]
  change (decide (j ∈ (LiftShape.of insns).special) &&
    ((LiftShape.of insns).hasCall j && owns j)) = _
  cases h : (LiftShape.of insns).hasCall j
  · exact Bool.and_false _
  · rw [decide_eq_true (mem_special.mpr ⟨hj, flag_of_hasCall h⟩), Bool.true_and]

theorem joinPointsShaped_get {shape : LiftShape} (hinc : shape.increasing = true)
    (hlen : shape.flags.length = shape.addrs.length) {j : ℕ} (hj : j < shape.addrs.length) :
    (joinPointsShaped shape)[j]? =
      some ((shape.branches.any fun b => decide (binarySearch shape.addrs b.2 = some j)) ||
        (decide (0 < j) && shape.stops (j - 1))) := by
  obtain ⟨hsame, hget⟩ := foldl_setStart (fun b : ℕ × U64 => binarySearch shape.addrs b.2)
    shape.branches (List.replicate shape.addrs.length false)
  rw [length_replicate] at hsame hget
  have hstops : (false :: shape.flags.map fun f => decide (f &&& InsnShape.stops ≠ 0))[j]? =
      some (decide (0 < j) && shape.stops (j - 1)) := by
    cases j with
    | zero => rfl
    | succ j =>
      have hflag : j < shape.flags.length := by omega
      rw [getElem?_cons_succ, getElem?_map, getElem?_eq_getElem hflag,
        Nat.add_sub_cancel, LiftShape.stops, LiftShape.flag, getD_eq_getElem _ _ hflag,
        decide_eq_true (Nat.succ_pos j), Bool.true_and]
      rfl
  have hat := hget j
  rw [getD_eq_getElem _ _ (hsame.symm ▸ hj), decide_eq_true hj, Bool.and_true] at hat
  rw [joinPointsShaped, if_pos hinc]
  dsimp only
  rw [List.getElem?_zipWith, hstops, List.getElem?_eq_getElem (hsame.symm ▸ hj), hat]
  simp

theorem joins_eq (hinc : (insns.map LiftedInstruction.address).Pairwise (· < ·))
    (hfind : Finds insns find?) {j : ℕ} (hj : j < insns.length) :
    ((joinPointsShaped (shapeOf insns find?)).zipWith (fun j a => j || external.contains a)
      (shapeOf insns find?).addrs)[j]? =
      some (hasBit ((LiftMarks.new (shapeOf insns find?) external owns).flags.getD j 0)
          (LiftMarks.target ||| LiftMarks.external) ||
        (decide (0 < j) && (shapeOf insns find?).stops (j - 1))) := by
  have hsorted : (LiftShape.of insns).addrs.Pairwise (· < ·) := addrs_eq insns ▸ hinc
  have hj' : j < (shapeOf insns find?).addrs.length := (length_addrs insns).symm ▸ hj
  have hlen : (shapeOf insns find?).flags.length = (shapeOf insns find?).addrs.length :=
    (length_map _).trans (length_addrs insns).symm
  have hmarks : hasBit ((LiftMarks.new (shapeOf insns find?) external owns).flags.getD j 0)
      (LiftMarks.target ||| LiftMarks.external) =
      (((shapeOf insns find?).branches.any fun b =>
        decide (binarySearch (shapeOf insns find?).addrs b.2 = some j)) ||
        external.contains (shapeOf insns find?).addrs[j]) := by
    have hclear : hasBit LiftMarks.ownedCall (LiftMarks.target ||| LiftMarks.external) = false := by
      decide
    have hiff := (flags_eq external owns hinc hfind hclear).2 j hj
    rw [Bool.eq_iff_iff, hiff, or_eq_true, List.any_eq_true, contains_iff_mem]
    refine or_congr ?_ ?_
    · rw [and_iff_right (by decide)]
      exact exists_congr fun t => and_congr_right fun _ =>
        (decide_eq_true_iff.trans (binarySearch_eq_some hsorted)).symm
    · rw [and_iff_right (by decide), or_iff_left fun h => absurd h.1 (by decide)]
      constructor
      · rintro ⟨a, ha, hget⟩
        obtain ⟨_, rfl⟩ := List.getElem?_eq_some_iff.mp hget
        exact ha
      · exact fun ha => ⟨_, ha, getElem?_eq_getElem hj'⟩
  rw [getElem?_zipWith,
    joinPointsShaped_get ((isIncreasing_iff (LiftShape.of insns).addrs).mpr hsorted) hlen hj',
    getElem?_eq_getElem hj', hmarks]
  dsimp only
  rw [Bool.or_right_comm]

end Marks

section Prefix

variable (entry : U64) (insns : List LiftedInstruction) (find? : Option (U64 → Option ℕ))
  (external : List U64) (ownsCall : U64 → Bool)

theorem rposition_map (n : ℕ) (p : ℕ → Bool) :
    rposition ((List.range n).map p) = ((List.range n).filter p).getLast? := by
  rw [rposition, length_map, length_range]
  congr 1
  refine filter_congr fun i hi => ?_
  rw [getD_eq_getElem?_getD, getElem?_map, getElem?_range (mem_range.mp hi)]
  rfl

theorem hasBit_flag (isJoin owned : Bool) :
    let f := (if isJoin then WalkPrefix.join else 0) ||| (if owned then WalkPrefix.owned else 0)
    hasBit f WalkPrefix.join = isJoin ∧ hasBit f WalkPrefix.owned = owned := by
  cases isJoin <;> cases owned <;> decide

/-- The walk over the kept prefix, its flags ahead, is the walk over the whole function. -/
theorem walkPrefix_eq (plain : Bool) (summaries : ParamSummaries)
    (hinc : (insns.map LiftedInstruction.address).Pairwise (· < ·)) (hfind : Finds insns find?) :
    let shape := shapeOf insns find?
    let marks := LiftMarks.new shape external fun i => ownsCall (shape.addrs.getD i 0)
    let kept := WalkPrefix.ofMarks shape marks plain
    walkPrefix entry (insns.take kept.flags.length) kept.flags summaries =
        walkFunctionShaped entry insns shape summaries external ownsCall ∧
      ∀ w l, (walkRuns entry w l).out = (walkEach entry w l).out := by
  intro shape marks kept
  refine ⟨?_, walkRuns_out⟩
  have haddrs : shape.addrs.length = insns.length := length_addrs insns
  have hcalls : marks.ownedCalls = (range insns.length).filter fun i =>
      shape.hasCall i && ownsCall (shape.addrs.getD i 0) := ownedCalls_eq
  rw [walkPrefix, walkFunctionShaped]
  congr 1
  funext tracker
  dsimp only
  rw [haddrs, rposition_map, ← hcalls, walkRuns_out]
  have hflags : kept.flags = (range ((marks.ownedCalls.getLast?.map (· + 1)).getD 0)).map
      fun i => _ := rfl
  cases hlast : marks.ownedCalls.getLast? with
  | none =>
    rw [hlast] at hflags
    rw [hflags]
    rfl
  | some last =>
    have hlt : last < insns.length := by
      have := mem_of_getLast? hlast
      rw [hcalls] at this
      exact mem_range.mp (mem_filter.mp this).1
    rw [hlast, map_some, getD_some] at hflags
    have hn : kept.flags.length = last + 1 := by rw [hflags, length_map, length_range]
    rw [hn, walkEach]
    dsimp only
    congr 3
    refine ext_getElem? fun i => ?_
    by_cases hi : i < last + 1
    · have hin : i < insns.length := by omega
      have hinsn : (insns.take (last + 1))[i]? = some insns[i] := by
        rw [getElem?_take, if_pos hi, getElem?_eq_getElem hin]
      have hflag := congrArg (·[i]?) hflags
      have howned : ((range insns.length).map fun i =>
          shape.hasCall i && ownsCall (shape.addrs.getD i 0))[i]? =
          some (hasBit (marks.flags.getD i 0) LiftMarks.ownedCall) := by
        rw [getElem?_map, getElem?_range hin, map_some]
        exact congrArg some (hasBit_ownedCall external
          (fun i => ownsCall (shape.addrs.getD i 0)) find? hin).symm
      rw [getElem?_map, getElem?_range hi, map_some] at hflag
      obtain ⟨hjoin, howns⟩ := hasBit_flag
        (hasBit (marks.flags.getD i 0) (LiftMarks.target ||| LiftMarks.external) ||
          (decide (0 < i) && shape.stops (i - 1)))
        (hasBit (marks.flags.getD i 0) LiftMarks.ownedCall)
      rw [getElem?_map, List.zip, getElem?_zipWith, hinsn, hflag, List.zip,
        getElem?_zipWith, hinsn, List.zip, getElem?_zipWith, joins_eq hinc hfind hin,
        howned]
      exact congrArg some (Prod.ext rfl (Prod.ext hjoin howns))
    · rw [getElem?_eq_none, getElem?_eq_none] <;>
        simp only [length_map, length_zip, length_take] <;> omega

/-- A branch back to the first call, over a call another function owns. -/
theorem walkPrefix_eq_loop : let insns : List LiftedInstruction :=
      [⟨0x10, 5, "", [⟨.copy, some ⟨.register, 0x38, 8⟩, [⟨.const, 7, 8⟩]⟩]⟩,
        ⟨0x15, 5, "", [⟨.call, none, [⟨.ram, 0x80, 8⟩]⟩]⟩,
        ⟨0x1a, 5, "", [⟨.call, none, [⟨.ram, 0x90, 8⟩]⟩]⟩,
        ⟨0x1f, 2, "", [⟨.branch, none, [⟨.ram, 0x15, 8⟩]⟩]⟩]
    let kept := WalkPrefix.ofMarks (shapeOf insns none)
      (LiftMarks.new (shapeOf insns none) [0x1a] fun i =>
        decide ((shapeOf insns none).addrs.getD i 0 = 0x15)) true
    walkPrefix 0x10 (insns.take kept.flags.length) kept.flags .empty =
        walkFunctionShaped 0x10 insns (shapeOf insns none) .empty [0x1a]
          (fun a => decide (a = 0x15)) ∧
      ∀ w l, (walkRuns 0x10 w l).out = (walkEach 0x10 w l).out :=
  walkPrefix_eq 0x10 _ none [0x1a] (fun a => decide (a = 0x15)) true .empty (by decide)
    fun _ h => absurd h (not_mem_none _)

end Prefix

end CallWalks
