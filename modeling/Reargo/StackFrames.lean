import Reargo.CommonSubexpressions

/-!
# Stack slots by name

The stack pointer's values are followed from the entry, and the accesses at known offsets
from it make named slots. Offsets are words that wrap; slots are placed on the integers, and
an end past the largest offset wraps as the code's sum does.
-/
namespace StackFrames

open PcodeModel OrderedMap ControlFlow SsaModel List Option
open CommonSubexpressions (ValueKey valueKey)

section Slots

def minOffset : ℤ := -9223372036854775808
def maxOffset : ℤ := 9223372036854775807
def args : ℤ := 8

structure Slot where
  start : ℤ
  size : ℕ
  array : Bool
  deriving DecidableEq

namespace Slot

def isArg (s : Slot) : Bool := args ≤ s.start

/-- An argument array of unknown length runs on. -/
def stop (s : Slot) : ℤ := if s.array ∧ s.size = 0 then maxOffset else s.start + s.size

def endOf (s : Slot) : ℤ := s.stop.bmod (2 ^ 64)

def hex (n : ℕ) : String := String.ofList (Nat.toDigits 16 n)

def name (s : Slot) : String :=
  if s.isArg then "arg_" ++ hex s.start.toNat else "local_" ++ hex s.start.natAbs

end Slot

def sizeToType : ℕ → String
  | 1 => "uint8_t"
  | 2 => "uint16_t"
  | 4 => "uint32_t"
  | 8 => "uint64_t"
  | 16 => "uint128_t"
  | 10 => "long double"
  | _ => "void"

def sizeToRustType : ℕ → String
  | 1 => "u8"
  | 2 => "u16"
  | 4 => "u32"
  | 8 => "u64"
  | 16 => "u128"
  | 10 => "f80"
  | _ => "()"

def Slot.addressText (s : Slot) (d : ℕ) (operand rust : Bool) : String :=
  let past := "0x" ++ hex d
  if rust then
    let base :=
      if s.array then if s.size = 0 then s.name else s.name ++ ".as_mut_ptr()"
      else "&raw mut " ++ s.name
    if d = 0 then base
    else if s.array then base ++ ".add(" ++ past ++ ")"
    else "(" ++ base ++ " as *mut u8).add(" ++ past ++ ")"
  else
    let base := if s.array then s.name else "&" ++ s.name
    if d = 0 then base
    else if operand then "((uint8_t*)" ++ base ++ " + " ++ past ++ ")"
    else "(uint8_t*)" ++ base ++ " + " ++ past

def Slot.accessText (s : Slot) (d size : ℕ) (asLvalue rust : Bool) : String :=
  let whole := !s.array && d = 0
  if whole ∧ size = s.size then s.name
  else if whole ∧ size < s.size ∧ !rust ∧ asLvalue then
    "*(" ++ sizeToType size ++ "*)&" ++ s.name
  else if whole ∧ size < s.size ∧ !rust then "(" ++ sizeToType size ++ ")" ++ s.name
  else if whole ∧ size < s.size ∧ !asLvalue then
    "(" ++ s.name ++ " as " ++ sizeToRustType size ++ ")"
  else if rust then
    "*(" ++ s.addressText d true true ++ " as " ++ (if asLvalue then "*mut" else "*const") ++
      " " ++ sizeToRustType size ++ ")"
  else "*(" ++ sizeToType size ++ "*)" ++ s.addressText d true false

/-- A local below the return address, or a stack argument above it. -/
def slotRange (k : ℤ) (size : ℕ) : Bool := (k < 0 ∧ k + size ≤ 0) ∨ args ≤ k

abbrev Slots := OrdMap ℤ Slot

def containing (slots : Slots) (k : ℤ) : Option (Slot × ℕ) :=
  match (slots.entries.filter fun e => e.1 ≤ k).getLast? with
  | some (_, s) => if k < s.endOf then some (s, (k - s.start).toNat) else none
  | none => none

/-- The widest access at each start. -/
def addAccess (slots : Slots) (x : ℤ × ℕ) : Slots :=
  if slotRange x.1 x.2 then
    slots.insert x.1 ⟨x.1, max (((slots.get? x.1).map Slot.size).getD x.2) x.2, false⟩
  else slots

/-- A start inside a wider slot belongs to it. -/
def keepApart (last : ℤ) : List (ℤ × Slot) → List (ℤ × Slot)
  | [] => []
  | (k, s) :: rest => if k < last then keepApart last rest else (k, s) :: keepApart s.endOf rest

theorem keepApart_sublist (last : ℤ) (l : List (ℤ × Slot)) : (keepApart last l).Sublist l := by
  induction l generalizing last with
  | nil => exact List.Sublist.refl _
  | cons e rest ih =>
    unfold keepApart
    split
    · exact (ih last).cons e
    · exact (ih _).cons_cons e

def apart (slots : Slots) : Slots :=
  ⟨keepApart minOffset slots.entries, slots.sorted.sublist ((keepApart_sublist _ _).map Prod.fst)⟩

/-- `u32::try_from(x).unwrap_or(0)`. -/
def toU32 (x : ℤ) : ℕ := if 0 ≤ x ∧ x < 2 ^ 32 then x.toNat else 0

/-- The first start past an offset. -/
def nextStart (slots : Slots) (k : ℤ) : Option ℤ :=
  (slots.entries.find? fun e => k < e.1).map Prod.fst

/-- A local array ends at the return address at most; an argument array of unknown length
runs up to the next slot, if any. -/
def addArray (slots : Slots) (k : ℤ) : Slots :=
  if (containing slots k).isSome then slots
  else
    let size :=
      match decide (k < 0), nextStart slots k with
      | true, n => toU32 (min (n.getD 0) 0 - k)
      | false, some n => toU32 (n - k)
      | false, none => 0
    if 0 < size ∨ args ≤ k then slots.insert k ⟨k, size, true⟩ else slots

end Slots

structure Frame where
  offsets : ValueKey → Option U64
  slots : Slots
  entry : Option ValueKey
  pads : List ℕ
  pad : Option U64

section Offsets

variable (func : SsaFunction)

def isRsp (v : ℕ) : Bool := slotOf (func.var v).data = (.register, 0x20, 8)

def visit (cfg : ControlFlowGraph) : ℕ → List ℕ → List ℕ → List ℕ
  | 0, _, seen => seen
  | _, [], seen => seen
  | fuel + 1, b :: work, seen =>
    if cfg.blocks.length ≤ b ∨ b ∈ seen then visit cfg fuel work seen
    else visit cfg fuel ((cfg.succs b).reverse ++ work) (b :: seen)

/-- The blocks the function's entry does not reach. -/
def padBlocks : List ℕ :=
  let pushes := (func.cfg.blocks.map fun b => b.successors.length).sum
  let seen := visit func.cfg (pushes + 1) [func.cfg.entryBlock] []
  (List.range func.cfg.blocks.length).filter fun b => b ∉ seen

/-- The entry's stack pointer is at 0 in the body, at the offset of the calls in a pad. -/
def Frame.offsetIn (fr : Frame) (v block : ℕ) : Option U64 :=
  if some (valueKey func v) = fr.entry then
    if block ∈ fr.pads then fr.pad else some 0
  else fr.offsets (valueKey func v)

def Frame.offsetOf (fr : Frame) (v : ℕ) : Option U64 := fr.offsets (valueKey func v)

def konst (v : ℕ) : Option U64 :=
  if func.isConst v then some (func.var v).data.offset else none

/-- A phi's input is read at the end of its predecessor. -/
def predecessorOf (op : SsaOp) (i : ℕ) : ℕ := ((func.cfg.preds op.block)[i]?).getD op.block

def phiOffset (fr : Frame) (refuted : List ValueKey) (op : SsaOp) (key : ValueKey) : Option U64 :=
  let ks := op.inputs.zipIdx.map fun e => (e.1, fr.offsetIn func e.1 (predecessorOf func op e.2))
  let known := ks.filterMap Prod.snd
  -- a loop's phi reads itself: the other inputs decide
  let selfish := (op.block = func.cfg.entryBlock ∧ !refuted.contains key) ∨
    ks.all fun e => e.2.isSome || valueKey func e.1 = key
  match known with
  | [] => none
  | k :: _ => if selfish ∧ known.all (· = k) then some k else none

/-- The offset of an operation's output. -/
def opOffset (fr : Frame) (refuted : List ValueKey) (op : SsaOp) (key : ValueKey) : Option U64 :=
  let off := fun i => (op.inputs[i]?).bind fun v => fr.offsetIn func v op.block
  let const := fun i => (op.inputs[i]?).bind (konst func)
  match op.opcode with
  | .copy => off 0
  | .intAdd =>
    match off 0, off 1 with
    | some a, none => (const 1).map (a + ·)
    | none, some b => (const 0).map (b + ·)
    | _, _ => none
  | .intSub => (off 0).bind fun a => (const 1).map (a - ·)
  | .multiEqual => phiOffset func fr refuted op key
  | _ => none

def propagateOp (refuted : List ValueKey) (st : Frame × Bool) (op : SsaOp) : Frame × Bool :=
  match op.output with
  | none => st
  | some out =>
    let key := valueKey func out
    if op.dead ∨ (func.var out).data.size ≠ 8 ∨ (st.1.offsets key).isSome then st
    else
      match opOffset func st.1 refuted op key with
      | some k => ({ st.1 with offsets := Function.update st.1.offsets key (some k) }, true)
      | none => st

def maxPasses : ℕ := 8

def passes (refuted : List ValueKey) : ℕ → Frame → Frame
  | 0, fr => fr
  | n + 1, fr =>
    let st := func.ops.foldl (propagateOp func refuted) (fr, false)
    if st.2 then passes refuted n st.1 else st.1

def propagateWith (fr : Frame) (refuted : List ValueKey) : Frame := passes func refuted maxPasses fr

def isEntryPhi (op : SsaOp) : Bool :=
  op.opcode = .multiEqual ∧ op.block = func.cfg.entryBlock

def disagreeing (fr : Frame) : List ValueKey :=
  (func.ops.filter fun o => !o.dead && isEntryPhi func o).filterMap fun o => do
    let key := valueKey func (← o.output)
    let k ← fr.offsets key
    if o.inputs.zipIdx.all fun e => fr.offsetIn func e.1 (predecessorOf func o e.2) = some k then none
    else some key

def propagateRounds : ℕ → Frame → List ValueKey → Frame
  | 0, fr, _ =>
    propagateWith func { fr with offsets := fun _ => none }
      ((func.ops.filter (isEntryPhi func)).filterMap fun o => o.output.map (valueKey func))
  | n + 1, fr, refuted =>
    let fr := propagateWith func fr refuted
    let bad := disagreeing func fr
    if bad = [] then fr
    else propagateRounds n { fr with offsets := fun _ => none } (refuted ++ bad)

def propagate (fr : Frame) : Frame := propagateRounds func 4 fr []

/-- The last stack pointer write of each block, and the value reaching each call. -/
structure CallPointers where
  last : ℕ → Option ℕ
  atCalls : List (ℕ × Option ℕ)

def callPointers (fr : Frame) : CallPointers :=
  (func.ops.filter fun o => !o.dead && decide (o.block < func.cfg.blocks.length)).foldl (fun st o =>
      let st :=
        if (o.opcode = .call ∨ o.opcode = .callInd) ∧ o.block ∉ fr.pads then
          { st with atCalls := st.atCalls ++ [(o.block, st.last o.block)] }
        else st
      match o.output with
      | some w =>
        if isRsp func w then { st with last := Function.update st.last o.block (some w) } else st
      | none => st)
    ⟨fun _ => none, []⟩

/-- At a block's start: up its single predecessors to a write, or the entry. -/
def startOffset (fr : Frame) (last : ℕ → Option ℕ) : ℕ → ℕ → Option U64
  | 0, _ => none
  | n + 1, b =>
    match func.cfg.preds b with
    | [] => if b = func.cfg.entryBlock then some 0 else none
    | [p] =>
      match last p with
      | some w => fr.offsetIn func w p
      | none => startOffset fr last n p
    | _ => none

def offsetAtCalls (fr : Frame) : Option U64 :=
  let st := callPointers func fr
  let known := st.atCalls.filterMap fun c => match c.2 with
    | some w => fr.offsetIn func w c.1
    | none => startOffset func fr st.last 64 c.1
  match known with
  | [] => none
  | k :: _ => if known.all (· = k) then some k else none

end Offsets

section Frames

variable (func : SsaFunction)

def accessSize (op : SsaOp) : Option ℕ :=
  match op.opcode with
  | .load => op.output.map fun o => (func.var o).data.size
  | .store => (op.inputs[2]?).map fun v => (func.var v).data.size
  | _ => none

def Frame.accessOf (fr : Frame) (op : SsaOp) : Option (ℤ × ℕ) := do
  let size ← accessSize func op
  let k ← (op.inputs[1]?).bind fun v => fr.offsetIn func v op.block
  some (k.toInt, size)

/-- A register other than the stack pointer that gets a stack address. -/
def Frame.addressOf (fr : Frame) (op : SsaOp) : Option ℤ :=
  if op.opcode = .load ∨ op.opcode = .store then none
  else do
    let out ← op.output
    let k ← fr.offsetOf func out
    if isRsp func out ∨ (func.var out).data.space ≠ .register ∨
        (0 ≤ k.toInt ∧ k.toInt < args) then none
    else some k.toInt

/-- The operations the slots are made for. -/
def liveOps (live : ℕ → Bool) : List SsaOp :=
  (func.ops.zipIdx.filter fun e => !e.1.dead && live e.2).map Prod.fst

def Frame.accesses (fr : Frame) (live : ℕ → Bool) : List (ℤ × ℕ) :=
  (liveOps func live).filterMap (fr.accessOf func)

def Frame.addressed (fr : Frame) (live : ℕ → Bool) : List ℤ :=
  (liveOps func live).filterMap (fr.addressOf func)

def slotsOf (accesses : List (ℤ × ℕ)) (addressed : List ℤ) : Slots :=
  addressed.foldl addArray (apart (accesses.foldl addAccess .empty))

/-- The entry's stack pointer: the first value of it that no operation makes. -/
def entryKey : Option ValueKey :=
  ((List.range func.varnodes.length).find? fun v =>
    (func.var v).defOp.isNone && isRsp func v).map (valueKey func)

def Frame.followed (entry : ValueKey) : Frame :=
  let fr := propagate func ⟨fun _ => none, .empty, some entry, padBlocks func, none⟩
  if fr.pads = [] then fr
  else
    let fr := { fr with pad := offsetAtCalls func fr }
    if fr.pad.isSome then propagate func fr else fr

def Frame.new (live : ℕ → Bool) : Frame :=
  match entryKey func with
  | none => ⟨fun _ => none, .empty, none, [], none⟩
  | some entry =>
    let fr := Frame.followed func entry
    { fr with slots := slotsOf (fr.accesses func live) (fr.addressed func live) }

/-- The memory a `size`-byte access at address `v` names. -/
def Frame.access (fr : Frame) (block v size : ℕ) (asLvalue rust : Bool) : Option String := do
  let k ← fr.offsetIn func v block
  let (s, d) ← containing fr.slots k.toInt
  some (s.accessText d size asLvalue rust)

end Frames

variable {e : ℤ × Slot} {s : Slot}

section Apart

variable {slots : Slots} {k : ℤ}

/-- Slots at their starts, in order, none past the next, ends not wrapped. -/
structure Tidy (slots : Slots) : Prop where
  start : ∀ e ∈ slots.entries, e.2.start = e.1
  forward : ∀ e ∈ slots.entries, minOffset ≤ e.1 ∧ e.1 ≤ e.2.stop
  ordered : ∀ e ∈ slots.entries, ∀ e' ∈ slots.entries, e.1 < e'.1 → e.2.stop ≤ e'.1
  fits : ∀ e ∈ slots.entries, e.2.stop ≤ maxOffset

theorem endOf_eq (h : minOffset ≤ s.stop) (h' : s.stop ≤ maxOffset) : s.endOf = s.stop := by
  unfold Slot.endOf
  unfold minOffset at h
  unfold maxOffset at h'
  exact Int.bmod_eq_of_le (by omega) (by omega)

theorem Tidy.endOf (h : Tidy slots) (he : e ∈ slots.entries) : e.2.endOf = e.2.stop :=
  endOf_eq ((h.forward e he).1.trans (h.forward e he).2) (h.fits e he)

theorem last_before (h : (slots.entries.filter fun e => e.1 ≤ k).getLast? = some e) :
    (e ∈ slots.entries ∧ e.1 ≤ k) ∧ ∀ e' ∈ slots.entries, e'.1 ≤ k → e' = e ∨ e'.1 < e.1 := by
  obtain ⟨before, heq⟩ := getLast?_eq_some_iff.mp h
  have hmem : ∀ e', e' ∈ before ++ [e] ↔ e' ∈ slots.entries ∧ e'.1 ≤ k := by
    intro e'
    rw [← heq, mem_filter, decide_eq_true_eq]
  have hsorted : ((before ++ [e]).map Prod.fst).Pairwise (· < ·) := by
    rw [← heq]
    exact slots.sorted.sublist (filter_sublist.map _)
  rw [map_append, pairwise_append] at hsorted
  refine ⟨(hmem e).mp (by simp), fun e' he' hk => ?_⟩
  rcases mem_append.mp ((hmem e').mpr ⟨he', hk⟩) with hb | hb
  · exact .inr (hsorted.2.2 _ (mem_map_of_mem hb) _ (by simp))
  · exact .inl (mem_singleton.mp hb)

theorem containing_some (h : Tidy slots) {d : ℕ} (hc : containing slots k = some (s, d)) :
    (s.start, s) ∈ slots.entries ∧ s.start ≤ k ∧ k < s.stop := by
  unfold containing at hc
  split at hc
  · next e s' hlast =>
    obtain ⟨⟨hmem, hle⟩, -⟩ := last_before hlast
    split at hc
    · next hlt =>
      obtain ⟨rfl, -⟩ := Prod.mk.inj (some.inj hc)
      have hstart : s'.start = e := h.start _ hmem
      rw [h.endOf hmem] at hlt
      exact ⟨hstart ▸ hmem, hstart ▸ hle, hlt⟩
    · cases hc
  · cases hc

theorem containing_none (h : Tidy slots) (hc : containing slots k = none) :
    ∀ e ∈ slots.entries, e.1 ≤ k → e.2.stop ≤ k := by
  intro e he hk
  unfold containing at hc
  split at hc
  · next e' s' hlast =>
    obtain ⟨⟨hmem, hle⟩, hmax⟩ := last_before hlast
    split at hc
    · cases hc
    · next hge =>
      rw [h.endOf hmem, not_lt] at hge
      rcases hmax e he hk with rfl | hlt
      · exact hge
      · exact (h.ordered e he _ hmem hlt).trans hle
  · next hlast =>
    have hmem : e ∈ slots.entries.filter fun e => e.1 ≤ k :=
      mem_filter.mpr ⟨he, decide_eq_true hk⟩
    rw [getLast?_eq_none_iff.mp hlast] at hmem
    cases hmem

theorem Tidy.unique (h : Tidy slots) {e' : ℤ × Slot} (he : e ∈ slots.entries)
    (he' : e' ∈ slots.entries) {x : ℤ} (hx : e.1 ≤ x ∧ x < e.2.stop)
    (hx' : e'.1 ≤ x ∧ x < e'.2.stop) : e = e' := by
  rcases lt_trichotomy e.1 e'.1 with hlt | heq | hgt
  · have := h.ordered e he e' he' hlt
    omega
  · exact inj_on_of_nodup_map (slots.sorted.imp fun h => ne_of_lt h) he he' heq
  · have := h.ordered e' he' e he hgt
    omega

end Apart

variable {x : ℤ × ℕ}

section Accesses

variable {accesses : List (ℤ × ℕ)}

/-- An access that a slot is made for. -/
def Placed (accesses : List (ℤ × ℕ)) (x : ℤ × ℕ) : Prop := x ∈ accesses ∧ slotRange x.1 x.2

theorem addAccess_spec (accesses : List (ℤ × ℕ)) :
    (∀ k s, (accesses.foldl addAccess .empty).get? k = some s →
      s = ⟨k, s.size, false⟩ ∧ Placed accesses (k, s.size)) ∧
    ∀ x, Placed accesses x →
      ∃ s, (accesses.foldl addAccess .empty).get? x.1 = some s ∧ x.2 ≤ s.size := by
  induction accesses using List.reverseRecOn with
  | nil => exact ⟨fun k s h => (nomatch h), fun x h => (nomatch h.1)⟩
  | append_singleton accesses x ih =>
    obtain ⟨made, found⟩ := ih
    have grow {y : ℤ × ℕ} (h : Placed accesses y) : Placed (accesses ++ [x]) y :=
      ⟨mem_append_left _ h.1, h.2⟩
    have shrink {y : ℤ × ℕ} (h : Placed (accesses ++ [x]) y) : Placed accesses y ∨ y = x :=
      (mem_append.mp h.1).imp (fun hy => ⟨hy, h.2⟩) mem_singleton.mp
    rw [foldl_append, foldl_cons, foldl_nil]
    generalize accesses.foldl addAccess .empty = slots at made found
    unfold addAccess
    by_cases hx : slotRange x.1 x.2 = true
    · rw [if_pos hx]
      have hplaced : Placed (accesses ++ [x]) x := ⟨by simp, hx⟩
      generalize hsize : max (((slots.get? x.1).map Slot.size).getD x.2) x.2 = size
      have wide : Placed (accesses ++ [x]) (x.1, size) := by
        cases hold : slots.get? x.1 with
        | none =>
          rw [hold, map_none, getD_none, max_self] at hsize
          exact hsize ▸ hplaced
        | some s =>
          rw [hold, map_some, getD_some] at hsize
          rcases max_choice s.size x.2 with h | h
          · exact hsize ▸ h.symm ▸ grow (made x.1 s hold).2
          · exact hsize ▸ h.symm ▸ hplaced
      refine ⟨fun k s hs => ?_, fun y hy => ?_⟩
      · rw [OrdMap.get?_insert] at hs
        split at hs
        · next hk =>
          obtain rfl := some.inj hs
          exact ⟨by rw [hk], hk.symm ▸ wide⟩
        · exact (made k s hs).imp_right grow
      · rw [OrdMap.get?_insert]
        split
        · next hk =>
          refine ⟨_, rfl, ?_⟩
          rcases shrink hy with hy | rfl
          · obtain ⟨s, hs, hle⟩ := found y hy
            rw [← hk, hs, map_some, getD_some] at hsize
            exact hsize ▸ hle.trans (le_max_left _ _)
          · exact hsize ▸ le_max_right _ _
        · next hk =>
          rcases shrink hy with hy | rfl
          · exact found y hy
          · exact absurd rfl hk
    · rw [if_neg hx]
      refine ⟨fun k s hs => (made k s hs).imp_right grow, fun y hy => ?_⟩
      rcases shrink hy with hy | rfl
      · exact found y hy
      · exact absurd hy.2 hx

/-- No access ends past the largest offset. -/
def Unwrapped (accesses : List (ℤ × ℕ)) : Prop :=
  ∀ x, Placed accesses x → minOffset ≤ x.1 ∧ x.1 + x.2 ≤ maxOffset

theorem keepApart_spec {l : List (ℤ × Slot)} (last : ℤ) (sorted : (l.map Prod.fst).Pairwise (· < ·))
    (ends : ∀ e ∈ l, e.2.endOf = e.2.stop ∧ e.1 ≤ e.2.stop) :
    (∀ e ∈ keepApart last l, last ≤ e.1) ∧
      (keepApart last l).Pairwise (fun e e' => e.2.stop ≤ e'.1) ∧
      ∀ e ∈ l, e ∈ keepApart last l ∨ e.1 < last ∨
        ∃ z ∈ keepApart last l, z.1 < e.1 ∧ e.1 < z.2.stop := by
  induction l generalizing last with
  | nil => exact ⟨nofun, .nil, nofun⟩
  | cons e rest ih =>
    rw [map_cons, pairwise_cons] at sorted
    have ends' := fun z hz => ends z (mem_cons_of_mem _ hz)
    obtain ⟨k, s⟩ := e
    obtain ⟨hend, hle⟩ := ends (k, s) mem_cons_self
    unfold keepApart
    split
    · next hlt =>
      obtain ⟨h₁, h₂, h₃⟩ := ih last sorted.2 ends'
      exact ⟨h₁, h₂, forall_mem_cons.mpr ⟨.inr (.inl hlt), h₃⟩⟩
    · next hge =>
      obtain ⟨h₁, h₂, h₃⟩ := ih s.endOf sorted.2 ends'
      rw [hend] at h₁ h₂ h₃ ⊢
      refine ⟨forall_mem_cons.mpr ⟨not_lt.mp hge, fun z hz => ?_⟩,
        pairwise_cons.mpr ⟨h₁, h₂⟩, forall_mem_cons.mpr ⟨.inl mem_cons_self, ?_⟩⟩
      · exact (not_lt.mp hge).trans (hle.trans (h₁ z hz))
      · intro z hz
        have hkz : k < z.1 := sorted.1 _ (mem_map_of_mem hz)
        rcases h₃ z hz with h | h | ⟨y, hy, h⟩
        · exact .inl (mem_cons_of_mem _ h)
        · exact .inr (.inr ⟨(k, s), mem_cons_self, hkz, h⟩)
        · exact .inr (.inr ⟨y, mem_cons_of_mem _ hy, h⟩)

/-- The slots of the accesses, overlapping starts dropped. -/
def accessSlots (accesses : List (ℤ × ℕ)) : Slots := apart (accesses.foldl addAccess .empty)

/-- Each slot is a widest access; an access starts at one or inside one. -/
structure OfAccesses (accesses : List (ℤ × ℕ)) (slots : Slots) : Prop where
  tidy : Tidy slots
  made : ∀ e ∈ slots.entries, e.2 = ⟨e.1, e.2.size, false⟩ ∧ Placed accesses (e.1, e.2.size)
  found : ∀ x, Placed accesses x → ∃ e ∈ slots.entries,
    (e.1 = x.1 ∧ x.2 ≤ e.2.size) ∨ (e.1 < x.1 ∧ x.1 < e.2.stop)

theorem accessSlots_spec (h : Unwrapped accesses) : OfAccesses accesses (accessSlots accesses) := by
  obtain ⟨made, found⟩ := addAccess_spec accesses
  have made' (e) (he : e ∈ (accesses.foldl addAccess .empty).entries) :
      e.2 = ⟨e.1, e.2.size, false⟩ ∧ Placed accesses (e.1, e.2.size) :=
    made e.1 e.2 (OrdMap.get?_eq_some_iff.mpr he)
  have stop (e) (he : e ∈ (accesses.foldl addAccess .empty).entries) :
      e.2.stop = e.1 + e.2.size := by
    rw [Slot.stop, (made' e he).1]
    simp
  have fits (e) (he : e ∈ (accesses.foldl addAccess .empty).entries) :
      minOffset ≤ e.1 ∧ e.1 ≤ e.2.stop ∧ e.2.stop ≤ maxOffset := by
    obtain ⟨hmin, hmax⟩ := h _ (made' e he).2
    rw [stop e he]
    exact ⟨hmin, by omega, hmax⟩
  have ends (e) (he : e ∈ (accesses.foldl addAccess .empty).entries) :
      e.2.endOf = e.2.stop ∧ e.1 ≤ e.2.stop := by
    obtain ⟨hmin, hle, hmax⟩ := fits e he
    exact ⟨endOf_eq (hmin.trans hle) hmax, hle⟩
  obtain ⟨-, hpair, hkept⟩ := keepApart_spec minOffset (accesses.foldl addAccess .empty).sorted ends
  have sub (e) (he : e ∈ (accessSlots accesses).entries) :
      e ∈ (accesses.foldl addAccess .empty).entries := (keepApart_sublist _ _).subset he
  refine ⟨⟨fun e he => ?_, fun e he => ?_, ?_, fun e he => (fits e (sub e he)).2.2⟩,
    fun e he => made' e (sub e he), fun x hx => ?_⟩
  · rw [(made' e (sub e he)).1]
  · exact ⟨(fits e (sub e he)).1, (fits e (sub e he)).2.1⟩
  · intro e he e' he' hlt
    have hsym : Std.Symm fun e e' : ℤ × Slot => e.2.stop ≤ e'.1 ∨ e'.2.stop ≤ e.1 :=
      ⟨fun _ _ => Or.symm⟩
    have hpair' : (accessSlots accesses).entries.Pairwise fun e e' =>
        e.2.stop ≤ e'.1 ∨ e'.2.stop ≤ e.1 := hpair.imp .inl
    rcases hpair'.forall he he' (fun heq => absurd hlt (heq ▸ lt_irrefl _)) with hle | hle
    · exact hle
    · exact absurd ((fits e' (sub e' he')).2.1.trans hle) (not_le.mpr hlt)
  · obtain ⟨s, hs, hle⟩ := found x hx
    have hmem := OrdMap.get?_eq_some_iff.mp hs
    rcases hkept _ hmem with hk | hlow | ⟨z, hz, hlt⟩
    · exact ⟨_, hk, .inl ⟨rfl, hle⟩⟩
    · exact absurd (h x hx).1 (not_le.mpr hlow)
    · exact ⟨z, hz, .inr hlt⟩

/-- Two accesses that share a byte lie in one access. -/
def Together (accesses : List (ℤ × ℕ)) : Prop :=
  ∀ x y, Placed accesses x → Placed accesses y →
    (∃ b, (x.1 ≤ b ∧ b < x.1 + x.2) ∧ (y.1 ≤ b ∧ b < y.1 + y.2)) →
    ∃ z, Placed accesses z ∧ (z.1 ≤ x.1 ∧ x.1 + x.2 ≤ z.1 + z.2) ∧
      (z.1 ≤ y.1 ∧ y.1 + y.2 ≤ z.1 + z.2)

theorem OfAccesses.stop {slots : Slots} (h : OfAccesses accesses slots)
    (he : e ∈ slots.entries) : e.2.stop = e.1 + e.2.size := by
  rw [Slot.stop, (h.made e he).1]
  simp

theorem OfAccesses.within {slots : Slots} (h : OfAccesses accesses slots)
    (fits : Unwrapped accesses) (together : Together accesses) (hx : Placed accesses x) :
    ∃ e ∈ slots.entries, e.1 ≤ x.1 ∧ x.1 + x.2 ≤ e.2.stop ∧ (e.1 = x.1 ∨ x.1 < e.2.stop) := by
  have below (n : ℕ) : ∀ x, Placed accesses x → x.1 < minOffset + n →
      ∃ e ∈ slots.entries, e.1 ≤ x.1 ∧ x.1 + x.2 ≤ e.2.stop ∧ (e.1 = x.1 ∨ x.1 < e.2.stop) := by
    induction n with
    | zero =>
      intro x hx hlt
      exact absurd (fits x hx).1 (not_le.mpr (by simpa using hlt))
    | succ n ih =>
      intro x hx hlt
      obtain ⟨e, he, ⟨heq, hle⟩ | ⟨hbefore, hin⟩⟩ := h.found x hx
      · refine ⟨e, he, heq.le, ?_, .inl heq⟩
        rw [h.stop he]
        omega
      · -- the slot's own access and this one share its first byte
        rcases Nat.eq_zero_or_pos x.2 with hzero | hpos
        · exact ⟨e, he, hbefore.le, by omega, .inr hin⟩
        have hstop := h.stop he
        obtain ⟨z, hz, ⟨hze, -⟩, hzx, hxz⟩ := together (e.1, e.2.size) x (h.made e he).2 hx
          ⟨x.1, ⟨hbefore.le, hstop ▸ hin⟩, le_refl _, by omega⟩
        obtain ⟨e', he', h₁, h₂, -⟩ := ih z hz (by dsimp only at hze; push_cast at hlt; omega)
        exact ⟨e', he', h₁.trans hzx, hxz.trans h₂, .inr (by omega)⟩
  exact below (x.1 - minOffset + 1).toNat x hx (by have := (fits x hx).1; omega)

end Accesses

section Arrays

variable {accesses : List (ℤ × ℕ)} {before : List ℤ} {slots : Slots} {d : ℤ} {t : Slot}

theorem mem_insert {k : ℤ} :
    e ∈ (slots.insert k t).entries ↔ e = (k, t) ∨ e ∈ slots.entries ∧ e.1 ≠ k := by
  obtain ⟨k', s⟩ := e
  rw [← OrdMap.get?_eq_some_iff, OrdMap.get?_insert, ← OrdMap.get?_eq_some_iff, Prod.mk.injEq]
  by_cases hk : k' = k
  · simp [hk, eq_comm]
  · simp [hk]

theorem nextStart_some {n : ℤ} (h : nextStart slots d = some n) :
    d < n ∧ (∃ s, (n, s) ∈ slots.entries) ∧ ∀ e ∈ slots.entries, d < e.1 → n ≤ e.1 := by
  obtain ⟨⟨n', s⟩, hfind, rfl⟩ := map_eq_some_iff.mp h
  obtain ⟨hlt, early, late, heq, hearly⟩ := find?_eq_some_iff_append.mp hfind
  have sorted := slots.sorted
  rw [heq, map_append, pairwise_append, map_cons, pairwise_cons] at sorted
  rw [heq]
  refine ⟨of_decide_eq_true hlt, ⟨s, by simp⟩, fun e he hd => ?_⟩
  rcases mem_append.mp he with he | he
  · exact absurd (decide_eq_true hd) (by simpa using hearly e he)
  · rcases mem_cons.mp he with rfl | he
    · exact le_refl _
    · exact (sorted.2.1.1 _ (mem_map_of_mem he)).le

theorem nextStart_none (h : nextStart slots d = none) : ∀ e ∈ slots.entries, e.1 ≤ d := by
  intro e he
  have := find?_eq_none.mp (map_eq_none_iff.mp h) e he
  simpa using this

theorem toU32_eq {x : ℤ} (h : 0 ≤ x) (h' : x < 2 ^ 32) : (toU32 x : ℤ) = x := by
  rw [toU32, if_pos ⟨h, h'⟩, Int.toNat_of_nonneg h]

theorem toU32_pos {x : ℤ} (h : 0 < toU32 x) : (toU32 x : ℤ) = x := by
  by_cases hx : 0 ≤ x ∧ x < 2 ^ 32
  · exact toU32_eq hx.1 hx.2
  · rw [toU32, if_neg hx] at h
    exact absurd h (lt_irrefl _)

theorem Tidy.insert (h : Tidy slots)
    (hrange : minOffset ≤ t.start ∧ t.start ≤ t.stop ∧ t.stop ≤ maxOffset)
    (hbefore : ∀ e ∈ slots.entries, e.1 < t.start → e.2.stop ≤ t.start)
    (hafter : ∀ e ∈ slots.entries, t.start < e.1 → t.stop ≤ e.1) :
    Tidy (slots.insert t.start t) := by
  constructor
  · intro e he
    rcases mem_insert.mp he with rfl | ⟨he, -⟩
    · rfl
    · exact h.start e he
  · intro e he
    rcases mem_insert.mp he with rfl | ⟨he, -⟩
    · exact ⟨hrange.1, hrange.2.1⟩
    · exact h.forward e he
  · intro e he e' he' hlt
    rcases mem_insert.mp he with rfl | ⟨he, -⟩
    · rcases mem_insert.mp he' with rfl | ⟨he', -⟩
      · exact absurd hlt (lt_irrefl _)
      · exact hafter e' he' hlt
    · rcases mem_insert.mp he' with rfl | ⟨he', -⟩
      · exact hbefore e he hlt
      · exact h.ordered e he e' he' hlt
  · intro e he
    rcases mem_insert.mp he with rfl | ⟨he, -⟩
    · exact hrange.2.2
    · exact h.fits e he

structure IsArray (slots : Slots) (d : ℤ) (t : Slot) : Prop where
  start : t.start = d
  array : t.array = true
  free : ∀ e ∈ slots.entries, e.1 ≤ d → e.2.stop ≤ d
  forward : d < maxOffset → d < t.stop
  fits : d ≤ t.stop ∧ t.stop ≤ maxOffset
  next : ∀ e ∈ slots.entries, d < e.1 → t.stop ≤ e.1
  locals : d < 0 → t.stop ≤ 0
  reach : t.stop = 0 ∨ t.stop = maxOffset ∨ ∃ s, (t.stop, s) ∈ slots.entries

theorem addArray_cases (h : Tidy slots) (hd : d < 0 ∨ args ≤ d) (hmax : d ≤ maxOffset)
    (near : containing slots d = none → args ≤ d →
      ∀ n, nextStart slots d = some n → n < d + 2 ^ 32) :
    (addArray slots d = slots ∧ ((∃ e ∈ slots.entries, e.1 ≤ d ∧ d < e.2.stop) ∨ d ≤ -2 ^ 32)) ∨
      ∃ t, IsArray slots d t ∧ addArray slots d = slots.insert d t := by
  unfold addArray
  cases hc : containing slots d with
  | some r =>
    obtain ⟨hmem, hle, hlt⟩ := containing_some h hc
    exact .inl ⟨if_pos rfl, .inl ⟨_, hmem, hle, hlt⟩⟩
  | none =>
    have free := containing_none h hc
    rw [isSome_none, if_neg nofun]
    dsimp only
    rcases hd with hneg | harg
    · -- up to the next slot, or to the return address
      rw [decide_eq_true hneg]
      dsimp only
      have hnotarg : ¬ args ≤ d := by
        unfold args
        omega
      by_cases hpos : 0 < toU32 (min ((nextStart slots d).getD 0) 0 - d)
      · rw [if_pos (.inl hpos)]
        have hsize := toU32_pos hpos
        have hstop : (⟨d, toU32 (min ((nextStart slots d).getD 0) 0 - d), true⟩ : Slot).stop =
            min ((nextStart slots d).getD 0) 0 := by
          rw [Slot.stop, if_neg fun h => hpos.ne' h.2, hsize]
          dsimp only
          omega
        refine .inr ⟨_, ⟨rfl, rfl, free, fun _ => ?_, ?_, fun e he hlt => ?_, fun _ => ?_, ?_⟩, rfl⟩
        all_goals rw [hstop]
        · omega
        · unfold maxOffset
          omega
        · cases hn : nextStart slots d with
          | none => exact absurd (nextStart_none hn e he) (not_le.mpr hlt)
          | some n => exact (min_le_left _ _).trans ((nextStart_some hn).2.2 e he hlt)
        · exact min_le_right _ _
        · rcases min_choice ((nextStart slots d).getD 0) 0 with hm | hm
          · rw [hm]
            cases hn : nextStart slots d with
            | none => exact .inl rfl
            | some n => exact .inr (.inr (nextStart_some hn).2.1)
          · exact .inl hm
      · rw [if_neg (not_or.mpr ⟨hpos, hnotarg⟩)]
        refine .inl ⟨rfl, .inr (not_lt.mp fun hfar => hpos ?_)⟩
        have hnext : d < (nextStart slots d).getD 0 := by
          cases hn : nextStart slots d with
          | none => exact hneg
          | some n => exact (nextStart_some hn).1
        rw [← Int.natCast_pos, toU32_eq (by omega) (by omega)]
        omega
    · have hnotneg : ¬ d < 0 := by
        unfold args at harg
        omega
      rw [decide_eq_false hnotneg, if_pos (.inr harg)]
      cases hn : nextStart slots d with
      | none =>
        refine .inr ⟨⟨d, 0, true⟩, ⟨rfl, rfl, free, id, ⟨hmax, le_refl _⟩, fun e he hlt => ?_,
          fun h => absurd h hnotneg, .inr (.inl rfl)⟩, rfl⟩
        exact absurd (nextStart_none hn e he) (not_le.mpr hlt)
      | some n =>
        obtain ⟨hlt, ⟨s, hmem⟩, hnext⟩ := nextStart_some hn
        have hsize := toU32_eq (x := n - d) (by omega) (by have := near hc harg n hn; omega)
        have hstop : (⟨d, toU32 (n - d), true⟩ : Slot).stop = n := by
          rw [Slot.stop, if_neg fun h => ?_, hsize]
          · exact add_sub_cancel d n
          · have := h.2
            dsimp only at this
            omega
        refine .inr ⟨_, ⟨rfl, rfl, free, fun _ => ?_, ⟨?_, ?_⟩, fun e he hd => ?_,
          fun h => absurd h hnotneg, .inr (.inr ⟨s, ?_⟩)⟩, rfl⟩
        all_goals rw [hstop]
        · exact hlt
        · exact hlt.le
        · exact (h.forward _ hmem).2.trans (h.fits _ hmem)
        · exact hnext e he hd
        · exact hmem

structure Filled (accesses : List (ℤ × ℕ)) (added : List ℤ) (slots : Slots) : Prop where
  tidy : Tidy slots
  locals : ∀ e ∈ slots.entries, e.1 < args → e.2.stop ≤ 0
  kept : ∀ e ∈ (accessSlots accesses).entries, e.1 < e.2.stop → e ∈ slots.entries
  starts : ∀ e ∈ (accessSlots accesses).entries, ∃ s, (e.1, s) ∈ slots.entries
  plain : ∀ e ∈ slots.entries, e.2.array = false → e ∈ (accessSlots accesses).entries
  arrays : ∀ e ∈ slots.entries, e.2.array = true → e.1 ∈ added
  reach : ∀ e ∈ slots.entries, e.2.array = true →
    e.2.stop = 0 ∨ e.2.stop = maxOffset ∨ ∃ s, (e.2.stop, s) ∈ slots.entries
  held : ∀ d ∈ added, (∃ e ∈ slots.entries, e.1 ≤ d ∧ (e.1 = d ∨ d < e.2.stop) ∧
    (d < maxOffset → d < e.2.stop)) ∨ d ≤ -2 ^ 32

theorem IsArray.keeps (h : IsArray slots d t) (he : e ∈ slots.entries)
    {x : ℤ} (hx : e.1 ≤ x ∧ (e.1 = x ∨ x < e.2.stop) ∧ (x < maxOffset → x < e.2.stop)) :
    ∃ e ∈ (slots.insert d t).entries,
      e.1 ≤ x ∧ (e.1 = x ∨ x < e.2.stop) ∧ (x < maxOffset → x < e.2.stop) := by
  by_cases hd : e.1 = d
  · -- the slot replaced holds nothing past its start
    have hstop := h.free e he hd.le
    have hxd : x = d := by
      rcases hx.2.1 with heq | hlt
      · exact heq.symm.trans hd
      · omega
    exact ⟨(d, t), mem_insert.mpr (.inl rfl), hxd.ge, .inl hxd.symm, fun hlt =>
      hxd ▸ h.forward (hxd ▸ hlt)⟩
  · exact ⟨e, mem_insert.mpr (.inr ⟨he, hd⟩), hx⟩

variable {added : List ℤ}

theorem Filled.add (h : Filled accesses added slots)
    (hd : d < 0 ∨ args ≤ d) (hmin : minOffset ≤ d) (hmax : d ≤ maxOffset)
    (near : containing slots d = none → args ≤ d →
      ∀ n, nextStart slots d = some n → n < d + 2 ^ 32) :
    Filled accesses (added ++ [d]) (addArray slots d) := by
  have grow {x : ℤ} (hx : x ∈ added) : x ∈ added ++ [d] := mem_append_left _ hx
  rcases addArray_cases h.tidy hd hmax near with ⟨heq, hover⟩ | ⟨t, ht, heq⟩
  · rw [heq]
    refine ⟨h.tidy, h.locals, h.kept, h.starts, h.plain, fun e he ha => grow (h.arrays e he ha),
      h.reach, fun x hx => ?_⟩
    rcases mem_append.mp hx with hx | hx
    · exact h.held x hx
    · obtain rfl := mem_singleton.mp hx
      exact hover.imp_left fun ⟨e, he, hle, hlt⟩ => ⟨e, he, hle, .inr hlt, fun _ => hlt⟩
  · rw [heq]
    have keys {x : ℤ} (hx : ∃ s, (x, s) ∈ slots.entries) :
        ∃ s, (x, s) ∈ (slots.insert d t).entries := by
      obtain ⟨s, hs⟩ := hx
      by_cases hxd : x = d
      · exact ⟨t, mem_insert.mpr (.inl (by rw [hxd]))⟩
      · exact ⟨s, mem_insert.mpr (.inr ⟨hs, hxd⟩)⟩
    obtain rfl := ht.start
    constructor
    · exact h.tidy.insert ⟨hmin, ht.fits⟩ (fun e he hlt => ht.free e he hlt.le) ht.next
    · intro e he harg
      rcases mem_insert.mp he with rfl | ⟨he, -⟩
      · exact ht.locals (hd.resolve_right (not_le.mpr harg))
      · exact h.locals e he harg
    · intro e he hlt
      have hmem := h.kept e he hlt
      refine mem_insert.mpr (.inr ⟨hmem, fun heq => ?_⟩)
      exact absurd (heq ▸ ht.free e hmem heq.le) (not_le.mpr hlt)
    · exact fun e he => keys (h.starts e he)
    · intro e he hplain
      rcases mem_insert.mp he with rfl | ⟨he, -⟩
      · exact absurd (hplain.symm.trans ht.array) Bool.false_ne_true
      · exact h.plain e he hplain
    · intro e he ha
      rcases mem_insert.mp he with rfl | ⟨he, -⟩
      · simp
      · exact grow (h.arrays e he ha)
    · intro e he ha
      rcases mem_insert.mp he with rfl | ⟨he, -⟩
      · exact ht.reach.imp_right (Or.imp_right keys)
      · exact (h.reach e he ha).imp_right (Or.imp_right keys)
    · intro x hx
      rcases mem_append.mp hx with hx | hx
      · exact (h.held x hx).imp_left fun ⟨e, he, hcov⟩ => ht.keeps he hcov
      · obtain rfl := mem_singleton.mp hx
        exact .inl ⟨(t.start, t), mem_insert.mpr (.inl rfl), le_refl _, .inl rfl, ht.forward⟩

/-- Offsets are those of words, and none addressed is that of the return address. -/
def Addresses (addressed : List ℤ) : Prop :=
  ∀ d ∈ addressed, minOffset ≤ d ∧ d ≤ maxOffset ∧ (d < 0 ∨ args ≤ d)

/-- The next start past `d` of an access, or of an array made before, is less than `2 ^ 32`
bytes on. -/
def NextWithin (accesses : List (ℤ × ℕ)) (before : List ℤ) (d : ℤ) : Prop :=
  ∀ s, (s ∈ before ∨ ∃ x, Placed accesses x ∧ x.1 = s) → d < s →
    ∃ s', (s' ∈ before ∨ ∃ x, Placed accesses x ∧ x.1 = s') ∧ d < s' ∧ s' < d + 2 ^ 32

/-- Where a stack argument is addressed outside the accesses, the next start is near. -/
def NextNear (accesses : List (ℤ × ℕ)) (addressed : List ℤ) : Prop :=
  ∀ before d after, addressed = before ++ d :: after → args ≤ d →
    (∀ y, Placed accesses y → ¬ (y.1 ≤ d ∧ d < y.1 + y.2)) → NextWithin accesses before d

theorem Filled.next_near (h : Filled accesses added slots)
    (of : OfAccesses accesses (accessSlots accesses)) (harg : args ≤ d)
    (near : NextWithin accesses added d)
    (free : containing slots d = none) (n : ℤ) (hn : nextStart slots d = some n) :
    n < d + 2 ^ 32 := by
  have free := containing_none h.tidy free
  obtain ⟨hlt, ⟨s, hmem⟩, hnext⟩ := nextStart_some hn
  have hstart : n ∈ added ∨ ∃ x, Placed accesses x ∧ x.1 = n := by
    cases ha : s.array with
    | true => exact .inl (h.arrays _ hmem ha)
    | false => exact .inr ⟨_, (of.made _ (h.plain _ hmem ha)).2, rfl⟩
  obtain ⟨s', hs', hds, hfar⟩ := near n hstart hlt
  -- the slot at the near start, or over it, begins past `d`
  have hover : ∃ e ∈ slots.entries, e.1 ≤ s' ∧ (e.1 = s' ∨ s' < e.2.stop) := by
    rcases hs' with hs' | ⟨x, hx, rfl⟩
    · rcases h.held s' hs' with ⟨e, he, hle, hat, -⟩ | hlow
      · exact ⟨e, he, hle, hat⟩
      · unfold args at harg
        omega
    · obtain ⟨e, he, ⟨heq, -⟩ | ⟨hlt, hin⟩⟩ := of.found x hx
      · obtain ⟨t, ht⟩ := h.starts e he
        exact ⟨_, ht, heq.le, .inl heq⟩
      · exact ⟨e, h.kept e he (hlt.trans hin), hlt.le, .inr hin⟩
  obtain ⟨e, he, hle, hat⟩ := hover
  have hpast : d < e.1 := by
    by_contra hge
    have := free e he (not_lt.mp hge)
    omega
  exact (hnext e he hpast).trans_lt (hle.trans_lt hfar)

theorem Filled.none (fits : Unwrapped accesses) : Filled accesses [] (accessSlots accesses) := by
  have of := accessSlots_spec fits
  refine ⟨of.tidy, fun e he hlt => ?_, fun e he _ => he, fun e he => ⟨e.2, he⟩, fun e he _ => he,
    fun e he ha => ?_, fun e he ha => ?_, fun d hd => nomatch hd⟩
  · rw [of.stop he]
    have hrange := (of.made e he).2.2
    unfold slotRange at hrange
    simp only [Bool.decide_or, Bool.or_eq_true, decide_eq_true_eq] at hrange
    omega
  · rw [(of.made e he).1] at ha
    cases ha
  · rw [(of.made e he).1] at ha
    cases ha

theorem filled (fits : Unwrapped accesses) {addressed : List ℤ} (haddr : Addresses addressed)
    (near : ∀ before d after, addressed = before ++ d :: after → args ≤ d →
      (∀ e ∈ (accessSlots accesses).entries, e.1 ≤ d → e.2.stop ≤ d) →
        NextWithin accesses before d) :
    Filled accesses addressed (slotsOf accesses addressed) := by
  have of := accessSlots_spec fits
  have from_prefix (added rest : List ℤ) (heq : addressed = added ++ rest) :
      Filled accesses added (added.foldl addArray (accessSlots accesses)) := by
    induction added using List.reverseRecOn generalizing rest with
    | nil => exact .none fits
    | append_singleton added d ih =>
      have hsplit : addressed = added ++ d :: rest := by simpa using heq
      have h := ih (d :: rest) hsplit
      obtain ⟨hmin, hmax, hd⟩ := haddr d (hsplit ▸ by simp)
      rw [foldl_append]
      refine h.add hd hmin hmax fun free harg =>
        h.next_near of harg (near added d rest hsplit harg fun e he hle => ?_) free
      by_contra hlt
      exact hlt (containing_none h.tidy free e (h.kept e he (hle.trans_lt (not_le.mp hlt))) hle)
  exact from_prefix addressed [] (append_nil _).symm

/-- An access that runs over the return address does not start in a slot: no access made for
a slot is over its first byte, nor runs an array from an addressed offset up to it. -/
def Below (accesses : List (ℤ × ℕ)) (addressed : List ℤ) : Prop :=
  ∀ x ∈ accesses, x.1 < 0 → 0 < x.1 + x.2 →
    (∀ y, Placed accesses y → ¬ (y.1 ≤ x.1 ∧ x.1 < y.1 + y.2)) ∧
      ∀ d ∈ addressed, d ≤ x.1 → ∃ y, Placed accesses y ∧ y.1 ≤ x.1 ∧ d < y.1 + y.2

/-- The bytes of the slots are apart, the locals end at the return address at most, and an
access that starts in a slot lies in it. -/
structure Sound (accesses : List (ℤ × ℕ)) (slots : Slots) : Prop where
  disjoint : ∀ s ∈ slots.values, ∀ t ∈ slots.values, ∀ b,
    s.start ≤ b ∧ b < s.stop → t.start ≤ b ∧ b < t.stop → s = t
  locals : ∀ s ∈ slots.values, s.isArg = false → s.stop ≤ 0
  inside : ∀ x ∈ accesses, ∀ s d, containing slots x.1 = some (s, d) →
    s.start ≤ x.1 ∧ x.1 + x.2 ≤ s.stop

theorem Filled.value (h : Filled accesses added slots)
    (hs : s ∈ slots.values) : (s.start, s) ∈ slots.entries := by
  obtain ⟨e, he, rfl⟩ := mem_map.mp hs
  rw [h.tidy.start e he]
  exact he

theorem Filled.sound (h : Filled accesses added slots)
    (fits : Unwrapped accesses) (together : Together accesses) (below : Below accesses added) :
    Sound accesses slots := by
  have of := accessSlots_spec fits
  refine ⟨fun s hs t ht b hb hb' => ?_, fun s hs harg => ?_, fun x hx s d hc => ?_⟩
  · exact congrArg Prod.snd (h.tidy.unique (h.value hs) (h.value ht) hb hb')
  · exact h.locals _ (h.value hs) (by simpa [Slot.isArg] using harg)
  obtain ⟨hmem, hle, hlt⟩ := containing_some h.tidy hc
  refine ⟨hle, ?_⟩
  -- a slot of the accesses over a byte of this slot is this slot
  have same {e : ℤ × Slot} (he : e ∈ (accessSlots accesses).entries) {b : ℤ}
      (hb : e.1 ≤ b ∧ b < e.2.stop) (hs : s.start ≤ b ∧ b < s.stop) : e = (s.start, s) :=
    h.tidy.unique (h.kept e he (hb.1.trans_lt hb.2)) hmem hb hs
  by_cases hrange : slotRange x.1 x.2 = true
  · obtain ⟨e, he, hbefore, hin, hat⟩ := of.within fits together ⟨hx, hrange⟩
    rcases Nat.eq_zero_or_pos x.2 with hzero | hpos
    · omega
    · rw [same he ⟨hbefore, by omega⟩ ⟨hle, hlt⟩] at hin
      exact hin
  · unfold slotRange at hrange
    simp only [Bool.decide_or, Bool.or_eq_true, decide_eq_true_eq, not_or, not_and, not_le] at hrange
    have hneg : x.1 < 0 := by
      by_contra hge
      have := h.locals _ hmem (by dsimp only; omega)
      dsimp only at this
      omega
    obtain ⟨hclear, harrays⟩ := below x hx hneg (hrange.1 hneg)
    cases ha : s.array with
    | false =>
      have hs := h.plain _ hmem ha
      have hstop := of.stop hs
      exact absurd ⟨hle, hstop ▸ hlt⟩ (hclear _ (of.made _ hs).2)
    | true =>
      obtain ⟨y, hy, hyx, hdy⟩ := harrays _ (h.arrays _ hmem ha) hle
      obtain ⟨e, he, hbefore, hin, -⟩ := of.within fits together hy
      rcases le_or_gt e.1 s.start with hes | hse
      · have heq := same he ⟨hes, hdy.trans_le hin⟩ ⟨le_refl _, hle.trans_lt hlt⟩
        have hplain := congrArg (fun e : ℤ × Slot => e.2.array) heq
        rw [(of.made e he).1] at hplain
        exact absurd (hplain.trans ha) Bool.false_ne_true
      · obtain ⟨t, ht⟩ := h.starts e he
        have := h.tidy.ordered _ hmem _ ht hse
        dsimp only at this
        omega

variable (sound : Sound accesses slots) (h : Filled accesses added slots)

include sound h

theorem Sound.over (hx : x ∈ accesses) (he : e ∈ slots.entries)
    (hover : e.1 ≤ x.1 ∧ x.1 < e.2.stop) : x.1 + x.2 ≤ e.2.stop := by
  cases hc : containing slots x.1 with
  | none => exact absurd hover.2 (not_lt.mpr (containing_none h.tidy hc e he hover.1))
  | some r =>
    obtain ⟨hmem, hat⟩ := containing_some h.tidy hc
    rw [h.tidy.unique he hmem hover hat]
    exact (sound.inside x hx _ _ hc).2

theorem Sound.in_access (fits : Unwrapped accesses) (hx : Placed accesses x) (hpos : 0 < x.2) :
    ∃ e ∈ (accessSlots accesses).entries, e ∈ slots.entries ∧ e.1 ≤ x.1 ∧ x.1 + x.2 ≤ e.2.stop := by
  have of := accessSlots_spec fits
  obtain ⟨e, he, hat⟩ := of.found x hx
  have hover : e.1 ≤ x.1 ∧ x.1 < e.2.stop := by
    have := of.stop he
    omega
  have hmem := h.kept e he (hover.1.trans_lt hover.2)
  exact ⟨e, he, hmem, hover.1, sound.over h hx.1 hmem hover⟩

theorem Sound.together (fits : Unwrapped accesses) : Together accesses := by
  intro x y hx hy ⟨b, hbx, hby⟩
  have of := accessSlots_spec fits
  obtain ⟨e, he, hmem, hex, hxe⟩ := sound.in_access h fits hx (by omega)
  obtain ⟨e', he', hmem', hey, hye⟩ := sound.in_access h fits hy (by omega)
  obtain rfl := h.tidy.unique hmem hmem' (x := b) (by omega) (by omega)
  rw [of.stop he] at hxe hye
  exact ⟨_, (of.made e he).2, ⟨hex, hxe⟩, hey, hye⟩

theorem Sound.below (fits : Unwrapped accesses)
    (small : ∀ d ∈ added, -2 ^ 32 < d) : Below accesses added := by
  have of := accessSlots_spec fits
  intro x hx hneg hcross
  have clear (e) (he : e ∈ slots.entries) (hle : e.1 ≤ x.1) : e.2.stop ≤ x.1 := by
    by_contra hlt
    have hin := sound.over h hx he ⟨hle, not_le.mp hlt⟩
    have := h.locals e he (by unfold args; omega)
    omega
  refine ⟨fun y hy hover => ?_, fun d hd hdx => ?_⟩
  · obtain ⟨e, -, hmem, hey, hye⟩ := sound.in_access h fits hy (by omega)
    have := clear e hmem (by omega)
    omega
  by_contra hno
  push Not at hno
  have covers (d) (hd : d ∈ added) (hneg : d < 0) : ∃ e ∈ slots.entries, e.1 ≤ d ∧ d < e.2.stop := by
    rcases h.held d hd with ⟨e, he, hle, -, hlt⟩ | hfar
    · exact ⟨e, he, hle, hlt (by unfold maxOffset; omega)⟩
    · exact absurd (small d hd) (not_lt.mpr hfar)
  obtain ⟨e, he, hed, hde⟩ := covers d hd (by omega)
  have hsome : (slots.entries.filter fun e => e.1 ≤ x.1) ≠ [] := fun hnil => by
    have hmem : e ∈ slots.entries.filter fun e => e.1 ≤ x.1 :=
      mem_filter.mpr ⟨he, decide_eq_true (hed.trans hdx)⟩
    rw [hnil] at hmem
    cases hmem
  obtain ⟨⟨hl, hlx⟩, hmax⟩ := last_before (getLast?_eq_some_getLast hsome)
  generalize (slots.entries.filter fun e => e.1 ≤ x.1).getLast hsome = l at hl hlx hmax
  have hstop := clear l hl hlx
  cases ha : l.2.array with
  | false =>
    have hplain := h.plain l hl ha
    have hend := hno _ (of.made l hplain).2 hlx
    rw [← of.stop hplain] at hend
    rcases hmax e he (hed.trans hdx) with rfl | hlt
    · omega
    · have := h.tidy.ordered e he l hl hlt
      have := (h.tidy.forward l hl).2
      omega
  | true =>
    obtain ⟨e', he', hle', hlt'⟩ := covers l.1 (h.arrays l hl ha) (by omega)
    have hwide : l.1 < l.2.stop := by
      rcases hmax e' he' (hle'.trans hlx) with rfl | hlt
      · exact hlt'
      · exact absurd (h.tidy.ordered e' he' l hl hlt) (not_le.mpr hlt')
    rcases h.reach l hl ha with hend | hend | ⟨s, hs⟩
    · omega
    · unfold maxOffset at hend
      omega
    · rcases hmax _ hs hstop with heq | hlt
      · exact absurd (congrArg Prod.fst heq) hwide.ne'
      · exact absurd hlt (not_lt.mpr hwide.le)

end Arrays

section Frames

variable (func : SsaFunction) (live : ℕ → Bool)

/-- What the slots of a frame are for: apart, the locals below the return address, and every
live access that prints through a slot inside the slot it names. -/
structure SlotsHold (fr : Frame) : Prop where
  disjoint : ∀ s ∈ fr.slots.values, ∀ t ∈ fr.slots.values, ∀ b,
    s.start ≤ b ∧ b < s.stop → t.start ≤ b ∧ b < t.stop → s = t
  locals : ∀ s ∈ fr.slots.values, s.isArg = false → s.stop ≤ 0
  inside : ∀ op ∈ liveOps func live, ∀ v k n, op.inputs[1]? = some v →
    accessSize func op = some n → fr.offsetIn func v op.block = some k →
    ∀ asLvalue rust text, fr.access func op.block v n asLvalue rust = some text →
    ∃ s d, containing fr.slots k.toInt = some (s, d) ∧ text = s.accessText d n asLvalue rust ∧
      s.start ≤ k.toInt ∧ k.toInt + n ≤ s.stop

theorem new_slots : (Frame.new func live).slots = slotsOf
    ((Frame.new func live).accesses func live) ((Frame.new func live).addressed func live) := by
  unfold Frame.new
  split
  · have hoffset (v block : ℕ) :
        Frame.offsetIn func ⟨fun _ => none, .empty, none, [], none⟩ v block = none := if_neg nofun
    have haccess (op : SsaOp) :
        Frame.accessOf func ⟨fun _ => none, .empty, none, [], none⟩ op = none := by
      simp [Frame.accessOf, hoffset, bind_eq_bind, bind_fun_none]
    have haddress (op : SsaOp) :
        Frame.addressOf func ⟨fun _ => none, .empty, none, [], none⟩ op = none := by
      simp [Frame.addressOf, Frame.offsetOf, bind_eq_bind, bind_fun_none]
    rw [Frame.accesses, Frame.addressed, filterMap_eq_nil_iff.mpr fun op _ => haccess op,
      filterMap_eq_nil_iff.mpr fun op _ => haddress op]
    rfl
  · rfl

theorem slotsHold_iff (fr : Frame) :
    SlotsHold func live fr ↔ Sound (fr.accesses func live) fr.slots := by
  have hmem (x : ℤ × ℕ) : x ∈ fr.accesses func live ↔ ∃ op ∈ liveOps func live, ∃ v k,
      op.inputs[1]? = some v ∧ accessSize func op = some x.2 ∧
        fr.offsetIn func v op.block = some k ∧ k.toInt = x.1 := by
    obtain ⟨k, n⟩ := x
    simp only [Frame.accesses, Frame.accessOf, mem_filterMap, bind_eq_bind,
      bind_eq_some_iff, some.injEq, Prod.mk.injEq]
    refine exists_congr fun op => and_congr_right fun _ => ⟨?_, ?_⟩
    · rintro ⟨size, hsize, k', ⟨v, hv, hk⟩, rfl, rfl⟩
      exact ⟨v, k', hv, hsize, hk, rfl⟩
    · rintro ⟨v, k', hv, hsize, hk, rfl⟩
      exact ⟨n, hsize, k', ⟨v, hv, hk⟩, rfl, rfl⟩
  constructor
  · intro h
    refine ⟨h.disjoint, h.locals, fun x hx s d hc => ?_⟩
    obtain ⟨op, hop, v, k, hv, hn, hk, hx1⟩ := (hmem x).mp hx
    have htext : fr.access func op.block v x.2 false false = some (s.accessText d x.2 false false) := by
      rw [Frame.access, hk, bind_eq_bind, bind_some, hx1, hc]
      rfl
    obtain ⟨s', d', hc', -, hin⟩ := h.inside op hop v k x.2 hv hn hk _ _ _ htext
    rw [hx1, hc] at hc'
    obtain ⟨rfl, rfl⟩ := Prod.mk.inj (some.inj hc')
    exact hx1 ▸ hin
  · intro h
    refine ⟨h.disjoint, h.locals, fun op hop v k n hv hn hk asLvalue rust text htext => ?_⟩
    rw [Frame.access, hk, bind_eq_bind, bind_some] at htext
    obtain ⟨⟨s, d⟩, hc, hs⟩ := bind_eq_some_iff.mp htext
    refine ⟨s, d, hc, (some.inj hs).symm, ?_⟩
    exact h.inside (k.toInt, n) ((hmem _).mpr ⟨op, hop, v, k, hv, hn, hk, rfl⟩) s d hc

theorem addresses (fr : Frame) : Addresses (fr.addressed func live) := by
  intro d hd
  obtain ⟨op, -, hop⟩ := mem_filterMap.mp hd
  unfold Frame.addressOf at hop
  split at hop
  · cases hop
  obtain ⟨out, -, hop⟩ := bind_eq_some_iff.mp hop
  obtain ⟨k, -, hop⟩ := bind_eq_some_iff.mp hop
  split at hop
  · cases hop
  next hno =>
  obtain rfl := some.inj hop
  have hlt := k.toInt_lt
  have hle := k.le_toInt
  push Not at hno
  unfold minOffset maxOffset
  refine ⟨by omega, by omega, ?_⟩
  by_cases hneg : k.toInt < 0
  · exact .inl hneg
  · exact .inr (hno.2.2 (not_lt.mp hneg))

/-- Every start within `2 ^ 32` bytes of the return address. -/
def Small (accesses : List (ℤ × ℕ)) (addressed : List ℤ) : Prop :=
  (∀ x, Placed accesses x → -2 ^ 32 < x.1 ∧ x.1 + x.2 < 2 ^ 32) ∧
    ∀ d ∈ addressed, -2 ^ 32 < d ∧ d < 2 ^ 32

theorem Small.unwrapped {accesses : List (ℤ × ℕ)} {addressed : List ℤ}
    (h : Small accesses addressed) : Unwrapped accesses := by
  intro x hx
  have := h.1 x hx
  unfold minOffset maxOffset
  omega

theorem Small.nextWithin {accesses : List (ℤ × ℕ)} {before after : List ℤ} {d : ℤ}
    (h : Small accesses (before ++ d :: after)) (harg : args ≤ d) :
    NextWithin accesses before d := by
  intro s hs hlt
  refine ⟨s, hs, hlt, ?_⟩
  unfold args at harg
  rcases hs with hs | ⟨x, hx, rfl⟩
  · have := (h.2 s (mem_append_left _ hs)).2
    omega
  · have := (h.1 x hx).2
    omega

def accessed : List (ℤ × ℕ) := (Frame.new func live).accesses func live

/-- The offsets whose address the frame's values take. -/
def taken : List ℤ := (Frame.new func live).addressed func live

/-- The slots hold what the accesses are printed as where these lie together and below what is
taken; within 32 bits of the return address, nowhere else. -/
theorem slots_hold_iff_apart :
    (Unwrapped (accessed func live) → NextNear (accessed func live) (taken func live) →
        Together (accessed func live) → Below (accessed func live) (taken func live) →
          SlotsHold func live (Frame.new func live)) ∧
      (Small (accessed func live) (taken func live) → (SlotsHold func live (Frame.new func live) ↔
          Together (accessed func live) ∧ Below (accessed func live) (taken func live))) := by
  have hslots : (Frame.new func live).slots = slotsOf (accessed func live) (taken func live) :=
    new_slots func live
  have haddr : Addresses (taken func live) := addresses func live (Frame.new func live)
  have enough (fits : Unwrapped (accessed func live))
      (near : NextNear (accessed func live) (taken func live))
      (together : Together (accessed func live))
      (below : Below (accessed func live) (taken func live)) :
      SlotsHold func live (Frame.new func live) := by
    have hfilled := filled fits haddr fun before d after heq harg free =>
      near before d after heq harg fun y hy hover => by
        obtain ⟨e, he, hey, hye, -⟩ := (accessSlots_spec fits).within fits together hy
        have := free e he (hey.trans hover.1)
        omega
    exact (slotsHold_iff func live (Frame.new func live)).mpr
      (hslots ▸ hfilled.sound fits together below)
  refine ⟨enough, fun small => ⟨fun h => ?_, fun h => ?_⟩⟩
  · have fits := small.unwrapped
    have hfilled := filled fits haddr fun before d after heq harg _ =>
      Small.nextWithin (heq ▸ small) harg
    have sound : Sound (accessed func live) (slotsOf (accessed func live) (taken func live)) :=
      hslots ▸ (slotsHold_iff func live (Frame.new func live)).mp h
    exact ⟨sound.together hfilled fits, sound.below hfilled fits fun d hd => (small.2 d hd).1⟩
  · refine enough small.unwrapped (fun before d after heq harg _ => ?_) h.1 h.2
    exact Small.nextWithin (heq ▸ small) harg

/-- Stores of eight bytes 16 and `c` bytes below the return address. -/
def storesAt (c : U64) : SsaFunction where
  varnodes :=
    [⟨⟨.register, 0x20, 8⟩, 0, none, [0, 1]⟩, ⟨⟨.const, 0x10, 8⟩, 0, none, [0]⟩,
      ⟨⟨.const, c, 8⟩, 0, none, [1]⟩, ⟨⟨.unique, 0x100, 8⟩, 1, some 0, [2]⟩,
      ⟨⟨.unique, 0x200, 8⟩, 1, some 1, [3]⟩, ⟨⟨.register, 0x38, 8⟩, 0, none, [2, 3]⟩]
  ops :=
    [⟨.intSub, some 3, [0, 1], 0, 0x1000, false⟩, ⟨.intSub, some 4, [0, 2], 0, 0x1004, false⟩,
      ⟨.store, none, [1, 3, 5], 0, 0x1008, false⟩, ⟨.store, none, [1, 4, 5], 0, 0x100c, false⟩]
  cfg := ⟨[⟨0, 0x1000, [], [], []⟩], 0, [], .empty⟩
  phantomWrites := []
  phantomRegs := []

theorem slots_hold_iff_apart_adjacent :
    SlotsHold (storesAt 8) (fun _ => true) (Frame.new (storesAt 8) fun _ => true) ∧
      Together (accessed (storesAt 8) fun _ => true) := by
  have haccesses : accessed (storesAt 8) (fun _ => true) = [(-16, 8), (-8, 8)] := by decide
  have haddressed : taken (storesAt 8) (fun _ => true) = [] := by decide
  have either {x : ℤ × ℕ} (hx : x ∈ [((-16 : ℤ), 8), (-8, 8)]) : x = (-16, 8) ∨ x = (-8, 8) := by
    simpa using hx
  have small : Small [(-16, 8), (-8, 8)] [] := by
    refine ⟨fun x hx => ?_, fun d hd => nomatch hd⟩
    rcases either hx.1 with rfl | rfl <;> omega
  have together : Together [(-16, 8), (-8, 8)] := by
    intro x y hx hy ⟨b, hbx, hby⟩
    have hsame : x = y := by
      rcases either hx.1 with rfl | rfl <;> rcases either hy.1 with rfl | rfl <;>
        first | rfl | omega
    exact ⟨x, hx, ⟨le_refl _, le_refl _⟩, hsame ▸ ⟨le_refl _, le_refl _⟩⟩
  have below : Below [(-16, 8), (-8, 8)] [] := by
    intro x hx hneg hcross
    rcases either hx with rfl | rfl <;> exact absurd hcross (by decide)
  have main := slots_hold_iff_apart (storesAt 8) fun _ => true
  rw [haccesses, haddressed] at main
  have near : NextNear [(-16, 8), (-8, 8)] [] := fun before d after heq => by simp at heq
  have hold := main.1 small.unwrapped near together below
  rw [haccesses]
  exact ⟨hold, ((main.2 small).mp hold).1⟩

/-- The second store prints through the first one's slot and ends past it. -/
theorem straddling_access_leaves_slot :
    ¬ SlotsHold (storesAt 0xc) (fun _ => true) (Frame.new (storesAt 0xc) fun _ => true) := by
  intro h
  have hin : containing (Frame.new (storesAt 0xc) fun _ => true).slots (-0xc : U64).toInt =
      some (⟨-0x10, 8, false⟩, 4) := by decide
  obtain ⟨s, d, hc, -, -, hle⟩ := h.inside ((storesAt 0xc).op 3) (by decide) 4 (-0xc) 8 (by decide)
    (by decide) (by decide) false false _ rfl
  rw [hin] at hc
  cases hc
  exact absurd hle (by decide)

end Frames

end StackFrames
