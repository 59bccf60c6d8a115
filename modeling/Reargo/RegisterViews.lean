import Reargo.PcodeModel

/-!
# Views of registers kept coherent

SSA keys a register's value by its offset and size, so a lift writes every view of a register
that its instruction's ops write one of. General registers first, then the XMM registers.
-/
namespace RegisterViews

open PcodeModel

def reg (offset : U64) (size : ℕ) : VarnodeData := ⟨.register, offset, size⟩
def constant (value : U64) (size : ℕ) : VarnodeData := ⟨.const, value, size⟩
def unique (offset : U64) (size : ℕ) : VarnodeData := ⟨.unique, offset, size⟩

def xmmBase : U64 := 0x1200

def gprView (v : VarnodeData) : Bool :=
  v.space == .register && decide (v.offset.toNat < 0xC0) && v.offset.toNat % 8 == 0 &&
    (v.size == 1 || v.size == 2 || v.size == 4 || v.size == 8)

/-- `ah`, `ch`, `dh` and `bh`. -/
def highByte (v : VarnodeData) : Bool :=
  v.size == 1 && v.offset.toNat % 8 == 1 && decide (v.offset.toNat < 0x20) &&
    v.space == .register

def xmmView (v : VarnodeData) : Bool :=
  v.space == .register && decide (xmmBase.toNat ≤ v.offset.toNat) &&
    decide (v.offset.toNat < xmmBase.toNat + 16 * 0x10) &&
    (v.offset.toNat - xmmBase.toNat) % 0x10 == 0 &&
    (v.size == 4 || v.size == 8 || v.size == 16)

def mk (opcode : OpCode) (output : VarnodeData) (inputs : List VarnodeData) : PcodeOp :=
  ⟨opcode, some output, inputs⟩

section GeneralRegisters

/-- The ops after a write to a general-register view, and the next temporary. -/
def gprViews (w : VarnodeData) (tmp : U64) : List PcodeOp × U64 :=
  let r := reg w.offset
  let low := fun from_ size => mk .subpiece (r size) [r from_, constant 0 4]
  let isRsp := w.offset == 0x20
  match w.size with
  | 8 => (if !isRsp then [low 8 4, low 8 2, low 8 1] else [], tmp)
  | 4 => (mk .intZExt (r 8) [r 4] :: if !isRsp then [low 4 2, low 4 1] else [], tmp)
  | n =>
    if !isRsp then
      let hi := unique tmp (8 - n)
      ([mk .subpiece hi [r 8, constant n 4], mk .piece (r 8) [hi, r n], low 8 4,
        low 8 (if n == 2 then 1 else 2)], tmp + 0x10)
    else ([], tmp)

def highReads : Option VarnodeData → List VarnodeData → List PcodeOp
  | _, [] => []
  | last, h :: rest =>
    if highByte h then
      let reads := highReads (some h) rest
      if last != some h then mk .subpiece h [reg (h.offset - 1) 8, constant 1 4] :: reads
      else reads
    else highReads last rest

/-- After a write to a high byte, its register rebuilt as by a 16-bit write. -/
def highViews (h : VarnodeData) (tmp : U64) : List PcodeOp × U64 :=
  let base := h.offset - 1
  let hi := unique tmp 6
  ([mk .piece (reg base 2) [h, reg base 1], mk .subpiece hi [reg base 8, constant 2 4],
    mk .piece (reg base 8) [hi, reg base 2], mk .subpiece (reg base 4) [reg base 8, constant 0 4]],
    tmp + 0x10)

def looked (high : Bool) (op : PcodeOp) (tmp : U64) : List PcodeOp × U64 :=
  if !high then
    match op.output.filter gprView with
    | some v =>
      let (views, tmp) := gprViews v tmp
      (op :: views, tmp)
    | none => ([op], tmp)
  else
    let reads := highReads none op.inputs
    match op.output.filter highByte, op.output.filter gprView with
    | some h, _ =>
      let (views, tmp) := highViews h tmp
      (reads ++ op :: views, tmp)
    | none, some v =>
      let (views, tmp) := gprViews v tmp
      (reads ++ op :: views, tmp)
    | none, none => (reads ++ [op], tmp)

def trailingZeros (x : U64) : ℕ := ((List.range 64).find? fun i => x.getLsbD i).getD 64

/-- The ops from the `i`-th on: those before the next one marked go as they are; bit 63 marks
every op from the 64th on. -/
def zeroExtendLoop (touch : U64) (high : Bool) (n : ℕ) : ℕ → ℕ → List PcodeOp → U64 → List PcodeOp
  | 0, _, _, _ => []
  | fuel + 1, i, ops, tmp =>
    if i < n then
      let next := if 63 ≤ i then i
        else min (min (trailingZeros (touch >>> i <<< i)) 63) n
      match ops.drop (next - i) with
      | [] => ops.take (next - i)
      | op :: rest =>
        let (added, tmp) := looked high op tmp
        ops.take (next - i) ++ (added ++ zeroExtendLoop touch high n fuel (next + 1) rest tmp)
    else []

/-- `none` where the room counted for the result is too small. -/
def zeroExtendGpr32Writes (ops : List PcodeOp) (touch : U64) (extra : ℕ) (high : Bool) :
    Option (List PcodeOp) :=
  let out := zeroExtendLoop touch high ops.length (ops.length + 1) 0 ops 0x7e00
  if out.length ≤ ops.length + extra then some out else none

end GeneralRegisters

section XmmRegisters

/-- The ops after a write to an XMM view, and the next temporary. -/
def xmmViews (zeroUpper : Bool) (w : VarnodeData) (tmp : U64) : List PcodeOp × U64 :=
  let r := reg w.offset
  match w.size with
  | 16 => ([mk .subpiece (r 8) [r 16, constant 0 4], mk .subpiece (r 4) [r 16, constant 0 4]], tmp)
  | 8 =>
    if zeroUpper then
      ([mk .subpiece (r 4) [r 8, constant 0 4], mk .intZExt (r 16) [r 8]], tmp)
    else
      let hi := unique tmp 8
      ([mk .subpiece (r 4) [r 8, constant 0 4], mk .subpiece hi [r 16, constant 8 4],
        mk .piece (r 16) [hi, r 8]], tmp + 0x10)
  | _ =>
    if zeroUpper then ([mk .intZExt (r 8) [r 4], mk .intZExt (r 16) [r 4]], tmp)
    else
      let hi4 := unique tmp 4
      let hi8 := unique (tmp + 8) 8
      ([mk .subpiece hi4 [r 8, constant 4 4], mk .piece (r 8) [hi4, r 4],
        mk .subpiece hi8 [r 16, constant 8 4], mk .piece (r 16) [hi8, r 8]], tmp + 0x10)

def syncLoop (zeroUpper : Bool) : List PcodeOp → U64 → List PcodeOp
  | [], _ => []
  | op :: rest, tmp =>
    match op.output.filter xmmView with
    | none => op :: syncLoop zeroUpper rest tmp
    | some w =>
      let (views, tmp) := xmmViews zeroUpper w tmp
      op :: (views ++ syncLoop zeroUpper rest tmp)

def syncXmmViews (ops : List PcodeOp) (zeroUpper : Bool) : List PcodeOp :=
  syncLoop zeroUpper ops 0x7f00

end XmmRegisters

section Finish

/-- What one pass over an instruction's ops finds: whether an XMM view is written, the ops
to look at and how many will be added. -/
structure Found where
  xmm : Bool
  extra : ℕ
  touch : U64

def countHigh : Option VarnodeData → List VarnodeData → ℕ
  | _, [] => 0
  | last, v :: rest =>
    if highByte v then (if last != some v then 1 else 0) + countHigh (some v) rest
    else countHigh last rest

def findStep (high : Bool) (k : ℕ) (op : PcodeOp) (f : Found) : Found :=
  let bit := 1#64 <<< min k 63
  let reads := if high then countHigh none op.inputs else 0
  let f : Found :=
    { f with touch := if 0 < reads then f.touch ||| bit else f.touch, extra := f.extra + reads }
  match op.output with
  | none => f
  | some w =>
    if w.space != .register then f
    else
      let f := { f with xmm := f.xmm || xmmView w }
      if high && highByte w then { f with touch := f.touch ||| bit, extra := f.extra + 4 }
      else if gprView w then
        let isRsp := w.offset == 0x20
        let more := match w.size with
          | 8 => if !isRsp then 3 else 0
          | 4 => 1 + if isRsp then 0 else 2
          | _ => if !isRsp then 4 else 0
        { f with touch := f.touch ||| bit, extra := f.extra + more }
      else f

def find (high : Bool) : ℕ → List PcodeOp → Found → Found
  | _, [], f => f
  | k, op :: rest, f => find high (k + 1) rest (findStep high k op f)

def finishOps (ops : List PcodeOp) (high zeroUpper : Bool) : Option (List PcodeOp) :=
  let f := find high 0 ops ⟨false, 0, 0⟩
  let gpr :=
    if f.touch != 0 && f.extra != 0 then
      let touch := if 64 < ops.length then f.touch ||| (BitVec.allOnes 64 <<< 63) else f.touch
      zeroExtendGpr32Writes ops touch f.extra high
    else some ops
  gpr.map fun ops => if f.xmm then syncXmmViews ops zeroUpper else ops

end Finish

end RegisterViews
